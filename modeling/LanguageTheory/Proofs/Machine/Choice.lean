import LanguageTheory.Proofs.Automaton.Determinism
import LanguageTheory.Proofs.Machine.Acceptance
import LanguageTheory.Proofs.Machine.Resumption

/-! Where a machine has a choice. Two labels overlap just when some store allows both, so the states that an
automaton is reported to have a choice in are those where the machine can really make two moves. Where there
are none, each expansion of a search makes room for one configuration and puts at most one in its place, and
no generation has more than one. -/

namespace LanguageTheory

/-! ### Labels -/

theorem Word.comparable_iff {u v : Word} : Word.comparable u v = true ↔ ∃ w, u <+: w ∧ v <+: w := by
  rw [Word.comparable, Bool.or_eq_true, List.isPrefixOf_iff_prefix, List.isPrefixOf_iff_prefix]
  constructor
  · rintro (h | h)
    · exact ⟨v, h, List.prefix_rfl⟩
    · exact ⟨u, List.prefix_rfl, h⟩
  · rintro ⟨w, hu, hv⟩
    exact List.prefix_or_prefix_of_prefix hu hv

/-- The kind of machine that has such a store. -/
def Store.kind : Store → Kind
  | finite _ => .finite
  | pushdown .. => .pushdown
  | turing _ => .turing

namespace Label

variable {l l' : Label} {ls : List Label} {store : Store}

/-- What a store has to show for a move with the label. -/
def Fits : Label → Store → Prop
  | finite read, .finite remaining => read <+: remaining
  | pushdown read pop _, .pushdown remaining stack => read <+: remaining ∧ pop <+: stack
  | turing read _ _, .turing tape => tape.cell = read
  | _, _ => False

theorem isSome_after?_iff : (store.after? l).isSome = true ↔ l.Fits store := by
  cases l with
  | finite read =>
      cases store with
      | finite remaining =>
          simp only [Store.after?, Fits, Option.isSome_map, List.isSome_isPrefixOf?_eq_isPrefixOf,
            List.isPrefixOf_iff_prefix]
      | pushdown remaining stack => simp [Store.after?, Fits]
      | turing tape => simp [Store.after?, Fits]
  | pushdown read pop push =>
      cases store with
      | pushdown remaining stack =>
          simp only [Store.after?, Fits, Option.isSome_iff_exists, Option.bind_eq_bind, Option.bind_eq_some_iff,
            List.isPrefixOf?_eq_some_iff_append_eq, Stack.exchange?, Option.ite_none_right_eq_some, Stack.shows,
            List.isPrefixOf_iff_prefix]
          constructor
          · rintro ⟨_, rest, hrest, _, ⟨hpop, _⟩, _⟩
            exact ⟨⟨rest, hrest⟩, hpop⟩
          · rintro ⟨⟨rest, hrest⟩, hpop⟩
            exact ⟨_, rest, hrest, _, ⟨hpop, rfl⟩, rfl⟩
      | finite remaining => simp [Store.after?, Fits]
      | turing tape => simp [Store.after?, Fits]
  | turing read write direction =>
      cases store with
      | turing tape => simp [Store.after?, Fits]
      | finite remaining => simp [Store.after?, Fits]
      | pushdown remaining stack => simp [Store.after?, Fits]

theorem Fits.kind_eq (h : l.Fits store) : store.kind = l.kind := by
  cases l <;> cases store <;> grind [Fits, Store.kind, kind]

/-- Labels overlap if there is a store that fits both. -/
theorem overlaps_iff : l.overlaps l' = true ↔ ∃ store, l.Fits store ∧ l'.Fits store := by
  constructor
  · intro h
    match l, l' with
    | finite read, finite read' =>
        obtain ⟨w, hread, hread'⟩ := Word.comparable_iff.1 h
        exact ⟨.finite w, hread, hread'⟩
    | pushdown read pop _, pushdown read' pop' _ =>
        obtain ⟨hw, hz⟩ := Bool.and_eq_true_iff.1 h
        obtain ⟨w, hread, hread'⟩ := Word.comparable_iff.1 hw
        obtain ⟨z, hpop, hpop'⟩ := Word.comparable_iff.1 hz
        exact ⟨.pushdown w z, ⟨hread, hpop⟩, hread', hpop'⟩
    | turing read _ _, turing read' _ _ =>
        exact ⟨.turing ⟨[], read, []⟩, rfl, beq_iff_eq.1 h⟩
  · rintro ⟨store, h, h'⟩
    match l, l', store with
    | finite _, finite _, .finite w => exact Word.comparable_iff.2 ⟨w, h, h'⟩
    | pushdown .., pushdown .., .pushdown w z =>
        exact Bool.and_eq_true_iff.2 ⟨Word.comparable_iff.2 ⟨w, h.1, h'.1⟩, Word.comparable_iff.2 ⟨z, h.2, h'.2⟩⟩
    | turing .., turing .., .turing tape => exact beq_iff_eq.2 (h.symm.trans h')

theorem clash_iff : clash ls = true ↔ ∃ l l', [l, l'].Sublist ls ∧ l.overlaps l' = true := by
  rw [← Bool.not_eq_false, clash_eq_false_iff, List.pairwise_iff_forall_sublist]
  simp only [not_forall, Bool.not_eq_false, exists_prop]

end Label

/-! ### Moves -/

theorem two_le_length_filter_iff {α : Type} {p : α → Bool} {xs : List α} :
    2 ≤ (xs.filter p).length ↔ ∃ x y, [x, y].Sublist xs ∧ p x = true ∧ p y = true := by
  constructor
  · intro h
    match hfilter : xs.filter p with
    | [] => simp [hfilter] at h
    | [x] => simp [hfilter] at h
    | x :: y :: rest =>
        have hpair : [x, y].Sublist (xs.filter p) := by
          rw [hfilter]
          exact ((List.nil_sublist rest).cons_cons y).cons_cons x
        have hx := List.of_mem_filter (hpair.subset (List.mem_cons_self ..))
        have hy := List.of_mem_filter (hpair.subset (List.mem_cons_of_mem _ (List.mem_singleton_self y)))
        exact ⟨x, y, hpair.trans List.filter_sublist, hx, hy⟩
  · rintro ⟨x, y, hpair, hx, hy⟩
    have hle := (hpair.filter p).length_le
    rwa [List.filter_cons_of_pos hx, List.filter_cons_of_pos hy, List.filter_nil] at hle

/-- A configuration has several successors if two of the moves out of its state are possible. -/
theorem Simulator.two_le_length_step_iff {m : Simulator} {c : Configuration} : 2 ≤ (m.step c).length ↔
    ∃ t u, [t, u].Sublist (m.automaton.transitionsFrom c.state) ∧ t.label.Fits c.store ∧ u.label.Fits c.store := by
  have hlength : (m.step c).length =
      ((m.automaton.transitionsFrom c.state).filter fun t => (c.store.after? t.label).isSome).length := by
    rw [step, List.length_filterMap_eq_countP, List.countP_eq_length_filter]
    simp only [Option.isSome_map]
  rw [hlength, two_le_length_filter_iff]
  simp only [Label.isSome_after?_iff]

namespace Automaton

variable {a : Automaton} {s : StateId} {config : SearchConfig} {c : Configuration}

/-- A state is reported if two of the moves out of it overlap. -/
theorem mem_nondeterministicStates : s ∈ a.nondeterministicStates ↔ s ∈ a.ids ∧
    ∃ t u, [t, u].Sublist (a.transitionsFrom s) ∧ t.label.overlaps u.label = true := by
  rw [nondeterministicStates, List.mem_filter, Label.clash_iff]
  refine and_congr_right fun _ => ?_
  constructor
  · rintro ⟨l, l', hpair, hoverlaps⟩
    obtain ⟨moves, hmoves, heq⟩ := List.sublist_map_iff.1 hpair
    have hlength : moves.length = 2 := by simpa using (congrArg List.length heq).symm
    obtain ⟨t, u, rfl⟩ := List.length_eq_two.1 hlength
    obtain ⟨rfl, rfl⟩ : l = t.label ∧ l' = u.label := by simpa using heq
    exact ⟨t, u, hmoves, hoverlaps⟩
  · rintro ⟨t, u, hpair, hoverlaps⟩
    exact ⟨t.label, u.label, hpair.map Transition.label, hoverlaps⟩

/-- A state where some configuration has several successors is reported. -/
theorem WellFormed.state_mem_nondeterministicStates (ha : a.WellFormed)
    (h : 2 ≤ ((Simulator.mk a config).step c).length) : c.state ∈ a.nondeterministicStates := by
  obtain ⟨t, u, hpair, ht, hu⟩ := Simulator.two_le_length_step_iff.1 h
  obtain ⟨hmem, hsource⟩ := List.mem_filter.1 (hpair.subset (List.mem_cons_self ..))
  refine mem_nondeterministicStates.2 ⟨?_, t, u, hpair, Label.overlaps_iff.2 ⟨c.store, ht, hu⟩⟩
  rw [← beq_iff_eq.1 hsource]
  exact (ha.endpoints_mem t hmem).1

/-- In a state that is reported some configuration of the automaton's kind has several successors. -/
theorem WellFormed.exists_two_le_length_step (ha : a.WellFormed) (config : SearchConfig)
    (h : s ∈ a.nondeterministicStates) : ∃ c : Configuration, c.state = s ∧ c.store.kind = a.kind ∧
      2 ≤ ((Simulator.mk a config).step c).length := by
  obtain ⟨_, t, u, hpair, hoverlaps⟩ := mem_nondeterministicStates.1 h
  obtain ⟨store, ht, hu⟩ := Label.overlaps_iff.1 hoverlaps
  obtain ⟨hmem, _⟩ := List.mem_filter.1 (hpair.subset (List.mem_cons_self ..))
  refine ⟨⟨s, store⟩, rfl, ?_, Simulator.two_le_length_step_iff.2 ⟨t, u, hpair, ht, hu⟩⟩
  exact ht.kind_eq.trans (ha.kind_eq t hmem)

/-- If no state is reported, no configuration has several successors. -/
theorem WellFormed.length_step_le (ha : a.WellFormed) (hdeterministic : a.isDeterministic = true)
    (config : SearchConfig) (c : Configuration) : ((Simulator.mk a config).step c).length ≤ 1 := by
  rw [isDeterministic, List.isEmpty_iff] at hdeterministic
  by_contra hlt
  have hmem := ha.state_mem_nondeterministicStates (Nat.lt_of_not_le hlt)
  rw [hdeterministic] at hmem
  cases hmem

end Automaton

/-! ### Searches -/

namespace Search

variable {m : Simulator} {s s' : Search}

/-- The frontier has at most one configuration, and so has what comes after it: what still waits and what the
rest has led to are counted together. -/
structure Narrow (s : Search) : Prop where
  length_step_le : ∀ c, (s.machine.step c).length ≤ 1
  length_frontier_le : s.frontier.length ≤ 1
  length_waiting_add_le : s.waiting.length + s.next.size ≤ 1

theorem size_next_foldl_enter_le (parent : Option Nat) (cs : List Configuration) (s : Search) :
    (cs.foldl (enter parent) s).next.size ≤ s.next.size + cs.length := by
  induction cs generalizing s with
  | nil => exact Nat.le_refl _
  | cons c cs ih =>
      have henter : (enter parent s c).next.size ≤ s.next.size + 1 := by
        unfold enter
        split
        · exact Nat.le_succ _
        · exact Nat.le_of_eq (Array.size_push _)
      have hle := ih (enter parent s c)
      rw [List.foldl_cons, List.length_cons]
      omega

theorem Narrow.size_next_expand_le (h : Narrow s) (id : Nat) : (s.expand id).next.size ≤ s.next.size + 1 := by
  unfold expand
  cases s.configuration? id with
  | none => exact Nat.le_succ _
  | some c => exact (size_next_foldl_enter_le _ _ s).trans (Nat.add_le_add_left (h.length_step_le c) _)

/-- Each move of a search keeps it narrow: what is expanded makes room for what it leads to. -/
theorem Narrow.tick (h : Narrow s) : Narrow s.tick := by
  cases houtcome : s.outcome with
  | some o =>
      rw [tick_of_outcome houtcome]
      exact h
  | none =>
      cases hchecked : s.checked with
      | false =>
          rw [tick_of_unchecked houtcome hchecked]
          exact ⟨h.length_step_le, h.length_frontier_le, h.length_waiting_add_le⟩
      | true =>
          have hle := h.length_waiting_add_le
          cases hwaiting : s.waiting with
          | nil =>
              rw [tick_of_expanded houtcome hchecked hwaiting]
              have hnext : s.next.toList.length ≤ 1 := by
                rw [Array.length_toList]
                omega
              exact ⟨h.length_step_le, hnext, hnext⟩
          | cons id rest =>
              rw [tick_of_waiting houtcome hchecked hwaiting, expand_waiting]
              have hframe := expand_frame s id
              have hsize := h.size_next_expand_le id
              rw [hwaiting, List.length_cons] at hle
              refine ⟨?_, ?_, ?_⟩
              · rw [show (s.expand id).machine = s.machine from congrArg (·.machine) hframe]
                exact h.length_step_le
              · rw [show (s.expand id).frontier = s.frontier from congrArg (·.frontier) hframe]
                exact h.length_frontier_le
              · show rest.length + (s.expand id).next.size ≤ 1
                omega

theorem Narrow.moved (h : Narrow s) (hmoved : Moved s s') : Narrow s' := by
  obtain ⟨-, n, rfl, -⟩ := hmoved
  induction n with
  | zero => exact h
  | succ n ih =>
      rw [Function.iterate_succ_apply']
      exact ih.tick

theorem Narrow.perform (h : Narrow s) (call : Call) : Narrow (s.perform call) := by
  cases call with
  | step => exact h.moved (moved_stepGeneration s).1
  | run => exact h.moved (moved_runFor _ s)
  | raise extra => exact ⟨h.length_step_le, h.length_frontier_le, h.length_waiting_add_le⟩

/-- A machine has at most one initial configuration. -/
theorem narrow_start (hm : ∀ c, (m.step c).length ≤ 1) (input : Word) : Narrow (start m input) := by
  have hinitial : (m.initialConfigurations input).length ≤ 1 := by
    rw [Simulator.initialConfigurations, List.length_map]
    exact Option.length_toList_le
  have hnext : (loaded m input).next.toList.length ≤ 1 := by
    have hle := size_next_foldl_enter_le none (m.initialConfigurations input) (blank m)
    rw [Array.length_toList]
    exact hle.trans (by rwa [show (blank m).next.size = 0 from rfl, Nat.zero_add])
  have hmachine : (start m input).machine = m := (entered_loaded m input).machine_eq
  exact ⟨fun c => by rw [hmachine]; exact hm c, hnext, hnext⟩

theorem narrow_performAll (hm : ∀ c, (m.step c).length ≤ 1) (input : Word) (calls : List Call) :
    Narrow (calls.foldl perform (start m input)) := by
  induction calls using List.reverseRecOn with
  | nil => exact narrow_start hm input
  | append_singleton calls call ih =>
      rw [List.foldl_append]
      exact ih.perform call

end Search

namespace Automaton

/-- The states that are reported are those where some configuration has several successors. If there are none,
no generation of a search has several configurations, whatever is called on it. -/
theorem nondeterminism_exact {a : Automaton} {initial : StateId} (ha : a.WellFormed)
    (hinitial : a.initial = some initial) (config : SearchConfig) :
    ∃ m, Simulator.of a config = .ok m ∧
      (∀ s, s ∈ a.nondeterministicStates ↔
        ∃ c : Configuration, c.state = s ∧ c.store.kind = a.kind ∧ 2 ≤ (m.step c).length) ∧
      (a.isDeterministic = true → ∀ (input : Word) (calls : List Search.Call),
        (calls.foldl Search.perform (Search.start m input)).frontier.length ≤ 1) := by
  refine ⟨⟨a, config⟩, Simulator.of_eq_ok ha hinitial config, fun s => ⟨?_, ?_⟩, ?_⟩
  · exact ha.exists_two_le_length_step config
  · rintro ⟨c, rfl, _, hlength⟩
    exact ha.state_mem_nondeterministicStates hlength
  · intro hdeterministic input calls
    exact (Search.narrow_performAll (ha.length_step_le hdeterministic config) input calls).length_frontier_le

/-- A pushdown automaton with a choice between two moves that the topmost symbol decides. -/
def peeking : Automaton :=
  { ofLabels .pushdown [none, none] with
    initial := some 0
    initialStack := ['X', 'Y']
    transitions := [⟨0, 0, .pushdown ['a'] ['X'] []⟩, ⟨0, 1, .pushdown ['a'] ['Y'] []⟩] }

/-- The same with a move that reads nothing and overlaps with the first. -/
def hesitating : Automaton :=
  { peeking with transitions := peeking.transitions ++ [⟨0, 1, .pushdown [] ['X', 'Y'] []⟩] }

theorem nondeterminism_exact_peeking : peeking.WellFormed ∧ peeking.initial = some 0 ∧
    peeking.isDeterministic = true ∧ hesitating.WellFormed ∧ hesitating.initial = some 0 ∧
    0 ∈ hesitating.nondeterministicStates ∧
    (∃ m, Simulator.of peeking {} = .ok m ∧ ∀ (input : Word) (calls : List Search.Call),
      (calls.foldl Search.perform (Search.start m input)).frontier.length ≤ 1) ∧
    ∃ m, Simulator.of hesitating {} = .ok m ∧
      ∃ c : Configuration, c.state = 0 ∧ c.store.kind = .pushdown ∧ 2 ≤ (m.step c).length := by
  have hpeeking : peeking.WellFormed := by decide
  have hhesitating : hesitating.WellFormed := by decide
  have hdeterministic : peeking.isDeterministic = true := by decide
  have hmem : 0 ∈ hesitating.nondeterministicStates := by decide
  obtain ⟨m, hm, _, hfrontier⟩ := nondeterminism_exact hpeeking rfl {}
  obtain ⟨m', hm', hexact, _⟩ := nondeterminism_exact hhesitating rfl {}
  exact ⟨hpeeking, rfl, hdeterministic, hhesitating, rfl, hmem, ⟨m, hm, hfrontier hdeterministic⟩, m', hm',
    (hexact 0).1 hmem⟩

end Automaton

end LanguageTheory
