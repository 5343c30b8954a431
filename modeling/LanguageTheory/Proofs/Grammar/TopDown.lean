import LanguageTheory.Grammar.Converter
import LanguageTheory.Proofs.Grammar.Derivation
import LanguageTheory.Proofs.Machine.Acceptance
import LanguageTheory.Proofs.Machine.AcceptanceMode

/-! The pushdown automaton of a grammar accepts what the grammar generates, whichever way it is to accept.
In its working state the stack holds, above the end marker, what is expected of the input; what has been
read and then what is expected is derived from the start variable. The end marker is taken off only on
the way to the final state, so the stack is empty there and nowhere else. -/

namespace LanguageTheory.Grammar

variable {g : Grammar} {a : Automaton} {m : Simulator} {config : SearchConfig} {b c : Configuration} {t : Transition}
  {u x input rest : Word} {below : Stack} {d k : Nat} {mode : Acceptance}

/-! ### The automaton -/

/-- The moves of the automaton. -/
inductive TopDownMove (g : Grammar) : Transition → Prop
  | begins : TopDownMove g ⟨0, 1, .pushdown [] [endMarker] [g.start, endMarker]⟩
  | replaces {p : Production} : p ∈ g.productions → TopDownMove g ⟨1, 1, .pushdown [] [p.left] p.right⟩
  | reads {c : Char} : c ∈ g.terminals → TopDownMove g ⟨1, 1, .pushdown [c] [c] []⟩
  | ends : TopDownMove g ⟨1, 2, .pushdown [] [endMarker] []⟩

/-- What the construction makes, up to the order of the transitions. -/
structure TopDown (g : Grammar) (a : Automaton) : Prop where
  wellFormed : a.WellFormed
  kind_eq : a.kind = .pushdown
  initial_eq : a.initial = some 0
  mem_finals : ∀ s, s ∈ a.finals ↔ s = 2
  stack_eq : a.initialStack = [endMarker]
  mem_transitions : ∀ t, t ∈ a.transitions ↔ TopDownMove g t

theorem mem_transitions_topDownScaffold : t ∈ g.topDownScaffold.transitions ↔
    t = ⟨0, 1, .pushdown [] [endMarker] [g.start, endMarker]⟩ ∨
      (∃ c ∈ g.terminals, t = ⟨1, 1, .pushdown [c] [c] []⟩) ∨ t = ⟨1, 2, .pushdown [] [endMarker] []⟩ := by
  simp only [topDownScaffold, List.cons_append, List.mem_cons, List.mem_append, List.mem_map, List.not_mem_nil,
    or_false, ← Ascending.mem_def, eq_comm (b := t)]

theorem ids_topDownScaffold (g : Grammar) : g.topDownScaffold.ids = [0, 1, 2] := rfl

theorem nodup_transitions_topDownScaffold (g : Grammar) : g.topDownScaffold.transitions.Nodup := by
  have hmatches : (g.terminals.toList.map fun c => (⟨1, 1, .pushdown [c] [c] []⟩ : Transition)).Nodup := by
    refine g.terminals.nodup_toList.map fun c c' heq => ?_
    simp only [Transition.mk.injEq, Label.pushdown.injEq, List.cons.injEq] at heq
    exact heq.2.2.1.1
  -- The first and the last transition connect other states.
  refine List.nodup_cons.2 ⟨?_, List.nodup_append_comm.1 (List.nodup_cons.2 ⟨?_, hmatches⟩)⟩ <;> simp

theorem wellFormed_topDownScaffold (g : Grammar) : g.topDownScaffold.WellFormed where
  nodup_ids := by
    rw [ids_topDownScaffold]
    decide
  lt_nextId := by
    intro id hid
    rw [ids_topDownScaffold] at hid
    exact (by decide : ∀ i ∈ [0, 1, 2], i < 3) id hid
  initial_mem := by
    intro id hid
    obtain rfl := Option.some.inj hid
    exact List.mem_cons_self
  finals_mem := by
    intro id hid
    obtain rfl := List.mem_singleton.1 (Ascending.mem_ofList.1 hid)
    rw [ids_topDownScaffold]
    decide
  endpoints_mem := by
    intro t ht
    rw [ids_topDownScaffold]
    rcases mem_transitions_topDownScaffold.1 ht with rfl | ⟨c, _, rfl⟩ | rfl <;> simp
  nodup_transitions := nodup_transitions_topDownScaffold g
  kind_eq := by
    intro t ht
    rcases mem_transitions_topDownScaffold.1 ht with rfl | ⟨c, _, rfl⟩ | rfl <;> rfl
  stack_eq := fun h => (h rfl).elim

/-- The construction never fails. -/
theorem exists_toPushdown (g : Grammar) : ∃ a, g.toPushdown = .ok a ∧ TopDown g a := by
  have hfits : ∀ t ∈ g.productions.map topDownTransition, t.kind = g.topDownScaffold.kind ∧
      t.source ∈ g.topDownScaffold.ids ∧ t.target ∈ g.topDownScaffold.ids := by
    intro t ht
    obtain ⟨p, _, rfl⟩ := List.mem_map.1 ht
    rw [ids_topDownScaffold]
    exact ⟨rfl, by simp [topDownTransition], by simp [topDownTransition]⟩
  obtain ⟨ts, hok, hwellFormed, hts⟩ := (wellFormed_topDownScaffold g).exists_addTransitions hfits
  refine ⟨_, ?_, hwellFormed, rfl, rfl, fun s => ?_, rfl, fun t => ?_⟩
  · rw [Automaton.addTransitions, List.foldlM_map] at hok
    exact hok
  · exact Ascending.mem_ofList.trans List.mem_singleton
  · rw [hts, mem_transitions_topDownScaffold, List.mem_map]
    constructor
    · rintro ((rfl | ⟨c, hc, rfl⟩ | rfl) | ⟨p, hp, rfl⟩)
      · exact .begins
      · exact .reads hc
      · exact .ends
      · exact .replaces hp
    · rintro (_ | hp | hc | _)
      · exact .inl (.inl rfl)
      · exact .inr ⟨_, hp, rfl⟩
      · exact .inl (.inr (.inl ⟨_, hc, rfl⟩))
      · exact .inl (.inr (.inr rfl))

/-! ### What the automaton can reach -/

/-- Before the first move, in the working state and in the final one. -/
inductive Expecting (g : Grammar) (input : Word) : Configuration → Prop
  | begins : Expecting g input ⟨0, .pushdown input [endMarker]⟩
  | works {x u rest : Word} : x.all isTerminal = true → endMarker ∉ u → input = x ++ rest →
      g.Derives [g.start] (x ++ u) → Expecting g input ⟨1, .pushdown rest (u ++ [endMarker])⟩
  | ends {x rest : Word} : x.all isTerminal = true → input = x ++ rest → g.Derives [g.start] x →
      Expecting g input ⟨2, .pushdown rest []⟩

/-- The symbol above the end marker is part of what is expected. -/
theorem exists_of_append_endMarker {e : Char} (hne : e ≠ endMarker) (h : u ++ [endMarker] = [e] ++ below) :
    ∃ v, u = e :: v ∧ below = v ++ [endMarker] := by
  cases u with
  | nil => exact (hne (List.cons.inj h).1.symm).elim
  | cons e' v =>
      obtain ⟨rfl, hv⟩ := List.cons.inj h
      exact ⟨v, rfl, hv.symm⟩

theorem eq_nil_of_append_endMarker (hu : endMarker ∉ u) (h : u ++ [endMarker] = [endMarker] ++ below) :
    u = [] ∧ below = [] := by
  cases u with
  | nil => exact ⟨rfl, (List.cons.inj h).2.symm⟩
  | cons e v =>
      obtain ⟨rfl, _⟩ := List.cons.inj h
      exact (hu List.mem_cons_self).elim

/-- One move keeps what is known of a configuration. -/
theorem Expecting.step (h : TopDown g m.automaton) (hb : Expecting g input b) (hstep : c ∈ m.step b) :
    Expecting g input c := by
  obtain ⟨state, store⟩ := c
  cases hb with
  | begins =>
      obtain ⟨t, ht, read, pop, push, left, below, hsource, rfl, hlabel, hrest, hstack, rfl⟩ :=
        (Simulator.mem_step_pushdown rfl).1 hstep
      cases (h.mem_transitions t).1 ht with
      | begins =>
          cases hlabel
          obtain ⟨_, rfl⟩ := List.cons.inj hstack
          have hstart : endMarker ≠ g.start := fun heq => absurd g.start_isVariable (heq ▸ by decide)
          exact .works (x := []) (u := [g.start]) rfl (fun hmem => hstart (List.mem_singleton.1 hmem)) hrest .refl
      | replaces => cases hsource
      | reads => cases hsource
      | ends => cases hsource
  | @works x u rest hx hu hinput hderives =>
      obtain ⟨t, ht, read, pop, push, left, below, hsource, rfl, hlabel, hrest, hstack, rfl⟩ :=
        (Simulator.mem_step_pushdown rfl).1 hstep
      cases (h.mem_transitions t).1 ht with
      | begins => cases hsource
      | @replaces p hp =>
          cases hlabel
          have hleft : p.left ≠ endMarker := fun heq => absurd p.left_isVariable (heq ▸ by decide)
          obtain ⟨v, rfl, rfl⟩ := exists_of_append_endMarker hleft hstack
          have hu' : endMarker ∉ p.right ++ v :=
            List.not_mem_append (endMarker_not_mem_right p) fun hv => hu (List.mem_cons_of_mem _ hv)
          have hderives' := hderives.step (.intro x v p hp)
          rw [List.append_assoc] at hderives'
          rw [List.nil_append] at hrest
          rw [← List.append_assoc]
          exact .works hx hu' (hrest ▸ hinput) hderives'
      | @reads e he =>
          cases hlabel
          obtain ⟨p, _, he⟩ := List.mem_flatMap.1 (Ascending.mem_ofList.1 he)
          obtain ⟨he, hterminal⟩ := List.mem_filter.1 he
          have hne : e ≠ endMarker := fun heq => endMarker_not_mem_right p (heq ▸ he)
          obtain ⟨v, rfl, rfl⟩ := exists_of_append_endMarker hne hstack
          rw [hrest, ← List.append_assoc] at hinput
          rw [List.append_cons] at hderives
          refine .works ?_ (fun hv => hu (List.mem_cons_of_mem _ hv)) hinput hderives
          rw [List.all_append, hx, List.all_cons, hterminal]
          rfl
      | ends =>
          cases hlabel
          obtain ⟨rfl, rfl⟩ := eq_nil_of_append_endMarker hu hstack
          rw [List.append_nil] at hderives
          rw [List.nil_append] at hrest
          exact .ends hx (hrest ▸ hinput) hderives
  | ends =>
      obtain ⟨t, ht, read, pop, push, left, below, hsource, _⟩ := (Simulator.mem_step_pushdown rfl).1 hstep
      cases (h.mem_transitions t).1 ht <;> cases hsource

theorem expecting_of_reachedIn (h : TopDown g m.automaton) (hreached : m.ReachedIn input k c) :
    Expecting g input c := by
  induction hreached with
  | @initial c hc =>
      obtain ⟨state, store⟩ := c
      obtain ⟨hstate, rfl⟩ := Simulator.mem_initialConfigurations.1 hc
      rw [h.initial_eq] at hstate
      obtain rfl := Option.some.inj hstate
      rw [Simulator.initialStore_pushdown h.kind_eq, h.stack_eq]
      exact .begins
  | step _ hstep ih => exact ih.step h hstep

/-- The stack is empty in the final state only, so that all three ways to accept say the same. -/
theorem Expecting.accepts_iff (h : TopDown g m.automaton) (hc : Expecting g input c) :
    m.accepts c = true ↔ c.state = 2 ∧ c.store = .pushdown [] [] := by
  have hfinal : ∀ s, m.automaton.isFinal s = decide (s = 2) := fun s => decide_eq_decide.2 (h.mem_finals s)
  cases hc with
  | begins => cases hmode : m.config.acceptance <;> simp [Simulator.accepts, hmode, hfinal]
  | works => cases hmode : m.config.acceptance <;> simp [Simulator.accepts, hmode, hfinal]
  | ends => cases hmode : m.config.acceptance <;> simp [Simulator.accepts, hmode, hfinal]

theorem indifferent_of_topDown (h : TopDown g m.automaton) (input : Word) (mode : Acceptance) :
    m.Indifferent input mode := by
  intro k c hreached
  have hc := expecting_of_reachedIn h hreached
  rw [Bool.eq_iff_iff, hc.accepts_iff h]
  exact hc.accepts_iff (m := m.withAcceptance mode) h

/-! ### What the automaton accepts -/

theorem mem_terminals_of_mem_right {p : Production} {e : Char} (hp : p ∈ g.productions) (he : e ∈ p.right)
    (hterminal : isTerminal e = true) : e ∈ g.terminals :=
  Ascending.mem_ofList.2 (List.mem_flatMap.2 ⟨p, hp, List.mem_filter.2 ⟨he, hterminal⟩⟩)

/-- The working state goes through a forest that stands on the symbols on top of the stack. -/
theorem exists_reachedIn_of_grown (h : TopDown g m.automaton) (hgrown : Grown g d u x)
    (hu : ∀ e ∈ u, isTerminal e = true → e ∈ g.terminals)
    (hreached : m.ReachedIn input k ⟨1, .pushdown (x ++ rest) (u ++ below)⟩) :
    ∃ k', m.ReachedIn input k' ⟨1, .pushdown rest below⟩ := by
  induction hgrown generalizing k rest below with
  | nil => exact ⟨k, hreached⟩
  | @leaf d e u x he _ ih =>
      have hmove := TopDownMove.reads (hu e List.mem_cons_self he)
      refine ih (fun e' he' => hu e' (List.mem_cons_of_mem e he')) (hreached.step ?_)
      exact (Simulator.mem_step_pushdown rfl).2
        ⟨_, (h.mem_transitions _).2 hmove, _, _, _, _, _, rfl, rfl, rfl, rfl, rfl, rfl⟩
  | @node d p u x y hp _ _ ih ih' =>
      have hstep : (⟨1, .pushdown (x ++ (y ++ rest)) (p.right ++ (u ++ below))⟩ : Configuration) ∈
          m.step ⟨1, .pushdown (x ++ y ++ rest) (p.left :: u ++ below)⟩ :=
        (Simulator.mem_step_pushdown rfl).2 ⟨_, (h.mem_transitions _).2 (.replaces hp), _, _, _, _, u ++ below,
          rfl, rfl, rfl, List.append_assoc x y rest, rfl, rfl⟩
      obtain ⟨k', hk'⟩ := ih (fun _ he hterminal => mem_terminals_of_mem_right hp he hterminal) (hreached.step hstep)
      exact ih' (fun e he => hu e (List.mem_cons_of_mem _ he)) hk'

theorem accepts_of_generates (h : TopDown g m.automaton) (hw : g.Generates input) : m.Accepts input := by
  obtain ⟨hterminal, hderives⟩ := hw
  obtain ⟨d, hgrown⟩ := (derives_iff_grown hterminal).1 hderives
  have hinitial : m.ReachedIn input 0 ⟨0, .pushdown input [endMarker]⟩ := by
    refine .initial (Simulator.mem_initialConfigurations.2 ⟨h.initial_eq, ?_⟩)
    rw [Simulator.initialStore_pushdown h.kind_eq, h.stack_eq]
  have hbegins : m.ReachedIn input 1 ⟨1, .pushdown (input ++ []) ([g.start] ++ [endMarker])⟩ := by
    refine hinitial.step ((Simulator.mem_step_pushdown rfl).2 ⟨_, (h.mem_transitions _).2 .begins, [], _, _,
      input ++ [], [], rfl, rfl, rfl, (List.append_nil input).symm, rfl, rfl⟩)
  have hstart : ∀ e ∈ [g.start], isTerminal e = true → e ∈ g.terminals := by
    intro e he hterminal
    rw [List.mem_singleton.1 he, isTerminal, g.start_isVariable] at hterminal
    cases hterminal
  obtain ⟨k, hk⟩ := exists_reachedIn_of_grown h hgrown hstart hbegins
  have hends : m.ReachedIn input (k + 1) ⟨2, .pushdown [] []⟩ :=
    hk.step ((Simulator.mem_step_pushdown rfl).2 ⟨_, (h.mem_transitions _).2 .ends, [], [endMarker], [],
      [], [], rfl, rfl, rfl, rfl, rfl, rfl⟩)
  exact ⟨k + 1, _, hends, ((expecting_of_reachedIn h hends).accepts_iff h).2 ⟨rfl, rfl⟩⟩

theorem generates_of_accepts (h : TopDown g m.automaton) (haccepts : m.Accepts input) : g.Generates input := by
  obtain ⟨k, c, hreached, haccepts⟩ := haccepts
  have hc := expecting_of_reachedIn h hreached
  obtain ⟨hstate, hstore⟩ := (hc.accepts_iff h).1 haccepts
  cases hc with
  | begins => cases hstate
  | works => cases hstate
  | ends hterminal hinput hderives =>
      obtain rfl := (Store.pushdown.inj hstore).1
      rw [hinput, List.append_nil]
      exact ⟨hterminal, hderives⟩

/-- The pushdown automaton of a grammar accepts the words that the grammar generates, whichever way it
is to accept. Its searches take the same course for all of them, whatever they are told about bounds and
repeats. -/
theorem toPushdown_correct (g : Grammar) : ∃ a, g.toPushdown = .ok a ∧
    ∀ (config : SearchConfig) (input : Word), ∃ m, Simulator.of a config = .ok m ∧
      (m.Accepts input ↔ g.Generates input) ∧
      ∀ mode, ∃ m', Simulator.of a { config with acceptance := mode } = .ok m' ∧
        m'.run input = m.run input ∧ (Search.start m' input).run.1 = (Search.start m input).run.1 ∧
        (Search.start m' input).run.2.arena = (Search.start m input).run.2.arena := by
  obtain ⟨a, ha, h⟩ := exists_toPushdown g
  refine ⟨a, ha, fun config input => ⟨⟨a, config⟩, Simulator.of_eq_ok h.wellFormed h.initial_eq config, ?_, ?_⟩⟩
  · exact ⟨generates_of_accepts h, accepts_of_generates h⟩
  · intro mode
    have hindifferent := indifferent_of_topDown (m := ⟨a, config⟩) h input mode
    have hsearch := Search.run_withAcceptance hindifferent
    exact ⟨_, Simulator.of_eq_ok h.wellFormed h.initial_eq _, Simulator.run_withAcceptance hindifferent,
      congrArg (·.1) hsearch, congrArg (·.2.arena) hsearch⟩

end LanguageTheory.Grammar
