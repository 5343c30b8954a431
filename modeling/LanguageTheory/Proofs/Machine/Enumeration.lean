import LanguageTheory.Proofs.Machine.Resumption
import LanguageTheory.Proofs.Machine.Ways

/-! A search meets the ways of its machine generation by generation, in their order: all of them, or the
first ones to each configuration. Whatever is called, it stands somewhere among them. -/

namespace LanguageTheory.Search

variable {m : Simulator} {input : Word} {s s' : Search} {parent : Option Nat} {cs before : List Configuration}
  {c : Configuration} {ws past future : List Way} {w : Way} {id p k : Nat}

/-! ### Ways in the arena -/

/-- What has been produced are the ends of the given ways, and the ways to them are these. -/
structure Spells (s : Search) (ws : List Way) : Prop where
  configurations_eq : s.configurations = ws.map (·.last)
  path_eq : ∀ id w, ws[id]? = some w → (s.path id).map s.configuration? = w.toList.map some

theorem Spells.size_eq (h : Spells s ws) : s.arena.size = ws.length := by
  have hlength := congrArg List.length h.configurations_eq
  rwa [configurations, List.length_map, Array.length_toList, List.length_map] at hlength

theorem Spells.configuration?_eq (h : Spells s ws) (id : Nat) : s.configuration? id = ws[id]?.map (·.last) := by
  rw [Search.configuration?_eq, h.configurations_eq, List.getElem?_map]

theorem Spells.alike (h : Spells s ws) (hrooted : s.Rooted) (halike : Alike s s') : Spells s' ws where
  configurations_eq := by
    rw [configurations, halike.arena_eq]
    exact h.configurations_eq
  path_eq := by
    intro id w hw
    rw [halike.path_eq hrooted, funext halike.configuration?_eq]
    exact h.path_eq id w hw

/-- Whatever stands on a way has been produced. -/
theorem Spells.lt_size_of_mem_path (h : Spells s ws) (hw : ws[id]? = some w) : ∀ i ∈ s.path id, i < s.arena.size := by
  intro i hi
  have hmem := List.mem_map_of_mem (f := s.configuration?) hi
  rw [h.path_eq id w hw] at hmem
  obtain ⟨c, _, hc⟩ := List.mem_map.1 hmem
  exact lt_size_of_configuration? hc.symm

/-- What is entered with one parent goes on from the way to it. -/
theorem Spells.entered (h : Spells s ws) (hrooted : s.Rooted) (hentered : Entered s parent cs s')
    (hpath : ∀ id, s.arena.size ≤ id → id < s'.arena.size → ∃ base, s'.path id = base ++ [id] ∧
      base.map s'.configuration? = before.map some) :
    Spells s' (ws ++ (s.admitted cs).map (Way.mk before)) where
  configurations_eq := by
    rw [hentered.configurations_eq, h.configurations_eq, List.map_append, List.map_map]
    congr 1
    exact (List.map_id _).symm
  path_eq := by
    intro id w hw
    have hconfigurations : s'.configurations = (ws ++ (s.admitted cs).map (Way.mk before)).map (·.last) := by
      rw [hentered.configurations_eq, h.configurations_eq, List.map_append, List.map_map]
      congr 1
      exact (List.map_id _).symm
    have hlast : s'.configuration? id = some w.last := by
      rw [Search.configuration?_eq, hconfigurations, List.getElem?_map, hw, Option.map_some]
    rcases Nat.lt_or_ge id s.arena.size with hlt | hge
    · rw [List.getElem?_append_left (h.size_eq ▸ hlt)] at hw
      rw [hentered.path_of_lt hrooted hlt, ← h.path_eq id w hw]
      exact List.map_congr_left fun i hi => hentered.configuration?_of_lt (h.lt_size_of_mem_path hw i hi)
    · rw [List.getElem?_append_right (h.size_eq ▸ hge)] at hw
      obtain ⟨c, _, rfl⟩ := List.mem_map.1 (List.mem_of_getElem? hw)
      obtain ⟨base, hbase, hbefore⟩ := hpath id hge (lt_size_of_configuration? hlast)
      rw [hbase, List.map_append, hbefore, List.map_singleton, hlast, Way.toList, List.map_append,
        List.map_singleton]

theorem Spells.entered_child (h : Spells s ws) (hrooted : s.Rooted) (hrooted' : s'.Rooted)
    (hentered : Entered s (some p) cs s') (hw : ws[p]? = some w) :
    Spells s' (ws ++ (s.admitted cs).map (Way.mk w.toList)) := by
  apply h.entered hrooted hentered
  intro id hge hid
  have hlast : s.configuration? p = some w.last := by rw [h.configuration?_eq, hw, Option.map_some]
  refine ⟨s'.path p, path_of_child hrooted' hid (hentered.parent?_of_le hge hid), ?_⟩
  rw [hentered.path_of_lt hrooted (lt_size_of_configuration? hlast), ← h.path_eq p w hw]
  exact List.map_congr_left fun i hi => hentered.configuration?_of_lt (h.lt_size_of_mem_path hw i hi)

/-- What is added are the ways to successors that are kept. -/
theorem Spells.map_admitted (h : Spells s (Way.kept s.machine.config.dedup [] ws)) (before cs : List Configuration) :
    (s.admitted cs).map (Way.mk before) =
      Way.kept s.machine.config.dedup (ws.map (·.last)) (cs.map (Way.mk before)) := by
  have hknown : ∀ c, c ∈ s.configurations ↔ c ∈ ws.map (·.last) := by
    intro c
    rw [h.configurations_eq, Way.mem_map_last_kept]
  rw [admitted, Way.kept]
  split
  · rw [Way.firsts_map, fresh_congr hknown]
  · rfl

/-! ### Where a search is among the ways -/

/-- How many ways a search keeps. -/
def rank (m : Simulator) (ws : List Way) : Nat := (Way.kept m.config.dedup [] ws).length

/-- A search in generation `k`: of the ways of `k` moves it has passed some, expanding those that it keeps.
It goes on only from generations that are not empty and in which nothing accepts. -/
structure Enumerated (m : Simulator) (input : Word) (s : Search) (k : Nat) (past future : List Way) : Prop
    extends Explored m input s (rank m (m.waysBelow input k)) (rank m (m.waysBelow input k ++ past))
      (rank m (m.waysBelow input (k + 1))) where
  generation_eq : s.generation = k
  ways_eq : m.ways input k = past ++ future
  spells : Spells s (Way.kept m.config.dedup [] (m.waysBelow input (k + 1) ++ past.flatMap (Way.next m)))
  waiting_eq : s.waiting = List.range' (rank m (m.waysBelow input k ++ past))
    (rank m (m.waysBelow input (k + 1)) - rank m (m.waysBelow input k ++ past))
  undecided : s.checked = true → s.outcome = none →
    m.ways input k ≠ [] ∧ ∀ id < rank m (m.waysBelow input (k + 1)), s.accepting id = false
  verdict_eq : ∀ o, s.outcome = some o → s.verdict? = some o
  nonempty : ∀ j < k, m.ways input j ≠ []

/-- The ways that are kept of a generation come after those of the generations before. -/
theorem kept_waysBelow_succ (h : m.ways input k = past ++ future) :
    Way.kept m.config.dedup [] (m.waysBelow input (k + 1)) =
      Way.kept m.config.dedup [] (m.waysBelow input k ++ past) ++
        Way.kept m.config.dedup ((m.waysBelow input k ++ past).map (·.last)) future := by
  rw [Simulator.waysBelow_succ, h, ← List.append_assoc, Way.kept_append, List.nil_append]

/-- Skipped ways count as passed. -/
theorem Enumerated.skip {skipped : List Way} (h : Enumerated m input s k past (skipped ++ future))
    (hskipped : ∀ u ∈ skipped, Way.Skipped m.config.dedup ((m.waysBelow input k ++ past).map (·.last)) u) :
    Enumerated m input s k (past ++ skipped) future := by
  have hrank : rank m (m.waysBelow input k ++ (past ++ skipped)) = rank m (m.waysBelow input k ++ past) := by
    rw [rank, rank, ← List.append_assoc, Way.kept_append_skipped hskipped]
  refine ⟨?_, h.generation_eq, ?_, ?_, ?_, h.undecided, h.verdict_eq, h.nonempty⟩
  · rw [hrank]
    exact h.toExplored
  · rw [h.ways_eq, List.append_assoc]
  · rw [Simulator.kept_next_skipped hskipped]
    exact h.spells
  · rw [hrank]
    exact h.waiting_eq

/-- Testing the frontier. -/
theorem Enumerated.check (h : Enumerated m input s k past future) :
    Enumerated m input { s with checked := true, outcome := s.verdict? } k past future := by
  have halike : Alike s { s with checked := true, outcome := s.verdict? } := ⟨rfl, rfl, rfl⟩
  refine ⟨h.toExplored.alike halike rfl rfl rfl, h.generation_eq, h.ways_eq, h.spells.alike h.rooted halike,
    h.waiting_eq, ?_, fun _ ho => ho, h.nonempty⟩
  intro _ hverdict
  obtain ⟨hne, hrejects⟩ := verdict?_eq_none hverdict
  constructor
  · intro hnil
    apply hne
    rw [h.frontier_eq, Simulator.waysBelow_succ, hnil, List.append_nil, Nat.sub_self, List.range'_zero]
  · intro id hid
    rw [halike.accepting_eq]
    rcases Nat.lt_or_ge id (rank m (m.waysBelow input k)) with hlt | hge
    · exact h.old_rejects id hlt
    · exact hrejects id (h.mem_frontier.2 ⟨hge, hid⟩)

/-- The configuration that waits first is the end of the first way that is kept of those not passed yet. -/
theorem Enumerated.getElem?_done {after : List Way} (h : Enumerated m input s k past (w :: after))
    (hw : ¬Way.Skipped m.config.dedup ((m.waysBelow input k ++ past).map (·.last)) w) :
    (Way.kept m.config.dedup [] (m.waysBelow input (k + 1) ++ past.flatMap (Way.next m)))[rank m
      (m.waysBelow input k ++ past)]? = some w := by
  have hways : m.ways input k = (past ++ [w]) ++ after := by rw [h.ways_eq, List.append_assoc]; rfl
  rw [rank, Way.kept_append, kept_waysBelow_succ hways, ← List.append_assoc, Way.kept_append_singleton hw,
    List.append_assoc, List.append_assoc, List.getElem?_append_right (Nat.le_refl _), Nat.sub_self]
  rfl

/-- What waits are the numbers of the ways that are kept of those not passed yet. -/
theorem Enumerated.of_waiting {rest : List Nat} (h : Enumerated m input s k past future)
    (hwaiting : s.waiting = id :: rest) : id = rank m (m.waysBelow input k ++ past) ∧
      id < rank m (m.waysBelow input (k + 1)) ∧
      rest = List.range' (id + 1) (rank m (m.waysBelow input (k + 1)) - (id + 1)) := by
  have hrange := h.waiting_eq.symm.trans hwaiting
  cases hn : rank m (m.waysBelow input (k + 1)) - rank m (m.waysBelow input k ++ past) with
  | zero =>
      rw [hn] at hrange
      cases hrange
  | succ n =>
      rw [hn, List.range'_succ] at hrange
      obtain ⟨rfl, rfl⟩ := List.cons.inj hrange
      refine ⟨rfl, Nat.lt_of_sub_eq_succ hn, ?_⟩
      rw [← Nat.sub_sub, hn, Nat.add_sub_cancel]

/-- Expanding a way that is kept. -/
theorem Enumerated.expand {after : List Way} {rest : List Nat} (h : Enumerated m input s k past (w :: after))
    (hw : ¬Way.Skipped m.config.dedup ((m.waysBelow input k ++ past).map (·.last)) w)
    (hwaiting : s.waiting = id :: rest) (houtcome : s.outcome = none) (hchecked : s.checked = true) :
    Enumerated m input ({ s with waiting := rest }.expand id) k (past ++ [w]) after := by
  have halike : Alike s { s with waiting := rest } := ⟨rfl, rfl, rfl⟩
  have hrank : rank m (m.waysBelow input k ++ (past ++ [w])) = rank m (m.waysBelow input k ++ past) + 1 := by
    rw [rank, rank, ← List.append_assoc, Way.kept_append_singleton hw, List.length_append, List.length_singleton]
  obtain ⟨rfl, hlt, rfl⟩ := h.of_waiting hwaiting
  have hexplored := h.toExplored.alike halike rfl rfl rfl
  have hspells := h.spells.alike h.rooted halike
  have hget := h.getElem?_done hw
  obtain ⟨b, hb, hentered⟩ := hexplored.toLayered.entered_expand hlt
  have hlast : b = w.last := by
    rw [hspells.configuration?_eq, hget] at hb
    exact (Option.some.inj hb).symm
  have hspells' := hspells.entered_child hexplored.rooted (hexplored.expand hlt).rooted hentered hget
  subst hlast
  refine ⟨?_, hentered.generation_eq.trans h.generation_eq, ?_, ?_, ?_, ?_, ?_, h.nonempty⟩
  · rw [hrank]
    exact hexplored.expand hlt
  · rw [h.ways_eq, List.append_assoc]
    rfl
  · have hdedup : s.machine.config.dedup = m.config.dedup := by rw [h.machine_eq]
    rw [← hdedup] at hspells hspells' ⊢
    rw [hspells.map_admitted] at hspells'
    rw [List.flatMap_append, List.flatMap_singleton, ← List.append_assoc, Way.kept_append, List.nil_append]
    exact hspells'
  · rw [hrank]
    exact congrArg (·.waiting) hentered.frame
  · intro _ _
    obtain ⟨hne, hrejects⟩ := h.undecided hchecked houtcome
    refine ⟨hne, fun i hi => ?_⟩
    rw [accepting_entered hentered (hi.trans_le hexplored.hi_le), halike.accepting_eq]
    exact hrejects i hi
  · intro o ho
    cases (hentered.kept.outcome_eq.trans houtcome).symm.trans ho

/-- Going on to the next generation. -/
theorem Enumerated.turn (h : Enumerated m input s k past []) (houtcome : s.outcome = none)
    (hchecked : s.checked = true) :
    Enumerated m input { s.turn with generation := s.generation + 1 } (k + 1) [] (m.ways input (k + 1)) := by
  have hways : m.ways input k = past := h.ways_eq.trans (List.append_nil past)
  obtain ⟨hne, hrejects⟩ := h.undecided hchecked houtcome
  have hbelow : m.waysBelow input k ++ past = m.waysBelow input (k + 1) := by
    rw [Simulator.waysBelow_succ, hways]
  have hnext : m.waysBelow input (k + 1) ++ past.flatMap (Way.next m) = m.waysBelow input (k + 1 + 1) := by
    rw [Simulator.waysBelow_succ m input (k + 1), Simulator.ways, hways]
  have hspells := h.spells
  rw [hnext] at hspells
  have hexplored := h.toExplored
  rw [hbelow] at hexplored
  have hsize : s.arena.size = rank m (m.waysBelow input (k + 1 + 1)) := hspells.size_eq
  have halike : Alike s { s.turn with generation := s.generation + 1 } := ⟨rfl, rfl, rfl⟩
  refine ⟨?_, congrArg (· + 1) h.generation_eq, rfl, ?_, ?_, ?_, ?_, ?_⟩
  · rw [List.append_nil, ← hsize]
    exact hexplored.turn hrejects
  · rw [List.flatMap_nil, List.append_nil]
    exact hspells.alike h.rooted halike
  · rw [List.append_nil, ← hsize]
    exact h.next_eq
  · intro hfalse
    cases hfalse
  · intro o ho
    cases houtcome.symm.trans ho
  · intro j hj
    rcases Nat.lt_or_eq_of_le (Nat.le_of_lt_succ hj) with hlt | rfl
    · exact h.nonempty j hlt
    · exact hne

/-! ### Along the calls -/

/-- What a search that keeps repeats has produced when `n` ways of generation `j` have been expanded. -/
def produced (m : Simulator) (input : Word) (j n : Nat) : List Way :=
  m.waysBelow input (j + 1) ++ ((m.ways input j).take n).flatMap (Way.next m)

/-- The bound allows a search that keeps repeats to expand every way before the `n`-th of generation `k`. -/
def Paid (m : Simulator) (input : Word) (b k n : Nat) : Prop :=
  ∀ j i, i < (m.ways input j).length → (j < k ∨ j = k ∧ i < n) → (produced m input j i).length ≤ b

theorem Paid.mono {b b' n : Nat} (h : Paid m input b k n) (hle : b ≤ b') : Paid m input b' k n :=
  fun j i hi hji => (h j i hi hji).trans hle

theorem Paid.succ {b n : Nat} (h : Paid m input b k n) (hn : (produced m input k n).length ≤ b) :
    Paid m input b k (n + 1) := by
  intro j i hi hji
  rcases hji with hj | ⟨rfl, hi'⟩
  · exact h j i hi (Or.inl hj)
  · rcases Nat.lt_or_eq_of_le (Nat.le_of_lt_succ hi') with hlt | rfl
    · exact h j i hi (Or.inr ⟨rfl, hlt⟩)
    · exact hn

theorem Paid.turn {b : Nat} (h : Paid m input b k (m.ways input k).length) : Paid m input b (k + 1) 0 := by
  intro j i hi hji
  apply h j i hi
  rcases hji with hj | ⟨_, hi'⟩
  · rcases Nat.lt_or_eq_of_le (Nat.le_of_lt_succ hj) with hlt | rfl
    · exact Or.inl hlt
    · exact Or.inr ⟨rfl, hi⟩
  · exact (Nat.not_lt_zero i hi').elim

/-- A search is somewhere among the ways, and if it keeps repeats its bound has allowed it to come there. -/
def Tracked (m : Simulator) (input : Word) (s : Search) : Prop :=
  ∃ k past future, Enumerated m input s k past future ∧
    (m.config.dedup = false → Paid m input s.bound k past.length)

theorem Enumerated.take_past (h : Enumerated m input s k past future) :
    (m.ways input k).take past.length = past := by
  rw [h.ways_eq, List.take_left]

theorem Enumerated.generated_le (h : Enumerated m input s k past future) :
    s.generated ≤ (produced m input k past.length).length := by
  rw [generated, h.spells.size_eq, produced, h.take_past]
  exact (Way.kept_sublist _ _ _).length_le

theorem Enumerated.generated_eq (h : Enumerated m input s k past future) (hdedup : m.config.dedup = false) :
    s.generated = (produced m input k past.length).length := by
  rw [generated, h.spells.size_eq, produced, h.take_past, hdedup]
  rfl

/-- Nothing is skipped by a search that keeps repeats. -/
theorem eq_nil_of_skipped {known : List Configuration} {skipped : List Way} (hdedup : m.config.dedup = false)
    (h : ∀ u ∈ skipped, Way.Skipped m.config.dedup known u) : skipped = [] := by
  apply List.eq_nil_iff_forall_not_mem.2
  intro u hu
  cases hdedup.symm.trans (h u hu).1

theorem Enumerated.tracked_expand {rest : List Nat} (h : Enumerated m input s k past future)
    (hpaid : m.config.dedup = false → Paid m input s.bound k past.length) (hwaiting : s.waiting = id :: rest)
    (houtcome : s.outcome = none) (hchecked : s.checked = true) (hbound : s.generated ≤ s.bound) :
    Tracked m input ({ s with waiting := rest }.expand id) := by
  cases hkept : Way.kept m.config.dedup ((m.waysBelow input k ++ past).map (·.last)) future with
  | nil =>
      obtain ⟨rfl, hlt, _⟩ := h.of_waiting hwaiting
      have hrank := congrArg List.length (kept_waysBelow_succ h.ways_eq)
      rw [hkept, List.append_nil] at hrank
      exact (hlt.ne hrank.symm).elim
  | cons w ws =>
      obtain ⟨skipped, after, rfl, hskipped, hw⟩ := Way.exists_eq_append_of_kept hkept
      have hw' : ¬Way.Skipped m.config.dedup ((m.waysBelow input k ++ (past ++ skipped)).map (·.last)) w := by
        rw [← List.append_assoc]
        exact fun hs => hw (hs.of_append hskipped)
      refine ⟨k, _, after, (h.skip hskipped).expand hw' hwaiting houtcome hchecked, ?_⟩
      intro hdedup
      obtain rfl := eq_nil_of_skipped hdedup hskipped
      have hbound' : ({ s with waiting := rest }.expand id).bound = s.bound :=
        congrArg (·.bound) (expand_frame { s with waiting := rest } id)
      rw [hbound', List.append_nil, List.length_append, List.length_singleton]
      apply (hpaid hdedup).succ
      rw [← h.generated_eq hdedup]
      exact hbound

theorem Enumerated.tracked_turn (h : Enumerated m input s k past future)
    (hpaid : m.config.dedup = false → Paid m input s.bound k past.length) (hwaiting : s.waiting = [])
    (houtcome : s.outcome = none) (hchecked : s.checked = true) :
    Tracked m input { s.turn with generation := s.generation + 1 } := by
  have hkept : Way.kept m.config.dedup ((m.waysBelow input k ++ past).map (·.last)) future = [] := by
    have hrange := h.waiting_eq.symm.trans hwaiting
    rw [List.range'_eq_nil_iff, rank, rank, kept_waysBelow_succ h.ways_eq, List.length_append,
      Nat.add_sub_cancel_left] at hrange
    exact List.length_eq_zero_iff.1 hrange
  have hskipped := Way.kept_eq_nil_iff.1 hkept
  have hfuture : Enumerated m input s k past (future ++ []) := (List.append_nil future).symm ▸ h
  refine ⟨k + 1, [], _, (hfuture.skip hskipped).turn houtcome hchecked, ?_⟩
  intro hdedup
  have hways := h.ways_eq
  rw [eq_nil_of_skipped hdedup hskipped, List.append_nil] at hways
  apply Paid.turn
  rw [hways]
  exact hpaid hdedup

/-- A move that the bound allows leaves a search among the ways. -/
theorem Tracked.tick (h : Tracked m input s) (hs : ¬Stopped s.bound s) : Tracked m input s.tick := by
  obtain ⟨k, past, future, h, hpaid⟩ := h
  cases houtcome : s.outcome with
  | some o =>
      rw [tick_of_outcome houtcome]
      exact ⟨k, past, future, h, hpaid⟩
  | none =>
      cases hchecked : s.checked with
      | false =>
          rw [tick_of_unchecked houtcome hchecked]
          exact ⟨k, past, future, h.check, hpaid⟩
      | true =>
          cases hwaiting : s.waiting with
          | nil =>
              rw [tick_of_expanded houtcome hchecked hwaiting]
              exact h.tracked_turn hpaid hwaiting houtcome hchecked
          | cons id rest =>
              rw [tick_of_waiting houtcome hchecked hwaiting]
              apply h.tracked_expand hpaid hwaiting houtcome hchecked
              by_contra hlt
              apply hs
              exact ⟨houtcome, hchecked, hwaiting ▸ List.cons_ne_nil _ _, Nat.lt_of_not_le hlt⟩

theorem Tracked.moved (h : Tracked m input s) (hmoved : Moved s s') : Tracked m input s' := by
  obtain ⟨-, n, rfl, hn⟩ := hmoved
  induction n with
  | zero => exact h
  | succ n ih =>
      rw [Function.iterate_succ_apply']
      apply (ih fun k hk => hn k (hk.trans (Nat.lt_succ_self n))).tick
      rw [bound_iterate_tick]
      exact hn n (Nat.lt_succ_self n)

theorem Tracked.raiseBound (h : Tracked m input s) (hs : s.bound < UInt64.size) (extra : Nat) :
    Tracked m input (s.raiseBound extra) := by
  obtain ⟨k, past, future, h, hpaid⟩ := h
  have halike : Alike s (s.raiseBound extra) := ⟨rfl, rfl, rfl⟩
  refine ⟨k, past, future, ⟨h.toExplored.alike halike rfl rfl rfl, h.generation_eq, h.ways_eq,
    h.spells.alike h.rooted halike, h.waiting_eq, ?_, h.verdict_eq, h.nonempty⟩,
    fun hdedup => (hpaid hdedup).mono (le_bound_raiseBound hs extra)⟩
  intro hchecked houtcome
  obtain ⟨hne, hrejects⟩ := h.undecided hchecked houtcome
  refine ⟨hne, fun id hid => ?_⟩
  rw [halike.accepting_eq]
  exact hrejects id hid

theorem rank_nil (m : Simulator) : rank m [] = 0 := by
  rw [rank, Way.kept]
  split <;> rfl

theorem spells_loaded (m : Simulator) (input : Word) :
    Spells (loaded m input) (Way.kept m.config.dedup [] (m.ways input 0)) := by
  have hnil : Way.kept m.config.dedup [] [] = [] := List.length_eq_zero_iff.1 (rank_nil m)
  have hblank : Spells (blank m) (Way.kept m.config.dedup [] []) := by
    rw [hnil]
    exact ⟨rfl, fun id w hw => nomatch hw⟩
  have hspells : Spells (loaded m input) (Way.kept m.config.dedup [] [] ++
      ((blank m).admitted (m.initialConfigurations input)).map (Way.mk [])) := by
    apply hblank.entered (grown_blank m input).rooted (entered_loaded m input)
    intro id _ hid
    exact ⟨[], path_of_root hid ((entered_loaded m input).parent?_of_le (Nat.zero_le id) hid), rfl⟩
  rwa [hblank.map_admitted, hnil, List.nil_append] at hspells

theorem enumerated_start (m : Simulator) (input : Word) :
    Enumerated m input (start m input) 0 [] (m.ways input 0) := by
  have hspells := spells_loaded m input
  have hbelow : m.waysBelow input 1 = m.ways input 0 := List.append_nil _
  have hsize : (start m input).arena.size = rank m (m.waysBelow input 1) := by
    rw [hbelow]
    exact hspells.size_eq
  have hrank : rank m (m.waysBelow input 0) = 0 := rank_nil m
  refine ⟨?_, (entered_loaded m input).generation_eq, rfl, ?_, ?_, ?_, ?_, ?_⟩
  · rw [List.append_nil, hrank, ← hsize]
    exact explored_start m input
  · rw [List.flatMap_nil, List.append_nil, hbelow]
    exact hspells.alike (grown_loaded m input).rooted (alike_start m input)
  · rw [List.append_nil, hrank, ← hsize]
    exact next_loaded m input
  · intro hchecked
    cases hchecked
  · intro o ho
    cases (outcome_loaded m input).symm.trans ho
  · intro j hj
    exact (Nat.not_lt_zero j hj).elim

theorem tracked_start (m : Simulator) (input : Word) : Tracked m input (start m input) :=
  ⟨0, [], _, enumerated_start m input, fun _ _ _ _ hji =>
    (hji.elim (Nat.not_lt_zero _) fun hi => Nat.not_lt_zero _ hi.2).elim⟩

theorem Tracked.perform (h : Tracked m input s) (hs : s.bound < UInt64.size) (call : Call) :
    Tracked m input (s.perform call) := by
  cases call with
  | step => exact h.moved (moved_stepGeneration s).1
  | run => exact h.moved (moved_runFor _ s)
  | raise extra => exact h.raiseBound hs extra

theorem tracked_performAll (m : Simulator) (input : Word) (hm : m.config.bound < UInt64.size)
    (calls : List Call) : Tracked m input (calls.foldl perform (start m input)) := by
  induction calls using List.reverseRecOn with
  | nil => exact tracked_start m input
  | append_singleton calls call ih =>
      rw [List.foldl_append]
      exact ih.perform (exists_at_performAll m input hm calls).2 call

end LanguageTheory.Search
