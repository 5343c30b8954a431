import LanguageTheory.Proofs.Machine.Enumeration

/-! Skipping repeats only removes repeats: the frontiers are those of a search that keeps them, without
the configurations that occurred before, and what is decided within a bound is decided the same. -/

namespace LanguageTheory

/-- The machine with repeats skipped in its searches, or kept. -/
def Simulator.withDedup (m : Simulator) (dedup : Bool) : Simulator :=
  { m with config := { m.config with dedup } }

namespace Search

variable {m : Simulator} {input : Word} {s t : Search} {past future : List Way} {w : Way} {id k : Nat}
  {dedup : Bool}

/-! ### What a search shows of the ways -/

/-- The ways that are kept of a generation, when those of the generations before are known. -/
def front (m : Simulator) (input : Word) (k : Nat) : List Way :=
  Way.kept m.config.dedup ((m.waysBelow input k).map (·.last)) (m.ways input k)

/-- What the arena holds at the numbers of the frontier. -/
theorem map_getElem?_range' {α : Type} (before mid after : List α) :
    (List.range' before.length mid.length).map (fun i => (before ++ mid ++ after)[i]?) = mid.map some := by
  apply List.ext_getElem?
  intro i
  rw [List.getElem?_map, List.getElem?_map]
  rcases Nat.lt_or_ge i mid.length with hlt | hge
  · rw [List.getElem?_range' hlt, Option.map_some, Nat.one_mul, List.append_assoc,
      List.getElem?_append_right (Nat.le_add_right _ _), Nat.add_sub_cancel_left, List.getElem?_append_left hlt,
      List.getElem?_eq_getElem hlt, Option.map_some]
  · rw [List.getElem?_eq_none (by rwa [List.length_range']), List.getElem?_eq_none hge]
    rfl

theorem Enumerated.map_frontier (h : Enumerated m input s k past future) :
    s.frontier.map (fun id => (Way.kept m.config.dedup []
      (m.waysBelow input (k + 1) ++ past.flatMap (Way.next m)))[id]?) = (front m input k).map some := by
  have hkept : Way.kept m.config.dedup [] (m.waysBelow input (k + 1)) =
      Way.kept m.config.dedup [] (m.waysBelow input k) ++ front m input k := by
    rw [Simulator.waysBelow_succ, Way.kept_append, List.nil_append]
    rfl
  rw [h.frontier_eq, Way.kept_append, rank, rank, hkept, List.length_append, Nat.add_sub_cancel_left]
  exact map_getElem?_range' _ _ _

theorem Enumerated.frontier_configurations (h : Enumerated m input s k past future) :
    s.frontier.map s.configuration? = ((front m input k).map (·.last)).map some := by
  have hmap := congrArg (List.map (Option.map (·.last))) h.map_frontier
  rw [List.map_map, List.map_map] at hmap
  rw [List.map_map, funext h.spells.configuration?_eq]
  exact hmap

theorem find?_of_verdict? (h : s.verdict? = some (.accepted id)) : s.frontier.find? s.accepting = some id := by
  unfold verdict? at h
  split at h
  next i hi =>
    cases h
    exact hi
  next => split at h <;> cases h

/-- The way to the configuration that is accepted is the first accepting one of its generation. -/
theorem Enumerated.of_accepted (h : Enumerated m input s k past future) (hid : s.outcome = some (.accepted id)) :
    ∃ w, (front m input k).find? (fun w => m.accepts w.last) = some w ∧ s.configuration? id = some w.last ∧
      (s.path id).map s.configuration? = w.toList.map some := by
  have hfind := find?_of_verdict? (h.verdict_eq _ hid)
  have haccepting : s.accepting = (fun w : Option Way => (w.map (·.last)).any m.accepts) ∘ fun id =>
      (Way.kept m.config.dedup [] (m.waysBelow input (k + 1) ++ past.flatMap (Way.next m)))[id]? := by
    funext i
    rw [accepting, h.spells.configuration?_eq, h.machine_eq]
    rfl
  have hmap := congrArg (List.find? fun w : Option Way => (w.map (·.last)).any m.accepts) h.map_frontier
  rw [List.find?_map, List.find?_map, ← haccepting, hfind, Option.map_some, eq_comm, Option.map_eq_some_iff] at hmap
  obtain ⟨w, hw, hget⟩ := hmap
  refine ⟨w, hw, ?_, h.spells.path_eq id w hget.symm⟩
  rw [h.spells.configuration?_eq, ← hget, Option.map_some]

/-! ### Skipping repeats or keeping them -/

theorem ways_withDedup (m : Simulator) (input : Word) (dedup : Bool) (k : Nat) :
    (m.withDedup dedup).ways input k = m.ways input k := by
  induction k with
  | zero => rfl
  | succ k ih =>
      rw [Simulator.ways, Simulator.ways, ih]
      rfl

theorem waysBelow_withDedup (m : Simulator) (input : Word) (dedup : Bool) (k : Nat) :
    (m.withDedup dedup).waysBelow input k = m.waysBelow input k := by
  rw [Simulator.waysBelow, Simulator.waysBelow, funext (ways_withDedup m input dedup)]

theorem front_withDedup (m : Simulator) (input : Word) (dedup : Bool) (k : Nat) :
    front (m.withDedup dedup) input k =
      Way.kept dedup ((m.waysBelow input k).map (·.last)) (m.ways input k) := by
  rw [front, waysBelow_withDedup, ways_withDedup]
  rfl

theorem produced_withDedup (m : Simulator) (input : Word) (dedup : Bool) (j n : Nat) :
    produced (m.withDedup dedup) input j n = produced m input j n := by
  rw [produced, produced, waysBelow_withDedup, ways_withDedup]
  rfl

theorem of_find?_accepts {ws : List Way} (hw : ws.find? (fun w => m.accepts w.last) = some w) :
    m.accepts w.last = true ∧ w ∈ ws :=
  ⟨List.find?_some (p := fun w : Way => m.accepts w.last) hw, List.mem_of_find?_eq_some hw⟩

/-- A decision to accept is about the first accepting way, and no shorter way accepts. -/
theorem Tracked.of_accepted (h : Tracked (m.withDedup dedup) input s) (hvalid : Valid (m.withDedup dedup) input s)
    (hid : s.outcome = some (.accepted id)) :
    (∀ w ∈ m.waysBelow input s.generation, m.accepts w.last = false) ∧
    ∃ w, (m.ways input s.generation).find? (fun w => m.accepts w.last) = some w ∧
      s.configuration? id = some w.last ∧ (s.path id).map s.configuration? = w.toList.map some := by
  obtain ⟨k, past, future, h, _⟩ := h
  obtain ⟨lo, done, hi, hpositioned⟩ := hvalid
  obtain ⟨_, _, _, _, _, hshorter⟩ := hpositioned.of_accepted hid
  have hrejects : ∀ w ∈ m.waysBelow input s.generation, m.accepts w.last = false := by
    intro w hw
    obtain ⟨j, hj, hw⟩ := Simulator.mem_waysBelow.1 hw
    rw [← ways_withDedup m input dedup] at hw
    exact hshorter j hj _ (Simulator.reachedIn_of_mem_ways hw)
  refine ⟨hrejects, ?_⟩
  obtain ⟨w, hw, hlast, hpath⟩ := h.of_accepted hid
  rw [h.generation_eq] at hrejects ⊢
  refine ⟨w, ?_, hlast, hpath⟩
  rw [front_withDedup] at hw
  rw [← hw]
  cases dedup with
  | false => rfl
  | true =>
      refine (Way.find?_firsts ?_ _).symm
      intro c hc
      obtain ⟨v, hv, rfl⟩ := List.mem_map.1 hc
      exact hrejects v hv

theorem Valid.of_rejected (hvalid : Valid (m.withDedup dedup) input s) (ho : s.outcome = some .rejected)
    (hw : w ∈ m.ways input k) : m.accepts w.last = false := by
  obtain ⟨lo, done, hi, hpositioned⟩ := hvalid
  rw [← ways_withDedup m input dedup] at hw
  exact hpositioned.of_rejected ho (Simulator.reachedIn_of_mem_ways hw)

/-- A search that keeps repeats rejects when no way is left. -/
theorem Tracked.ways_eq_nil (h : Tracked (m.withDedup false) input t) (ho : t.outcome = some .rejected) :
    m.ways input t.generation = [] := by
  obtain ⟨k, past, future, h, _⟩ := h
  have hfrontier : t.frontier = [] := by
    rcases verdict?_eq_some (h.verdict_eq _ ho) with ⟨_, _, _, hno⟩ | ⟨hnil, _⟩
    · cases hno
    · exact hnil
  have hmap := h.map_frontier
  rw [hfrontier, front_withDedup] at hmap
  rw [h.generation_eq]
  exact List.map_eq_nil_iff.1 hmap.symm

/-- Two decisions are the same: acceptance in the same generation, of the same configuration and on the
same path, or rejection, which may come earlier. -/
def Agrees (t : Search) : Outcome → Search → Outcome → Prop
  | .accepted id, s, .accepted id' => s.generation = t.generation ∧
      ∃ before last, s.configuration? id' = some last ∧ t.configuration? id = some last ∧
        (s.path id').map s.configuration? = (before ++ [last]).map some ∧
        (t.path id).map t.configuration? = (before ++ [last]).map some
  | .rejected, s, .rejected => s.generation ≤ t.generation
  | _, _, _ => False

theorem agrees_of_outcome {o o' : Outcome} (hs : Tracked (m.withDedup true) input s)
    (ht : Tracked (m.withDedup false) input t) (hvs : Valid (m.withDedup true) input s)
    (hvt : Valid (m.withDedup false) input t) (ho' : s.outcome = some o') (ho : t.outcome = some o) :
    Agrees t o s o' := by
  cases o with
  | accepted id =>
      obtain ⟨hshorter, w, hw, hlast, hpath⟩ := ht.of_accepted hvt ho
      obtain ⟨haccepts, hmem⟩ := of_find?_accepts hw
      cases o' with
      | accepted id' =>
          obtain ⟨hshorter', w', hw', hlast', hpath'⟩ := hs.of_accepted hvs ho'
          obtain ⟨haccepts', hmem'⟩ := of_find?_accepts hw'
          have hgeneration : s.generation = t.generation := by
            rcases Nat.lt_trichotomy s.generation t.generation with hlt | heq | hlt
            · cases (hshorter w' (Simulator.mem_waysBelow.2 ⟨_, hlt, hmem'⟩)).symm.trans haccepts'
            · exact heq
            · cases (hshorter' w (Simulator.mem_waysBelow.2 ⟨_, hlt, hmem⟩)).symm.trans haccepts
          rw [hgeneration] at hw'
          obtain rfl : w = w' := Option.some.inj (hw.symm.trans hw')
          exact ⟨hgeneration, w.before, w.last, hlast', hlast, hpath', hpath⟩
      | rejected => cases (hvs.of_rejected ho' hmem).symm.trans haccepts
  | rejected =>
      cases o' with
      | accepted id' =>
          obtain ⟨_, w', hw', _⟩ := hs.of_accepted hvs ho'
          obtain ⟨haccepts', hmem'⟩ := of_find?_accepts hw'
          cases (hvt.of_rejected ho hmem').symm.trans haccepts'
      | rejected =>
          obtain ⟨k, past, future, h, _⟩ := hs
          show s.generation ≤ t.generation
          by_contra hlt
          apply h.nonempty t.generation (h.generation_eq ▸ Nat.lt_of_not_le hlt)
          rw [ways_withDedup]
          exact ht.ways_eq_nil ho

/-- Where a search stops, no way up to there accepts, and there are further ones. -/
theorem Enumerated.of_stopped (h : Enumerated (m.withDedup dedup) input s k past future)
    (hstopped : Stopped s.bound s) : past.length < (m.ways input k).length ∧
      (∀ w ∈ m.waysBelow input (k + 1), m.accepts w.last = false) ∧
      s.bound < (produced m input k past.length).length := by
  obtain ⟨_, hrejects⟩ := h.undecided hstopped.checked_eq hstopped.outcome_eq
  refine ⟨?_, ?_, ?_⟩
  · rw [← ways_withDedup m input dedup, h.ways_eq, List.length_append]
    apply Nat.lt_add_of_pos_right
    by_contra hpos
    obtain rfl : future = [] := List.length_eq_zero_iff.1 (Nat.eq_zero_of_not_pos hpos)
    apply hstopped.waiting_ne
    rw [h.waiting_eq, Simulator.waysBelow_succ, h.ways_eq, List.append_nil, Nat.sub_self, List.range'_zero]
  · intro w hw
    have hmem : w.last ∈ (Way.kept (m.withDedup dedup).config.dedup []
        ((m.withDedup dedup).waysBelow input (k + 1))).map (·.last) := by
      rw [Way.mem_map_last_kept, waysBelow_withDedup]
      exact List.mem_map_of_mem hw
    obtain ⟨v, hv, heq⟩ := List.mem_map.1 hmem
    obtain ⟨i, hi, hget⟩ := List.getElem_of_mem hv
    have hfalse := hrejects i hi
    rw [accepting, h.spells.configuration?_eq, Way.kept_append, List.getElem?_append_left hi,
      List.getElem?_eq_some_iff.2 ⟨hi, hget⟩, Option.map_some, Option.any_some, h.machine_eq, heq] at hfalse
    exact hfalse
  · rw [← produced_withDedup m input dedup]
    exact hstopped.lt_generated.trans_le h.generated_le

/-- What a search that keeps repeats could pay for up to its decision does not stop one that skips them. -/
theorem not_stopped_of_outcome {o : Outcome} (hs : Tracked (m.withDedup true) input s)
    (ht : Tracked (m.withDedup false) input t) (hvt : Valid (m.withDedup false) input t)
    (ho : t.outcome = some o) (hbound : t.bound ≤ s.bound) : ¬Stopped s.bound s := by
  intro hstopped
  obtain ⟨k, past, future, h, _⟩ := hs
  obtain ⟨hlength, hrejects, hlt⟩ := h.of_stopped hstopped
  rcases Nat.lt_or_ge k t.generation with hk | hk
  · obtain ⟨k', past', future', ht, hpaid⟩ := ht
    rw [ht.generation_eq] at hk
    have hle := hpaid rfl k past.length (by rwa [ways_withDedup]) (Or.inl hk)
    rw [produced_withDedup] at hle
    omega
  · cases o with
    | accepted id =>
        obtain ⟨_, w, hw, _⟩ := ht.of_accepted hvt ho
        obtain ⟨haccepts, hmem⟩ := of_find?_accepts hw
        have hfalse := hrejects w (Simulator.mem_waysBelow.2 ⟨t.generation, Nat.lt_succ_of_le hk, hmem⟩)
        cases hfalse.symm.trans haccepts
    | rejected =>
        rw [Simulator.ways_eq_nil_of_le (ht.ways_eq_nil ho) hk] at hlength
        exact Nat.not_lt_zero _ hlength

theorem Tracked.frontier_configurations (h : Tracked (m.withDedup dedup) input s) :
    s.frontier.map s.configuration? = ((Way.kept dedup ((m.waysBelow input s.generation).map (·.last))
      (m.ways input s.generation)).map (·.last)).map some := by
  obtain ⟨k, past, future, h, _⟩ := h
  rw [h.frontier_configurations, front_withDedup, h.generation_eq]

/-- Skipping repeats only removes repeats. The frontier of a search that keeps them is the whole layer of
its generation, and that of a search that skips them is the layer without what earlier layers hold and
without second occurrences. When the first search has come to a decision, the other one comes to the same
with the same bound. -/
theorem dedup_removes_repeats (m : Simulator) (input : Word) (hm : m.config.bound < UInt64.size)
    (calls calls' : List Call) :
    let s := calls.foldl perform (start (m.withDedup true) input)
    let t := calls'.foldl perform (start (m.withDedup false) input)
    (t.frontier.map t.configuration? = (m.layer input t.generation).map some ∧
      s.frontier.map s.configuration? = (fresh ((List.range s.generation).flatMap (m.layer input))
        (m.layer input s.generation)).map some) ∧
    (t.bound ≤ s.bound → ∀ o, t.outcome = some o → ∃ o', s.run.1 = .ok o' ∧ Agrees t o s.run.2 o') := by
  intro s t
  have hs : Tracked (m.withDedup true) input s := tracked_performAll (m.withDedup true) input hm calls
  have ht : Tracked (m.withDedup false) input t := tracked_performAll (m.withDedup false) input hm calls'
  have hvs : Valid (m.withDedup true) input s := valid_performAll _ input calls
  have hvt : Valid (m.withDedup false) input t := valid_performAll _ input calls'
  refine ⟨⟨?_, ?_⟩, ?_⟩
  · rw [ht.frontier_configurations, ← Simulator.map_last_ways]
    rfl
  · rw [hs.frontier_configurations, ← Simulator.map_last_ways, ← Simulator.map_last_waysBelow,
      ← Way.map_last_firsts]
    rfl
  · intro hbound o ho
    have hmoved := moved_runFor (s.bound - s.generated + 3) s
    have hs' : Tracked (m.withDedup true) input s.run.2 := hs.moved hmoved
    have hbound' : t.bound ≤ s.run.2.bound := hmoved.1.symm ▸ hbound
    obtain ⟨hvs', htells⟩ := hvs.run
    cases hrun : s.run.1 with
    | error e => exact (not_stopped_of_outcome hs' ht hvt ho hbound' (stopped_of_run_error hvs hrun)).elim
    | ok o' =>
        rw [hrun] at htells
        exact ⟨o', rfl, agrees_of_outcome hs' ht hvs' hvt htells ho⟩

/-- From the second generation on there are two ways to state 0. -/
theorem dedup_removes_repeats_guessing :
    let m := guessing.withBound 10
    let s := [].foldl perform (start (m.withDedup true) ['a', 'a', 'a'])
    let t := [Call.step, .run].foldl perform (start (m.withDedup false) ['a', 'a', 'a'])
    m.config.bound < UInt64.size ∧ t.bound ≤ s.bound ∧ t.outcome = some (.accepted 7) ∧
    ∃ o, s.run.1 = .ok o ∧ Agrees t (.accepted 7) s.run.2 o := by
  intro m s t
  have hm : m.config.bound < UInt64.size := by decide
  have hs : s.bound = 10 := congrArg (·.bound) (entered_loaded (m.withDedup true) ['a', 'a', 'a']).frame
  have hbound : t.bound ≤ s.bound := by
    rw [hs]
    decide
  have ho : t.outcome = some (.accepted 7) := by decide
  obtain ⟨_, hdecided⟩ := dedup_removes_repeats m ['a', 'a', 'a'] hm [] [.step, .run]
  exact ⟨hm, hbound, ho, hdecided hbound _ ho⟩

end Search

end LanguageTheory
