import LanguageTheory.Proofs.Machine.Arena

/-! A search expands configurations in the order of their numbers. At any time the numbers fall into
those of earlier generations, the frontier, of which a part has been expanded, and the next generation as
far as it is known. All ways to the members of a generation have the same length, and what an expanded
configuration moves to has been found at most one generation later; so when a frontier is tested,
everything that fewer moves lead to has been tested before. -/

namespace LanguageTheory.Search

variable {m : Simulator} {input : Word} {s s' : Search} {parent : Option Nat} {cs : List Configuration}
  {b c : Configuration} {id k lo done hi : Nat}

/-! ### Generations -/

/-- The numbers below `lo` are those of earlier generations, and the frontier goes up to `hi`. Everything
below `done` has been expanded. -/
structure Layered (m : Simulator) (input : Word) (s : Search) (lo done hi : Nat) : Prop
    extends Grown m input s where
  lo_le : lo ≤ done
  done_le : done ≤ hi
  hi_le : hi ≤ s.arena.size
  frontier_eq : s.frontier = List.range' lo (hi - lo)
  next_eq : s.next.toList = List.range' hi (s.arena.size - hi)
  length_old : ∀ id < lo, (s.path id).length ≤ s.generation
  length_frontier : ∀ id, lo ≤ id → id < hi → (s.path id).length = s.generation + 1
  length_next : ∀ id, hi ≤ id → id < s.arena.size → (s.path id).length = s.generation + 2

/-- A configuration has been produced, with a way of at most the given number of entries. -/
def Found (s : Search) (k : Nat) (c : Configuration) : Prop :=
  ∃ id, s.configuration? id = some c ∧ (s.path id).length ≤ k

/-- What an expanded configuration moves to has been found, and no earlier generation accepts. -/
structure Explored (m : Simulator) (input : Word) (s : Search) (lo done hi : Nat) : Prop
    extends Layered m input s lo done hi where
  initial_found : ∀ c ∈ m.initialConfigurations input, s.Found 1 c
  step_found : ∀ id < done, ∀ b, s.configuration? id = some b →
    ∀ c ∈ m.step b, s.Found ((s.path id).length + 1) c
  old_rejects : ∀ id < lo, s.accepting id = false

theorem Layered.length_path_le (h : Layered m input s lo done hi) (hid : id < s.arena.size) :
    (s.path id).length ≤ s.generation + 2 := by
  rcases Nat.lt_or_ge id lo with hlo | hlo
  · have hle := h.length_old id hlo
    omega
  · rcases Nat.lt_or_ge id hi with hhi | hhi
    · have heq := h.length_frontier id hlo hhi
      omega
    · have heq := h.length_next id hhi hid
      omega

theorem Found.entered (h : Entered s parent cs s') (hrooted : s.Rooted) (hfound : s.Found k c) :
    s'.Found k c := by
  obtain ⟨id, hid, hlength⟩ := hfound
  have hlt := lt_size_of_configuration? hid
  refine ⟨id, (h.configuration?_of_lt hlt).trans hid, ?_⟩
  rwa [h.path_of_lt hrooted hlt]

theorem accepting_entered (h : Entered s parent cs s') (hid : id < s.arena.size) :
    s'.accepting id = s.accepting id := by
  rw [accepting, accepting, h.configuration?_of_lt hid, h.machine_eq]

/-! ### Expanding -/

theorem expand_eq (hb : s.configuration? id = some b) :
    s.expand id = (s.machine.step b).foldl (enter (some id)) s := by
  rw [expand, hb]

/-- Expanding the first configuration that has not been expanded yet. -/
theorem Layered.entered_expand (h : Layered m input s lo done hi) (hlt : done < hi) :
    ∃ b, s.configuration? done = some b ∧ Entered s (some done) (m.step b) (s.expand done) := by
  have hsize : done < s.configurations.length := by
    rw [configurations, List.length_map, Array.length_toList]
    exact hlt.trans_le h.hi_le
  obtain ⟨b, hb⟩ : ∃ b, s.configuration? done = some b := by
    rw [configuration?_eq]
    exact ⟨_, List.getElem?_eq_getElem hsize⟩
  refine ⟨b, hb, ?_⟩
  rw [expand_eq hb, h.machine_eq]
  exact entered_foldl h.seen_iff (some done) (m.step b)

theorem Layered.expand (h : Layered m input s lo done hi) (hlt : done < hi) :
    Layered m input (s.expand done) lo (done + 1) hi := by
  obtain ⟨b, hb, hentered⟩ := h.entered_expand hlt
  have hgrown : Grown m input (s.expand done) := by
    apply h.toGrown.entered hentered
    intro c hc
    exact ⟨b, hb, hc⟩
  have hpath : ∀ id < s.arena.size, (s.expand done).path id = s.path id :=
    fun id hid => hentered.path_of_lt h.rooted hid
  have hle : s.arena.size ≤ (s.expand done).arena.size := by
    rw [hentered.size_eq]
    exact Nat.le_add_right _ _
  refine ⟨hgrown, h.lo_le.trans (Nat.le_succ _), hlt, h.hi_le.trans hle, ?_, ?_, ?_, ?_, ?_⟩
  · rw [hentered.frontier_eq, h.frontier_eq]
  · rw [hentered.next_eq, h.next_eq, hentered.size_eq]
    obtain ⟨e, he⟩ := Nat.exists_eq_add_of_le h.hi_le
    rw [he, Nat.add_assoc, Nat.add_sub_cancel_left, Nat.add_sub_cancel_left, List.range'_append_1]
  · intro id hid
    rw [hpath id (hid.trans_le (h.lo_le.trans (h.done_le.trans h.hi_le))), hentered.generation_eq]
    exact h.length_old id hid
  · intro id hlo hhi
    rw [hpath id (hhi.trans_le h.hi_le), hentered.generation_eq]
    exact h.length_frontier id hlo hhi
  · intro id hhi hid
    rw [hentered.generation_eq]
    by_cases hold : id < s.arena.size
    · rw [hpath id hold]
      exact h.length_next id hhi hold
    · have hparent := hentered.parent?_of_le (Nat.le_of_not_lt hold) hid
      rw [path_of_child hgrown.rooted hid hparent, hpath done (hlt.trans_le h.hi_le), List.length_append,
        h.length_frontier done h.lo_le hlt, List.length_singleton]

theorem Explored.expand (h : Explored m input s lo done hi) (hlt : done < hi) :
    Explored m input (s.expand done) lo (done + 1) hi := by
  have hlayered := h.toLayered.expand hlt
  obtain ⟨b, hb, hentered⟩ := h.toLayered.entered_expand hlt
  have hdone : done < s.arena.size := hlt.trans_le h.hi_le
  refine ⟨hlayered, ?_, ?_, ?_⟩
  · intro c hc
    exact (h.initial_found c hc).entered hentered h.rooted
  · intro id hid b' hb' c hc
    have hsize : id < s.arena.size := (Nat.le_of_lt_succ hid).trans_lt hdone
    rw [hentered.configuration?_of_lt hsize] at hb'
    rw [hentered.path_of_lt h.rooted hsize]
    rcases Nat.lt_or_eq_of_le (Nat.le_of_lt_succ hid) with hid | rfl
    · exact (h.step_found id hid b' hb' c hc).entered hentered h.rooted
    · obtain rfl := Option.some.inj (hb.symm.trans hb')
      obtain ⟨i, hi⟩ := mem_configurations.1 (hentered.mem_configurations hc)
      refine ⟨i, hi, ?_⟩
      have hle := hlayered.length_path_le (lt_size_of_configuration? hi)
      rw [hentered.generation_eq] at hle
      rw [h.length_frontier id h.lo_le hlt]
      exact hle
  · intro id hid
    rw [accepting_entered hentered (hid.trans_le (h.lo_le.trans hdone.le))]
    exact h.old_rejects id hid

/-! ### The rest of the state -/

/-- The two searches have produced the same. -/
structure Alike (s s' : Search) : Prop where
  machine_eq : s'.machine = s.machine
  arena_eq : s'.arena = s.arena
  seen_eq : s'.seen = s.seen

theorem Alike.configuration?_eq (h : Alike s s') (id : Nat) : s'.configuration? id = s.configuration? id := by
  rw [configuration?, configuration?, h.arena_eq]

theorem Alike.parent?_eq (h : Alike s s') (id : Nat) : s'.parent? id = s.parent? id := by
  rw [parent?, parent?, h.arena_eq]

theorem Alike.accepting_eq (h : Alike s s') (id : Nat) : s'.accepting id = s.accepting id := by
  rw [accepting, accepting, h.configuration?_eq, h.machine_eq]

theorem Alike.path_eq (h : Alike s s') (hrooted : s.Rooted) (id : Nat) : s'.path id = s.path id := by
  rw [path, path, h.arena_eq, chain_congr hrooted (fun i _ => h.parent?_eq i) (Nat.lt_succ_self id)
    (Nat.lt_succ_self id)]

theorem Alike.found (h : Alike s s') (hrooted : s.Rooted) (hfound : s.Found k c) : s'.Found k c := by
  obtain ⟨id, hid, hlength⟩ := hfound
  exact ⟨id, (h.configuration?_eq id).trans hid, by rwa [h.path_eq hrooted]⟩

theorem Grown.alike (hs : Grown m input s) (h : Alike s s') : Grown m input s' where
  machine_eq := h.machine_eq.trans hs.machine_eq
  seen_iff := by
    intro c
    rw [h.seen_eq, hs.seen_iff, configurations, configurations, h.arena_eq]
  rooted := by
    intro id p hp
    rw [h.parent?_eq] at hp
    exact hs.rooted id p hp
  origin := by
    intro id node hnode
    rw [h.arena_eq] at hnode
    have ho := hs.origin id node hnode
    cases hparent : node.parent with
    | none =>
        rw [hparent] at ho
        exact ho
    | some p =>
        rw [hparent] at ho
        obtain ⟨b, hb, hc⟩ := ho
        exact ⟨b, (h.configuration?_eq p).trans hb, hc⟩

theorem Explored.alike (hs : Explored m input s lo done hi) (h : Alike s s')
    (hfrontier : s'.frontier = s.frontier) (hnext : s'.next = s.next) (hgeneration : s'.generation = s.generation) :
    Explored m input s' lo done hi := by
  have hpath := h.path_eq hs.rooted
  refine ⟨⟨hs.toGrown.alike h, hs.lo_le, hs.done_le, ?_, ?_, ?_, ?_, ?_, ?_⟩, ?_, ?_, ?_⟩
  · rw [h.arena_eq]
    exact hs.hi_le
  · rw [hfrontier]
    exact hs.frontier_eq
  · rw [hnext, h.arena_eq]
    exact hs.next_eq
  · intro id hid
    rw [hpath, hgeneration]
    exact hs.length_old id hid
  · intro id hlo hhi
    rw [hpath, hgeneration]
    exact hs.length_frontier id hlo hhi
  · intro id hhi hid
    rw [h.arena_eq] at hid
    rw [hpath, hgeneration]
    exact hs.length_next id hhi hid
  · intro c hc
    exact h.found hs.rooted (hs.initial_found c hc)
  · intro id hid b hb c hc
    rw [h.configuration?_eq] at hb
    rw [hpath]
    exact h.found hs.rooted (hs.step_found id hid b hb c hc)
  · intro id hid
    rw [h.accepting_eq]
    exact hs.old_rejects id hid

/-! ### A whole generation -/

/-- What expanding a search leaves alone. -/
structure Kept (s s' : Search) : Prop where
  checked_eq : s'.checked = s.checked
  bound_eq : s'.bound = s.bound
  outcome_eq : s'.outcome = s.outcome
  generation_eq : s'.generation = s.generation
  generated_le : s.generated ≤ s'.generated

theorem Kept.trans {s'' : Search} (h : Kept s s') (h' : Kept s' s'') : Kept s s'' where
  checked_eq := h'.checked_eq.trans h.checked_eq
  bound_eq := h'.bound_eq.trans h.bound_eq
  outcome_eq := h'.outcome_eq.trans h.outcome_eq
  generation_eq := h'.generation_eq.trans h.generation_eq
  generated_le := h.generated_le.trans h'.generated_le

theorem Entered.kept (h : Entered s parent cs s') : Kept s s' where
  checked_eq := congrArg (·.checked) h.frame
  bound_eq := congrArg (·.bound) h.frame
  outcome_eq := congrArg (·.outcome) h.frame
  generation_eq := h.generation_eq
  generated_le := by
    rw [generated, generated, h.size_eq]
    exact Nat.le_add_right _ _

/-- What is left of the frontier is expanded to its end, or up to a configuration where the bound has been
passed. -/
theorem Explored.expandAll (h : Explored m input s lo done hi)
    (hrejects : ∀ id < hi, s.accepting id = false) :
    ∃ s' done', Explored m input s' lo done' hi ∧ (∀ id < hi, s'.accepting id = false) ∧
      s'.waiting = List.range' done' (hi - done') ∧ Kept s s' ∧
      (s.expandAll (List.range' done (hi - done)) = (.ok (), s') ∧ done' = hi ∧
          (done < hi → s.generated ≤ s.bound) ∨
        s.expandAll (List.range' done (hi - done)) = (.error (.searchBound s'.generated s'.bound), s') ∧
          done' < hi ∧ s'.bound < s'.generated) := by
  generalize hk : hi - done = k
  induction k generalizing s done with
  | zero =>
      have hdone : done = hi := h.done_le.antisymm (Nat.le_of_sub_eq_zero hk)
      subst hdone
      have halike : Alike s { s with waiting := [] } := ⟨rfl, rfl, rfl⟩
      refine ⟨{ s with waiting := [] }, done, h.alike halike rfl rfl rfl, ?_, ?_,
        ⟨rfl, rfl, rfl, rfl, Nat.le_refl _⟩, Or.inl ⟨rfl, rfl, fun hlt => (Nat.lt_irrefl _ hlt).elim⟩⟩
      · intro id hid
        rw [halike.accepting_eq]
        exact hrejects id hid
      · rw [Nat.sub_self, List.range'_zero]
  | succ k ih =>
      have hlt : done < hi := by omega
      rw [List.range'_succ, Search.expandAll]
      split
      next hbound =>
        have halike : Alike s { s with waiting := done :: List.range' (done + 1) k } := ⟨rfl, rfl, rfl⟩
        refine ⟨{ s with waiting := done :: List.range' (done + 1) k }, done,
          h.alike halike rfl rfl rfl, ?_, ?_, ⟨rfl, rfl, rfl, rfl, Nat.le_refl _⟩,
          Or.inr ⟨rfl, hlt, hbound⟩⟩
        · intro id hid
          rw [halike.accepting_eq]
          exact hrejects id hid
        · rw [hk, List.range'_succ]
      next hbound =>
        obtain ⟨b, _, hentered⟩ := h.toLayered.entered_expand hlt
        have hrejects' : ∀ id < hi, (s.expand done).accepting id = false := by
          intro id hid
          rw [accepting_entered hentered (hid.trans_le h.hi_le)]
          exact hrejects id hid
        obtain ⟨s', done', hs', hrejects'', hwaiting, hkept, hcases⟩ := ih (h.expand hlt) hrejects' (by omega)
        refine ⟨s', done', hs', hrejects'', hwaiting, hentered.kept.trans hkept, ?_⟩
        rcases hcases with ⟨heq, hdone, _⟩ | hstopped
        · exact Or.inl ⟨heq, hdone, fun _ => Nat.le_of_not_lt hbound⟩
        · exact Or.inr hstopped

/-- The next generation becomes the frontier. -/
theorem Explored.turn (h : Explored m input s lo hi hi) (hrejects : ∀ id < hi, s.accepting id = false) :
    Explored m input { s.turn with generation := s.generation + 1 } hi hi s.arena.size := by
  have halike : Alike s { s.turn with generation := s.generation + 1 } := ⟨rfl, rfl, rfl⟩
  have hpath := halike.path_eq h.rooted
  refine ⟨⟨h.toGrown.alike halike, Nat.le_refl _, h.hi_le, Nat.le_refl _, h.next_eq, ?_, ?_, ?_, ?_⟩,
    ?_, ?_, ?_⟩
  · show [] = List.range' s.arena.size (s.arena.size - s.arena.size)
    rw [Nat.sub_self, List.range'_zero]
  · intro id hid
    rw [hpath]
    show (s.path id).length ≤ s.generation + 1
    rcases Nat.lt_or_ge id lo with hlo | hlo
    · exact (h.length_old id hlo).trans (Nat.le_succ _)
    · exact (h.length_frontier id hlo hid).le
  · intro id hlo hhi
    rw [hpath]
    exact h.length_next id hlo hhi
  · intro id hhi hid
    exact (Nat.not_lt_of_le hhi hid).elim
  · intro c hc
    exact halike.found h.rooted (h.initial_found c hc)
  · intro id hid b hb c hc
    rw [halike.configuration?_eq] at hb
    rw [hpath]
    exact halike.found h.rooted (h.step_found id hid b hb c hc)
  · intro id hid
    rw [halike.accepting_eq]
    exact hrejects id hid

/-! ### Calls -/

/-- A search as its calls leave it. -/
structure Positioned (m : Simulator) (input : Word) (s : Search) (lo done hi : Nat) : Prop
    extends Explored m input s lo done hi where
  waiting_eq : s.waiting = List.range' done (hi - done)
  unchecked : s.checked = false → done = lo ∧ hi = s.arena.size ∧ s.outcome = none
  undecided : s.checked = true → s.outcome = none → done < hi ∧ ∀ id < hi, s.accepting id = false
  accepted : ∀ id, s.outcome = some (.accepted id) → lo ≤ id ∧ id < hi ∧ s.accepting id = true
  rejected : s.outcome = some .rejected → lo = s.arena.size

/-- A search that may be the result of calls. -/
def Valid (m : Simulator) (input : Word) (s : Search) : Prop := ∃ lo done hi, Positioned m input s lo done hi

/-- An answer tells the outcome, and there is none as long as the bound stops the search. -/
def Tells (s : Search) : Except Error (Option Outcome) → Prop
  | .ok outcome => s.outcome = outcome
  | .error e => e = .searchBound s.generated s.bound ∧ s.bound < s.generated ∧ s.outcome = none

/-- Moving on to the next generation. It grows if it has members and none of them were known before. -/
structure Advanced (s s' : Search) : Prop where
  unchecked : s'.checked = false
  bound_eq : s'.bound = s.bound
  frontier_ne : s.frontier ≠ []
  generated_le_bound : s.generated ≤ s.bound
  generated_le : s.generated ≤ s'.generated
  generated_lt : s.checked = false → s'.frontier ≠ [] → s.generated < s'.generated

theorem verdict?_eq_none (h : s.verdict? = none) :
    s.frontier ≠ [] ∧ ∀ id ∈ s.frontier, s.accepting id = false := by
  unfold verdict? at h
  split at h
  next => cases h
  next hnone =>
    refine ⟨?_, fun id hid => Bool.eq_false_iff.2 (List.find?_eq_none.1 hnone id hid)⟩
    intro hnil
    rw [hnil] at h
    cases h

theorem verdict?_eq_some {outcome : Outcome} (h : s.verdict? = some outcome) :
    (∃ id ∈ s.frontier, s.accepting id = true ∧ outcome = .accepted id) ∨
      s.frontier = [] ∧ outcome = .rejected := by
  unfold verdict? at h
  split at h
  next id hfind =>
    exact Or.inl ⟨id, List.mem_of_find?_eq_some hfind, List.find?_some hfind, (Option.some.inj h).symm⟩
  next =>
    obtain ⟨hempty, heq⟩ := Option.ite_none_right_eq_some.1 h
    exact Or.inr ⟨List.isEmpty_iff.1 hempty, (Option.some.inj heq).symm⟩

theorem Layered.mem_frontier (h : Layered m input s lo done hi) : id ∈ s.frontier ↔ lo ≤ id ∧ id < hi := by
  have hle := h.lo_le.trans h.done_le
  rw [h.frontier_eq, List.mem_range'_1]
  omega

theorem Positioned.decide (h : Positioned m input s lo done hi) (hchecked : s.checked = false)
    {outcome : Outcome} (hverdict : s.verdict? = some outcome) :
    Positioned m input { s with checked := true, outcome := some outcome } lo done hi := by
  have halike : Alike s { s with checked := true, outcome := some outcome } := ⟨rfl, rfl, rfl⟩
  obtain ⟨_, hsize, _⟩ := h.unchecked hchecked
  refine ⟨h.toExplored.alike halike rfl rfl rfl, h.waiting_eq, ?_, ?_, ?_, ?_⟩
  · intro hfalse
    cases hfalse
  · intro _ hnone
    cases hnone
  · intro id hid
    rcases verdict?_eq_some hverdict with ⟨id', hmem, haccepting, rfl⟩ | ⟨_, rfl⟩
    · obtain rfl : id' = id := Outcome.accepted.inj (Option.some.inj hid)
      obtain ⟨hlo, hhi⟩ := h.mem_frontier.1 hmem
      exact ⟨hlo, hhi, (halike.accepting_eq id').trans haccepting⟩
    · cases hid
  · intro hrejected
    rcases verdict?_eq_some hverdict with ⟨id', _, _, rfl⟩ | ⟨hnil, _⟩
    · cases hrejected
    · rw [h.frontier_eq, List.range'_eq_nil_iff] at hnil
      have hle := h.lo_le.trans h.done_le
      show lo = s.arena.size
      omega

/-- Where no verdict is possible something is left to expand, and the frontier has been tested. -/
theorem Positioned.undecided_of_verdict? (h : Positioned m input s lo done hi) (houtcome : s.outcome = none)
    (hverdict : (if s.checked then none else s.verdict?) = none) :
    done < hi ∧ ∀ id < hi, s.accepting id = false := by
  cases hchecked : s.checked with
  | true => exact h.undecided hchecked houtcome
  | false =>
      rw [hchecked] at hverdict
      obtain ⟨hne, hrejects⟩ := verdict?_eq_none hverdict
      obtain ⟨hdone, _, _⟩ := h.unchecked hchecked
      constructor
      · by_contra hge
        apply hne
        rw [h.frontier_eq, List.range'_eq_nil_iff]
        omega
      · intro id hid
        rcases Nat.lt_or_ge id lo with hlo | hlo
        · exact h.old_rejects id hlo
        · exact hrejects id (h.mem_frontier.2 ⟨hlo, hid⟩)

/-- What there is to show of a search without an outcome. -/
theorem Explored.positioned (h : Explored m input s lo done hi)
    (hwaiting : s.waiting = List.range' done (hi - done)) (houtcome : s.outcome = none)
    (hunchecked : s.checked = false → done = lo ∧ hi = s.arena.size)
    (hundecided : s.checked = true → done < hi ∧ ∀ id < hi, s.accepting id = false) :
    Positioned m input s lo done hi := by
  refine ⟨h, hwaiting, ?_, fun hchecked _ => hundecided hchecked, ?_, ?_⟩
  · intro hchecked
    obtain ⟨hdone, hhi⟩ := hunchecked hchecked
    exact ⟨hdone, hhi, houtcome⟩
  · intro id hid
    cases houtcome.symm.trans hid
  · intro hrejected
    cases houtcome.symm.trans hrejected

/-- Moving on once the frontier has been expanded to its end. -/
theorem Explored.positioned_turn (h : Explored m input s lo hi hi)
    (hrejects : ∀ id < hi, s.accepting id = false) (houtcome : s.outcome = none) :
    Positioned m input { s.turn with generation := s.generation + 1 } hi hi s.arena.size := by
  apply (h.turn hrejects).positioned h.next_eq houtcome
  · intro _
    exact ⟨rfl, rfl⟩
  · intro hchecked
    cases hchecked

/-- Stopping at the bound with something left to expand. -/
theorem Explored.positioned_stopped (h : Explored m input s lo done hi)
    (hrejects : ∀ id < hi, s.accepting id = false) (hwaiting : s.waiting = List.range' done (hi - done))
    (hlt : done < hi) (hchecked : s.checked = true) (houtcome : s.outcome = none) :
    Positioned m input s lo done hi := by
  apply h.positioned hwaiting houtcome
  · intro hfalse
    cases hchecked.symm.trans hfalse
  · intro _
    exact ⟨hlt, hrejects⟩

theorem stepGeneration_of_outcome {outcome : Outcome} (h : s.outcome = some outcome) :
    s.stepGeneration = (.ok (some outcome), s) := by
  rw [stepGeneration, h]

theorem stepGeneration_of_verdict (houtcome : s.outcome = none) {outcome : Outcome}
    (hverdict : (if s.checked then none else s.verdict?) = some outcome) :
    s.stepGeneration = (.ok (some outcome), { s with checked := true, outcome := some outcome }) := by
  rw [stepGeneration, houtcome, hverdict]

theorem stepGeneration_of_ok (houtcome : s.outcome = none)
    (hverdict : (if s.checked then none else s.verdict?) = none)
    (h : { s with checked := true }.expandAll s.waiting = (.ok (), s')) :
    s.stepGeneration = (.ok none, { s'.turn with generation := s'.generation + 1 }) := by
  rw [houtcome] at h
  rw [stepGeneration, houtcome, hverdict, h]

theorem stepGeneration_of_error (houtcome : s.outcome = none) {e : Error}
    (hverdict : (if s.checked then none else s.verdict?) = none)
    (h : { s with checked := true }.expandAll s.waiting = (.error e, s')) :
    s.stepGeneration = (.error e, s') := by
  rw [houtcome] at h
  rw [stepGeneration, houtcome, hverdict, h]

/-- One generation keeps a search right, and its answer tells the outcome. -/
theorem Positioned.stepGeneration (h : Positioned m input s lo done hi) :
    Valid m input s.stepGeneration.2 ∧ Tells s.stepGeneration.2 s.stepGeneration.1 ∧
      (s.stepGeneration.1 = .ok none → Advanced s s.stepGeneration.2) := by
  cases houtcome : s.outcome with
  | some outcome =>
      rw [stepGeneration_of_outcome houtcome]
      exact ⟨⟨lo, done, hi, h⟩, houtcome, fun h => nomatch h⟩
  | none =>
      cases hverdict : (if s.checked then none else s.verdict?) with
      | some outcome =>
          obtain ⟨hchecked, hsome⟩ := Option.ite_none_left_eq_some.1 hverdict
          have hdecided := h.decide (Bool.eq_false_iff.2 hchecked) hsome
          rw [stepGeneration_of_verdict houtcome hverdict]
          exact ⟨⟨lo, done, hi, hdecided⟩, rfl, fun h => nomatch h⟩
      | none =>
          obtain ⟨hlt, hrejects⟩ := h.undecided_of_verdict? houtcome hverdict
          have halike : Alike s { s with checked := true } := ⟨rfl, rfl, rfl⟩
          have hchecked := h.toExplored.alike halike rfl rfl rfl
          have hrejects' : ∀ id < hi, ({ s with checked := true } : Search).accepting id = false := by
            intro id hid
            rw [halike.accepting_eq]
            exact hrejects id hid
          obtain ⟨s', done', hs', hrejects'', hwaiting, hkept, hcases⟩ := hchecked.expandAll hrejects'
          have houtcome' : s'.outcome = none := hkept.outcome_eq.trans houtcome
          rw [← h.waiting_eq] at hcases
          rcases hcases with ⟨heq, rfl, hbound⟩ | ⟨heq, hlt', hbound⟩
          · rw [stepGeneration_of_ok houtcome hverdict heq]
            refine ⟨⟨done', done', _, hs'.positioned_turn hrejects'' houtcome'⟩, houtcome', fun _ => ?_⟩
            refine ⟨rfl, hkept.bound_eq, ?_, hbound hlt, hkept.generated_le, ?_⟩
            · intro hnil
              have hmem := h.mem_frontier.2 ⟨h.lo_le, hlt⟩
              rw [hnil] at hmem
              cases hmem
            · intro hunchecked hne
              obtain ⟨_, hsize, _⟩ := h.unchecked hunchecked
              have hnext : s'.next.toList ≠ [] := hne
              rw [hs'.next_eq, Ne, List.range'_eq_nil_iff] at hnext
              show s.arena.size < s'.arena.size
              omega
          · rw [stepGeneration_of_error houtcome hverdict heq]
            exact ⟨⟨lo, done', hi, hs'.positioned_stopped hrejects'' hwaiting hlt' hkept.checked_eq houtcome'⟩,
              ⟨rfl, hbound, houtcome'⟩, fun h => nomatch h⟩

/-! ### Runs -/

/-- How many generations a run takes at most. -/
def fuel (s : Search) : Nat :=
  if s.frontier = [] then 1 else s.bound + 1 - s.generated + if s.checked then 2 else 1

theorem Advanced.fuel_lt (h : Advanced s s') : s'.fuel < s.fuel := by
  have hle := h.generated_le
  have hbound := h.generated_le_bound
  rw [fuel, fuel, if_neg h.frontier_ne, h.bound_eq, h.unchecked]
  by_cases hnil : s'.frontier = []
  · rw [if_pos hnil]
    split <;> omega
  · rw [if_neg hnil]
    cases hchecked : s.checked with
    | true =>
        show s.bound + 1 - s'.generated + 1 < s.bound + 1 - s.generated + 2
        omega
    | false =>
        have hlt := h.generated_lt hchecked hnil
        show s.bound + 1 - s'.generated + 1 < s.bound + 1 - s.generated + 1
        omega

/-- A run never ends for want of generations: it ends with the answer of one. -/
theorem Valid.exists_last (h : Valid m input s) {limit : Nat} (hlimit : s.fuel ≤ limit) :
    ∃ s', Valid m input s' ∧ s'.stepGeneration = ((s.runFor limit).1.map some, (s.runFor limit).2) := by
  induction limit generalizing s with
  | zero =>
      have hpos : 0 < s.fuel := by
        unfold fuel
        split
        · exact Nat.one_pos
        · split <;> omega
      omega
  | succ limit ih =>
      obtain ⟨lo, done, hi, hs⟩ := h
      obtain ⟨hvalid, _, hadvanced⟩ := hs.stepGeneration
      unfold Search.runFor
      split
      next e s' heq => exact ⟨s, ⟨lo, done, hi, hs⟩, heq⟩
      next outcome s' heq => exact ⟨s, ⟨lo, done, hi, hs⟩, heq⟩
      next s' heq =>
        rw [heq] at hvalid hadvanced
        exact ih hvalid (Nat.le_of_lt_succ ((hadvanced rfl).fuel_lt.trans_le hlimit))

theorem Valid.runFor (h : Valid m input s) {limit : Nat} (hlimit : s.fuel ≤ limit) :
    Valid m input (s.runFor limit).2 ∧ Tells (s.runFor limit).2 ((s.runFor limit).1.map some) := by
  obtain ⟨s', ⟨lo, done, hi, hs'⟩, hlast⟩ := h.exists_last hlimit
  obtain ⟨hvalid, htells, _⟩ := hs'.stepGeneration
  rw [hlast] at hvalid htells
  exact ⟨hvalid, htells⟩

theorem fuel_le (s : Search) : s.fuel ≤ s.bound - s.generated + 3 := by
  unfold fuel
  split
  · omega
  · split <;> omega

theorem Valid.run (h : Valid m input s) : Valid m input s.run.2 ∧ Tells s.run.2 (s.run.1.map some) :=
  h.runFor s.fuel_le

theorem Valid.raiseBound (h : Valid m input s) (extra : Nat) : Valid m input (s.raiseBound extra) := by
  obtain ⟨lo, done, hi, hs⟩ := h
  have halike : Alike s (s.raiseBound extra) := ⟨rfl, rfl, rfl⟩
  refine ⟨lo, done, hi, hs.toExplored.alike halike rfl rfl rfl, hs.waiting_eq, hs.unchecked, ?_, ?_,
    hs.rejected⟩
  · intro hchecked houtcome
    obtain ⟨hlt, hrejects⟩ := hs.undecided hchecked houtcome
    refine ⟨hlt, fun id hid => ?_⟩
    rw [halike.accepting_eq]
    exact hrejects id hid
  · intro id hid
    obtain ⟨hlo, hhi, haccepting⟩ := hs.accepted id hid
    exact ⟨hlo, hhi, (halike.accepting_eq id).trans haccepting⟩

/-- A search that has produced nothing yet. -/
def blank (m : Simulator) : Search := ⟨m, m.config.bound, #[], ∅, [], [], #[], false, 0, none⟩

theorem grown_blank (m : Simulator) (input : Word) : Grown m input (blank m) where
  machine_eq := rfl
  seen_iff := by
    intro c
    exact iff_of_false Std.HashSet.not_mem_empty List.not_mem_nil
  rooted := by
    intro id p hp
    cases hp
  origin := by
    intro id node hnode
    cases hnode

/-- The search with the initial configurations, before they become the frontier. -/
def loaded (m : Simulator) (input : Word) : Search :=
  (m.initialConfigurations input).foldl (enter none) (blank m)

theorem alike_start (m : Simulator) (input : Word) : Alike (loaded m input) (start m input) := ⟨rfl, rfl, rfl⟩

theorem entered_loaded (m : Simulator) (input : Word) :
    Entered (blank m) none (m.initialConfigurations input) (loaded m input) :=
  entered_foldl (grown_blank m input).seen_iff none (m.initialConfigurations input)

theorem grown_loaded (m : Simulator) (input : Word) : Grown m input (loaded m input) :=
  (grown_blank m input).entered (entered_loaded m input) fun _ hc => hc

theorem next_loaded (m : Simulator) (input : Word) :
    (loaded m input).next.toList = List.range' 0 (loaded m input).arena.size := by
  have hsize : (loaded m input).arena.size = ((blank m).admitted (m.initialConfigurations input)).length := by
    rw [(entered_loaded m input).size_eq]
    exact Nat.zero_add _
  rw [(entered_loaded m input).next_eq, hsize]
  rfl

/-- No move leads to an initial configuration. -/
theorem length_path_loaded (hid : id < (loaded m input).arena.size) :
    ((loaded m input).path id).length = 1 := by
  have hparent : (loaded m input).parent? id = none :=
    (entered_loaded m input).parent?_of_le (Nat.zero_le id) hid
  rw [path_of_root hid hparent, List.length_singleton]

theorem outcome_loaded (m : Simulator) (input : Word) : (loaded m input).outcome = none :=
  congrArg (·.outcome) (entered_loaded m input).frame

theorem layered_start (m : Simulator) (input : Word) :
    Layered m input (start m input) 0 0 (start m input).arena.size := by
  have hgrown := grown_loaded m input
  have halike := alike_start m input
  have hgeneration : (start m input).generation = 0 := (entered_loaded m input).generation_eq
  refine ⟨hgrown.alike halike, Nat.le_refl _, Nat.zero_le _, Nat.le_refl _, next_loaded m input, ?_, ?_, ?_, ?_⟩
  · show [] = List.range' (start m input).arena.size ((start m input).arena.size - (start m input).arena.size)
    rw [Nat.sub_self, List.range'_zero]
  · intro id hid
    exact (Nat.not_lt_zero id hid).elim
  · intro id _ hid
    rw [halike.path_eq hgrown.rooted, length_path_loaded hid, hgeneration]
  · intro id hle hid
    exact (Nat.not_lt_of_le hle hid).elim

theorem explored_start (m : Simulator) (input : Word) :
    Explored m input (start m input) 0 0 (start m input).arena.size := by
  refine ⟨layered_start m input, ?_, ?_, ?_⟩
  · intro c hc
    obtain ⟨id, hid⟩ := mem_configurations.1 ((entered_loaded m input).mem_configurations hc)
    have hfound : (loaded m input).Found 1 c :=
      ⟨id, hid, (length_path_loaded (lt_size_of_configuration? hid)).le⟩
    exact (alike_start m input).found (grown_loaded m input).rooted hfound
  · intro id hid
    exact (Nat.not_lt_zero id hid).elim
  · intro id hid
    exact (Nat.not_lt_zero id hid).elim

theorem valid_start (m : Simulator) (input : Word) : Valid m input (start m input) := by
  refine ⟨0, 0, (start m input).arena.size, ?_⟩
  apply (explored_start m input).positioned (next_loaded m input) (outcome_loaded m input)
  · intro _
    exact ⟨rfl, rfl⟩
  · intro hchecked
    cases hchecked

/-! ### What the outcome says -/

theorem Layered.lt_of_length_le (h : Layered m input s lo done hi) (hid : id < s.arena.size)
    (hlength : (s.path id).length ≤ s.generation) : id < lo := by
  by_contra hge
  rcases Nat.lt_or_ge id hi with hhi | hhi
  · have heq := h.length_frontier id (Nat.le_of_not_lt hge) hhi
    omega
  · have heq := h.length_next id hhi hid
    omega

/-- What some moves lead to has been found by the generation of that number. -/
theorem Explored.found_of_reachedIn (h : Explored m input s lo done hi) (hreached : m.ReachedIn input k c)
    (hk : k ≤ s.generation) : s.Found (k + 1) c := by
  induction hreached with
  | initial hc => exact h.initial_found _ hc
  | step _ hstep ih =>
      obtain ⟨id, hid, hlength⟩ := ih (Nat.le_of_succ_le hk)
      have hlt := h.lt_of_length_le (lt_size_of_configuration? hid) (hlength.trans hk)
      obtain ⟨i, hi, hle⟩ := h.step_found id (hlt.trans_le h.lo_le) _ hid _ hstep
      exact ⟨i, hi, hle.trans (Nat.succ_le_succ hlength)⟩

theorem Explored.accepts_eq_false (h : Explored m input s lo done hi) (hid : s.configuration? id = some c)
    (hlt : id < lo) : m.accepts c = false := by
  have hrejects := h.old_rejects id hlt
  rwa [accepting, hid, Option.any_some, h.machine_eq] at hrejects

/-- Acceptance is told by a shortest run. -/
theorem Positioned.of_accepted (h : Positioned m input s lo done hi)
    (houtcome : s.outcome = some (.accepted id)) :
    ∃ cs, (s.path id).map s.configuration? = cs.map some ∧ m.IsRun input cs ∧
      cs.length = s.generation + 1 ∧ (∃ c, cs.getLast? = some c ∧ m.accepts c = true) ∧
      ∀ k < s.generation, ∀ c, m.ReachedIn input k c → m.accepts c = false := by
  obtain ⟨hlo, hhi, haccepting⟩ := h.accepted id houtcome
  obtain ⟨cs, hcs, hrun, hlast⟩ := h.toGrown.isRun_path (hhi.trans_le h.hi_le)
  refine ⟨cs, hcs, hrun, ?_, ?_, ?_⟩
  · have hlength := congrArg List.length hcs
    rw [List.length_map, List.length_map, h.length_frontier id hlo hhi] at hlength
    exact hlength.symm
  · obtain ⟨c, hc, haccepts⟩ := (Option.any_eq_true _ _).1 haccepting
    rw [h.machine_eq] at haccepts
    exact ⟨c, hlast.trans hc, haccepts⟩
  · intro k hk c hreached
    obtain ⟨i, hi, hlength⟩ := h.found_of_reachedIn hreached hk.le
    exact h.accepts_eq_false hi (h.lt_of_length_le (lt_size_of_configuration? hi) (hlength.trans hk))

/-- Rejection means that everything reachable has been produced, expanded and tested. -/
theorem Positioned.of_rejected (h : Positioned m input s lo done hi) (houtcome : s.outcome = some .rejected)
    (hreached : m.ReachedIn input k c) : m.accepts c = false := by
  have hlo := h.rejected houtcome
  have hfound : ∃ id, s.configuration? id = some c := by
    induction hreached with
    | initial hc =>
        obtain ⟨id, hid, _⟩ := h.initial_found _ hc
        exact ⟨id, hid⟩
    | step _ hstep ih =>
        obtain ⟨id, hid⟩ := ih
        have hlt : id < done := by
          have hsize := lt_size_of_configuration? hid
          have hle := h.lo_le
          omega
        obtain ⟨i, hi, _⟩ := h.step_found id hlt _ hid _ hstep
        exact ⟨i, hi⟩
  obtain ⟨id, hid⟩ := hfound
  apply h.accepts_eq_false hid
  rw [hlo]
  exact lt_size_of_configuration? hid

/-- What may be done with a search. -/
inductive Call
  | step
  | run
  | raise (extra : Nat)

def perform (s : Search) : Call → Search
  | .step => s.stepGeneration.2
  | .run => s.run.2
  | .raise extra => s.raiseBound extra

theorem Valid.perform (h : Valid m input s) (call : Call) : Valid m input (s.perform call) := by
  cases call with
  | step =>
      obtain ⟨_, _, _, hs⟩ := h
      exact hs.stepGeneration.1
  | run => exact h.run.1
  | raise extra => exact h.raiseBound extra

theorem valid_performAll (m : Simulator) (input : Word) (calls : List Call) :
    Valid m input (calls.foldl perform (start m input)) := by
  induction calls using List.reverseRecOn with
  | nil => exact valid_start m input
  | append_singleton calls call ih =>
      rw [List.foldl_append]
      exact ih.perform call

/-- Whatever was called before, an outcome of a search is right, and an answer that the bound was hit
comes without one. -/
theorem outcome_correct (m : Simulator) (input : Word) (calls : List Call) :
    let s := calls.foldl perform (start m input)
    (∀ id, s.outcome = some (.accepted id) →
      ∃ cs, (s.path id).map s.configuration? = cs.map some ∧ m.IsRun input cs ∧
        cs.length = s.generation + 1 ∧ (∃ c, cs.getLast? = some c ∧ m.accepts c = true) ∧
        ∀ k < s.generation, ∀ c, m.ReachedIn input k c → m.accepts c = false) ∧
    (s.outcome = some .rejected → ∀ k c, m.ReachedIn input k c → m.accepts c = false) ∧
    Tells s.stepGeneration.2 s.stepGeneration.1 ∧ Tells s.run.2 (s.run.1.map some) := by
  intro s
  have hvalid : Valid m input s := valid_performAll m input calls
  obtain ⟨lo, done, hi, hs⟩ := hvalid
  refine ⟨fun id hid => hs.of_accepted hid, fun hrejected k c hreached => hs.of_rejected hrejected hreached,
    hs.stepGeneration.2.1, ?_⟩
  exact (Valid.run ⟨lo, done, hi, hs⟩).2

end LanguageTheory.Search
