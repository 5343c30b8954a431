import LanguageTheory.Proofs.Finite.BreadthFirst
import LanguageTheory.Proofs.Regular.Dfa
import LanguageTheory.Proofs.Regular.EpsilonNfa
import LanguageTheory.Regular.Subsets
import Mathlib.Data.Finset.Powerset
import Mathlib.Data.Finset.Sort

/-! The subset construction follows a word to the number of the set that the word leads to. All those
sets are numbered: they are sets of states of the given automaton, so the bound of the walk is large
enough. A word that leads to the empty set needs a move that is missing. -/

namespace LanguageTheory.EpsilonNfa

variable {n : EpsilonNfa} {s t : StateSet} {c : SymbolId} {w : List SymbolId}

theorem isEmpty_eq_false_iff : s.isEmpty = false ↔ ∃ q, q ∈ s := by
  rw [Ascending.isEmpty, List.isEmpty_eq_false_iff_exists_mem]
  rfl

theorem reached_nil (n : EpsilonNfa) : n.reached [] = n.closure n.start := rfl

/-- The sets that one more symbol leads to are listed by that symbol. -/
theorem pairwise_nextSubsets (n : EpsilonNfa) (s : StateSet) :
    (n.nextSubsets s).Pairwise fun x y => x.1 < y.1 := by
  apply List.Pairwise.filter
  rw [List.pairwise_map]
  exact n.alphabet.pairwise

variable (hn : n.WellFormed)
include hn

/-- Only a symbol that some move reads leads anywhere. -/
theorem mem_alphabet_of_moveOn (h : (n.moveOn s c).isEmpty = false) : c ∈ n.alphabet := by
  obtain ⟨q, hq⟩ := isEmpty_eq_false_iff.1 h
  obtain ⟨m, hm, _, hsymbol, _⟩ := hn.mem_moveOn.1 hq
  rw [alphabet, Ascending.mem_ofList, List.mem_filterMap]
  exact ⟨m, hm, hsymbol⟩

theorem mem_nextSubsets : (c, t) ∈ n.nextSubsets s ↔ t = n.moveOn s c ∧ t.isEmpty = false := by
  simp only [nextSubsets, List.mem_filter, List.mem_map, Prod.mk.injEq, Bool.not_eq_true']
  constructor
  · rintro ⟨⟨c', _, hc, ht⟩, hne⟩
    rw [hc] at ht
    exact ⟨ht.symm, hne⟩
  · rintro ⟨ht, hne⟩
    rw [ht] at hne
    exact ⟨⟨c, mem_alphabet_of_moveOn hn hne, rfl, ht.symm⟩, ht ▸ hne⟩

theorem isEmpty_reached_of_snoc (h : (n.reached (w ++ [c])).isEmpty = false) :
    (n.reached w).isEmpty = false := by
  rw [reached_snoc] at h
  obtain ⟨q, hq⟩ := isEmpty_eq_false_iff.1 h
  obtain ⟨m, _, hsource, _⟩ := hn.mem_moveOn.1 hq
  exact isEmpty_eq_false_iff.2 ⟨m.source, hsource⟩

/-- A path along the sets follows its word. -/
theorem path_nextSubsets_iff (hfirst : (n.reached []).isEmpty = false) :
    Labelled.Path n.nextSubsets (n.reached []) w s ↔ n.reached w = s ∧ s.isEmpty = false := by
  constructor
  · intro h
    induction h with
    | nil => exact ⟨rfl, hfirst⟩
    | snoc _ hnext ih =>
        obtain ⟨rfl, _⟩ := ih
        obtain ⟨rfl, hne⟩ := (mem_nextSubsets hn).1 hnext
        exact ⟨reached_snoc n _ _, hne⟩
  · rintro ⟨rfl, hne⟩
    induction w using List.reverseRecOn with
    | nil => exact .nil
    | append_singleton w c ih =>
        exact (ih (isEmpty_reached_of_snoc hn hne)).snoc ((mem_nextSubsets hn).2 ⟨reached_snoc n w c, hne⟩)

/-- The sets of states of the automaton. -/
def stateSets (n : EpsilonNfa) : Finset StateSet :=
  (Finset.range n.size).powerset.image fun f => Ascending.ofList (f.sort (· ≤ ·))

omit hn in
theorem card_stateSets_le (n : EpsilonNfa) : n.stateSets.card ≤ Nat.pow 2 n.size := by
  apply Finset.card_image_le.trans
  rw [Finset.card_powerset, Finset.card_range, Nat.pow_eq]

omit hn in
theorem mem_stateSets (h : ∀ q ∈ s, q < n.size) : s ∈ n.stateSets := by
  apply Finset.mem_image.2
  refine ⟨s.toList.toFinset, ?_, ?_⟩
  · rw [Finset.mem_powerset]
    intro q hq
    exact Finset.mem_range.2 (h q (List.mem_toFinset.1 hq))
  · ext q
    rw [Ascending.mem_ofList, Finset.mem_sort, List.mem_toFinset]
    rfl

omit hn in
theorem subsets_eq_explore (hfirst : (n.reached []).isEmpty = false) :
    n.subsets = explore (fun s => (n.nextSubsets s).map (·.2)) (Nat.pow 2 n.size) [n.reached []] := by
  rw [reached_nil] at hfirst ⊢
  rw [subsets, hfirst]
  rfl

/-- The numbered sets are the nonempty ones that words lead to. -/
theorem mem_subsets (hfirst : (n.reached []).isEmpty = false) :
    s ∈ n.subsets ↔ ∃ w, n.reached w = s ∧ s.isEmpty = false := by
  have hmoveOn : ∀ s c, n.moveOn s c ∈ n.stateSets := by
    intro s c
    apply mem_stateSets
    intro q hq
    obtain ⟨m, hm, _, _, hpath⟩ := hn.mem_moveOn.1 hq
    exact hn.lt_of_path hpath (hn.target_lt m hm)
  rw [subsets_eq_explore hfirst, mem_explore_iff _ _ n.card_stateSets_le]
  · simp only [List.mem_singleton, exists_eq_left, ← Labelled.exists_path_iff, path_nextSubsets_iff hn hfirst]
  · intro s hs
    rw [List.mem_singleton.1 hs]
    exact mem_stateSets fun q hq => hn.lt_of_mem_reached hq
  · intro s _ t ht
    obtain ⟨⟨c, t⟩, hct, rfl⟩ := List.mem_map.1 ht
    obtain ⟨rfl, _⟩ := (mem_nextSubsets hn).1 hct
    exact hmoveOn s c

/-! ### The deterministic automaton -/

omit hn in
theorem moves_toDfa (n : EpsilonNfa) : n.toDfa.moves = n.subsets.zipIdx.flatMap fun x =>
    (n.nextSubsets x.1).map fun y => ⟨x.2, y.1, n.subsets.idxOf y.2⟩ := by
  unfold toDfa
  cases n.subsets <;> rfl

omit hn in
theorem mem_moves_toDfa {m : Dfa.Move} : m ∈ n.toDfa.moves ↔
    ∃ s, n.subsets[m.source]? = some s ∧
      ∃ t, (m.symbol, t) ∈ n.nextSubsets s ∧ m.target = n.subsets.idxOf t := by
  rw [moves_toDfa, List.mem_flatMap]
  constructor
  · rintro ⟨x, hx, hm⟩
    obtain ⟨y, hy, rfl⟩ := List.mem_map.1 hm
    exact ⟨x.1, List.mem_zipIdx_iff_getElem?.1 hx, y.2, hy, rfl⟩
  · rintro ⟨s, hs, t, ht, htarget⟩
    refine ⟨(s, m.source), List.mem_zipIdx_iff_getElem?.2 hs, List.mem_map.2 ⟨(m.symbol, t), ht, ?_⟩⟩
    show (⟨m.source, m.symbol, n.subsets.idxOf t⟩ : Dfa.Move) = m
    rw [← htarget]

omit hn in
theorem mem_finals_toDfa {i : StateId} :
    i ∈ n.toDfa.finals ↔ ∃ s, n.subsets[i]? = some s ∧ s.meets n.finals = true := by
  have hfinals : n.toDfa.finals = .ofList (n.subsets.zipIdx.filterMap fun x =>
      if x.1.meets n.finals then some x.2 else none) := by
    unfold toDfa
    cases n.subsets <;> rfl
  rw [hfinals, Ascending.mem_ofList, List.mem_filterMap]
  constructor
  · rintro ⟨x, hx, hi⟩
    obtain ⟨hmeets, heq⟩ := Option.ite_none_right_eq_some.1 hi
    obtain rfl := Option.some.inj heq
    exact ⟨x.1, List.mem_zipIdx_iff_getElem?.1 hx, hmeets⟩
  · rintro ⟨s, hs, hmeets⟩
    exact ⟨(s, i), List.mem_zipIdx_iff_getElem?.2 hs, if_pos hmeets⟩

omit hn in
theorem size_toDfa (n : EpsilonNfa) : n.toDfa.size = n.subsets.length := by
  unfold toDfa
  cases n.subsets <;> rfl

omit hn in
theorem alphabet_toDfa (n : EpsilonNfa) : n.toDfa.alphabet = .ofList (n.toDfa.moves.map (·.symbol)) := by
  unfold toDfa
  cases n.subsets <;> rfl

omit hn in
theorem nodup_subsets (n : EpsilonNfa) : n.subsets.Nodup := by
  unfold subsets
  by_cases h : (n.closure n.start).isEmpty = true
  · simp [h]
  · simp only [h]
    exact nodup_explore _ _ _

omit hn in
/-- The number of a set is its place in the list. -/
theorem idxOf_subsets_iff (ht : t ∈ n.subsets) {j : Nat} :
    j = n.subsets.idxOf t ↔ n.subsets[j]? = some t := by
  constructor
  · intro h
    rw [h]
    exact List.getElem?_idxOf ht
  · intro h
    obtain ⟨hj, rfl⟩ := List.getElem?_eq_some_iff.1 h
    exact (n.nodup_subsets.idxOf_getElem j hj).symm

theorem exists_symbol_of_mem_moves_toDfa {m : Dfa.Move} (hm : m ∈ n.toDfa.moves) :
    ∃ m' ∈ n.moves, m'.symbol = some m.symbol := by
  obtain ⟨s, _, t, ht, _⟩ := mem_moves_toDfa.1 hm
  obtain ⟨rfl, hne⟩ := (mem_nextSubsets hn).1 ht
  have hsymbol := mem_alphabet_of_moveOn hn hne
  rw [alphabet, Ascending.mem_ofList, List.mem_filterMap] at hsymbol
  exact hsymbol

section

variable (hfirst : (n.reached []).isEmpty = false)
include hfirst

omit hn in
theorem getElem?_subsets_zero : n.subsets[0]? = some (n.reached []) := by
  rw [← List.head?_eq_getElem?, subsets, ← reached_nil, hfirst]
  exact head?_explore _ _ _

omit hn in
theorem start_toDfa : n.toDfa.start = some 0 := by
  have hzero := getElem?_subsets_zero hfirst
  unfold toDfa
  cases hsubsets : n.subsets with
  | nil =>
      rw [hsubsets] at hzero
      cases hzero
  | cons s rest => rfl

theorem mem_subsets_of_mem_nextSubsets (hs : s ∈ n.subsets) (ht : (c, t) ∈ n.nextSubsets s) :
    t ∈ n.subsets := by
  obtain ⟨w, rfl, _⟩ := (mem_subsets hn hfirst).1 hs
  obtain ⟨rfl, hne⟩ := (mem_nextSubsets hn).1 ht
  exact (mem_subsets hn hfirst).2 ⟨w ++ [c], reached_snoc n w c, hne⟩

theorem wellFormed_toDfa : n.toDfa.WellFormed where
  start_lt := by
    intro s hs
    obtain rfl := Option.some.inj ((start_toDfa hfirst).symm.trans hs)
    rw [size_toDfa]
    exact (List.getElem?_eq_some_iff.1 (getElem?_subsets_zero hfirst)).1
  finals_lt := by
    intro s hs
    obtain ⟨_, hget, _⟩ := mem_finals_toDfa.1 hs
    rw [size_toDfa]
    exact (List.getElem?_eq_some_iff.1 hget).1
  source_lt := by
    intro m hm
    obtain ⟨s, hs, _⟩ := mem_moves_toDfa.1 hm
    rw [size_toDfa]
    exact (List.getElem?_eq_some_iff.1 hs).1
  target_lt := by
    intro m hm
    obtain ⟨s, hs, t, ht, htarget⟩ := mem_moves_toDfa.1 hm
    rw [size_toDfa, htarget]
    exact List.idxOf_lt_length_of_mem
      (mem_subsets_of_mem_nextSubsets hn hfirst (List.mem_of_getElem? hs) ht)
  symbol_mem := by
    intro m hm
    rw [alphabet_toDfa, Ascending.mem_ofList]
    exact List.mem_map_of_mem hm
  sorted := by
    rw [moves_toDfa]
    apply Dfa.sorted_flatMap_zipIdx
    · intro x m hm
      obtain ⟨y, _, rfl⟩ := List.mem_map.1 hm
      rfl
    · intro x
      rw [List.pairwise_map]
      exact n.pairwise_nextSubsets x.1

theorem move?_toDfa {i j : StateId} (hs : n.subsets[i]? = some s) :
    n.toDfa.move? i c = some j ↔
      (n.moveOn s c).isEmpty = false ∧ n.subsets[j]? = some (n.moveOn s c) := by
  rw [(wellFormed_toDfa hn hfirst).tabulated.move?_eq_some_iff, mem_moves_toDfa]
  have hmem : s ∈ n.subsets := List.mem_of_getElem? hs
  constructor
  · rintro ⟨s', hs', t, ht, hj⟩
    obtain rfl := Option.some.inj (hs.symm.trans hs')
    rw [idxOf_subsets_iff (mem_subsets_of_mem_nextSubsets hn hfirst hmem ht)] at hj
    obtain ⟨rfl, hne⟩ := (mem_nextSubsets hn).1 ht
    exact ⟨hne, hj⟩
  · rintro ⟨hne, hj⟩
    exact ⟨s, hs, n.moveOn s c, (mem_nextSubsets hn).2 ⟨rfl, hne⟩,
      (idxOf_subsets_iff (List.mem_of_getElem? hj)).2 hj⟩

/-- A word leads to the number of the set that it leads to in the given automaton. -/
theorem follow_toDfa {i : StateId} : n.toDfa.follow 0 w = some i ↔ n.subsets[i]? = some (n.reached w) := by
  induction w using List.reverseRecOn generalizing i with
  | nil =>
      have hzero := getElem?_subsets_zero hfirst
      have hmem := List.mem_of_getElem? hzero
      rw [← idxOf_subsets_iff hmem] at hzero ⊢
      rw [← hzero, Dfa.follow, Option.some.injEq]
      exact eq_comm
  | append_singleton w c ih =>
      rw [Dfa.follow_snoc, Option.bind_eq_some_iff, reached_snoc]
      constructor
      · rintro ⟨j, hj, hmove⟩
        exact ((move?_toDfa hn hfirst (ih.1 hj)).1 hmove).2
      · intro hi
        have hne : (n.reached (w ++ [c])).isEmpty = false := by
          obtain ⟨_, _, hne⟩ := (mem_subsets hn hfirst).1 (List.mem_of_getElem? hi)
          rwa [reached_snoc]
        have hmem : n.reached w ∈ n.subsets :=
          (mem_subsets hn hfirst).2 ⟨w, rfl, isEmpty_reached_of_snoc hn hne⟩
        obtain ⟨j, hj⟩ := List.mem_iff_getElem?.1 hmem
        rw [reached_snoc] at hne
        exact ⟨j, ih.2 hj, (move?_toDfa hn hfirst hj).2 ⟨hne, hi⟩⟩

/-- The deterministic automaton has a state for a word if and only if the given one has a path for it. -/
theorem exists_follow_toDfa_iff :
    (∃ i, n.toDfa.follow 0 w = some i) ↔ ∃ p ∈ n.start, ∃ q, n.Path p w q := by
  simp only [follow_toDfa hn hfirst]
  rw [← List.mem_iff_getElem?, mem_subsets hn hfirst]
  constructor
  · rintro ⟨v, hv, hne⟩
    obtain ⟨q, hq⟩ := isEmpty_eq_false_iff.1 hne
    obtain ⟨p, hp, hpath⟩ := hn.mem_reached.1 hq
    exact ⟨p, hp, q, hpath⟩
  · rintro ⟨p, hp, q, hpath⟩
    exact ⟨w, rfl, isEmpty_eq_false_iff.2 ⟨q, hn.mem_reached.2 ⟨p, hp, hpath⟩⟩⟩

/-- Every state stands for a set that some word leads to. -/
theorem reachable_toDfa {i : StateId} (hi : i < n.toDfa.size) : n.toDfa.Reachable i := by
  rw [size_toDfa] at hi
  obtain ⟨w, hw, _⟩ := (mem_subsets hn hfirst).1 (List.getElem_mem hi)
  refine ⟨0, w, start_toDfa hfirst, (follow_toDfa hn hfirst).2 ?_⟩
  rw [hw]
  exact List.getElem?_eq_getElem hi

theorem mem_residual_toDfa_iff :
    w ∈ n.toDfa.residual 0 ↔ ∃ p ∈ n.start, ∃ f ∈ n.finals, n.Path p w f := by
  rw [Dfa.mem_residual, ← hn.meets_reached_iff]
  simp only [follow_toDfa hn hfirst, mem_finals_toDfa]
  constructor
  · rintro ⟨i, hi, s, hs, hmeets⟩
    obtain rfl := Option.some.inj (hi.symm.trans hs)
    exact hmeets
  · intro hmeets
    obtain ⟨q, hq, _⟩ := Ascending.meets_iff.1 hmeets
    obtain ⟨i, hi⟩ := List.mem_iff_getElem?.1
      ((mem_subsets hn hfirst).2 ⟨w, rfl, isEmpty_eq_false_iff.2 ⟨q, hq⟩⟩)
    exact ⟨i, hi, n.reached w, hi, hmeets⟩

end

end LanguageTheory.EpsilonNfa
