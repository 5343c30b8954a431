import LanguageTheory.Proofs.Regular.Subsets
import Mathlib.Data.Set.Function

/-! What the subset construction records about its states. Each state stands for the set of states that some
word leads to in the given automaton, each such set that is not empty has exactly one state, and words lead to
the state of the set that they lead to. So the words that lead to a state are those that lead to its set, and
states are numbered by the least of them. -/

namespace LanguageTheory

/-- The states that a state is recorded to stand for. -/
def Dfa.origin (d : Dfa) (i : StateId) : Set StateId :=
  {q | ∃ states, (i, states) ∈ d.origins.getD [] ∧ q ∈ states}

/-- The state that a word leads to from the start state, if there is one. -/
def Dfa.state? (d : Dfa) (w : List SymbolId) : Option StateId := d.start.bind fun s => d.follow s w

/-- The first of the words that lead to a state, by length and then by symbols. -/
def Dfa.LeastWord (d : Dfa) (i : StateId) (w : List SymbolId) : Prop :=
  d.state? w = some i ∧ ∀ v, d.state? v = some i → ¬List.Shortlex (· < ·) v w

namespace EpsilonNfa

/-- The states that paths from any of the given ones lead to by reading a word. -/
def ends (n : EpsilonNfa) (states : Set StateId) (w : List SymbolId) : Set StateId :=
  {q | ∃ p ∈ states, n.Path p w q}

/-- The states that a word leads to from the start states. -/
def endsOf (n : EpsilonNfa) (w : List SymbolId) : Set StateId := n.ends {p | p ∈ n.start} w

/-- A deterministic automaton has a state for each nonempty set of states that words lead to, and moves between
its states as symbols do between those sets. -/
structure Determinizes (n : EpsilonNfa) (d : Dfa) : Prop where
  recorded : (d.origins.getD []).map (·.1) = List.range d.size
  ascending : ∀ x ∈ d.origins.getD [], x.2.Pairwise (· < ·)
  bijOn : Set.BijOn d.origin {i | i < d.size} {states | states.Nonempty ∧ ∃ w, n.endsOf w = states}
  start_none : d.start = none ↔ ∀ s, s ∉ n.start
  start_some : ∀ i, d.start = some i → i < d.size ∧ d.origin i = n.endsOf []
  exists_move : ∀ i < d.size, ∀ c, (∃ j, d.move? i c = some j) ↔ (n.ends (d.origin i) [c]).Nonempty
  move : ∀ i c j, d.move? i c = some j → i < d.size ∧ j < d.size ∧ d.origin j = n.ends (d.origin i) [c]
  final : ∀ i, i ∈ d.finals ↔ i < d.size ∧ ∃ q ∈ d.origin i, q ∈ n.finals
  state : ∀ w i, d.state? w = some i ↔ i < d.size ∧ d.origin i = n.endsOf w
  exists_leastWord : ∀ i < d.size, ∃ w, d.LeastWord i w
  numbered : ∀ i j u v, d.LeastWord i u → d.LeastWord j v → (i < j ↔ List.Shortlex (· < ·) u v)

variable {n : EpsilonNfa} {i j : StateId} {s t : StateSet} {c : SymbolId} {u v w : List SymbolId}

/-! ### Recorded sets -/

theorem origins_toDfa (n : EpsilonNfa) :
    n.toDfa.origins.getD [] = n.subsets.zipIdx.map fun x => (x.2, x.1.toList) := by
  unfold toDfa
  cases n.subsets <;> rfl

theorem keys_origins_toDfa (n : EpsilonNfa) : (n.toDfa.origins.getD []).map (·.1) = List.range n.toDfa.size := by
  rw [origins_toDfa, List.map_map, size_toDfa, List.range_eq_range']
  exact List.zipIdx_map_snd 0 n.subsets

theorem ascending_of_mem_origins_toDfa {x : StateId × List StateId} (hx : x ∈ n.toDfa.origins.getD []) :
    x.2.Pairwise (· < ·) := by
  rw [origins_toDfa] at hx
  obtain ⟨y, _, rfl⟩ := List.mem_map.1 hx
  exact y.1.pairwise

theorem origin_toDfa (hs : n.subsets[i]? = some s) : n.toDfa.origin i = {q | q ∈ s} := by
  ext q
  simp only [Dfa.origin, origins_toDfa, Set.mem_ofPred_eq, List.mem_map, Prod.mk.injEq]
  constructor
  · rintro ⟨_, ⟨x, hx, rfl, rfl⟩, hq⟩
    obtain rfl := Option.some.inj (hs.symm.trans (List.mem_zipIdx_iff_getElem?.1 hx))
    exact hq
  · intro hq
    exact ⟨s.toList, ⟨(s, i), List.mem_zipIdx_iff_getElem?.2 hs, rfl, rfl⟩, hq⟩

theorem setOf_mem_inj : {q | q ∈ s} = {q | q ∈ t} ↔ s = t := by
  constructor
  · intro h
    ext q
    exact Set.ext_iff.1 h q
  · intro h
    rw [h]

theorem exists_subset_of_lt (hi : i < n.toDfa.size) : ∃ s, n.subsets[i]? = some s := by
  rw [size_toDfa] at hi
  exact ⟨_, List.getElem?_eq_getElem hi⟩

theorem lt_size_toDfa (hs : n.subsets[i]? = some s) : i < n.toDfa.size := by
  rw [size_toDfa]
  exact (List.getElem?_eq_some_iff.1 hs).1

theorem mem_finals_toDfa_iff :
    i ∈ n.toDfa.finals ↔ i < n.toDfa.size ∧ ∃ q ∈ n.toDfa.origin i, q ∈ n.finals := by
  rw [mem_finals_toDfa]
  constructor
  · rintro ⟨s, hs, hmeets⟩
    rw [origin_toDfa hs]
    exact ⟨lt_size_toDfa hs, Ascending.meets_iff.1 hmeets⟩
  · rintro ⟨hi, hmeets⟩
    obtain ⟨s, hs⟩ := exists_subset_of_lt hi
    rw [origin_toDfa hs] at hmeets
    exact ⟨s, hs, Ascending.meets_iff.2 hmeets⟩

/-- Without a state to start from no set is numbered. -/
theorem determinizes_empty (hstart : ∀ s, s ∉ n.start) : n.Determinizes .empty where
  recorded := rfl
  ascending := fun _ hx => (List.not_mem_nil hx).elim
  bijOn := by
    refine ⟨fun i hi => (Nat.not_lt_zero i hi).elim, fun i hi => (Nat.not_lt_zero i hi).elim, ?_⟩
    rintro _ ⟨⟨q, hq⟩, w, rfl⟩
    obtain ⟨p, hp, _⟩ := hq
    exact (hstart p hp).elim
  start_none := iff_of_true rfl hstart
  start_some := fun _ h => nomatch h
  exists_move := fun i hi => (Nat.not_lt_zero i hi).elim
  move := fun _ _ _ h => nomatch h
  final := fun i => iff_of_false (Ascending.not_mem_empty i) fun h => Nat.not_lt_zero i h.1
  state := fun _ i => iff_of_false (fun h => nomatch h) fun h => Nat.not_lt_zero i h.1
  exists_leastWord := fun i hi => (Nat.not_lt_zero i hi).elim
  numbered := fun _ _ _ _ h => nomatch h.1

/-! ### Sets that words lead to -/

section

variable (hn : n.WellFormed)
include hn

theorem endsOf_eq (w : List SymbolId) : n.endsOf w = {q | q ∈ n.reached w} := by
  ext q
  exact hn.mem_reached.symm

theorem ends_reached (w : List SymbolId) (c : SymbolId) :
    n.ends {q | q ∈ n.reached w} [c] = {q | q ∈ n.moveOn (n.reached w) c} := by
  ext q
  change (∃ p ∈ n.reached w, n.Path p [c] q) ↔ q ∈ n.moveOn (n.reached w) c
  rw [← reached_snoc, hn.mem_reached]
  constructor
  · rintro ⟨p, hp, hpath⟩
    obtain ⟨s, hs, hfirst⟩ := hn.mem_reached.1 hp
    exact ⟨s, hs, hfirst.trans hpath⟩
  · rintro ⟨s, hs, hpath⟩
    obtain ⟨p, hfirst, hlast⟩ := hpath.split
    exact ⟨p, hn.mem_reached.2 ⟨s, hs, hfirst⟩, hlast⟩

/-- Nothing is reached by the empty word if and only if there is no state to start from. -/
theorem isEmpty_reached_nil_iff : (n.reached []).isEmpty = true ↔ ∀ s, s ∉ n.start := by
  rw [← Bool.not_eq_false, isEmpty_eq_false_iff, not_exists]
  constructor
  · intro h s hs
    exact h s (hn.mem_reached.2 ⟨s, hs, .nil s⟩)
  · intro h q hq
    obtain ⟨s, hs, _⟩ := hn.mem_reached.1 hq
    exact h s hs

/-! ### States for those sets -/

variable (hfirst : (n.reached []).isEmpty = false)
include hfirst

theorem exists_reached_of_getElem? (hs : n.subsets[i]? = some s) : ∃ w, n.reached w = s ∧ s.isEmpty = false :=
  (mem_subsets hn hfirst).1 (List.mem_of_getElem? hs)

theorem state?_toDfa : n.toDfa.state? w = some i ↔ n.subsets[i]? = some (n.reached w) := by
  rw [Dfa.state?, start_toDfa hfirst, Option.bind_some, follow_toDfa hn hfirst]

theorem bijOn_origin_toDfa : Set.BijOn n.toDfa.origin {i | i < n.toDfa.size}
    {states | states.Nonempty ∧ ∃ w, n.endsOf w = states} := by
  refine ⟨?_, ?_, ?_⟩
  · intro i hi
    obtain ⟨s, hs⟩ := exists_subset_of_lt hi
    obtain ⟨w, hw, hne⟩ := exists_reached_of_getElem? hn hfirst hs
    rw [origin_toDfa hs]
    exact ⟨isEmpty_eq_false_iff.1 hne, w, by rw [endsOf_eq hn, hw]⟩
  · intro i hi j hj hij
    obtain ⟨s, hs⟩ := exists_subset_of_lt hi
    obtain ⟨t, ht⟩ := exists_subset_of_lt hj
    rw [origin_toDfa hs, origin_toDfa ht, setOf_mem_inj] at hij
    subst hij
    exact eq_of_getElem?_eq_some n.nodup_subsets hs ht
  · rintro _ ⟨hne, w, rfl⟩
    rw [endsOf_eq hn] at hne ⊢
    obtain ⟨i, hi⟩ := List.mem_iff_getElem?.1
      ((mem_subsets hn hfirst).2 ⟨w, rfl, isEmpty_eq_false_iff.2 hne⟩)
    exact ⟨i, lt_size_toDfa hi, origin_toDfa hi⟩

/-! ### Numbers -/

/-- The words that lead to a state are those that lead to its set. -/
theorem path_nextSubsets_iff_state? (hs : n.subsets[i]? = some s) :
    Labelled.Path n.nextSubsets (n.reached []) w s ↔ n.toDfa.state? w = some i := by
  rw [path_nextSubsets_iff hn hfirst, state?_toDfa hn hfirst, hs, Option.some.injEq, eq_comm]
  exact and_iff_left (exists_reached_of_getElem? hn hfirst hs).choose_spec.2

theorem least_nextSubsets_iff (hs : n.subsets[i]? = some s) :
    Labelled.Least n.nextSubsets (n.reached []) w s ↔ n.toDfa.LeastWord i w := by
  simp only [Labelled.Least, Dfa.LeastWord, path_nextSubsets_iff_state? hn hfirst hs]

theorem precedes_of_lt (hu : n.toDfa.LeastWord i u) (hv : n.toDfa.LeastWord j v) (hij : i < j) :
    Labelled.Precedes u v := by
  have hs := (state?_toDfa hn hfirst).1 hu.1
  have ht := (state?_toDfa hn hfirst).1 hv.1
  have hascending : n.subsets.Pairwise (Labelled.Before n.nextSubsets (n.reached [])) := by
    rw [subsets_eq_explore hfirst]
    exact Labelled.pairwise_explore n.pairwise_nextSubsets _ _
  obtain ⟨hi, hget⟩ := List.getElem?_eq_some_iff.1 hs
  obtain ⟨hj, hget'⟩ := List.getElem?_eq_some_iff.1 ht
  have hbefore := List.pairwise_iff_getElem.1 hascending i j hi hj hij
  rw [hget, hget'] at hbefore
  exact hbefore u v ((least_nextSubsets_iff hn hfirst hs).2 hu) ((least_nextSubsets_iff hn hfirst ht).2 hv)

/-- States are numbered by the least words that lead to them. -/
theorem lt_iff_precedes (hu : n.toDfa.LeastWord i u) (hv : n.toDfa.LeastWord j v) :
    i < j ↔ Labelled.Precedes u v := by
  refine ⟨precedes_of_lt hn hfirst hu hv, fun huv => ?_⟩
  rcases Nat.lt_trichotomy i j with hij | rfl | hji
  · exact hij
  · exact (hv.2 u hu.1 huv).elim
  · exact (Labelled.wellFounded_precedes.asymmetric _ _ huv (precedes_of_lt hn hfirst hv hu hji)).elim

theorem exists_leastWord_toDfa (hi : i < n.toDfa.size) : ∃ w, n.toDfa.LeastWord i w := by
  obtain ⟨s, hs⟩ := exists_subset_of_lt hi
  obtain ⟨w, hw⟩ := exists_reached_of_getElem? hn hfirst hs
  obtain ⟨v, hv⟩ := ((path_nextSubsets_iff hn hfirst).2 hw).exists_least
  exact ⟨v, (least_nextSubsets_iff hn hfirst hs).1 hv⟩

/-! ### The construction -/

theorem origin_of_move?_toDfa (hmove : n.toDfa.move? i c = some j) :
    i < n.toDfa.size ∧ j < n.toDfa.size ∧ n.toDfa.origin j = n.ends (n.toDfa.origin i) [c] := by
  obtain ⟨hi, hj⟩ := (wellFormed_toDfa hn hfirst).lt_of_move? hmove
  obtain ⟨s, hs⟩ := exists_subset_of_lt hi
  obtain ⟨w, rfl, _⟩ := exists_reached_of_getElem? hn hfirst hs
  obtain ⟨_, ht⟩ := (move?_toDfa hn hfirst hs).1 hmove
  rw [origin_toDfa hs, origin_toDfa ht, ends_reached hn]
  exact ⟨hi, hj, rfl⟩

theorem exists_move?_toDfa (hi : i < n.toDfa.size) (c : SymbolId) :
    (∃ j, n.toDfa.move? i c = some j) ↔ (n.ends (n.toDfa.origin i) [c]).Nonempty := by
  obtain ⟨s, hs⟩ := exists_subset_of_lt hi
  obtain ⟨w, rfl, _⟩ := exists_reached_of_getElem? hn hfirst hs
  simp only [move?_toDfa hn hfirst hs, exists_and_left, ← List.mem_iff_getElem?]
  rw [origin_toDfa hs, ends_reached hn, ← reached_snoc, isEmpty_eq_false_iff]
  refine and_iff_left_of_imp fun hne => ?_
  exact (mem_subsets hn hfirst).2 ⟨w ++ [c], rfl, isEmpty_eq_false_iff.2 hne⟩

theorem state?_toDfa_iff : n.toDfa.state? w = some i ↔ i < n.toDfa.size ∧ n.toDfa.origin i = n.endsOf w := by
  rw [state?_toDfa hn hfirst]
  constructor
  · intro hs
    exact ⟨lt_size_toDfa hs, by rw [origin_toDfa hs, endsOf_eq hn]⟩
  · rintro ⟨hi, horigin⟩
    obtain ⟨s, hs⟩ := exists_subset_of_lt hi
    rw [origin_toDfa hs, endsOf_eq hn, setOf_mem_inj] at horigin
    rw [hs, horigin]

theorem determinizes_of_start : n.Determinizes n.toDfa where
  recorded := n.keys_origins_toDfa
  ascending := fun _ hx => ascending_of_mem_origins_toDfa hx
  bijOn := bijOn_origin_toDfa hn hfirst
  start_none := by
    rw [start_toDfa hfirst, ← isEmpty_reached_nil_iff hn, hfirst]
    exact iff_of_false (fun h => nomatch h) (fun h => nomatch h)
  start_some := by
    intro i hi
    refine (state?_toDfa_iff hn hfirst).1 ?_
    rw [Dfa.state?, hi]
    rfl
  exists_move := fun _ hi c => exists_move?_toDfa hn hfirst hi c
  move := fun _ _ _ hmove => origin_of_move?_toDfa hn hfirst hmove
  final := fun _ => mem_finals_toDfa_iff
  state := fun _ _ => state?_toDfa_iff hn hfirst
  exists_leastWord := fun _ hi => exists_leastWord_toDfa hn hfirst hi
  numbered := fun _ _ _ _ hu hv => lt_iff_precedes hn hfirst hu hv

end

/-- The subset construction is exact for every automaton that edits make. -/
theorem determinizes_edits (edits : List Edit) :
    (edits.foldl edit empty).Determinizes (edits.foldl edit empty).toDfa := by
  have hn := wellFormed_empty.edits edits
  generalize edits.foldl edit empty = n at hn
  cases hfirst : (n.reached []).isEmpty with
  | false => exact determinizes_of_start hn hfirst
  | true =>
      have hdfa : n.toDfa = .empty := by
        rw [reached_nil] at hfirst
        rw [toDfa, subsets, hfirst]
        rfl
      rw [hdfa]
      exact determinizes_empty ((isEmpty_reached_nil_iff hn).1 hfirst)

end EpsilonNfa

end LanguageTheory
