import LanguageTheory.Proofs.Finite.Exploration
import LanguageTheory.Regular.EpsilonNfa

/-! Paths of a nondeterministic automaton, and the sets of states that words lead to. The closure of a
set, cached or not, is what paths that read nothing reach from it, so the set that a word leads to holds
the ends of the paths that read the word. -/

namespace LanguageTheory.EpsilonNfa

variable {n : EpsilonNfa} {s t f : StateId} {c : SymbolId} {u w : List SymbolId}

/-- The states that are named are there, and the cached closures, if any, are those of the graph. -/
structure WellFormed (n : EpsilonNfa) : Prop where
  source_lt : ∀ m ∈ n.moves, m.source < n.size
  target_lt : ∀ m ∈ n.moves, m.target < n.size
  start_lt : ∀ s ∈ n.start, s < n.size
  finals_lt : ∀ s ∈ n.finals, s < n.size
  closures_eq : ∀ closures, n.closures = some closures →
    closures = (List.range n.size).map fun s => n.reachBlindly [s]

/-! ### Paths -/

/-- Some path from one state to another reads the word. -/
inductive Path (n : EpsilonNfa) : StateId → List SymbolId → StateId → Prop
  | nil (s : StateId) : Path n s [] s
  | cons {m : Move} {w : List SymbolId} {f : StateId} : m ∈ n.moves → Path n m.target w f →
      Path n m.source (m.symbol.toList ++ w) f

theorem Path.trans (hst : n.Path s u t) (htf : n.Path t w f) : n.Path s (u ++ w) f := by
  induction hst with
  | nil => exact htf
  | cons hm _ ih =>
      rw [List.append_assoc]
      exact .cons hm (ih htf)

theorem path_single {m : Move} (hm : m ∈ n.moves) : n.Path m.source m.symbol.toList m.target := by
  have h := Path.cons hm (.nil m.target)
  rwa [List.append_nil] at h

theorem Path.mono {n' : EpsilonNfa} (hmoves : ∀ m ∈ n.moves, m ∈ n'.moves) (h : n.Path s w t) :
    n'.Path s w t := by
  induction h with
  | nil => exact .nil _
  | cons hm _ ih => exact .cons (hmoves _ hm) ih

/-- A path can be cut wherever the word that it reads can. -/
theorem Path.split (h : n.Path s (u ++ w) f) : ∃ t, n.Path s u t ∧ n.Path t w f := by
  generalize hv : u ++ w = v at h
  induction h generalizing u with
  | nil s =>
      obtain ⟨rfl, rfl⟩ := List.append_eq_nil_iff.1 hv
      exact ⟨s, .nil s, .nil s⟩
  | @cons m v f hm hpath ih =>
      cases hsymbol : m.symbol with
      | none =>
          rw [hsymbol, Option.toList_none, List.nil_append] at hv
          obtain ⟨t, hut, htf⟩ := ih hv
          have hfirst := Path.cons hm hut
          rw [hsymbol, Option.toList_none, List.nil_append] at hfirst
          exact ⟨t, hfirst, htf⟩
      | some c =>
          rw [hsymbol, Option.toList_some, List.singleton_append] at hv
          cases u with
          | nil =>
              rw [List.nil_append] at hv
              subst hv
              have hwhole := Path.cons hm hpath
              rw [hsymbol, Option.toList_some, List.singleton_append] at hwhole
              exact ⟨m.source, .nil _, hwhole⟩
          | cons c' u =>
              obtain ⟨rfl, hrest⟩ := List.cons.inj hv
              obtain ⟨t, hut, htf⟩ := ih hrest
              have hfirst := Path.cons hm hut
              rw [hsymbol, Option.toList_some, List.singleton_append] at hfirst
              exact ⟨t, hfirst, htf⟩

/-- A path that reads one symbol has one move that reads it. -/
theorem Path.exists_move (h : n.Path s [c] f) :
    ∃ m ∈ n.moves, m.symbol = some c ∧ n.Path s [] m.source ∧ n.Path m.target [] f := by
  generalize hv : [c] = v at h
  induction h with
  | nil => cases hv
  | @cons m v f hm hpath ih =>
      cases hsymbol : m.symbol with
      | none =>
          rw [hsymbol, Option.toList_none, List.nil_append] at hv
          obtain ⟨m', hm', hc, hfirst, hrest⟩ := ih hv
          have hpath' := Path.cons hm hfirst
          rw [hsymbol] at hpath'
          exact ⟨m', hm', hc, hpath', hrest⟩
      | some c' =>
          rw [hsymbol, Option.toList_some, List.singleton_append] at hv
          obtain ⟨rfl, rfl⟩ := List.cons.inj hv
          exact ⟨m, hm, hsymbol, .nil _, hpath⟩

theorem mem_epsilonTargets : t ∈ n.epsilonTargets s ↔ ⟨s, none, t⟩ ∈ n.moves := by
  simp only [epsilonTargets, List.mem_filterMap, Option.ite_none_right_eq_some, Option.some.injEq]
  constructor
  · rintro ⟨m, hm, ⟨rfl, hsymbol⟩, rfl⟩
    rwa [← hsymbol]
  · intro hm
    exact ⟨_, hm, ⟨rfl, rfl⟩, rfl⟩

theorem reaches_epsilonTargets_iff : Reaches n.epsilonTargets s t ↔ n.Path s [] t := by
  constructor
  · intro h
    induction h with
    | refl => exact .nil s
    | step _ ht ih => exact ih.trans (path_single (mem_epsilonTargets.1 ht))
  · intro h
    generalize hw : ([] : List SymbolId) = w at h
    induction h with
    | nil => exact .refl
    | @cons m w f hm _ ih =>
        obtain ⟨hsymbol, rfl⟩ := List.append_eq_nil_iff.1 hw.symm
        rw [Option.toList_eq_nil_iff] at hsymbol
        refine .head (mem_epsilonTargets.2 ?_) (ih rfl)
        rwa [← hsymbol]

theorem WellFormed.lt_of_path (hn : n.WellFormed) (h : n.Path s w t) (hs : s < n.size) : t < n.size := by
  induction h with
  | nil => exact hs
  | cons hm _ ih => exact ih (hn.target_lt _ hm)

/-! ### Closures -/

/-- Besides the given states only states of the automaton are met, so the bound of the walk is large
enough. -/
theorem mem_reachBlindly (htarget : ∀ m ∈ n.moves, m.target < n.size) {starts : List StateId} :
    t ∈ n.reachBlindly starts ↔ ∃ s ∈ starts, n.Path s [] t := by
  have hstarts : ∀ s ∈ starts, s ∈ starts.toFinset ∪ Finset.range n.size := by
    intro s hs
    exact Finset.mem_union_left _ (List.mem_toFinset.2 hs)
  rw [reachBlindly, Ascending.mem_ofList, mem_explore_iff hstarts]
  · simp only [reaches_epsilonTargets_iff]
  · intro s _ t ht
    exact Finset.mem_union_right _ (Finset.mem_range.2 (htarget _ (mem_epsilonTargets.1 ht)))
  · refine (Finset.card_union_le _ _).trans ?_
    rw [Finset.card_range]
    exact Nat.add_le_add_right (List.toFinset_card_le _) _

/-- The closure of a set holds what paths that read nothing reach from it. With cached closures only members that
are states of the automaton count. -/
theorem WellFormed.mem_closure_iff (hn : n.WellFormed) {states : StateSet} : t ∈ n.closure states ↔
    ∃ s ∈ states, (n.closures = none ∨ s < n.size) ∧ n.Path s [] t := by
  unfold closure
  split
  next hnone =>
    rw [mem_reachBlindly hn.target_lt]
    exact exists_congr fun s => and_congr_right fun _ => (and_iff_right (Or.inl hnone)).symm
  next closures hclosures =>
    obtain rfl := hn.closures_eq closures hclosures
    have hcached : ∀ s, t ∈ (((List.range n.size).map fun s => n.reachBlindly [s])[s]?.getD ∅) ↔
        s < n.size ∧ n.Path s [] t := by
      intro s
      by_cases hs : s < n.size
      · rw [List.getElem?_map, List.getElem?_range hs, Option.map_some, Option.getD_some,
          mem_reachBlindly hn.target_lt, and_iff_right hs]
        simp only [List.mem_singleton, exists_eq_left]
      · rw [List.getElem?_eq_none (by simpa using hs)]
        exact iff_of_false (Ascending.not_mem_empty t) fun h => hs h.1
    rw [Ascending.mem_foldl_union, or_iff_right (Ascending.not_mem_empty t)]
    refine exists_congr fun s => and_congr_right fun _ => ?_
    rw [hcached, hclosures]
    simp only [reduceCtorEq, false_or]

/-- The closure of a set of states of the automaton holds what paths that read nothing reach from it. -/
theorem WellFormed.mem_closure (hn : n.WellFormed) {states : StateSet} (hstates : ∀ s ∈ states, s < n.size) :
    t ∈ n.closure states ↔ ∃ s ∈ states, n.Path s [] t := by
  rw [hn.mem_closure_iff]
  exact exists_congr fun s => and_congr_right fun hs => and_iff_right (Or.inr (hstates s hs))

theorem mem_targets {states : StateSet} :
    t ∈ n.targets states c ↔ ∃ s ∈ states, ⟨s, some c, t⟩ ∈ n.moves := by
  simp only [targets, Ascending.mem_ofList, List.mem_filterMap, Option.ite_none_right_eq_some,
    Option.some.injEq]
  constructor
  · rintro ⟨m, hm, ⟨hsymbol, hs⟩, rfl⟩
    refine ⟨m.source, hs, ?_⟩
    rwa [← hsymbol]
  · rintro ⟨s, hs, hm⟩
    exact ⟨_, hm, ⟨rfl, hs⟩, rfl⟩

theorem WellFormed.mem_moveOn (hn : n.WellFormed) {states : StateSet} :
    t ∈ n.moveOn states c ↔ ∃ m ∈ n.moves, m.source ∈ states ∧ m.symbol = some c ∧ n.Path m.target [] t := by
  have htargets : ∀ s ∈ n.targets states c, s < n.size := by
    intro s hs
    obtain ⟨_, _, hm⟩ := mem_targets.1 hs
    exact hn.target_lt _ hm
  rw [moveOn, hn.mem_closure htargets]
  constructor
  · rintro ⟨s, hs, hpath⟩
    obtain ⟨r, hr, hm⟩ := mem_targets.1 hs
    exact ⟨_, hm, hr, rfl, hpath⟩
  · rintro ⟨m, hm, hsource, hsymbol, hpath⟩
    refine ⟨m.target, mem_targets.2 ⟨m.source, hsource, ?_⟩, hpath⟩
    rwa [← hsymbol]

/-! ### Sets that words lead to -/

/-- The states that the start states lead to by reading a word. -/
def reached (n : EpsilonNfa) (w : List SymbolId) : StateSet := w.foldl n.moveOn (n.closure n.start)

theorem reached_snoc (n : EpsilonNfa) (w : List SymbolId) (c : SymbolId) :
    n.reached (w ++ [c]) = n.moveOn (n.reached w) c := by
  simp [reached, List.foldl_append]

theorem WellFormed.mem_reached (hn : n.WellFormed) : t ∈ n.reached w ↔ ∃ s ∈ n.start, n.Path s w t := by
  induction w using List.reverseRecOn generalizing t with
  | nil => exact hn.mem_closure hn.start_lt
  | append_singleton w c ih =>
      rw [reached_snoc, hn.mem_moveOn]
      constructor
      · rintro ⟨m, hm, hsource, hsymbol, hrest⟩
        obtain ⟨s, hs, hpath⟩ := ih.1 hsource
        refine ⟨s, hs, hpath.trans ?_⟩
        have hmove := (path_single hm).trans hrest
        rwa [hsymbol] at hmove
      · rintro ⟨s, hs, hpath⟩
        obtain ⟨r, hfirst, hlast⟩ := hpath.split
        obtain ⟨m, hm, hsymbol, hbefore, hafter⟩ := hlast.exists_move
        refine ⟨m, hm, ih.2 ⟨s, hs, ?_⟩, hsymbol, hafter⟩
        have hsource := hfirst.trans hbefore
        rwa [List.append_nil] at hsource

theorem WellFormed.lt_of_mem_reached (hn : n.WellFormed) (ht : t ∈ n.reached w) : t < n.size := by
  obtain ⟨s, hs, hpath⟩ := hn.mem_reached.1 ht
  exact hn.lt_of_path hpath (hn.start_lt s hs)

/-- What an automaton accepts is what leads from a start state to a final one. -/
theorem WellFormed.meets_reached_iff (hn : n.WellFormed) :
    (n.reached w).meets n.finals = true ↔ ∃ s ∈ n.start, ∃ f ∈ n.finals, n.Path s w f := by
  rw [Ascending.meets_iff]
  constructor
  · rintro ⟨f, hf, hfinal⟩
    obtain ⟨s, hs, hpath⟩ := hn.mem_reached.1 hf
    exact ⟨s, hs, f, hfinal, hpath⟩
  · rintro ⟨s, hs, f, hfinal, hpath⟩
    exact ⟨f, hn.mem_reached.2 ⟨s, hs, hpath⟩, hfinal⟩

/-! ### Edits -/

theorem wellFormed_empty : empty.WellFormed where
  source_lt := by simp [empty]
  target_lt := by simp [empty]
  start_lt := by simp [empty]
  finals_lt := by simp [empty]
  closures_eq := by simp [empty]

theorem size_growTo (n : EpsilonNfa) (s : StateId) : (n.growTo s).size = max n.size (s + 1) := by
  unfold growTo
  split
  next h => exact (Nat.max_eq_left h).symm
  next h => exact (Nat.max_eq_right (Nat.le_succ_of_le (Nat.not_lt.1 h))).symm

theorem growTo_moves (n : EpsilonNfa) (s : StateId) : (n.growTo s).moves = n.moves := by
  unfold growTo
  split <;> rfl

theorem growTo_start (n : EpsilonNfa) (s : StateId) : (n.growTo s).start = n.start := by
  unfold growTo
  split <;> rfl

theorem growTo_finals (n : EpsilonNfa) (s : StateId) : (n.growTo s).finals = n.finals := by
  unfold growTo
  split <;> rfl

theorem le_size_growTo (n : EpsilonNfa) (s : StateId) : n.size ≤ (n.growTo s).size := by
  rw [size_growTo]
  exact Nat.le_max_left _ _

theorem lt_size_growTo (n : EpsilonNfa) (s : StateId) : s < (n.growTo s).size := by
  rw [size_growTo]
  exact Nat.le_max_right _ _

theorem WellFormed.growTo (hn : n.WellFormed) (s : StateId) : (n.growTo s).WellFormed := by
  have hle := n.le_size_growTo s
  refine ⟨?_, ?_, ?_, ?_, ?_⟩
  · rw [growTo_moves]
    exact fun m hm => (hn.source_lt m hm).trans_le hle
  · rw [growTo_moves]
    exact fun m hm => (hn.target_lt m hm).trans_le hle
  · rw [growTo_start]
    exact fun r hr => (hn.start_lt r hr).trans_le hle
  · rw [growTo_finals]
    exact fun r hr => (hn.finals_lt r hr).trans_le hle
  · unfold EpsilonNfa.growTo
    split
    next => exact hn.closures_eq
    next => exact fun _ h => nomatch h

theorem WellFormed.addState (hn : n.WellFormed) : n.addState.2.WellFormed where
  source_lt := fun m hm => Nat.lt_succ_of_lt (hn.source_lt m hm)
  target_lt := fun m hm => Nat.lt_succ_of_lt (hn.target_lt m hm)
  start_lt := fun s hs => Nat.lt_succ_of_lt (hn.start_lt s hs)
  finals_lt := fun s hs => Nat.lt_succ_of_lt (hn.finals_lt s hs)
  closures_eq := fun _ h => nomatch h

theorem WellFormed.addMove (hn : n.WellFormed) (move : Move) : (n.addMove move).WellFormed := by
  have hgrown := hn.growTo (max move.source move.target)
  have hlt := n.lt_size_growTo (max move.source move.target)
  refine ⟨?_, ?_, hgrown.start_lt, hgrown.finals_lt, fun _ h => nomatch h⟩
  · intro m hm
    rcases List.mem_append.1 hm with hm | hm
    · exact hgrown.source_lt m hm
    · obtain rfl := List.mem_singleton.1 hm
      exact (Nat.le_max_left _ _).trans_lt hlt
  · intro m hm
    rcases List.mem_append.1 hm with hm | hm
    · exact hgrown.target_lt m hm
    · obtain rfl := List.mem_singleton.1 hm
      exact (Nat.le_max_right _ _).trans_lt hlt

theorem WellFormed.addStart (hn : n.WellFormed) (s : StateId) : (n.addStart s).WellFormed where
  source_lt := (hn.growTo s).source_lt
  target_lt := (hn.growTo s).target_lt
  start_lt := by
    intro r hr
    rcases Ascending.mem_insert.1 hr with rfl | hr
    · exact n.lt_size_growTo r
    · exact (hn.growTo s).start_lt r hr
  finals_lt := (hn.growTo s).finals_lt
  closures_eq := (hn.growTo s).closures_eq

theorem WellFormed.addFinal (hn : n.WellFormed) (s : StateId) : (n.addFinal s).WellFormed where
  source_lt := (hn.growTo s).source_lt
  target_lt := (hn.growTo s).target_lt
  start_lt := (hn.growTo s).start_lt
  finals_lt := by
    intro r hr
    rcases Ascending.mem_insert.1 hr with rfl | hr
    · exact n.lt_size_growTo r
    · exact (hn.growTo s).finals_lt r hr
  closures_eq := (hn.growTo s).closures_eq

theorem WellFormed.computeClosures (hn : n.WellFormed) : n.computeClosures.WellFormed := by
  unfold EpsilonNfa.computeClosures
  split
  next => exact hn
  next =>
    refine ⟨hn.source_lt, hn.target_lt, hn.start_lt, hn.finals_lt, ?_⟩
    intro closures h
    exact (Option.some.inj h).symm

/-- The edits an automaton is built by. -/
inductive Edit
  | addState
  | addTransition (source : StateId) (symbol : SymbolId) (target : StateId)
  | addEpsilon (source target : StateId)
  | addStart (s : StateId)
  | addFinal (s : StateId)
  | computeClosures

def edit (n : EpsilonNfa) : Edit → EpsilonNfa
  | .addState => n.addState.2
  | .addTransition source symbol target => n.addTransition source symbol target
  | .addEpsilon source target => n.addEpsilon source target
  | .addStart s => n.addStart s
  | .addFinal s => n.addFinal s
  | .computeClosures => n.computeClosures

theorem WellFormed.edit (hn : n.WellFormed) (e : Edit) : (n.edit e).WellFormed := by
  cases e with
  | addState => exact hn.addState
  | addTransition source symbol target => exact hn.addMove _
  | addEpsilon source target => exact hn.addMove _
  | addStart s => exact hn.addStart s
  | addFinal s => exact hn.addFinal s
  | computeClosures => exact hn.computeClosures

theorem WellFormed.edits (hn : n.WellFormed) (edits : List Edit) :
    (edits.foldl EpsilonNfa.edit n).WellFormed := by
  induction edits generalizing n with
  | nil => exact hn
  | cons e edits ih => exact ih (hn.edit e)

theorem computeClosures_graph (n : EpsilonNfa) : n.computeClosures.size = n.size ∧
    n.computeClosures.moves = n.moves ∧ n.computeClosures.start = n.start ∧
    n.computeClosures.finals = n.finals := by
  unfold computeClosures
  split <;> exact ⟨rfl, rfl, rfl, rfl⟩

end LanguageTheory.EpsilonNfa
