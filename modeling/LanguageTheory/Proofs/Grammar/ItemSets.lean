import LanguageTheory.Grammar.ShiftReduce
import LanguageTheory.Proofs.Finite.Exploration
import LanguageTheory.Proofs.Grammar.Derivation
import Mathlib.Data.Finset.Powerset

/-! The graph of item sets. Closures hold everything that is predicted from them, every symbol after a
dot has an edge, and an edge moves the dots over its symbol. So what matters about a state is which items
it holds. -/

namespace LanguageTheory

namespace AugmentedGrammar

variable {a : AugmentedGrammar} {g : Grammar} {items : ItemSet} {i j k : Item} {c : Char} {s t t' index : Nat}
  {p : Production}

/-! ### The added production -/

/-- One production, from a variable that the grammar does not use, stands before those of the grammar. -/
structure Augments (a : AugmentedGrammar) (g : Grammar) : Prop where
  grammar_eq : a.grammar = g
  getElem?_succ : ∀ index, a.productions[index + 1]? = g.productions[index]?
  exists_first : ∃ p, a.productions[0]? = some p ∧ p.left = a.start ∧ p.right = [g.start]
  start_not_mem : a.start ∉ g.variableSymbols

theorem not_mem_of_freshVariable (h : g.freshVariable = .ok c) : c ∉ g.variableSymbols := by
  unfold Grammar.freshVariable at h
  split at h
  next d hd =>
    cases h
    have hfresh := List.find?_some hd
    rwa [Bool.not_eq_true', decide_eq_false_iff_not] at hfresh
  next => cases h

theorem augments_of (h : AugmentedGrammar.of g = .ok a) : Augments a g := by
  unfold AugmentedGrammar.of at h
  cases hstart : g.freshVariable with
  | error e =>
      rw [hstart] at h
      cases h
  | ok start =>
      rw [hstart] at h
      cases hfirst : Production.of start [g.start] with
      | error e =>
          simp only [bind, Except.bind, hfirst] at h
          cases h
      | ok first =>
          simp only [bind, Except.bind, hfirst] at h
          cases h
          exact ⟨rfl, fun _ => rfl, ⟨first, rfl, Grammar.sides_of_production hfirst⟩, not_mem_of_freshVariable hstart⟩

/-! ### Items -/

theorem afterDot?_eq_some : a.afterDot? i = some c ↔
    ∃ p, a.productions[i.production]? = some p ∧ p.right[i.dot]? = some c := by
  rw [afterDot?, Option.bind_eq_some_iff]
  rfl

theorem mem_predicted : j ∈ a.predicted i ↔ ∃ p index, a.productions[index]? = some p ∧
    a.afterDot? i = some p.left ∧ j = ⟨index, 0⟩ := by
  unfold predicted
  cases hdot : a.afterDot? i with
  | none => simp
  | some v =>
      simp only [List.mem_filterMap, Prod.exists, List.mk_mem_zipIdx_iff_getElem?, Option.ite_none_right_eq_some,
        Option.some.injEq]
      refine exists_congr fun p => exists_congr fun index => and_congr_right fun _ => ?_
      exact and_congr eq_comm eq_comm

theorem isComplete_iff (h : a.productions[i.production]? = some p) :
    a.isComplete i = true ↔ p.right.length ≤ i.dot := by
  rw [isComplete, afterDot?, h, Option.bind_some, Production.symbol?, Option.isNone_iff_eq_none,
    List.getElem?_eq_none_iff]

/-- All items of the grammar. -/
def allItems (a : AugmentedGrammar) : Finset Item :=
  (a.productions.zipIdx.flatMap fun x => (List.range (x.1.length + 1)).map (Item.mk x.2)).toFinset

theorem mem_allItems : i ∈ a.allItems ↔
    ∃ p, a.productions[i.production]? = some p ∧ i.dot ≤ p.right.length := by
  simp only [allItems, List.mem_toFinset, List.mem_flatMap, Prod.exists, List.mk_mem_zipIdx_iff_getElem?,
    List.mem_map, List.mem_range, Nat.lt_succ_iff]
  constructor
  · rintro ⟨p, index, hp, dot, hdot, rfl⟩
    exact ⟨p, hp, hdot⟩
  · rintro ⟨p, hp, hdot⟩
    exact ⟨p, i.production, hp, i.dot, hdot, rfl⟩

theorem card_allItems_le (a : AugmentedGrammar) : a.allItems.card ≤ a.itemCount := by
  refine (List.toFinset_card_le _).trans ?_
  rw [List.length_flatMap, itemCount, ← List.sum_eq_foldl_nat]
  have hlengths : (a.productions.zipIdx.map fun x => ((List.range (x.1.length + 1)).map (Item.mk x.2)).length) =
      a.productions.map fun p => p.length + 1 := by
    conv_rhs => rw [← List.zipIdx_map_fst 0 a.productions]
    rw [List.map_map]
    apply List.map_congr_left
    intro x _
    rw [List.length_map, List.length_range]
    rfl
  rw [hlengths]

theorem mem_allItems_of_predicted (h : j ∈ a.predicted i) : j ∈ a.allItems := by
  obtain ⟨p, index, hp, _, rfl⟩ := mem_predicted.1 h
  exact mem_allItems.2 ⟨p, hp, Nat.zero_le _⟩

/-! ### Closures -/

theorem mem_closure : i ∈ a.closure items ↔ ∃ k ∈ items, Reaches a.predicted k i := by
  have hstarts : ∀ k ∈ items.toList, k ∈ items.toList.toFinset ∪
      (Finset.range a.productions.length).image fun index => (⟨index, 0⟩ : Item) :=
    fun k hk => Finset.mem_union_left _ (List.mem_toFinset.2 hk)
  rw [closure, Ascending.mem_ofList, mem_explore_iff hstarts]
  · rfl
  · intro k _ j hj
    obtain ⟨p, index, hp, _, rfl⟩ := mem_predicted.1 hj
    apply Finset.mem_union_right
    exact Finset.mem_image_of_mem _ (Finset.mem_range.2 (List.getElem?_eq_some_iff.1 hp).1)
  · refine (Finset.card_union_le _ _).trans (Nat.add_le_add (List.toFinset_card_le _) ?_)
    exact Finset.card_image_le.trans (Finset.card_range _).le

theorem mem_goto : i ∈ a.goto items c ↔
    ∃ k ∈ items, a.afterDot? k = some c ∧ Reaches a.predicted k.advance i := by
  simp only [goto, mem_closure, Ascending.mem_ofList, List.mem_map, List.mem_filter, beq_iff_eq]
  constructor
  · rintro ⟨_, ⟨k, ⟨hk, hdot⟩, rfl⟩, hreaches⟩
    exact ⟨k, hk, hdot, hreaches⟩
  · rintro ⟨k, hk, hdot, hreaches⟩
    exact ⟨_, ⟨k, ⟨hk, hdot⟩, rfl⟩, hreaches⟩

theorem mem_initialItems : i ∈ a.initialItems ↔ Reaches a.predicted ⟨0, 0⟩ i := by
  simp only [initialItems, mem_closure, Ascending.mem_ofList, List.mem_singleton, exists_eq_left]

theorem mem_afterDots : c ∈ a.afterDots items ↔ ∃ i ∈ items, a.afterDot? i = some c := by
  rw [afterDots, Ascending.mem_ofList, List.mem_filterMap]
  rfl

theorem mem_allItems_of_reaches (hi : i ∈ a.allItems) (h : Reaches a.predicted i j) : j ∈ a.allItems :=
  h.invariant (p := (· ∈ a.allItems)) (fun _ _ _ hk => mem_allItems_of_predicted hk) hi

theorem advance_mem_allItems (hdot : a.afterDot? i = some c) : i.advance ∈ a.allItems := by
  obtain ⟨p, hp, hc⟩ := afterDot?_eq_some.1 hdot
  exact mem_allItems.2 ⟨p, hp, (List.getElem?_eq_some_iff.1 hc).1⟩

theorem mem_allItems_of_goto (h : i ∈ a.goto items c) : i ∈ a.allItems := by
  obtain ⟨k, _, hdot, hreaches⟩ := mem_goto.1 h
  exact mem_allItems_of_reaches (advance_mem_allItems hdot) hreaches

/-! ### The states -/

theorem zero_mem_allItems (h : Augments a g) : (⟨0, 0⟩ : Item) ∈ a.allItems := by
  obtain ⟨p, hp, _⟩ := h.exists_first
  exact mem_allItems.2 ⟨p, hp, Nat.zero_le _⟩

/-- All sets of items. -/
noncomputable def allItemSets (a : AugmentedGrammar) : Finset ItemSet :=
  a.allItems.powerset.image fun f => Ascending.ofList f.toList

theorem mem_allItemSets (h : ∀ i ∈ items, i ∈ a.allItems) : items ∈ a.allItemSets := by
  apply Finset.mem_image.2
  refine ⟨items.toList.toFinset, ?_, ?_⟩
  · rw [Finset.mem_powerset]
    exact fun i hi => h i (List.mem_toFinset.1 hi)
  · ext i
    rw [Ascending.mem_ofList, Finset.mem_toList, List.mem_toFinset]
    rfl

theorem card_allItemSets_le (a : AugmentedGrammar) : a.allItemSets.card ≤ Nat.pow 2 a.itemCount := by
  apply Finset.card_image_le.trans
  rw [Finset.card_powerset, Nat.pow_eq]
  exact Nat.pow_le_pow_right Nat.two_pos a.card_allItems_le

/-- The item sets one edge away. -/
def nextItemSets (a : AugmentedGrammar) (items : ItemSet) : List ItemSet :=
  (a.afterDots items).toList.map (a.goto items)

theorem mem_itemSets (h : Augments a g) :
    items ∈ a.itemSets ↔ Reaches a.nextItemSets a.initialItems items := by
  have hstarts : ∀ s ∈ [a.initialItems], s ∈ a.allItemSets := by
    intro s hs
    rw [List.mem_singleton.1 hs]
    apply mem_allItemSets
    intro i hi
    exact mem_allItems_of_reaches (zero_mem_allItems h) (mem_initialItems.1 hi)
  have hclosed : ∀ s ∈ a.allItemSets, ∀ s' ∈ a.nextItemSets s, s' ∈ a.allItemSets := by
    intro s _ s' hs'
    obtain ⟨c, _, rfl⟩ := List.mem_map.1 hs'
    exact mem_allItemSets fun i hi => mem_allItems_of_goto hi
  refine (mem_explore_iff hstarts hclosed a.card_allItemSets_le).trans ?_
  simp only [List.mem_singleton, exists_eq_left]

theorem nodup_itemSets (a : AugmentedGrammar) : a.itemSets.Nodup := nodup_explore _ _ _

theorem itemSets_zero (a : AugmentedGrammar) : a.itemSets[0]? = some a.initialItems := by
  rw [← List.head?_eq_getElem?]
  exact head?_explore _ _ _

/-- The state of the number holds the item. -/
def Holds (a : AugmentedGrammar) (s : Nat) (i : Item) : Prop := ∃ items, a.itemSets[s]? = some items ∧ i ∈ items

/-- The symbol leads from one state to the other. -/
def Edge (a : AugmentedGrammar) (s : Nat) (c : Char) (t : Nat) : Prop :=
  ∃ items, a.itemSets[s]? = some items ∧ c ∈ a.afterDots items ∧ a.itemSets[t]? = some (a.goto items c)

theorem holds_zero : a.Holds 0 i ↔ Reaches a.predicted ⟨0, 0⟩ i := by
  rw [← mem_initialItems]
  constructor
  · rintro ⟨items, hitems, hi⟩
    rw [itemSets_zero] at hitems
    exact Option.some.inj hitems ▸ hi
  · exact fun hi => ⟨_, a.itemSets_zero, hi⟩

/-- A state holds what is predicted from its items. -/
theorem Holds.predicted (h : Augments a g) (hi : a.Holds s i) (hj : j ∈ a.predicted i) : a.Holds s j := by
  obtain ⟨items, hitems, hi⟩ := hi
  refine ⟨items, hitems, ?_⟩
  cases (mem_itemSets h).1 (List.mem_of_getElem? hitems) with
  | refl => exact mem_initialItems.2 ((mem_initialItems.1 hi).step hj)
  | step _ hnext =>
      obtain ⟨c, _, rfl⟩ := List.mem_map.1 hnext
      obtain ⟨k, hk, hdot, hreaches⟩ := mem_goto.1 hi
      exact mem_goto.2 ⟨k, hk, hdot, hreaches.step hj⟩

/-- Every symbol after a dot has an edge. -/
theorem Holds.exists_edge (h : Augments a g) (hi : a.Holds s i) (hdot : a.afterDot? i = some c) :
    ∃ t, a.Edge s c t := by
  obtain ⟨items, hitems, hi⟩ := hi
  have hc : c ∈ a.afterDots items := mem_afterDots.2 ⟨i, hi, hdot⟩
  have hnext : a.goto items c ∈ a.nextItemSets items := List.mem_map_of_mem hc
  have hmem := (mem_itemSets h).2 (((mem_itemSets h).1 (List.mem_of_getElem? hitems)).step hnext)
  obtain ⟨t, ht⟩ := List.mem_iff_getElem?.1 hmem
  exact ⟨t, items, hitems, hc, ht⟩

/-- The items behind an edge are those before it with the dot moved, and what is predicted from them. -/
theorem Edge.holds_iff (h : a.Edge s c t) : a.Holds t j ↔
    ∃ k, a.Holds s k ∧ a.afterDot? k = some c ∧ Reaches a.predicted k.advance j := by
  obtain ⟨items, hitems, _, ht⟩ := h
  constructor
  · rintro ⟨_, hs, hj⟩
    obtain rfl := Option.some.inj (ht.symm.trans hs)
    obtain ⟨k, hk, hdot, hreaches⟩ := mem_goto.1 hj
    exact ⟨k, ⟨items, hitems, hk⟩, hdot, hreaches⟩
  · rintro ⟨k, ⟨_, hs, hk⟩, hdot, hreaches⟩
    obtain rfl := Option.some.inj (hitems.symm.trans hs)
    exact ⟨_, ht, mem_goto.2 ⟨k, hk, hdot, hreaches⟩⟩

theorem Edge.exists_holds (h : a.Edge s c t) : ∃ i, a.Holds t i := by
  obtain ⟨items, hitems, hc, _⟩ := id h
  obtain ⟨i, hi, hdot⟩ := mem_afterDots.1 hc
  exact ⟨i.advance, h.holds_iff.2 ⟨i, ⟨items, hitems, hi⟩, hdot, .refl⟩⟩

theorem Edge.unique (h : a.Edge s c t) (h' : a.Edge s c t') : t = t' := by
  obtain ⟨items, hitems, _, ht⟩ := h
  obtain ⟨_, hitems', _, ht'⟩ := h'
  obtain rfl := Option.some.inj (hitems.symm.trans hitems')
  exact eq_of_getElem?_eq_some a.nodup_itemSets ht ht'

theorem mem_gotoEdges : ⟨s, c, t⟩ ∈ a.gotoEdges a.itemSets ↔ a.Edge s c t := by
  simp only [gotoEdges, List.mem_flatMap, Prod.exists, List.mk_mem_zipIdx_iff_getElem?, List.mem_filterMap,
    Option.map_eq_some_iff, GotoEdge.mk.injEq]
  have hnumber : ∀ items, a.itemSets.idxOf? items = some t ↔ a.itemSets[t]? = some items :=
    fun items => idxOf?_eq_some_iff_getElem? a.nodup_itemSets
  constructor
  · rintro ⟨items, _, hitems, _, hc, _, ht, rfl, rfl, rfl⟩
    exact ⟨items, hitems, hc, (hnumber _).1 ht⟩
  · rintro ⟨items, hitems, hc, ht⟩
    exact ⟨items, s, hitems, c, hc, t, (hnumber _).2 ht, rfl, rfl, rfl⟩

/-- Edges are listed by source and then by symbol. -/
theorem pairwise_gotoEdges (a : AugmentedGrammar) (sets : List ItemSet) : (a.gotoEdges sets).Pairwise fun e f =>
    e.source < f.source ∨ e.source = f.source ∧ e.symbol < f.symbol := by
  refine List.pairwise_flatMap.2 ⟨fun x _ => ?_, (pairwise_zipIdx sets).imp fun hxy e he f hf => ?_⟩
  · refine List.Pairwise.filterMap _ (fun c d hcd e he f hf => ?_) (a.afterDots x.1).pairwise
    obtain ⟨_, _, rfl⟩ := Option.map_eq_some_iff.1 he
    obtain ⟨_, _, rfl⟩ := Option.map_eq_some_iff.1 hf
    exact Or.inr ⟨rfl, hcd⟩
  · obtain ⟨_, _, he⟩ := List.mem_filterMap.1 he
    obtain ⟨_, _, rfl⟩ := Option.map_eq_some_iff.1 he
    obtain ⟨_, _, hf⟩ := List.mem_filterMap.1 hf
    obtain ⟨_, _, rfl⟩ := Option.map_eq_some_iff.1 hf
    exact Or.inl hxy

end AugmentedGrammar

/-- A construction starts with an augmented grammar and nothing else. -/
theorem TableConstruction.exists_started {g : Grammar} {f : TableConstruction} (h : TableConstruction.of g = .ok f) :
    ∃ a : AugmentedGrammar, a.Augments g ∧ f = ⟨.augmentGrammar, a, [], [], none⟩ := by
  unfold TableConstruction.of at h
  cases haugmented : AugmentedGrammar.of g with
  | error e =>
      rw [haugmented] at h
      cases h
  | ok a =>
      rw [haugmented] at h
      cases h
      exact ⟨a, AugmentedGrammar.augments_of haugmented, rfl⟩

end LanguageTheory
