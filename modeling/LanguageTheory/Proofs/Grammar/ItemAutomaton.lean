import LanguageTheory.Proofs.Automaton.Language
import LanguageTheory.Proofs.Grammar.ItemSets
import LanguageTheory.Proofs.Regular.Graph
import Mathlib.Computability.EpsilonNFA

/-! The graph of item sets is the automaton of items made deterministic. The automaton of items moves a dot
over the symbol that it reads, and without reading it goes from a dot before a variable to the front of each
production of the variable. A string leads along the edges of the graph to the set of the items that it leads
to in that automaton, as long as there are any. So the graph, with the sets that hold a completed item as its
final states, accepts what the automaton of items accepts. -/

namespace LanguageTheory

namespace AugmentedGrammar

variable {a : AugmentedGrammar} {g : Grammar} {i k : Item} {c : Char} {w : Word}

/-- The automaton of items. It accepts with a completed item. -/
def itemAutomaton (a : AugmentedGrammar) : εNFA Char Item where
  step i
    | some c => {j | a.afterDot? i = some c ∧ j = i.advance}
    | none => {j | ∃ p index, a.productions[index]? = some p ∧ a.afterDot? i = some p.left ∧
        j = ⟨index, 0⟩}
  start := {⟨0, 0⟩}
  accept := {i | ∃ p, a.productions[i.production]? = some p ∧ i.dot = p.right.length}

/-! ### Items that strings lead to -/

theorem mem_εClosure_single : i ∈ a.itemAutomaton.εClosure {k} ↔ Reaches a.predicted k i := by
  constructor
  · intro h
    induction h with
    | base j hj =>
        obtain rfl := hj
        exact .refl
    | step j l hl _ ih => exact Reaches.step ih (mem_predicted.2 hl)
  · intro h
    induction h with
    | refl => exact εNFA.εClosure.base k rfl
    | step _ hj ih => exact εNFA.εClosure.step _ _ (mem_predicted.1 hj) ih

theorem mem_eval_nil : i ∈ a.itemAutomaton.eval [] ↔ Reaches a.predicted ⟨0, 0⟩ i := mem_εClosure_single

theorem mem_eval_snoc : i ∈ a.itemAutomaton.eval (w ++ [c]) ↔
    ∃ k ∈ a.itemAutomaton.eval w, a.afterDot? k = some c ∧ Reaches a.predicted k.advance i := by
  rw [εNFA.eval_append_singleton, εNFA.mem_stepSet_iff]
  refine exists_congr fun k => and_congr_right fun _ => ?_
  rw [εNFA.mem_εClosure_iff_exists]
  constructor
  · rintro ⟨_, ⟨hdot, rfl⟩, hi⟩
    exact ⟨hdot, mem_εClosure_single.1 hi⟩
  · rintro ⟨hdot, hreaches⟩
    exact ⟨k.advance, ⟨hdot, rfl⟩, mem_εClosure_single.2 hreaches⟩

/-- An item that a string leads to is one of the grammar. -/
theorem mem_allItems_of_mem_eval (h : Augments a g) (hi : i ∈ a.itemAutomaton.eval w) : i ∈ a.allItems := by
  cases w using List.reverseRecOn with
  | nil => exact mem_allItems_of_reaches (zero_mem_allItems h) (mem_eval_nil.1 hi)
  | append_singleton w c =>
      obtain ⟨k, _, hdot, hreaches⟩ := mem_eval_snoc.1 hi
      exact mem_allItems_of_reaches (advance_mem_allItems hdot) hreaches

/-- An item of the grammar is completed if and only if the automaton of items accepts with it. -/
theorem isComplete_iff_mem_accept (hi : i ∈ a.allItems) :
    a.isComplete i = true ↔ i ∈ a.itemAutomaton.accept := by
  obtain ⟨p, hp, hle⟩ := mem_allItems.1 hi
  rw [isComplete_iff hp]
  constructor
  · intro hge
    exact ⟨p, hp, hle.antisymm hge⟩
  · rintro ⟨q, hq, hdot⟩
    obtain rfl := Option.some.inj (hp.symm.trans hq)
    exact hdot.ge

end AugmentedGrammar

namespace TableConstruction

variable {a : AugmentedGrammar} {g : Grammar} {f c : TableConstruction} {items : ItemSet} {i : Item} {d : Char}
  {n s t : Nat} {w : Word}

/-- Where the edge with a symbol leads from a state. -/
def target? (c : TableConstruction) (s : Nat) (symbol : Char) : Option Nat :=
  (c.edges.find? fun e => e.source == s && e.symbol == symbol).map (·.target)

/-- Where a string leads along the edges. -/
def follow (c : TableConstruction) (s : Nat) (w : Word) : Option Nat := w.foldlM c.target? s

/-- What the construction holds once the graph has been made. -/
structure Graphed (a : AugmentedGrammar) (c : TableConstruction) : Prop where
  stage_eq : c.stage = .fillTable ∨ c.stage = .done
  augmented_eq : c.augmented = a
  itemSets_eq : c.itemSets = a.itemSets
  edges_eq : c.edges = a.gotoEdges a.itemSets

theorem Graphed.advance (h : Graphed a c) : Graphed a c.advance := by
  rcases h.stage_eq with hstage | hstage
  · rw [TableConstruction.advance, hstage]
    exact ⟨Or.inr rfl, h.augmented_eq, h.itemSets_eq, h.edges_eq⟩
  · rw [TableConstruction.advance, hstage]
    exact h

/-- Three stages make the graph, and the others keep it. -/
theorem graphed_iterate (h : TableConstruction.of g = .ok f) (hn : 3 ≤ n) :
    Graphed f.augmented (TableConstruction.advance^[n] f) ∧ f.augmented.Augments g := by
  obtain ⟨a, haugments, rfl⟩ := exists_started h
  refine ⟨?_, haugments⟩
  induction n, hn using Nat.le_induction with
  | base => exact ⟨Or.inl rfl, rfl, rfl, rfl⟩
  | succ n _ ih =>
      rw [Function.iterate_succ_apply']
      exact ih.advance

/-! ### Following edges -/

theorem follow_cons (c : TableConstruction) (s : Nat) (d : Char) (w : Word) :
    c.follow s (d :: w) = (c.target? s d).bind fun t => c.follow t w := rfl

theorem follow_snoc (c : TableConstruction) (s : Nat) (w : Word) (d : Char) :
    c.follow s (w ++ [d]) = (c.follow s w).bind fun t => c.target? t d := by
  simp only [follow, List.foldlM_append, List.foldlM_cons, List.foldlM_nil, bind_pure]
  rfl

theorem Graphed.target?_eq_some_iff (h : Graphed a c) : c.target? s d = some t ↔ a.Edge s d t := by
  have hkey : ∀ e, (c.edges.find? fun e => e.source == s && e.symbol == d) = some e → a.Edge s d e.target := by
    intro e he
    have hkey := List.find?_some he
    simp only [Bool.and_eq_true, beq_iff_eq] at hkey
    obtain ⟨rfl, rfl⟩ := hkey
    rw [h.edges_eq] at he
    exact AugmentedGrammar.mem_gotoEdges.1 (List.mem_of_find?_eq_some he)
  rw [target?, Option.map_eq_some_iff]
  constructor
  · rintro ⟨e, he, rfl⟩
    exact hkey e he
  · intro hedge
    have hmem : ⟨s, d, t⟩ ∈ c.edges := by
      rw [h.edges_eq]
      exact AugmentedGrammar.mem_gotoEdges.2 hedge
    have hsome : (c.edges.find? fun e => e.source == s && e.symbol == d).isSome := by
      rw [List.find?_isSome]
      exact ⟨_, hmem, by simp⟩
    obtain ⟨e, he⟩ := Option.isSome_iff_exists.1 hsome
    exact ⟨e, he, (hkey e he).unique hedge⟩

/-- A string leads to a state that holds exactly the items that it leads to. -/
theorem Graphed.holds_iff (h : Graphed a c) (hw : c.follow 0 w = some s) :
    a.Holds s i ↔ i ∈ a.itemAutomaton.eval w := by
  induction w using List.reverseRecOn generalizing s i with
  | nil =>
      obtain rfl := Option.some.inj hw
      rw [AugmentedGrammar.holds_zero, AugmentedGrammar.mem_eval_nil]
  | append_singleton w d ih =>
      rw [follow_snoc, Option.bind_eq_some_iff] at hw
      obtain ⟨r, hr, hd⟩ := hw
      rw [(h.target?_eq_some_iff.1 hd).holds_iff, AugmentedGrammar.mem_eval_snoc]
      exact exists_congr fun k => and_congr_left' (ih hr)

/-- A string leads to a state as long as it leads to items. -/
theorem Graphed.exists_follow_iff (h : Graphed a c) (ha : a.Augments g) :
    (∃ s, c.follow 0 w = some s) ↔ (a.itemAutomaton.eval w).Nonempty := by
  constructor
  · rintro ⟨s, hs⟩
    have hholds : ∃ i, a.Holds s i := by
      cases w using List.reverseRecOn with
      | nil =>
          obtain rfl := Option.some.inj hs
          exact ⟨⟨0, 0⟩, AugmentedGrammar.holds_zero.2 .refl⟩
      | append_singleton w d =>
          rw [follow_snoc, Option.bind_eq_some_iff] at hs
          obtain ⟨r, _, hd⟩ := hs
          exact (h.target?_eq_some_iff.1 hd).exists_holds
    obtain ⟨i, hi⟩ := hholds
    exact ⟨i, (h.holds_iff hs).1 hi⟩
  · rintro ⟨i, hi⟩
    induction w using List.reverseRecOn generalizing i with
    | nil => exact ⟨0, rfl⟩
    | append_singleton w d ih =>
        obtain ⟨k, hk, hdot, _⟩ := AugmentedGrammar.mem_eval_snoc.1 hi
        obtain ⟨s, hs⟩ := ih k hk
        obtain ⟨t, ht⟩ := ((h.holds_iff hs).2 hk).exists_edge ha hdot
        exact ⟨t, by rw [follow_snoc, hs, Option.bind_some, h.target?_eq_some_iff.2 ht]⟩

theorem Graphed.setOf_mem_eq_eval (h : Graphed a c) (ha : a.Augments g) (hw : c.follow 0 w = some s) :
    ∃ items, c.itemSets[s]? = some items ∧ {i | i ∈ items} = a.itemAutomaton.eval w := by
  obtain ⟨i, hi⟩ := (h.exists_follow_iff ha).1 ⟨s, hw⟩
  obtain ⟨items, hitems, _⟩ := (h.holds_iff hw).2 hi
  refine ⟨items, h.itemSets_eq ▸ hitems, ?_⟩
  ext k
  rw [← h.holds_iff hw]
  constructor
  · intro hk
    exact ⟨items, hitems, hk⟩
  · rintro ⟨_, hitems', hk⟩
    obtain rfl := Option.some.inj (hitems.symm.trans hitems')
    exact hk

/-- Some string leads to each item set. -/
theorem Graphed.exists_word (h : Graphed a c) (ha : a.Augments g) (hitems : a.itemSets[s]? = some items) :
    ∃ w, c.follow 0 w = some s := by
  have hreaches := (AugmentedGrammar.mem_itemSets ha).1 (List.mem_of_getElem? hitems)
  induction hreaches generalizing s with
  | refl => exact ⟨[], congrArg some (eq_of_getElem?_eq_some a.nodup_itemSets a.itemSets_zero hitems)⟩
  | step hreaches hnext ih =>
      obtain ⟨d, hd, rfl⟩ := List.mem_map.1 hnext
      obtain ⟨r, hr⟩ := List.mem_iff_getElem?.1 ((AugmentedGrammar.mem_itemSets ha).2 hreaches)
      obtain ⟨w, hw⟩ := ih hr
      have hedge : a.Edge r d s := ⟨_, hr, hd, hitems⟩
      exact ⟨w ++ [d], by rw [follow_snoc, hw, Option.bind_some, h.target?_eq_some_iff.2 hedge]⟩

/-! ### The graph as an automaton -/

theorem mem_transitions_gotoAutomaton {t : Transition} :
    t ∈ c.gotoAutomaton.transitions ↔ ∃ e ∈ c.edges, ⟨e.source, e.target, .finite [e.symbol]⟩ = t :=
  List.mem_map

theorem Graphed.path_iff (h : Graphed a c) : c.gotoAutomaton.Path s w t ↔ c.follow s w = some t := by
  have hedges : ∀ {s t d}, ⟨s, d, t⟩ ∈ c.edges ↔ c.target? s d = some t := by
    intro s t d
    rw [h.target?_eq_some_iff, h.edges_eq, AugmentedGrammar.mem_gotoEdges]
  constructor
  · intro hpath
    induction hpath with
    | nil s => rfl
    | cons ht hlabel _ ih =>
        obtain ⟨e, he, rfl⟩ := mem_transitions_gotoAutomaton.1 ht
        obtain rfl := Label.finite.inj hlabel
        rw [List.singleton_append, follow_cons, hedges.1 he, Option.bind_some]
        exact ih
  · intro hfollow
    induction w generalizing s with
    | nil =>
        obtain rfl := Option.some.inj hfollow
        exact .nil s
    | cons d w ih =>
        rw [follow_cons, Option.bind_eq_some_iff] at hfollow
        obtain ⟨r, hr, hrest⟩ := hfollow
        exact .cons (mem_transitions_gotoAutomaton.2 ⟨_, hedges.2 hr, rfl⟩) rfl (ih hrest)

theorem initial_gotoAutomaton (h : 0 < c.itemSets.length) : c.gotoAutomaton.initial = some 0 := by
  show (List.range c.itemSets.length).head? = some 0
  rw [List.head?_range, if_neg h.ne']

theorem Graphed.mem_finals (h : Graphed a c) :
    s ∈ c.gotoAutomaton.finals ↔ ∃ i, a.Holds s i ∧ a.isComplete i = true := by
  have hfinal : c.isFinal s = true ↔ ∃ i, a.Holds s i ∧ a.isComplete i = true := by
    rw [isFinal, Option.any_eq_true, h.itemSets_eq, h.augmented_eq]
    simp only [AugmentedGrammar.hasComplete, List.any_eq_true]
    constructor
    · rintro ⟨items, hitems, i, hi, hcomplete⟩
      exact ⟨i, ⟨items, hitems, hi⟩, hcomplete⟩
    · rintro ⟨i, ⟨items, hitems, hi⟩, hcomplete⟩
      exact ⟨items, hitems, i, hi, hcomplete⟩
  have hmem : s ∈ c.gotoAutomaton.finals ↔ s ∈ (List.range c.itemSets.length).filter c.isFinal :=
    Ascending.mem_ofList
  rw [hmem, List.mem_filter, List.mem_range, hfinal]
  refine and_iff_right_of_imp ?_
  rintro ⟨i, ⟨items, hitems, _⟩, _⟩
  rw [h.itemSets_eq]
  exact (List.getElem?_eq_some_iff.1 hitems).1

theorem Graphed.length_pos (h : Graphed a c) : 0 < c.itemSets.length := by
  rw [h.itemSets_eq]
  exact (List.getElem?_eq_some_iff.1 a.itemSets_zero).1

theorem Graphed.wellFormed_gotoAutomaton (h : Graphed a c) : c.gotoAutomaton.WellFormed := by
  have hlength : ((List.range c.itemSets.length).map fun n => some ("I" ++ toString n)).length =
      a.itemSets.length := by
    rw [List.length_map, List.length_range, h.itemSets_eq]
  apply Automaton.wellFormed_ofLabels
  · intro s hs
    obtain rfl := Option.some.inj ((initial_gotoAutomaton h.length_pos).symm.trans hs)
    rw [hlength, ← h.itemSets_eq]
    exact h.length_pos
  · intro s hs
    obtain ⟨_, ⟨_, hitems, _⟩, _⟩ := h.mem_finals.1 hs
    rw [hlength]
    exact (List.getElem?_eq_some_iff.1 hitems).1
  · intro t ht
    obtain ⟨e, he, rfl⟩ := mem_transitions_gotoAutomaton.1 ht
    rw [h.edges_eq] at he
    obtain ⟨_, hsource, _, htarget⟩ := AugmentedGrammar.mem_gotoEdges.1 he
    rw [hlength]
    exact ⟨(List.getElem?_eq_some_iff.1 hsource).1, (List.getElem?_eq_some_iff.1 htarget).1⟩
  · rw [h.edges_eq]
    refine List.Pairwise.map _ (fun e f hef heq => ?_) (a.pairwise_gotoEdges _)
    obtain ⟨hsource, _, hsymbol⟩ : e.source = f.source ∧ e.target = f.target ∧ e.symbol = f.symbol := by
      simpa using heq
    rcases hef with hlt | ⟨_, hlt⟩
    · exact hlt.ne hsource
    · exact Char.lt_irrefl _ (hsymbol ▸ hlt)
  · intro t ht
    obtain ⟨e, _, rfl⟩ := mem_transitions_gotoAutomaton.1 ht
    rfl

theorem Graphed.language_gotoAutomaton (h : Graphed a c) (ha : a.Augments g) :
    c.gotoAutomaton.language = a.itemAutomaton.accepts := by
  ext w
  rw [Automaton.mem_language (initial_gotoAutomaton h.length_pos), Automaton.mem_languageFrom]
  have hcomplete : ∀ s, c.follow 0 w = some s →
      (s ∈ c.gotoAutomaton.finals ↔ w ∈ a.itemAutomaton.accepts) := by
    intro s hs
    rw [h.mem_finals]
    simp only [h.holds_iff hs]
    constructor
    · rintro ⟨i, hi, hcomplete⟩
      exact ⟨i, (AugmentedGrammar.isComplete_iff_mem_accept
        (AugmentedGrammar.mem_allItems_of_mem_eval ha hi)).1 hcomplete, hi⟩
    · rintro ⟨i, haccept, hi⟩
      exact ⟨i, hi, (AugmentedGrammar.isComplete_iff_mem_accept
        (AugmentedGrammar.mem_allItems_of_mem_eval ha hi)).2 haccept⟩
  constructor
  · rintro ⟨s, hfinal, hpath⟩
    exact (hcomplete s (h.path_iff.1 hpath)).1 hfinal
  · intro hw
    obtain ⟨i, _, hi⟩ := id hw
    obtain ⟨s, hs⟩ := (h.exists_follow_iff ha).2 ⟨i, hi⟩
    exact ⟨s, (hcomplete s hs).2 hw, h.path_iff.2 hs⟩

/-- The graph of item sets is the automaton of items of the augmented grammar made deterministic. Along its
edges a string leads to the set of the items that it leads to, and nowhere if there are none; each item set is
there once, and some string leads to it; and as an automaton the graph accepts the strings that lead to a
completed item. -/
theorem graph_determinizes_items (h : TableConstruction.of g = .ok f) (hn : 3 ≤ n) :
    let c := TableConstruction.advance^[n] f
    let items := c.augmented.itemAutomaton
    c.augmented.Augments g ∧
    (∀ w, (∃ s, c.follow 0 w = some s) ↔ (items.eval w).Nonempty) ∧
    (∀ w s, c.follow 0 w = some s → ∃ set, c.itemSets[s]? = some set ∧ {i | i ∈ set} = items.eval w) ∧
    c.itemSets.Nodup ∧ (∀ s < c.itemSets.length, ∃ w, c.follow 0 w = some s) ∧
    c.gotoAutomaton.WellFormed ∧ c.gotoAutomaton.language = items.accepts := by
  obtain ⟨hgraphed, haugments⟩ := graphed_iterate h hn
  intro c items
  have haugmented : c.augmented = f.augmented := hgraphed.augmented_eq
  have hitems : items = f.augmented.itemAutomaton := congrArg AugmentedGrammar.itemAutomaton haugmented
  have hsets : c.itemSets = f.augmented.itemSets := hgraphed.itemSets_eq
  rw [hitems, haugmented]
  refine ⟨haugments, fun w => hgraphed.exists_follow_iff haugments,
    fun w s hs => hgraphed.setOf_mem_eq_eval haugments hs, hsets ▸ f.augmented.nodup_itemSets, fun s hs => ?_,
    hgraphed.wellFormed_gotoAutomaton, hgraphed.language_gotoAutomaton haugments⟩
  rw [hsets] at hs
  exact hgraphed.exists_word haugments (List.getElem?_eq_getElem hs)

/-- Left recursion, and a production that writes nothing. -/
def repeating : Grammar where
  start := 'S'
  productions := [⟨'S', ['S', 'A'], Eq.refl true, Eq.refl true⟩, ⟨'S', [], Eq.refl true, Eq.refl true⟩,
    ⟨'A', ['a'], Eq.refl true, Eq.refl true⟩]
  start_isVariable := Eq.refl true
  nodup := by decide

theorem graph_determinizes_items_repeating :
    let augmented : AugmentedGrammar := ⟨repeating, 'B', ⟨'B', ['S'], rfl, rfl⟩ :: repeating.productions⟩
    let f : TableConstruction := ⟨.augmentGrammar, augmented, [], [], none⟩
    let c := TableConstruction.advance^[4] f
    let items := c.augmented.itemAutomaton
    TableConstruction.of repeating = .ok f ∧ 3 ≤ 4 ∧ c.follow 0 ['S', 'a'] = some 3 ∧
    (items.eval ['S', 'a']).Nonempty ∧ c.gotoAutomaton.language = items.accepts := by
  intro augmented f c items
  have hfollow : c.follow 0 ['S', 'a'] = some 3 := by decide +kernel
  obtain ⟨_, hexists, _, _, _, _, hlanguage⟩ :=
    graph_determinizes_items (g := repeating) (f := f) (n := 4) rfl (by decide)
  exact ⟨rfl, by decide, hfollow, (hexists _).1 ⟨3, hfollow⟩, hlanguage⟩

end TableConstruction

end LanguageTheory
