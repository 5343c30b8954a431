import LanguageTheory.Proofs.Grammar.ItemAutomaton
import LanguageTheory.Proofs.Grammar.ShiftReduce

/-! A shift-reduce parse never finds its table at odds with its stack, be there conflicts or not. Whichever way
the stack was built, it is a path of the graph of item sets. A viable item has been predicted where its production
begins on that path, by an item that waits for its variable; so once the production is completed, the state below
it holds this item, and an edge for the variable leaves it. -/

namespace LanguageTheory

namespace AugmentedGrammar

variable {a : AugmentedGrammar} {g : Grammar} {i : Item} {c : Char} {s index : Nat} {p : Production}
  {states : List Nat} {γ δ ρ : Word}

/-! ### Items along a path -/

/-- The last state of a path holds every item that is viable for what the path spells. -/
theorem Spelled.holds (h : a.Augments g) (hv : Viable a γ i ρ) (hs : Spelled a (s :: states) γ) : a.Holds s i := by
  induction hv generalizing s states with
  | start =>
      generalize hγ : ([] : Word) = γ at hs
      cases hs with
      | nil => exact holds_zero.2 .refl
      | push => exact (List.append_ne_nil_of_right_ne_nil _ (List.cons_ne_nil _ _) hγ.symm).elim
  | advance _ hdot ih =>
      obtain ⟨r, t, below, hstates, hbelow, hedge⟩ := hs.exists_of_snoc
      obtain ⟨rfl, rfl⟩ := List.cons.inj hstates
      exact hedge.holds_iff.2 ⟨_, ih hbelow, hdot, .refl⟩
  | predict _ _ hj ih => exact (ih hs).predicted h hj

/-- Where the production of a viable item begins, the item with the dot in front is viable. -/
theorem Viable.rewind (hv : Viable a γ i ρ) (hp : a.productions[i.production]? = some p) :
    ∃ δ, γ = δ ++ p.right.take i.dot ∧ Viable a δ ⟨i.production, 0⟩ ρ := by
  induction hv with
  | start => exact ⟨[], rfl, .start⟩
  | advance _ hdot ih =>
      obtain ⟨δ, rfl, hδ⟩ := ih hp
      obtain ⟨_, hp', hget⟩ := afterDot?_eq_some.1 hdot
      obtain rfl := Option.some.inj (hp.symm.trans hp')
      refine ⟨δ, ?_, hδ⟩
      rw [Item.advance, List.take_add_one, hget, List.append_assoc]
      rfl
  | @predict γ _ _ _ _ hk hq hj =>
      obtain ⟨_, index, _, _, rfl⟩ := mem_predicted.1 hj
      exact ⟨γ, (List.append_nil γ).symm, hk.predict hq hj⟩

/-- A viable item with the dot in front has been predicted, unless its production is the added one. -/
theorem Viable.exists_predicted (hv : Viable a γ ⟨index + 1, 0⟩ ρ) :
    ∃ k ρ', Viable a γ k ρ' ∧ ⟨index + 1, 0⟩ ∈ a.predicted k := by
  generalize hi : Item.mk (index + 1) 0 = i at hv
  cases hv with
  | start => cases hi
  | advance => exact (Nat.succ_ne_zero _ (congrArg Item.dot hi).symm).elim
  | predict hk _ hj => exact ⟨_, _, hk, hj⟩

/-- Below a completed production there is a state with an edge for its variable. -/
theorem Spelled.exists_edge (h : a.Augments g) (hs : Spelled a (s :: states) γ) {dot : Nat}
    (hi : a.Holds s ⟨index + 1, dot⟩) (hp : g.productions[index]? = some p) (hdot : p.right.length ≤ dot) :
    ∃ u t below, (s :: states).drop p.right.length = u :: below ∧ a.Edge u p.left t := by
  have hget : a.productions[index + 1]? = some p := (h.getElem?_succ index).trans hp
  obtain ⟨ρ, hviable⟩ := hs.viable hi
  obtain ⟨δ, hγ, hfront⟩ := hviable.rewind hget
  rw [List.take_of_length_le hdot] at hγ
  have hdrop : Spelled a ((s :: states).drop p.right.length) δ := (hγ ▸ hs).drop
  obtain ⟨k, ρ', hk, hpredicted⟩ := hfront.exists_predicted
  obtain ⟨q, _, hq, hwaits, heq⟩ := mem_predicted.1 hpredicted
  cases heq
  obtain rfl := Option.some.inj (hget.symm.trans hq)
  obtain ⟨u, below, hbelow⟩ := hdrop.exists_cons
  rw [hbelow] at hdrop
  obtain ⟨t, hedge⟩ := (hdrop.holds h hk).exists_edge h hwaits
  exact ⟨u, t, below, hbelow, hedge⟩

end AugmentedGrammar

namespace TableConstruction

variable {a : AugmentedGrammar} {c : TableConstruction} {table : ShiftReduceTable} {states : List Nat} {γ : Word}

/-! ### The tables that are handed out -/

/-- What a construction holds, stage by stage. -/
inductive Built (a : AugmentedGrammar) : TableConstruction → Prop
  | started : Built a ⟨.augmentGrammar, a, [], [], none⟩
  | augmented : Built a ⟨.buildItemSets, a, [], [], none⟩
  | itemSets : Built a ⟨.buildGotoGraph, a, a.itemSets, [], none⟩
  | graph : Built a ⟨.fillTable, a, a.itemSets, a.gotoEdges a.itemSets, none⟩
  | table : Built a ⟨.done, a, a.itemSets, a.gotoEdges a.itemSets, some a.table⟩

theorem Built.advance (h : Built a c) : Built a c.advance := by
  cases h with
  | started => exact .augmented
  | augmented => exact .itemSets
  | itemSets => exact .graph
  | graph => exact .table
  | table => exact .table

theorem Built.iterate (h : Built a c) (n : Nat) : Built a (TableConstruction.advance^[n] c) := by
  induction n with
  | zero => exact h
  | succ n ih =>
      rw [Function.iterate_succ_apply']
      exact ih.advance

/-- A construction hands out the table over all item sets, at whatever stage it is asked. -/
theorem Built.eq_table (h : Built a c) (htable : c.run = table ∨ c.table = some table) : table = a.table := by
  cases h with
  | table => exact htable.elim Eq.symm fun ht => (Option.some.inj ht).symm
  | _ => exact htable.elim Eq.symm fun ht => nomatch ht

/-! ### Paths of the graph -/

/-- The states of a stack, the last one first, lie on a path of the graph from the first state, and the symbols
on its edges are those of the string. -/
inductive StackPath (c : TableConstruction) : List Nat → Word → Prop
  | nil : StackPath c [0] []
  | push {s t : Nat} {states : List Nat} {d : Char} {γ : Word} : StackPath c (s :: states) γ → ⟨s, d, t⟩ ∈ c.edges →
      StackPath c (t :: s :: states) (γ ++ [d])

theorem Graphed.stackPath_iff (h : Graphed a c) : c.StackPath states γ ↔ a.Spelled states γ := by
  have hedges : ∀ s d t, ⟨s, d, t⟩ ∈ c.edges ↔ a.Edge s d t := fun s d t => by
    rw [h.edges_eq, AugmentedGrammar.mem_gotoEdges]
  constructor
  · intro hpath
    induction hpath with
    | nil => exact .nil
    | push _ hedge ih => exact ih.push ((hedges _ _ _).1 hedge)
  · intro hspelled
    induction hspelled with
    | nil => exact .nil
    | push _ hedge ih => exact ih.push ((hedges _ _ _).2 hedge)

end TableConstruction

namespace ShiftReduceTable

variable {a : AugmentedGrammar} {g : Grammar} {c : TableConstruction} {f : TableConstruction} {d : Char}
  {index n s : Nat} {p : Production} {table : ShiftReduceTable} {states : List Nat} {rest w γ : Word} {y : Parse}

/-! ### What a parse finds -/

/-- The production can be reduced: it lies on top of the stack, and the state below it leads on with its
variable. -/
structure Reduction (c : TableConstruction) (table : ShiftReduceTable) (y : Parse) (p : Production) : Prop where
  length_lt : p.length < y.states.length
  spells : ∀ γ, c.StackPath y.states γ → ∃ δ, γ = δ ++ p.right ∧ c.StackPath (y.states.drop p.length) δ
  goes : ∃ u t, (y.states.drop p.length).head? = some u ∧ table.goto? u p.left = some t ∧
    table.step y = .next ⟨t :: y.states.drop p.length, y.rest⟩

/-- The stack is a path of the graph, and a reduction that the table calls for is one of a production that can be
reduced. -/
structure Consistent (c : TableConstruction) (table : ShiftReduceTable) (y : Parse) : Prop where
  exists_path : ∃ γ, c.StackPath y.states γ
  reduction : ∀ s below d rest index, y = ⟨s :: below, d :: rest⟩ → table.action? s d = some (.reduce index) →
    ∃ p, table.augmented.grammar.productions[index]? = some p ∧ Reduction c table y p

theorem reduction_of_action? (h : a.Augments g) (hc : c.Graphed a) (hs : AugmentedGrammar.Spelled a (s :: states) γ)
    (haction : a.table.action? s d = some (.reduce index)) :
    ∃ p, a.table.augmented.grammar.productions[index]? = some p ∧
      Reduction c a.table ⟨s :: states, d :: rest⟩ p := by
  cases claims_of_action? h haction with
  | @reduce _ dot p hi hp hdot _ =>
      have hgrammar : a.table.augmented.grammar.productions[index]? = some p := by
        rw [← hp, ← h.grammar_eq]
        rfl
      obtain ⟨u, t, below, hdrop, hedge⟩ := hs.exists_edge h hi hp hdot
      have hhead : ((s :: states).drop p.length).head? = some u := congrArg List.head? hdrop
      have hgoto : a.table.goto? u p.left = some t := goto?_eq_some.2 ⟨p.left_isVariable, hedge⟩
      refine ⟨p, hgrammar, ?_, ?_, u, t, hhead, hgoto, ?_⟩
      · apply Nat.lt_of_not_le
        intro hle
        rw [List.drop_eq_nil_of_le hle] at hhead
        cases hhead
      · intro γ' hpath
        have hreduces : Reduces a g p (s :: states) (t :: u :: below) := .intro hi hp hdot hdrop hedge
        obtain ⟨δ, rfl, _⟩ := hreduces.spelled h (hc.stackPath_iff.1 hpath)
        exact ⟨δ, rfl, hc.stackPath_iff.2 (hc.stackPath_iff.1 hpath).drop⟩
      · simp only [step, haction, hgrammar, hhead, Option.bind_some, hgoto]

theorem Parsed.consistent (h : a.Augments g) (hc : c.Graphed a) (hy : Parsed a g w y) : Consistent c a.table y := by
  obtain ⟨γ, _, hspelled, _⟩ := hy
  refine ⟨⟨γ, hc.stackPath_iff.2 hspelled⟩, ?_⟩
  intro s below d rest index hy haction
  subst hy
  exact reduction_of_action? h hc hspelled haction

theorem parsed_of_reaches (h : a.Augments g)
    (hy : Relation.ReflTransGen (fun y y' => a.table.step y = .next y') (start w) y) : Parsed a g w y := by
  induction hy with
  | refl => exact parsed_start a g w
  | tail _ hstep ih => exact ih.next h hstep

/-- Whatever table a construction hands out and whatever the input is, at every point of a parse the stack is a
path of the graph, and if the table calls for a reduction then its production exists and can be reduced. -/
theorem parse_consistent (hf : TableConstruction.of g = .ok f)
    (htable : (TableConstruction.advance^[n] f).run = table ∨ (TableConstruction.advance^[n] f).table = some table)
    (hy : Relation.ReflTransGen (fun y y' => table.step y = .next y') (start w) y) :
    Consistent (TableConstruction.advance^[3] f) table y := by
  obtain ⟨hgraphed, haugments⟩ := TableConstruction.graphed_iterate hf (Nat.le_refl 3)
  obtain ⟨a, _, rfl⟩ := TableConstruction.exists_started hf
  obtain rfl := (TableConstruction.Built.started.iterate n).eq_table htable
  exact (parsed_of_reaches haugments hy).consistent haugments hgraphed

theorem parse_consistent_nested :
    let a : AugmentedGrammar := ⟨nested, 'A', ⟨'A', ['S'], rfl, rfl⟩ :: nested.productions⟩
    let f : TableConstruction := ⟨.augmentGrammar, a, [], [], none⟩
    let y : Parse := ⟨[4, 3, 2, 0], ['$']⟩
    TableConstruction.of nested = .ok f ∧
    Relation.ReflTransGen (fun y y' => f.run.step y = .next y') (start ['a', 'b']) y ∧
    f.run.action? 4 '$' = some (.reduce 0) ∧
    ∃ p, nested.productions[0]? = some p ∧ Reduction (TableConstruction.advance^[3] f) f.run y p := by
  intro a f y
  have hshift : f.run.step (start ['a', 'b']) = .next ⟨[2, 0], ['b', '$']⟩ := by decide +kernel
  have hempty : f.run.step ⟨[2, 0], ['b', '$']⟩ = .next ⟨[3, 2, 0], ['b', '$']⟩ := by decide +kernel
  have hshift' : f.run.step ⟨[3, 2, 0], ['b', '$']⟩ = .next y := by decide +kernel
  have hreaches : Relation.ReflTransGen (fun y y' => f.run.step y = .next y') (start ['a', 'b']) y :=
    .tail (.tail (.single hshift) hempty) hshift'
  have haction : f.run.action? 4 '$' = some (.reduce 0) := by decide +kernel
  have hf : TableConstruction.of nested = .ok f := rfl
  have hconsistent := parse_consistent (n := 0) hf (Or.inl (Eq.refl f.run)) hreaches
  exact ⟨hf, hreaches, haction, hconsistent.reduction 4 [3, 2, 0] '$' [] 0 rfl haction⟩

end ShiftReduceTable

end LanguageTheory
