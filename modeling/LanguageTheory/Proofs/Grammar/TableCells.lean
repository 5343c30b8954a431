import LanguageTheory.Proofs.Grammar.FirstFollow
import LanguageTheory.Proofs.Grammar.ItemSets

/-! The cells of a shift-reduce table. An action claims a cell for an edge or for a completed item, and a
table without conflicts has for each claim the cell that holds just this action. -/

namespace LanguageTheory

/-- The table over all item sets of the grammar. -/
def AugmentedGrammar.table (a : AugmentedGrammar) : ShiftReduceTable :=
  .fill a a.itemSets (a.gotoEdges a.itemSets)

namespace ShiftReduceTable

variable {a : AugmentedGrammar} {g : Grammar} {sets : FirstFollow} {items : ItemSet} {edges : List GotoEdge}
  {c v : Char} {s t index : Nat} {x : Action} {table : ShiftReduceTable}

/-- The conditions on which an action claims the cell of a state and a symbol. -/
inductive Claims (a : AugmentedGrammar) (g : Grammar) (s : Nat) (c : Char) : Action → Prop
  | shift {t : Nat} : isTerminal c = true → a.Edge s c t → Claims a g s c (.shift t)
  | reduce {index dot : Nat} {p : Production} : a.Holds s ⟨index + 1, dot⟩ → g.productions[index]? = some p →
      p.right.length ≤ dot → c ∈ g.followOf g.nullable p.left → Claims a g s c (.reduce index)
  | accept {dot : Nat} : a.Holds s ⟨0, dot⟩ → 1 ≤ dot → c = endMarker → Claims a g s c .accept

/-! ### Rows -/

/-- The claims to the cells of one row, with their symbols. -/
def rowClaims (a : AugmentedGrammar) (sets : FirstFollow) (items : ItemSet) (edges : List GotoEdge) :
    List (Char × Action) :=
  ((edges.filter fun e => isTerminal e.symbol).map fun e => (e.symbol, Action.shift e.target)) ++
    (items.toList.filter a.isComplete).flatMap (completions a sets)

theorem lookup_actions_row (a : AugmentedGrammar) (sets : FirstFollow) (items : ItemSet) (edges : List GotoEdge)
    (c : Char) : ((row a sets items edges).actions.lookup c).getD [] =
      fresh [] (((rowClaims a sets items edges).filter fun x => x.1 = c).map (·.2)) := by
  show ((((Ascending.ofList ((rowClaims a sets items edges).map (·.1))).toList.map fun symbol =>
    (symbol, fresh [] (((rowClaims a sets items edges).filter fun x => x.1 = symbol).map (·.2)))).lookup c).getD []) = _
  by_cases hc : c ∈ Ascending.ofList ((rowClaims a sets items edges).map (·.1))
  · rw [Grammar.lookup_map_pair _ hc, Option.getD_some]
  · have hnone : (rowClaims a sets items edges).filter (fun x => decide (x.1 = c)) = [] := by
      apply List.filter_eq_nil_iff.2
      intro x hx heq
      rw [Ascending.mem_ofList] at hc
      exact hc (of_decide_eq_true heq ▸ List.mem_map_of_mem hx)
    rw [hnone, List.lookup_eq_none_iff.2]
    · rfl
    · intro x hx
      obtain ⟨d, hd, rfl⟩ := List.mem_map.1 hx
      exact bne_iff_ne.2 fun heq => hc (heq ▸ hd)

theorem getElem?_rows (a : AugmentedGrammar) (s : Nat) : a.table.rows[s]? = a.itemSets[s]?.map fun items =>
    row a (.of a.grammar) items ((a.gotoEdges a.itemSets).filter fun e => e.source = s) := by
  show ((a.itemSets.zipIdx.map _)[s]?) = _
  rw [List.getElem?_map, List.getElem?_zipIdx, Option.map_map, Nat.zero_add]
  rfl

/-! ### Actions -/

theorem mem_actions_iff_rowClaims : x ∈ a.table.actions s c ↔ ∃ items, a.itemSets[s]? = some items ∧
    (c, x) ∈ rowClaims a (.of a.grammar) items ((a.gotoEdges a.itemSets).filter fun e => e.source = s) := by
  rw [actions, getElem?_rows]
  cases a.itemSets[s]? with
  | none => simp
  | some items =>
      rw [Option.map_some, Option.bind_some, lookup_actions_row, mem_fresh]
      simp only [List.mem_map, List.mem_filter, decide_eq_true_eq, Prod.exists, exists_eq_right,
        List.not_mem_nil, not_false_eq_true, and_true, Option.some.injEq, exists_eq_left']

theorem mem_completions_zero {dot : Nat} : (c, x) ∈ completions a sets ⟨0, dot⟩ ↔ c = endMarker ∧ x = .accept := by
  show (c, x) ∈ [(endMarker, Action.accept)] ↔ _
  rw [List.mem_singleton, Prod.mk.injEq]

theorem mem_completions_succ (h : a.Augments g) {dot : Nat} : (c, x) ∈ completions a (.of g) ⟨index + 1, dot⟩ ↔
    ∃ p, g.productions[index]? = some p ∧ c ∈ g.followOf g.nullable p.left ∧ x = .reduce index := by
  have horiginal : AugmentedGrammar.originalIndex (index + 1) = some index := by
    rw [AugmentedGrammar.originalIndex, if_neg (Nat.succ_ne_zero index), Nat.add_sub_cancel]
  rw [completions, horiginal, h.getElem?_succ]
  cases hp : g.productions[index]? with
  | none =>
      refine iff_of_false List.not_mem_nil ?_
      rintro ⟨p, hp', _⟩
      cases hp'
  | some p =>
      have hleft : p.left ∈ g.variableSymbols :=
        Grammar.mem_variableSymbols.2 (Or.inr ⟨p, List.mem_of_getElem? hp, Or.inl rfl⟩)
      simp only [Grammar.follow_of hleft, List.mem_map, Prod.mk.injEq, Option.some.injEq, exists_eq_left']
      constructor
      · rintro ⟨_, hc, rfl, rfl⟩
        exact ⟨hc, rfl⟩
      · rintro ⟨hc, rfl⟩
        exact ⟨c, hc, rfl, rfl⟩

theorem isComplete_zero (h : a.Augments g) {dot : Nat} : a.isComplete ⟨0, dot⟩ = true ↔ 1 ≤ dot := by
  obtain ⟨first, hfirst, _, hright⟩ := h.exists_first
  rw [AugmentedGrammar.isComplete_iff hfirst, hright]
  rfl

/-- The actions in a cell are those that claim it. -/
theorem mem_actions (h : a.Augments g) : x ∈ a.table.actions s c ↔ Claims a g s c x := by
  rw [mem_actions_iff_rowClaims, h.grammar_eq]
  simp only [rowClaims, List.mem_append, List.mem_map, List.mem_filter, List.mem_flatMap, decide_eq_true_eq]
  constructor
  · rintro ⟨items, hitems, ⟨⟨source, symbol, target⟩, ⟨⟨he, rfl⟩, hterminal⟩, heq⟩ |
      ⟨⟨production, dot⟩, ⟨hi, hcomplete⟩, hx⟩⟩
    · cases heq
      exact .shift hterminal (AugmentedGrammar.mem_gotoEdges.1 he)
    · cases production with
      | zero =>
          obtain ⟨rfl, rfl⟩ := mem_completions_zero.1 hx
          exact .accept ⟨items, hitems, hi⟩ ((isComplete_zero h).1 hcomplete) rfl
      | succ index =>
          obtain ⟨p, hp, hc, rfl⟩ := (mem_completions_succ h).1 hx
          have hget : a.productions[index + 1]? = some p := (h.getElem?_succ index).trans hp
          exact .reduce ⟨items, hitems, hi⟩ hp ((AugmentedGrammar.isComplete_iff hget).1 hcomplete) hc
  · intro hx
    cases hx with
    | shift hterminal hedge =>
        obtain ⟨items, hitems, _⟩ := id hedge
        exact ⟨items, hitems, Or.inl ⟨_, ⟨⟨AugmentedGrammar.mem_gotoEdges.2 hedge, rfl⟩, hterminal⟩, rfl⟩⟩
    | @reduce index dot p hi hp hdot hc =>
        obtain ⟨items, hitems, hi⟩ := hi
        have hget : a.productions[index + 1]? = some p := (h.getElem?_succ index).trans hp
        exact ⟨items, hitems, Or.inr ⟨_, ⟨hi, (AugmentedGrammar.isComplete_iff hget).2 hdot⟩,
          (mem_completions_succ h).2 ⟨p, hp, hc, rfl⟩⟩⟩
    | @accept dot hi hdot hc =>
        obtain ⟨items, hitems, hi⟩ := hi
        exact ⟨items, hitems, Or.inr ⟨_, ⟨hi, (isComplete_zero h).2 hdot⟩, mem_completions_zero.2 ⟨hc, rfl⟩⟩⟩

theorem mem_actions_of_action? (h : table.action? s c = some x) : x ∈ table.actions s c := by
  unfold action? at h
  split at h
  next heq =>
    cases h
    rw [heq]
    exact List.mem_singleton_self _
  next => cases h

/-! ### Tables without conflicts -/

theorem conflicts_eq_nil (h : table.firstConflict? = none) : table.conflicts = [] := by
  cases hconflicts : table.conflicts with
  | nil => rfl
  | cons cell cells =>
      obtain ⟨state, symbol, actions⟩ := cell
      have hmem : (state, symbol, actions) ∈ table.conflicts := hconflicts ▸ List.mem_cons_self
      have hlength := of_decide_eq_true (List.mem_filter.1 hmem).2
      match actions, hlength with
      | existing :: incoming :: rest, _ =>
          rw [firstConflict?, hconflicts] at h
          cases h

theorem length_actions_le (h : table.firstConflict? = none) (s : Nat) (c : Char) :
    (table.actions s c).length ≤ 1 := by
  rw [actions]
  cases hcell : (table.rows[s]?).bind fun r => r.actions.lookup c with
  | none => exact Nat.zero_le _
  | some actions =>
      obtain ⟨r, hr, hlookup⟩ := Option.bind_eq_some_iff.1 hcell
      obtain ⟨before, after, heq, _⟩ := List.lookup_eq_some_iff.1 hlookup
      by_contra hlength
      have hmem : (s, c, actions) ∈ table.conflicts := by
        refine List.mem_filter.2 ⟨List.mem_flatMap.2 ⟨(r, s), List.mk_mem_zipIdx_iff_getElem?.2 hr, ?_⟩,
          decide_eq_true (Nat.lt_of_not_le hlength)⟩
        refine List.mem_map.2 ⟨(c, actions), ?_, rfl⟩
        rw [heq]
        exact List.mem_append_right _ List.mem_cons_self
      rw [conflicts_eq_nil h] at hmem
      cases hmem

/-- Without conflicts, an action that claims a cell is found there. -/
theorem action?_of_claims (h : a.Augments g) (hconflict : a.table.firstConflict? = none)
    (hx : Claims a g s c x) : a.table.action? s c = some x := by
  have hmem := (mem_actions h).2 hx
  have hlength := length_actions_le hconflict s c
  rw [action?]
  match hactions : a.table.actions s c, hlength with
  | [], _ =>
      rw [hactions] at hmem
      cases hmem
  | [y], _ =>
      rw [hactions, List.mem_singleton] at hmem
      rw [hmem]

/-! ### Where to go after a reduction -/

/-- The variables with an edge from a state, and where it leads. -/
def gotoPairs (a : AugmentedGrammar) (s : Nat) : List (Char × Nat) :=
  (((a.gotoEdges a.itemSets).filter fun e => e.source = s).filter fun e => isVariable e.symbol).map
    fun e => (e.symbol, e.target)

theorem mem_gotoPairs : (v, t) ∈ gotoPairs a s ↔ isVariable v = true ∧ a.Edge s v t := by
  rw [← AugmentedGrammar.mem_gotoEdges]
  simp only [gotoPairs, List.mem_map, List.mem_filter, decide_eq_true_eq, Prod.mk.injEq]
  constructor
  · rintro ⟨⟨source, symbol, target⟩, ⟨⟨he, rfl⟩, hv⟩, rfl, rfl⟩
    exact ⟨hv, he⟩
  · rintro ⟨hv, he⟩
    exact ⟨_, ⟨⟨he, rfl⟩, hv⟩, rfl, rfl⟩

theorem goto?_eq_some : a.table.goto? s v = some t ↔ isVariable v = true ∧ a.Edge s v t := by
  have hgoto : a.table.goto? s v = a.itemSets[s]?.bind fun _ => (gotoPairs a s).lookup v := by
    rw [goto?, getElem?_rows, Option.bind_map]
    rfl
  have hmem : ∀ u, (gotoPairs a s).lookup v = some u → isVariable v = true ∧ a.Edge s v u := by
    intro u hu
    obtain ⟨before, after, heq, _⟩ := List.lookup_eq_some_iff.1 hu
    rw [← mem_gotoPairs, heq]
    exact List.mem_append_right _ List.mem_cons_self
  rw [hgoto, Option.bind_eq_some_iff]
  constructor
  · rintro ⟨_, _, hlookup⟩
    exact hmem t hlookup
  · rintro ⟨hv, hedge⟩
    obtain ⟨items, hitems, _⟩ := id hedge
    refine ⟨items, hitems, ?_⟩
    cases hlookup : (gotoPairs a s).lookup v with
    | none =>
        have hne := List.lookup_eq_none_iff.1 hlookup _ (mem_gotoPairs.2 ⟨hv, hedge⟩)
        exact (bne_iff_ne.1 hne rfl).elim
    | some u => rw [(hmem u hlookup).2.unique hedge]

end ShiftReduceTable

end LanguageTheory
