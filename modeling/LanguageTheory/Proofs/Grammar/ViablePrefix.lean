import LanguageTheory.Proofs.Grammar.ItemSets

/-! The strings that the paths from the first state spell are the viable prefixes: an item of the last
state tells how to go on, with the rest of its right-hand side and then with what stands after the
variables that led to it. Something derived from the start variable begins so. -/

namespace LanguageTheory.AugmentedGrammar

variable {a : AugmentedGrammar} {g : Grammar} {i j : Item} {c : Char} {s t index : Nat} {p q : Production}
  {states : List Nat} {γ α ρ : Word}

/-! ### Paths -/

/-- The states of a stack, the last one first, lie on a path that spells the string. -/
inductive Spelled (a : AugmentedGrammar) : List Nat → Word → Prop
  | nil : Spelled a [0] []
  | push {s t : Nat} {states : List Nat} {c : Char} {γ : Word} : Spelled a (s :: states) γ → a.Edge s c t →
      Spelled a (t :: s :: states) (γ ++ [c])

theorem Spelled.exists_cons (h : Spelled a states γ) : ∃ s below, states = s :: below := by
  cases h with
  | nil => exact ⟨_, _, rfl⟩
  | push => exact ⟨_, _, rfl⟩

theorem Spelled.exists_of_snoc (h : Spelled a states (γ ++ [c])) :
    ∃ s t below, states = t :: s :: below ∧ Spelled a (s :: below) γ ∧ a.Edge s c t := by
  generalize hδ : γ ++ [c] = δ at h
  cases h with
  | nil => exact (List.append_ne_nil_of_right_ne_nil _ (List.cons_ne_nil c []) hδ).elim
  | @push s t below _ _ hs hedge =>
      obtain ⟨rfl, hc⟩ := List.append_inj' hδ rfl
      obtain rfl := List.head_eq_of_cons_eq hc
      exact ⟨s, t, below, rfl, hs, hedge⟩

theorem Spelled.drop (h : Spelled a states (γ ++ α)) : Spelled a (states.drop α.length) γ := by
  induction α using List.reverseRecOn generalizing states with
  | nil => rwa [List.append_nil] at h
  | append_singleton α c ih =>
      rw [← List.append_assoc] at h
      obtain ⟨s, t, below, rfl, hs, _⟩ := h.exists_of_snoc
      rw [List.length_append, List.length_singleton, List.drop_succ_cons]
      exact ih hs

theorem Spelled.exists_holds (h : Spelled a (s :: states) γ) : ∃ i, a.Holds s i := by
  cases h with
  | nil => exact ⟨⟨0, 0⟩, holds_zero.2 .refl⟩
  | push _ hedge => exact hedge.exists_holds

/-! ### Viable prefixes -/

/-- `Viable a γ i ρ`: after `γ` may come what follows the dot of `i`, and then `ρ`. -/
inductive Viable (a : AugmentedGrammar) : Word → Item → Word → Prop
  | start : Viable a [] ⟨0, 0⟩ []
  | advance {γ ρ : Word} {i : Item} {c : Char} : Viable a γ i ρ → a.afterDot? i = some c →
      Viable a (γ ++ [c]) i.advance ρ
  | predict {γ ρ : Word} {i j : Item} {p : Production} : Viable a γ i ρ →
      a.productions[i.production]? = some p → j ∈ a.predicted i → Viable a γ j (p.right.drop (i.dot + 1) ++ ρ)

theorem Viable.reaches (h : Viable a γ i ρ) (hreaches : Reaches a.predicted i j) : ∃ ρ', Viable a γ j ρ' := by
  induction hreaches with
  | refl => exact ⟨ρ, h⟩
  | step _ hj ih =>
      obtain ⟨ρ', hρ'⟩ := ih
      obtain ⟨_, _, _, hdot, _⟩ := mem_predicted.1 hj
      obtain ⟨p, hp, _⟩ := afterDot?_eq_some.1 hdot
      exact ⟨_, hρ'.predict hp hj⟩

/-- Every item of the state that a path leads to is viable. -/
theorem Spelled.viable (h : Spelled a (s :: states) γ) (hi : a.Holds s i) : ∃ ρ, Viable a γ i ρ := by
  generalize hstack : s :: states = stack at h
  induction h generalizing s states i with
  | nil =>
      cases hstack
      exact Viable.start.reaches (holds_zero.1 hi)
  | push _ hedge ih =>
      cases hstack
      obtain ⟨k, hk, hdot, hreaches⟩ := hedge.holds_iff.1 hi
      obtain ⟨ρ, hρ⟩ := ih hk rfl
      exact (hρ.advance hdot).reaches hreaches

theorem Augments.mem_variableSymbols_of_mem (h : Augments a g) (hp : a.productions[index]? = some p)
    (hc : c ∈ p.right) (hvariable : isVariable c = true) : c ∈ g.variableSymbols := by
  cases index with
  | zero =>
      obtain ⟨first, hfirst, _, hright⟩ := h.exists_first
      obtain rfl := Option.some.inj (hp.symm.trans hfirst)
      rw [hright, List.mem_singleton] at hc
      exact Grammar.mem_variableSymbols.2 (Or.inl hc)
  | succ index =>
      rw [h.getElem?_succ] at hp
      exact Grammar.mem_variableSymbols.2 (Or.inr ⟨p, List.mem_of_getElem? hp, Or.inr ⟨hc, hvariable⟩⟩)

/-- The added production is never predicted. -/
theorem Augments.exists_succ_of_predicted (h : Augments a g) (hj : j ∈ a.predicted i) :
    ∃ index q, j = ⟨index + 1, 0⟩ ∧ g.productions[index]? = some q ∧ a.afterDot? i = some q.left := by
  obtain ⟨q, index, hq, hdot, rfl⟩ := mem_predicted.1 hj
  cases index with
  | zero =>
      obtain ⟨first, hfirst, hleft, _⟩ := h.exists_first
      obtain rfl := Option.some.inj (hq.symm.trans hfirst)
      obtain ⟨p, hp, hget⟩ := afterDot?_eq_some.1 hdot
      have hmem := h.mem_variableSymbols_of_mem hp (List.mem_of_getElem? hget) q.left_isVariable
      exact (h.start_not_mem (hleft ▸ hmem)).elim
  | succ index => exact ⟨index, q, rfl, (h.getElem?_succ index).symm.trans hq, hdot⟩

/-- What a viable item says: its production stands at the end of the prefix up to the dot, and in
something derived from the start variable. -/
structure Viable.Shape (a : AugmentedGrammar) (g : Grammar) (γ : Word) (i : Item) (ρ δ : Word)
    (p : Production) : Prop where
  production_eq : a.productions[i.production]? = some p
  dot_le : i.dot ≤ p.right.length
  prefix_eq : γ = δ ++ p.right.take i.dot
  derives_right : g.Derives [g.start] (δ ++ p.right ++ ρ)
  start : i.production = 0 → δ = []

theorem Viable.shape (h : Augments a g) (hv : Viable a γ i ρ) : ∃ δ p, Viable.Shape a g γ i ρ δ p := by
  induction hv with
  | start =>
      obtain ⟨first, hfirst, _, hright⟩ := h.exists_first
      refine ⟨[], first, hfirst, Nat.zero_le _, rfl, ?_, fun _ => rfl⟩
      rw [hright]
      exact .refl
  | advance _ hdot ih =>
      obtain ⟨δ, p, hshape⟩ := ih
      obtain ⟨_, hp, hget⟩ := afterDot?_eq_some.1 hdot
      obtain rfl := Option.some.inj (hshape.production_eq.symm.trans hp)
      refine ⟨δ, p, hp, (List.getElem?_eq_some_iff.1 hget).1, ?_, hshape.derives_right, hshape.start⟩
      rw [Item.advance, List.take_add_one, hget, hshape.prefix_eq, List.append_assoc]
      rfl
  | @predict _ _ k _ _ _ hp hj ih =>
      obtain ⟨δ, p, hshape⟩ := ih
      obtain rfl := Option.some.inj (hshape.production_eq.symm.trans hp)
      obtain ⟨index, q, rfl, hq, hdot⟩ := h.exists_succ_of_predicted hj
      obtain ⟨_, hp', hget⟩ := afterDot?_eq_some.1 hdot
      obtain rfl := Option.some.inj (hp.symm.trans hp')
      refine ⟨_, q, (h.getElem?_succ index).trans hq, Nat.zero_le _, (List.append_nil _).symm, ?_,
        fun hzero => (Nat.succ_ne_zero index hzero).elim⟩
      obtain ⟨hlt, hc⟩ := List.getElem?_eq_some_iff.1 hget
      have hsplit : p.right = p.right.take k.dot ++ q.left :: p.right.drop (k.dot + 1) := by
        rw [← hc, ← List.drop_eq_getElem_cons hlt, List.take_append_drop]
      have hderives := hshape.derives_right
      rw [hsplit, ← List.append_assoc, ← hshape.prefix_eq, List.append_assoc, List.cons_append] at hderives
      exact hderives.step (.intro _ _ q (List.mem_of_getElem? hq))

/-- Every prefix that a path spells goes on to something derived from the start variable. -/
theorem Spelled.exists_derives (h : a.Augments g) (hs : Spelled a states γ) :
    ∃ ρ, g.Derives [g.start] (γ ++ ρ) := by
  obtain ⟨s, below, rfl⟩ := hs.exists_cons
  obtain ⟨i, hi⟩ := hs.exists_holds
  obtain ⟨ρ, hviable⟩ := hs.viable hi
  obtain ⟨δ, p, hshape⟩ := hviable.shape h
  refine ⟨p.right.drop i.dot ++ ρ, ?_⟩
  rw [hshape.prefix_eq, List.append_assoc, ← List.append_assoc (p.right.take i.dot), List.take_append_drop,
    ← List.append_assoc]
  exact hshape.derives_right

end LanguageTheory.AugmentedGrammar
