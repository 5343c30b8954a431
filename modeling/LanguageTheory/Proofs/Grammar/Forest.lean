import LanguageTheory.Proofs.Grammar.Derivation

/-! Derivations that tell which production each step uses, and the forests that they build. A leftmost
derivation lists the productions of its trees from the roots down, a rightmost one, read backwards, from
the leaves up. Either list, with the symbols that the trees stand on, determines the forest, so a word has
at most one leftmost derivation if and only if it has at most one rightmost one. -/

namespace LanguageTheory

variable {g : Grammar} {u v w x y z before after before' after' : Word} {c : Char} {p q : Production}
  {ps qs : List Production}

/-! ### Derivations and the productions they use -/

namespace Grammar

/-- A derivation by the productions of a list, one after the other. A step may replace a variable if what
stands before and after it is as allowed. -/
inductive DerivesBy (g : Grammar) (allowed : Word → Word → Prop) : List Production → Word → Word → Prop
  | nil {u : Word} : DerivesBy g allowed [] u u
  | cons {ps : List Production} {before after w : Word} {p : Production} : p ∈ g.productions →
      allowed before after → DerivesBy g allowed ps (before ++ p.right ++ after) w →
      DerivesBy g allowed (p :: ps) (before ++ p.left :: after) w

/-- Every step replaces the first variable. -/
def Leftmost (g : Grammar) : List Production → Word → Word → Prop :=
  g.DerivesBy fun before _ => before.all isTerminal = true

/-- Every step replaces the last variable. -/
def Rightmost (g : Grammar) : List Production → Word → Word → Prop :=
  g.DerivesBy fun _ after => after.all isTerminal = true

variable {allowed allowed' : Word → Word → Prop}

theorem DerivesBy.derives (h : g.DerivesBy allowed ps u w) : g.Derives u w := by
  induction h with
  | nil => exact .refl
  | cons hp _ _ ih => exact (Derives.refl.step (.intro _ _ _ hp)).trans ih

theorem DerivesBy.trans (h : g.DerivesBy allowed ps u v) (h' : g.DerivesBy allowed qs v w) :
    g.DerivesBy allowed (ps ++ qs) u w := by
  induction h with
  | nil => exact h'
  | cons hp hallowed _ ih => exact .cons hp hallowed (ih h')

theorem DerivesBy.head (hp : p ∈ g.productions) (hallowed : allowed [] after)
    (h : g.DerivesBy allowed ps (p.right ++ after) w) : g.DerivesBy allowed (p :: ps) (p.left :: after) w := by
  have hcons : g.DerivesBy allowed (p :: ps) ([] ++ p.left :: after) w := .cons hp hallowed h
  exact hcons

theorem DerivesBy.context (x y : Word) (hallowed : ∀ b a, allowed b a → allowed' (x ++ b) (a ++ y))
    (h : g.DerivesBy allowed ps u w) : g.DerivesBy allowed' ps (x ++ u ++ y) (x ++ w ++ y) := by
  induction h with
  | nil => exact .nil
  | cons hp hstep _ ih =>
      simp only [List.append_assoc, List.cons_append] at ih ⊢
      rw [← List.append_assoc]
      refine .cons hp (hallowed _ _ hstep) ?_
      simpa only [List.append_assoc] using ih

theorem not_isTerminal_left (p : Production) : ¬isTerminal p.left = true := by
  rw [isTerminal, p.left_isVariable]
  exact Bool.false_ne_true

/-- The first variable of a string is in one place only. -/
theorem eq_of_first_variable (hbefore : before.all isTerminal = true) (hbefore' : before'.all isTerminal = true)
    (h : before ++ p.left :: after = before' ++ q.left :: after') :
    before = before' ∧ p.left = q.left ∧ after = after' := by
  induction before generalizing before' with
  | nil =>
      cases before' with
      | nil =>
          obtain ⟨hleft, hafter⟩ := List.cons.inj h
          exact ⟨rfl, hleft, hafter⟩
      | cons c before' =>
          obtain ⟨rfl, _⟩ := List.cons.inj h
          exact (not_isTerminal_left p (List.all_eq_true.1 hbefore' _ List.mem_cons_self)).elim
  | cons c before ih =>
      cases before' with
      | nil =>
          obtain ⟨rfl, _⟩ := List.cons.inj h
          exact (not_isTerminal_left q (List.all_eq_true.1 hbefore _ List.mem_cons_self)).elim
      | cons d before' =>
          obtain ⟨rfl, hrest⟩ := List.cons.inj h
          rw [List.all_cons, Bool.and_eq_true] at hbefore hbefore'
          obtain ⟨rfl, hleft, hafter⟩ := ih hbefore.2 hbefore'.2 hrest
          exact ⟨rfl, hleft, hafter⟩

end Grammar

/-! ### Forests -/

/-- Trees next to each other. A node bears the production that it is made by. -/
inductive Forest
  | nil
  | leaf (c : Char) (rest : Forest)
  | node (p : Production) (below rest : Forest)

namespace Forest

variable {f f' f₁ f₂ below rest : Forest}

def append : Forest → Forest → Forest
  | nil, f => f
  | leaf c rest, f => leaf c (rest.append f)
  | node p below rest, f => node p below (rest.append f)

/-- The productions of the nodes, a node before those below it. -/
def preorder : Forest → List Production
  | nil => []
  | leaf _ rest => rest.preorder
  | node p below rest => p :: (below.preorder ++ rest.preorder)

/-- The productions of the nodes, a node after those below it. -/
def postorder : Forest → List Production
  | nil => []
  | leaf _ rest => rest.postorder
  | node p below rest => below.postorder ++ p :: rest.postorder

/-- How many nodes are above each other at most. -/
def height : Forest → Nat
  | nil => 0
  | leaf _ rest => rest.height
  | node _ below rest => max (below.height + 1) rest.height

/-- The forest stands on the symbols of a string and carries a terminal word. -/
inductive Carries (g : Grammar) : Forest → Word → Word → Prop
  | nil : Carries g .nil [] []
  | leaf {c : Char} {rest : Forest} {u x : Word} : isTerminal c = true → Carries g rest u x →
      Carries g (.leaf c rest) (c :: u) (c :: x)
  | node {p : Production} {below rest : Forest} {u x y : Word} : p ∈ g.productions →
      Carries g below p.right x → Carries g rest u y → Carries g (.node p below rest) (p.left :: u) (x ++ y)

theorem Carries.grown (h : Carries g f u x) {d : Nat} (hd : f.height ≤ d) : Grammar.Grown g d u x := by
  induction h generalizing d with
  | nil => exact .nil
  | leaf hc _ ih => exact .leaf hc (ih hd)
  | node hp _ _ ih ih' =>
      rw [height, Nat.max_le] at hd
      obtain ⟨e, rfl⟩ := Nat.exists_eq_add_of_le' (Nat.le_trans (Nat.le_add_left 1 _) hd.1)
      exact .node hp (ih (Nat.le_of_succ_le_succ hd.1)) (ih' hd.2)

theorem exists_carries_of_grown {d : Nat} (h : Grammar.Grown g d u x) : ∃ f, Carries g f u x ∧ f.height ≤ d := by
  induction h with
  | nil => exact ⟨.nil, .nil, Nat.zero_le _⟩
  | leaf hc _ ih =>
      obtain ⟨f, hf, hd⟩ := ih
      exact ⟨_, .leaf hc hf, hd⟩
  | node hp _ _ ih ih' =>
      obtain ⟨f, hf, hd⟩ := ih
      obtain ⟨f', hf', hd'⟩ := ih'
      exact ⟨_, .node hp hf hf', Nat.max_le.2 ⟨Nat.succ_le_succ hd, hd'⟩⟩

/-- What a grammar generates is carried by a forest that is not too high. -/
theorem exists_carries_of_generates (h : g.Generates w) :
    ∃ f, Carries g f [g.start] w ∧ f.height ≤ g.height w.length := by
  obtain ⟨hterminal, hderives⟩ := h
  obtain ⟨d, hgrown⟩ := (Grammar.derives_iff_grown hterminal).1 hderives
  exact exists_carries_of_grown hgrown.prune

theorem Carries.all_isTerminal (h : Carries g f u x) : x.all isTerminal = true :=
  (h.grown (Nat.le_refl _)).all_isTerminal

theorem Carries.append (h : Carries g f u x) (h' : Carries g f' v y) : Carries g (f.append f') (u ++ v) (x ++ y) := by
  induction h with
  | nil => exact h'
  | leaf hc _ ih => exact .leaf hc ih
  | node hp hbelow _ _ ih =>
      rw [List.append_assoc]
      exact .node hp hbelow ih

theorem Carries.split (h : Carries g f (u ++ v) z) : ∃ f₁ f₂ x y,
    f = f₁.append f₂ ∧ z = x ++ y ∧ Carries g f₁ u x ∧ Carries g f₂ v y := by
  induction u generalizing f z with
  | nil => exact ⟨.nil, f, [], z, rfl, rfl, .nil, h⟩
  | cons c u ih =>
      cases h with
      | leaf hc hrest =>
          obtain ⟨f₁, f₂, x, y, rfl, rfl, h₁, h₂⟩ := ih hrest
          exact ⟨_, f₂, c :: x, y, rfl, rfl, .leaf hc h₁, h₂⟩
      | node hp hbelow hrest =>
          obtain ⟨f₁, f₂, x, y, rfl, rfl, h₁, h₂⟩ := ih hrest
          exact ⟨_, f₂, _, y, rfl, (List.append_assoc _ _ _).symm, .node hp hbelow h₁, h₂⟩

theorem preorder_append (f f' : Forest) : (f.append f').preorder = f.preorder ++ f'.preorder := by
  induction f with
  | nil => rfl
  | leaf c rest ih => exact ih
  | node p below rest _ ih => simp only [append, preorder, ih, List.cons_append, List.append_assoc]

theorem postorder_append (f f' : Forest) : (f.append f').postorder = f.postorder ++ f'.postorder := by
  induction f with
  | nil => rfl
  | leaf c rest ih => exact ih
  | node p below rest _ ih => simp only [append, postorder, ih, List.cons_append, List.append_assoc]

/-- A forest on a terminal word is the word itself, without a node. -/
theorem Carries.of_all_isTerminal (h : Carries g f u x) (hu : u.all isTerminal = true) :
    x = u ∧ f.preorder = [] ∧ f.postorder = [] := by
  induction h with
  | nil => exact ⟨rfl, rfl, rfl⟩
  | leaf _ _ ih =>
      rw [List.all_cons, Bool.and_eq_true] at hu
      obtain ⟨rfl, hpre, hpost⟩ := ih hu.2
      exact ⟨rfl, hpre, hpost⟩
  | @node p _ _ _ _ _ _ _ _ _ _ =>
      exact (Grammar.not_isTerminal_left p (List.all_eq_true.1 hu _ List.mem_cons_self)).elim

theorem exists_carries_self (hw : w.all isTerminal = true) : ∃ f, Carries g f w w := by
  obtain ⟨f, hf, _⟩ := exists_carries_of_grown (Grammar.grown_self (g := g) (d := 0) hw)
  exact ⟨f, hf⟩

/-! ### Forests of derivations -/

/-- The tree of the production that a step uses is put together from the trees on its right-hand side. -/
theorem Carries.exists_node (h : Carries g f (before ++ p.right ++ after) w) (hp : p ∈ g.productions) :
    ∃ f₁ f₂ f₃ x y, f = (f₁.append f₂).append f₃ ∧ Carries g f₁ before x ∧ Carries g f₃ after y ∧
      Carries g (f₁.append (.node p f₂ f₃)) (before ++ p.left :: after) w := by
  obtain ⟨f', f₃, _, y, rfl, rfl, h', h₃⟩ := h.split
  obtain ⟨f₁, f₂, x, z, rfl, rfl, h₁, h₂⟩ := h'.split
  refine ⟨f₁, f₂, f₃, x, y, rfl, h₁, h₃, ?_⟩
  rw [List.append_assoc]
  exact h₁.append (.node hp h₂ h₃)

theorem exists_carries_of_leftmost (hw : w.all isTerminal = true) (h : g.Leftmost ps u w) :
    ∃ f, Carries g f u w ∧ f.preorder = ps := by
  induction h with
  | nil =>
      obtain ⟨f, hf⟩ := exists_carries_self hw
      exact ⟨f, hf, (hf.of_all_isTerminal hw).2.1⟩
  | cons hp hbefore _ ih =>
      obtain ⟨f, hf, rfl⟩ := ih hw
      obtain ⟨f₁, f₂, f₃, x, y, rfl, h₁, _, hnode⟩ := hf.exists_node hp
      refine ⟨_, hnode, ?_⟩
      simp only [preorder_append, preorder, (h₁.of_all_isTerminal hbefore).2.1, List.nil_append]

theorem exists_carries_of_rightmost (hw : w.all isTerminal = true) (h : g.Rightmost ps u w) :
    ∃ f, Carries g f u w ∧ f.postorder = ps.reverse := by
  induction h with
  | nil =>
      obtain ⟨f, hf⟩ := exists_carries_self hw
      exact ⟨f, hf, (hf.of_all_isTerminal hw).2.2⟩
  | cons hp hafter _ ih =>
      obtain ⟨f, hf, hpost⟩ := ih hw
      obtain ⟨f₁, f₂, f₃, x, y, rfl, _, h₃, hnode⟩ := hf.exists_node hp
      refine ⟨_, hnode, ?_⟩
      rw [List.reverse_cons, ← hpost]
      simp only [postorder_append, postorder, (h₃.of_all_isTerminal hafter).2.2, List.append_nil, List.append_assoc]

theorem leftmost_context (hx : x.all isTerminal = true) (y : Word) (h : g.Leftmost ps u w) :
    g.Leftmost ps (x ++ u ++ y) (x ++ w ++ y) := by
  apply Grammar.DerivesBy.context x y _ h
  intro before _ hbefore
  rw [List.all_append, hx, hbefore]
  rfl

theorem rightmost_context (x : Word) (hy : y.all isTerminal = true) (h : g.Rightmost ps u w) :
    g.Rightmost ps (x ++ u ++ y) (x ++ w ++ y) := by
  apply Grammar.DerivesBy.context x y _ h
  intro _ after hafter
  rw [List.all_append, hafter, hy]
  rfl

/-- The productions of a forest in preorder make a leftmost derivation. -/
theorem Carries.leftmost (h : Carries g f u x) : g.Leftmost f.preorder u x := by
  induction h with
  | nil => exact .nil
  | @leaf c rest u x hc _ ih =>
      have hcontext := leftmost_context (x := [c]) (by rw [List.all_cons, hc]; rfl) [] ih
      rwa [List.append_nil, List.append_nil] at hcontext
  | @node p below rest u x y hp hbelow _ ih ih' =>
      have hfirst := leftmost_context (x := []) rfl u ih
      have hothers := leftmost_context hbelow.all_isTerminal [] ih'
      rw [List.append_nil, List.append_nil] at hothers
      exact .head hp rfl (hfirst.trans hothers)

/-- The productions of a forest in postorder, read backwards, make a rightmost derivation. -/
theorem Carries.rightmost (h : Carries g f u x) : g.Rightmost f.postorder.reverse u x := by
  induction h with
  | nil => exact .nil
  | @leaf c rest u x _ _ ih =>
      have hcontext := rightmost_context [c] (y := []) rfl ih
      rwa [List.append_nil, List.append_nil] at hcontext
  | @node p below rest u x y hp _ hrest ih ih' =>
      have hothers := rightmost_context [p.left] (y := []) rfl ih'
      have hfirst := rightmost_context [] hrest.all_isTerminal ih
      rw [List.append_nil, List.append_nil] at hothers
      rw [postorder, List.reverse_append, List.reverse_cons, List.append_assoc, List.singleton_append]
      exact hothers.trans (.head hp hrest.all_isTerminal hfirst)

/-! ### What determines a forest -/

/-- On the same symbols, forests whose nodes are listed alike are the same. -/
theorem Carries.eq_of_preorder (h : Carries g f u x) (h' : Carries g f' u y)
    (heq : f.preorder ++ ps = f'.preorder ++ qs) : f = f' ∧ ps = qs := by
  induction h generalizing f' y ps qs with
  | nil =>
      cases h'
      exact ⟨rfl, heq⟩
  | leaf hc _ ih =>
      cases h' with
      | leaf _ hrest' =>
          obtain ⟨rfl, hps⟩ := ih hrest' heq
          exact ⟨rfl, hps⟩
      | node => exact (Grammar.not_isTerminal_left _ hc).elim
  | @node p below rest u x y _ _ _ ih ih' =>
      generalize hleft : p.left = c at h'
      cases h' with
      | leaf hc => exact (Grammar.not_isTerminal_left p (hleft ▸ hc)).elim
      | node _ hbelow' hrest' =>
          rw [preorder, preorder, List.cons_append, List.cons_append, List.append_assoc, List.append_assoc] at heq
          obtain ⟨rfl, hlists⟩ := List.cons.inj heq
          obtain ⟨rfl, hothers⟩ := ih hbelow' hlists
          obtain ⟨rfl, hps⟩ := ih' hrest' hothers
          exact ⟨rfl, hps⟩

theorem Carries.eq_of_postorder (h : Carries g f u x) (h' : Carries g f' u y)
    (heq : f.postorder.reverse ++ ps = f'.postorder.reverse ++ qs) : f = f' ∧ ps = qs := by
  induction h generalizing f' y ps qs with
  | nil =>
      cases h'
      exact ⟨rfl, heq⟩
  | leaf hc _ ih =>
      cases h' with
      | leaf _ hrest' =>
          obtain ⟨rfl, hps⟩ := ih hrest' heq
          exact ⟨rfl, hps⟩
      | node => exact (Grammar.not_isTerminal_left _ hc).elim
  | @node p below rest u x y _ _ _ ih ih' =>
      generalize hleft : p.left = c at h'
      cases h' with
      | leaf hc => exact (Grammar.not_isTerminal_left p (hleft ▸ hc)).elim
      | node _ hbelow' hrest' =>
          -- Backwards, the other trees come first, then the root, then what is below it.
          simp only [postorder, List.reverse_append, List.reverse_cons, List.append_assoc,
            List.singleton_append] at heq
          obtain ⟨rfl, hlists⟩ := ih' hrest' heq
          obtain ⟨rfl, hothers⟩ := List.cons.inj hlists
          obtain ⟨rfl, hps⟩ := ih hbelow' hothers
          exact ⟨rfl, hps⟩

/-- A word has at most one leftmost derivation if and only if at most one forest carries it. -/
theorem leftmost_subsingleton_iff (hw : w.all isTerminal = true) :
    {ps | g.Leftmost ps u w}.Subsingleton ↔ {f | Carries g f u w}.Subsingleton := by
  constructor
  · intro h f hf f' hf'
    exact (hf.eq_of_preorder hf' (congrArg (· ++ []) (h hf.leftmost hf'.leftmost))).1
  · intro h ps hps qs hqs
    obtain ⟨f, hf, rfl⟩ := exists_carries_of_leftmost hw hps
    obtain ⟨f', hf', rfl⟩ := exists_carries_of_leftmost hw hqs
    rw [h hf hf']

theorem rightmost_subsingleton_iff (hw : w.all isTerminal = true) :
    {ps | g.Rightmost ps u w}.Subsingleton ↔ {f | Carries g f u w}.Subsingleton := by
  constructor
  · intro h f hf f' hf'
    exact (hf.eq_of_postorder hf' (congrArg (· ++ []) (h hf.rightmost hf'.rightmost))).1
  · intro h ps hps qs hqs
    obtain ⟨f, hf, hpost⟩ := exists_carries_of_rightmost hw hps
    obtain ⟨f', hf', hpost'⟩ := exists_carries_of_rightmost hw hqs
    rw [h hf hf'] at hpost
    exact List.reverse_injective (hpost.symm.trans hpost')

end Forest

end LanguageTheory
