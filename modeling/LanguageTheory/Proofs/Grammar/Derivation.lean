import LanguageTheory.Grammar.Basic
import Mathlib.Data.Finset.Card
import Mathlib.Data.Finset.Dedup
import Mathlib.Data.List.Infix
import Mathlib.Order.Monotone.Basic

/-! Derivations of terminal words are forests: one tree for each symbol of the string that they start
from. A word has a forest of a height that its length and the number of variables bound, since a variable
below itself with the same word makes a detour. -/

namespace LanguageTheory.Grammar

variable {g : Grammar} {u v w x y z : Word} {c : Char} {d d' : Nat}

/-! ### Derivations -/

theorem Derives.trans (h : g.Derives u v) (h' : g.Derives v w) : g.Derives u w := by
  induction h' with
  | refl => exact h
  | step _ hstep ih => exact ih.step hstep

theorem Step.context (before after : Word) (h : g.Step u v) :
    g.Step (before ++ u ++ after) (before ++ v ++ after) := by
  obtain ⟨b, a, p, hp⟩ := h
  have hstep := Step.intro (before ++ b) (a ++ after) p hp
  simpa only [List.append_assoc, List.cons_append] using hstep

theorem Derives.context (before after : Word) (h : g.Derives u v) :
    g.Derives (before ++ u ++ after) (before ++ v ++ after) := by
  induction h with
  | refl => exact .refl
  | step _ hstep ih => exact ih.step (hstep.context before after)

/-- What holds of the end of a derivation and passes from the end of a step to its beginning holds of the
beginning of the derivation. -/
theorem Derives.backward {p : Word → Prop} (h : g.Derives u v) (hstep : ∀ {x y}, g.Step x y → p y → p x)
    (hv : p v) : p u := by
  induction h with
  | refl => exact hv
  | step _ hlast ih => exact ih (hstep hlast hv)

theorem Derives.append (h : g.Derives u v) (h' : g.Derives x y) : g.Derives (u ++ x) (v ++ y) := by
  have hleft := h.context [] x
  have hright := h'.context v []
  rw [List.append_nil, List.append_nil] at hright
  exact hleft.trans hright

theorem derives_of_mem {p : Production} (hp : p ∈ g.productions) : g.Derives [p.left] p.right := by
  have hstep := Step.intro [] [] p hp
  rw [List.append_nil] at hstep
  exact Derives.refl.step hstep

theorem endMarker_not_mem_right (p : Production) : endMarker ∉ p.right := by
  intro hmem
  have hsymbol := List.all_eq_true.1 p.right_isGrammarSymbol _ hmem
  exact absurd hsymbol (by decide)

theorem endMarker_not_mem_of_derives (h : g.Derives u v) (hu : endMarker ∉ u) : endMarker ∉ v := by
  induction h with
  | refl => exact hu
  | step _ hstep ih =>
      obtain ⟨before, after, p, _⟩ := hstep
      have hafter : endMarker ∉ after := fun hmem =>
        ih (List.mem_append_right _ (List.mem_cons_of_mem _ hmem))
      refine List.not_mem_append (List.not_mem_append ?_ (endMarker_not_mem_right p)) hafter
      exact fun hmem => ih (List.mem_append_left _ hmem)

theorem sides_of_production {p : Production} {left : Char} {right : Word} (h : Production.of left right = .ok p) :
    p.left = left ∧ p.right = right := by
  unfold Production.of at h
  split at h
  · split at h
    · cases h
    · split at h
      · cases h
        exact ⟨rfl, rfl⟩
      · cases h
  · cases h

theorem mem_variableSymbols : c ∈ g.variableSymbols ↔
    c = g.start ∨ ∃ p ∈ g.productions, c = p.left ∨ c ∈ p.right ∧ isVariable c = true := by
  simp only [variableSymbols, Ascending.mem_ofList, List.mem_cons, List.mem_flatMap,
    Production.variableSymbols, List.mem_filter]

theorem isVariable_of_mem_variableSymbols (hc : c ∈ g.variableSymbols) : isVariable c = true := by
  rcases mem_variableSymbols.1 hc with rfl | ⟨p, _, rfl | ⟨_, hc⟩⟩
  · exact g.start_isVariable
  · exact p.left_isVariable
  · exact hc

/-- A string is cut before its first variable. -/
theorem span_isTerminal_eq_iff : u.span isTerminal = (v, w) ↔
    u = v ++ w ∧ v.all isTerminal = true ∧ ∀ c ∈ w.head?, isVariable c = true := by
  rw [List.span_eq_takeWhile_dropWhile, Prod.mk.injEq]
  constructor
  · rintro ⟨rfl, rfl⟩
    refine ⟨List.takeWhile_append_dropWhile.symm, List.all_takeWhile, fun c hc => ?_⟩
    have hhead := List.head?_dropWhile_not isTerminal u
    rw [Option.mem_def.1 hc] at hhead
    have hnot : isTerminal c = false := hhead
    rwa [isTerminal, Bool.not_eq_false'] at hnot
  · rintro ⟨rfl, hv, hw⟩
    rw [List.takeWhile_append_of_pos (List.all_eq_true.1 hv), List.dropWhile_append_of_pos (List.all_eq_true.1 hv)]
    cases w with
    | nil => simp
    | cons c w => simp [isTerminal_eq_false (hw c rfl)]

theorem le_foldl_max (ns : List Nat) (n : Nat) : n ≤ ns.foldl max n ∧ ∀ k ∈ ns, k ≤ ns.foldl max n := by
  induction ns generalizing n with
  | nil => exact ⟨Nat.le_refl n, fun k hk => (List.not_mem_nil hk).elim⟩
  | cons e ns ih =>
      obtain ⟨hle, hall⟩ := ih (max n e)
      exact ⟨(Nat.le_max_left n e).trans hle, List.forall_mem_cons.2 ⟨(Nat.le_max_right n e).trans hle, hall⟩⟩

theorem length_le_width {p : Production} (hp : p ∈ g.productions) : p.right.length ≤ g.width :=
  (le_foldl_max (g.productions.map Production.length) 0).2 _ (List.mem_map_of_mem hp)

/-! ### Forests -/

/-- `Grown g d u x`: trees of height at most `d` stand on the symbols of `u` and carry the terminal
word `x`. -/
inductive Grown (g : Grammar) : Nat → Word → Word → Prop
  | nil {d : Nat} : Grown g d [] []
  | leaf {d : Nat} {c : Char} {u x : Word} : isTerminal c = true → Grown g d u x →
      Grown g d (c :: u) (c :: x)
  | node {d : Nat} {p : Production} {u x y : Word} : p ∈ g.productions → Grown g d p.right x →
      Grown g (d + 1) u y → Grown g (d + 1) (p.left :: u) (x ++ y)

theorem Grown.mono (h : Grown g d u x) (hle : d ≤ d') : Grown g d' u x := by
  induction h generalizing d' with
  | nil => exact .nil
  | leaf hc _ ih => exact .leaf hc (ih hle)
  | node hp _ _ ih ih' =>
      obtain ⟨e, rfl⟩ := Nat.exists_eq_add_of_le' hle
      exact .node hp (ih (Nat.le_add_left _ e)) (ih' hle)

theorem Grown.append (h : Grown g d u x) (h' : Grown g d v y) : Grown g d (u ++ v) (x ++ y) := by
  induction h with
  | nil => exact h'
  | leaf hc _ ih => exact .leaf hc (ih h')
  | node hp hright _ _ ih =>
      rw [List.append_assoc]
      exact .node hp hright (ih h')

theorem Grown.split (h : Grown g d (u ++ v) z) : ∃ x y, z = x ++ y ∧ Grown g d u x ∧ Grown g d v y := by
  induction u generalizing z with
  | nil => exact ⟨[], z, rfl, .nil, h⟩
  | cons c u ih =>
      cases h with
      | leaf hc h =>
          obtain ⟨x, y, rfl, hx, hy⟩ := ih h
          exact ⟨c :: x, y, rfl, .leaf hc hx, hy⟩
      | node hp hright h =>
          obtain ⟨x, y, rfl, hx, hy⟩ := ih h
          exact ⟨_, y, (List.append_assoc _ _ _).symm, .node hp hright hx, hy⟩

theorem Grown.all_isTerminal (h : Grown g d u x) : x.all isTerminal = true := by
  induction h with
  | nil => rfl
  | leaf hc _ ih => rw [List.all_cons, hc, ih, Bool.true_and]
  | node _ _ _ ih ih' => rw [List.all_append, ih, ih', Bool.true_and]

theorem Grown.derives (h : Grown g d u x) : g.Derives u x := by
  induction h with
  | nil => exact .refl
  | @leaf _ c _ _ _ _ ih => exact (Derives.refl (u := [c])).append ih
  | node hp _ _ ih ih' => exact ((derives_of_mem hp).trans ih).append ih'

theorem grown_self (hw : w.all isTerminal = true) : Grown g d w w := by
  induction w with
  | nil => exact .nil
  | cons c w ih =>
      rw [List.all_cons, Bool.and_eq_true] at hw
      exact .leaf hw.1 (ih hw.2)

theorem Grown.of_step (hstep : g.Step u v) (h : Grown g d v x) : Grown g (d + 1) u x := by
  obtain ⟨before, after, p, hp⟩ := hstep
  obtain ⟨y, z, rfl, hy, hz⟩ := h.split
  obtain ⟨y₁, y₂, rfl, hy₁, hy₂⟩ := hy.split
  rw [List.append_assoc]
  exact (hy₁.mono (Nat.le_succ d)).append (.node hp hy₂ (hz.mono (Nat.le_succ d)))

theorem Derives.exists_grown (h : g.Derives u v) (hv : Grown g d v x) : ∃ e, Grown g e u x := by
  induction h generalizing d with
  | refl => exact ⟨d, hv⟩
  | step _ hstep ih => exact ih (hv.of_step hstep)

/-- A terminal word is derived exactly if a forest carries it. -/
theorem derives_iff_grown (hx : x.all isTerminal = true) : g.Derives u x ↔ ∃ d, Grown g d u x :=
  ⟨fun h => h.exists_grown (d := 0) (grown_self hx), fun ⟨_, h⟩ => h.derives⟩

/-! ### Height -/

/-- Each tree may be replaced by another one that carries the same word. -/
theorem Grown.replace (h : Grown g d u x)
    (htree : ∀ c ∈ u, ∀ y, y <:+: x → Grown g d [c] y → Grown g d' [c] y) : Grown g d' u x := by
  induction u generalizing x with
  | nil =>
      cases h
      exact .nil
  | cons c u ih =>
      rw [← List.singleton_append] at h ⊢
      obtain ⟨y, z, rfl, hy, hz⟩ := h.split
      refine (htree c List.mem_cons_self y (List.prefix_append y z).isInfix hy).append (ih hz ?_)
      intro b hb t ht
      exact htree b (List.mem_cons_of_mem c hb) t (ht.trans (List.suffix_append y z).isInfix)

theorem Grown.terminal_of_singleton (hc : isTerminal c = true) (h : Grown g d [c] x) : Grown g d' [c] x := by
  cases h with
  | leaf _ h =>
      cases h
      exact .leaf hc .nil
  | @node _ p _ _ _ _ _ _ =>
      rw [isTerminal, p.left_isVariable] at hc
      cases hc

/-- The variables on which trees of the given height carry the word. -/
noncomputable def bearers (g : Grammar) (d : Nat) (x : Word) : Finset Char :=
  open Classical in g.variableSymbols.toList.toFinset.filter fun c => Grown g d [c] x

theorem mem_bearers : c ∈ g.bearers d x ↔ c ∈ g.variableSymbols ∧ Grown g d [c] x := by
  classical
  rw [bearers, Finset.mem_filter, List.mem_toFinset]
  rfl

theorem bearers_mono (hle : d ≤ d') : g.bearers d x ⊆ g.bearers d' x := by
  intro c hc
  rw [mem_bearers] at hc ⊢
  exact ⟨hc.1, hc.2.mono hle⟩

theorem card_bearers_le (g : Grammar) (d : Nat) (x : Word) : (g.bearers d x).card ≤ g.variableSymbols.size := by
  classical
  rw [bearers]
  exact (Finset.card_filter_le _ _).trans (List.toFinset_card_le _)

theorem isTerminal_or_mem_variableSymbols {p : Production} (hp : p ∈ g.productions) (hc : c ∈ p.right) :
    isTerminal c = true ∨ c ∈ g.variableSymbols := by
  rw [isTerminal]
  cases hvariable : isVariable c with
  | true => exact Or.inr (mem_variableSymbols.2 (Or.inr ⟨p, hp, Or.inr ⟨hc, hvariable⟩⟩))
  | false => exact Or.inl rfl

/-- Where trees of one more level do not make further variables bear the word, neither do those of
still one more, provided that shorter words need no higher trees. -/
theorem bearers_stable (hshort : ∀ y, y.length < x.length → ∀ c e, Grown g e [c] y → Grown g d [c] y)
    (h : g.bearers d x = g.bearers (d + 1) x) : g.bearers (d + 1) x = g.bearers (d + 2) x := by
  refine (bearers_mono (Nat.le_succ _)).antisymm fun c hc => ?_
  rw [mem_bearers] at hc ⊢
  refine ⟨hc.1, ?_⟩
  cases hc.2 with
  | leaf hterminal hnil =>
      cases hnil
      exact .leaf hterminal .nil
  | @node _ p _ x y hp hright hnil =>
      cases hnil
      rw [List.append_nil] at *
      have hlower : Grown g d p.right x := by
        apply hright.replace
        intro b hb y hy hgrown
        rcases Nat.lt_or_ge y.length x.length with hlt | hge
        · exact hshort y hlt b _ hgrown
        · obtain rfl := hy.eq_of_length_le hge
          rcases isTerminal_or_mem_variableSymbols hp hb with hb | hb
          · exact hgrown.terminal_of_singleton hb
          · have hmem : b ∈ g.bearers (d + 1) y := mem_bearers.2 ⟨hb, hgrown⟩
            rw [← h] at hmem
            exact (mem_bearers.1 hmem).2
      have hgrown := Grown.node hp hlower (.nil (d := d + 1))
      rwa [List.append_nil] at hgrown

/-- A height that suffices for words of the given length. -/
def height (g : Grammar) (length : Nat) : Nat := g.variableSymbols.size * (length + 1)

theorem Grown.prune_singleton (h : Grown g d [c] x) : Grown g (g.height x.length) [c] x := by
  induction hn : x.length using Nat.strongRecOn generalizing c d x with
  | ind n ih =>
      by_cases hterminal : isTerminal c = true
      · exact h.terminal_of_singleton hterminal
      have hc : c ∈ g.variableSymbols := by
        cases h with
        | leaf hc _ => exact (hterminal hc).elim
        | node hp _ _ => exact mem_variableSymbols.2 (Or.inr ⟨_, hp, Or.inl rfl⟩)
      have hstable : ∀ m, (g.bearers (g.variableSymbols.size * n + m) x).card =
          (g.bearers (g.variableSymbols.size * n + (m + 1)) x).card →
          (g.bearers (g.variableSymbols.size * n + (m + 1)) x).card =
            (g.bearers (g.variableSymbols.size * n + (m + 2)) x).card := by
        intro m hm
        congr 1
        apply bearers_stable
        · intro y hy b e hb
          rw [hn] at hy
          refine (ih y.length hy hb rfl).mono ((Nat.mul_le_mul_left _ hy).trans (Nat.le_add_right _ _))
        · exact Finset.eq_of_subset_of_card_le (bearers_mono (Nat.le_succ _)) hm.ge
      have hall : ∀ j, g.variableSymbols.size ≤ j →
          g.bearers (g.variableSymbols.size * n + j) x = g.bearers (g.height n) x := by
        intro j hj
        refine (Finset.eq_of_subset_of_card_le (bearers_mono (Nat.add_le_add_left hj _)) ?_).symm
        have hmono : Monotone fun m => (g.bearers (g.variableSymbols.size * n + m) x).card :=
          fun a b hab => Finset.card_le_card (bearers_mono (Nat.add_le_add_left hab _))
        exact (Nat.stabilises_of_monotone hmono (fun m => card_bearers_le g _ x) hstable hj).le
      have hmem : c ∈ g.bearers (g.variableSymbols.size * n + (g.variableSymbols.size + d)) x :=
        mem_bearers.2 ⟨hc, h.mono (by omega)⟩
      rw [hall _ (Nat.le_add_right _ _)] at hmem
      exact (mem_bearers.1 hmem).2

/-- A word that a forest carries has one of a height that its length bounds. -/
theorem Grown.prune (h : Grown g d u x) : Grown g (g.height x.length) u x := by
  apply h.replace
  intro c _ y hy hgrown
  exact hgrown.prune_singleton.mono (Nat.mul_le_mul_left _ (Nat.succ_le_succ hy.length_le))

end LanguageTheory.Grammar
