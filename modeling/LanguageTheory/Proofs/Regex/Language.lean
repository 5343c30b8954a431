import LanguageTheory.Regex.Basic

/-! The words that an expression stands for, constructor by constructor. The constructors that simplify
stand for the same words as those that do not. -/

namespace LanguageTheory.Regex

variable {r s t : Regex} {c : Char} {u v w : Word}

theorem not_matches_empty : ¬Matches empty w := fun h => nomatch h

theorem matches_epsilon : Matches epsilon w ↔ w = [] := by
  constructor
  · rintro ⟨⟩
    rfl
  · rintro rfl
    exact .epsilon

theorem matches_symbol : Matches (symbol c) w ↔ w = [c] := by
  constructor
  · rintro ⟨⟩
    rfl
  · rintro rfl
    exact .symbol c

theorem matches_concat : Matches (concat r s) w ↔ ∃ u v, w = u ++ v ∧ Matches r u ∧ Matches s v := by
  constructor
  · rintro (_ | _ | ⟨hu, hv⟩)
    exact ⟨_, _, rfl, hu, hv⟩
  · rintro ⟨u, v, rfl, hu, hv⟩
    exact .concat hu hv

theorem matches_concat_concat : Matches (concat (concat r s) t) w ↔ Matches (concat r (concat s t)) w := by
  simp only [matches_concat]
  constructor
  · rintro ⟨_, z, rfl, ⟨x, y, rfl, hx, hy⟩, hz⟩
    exact ⟨x, y ++ z, List.append_assoc x y z, hx, y, z, rfl, hy, hz⟩
  · rintro ⟨x, _, rfl, hx, y, z, rfl, hy, hz⟩
    exact ⟨x ++ y, z, (List.append_assoc x y z).symm, ⟨x, y, rfl, hx, hy⟩, hz⟩

theorem matches_concat_congr {r' s' : Regex} (hr : ∀ w, Matches r w ↔ Matches r' w)
    (hs : ∀ w, Matches s w ↔ Matches s' w) : Matches (concat r s) w ↔ Matches (concat r' s') w := by
  simp only [matches_concat, hr, hs]

theorem matches_union : Matches (union r s) w ↔ Matches r w ∨ Matches s w := by
  constructor
  · intro h
    cases h with
    | left h => exact .inl h
    | right h => exact .inr h
  · rintro (h | h)
    · exact .left h
    · exact .right h

/-- What holds of the empty word, and of a word if it holds of it without its first part, holds of every word
of a repetition. -/
theorem Matches.star_induction {motive : (w : Word) → Matches (star r) w → Prop} (stop : motive [] .stop)
    (more : ∀ {u v : Word} (hu : Matches r u) (hv : Matches (star r) v), motive v hv →
      motive (u ++ v) (.more hu hv))
    (h : Matches (star r) w) : motive w h := by
  have hall : ∀ {s w} (h : Matches s w) (hs : s = star r), motive w (hs ▸ h) := by
    intro s w h hs
    induction h with
    | stop =>
        cases hs
        exact stop
    | more hu hv _ ih =>
        cases hs
        exact more hu hv (ih rfl)
    | epsilon => cases hs
    | symbol => cases hs
    | concat => cases hs
    | left => cases hs
    | right => cases hs
  exact hall h rfl

theorem Matches.star_append (hu : Matches (star r) u) (hv : Matches (star r) v) : Matches (star r) (u ++ v) := by
  induction hu using Matches.star_induction with
  | stop => exact hv
  | more hx _ ih =>
      rw [List.append_assoc]
      exact .more hx ih

theorem Matches.star_mono (h : ∀ w, Matches r w → Matches s w) (hw : Matches (star r) w) : Matches (star s) w := by
  induction hw using Matches.star_induction with
  | stop => exact .stop
  | more hu _ ih => exact .more (h _ hu) ih

theorem matches_star_congr (h : ∀ w, Matches r w ↔ Matches s w) : Matches (star r) w ↔ Matches (star s) w :=
  ⟨Matches.star_mono fun w => (h w).1, Matches.star_mono fun w => (h w).2⟩

/-- Repeating something that only stands for the empty word comes to nothing. -/
theorem matches_star_of_forall (h : ∀ w, Matches r w → w = []) : Matches (star r) w ↔ w = [] := by
  constructor
  · intro hw
    induction hw using Matches.star_induction with
    | stop => rfl
    | more hu _ ih => rw [h _ hu, ih, List.append_nil]
  · rintro rfl
    exact .stop

theorem matches_star_star : Matches (star (star r)) w ↔ Matches (star r) w := by
  constructor
  · intro h
    induction h using Matches.star_induction with
    | stop => exact .stop
    | more hu _ ih => exact hu.star_append ih
  · intro h
    have hmore : Matches (star (star r)) (w ++ []) := .more h .stop
    rwa [List.append_nil] at hmore

/-! ### Constructors that simplify -/

theorem matches_mkConcat : Matches (mkConcat r s) w ↔ Matches (concat r s) w := by
  rw [matches_concat]
  unfold mkConcat
  split
  next => simp [not_matches_empty]
  next => simp [not_matches_empty]
  next =>
    constructor
    · exact fun h => ⟨[], w, rfl, .epsilon, h⟩
    · rintro ⟨_, v, rfl, ⟨⟩, hv⟩
      exact hv
  next =>
    constructor
    · exact fun h => ⟨w, [], (List.append_nil w).symm, h, .epsilon⟩
    · rintro ⟨u, _, rfl, hu, ⟨⟩⟩
      rwa [List.append_nil]
  next => exact matches_concat

theorem matches_mkUnion : Matches (mkUnion r s) w ↔ Matches r w ∨ Matches s w := by
  unfold mkUnion
  split
  next => simp [not_matches_empty]
  next => simp [not_matches_empty]
  next =>
    split
    next heq => rw [heq, or_self]
    next => exact matches_union

theorem matches_mkStar : Matches (mkStar r) w ↔ Matches (star r) w := by
  unfold mkStar
  split
  next => rw [matches_epsilon, matches_star_of_forall fun w h => (not_matches_empty h).elim]
  next => rw [matches_epsilon, matches_star_of_forall fun w => matches_epsilon.1]
  next => exact matches_star_star.symm
  next => exact Iff.rfl

theorem matches_foldl_mkConcat (u : Word) (r : Regex) :
    Matches (u.foldl (fun r c => mkConcat r (symbol c)) r) w ↔ ∃ v, w = v ++ u ∧ Matches r v := by
  induction u generalizing r with
  | nil => simp
  | cons c u ih =>
      simp only [List.foldl_cons, ih, matches_mkConcat, matches_concat, matches_symbol]
      constructor
      · rintro ⟨_, rfl, v, _, rfl, hv, rfl⟩
        exact ⟨v, List.append_assoc v [c] u, hv⟩
      · rintro ⟨v, rfl, hv⟩
        exact ⟨v ++ [c], List.append_cons v c u, v, [c], rfl, hv, rfl⟩

theorem matches_ofWord : Matches (ofWord u) w ↔ w = u := by
  simp [ofWord, matches_foldl_mkConcat, matches_epsilon]

end LanguageTheory.Regex
