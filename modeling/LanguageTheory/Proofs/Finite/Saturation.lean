import LanguageTheory.Finite.Saturation
import Mathlib.Data.List.Perm.Subperm

/-! Saturation finds exactly what the rules derive. Every round but the last makes another head known,
so that a round that adds nothing comes before the rounds run out, or all heads are known. -/

namespace LanguageTheory.Rule

variable {α : Type u} {rules : List (Rule α)} {rule : Rule α} {known : List α} {a : α}

/-- Distinct heads of which there are as many as rules are all heads. -/
theorem head_mem_of_length_le (hnodup : known.Nodup) (hheads : known ⊆ rules.map (·.head))
    (hlength : rules.length ≤ known.length) (hrule : rule ∈ rules) : rule.head ∈ known := by
  have hperm : known.Perm (rules.map (·.head)) :=
    (List.subperm_of_subset hnodup hheads).perm_of_length_le (by rwa [List.length_map])
  exact hperm.mem_iff.2 (List.mem_map_of_mem hrule)

variable [DecidableEq α]

/-! ### One round -/

theorem length_le_fire (known : List α) (rule : Rule α) : known.length ≤ (fire known rule).length := by
  unfold fire
  split
  · exact Nat.le_succ _
  · exact Nat.le_refl _

theorem length_le_foldl_fire (rules : List (Rule α)) (known : List α) :
    known.length ≤ (rules.foldl fire known).length := by
  induction rules generalizing known with
  | nil => exact Nat.le_refl _
  | cons rule rules ih => exact Nat.le_trans (length_le_fire known rule) (ih _)

/-- Whatever passes from the bodies of the rules to their heads is true of everything known. -/
theorem forall_foldl_fire {p : α → Prop}
    (hrules : ∀ rule ∈ rules, (∀ a ∈ rule.body, p a) → p rule.head) (hknown : ∀ a ∈ known, p a) :
    ∀ a ∈ rules.foldl fire known, p a := by
  induction rules generalizing known with
  | nil => exact hknown
  | cons rule rules ih =>
      apply ih fun r hr => hrules r (List.mem_cons_of_mem _ hr)
      intro a ha
      unfold fire at ha
      split at ha
      next hfires =>
        rcases List.mem_cons.1 ha with rfl | ha
        · exact hrules rule List.mem_cons_self fun b hb => hknown b (hfires.2 b hb)
        · exact hknown a ha
      next => exact hknown a ha

theorem nodup_foldl_fire (rules : List (Rule α)) (h : known.Nodup) : (rules.foldl fire known).Nodup := by
  induction rules generalizing known with
  | nil => exact h
  | cons rule rules ih =>
      apply ih
      unfold fire
      split
      next hfires => exact List.nodup_cons.2 ⟨hfires.1, h⟩
      next => exact h

/-- What is known after a round that adds nothing is closed under the rules. -/
theorem mem_of_length_foldl_fire (h : (rules.foldl fire known).length = known.length) :
    ∀ rule ∈ rules, (∀ a ∈ rule.body, a ∈ known) → rule.head ∈ known := by
  induction rules generalizing known with
  | nil => intro rule hrule; cases hrule
  | cons first rules ih =>
      have hlength := length_le_foldl_fire rules (fire known first)
      rw [List.foldl_cons] at h
      have hfire : fire known first = known := by
        unfold fire at hlength h ⊢
        split
        next hfires =>
          rw [if_pos hfires] at hlength h
          rw [List.length_cons] at hlength
          omega
        next => rfl
      rw [hfire] at h
      intro rule hrule hbody
      rcases List.mem_cons.1 hrule with rfl | hrule
      · by_contra hhead
        have hcons := hfire
        rw [fire, if_pos ⟨hhead, hbody⟩] at hcons
        exact List.cons_ne_self _ _ hcons
      · exact ih h rule hrule hbody

/-! ### All rounds -/

theorem rounds_succ (rules : List (Rule α)) (bound : Nat) (known : List α) :
    rounds rules (bound + 1) known = if (rules.foldl fire known).length = known.length then known
      else rounds rules bound (rules.foldl fire known) := rfl

theorem rounds_closed {bound : Nat} (hnodup : known.Nodup) (hheads : known ⊆ rules.map (·.head))
    (hbound : rules.length ≤ bound + known.length) :
    ∀ rule ∈ rules, (∀ a ∈ rule.body, a ∈ rounds rules bound known) → rule.head ∈ rounds rules bound known := by
  induction bound generalizing known with
  | zero =>
      rw [Nat.zero_add] at hbound
      intro rule hrule _
      exact head_mem_of_length_le hnodup hheads hbound hrule
  | succ bound ih =>
      rw [rounds_succ]
      split
      next hsame => exact mem_of_length_foldl_fire hsame
      next hgrown =>
        apply ih (nodup_foldl_fire rules hnodup)
        · exact forall_foldl_fire (fun rule hrule _ => List.mem_map_of_mem hrule) hheads
        · have hle := length_le_foldl_fire rules known
          omega

theorem derives_of_mem_rounds {bound : Nat} (hknown : ∀ a ∈ known, Derives rules a) :
    ∀ a ∈ rounds rules bound known, Derives rules a := by
  induction bound generalizing known with
  | zero => exact hknown
  | succ bound ih =>
      rw [rounds_succ]
      split
      · exact hknown
      · exact ih (forall_foldl_fire (fun rule hrule hbody => .intro rule hrule hbody) hknown)

/-- The consequences of the rules are what they derive. -/
theorem mem_consequences : a ∈ consequences rules ↔ Derives rules a := by
  constructor
  · exact derives_of_mem_rounds (fun _ hb => (List.not_mem_nil hb).elim) a
  · intro h
    induction h with
    | intro rule hrule _ ih =>
        exact rounds_closed .nil (List.nil_subset _) (Nat.le_refl _) rule hrule ih

end LanguageTheory.Rule
