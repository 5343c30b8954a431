import LanguageTheory.Symbol

/-! Parsers as machines that take one step at a time. -/

namespace LanguageTheory

/-- What a step of a parser comes to. -/
inductive ParseStep (σ : Type u)
  | verdict (accepted : Bool)
  | next (state : σ)
deriving DecidableEq

namespace ParseStep

/-- The verdict reached within `limit` steps, if there is one. -/
def run {σ : Type u} (step : σ → ParseStep σ) : Nat → σ → Option Bool
  | 0, _ => none
  | limit + 1, s =>
      match step s with
      | verdict accepted => some accepted
      | next s => run step limit s

theorem run_succ {σ : Type u} (step : σ → ParseStep σ) (limit : Nat) (s : σ) {accepted : Bool}
    (h : run step limit s = some accepted) : run step (limit + 1) s = some accepted := by
  induction limit generalizing s with
  | zero => simp [run] at h
  | succ limit ih =>
      rw [run] at h ⊢
      split at h
      · exact h
      · exact ih _ h

theorem run_mono {σ : Type u} {step : σ → ParseStep σ} {limit limit' : Nat} {s : σ} {accepted : Bool}
    (h : run step limit s = some accepted) (hle : limit ≤ limit') : run step limit' s = some accepted := by
  induction hle with
  | refl => exact h
  | step _ ih => exact run_succ _ _ _ ih

/-- There is at most one verdict. -/
theorem run_unique {σ : Type u} {step : σ → ParseStep σ} {n m : Nat} {s : σ} {accepted accepted' : Bool}
    (h : run step n s = some accepted) (h' : run step m s = some accepted') : accepted = accepted' := by
  have hmax := run_mono h (Nat.le_max_left n m)
  rw [run_mono h' (Nat.le_max_right n m)] at hmax
  exact (Option.some.inj hmax).symm

/-- Where a verdict is reached, what every step keeps still holds. -/
theorem exists_verdict_of_run {σ : Type u} {step : σ → ParseStep σ} {I : σ → Prop} {n : Nat} {s : σ}
    {accepted : Bool} (hnext : ∀ s s', I s → step s = .next s' → I s') (hs : I s)
    (h : run step n s = some accepted) : ∃ s', I s' ∧ step s' = .verdict accepted := by
  induction n generalizing s with
  | zero => cases h
  | succ n ih =>
      rw [run] at h
      split at h
      next hstep =>
        cases h
        exact ⟨s, hs, hstep⟩
      next s' hstep => exact ih (hnext s s' hs hstep) h

theorem run_succ_of_next {σ : Type u} {step : σ → ParseStep σ} {n : Nat} {s s' : σ}
    (h : step s = .next s') : run step (n + 1) s = run step n s' := by
  rw [run, h]

/-- Where a verdict is reached, steps do not go on forever. -/
theorem acc_of_run {σ : Type u} {step : σ → ParseStep σ} {n : Nat} {s : σ} {accepted : Bool}
    (h : run step n s = some accepted) : Acc (fun s' s => step s = .next s') s := by
  induction n generalizing s with
  | zero => cases h
  | succ n ih =>
      refine .intro _ fun s' hstep => ?_
      rw [run_succ_of_next hstep] at h
      exact ih h

end ParseStep

end LanguageTheory
