import LanguageTheory.Proofs.Grammar.Predictive
import LanguageTheory.Proofs.Grammar.ShiftReduce
import Mathlib.Data.List.TakeWhile

/-! Predictive and shift-reduce parsing of one grammar. Predictive parsing accepts an input if it is
derived. Shift-reduce parsing accepts at the first end marker that the input holds, so it accepts if what
stands before that marker is derived, whatever comes after it. No derived word holds an end marker, so the
two verdicts differ exactly on a derived word with an end marker and anything else behind it. -/

namespace LanguageTheory

variable {a : AugmentedGrammar} {g : Grammar} {n m : Nat} {accepted : Bool} {states : List Nat}
  {u v w x rest : Word}

/-! ### End markers in the input -/

theorem Grammar.Derives.endMarker_not_mem (h : g.Derives u v) (hu : endMarker ∉ u) : endMarker ∉ v := by
  induction h with
  | refl => exact hu
  | step _ hstep ih =>
      obtain ⟨before, after, p, _⟩ := hstep
      have hright : endMarker ∉ p.right := fun hmem =>
        absurd (List.all_eq_true.1 p.right_isGrammarSymbol _ hmem) (by decide)
      simp only [List.mem_append, List.mem_cons, not_or] at ih ⊢
      exact ⟨⟨ih.1, hright⟩, ih.2.2⟩

theorem Grammar.Generates.endMarker_not_mem (h : g.Generates w) : endMarker ∉ w := by
  refine h.2.endMarker_not_mem fun hmem => ?_
  have hstart := g.start_isVariable
  rw [← List.mem_singleton.1 hmem] at hstart
  cases hstart

/-- What stands before the first end marker. -/
def Word.beforeMarker (w : Word) : Word := w.takeWhile (· ≠ endMarker)

theorem Word.beforeMarker_eq_self (h : endMarker ∉ w) : w.beforeMarker = w := by
  rw [beforeMarker, List.takeWhile_eq_self_iff]
  intro c hc
  exact decide_eq_true fun heq => h (heq ▸ hc)

theorem Word.beforeMarker_append (h : endMarker ∉ x) : Word.beforeMarker (x ++ endMarker :: rest) = x := by
  rw [beforeMarker, List.takeWhile_append_of_pos, List.takeWhile_cons_of_neg (by simp), List.append_nil]
  intro c hc
  exact decide_eq_true fun heq => h (heq ▸ hc)

theorem Word.beforeMarker_append_endMarker (w : Word) :
    Word.beforeMarker (w ++ [endMarker]) = w.beforeMarker := by
  by_cases h : endMarker ∈ w
  · obtain ⟨x, rest, rfl, hx⟩ := List.eq_append_cons_of_mem h
    rw [List.append_assoc, List.cons_append, beforeMarker_append hx, beforeMarker_append hx]
  · rw [beforeMarker_append h, beforeMarker_eq_self h]

/-- The first end marker comes after what stands before it. -/
theorem Word.exists_append_beforeMarker (w : Word) :
    ∃ rest, w ++ [endMarker] = w.beforeMarker ++ [endMarker] ++ rest := by
  by_cases h : endMarker ∈ w
  · obtain ⟨x, rest, rfl, hx⟩ := List.eq_append_cons_of_mem h
    refine ⟨rest ++ [endMarker], ?_⟩
    rw [beforeMarker_append hx, List.append_assoc, List.append_assoc]
    rfl
  · exact ⟨[], by rw [beforeMarker_eq_self h, List.append_nil]⟩

/-! ### The two verdicts -/

/-- Predictive parsing without conflicts accepts the derived words and no others. -/
theorem PredictiveTable.verdict_iff (h : (build g).firstConflict? = none)
    (hrun : ParseStep.run (build g).step n ((build g).start w) = some accepted) :
    accepted = true ↔ g.Generates w := by
  constructor
  · rintro rfl
    exact generates_of_run hrun
  · intro hw
    obtain ⟨m, hm⟩ := exists_run_of_generates h hw
    exact ParseStep.run_unique hrun hm

/-- A parse that accepts does not look at what comes after. -/
theorem ShiftReduceTable.run_append {table : ShiftReduceTable}
    (h : ParseStep.run table.step n ⟨states, x⟩ = some true) (more : Word) :
    ParseStep.run table.step n ⟨states, x ++ more⟩ = some true := by
  induction n generalizing states x with
  | zero => cases h
  | succ n ih =>
      cases x with
      | nil =>
          rw [ParseStep.run, step_nil] at h
          cases h
      | cons c rest =>
          rw [ParseStep.run, step_cons] at h
          rw [ParseStep.run, List.cons_append, step_cons]
          cases hturn : table.turn states c with
          | shift states' =>
              rw [hturn] at h
              exact ih h
          | reduce states' =>
              rw [hturn] at h
              exact ih (x := c :: rest) h
          | verdict accepted =>
              rw [hturn] at h
              exact h

/-- Shift-reduce parsing without conflicts accepts if what stands before the first end marker is derived. -/
theorem ShiftReduceTable.verdict_iff (h : a.Augments g) (hconflict : a.table.firstConflict? = none)
    (hrun : ParseStep.run a.table.step n (start w) = some accepted) :
    accepted = true ↔ g.Generates w.beforeMarker := by
  constructor
  · rintro rfl
    obtain ⟨x, rest, hrest, hx⟩ := exists_generates_of_run h hrun
    rwa [← w.beforeMarker_append_endMarker, ← hrest, Word.beforeMarker_append hx.endMarker_not_mem]
  · intro hw
    obtain ⟨k, _, hk⟩ := exists_run_of_generates h hconflict hw
    obtain ⟨rest, hrest⟩ := w.exists_append_beforeMarker
    have hmore := run_append hk rest
    rw [← hrest] at hmore
    exact ParseStep.run_unique hrun hmore

/-- Without conflicts, predictive parsing accepts the derived words, shift-reduce parsing accepts if what
stands before the first end marker is derived, and so the two agree exactly if the input holds no end
marker or what stands before the first one is not derived. -/
theorem Grammar.verdicts_agree_iff (g : Grammar) (t : PredictiveTable) (table : ShiftReduceTable)
    (ht : g.predictiveTable = .ok t) (htable : g.shiftReduceTable = .ok table) (input : Word) (n m : Nat)
    (predicted reduced : Bool) (hpredicted : ParseStep.run t.step n (t.start input) = some predicted)
    (hreduced : ParseStep.run table.step m (ShiftReduceTable.start input) = some reduced) :
    (predicted = true ↔ g.Generates input) ∧ (reduced = true ↔ g.Generates input.beforeMarker) ∧
      (predicted = reduced ↔ endMarker ∉ input ∨ ¬g.Generates input.beforeMarker) := by
  obtain ⟨rfl, hpredictive⟩ := PredictiveTable.eq_build_of_predictiveTable ht
  obtain ⟨a, h, rfl, hconflict⟩ := ShiftReduceTable.eq_table_of_shiftReduceTable htable
  have hfirst := PredictiveTable.verdict_iff hpredictive hpredicted
  have hsecond := ShiftReduceTable.verdict_iff h hconflict hreduced
  refine ⟨hfirst, hsecond, ?_⟩
  rw [Bool.eq_iff_iff, hfirst, hsecond]
  constructor
  · intro hiff
    by_cases hw : g.Generates input.beforeMarker
    · exact Or.inl (hiff.2 hw).endMarker_not_mem
    · exact Or.inr hw
  · rintro (hmarker | hw)
    · rw [Word.beforeMarker_eq_self hmarker]
    · refine iff_of_false (fun hinput => hw ?_) hw
      rwa [Word.beforeMarker_eq_self hinput.endMarker_not_mem]

/-- Behind the derived word `ab` stands an end marker. -/
theorem Grammar.verdicts_agree_iff_nested : ∃ t table, ShiftReduceTable.nested.predictiveTable = .ok t ∧
    ShiftReduceTable.nested.shiftReduceTable = .ok table ∧
    ParseStep.run t.step 8 (t.start ['a', 'b', '$']) = some false ∧
    ParseStep.run table.step 8 (ShiftReduceTable.start ['a', 'b', '$']) = some true ∧
    (false = true ↔ ShiftReduceTable.nested.Generates ['a', 'b', '$']) ∧
    (true = true ↔ ShiftReduceTable.nested.Generates (Word.beforeMarker ['a', 'b', '$'])) ∧
    (false = true ↔
      endMarker ∉ ['a', 'b', '$'] ∨ ¬ShiftReduceTable.nested.Generates (Word.beforeMarker ['a', 'b', '$'])) := by
  have hpredictive : (ShiftReduceTable.nested.predictiveTable.toOption.any fun t =>
      ParseStep.run t.step 8 (t.start ['a', 'b', '$']) = some false) = true := by decide +kernel
  have hreduced : (ShiftReduceTable.nested.shiftReduceTable.toOption.any fun table =>
      ParseStep.run table.step 8 (ShiftReduceTable.start ['a', 'b', '$']) = some true) = true := by decide +kernel
  obtain ⟨t, ht, hn⟩ := exists_ok_of_any hpredictive
  obtain ⟨table, htable, hm⟩ := exists_ok_of_any hreduced
  have hn := of_decide_eq_true hn
  have hm := of_decide_eq_true hm
  exact ⟨t, table, ht, htable, hn, hm,
    verdicts_agree_iff ShiftReduceTable.nested t table ht htable ['a', 'b', '$'] 8 8 false true hn hm⟩

/-- The letter `a` and nothing else. -/
def Grammar.single : Grammar where
  start := 'S'
  productions := [⟨'S', ['a'], Eq.refl true, Eq.refl true⟩]
  start_isVariable := Eq.refl true
  nodup := by decide

/-- Predictive parsing rejects the input `a$`, and shift-reduce parsing accepts it. -/
theorem Grammar.verdicts_differ : ∃ t table, single.predictiveTable = .ok t ∧ single.shiftReduceTable = .ok table ∧
    (∃ n, ParseStep.run t.step n (t.start ['a', '$']) = some false) ∧
    ∃ m, ParseStep.run table.step m (ShiftReduceTable.start ['a', '$']) = some true := by
  have hpredictive : (single.predictiveTable.toOption.any fun t =>
      ParseStep.run t.step 4 (t.start ['a', '$']) = some false) = true := by decide +kernel
  have hreduced : (single.shiftReduceTable.toOption.any fun table =>
      ParseStep.run table.step 3 (ShiftReduceTable.start ['a', '$']) = some true) = true := by decide +kernel
  obtain ⟨t, ht, hn⟩ := exists_ok_of_any hpredictive
  obtain ⟨table, htable, hm⟩ := exists_ok_of_any hreduced
  exact ⟨t, table, ht, htable, ⟨4, of_decide_eq_true hn⟩, 3, of_decide_eq_true hm⟩

end LanguageTheory
