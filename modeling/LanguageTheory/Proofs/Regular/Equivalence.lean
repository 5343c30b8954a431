import LanguageTheory.Proofs.Regular.Dfa
import LanguageTheory.Regular.Equivalence
import Mathlib.Data.Finset.Prod

/-! Comparison by pairing states. The pairs that are found are those that a word leads to through live
states of both automata. If all of them agree on acceptance and on the symbols that lead on, the start
states have the same residual. If the start states have the same residual, so have the states of every
pair, and in automata that have no two states with one residual no state can then have two partners. -/

namespace LanguageTheory.Dfa

variable {a b : Dfa} {s t p q p' q' : StateId} {c : SymbolId}

/-- The pairs of states that a walk through live states of both automata can meet. -/
inductive Paired (a b : Dfa) (s t : StateId) : StateId → StateId → Prop
  | start : Paired a b s t s t
  | move {p q p' q' : StateId} {c : SymbolId} : Paired a b s t p q →
      a.move? p c = some p' → a.Live p' → b.move? q c = some q' → b.Live q' → Paired a b s t p' q'

/-- The states of a pair agree on acceptance and on the symbols that lead to live states. -/
structure Agreeing (a b : Dfa) (p q : StateId) : Prop where
  final_iff : p ∈ a.finals ↔ q ∈ b.finals
  move_iff : ∀ c, (∃ p', a.move? p c = some p' ∧ a.Live p') ↔ ∃ q', b.move? q c = some q' ∧ b.Live q'

theorem Tabulated.liveMove?_eq_some_iff (ha : a.Tabulated) :
    a.liveMove? a.live p c = some p' ↔ a.move? p c = some p' ∧ a.Live p' := by
  rw [liveMove?, Option.filter_eq_some_iff, decide_eq_true_eq, ha.mem_live]

theorem Tabulated.isSome_liveMove?_iff (ha : a.Tabulated) :
    (a.liveMove? a.live p c).isSome = true ↔ ∃ p', a.move? p c = some p' ∧ a.Live p' := by
  rw [Option.isSome_iff_exists]
  simp only [ha.liveMove?_eq_some_iff]

theorem Tabulated.liveStart_eq_none_iff (ha : a.Tabulated) :
    (a.start.filter fun s => decide (s ∈ a.live)) = none ↔ ∀ s, a.start = some s → ¬a.Live s := by
  simp [Option.filter_eq_none_iff, ha.mem_live]

theorem Tabulated.liveStart_eq_some_iff (ha : a.Tabulated) :
    (a.start.filter fun s => decide (s ∈ a.live)) = some s ↔ a.start = some s ∧ a.Live s := by
  rw [Option.filter_eq_some_iff, decide_eq_true_eq, ha.mem_live]

section Walk

variable (ha : a.Tabulated) (hb : b.Tabulated)

include ha hb

theorem mem_pairSuccessors_iff :
    (p', q') ∈ pairSuccessors a b a.live b.live (a.alphabet ∪ b.alphabet).toList (p, q) ↔
    ∃ c, (a.move? p c = some p' ∧ a.Live p') ∧ b.move? q c = some q' ∧ b.Live q' := by
  simp only [pairSuccessors, List.mem_filterMap, Option.bind_eq_bind, Option.bind_eq_some_iff,
    Option.pure_def, Option.some.injEq, Prod.mk.injEq, ha.liveMove?_eq_some_iff, hb.liveMove?_eq_some_iff]
  constructor
  · rintro ⟨c, _, _, hp, _, hq, rfl, rfl⟩
    exact ⟨c, hp, hq⟩
  · rintro ⟨c, hp, hq⟩
    have hc : c ∈ a.alphabet ∪ b.alphabet := Ascending.mem_union.2 (Or.inl (ha.symbol_mem_of_move? hp.1))
    exact ⟨c, hc, p', hp, q', hq, rfl, rfl⟩

theorem reaches_pairSuccessors_iff :
    Reaches (pairSuccessors a b a.live b.live (a.alphabet ∪ b.alphabet).toList) (s, t) (p, q) ↔
      Paired a b s t p q := by
  constructor
  · intro h
    have hpaired : ∀ pair, Reaches (pairSuccessors a b a.live b.live (a.alphabet ∪ b.alphabet).toList)
        (s, t) pair → Paired a b s t pair.1 pair.2 := by
      intro pair hpair
      refine hpair.invariant (p := fun pair => Paired a b s t pair.1 pair.2) ?_ .start
      rintro ⟨p, q⟩ hpq ⟨p', q'⟩ hnext
      obtain ⟨c, ⟨hp, hlive⟩, hq, hlive'⟩ := (mem_pairSuccessors_iff ha hb).1 hnext
      exact hpq.move hp hlive hq hlive'
    exact hpaired _ h
  · intro h
    induction h with
    | start => exact .refl
    | move _ hp hlive hq hlive' ih =>
        exact ih.step ((mem_pairSuccessors_iff ha hb).2 ⟨_, ⟨hp, hlive⟩, hq, hlive'⟩)

/-- Besides the start states only targets of moves are paired, so the bound of the walk is large
enough. -/
theorem mem_pairs_iff :
    (p, q) ∈ explore (pairSuccessors a b a.live b.live (a.alphabet ∪ b.alphabet).toList)
      ((a.moves.length + 1) * (b.moves.length + 1)) [(s, t)] ↔ Paired a b s t p q := by
  have hcard : ∀ (d : Dfa) (r : StateId),
      (r :: d.moves.map (·.target)).toFinset.card ≤ d.moves.length + 1 := by
    intro d r
    refine (List.toFinset_card_le _).trans ?_
    simp
  have htarget : ∀ {d : Dfa} {r u v : StateId} {c : SymbolId}, d.move? u c = some v →
      v ∈ (r :: d.moves.map (·.target)).toFinset := by
    intro d r u v c h
    rw [List.mem_toFinset]
    exact List.mem_cons_of_mem r (List.mem_map.2 ⟨_, mem_moves_of_move? h, rfl⟩)
  have hstarts : ∀ pair ∈ [(s, t)], pair ∈
      (s :: a.moves.map (·.target)).toFinset ×ˢ (t :: b.moves.map (·.target)).toFinset := by simp
  rw [mem_explore_iff hstarts]
  · simp [reaches_pairSuccessors_iff ha hb]
  · rintro ⟨p, q⟩ _ ⟨p', q'⟩ hnext
    obtain ⟨c, ⟨hp, _⟩, hq, _⟩ := (mem_pairSuccessors_iff ha hb).1 hnext
    exact Finset.mem_product.2 ⟨htarget hp, htarget hq⟩
  · rw [Finset.card_product]
    exact Nat.mul_le_mul (hcard a s) (hcard b t)

theorem pairAgrees_iff :
    pairAgrees a b a.live b.live (a.alphabet ∪ b.alphabet).toList (p, q) = true ↔ Agreeing a b p q := by
  have hmove : ∀ c, ((a.liveMove? a.live p c).isSome = (b.liveMove? b.live q c).isSome) ↔
      ((∃ p', a.move? p c = some p' ∧ a.Live p') ↔ ∃ q', b.move? q c = some q' ∧ b.Live q') := by
    intro c
    rw [Bool.eq_iff_iff, ha.isSome_liveMove?_iff, hb.isSome_liveMove?_iff]
  have hfinal : (a.isFinal p = b.isFinal q) ↔ (p ∈ a.finals ↔ q ∈ b.finals) := by
    rw [Bool.eq_iff_iff, isFinal_iff, isFinal_iff]
  simp only [pairAgrees, Bool.and_eq_true, beq_iff_eq, List.all_eq_true, hfinal, hmove]
  constructor
  · rintro ⟨hfinal, hmove⟩
    refine ⟨hfinal, fun c => ?_⟩
    by_cases hc : c ∈ a.alphabet ∪ b.alphabet
    · exact hmove c hc
    · rw [Ascending.mem_union, not_or] at hc
      refine iff_of_false ?_ ?_
      · rintro ⟨p', hp', _⟩
        exact hc.1 (ha.symbol_mem_of_move? hp')
      · rintro ⟨q', hq', _⟩
        exact hc.2 (hb.symbol_mem_of_move? hq')
  · intro h
    exact ⟨h.final_iff, fun c _ => h.move_iff c⟩

/-- The comparison succeeds if neither automaton accepts anything, or if all pairs agree and form a
one-to-one correspondence. -/
theorem equivalent_eq_true_iff : a.equivalent b = true ↔
    ((∀ s, a.start = some s → ¬a.Live s) ∧ ∀ t, b.start = some t → ¬b.Live t) ∨
    ∃ s t, (a.start = some s ∧ a.Live s) ∧ (b.start = some t ∧ b.Live t) ∧
      (∀ p q, Paired a b s t p q → Agreeing a b p q) ∧
      ∀ p q p' q', Paired a b s t p q → Paired a b s t p' q' → (p = p' ↔ q = q') := by
  rw [equivalent]
  cases hstart : a.start.filter fun s => decide (s ∈ a.live) with
  | none =>
      cases hstart' : b.start.filter fun t => decide (t ∈ b.live) with
      | none => simpa using Or.inl ⟨ha.liveStart_eq_none_iff.1 hstart, hb.liveStart_eq_none_iff.1 hstart'⟩
      | some t =>
          have ht := hb.liveStart_eq_some_iff.1 hstart'
          simp only [Bool.false_eq_true, false_iff, not_or, not_and, not_exists]
          refine ⟨fun _ h => h t ht.1 ht.2, fun s _ hs => (ha.liveStart_eq_none_iff.1 hstart s hs.1 hs.2).elim⟩
  | some s =>
      have hs := ha.liveStart_eq_some_iff.1 hstart
      cases hstart' : b.start.filter fun t => decide (t ∈ b.live) with
      | none =>
          simp only [Bool.false_eq_true, false_iff, not_or, not_and, not_exists]
          exact ⟨fun h _ => h s hs.1 hs.2, fun _ t _ ht => (hb.liveStart_eq_none_iff.1 hstart' t ht.1 ht.2).elim⟩
      | some t =>
          have ht := hb.liveStart_eq_some_iff.1 hstart'
          simp only [oneToOne, Bool.and_eq_true, List.all_eq_true, Prod.forall, mem_pairs_iff ha hb,
            pairAgrees_iff ha hb, beq_iff_eq]
          constructor
          · rintro ⟨hagree, hone⟩
            refine Or.inr ⟨s, t, hs, ht, hagree, fun p q p' q' h h' => ?_⟩
            simpa using hone p q h p' q' h'
          · rintro (⟨h, _⟩ | ⟨s', t', hs', ht', hagree, hone⟩)
            · exact (h s hs.1 hs.2).elim
            · obtain rfl := Option.some.inj (hs.1.symm.trans hs'.1)
              obtain rfl := Option.some.inj (ht.1.symm.trans ht'.1)
              refine ⟨hagree, fun p q h p' q' h' => ?_⟩
              simpa using hone p q p' q' h h'

end Walk

/-! ### Pairs and residuals -/

/-- If all pairs agree, the states of each pair have the same residual. -/
theorem residual_eq_of_agreeing (h : ∀ p q, Paired a b s t p q → Agreeing a b p q)
    (hpq : Paired a b s t p q) : a.residual p = b.residual q := by
  ext w
  induction w generalizing p q with
  | nil => rw [nil_mem_residual, nil_mem_residual, (h p q hpq).final_iff]
  | cons c w ih =>
      rw [cons_mem_residual, cons_mem_residual]
      constructor
      · rintro ⟨p', hp', hw⟩
        obtain ⟨q', hq', hlive⟩ := ((h p q hpq).move_iff c).1 ⟨p', hp', w, hw⟩
        exact ⟨q', hq', (ih (hpq.move hp' ⟨w, hw⟩ hq' hlive)).1 hw⟩
      · rintro ⟨q', hq', hw⟩
        obtain ⟨p', hp', hlive⟩ := ((h p q hpq).move_iff c).2 ⟨q', hq', w, hw⟩
        exact ⟨p', hp', (ih (hpq.move hp' hlive hq' ⟨w, hw⟩)).2 hw⟩

theorem Paired.residual_eq (hpq : Paired a b s t p q) (h : a.residual s = b.residual t) :
    a.residual p = b.residual q := by
  induction hpq with
  | start => exact h
  | move _ hp _ hq _ ih => rw [residual_of_move? hp, residual_of_move? hq, ih]

theorem agreeing_of_residual_eq (h : a.residual p = b.residual q) : Agreeing a b p q where
  final_iff := by rw [← nil_mem_residual, ← nil_mem_residual, h]
  move_iff := by
    intro c
    rw [exists_live_move_iff, exists_live_move_iff, h]

theorem Paired.lt_size (ha : a.WellFormed) (hb : b.WellFormed) (hs : s < a.size) (ht : t < b.size)
    (hpq : Paired a b s t p q) : p < a.size ∧ q < b.size := by
  induction hpq with
  | start => exact ⟨hs, ht⟩
  | move _ hp _ hq _ _ => exact ⟨(ha.lt_of_move? hp).2, (hb.lt_of_move? hq).2⟩

/-- Two automata none of which has two states with one residual are found equivalent exactly if their
start states have the same residual. -/
theorem equivalent_iff_residual_eq (ha : a.WellFormed) (hb : b.WellFormed)
    (hinj : ∀ p < a.size, ∀ q < a.size, a.residual p = a.residual q → p = q)
    (hinj' : ∀ p < b.size, ∀ q < b.size, b.residual p = b.residual q → p = q)
    (hs : a.start = some s) (ht : b.start = some t) :
    a.equivalent b = true ↔ a.residual s = b.residual t := by
  rw [equivalent_eq_true_iff ha.tabulated hb.tabulated]
  constructor
  · rintro (⟨hdead, hdead'⟩ | ⟨s', t', ⟨hs', _⟩, ⟨ht', _⟩, hagree, _⟩)
    · have hempty := hdead s hs
      have hempty' := hdead' t ht
      rw [live_iff_ne, not_not] at hempty hempty'
      rw [hempty, hempty']
    · obtain rfl := Option.some.inj (hs.symm.trans hs')
      obtain rfl := Option.some.inj (ht.symm.trans ht')
      exact residual_eq_of_agreeing hagree .start
  · intro h
    by_cases hlive : a.Live s
    · have hlive' : b.Live t := by rwa [Live, ← h]
      refine Or.inr ⟨s, t, ⟨hs, hlive⟩, ⟨ht, hlive'⟩, ?_, ?_⟩
      · intro p q hpq
        exact agreeing_of_residual_eq (hpq.residual_eq h)
      · intro p q p' q' hpq hpq'
        obtain ⟨hp, hq⟩ := hpq.lt_size ha hb (ha.start_lt s hs) (hb.start_lt t ht)
        obtain ⟨hp', hq'⟩ := hpq'.lt_size ha hb (ha.start_lt s hs) (hb.start_lt t ht)
        have hres := hpq.residual_eq h
        have hres' := hpq'.residual_eq h
        constructor
        · rintro rfl
          exact hinj' q hq q' hq' (hres.symm.trans hres')
        · rintro rfl
          exact hinj p hp p' hp' (hres.trans hres'.symm)
    · have hdead' : ¬b.Live t := by rwa [Live, ← h]
      refine Or.inl ⟨fun s' hs' => ?_, fun t' ht' => ?_⟩
      · rwa [← Option.some.inj (hs.symm.trans hs')]
      · rwa [← Option.some.inj (ht.symm.trans ht')]

end LanguageTheory.Dfa
