import LanguageTheory.Proofs.Regular.DfaEdits
import LanguageTheory.Proofs.Regular.Equivalence
import Mathlib.Data.Set.Function

/-! What comparing two automata decides, be they minimal or not. A walk from the two start states that never
disagrees and gives no state two partners has met every live state that words lead to, on both sides, and then
the partners are a renaming of the live part of one automaton into that of the other. With such a renaming the
walk meets nothing but states and their names. -/

namespace LanguageTheory.Dfa

variable {a b : Dfa} {s t p q p' q' : StateId} {c : SymbolId} {f : StateId → StateId} {w : List SymbolId}

/-- Some word is accepted from the start state. -/
def StartsLive (d : Dfa) : Prop := ∃ s, d.start = some s ∧ d.Live s

/-- The live states that words lead to. -/
def liveStates (d : Dfa) : Set StateId := {s | d.Reachable s ∧ d.Live s}

/-- The function renames the live states of one automaton into those of the other. Moves that lead to other
states do not count, whatever symbols they are on. -/
structure Correspondence (a b : Dfa) (f : StateId → StateId) : Prop where
  bijOn : Set.BijOn f a.liveStates b.liveStates
  start : ∀ s t, a.start = some s → b.start = some t → f s = t
  final_iff : ∀ p ∈ a.liveStates, (p ∈ a.finals ↔ f p ∈ b.finals)
  move_iff : ∀ p ∈ a.liveStates, ∀ p' ∈ a.liveStates, ∀ c ∈ a.alphabet ∪ b.alphabet,
    (a.move? p c = some p' ↔ b.move? (f p) c = some (f p'))

theorem Live.of_move? (hp : a.move? p c = some p') (h : a.Live p') : a.Live p := by
  obtain ⟨w, hw⟩ := h
  exact ⟨c :: w, cons_mem_residual.2 ⟨p', hp, hw⟩⟩

theorem mem_liveStates_of_start (hs : a.start = some s) (h : a.Live s) : s ∈ a.liveStates :=
  ⟨reachable_start hs, h⟩

theorem mem_liveStates_of_move? (hp : p ∈ a.liveStates) (hmove : a.move? p c = some p') (h : a.Live p') :
    p' ∈ a.liveStates :=
  ⟨hp.1.move hmove, h⟩

/-! ### Partners -/

theorem Paired.symm (h : Paired a b s t p q) : Paired b a t s q p := by
  induction h with
  | start => exact .start
  | move _ hp hlive hq hlive' ih => exact ih.move hq hlive' hp hlive

theorem Agreeing.symm (h : Agreeing a b p q) : Agreeing b a q p where
  final_iff := h.final_iff.symm
  move_iff := fun c => (h.move_iff c).symm

theorem Paired.mem_liveStates (hs : s ∈ a.liveStates) (h : Paired a b s t p q) : p ∈ a.liveStates := by
  induction h with
  | start => exact hs
  | move _ hp hlive _ _ ih => exact mem_liveStates_of_move? ih hp hlive

/-- Where all pairs agree, the walk follows every word that leads to a live state: the states on the way are
live as well. -/
theorem exists_paired (hagree : ∀ p q, Paired a b s t p q → Agreeing a b p q) (hs : a.start = some s)
    (hp : p ∈ a.liveStates) : ∃ q, Paired a b s t p q := by
  obtain ⟨⟨s', w, hs', hw⟩, hlive⟩ := hp
  obtain rfl := Option.some.inj (hs.symm.trans hs')
  induction w using List.reverseRecOn generalizing p with
  | nil =>
      obtain rfl := Option.some.inj hw
      exact ⟨t, .start⟩
  | append_singleton w c ih =>
      rw [follow_snoc, Option.bind_eq_some_iff] at hw
      obtain ⟨r, hr, hmove⟩ := hw
      obtain ⟨q, hq⟩ := ih (hlive.of_move? hmove) hr
      obtain ⟨q', hq', hlive'⟩ := ((hagree r q hq).move_iff c).1 ⟨p, hmove, hlive⟩
      exact ⟨q', hq.move hmove hlive hq' hlive'⟩

/-- A walk that succeeds ends with a renaming of the live states. -/
theorem exists_correspondence (hs : a.start = some s ∧ a.Live s) (ht : b.start = some t ∧ b.Live t)
    (hagree : ∀ p q, Paired a b s t p q → Agreeing a b p q)
    (hone : ∀ p q p' q', Paired a b s t p q → Paired a b s t p' q' → (p = p' ↔ q = q')) :
    ∃ f, Correspondence a b f := by
  have hagree' : ∀ q p, Paired b a t s q p → Agreeing b a q p := fun q p h => (hagree p q h.symm).symm
  have hmem : ∀ p q, Paired a b s t p q → p ∈ a.liveStates ∧ q ∈ b.liveStates := by
    intro p q h
    exact ⟨h.mem_liveStates (mem_liveStates_of_start hs.1 hs.2),
      h.symm.mem_liveStates (mem_liveStates_of_start ht.1 ht.2)⟩
  -- the function that the pairs make up; off the live states it does not matter
  let f (p : StateId) : StateId := Classical.epsilon fun q => Paired a b s t p q
  have hf : ∀ p ∈ a.liveStates, Paired a b s t p (f p) := fun p hp =>
    Classical.epsilon_spec (exists_paired hagree hs.1 hp)
  have heq : ∀ p q, Paired a b s t p q → f p = q := fun p q h =>
    (hone p (f p) p q (hf p (hmem p q h).1) h).1 rfl
  refine ⟨f, ⟨?_, ?_, ?_⟩, ?_, ?_, ?_⟩
  · intro p hp
    exact (hmem p (f p) (hf p hp)).2
  · intro p hp p' hp' hpp'
    exact (hone p (f p) p' (f p') (hf p hp) (hf p' hp')).2 hpp'
  · intro q hq
    obtain ⟨p, hp⟩ := exists_paired hagree' ht.1 hq
    exact ⟨p, (hmem p q hp.symm).1, heq p q hp.symm⟩
  · intro s' t' hs' ht'
    obtain rfl := Option.some.inj (hs.1.symm.trans hs')
    obtain rfl := Option.some.inj (ht.1.symm.trans ht')
    exact heq s t .start
  · intro p hp
    exact (hagree p (f p) (hf p hp)).final_iff
  · intro p hp p' hp' c _
    have hpair := hf p hp
    have hpair' := hf p' hp'
    constructor
    · intro hmove
      obtain ⟨q', hq', hlive⟩ := ((hagree p (f p) hpair).move_iff c).1 ⟨p', hmove, hp'.2⟩
      rw [heq p' q' (hpair.move hmove hp'.2 hq' hlive)]
      exact hq'
    · intro hmove
      have hlive := (hmem p' (f p') hpair').2.2
      obtain ⟨r, hr, hrlive⟩ := ((hagree p (f p) hpair).move_iff c).2 ⟨f p', hmove, hlive⟩
      rw [(hone r (f p') p' (f p') (hpair.move hr hrlive hmove hlive) hpair').2 rfl] at hr
      exact hr

/-! ### Renamings -/

section Renaming

variable (ha : a.Tabulated) (hb : b.Tabulated) (hf : Correspondence a b f)

include ha hf

theorem Correspondence.eq_of_move? (hp : p ∈ a.liveStates) (hp' : p' ∈ a.liveStates)
    (hmove : a.move? p c = some p') : b.move? (f p) c = some (f p') :=
  (hf.move_iff p hp p' hp' c (Ascending.mem_union.2 (Or.inl (ha.symbol_mem_of_move? hmove)))).1 hmove

/-- A walk meets each state with its name only. -/
theorem Correspondence.eq_of_paired (hs : a.start = some s) (hslive : a.Live s) (ht : b.start = some t)
    (h : Paired a b s t p q) : f p = q := by
  induction h with
  | start => exact hf.start s t hs ht
  | @move p q p' q' c hpair hp hlive hq _ ih =>
      have hmem := hpair.mem_liveStates (mem_liveStates_of_start hs hslive)
      have hmove := hf.eq_of_move? ha hmem (mem_liveStates_of_move? hmem hp hlive) hp
      rw [ih, hq] at hmove
      exact (Option.some.inj hmove).symm

include hb

theorem Correspondence.agreeing (hp : p ∈ a.liveStates) : Agreeing a b p (f p) where
  final_iff := hf.final_iff p hp
  move_iff := by
    intro c
    constructor
    · intro ⟨p', hmove, hlive⟩
      have hp' := mem_liveStates_of_move? hp hmove hlive
      exact ⟨f p', hf.eq_of_move? ha hp hp' hmove, (hf.bijOn.mapsTo hp').2⟩
    · intro ⟨q', hmove, hlive⟩
      have hq' := mem_liveStates_of_move? (hf.bijOn.mapsTo hp) hmove hlive
      obtain ⟨p', hp', rfl⟩ := hf.bijOn.surjOn hq'
      have hc : c ∈ a.alphabet ∪ b.alphabet := Ascending.mem_union.2 (Or.inr (hb.symbol_mem_of_move? hmove))
      exact ⟨p', (hf.move_iff p hp p' hp' c hc).2 hmove, hp'.2⟩

end Renaming

/-! ### What is decided -/

theorem accepts_iff {d : Dfa} : d.accepts w = true ↔ ∃ s, d.start = some s ∧ w ∈ d.residual s := by
  rw [accepts, Option.any_eq_true]
  rfl

section Comparison

variable (ha : a.Tabulated) (hb : b.Tabulated)

include ha hb

theorem equivalent_iff_correspondence : a.equivalent b = true ↔
    (¬a.StartsLive ∧ ¬b.StartsLive) ∨ (a.StartsLive ∧ b.StartsLive ∧ ∃ f, Correspondence a b f) := by
  rw [equivalent_eq_true_iff ha hb]
  apply or_congr
  · simp only [StartsLive, not_exists, not_and]
  · constructor
    · intro ⟨s, t, hs, ht, hagree, hone⟩
      exact ⟨⟨s, hs⟩, ⟨t, ht⟩, exists_correspondence hs ht hagree hone⟩
    · intro ⟨⟨s, hs, hslive⟩, ⟨t, ht, htlive⟩, f, hf⟩
      have hname : ∀ p q, Paired a b s t p q → p ∈ a.liveStates ∧ f p = q := fun p q h =>
        ⟨h.mem_liveStates (mem_liveStates_of_start hs hslive), hf.eq_of_paired ha hs hslive ht h⟩
      refine ⟨s, t, ⟨hs, hslive⟩, ⟨ht, htlive⟩, ?_, ?_⟩
      · intro p q h
        obtain ⟨hp, rfl⟩ := hname p q h
        exact hf.agreeing ha hb hp
      · intro p q p' q' h h'
        obtain ⟨hp, rfl⟩ := hname p q h
        obtain ⟨hp', rfl⟩ := hname p' q' h'
        exact (hf.bijOn.injOn.eq_iff hp hp').symm

theorem accepts_eq_of_equivalent (h : a.equivalent b = true) (w : List SymbolId) : a.accepts w = b.accepts w := by
  rw [Bool.eq_iff_iff, accepts_iff, accepts_iff]
  rcases (equivalent_eq_true_iff ha hb).1 h with ⟨hdead, hdead'⟩ | ⟨s, t, hs, ht, hagree, _⟩
  · apply iff_of_false
    · intro ⟨s, hs, hw⟩
      exact hdead s hs ⟨w, hw⟩
    · intro ⟨t, ht, hw⟩
      exact hdead' t ht ⟨w, hw⟩
  · have hresidual := residual_eq_of_agreeing hagree .start
    simp only [hs.1, ht.1, Option.some.injEq, exists_eq_left', hresidual]

end Comparison

/-- Whatever edits two automata are built by, comparing them succeeds if and only if neither start state is live,
or both are and the live states of one are those of the other renamed. If it succeeds they accept the same
words. -/
theorem equivalent_edits_iff (edits edits' : List Edit) :
    let a := edits.foldl edit empty
    let b := edits'.foldl edit empty
    (a.equivalent b = true ↔
      (¬a.StartsLive ∧ ¬b.StartsLive) ∨ (a.StartsLive ∧ b.StartsLive ∧ ∃ f, Correspondence a b f)) ∧
    (a.equivalent b = true → ∀ w, a.accepts w = b.accepts w) := by
  intro a b
  have ha : a.Tabulated := tabulated_empty.edits edits
  have hb : b.Tabulated := tabulated_empty.edits edits'
  exact ⟨equivalent_iff_correspondence ha hb, accepts_eq_of_equivalent ha hb⟩

end LanguageTheory.Dfa
