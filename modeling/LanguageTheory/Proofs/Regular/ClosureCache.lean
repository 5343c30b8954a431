import LanguageTheory.Proofs.Regular.EpsilonNfa

/-! What computing the closures of single states in advance changes. Any edits, with that one among them or not,
make the same graph. Without computed closures the closure of a set is what paths that read nothing reach from it;
with them it is so for the sets of states that are there, while a number that is no state drops out. -/

namespace LanguageTheory.EpsilonNfa

variable {n : EpsilonNfa} {states : StateSet} {s t : StateId}

/-- The same graph without computed closures. -/
def uncached (n : EpsilonNfa) : EpsilonNfa := { n with closures := none }

/-- Whether the edit only computes closures. -/
def Edit.computes : Edit → Bool
  | .computeClosures => true
  | _ => false

theorem WellFormed.uncached (hn : n.WellFormed) : n.uncached.WellFormed where
  source_lt := hn.source_lt
  target_lt := hn.target_lt
  start_lt := hn.start_lt
  finals_lt := hn.finals_lt
  closures_eq := fun _ h => nomatch h

theorem uncached_growTo (n : EpsilonNfa) (s : StateId) : (n.growTo s).uncached = n.uncached.growTo s := by
  rw [growTo, apply_ite uncached]
  rfl

theorem uncached_computeClosures (n : EpsilonNfa) : n.computeClosures.uncached = n.uncached := by
  unfold computeClosures
  split <;> rfl

theorem uncached_edit (n : EpsilonNfa) (e : Edit) :
    (n.edit e).uncached = if e.computes then n.uncached else n.uncached.edit e := by
  cases e with
  | addState => rfl
  | addTransition source symbol target =>
      show _ = n.uncached.addMove _
      rw [addMove, ← uncached_growTo]
      rfl
  | addEpsilon source target =>
      show _ = n.uncached.addMove _
      rw [addMove, ← uncached_growTo]
      rfl
  | addStart s =>
      show _ = n.uncached.addStart s
      rw [addStart, ← uncached_growTo]
      rfl
  | addFinal s =>
      show _ = n.uncached.addFinal s
      rw [addFinal, ← uncached_growTo]
      rfl
  | computeClosures => exact uncached_computeClosures n

/-- Leaving out the edits that compute closures leads to the same graph. -/
theorem uncached_edits (n : EpsilonNfa) (edits : List Edit) :
    (edits.foldl edit n).uncached = (edits.filter fun e => !e.computes).foldl edit n.uncached := by
  induction edits generalizing n with
  | nil => rfl
  | cons e edits ih =>
      rw [List.foldl_cons, ih, uncached_edit, List.filter_cons]
      cases e.computes <;> rfl

/-! ### When the closure is exact -/

/-- The closure is what paths that read nothing reach from the set. -/
def ClosesExactly (n : EpsilonNfa) (states : StateSet) : Prop :=
  ∀ t, t ∈ n.closure states ↔ ∃ s ∈ states, n.Path s [] t

/-- Only computed closures and a number that is no state make a closure lose something. -/
theorem WellFormed.closesExactly_iff (hn : n.WellFormed) :
    n.ClosesExactly states ↔ n.closures = none ∨ ∀ s ∈ states, s < n.size := by
  constructor
  · intro h
    rw [or_iff_not_imp_left]
    intro hcomputed s hs
    obtain ⟨r, _, hr, hpath⟩ := hn.mem_closure_iff.1 ((h s).2 ⟨s, hs, .nil s⟩)
    exact hn.lt_of_path hpath (hr.resolve_left hcomputed)
  · intro h t
    rw [hn.mem_closure_iff]
    refine exists_congr fun s => and_congr_right fun hs => and_iff_right ?_
    exact h.imp_right fun hstates => hstates s hs

theorem WellFormed.mem_closure_uncached (hn : n.WellFormed) :
    t ∈ n.uncached.closure states ↔ ∃ s ∈ states, n.Path s [] t := by
  rw [hn.uncached.closesExactly_iff.2 (Or.inl rfl) t]
  exact exists_congr fun s => and_congr_right fun _ => ⟨.mono fun _ hm => hm, .mono fun _ hm => hm⟩

theorem WellFormed.closure_eq_uncached_iff (hn : n.WellFormed) :
    n.closure states = n.uncached.closure states ↔ n.ClosesExactly states := by
  constructor
  · intro h t
    rw [h, hn.mem_closure_uncached]
  · intro h
    ext t
    rw [h t, hn.mem_closure_uncached]

/-- After any edits the closure of a set holds what paths that read nothing reach from it, where with computed
closures a member counts only if it is a state. So computing closures changes nothing exactly for the sets of
states that are there. -/
theorem closure_after_edits (edits : List Edit) (states : StateSet) :
    let n := edits.foldl edit empty
    let plain := (edits.filter fun e => !e.computes).foldl edit empty
    (∀ t, t ∈ n.closure states ↔ ∃ s ∈ states, (n.closures = none ∨ s < n.size) ∧ n.Path s [] t) ∧
      (n.ClosesExactly states ↔ n.closures = none ∨ ∀ s ∈ states, s < n.size) ∧
      (n.closure states = plain.closure states ↔ n.closures = none ∨ ∀ s ∈ states, s < n.size) := by
  intro n plain
  have hn : n.WellFormed := wellFormed_empty.edits edits
  have hplain : plain = n.uncached := (uncached_edits empty edits).symm
  refine ⟨fun t => hn.mem_closure_iff, hn.closesExactly_iff, ?_⟩
  rw [hplain, hn.closure_eq_uncached_iff, hn.closesExactly_iff]

/-- With computed closures a number that is no state is not in the closure of a set that has it. -/
theorem closure_loses_member :
    let n := [Edit.addEpsilon 0 1, .computeClosures].foldl edit empty
    (n.closure (.ofList [0, 5])).toList = [0, 1] ∧ (n.uncached.closure (.ofList [0, 5])).toList = [0, 1, 5] ∧
      ¬n.ClosesExactly (.ofList [0, 5]) := by
  intro n
  have hclosure : (n.closure (.ofList [0, 5])).toList = [0, 1] := by decide
  refine ⟨hclosure, by decide, fun h => ?_⟩
  have hmem : 5 ∈ (n.closure (.ofList [0, 5])).toList := (h 5).2 ⟨5, by decide, .nil 5⟩
  rw [hclosure] at hmem
  exact absurd hmem (by decide)

end LanguageTheory.EpsilonNfa
