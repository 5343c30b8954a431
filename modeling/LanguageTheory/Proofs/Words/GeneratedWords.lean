import LanguageTheory.Proofs.Grammar.Forest
import LanguageTheory.Proofs.Words.Sampling
import LanguageTheory.Proofs.Words.ShortestYields

/-! The words that are sampled from a grammar are those that it generates. No step of a derivation makes the
shortest yield of a form smaller, so every form on the way to a word that is not too long waits in a bucket
that is still to come. -/

namespace LanguageTheory

namespace Grammar

variable {g : Grammar} {yields : Yields} {form child u w : Word} {e : Nat × Word} {ps : List Production}
  {requested longest bound length : Nat}

/-- Along a run, no sum wraps around that is counted for a form one step from one that is followed. -/
def SumsFit (g : Grammar) (requested longest bound : Nat) : Prop :=
  0 < requested → ∀ length ≤ longest, g.shortestYields.lowerBound [g.start] = some length →
    ∀ form, Sampling.Follows (g.wordGraph g.shortestYields) requested longest bound (.start length [g.start]) form →
      ∀ child ∈ g.leftmostSteps form, (g.shortestYields.lowerBound child).isSome = true →
        g.shortestYields.least child < counterSize

/-! ### Steps -/

theorem mem_leftmostSteps : child ∈ g.leftmostSteps form ↔ ∃ before after, ∃ p ∈ g.productions,
    before.all isTerminal = true ∧ form = before ++ p.left :: after ∧ child = before ++ p.right ++ after := by
  constructor
  · intro h
    rcases hspan : form.span isTerminal with ⟨before, rest⟩
    obtain ⟨hform, hbefore, _⟩ := span_isTerminal_eq_iff.1 hspan
    rw [leftmostSteps, hspan] at h
    cases rest with
    | nil => exact (List.not_mem_nil h).elim
    | cons v after =>
        obtain ⟨p, hp, rfl⟩ := List.mem_map.1 h
        rw [productionsFor, List.mem_filter, beq_iff_eq] at hp
        obtain ⟨hp, rfl⟩ := hp
        exact ⟨before, after, p, hp, hbefore, hform, rfl⟩
  · rintro ⟨before, after, p, hp, hbefore, rfl, rfl⟩
    have hspan : (before ++ p.left :: after).span isTerminal = (before, p.left :: after) :=
      span_isTerminal_eq_iff.2 ⟨rfl, hbefore, fun c hc => Option.some.inj hc ▸ p.left_isVariable⟩
    rw [leftmostSteps, hspan]
    refine List.mem_map.2 ⟨p, ?_, rfl⟩
    rw [productionsFor, List.mem_filter, beq_self_eq_true]
    exact ⟨hp, rfl⟩

theorem step_of_mem_leftmostSteps (h : child ∈ g.leftmostSteps form) : g.Step form child := by
  obtain ⟨before, after, p, hp, _, rfl, rfl⟩ := mem_leftmostSteps.1 h
  exact .intro before after p hp

/-- No step makes the shortest yield smaller. -/
theorem Step.least_le (hsettled : yields.Settled g.productions) (h : g.Step u w) : yields.least u ≤ yields.least w := by
  obtain ⟨before, after, p, hp⟩ := h
  have hle := hsettled.entry_le_least p hp
  rw [Yields.least_append, Yields.least_append, Yields.least_append, Yields.least, Yields.weight,
    if_pos p.left_isVariable]
  omega

theorem Derives.least_le (hsettled : yields.Settled g.productions) (h : g.Derives u w) :
    yields.least u ≤ yields.least w := by
  induction h with
  | refl => exact Nat.le_refl _
  | step _ hstep ih => exact Nat.le_trans ih (hstep.least_le hsettled)

/-! ### The graph -/

theorem mem_successors : e ∈ (g.wordGraph yields).successors length form ↔
    e.2 ∈ g.leftmostSteps form ∧ yields.lowerBound e.2 = some e.1 := by
  obtain ⟨length', child⟩ := e
  simp only [wordGraph, List.mem_filterMap, Option.map_eq_some_iff, Prod.mk.injEq]
  constructor
  · rintro ⟨child, hchild, _, hlength, rfl, rfl⟩
    exact ⟨hchild, hlength⟩
  · rintro ⟨hchild, hlength⟩
    exact ⟨child, hchild, length', hlength, rfl, rfl⟩

theorem word?_eq_some_iff : (g.wordGraph yields).word? form = some w ↔ form.all isTerminal = true ∧ form = w := by
  rw [wordGraph, Option.ite_none_right_eq_some, Option.some.injEq]

theorem ranked_wordGraph (hsettled : yields.Settled g.productions) : (g.wordGraph yields).Ranked yields.least where
  length_eq form w hword := by
    obtain ⟨hform, rfl⟩ := word?_eq_some_iff.1 hword
    exact (Yields.least_of_all_isTerminal hform).symm
  rank_le form e he := (step_of_mem_leftmostSteps (mem_successors.1 he).1).least_le hsettled

theorem derives_of_leads (h : (g.wordGraph yields).Leads yields.least longest [g.start] form) :
    g.Derives [g.start] form := by
  induction h with
  | root => exact .refl
  | step _ he _ ih => exact ih.step (step_of_mem_leftmostSteps (mem_successors.1 he).1)

/-- A leftmost derivation of a word that is not too long stays within the graph. -/
theorem leads_of_leftmost (hsettled : yields.Settled g.productions) (hlongest : longest < counterSize - 1)
    (hw : w.all isTerminal = true) (hlength : w.length ≤ longest) (h : g.Leftmost ps u w)
    (hu : (g.wordGraph yields).Leads yields.least longest [g.start] u) :
    (g.wordGraph yields).Leads yields.least longest [g.start] w := by
  induction h with
  | nil => exact hu
  | @cons ps before after w p hp hbefore hderives ih =>
      have hle := hderives.derives.least_le hsettled
      rw [Yields.least_of_all_isTerminal hw] at hle
      have hchild : before ++ p.right ++ after ∈ g.leftmostSteps (before ++ p.left :: after) :=
        mem_leftmostSteps.2 ⟨before, after, p, hp, hbefore, rfl, rfl⟩
      have hbound := Yields.lowerBound_eq_some (Nat.lt_of_le_of_lt (Nat.le_trans hle hlength) hlongest)
      exact ih hw hlength (hu.step (e := (_, _)) (mem_successors.2 ⟨hchild, hbound⟩) (Nat.le_trans hle hlength))

/-- The graph offers what the grammar generates. -/
theorem offers_wordGraph_iff (hsettled : yields.Settled g.productions) (hlongest : longest < counterSize - 1)
    (hstart : yields.least [g.start] ≤ longest) :
    (g.wordGraph yields).Offers yields.least longest [g.start] w ↔ g.Generates w ∧ w.length ≤ longest := by
  constructor
  · rintro ⟨form, hleads, hword⟩
    obtain ⟨hform, rfl⟩ := word?_eq_some_iff.1 hword
    refine ⟨⟨hform, derives_of_leads hleads⟩, ?_⟩
    rw [← Yields.least_of_all_isTerminal hform]
    exact hleads.rank_le hstart
  · rintro ⟨hgenerates, hlength⟩
    obtain ⟨f, hf, _⟩ := Forest.exists_carries_of_generates hgenerates
    exact ⟨w, leads_of_leftmost hsettled hlongest hgenerates.1 hlength hf.leftmost .root,
      word?_eq_some_iff.2 ⟨hgenerates.1, rfl⟩⟩

/-- Where the start variable yields nothing short enough, there is nothing to be found. -/
theorem not_length_le (hsettled : yields.Settled g.productions) (hlt : longest < yields.least [g.start])
    (hw : g.Generates w) : ¬w.length ≤ longest := by
  have hle := hw.2.least_le hsettled
  rw [Yields.least_of_all_isTerminal hw.1] at hle
  omega

/-! ### What is returned -/

theorem words_of_pos (hpos : 0 < requested) : g.words requested longest bound =
    match g.shortestYields.lowerBound [g.start] with
    | none => .none requested
    | some length =>
        if longest < length then .none requested
        else (g.wordGraph g.shortestYields).sample requested longest bound length [g.start] := by
  obtain ⟨k, rfl⟩ := Nat.exists_eq_succ_of_ne_zero (Nat.ne_of_gt hpos)
  unfold words
  dsimp only
  cases g.shortestYields.lowerBound [g.start] <;> rfl

/-- The length that is counted for the start variable is not a sum. -/
theorem eq_least_start (h : g.shortestYields.lowerBound [g.start] = some length) :
    length = g.shortestYields.least [g.start] := by
  have hle := g.settled_shortestYields.bounded g.start
  have hpos := counterSize_pos
  rw [Yields.eq_mod_of_lowerBound h, Yields.least_variable _ g.start_isVariable, Nat.mod_eq_of_lt (by omega)]

theorem eq_least_of_mem_successors (he : e ∈ (g.wordGraph yields).successors length form)
    (hlt : (yields.lowerBound e.2).isSome = true → yields.least e.2 < counterSize) : e.1 = yields.least e.2 := by
  have hbound := (mem_successors.1 he).2
  rw [Yields.eq_mod_of_lowerBound hbound, Nat.mod_eq_of_lt (hlt (Option.isSome_of_eq_some hbound))]

/-- Sums fit if the greatest length and the shortest yield of a right-hand side can be counted together. -/
theorem sumsFit_of_least_lt (hlt : ∀ p ∈ g.productions, (g.shortestYields.lowerBound p.right).isSome = true →
    longest + g.shortestYields.least p.right < counterSize) : g.SumsFit requested longest bound := by
  have hfits : ∀ form, g.shortestYields.least form ≤ longest → ∀ child ∈ g.leftmostSteps form,
      (g.shortestYields.lowerBound child).isSome = true → g.shortestYields.least child < counterSize := by
    intro form hform child hchild hsome
    obtain ⟨before, after, p, hp, _, rfl, rfl⟩ := mem_leftmostSteps.1 hchild
    have hright := hlt p hp (Yields.isSome_lowerBound_of_subset (by simp) hsome)
    rw [Yields.least_append, Yields.least] at hform
    rw [Yields.least_append, Yields.least_append]
    omega
  intro hpos length hle hstart form hfollows
  have hlength := eq_least_start hstart
  subst hlength
  have hleads := Sampling.leads_of_follows (ranked_wordGraph g.settled_shortestYields) hpos
    (fun form hleads e he => eq_least_of_mem_successors he
      (hfits form (hleads.rank_le hle) e.2 (mem_successors.1 he).1)) hfollows
  exact hfits form (hleads.rank_le hle)

/-- A complete answer is the list of the first words that the grammar generates, and an incomplete one is a
beginning of it. -/
theorem exact_generated_words (g : Grammar) (requested longest bound : Nat) (hlongest : longest < counterSize - 1)
    (hfit : g.SumsFit requested longest bound) :
    (g.words requested longest bound).Exact requested longest g.Generates := by
  have hsettled := g.settled_shortestYields
  rcases Nat.eq_zero_or_pos requested with rfl | hpos
  · exact Words.exact_none (Or.inl rfl)
  rw [words_of_pos hpos]
  cases hstart : g.shortestYields.lowerBound [g.start] with
  | none =>
      refine Words.exact_none (Or.inr fun w => not_length_le hsettled ?_)
      by_contra hle
      rw [Yields.lowerBound_eq_some (by omega)] at hstart
      cases hstart
  | some length =>
      have hlength := eq_least_start hstart
      dsimp only
      split
      · rename_i hlt
        exact Words.exact_none (Or.inr fun w => not_length_le hsettled (hlength ▸ hlt))
      · rename_i hle
        have hle := Nat.le_of_not_lt hle
        have hfit := hfit hpos length hle hstart
        subst hlength
        refine ((ranked_wordGraph hsettled).returns_sample hpos fun form hform e he => ?_).exact
          fun w => offers_wordGraph_iff hsettled hlongest hle
        exact eq_least_of_mem_successors he (hfit form hform e.2 (mem_successors.1 he).1)

/-- Generates some letters `a` and as many letters `b`. -/
def matched : Grammar where
  start := 'S'
  productions := [⟨'S', ['a', 'S', 'b'], by decide, by decide⟩, ⟨'S', [], by decide, by decide⟩]
  start_isVariable := by decide
  nodup := by decide

theorem exact_generated_words_matched : 2 < counterSize - 1 ∧ matched.SumsFit 3 2 4 ∧
    matched.words 3 2 4 = ⟨3, [[], ['a', 'b']], true⟩ ∧
    ∀ l, Words.First 3 (fun w => matched.Generates w ∧ w.length ≤ 2) l ↔ l = [[], ['a', 'b']] := by
  have hyields : matched.shortestYields = [('S', 0)] := by decide +kernel
  have hlongest : 2 < counterSize - 1 := by decide
  have hfit : matched.SumsFit 3 2 4 := by
    apply sumsFit_of_least_lt
    rw [hyields]
    decide
  have hwords : matched.words 3 2 4 = ⟨3, [[], ['a', 'b']], true⟩ := by
    rw [words_of_pos (by decide), hyields]
    -- What has been seen is asked for by hash, so the steps are simplified and not computed.
    simp only [WordGraph.sample, Sampling.runFor, Sampling.step, Sampling.start]
    simp [Sampling.enterAll, Sampling.enqueue, Sampling.insertLater, Sampling.absorb, Sampling.finish,
      wordGraph, leftmostSteps, productionsFor, matched, Yields.lowerBound, isVariable, isTerminal, counterSize,
      UInt64.size, Ascending.ofList, Ascending.insert, Ascending.insertInto]
  have hexact := exact_generated_words matched 3 2 4 hlongest hfit
  rw [hwords] at hexact
  exact ⟨hlongest, hfit, hwords, hexact.complete rfl⟩

end Grammar

end LanguageTheory
