import LanguageTheory.Proofs.Words.GeneratedWords
import Mathlib.Algebra.Group.Nat.Defs
import Mathlib.Order.Bounds.Basic

/-! When the lengths of words can be counted with 64 bits. The length that is entered first for a variable need
not be the shortest, and lengths multiply along a chain of variables, so neither the shortest words nor the
greatest length that is asked for limit the sums. The entry of the `k`-th variable to come is at most the width of
the grammar to the power of `k`, which does. While the sums stay below the mark of a variable without an entry,
every entry is the length of a word that is derived, and the last round knows each variable that derives one.
A chain of sixteen variables is enough for a sum to wrap around. -/

namespace LanguageTheory

namespace Yields

variable {yields : Yields} {c v : Char} {form : Word} {length sum bound n : Nat} {p : Production}
  {ps rest before : List Production} {state : Yields × Bool}

/-! ### Sums -/

/-- The sums that are formed while a form is counted, before they wrap around. -/
def sums (yields : Yields) (sum : Nat) : Word → List Nat
  | [] => []
  | c :: form =>
      match yields.lookupSymbol? c with
      | none => []
      | some length => (sum + length) :: yields.sums ((sum + length) % counterSize) form

theorem sums_cons (hc : yields.lookupSymbol? c = some length) : yields.sums sum (c :: form) =
    (sum + length) :: yields.sums ((sum + length) % counterSize) form := by
  rw [sums, hc]

theorem eq_add_of_sums_lt (hbound : bound ≤ counterSize) (hsum : sum < bound)
    (hsums : ∀ n ∈ yields.sums sum form, n < bound) (h : yields.lowerBoundFrom sum form = some length) :
    length = sum + yields.least form ∧ length < bound := by
  induction form generalizing sum with
  | nil =>
      cases h
      exact ⟨rfl, hsum⟩
  | cons c form ih =>
      rw [lowerBoundFrom_cons, Option.bind_eq_some_iff] at h
      obtain ⟨l, hl, h⟩ := h
      rw [sums_cons hl, List.forall_mem_cons] at hsums
      have hmod := Nat.mod_eq_of_lt (Nat.lt_of_lt_of_le hsums.1 hbound)
      rw [hmod] at hsums h
      obtain ⟨hlength, hlt⟩ := ih hsums.1 hsums.2 h
      exact ⟨by rw [hlength, least, weight_of_lookupSymbol? hl, Nat.add_assoc], hlt⟩

/-- While the sums stay below a bound, none wraps around, and the length that is counted stays below it too. -/
theorem eq_of_sums_lt (hbound : bound ≤ counterSize) (hpos : 0 < bound)
    (hsums : ∀ n ∈ yields.sums 0 form, n < bound) (h : yields.lowerBound form = some length) :
    length = yields.least form ∧ length < bound := by
  rw [lowerBound_eq] at h
  simpa only [Nat.zero_add] using eq_add_of_sums_lt hbound hpos hsums h

/-- What a symbol contributes to a sum, which is nothing if the table does not tell it. -/
def share (yields : Yields) (c : Char) : Nat := (yields.lookupSymbol? c).getD 0

/-- What all symbols of a form contribute. -/
def reach (yields : Yields) : Word → Nat
  | [] => 0
  | c :: form => yields.share c + reach yields form

theorem reach_le_length_mul (h : ∀ c, yields.share c ≤ n) (form : Word) :
    yields.reach form ≤ form.length * n := by
  induction form with
  | nil => exact Nat.zero_le _
  | cons c form ih =>
      rw [List.length_cons, Nat.succ_mul, reach, Nat.add_comm]
      exact Nat.add_le_add ih (h c)

theorem reach_cons (hc : yields.lookupSymbol? c = some length) (form : Word) :
    yields.reach (c :: form) = length + yields.reach form := by
  rw [reach, share, hc, Option.getD_some]

theorem le_reach_of_lowerBoundFrom (h : yields.lowerBoundFrom sum form = some length) :
    length ≤ sum + yields.reach form := by
  induction form generalizing sum with
  | nil =>
      cases h
      exact Nat.le_refl length
  | cons c form ih =>
      rw [lowerBoundFrom_cons, Option.bind_eq_some_iff] at h
      obtain ⟨l, hl, h⟩ := h
      have hle := ih h
      have hmod := Nat.mod_le (sum + l) counterSize
      rw [reach_cons hl]
      omega

theorem le_reach_of_lowerBound (h : yields.lowerBound form = some length) : length ≤ yields.reach form := by
  rw [lowerBound_eq] at h
  simpa only [Nat.zero_add] using le_reach_of_lowerBoundFrom h

/-- The table has an entry for every variable of a form. -/
def Tells (yields : Yields) (form : Word) : Prop :=
  ∀ c ∈ form, isVariable c = true → (yields.lookup c).isSome = true

/-- A form is counted exactly if the table tells of its variables. -/
theorem isSome_lowerBound_iff : (yields.lowerBound form).isSome = true ↔ yields.Tells form := by
  rw [lowerBound_eq, isSome_lowerBoundFrom]
  refine forall₂_congr fun c _ => ?_
  rw [lookupSymbol?]
  split
  · exact ⟨fun h _ => h, fun h => h ‹_›⟩
  · exact ⟨fun _ hc => absurd hc ‹_›, fun _ => rfl⟩

theorem tells_of_lowerBound (h : yields.lowerBound form = some length) : yields.Tells form :=
  isSome_lowerBound_iff.1 (Option.isSome_of_eq_some h)

theorem tells_of_all_isTerminal (hform : form.all isTerminal = true) : yields.Tells form := by
  intro c hc hvariable
  rw [isVariable_eq_false (List.all_eq_true.1 hform c hc)] at hvariable
  cases hvariable

theorem isSome_lookup_improve (state : Yields × Bool) (p : Production) (h : (state.1.lookup v).isSome = true) :
    ((improve state p).1.lookup v).isSome = true := by
  cases hcost : state.1.lowerBound p.right with
  | none => rwa [improve_of_none hcost]
  | some cost =>
      rw [lookup_improve hcost]
      split
      · rfl
      · exact h

/-- Where the loop over the productions comes: what is left of a round, the table, and whether the round has
changed it. -/
inductive Arrives (ps : List Production) : List Production → Yields × Bool → Prop
  | start : Arrives ps ps ([], false)
  | improve {p : Production} {rest : List Production} {state : Yields × Bool} : Arrives ps (p :: rest) state →
      Arrives ps rest (improve state p)
  | again {yields : Yields} : Arrives ps [] (yields, true) → Arrives ps ps (yields, false)

theorem Arrives.subset (h : Arrives ps rest state) : rest ⊆ ps := by
  induction h with
  | start => exact List.Subset.refl ps
  | improve _ ih => exact (List.cons_subset.1 ih).2
  | again => exact List.Subset.refl ps

theorem Arrives.foldl (h : Arrives ps (before ++ rest) state) :
    Arrives ps rest (before.foldl Yields.improve state) := by
  induction before generalizing state with
  | nil => exact h
  | cons p before ih => exact ih h.improve

/-- The rounds come to the table of a grammar, and the last of them leaves it as it is. -/
theorem arrives_shortestYields (g : Grammar) : Arrives g.productions [] (g.shortestYields, false) := by
  have hround : ∀ {yields : Yields}, Arrives g.productions g.productions (yields, false) →
      Arrives g.productions [] (g.productions.foldl Yields.improve (yields, false)) := fun h =>
    Arrives.foldl (by rwa [List.append_nil])
  obtain ⟨last, hlast, _, hsettle⟩ := exists_last_round
    (fun yields => Arrives g.productions g.productions (yields, false)) g.productions
    (fun yields yields' h hyields' => .again (hyields' ▸ hround h)) .start (fun v => Nat.le_refl _)
    (show least [] capitals < capitals.length * counterSize by decide)
  exact hsettle ▸ hround hlast

end Yields

namespace Grammar

open Yields (Arrives)

variable {g : Grammar} {yields : Yields} {form child : Word} {v : Char} {p : Production} {rest : List Production}
  {state : Yields × Bool} {cost n requested longest bound : Nat}

/-! ### How large an entry can be -/

/-- The variables that have productions. -/
def heads (g : Grammar) : Finset Char := (g.productions.map Production.left).toFinset

/-- Those of them that a table tells of. -/
def known (g : Grammar) (yields : Yields) : Finset Char := g.heads.filter fun v => (yields.lookup v).isSome = true

theorem mem_known : v ∈ g.known yields ↔ v ∈ g.heads ∧ (yields.lookup v).isSome = true := Finset.mem_filter

theorem left_mem_heads (hp : p ∈ g.productions) : p.left ∈ g.heads := List.mem_toFinset.2 (List.mem_map_of_mem hp)

/-- Every entry is of a variable with productions, and at most the width to the power of the number of entries. -/
structure Modest (g : Grammar) (yields : Yields) : Prop where
  mem_heads : ∀ {v n}, yields.lookup v = some n → v ∈ g.heads
  le_pow : ∀ {v n}, yields.lookup v = some n → n ≤ g.width ^ (g.known yields).card

theorem pow_le_pow_of_pos {width k l : Nat} (hk : 0 < k) (hle : k ≤ l) : width ^ k ≤ width ^ l := by
  rcases Nat.eq_zero_or_pos width with rfl | hwidth
  · rw [Nat.zero_pow hk]
    exact Nat.zero_le _
  · exact Nat.pow_le_pow_right hwidth hle

theorem Modest.share_le (h : Modest g yields) (hwidth : 0 < g.width) (c : Char) :
    yields.share c ≤ g.width ^ (g.known yields).card := by
  rw [Yields.share, Yields.lookupSymbol?]
  split
  · cases hc : yields.lookup c with
    | none => exact Nat.zero_le _
    | some n => exact h.le_pow hc
  · exact Nat.one_le_pow _ _ hwidth

/-- A right-hand side has one factor more. -/
theorem Modest.reach_le (h : Modest g yields) (hp : p ∈ g.productions) :
    yields.reach p.right ≤ g.width ^ ((g.known yields).card + 1) := by
  have hlength := length_le_width hp
  rcases Nat.eq_zero_or_pos g.width with hzero | hwidth
  · have hnil : p.right = [] := List.length_eq_zero_iff.1 (by omega)
    rw [hnil]
    exact Nat.zero_le _
  · calc
      yields.reach p.right ≤ p.right.length * g.width ^ (g.known yields).card :=
        Yields.reach_le_length_mul (h.share_le hwidth) p.right
      _ ≤ g.width * g.width ^ (g.known yields).card := Nat.mul_le_mul_right _ hlength
      _ = g.width ^ ((g.known yields).card + 1) := (Nat.pow_succ').symm

theorem known_subset_improve (g : Grammar) (state : Yields × Bool) (p : Production) :
    g.known state.1 ⊆ g.known (Yields.improve state p).1 := fun _ hv =>
  mem_known.2 ⟨(mem_known.1 hv).1, Yields.isSome_lookup_improve state p (mem_known.1 hv).2⟩

theorem known_ssubset_improve (hp : p ∈ g.productions) (hcost : state.1.lowerBound p.right = some cost)
    (hleft : state.1.lookup p.left = none) : g.known state.1 ⊂ g.known (Yields.improve state p).1 := by
  have hnew : p.left ∈ g.known (Yields.improve state p).1 := by
    refine mem_known.2 ⟨left_mem_heads hp, ?_⟩
    rw [Yields.lookup_improve hcost, if_pos rfl, Option.isSome_some]
  have hold : p.left ∉ g.known state.1 := by
    intro hmem
    rw [mem_known, hleft] at hmem
    exact Bool.noConfusion hmem.2
  exact (Finset.ssubset_iff_of_subset (known_subset_improve g state p)).2 ⟨p.left, hnew, hold⟩

theorem Modest.le_pow_improve (h : Modest g state.1) (p : Production) (hv : state.1.lookup v = some n) :
    n ≤ g.width ^ (g.known (Yields.improve state p).1).card := by
  have hmem : v ∈ g.known state.1 := mem_known.2 ⟨h.mem_heads hv, Option.isSome_of_eq_some hv⟩
  have hle := Finset.card_le_card (known_subset_improve g state p)
  exact Nat.le_trans (h.le_pow hv) (pow_le_pow_of_pos (Finset.card_pos.2 ⟨v, hmem⟩) hle)

/-- A variable that is entered is one more, so its entry may be larger by a factor. -/
theorem Modest.improve (h : Modest g state.1) (hp : p ∈ g.productions) : Modest g (Yields.improve state p).1 := by
  cases hcost : state.1.lowerBound p.right with
  | none => rwa [Yields.improve_of_none hcost]
  | some cost =>
      refine ⟨fun {v n} hv => ?_, fun {v n} hv => ?_⟩ <;> rw [Yields.lookup_improve hcost] at hv <;> split at hv
      · rw [‹v = p.left›]
        exact left_mem_heads hp
      · exact h.mem_heads hv
      · cases hv
        cases hleft : state.1.lookup p.left with
        | none =>
            calc
              min cost (state.1.entry p.left) ≤ cost := Nat.min_le_left _ _
              _ ≤ g.width ^ ((g.known state.1).card + 1) :=
                Nat.le_trans (Yields.le_reach_of_lowerBound hcost) (h.reach_le hp)
              _ ≤ g.width ^ (g.known (Yields.improve state p).1).card :=
                pow_le_pow_of_pos (Nat.succ_pos _) (Finset.card_lt_card (known_ssubset_improve hp hcost hleft))
        | some best =>
            rw [Yields.entry, hleft, Option.getD_some]
            exact Nat.le_trans (Nat.min_le_right _ _) (h.le_pow_improve p hleft)
      · exact h.le_pow_improve p hv

/-- No sum that is formed for the table comes up to the mark of a variable without an entry. -/
def Fits (g : Grammar) : Prop :=
  ∀ p rest state, Arrives g.productions (p :: rest) state → ∀ n ∈ state.1.sums 0 p.right, n < counterSize - 1

theorem Fits.cost_eq (hfits : g.Fits) (h : Arrives g.productions (p :: rest) state)
    (hcost : state.1.lowerBound p.right = some cost) :
    cost = state.1.least p.right ∧ cost < counterSize - 1 :=
  Yields.eq_of_sums_lt (Nat.sub_le _ _) (by decide) (hfits p rest state h) hcost

/-- The lengths of the words that a variable derives. -/
def lengths (g : Grammar) (v : Char) : Set Nat :=
  {n | ∃ w, w.all isTerminal = true ∧ g.Derives [v] w ∧ w.length = n}

/-- Every entry is the length of a word that its variable derives. -/
def Witnessed (g : Grammar) (yields : Yields) : Prop := ∀ {v n}, yields.lookup v = some n → n ∈ g.lengths v

/-- A form of known variables derives a word of the length that is counted. -/
theorem Witnessed.exists_derives (h : g.Witnessed yields) (htells : yields.Tells form) :
    ∃ w, w.all isTerminal = true ∧ g.Derives form w ∧ w.length = yields.least form := by
  induction form with
  | nil => exact ⟨[], rfl, .refl, rfl⟩
  | cons c form ih =>
      obtain ⟨hc, htells⟩ := List.forall_mem_cons.1 htells
      obtain ⟨w, hw, hderives, hlength⟩ := ih htells
      have hsymbol : yields.weight c ∈ g.lengths c := by
        rw [Yields.weight]
        split
        · obtain ⟨n, hn⟩ := Option.isSome_iff_exists.1 (hc ‹_›)
          rw [Yields.entry, hn]
          exact h hn
        · refine ⟨[c], ?_, .refl, rfl⟩
          rename_i hterminal
          rw [List.all_cons, isTerminal, eq_false_of_ne_true hterminal]
          rfl
      obtain ⟨u, hu, hderives', hlength'⟩ := hsymbol
      refine ⟨u ++ w, ?_, hderives'.append hderives, ?_⟩
      · rw [List.all_append, hu, hw]
        rfl
      · rw [List.length_append, hlength', hlength, Yields.least]

/-- Entries are lengths of words while no sum wraps around. -/
theorem Fits.witnessed (hfits : g.Fits) (h : Arrives g.productions rest state) : g.Witnessed state.1 := by
  induction h with
  | start => exact nofun
  | again _ ih => exact ih
  | @improve p rest state h ih =>
      cases hcost : state.1.lowerBound p.right with
      | none => rwa [Yields.improve_of_none hcost]
      | some cost =>
          obtain ⟨heq, hlt⟩ := hfits.cost_eq h hcost
          intro v n hv
          rw [Yields.lookup_improve hcost] at hv
          split at hv
          · subst v
            cases hv
            rcases Nat.le_total cost (state.1.entry p.left) with hle | hle
            · obtain ⟨w, hw, hderives, hlength⟩ := ih.exists_derives (Yields.tells_of_lowerBound hcost)
              rw [Nat.min_eq_left hle, heq]
              exact ⟨w, hw, (derives_of_mem (List.cons_subset.1 h.subset).1).trans hderives, hlength⟩
            · rw [Nat.min_eq_right hle]
              exact ih (Yields.lookup_of_entry_lt (Nat.lt_of_le_of_lt hle hlt))
          · exact ih hv

/-- A production that leaves a round unchanged had an entry for its variable, so the table tells of the same forms
as before. -/
theorem Fits.isSome_lookup_improve_iff (hfits : g.Fits) (h : Arrives g.productions (p :: rest) state)
    (hcost : state.1.lowerBound p.right = some cost) (hstate : (Yields.improve state p).2 = false) (v : Char) :
    ((Yields.improve state p).1.lookup v).isSome = true ↔ (state.1.lookup v).isSome = true := by
  refine ⟨fun hv => ?_, Yields.isSome_lookup_improve state p⟩
  have hle := ((Yields.improve_eq_false hcost).1 hstate).2
  rw [Yields.lookup_improve hcost] at hv
  split at hv
  · rw [‹v = p.left›, Yields.lookup_of_entry_lt (Nat.lt_of_le_of_lt hle (hfits.cost_eq h hcost).2)]
    rfl
  · exact hv

/-- While a round has changed nothing, it has found no production whose variable is unknown though its right-hand
side is known. -/
theorem Fits.isSome_left (hfits : g.Fits) (h : Arrives g.productions rest state) (hstate : state.2 = false) :
    ∀ p ∈ g.productions, p ∈ rest ∨ (state.1.Tells p.right → (state.1.lookup p.left).isSome = true) := by
  induction h with
  | start => exact fun p hp => Or.inl hp
  | again => exact fun p hp => Or.inl hp
  | @improve q rest state h ih =>
      intro p hp
      cases hcost : state.1.lowerBound q.right with
      | none =>
          rw [Yields.improve_of_none hcost] at hstate ⊢
          rcases ih hstate p hp with hmem | hclosed
          · refine (List.mem_cons.1 hmem).symm.imp_right fun heq htells => ?_
            have hsome := Yields.isSome_lowerBound_iff.2 htells
            rw [heq, hcost] at hsome
            cases hsome
          · exact Or.inr hclosed
      | some cost =>
          have hsame := hfits.isSome_lookup_improve_iff h hcost hstate
          simp only [Yields.Tells, hsame]
          rcases ih ((Yields.improve_eq_false hcost).1 hstate).1 p hp with hmem | hclosed
          · refine (List.mem_cons.1 hmem).symm.imp_right fun heq _ => (hsame p.left).1 ?_
            rw [heq, Yields.lookup_improve hcost, if_pos rfl, Option.isSome_some]
          · exact Or.inr hclosed

/-- The table tells of every variable that derives a word. -/
theorem Fits.isSome_lookup (hfits : g.Fits) (hv : isVariable v = true) (hn : n ∈ g.lengths v) :
    (g.shortestYields.lookup v).isSome = true := by
  obtain ⟨w, hw, hderives, _⟩ := hn
  have htells : g.shortestYields.Tells [v] := by
    refine hderives.backward ?_ (Yields.tells_of_all_isTerminal hw)
    rintro _ _ ⟨before, after, p, hp⟩ htells c hc hvariable
    rcases List.mem_append.1 hc with hc | hc
    · exact htells c (List.mem_append_left _ (List.mem_append_left _ hc)) hvariable
    · rcases List.mem_cons.1 hc with rfl | hc
      · have hleft := hfits.isSome_left (Yields.arrives_shortestYields g) rfl p hp
        exact hleft.resolve_left List.not_mem_nil fun d hd =>
          htells d (List.mem_append_left _ (List.mem_append_right _ hd))
      · exact htells c (List.mem_append_right _ hc) hvariable
  exact htells v (List.mem_singleton_self v) hv

theorem entry_le_of_mem_lengths (hv : isVariable v = true) (hn : n ∈ g.lengths v) :
    g.shortestYields.entry v ≤ n := by
  obtain ⟨w, hw, hderives, rfl⟩ := hn
  have hle := hderives.least_le g.settled_shortestYields
  rwa [Yields.least_variable _ hv, Yields.least_of_all_isTerminal hw] at hle

/-- The table is what it is said to be of a variable: it tells the length of the shortest word, or nothing if there is
no word. -/
structure Exact (g : Grammar) (v : Char) : Prop where
  isLeast : ∀ n, g.shortestYields.lookup v = some n ↔ IsLeast (g.lengths v) n
  empty : g.shortestYields.lookup v = none ↔ g.lengths v = ∅

theorem Fits.exact (hfits : g.Fits) (hv : isVariable v = true) : g.Exact v := by
  have hleast : ∀ n, g.shortestYields.lookup v = some n → IsLeast (g.lengths v) n := by
    intro n hn
    refine ⟨hfits.witnessed (Yields.arrives_shortestYields g) hn, fun m hm => ?_⟩
    have hle := entry_le_of_mem_lengths hv hm
    rwa [Yields.entry, hn] at hle
  refine ⟨fun n => ⟨hleast n, fun hn => ?_⟩, fun hnone => ?_, fun hempty => ?_⟩
  · obtain ⟨m, hm⟩ := Option.isSome_iff_exists.1 (hfits.isSome_lookup hv hn.1)
    rw [hm, (hleast m hm).unique hn]
  · refine Set.eq_empty_of_forall_notMem fun n hn => ?_
    have hsome := hfits.isSome_lookup hv hn
    rw [hnone] at hsome
    cases hsome
  · cases hn : g.shortestYields.lookup v with
    | none => rfl
    | some n => exact (hempty ▸ (hleast n hn).1 : n ∈ (∅ : Set Nat)).elim

/-! ### Sums on the way to words -/

end Grammar

end LanguageTheory
