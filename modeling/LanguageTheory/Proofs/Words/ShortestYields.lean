import LanguageTheory.Words.OfGrammar

/-! The table of shortest yields. An entry is never more than what a production allows for its variable, which
holds once a round over the productions changes nothing. Every round before that lowers an entry, so such a
round comes. Sums may wrap around on the way: that makes entries too small, and the table is settled all the same. -/

namespace LanguageTheory

theorem counterSize_pos : 0 < counterSize := by decide

namespace Yields

variable {yields yields' : Yields} {c v : Char} {u form : Word} {length limit sum : Nat} {p : Production}
  {ps qs : List Production} {state : Yields × Bool}

/-! ### Lengths without wrap-around -/

/-- What the table says of a variable. One that it lacks is taken to yield more than can be counted. -/
def entry (yields : Yields) (v : Char) : Nat := (yields.lookup v).getD (counterSize - 1)

def weight (yields : Yields) (c : Char) : Nat := if isVariable c then yields.entry c else 1

/-- The length of a word that a form becomes, as a sum that does not wrap around. -/
def least (yields : Yields) : Word → Nat
  | [] => 0
  | c :: form => yields.weight c + least yields form

theorem least_append (yields : Yields) (u w : Word) : yields.least (u ++ w) = yields.least u + yields.least w := by
  induction u with
  | nil => exact (Nat.zero_add _).symm
  | cons c u ih => rw [List.cons_append, least, least, ih, Nat.add_assoc]

theorem least_variable (yields : Yields) (hv : isVariable v = true) : yields.least [v] = yields.entry v := by
  rw [least, weight, if_pos hv]
  rfl

theorem weight_le (hle : ∀ v, yields'.entry v ≤ yields.entry v) (c : Char) : yields'.weight c ≤ yields.weight c := by
  rw [weight, weight]
  split
  · exact hle c
  · exact Nat.le_refl 1

theorem least_le (hle : ∀ v, yields'.entry v ≤ yields.entry v) (form : Word) :
    yields'.least form ≤ yields.least form := by
  induction form with
  | nil => exact Nat.le_refl 0
  | cons c form ih => exact Nat.add_le_add (weight_le hle c) ih

theorem least_lt (hle : ∀ v, yields'.entry v ≤ yields.entry v) (hv : isVariable v = true)
    (hlt : yields'.entry v < yields.entry v) (hmem : v ∈ form) : yields'.least form < yields.least form := by
  induction form with
  | nil => exact (List.not_mem_nil hmem).elim
  | cons c form ih =>
      rcases List.mem_cons.1 hmem with rfl | hmem
      · refine Nat.add_lt_add_of_lt_of_le ?_ (least_le hle form)
        rwa [weight, weight, if_pos hv, if_pos hv]
      · exact Nat.add_lt_add_of_le_of_lt (weight_le hle c) (ih hmem)

theorem least_congr (h : ∀ v, yields'.entry v = yields.entry v) (form : Word) :
    yields'.least form = yields.least form :=
  Nat.le_antisymm (least_le (fun v => Nat.le_of_eq (h v)) form) (least_le (fun v => Nat.le_of_eq (h v).symm) form)

theorem least_of_all_isTerminal (hform : form.all isTerminal = true) : yields.least form = form.length := by
  induction form with
  | nil => rfl
  | cons c form ih =>
      rw [List.all_cons, Bool.and_eq_true] at hform
      rw [least, weight, isVariable_eq_false hform.1, ih hform.2, List.length_cons]
      exact Nat.add_comm _ _

/-- The length of a word that a symbol becomes, if the table tells it. -/
def lookupSymbol? (yields : Yields) (c : Char) : Option Nat := if isVariable c then yields.lookup c else some 1

/-- The sum that is counted, begun somewhere else than at zero. -/
def lowerBoundFrom (yields : Yields) (sum : Nat) (form : Word) : Option Nat :=
  form.foldlM (fun sum c => (yields.lookupSymbol? c).map fun length => (sum + length) % counterSize) sum

theorem lowerBound_eq (yields : Yields) (form : Word) : yields.lowerBound form = yields.lowerBoundFrom 0 form := by
  rw [lowerBound, lowerBoundFrom]
  congr 1
  funext sum c
  rw [lookupSymbol?]
  cases isVariable c
  · rfl
  · cases yields.lookup c <;> rfl

theorem lowerBoundFrom_cons (yields : Yields) (sum : Nat) (c : Char) (form : Word) :
    yields.lowerBoundFrom sum (c :: form) =
      (yields.lookupSymbol? c).bind fun length => yields.lowerBoundFrom ((sum + length) % counterSize) form := by
  rw [lowerBoundFrom, List.foldlM_cons]
  cases yields.lookupSymbol? c <;> rfl

theorem weight_of_lookupSymbol? (h : yields.lookupSymbol? c = some length) : yields.weight c = length := by
  rw [lookupSymbol?] at h
  rw [weight]
  split at h
  · rw [if_pos ‹_›, entry, h, Option.getD_some]
  · rw [if_neg ‹_›]
    exact Option.some.inj h

/-- A variable is only unknown if it is taken to yield more than can be counted. -/
theorem lookup_of_entry_lt (h : yields.entry v < counterSize - 1) : yields.lookup v = some (yields.entry v) := by
  cases hv : yields.lookup v with
  | some length => rw [entry, hv, Option.getD_some]
  | none =>
      rw [entry, hv, Option.getD_none] at h
      exact (Nat.lt_irrefl _ h).elim

theorem lookupSymbol?_eq_some (h : yields.weight c < counterSize - 1) :
    yields.lookupSymbol? c = some (yields.weight c) := by
  rw [weight] at h
  rw [lookupSymbol?, weight]
  split at h
  · rw [if_pos ‹_›, if_pos ‹_›, lookup_of_entry_lt h]
  · rw [if_neg ‹_›, if_neg ‹_›]

theorem eq_mod_of_lowerBoundFrom (hsum : sum < counterSize) (h : yields.lowerBoundFrom sum form = some length) :
    length = (sum + yields.least form) % counterSize := by
  induction form generalizing sum with
  | nil =>
      cases h
      exact (Nat.mod_eq_of_lt hsum).symm
  | cons c form ih =>
      rw [lowerBoundFrom_cons, Option.bind_eq_some_iff] at h
      obtain ⟨l, hl, h⟩ := h
      calc
        length = ((sum + l) % counterSize + yields.least form) % counterSize := ih (Nat.mod_lt _ counterSize_pos) h
        _ = (sum + l + yields.least form) % counterSize := Nat.mod_add_mod ..
        _ = (sum + yields.least (c :: form)) % counterSize := by
          rw [least, weight_of_lookupSymbol? hl, Nat.add_assoc]

theorem lowerBoundFrom_eq_some (h : sum + yields.least form < counterSize - 1) :
    yields.lowerBoundFrom sum form = some (sum + yields.least form) := by
  induction form generalizing sum with
  | nil => rfl
  | cons c form ih =>
      rw [least] at h ⊢
      rw [lowerBoundFrom_cons, lookupSymbol?_eq_some (by omega), Option.bind_some, Nat.mod_eq_of_lt (by omega),
        ih (by omega), Nat.add_assoc]

/-- A counted length is the sum, as far as it can be counted. -/
theorem eq_mod_of_lowerBound (h : yields.lowerBound form = some length) :
    length = yields.least form % counterSize := by
  rw [lowerBound_eq] at h
  rw [eq_mod_of_lowerBoundFrom counterSize_pos h, Nat.zero_add]

/-- A small sum is counted. -/
theorem lowerBound_eq_some (h : yields.least form < counterSize - 1) :
    yields.lowerBound form = some (yields.least form) := by
  rw [lowerBound_eq, lowerBoundFrom_eq_some (by rwa [Nat.zero_add]), Nat.zero_add]

theorem isSome_lowerBoundFrom : (yields.lowerBoundFrom sum form).isSome = true ↔
    ∀ c ∈ form, (yields.lookupSymbol? c).isSome = true := by
  induction form generalizing sum with
  | nil => exact ⟨fun _ c hc => (List.not_mem_nil hc).elim, fun _ => rfl⟩
  | cons c form ih =>
      rw [lowerBoundFrom_cons, List.forall_mem_cons]
      cases yields.lookupSymbol? c with
      | none => exact ⟨fun h => Bool.noConfusion h, fun h => Bool.noConfusion h.1⟩
      | some length =>
          rw [Option.bind_some, ih, Option.isSome_some]
          exact (and_iff_right rfl).symm

/-- A part of a form that is counted is counted. -/
theorem isSome_lowerBound_of_subset (hsubset : u ⊆ form) (h : (yields.lowerBound form).isSome = true) :
    (yields.lowerBound u).isSome = true := by
  rw [lowerBound_eq, isSome_lowerBoundFrom] at h ⊢
  exact fun c hc => h c (hsubset hc)

/-! ### One round -/

theorem lookup_set (yields : Yields) (v : Char) (length : Nat) (u : Char) :
    (yields.set v length).lookup u = if u = v then some length else yields.lookup u := by
  induction yields with
  | nil =>
      rw [set, List.lookup_cons]
      grind
  | cons e yields ih =>
      rw [set]
      split <;> grind

theorem improve_of_none (h : state.1.lowerBound p.right = none) : improve state p = state := by
  rw [improve, h]

theorem lookup_improve {cost : Nat} (h : state.1.lowerBound p.right = some cost) (v : Char) :
    (improve state p).1.lookup v =
      if v = p.left then some (min cost (state.1.entry p.left)) else state.1.lookup v := by
  rw [improve, h]
  exact lookup_set _ _ _ v

theorem entry_improve {cost : Nat} (h : state.1.lowerBound p.right = some cost) (v : Char) :
    (improve state p).1.entry v = if v = p.left then min cost (state.1.entry p.left) else state.1.entry v := by
  rw [entry, lookup_improve h]
  split
  · rw [Option.getD_some]
  · rfl

theorem improve_eq_false {cost : Nat} (h : state.1.lowerBound p.right = some cost) :
    (improve state p).2 = false ↔ state.2 = false ∧ state.1.entry p.left ≤ cost := by
  rw [improve, h, ← Nat.not_lt, ← decide_eq_false_iff_not]
  exact Bool.or_eq_false_iff

theorem entry_improve_le (state : Yields × Bool) (p : Production) (v : Char) :
    (improve state p).1.entry v ≤ state.1.entry v := by
  cases hcost : state.1.lowerBound p.right with
  | none => exact Nat.le_of_eq (by rw [improve_of_none hcost])
  | some cost =>
      rw [entry_improve hcost]
      split
      · subst v
        exact Nat.min_le_right _ _
      · exact Nat.le_refl _

/-- What some productions make of a table. Entries only become smaller. If none has, each of them allows for
what the productions say. -/
structure Improves (ps : List Production) (yields : Yields) (state : Yields × Bool) : Prop where
  entry_le : ∀ v, state.1.entry v ≤ yields.entry v
  exists_lt : state.2 = true → ∃ v, isVariable v = true ∧ state.1.entry v < yields.entry v
  entry_eq : state.2 = false → ∀ v, state.1.entry v = yields.entry v
  entry_le_least : state.2 = false → ∀ p ∈ ps, yields.entry p.left ≤ yields.least p.right

/-- No entry is more than can be counted. -/
def Bounded (yields : Yields) : Prop := ∀ v, yields.entry v ≤ counterSize - 1

/-- What is not counted is more than any entry. -/
theorem Bounded.entry_le_least (hbounded : yields.Bounded) (h : yields.lowerBound p.right = none) :
    yields.entry p.left ≤ yields.least p.right := by
  refine Nat.le_trans (hbounded p.left) (Nat.le_of_not_lt fun hlt => ?_)
  rw [lowerBound_eq_some hlt] at h
  cases h

theorem Improves.improve (hbounded : yields.Bounded) (h : Improves ps yields state) (p : Production) :
    Improves (ps ++ [p]) yields (improve state p) := by
  have hclosed : state.2 = false → state.1.entry p.left ≤ state.1.least p.right →
      ∀ q ∈ ps ++ [p], yields.entry q.left ≤ yields.least q.right := by
    intro hfalse hp q hq
    rcases List.mem_append.1 hq with hq | hq
    · exact h.entry_le_least hfalse q hq
    · rw [List.mem_singleton.1 hq, ← h.entry_eq hfalse, ← least_congr (h.entry_eq hfalse)]
      exact hp
  cases hcost : state.1.lowerBound p.right with
  | none =>
      rw [improve_of_none hcost]
      refine ⟨h.entry_le, h.exists_lt, h.entry_eq, fun hfalse => hclosed hfalse ?_⟩
      exact Bounded.entry_le_least (fun v => Nat.le_trans (h.entry_le v) (hbounded v)) hcost
  | some cost =>
      refine ⟨fun v => Nat.le_trans (entry_improve_le state p v) (h.entry_le v), fun htrue => ?_,
        fun hfalse v => ?_, fun hfalse => ?_⟩
      · by_cases hlt : cost < state.1.entry p.left
        · refine ⟨p.left, p.left_isVariable, Nat.lt_of_lt_of_le ?_ (h.entry_le p.left)⟩
          rw [entry_improve hcost, if_pos rfl]
          exact Nat.lt_of_le_of_lt (Nat.min_le_left _ _) hlt
        · have hstate : state.2 = true := by
            rw [← Bool.not_eq_false]
            intro hfalse
            rw [(improve_eq_false hcost).2 ⟨hfalse, Nat.le_of_not_lt hlt⟩] at htrue
            cases htrue
          obtain ⟨v, hv, hlt⟩ := h.exists_lt hstate
          exact ⟨v, hv, Nat.lt_of_le_of_lt (entry_improve_le state p v) hlt⟩
      · obtain ⟨hfalse, hle⟩ := (improve_eq_false hcost).1 hfalse
        rw [entry_improve hcost, Nat.min_eq_right hle, ← h.entry_eq hfalse v]
        split
        · rw [‹v = p.left›]
        · rfl
      · obtain ⟨hfalse, hle⟩ := (improve_eq_false hcost).1 hfalse
        refine hclosed hfalse (Nat.le_trans hle ?_)
        rw [eq_mod_of_lowerBound hcost]
        exact Nat.mod_le _ _

theorem improves_foldl (hbounded : yields.Bounded) (h : Improves qs yields state) (ps : List Production) :
    Improves (qs ++ ps) yields (ps.foldl improve state) := by
  induction ps generalizing qs state with
  | nil => rwa [List.append_nil]
  | cons p ps ih =>
      rw [List.foldl_cons, List.append_cons]
      exact ih (h.improve hbounded p)

theorem improves_round (hbounded : yields.Bounded) (ps : List Production) :
    Improves ps yields (ps.foldl improve (yields, false)) := by
  have hstart : Improves [] yields (yields, false) :=
    ⟨fun v => Nat.le_refl _, fun h => Bool.noConfusion h, fun _ v => rfl, fun _ p hp => (List.not_mem_nil hp).elim⟩
  simpa only [List.nil_append] using improves_foldl hbounded hstart ps

/-! ### All rounds -/

/-- The rounds end with one that changes nothing. What the rounds before it keep holds of the table with which
it begins. -/
theorem exists_last_round (holds : Yields → Prop) (ps : List Production)
    (hkeep : ∀ yields yields', holds yields → ps.foldl improve (yields, false) = (yields', true) → holds yields')
    (hholds : holds yields) (hbounded : yields.Bounded) (hlimit : yields.least capitals < limit) :
    ∃ last, holds last ∧ last.Bounded ∧ ps.foldl improve (last, false) = (settle ps limit yields, false) := by
  induction limit generalizing yields with
  | zero => exact (Nat.not_lt_zero _ hlimit).elim
  | succ limit ih =>
      have himproves := improves_round hbounded ps
      rw [settle]
      split
      · rename_i yields' hround
        rw [hround] at himproves
        obtain ⟨v, hv, hlt⟩ := himproves.exists_lt rfl
        have hlt := least_lt himproves.entry_le hv hlt (mem_capitals_of_isVariable hv)
        exact ih (hkeep _ _ hholds hround) (fun v => Nat.le_trans (himproves.entry_le v) (hbounded v))
          (Nat.lt_of_lt_of_le hlt (Nat.le_of_lt_succ hlimit))
      · exact ⟨yields, hholds, hbounded, ‹_›⟩

/-- The table is settled: no entry is more than what a production allows for. -/
structure Settled (ps : List Production) (yields : Yields) : Prop where
  bounded : yields.Bounded
  entry_le_least : ∀ p ∈ ps, yields.entry p.left ≤ yields.least p.right

theorem settled_settle (hbounded : yields.Bounded) (hlimit : yields.least capitals < limit) :
    Settled ps (settle ps limit yields) := by
  obtain ⟨last, _, hlast, hround⟩ :=
    exists_last_round (fun _ => True) ps (fun _ _ _ _ => trivial) trivial hbounded hlimit
  have himproves := improves_round hlast ps
  rw [hround] at himproves
  refine ⟨fun v => Nat.le_trans (himproves.entry_le v) (hlast v), fun p hp => ?_⟩
  rw [himproves.entry_eq rfl, least_congr (himproves.entry_eq rfl)]
  exact himproves.entry_le_least rfl p hp

end Yields

/-- The table of a grammar is settled. -/
theorem Grammar.settled_shortestYields (g : Grammar) : Yields.Settled g.productions g.shortestYields :=
  Yields.settled_settle (fun v => Nat.le_refl _) (by decide)

end LanguageTheory
