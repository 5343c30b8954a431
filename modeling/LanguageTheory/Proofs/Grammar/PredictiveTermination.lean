import LanguageTheory.Proofs.Grammar.Predictive
import Mathlib.Order.WellFounded
import Mathlib.Tactic.Ring

/-! A predictive parse always ends, whether the table has conflicts or not. While the symbol that comes
next stays the same, a variable that is replaced never comes back to the top as part of its own
replacement: it is below itself neither on the way to that symbol, as a cell has one entry only, nor on
the way to the empty word. So the replacements below a variable form a tree that is no deeper than there
are variables, and the stack grows by a bounded amount from one symbol of the input to the next. The
verdict that a parse ends with is therefore the one that soundness and completeness speak of. -/

namespace LanguageTheory

/-- Along a well-founded relation, the members of a finite set have ranks that are bounded by its size. -/
theorem exists_rank {α : Type u} {r : α → α → Prop} (hr : WellFounded r) (s : Finset α) :
    ∃ rank : α → Nat, (∀ a, rank a ≤ s.card) ∧ ∀ a b, b ∈ s → r b a → rank b < rank a := by
  classical
  refine ⟨fun a => (s.filter (Relation.TransGen r · a)).card, fun a => Finset.card_filter_le _ _, ?_⟩
  intro a b hb hba
  apply Finset.card_lt_card
  rw [Finset.ssubset_iff_of_subset]
  · refine ⟨b, Finset.mem_filter.2 ⟨hb, .single hba⟩, fun hmem => ?_⟩
    exact hr.transGen.irrefl.irrefl b (Finset.mem_filter.1 hmem).2
  · intro c hc
    obtain ⟨hc, hcb⟩ := Finset.mem_filter.1 hc
    exact Finset.mem_filter.2 ⟨hc, hcb.tail hba⟩

namespace PredictiveTable

open ParseStep (run run_mono run_succ_of_next)

variable {g : Grammar} {p q : Production} {a b c v : Char} {u stack rest before after : Word} {n s l : Nat}

theorem isTerminal_of_get? (h : (build g).get? v c = some p) : isTerminal c = true := by
  obtain ⟨hp, _, hc, _⟩ := of_get?_build h
  rcases (mem_lookahead_iff hp).1 hc with hfirst | ⟨_, hfollow⟩
  · exact (Grammar.mem_firstOf.1 hfirst).1
  · exact Grammar.isTerminal_of_mem_followOf hfollow

theorem isVariable_of_get? (h : (build g).get? v c = some p) : isVariable v = true :=
  (of_get?_build h).2.1 ▸ p.left_isVariable

/-! ### Replacements before one symbol -/

/-- Before the symbol `c`, all of a string is replaced by nothing. -/
inductive Vanishes (g : Grammar) (c : Char) : Word → Prop
  | nil : Vanishes g c []
  | cons {v : Char} {p : Production} {u : Word} : (build g).get? v c = some p → Vanishes g c p.right →
      Vanishes g c u → Vanishes g c (v :: u)

/-- Before the symbol `c`, the replacement of `v` brings `b` to the top. -/
inductive Under (g : Grammar) (c b v : Char) : Prop
  | intro {p : Production} {before after : Word} : (build g).get? v c = some p →
      p.right = before ++ b :: after → Vanishes g c before → Under g c b v

theorem Vanishes.append (h : Vanishes g c u) (hb : Vanishes g c before) : Vanishes g c (u ++ before) := by
  induction h with
  | nil => exact hb
  | cons hp hright _ _ ih => exact .cons hp hright ih

theorem Vanishes.mem_nullable (h : Vanishes g c u) : ∀ b ∈ u, b ∈ g.nullable := by
  induction h with
  | nil => exact fun b hb => (List.not_mem_nil hb).elim
  | cons hp _ _ ih ih' =>
      obtain ⟨hmem, rfl, _, _⟩ := of_get?_build hp
      exact List.forall_mem_cons.2 ⟨Grammar.mem_nullable_of_right hmem ih, ih'⟩

theorem Vanishes.exists_of_mem (h : Vanishes g c u) (hb : b ∈ u) :
    ∃ p, (build g).get? b c = some p ∧ Vanishes g c p.right := by
  induction h with
  | nil => cases hb
  | cons hp hright _ _ ih =>
      rcases List.mem_cons.1 hb with rfl | hb
      · exact ⟨_, hp, hright⟩
      · exact ih hb

theorem mem_lookahead_of_front (hc : isTerminal c = true) (hq : q ∈ g.productions)
    (ha : a ∈ Grammar.leading g.nullable q.right) (hreaches : Reaches (g.fronts g.nullable) a c) :
    c ∈ lookahead (.of g) q :=
  (mem_lookahead_iff hq).2 (Or.inl (Grammar.mem_firstOf.2 ⟨hc, a, ha, hreaches⟩))

/-- What vanishes before a symbol cannot begin with it. -/
theorem Vanishes.not_mem_of_reaches (hc : isTerminal c = true) (h : Reaches (g.fronts g.nullable) b c) :
    ∀ u, Vanishes g c u → b ∉ u := by
  refine h.head_induction (p := fun b => ∀ u, Vanishes g c u → b ∉ u) ?_ ?_
  · intro u hu hmem
    obtain ⟨p, hp, _⟩ := hu.exists_of_mem hmem
    rw [isTerminal, isVariable_of_get? hp] at hc
    cases hc
  · intro b a ha hreaches ih u hu hmem
    obtain ⟨p, hp, hright⟩ := hu.exists_of_mem hmem
    obtain ⟨q, hq, hleft, ha⟩ := Grammar.mem_fronts.1 ha
    -- The production that leads to the symbol is the entry that vanishes.
    obtain rfl := (of_get?_build hp).2.2.2 q hq hleft (mem_lookahead_of_front hc hq ha hreaches)
    exact ih _ hright (Grammar.mem_of_mem_leading ha)

/-- Variables that can vanish are replaced by such variables only, each of which the symbol can follow. -/
theorem acc_of_nullable (hv : v ∈ g.nullable) (hfollow : c ∈ g.followOf g.nullable v) : Acc (Under g c) v := by
  rw [Grammar.nullable, Ascending.mem_ofList, Rule.mem_consequences] at hv
  induction hv with
  | intro rule hrule hbody ih =>
      obtain ⟨q, hq, rfl⟩ := List.mem_map.1 hrule
      have hnullable : ∀ b ∈ q.right, b ∈ g.nullable := by
        intro b hb
        rw [Grammar.nullable, Ascending.mem_ofList, Rule.mem_consequences]
        exact hbody b hb
      refine .intro _ fun b hb => ?_
      obtain @⟨p, before, after, hp, hright, _⟩ := hb
      obtain rfl := (of_get?_build hp).2.2.2 q hq rfl ((mem_lookahead_iff hq).2 (Or.inr ⟨hnullable, hfollow⟩))
      have hmem : b ∈ q.right := hright ▸ List.mem_append_right _ List.mem_cons_self
      have hrests : after ∈ Grammar.rests b q.right := hright ▸ Grammar.mem_rests before after b
      have hafter : ∀ e ∈ after, e ∈ g.nullable := fun e he =>
        hnullable e (hright ▸ List.mem_append_right _ (List.mem_cons_of_mem b he))
      exact ih b hmem (Grammar.mem_followOf_of_host (Grammar.mem_hosts.2 ⟨q, hq, ⟨after, hrests, hafter⟩, rfl⟩) hfollow)

/-- On the way to the symbol each replacement comes closer to it, or leaves the way for the variables
before it, which can vanish. -/
theorem acc_of_reaches (hc : isTerminal c = true) (h : Reaches (g.fronts g.nullable) v c) : Acc (Under g c) v := by
  refine h.head_induction (p := Acc (Under g c)) ?_ ?_
  · refine .intro _ fun b hb => ?_
    obtain ⟨hp, _, _⟩ := hb
    rw [isTerminal, isVariable_of_get? hp] at hc
    cases hc
  · intro v a ha hreaches ih
    obtain ⟨q, hq, hleft, ha⟩ := Grammar.mem_fronts.1 ha
    obtain ⟨front, back, hq', hfront⟩ := Grammar.exists_of_mem_leading ha
    refine .intro _ fun b hb => ?_
    obtain @⟨p, before, after, hp, hright, hbefore⟩ := hb
    obtain rfl := (of_get?_build hp).2.2.2 q hq hleft (mem_lookahead_of_front hc hq ha hreaches)
    rcases List.append_eq_append_iff.1 (hright.symm.trans hq') with ⟨t, rfl, ht⟩ | ⟨t, rfl, ht⟩
    · cases t with
      | nil =>
          obtain ⟨rfl, _⟩ := List.cons.inj ht
          exact ih
      | cons e t =>
          -- The variable stands before the one that leads to the symbol.
          obtain ⟨rfl, rfl⟩ := List.cons.inj ht
          have hb : b ∈ g.nullable := hfront b (List.mem_append_right _ List.mem_cons_self)
          have ht : ∀ e ∈ t, e ∈ g.nullable := fun e he =>
            hfront e (List.mem_append_right _ (List.mem_cons_of_mem b he))
          have hrests : t ++ a :: back ∈ Grammar.rests b q.right := hright ▸ Grammar.mem_rests before _ b
          have hfront : a ∈ Grammar.leading g.nullable (t ++ a :: back) :=
            Grammar.mem_leading_append.2 (Or.inr ⟨ht, Grammar.mem_leading_cons _ a back⟩)
          have hfirst : c ∈ g.firstOf g.nullable (t ++ a :: back) :=
            Grammar.mem_firstOf.2 ⟨hc, a, hfront, hreaches⟩
          exact acc_of_nullable hb (Grammar.mem_followOf.2
            ⟨b, .refl, Grammar.mem_neighbours.2 (Or.inr ⟨q, hq, _, hrests, hfirst⟩)⟩)
    · cases t with
      | nil =>
          obtain ⟨rfl, _⟩ := List.cons.inj ht
          exact ih
      | cons e t =>
          -- The variable stands behind it, but that one does not vanish.
          obtain ⟨rfl, _⟩ := List.cons.inj ht
          exact (Vanishes.not_mem_of_reaches hc hreaches _ hbefore
            (List.mem_append_right _ List.mem_cons_self)).elim

/-- Before one symbol no replacement goes on for ever. -/
theorem wellFounded_under (g : Grammar) (c : Char) : WellFounded (Under g c) := by
  refine ⟨fun v => ?_⟩
  cases hp : (build g).get? v c with
  | none =>
      refine .intro _ fun b hb => ?_
      obtain ⟨hp', _, _⟩ := hb
      rw [hp] at hp'
      cases hp'
  | some p =>
      obtain ⟨hmem, rfl, hc, _⟩ := of_get?_build hp
      rcases (mem_lookahead_iff hmem).1 hc with hfirst | ⟨hnullable, hfollow⟩
      · obtain ⟨_, a, ha, hreaches⟩ := Grammar.mem_firstOf.1 hfirst
        exact acc_of_reaches (isTerminal_of_get? hp) (hreaches.head (Grammar.mem_fronts.2 ⟨p, hmem, rfl, ha⟩))
      · exact acc_of_nullable (Grammar.mem_nullable_of_right hmem hnullable) hfollow

/-! ### Bounds -/

/-- There is a verdict within the given number of steps. -/
def Ends (g : Grammar) (n : Nat) (s : Parse) : Prop := ∃ accepted, run (build g).step n s = some accepted

variable {y y' : Parse} {m k : Nat}

theorem Ends.mono (h : Ends g n y) (hle : n ≤ m) : Ends g m y := by
  obtain ⟨accepted, h⟩ := h
  exact ⟨accepted, run_mono h hle⟩

theorem Ends.step (h : Ends g n y') (hstep : (build g).step y = .next y') : Ends g (n + 1) y := by
  obtain ⟨accepted, h⟩ := h
  exact ⟨accepted, (run_succ_of_next hstep).trans h⟩

theorem Ends.of_verdict {accepted : Bool} (hstep : (build g).step y = .verdict accepted) : Ends g 1 y :=
  ⟨accepted, by rw [run, hstep]⟩

/-- What comes of a string on top of the stack within a number of steps: it vanishes, or the symbol that
comes next is read and a string of bounded length is left of it, or there is a verdict. -/
inductive Handled (g : Grammar) (c : Char) (n l : Nat) (u stack rest : Word) : Prop
  | vanishes : Vanishes g c u → (∀ m, Ends g m ⟨stack, c :: rest⟩ → Ends g (n + m) ⟨u ++ stack, c :: rest⟩) →
      Handled g c n l u stack rest
  | reads {left : Word} : left.length ≤ l →
      (∀ m, Ends g m ⟨left ++ stack, rest⟩ → Ends g (n + m) ⟨u ++ stack, c :: rest⟩) →
      Handled g c n l u stack rest
  | ends : Ends g n ⟨u ++ stack, c :: rest⟩ → Handled g c n l u stack rest

theorem Handled.mono (h : Handled g c n l u stack rest) (hn : n ≤ m) (hl : l ≤ k) :
    Handled g c m k u stack rest := by
  cases h with
  | vanishes hu hends => exact .vanishes hu fun i hi => (hends i hi).mono (Nat.add_le_add_right hn i)
  | reads hleft hends => exact .reads (hleft.trans hl) fun i hi => (hends i hi).mono (Nat.add_le_add_right hn i)
  | ends hends => exact .ends (hends.mono hn)

/-- The symbols of a string are handled one after the other, as long as those before vanish. -/
theorem handled_word (hu : ∀ before b after, u = before ++ b :: after → Vanishes g c before →
    ∀ stack, Handled g c n l [b] stack rest) (stack : Word) :
    Handled g c (u.length * n) (u.length + l) u stack rest := by
  induction u with
  | nil => exact .vanishes .nil fun m hm => hm.mono (Nat.le_add_left _ _)
  | cons b u ih =>
      have hlength : (b :: u).length * n = n + u.length * n := by
        rw [List.length_cons, Nat.succ_mul, Nat.add_comm]
      rw [hlength]
      cases hu [] b u rfl .nil (u ++ stack) with
      | vanishes hb hends =>
          have hothers := ih fun before a after heq hbefore =>
            hu (b :: before) a after (congrArg (b :: ·) heq) (hb.append hbefore)
          cases hothers with
          | vanishes hvanishes hends' =>
              refine .vanishes (hb.append hvanishes) fun m hm => ?_
              rw [Nat.add_assoc]
              exact hends _ (hends' m hm)
          | reads hleft hends' =>
              refine .reads (hleft.trans (Nat.add_le_add_right (Nat.le_succ _) l)) fun m hm => ?_
              rw [Nat.add_assoc]
              exact hends _ (hends' m hm)
          | ends hends' => exact .ends (hends _ hends')
      | @reads left hleft hends =>
          have hlength' : (left ++ u).length ≤ (b :: u).length + l := by
            rw [List.length_append, List.length_cons]
            omega
          refine .reads hlength' fun m hm => ?_
          rw [List.append_assoc] at hm
          exact (hends m hm).mono (Nat.add_le_add_right (Nat.le_add_right _ _) m)
      | ends hends => exact .ends (hends.mono (Nat.le_add_right _ _))

theorem handled_terminal (hv : isVariable v = false) (stack rest : Word) :
    Handled g c 1 0 [v] stack rest := by
  by_cases hvc : v = c
  · subst hvc
    have hends : ∀ m, Ends g m ⟨[] ++ stack, rest⟩ → Ends g (1 + m) ⟨[v] ++ stack, v :: rest⟩ := by
      intro m hm
      rw [Nat.add_comm]
      exact hm.step (step_reads _ (by rw [isTerminal, hv]; rfl))
    exact .reads List.length_nil.le hends
  · have hstep : (build g).step ⟨[v] ++ stack, c :: rest⟩ = .verdict false := by
      simp only [step, List.singleton_append, hv, hvc]
      rfl
    exact .ends (.of_verdict hstep)

/-- Taking an entry of the table costs one step more than what it puts on the stack. -/
theorem Handled.of_get? (hp : (build g).get? v c = some p) (h : Handled g c n l p.right stack rest) :
    Handled g c (n + 1) l [v] stack rest := by
  have hstep : (build g).step ⟨[v] ++ stack, c :: rest⟩ = .next ⟨p.right ++ stack, c :: rest⟩ := by
    simp only [step, List.singleton_append, isVariable_of_get? hp, hp, if_true]
  cases h with
  | vanishes hu hends =>
      refine .vanishes (.cons hp hu .nil) fun m hm => ?_
      rw [Nat.add_right_comm]
      exact (hends m hm).step hstep
  | reads hleft hends =>
      refine .reads hleft fun m hm => ?_
      rw [Nat.add_right_comm]
      exact (hends m hm).step hstep
  | ends hends => exact .ends (hends.step hstep)

/-- A variable is handled within a number of steps that depends on its rank. -/
theorem handled_of_rank {rank : Char → Nat}
    (hrank : ∀ v b, b ∈ g.variableSymbols → Under g c b v → rank b < rank v) (n : Nat) (v : Char)
    (hv : isVariable v = true → rank v < n) (stack rest : Word) :
    Handled g c ((g.width + 1) ^ n) (g.width * n) [v] stack rest := by
  induction n generalizing v stack with
  | zero =>
      have hterminal : isVariable v = false := Bool.eq_false_iff.2 fun h => absurd (hv h) (Nat.not_lt_zero _)
      exact (handled_terminal hterminal stack rest).mono (Nat.one_le_pow _ _ (Nat.succ_pos _)) (Nat.zero_le _)
  | succ n ih =>
      have hpos : 1 ≤ (g.width + 1) ^ n := Nat.one_le_pow _ _ (Nat.succ_pos _)
      have hpow : (g.width + 1) ^ (n + 1) = g.width * (g.width + 1) ^ n + (g.width + 1) ^ n := by
        rw [pow_succ, Nat.mul_comm, Nat.succ_mul]
      cases hvariable : isVariable v with
      | false => exact (handled_terminal hvariable stack rest).mono (by omega) (Nat.zero_le _)
      | true =>
          cases hp : (build g).get? v c with
          | none =>
              have hstep : (build g).step ⟨v :: stack, c :: rest⟩ = .verdict false := by
                simp only [step, hvariable, hp, if_true]
              exact .ends ((Ends.of_verdict hstep).mono (by omega))
          | some p =>
              have hmem := (of_get?_build hp).1
              have hwidth := Grammar.length_le_width hmem
              have hbelow : ∀ before b after, p.right = before ++ b :: after → Vanishes g c before →
                  ∀ stack, Handled g c ((g.width + 1) ^ n) (g.width * n) [b] stack rest := by
                intro before b after hb hbefore stack
                refine ih b (fun hb' => ?_) stack
                have hsymbol : b ∈ g.variableSymbols := Grammar.mem_variableSymbols.2 (Or.inr
                  ⟨p, hmem, Or.inr ⟨hb ▸ List.mem_append_right _ List.mem_cons_self, hb'⟩⟩)
                exact (hrank v b hsymbol (.intro hp hb hbefore)).trans_le (Nat.le_of_lt_succ (hv hvariable))
              have hsteps : p.right.length * (g.width + 1) ^ n + 1 ≤ (g.width + 1) ^ (n + 1) := by
                rw [hpow]
                exact Nat.add_le_add (Nat.mul_le_mul_right _ hwidth) hpos
              have hleft : p.right.length + g.width * n ≤ g.width * (n + 1) := by
                rw [Nat.mul_succ]
                omega
              exact ((handled_word hbelow stack).of_get? hp).mono hsteps hleft

/-- How many steps one symbol of the stack takes before one symbol of the input. -/
def pace (g : Grammar) : Nat := (g.width + 1) ^ (g.variableSymbols.size + 1)

/-- How much the stack grows before one symbol of the input. -/
def growth (g : Grammar) : Nat := g.width * (g.variableSymbols.size + 1)

theorem handled_stack (g : Grammar) (c : Char) (u stack rest : Word) :
    Handled g c (u.length * pace g) (u.length + growth g) u stack rest := by
  classical
  obtain ⟨rank, hle, hrank⟩ := exists_rank (wellFounded_under g c) g.variableSymbols.toList.toFinset
  refine handled_word (fun _ b _ _ _ stack => ?_) stack
  apply handled_of_rank fun v b hb => hrank v b (List.mem_toFinset.2 hb)
  intro _
  exact Nat.lt_succ_of_le ((hle b).trans (List.toFinset_card_le _))

/-- Every parse ends, within a number of steps that the stack and the input bound. -/
theorem ends_of_length (g : Grammar) (stack rest : Word) :
    Ends g ((rest.length + 1) * ((stack.length + rest.length * growth g) * pace g + 1)) ⟨stack, rest⟩ := by
  induction rest generalizing stack with
  | nil =>
      have hpos := Nat.mul_pos (Nat.succ_pos 0) (Nat.succ_pos ((stack.length + 0 * growth g) * pace g))
      cases stack with
      | nil => exact (Ends.of_verdict rfl).mono hpos
      | cons v stack => exact (Ends.of_verdict rfl).mono hpos
  | cons c rest ih =>
      have hempty : Ends g 1 ⟨[], c :: rest⟩ := .of_verdict rfl
      have hfirst : stack.length * pace g ≤ (stack.length + (c :: rest).length * growth g) * pace g :=
        Nat.mul_le_mul_right _ (Nat.le_add_right _ _)
      have htotal : ∀ k ≤ (rest.length + 1) * ((stack.length + (c :: rest).length * growth g) * pace g + 1),
          stack.length * pace g + k ≤
            ((c :: rest).length + 1) * ((stack.length + (c :: rest).length * growth g) * pace g + 1) := by
        intro k hk
        rw [List.length_cons, Nat.succ_mul (rest.length + 1), Nat.add_comm]
        exact Nat.add_le_add hk (Nat.le_succ_of_le hfirst)
      cases handled_stack g c stack [] rest with
      | vanishes _ hends =>
          rw [List.append_nil] at hends
          exact (hends 1 hempty).mono (htotal 1 (Nat.mul_pos (Nat.succ_pos _) (Nat.succ_pos _)))
      | @reads left hleft hends =>
          rw [List.append_nil, List.append_nil] at hends
          have hlength : left.length + rest.length * growth g ≤
              stack.length + (c :: rest).length * growth g := by
            rw [List.length_cons, Nat.succ_mul]
            omega
          refine (hends _ (ih left)).mono (htotal _ (Nat.mul_le_mul_left _ (Nat.succ_le_succ ?_)))
          exact Nat.mul_le_mul_right _ hlength
      | ends hends =>
          rw [List.append_nil] at hends
          exact hends.mono (htotal 0 (Nat.zero_le _))

theorem growth_mul_pace_le (g : Grammar) :
    growth g * pace g ≤ (g.width + 2) ^ (2 * g.variableSymbols.size + 3) := by
  have hsize : g.variableSymbols.size + 1 ≤ (g.width + 2) ^ (g.variableSymbols.size + 1) :=
    (Nat.lt_pow_self (Nat.le_add_left 2 _)).le
  calc growth g * pace g
      ≤ (g.width + 2) * (g.width + 2) ^ (g.variableSymbols.size + 1) *
          (g.width + 2) ^ (g.variableSymbols.size + 1) :=
        Nat.mul_le_mul (Nat.mul_le_mul (Nat.le_add_right _ 2) hsize) (Nat.pow_le_pow_left (Nat.le_succ _) _)
    _ = (g.width + 2) ^ (2 * g.variableSymbols.size + 3) := by ring

theorem pace_lt (g : Grammar) : pace g < (g.width + 2) ^ (2 * g.variableSymbols.size + 3) :=
  (Nat.pow_lt_pow_left (Nat.lt_succ_self _) (Nat.succ_ne_zero _)).trans_le
    (Nat.pow_le_pow_right (Nat.succ_pos _) (by omega))

/-- The limit is no smaller than what any parse takes. -/
theorem ends_limit (g : Grammar) (w : Word) : Ends g ((build g).limit w) ((build g).start w) := by
  refine (ends_of_length g [g.start, endMarker] (w ++ [endMarker])).mono ?_
  show _ ≤ (w.length + 3) * (g.width + 2) ^ (2 * g.variableSymbols.size + 3) *
    ((w.length + 3) * (g.width + 2) ^ (2 * g.variableSymbols.size + 3))
  have hgrowth := growth_mul_pace_le g
  have hpace := pace_lt g
  generalize (g.width + 2) ^ (2 * g.variableSymbols.size + 3) = tree at hgrowth hpace ⊢
  rw [List.length_append, List.length_singleton]
  have hinput : w.length + 1 + 1 ≤ (w.length + 3) * tree :=
    (Nat.le_succ _).trans (Nat.le_mul_of_pos_right _ (Nat.zero_lt_of_lt hpace))
  apply Nat.mul_le_mul hinput
  calc (2 + (w.length + 1) * growth g) * pace g + 1
      = 2 * pace g + 1 + (w.length + 1) * (growth g * pace g) := by ring
    _ ≤ 2 * tree + (w.length + 1) * tree := Nat.add_le_add (by omega) (Nat.mul_le_mul_left _ hgrowth)
    _ = (w.length + 3) * tree := by ring

/-- A cell that several productions claim ends a parse like an empty one. -/
theorem step_of_conflict {t : PredictiveTable} (hv : isVariable v = true) (h : 1 < (t.entries v c).length) :
    t.step ⟨v :: stack, c :: rest⟩ = .verdict false := by
  have hget : t.get? v c = none := by
    rw [get?]
    split
    next hentries =>
      rw [hentries] at h
      exact absurd h (Nat.lt_irrefl 1)
    next => rfl
  simp only [step, hv, hget, if_true]

/-- Predictive parsing always ends, whatever the grammar. No parse takes steps forever, wherever it begins;
the answer for an input is the verdict that its parse reaches, within the limit; and a conflict met on the way
is a rejection. -/
theorem always_ends (g : Grammar) :
    (WellFounded fun s' s : Parse => (build g).step s = .next s') ∧
    (∀ w, run (build g).step ((build g).limit w) ((build g).start w) = some ((build g).accepts w)) ∧
    ∀ v c stack rest, isVariable v = true → 1 < ((build g).entries v c).length →
      (build g).step ⟨v :: stack, c :: rest⟩ = .verdict false := by
  refine ⟨⟨fun s => ?_⟩, fun w => ?_, fun v c stack rest hv h => step_of_conflict hv h⟩
  · obtain ⟨accepted, h⟩ := ends_of_length g s.stack s.rest
    exact ParseStep.acc_of_run h
  · obtain ⟨accepted, h⟩ := ends_limit g w
    rw [accepts, h, Option.getD_some]

/-- Predictive parsing is correct: what the table of a grammar accepts, even with conflicts, is derived by
the start variable, and without conflicts all that is derived is accepted. -/
theorem accepts_spec (g : Grammar) (w : Word) :
    ((build g).accepts w = true ∨ (∃ n, run (build g).step n ((build g).start w) = some true) →
      g.Generates w) ∧
    ∀ t, g.predictiveTable = .ok t → g.Generates w → t.accepts w = true := by
  obtain ⟨accepted, hlimit⟩ := ends_limit g w
  constructor
  · intro h
    obtain ⟨n, hn⟩ : ∃ n, run (build g).step n ((build g).start w) = some true := by
      rcases h with h | h
      · rw [accepts, hlimit, Option.getD_some] at h
        exact ⟨_, h ▸ hlimit⟩
      · exact h
    exact generates_of_run hn
  · intro t ht hw
    obtain ⟨rfl, hconflict⟩ := eq_build_of_predictiveTable ht
    obtain ⟨n, hn⟩ := exists_run_of_generates hconflict hw
    rw [accepts, hlimit, Option.getD_some]
    exact ParseStep.run_unique hlimit hn

end PredictiveTable

end LanguageTheory
