import LanguageTheory.Proofs.Grammar.ShiftReduce

/-! When shift-reduce parsing ends. A table without conflicts can still reduce forever, where a variable
that derives no terminal word is awaited and productions are completed again and again before it. If every
variable that can occur derives some terminal word, parsing ends. Suppose that some reductions follow each
other. The stack after them can then be completed to a sentence, and before the letter that comes next in
it the parser makes the same reductions; but that parse ends, and there are finitely many letters. -/

namespace LanguageTheory

/-- Every variable of a string that the start variable derives goes on to a terminal word. -/
def Grammar.Productive (g : Grammar) : Prop :=
  ∀ before v after, g.Derives [g.start] (before ++ v :: after) → isVariable v = true →
    ∃ x, x.all isTerminal = true ∧ g.Derives [v] x

/-- It is enough that every variable of the grammar does. -/
theorem Grammar.productive_of_forall {g : Grammar}
    (h : ∀ v ∈ g.variableSymbols, ∃ x, x.all isTerminal = true ∧ g.Derives [v] x) : g.Productive := by
  have hmem : ∀ w, g.Derives [g.start] w → ∀ v ∈ w, isVariable v = true → v ∈ g.variableSymbols := by
    intro w hw
    induction hw with
    | refl =>
        intro v hv _
        exact mem_variableSymbols.2 (Or.inl (List.mem_singleton.1 hv))
    | step _ hstep ih =>
        obtain ⟨before, after, p, hp⟩ := hstep
        intro v hv hvariable
        rw [List.mem_append, List.mem_append] at hv
        rcases hv with (hv | hv) | hv
        · exact ih v (List.mem_append_left _ hv) hvariable
        · exact mem_variableSymbols.2 (Or.inr ⟨p, hp, Or.inr ⟨hv, hvariable⟩⟩)
        · exact ih v (List.mem_append_right _ (List.mem_cons_of_mem _ hv)) hvariable
  intro before v after hderives hvariable
  exact h v (hmem _ hderives v (List.mem_append_right _ List.mem_cons_self) hvariable)

theorem Grammar.Productive.exists_grown {g : Grammar} (h : g.Productive) {u w : Word}
    (hw : g.Derives [g.start] (u ++ w)) : ∃ z d, Grammar.Grown g d w z := by
  induction w generalizing u with
  | nil => exact ⟨[], 0, .nil⟩
  | cons c w ih =>
      obtain ⟨z, d, hz⟩ := ih (u := u ++ [c]) (by rwa [List.append_assoc])
      cases hc : isVariable c with
      | false => exact ⟨c :: z, d, .leaf (by rw [isTerminal, hc]; rfl) hz⟩
      | true =>
          obtain ⟨x, hx, hderives⟩ := h u c w hw hc
          obtain ⟨e, hgrown⟩ := (Grammar.derives_iff_grown hx).1 hderives
          exact ⟨x ++ z, max e d, (hgrown.mono (Nat.le_max_left e d)).append (hz.mono (Nat.le_max_right e d))⟩

namespace ShiftReduceTable

open AugmentedGrammar
open ParseStep (run_mono)

variable {a : AugmentedGrammar} {g : Grammar} {b c : Char} {n k : Nat} {table : ShiftReduceTable}
  {states states' : List Nat} {u γ : Word} {accepted : Bool}

/-! ### Reductions in a row -/

/-- Some number of reductions, while the symbol that comes next stays the same. -/
inductive Reductions (table : ShiftReduceTable) (c : Char) (states : List Nat) : Nat → List Nat → Prop
  | refl : Reductions table c states 0 states
  | step {n : Nat} {states' states'' : List Nat} : Reductions table c states n states' →
      table.turn states' c = .reduce states'' → Reductions table c states (n + 1) states''

theorem Reductions.leads (h : Reductions table c states n states') (rest : Word) :
    Leads table n ⟨states, c :: rest⟩ ⟨states', c :: rest⟩ := by
  induction h with
  | refl => exact .refl _ _
  | step _ hturn ih =>
      apply ih.trans
      apply Leads.of_step
      rw [step_cons, hturn]
      rfl

/-- A parse that ends takes more steps than it begins with reductions. -/
theorem Reductions.lt_of_run (h : Reductions table c states n states') {rest : Word}
    (hrun : ParseStep.run table.step k ⟨states, c :: rest⟩ = some accepted) : n < k := by
  by_contra hle
  have hnone := h.leads rest 0
  rw [Nat.add_zero, run_mono hrun (Nat.le_of_not_lt hle)] at hnone
  cases hnone

/-- Reductions lead to a stack from whose string the old one is derived. They would also be made before
another symbol that may come next after this stack. -/
theorem Reductions.transfer (h : a.Augments g) (hconflict : a.table.firstConflict? = none)
    (hr : Reductions a.table c states n states') (hs : Spelled a states γ) :
    ∃ γ', Spelled a states' γ' ∧ g.Derives γ' γ ∧
      ∀ ρ z d b, g.Derives [g.start] (γ' ++ ρ) → Grammar.Grown g d ρ z → (z ++ [endMarker]).head? = some b →
        Reductions a.table b states n states' := by
  induction hr with
  | refl => exact ⟨γ, hs, .refl, fun _ _ _ _ _ _ _ => .refl⟩
  | step _ hturn ih =>
      obtain ⟨γ', hs', hderives', htransfer⟩ := ih
      obtain ⟨p, hreduces, _⟩ := turn_eq_reduce h hturn
      obtain ⟨δ, rfl, hs''⟩ := hreduces.spelled h hs'
      have hright : g.Derives (δ ++ [p.left]) (δ ++ p.right) :=
        Grammar.Derives.refl.append (Grammar.derives_of_mem hreduces.mem_productions)
      refine ⟨_, hs'', hright.trans hderives', ?_⟩
      intro ρ z d b hρ hz hb
      have hbefore := hρ.trans (hright.append (.refl (u := ρ)))
      have hfollow : b ∈ g.followOf g.nullable p.left := by
        rw [List.append_assoc] at hρ
        exact Grammar.mem_followOf_of_derives hρ rfl hz hb
      exact (htransfer ρ z d b hbefore hz hb).step (turn_of_reduces h hconflict hreduces hfollow)

/-- The symbols that a reduction can be made before. -/
def following (g : Grammar) : List Char := g.productions.flatMap fun p => (g.followOf g.nullable p.left).toList

theorem Reductions.mem_following (h : a.Augments g) (hr : Reductions a.table c states (n + 1) states') :
    c ∈ following g := by
  cases hr with
  | step _ hturn =>
      obtain ⟨p, hreduces, hc⟩ := turn_eq_reduce h hturn
      exact List.mem_flatMap.2 ⟨p, hreduces.mem_productions, hc⟩

/-- There are at most `k` reductions in a row before the symbol. -/
def Bounded (table : ShiftReduceTable) (states : List Nat) (k : Nat) (c : Char) : Prop :=
  ∀ n states', Reductions table c states n states' → n ≤ k

theorem exists_bound (table : ShiftReduceTable) (states : List Nat) (cs : List Char) :
    ∃ k, ∀ c ∈ cs, (∃ n, Bounded table states n c) → Bounded table states k c := by
  induction cs with
  | nil => exact ⟨0, fun c hc => (List.not_mem_nil hc).elim⟩
  | cons c cs ih =>
      obtain ⟨k, hk⟩ := ih
      by_cases hc : ∃ n, Bounded table states n c
      · obtain ⟨n, hn⟩ := hc
        refine ⟨max n k, List.forall_mem_cons.2 ⟨fun _ m s hm => (hn m s hm).trans (Nat.le_max_left n k), ?_⟩⟩
        exact fun e he hbounded m s hm => (hk e he hbounded m s hm).trans (Nat.le_max_right n k)
      · exact ⟨k, List.forall_mem_cons.2 ⟨fun hbounded => (hc hbounded).elim, hk⟩⟩

/-! ### Reading on -/

/-- The parser comes to the stack when it has read `u`, whatever comes then. -/
structure Read (a : AugmentedGrammar) (g : Grammar) (u : Word) (states : List Nat) (γ : Word) : Prop where
  spelled : Spelled a states γ
  derives : g.Derives γ u
  all_isTerminal : u.all isTerminal = true
  leads : ∀ y, ∃ n, Leads a.table n ⟨[0], u ++ y⟩ ⟨states, y⟩

/-- Only so many reductions follow each other. -/
theorem Read.bounded (h : a.Augments g) (hconflict : a.table.firstConflict? = none) (hproductive : g.Productive)
    (hread : Read a g u states γ) (c : Char) : ∃ k, Bounded a.table states k c := by
  obtain ⟨k, hk⟩ := exists_bound a.table states (following g)
  refine ⟨k, fun n states' hr => ?_⟩
  cases n with
  | zero => exact Nat.zero_le k
  | succ n =>
      obtain ⟨γ', hs', hderives', htransfer⟩ := hr.transfer h hconflict hread.spelled
      obtain ⟨ρ, hρ⟩ := hs'.exists_derives h
      obtain ⟨z, d, hz⟩ := hproductive.exists_grown hρ
      obtain ⟨b, rest, hb⟩ := exists_append_endMarker z
      have hrb := htransfer ρ z d b hρ hz (by rw [hb, List.head?_cons])
      have hgenerates : g.Generates (u ++ z) := by
        refine ⟨?_, hρ.trans ((hderives'.trans hread.derives).append hz.derives)⟩
        rw [List.all_append, hread.all_isTerminal, hz.all_isTerminal, Bool.true_and]
      obtain ⟨m, _, hrun⟩ := exists_run_of_generates h hconflict hgenerates
      obtain ⟨l, hleads⟩ := hread.leads (z ++ [endMarker])
      rw [start, List.append_assoc] at hrun
      have hrun' := run_mono hrun (Nat.le_add_left (m + 1) l)
      rw [hleads, hb] at hrun'
      exact hk b (hrb.mem_following h) ⟨m + 1, fun j s hj => (hj.lt_of_run hrun').le⟩ _ states' hrb

/-- After finitely many reductions comes something else. -/
theorem exists_last_reduction (hbounded : Bounded table states k c) : ∃ n states',
    Reductions table c states n states' ∧ ∀ states'', table.turn states' c ≠ .reduce states'' := by
  by_contra hnone
  have hall : ∀ n, ∃ states', Reductions table c states n states' := by
    intro n
    induction n with
    | zero => exact ⟨states, .refl⟩
    | succ n ih =>
        obtain ⟨states', hr⟩ := ih
        by_contra hlast
        exact hnone ⟨n, states', hr, fun states'' hturn => hlast ⟨states'', hr.step hturn⟩⟩
  obtain ⟨states', hr⟩ := hall (k + 1)
  exact Nat.not_succ_le_self k (hbounded _ _ hr)

theorem Leads.exists_run {y y' : Parse} (h : Leads table n y y')
    (hrun : ∃ k accepted, ParseStep.run table.step k y' = some accepted) :
    ∃ k accepted, ParseStep.run table.step k y = some accepted := by
  obtain ⟨k, accepted, hk⟩ := hrun
  exact ⟨n + k, accepted, (h k).trans hk⟩

theorem Read.exists_verdict (h : a.Augments g) (hconflict : a.table.firstConflict? = none)
    (hproductive : g.Productive) (hread : Read a g u states γ) (rest : Word) :
    ∃ k accepted, ParseStep.run a.table.step k ⟨states, rest⟩ = some accepted := by
  induction rest generalizing u states γ with
  | nil => exact ⟨1, false, by rw [ParseStep.run, step_nil]⟩
  | cons c rest ih =>
      obtain ⟨k, hbounded⟩ := hread.bounded h hconflict hproductive c
      obtain ⟨n, states', hr, hlast⟩ := exists_last_reduction hbounded
      apply (hr.leads rest).exists_run
      cases hturn : a.table.turn states' c with
      | reduce states'' => exact (hlast states'' hturn).elim
      | verdict accepted => exact ⟨1, accepted, by rw [ParseStep.run, step_cons, hturn]; rfl⟩
      | shift states'' =>
          have hshift : ∀ y, Leads a.table 1 ⟨states', c :: y⟩ ⟨states'', y⟩ := by
            intro y
            apply Leads.of_step
            rw [step_cons, hturn]
            rfl
          apply (hshift rest).exists_run
          obtain ⟨γ', hs', hderives', _⟩ := hr.transfer h hconflict hread.spelled
          have hturned := turned h states' c
          rw [hturn] at hturned
          cases hturned with
          | shifts hc hedge =>
              refine ih (u := u ++ [c]) ⟨hs'.push hedge, ?_, ?_, ?_⟩
              · exact (hderives'.trans hread.derives).append .refl
              · rw [List.all_append, hread.all_isTerminal, List.all_cons, hc]
                rfl
              · intro y
                obtain ⟨m, hm⟩ := hread.leads (c :: y)
                rw [List.append_assoc]
                exact ⟨_, (hm.trans (hr.leads y)).trans (hshift y)⟩

/-- A parse with a table without conflicts ends, whatever the input, if every variable that can occur in a
derivation from the start variable derives a terminal word. -/
theorem parse_ends (g : Grammar) (hproductive : g.Productive) (table : ShiftReduceTable)
    (htable : g.shiftReduceTable = .ok table) (input : Word) :
    ∃ n accepted, ParseStep.run table.step n (start input) = some accepted := by
  obtain ⟨a, h, rfl, hconflict⟩ := eq_table_of_shiftReduceTable htable
  have hread : Read a g [] [0] [] := ⟨.nil, .refl, rfl, fun y => ⟨0, .refl _ _⟩⟩
  exact hread.exists_verdict h hconflict hproductive (input ++ [endMarker])

theorem parse_ends_nested : ∃ table, nested.Productive ∧ nested.shiftReduceTable = .ok table ∧
    ∃ n accepted, ParseStep.run table.step n (start ['a', 'b', 'a']) = some accepted := by
  have hproductive : nested.Productive := by
    apply Grammar.productive_of_forall
    have hall : nested.variableSymbols.toList = ['S'] := by decide +kernel
    intro v hv
    rw [Ascending.mem_def, hall] at hv
    obtain rfl := List.mem_singleton.1 hv
    exact ⟨[], rfl, Grammar.derives_of_mem (p := ⟨'S', [], rfl, rfl⟩) (by decide)⟩
  have hok : nested.shiftReduceTable.toBool = true := by decide +kernel
  cases htable : nested.shiftReduceTable with
  | error e =>
      rw [htable] at hok
      cases hok
  | ok table => exact ⟨table, hproductive, rfl, parse_ends nested hproductive table htable ['a', 'b', 'a']⟩

/-- After `d` comes `B`, and then `X`, which derives no terminal word. The production of `U`, which is not
reachable, lets `c` come after `B`. -/
def circling : Grammar where
  start := 'S'
  productions := [⟨'S', ['d', 'B', 'X'], Eq.refl true, Eq.refl true⟩, ⟨'B', ['B'], Eq.refl true, Eq.refl true⟩,
    ⟨'B', [], Eq.refl true, Eq.refl true⟩, ⟨'X', ['X', 'e'], Eq.refl true, Eq.refl true⟩,
    ⟨'U', ['B', 'c'], Eq.refl true, Eq.refl true⟩]
  start_isVariable := Eq.refl true
  nodup := by decide

/-- After `d` and before `c` an empty `B` is completed, and then `B` by the production `B → B`. -/
def Circles (table : ShiftReduceTable) : Prop :=
  table.turn [0] 'd' = .shift [2, 0] ∧ table.turn [2, 0] 'c' = .reduce [3, 2, 0] ∧
    table.turn [3, 2, 0] 'c' = .reduce [3, 2, 0]

instance (table : ShiftReduceTable) : Decidable (Circles table) := inferInstanceAs (Decidable (_ ∧ _))

theorem Circles.step_eq (h : Circles table) (rest : Word) :
    table.step ⟨[3, 2, 0], 'c' :: rest⟩ = .next ⟨[3, 2, 0], 'c' :: rest⟩ := by
  rw [step_cons, h.2.2]
  rfl

theorem Circles.run_eq_none (h : Circles table) (n : Nat) :
    ParseStep.run table.step n (start ['d', 'c']) = none := by
  have hfirst : Leads table 1 (start ['d', 'c']) ⟨[2, 0], ['c', endMarker]⟩ := by
    apply Leads.of_step
    rw [start, List.cons_append, step_cons, h.1]
    rfl
  have hsecond : Leads table 1 ⟨[2, 0], ['c', endMarker]⟩ ⟨[3, 2, 0], ['c', endMarker]⟩ := by
    apply Leads.of_step
    rw [step_cons, h.2.1]
    rfl
  have hloop : ∀ k, ParseStep.run table.step k ⟨[3, 2, 0], ['c', endMarker]⟩ = none := by
    intro k
    induction k with
    | zero => rfl
    | succ k ih =>
        rw [ParseStep.run, h.step_eq]
        exact ih
  cases hrun : ParseStep.run table.step n (start ['d', 'c']) with
  | none => rfl
  | some accepted =>
      have hmore := run_mono hrun (Nat.le_add_left n 2)
      rw [hfirst.trans hsecond n, hloop n] at hmore
      cases hmore

/-- The table has no conflicts, and the parse of `dc` never ends. -/
theorem circling_endless : ∃ table, circling.shiftReduceTable = .ok table ∧
    ∀ n, ParseStep.run table.step n (start ['d', 'c']) = none := by
  have hok : (circling.shiftReduceTable.toOption.any fun table => decide (Circles table)) = true := by
    decide +kernel
  cases htable : circling.shiftReduceTable with
  | error e =>
      rw [htable] at hok
      cases hok
  | ok table =>
      rw [htable] at hok
      have hcircles : Circles table := of_decide_eq_true hok
      exact ⟨table, rfl, hcircles.run_eq_none⟩

end ShiftReduceTable

end LanguageTheory
