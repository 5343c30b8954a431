import LanguageTheory.Proofs.Grammar.Forest
import LanguageTheory.Proofs.Grammar.TableCells
import LanguageTheory.Proofs.Grammar.ViablePrefix
import Mathlib.Tactic.Ring

/-! Shift-reduce parsing is right. The stack spells a viable prefix that derives what has been read, so
acceptance means that the start variable derives the input. In the other direction the parser goes
through the forest of a derivation from left to right: whatever comes after a completed tree is in FOLLOW
of its variable, so that a table without conflicts has just the reduction that the forest asks for. The
reductions list the forest from the leaves up. -/

namespace LanguageTheory.ShiftReduceTable

open AugmentedGrammar
open ParseStep (run_mono)

variable {a : AugmentedGrammar} {g : Grammar} {f : Forest} {p : Production} {ps qs : List Production} {i : Item}
  {b c : Char} {d n m s u : Nat} {table : ShiftReduceTable} {states states' : List Nat} {v w x z γ : Word}
  {y y' y'' : Parse}

/-! ### Turns -/

/-- What the table says for a stack and the symbol that comes next. -/
inductive Turn
  | shift (states : List Nat)
  | reduce (states : List Nat)
  | verdict (accepted : Bool)
deriving DecidableEq

def turn (table : ShiftReduceTable) (states : List Nat) (c : Char) : Turn :=
  match states with
  | [] => .verdict false
  | state :: _ =>
      match table.action? state c with
      | some (.shift target) => .shift (target :: states)
      | some (.reduce index) =>
          match table.augmented.grammar.productions[index]? with
          | none => .verdict false
          | some p =>
              match (states.drop p.length).head?.bind fun state => table.goto? state p.left with
              | none => .verdict false
              | some target => .reduce (target :: states.drop p.length)
      | some .accept => .verdict true
      | none => .verdict false

/-- Where a turn leads, given what comes after the next symbol. -/
def Turn.next (c : Char) (rest : Word) : Turn → ParseStep Parse
  | .shift states => .next ⟨states, rest⟩
  | .reduce states => .next ⟨states, c :: rest⟩
  | .verdict accepted => .verdict accepted

theorem step_cons (table : ShiftReduceTable) (states : List Nat) (c : Char) (rest : Word) :
    table.step ⟨states, c :: rest⟩ = (table.turn states c).next c rest := by
  cases states with
  | nil => rfl
  | cons state states =>
      simp only [step, turn]
      cases table.action? state c with
      | none => rfl
      | some action =>
          cases action with
          | shift target => rfl
          | accept => rfl
          | reduce index =>
              dsimp only
              cases table.augmented.grammar.productions[index]? with
              | none => rfl
              | some p =>
                  dsimp only
                  cases ((state :: states).drop p.length).head?.bind fun state => table.goto? state p.left <;> rfl

theorem step_nil (table : ShiftReduceTable) (states : List Nat) :
    table.step ⟨states, []⟩ = .verdict false := by
  cases states <;> rfl

/-- A reduction by a production: the last state holds it completed, and its variable has an edge from the
state below it. -/
inductive Reduces (a : AugmentedGrammar) (g : Grammar) (p : Production) : List Nat → List Nat → Prop
  | intro {s u t index dot : Nat} {states below : List Nat} : a.Holds s ⟨index + 1, dot⟩ →
      g.productions[index]? = some p → p.right.length ≤ dot →
      (s :: states).drop p.right.length = u :: below → a.Edge u p.left t →
      Reduces a g p (s :: states) (t :: u :: below)

theorem Reduces.mem_productions (h : Reduces a g p states states') : p ∈ g.productions := by
  cases h with
  | intro _ hp _ _ _ => exact List.mem_of_getElem? hp

theorem claims_of_action? (h : a.Augments g) {x : Action} (hx : a.table.action? s c = some x) :
    Claims a g s c x :=
  (mem_actions h).1 (mem_actions_of_action? hx)

/-- What a turn can be: a symbol is shifted along an edge, a completed production is reduced before a
symbol of its FOLLOW set, and the added production is accepted before the end marker. -/
inductive Turned (a : AugmentedGrammar) (g : Grammar) (c : Char) : List Nat → Turn → Prop
  | rejects {states : List Nat} : Turned a g c states (.verdict false)
  | accepts {s dot : Nat} {below : List Nat} : a.Holds s ⟨0, dot⟩ → 1 ≤ dot → c = endMarker →
      Turned a g c (s :: below) (.verdict true)
  | shifts {s t : Nat} {below : List Nat} : isTerminal c = true → a.Edge s c t →
      Turned a g c (s :: below) (.shift (t :: s :: below))
  | reduces {p : Production} {states states' : List Nat} : Reduces a g p states states' →
      c ∈ g.followOf g.nullable p.left → Turned a g c states (.reduce states')

theorem turned (h : a.Augments g) (states : List Nat) (c : Char) :
    Turned a g c states (a.table.turn states c) := by
  unfold turn
  split
  next => exact .rejects
  next s below =>
    split
    next t haction =>
      cases claims_of_action? h haction with
      | shift hc hedge => exact .shifts hc hedge
    next index haction =>
      split
      next => exact .rejects
      next p hp =>
        split
        next => exact .rejects
        next t ht =>
          obtain ⟨u, hu, hgoto⟩ := Option.bind_eq_some_iff.1 ht
          obtain ⟨rest, hrest⟩ := List.head?_eq_some_iff.1 hu
          have hgrammar : g.productions[index]? = some p := h.grammar_eq ▸ hp
          cases claims_of_action? h haction with
          | reduce hi hp' hdot hc =>
              obtain rfl := Option.some.inj (hgrammar.symm.trans hp')
              rw [hrest]
              exact .reduces (.intro hi hgrammar hdot hrest (goto?_eq_some.1 hgoto).2) hc
    next haction =>
      cases claims_of_action? h haction with
      | accept hi hdot hc => exact .accepts hi hdot hc
    next => exact .rejects

theorem turn_eq_reduce (h : a.Augments g) (hturn : a.table.turn states c = .reduce states') :
    ∃ p, Reduces a g p states states' ∧ c ∈ g.followOf g.nullable p.left := by
  have hturned := turned h states c
  rw [hturn] at hturned
  cases hturned with
  | reduces hreduces hc => exact ⟨_, hreduces, hc⟩

/-! ### What the stack spells -/

theorem Reduces.spelled (h : a.Augments g) (hreduces : Reduces a g p states states') (hs : Spelled a states γ) :
    ∃ δ, γ = δ ++ p.right ∧ Spelled a states' (δ ++ [p.left]) := by
  cases hreduces with
  | intro hi hp hdot hdrop hedge =>
      obtain ⟨ρ, hviable⟩ := hs.viable hi
      obtain ⟨δ, q, hshape⟩ := hviable.shape h
      have hq := hshape.production_eq
      rw [h.getElem?_succ, hp] at hq
      obtain rfl := Option.some.inj hq
      have hγ := hshape.prefix_eq
      rw [List.take_of_length_le hdot] at hγ
      subst hγ
      have hbelow := hs.drop
      rw [hdrop] at hbelow
      exact ⟨δ, rfl, hbelow.push hedge⟩

theorem spelled_of_accepts (h : a.Augments g) (hs : Spelled a (s :: states) γ) (hi : a.Holds s ⟨0, n⟩)
    (hdot : 1 ≤ n) : γ = [g.start] := by
  obtain ⟨ρ, hviable⟩ := hs.viable hi
  obtain ⟨δ, q, hshape⟩ := hviable.shape h
  obtain ⟨first, hfirst, _, hright⟩ := h.exists_first
  obtain rfl := Option.some.inj (hfirst.symm.trans hshape.production_eq)
  rw [hshape.prefix_eq, hshape.start rfl, List.nil_append, hright]
  exact List.take_of_length_le hdot

/-- The stack spells something that derives what has been read of the input. -/
def Parsed (a : AugmentedGrammar) (g : Grammar) (w : Word) (s : Parse) : Prop :=
  ∃ γ x, Spelled a s.states γ ∧ g.Derives γ x ∧ x.all isTerminal = true ∧ x ++ s.rest = w ++ [endMarker]

theorem parsed_start (a : AugmentedGrammar) (g : Grammar) (w : Word) : Parsed a g w (start w) :=
  ⟨[], [], .nil, .refl, rfl, rfl⟩

theorem Parsed.next (h : a.Augments g) (hy : Parsed a g w y) (hstep : a.table.step y = .next y') :
    Parsed a g w y' := by
  obtain ⟨states, rest⟩ := y
  obtain ⟨γ, x, hspelled, hderives, hterminal, hrest⟩ := hy
  cases rest with
  | nil =>
      rw [step_nil] at hstep
      cases hstep
  | cons c rest =>
      have hturned := turned h states c
      rw [step_cons] at hstep
      cases hturned' : a.table.turn states c with
      | verdict accepted =>
          rw [hturned'] at hstep
          cases hstep
      | shift states' =>
          rw [hturned'] at hstep hturned
          cases hstep
          cases hturned with
          | shifts hc hedge =>
              refine ⟨γ ++ [c], x ++ [c], hspelled.push hedge, hderives.append .refl, ?_, ?_⟩
              · rw [List.all_append, hterminal, List.all_cons, hc]
                rfl
              · rwa [List.append_assoc]
      | reduce states' =>
          rw [hturned'] at hstep hturned
          cases hstep
          cases hturned with
          | reduces hreduces _ =>
              obtain ⟨δ, rfl, hspelled'⟩ := hreduces.spelled h hspelled
              have hright := Grammar.derives_of_mem hreduces.mem_productions
              exact ⟨_, x, hspelled', (Grammar.Derives.refl.append hright).trans hderives, hterminal, hrest⟩

theorem exists_append_endMarker (x : Word) : ∃ b rest, x ++ [endMarker] = b :: rest :=
  List.exists_cons_of_ne_nil (List.append_ne_nil_of_right_ne_nil _ (List.cons_ne_nil _ _))

/-- What stands before the first end marker is the input. -/
theorem eq_of_append_endMarker {rest : Word} (hw : endMarker ∉ w) (h : x ++ endMarker :: rest = w ++ [endMarker]) :
    x = w := by
  rcases Grammar.append_eq_append_cons h.symm with ⟨t, rfl, _⟩ | ⟨t, rfl, ht⟩
  · exact (hw (List.mem_append_right _ List.mem_cons_self)).elim
  · cases t with
    | nil => exact List.append_nil w
    | cons e t =>
        have hlength := congrArg List.length ht
        simp at hlength

/-- What has been read at acceptance is derived, and an end marker comes after it. -/
theorem Parsed.exists_generates (h : a.Augments g) (hy : Parsed a g w y)
    (hstep : a.table.step y = .verdict true) :
    ∃ x rest, x ++ endMarker :: rest = w ++ [endMarker] ∧ g.Generates x := by
  obtain ⟨states, rest⟩ := y
  obtain ⟨γ, x, hspelled, hderives, hterminal, hrest⟩ := hy
  cases rest with
  | nil =>
      rw [step_nil] at hstep
      cases hstep
  | cons c rest =>
      have hturned := turned h states c
      rw [step_cons] at hstep
      generalize a.table.turn states c = o at hstep hturned
      cases hturned with
      | rejects => cases hstep
      | shifts => cases hstep
      | reduces => cases hstep
      | accepts hi hdot hc =>
          subst hc
          obtain rfl := spelled_of_accepts h hspelled hi hdot
          exact ⟨x, rest, hrest, hterminal, hderives⟩

theorem exists_generates_of_run (h : a.Augments g) (hrun : ParseStep.run a.table.step n (start w) = some true) :
    ∃ x rest, x ++ endMarker :: rest = w ++ [endMarker] ∧ g.Generates x := by
  obtain ⟨y, hy, hstep⟩ :=
    ParseStep.exists_verdict_of_run (I := Parsed a g w) (fun _ _ => Parsed.next h) (parsed_start a g w) hrun
  exact hy.exists_generates h hstep

/-- Acceptance, after however many steps, means that the start variable derives the input. -/
theorem generates_of_run (h : a.Augments g) (hw : endMarker ∉ w)
    (hrun : ParseStep.run a.table.step n (start w) = some true) : g.Generates w := by
  obtain ⟨x, rest, hrest, hgenerates⟩ := exists_generates_of_run h hrun
  obtain rfl := eq_of_append_endMarker hw hrest
  exact hgenerates

/-! ### Going through a forest -/

/-- Some number of steps leads from one point of a parse to another. -/
def Leads (table : ShiftReduceTable) (n : Nat) (y y' : Parse) : Prop :=
  ∀ k, ParseStep.run table.step (n + k) y = ParseStep.run table.step k y'

theorem Leads.refl (table : ShiftReduceTable) (y : Parse) : Leads table 0 y y := fun k => by rw [Nat.zero_add]

theorem Leads.trans (h : Leads table n y y') (h' : Leads table m y' y'') :
    Leads table (n + m) y y'' := fun k => by rw [Nat.add_assoc, h, h']

theorem Leads.of_step (h : table.step y = .next y') : Leads table 1 y y' := fun k => by
  rw [Nat.add_comm, ParseStep.run, h]

theorem turn_of_edge (h : a.Augments g) (hconflict : a.table.firstConflict? = none) (hc : isTerminal c = true)
    {t : Nat} (hedge : a.Edge s c t) : a.table.turn (s :: states) c = .shift (t :: s :: states) := by
  rw [turn]
  rw [action?_of_claims h hconflict (.shift hc hedge)]

theorem turn_of_reduces (h : a.Augments g) (hconflict : a.table.firstConflict? = none)
    (hreduces : Reduces a g p states states') (hc : c ∈ g.followOf g.nullable p.left) :
    a.table.turn states c = .reduce states' := by
  cases hreduces with
  | @intro s u t index dot states below hi hp hdot hdrop hedge =>
      have hgrammar : a.table.augmented.grammar.productions[index]? = some p := by
        rw [← hp, ← h.grammar_eq]
        rfl
      have hgoto : a.table.goto? u p.left = some t := goto?_eq_some.2 ⟨p.left_isVariable, hedge⟩
      have hdrop' : (s :: states).drop p.length = u :: below := hdrop
      simp only [turn, action?_of_claims h hconflict (.reduce hi hp hdot hc), hgrammar, hdrop', List.head?_cons,
        Option.bind_some, hgoto]

/-- The production that the next step reduces by. -/
def reduced? (table : ShiftReduceTable) (y : Parse) : Option Production :=
  match y.states, y.rest with
  | state :: _, c :: _ =>
      match table.action? state c with
      | some (.reduce index) => table.augmented.grammar.productions[index]?
      | _ => none
  | _, _ => none

/-- Some number of steps leads from one point of a parse to another, with the listed reductions on the
way. -/
inductive Makes (table : ShiftReduceTable) : Nat → List Production → Parse → Parse → Prop
  | refl {y : Parse} : Makes table 0 [] y y
  | step {n : Nat} {ps : List Production} {y y' y'' : Parse} : table.step y = .next y' →
      Makes table n ps y' y'' → Makes table (n + 1) ((table.reduced? y).toList ++ ps) y y''

theorem Makes.trans (h : Makes table n ps y y') (h' : Makes table m qs y' y'') :
    Makes table (n + m) (ps ++ qs) y y'' := by
  induction h with
  | refl => rwa [Nat.zero_add]
  | step hstep _ ih =>
      rw [Nat.add_right_comm, List.append_assoc]
      exact .step hstep (ih h')

theorem Makes.leads (h : Makes table n ps y y') : Leads table n y y' := by
  induction h with
  | refl => exact .refl table _
  | @step n _ _ _ _ hstep _ ih =>
      rw [Nat.add_comm n 1]
      exact (Leads.of_step hstep).trans ih

/-- The reductions up to a verdict are determined. -/
theorem Makes.unique {accepted accepted' : Bool} {y₁ y₂ : Parse} (h : Makes table n ps y y₁)
    (h₁ : table.step y₁ = .verdict accepted) (h' : Makes table m qs y y₂)
    (h₂ : table.step y₂ = .verdict accepted') : ps = qs := by
  induction h generalizing m qs with
  | refl =>
      cases h' with
      | refl => rfl
      | step hstep _ =>
          rw [hstep] at h₁
          cases h₁
  | step hstep _ ih =>
      cases h' with
      | refl =>
          rw [hstep] at h₂
          cases h₂
      | step hstep' hrest =>
          rw [hstep] at hstep'
          cases hstep'
          rw [ih h₁ hrest]

theorem reduced?_of_reduces (h : a.Augments g) (hconflict : a.table.firstConflict? = none)
    (hreduces : Reduces a g p states states') (hc : c ∈ g.followOf g.nullable p.left) (rest : Word) :
    a.table.reduced? ⟨states, c :: rest⟩ = some p := by
  cases hreduces with
  | intro hi hp hdot _ _ =>
      rw [← hp, ← h.grammar_eq]
      simp only [reduced?, action?_of_claims h hconflict (.reduce hi hp hdot hc)]
      rfl

/-- A reduction is made if what is left of the input can come after its variable. -/
theorem makes_of_reduces (h : a.Augments g) (hconflict : a.table.firstConflict? = none)
    (hreduces : Reduces a g p states states') {before after : Word}
    (hderives : g.Derives [g.start] (before ++ p.left :: after)) (hz : g.Grown d after z) :
    Makes a.table 1 [p] ⟨states, z ++ [endMarker]⟩ ⟨states', z ++ [endMarker]⟩ := by
  obtain ⟨b, rest, hrest⟩ := exists_append_endMarker z
  have hb : b ∈ g.followOf g.nullable p.left :=
    Grammar.mem_followOf_of_derives hderives rfl hz (by rw [hrest, List.head?_cons])
  rw [hrest]
  have hstep : a.table.step ⟨states, b :: rest⟩ = .next ⟨states', b :: rest⟩ := by
    rw [step_cons, turn_of_reduces h hconflict hreduces hb]
    rfl
  have hreduced := reduced?_of_reduces h hconflict hreduces hb rest
  have hmakes := Makes.step hstep .refl
  rwa [hreduced] at hmakes

theorem reduced?_of_edge (h : a.Augments g) (hconflict : a.table.firstConflict? = none)
    (hc : isTerminal c = true) {t : Nat} (hedge : a.Edge s c t) (rest : Word) :
    a.table.reduced? ⟨s :: states, c :: rest⟩ = none := by
  simp only [reduced?, action?_of_claims h hconflict (.shift hc hedge)]

theorem turn_of_start (h : a.Augments g) (hconflict : a.table.firstConflict? = none) (hi : a.Holds s ⟨0, 1⟩) :
    a.table.turn (s :: states) endMarker = .verdict true := by
  rw [turn]
  rw [action?_of_claims h hconflict (.accept hi (Nat.le_refl 1) rfl)]

theorem afterDot?_of_drop (hp : a.productions[i.production]? = some p) (hdrop : p.right.drop i.dot = c :: w) :
    a.afterDot? i = some c ∧ p.right.drop i.advance.dot = w := by
  have hget : (p.right.drop i.dot)[0]? = p.right[i.dot + 0]? := List.getElem?_drop
  rw [hdrop, List.getElem?_cons_zero, Nat.add_zero] at hget
  refine ⟨afterDot?_eq_some.2 ⟨p, hp, hget.symm⟩, ?_⟩
  rw [Item.advance, ← List.tail_drop, hdrop, List.tail_cons]

/-- The parser has gone from one stack to the other, over a word that stands for `u`, and moved the dot of
the item over it. -/
structure Passed (a : AugmentedGrammar) (i : Item) (u : Word) (states states' : List Nat) : Prop where
  drop_eq : states'.drop u.length = states
  holds : ∃ t above, states' = t :: above ∧ a.Holds t ⟨i.production, i.dot + u.length⟩

theorem Passed.cons {c : Char} {w : Word} {t : Nat} (h : Passed a i.advance w (t :: states) states') :
    Passed a i (c :: w) states states' := by
  obtain ⟨hdrop, t', above, rfl, hi⟩ := h
  refine ⟨?_, t', above, rfl, ?_⟩
  · rw [List.length_cons, ← List.drop_drop, hdrop]
    rfl
  · rwa [List.length_cons, Nat.add_comm w.length 1, ← Nat.add_assoc]

theorem steps_le {d' k l r : Nat} (hn : n ≤ k * (r + 1) ^ d) (hk : k ≤ r) (hm : m ≤ l * (r + 1) ^ d') :
    n + 1 + m ≤ (l + 1) * (r + 1) ^ max (d + 1) d' := by
  have hpos : 1 ≤ (r + 1) ^ d := Nat.one_le_pow _ _ (Nat.succ_pos r)
  calc n + 1 + m ≤ r * (r + 1) ^ d + (r + 1) ^ d + l * (r + 1) ^ d' :=
        Nat.add_le_add (Nat.add_le_add (hn.trans (Nat.mul_le_mul_right _ hk)) hpos) hm
    _ = (r + 1) ^ (d + 1) + l * (r + 1) ^ d' := by ring
    _ ≤ (r + 1) ^ max (d + 1) d' + l * (r + 1) ^ max (d + 1) d' :=
        Nat.add_le_add (Nat.pow_le_pow_right (Nat.succ_pos r) (Nat.le_max_left _ _))
          (Nat.mul_le_mul_left _ (Nat.pow_le_pow_right (Nat.succ_pos r) (Nat.le_max_right _ _)))
    _ = (l + 1) * (r + 1) ^ max (d + 1) d' := by ring

/-- In a table without conflicts, the parser goes through a forest: it shifts the letters, and completes
each tree by the reduction of its production. -/
theorem makes_of_carries (h : a.Augments g) (hconflict : a.table.firstConflict? = none)
    (hcarries : f.Carries g w x) {i : Item} {p : Production} {v before after : Word} {e : Nat}
    (states : List Nat) (hi : a.Holds s i) (hp : a.productions[i.production]? = some p)
    (hdrop : p.right.drop i.dot = w ++ v) (hderives : g.Derives [g.start] (before ++ w ++ after))
    (hz : g.Grown e after z) :
    ∃ states' n, n ≤ w.length * (g.width + 1) ^ f.height ∧ Passed a i w (s :: states) states' ∧
      Makes a.table n f.postorder ⟨s :: states, x ++ (z ++ [endMarker])⟩ ⟨states', z ++ [endMarker]⟩ := by
  induction hcarries generalizing s i p v before after z e states with
  | nil => exact ⟨s :: states, 0, Nat.zero_le _, ⟨rfl, s, states, rfl, hi⟩, .refl⟩
  | @leaf c rest w x hc _ ih =>
      obtain ⟨hdot, hdrop'⟩ := afterDot?_of_drop hp hdrop
      obtain ⟨t, hedge⟩ := hi.exists_edge h hdot
      have hderives' : g.Derives [g.start] (before ++ [c] ++ w ++ after) := by
        rwa [List.append_assoc before]
      obtain ⟨states', n, hn, hpassed, hmakes⟩ := ih (s :: states)
        (hedge.holds_iff.2 ⟨i, hi, hdot, .refl⟩) hp hdrop' hderives' hz
      refine ⟨states', n + 1, ?_, hpassed.cons, ?_⟩
      · have hpos : 1 ≤ (g.width + 1) ^ rest.height := Nat.one_le_pow _ _ (Nat.succ_pos _)
        rw [List.length_cons, Nat.succ_mul]
        exact Nat.add_le_add hn hpos
      · have hstep : a.table.step ⟨s :: states, c :: (x ++ (z ++ [endMarker]))⟩ =
            .next ⟨t :: s :: states, x ++ (z ++ [endMarker])⟩ := by
          rw [step_cons, turn_of_edge h hconflict hc hedge]
          rfl
        have hshift := hmakes.step hstep
        rwa [reduced?_of_edge h hconflict hc hedge] at hshift
  | @node q below rest w x y hq hbelow hrest ih ih' =>
      obtain ⟨hdot, hdrop'⟩ := afterDot?_of_drop hp hdrop
      obtain ⟨t, hedge⟩ := hi.exists_edge h hdot
      obtain ⟨index, hindex⟩ := List.mem_iff_getElem?.1 hq
      have hget : a.productions[index + 1]? = some q := (h.getElem?_succ index).trans hindex
      have hpredicted := hi.predicted h (mem_predicted.2 ⟨q, index + 1, hget, hdot, rfl⟩)
      have hbefore : g.Derives [g.start] (before ++ q.left :: (w ++ after)) := by
        rwa [List.append_assoc, List.cons_append] at hderives
      have hafter : g.Grown (max rest.height e) (w ++ after) (y ++ z) :=
        (hrest.grown (Nat.le_max_left _ e)).append (hz.mono (Nat.le_max_right _ e))
      -- The tree of the first symbol.
      obtain ⟨above, n, hn, ⟨hdropped, t', above', rfl, hcomplete⟩, hfirst⟩ := ih states (v := [])
        (z := y ++ z) hpredicted hget (List.append_nil _).symm
        (hbefore.step (.intro before (w ++ after) q hq)) hafter
      -- Its reduction, as what comes next is in FOLLOW of its variable.
      have hreduces : Reduces a g q (t' :: above') (t :: s :: states) := by
        rw [Nat.zero_add] at hcomplete
        exact .intro hcomplete hindex (Nat.le_refl _) hdropped hedge
      have hreduce := makes_of_reduces h hconflict hreduces hbefore hafter
      -- The other trees.
      have hderives' : g.Derives [g.start] (before ++ [q.left] ++ w ++ after) := by
        rwa [List.append_assoc before]
      obtain ⟨states', m, hm, hpassed, hothers⟩ := ih' (s :: states)
        (hedge.holds_iff.2 ⟨i, hi, hdot, .refl⟩) hp hdrop' hderives' hz
      refine ⟨states', n + 1 + m, steps_le hn (Grammar.length_le_width hq) hm, hpassed.cons, ?_⟩
      rw [List.append_assoc] at hreduce hfirst ⊢
      rw [Forest.postorder, List.append_cons]
      exact (hfirst.trans hreduce).trans hothers

/-- Without conflicts, the parser goes through a forest that stands on the start variable to acceptance. -/
theorem makes_of_carries_start (h : a.Augments g) (hconflict : a.table.firstConflict? = none)
    (hcarries : f.Carries g [g.start] w) : ∃ y n, n ≤ (g.width + 1) ^ f.height ∧
      Makes a.table n f.postorder (start w) y ∧ a.table.step y = .verdict true := by
  obtain ⟨first, hfirst, _, hright⟩ := h.exists_first
  have hstart : g.Derives [g.start] ([] ++ [g.start] ++ []) := .refl
  obtain ⟨states', n, hn, ⟨_, t, above, rfl, hi⟩, hmakes⟩ := makes_of_carries h hconflict hcarries []
    (holds_zero.2 .refl) hfirst hright hstart (.nil (d := 0))
  rw [List.length_singleton, Nat.one_mul] at hn
  refine ⟨_, n, hn, hmakes, ?_⟩
  rw [List.nil_append, step_cons, turn_of_start h hconflict hi]
  rfl

theorem exists_run_of_generates (h : a.Augments g) (hconflict : a.table.firstConflict? = none)
    (hw : g.Generates w) : ∃ n ≤ (g.width + 1) ^ g.height w.length,
      ParseStep.run a.table.step (n + 1) (start w) = some true := by
  obtain ⟨f, hf, hheight⟩ := Forest.exists_carries_of_generates hw
  obtain ⟨y, n, hn, hmakes, haccepts⟩ := makes_of_carries_start h hconflict hf
  refine ⟨n, hn.trans (Nat.pow_le_pow_right (Nat.succ_pos _) hheight), ?_⟩
  refine (hmakes.leads 1).trans ?_
  rw [ParseStep.run, haccepts]

/-! ### Tables of a grammar -/

theorem succ_le_limit (h : a.Augments g) (hn : n ≤ (g.width + 1) ^ g.height w.length) :
    n + 1 ≤ a.table.limit w := by
  have hgrammar : a.table.augmented.grammar = g := h.grammar_eq
  have hpos : 1 ≤ (g.width + 2) ^ g.height w.length := Nat.one_le_pow _ _ (Nat.succ_pos _)
  have hexponent : g.height w.length + 1 ≤
      (a.table.rows.length + 2) * (g.variableSymbols.size + 2) * (w.length + 2) := by
    rw [Grammar.height, Nat.mul_assoc]
    refine le_trans ?_ (Nat.le_mul_of_pos_left _ (Nat.succ_pos _))
    rw [Nat.add_mul]
    exact Nat.add_le_add (Nat.mul_le_mul_left _ (Nat.le_succ _)) (by omega)
  rw [limit, hgrammar]
  calc n + 1 ≤ (g.width + 2) ^ g.height w.length + (g.width + 2) ^ g.height w.length :=
        Nat.add_le_add (hn.trans (Nat.pow_le_pow_left (Nat.le_succ _) _)) hpos
    _ ≤ (g.width + 2) ^ (g.height w.length + 1) := by
        rw [pow_succ, ← Nat.mul_two]
        exact Nat.mul_le_mul_left _ (Nat.le_add_left 2 _)
    _ ≤ (g.width + 2) ^ _ := Nat.pow_le_pow_right (Nat.succ_pos _) hexponent

theorem run_eq_table {f : TableConstruction} (h : TableConstruction.of g = .ok f) :
    f.augmented.Augments g ∧ f.run = f.augmented.table := by
  obtain ⟨a, haugments, rfl⟩ := TableConstruction.exists_started h
  exact ⟨haugments, rfl⟩

theorem eq_table_of_shiftReduceTable (h : g.shiftReduceTable = .ok table) :
    ∃ a : AugmentedGrammar, a.Augments g ∧ table = a.table ∧ a.table.firstConflict? = none := by
  unfold Grammar.shiftReduceTable at h
  cases hf : TableConstruction.of g with
  | error e =>
      rw [hf] at h
      cases h
  | ok f =>
      obtain ⟨haugments, hrun⟩ := run_eq_table hf
      simp only [hf, bind, Except.bind, hrun] at h
      cases hconflict : f.augmented.table.firstConflict? with
      | some e =>
          rw [hconflict] at h
          cases h
      | none =>
          rw [hconflict] at h
          cases h
          exact ⟨f.augmented, haugments, rfl, hconflict⟩

/-- Shift-reduce parsing is correct: what the table of a grammar accepts, even with conflicts, is derived
by the start variable, and without conflicts all that is derived is accepted. -/
theorem accepts_correct (g : Grammar) (w : Word) (hw : endMarker ∉ w) :
    (∀ f, TableConstruction.of g = .ok f →
      f.run.accepts w = true ∨ (∃ n, ParseStep.run f.run.step n (start w) = some true) → g.Generates w) ∧
    (∀ table, g.shiftReduceTable = .ok table → g.Generates w → table.accepts w = true) := by
  constructor
  · intro f hf haccepts
    obtain ⟨h, hrun⟩ := run_eq_table hf
    obtain ⟨n, hn⟩ : ∃ n, ParseStep.run f.augmented.table.step n (start w) = some true := by
      rw [← hrun]
      rcases haccepts with haccepts | haccepts
      · exact ⟨_, (Option.getD_eq_iff.1 haccepts).resolve_right fun hnone => Bool.false_ne_true hnone.2⟩
      · exact haccepts
    exact generates_of_run h hw hn
  · intro table htable hgenerates
    obtain ⟨a, h, rfl, hconflict⟩ := eq_table_of_shiftReduceTable htable
    obtain ⟨n, hn, hrun⟩ := exists_run_of_generates h hconflict hgenerates
    rw [accepts, run_mono hrun (succ_le_limit h hn), Option.getD_some]

/-- The words of some letters `a` and as many letters `b` after them. -/
def nested : Grammar where
  start := 'S'
  productions := [⟨'S', ['a', 'S', 'b'], rfl, rfl⟩, ⟨'S', [], rfl, rfl⟩]
  start_isVariable := rfl
  nodup := by decide

theorem accepts_correct_nested :
    endMarker ∉ ['a', 'a', 'b', 'b'] ∧ nested.Generates ['a', 'a', 'b', 'b'] ∧
      ∃ table, nested.shiftReduceTable = .ok table ∧ table.accepts ['a', 'a', 'b', 'b'] = true := by
  have hw : endMarker ∉ ['a', 'a', 'b', 'b'] := by decide
  have hgenerates : nested.Generates ['a', 'a', 'b', 'b'] := by
    refine ⟨by decide, ?_⟩
    have houter : nested.Step ['S'] ['a', 'S', 'b'] := .intro [] [] ⟨'S', ['a', 'S', 'b'], rfl, rfl⟩ (by decide)
    have hinner : nested.Step ['a', 'S', 'b'] ['a', 'a', 'S', 'b', 'b'] :=
      .intro ['a'] ['b'] ⟨'S', ['a', 'S', 'b'], rfl, rfl⟩ (by decide)
    have hlast : nested.Step ['a', 'a', 'S', 'b', 'b'] ['a', 'a', 'b', 'b'] :=
      .intro ['a', 'a'] ['b', 'b'] ⟨'S', [], rfl, rfl⟩ (by decide)
    exact ((Grammar.Derives.refl.step houter).step hinner).step hlast
  have hok : nested.shiftReduceTable.toBool = true := by decide +kernel
  cases htable : nested.shiftReduceTable with
  | error e =>
      rw [htable] at hok
      cases hok
  | ok table => exact ⟨hw, hgenerates, table, rfl, (accepts_correct nested _ hw).2 table htable hgenerates⟩

end LanguageTheory.ShiftReduceTable
