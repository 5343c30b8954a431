import LanguageTheory.Proofs.Regex.Language
import LanguageTheory.Regex.Notation

/-! The notation as a grammar of four levels, with the tree that the textbook reading gives to each text.
Exactly the texts of the grammar are read, and what is read is the tree built with the constructors that
simplify. In one direction, a text of a level does one thing to the group that it is read into, whatever the
level is made of (`Takes`). In the other, the groups that are open always say what has been read so far
(`Holds`), which every character keeps. -/

namespace LanguageTheory.Regex

variable {r s t : Regex} {u v w text : Word} {c : Char} {level : Level} {g : Group}

/-- The levels of the notation, from the loosest to the tightest. -/
inductive Level
  | sum
  | product
  | repetition
  | atom

/-- `Reads level u t`: the text `u`, which has no blanks, is of the level and stands for the tree `t`. -/
inductive Reads : Level → Word → Regex → Prop
  | summand {u : Word} {r : Regex} : Reads .product u r → Reads .sum u r
  | union {u v : Word} {r s : Regex} : Reads .sum u r → Reads .product v s →
      Reads .sum (u ++ '+' :: v) (.union r s)
  | factor {u : Word} {r : Regex} : Reads .repetition u r → Reads .product u r
  | concat {u v : Word} {r s : Regex} : Reads .product u r → Reads .repetition v s →
      Reads .product (u ++ v) (.concat r s)
  | once {u : Word} {r : Regex} : Reads .atom u r → Reads .repetition u r
  | star {u : Word} {r : Regex} : Reads .repetition u r → Reads .repetition (u ++ ['*']) (.star r)
  | group {u : Word} {r : Regex} : Reads .sum u r → Reads .atom ('(' :: (u ++ [')'])) r
  | epsilon : Reads .atom ['λ'] .epsilon
  | empty : Reads .atom ['∅'] .empty
  | symbol {c : Char} : isReserved c = false → Reads .atom [c] (.symbol c)

/-- The tree built again with the constructors that simplify. -/
def simplified : Regex → Regex
  | concat r s => mkConcat r.simplified s.simplified
  | union r s => mkUnion r.simplified s.simplified
  | star r => mkStar r.simplified
  | r => r

theorem matches_simplified (t : Regex) (w : Word) : Matches t.simplified w ↔ Matches t w := by
  induction t generalizing w with
  | empty => exact Iff.rfl
  | epsilon => exact Iff.rfl
  | symbol c => exact Iff.rfl
  | concat r s ihr ihs => simp only [simplified, matches_mkConcat, matches_concat, ihr, ihs]
  | union r s ihr ihs => simp only [simplified, matches_mkUnion, matches_union, ihr, ihs]
  | star r ih =>
      rw [simplified, matches_mkStar]
      exact matches_star_congr ih

/-! ### Groups -/

namespace Group

theorem operand_juxtapose (g : Group) : g.juxtapose.operand = none := by
  rw [juxtapose]
  split
  · assumption
  · rfl

theorem alternatives_juxtapose (g : Group) : g.juxtapose.alternatives = g.alternatives := by
  rw [juxtapose]
  split <;> rfl

theorem juxtapose_of_operand (h : g.operand = none) : g.juxtapose = g := by
  rw [juxtapose, h]

theorem put_juxtapose (g : Group) (r : Regex) : g.juxtapose.put r = g.put r := by
  rw [put, juxtapose_of_operand g.operand_juxtapose, put]

theorem product_juxtapose_put (g : Group) (r : Regex) :
    (g.put r).juxtapose.product = some (g.juxtapose.product.elim r fun p => mkConcat p r) := rfl

theorem value?_of_product {p : Regex} (h : g.juxtapose.product = some p) :
    g.value? = some (g.alternatives.elim p fun a => mkUnion a p) := by
  rw [value?, alternate, h]

theorem alternate_of_value? (ho : g.operand.isSome = true) : g.alternate = ⟨g.value?, none, none⟩ := by
  obtain ⟨r, hr⟩ := Option.isSome_iff_exists.1 ho
  rw [value?, alternate, juxtapose, hr]

end Group

/-! ### Texts of the grammar are read -/

theorem foldlM_next_append {s s' s'' : Reading} (hu : u.foldlM Reading.next s = .ok s')
    (hv : v.foldlM Reading.next s' = .ok s'') : (u ++ v).foldlM Reading.next s = .ok s'' := by
  rw [List.foldlM_append, hu]
  exact hv

theorem next_symbol (hc : isReserved c = false) (s : Reading) :
    s.next c = .ok { s with group := s.group.put (symbol c) } := by
  simp only [isReserved, Bool.or_eq_false_iff, beq_eq_false_iff_ne] at hc
  obtain ⟨⟨⟨⟨⟨⟨hplus, hstar⟩, hopen⟩, hclose⟩, hlambda⟩, hempty⟩, _⟩ := hc
  rw [Reading.next, if_neg hopen, if_neg hlambda, if_neg hempty, if_pos ⟨hplus, hstar, hclose⟩]

theorem next_plus {s : Reading} (ho : s.group.operand.isSome = true) :
    s.next '+' = .ok ⟨⟨s.group.value?, none, none⟩, s.around⟩ := by
  obtain ⟨r, hr⟩ := Option.isSome_iff_exists.1 ho
  have hnext : s.next '+' = .ok { s with group := s.group.alternate } := by
    simp [Reading.next, hr]
  rw [hnext, Group.alternate_of_value? ho]

theorem next_star (g : Group) (r : Regex) (around : List Group) :
    Reading.next ⟨g.put r, around⟩ '*' = .ok ⟨g.put (mkStar r), around⟩ := rfl

theorem next_close (ho : g.operand.isSome = true) (hg : g.value? = some r) (outer : Group) (around : List Group) :
    Reading.next ⟨g, outer :: around⟩ ')' = .ok ⟨outer.put r, around⟩ := by
  obtain ⟨o, ho⟩ := Option.isSome_iff_exists.1 ho
  simp [Reading.next, ho, hg]

/-- What reading a text of the level, which stands for `r`, does to a group. A sum is the first thing in its
group and a product the first thing after a `+`; a repetition or an atom becomes the last operand. -/
def Level.Takes (u : Word) (r : Regex) : Level → Prop
  | .sum => ∀ around, ∃ g : Group, u.foldlM Reading.next ⟨.opened, around⟩ = .ok ⟨g, around⟩ ∧
      g.operand.isSome = true ∧ g.value? = some r
  | .product => ∀ alternatives around, ∃ g : Group,
      u.foldlM Reading.next ⟨⟨alternatives, none, none⟩, around⟩ = .ok ⟨g, around⟩ ∧
      g.operand.isSome = true ∧ g.alternatives = alternatives ∧ g.juxtapose.product = some r
  | _ => ∀ (g : Group) around, u.foldlM Reading.next ⟨g, around⟩ = .ok ⟨g.put r, around⟩

theorem Reads.takes (h : Reads level u t) : level.Takes u t.simplified := by
  induction h with
  | summand _ ih =>
      intro around
      obtain ⟨g, hrun, ho, halternatives, hproduct⟩ := ih none around
      refine ⟨g, hrun, ho, ?_⟩
      rw [Group.value?_of_product hproduct, halternatives, Option.elim_none]
  | @union u v r s _ _ ihr ihs =>
      intro around
      obtain ⟨g, hrun, ho, hvalue⟩ := ihr around
      have hplus := next_plus (s := ⟨g, around⟩) ho
      rw [hvalue] at hplus
      obtain ⟨g', hrun', ho', halternatives, hproduct⟩ := ihs (some r.simplified) around
      refine ⟨g', foldlM_next_append hrun ?_, ho', ?_⟩
      · rw [List.foldlM_cons, hplus]
        exact hrun'
      · rw [Group.value?_of_product hproduct, halternatives, Option.elim_some]
        rfl
  | factor _ ih => exact fun alternatives around => ⟨_, ih _ around, rfl, rfl, rfl⟩
  | concat _ _ ihr ihs =>
      intro alternatives around
      obtain ⟨g, hrun, _, halternatives, hproduct⟩ := ihr alternatives around
      refine ⟨_, foldlM_next_append hrun (ihs g around), rfl, ?_, ?_⟩
      · exact g.alternatives_juxtapose.trans halternatives
      · rw [Group.product_juxtapose_put, hproduct, Option.elim_some]
        rfl
  | once _ ih => exact ih
  | star _ ih => exact fun g around => foldlM_next_append (ih g around) (next_star g _ around)
  | group _ ih =>
      -- The group outside waits among the open ones, with its last operand already taken in.
      intro outer around
      obtain ⟨g, hrun, ho, hvalue⟩ := ih (outer.juxtapose :: around)
      have hclose := next_close ho hvalue outer.juxtapose around
      rw [Group.put_juxtapose] at hclose
      rw [List.foldlM_cons]
      refine foldlM_next_append hrun ?_
      rw [List.foldlM_cons, hclose]
      rfl
  | epsilon => exact fun g around => rfl
  | empty => exact fun g around => rfl
  | symbol hc =>
      intro g around
      rw [List.foldlM_cons, next_symbol hc]
      rfl

/-! ### What is read is of the grammar -/

/-- What stands for a part of a group, with the mark after it. A part that is missing has no text. -/
def Part (level : Level) (mark : Word) : Option Regex → Word → Prop
  | none, u => u = []
  | some r, u => ∃ v t, u = v ++ mark ∧ Reads level v t ∧ r = t.simplified

/-- The text `u` of a group has been read as its parts. -/
def Group.Holds (g : Group) (u : Word) : Prop :=
  ∃ x y z, u = x ++ (y ++ z) ∧ Part .sum ['+'] g.alternatives x ∧ Part .product [] g.product y ∧
    Part .repetition [] g.operand z

/-- The text of groups that are open, each up to the parenthesis of the next one. -/
inductive Enclosing : List Group → Word → Prop
  | nil : Enclosing [] []
  | cons {g : Group} {around : List Group} {u v : Word} : Enclosing around u → g.Holds v →
      Enclosing (g :: around) (u ++ (v ++ ['(']))

def Reading.Holds (s : Reading) (u : Word) : Prop :=
  ∃ x y, u = x ++ y ∧ Enclosing s.around x ∧ s.group.Holds y

theorem Group.holds_opened : opened.Holds [] := ⟨[], [], [], rfl, rfl, rfl, rfl⟩

theorem Group.Holds.juxtapose (h : g.Holds u) : g.juxtapose.Holds u := by
  rw [Group.juxtapose]
  split
  · exact h
  next r hr =>
    obtain ⟨x, y, z, rfl, hx, hy, hz⟩ := h
    rw [hr] at hz
    obtain ⟨z, t, rfl, hz, rfl⟩ := hz
    refine ⟨x, y ++ z, [], by simp, hx, ?_, rfl⟩
    cases hproduct : g.product with
    | none =>
        rw [hproduct] at hy
        obtain rfl := hy
        exact ⟨z, t, (List.append_nil z).symm, .factor hz, rfl⟩
    | some p =>
        rw [hproduct] at hy
        obtain ⟨y, s, rfl, hy, rfl⟩ := hy
        exact ⟨y ++ z, s.concat t, by simp, .concat hy hz, rfl⟩

theorem Group.Holds.put (h : g.Holds u) (hv : Reads .repetition v t) : (g.put t.simplified).Holds (u ++ v) := by
  obtain ⟨x, y, z, rfl, hx, hy, hz⟩ := h.juxtapose
  rw [g.operand_juxtapose] at hz
  obtain rfl := hz
  exact ⟨x, y, v, by simp, hx, hy, v, t, (List.append_nil v).symm, hv, rfl⟩

/-- A group that lacks no operand stands for a sum. -/
theorem Group.Holds.exists_value? (h : g.Holds u) (ho : g.operand.isSome = true) :
    ∃ t, Reads .sum u t ∧ g.value? = some t.simplified := by
  obtain ⟨r, hr⟩ := Option.isSome_iff_exists.1 ho
  obtain ⟨x, y, z, rfl, hx, hy, hz⟩ := h.juxtapose
  have hproduct : g.juxtapose.product = some (g.product.elim r fun p => mkConcat p r) := by
    rw [Group.juxtapose, hr]
  rw [g.operand_juxtapose] at hz
  rw [hproduct] at hy
  obtain rfl := hz
  obtain ⟨y, t, rfl, hy, heq⟩ := hy
  rw [Group.value?_of_product hproduct, heq]
  rw [g.alternatives_juxtapose] at hx
  simp only [List.append_nil]
  cases halternatives : g.alternatives with
  | none =>
      rw [halternatives] at hx
      obtain rfl := hx
      exact ⟨t, .summand hy, rfl⟩
  | some a =>
      rw [halternatives] at hx
      obtain ⟨x, s, rfl, hx, rfl⟩ := hx
      refine ⟨s.union t, ?_, rfl⟩
      rw [List.append_assoc, List.singleton_append]
      exact .union hx hy

theorem Group.Holds.alternate (h : g.Holds u) (ho : g.operand.isSome = true) : g.alternate.Holds (u ++ ['+']) := by
  obtain ⟨t, ht, hvalue⟩ := h.exists_value? ho
  rw [Group.alternate_of_value? ho, hvalue]
  exact ⟨u ++ ['+'], [], [], by simp, ⟨u, t, rfl, ht, rfl⟩, rfl, rfl⟩

theorem Reading.Holds.put {s : Reading} (h : s.Holds u) (hv : Reads .repetition v t) :
    Reading.Holds { s with group := s.group.put t.simplified } (u ++ v) := by
  obtain ⟨x, y, rfl, hx, hy⟩ := h
  exact ⟨x, y ++ v, List.append_assoc x y v, hx, hy.put hv⟩

/-- The ways in which one character is taken. -/
inductive Reading.Stepped (s : Reading) : Char → Reading → Prop
  | opens : Stepped s '(' ⟨.opened, s.group.juxtapose :: s.around⟩
  | puts {c : Char} {t : Regex} : Reads .atom [c] t → Stepped s c { s with group := s.group.put t.simplified }
  | alternates : s.group.operand.isSome = true → Stepped s '+' { s with group := s.group.alternate }
  | repeats {r : Regex} : s.group.operand = some r →
      Stepped s '*' { s with group := { s.group with operand := some (mkStar r) } }
  | closes {outer : Group} {around : List Group} {inner : Regex} : s.around = outer :: around →
      s.group.operand.isSome = true → s.group.value? = some inner → Stepped s ')' ⟨outer.put inner, around⟩

theorem Reading.stepped {s s' : Reading} (hc : Text.isBlank c = false) (h : s.next c = .ok s') : s.Stepped c s' := by
  rw [Reading.next] at h
  by_cases hopen : c = '('
  · rw [if_pos hopen] at h
    obtain rfl := Except.ok.inj h
    exact hopen ▸ .opens
  by_cases hlambda : c = 'λ'
  · rw [if_neg hopen, if_pos hlambda] at h
    obtain rfl := Except.ok.inj h
    exact hlambda ▸ .puts .epsilon
  by_cases hempty : c = '∅'
  · rw [if_neg hopen, if_neg hlambda, if_pos hempty] at h
    obtain rfl := Except.ok.inj h
    exact hempty ▸ .puts .empty
  rw [if_neg hopen, if_neg hlambda, if_neg hempty] at h
  by_cases hmark : c ≠ '+' ∧ c ≠ '*' ∧ c ≠ ')'
  · rw [if_pos hmark] at h
    obtain rfl := Except.ok.inj h
    have hreserved : isReserved c = false := by simp [isReserved, hmark, hopen, hlambda, hempty, hc]
    exact .puts (.symbol hreserved)
  rw [if_neg hmark] at h
  cases ho : s.group.operand with
  | none =>
      rw [ho] at h
      cases h
  | some r =>
      have hsome : s.group.operand.isSome = true := Option.isSome_iff_exists.2 ⟨r, ho⟩
      simp only [ho] at h
      by_cases hplus : c = '+'
      · rw [if_pos hplus] at h
        obtain rfl := Except.ok.inj h
        exact hplus ▸ .alternates hsome
      by_cases hstar : c = '*'
      · rw [if_neg hplus, if_pos hstar] at h
        obtain rfl := Except.ok.inj h
        exact hstar ▸ .repeats ho
      rw [if_neg hplus, if_neg hstar] at h
      have hclose : c = ')' := Decidable.byContradiction fun hne => hmark ⟨hplus, hstar, hne⟩
      split at h
      next outer around inner haround hvalue =>
        obtain rfl := Except.ok.inj h
        exact hclose ▸ .closes haround hsome hvalue
      next => cases h

theorem Reading.Holds.next {s s' : Reading} (h : s.Holds u) (hstep : s.Stepped c s') : s'.Holds (u ++ [c]) := by
  cases hstep with
  | opens =>
      obtain ⟨x, y, rfl, hx, hy⟩ := h
      refine ⟨x ++ (y ++ ['(']), [], by simp, .cons hx hy.juxtapose, Group.holds_opened⟩
  | puts ht => exact h.put (.once ht)
  | alternates ho =>
      obtain ⟨x, y, rfl, hx, hy⟩ := h
      exact ⟨x, y ++ ['+'], List.append_assoc x y _, hx, hy.alternate ho⟩
  | repeats ho =>
      -- The last operand is itself a repetition, which may be repeated once more.
      obtain ⟨x, _, rfl, hx, y, z, w, rfl, hy, hz, hw⟩ := h
      rw [ho] at hw
      obtain ⟨w, t, rfl, hw, rfl⟩ := hw
      refine ⟨x, y ++ (z ++ (w ++ ['*'])), by simp, hx, y, z, w ++ ['*'], rfl, hy, hz, ?_⟩
      exact ⟨w ++ ['*'], t.star, (List.append_nil _).symm, .star hw, rfl⟩
  | closes haround ho hvalue =>
      obtain ⟨x, y, rfl, hx, hy⟩ := h
      rw [haround] at hx
      obtain ⟨t, ht, hvalue'⟩ := hy.exists_value? ho
      obtain rfl := Option.some.inj (hvalue.symm.trans hvalue')
      cases hx with
      | cons hx houter => exact ⟨_, _, by simp, hx, houter.put (.once (.group ht))⟩

theorem Reading.Holds.foldlM_next {s s' : Reading} (h : s.Holds u) (hv : ∀ c ∈ v, Text.isBlank c = false)
    (hrun : v.foldlM Reading.next s = .ok s') : s'.Holds (u ++ v) := by
  induction v generalizing u s with
  | nil =>
      obtain rfl := Except.ok.inj hrun
      rwa [List.append_nil]
  | cons c v ih =>
      obtain ⟨hc, hv⟩ := List.forall_mem_cons.1 hv
      obtain ⟨s₁, hnext, hrun⟩ := exists_of_bind_eq_ok hrun
      have hmore := ih (h.next (Reading.stepped hc hnext)) hv hrun
      rwa [List.append_assoc] at hmore

theorem Reading.Holds.of_finish {s : Reading} (h : s.Holds u) (hfinish : s.finish = .ok r) :
    ∃ t, Reads .sum u t ∧ r = t.simplified := by
  obtain ⟨x, y, rfl, hx, hy⟩ := h
  unfold Reading.finish at hfinish
  split at hfinish
  next o r' ho hvalue haround =>
    obtain rfl := Except.ok.inj hfinish
    rw [haround] at hx
    cases hx
    obtain ⟨t, ht, hvalue'⟩ := hy.exists_value? (Option.isSome_iff_exists.2 ⟨o, ho⟩)
    exact ⟨t, ht, Option.some.inj (hvalue.symm.trans hvalue')⟩
  next => cases hfinish
  next => cases hfinish

/-! ### The reader and the grammar -/

/-- What is read is the simplified tree of a text of the grammar. -/
theorem read_eq_ok : read text = .ok r ↔ ∃ t, Reads .sum (Text.dropBlanks text) t ∧ r = t.simplified := by
  constructor
  · intro h
    obtain ⟨s, hrun, hfinish⟩ := exists_of_bind_eq_ok h
    have hbegin : Reading.begin.Holds [] := ⟨[], [], rfl, .nil, Group.holds_opened⟩
    have hs := hbegin.foldlM_next (fun c hc => Text.not_isBlank_of_mem_dropBlanks hc) hrun
    exact hs.of_finish hfinish
  · rintro ⟨t, ht, rfl⟩
    obtain ⟨g, hrun, ho, hvalue⟩ := ht.takes []
    obtain ⟨o, ho⟩ := Option.isSome_iff_exists.1 ho
    have hfinish : Reading.finish ⟨g, []⟩ = .ok t.simplified := by simp only [Reading.finish, ho, hvalue]
    show ((Text.dropBlanks text).foldlM Reading.next .begin).bind Reading.finish = _
    rw [show (Text.dropBlanks text).foldlM Reading.next .begin = .ok ⟨g, []⟩ from hrun]
    exact hfinish

theorem parse_eq_ok : parse text = .ok r ↔ ∃ t, Reads .sum (Text.dropBlanks text) t ∧ r = t.simplified := by
  rw [← read_eq_ok, parse]
  cases read text with
  | ok r' => simp only [Except.ok.injEq]
  | error defect => exact iff_of_false (fun h => nomatch h) fun h => nomatch h

theorem parse_eq_error (h : ¬∃ r, parse text = .ok r) : ∃ defect, parse text = .error (.expression text defect) := by
  rw [parse] at h ⊢
  cases hread : read text with
  | ok r => exact absurd ⟨r, by rw [hread]⟩ h
  | error defect => exact ⟨defect, rfl⟩

/-- Without its blanks, a text that is read is one of the grammar, and every one of the grammar is read. The
expression stands for the words that the tree of the text stands for. Any other text is refused, with an error
that names it. -/
theorem parse_correct (text : Word) :
    ((∃ r, parse text = .ok r) ↔ ∃ t, Reads .sum (Text.dropBlanks text) t) ∧
      (∀ r t, parse text = .ok r → Reads .sum (Text.dropBlanks text) t → ∀ w, Matches r w ↔ Matches t w) ∧
      ((¬∃ t, Reads .sum (Text.dropBlanks text) t) → ∃ defect, parse text = .error (.expression text defect)) := by
  have hiff : (∃ r, parse text = .ok r) ↔ ∃ t, Reads .sum (Text.dropBlanks text) t := by
    constructor
    · rintro ⟨r, hr⟩
      obtain ⟨t, ht, _⟩ := parse_eq_ok.1 hr
      exact ⟨t, ht⟩
    · rintro ⟨t, ht⟩
      exact ⟨_, parse_eq_ok.2 ⟨t, ht, rfl⟩⟩
  refine ⟨hiff, fun r t hr ht w => ?_, fun hnone => parse_eq_error fun hr => hnone (hiff.1 hr)⟩
  have hsimplified : parse text = .ok t.simplified := parse_eq_ok.2 ⟨t, ht, rfl⟩
  obtain rfl := Except.ok.inj (hr.symm.trans hsimplified)
  exact matches_simplified t w

/-- A sum in parentheses that is repeated, with blanks between all symbols and a factor that comes to nothing;
and a parenthesis that is closed without having been opened. -/
theorem parse_correct_spaced :
    (∀ w, Matches (concat (star (union (symbol 'a') (symbol 'b'))) (symbol 'c')) w ↔
        Matches (concat (concat (star (union (symbol 'a') (symbol 'b'))) epsilon) (symbol 'c')) w) ∧
      ∃ defect, parse ['a', '+', ')'] = .error (.expression ['a', '+', ')'] defect) := by
  have ha : Reads .product ['a'] (symbol 'a') := .factor (.once (.symbol (by decide)))
  have hb : Reads .product ['b'] (symbol 'b') := .factor (.once (.symbol (by decide)))
  have hstar : Reads .product ['(', 'a', '+', 'b', ')', '*'] (star (union (symbol 'a') (symbol 'b'))) :=
    .factor (.star (.once (.group (.union (.summand ha) hb))))
  have hreads : Reads .sum ['(', 'a', '+', 'b', ')', '*', 'λ', 'c']
      (concat (concat (star (union (symbol 'a') (symbol 'b'))) epsilon) (symbol 'c')) :=
    .summand (.concat (.concat hstar (.once .epsilon)) (.once (.symbol (by decide))))
  refine ⟨(parse_correct [' ', '(', 'a', ' ', '+', 'b', ')', '\t', '*', 'λ', ' ', 'c']).2.1 _ _ rfl hreads, ?_⟩
  obtain ⟨hiff, _, hrefused⟩ := parse_correct ['a', '+', ')']
  exact hrefused fun h => by
    obtain ⟨r, hr⟩ := hiff.2 h
    cases hr

end LanguageTheory.Regex
