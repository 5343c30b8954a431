import LanguageTheory.Proofs.Grammar.PushdownGrammar
import LanguageTheory.Proofs.Grammar.RightLinear
import LanguageTheory.Proofs.Regular.LanguageEquality

/-! The grammar of a finite automaton has a letter for each state. What the letter of a state writes is
what is accepted from the state, so the automaton that is made of the grammar, which has its states in
another order and a final state of its own, is found equivalent to the given one. -/

namespace LanguageTheory

variable {a : Automaton} {g g' : Grammar} {names : List (StateId × Char)} {p q : Production} {t : Transition}
  {s initial f : StateId} {v next : Char} {w read : Word}

/-! ### Letters of states -/

/-- Each state has a letter of its own, the initial one the letter `S`. -/
structure Lettering (a : Automaton) (names : List (StateId × Char)) : Prop where
  lookup_initial : ∀ s, a.initial = some s → names.lookup s = some 'S'
  exists_letter : ∀ s ∈ a.ids, ∃ v, names.lookup s = some v
  eq_of_lookup : ∀ s s' v, names.lookup s = some v → names.lookup s' = some v → s = s'
  isVariable_letter : ∀ s v, names.lookup s = some v → isVariable v = true

/-- Names that are given to different states are different. -/
theorem eq_of_lookup_of_nodup {s' : StateId} (hnodup : (names.map (·.2)).Nodup) (hs : names.lookup s = some v)
    (hs' : names.lookup s' = some v) : s = s' :=
  congrArg Prod.fst (List.inj_on_of_nodup_map hnodup (mem_of_lookup hs) (mem_of_lookup hs') rfl)

theorem lettering_of_stateVariables (hinitial : a.initial = some initial)
    (h : a.stateVariables initial = .ok names) : Lettering a names := by
  rw [Automaton.stateVariables] at h
  split at h
  · cases h
  next hfits =>
    cases h
    have hle : (a.ids.filter (· ≠ initial)).length ≤ otherCapitals.length := Nat.le_of_not_lt hfits
    have hstates : (((initial, 'S') :: (a.ids.filter (· ≠ initial)).zip otherCapitals).map (·.1)) =
        initial :: a.ids.filter (· ≠ initial) := by
      rw [List.map_cons, List.map_fst_zip hle]
    have hletters : (((initial, 'S') :: (a.ids.filter (· ≠ initial)).zip otherCapitals).map (·.2)) =
        'S' :: otherCapitals.take (a.ids.filter (· ≠ initial)).length := by
      rw [List.map_cons, List.zip_eq_zip_take_min, Nat.min_eq_left hle, List.map_snd_zip]
      simp only [List.length_take]
      omega
    have hsublist := (List.take_sublist (a.ids.filter (· ≠ initial)).length otherCapitals).cons_cons 'S'
    refine ⟨fun s hs => ?_, fun s hs => ?_, fun s s' v hs hs' => ?_, fun s v hv => ?_⟩
    · obtain rfl := Option.some.inj (hinitial.symm.trans hs)
      exact List.lookup_cons_self
    · rw [← Option.isSome_iff_exists, List.lookup_isSome_iff]
      have hmem : s ∈ initial :: a.ids.filter (· ≠ initial) := by
        by_cases heq : s = initial
        · exact List.mem_cons.2 (Or.inl heq)
        · exact List.mem_cons_of_mem _ (List.mem_filter.2 ⟨hs, decide_eq_true heq⟩)
      rw [← hstates] at hmem
      obtain ⟨name, hname, rfl⟩ := List.mem_map.1 hmem
      exact ⟨name, hname, beq_self_eq_true _⟩
    · refine eq_of_lookup_of_nodup ?_ hs hs'
      rw [hletters]
      exact hsublist.nodup nodup_letters
    · have hmem := List.mem_map_of_mem (f := Prod.snd) (mem_of_lookup hv)
      rw [hletters] at hmem
      exact isVariable_letters v (hsublist.subset hmem)

/-! ### Productions -/

theorem Production.eq_of_sides (hleft : p.left = q.left) (hright : p.right = q.right) : p = q := by
  cases p
  cases q
  cases hleft
  cases hright
  rfl

/-- A grammar to which each member of a list adds one production has these productions besides its own. -/
theorem mem_foldlM_add {β : Type} {add : Grammar → β → Except Error Grammar} {l : List β}
    (Adds : β → Production → Prop)
    (hadd : ∀ x ∈ l, ∀ g g', add g x = .ok g' → ∃ p, g' = g.add p ∧ ∀ q, Adds x q ↔ q = p)
    (h : l.foldlM add g = .ok g') :
    g'.start = g.start ∧ ∀ q, q ∈ g'.productions ↔ q ∈ g.productions ∨ ∃ x ∈ l, Adds x q := by
  induction l generalizing g with
  | nil =>
      obtain rfl := Except.ok.inj h
      exact ⟨rfl, fun q => (or_iff_left fun ⟨x, hx, _⟩ => List.not_mem_nil hx).symm⟩
  | cons x l ih =>
      rw [List.foldlM_cons] at h
      obtain ⟨g₁, hfirst, hrest⟩ := exists_of_bind_eq_ok h
      obtain ⟨p, rfl, hp⟩ := hadd x List.mem_cons_self g g₁ hfirst
      obtain ⟨hstart, hmem⟩ := ih (fun y hy => hadd y (List.mem_cons_of_mem x hy)) hrest
      refine ⟨hstart.trans (Grammar.start_add g p), fun q => ?_⟩
      rw [hmem, Grammar.mem_add, or_assoc, List.exists_mem_cons_iff, hp]

theorem exists_of_foldlM_eq_ok {α β : Type} {f : β → α → Except Error β} {l : List α} {b b' : β}
    (h : l.foldlM f b = .ok b') : ∀ x ∈ l, ∃ c c', f c x = .ok c' := by
  induction l generalizing b with
  | nil => exact fun x hx => (List.not_mem_nil hx).elim
  | cons x l ih =>
      rw [List.foldlM_cons] at h
      obtain ⟨c, hfirst, hrest⟩ := exists_of_bind_eq_ok h
      exact List.forall_mem_cons.2 ⟨⟨b, c, hfirst⟩, ih hrest⟩

theorem addSides_eq_ok {left : Char} {right : Word} (h : g.addSides left right = .ok g') :
    ∃ p, g' = g.add p ∧ ∀ q : Production, (q.left = left ∧ q.right = right) ↔ q = p := by
  obtain ⟨p, hp, hg⟩ := exists_of_bind_eq_ok h
  obtain ⟨rfl, rfl⟩ := Grammar.sides_of_production hp
  refine ⟨p, (Except.ok.inj hg).symm, fun q => ⟨fun ⟨hleft, hright⟩ => Production.eq_of_sides hleft hright, ?_⟩⟩
  rintro rfl
  exact ⟨rfl, rfl⟩

/-- A move from one state to another that reads a word is `A → xB`. -/
def MoveProduction (names : List (StateId × Char)) (t : Transition) (p : Production) : Prop :=
  ∃ read next, t.label = .finite read ∧ names.lookup t.source = some p.left ∧
    names.lookup t.target = some next ∧ p.right = read ++ [next]

/-- A grammar that has been read off a finite automaton. -/
structure ReadOff (a : Automaton) (g : Grammar) (names : List (StateId × Char)) : Prop
    extends Lettering a names where
  start_eq : g.start = 'S'
  mem_productions : ∀ p, p ∈ g.productions ↔ (∃ t ∈ a.transitions, MoveProduction names t p) ∨
    ∃ s ∈ a.finals, names.lookup s = some p.left ∧ p.right = []
  exists_production : ∀ t ∈ a.transitions, ∃ p, MoveProduction names t p
  all_isTerminal : ∀ t ∈ a.transitions, ∀ read, t.label = .finite read → read.all isTerminal = true

theorem addMoveProduction_eq_ok (hnames : Lettering a names) (ha : a.WellFormed) (hkind : a.kind = .finite)
    (ht : t ∈ a.transitions) (h : Automaton.addMoveProduction names g t = .ok g') :
    (∃ p, g' = g.add p ∧ ∀ q, MoveProduction names t q ↔ q = p) ∧
      ∀ read, t.label = .finite read → read.all isTerminal = true := by
  obtain ⟨read, hlabel⟩ := ha.exists_label_eq hkind ht
  obtain ⟨hsource, htarget⟩ := ha.endpoints_mem t ht
  obtain ⟨left, hleft⟩ := hnames.exists_letter _ hsource
  obtain ⟨next, hnext⟩ := hnames.exists_letter _ htarget
  simp only [Automaton.addMoveProduction, hlabel] at h
  obtain ⟨_, hplain, h⟩ := exists_of_bind_eq_ok h
  simp only [hleft, hnext] at h
  constructor
  · obtain ⟨p, hp, hsides⟩ := addSides_eq_ok h
    refine ⟨p, hp, fun q => ?_⟩
    rw [← hsides]
    constructor
    · rintro ⟨read', next', hlabel', hleft', hnext', hright⟩
      obtain rfl := Label.finite.inj (hlabel.symm.trans hlabel')
      obtain rfl := Option.some.inj (hnext.symm.trans hnext')
      exact ⟨Option.some.inj (hleft'.symm.trans hleft), hright⟩
    · rintro ⟨hleft', hright⟩
      exact ⟨read, next, hlabel, hleft' ▸ hleft, hnext, hright⟩
  · intro read' hlabel'
    obtain rfl := Label.finite.inj (hlabel.symm.trans hlabel')
    exact all_isTerminal_of_read (Automaton.of_requirePlainRead hplain)

/-- Adding the productions of final states is adding one for each letter of a final state. -/
theorem exists_finalLetter_iff (ha : a.WellFormed) :
    (∃ v ∈ (a.ids.filter a.isFinal).filterMap fun s => names.lookup s, p.left = v ∧ p.right = []) ↔
      ∃ s ∈ a.finals, names.lookup s = some p.left ∧ p.right = [] := by
  constructor
  · rintro ⟨v, hv, rfl, hright⟩
    obtain ⟨s, hs, hlookup⟩ := List.mem_filterMap.1 hv
    exact ⟨s, of_decide_eq_true (List.mem_filter.1 hs).2, hlookup, hright⟩
  · rintro ⟨s, hs, hlookup, hright⟩
    have hmem : s ∈ a.ids.filter a.isFinal := List.mem_filter.2 ⟨ha.finals_mem s hs, decide_eq_true hs⟩
    exact ⟨p.left, List.mem_filterMap.2 ⟨s, hmem, hlookup⟩, rfl, hright⟩

theorem readOff_of_toGrammar (ha : a.WellFormed) (h : a.toGrammar = .ok g) :
    a.kind = .finite ∧ ∃ s names, a.initial = some s ∧ ReadOff a g names := by
  obtain ⟨_, hfinite, h⟩ := exists_of_bind_eq_ok h
  obtain ⟨s, hrequired, h⟩ := exists_of_bind_eq_ok h
  obtain ⟨names, hstate, h⟩ := exists_of_bind_eq_ok h
  obtain ⟨g₀, hg₀, h⟩ := exists_of_bind_eq_ok h
  obtain ⟨g₁, hmoves, hfinals⟩ := exists_of_bind_eq_ok h
  cases hg₀
  have hkind : a.kind = .finite := by
    by_contra hkind
    rw [Automaton.requireFinite, if_neg hkind] at hfinite
    cases hfinite
  have hinitial : a.initial = some s := by
    rw [Automaton.requireInitial] at hrequired
    cases hinitial : a.initial with
    | none =>
        rw [hinitial] at hrequired
        cases hrequired
    | some s' =>
        rw [hinitial] at hrequired
        rw [Except.ok.inj hrequired]
  have hnames := lettering_of_stateVariables hinitial hstate
  obtain ⟨hstart₁, hmem₁⟩ := mem_foldlM_add (MoveProduction names)
    (fun t ht g g' hadd => (addMoveProduction_eq_ok hnames ha hkind ht hadd).1) hmoves
  obtain ⟨hstart, hmem⟩ := mem_foldlM_add (fun v q => q.left = v ∧ q.right = [])
    (fun v _ g g' hadd => addSides_eq_ok hadd) hfinals
  refine ⟨hkind, s, names, hinitial, hnames, hstart.trans hstart₁, fun p => ?_, fun t ht => ?_, fun t ht => ?_⟩
  · rw [hmem, hmem₁, exists_finalLetter_iff ha]
    exact or_congr_left (or_iff_right List.not_mem_nil)
  · obtain ⟨c, c', hadd⟩ := exists_of_foldlM_eq_ok hmoves t ht
    obtain ⟨p, _, hp⟩ := (addMoveProduction_eq_ok hnames ha hkind ht hadd).1
    exact ⟨p, (hp p).2 rfl⟩
  · obtain ⟨c, c', hadd⟩ := exists_of_foldlM_eq_ok hmoves t ht
    exact (addMoveProduction_eq_ok hnames ha hkind ht hadd).2

/-! ### What letters write -/

theorem ReadOff.isLinear (h : ReadOff a g names) : ∀ p ∈ g.productions, p.IsLinear := by
  intro p hp
  rcases (h.mem_productions p).1 hp with ⟨t, ht, read, next, hlabel, _, _, hright⟩ | ⟨s, _, _, hright⟩
  · have hright' : p.right = read ++ (some next).toList := hright
    exact Production.isLinear_of_right_eq hright' (h.all_isTerminal t ht read hlabel)
  · have hright' : p.right = [] ++ (none : Option Char).toList := hright
    exact Production.isLinear_of_right_eq hright' rfl

/-- A path to a final state is written by the letter of the state that it begins in. -/
theorem ReadOff.writes_of_path (h : ReadOff a g names) (hpath : a.Path s w f) (hf : f ∈ a.finals)
    (hv : names.lookup s = some v) : g.Writes v w := by
  induction hpath generalizing v with
  | nil s =>
      have hp : (⟨v, [], h.isVariable_letter s v hv, rfl⟩ : Production) ∈ g.productions :=
        (h.mem_productions _).2 (Or.inr ⟨s, hf, hv, rfl⟩)
      exact .ends hp rfl
  | @cons t read w f ht hlabel _ ih =>
      obtain ⟨p, hmove⟩ := h.exists_production t ht
      obtain ⟨read', next, hlabel', hleft, hnext, hright⟩ := id hmove
      obtain rfl := Label.finite.inj (hlabel.symm.trans hlabel')
      obtain rfl := Option.some.inj (hleft.symm.trans hv)
      exact .passes ((h.mem_productions p).2 (Or.inl ⟨t, ht, hmove⟩)) hright (h.all_isTerminal t ht read hlabel)
        (h.isVariable_letter _ _ hnext) (ih hf hnext)

theorem ReadOff.exists_path_of_writes (h : ReadOff a g names) (hw : g.Writes v w) (hv : names.lookup s = some v) :
    ∃ f ∈ a.finals, a.Path s w f := by
  induction hw generalizing s with
  | @ends p hp hright =>
      rcases (h.mem_productions p).1 hp with ⟨t, ht, read, next, hlabel, _, hnext, hright'⟩ | ⟨s', hs', hleft, hright'⟩
      · -- A move would have a variable at the end.
        rw [hright', List.all_append, List.all_cons, isTerminal_eq_false (h.isVariable_letter _ _ hnext),
          Bool.false_and, Bool.and_false] at hright
        cases hright
      · obtain rfl := h.eq_of_lookup _ _ _ hv hleft
        rw [hright']
        exact ⟨s, hs', .nil s⟩
  | @passes p read w next hp hright hread hnext _ ih =>
      rcases (h.mem_productions p).1 hp with
        ⟨t, ht, read', next', hlabel, hleft, hnext', hright'⟩ | ⟨s', hs', hleft, hright'⟩
      · obtain ⟨rfl, hlast⟩ := List.append_inj' (hright.symm.trans hright') rfl
        obtain rfl := List.singleton_inj.1 hlast
        obtain rfl := h.eq_of_lookup _ _ _ hv hleft
        obtain ⟨f, hf, hpath⟩ := ih hnext'
        exact ⟨f, hf, .cons ht hlabel hpath⟩
      · rw [hright] at hright'
        exact (List.append_ne_nil_of_right_ne_nil read (List.cons_ne_nil next []) hright').elim

theorem ReadOff.generates_iff (h : ReadOff a g names) (hinitial : a.initial = some initial) :
    g.Generates w ↔ w ∈ a.language := by
  rw [Grammar.generates_iff_writes h.isLinear, h.start_eq, Automaton.mem_language hinitial]
  constructor
  · exact fun hw => h.exists_path_of_writes hw (h.lookup_initial _ hinitial)
  · rintro ⟨f, hf, hpath⟩
    exact h.writes_of_path hpath hf (h.lookup_initial _ hinitial)

namespace Automaton

/-- The grammar that is read off a finite automaton is right-linear and generates what the automaton accepts.
So it has a finite automaton in turn, and that is found equivalent to the given one. -/
theorem toGrammar_correct (ha : a.WellFormed) (h : a.toGrammar = .ok g) :
    (∀ p ∈ g.productions, p.IsLinear) ∧ (∀ w, g.Generates w ↔ w ∈ a.language) ∧
      ∃ b, g.toFinite = .ok b ∧ a.equivalent b = .ok true := by
  obtain ⟨hkind, s, names, hinitial, hread⟩ := readOff_of_toGrammar ha h
  have hgenerates : ∀ w, g.Generates w ↔ w ∈ a.language := fun w => hread.generates_iff hinitial
  obtain ⟨b, hb, hlinear⟩ := Grammar.exists_toFinite hread.isLinear
  refine ⟨hread.isLinear, hgenerates, b, hb, ?_⟩
  refine equivalent_of_language_eq ha hkind hinitial hlinear.wellFormed hlinear.kind_eq hlinear.initial_eq ?_
  ext w
  rw [hlinear.mem_language_iff hread.isLinear, hgenerates]

/-- Any number of words `ab` and then a `c`. The initial state is the second one, the way back reads nothing, and
nothing leads to the last state. -/
def returning : Automaton :=
  { ofLabels .finite [none, none, none, none] with
    initial := some 1
    finals := .ofList [2]
    transitions := [⟨1, 0, .finite ['a', 'b']⟩, ⟨0, 1, .finite []⟩, ⟨1, 2, .finite ['c']⟩] }

theorem toGrammar_correct_returning : returning.WellFormed ∧ ∃ g, returning.toGrammar = .ok g ∧
    g.productions.map (fun p => (p.left, p.right)) =
      [('S', ['a', 'b', 'A']), ('A', ['S']), ('S', ['c', 'B']), ('B', [])] ∧
    (∀ p ∈ g.productions, p.IsLinear) ∧ (∀ w, g.Generates w ↔ w ∈ returning.language) ∧
      ∃ b, g.toFinite = .ok b ∧ returning.equivalent b = .ok true := by
  have hwellFormed : returning.WellFormed := by decide
  have hsides : (returning.toGrammar.toOption.any fun g => g.productions.map (fun p => (p.left, p.right)) =
      [('S', ['a', 'b', 'A']), ('A', ['S']), ('S', ['c', 'B']), ('B', [])]) = true := by decide +kernel
  obtain ⟨g, hg, hproductions⟩ := exists_ok_of_any hsides
  exact ⟨hwellFormed, g, hg, of_decide_eq_true hproductions, toGrammar_correct hwellFormed hg⟩

end Automaton

end LanguageTheory
