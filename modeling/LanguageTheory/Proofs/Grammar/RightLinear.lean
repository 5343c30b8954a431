import LanguageTheory.Grammar.Converter
import LanguageTheory.Proofs.Grammar.Derivation
import LanguageTheory.Proofs.Machine.Acceptance
import LanguageTheory.Proofs.Regular.Graph

/-! Right-linear grammars and their finite automata. A derivation in such a grammar writes the word from
left to right, with the one variable behind what has been written, so it is a path: each production is a
move from the state of its variable, to the state of the variable at its end or to the final state. -/

namespace LanguageTheory

variable {g : Grammar} {p : Production} {a : Automaton} {t : Transition} {read u w x : Word} {v next : Char}
  {s f : StateId} {d : Nat}

/-! ### Right-linear productions -/

namespace Production

/-- The right-hand side has at most one variable, and only as its last symbol. -/
def IsLinear (p : Production) : Prop :=
  p.variableSymbols.length ≤ 1 ∧
    ∀ before v after, p.right = before ++ v :: after → isVariable v = true → after = []

theorem isLinear_of_right_eq {next : Option Char} (hright : p.right = read ++ next.toList)
    (hread : read.all isTerminal = true) : p.IsLinear := by
  have hfilter : read.filter isVariable = [] := by
    rw [List.filter_eq_nil_iff]
    intro c hc
    rw [isVariable_eq_false (List.all_eq_true.1 hread c hc)]
    exact Bool.false_ne_true
  constructor
  · rw [variableSymbols, hright, List.filter_append, hfilter, List.nil_append]
    cases next with
    | none => exact Nat.zero_le 1
    | some c => exact List.length_filter_le isVariable [c]
  · intro before v after hsplit hv
    rw [hright] at hsplit
    -- The variable is not among the terminals, so it is the symbol behind them.
    rcases List.append_eq_append_iff.1 hsplit with ⟨rest, rfl, hrest⟩ | ⟨rest, hread', hrest⟩
    · cases next with
      | none => exact (List.append_ne_nil_of_right_ne_nil rest (List.cons_ne_nil v after) hrest.symm).elim
      | some c =>
          have hlength := congrArg List.length hrest
          rw [Option.toList_some, List.length_singleton, List.length_append, List.length_cons] at hlength
          exact List.eq_nil_of_length_eq_zero (by omega)
    · cases rest with
      | nil =>
          have hlength := congrArg List.length hrest
          cases next <;> simp at hlength
          exact hlength
      | cons c rest =>
          obtain ⟨rfl, _⟩ := List.cons.inj hrest
          rw [hread', List.all_append, List.all_cons, isTerminal_eq_false hv] at hread
          simp at hread

theorem linearParts?_eq_some_iff {next : Option Char} : p.linearParts? = some (read, next) ↔
    p.right = read ++ next.toList ∧ read.all isTerminal = true ∧ ∀ v ∈ next, isVariable v = true := by
  have hspan : p.linearParts? = some (read, next) ↔ p.right.span isTerminal = (read, next.toList) := by
    rw [linearParts?]
    rcases p.right.span isTerminal with ⟨before, rest⟩
    match rest with
    | [] => cases next <;> simp
    | [v] => cases next <;> simp
    | u :: v :: rest => cases next <;> simp
  rw [hspan, Grammar.span_isTerminal_eq_iff]
  cases next <;> rfl

theorem exists_linearParts? (h : p.IsLinear) : ∃ read next, p.linearParts? = some (read, next) := by
  rcases hspan : p.right.span isTerminal with ⟨before, rest⟩
  obtain ⟨hright, _, hrest⟩ := Grammar.span_isTerminal_eq_iff.1 hspan
  rw [linearParts?, hspan]
  cases rest with
  | nil => exact ⟨before, none, rfl⟩
  | cons v after =>
      obtain rfl := h.2 before v after hright (hrest v rfl)
      exact ⟨before, some v, rfl⟩

theorem isRightLinear_iff : p.isRightLinear = true ↔ p.IsLinear := by
  rw [isRightLinear, Option.isSome_iff_exists]
  constructor
  · rintro ⟨⟨read, next⟩, hparts⟩
    obtain ⟨hright, hread, _⟩ := linearParts?_eq_some_iff.1 hparts
    exact isLinear_of_right_eq hright hread
  · intro h
    obtain ⟨read, next, hparts⟩ := exists_linearParts? h
    exact ⟨(read, next), hparts⟩

end Production

/-! ### Derivations -/

namespace Grammar

/-- The word that a variable derives by productions each of which writes terminals and passes on to the
variable at its end, if there is one. -/
inductive Writes (g : Grammar) : Char → Word → Prop
  | ends {p : Production} : p ∈ g.productions → p.right.all isTerminal = true → Writes g p.left p.right
  | passes {p : Production} {read w : Word} {next : Char} : p ∈ g.productions → p.right = read ++ [next] →
      read.all isTerminal = true → isVariable next = true → Writes g next w → Writes g p.left (read ++ w)

theorem Writes.derives (h : g.Writes v w) : g.Derives [v] w ∧ w.all isTerminal = true := by
  induction h with
  | ends hp hright => exact ⟨derives_of_mem hp, hright⟩
  | @passes p read w next hp hright hread _ _ ih =>
      obtain ⟨hderives, hw⟩ := ih
      have hfirst := derives_of_mem hp
      rw [hright] at hfirst
      refine ⟨hfirst.trans (Derives.refl.append hderives), ?_⟩
      rw [List.all_append, hread, hw, Bool.and_self]

theorem Grown.eq_of_all_isTerminal (h : Grown g d u x) (hu : u.all isTerminal = true) : x = u := by
  induction h with
  | nil => rfl
  | leaf _ _ ih =>
      rw [List.all_cons, Bool.and_eq_true] at hu
      rw [ih hu.2]
  | @node _ p _ _ _ _ _ _ _ _ =>
      rw [List.all_cons, isTerminal_eq_false p.left_isVariable] at hu
      cases hu

/-- Below a variable there is one variable at most, with the rest of the word on it. -/
theorem Grown.writes (hlinear : ∀ p ∈ g.productions, p.IsLinear) (hv : isVariable v = true)
    (h : Grown g d [v] w) : g.Writes v w := by
  induction d generalizing v w with
  | zero =>
      cases h with
      | leaf hterminal _ =>
          rw [isTerminal_eq_false hv] at hterminal
          cases hterminal
  | succ d ih =>
      cases h with
      | leaf hterminal _ =>
          rw [isTerminal_eq_false hv] at hterminal
          cases hterminal
      | @node _ p _ x _ hp hbelow hrest =>
          cases hrest
          rw [List.append_nil]
          obtain ⟨read, next, hparts⟩ := Production.exists_linearParts? (hlinear p hp)
          obtain ⟨hright, hread, hnext⟩ := Production.linearParts?_eq_some_iff.1 hparts
          cases next with
          | none =>
              rw [Option.toList_none, List.append_nil] at hright
              rw [← hright] at hread
              rw [hbelow.eq_of_all_isTerminal hread]
              exact .ends hp hread
          | some v =>
              rw [hright] at hbelow
              obtain ⟨y, z, rfl, hy, hz⟩ := hbelow.split
              rw [hy.eq_of_all_isTerminal hread]
              exact .passes hp hright hread (hnext v rfl) (ih (hnext v rfl) hz)

theorem generates_iff_writes (hlinear : ∀ p ∈ g.productions, p.IsLinear) :
    g.Generates w ↔ g.Writes g.start w := by
  constructor
  · rintro ⟨hw, hderives⟩
    obtain ⟨d, hgrown⟩ := (derives_iff_grown hw).1 hderives
    exact hgrown.writes hlinear g.start_isVariable
  · intro h
    exact ⟨h.derives.2, h.derives.1⟩

/-! ### States -/

theorem mem_stateOrder : v ∈ g.stateOrder ↔ v ∈ g.variableSymbols := by
  rw [stateOrder, List.mem_cons, List.mem_filter, ← Ascending.mem_def, decide_eq_true_eq]
  constructor
  · rintro (rfl | ⟨hv, _⟩)
    · exact mem_variableSymbols.2 (Or.inl rfl)
    · exact hv
  · intro hv
    by_cases hstart : v = g.start
    · exact Or.inl hstart
    · exact Or.inr ⟨hv, hstart⟩

theorem exists_stateFor? (hv : v ∈ g.variableSymbols) : ∃ s, g.stateFor? v = some s := by
  rw [← Option.isSome_iff_exists, stateFor?, List.isSome_idxOf?]
  exact mem_stateOrder.2 hv

theorem getElem?_of_stateFor? (h : g.stateFor? v = some s) : g.stateOrder[s]? = some v := by
  obtain ⟨hs, heq, _⟩ := List.idxOf?_eq_some_iff.1 h
  rw [List.getElem?_eq_getElem hs, heq]

theorem eq_of_stateFor? (h : g.stateFor? v = some s) (h' : g.stateFor? next = some s) : v = next :=
  Option.some.inj ((getElem?_of_stateFor? h).symm.trans (getElem?_of_stateFor? h'))

theorem lt_linearFinal (h : g.stateFor? v = some s) : s < g.linearFinal :=
  (List.getElem?_eq_some_iff.1 (getElem?_of_stateFor? h)).1

theorem stateFor?_start (g : Grammar) : g.stateFor? g.start = some 0 := by
  rw [stateFor?, stateOrder, List.idxOf?_cons, if_pos (beq_self_eq_true _)]

/-! ### Transitions -/

/-- The move that a production contributes. -/
inductive MoveOf (g : Grammar) (p : Production) : Transition → Prop
  | ends {s : StateId} : p.right.all isTerminal = true → g.stateFor? p.left = some s →
      MoveOf g p ⟨s, g.linearFinal, .finite p.right⟩
  | passes {read : Word} {next : Char} {s t : StateId} : p.right = read ++ [next] →
      read.all isTerminal = true → isVariable next = true → g.stateFor? p.left = some s →
      g.stateFor? next = some t → MoveOf g p ⟨s, t, .finite read⟩

theorem requireStateFor_eq_ok : g.requireStateFor p v = .ok s ↔ g.stateFor? v = some s := by
  rw [requireStateFor]
  cases g.stateFor? v <;> simp

theorem linearTransition_of_parts {next : Option Char} (h : p.linearParts? = some (read, next)) :
    g.linearTransition p = (g.requireStateFor p p.left).bind fun source =>
      (match next with
        | some v => g.requireStateFor p v
        | none => .ok g.linearFinal).bind fun target => .ok ⟨source, target, .finite read⟩ := by
  rw [linearTransition, h]
  cases next <;> rfl

theorem linearTransition_eq_ok_iff : g.linearTransition p = .ok t ↔ g.MoveOf p t := by
  constructor
  · intro h
    cases hparts : p.linearParts? with
    | none =>
        rw [linearTransition, hparts] at h
        cases h
    | some parts =>
        obtain ⟨read, next⟩ := parts
        rw [linearTransition_of_parts hparts] at h
        obtain ⟨source, hsource, h⟩ := exists_of_bind_eq_ok h
        obtain ⟨target, htarget, h⟩ := exists_of_bind_eq_ok h
        obtain rfl := Except.ok.inj h
        obtain ⟨hright, hread, hnext⟩ := Production.linearParts?_eq_some_iff.1 hparts
        cases next with
        | none =>
            obtain rfl := Except.ok.inj htarget
            rw [Option.toList_none, List.append_nil] at hright
            rw [← hright] at hread ⊢
            exact .ends hread (requireStateFor_eq_ok.1 hsource)
        | some v =>
            exact .passes hright hread (hnext v rfl) (requireStateFor_eq_ok.1 hsource)
              (requireStateFor_eq_ok.1 htarget)
  · intro h
    cases h with
    | ends hright hs =>
        have hparts : p.linearParts? = some (p.right, none) :=
          Production.linearParts?_eq_some_iff.2 ⟨(List.append_nil _).symm, hright, fun v hv => nomatch hv⟩
        rw [linearTransition_of_parts hparts, requireStateFor_eq_ok.2 hs]
        rfl
    | @passes read next s t hright hread hnext hs ht =>
        have hparts : p.linearParts? = some (read, some next) := by
          refine Production.linearParts?_eq_some_iff.2 ⟨hright, hread, fun v hv => ?_⟩
          exact Option.some.inj hv ▸ hnext
        rw [linearTransition_of_parts hparts, requireStateFor_eq_ok.2 hs]
        simp only [requireStateFor_eq_ok.2 ht, Except.bind]

theorem exists_moveOf (hp : p ∈ g.productions) (hlinear : p.IsLinear) : ∃ t, g.MoveOf p t := by
  obtain ⟨read, next, hparts⟩ := Production.exists_linearParts? hlinear
  obtain ⟨hright, hread, hnext⟩ := Production.linearParts?_eq_some_iff.1 hparts
  obtain ⟨s, hs⟩ := exists_stateFor? (mem_variableSymbols.2 (Or.inr ⟨p, hp, Or.inl rfl⟩))
  cases next with
  | none =>
      rw [Option.toList_none, List.append_nil] at hright
      exact ⟨_, .ends (hright ▸ hread) hs⟩
  | some v =>
      have hv : v ∈ p.right := by
        rw [hright]
        exact List.mem_append_right read List.mem_cons_self
      obtain ⟨t, ht⟩ := exists_stateFor? (mem_variableSymbols.2 (Or.inr ⟨p, hp, Or.inr ⟨hv, hnext v rfl⟩⟩))
      exact ⟨_, .passes hright hread (hnext v rfl) hs ht⟩

end Grammar

/-- Productions that all have a transition contribute their transitions in order. -/
theorem Converter.foldlM_transition {c : Converter} {ps : List Production}
    (h : ∀ p ∈ ps, ∃ t, c.transition p = .ok t) (a : Automaton) :
    ps.foldlM (fun a p => do a.addTransition (← c.transition p)) a =
      a.addTransitions (ps.filterMap fun p => (c.transition p).toOption) := by
  induction ps generalizing a with
  | nil => rfl
  | cons p ps ih =>
      obtain ⟨⟨t, ht⟩, hps⟩ := List.forall_mem_cons.1 h
      rw [List.filterMap_cons_some (by rw [ht]; rfl), Automaton.addTransitions, List.foldlM_cons, List.foldlM_cons]
      simp only [ht, bind, Except.bind]
      cases a.addTransition t with
      | error e => rfl
      | ok b => exact ih hps b

namespace Grammar

/-! ### The automaton -/

/-- What the construction makes, up to the order of the transitions. -/
structure Linear (g : Grammar) (a : Automaton) : Prop where
  wellFormed : a.WellFormed
  kind_eq : a.kind = .finite
  initial_eq : a.initial = some 0
  mem_finals : ∀ s, s ∈ a.finals ↔ s = g.linearFinal
  mem_transitions : ∀ t, t ∈ a.transitions ↔ ∃ p ∈ g.productions, g.MoveOf p t

theorem ids_linearScaffold (g : Grammar) : g.linearScaffold.ids = List.range (g.linearFinal + 1) := by
  have hids := (Automaton.ids_ofLabels .finite (g.stateOrder.map (fun v => some v.toString) ++ [none])).1
  rwa [List.length_append, List.length_map] at hids

theorem transitions_linearScaffold (g : Grammar) : g.linearScaffold.transitions = [] :=
  Automaton.transitions_ofLabels .finite _

theorem kind_linearScaffold (g : Grammar) : g.linearScaffold.kind = .finite :=
  (Automaton.ids_ofLabels .finite _).2.2.1

theorem wellFormed_linearScaffold (g : Grammar) : g.linearScaffold.WellFormed := by
  have hlength : (g.stateOrder.map (fun v : Char => some v.toString) ++ [none]).length = g.linearFinal + 1 := by
    rw [List.length_append, List.length_map]
    rfl
  have htransitions := transitions_linearScaffold g
  apply Automaton.wellFormed_ofLabels
  · intro id hid
    obtain rfl := Option.some.inj hid
    exact hlength ▸ Nat.succ_pos _
  · intro id hid
    obtain rfl := List.mem_singleton.1 (Ascending.mem_ofList.1 hid)
    exact hlength ▸ Nat.lt_succ_self _
  · intro t ht
    exact (List.not_mem_nil (htransitions ▸ ht)).elim
  · exact htransitions ▸ List.nodup_nil
  · intro t ht
    exact (List.not_mem_nil (htransitions ▸ ht)).elim

theorem MoveOf.fits (h : g.MoveOf p t) : t.kind = g.linearScaffold.kind ∧
    t.source ∈ g.linearScaffold.ids ∧ t.target ∈ g.linearScaffold.ids := by
  rw [kind_linearScaffold, ids_linearScaffold, List.mem_range, List.mem_range]
  cases h with
  | ends _ hs => exact ⟨rfl, Nat.lt_succ_of_lt (lt_linearFinal hs), Nat.lt_succ_self _⟩
  | passes _ _ _ hs ht => exact ⟨rfl, Nat.lt_succ_of_lt (lt_linearFinal hs), Nat.lt_succ_of_lt (lt_linearFinal ht)⟩

/-- The construction succeeds for right-linear grammars. -/
theorem exists_toFinite (hlinear : ∀ p ∈ g.productions, p.IsLinear) : ∃ a, g.toFinite = .ok a ∧ g.Linear a := by
  have htransition : ∀ p ∈ g.productions, ∃ t, g.linearTransition p = .ok t := by
    intro p hp
    obtain ⟨t, ht⟩ := exists_moveOf hp (hlinear p hp)
    exact ⟨t, linearTransition_eq_ok_iff.2 ht⟩
  have hmem : ∀ t, t ∈ g.productions.filterMap (fun p => (g.linearTransition p).toOption) ↔
      ∃ p ∈ g.productions, g.MoveOf p t := by
    intro t
    rw [List.mem_filterMap]
    refine exists_congr fun p => and_congr_right fun _ => ?_
    rw [← linearTransition_eq_ok_iff]
    cases g.linearTransition p <;> simp [Except.toOption]
  have hfits : ∀ t ∈ g.productions.filterMap (fun p => (g.linearTransition p).toOption),
      t.kind = g.linearScaffold.kind ∧ t.source ∈ g.linearScaffold.ids ∧ t.target ∈ g.linearScaffold.ids := by
    intro t ht
    obtain ⟨p, _, hmove⟩ := (hmem t).1 ht
    exact hmove.fits
  obtain ⟨ts, hok, hwellFormed, hts⟩ := (wellFormed_linearScaffold g).exists_addTransitions hfits
  have hfind : g.productions.find? (fun p => !p.isRightLinear) = none := by
    rw [List.find?_eq_none]
    intro p hp
    rw [Production.isRightLinear_iff.2 (hlinear p hp)]
    exact Bool.false_ne_true
  refine ⟨_, ?_, hwellFormed, kind_linearScaffold g, rfl, fun s => ?_, fun t => ?_⟩
  · rw [toFinite, linearConverter, hfind]
    exact (Converter.foldlM_transition (c := ⟨g, g.linearScaffold, g.linearTransition⟩) htransition _).trans hok
  · exact Ascending.mem_ofList.trans List.mem_singleton
  · rw [hts, transitions_linearScaffold, hmem]
    exact or_iff_right List.not_mem_nil

/-! ### Paths -/

/-- What a variable writes is what a path from its state to the final state reads. -/
theorem Linear.path_of_writes (h : g.Linear a) (hw : g.Writes v w) (hs : g.stateFor? v = some s) :
    a.Path s w g.linearFinal := by
  induction hw generalizing s with
  | @ends p hp hright =>
      have hpath := Automaton.Path.cons ((h.mem_transitions _).2 ⟨p, hp, .ends hright hs⟩) rfl (.nil g.linearFinal)
      rwa [List.append_nil] at hpath
  | @passes p read w next hp hright hread hnext _ ih =>
      have hmem : next ∈ p.right := by
        rw [hright]
        exact List.mem_append_right read List.mem_cons_self
      obtain ⟨t, ht⟩ := exists_stateFor? (mem_variableSymbols.2 (Or.inr ⟨p, hp, Or.inr ⟨hmem, hnext⟩⟩))
      exact .cons ((h.mem_transitions _).2 ⟨p, hp, .passes hright hread hnext hs ht⟩) rfl (ih ht)

/-- No path leads on from the final state. -/
theorem Linear.eq_nil_of_path (h : g.Linear a) (hpath : a.Path s w f) (hs : s = g.linearFinal) : w = [] := by
  cases hpath with
  | nil => rfl
  | @cons t read w f ht _ _ =>
      obtain ⟨p, _, hmove⟩ := (h.mem_transitions t).1 ht
      cases hmove with
      | ends _ hsource => exact absurd hs (lt_linearFinal hsource).ne
      | passes _ _ _ hsource _ => exact absurd hs (lt_linearFinal hsource).ne

theorem Linear.writes_of_path (h : g.Linear a) (hpath : a.Path s w f) (hf : f = g.linearFinal)
    (hs : g.stateFor? v = some s) : g.Writes v w := by
  induction hpath generalizing v with
  | nil s => exact absurd hf (lt_linearFinal hs).ne
  | @cons t read w f ht hlabel hrest ih =>
      obtain ⟨p, hp, hmove⟩ := (h.mem_transitions t).1 ht
      cases hmove with
      | ends hright hsource =>
          cases hlabel
          obtain rfl := eq_of_stateFor? hs hsource
          rw [h.eq_nil_of_path hrest rfl, List.append_nil]
          exact .ends hp hright
      | passes hright hread hnext hsource htarget =>
          cases hlabel
          obtain rfl := eq_of_stateFor? hs hsource
          exact .passes hp hright hread hnext (ih hf htarget)

theorem Linear.mem_language_iff (h : g.Linear a) (hlinear : ∀ p ∈ g.productions, p.IsLinear) :
    w ∈ a.language ↔ g.Generates w := by
  rw [Automaton.mem_language h.initial_eq, generates_iff_writes hlinear]
  constructor
  · rintro ⟨f, hf, hpath⟩
    exact h.writes_of_path hpath ((h.mem_finals f).1 hf) (stateFor?_start g)
  · intro hw
    exact ⟨g.linearFinal, (h.mem_finals _).2 rfl, h.path_of_writes hw (stateFor?_start g)⟩

/-! ### The construction -/

/-- Where a production is of another form, the first such production is reported. -/
theorem toFinite_of_not_linear (h : ¬∀ p ∈ g.productions, p.IsLinear) : ∃ before p after,
    g.productions = before ++ p :: after ∧ (∀ q ∈ before, q.IsLinear) ∧ ¬p.IsLinear ∧
      g.toFinite = .error (.automaton (.notRightLinear p)) := by
  cases hfind : g.productions.find? fun p => !p.isRightLinear with
  | none =>
      refine (h fun p hp => ?_).elim
      have hlinear := List.find?_eq_none.1 hfind p hp
      rw [Bool.not_eq_true', Bool.not_eq_false] at hlinear
      exact Production.isRightLinear_iff.1 hlinear
  | some p =>
      obtain ⟨hp, before, after, hsplit, hbefore⟩ := List.find?_eq_some_iff_append.1 hfind
      refine ⟨before, p, after, hsplit, fun q hq => ?_, fun hlinear => ?_, ?_⟩
      · have hlinear := hbefore q hq
        rw [Bool.not_not] at hlinear
        exact Production.isRightLinear_iff.1 hlinear
      · rw [Production.isRightLinear_iff.2 hlinear] at hp
        cases hp
      · rw [toFinite, linearConverter, hfind]
        rfl

/-- A grammar has a finite automaton if and only if each production has at most one variable and only as its
last symbol; otherwise the error names the first one that does not. The automaton accepts what the grammar
generates, and so does every machine that runs it. -/
theorem toFinite_correct (g : Grammar) :
    ((∃ a, g.toFinite = .ok a) ↔ ∀ p ∈ g.productions, p.IsLinear) ∧
    ((¬∀ p ∈ g.productions, p.IsLinear) → ∃ before p after, g.productions = before ++ p :: after ∧
      (∀ q ∈ before, q.IsLinear) ∧ ¬p.IsLinear ∧ g.toFinite = .error (.automaton (.notRightLinear p))) ∧
    ∀ a, g.toFinite = .ok a → a.WellFormed ∧ a.kind = .finite ∧ (∀ w, w ∈ a.language ↔ g.Generates w) ∧
      ∀ config : SearchConfig, Simulator.of a config = .ok ⟨a, config⟩ ∧
        ∀ w, Simulator.Accepts ⟨a, config⟩ w ↔ g.Generates w := by
  by_cases hlinear : ∀ p ∈ g.productions, p.IsLinear
  · obtain ⟨a, ha, h⟩ := exists_toFinite hlinear
    refine ⟨iff_of_true ⟨a, ha⟩ hlinear, fun hnot => (hnot hlinear).elim, fun b hb => ?_⟩
    obtain rfl := Except.ok.inj (ha.symm.trans hb)
    have hlanguage : ∀ w, w ∈ a.language ↔ g.Generates w := fun w => h.mem_language_iff hlinear
    refine ⟨h.wellFormed, h.kind_eq, hlanguage, fun config => ⟨?_, fun w => ?_⟩⟩
    · exact Simulator.of_eq_ok h.wellFormed h.initial_eq config
    · rw [Simulator.accepts_iff_mem_language h.kind_eq, hlanguage]
  · obtain ⟨before, p, after, hsplit, hbefore, hp, herror⟩ := toFinite_of_not_linear hlinear
    have hnone : ∀ a, g.toFinite ≠ .ok a := by
      intro a ha
      rw [herror] at ha
      cases ha
    refine ⟨iff_of_false (fun ⟨a, ha⟩ => hnone a ha) hlinear, fun _ => ?_, fun a ha => (hnone a ha).elim⟩
    exact ⟨before, p, after, hsplit, hbefore, hp, herror⟩

end Grammar

end LanguageTheory
