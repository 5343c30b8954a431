import LanguageTheory.Proofs.Grammar.Derivation
import LanguageTheory.Proofs.Grammar.TripleRules

/-! The grammar of a pushdown automaton is its rules over triples with capitals for the triples. Names are
given out in order and never twice, so a production stands for one rule, and what a variable derives is
what its triple spells. -/

namespace LanguageTheory

variable {g g' : Grammar} {start t t' : Triple} {r : TripleRule} {rules : List TripleRule} {p q : Production}
  {names names' : List (Triple × Char)} {ts ts' : List Triple} {u v : Char} {vs vs' w x right : Word} {d : Nat}

/-! ### Names -/

/-- The names given out so far. -/
structure Naming (start : Triple) (names : List (Triple × Char)) : Prop where
  lookup_start : names.lookup start = some 'S'
  letters_eq : names.map (·.2) = 'S' :: otherCapitals.take (names.length - 1)

/-- The symbols are the names of the triples. -/
def Renders (names : List (Triple × Char)) : List Triple → Word → Prop :=
  List.Forall₂ fun t v => names.lookup t = some v

/-- A name that has been given stays. -/
def Keeps (names names' : List (Triple × Char)) : Prop :=
  ∀ t v, names.lookup t = some v → names'.lookup t = some v

theorem Keeps.trans {names'' : List (Triple × Char)} (h : Keeps names names') (h' : Keeps names' names'') :
    Keeps names names'' := fun t v ht => h' t v (h t v ht)

theorem Renders.keeps (hnames : Renders names ts vs) (h : Keeps names names') : Renders names' ts vs :=
  hnames.imp fun t v => h t v

theorem Renders.append (h : Renders names ts vs) (h' : Renders names ts' vs') :
    Renders names (ts ++ ts') (vs ++ vs') := List.rel_append h h'

/-- Each symbol is the name of one of the triples. -/
theorem Renders.exists_triple (h : Renders names ts vs) (hv : v ∈ vs) : ∃ t ∈ ts, names.lookup t = some v := by
  induction h with
  | nil => cases hv
  | cons ht _ ih =>
      rcases List.mem_cons.1 hv with rfl | hv
      · exact ⟨_, List.mem_cons_self, ht⟩
      · obtain ⟨t, hmem, ht⟩ := ih hv
        exact ⟨t, List.mem_cons_of_mem _ hmem, ht⟩

/-- Each triple has its name among the symbols. -/
theorem Renders.exists_symbol (h : Renders names ts vs) (ht : t ∈ ts) : ∃ v ∈ vs, names.lookup t = some v := by
  induction h with
  | nil => cases ht
  | cons hv _ ih =>
      rcases List.mem_cons.1 ht with rfl | ht
      · exact ⟨_, List.mem_cons_self, hv⟩
      · obtain ⟨v, hmem, hv⟩ := ih ht
        exact ⟨v, List.mem_cons_of_mem _ hmem, hv⟩

theorem naming_singleton (start : Triple) : Naming start [(start, 'S')] :=
  ⟨by rw [List.lookup_cons, beq_self_eq_true], rfl⟩

theorem Naming.mem_letters (h : Naming start names) (ht : names.lookup t = some v) :
    v ∈ 'S' :: otherCapitals := by
  have hmem : v ∈ names.map (·.2) := List.mem_map_of_mem (f := Prod.snd) (mem_of_lookup ht)
  rw [h.letters_eq] at hmem
  exact List.mem_cons.2 ((List.mem_cons.1 hmem).imp_right List.mem_of_mem_take)

theorem Naming.isVariable (h : Naming start names) (ht : names.lookup t = some v) : isVariable v = true :=
  isVariable_letters v (h.mem_letters ht)

/-- No name is given to two triples. -/
theorem Naming.eq_of_lookup (h : Naming start names) (ht : names.lookup t = some v)
    (ht' : names.lookup t' = some v) : t = t' := by
  have hnodup : (names.map (·.2)).Nodup := by
    rw [h.letters_eq]
    exact ((List.take_sublist _ otherCapitals).cons_cons 'S').nodup nodup_letters
  exact congrArg Prod.fst (List.inj_on_of_nodup_map hnodup (mem_of_lookup ht) (mem_of_lookup ht') rfl)

theorem Naming.of_nameTriple (h : Naming start names) (hname : nameTriple names t = .ok (v, names')) :
    Naming start names' ∧ Keeps names names' ∧ names'.lookup t = some v := by
  unfold nameTriple at hname
  split at hname
  next u hu =>
    cases hname
    exact ⟨h, fun _ _ ht => ht, hu⟩
  next hnone =>
    split at hname
    next u hu =>
      cases hname
      have hkeeps : Keeps names (names ++ [(t, v)]) := fun t' v' ht' => by
        rw [List.lookup_append, ht', Option.some_or]
      have hlength : names.length = names.length - 1 + 1 := by
        have hletters := congrArg List.length h.letters_eq
        rw [List.length_map, List.length_cons] at hletters
        omega
      refine ⟨⟨hkeeps _ _ h.lookup_start, ?_⟩, hkeeps, ?_⟩
      · rw [List.map_append, h.letters_eq, List.length_append, List.length_singleton, Nat.add_sub_cancel,
          hlength, List.take_add_one, hu]
        rfl
      · rw [List.lookup_append, hnone, Option.none_or, List.lookup_cons, beq_self_eq_true]
    next => cases hname

/-! ### Productions -/

/-- The production of a rule. -/
structure Translates (names : List (Triple × Char)) (r : TripleRule) (p : Production) : Prop where
  left_eq : names.lookup r.head = some p.left
  right_eq : ∃ vs, Renders names r.body vs ∧ p.right = r.read ++ vs

theorem Translates.keeps (hp : Translates names r p) (h : Keeps names names') : Translates names' r p := by
  obtain ⟨hleft, vs, hvs, hright⟩ := hp
  exact ⟨h _ _ hleft, vs, hvs.keeps h, hright⟩

theorem Renders.unique (h : Renders names ts vs) (h' : Renders names ts vs') : vs = vs' := by
  induction h generalizing vs' with
  | nil =>
      cases h'
      rfl
  | cons ht _ ih =>
      cases h' with
      | cons ht' h' => rw [Option.some.inj (ht.symm.trans ht'), ih h']

theorem Translates.unique (hp : Translates names r p) (hq : Translates names r q) : p = q := by
  obtain ⟨hleft, vs, hvs, hright⟩ := hp
  obtain ⟨hleft', vs', hvs', hright'⟩ := hq
  have hl : p.left = q.left := Option.some.inj (hleft.symm.trans hleft')
  have hr : p.right = q.right := by rw [hright, hright', hvs.unique hvs']
  cases p
  cases q
  cases hl
  cases hr
  rfl

/-- Names are given to the triples of a body in order. -/
theorem Naming.of_foldlM_nameTriple (h : Naming start names) {read : Word}
    (hbody : ts.foldlM (fun (right, names) t => do
      let (v, names) ← nameTriple names t
      return (right ++ [v], names)) (read, names) = Except.ok (right, names')) :
    Naming start names' ∧ Keeps names names' ∧ ∃ vs, Renders names' ts vs ∧ right = read ++ vs := by
  induction ts generalizing names read with
  | nil =>
      cases hbody
      exact ⟨h, fun _ _ ht => ht, [], .nil, (List.append_nil _).symm⟩
  | cons t ts ih =>
      rw [List.foldlM_cons] at hbody
      obtain ⟨⟨right₁, names₁⟩, hfirst, hrest⟩ := exists_of_bind_eq_ok hbody
      obtain ⟨⟨v, names₂⟩, hname, hpair⟩ := exists_of_bind_eq_ok hfirst
      cases hpair
      obtain ⟨h₁, hkeeps₁, ht⟩ := h.of_nameTriple hname
      obtain ⟨h', hkeeps', vs, hvs, rfl⟩ := ih h₁ hrest
      refine ⟨h', hkeeps₁.trans hkeeps', v :: vs, .cons (hkeeps' _ _ ht) hvs, ?_⟩
      rw [List.append_assoc, List.singleton_append]

/-- A grammar whose productions are those of some rules. -/
structure Translated (start : Triple) (rules : List TripleRule) (g : Grammar) (names : List (Triple × Char)) : Prop
    extends Naming start names where
  start_eq : g.start = 'S'
  mem_productions : ∀ p, p ∈ g.productions ↔ ∃ r ∈ rules, Translates names r p
  exists_production : ∀ r ∈ rules, ∃ p, Translates names r p

theorem Translated.of_addTripleRule (h : Translated start rules g names)
    (hadd : addTripleRule (g, names) r = .ok (g', names')) : Translated start (rules ++ [r]) g' names' := by
  obtain ⟨⟨left, names₁⟩, hhead, hadd⟩ := exists_of_bind_eq_ok hadd
  obtain ⟨⟨right, names₂⟩, hbody, hadd⟩ := exists_of_bind_eq_ok hadd
  obtain ⟨g₁, hsides, hpair⟩ := exists_of_bind_eq_ok hadd
  obtain ⟨q, hq, hg⟩ := exists_of_bind_eq_ok hsides
  cases hpair
  cases hg
  obtain ⟨hleft, hright⟩ := Grammar.sides_of_production hq
  obtain ⟨h₁, hkeeps₁, ht⟩ := h.toNaming.of_nameTriple hhead
  obtain ⟨h', hkeeps', vs, hvs, hvs'⟩ := h₁.of_foldlM_nameTriple hbody
  have hkeeps := hkeeps₁.trans hkeeps'
  have htranslates : Translates names' r q :=
    ⟨hleft.symm ▸ hkeeps' _ _ ht, vs, hvs, hright.trans hvs'⟩
  -- The rules before have the productions that they had.
  have hold : ∀ r ∈ rules, ∀ p, Translates names' r p ↔ Translates names r p := by
    intro r hr p
    constructor
    · intro hp
      obtain ⟨p', hp'⟩ := h.exists_production r hr
      rwa [hp.unique (hp'.keeps hkeeps)]
    · exact fun hp => hp.keeps hkeeps
  refine ⟨h', (Grammar.start_add g q).trans h.start_eq, fun p => ?_, ?_⟩
  · rw [Grammar.mem_add, h.mem_productions]
    simp only [List.mem_append, List.mem_singleton, or_and_right, exists_or, exists_eq_left]
    refine or_congr (exists_congr fun r => and_congr_right fun hr => (hold r hr p).symm) ?_
    exact ⟨fun hp => hp ▸ htranslates, fun hp => hp.unique htranslates⟩
  · refine List.forall_mem_append.2 ⟨fun r hr => ?_, List.forall_mem_singleton.2 ⟨q, htranslates⟩⟩
    obtain ⟨p, hp⟩ := h.exists_production r hr
    exact ⟨p, hp.keeps hkeeps⟩

theorem translated_of_foldlM {done : List TripleRule} (h : Translated start done g names)
    (hfold : rules.foldlM addTripleRule (g, names) = .ok (g', names')) :
    Translated start (done ++ rules) g' names' := by
  induction rules generalizing done g names with
  | nil =>
      cases hfold
      rwa [List.append_nil]
  | cons r rules ih =>
      rw [List.foldlM_cons] at hfold
      obtain ⟨⟨g₁, names₁⟩, hadd, hrest⟩ := exists_of_bind_eq_ok hfold
      rw [List.append_cons]
      exact ih (h.of_addTripleRule hadd) hrest

/-- What is known of the grammar of an automaton. -/
theorem translated_of_pushdownGrammar {a : Automaton} (h : a.pushdownGrammar = .ok g) :
    ∃ start names, a.startTriple = .ok start ∧ Translated start (a.keptRules start) g names := by
  rw [Automaton.pushdownGrammar_eq] at h
  obtain ⟨start, hstart, h⟩ := exists_of_bind_eq_ok h
  obtain ⟨g₀, hg₀, h⟩ := exists_of_bind_eq_ok h
  obtain ⟨⟨g₁, names⟩, hfold, h⟩ := exists_of_bind_eq_ok h
  cases h
  cases hg₀
  have hinitial : Translated start [] ⟨'S', [], rfl, .nil⟩ [(start, 'S')] :=
    ⟨naming_singleton start, rfl, fun p => iff_of_false List.not_mem_nil fun ⟨r, hr, _⟩ => List.not_mem_nil hr,
      fun r hr => (List.not_mem_nil hr).elim⟩
  exact ⟨start, names, hstart, translated_of_foldlM hinitial hfold⟩

/-! ### Languages -/

theorem all_isTerminal_of_read {read : Word} (h : read.any isReservedInGrammars = false) :
    read.all isTerminal = true := by
  rw [List.all_eq_true]
  intro c hc
  have hreserved := List.any_eq_false.1 h c hc
  rw [isReservedInGrammars, Bool.or_eq_true, not_or, Bool.not_eq_true] at hreserved
  rw [isTerminal, hreserved.1]
  rfl

variable {a : Automaton}

/-- What triples spell is derived by their names. -/
theorem Translated.derives_of_spells (h : Translated start rules g names)
    (hread : ∀ r ∈ rules, r.read.all isTerminal = true) (hspells : Triple.Spells rules ts w)
    (hvs : Renders names ts vs) : w.all isTerminal = true ∧ g.Derives vs w := by
  induction hspells generalizing vs with
  | nil =>
      cases hvs
      exact ⟨rfl, .refl⟩
  | @cons r ts w hr _ ih =>
      cases hvs with
      | @cons _ v _ vs hv hvs =>
          obtain ⟨p, hp⟩ := h.exists_production r hr
          obtain ⟨hleft, bs, hbs, hright⟩ := id hp
          obtain rfl := Option.some.inj (hleft.symm.trans hv)
          obtain ⟨hterminal, hderives⟩ := ih (hbs.append hvs)
          refine ⟨by rw [List.all_append, hread r hr, hterminal]; rfl, ?_⟩
          have hstep := (Grammar.derives_of_mem ((h.mem_productions p).2 ⟨r, hr, hp⟩)).context [] vs
          rw [hright] at hstep
          have hrest := hderives.context r.read []
          simp only [List.nil_append, List.append_nil, List.append_assoc] at hstep hrest
          exact hstep.trans hrest

/-- A forest on names, behind letters that are read, carries what the triples spell. -/
theorem Translated.exists_spells (h : Translated start rules g names)
    (hread : ∀ r ∈ rules, r.read.all isTerminal = true) (hgrown : g.Grown d w x) {read : Word}
    (hw : w = read ++ vs) (hterminal : read.all isTerminal = true) (hvs : Renders names ts vs) :
    ∃ y, x = read ++ y ∧ Triple.Spells rules ts y := by
  induction hgrown generalizing read vs ts with
  | nil =>
      obtain ⟨rfl, rfl⟩ := List.append_eq_nil_iff.1 hw.symm
      cases hvs
      exact ⟨[], rfl, .nil⟩
  | @leaf d c w x hc _ ih =>
      cases read with
      | nil =>
          -- A name is no terminal.
          subst hw
          cases hvs with
          | cons hv =>
              rw [isTerminal, h.isVariable hv] at hc
              cases hc
      | cons e read =>
          obtain ⟨rfl, hw'⟩ := List.cons.inj hw
          rw [List.all_cons, Bool.and_eq_true] at hterminal
          obtain ⟨y, rfl, hy⟩ := ih hw' hterminal.2 hvs
          exact ⟨y, rfl, hy⟩
  | @node d p w x z hp _ _ ih ih' =>
      cases read with
      | cons e read =>
          obtain ⟨rfl, _⟩ := List.cons.inj hw
          rw [List.all_cons, Bool.and_eq_true, isTerminal, p.left_isVariable] at hterminal
          cases hterminal.1
      | nil =>
          cases hvs with
          | nil => cases hw
          | @cons t v ts vs ht hvs =>
              obtain ⟨rfl, rfl⟩ := List.cons.inj hw
              obtain ⟨r, hr, hleft, bs, hbs, hright⟩ := (h.mem_productions p).1 hp
              obtain rfl := h.eq_of_lookup ht hleft
              obtain ⟨y, rfl, hy⟩ := ih hright (hread r hr) hbs
              obtain ⟨y', hz, hy'⟩ := ih' (List.nil_append _).symm rfl hvs
              refine ⟨r.read ++ (y ++ y'), ?_, .cons hr (hy.append hy')⟩
              rw [hz, List.nil_append, List.nil_append, List.append_assoc]

/-- The grammar generates what the start triple spells. -/
theorem Translated.generates_iff (h : Translated start rules g names)
    (hread : ∀ r ∈ rules, r.read.all isTerminal = true) :
    g.Generates w ↔ Triple.Spells rules [start] w := by
  have hstart : Renders names [start] [g.start] := .cons (h.start_eq ▸ h.lookup_start) .nil
  constructor
  · rintro ⟨hterminal, hderives⟩
    obtain ⟨d, hgrown⟩ := (Grammar.derives_iff_grown hterminal).1 hderives
    obtain ⟨y, rfl, hy⟩ := h.exists_spells hread hgrown (List.nil_append _).symm rfl hstart
    exact hy
  · exact fun hspells => h.derives_of_spells hread hspells hstart

/-! ### Variables -/

/-- Every variable of a production is the name of a triple of its rule. -/
theorem Translated.exists_triple (h : Translated start rules g names)
    (hread : ∀ r ∈ rules, r.read.all isTerminal = true) (hp : p ∈ g.productions)
    (hv : v = p.left ∨ v ∈ p.right ∧ isVariable v = true) :
    ∃ r ∈ rules, ∃ t, (t = r.head ∨ t ∈ r.body) ∧ names.lookup t = some v := by
  obtain ⟨r, hr, hleft, vs, hvs, hright⟩ := (h.mem_productions p).1 hp
  refine ⟨r, hr, ?_⟩
  rcases hv with rfl | ⟨hv, hvariable⟩
  · exact ⟨r.head, .inl rfl, hleft⟩
  · rw [hright, List.mem_append] at hv
    rcases hv with hv | hv
    · have hterminal := List.all_eq_true.1 (hread r hr) v hv
      rw [isTerminal, hvariable] at hterminal
      cases hterminal
    · obtain ⟨t, ht, hlookup⟩ := hvs.exists_triple hv
      exact ⟨t, .inr ht, hlookup⟩

/-- The names of triples that can be reached occur in derived strings. -/
theorem Translated.exists_derives_of_reaches (h : Translated start (a.keptRules start) g names)
    (ha : a.NormalForm start) (hreaches : Reaches a.nextTriples start t) :
    ∃ v before after, names.lookup t = some v ∧ g.Derives [g.start] (before ++ v :: after) := by
  induction hreaches with
  | refl => exact ⟨'S', [], [], h.lookup_start, h.start_eq ▸ .refl⟩
  | @step b c hb hc ih =>
      obtain ⟨v, before, after, hv, hderives⟩ := ih
      obtain ⟨r, hr, rfl, hbody⟩ := Automaton.mem_nextTriples.1 hc
      have hkept : r ∈ a.keptRules start := ha.mem_keptRules.2 ⟨hr, hb⟩
      obtain ⟨p, hp⟩ := h.exists_production r hkept
      obtain ⟨hleft, vs, hvs, hright⟩ := id hp
      obtain rfl := Option.some.inj (hleft.symm.trans hv)
      obtain ⟨u, hu, hlookup⟩ := hvs.exists_symbol hbody
      obtain ⟨front, back, hsplit⟩ := List.append_of_mem hu
      refine ⟨u, before ++ r.read ++ front, back ++ after, hlookup, ?_⟩
      have hnext := hderives.step (.intro before after p ((h.mem_productions p).2 ⟨r, hkept, hp⟩))
      rw [hright, hsplit] at hnext
      simpa only [List.append_assoc, List.cons_append] using hnext

namespace Automaton

/-- The grammar of a pushdown automaton generates the words that the automaton accepts in its final state
with an empty stack. Each of its variables can be reached from the start and derives a word. -/
theorem pushdownGrammar_correct (ha : a.WellFormed) (h : a.pushdownGrammar = .ok g) :
    (∀ config : SearchConfig, config.acceptance = .finalStateAndEmptyStack →
      ∃ m, Simulator.of a config = .ok m ∧ ∀ input, m.Accepts input ↔ g.Generates input) ∧
    g.start = 'S' ∧ ∀ p ∈ g.productions, ∀ v, v = p.left ∨ v ∈ p.right ∧ isVariable v = true →
      (∃ before after, g.Derives ['S'] (before ++ v :: after)) ∧
        ∃ x, x.all isTerminal = true ∧ g.Derives [v] x := by
  obtain ⟨start, names, hstart, htranslated⟩ := translated_of_pushdownGrammar h
  have hform := normalForm_of_startTriple ha hstart
  have hread : ∀ r ∈ a.keptRules start, r.read.all isTerminal = true := by
    intro r hr
    exact all_isTerminal_of_read (hform.read_eq_false (mem_usefulRules.1 (hform.mem_keptRules.1 hr).1).1)
  refine ⟨fun config hmode => ⟨_, Simulator.of_eq_ok ha hform.initial_eq config, fun input => ?_⟩,
    htranslated.start_eq, fun p hp v hv => ?_⟩
  · rw [htranslated.generates_iff hread, hform.spells_keptRules_iff]
    exact Triple.accepts_iff_spells (m := ⟨a, config⟩) ha hform hmode
  · obtain ⟨r, hr, t, ht, hlookup⟩ := htranslated.exists_triple hread hp hv
    obtain ⟨hreaches, x, hx⟩ := hform.of_mem_keptRules hr ht
    constructor
    · obtain ⟨v', before, after, hv', hderives⟩ := htranslated.exists_derives_of_reaches hform hreaches
      obtain rfl := Option.some.inj (hlookup.symm.trans hv')
      exact ⟨before, after, htranslated.start_eq ▸ hderives⟩
    · exact ⟨x, htranslated.derives_of_spells hread hx (.cons hlookup .nil)⟩

/-- Reads some letters `a` and as many letters `b`, with a symbol on the stack for each letter to come. -/
def matching : Automaton where
  kind := .pushdown
  states := [⟨0, none, .origin⟩, ⟨1, none, .origin⟩, ⟨2, none, .origin⟩]
  transitions := [⟨0, 0, .pushdown ['a'] ['Z'] ['A', 'Z']⟩, ⟨0, 0, .pushdown ['a'] ['A'] ['A', 'A']⟩,
    ⟨0, 1, .pushdown ['b'] ['A'] []⟩, ⟨1, 1, .pushdown ['b'] ['A'] []⟩, ⟨1, 2, .pushdown [] ['Z'] []⟩,
    ⟨0, 2, .pushdown [] ['Z'] []⟩]
  initial := some 0
  finals := .ofList [2]
  initialStack := ['Z']
  nextId := 3

theorem pushdownGrammar_correct_matching : matching.WellFormed ∧ ∃ g, matching.pushdownGrammar = .ok g ∧
    g.productions.map (fun p => (p.left, p.right)) = [('S', ['a', 'A', 'B']), ('A', ['a', 'A', 'C']),
      ('A', ['b']), ('C', ['b']), ('B', []), ('S', [])] ∧
    (∃ m, Simulator.of matching { acceptance := .finalStateAndEmptyStack } = .ok m ∧
      ∀ input, m.Accepts input ↔ g.Generates input) ∧
    ∃ before after, g.Derives ['S'] (before ++ 'C' :: after) := by
  have hwellFormed : matching.WellFormed := by decide +kernel
  have hsides : (matching.pushdownGrammar.toOption.any fun g =>
      g.productions.map (fun p => (p.left, p.right)) = [('S', ['a', 'A', 'B']), ('A', ['a', 'A', 'C']),
        ('A', ['b']), ('C', ['b']), ('B', []), ('S', [])]) = true := by decide +kernel
  obtain ⟨g, hg, hproductions⟩ := exists_ok_of_any hsides
  have hproductions := of_decide_eq_true hproductions
  obtain ⟨hlanguage, _, hvariables⟩ := pushdownGrammar_correct hwellFormed hg
  refine ⟨hwellFormed, g, hg, hproductions, hlanguage _ rfl, ?_⟩
  have hmem : ('C', ['b']) ∈ g.productions.map fun p => (p.left, p.right) := by
    rw [hproductions]
    decide
  obtain ⟨p, hp, hsides⟩ := List.mem_map.1 hmem
  exact (hvariables p hp 'C' (.inl (congrArg Prod.fst hsides).symm)).1

end Automaton

end LanguageTheory
