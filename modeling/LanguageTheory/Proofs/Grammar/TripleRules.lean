import LanguageTheory.Grammar.OfAutomaton
import LanguageTheory.Proofs.Finite.Exploration
import LanguageTheory.Proofs.Finite.Saturation
import LanguageTheory.Proofs.Machine.Acceptance

/-! The rules over triples say what a pushdown automaton does. A run that empties its stack falls into one
part for each symbol that the stack held, which takes the machine from the state in which the symbol comes
to the top to the one in which it is gone. These triples spell what the run reads, and what they spell is
read by such a run. Rules with a triple that spells nothing, or for triples that the first one does not
lead to, are not used. -/

namespace LanguageTheory

variable {a : Automaton} {m : Simulator} {start t : Triple} {r : TripleRule} {rules useful : List TripleRule}
  {ts ts' : List Triple} {s f : StateId} {w x rest input : Word} {below : Stack} {k : Nat}

/-! ### The form that the construction needs -/

namespace Automaton

/-- What is known of an automaton whose start triple is found. -/
structure NormalForm (a : Automaton) (start : Triple) : Prop where
  kind_eq : a.kind = .pushdown
  initial_eq : a.initial = some start.source
  finals_eq : a.finals.toList = [start.target]
  stack_eq : a.initialStack = [start.symbol]
  label_eq : ∀ t ∈ a.transitions, ∃ read top push, t.label = .pushdown read [top] push ∧
    (push = [] ∨ ∃ upper lower, push = [upper, lower]) ∧ read.any isReservedInGrammars = false

theorem of_forM_eq_ok {α : Type} {check : α → Except Error Unit} {l : List α} (h : l.forM check = .ok ()) :
    ∀ x ∈ l, check x = .ok () := by
  induction l with
  | nil => exact fun x hx => (List.not_mem_nil hx).elim
  | cons x l ih =>
      rw [List.forM_eq_forM, List.forM_cons] at h
      cases hx : check x with
      | error e =>
          rw [hx] at h
          cases h
      | ok =>
          rw [hx] at h
          exact List.forall_mem_cons.2 ⟨hx, ih h⟩

theorem of_requirePlainRead {t : Transition} {read : Word} (h : requirePlainRead t read = .ok ()) :
    read.any isReservedInGrammars = false := by
  rw [requirePlainRead] at h
  split at h
  · cases h
  next hread => exact Bool.eq_false_iff.2 hread

theorem normalForm_of_startTriple (ha : a.WellFormed) (h : a.startTriple = .ok start) : a.NormalForm start := by
  unfold startTriple at h
  simp only [bind, Except.bind, pure, Except.pure] at h
  split at h
  · cases h
  next hkind =>
    rw [not_not] at hkind
    rw [requireInitial] at h
    cases hinitial : a.initial with
    | none =>
        rw [hinitial] at h
        cases h
    | some initial =>
        rw [hinitial] at h
        dsimp only at h
        split at h
        next final hfinals =>
          split at h
          next bottom hstack =>
            split at h
            · cases h
            next hchecks =>
              obtain rfl := Except.ok.inj h
              refine ⟨hkind, hinitial, hfinals, hstack, fun t ht => ?_⟩
              have hcheck := of_forM_eq_ok hchecks t ht
              have hkind' : t.label.kind = .pushdown := (ha.kind_eq t ht).trans hkind
              cases hlabel : t.label with
              | finite read =>
                  rw [hlabel] at hkind'
                  cases hkind'
              | turing read write direction =>
                  rw [hlabel] at hkind'
                  cases hkind'
              | pushdown read pop push =>
                  simp only [hlabel] at hcheck
                  split_ifs at hcheck with hpop hpush
                  rw [not_not, List.length_eq_one_iff] at hpop
                  obtain ⟨top, rfl⟩ := hpop
                  rw [not_and_or, not_not, not_not, List.length_eq_zero_iff, List.length_eq_two] at hpush
                  exact ⟨read, top, push, rfl, hpush, of_requirePlainRead hcheck⟩
          next => cases h
        next => cases h

/-- The rules of the moves, case by case. -/
inductive MoveRule (a : Automaton) : TripleRule → Prop
  | pops {t : Transition} {read : Word} {top : Char} : t ∈ a.transitions → t.label = .pushdown read [top] [] →
      MoveRule a ⟨⟨t.source, top, t.target⟩, read, []⟩
  | pushes {t : Transition} {read : Word} {top upper lower : Char} {middle last : StateId} :
      t ∈ a.transitions → t.label = .pushdown read [top] [upper, lower] → middle ∈ a.ids → last ∈ a.ids →
      MoveRule a ⟨⟨t.source, top, last⟩, read, [⟨t.target, upper, middle⟩, ⟨middle, lower, last⟩]⟩

theorem NormalForm.mem_tripleRules (h : a.NormalForm start) : r ∈ a.tripleRules ↔ MoveRule a r := by
  rw [tripleRules, List.mem_flatMap]
  constructor
  · rintro ⟨t, ht, hr⟩
    obtain ⟨read, top, push, hlabel, rfl | ⟨upper, lower, rfl⟩, _⟩ := h.label_eq t ht
    · rw [moveRules, hlabel, List.mem_singleton] at hr
      rw [hr]
      exact .pops ht hlabel
    · rw [moveRules, hlabel] at hr
      simp only [List.mem_flatMap, List.mem_map] at hr
      obtain ⟨last, hlast, middle, hmiddle, rfl⟩ := hr
      exact .pushes ht hlabel hmiddle hlast
  · rintro (⟨ht, hlabel⟩ | ⟨ht, hlabel, hmiddle, hlast⟩)
    · refine ⟨_, ht, ?_⟩
      rw [moveRules, hlabel]
      exact List.mem_singleton_self _
    · refine ⟨_, ht, ?_⟩
      rw [moveRules, hlabel]
      exact List.mem_flatMap.2 ⟨_, hlast, List.mem_map.2 ⟨_, hmiddle, rfl⟩⟩

/-- Rules read nothing that has another meaning in grammars. -/
theorem NormalForm.read_eq_false (h : a.NormalForm start) (hr : r ∈ a.tripleRules) :
    r.read.any isReservedInGrammars = false := by
  have hread : ∀ t ∈ a.transitions, ∀ read pop push, t.label = .pushdown read pop push →
      read.any isReservedInGrammars = false := by
    intro t ht read pop push hlabel
    obtain ⟨read', top, push', hlabel', _, hread⟩ := h.label_eq t ht
    cases hlabel.symm.trans hlabel'
    exact hread
  cases h.mem_tripleRules.1 hr with
  | pops ht hlabel => exact hread _ ht _ _ _ hlabel
  | pushes ht hlabel => exact hread _ ht _ _ _ hlabel

theorem NormalForm.length_body_le (h : a.NormalForm start) (hr : r ∈ a.tripleRules) : r.body.length ≤ 2 := by
  cases h.mem_tripleRules.1 hr with
  | pops => exact Nat.zero_le 2
  | pushes => exact Nat.le_refl 2

end Automaton

/-! ### What triples spell -/

/-- Rules for the triples, one after the other, spell a word. -/
inductive Triple.Spells (rules : List TripleRule) : List Triple → Word → Prop
  | nil : Spells rules [] []
  | cons {r : TripleRule} {ts : List Triple} {w : Word} : r ∈ rules → Spells rules (r.body ++ ts) w →
      Spells rules (r.head :: ts) (r.read ++ w)

/-- Each triple begins in the state in which the one before it ends. -/
inductive Triple.Linked : StateId → List Triple → StateId → Prop
  | nil {s : StateId} : Linked s [] s
  | cons {s s' : StateId} {symbol : Char} {ts : List Triple} {f : StateId} : Linked s' ts f →
      Linked s (⟨s, symbol, s'⟩ :: ts) f

namespace Triple

theorem Spells.append (h : Spells rules ts w) (h' : Spells rules ts' x) : Spells rules (ts ++ ts') (w ++ x) := by
  induction h with
  | nil => exact h'
  | cons hr _ ih =>
      rw [List.append_assoc] at ih ⊢
      exact .cons hr ih

theorem Spells.mono (h : Spells rules ts w) (hsub : rules ⊆ useful) : Spells useful ts w := by
  induction h with
  | nil => exact .nil
  | cons hr _ ih => exact .cons (hsub hr) ih

/-! ### Runs that empty the stack -/

/-- What the triples of a stack spell is read while they are taken off. -/
theorem Spells.exists_reachedIn (h : m.automaton.NormalForm start) (hspells : Spells m.automaton.tripleRules ts w)
    (hlinked : Linked s ts f) (hreached : m.ReachedIn input k ⟨s, .pushdown (w ++ rest) (ts.map (·.symbol) ++ below)⟩) :
    ∃ k', m.ReachedIn input k' ⟨f, .pushdown rest below⟩ := by
  induction hspells generalizing s k with
  | nil =>
      cases hlinked
      exact ⟨k, hreached⟩
  | @cons r ts w hr _ ih =>
      cases h.mem_tripleRules.1 hr with
      | @pops t read top ht hlabel =>
          cases hlinked with
          | cons hlinked =>
              refine ih hlinked (hreached.step ((Simulator.mem_step_pushdown rfl).2 ?_))
              exact ⟨t, ht, read, [top], [], w ++ rest, _, rfl, rfl, hlabel, List.append_assoc _ _ _, rfl, rfl⟩
      | @pushes t read top upper lower middle last ht hlabel =>
          cases hlinked with
          | cons hlinked =>
              refine ih (.cons (.cons hlinked)) (hreached.step ((Simulator.mem_step_pushdown rfl).2 ?_))
              exact ⟨t, ht, read, [top], [upper, lower], w ++ rest, _, rfl, rfl, hlabel, List.append_assoc _ _ _,
                rfl, rfl⟩

/-- A run that empties the stack falls into parts, one for each symbol. -/
theorem exists_spells_of_reaches (ha : m.automaton.WellFormed) (h : m.automaton.NormalForm start)
    {b : Configuration} (hreaches : Reaches m.step b ⟨f, .pushdown [] []⟩) :
    ∀ w stack, b.store = .pushdown w stack → ∃ ts, ts.map (·.symbol) = stack ∧ Linked b.state ts f ∧
      (∀ t ∈ ts, t.target ∈ m.automaton.ids) ∧ Spells m.automaton.tripleRules ts w := by
  refine hreaches.head_induction (p := fun b => ∀ w stack, b.store = .pushdown w stack →
    ∃ ts, ts.map (·.symbol) = stack ∧ Linked b.state ts f ∧ (∀ t ∈ ts, t.target ∈ m.automaton.ids) ∧
      Spells m.automaton.tripleRules ts w) ?_ ?_
  · intro w stack hstore
    obtain ⟨rfl, rfl⟩ := Store.pushdown.inj hstore
    exact ⟨[], rfl, .nil, fun t ht => (List.not_mem_nil ht).elim, .nil⟩
  · intro b c hc _ ih w stack hstore
    obtain ⟨t, ht, read, pop, push, left, below, hsource, htarget, hlabel, rfl, rfl, hstore'⟩ :=
      (Simulator.mem_step_pushdown hstore).1 hc
    obtain ⟨ts, hsymbols, hlinked, hids, hspells⟩ := ih left (push ++ below) hstore'
    obtain ⟨read', top, push', hlabel', hpush, _⟩ := h.label_eq t ht
    cases hlabel.symm.trans hlabel'
    rw [← hsource]
    rw [← htarget] at hlinked
    rcases hpush with rfl | ⟨upper, lower, rfl⟩
    · -- A symbol is gone.
      refine ⟨⟨t.source, top, t.target⟩ :: ts, by rw [List.map_cons, hsymbols]; rfl, .cons hlinked, ?_, ?_⟩
      · exact List.forall_mem_cons.2 ⟨(ha.endpoints_mem t ht).2, hids⟩
      · exact .cons (h.mem_tripleRules.2 (.pops ht hlabel)) hspells
    · -- Two symbols take its place.
      cases hlinked with
      | nil => cases hsymbols
      | cons hlinked =>
          cases hlinked with
          | nil => cases hsymbols
          | @cons middle last symbol ts _ hlinked =>
              simp only [List.map_cons, List.cons_append, List.nil_append, List.cons.injEq] at hsymbols
              obtain ⟨rfl, rfl, hsymbols⟩ := hsymbols
              obtain ⟨hmiddle, hlast⟩ := List.forall_mem_cons.1 hids
              obtain ⟨hlast, hids⟩ := List.forall_mem_cons.1 hlast
              refine ⟨⟨t.source, top, last⟩ :: ts, by rw [List.map_cons, hsymbols]; rfl, .cons hlinked,
                List.forall_mem_cons.2 ⟨hlast, hids⟩, ?_⟩
              exact .cons (h.mem_tripleRules.2 (.pushes ht hlabel hmiddle hlast)) hspells

/-- The store stays one of a pushdown automaton. -/
theorem exists_store_of_reaches {b c : Configuration} (hreaches : Reaches m.step b c)
    (hb : ∃ left stack, b.store = .pushdown left stack) : ∃ left stack, c.store = .pushdown left stack := by
  refine hreaches.invariant (p := fun c => ∃ left stack, c.store = .pushdown left stack) ?_ hb
  rintro c ⟨left, stack, hc⟩ d hd
  obtain ⟨_, _, _, _, _, _, _, _, _, _, _, _, hstore⟩ := (Simulator.mem_step_pushdown hc).1 hd
  exact ⟨_, _, hstore⟩

/-- In the final state with an empty stack, a machine accepts what its start triple spells. -/
theorem accepts_iff_spells (ha : m.automaton.WellFormed) (h : m.automaton.NormalForm start)
    (hmode : m.config.acceptance = .finalStateAndEmptyStack) :
    m.Accepts input ↔ Spells m.automaton.tripleRules [start] input := by
  have hfinal : ∀ s, m.automaton.isFinal s = decide (s = start.target) := by
    intro s
    refine decide_eq_decide.2 ?_
    rw [Ascending.mem_def, h.finals_eq, List.mem_singleton]
  have haccepts : ∀ c left stack, c.store = .pushdown left stack →
      (m.accepts c = true ↔ c.state = start.target ∧ left = [] ∧ stack = []) := by
    intro c left stack hstore
    simp only [Simulator.accepts, hstore, hmode, hfinal, Bool.and_eq_true, List.isEmpty_iff, decide_eq_true_eq]
    exact and_left_comm
  have hstart : m.initialStore input = .pushdown input [start.symbol] := by
    rw [Simulator.initialStore_pushdown h.kind_eq, h.stack_eq]
  constructor
  · rintro ⟨k, ⟨state, store⟩, hreached, hc⟩
    obtain ⟨b, hb, hreaches⟩ := hreached.exists_reaches
    obtain ⟨hsource, hstore⟩ := Simulator.mem_initialConfigurations.1 hb
    rw [h.initial_eq] at hsource
    rw [hstart] at hstore
    obtain ⟨left, stack, rfl⟩ := exists_store_of_reaches hreaches ⟨_, _, hstore⟩
    obtain ⟨rfl, rfl, rfl⟩ := (haccepts _ left stack rfl).1 hc
    obtain ⟨ts, hsymbols, hlinked, _, hspells⟩ := exists_spells_of_reaches ha h hreaches _ _ hstore
    rw [← Option.some.inj hsource] at hlinked
    -- The stack held one symbol, so there is one part.
    obtain ⟨t, rfl, hsymbol⟩ := List.map_eq_singleton_iff.1 hsymbols
    cases hlinked with
    | @cons _ _ symbol _ _ hlinked =>
        cases hlinked
        obtain rfl : symbol = start.symbol := hsymbol
        exact hspells
  · intro hspells
    have hinitial : m.ReachedIn input 0 ⟨start.source, .pushdown (input ++ []) ([start].map (·.symbol) ++ [])⟩ := by
      refine .initial (Simulator.mem_initialConfigurations.2 ⟨h.initial_eq, ?_⟩)
      rw [hstart, List.append_nil]
      rfl
    obtain ⟨k, hk⟩ := hspells.exists_reachedIn h (.cons .nil) hinitial
    exact ⟨k, _, hk, (haccepts _ _ _ rfl).2 ⟨rfl, rfl, rfl⟩⟩

/-! ### Rules that are used -/

theorem Spells.derives (h : Spells rules ts w) :
    ∀ t ∈ ts, Rule.Derives (rules.map fun r => ⟨r.body, r.head⟩) t := by
  induction h with
  | nil => exact fun t ht => (List.not_mem_nil ht).elim
  | @cons r ts w hr _ ih =>
      obtain ⟨hbody, hts⟩ := List.forall_mem_append.1 ih
      exact List.forall_mem_cons.2 ⟨.intro ⟨r.body, r.head⟩ (List.mem_map_of_mem hr) hbody, hts⟩

theorem exists_spells_of_forall (h : ∀ t ∈ ts, ∃ w, Spells rules [t] w) : ∃ w, Spells rules ts w := by
  induction ts with
  | nil => exact ⟨[], .nil⟩
  | cons t ts ih =>
      obtain ⟨⟨w, hw⟩, hts⟩ := List.forall_mem_cons.1 h
      obtain ⟨x, hx⟩ := ih hts
      exact ⟨w ++ x, hw.append hx⟩

theorem exists_spells_of_derives (h : Rule.Derives (rules.map fun r => ⟨r.body, r.head⟩) t) :
    ∃ w, Spells rules [t] w := by
  induction h with
  | intro rule hrule _ ih =>
      obtain ⟨r, hr, rfl⟩ := List.mem_map.1 hrule
      obtain ⟨w, hw⟩ := exists_spells_of_forall ih
      refine ⟨r.read ++ w, .cons hr ?_⟩
      rwa [List.append_nil]

end Triple

namespace Automaton

/-- The triples that spell a word. -/
def generating (a : Automaton) : List Triple :=
  Rule.consequences (a.tripleRules.map fun r => ⟨r.body, r.head⟩)

/-- The rules whose triples spell words. -/
def usefulRules (a : Automaton) : List TripleRule := a.tripleRules.filter fun r => r.body.all (· ∈ a.generating)

/-- The triples on the right of the useful rules for a triple. -/
def nextTriples (a : Automaton) (t : Triple) : List Triple :=
  (a.usefulRules.filter fun r => r.head = t).flatMap (·.body)

def reachableTriples (a : Automaton) (start : Triple) : List Triple :=
  explore a.nextTriples (2 * a.usefulRules.length + 1) [start]

/-- The rules that the productions are made of. -/
def keptRules (a : Automaton) (start : Triple) : List TripleRule :=
  a.usefulRules.filter fun r => r.head ∈ a.reachableTriples start

theorem pushdownGrammar_eq (a : Automaton) : a.pushdownGrammar = (do
    let start ← a.startTriple
    return (← (a.keptRules start).foldlM addTripleRule (← Grammar.of 'S', [(start, 'S')])).1) := rfl

theorem mem_generating : t ∈ a.generating ↔ Rule.Derives (a.tripleRules.map fun r => ⟨r.body, r.head⟩) t :=
  Rule.mem_consequences

theorem mem_usefulRules : r ∈ a.usefulRules ↔ r ∈ a.tripleRules ∧ ∀ t ∈ r.body, t ∈ a.generating := by
  simp only [usefulRules, List.mem_filter, List.all_eq_true, decide_eq_true_eq]

theorem mem_nextTriples {b : Triple} : b ∈ a.nextTriples t ↔ ∃ r ∈ a.usefulRules, r.head = t ∧ b ∈ r.body := by
  simp only [nextTriples, List.mem_flatMap, List.mem_filter, decide_eq_true_eq, and_assoc]

theorem length_flatMap_body_le {n : Nat} (h : ∀ r ∈ rules, r.body.length ≤ n) :
    (rules.flatMap (·.body)).length ≤ n * rules.length := by
  induction rules with
  | nil => exact Nat.zero_le _
  | cons r rules ih =>
      obtain ⟨hr, hrules⟩ := List.forall_mem_cons.1 h
      rw [List.flatMap_cons, List.length_append, List.length_cons, Nat.mul_succ, Nat.add_comm]
      exact Nat.add_le_add (ih hrules) hr

theorem NormalForm.mem_reachableTriples (h : a.NormalForm start) :
    t ∈ a.reachableTriples start ↔ Reaches a.nextTriples start t := by
  have hlength : (a.usefulRules.flatMap (·.body)).length ≤ 2 * a.usefulRules.length :=
    length_flatMap_body_le fun r hr => h.length_body_le (mem_usefulRules.1 hr).1
  have hstart : ∀ b ∈ [start], b ∈ (start :: a.usefulRules.flatMap (·.body)).toFinset := by
    intro b hb
    rw [List.mem_singleton.1 hb]
    exact List.mem_toFinset.2 List.mem_cons_self
  rw [reachableTriples, mem_explore_iff hstart]
  · simp only [List.mem_singleton, exists_eq_left]
  · intro b _ c hc
    obtain ⟨r, hr, _, hc⟩ := mem_nextTriples.1 hc
    exact List.mem_toFinset.2 (List.mem_cons_of_mem _ (List.mem_flatMap.2 ⟨r, hr, hc⟩))
  · exact (List.toFinset_card_le _).trans (Nat.succ_le_succ hlength)

theorem NormalForm.mem_keptRules (h : a.NormalForm start) :
    r ∈ a.keptRules start ↔ r ∈ a.usefulRules ∧ Reaches a.nextTriples start r.head := by
  rw [keptRules, List.mem_filter, decide_eq_true_eq, h.mem_reachableTriples]

/-- Every rule that is used to spell something is useful. -/
theorem spells_usefulRules (hspells : Triple.Spells a.tripleRules ts w) : Triple.Spells a.usefulRules ts w := by
  induction hspells with
  | nil => exact .nil
  | @cons r ts w hr hrest ih =>
      have hbody : ∀ t ∈ r.body, t ∈ a.generating := fun t ht =>
        mem_generating.2 (hrest.derives t (List.mem_append_left _ ht))
      exact .cons (mem_usefulRules.2 ⟨hr, hbody⟩) ih

/-- The rules for triples that can be reached lead to such triples. -/
theorem NormalForm.spells_keptRules (h : a.NormalForm start) (hspells : Triple.Spells a.usefulRules ts w)
    (hts : ∀ t ∈ ts, Reaches a.nextTriples start t) : Triple.Spells (a.keptRules start) ts w := by
  induction hspells with
  | nil => exact .nil
  | @cons r ts w hr _ ih =>
      obtain ⟨hhead, hts⟩ := List.forall_mem_cons.1 hts
      refine .cons (h.mem_keptRules.2 ⟨hr, hhead⟩) (ih (List.forall_mem_append.2 ⟨fun t ht => ?_, hts⟩))
      exact hhead.step (mem_nextTriples.2 ⟨r, hr, rfl, ht⟩)

/-- No rule that matters is purged. -/
theorem NormalForm.spells_keptRules_iff (h : a.NormalForm start) :
    Triple.Spells (a.keptRules start) [start] w ↔ Triple.Spells a.tripleRules [start] w := by
  constructor
  · intro hspells
    exact hspells.mono fun r hr => (mem_usefulRules.1 (h.mem_keptRules.1 hr).1).1
  · intro hspells
    refine h.spells_keptRules (spells_usefulRules hspells) fun t ht => ?_
    rw [List.mem_singleton.1 ht]
    exact .refl

/-- The triples of the rules that are kept can be reached, and spell a word. -/
theorem NormalForm.of_mem_keptRules (h : a.NormalForm start) (hr : r ∈ a.keptRules start)
    (ht : t = r.head ∨ t ∈ r.body) :
    Reaches a.nextTriples start t ∧ ∃ w, Triple.Spells (a.keptRules start) [t] w := by
  obtain ⟨huseful, hhead⟩ := h.mem_keptRules.1 hr
  obtain ⟨hrule, hbody⟩ := mem_usefulRules.1 huseful
  have hreaches : Reaches a.nextTriples start t := by
    rcases ht with rfl | ht
    · exact hhead
    · exact hhead.step (mem_nextTriples.2 ⟨r, huseful, rfl, ht⟩)
  have hderives : Rule.Derives (a.tripleRules.map fun r => ⟨r.body, r.head⟩) t := by
    rcases ht with rfl | ht
    · exact .intro ⟨r.body, r.head⟩ (List.mem_map_of_mem hrule) fun t ht => mem_generating.1 (hbody t ht)
    · exact mem_generating.1 (hbody t ht)
  obtain ⟨w, hw⟩ := Triple.exists_spells_of_derives hderives
  refine ⟨hreaches, w, h.spells_keptRules (spells_usefulRules hw) fun t' ht' => ?_⟩
  rwa [List.mem_singleton.1 ht']

end Automaton

end LanguageTheory
