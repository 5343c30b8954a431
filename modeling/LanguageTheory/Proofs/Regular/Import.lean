import LanguageTheory.Proofs.Automaton.Language
import LanguageTheory.Proofs.Regular.EpsilonNfa

/-! Reading a finite automaton into a nondeterministic one over dense states. A new state stands inside a
label: some of the label is still to be read before the target of its transition is reached. Every move
of the new automaton advances within a label or takes a transition, and every transition has a path of
its own, so that the paths of the two automata read the same. -/

namespace LanguageTheory

theorem SymbolId.ofChar_ne_epsilon (c : Char) : ofChar c ≠ epsilon := by
  intro h
  have hsome := toChar?_ofChar c
  rw [h, toChar?_epsilon] at hsome
  cases hsome

theorem SymbolId.ofChar_injective : Function.Injective ofChar := by
  intro c c' h
  have hsome := toChar?_ofChar c
  rw [h, toChar?_ofChar] at hsome
  exact (Option.some.inj hsome).symm

namespace ImportedNfa

/-- What is still to be read of a label, and the state that it leads to. -/
structure Place where
  rest : Word
  state : StateId

variable {a : Automaton} {n n' : EpsilonNfa} {i : ImportedNfa} {place : StateId → Place}
  {s t source target : StateId}

/-- Reading a part of a label leads from one place to another. -/
inductive Advances (a : Automaton) : Place → Word → Place → Prop
  | within (read rest : Word) (s : StateId) : Advances a ⟨read ++ rest, s⟩ read ⟨rest, s⟩
  | leave {t : Transition} (read rest : Word) : t ∈ a.transitions → t.label = .finite (read ++ rest) →
      Advances a ⟨[], t.source⟩ read ⟨rest, t.target⟩

theorem Advances.exists_path {p q : Place} {u : Word} (h : Advances a p u q) :
    ∃ x, p.rest ++ x = u ++ q.rest ∧ a.Path p.state x q.state := by
  cases h with
  | within _ rest s => exact ⟨[], List.append_nil _, .nil s⟩
  | @leave t _ rest ht hlabel =>
      have hpath := Automaton.Path.cons ht hlabel (.nil t.target)
      rw [List.append_nil] at hpath
      exact ⟨u ++ rest, rfl, hpath⟩

/-- Every move of an automaton over dense states advances in the given one. -/
structure Follows (n : EpsilonNfa) (a : Automaton) (place : StateId → Place) : Prop where
  wellFormed : n.WellFormed
  advances : ∀ m ∈ n.moves, ∃ read : Option Char, m.symbol = read.map SymbolId.ofChar ∧
    Advances a (place m.source) read.toList (place m.target)

/-- What a path reads, and then what is left at its end, is what was left at its start, and then what
some path of the given automaton spells. -/
theorem Follows.exists_path (h : Follows n a place) {w : List SymbolId} (hpath : n.Path s w t) :
    ∃ u x : Word, w = u.map SymbolId.ofChar ∧ (place s).rest ++ x = u ++ (place t).rest ∧
      a.Path (place s).state x (place t).state := by
  induction hpath with
  | nil s => exact ⟨[], [], rfl, List.append_nil _, .nil _⟩
  | @cons m w f hm _ ih =>
      obtain ⟨read, hsymbol, hadvances⟩ := h.advances m hm
      obtain ⟨x, hx, hfirst⟩ := hadvances.exists_path
      obtain ⟨u, y, rfl, hy, hrest⟩ := ih
      refine ⟨read.toList ++ u, x ++ y, ?_, ?_, hfirst.trans hrest⟩
      · rw [hsymbol, List.map_append]
        cases read <;> rfl
      · rw [← List.append_assoc, hx, List.append_assoc, hy, List.append_assoc]

theorem Follows.path_of_rest_eq_nil (h : Follows n a place) (hs : place s = ⟨[], source⟩) {w : Word}
    (hpath : n.Path s (w.map SymbolId.ofChar) t) :
    a.Path source (w ++ (place t).rest) (place t).state := by
  obtain ⟨u, x, hu, hx, hpath'⟩ := h.exists_path hpath
  obtain rfl := List.map_injective_iff.2 SymbolId.ofChar_injective hu
  rw [hs] at hx hpath'
  rwa [← hx]

/-! ### Growing an automaton -/

/-- The second automaton was made from the first by adding states and moves. -/
structure Extends (n n' : EpsilonNfa) : Prop where
  size_le : n.size ≤ n'.size
  mem_moves : ∀ m ∈ n.moves, m ∈ n'.moves
  start_eq : n'.start = n.start
  finals_eq : n'.finals = n.finals

theorem Extends.refl (n : EpsilonNfa) : Extends n n := ⟨Nat.le_refl _, fun _ hm => hm, rfl, rfl⟩

theorem Extends.trans {n'' : EpsilonNfa} (h : Extends n n') (h' : Extends n' n'') : Extends n n'' where
  size_le := h.size_le.trans h'.size_le
  mem_moves := fun m hm => h'.mem_moves m (h.mem_moves m hm)
  start_eq := h'.start_eq.trans h.start_eq
  finals_eq := h'.finals_eq.trans h.finals_eq

theorem mem_moves_addMove {m move : EpsilonNfa.Move} :
    m ∈ (n.addMove move).moves ↔ m ∈ n.moves ∨ m = move := by
  rw [EpsilonNfa.addMove, EpsilonNfa.growTo_moves, List.mem_append, List.mem_singleton]

theorem extends_addMove (n : EpsilonNfa) (move : EpsilonNfa.Move) : Extends n (n.addMove move) where
  size_le := n.le_size_growTo _
  mem_moves := fun _ hm => mem_moves_addMove.2 (Or.inl hm)
  start_eq := n.growTo_start _
  finals_eq := n.growTo_finals _

theorem extends_addState (n : EpsilonNfa) : Extends n n.addState.2 :=
  ⟨Nat.le_succ _, fun _ hm => hm, rfl, rfl⟩

theorem addTransition_ofChar (n : EpsilonNfa) (source target : StateId) (c : Char) :
    n.addTransition source (SymbolId.ofChar c) target =
      n.addMove ⟨source, some (SymbolId.ofChar c), target⟩ := by
  rw [EpsilonNfa.addTransition, if_neg (SymbolId.ofChar_ne_epsilon c)]

theorem Follows.addMove (h : Follows n a place) (read : Option Char)
    (hadvances : Advances a (place source) read.toList (place target)) :
    Follows (n.addMove ⟨source, read.map SymbolId.ofChar, target⟩) a place where
  wellFormed := h.wellFormed.addMove _
  advances := by
    intro m hm
    rcases mem_moves_addMove.1 hm with hm | rfl
    · exact h.advances m hm
    · exact ⟨read, rfl, hadvances⟩

/-- A new state may stand anywhere. -/
theorem Follows.addState (h : Follows n a place) (p : Place) : ∃ place', place' n.size = p ∧
    (∀ s < n.size, place' s = place s) ∧ Follows n.addState.2 a place' := by
  have hold : ∀ s < n.size, Function.update place n.size p s = place s :=
    fun s hs => Function.update_of_ne (Nat.ne_of_lt hs) _ _
  refine ⟨Function.update place n.size p, Function.update_self _ _ _, hold, ?_⟩
  refine ⟨h.wellFormed.addState, fun m hm => ?_⟩
  rw [hold _ (h.wellFormed.source_lt m hm), hold _ (h.wellFormed.target_lt m hm)]
  exact h.advances m hm

/-- What adding a path for a word does: the states that were there keep their places. -/
structure PathAdded (a : Automaton) (place : StateId → Place) (n n' : EpsilonNfa)
    (source target : StateId) (word : Word) : Prop where
  extension : Extends n n'
  follows : ∃ place', (∀ s < n.size, place' s = place s) ∧ Follows n' a place'
  path : n'.Path source (word.map SymbolId.ofChar) target

theorem pathAdded_addMove (h : Follows n a place) (read : Option Char)
    (hadvances : Advances a (place source) read.toList (place target)) :
    PathAdded a place n (n.addMove ⟨source, read.map SymbolId.ofChar, target⟩) source target
      read.toList where
  extension := extends_addMove n _
  follows := ⟨place, fun _ _ => rfl, h.addMove read hadvances⟩
  path := by
    have hpath := EpsilonNfa.path_single (mem_moves_addMove.2 (Or.inr rfl) :
      _ ∈ (n.addMove ⟨source, read.map SymbolId.ofChar, target⟩).moves)
    cases read <;> exact hpath

theorem addPath_cons_cons (i : ImportedNfa) (source target : StateId) (c d : Char) (rest : Word) :
    i.addPath source target (c :: d :: rest) =
      addPath ⟨i.nfa.addState.2.addMove ⟨source, some (SymbolId.ofChar c), i.nfa.size⟩,
        i.origin ++ [none]⟩ i.nfa.size target (d :: rest) := by
  rw [addPath, ← addTransition_ofChar]
  · rfl
  · exact List.cons_ne_nil d rest

/-- A path for a word may be added where every part of the word advances towards the target. -/
theorem pathAdded_addPath (h : Follows i.nfa a place) (hsource : source < i.nfa.size)
    (htarget : target < i.nfa.size) {word : Word}
    (hadvances : ∀ read rest, read ++ rest = word →
      Advances a (place source) read ⟨rest, (place target).state⟩)
    (hrest : (place target).rest = []) :
    PathAdded a place i.nfa (i.addPath source target word).nfa source target word := by
  have heta : (⟨[], (place target).state⟩ : Place) = place target := by rw [← hrest]
  induction word generalizing i place source with
  | nil =>
      have hlast := hadvances [] [] rfl
      rw [heta] at hlast
      exact pathAdded_addMove h none hlast
  | cons c word ih =>
      cases word with
      | nil =>
          have hlast := hadvances [c] [] rfl
          rw [heta] at hlast
          rw [addPath, addTransition_ofChar]
          exact pathAdded_addMove h (some c) hlast
      | cons d rest =>
          obtain ⟨place', hmiddle, hold, hstate⟩ := h.addState ⟨d :: rest, (place target).state⟩
          have hfirst : Advances a (place' source) [c] (place' i.nfa.size) := by
            rw [hold source hsource, hmiddle]
            exact hadvances [c] (d :: rest) rfl
          let move : EpsilonNfa.Move := ⟨source, some (SymbolId.ofChar c), i.nfa.size⟩
          let grown : ImportedNfa := ⟨i.nfa.addState.2.addMove move, i.origin ++ [none]⟩
          have hle : i.nfa.size + 1 ≤ grown.nfa.size := (extends_addMove i.nfa.addState.2 move).size_le
          have hextends : Extends i.nfa grown.nfa :=
            (extends_addState i.nfa).trans (extends_addMove i.nfa.addState.2 move)
          rw [addPath_cons_cons]
          have hadded := ih (i := grown) (hstate.addMove (some c) hfirst) hle
            (htarget.trans_le hextends.size_le) ?_ ?_ ?_
          · obtain ⟨place'', hkept, hfollows⟩ := hadded.follows
            refine ⟨hextends.trans hadded.extension, ⟨place'', ?_, hfollows⟩, ?_⟩
            · intro s hs
              rw [hkept s (hs.trans_le hextends.size_le), hold s hs]
            · exact .cons (hadded.extension.mem_moves _ (mem_moves_addMove.2 (Or.inr rfl))) hadded.path
          · intro read left hread
            rw [hmiddle, hold target htarget, ← hread]
            exact .within read left _
          · rw [hold target htarget, hrest]
          · rw [hold target htarget, heta]

/-! ### Reading an automaton -/

theorem mem_foldl_addFinal {l : List StateId} :
    s ∈ (l.foldl EpsilonNfa.addFinal n).finals ↔ s ∈ n.finals ∨ s ∈ l := by
  induction l generalizing n with
  | nil => simp
  | cons a l ih =>
      have hadd : s ∈ (n.addFinal a).finals ↔ s = a ∨ s ∈ n.finals := by
        rw [EpsilonNfa.addFinal, EpsilonNfa.growTo_finals, Ascending.mem_insert]
      rw [List.foldl_cons, ih, hadd, List.mem_cons]
      tauto

theorem foldl_addFinal (hn : n.WellFormed) (l : List StateId) :
    (l.foldl EpsilonNfa.addFinal n).WellFormed ∧ n.size ≤ (l.foldl EpsilonNfa.addFinal n).size ∧
      (l.foldl EpsilonNfa.addFinal n).moves = n.moves ∧ (l.foldl EpsilonNfa.addFinal n).start = n.start := by
  induction l generalizing n with
  | nil => exact ⟨hn, Nat.le_refl _, rfl, rfl⟩
  | cons a l ih =>
      obtain ⟨hwell, hle, hmoves, hstart⟩ := ih (hn.addFinal a)
      refine ⟨hwell, (n.le_size_growTo a).trans hle, ?_, ?_⟩
      · rw [List.foldl_cons, hmoves]
        exact n.growTo_moves a
      · rw [List.foldl_cons, hstart]
        exact n.growTo_start a

/-- An automaton that reads what the given finite automaton reads and accepts what that accepts. -/
structure Imports (n : EpsilonNfa) (a : Automaton) : Prop where
  wellFormed : n.WellFormed
  symbol_eq : ∀ m ∈ n.moves, ∀ symbol, m.symbol = some symbol → ∃ c, symbol = SymbolId.ofChar c
  mem_readable_iff : ∀ w : Word,
    w ∈ a.readable ↔ ∃ s ∈ n.start, ∃ t, n.Path s (w.map SymbolId.ofChar) t
  mem_language_iff : ∀ w : Word,
    w ∈ a.language ↔ ∃ s ∈ n.start, ∃ f ∈ n.finals, n.Path s (w.map SymbolId.ofChar) f

theorem skeleton_eq {initial : StateId} {k : Nat} (hk : a.ids.idxOf? initial = some k) :
    skeleton a initial = (a.finals.toList.filterMap a.ids.idxOf?).foldl EpsilonNfa.addFinal
      (EpsilonNfa.addStart { EpsilonNfa.empty with size := a.size } k) := by
  show List.foldl EpsilonNfa.addFinal (List.foldl EpsilonNfa.addStart _ (a.ids.idxOf? initial).toList) _ = _
  rw [hk, Option.toList_some, List.foldl_cons, List.foldl_nil]

theorem skeleton_spec {initial : StateId} {k : Nat} (hk : a.ids.idxOf? initial = some k) :
    (skeleton a initial).WellFormed ∧ a.size ≤ (skeleton a initial).size ∧ (skeleton a initial).moves = [] ∧
      ∀ s, s ∈ (skeleton a initial).start ↔ s = k := by
  have hbare : ({ EpsilonNfa.empty with size := a.size } : EpsilonNfa).WellFormed := by
    constructor <;> simp [EpsilonNfa.empty]
  obtain ⟨hwell, hle, hmoves, hstart⟩ := foldl_addFinal (hbare.addStart k)
    (a.finals.toList.filterMap a.ids.idxOf?)
  rw [skeleton_eq hk]
  refine ⟨hwell, (EpsilonNfa.le_size_growTo _ k).trans hle, ?_, ?_⟩
  · rw [hmoves]
    exact EpsilonNfa.growTo_moves _ k
  · intro s
    rw [hstart, EpsilonNfa.addStart, EpsilonNfa.growTo_start, Ascending.mem_insert]
    simp [EpsilonNfa.empty]

theorem mem_finals_skeleton {initial : StateId} {k : Nat} (hk : a.ids.idxOf? initial = some k) :
    s ∈ (skeleton a initial).finals ↔ ∃ f ∈ a.finals, a.ids.idxOf? f = some s := by
  rw [skeleton_eq hk, mem_foldl_addFinal, EpsilonNfa.addStart, EpsilonNfa.growTo_finals, List.mem_filterMap]
  constructor
  · intro h
    exact h.resolve_left (Ascending.not_mem_empty s)
  · exact Or.inr

/-- The states of the given automaton come first. -/
def Stands (a : Automaton) (place : StateId → Place) : Prop :=
  ∀ k id, a.ids[k]? = some id → place k = ⟨[], id⟩

/-- There is a path for the label of each of the transitions. -/
def Covers (a : Automaton) (ts : List Transition) (n : EpsilonNfa) : Prop :=
  ∀ t ∈ ts, ∀ read k k', t.label = .finite read → a.ids[k]? = some t.source →
    a.ids[k']? = some t.target → n.Path k (read.map SymbolId.ofChar) k'

section Import

variable (ha : a.WellFormed) (hkind : a.kind = .finite)
include ha

theorem addTransition_spec (h : Follows i.nfa a place) (hplace : Stands a place) (hsize : a.size ≤ i.nfa.size)
    {t : Transition} (ht : t ∈ a.transitions) {read : Word} (hread : t.label = .finite read) {k k' : Nat}
    (hk : a.ids.idxOf? t.source = some k) (hk' : a.ids.idxOf? t.target = some k') :
    PathAdded a place i.nfa (addTransition a i t).nfa k k' read := by
  rw [ha.idxOf?_eq_some_iff] at hk hk'
  have hsource := hplace k t.source hk
  have htarget := hplace k' t.target hk'
  have heq : addTransition a i t = i.addPath k k' read := by
    rw [addTransition, hread, ha.idxOf?_eq_some_iff.2 hk, ha.idxOf?_eq_some_iff.2 hk']
  rw [heq]
  apply pathAdded_addPath h ((Automaton.lt_size_of_getElem? hk).trans_le hsize)
    ((Automaton.lt_size_of_getElem? hk').trans_le hsize)
  · intro u rest hu
    rw [hsource, htarget]
    exact .leave u rest ht (by rw [hread, hu])
  · rw [htarget]

include hkind in
/-- Adding the transitions one after the other yields a path for each of them. -/
theorem foldl_addTransition {l : List Transition} (hl : ∀ t ∈ l, t ∈ a.transitions)
    (h : Follows i.nfa a place) (hplace : Stands a place) (hsize : a.size ≤ i.nfa.size) :
    ∃ place', Follows (l.foldl (addTransition a) i).nfa a place' ∧ Stands a place' ∧
      Extends i.nfa (l.foldl (addTransition a) i).nfa ∧ Covers a l (l.foldl (addTransition a) i).nfa := by
  induction l generalizing i place with
  | nil => exact ⟨place, h, hplace, .refl _, fun _ ht => nomatch ht⟩
  | cons t l ih =>
      have ht : t ∈ a.transitions := hl t List.mem_cons_self
      obtain ⟨read, hread⟩ := ha.exists_label_eq hkind ht
      obtain ⟨k, hk⟩ := ha.exists_idxOf? (ha.endpoints_mem t ht).1
      obtain ⟨k', hk'⟩ := ha.exists_idxOf? (ha.endpoints_mem t ht).2
      have hadded := addTransition_spec ha h hplace hsize ht hread hk hk'
      obtain ⟨place', hkept, hfollows⟩ := hadded.follows
      have hplace' : Stands a place' := by
        intro j id hj
        rw [hkept j ((Automaton.lt_size_of_getElem? hj).trans_le hsize)]
        exact hplace j id hj
      obtain ⟨place'', hfollows', hplace'', hextends, hcovers⟩ :=
        ih (fun u hu => hl u (List.mem_cons_of_mem t hu)) hfollows hplace'
          (hsize.trans hadded.extension.size_le)
      refine ⟨place'', hfollows', hplace'', hadded.extension.trans hextends, ?_⟩
      intro u hu read' j j' hread' hj hj'
      rcases List.mem_cons.1 hu with rfl | hu
      · obtain rfl := Label.finite.inj (hread.symm.trans hread')
        obtain rfl := Option.some.inj (hk.symm.trans (ha.idxOf?_eq_some_iff.2 hj))
        obtain rfl := Option.some.inj (hk'.symm.trans (ha.idxOf?_eq_some_iff.2 hj'))
        exact hadded.path.mono hextends.mem_moves
      · exact hcovers u hu read' j j' hread' hj hj'

/-- If transitions have paths of their own, so do paths. -/
theorem path_of_path (hcovers : Covers a a.transitions n) {w : Word} (hpath : a.Path s w t) {k k' : Nat}
    (hk : a.ids[k]? = some s) (hk' : a.ids[k']? = some t) : n.Path k (w.map SymbolId.ofChar) k' := by
  induction hpath generalizing k with
  | nil s =>
      rw [← ha.idxOf?_eq_some_iff] at hk hk'
      obtain rfl := Option.some.inj (hk.symm.trans hk')
      exact .nil k
  | @cons t read w f ht hread _ ih =>
      obtain ⟨j, hj⟩ := ha.exists_idxOf? (ha.endpoints_mem t ht).2
      rw [ha.idxOf?_eq_some_iff] at hj
      rw [List.map_append]
      exact (hcovers t ht read k j hread hk hj).trans (ih hj hk')

/-- Moves that advance along transitions, with a path for each transition, accept what the automaton does. -/
theorem imports_of_follows {initial : StateId} {k : Nat} (hinitial : a.initial = some initial)
    (hk : a.ids[k]? = some initial) (h : Follows n a place) (hplace : Stands a place)
    (hcovers : Covers a a.transitions n) (hstart : ∀ s, s ∈ n.start ↔ s = k)
    (hfinals : ∀ s, s ∈ n.finals ↔ ∃ f ∈ a.finals, a.ids[s]? = some f) : Imports n a := by
  refine ⟨h.wellFormed, ?_, ?_, ?_⟩
  · intro m hm symbol hsymbol
    obtain ⟨read, hread, _⟩ := h.advances m hm
    obtain ⟨c, _, rfl⟩ := Option.map_eq_some_iff.1 (hread.symm.trans hsymbol)
    exact ⟨c, rfl⟩
  · intro w
    rw [Automaton.mem_readable hinitial]
    constructor
    · intro ⟨v, f, hpath⟩
      obtain ⟨j, hj⟩ := ha.exists_idxOf? (ha.mem_ids_of_path hpath (ha.initial_mem initial hinitial))
      have hpath' := path_of_path ha hcovers hpath hk (ha.idxOf?_eq_some_iff.1 hj)
      rw [List.map_append] at hpath'
      obtain ⟨t, hw, _⟩ := hpath'.split
      exact ⟨k, (hstart k).2 rfl, t, hw⟩
    · intro ⟨s, hs, t, hpath⟩
      obtain rfl := (hstart s).1 hs
      exact ⟨_, _, h.path_of_rest_eq_nil (hplace s initial hk) hpath⟩
  · intro w
    rw [Automaton.mem_language hinitial]
    constructor
    · intro ⟨f, hf, hpath⟩
      obtain ⟨j, hj⟩ := ha.exists_idxOf? (ha.finals_mem f hf)
      rw [ha.idxOf?_eq_some_iff] at hj
      exact ⟨k, (hstart k).2 rfl, j, (hfinals j).2 ⟨f, hf, hj⟩, path_of_path ha hcovers hpath hk hj⟩
    · intro ⟨s, hs, t, ht, hpath⟩
      obtain rfl := (hstart s).1 hs
      obtain ⟨f, hf, hid⟩ := (hfinals t).1 ht
      have hpath' := h.path_of_rest_eq_nil (hplace s initial hk) hpath
      rw [hplace t f hid, List.append_nil] at hpath'
      exact ⟨f, hf, hpath'⟩

omit ha in
include hkind in
theorem ofAutomaton_eq_ok {initial : StateId} (hinitial : a.initial = some initial) : ofAutomaton a =
    .ok (a.transitions.foldl (addTransition a) ⟨skeleton a initial, a.ids.map some⟩) := by
  simp only [ofAutomaton, Automaton.requireFinite, Automaton.requireInitial, hkind, hinitial, if_true]
  rfl

include hkind in
theorem imports_ofAutomaton {initial : StateId} (hinitial : a.initial = some initial) :
    ∃ i, ofAutomaton a = .ok i ∧ Imports i.nfa a := by
  obtain ⟨k, hk⟩ := ha.exists_idxOf? (ha.initial_mem initial hinitial)
  obtain ⟨hwell, hsize, hmoves, hstart⟩ := skeleton_spec hk
  have hfollows : Follows (skeleton a initial) a fun k => ⟨[], a.ids[k]?.getD 0⟩ := by
    refine ⟨hwell, fun m hm => ?_⟩
    rw [hmoves] at hm
    cases hm
  have hplace : Stands a fun k => ⟨[], a.ids[k]?.getD 0⟩ := by
    intro k id hk
    show (⟨[], a.ids[k]?.getD 0⟩ : Place) = ⟨[], id⟩
    rw [hk, Option.getD_some]
  obtain ⟨place, hfollows', hplace', hextends, hcovers⟩ := foldl_addTransition ha hkind
    (i := ⟨skeleton a initial, a.ids.map some⟩) (fun t ht => ht) hfollows hplace hsize
  refine ⟨_, ofAutomaton_eq_ok hkind hinitial, ?_⟩
  apply imports_of_follows ha hinitial (ha.idxOf?_eq_some_iff.1 hk) hfollows' hplace' hcovers
  · intro s
    rw [hextends.start_eq, hstart]
  · intro s
    rw [hextends.finals_eq, mem_finals_skeleton hk]
    simp only [ha.idxOf?_eq_some_iff]

end Import

end ImportedNfa

end LanguageTheory
