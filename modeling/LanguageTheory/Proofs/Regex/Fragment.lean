import LanguageTheory.Proofs.Automaton.Edits
import LanguageTheory.Proofs.Regular.Graph
import LanguageTheory.Regex.Thompson

/-! The fragments of the automaton for an expression. Each numbers its states from where the one before it
has stopped, so fragments have no state and no move in common. No move leaves the exit of a fragment, so a
move that ties fragments together is always a new one. Hence no edit that assembles the automaton is
refused, and none is without effect. -/

namespace LanguageTheory.Regex

variable {first lower n p q upper : Nat} {moves ts : List Transition} {t : Transition} {w : Word}

/-! ### Where the states are -/

/-- The number is at least `lower` and below `upper`. -/
def Between (lower upper n : Nat) : Prop := lower ≤ n ∧ n < upper

theorem Between.mono {lower' upper' : Nat} (h : Between lower upper n) (hlower : lower' ≤ lower)
    (hupper : upper ≤ upper') : Between lower' upper' n := ⟨hlower.trans h.1, h.2.trans_le hupper⟩

/-- The moves go between states with numbers in a range. -/
def Within (lower upper : Nat) (ts : List Transition) : Prop :=
  ∀ t ∈ ts, Between lower upper t.source ∧ Between lower upper t.target

theorem within_nil : Within lower upper [] := fun _ h => nomatch h

theorem within_cons : Within lower upper (t :: ts) ↔
    (Between lower upper t.source ∧ Between lower upper t.target) ∧ Within lower upper ts :=
  List.forall_mem_cons

theorem within_append : Within lower upper (ts ++ moves) ↔ Within lower upper ts ∧ Within lower upper moves :=
  List.forall_mem_append

theorem Within.mono {lower' upper' : Nat} (h : Within lower upper ts) (hlower : lower' ≤ lower)
    (hupper : upper ≤ upper') : Within lower' upper' ts := fun t ht =>
  ⟨(h t ht).1.mono hlower hupper, (h t ht).2.mono hlower hupper⟩

theorem Within.not_mem (h : Within lower upper ts)
    (hout : ¬Between lower upper t.source ∨ ¬Between lower upper t.target) : t ∉ ts := fun ht =>
  hout.elim (fun hsource => hsource (h t ht).1) fun htarget => htarget (h t ht).2

/-- No move leaves the state. -/
def NoneFrom (p : Nat) (ts : List Transition) : Prop := ∀ t ∈ ts, p ≠ t.source

theorem noneFrom_nil : NoneFrom p [] := fun _ h => nomatch h

theorem noneFrom_cons : NoneFrom p (t :: ts) ↔ p ≠ t.source ∧ NoneFrom p ts := List.forall_mem_cons

theorem noneFrom_append : NoneFrom p (ts ++ moves) ↔ NoneFrom p ts ∧ NoneFrom p moves := List.forall_mem_append

theorem Within.noneFrom (h : Within lower upper ts) (hp : ¬Between lower upper p) : NoneFrom p ts :=
  fun t ht heq => hp (heq ▸ (h t ht).1)

theorem NoneFrom.not_mem (h : NoneFrom t.source ts) : t ∉ ts := fun ht => h t ht rfl

/-- The states of a fragment are numbered from `first` on, there are at least two of them, and the fragment
has no move from its exit. -/
structure Bounded (first : Nat) (f : Fragment) : Prop where
  two_le : first + 2 ≤ f.next
  entry_mem : Between first f.next f.entry
  exit_mem : Between first f.next f.exit
  within : Within first f.next f.moves
  noneFrom : NoneFrom f.exit f.moves

theorem bounded_fragment (first : Nat) (r : Regex) : Bounded first (r.fragment first) := by
  induction r generalizing first with
  | empty => constructor <;> simp [fragment, Between, within_nil, noneFrom_nil]
  | epsilon =>
      constructor <;> simp [fragment, move, Between, within_cons, within_nil, noneFrom_cons, noneFrom_nil]
  | symbol c =>
      constructor <;> simp [fragment, move, Between, within_cons, within_nil, noneFrom_cons, noneFrom_nil]
  | concat r s ihr ihs =>
      obtain ⟨hsize, hentry, hexit, hwithin, hfinal⟩ := ihr first
      obtain ⟨hsize', hentry', hexit', hwithin', hfinal'⟩ := ihs (r.fragment first).next
      simp only [Between] at hentry hexit hentry' hexit'
      constructor <;> simp only [fragment, move, Between, within_append, within_cons, within_nil, noneFrom_append,
        noneFrom_cons, noneFrom_nil, and_true]
      · omega
      · omega
      · omega
      · exact ⟨⟨hwithin.mono (by omega) (by omega), hwithin'.mono (by omega) (by omega)⟩, by omega⟩
      · exact ⟨⟨hwithin.noneFrom (by simp only [Between]; omega), hfinal'⟩, by omega⟩
  | union r s ihr ihs =>
      obtain ⟨hsize, hentry, hexit, hwithin, hfinal⟩ := ihr (first + 2)
      obtain ⟨hsize', hentry', hexit', hwithin', hfinal'⟩ := ihs (r.fragment (first + 2)).next
      simp only [Between] at hentry hexit hentry' hexit'
      have hout := hwithin.noneFrom (p := first + 1) (by simp only [Between]; omega)
      have hout' := hwithin'.noneFrom (p := first + 1) (by simp only [Between]; omega)
      constructor <;> simp only [fragment, move, Between, within_append, within_cons, within_nil, noneFrom_append,
        noneFrom_cons, noneFrom_nil, and_true]
      · omega
      · omega
      · omega
      · exact ⟨⟨⟨hwithin.mono (by omega) (by omega), by omega⟩, hwithin'.mono (by omega) (by omega)⟩, by omega⟩
      · exact ⟨⟨⟨hout, by omega⟩, hout'⟩, by omega⟩
  | star r ih =>
      obtain ⟨hsize, hentry, hexit, hwithin, hfinal⟩ := ih (first + 2)
      simp only [Between] at hentry hexit
      have hout := hwithin.noneFrom (p := first + 1) (by simp only [Between]; omega)
      constructor <;> simp only [fragment, move, Between, within_append, within_cons, within_nil, noneFrom_append,
        noneFrom_cons, noneFrom_nil, and_true]
      · omega
      · omega
      · omega
      · exact ⟨hwithin.mono (by omega) (by omega), by omega⟩
      · exact ⟨hout, by omega⟩

section

variable {f : Fragment} (hf : Bounded lower f) (hts : Within 0 lower ts)
include hf hts

/-- A move that enters the fragment from before it is none of its moves, nor one of those before it. -/
theorem Bounded.entering_not_mem (hp : p < lower) (w : Word) : move p f.entry w ∉ ts ++ f.moves := by
  have hentry := hf.entry_mem
  simp only [Between] at hentry
  exact List.not_mem_append (hts.not_mem (.inr (by simp only [Between, move]; omega)))
    (hf.within.not_mem (.inl (by simp only [Between, move]; omega)))

theorem Bounded.leaving_not_mem (q : Nat) (w : Word) : move f.exit q w ∉ ts ++ f.moves := by
  have hexit := hf.exit_mem
  simp only [Between] at hexit
  exact List.not_mem_append (hts.not_mem (.inl (by simp only [Between, move]; omega)))
    (NoneFrom.not_mem hf.noneFrom)

end

/-! ### Assembling -/

/-- States that are numbered from zero, and moves between them; no state is initial or final. -/
def graph (n : Nat) (ts : List Transition) : Automaton :=
  { Automaton.ofLabels .finite (List.replicate n none) with transitions := ts }

@[simp] theorem kind_move (p q : Nat) (w : Word) : (move p q w).kind = .finite := rfl

theorem ids_graph (n : Nat) (ts : List Transition) : (graph n ts).ids = List.range n := by
  have hids := (Automaton.ids_ofLabels .finite (List.replicate n none)).1
  rwa [List.length_replicate] at hids

theorem addState_graph (n : Nat) (ts : List Transition) : (graph n ts).addState = (n, graph (n + 1) ts) := by
  have hnext : (Automaton.ofLabels .finite (List.replicate n none)).nextId = n := by
    rw [(Automaton.ids_ofLabels .finite (List.replicate n none)).2.1, List.length_replicate]
  have hgraph : graph (n + 1) ts = ((graph n ts).createLabeledState none .origin).2 := by
    rw [graph, Automaton.ofLabels, List.replicate_succ', List.foldl_concat]
    rfl
  rw [hgraph, Automaton.addState, Automaton.createState]
  exact Prod.ext hnext rfl

theorem finals_graph (n : Nat) (ts : List Transition) : (graph n ts).finals = ∅ := by
  induction n with
  | zero => rfl
  | succ n ih => exact (congrArg (fun x => x.2.finals) (addState_graph n ts)).symm.trans ih

theorem addEnds_graph (n : Nat) (ts : List Transition) :
    addEnds (graph n ts) = (n, n + 1, graph (n + 2) ts) := by
  simp only [addEnds, addState_graph]

theorem wellFormed_graph_add_two (h : (graph n ts).WellFormed) : (graph (n + 2) ts).WellFormed := by
  have hcreate : ∀ {n}, (graph n ts).WellFormed → (graph (n + 1) ts).WellFormed := by
    intro n h
    have hstate := h.createLabeledState none .origin
    rwa [show ((graph n ts).createLabeledState none .origin).2 = graph (n + 1) ts from
      congrArg Prod.snd (addState_graph n ts)] at hstate
  exact hcreate (hcreate h)

theorem within_of_wellFormed (h : (graph n ts).WellFormed) : Within 0 n ts := by
  intro t ht
  obtain ⟨hsource, htarget⟩ := h.endpoints_mem t ht
  rw [ids_graph, List.mem_range] at hsource htarget
  exact ⟨⟨Nat.zero_le _, hsource⟩, Nat.zero_le _, htarget⟩

/-- A new move between states that are there is added. -/
theorem addTransition_graph (h : (graph n ts).WellFormed) (hkind : t.kind = .finite) (hsource : t.source < n)
    (htarget : t.target < n) (hnew : t ∉ ts) :
    (graph n ts).addTransition t = .ok (graph n (ts ++ [t])) ∧ (graph n (ts ++ [t])).WellFormed := by
  have hkind' : t.kind = (graph n ts).kind :=
    hkind.trans (Automaton.ids_ofLabels .finite (List.replicate n none)).2.2.1.symm
  have hmem : ∀ id, id < n → id ∈ (graph n ts).ids := fun id hid => by rwa [ids_graph, List.mem_range]
  have hadd : (graph n ts).addTransition t = .ok (graph n (ts ++ [t])) :=
    Automaton.addTransition_of_not_mem hkind' (hmem _ hsource) (hmem _ htarget) hnew
  exact ⟨hadd, h.addTransition hadd⟩

/-- Two new states and a move between them. -/
theorem single_graph (h : (graph n ts).WellFormed) (w : Word) :
    (graph (n + 2) ts).addTransition (move n (n + 1) w) = .ok (graph (n + 2) (ts ++ [move n (n + 1) w])) ∧
      (graph (n + 2) (ts ++ [move n (n + 1) w])).WellFormed := by
  have hnew : move n (n + 1) w ∉ ts := (within_of_wellFormed h).not_mem (.inl (by simp [Between, move]))
  exact addTransition_graph (wellFormed_graph_add_two h) rfl (by simp [move]) (by simp [move]) hnew

theorem addTransitions_graph {us : List Transition} (h : (graph n ts).WellFormed) (hwithin : Within 0 n us)
    (hkind : ∀ t ∈ us, t.kind = .finite) (hnew : ∀ t ∈ us, t ∉ ts) (hnodup : us.Nodup) :
    (graph n ts).addTransitions us = .ok (graph n (ts ++ us)) ∧ (graph n (ts ++ us)).WellFormed := by
  induction us generalizing ts with
  | nil =>
      rw [List.append_nil]
      exact ⟨rfl, h⟩
  | cons t us ih =>
      obtain ⟨ht, hnodup'⟩ := List.nodup_cons.1 hnodup
      obtain ⟨⟨hsource, htarget⟩, hwithin'⟩ := within_cons.1 hwithin
      obtain ⟨hadd, h'⟩ := addTransition_graph h (hkind t List.mem_cons_self) hsource.2 htarget.2
        (hnew t List.mem_cons_self)
      have hnew' : ∀ u ∈ us, u ∉ ts ++ [t] := fun u hu =>
        List.not_mem_append (hnew u (List.mem_cons_of_mem t hu)) fun hmem => ht (List.mem_singleton.1 hmem ▸ hu)
      rw [List.append_cons, Automaton.addTransitions, List.foldlM_cons, hadd]
      exact ih h' hwithin' (fun u hu => hkind u (List.mem_cons_of_mem t hu)) hnew' hnodup'

/-- A fragment is tied to two states before it: it is entered from the one and left to the other. -/
theorem tie_graph {f : Fragment} (h : (graph f.next (ts ++ f.moves)).WellFormed) (hf : Bounded lower f)
    (hts : Within 0 lower ts) (hp : p < lower) (hq : q < lower) :
    (graph f.next (ts ++ f.moves)).addTransitions [move p f.entry [], move f.exit q []] =
        .ok (graph f.next (ts ++ f.moves ++ [move p f.entry [], move f.exit q []])) ∧
      (graph f.next (ts ++ f.moves ++ [move p f.entry [], move f.exit q []])).WellFormed := by
  obtain ⟨hsize, hentry, hexit, _, _⟩ := id hf
  simp only [Between] at hentry hexit
  have hus : Within 0 f.next [move p f.entry [], move f.exit q []] := by
    simp only [within_cons, within_nil, Between, move, and_true]
    omega
  have hnew : ∀ t ∈ [move p f.entry [], move f.exit q []], t ∉ ts ++ f.moves :=
    List.forall_mem_cons.2 ⟨hf.entering_not_mem hts hp [],
      List.forall_mem_singleton.2 (hf.leaving_not_mem hts q [])⟩
  exact addTransitions_graph h hus (by simp) hnew (by simp [move]; lia)

/-- No edit is refused, and what they make of a graph is the graph with the fragment beside it. -/
theorem assemble_graph (r : Regex) (h : (graph n ts).WellFormed) :
    r.assemble (graph n ts) = .ok ((r.fragment n).entry, (r.fragment n).exit,
        graph (r.fragment n).next (ts ++ (r.fragment n).moves)) ∧
      (graph (r.fragment n).next (ts ++ (r.fragment n).moves)).WellFormed := by
  induction r generalizing n ts with
  | empty =>
      rw [assemble, addEnds_graph, fragment, List.append_nil]
      exact ⟨rfl, wellFormed_graph_add_two h⟩
  | epsilon =>
      obtain ⟨hadd, h'⟩ := single_graph h []
      simp only [assemble, addEnds_graph, hadd, bind, Except.bind]
      exact ⟨rfl, h'⟩
  | symbol c =>
      obtain ⟨hadd, h'⟩ := single_graph h [c]
      simp only [assemble, addEnds_graph, hadd, bind, Except.bind]
      exact ⟨rfl, h'⟩
  | concat r s ihr ihs =>
      obtain ⟨hr, h₁⟩ := ihr h
      obtain ⟨hs, h₂⟩ := ihs h₁
      have hf := bounded_fragment n r
      have hg := bounded_fragment (r.fragment n).next s
      have hnew := hg.entering_not_mem (within_of_wellFormed h₁) hf.exit_mem.2 []
      have hexit := hf.exit_mem.2.trans_le ((Nat.le_add_right _ 2).trans hg.two_le)
      obtain ⟨hadd, h₃⟩ := addTransition_graph h₂ rfl hexit hg.entry_mem.2 hnew
      simp only [assemble, hr, hs, hadd, bind, Except.bind]
      simp only [fragment, ← List.append_assoc]
      exact ⟨rfl, h₃⟩
  | union r s ihr ihs =>
      have hends := wellFormed_graph_add_two h
      obtain ⟨hr, h₁⟩ := ihr hends
      have hf := bounded_fragment (n + 2) r
      have hsize := hf.two_le
      obtain ⟨hadd, h₂⟩ :=
        tie_graph (p := n) (q := n + 1) h₁ hf (within_of_wellFormed hends) (by omega) (by omega)
      obtain ⟨hs, h₃⟩ := ihs h₂
      have hg := bounded_fragment (r.fragment (n + 2)).next s
      obtain ⟨hadd', h₄⟩ :=
        tie_graph (p := n) (q := n + 1) h₃ hg (within_of_wellFormed h₂) (by omega) (by omega)
      simp only [assemble, addEnds_graph, hr, hadd, hs, hadd', bind, Except.bind]
      simp only [fragment, ← List.append_assoc]
      exact ⟨rfl, h₄⟩
  | star r ih =>
      have hends := wellFormed_graph_add_two h
      obtain ⟨hr, h₁⟩ := ih hends
      have hf := bounded_fragment (n + 2) r
      simp only [assemble, addEnds_graph, hr, fragment, bind, Except.bind, ← List.append_assoc]
      generalize r.fragment (n + 2) = f at *
      have hts := within_of_wellFormed hends
      obtain ⟨hsize, hentry, hexit, hwithin, _⟩ := id hf
      simp only [Between] at hentry hexit
      have hus : Within 0 f.next [move n f.entry [], move f.exit f.entry [], move f.exit (n + 1) [],
          move n (n + 1) []] := by
        simp only [within_cons, within_nil, Between, move, and_true]
        omega
      have hskip : move n (n + 1) [] ∉ ts ++ f.moves :=
        List.not_mem_append ((within_of_wellFormed h).not_mem (.inl (by simp [Between, move])))
          (hwithin.not_mem (.inl (by simp [Between, move])))
      have hnew : ∀ t ∈ [move n f.entry [], move f.exit f.entry [], move f.exit (n + 1) [], move n (n + 1) []],
          t ∉ ts ++ f.moves :=
        List.forall_mem_cons.2 ⟨hf.entering_not_mem hts (by omega) [],
          List.forall_mem_cons.2 ⟨hf.leaving_not_mem hts f.entry [],
            List.forall_mem_cons.2 ⟨hf.leaving_not_mem hts (n + 1) [], List.forall_mem_singleton.2 hskip⟩⟩⟩
      obtain ⟨hadd, h₂⟩ := addTransitions_graph h₁ hus (by simp) hnew (by simp [move]; lia)
      simp only [hadd]
      exact ⟨rfl, h₂⟩

/-- The edits that build the automaton for an expression all go through. -/
theorem build_eq (r : Regex) : r.build = .ok r.toAutomaton ∧ r.toAutomaton.WellFormed := by
  have hempty : (graph 0 []).WellFormed := Automaton.wellFormed_empty .finite
  obtain ⟨hassemble, h⟩ := assemble_graph r hempty
  obtain ⟨_, ⟨_, hentry⟩, ⟨_, hexit⟩, _, _⟩ := bounded_fragment 0 r
  rw [List.nil_append] at hassemble h
  have hids := ids_graph (r.fragment 0).next (r.fragment 0).moves
  have hfinals := finals_graph (r.fragment 0).next (r.fragment 0).moves
  rw [build, show Automaton.empty .finite = graph 0 [] from rfl, hassemble,
    show r.toAutomaton = { graph (r.fragment 0).next (r.fragment 0).moves with
      initial := some (r.fragment 0).entry, finals := .ofList [(r.fragment 0).exit] } from rfl]
  generalize graph (r.fragment 0).next (r.fragment 0).moves = a at *
  have hinitial := Automaton.setInitial_of_mem (hids ▸ List.mem_range.2 hentry)
  have hfinal := Automaton.addFinal_of_mem (a := { a with initial := some (r.fragment 0).entry })
    (hids ▸ List.mem_range.2 hexit)
  have hwellFormed := (h.setInitial hinitial).addFinal hfinal
  simp only [hfinals] at hfinal hwellFormed
  refine ⟨?_, hwellFormed⟩
  simp only [bind, Except.bind, hinitial, hfinals]
  exact hfinal

end LanguageTheory.Regex
