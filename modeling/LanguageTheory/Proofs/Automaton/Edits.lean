import LanguageTheory.Automaton.Basic
import Mathlib.Data.List.Nodup

/-! Every edit keeps an automaton well-formed, and one that is refused leaves it as it was. So whatever
comes of an empty automaton by edits is well-formed. -/

namespace LanguageTheory.Automaton

variable {a b : Automaton} {id : StateId} {s : State} {t : Transition}

/-! ### What is required of an edit -/

theorem mem_ids_of_requireState (h : a.requireState id = .ok ()) : id ∈ a.ids := by
  apply hasState_iff.1
  by_contra hnot
  rw [requireState, if_neg hnot] at h
  cases h

theorem requireState_of_mem (h : id ∈ a.ids) : a.requireState id = .ok () := if_pos (hasState_iff.2 h)

theorem setInitial_of_mem (h : id ∈ a.ids) : a.setInitial id = .ok { a with initial := some id } := by
  rw [setInitial, requireState_of_mem h]
  rfl

theorem addFinal_of_mem (h : id ∈ a.ids) : a.addFinal id = .ok { a with finals := a.finals.insert id } := by
  rw [addFinal, requireState_of_mem h]
  rfl

/-- An edit that names a state goes through only if the state is there. -/
theorem requireState_bind_eq_ok {edited : Automaton}
    (h : ((a.requireState id).bind fun _ => .ok edited) = .ok b) : id ∈ a.ids ∧ edited = b := by
  cases hrequired : a.requireState id with
  | error e =>
      rw [hrequired] at h
      cases h
  | ok =>
      rw [hrequired] at h
      exact ⟨mem_ids_of_requireState hrequired, Except.ok.inj h⟩

theorem mem_ids_of_requireEndpoints (h : a.requireEndpoints t = .ok ()) :
    t.source ∈ a.ids ∧ t.target ∈ a.ids := by
  rw [requireEndpoints] at h
  split at h
  · cases h
  next hnone =>
    have hall := List.find?_eq_none.1 hnone
    have hmem : ∀ id ∈ [t.source, t.target], id ∈ a.ids := by
      intro id hid
      have hhas := hall id hid
      rw [Bool.not_eq_true', Bool.not_eq_false] at hhas
      exact hasState_iff.1 hhas
    exact ⟨hmem _ List.mem_cons_self, hmem _ (List.mem_cons_of_mem _ List.mem_cons_self)⟩

theorem requireEndpoints_of_mem (hsource : t.source ∈ a.ids) (htarget : t.target ∈ a.ids) :
    a.requireEndpoints t = .ok () := by
  have hnone : [t.source, t.target].find? (fun id => !a.hasState id) = none := by
    simp [hasState_iff.2 hsource, hasState_iff.2 htarget]
  rw [requireEndpoints, hnone]

theorem addTransition_of_mem (hkind : t.kind = a.kind) (hsource : t.source ∈ a.ids)
    (htarget : t.target ∈ a.ids) : a.addTransition t =
      .ok (if t ∈ a.transitions then a else { a with transitions := a.transitions ++ [t] }) := by
  rw [addTransition, if_neg (not_not.2 hkind), requireEndpoints_of_mem hsource htarget]
  rfl

theorem addTransition_of_not_mem (hkind : t.kind = a.kind) (hsource : t.source ∈ a.ids)
    (htarget : t.target ∈ a.ids) (hnew : t ∉ a.transitions) :
    a.addTransition t = .ok { a with transitions := a.transitions ++ [t] } := by
  rw [addTransition_of_mem hkind hsource htarget, if_neg hnew]

/-- An accepted transition fits the automaton, and is not added a second time. -/
theorem addTransition_eq_ok (h : a.addTransition t = .ok b) :
    t.kind = a.kind ∧ (t.source ∈ a.ids ∧ t.target ∈ a.ids) ∧
      b = if t ∈ a.transitions then a else { a with transitions := a.transitions ++ [t] } := by
  rw [addTransition] at h
  by_cases hkind : t.kind = a.kind
  · rw [if_neg (not_not.2 hkind)] at h
    cases hrequired : a.requireEndpoints t with
    | error e =>
        rw [hrequired] at h
        cases h
    | ok =>
        rw [hrequired] at h
        exact ⟨hkind, mem_ids_of_requireEndpoints hrequired, (Except.ok.inj h).symm⟩
  · rw [if_pos hkind] at h
    cases h

theorem forM_eq_ok {α : Type} {check : α → Except Error Unit} {l : List α} (h : ∀ x ∈ l, check x = .ok ()) :
    l.forM check = .ok () := by
  induction l with
  | nil => rfl
  | cons x l ih =>
      rw [List.forM_eq_forM, List.forM_cons, h x List.mem_cons_self]
      exact ih fun y hy => h y (List.mem_cons_of_mem x hy)

/-- Nothing is wrong with an automaton that the edits have made, except for a missing initial state. -/
theorem WellFormed.validate (ha : a.WellFormed) (hinitial : a.initial = some id) : a.validate = .ok () := by
  have hfinals := forM_eq_ok fun id hid => requireState_of_mem (ha.finals_mem id hid)
  have hendpoints := forM_eq_ok fun t ht =>
    requireEndpoints_of_mem (ha.endpoints_mem t ht).1 (ha.endpoints_mem t ht).2
  rw [Automaton.validate, requireInitial, hinitial]
  simp only [bind, Except.bind, requireState_of_mem (ha.initial_mem id hinitial), hfinals, hendpoints]

/-! ### Every edit keeps an automaton well-formed -/

theorem wellFormed_empty (kind : Kind) : (empty kind).WellFormed where
  nodup_ids := List.nodup_nil
  lt_nextId := fun _ h => nomatch h
  initial_mem := fun _ h => nomatch h
  finals_mem := fun _ h => nomatch h
  endpoints_mem := fun _ h => nomatch h
  nodup_transitions := List.nodup_nil
  kind_eq := fun _ h => nomatch h
  stack_eq := fun _ => rfl

theorem WellFormed.nextId_not_mem (ha : a.WellFormed) : a.nextId ∉ a.ids := fun hmem =>
  Nat.lt_irrefl _ (ha.lt_nextId _ hmem)

theorem ids_createLabeledState (label : Option String) (point : Point) :
    (a.createLabeledState label point).2.ids = a.ids ++ [a.nextId] := by
  simp [createLabeledState, ids]

theorem WellFormed.createLabeledState (ha : a.WellFormed) (label : Option String) (point : Point) :
    (a.createLabeledState label point).2.WellFormed := by
  have hids := ids_createLabeledState (a := a) label point
  have hkept : ∀ id ∈ a.ids, id ∈ (a.createLabeledState label point).2.ids := by
    intro id hid
    rw [hids]
    exact List.mem_append_left _ hid
  refine ⟨?_, ?_, ?_, ?_, ?_, ha.nodup_transitions, ha.kind_eq, ha.stack_eq⟩
  · rw [hids]
    exact List.nodup_append_comm.1 (List.nodup_cons.2 ⟨ha.nextId_not_mem, ha.nodup_ids⟩)
  · intro id hid
    rw [hids] at hid
    rcases List.mem_append.1 hid with hid | hid
    · exact Nat.lt_succ_of_lt (ha.lt_nextId id hid)
    · obtain rfl := List.mem_singleton.1 hid
      exact Nat.lt_succ_self _
  · exact fun id hid => hkept id (ha.initial_mem id hid)
  · exact fun id hid => hkept id (ha.finals_mem id hid)
  · exact fun t ht => ⟨hkept _ (ha.endpoints_mem t ht).1, hkept _ (ha.endpoints_mem t ht).2⟩

theorem WellFormed.setLabel (ha : a.WellFormed) {label : Option String}
    (h : a.setLabel id label = .ok b) : b.WellFormed := by
  obtain ⟨_, rfl⟩ := requireState_bind_eq_ok h
  have hids : (a.states.map fun s => if s.id = id then { s with label } else s).map (·.id) = a.ids := by
    rw [List.map_map]
    apply List.map_congr_left
    intro s _
    show (if s.id = id then { s with label } else s).id = s.id
    split <;> rfl
  refine ⟨?_, ?_, ?_, ?_, ?_, ha.nodup_transitions, ha.kind_eq, ha.stack_eq⟩ <;> rw [ids, hids]
  · exact ha.nodup_ids
  · exact ha.lt_nextId
  · exact ha.initial_mem
  · exact ha.finals_mem
  · exact ha.endpoints_mem

theorem removeState_eq_ok (h : a.removeState id = .ok (s, b)) : b = { a with
    states := a.states.filter fun s => s.id ≠ id
    transitions := a.transitions.filter fun t => !t.touches id
    finals := a.finals.erase id
    initial := if a.initial = some id then none else a.initial } := by
  rw [removeState] at h
  split at h
  · cases h
  · exact (congrArg (·.2) (Except.ok.inj h)).symm

theorem WellFormed.removeState (ha : a.WellFormed) (h : a.removeState id = .ok (s, b)) : b.WellFormed := by
  obtain rfl := removeState_eq_ok h
  -- only the removed state is gone
  have hmem : ∀ i, i ∈ (a.states.filter fun s => s.id ≠ id).map (·.id) ↔ i ∈ a.ids ∧ i ≠ id := by
    intro i
    simp only [ids, List.mem_map, List.mem_filter, decide_eq_true_eq]
    constructor
    · rintro ⟨s, ⟨hs, hne⟩, rfl⟩
      exact ⟨⟨s, hs, rfl⟩, hne⟩
    · rintro ⟨⟨s, hs, rfl⟩, hne⟩
      exact ⟨s, ⟨hs, hne⟩, rfl⟩
  refine ⟨?_, ?_, ?_, ?_, ?_, ha.nodup_transitions.filter _, ?_, ha.stack_eq⟩
  · exact ha.nodup_ids.sublist (List.filter_sublist.map _)
  · intro i hi
    exact ha.lt_nextId i ((hmem i).1 hi).1
  · intro i hi
    by_cases hinitial : a.initial = some id
    · rw [if_pos hinitial] at hi
      cases hi
    · rw [if_neg hinitial] at hi
      refine (hmem i).2 ⟨ha.initial_mem i hi, ?_⟩
      rintro rfl
      exact hinitial hi
  · intro i hi
    obtain ⟨hfinal, hne⟩ := Ascending.mem_erase.1 hi
    exact (hmem i).2 ⟨ha.finals_mem i hfinal, hne⟩
  · intro t ht
    obtain ⟨ht, htouches⟩ := List.mem_filter.1 ht
    obtain ⟨hsource, htarget⟩ := ha.endpoints_mem t ht
    simp only [Transition.touches, Bool.not_or, Bool.and_eq_true, Bool.not_eq_true', beq_eq_false_iff_ne]
      at htouches
    exact ⟨(hmem _).2 ⟨hsource, htouches.1⟩, (hmem _).2 ⟨htarget, htouches.2⟩⟩
  · intro t ht
    exact ha.kind_eq t (List.mem_filter.1 ht).1

theorem WellFormed.setInitial (ha : a.WellFormed) (h : a.setInitial id = .ok b) : b.WellFormed := by
  obtain ⟨hid, rfl⟩ := requireState_bind_eq_ok h
  refine { ha with initial_mem := ?_ }
  intro i hi
  obtain rfl := Option.some.inj hi
  exact hid

theorem WellFormed.clearInitial (ha : a.WellFormed) : a.clearInitial.WellFormed :=
  { ha with initial_mem := fun _ h => nomatch h }

theorem WellFormed.addFinal (ha : a.WellFormed) (h : a.addFinal id = .ok b) : b.WellFormed := by
  obtain ⟨hid, rfl⟩ := requireState_bind_eq_ok h
  refine { ha with finals_mem := ?_ }
  intro i hi
  rcases Ascending.mem_insert.1 hi with rfl | hi
  · exact hid
  · exact ha.finals_mem i hi

theorem WellFormed.removeFinal (ha : a.WellFormed) (h : a.removeFinal id = .ok b) : b.WellFormed := by
  obtain ⟨_, rfl⟩ := requireState_bind_eq_ok h
  exact { ha with finals_mem := fun i hi => ha.finals_mem i (Ascending.mem_erase.1 hi).1 }

theorem WellFormed.setInitialStack (ha : a.WellFormed) {contents : Word}
    (h : a.setInitialStack contents = .ok b) : b.WellFormed := by
  rw [Automaton.setInitialStack] at h
  by_cases hkind : a.kind = .pushdown
  · rw [if_pos hkind] at h
    obtain rfl := Except.ok.inj h
    exact { ha with stack_eq := fun hne => absurd hkind hne }
  · rw [if_neg hkind] at h
    cases h

theorem WellFormed.addTransition (ha : a.WellFormed) (h : a.addTransition t = .ok b) : b.WellFormed := by
  obtain ⟨hkind, hendpoints, rfl⟩ := addTransition_eq_ok h
  by_cases hmem : t ∈ a.transitions
  · rw [if_pos hmem]
    exact ha
  · rw [if_neg hmem]
    refine { ha with endpoints_mem := ?_, nodup_transitions := ?_, kind_eq := ?_ }
    · intro t' ht'
      rcases List.mem_append.1 ht' with ht' | ht'
      · exact ha.endpoints_mem t' ht'
      · obtain rfl := List.mem_singleton.1 ht'
        exact hendpoints
    · exact List.nodup_append_comm.1 (List.nodup_cons.2 ⟨hmem, ha.nodup_transitions⟩)
    · intro t' ht'
      rcases List.mem_append.1 ht' with ht' | ht'
      · exact ha.kind_eq t' ht'
      · obtain rfl := List.mem_singleton.1 ht'
        exact hkind

/-- Transitions that fit are added, each of them once, and nothing else changes. -/
theorem WellFormed.exists_addTransitions (ha : a.WellFormed) {ts : List Transition}
    (hts : ∀ t ∈ ts, t.kind = a.kind ∧ t.source ∈ a.ids ∧ t.target ∈ a.ids) :
    ∃ us, a.addTransitions ts = .ok { a with transitions := us } ∧
      ({ a with transitions := us } : Automaton).WellFormed ∧ ∀ t, t ∈ us ↔ t ∈ a.transitions ∨ t ∈ ts := by
  induction ts generalizing a with
  | nil => exact ⟨a.transitions, rfl, ha, fun t => by rw [or_iff_left List.not_mem_nil]⟩
  | cons t ts ih =>
      obtain ⟨⟨hkind, hsource, htarget⟩, hts'⟩ := List.forall_mem_cons.1 hts
      have hadd := addTransition_of_mem hkind hsource htarget
      have ha' := ha.addTransition hadd
      rw [addTransitions, List.foldlM_cons, hadd]
      by_cases hmem : t ∈ a.transitions
      · rw [if_pos hmem] at ha' ⊢
        obtain ⟨us, hok, hwellFormed, hus⟩ := ih ha' hts'
        refine ⟨us, hok, hwellFormed, fun u => ?_⟩
        rw [hus, List.mem_cons]
        exact ⟨Or.imp_right Or.inr, fun h => h.elim Or.inl (Or.imp_left fun hu => hu ▸ hmem)⟩
      · rw [if_neg hmem] at ha' ⊢
        obtain ⟨us, hok, hwellFormed, hus⟩ := ih ha' hts'
        refine ⟨us, hok, hwellFormed, fun u => ?_⟩
        rw [hus, List.mem_append, List.mem_singleton, List.mem_cons, or_assoc]

theorem WellFormed.removeTransition (ha : a.WellFormed) (t : Transition) :
    (a.removeTransition t).2.WellFormed :=
  { ha with
    endpoints_mem := fun t' ht' => ha.endpoints_mem t' (List.mem_filter.1 ht').1
    nodup_transitions := ha.nodup_transitions.filter _
    kind_eq := fun t' ht' => ha.kind_eq t' (List.mem_filter.1 ht').1 }

/-! ### Sequences of edits -/

inductive Edit
  | createState (label : Option String) (point : Point)
  | setLabel (id : StateId) (label : Option String)
  | removeState (id : StateId)
  | setInitial (id : StateId)
  | clearInitial
  | addFinal (id : StateId)
  | removeFinal (id : StateId)
  | setInitialStack (contents : Word)
  | addTransition (t : Transition)
  | removeTransition (t : Transition)

def edit (a : Automaton) : Edit → Except Error Automaton
  | .createState label point => .ok (a.createLabeledState label point).2
  | .setLabel id label => a.setLabel id label
  | .removeState id => (a.removeState id).map (·.2)
  | .setInitial id => a.setInitial id
  | .clearInitial => .ok a.clearInitial
  | .addFinal id => a.addFinal id
  | .removeFinal id => a.removeFinal id
  | .setInitialStack contents => a.setInitialStack contents
  | .addTransition t => a.addTransition t
  | .removeTransition t => .ok (a.removeTransition t).2

/-- The automaton after an edit, be it refused or not. -/
def attempt (a : Automaton) (e : Edit) : Automaton := (a.edit e).toOption.getD a

theorem WellFormed.edit (ha : a.WellFormed) {e : Edit} (h : a.edit e = .ok b) : b.WellFormed := by
  cases e with
  | createState label point =>
      obtain rfl := Except.ok.inj h
      exact ha.createLabeledState label point
  | setLabel id label => exact ha.setLabel h
  | removeState id =>
      cases hremoved : a.removeState id with
      | error e =>
          rw [Automaton.edit, hremoved] at h
          cases h
      | ok removed =>
          rw [Automaton.edit, hremoved] at h
          obtain rfl := Except.ok.inj h
          exact ha.removeState hremoved
  | setInitial id => exact ha.setInitial h
  | clearInitial =>
      obtain rfl := Except.ok.inj h
      exact ha.clearInitial
  | addFinal id => exact ha.addFinal h
  | removeFinal id => exact ha.removeFinal h
  | setInitialStack contents => exact ha.setInitialStack h
  | addTransition t => exact ha.addTransition h
  | removeTransition t =>
      obtain rfl := Except.ok.inj h
      exact ha.removeTransition t

theorem WellFormed.attempt (ha : a.WellFormed) (e : Edit) : (a.attempt e).WellFormed := by
  rw [Automaton.attempt]
  cases h : a.edit e with
  | error e => exact ha
  | ok b => exact ha.edit h

theorem WellFormed.attempts (ha : a.WellFormed) (edits : List Edit) :
    (edits.foldl Automaton.attempt a).WellFormed := by
  induction edits generalizing a with
  | nil => exact ha
  | cons e edits ih => exact ih (ha.attempt e)

/-- Automata that are made by edits are well-formed, whichever of the edits were refused. -/
theorem wellFormed_attempts (kind : Kind) (edits : List Edit) :
    (edits.foldl attempt (empty kind)).WellFormed :=
  (wellFormed_empty kind).attempts edits

end LanguageTheory.Automaton
