import LanguageTheory.Automaton.Calls
import LanguageTheory.Proofs.Automaton.Edits

/-! Calls that change an automaton in place come to the same as the edits. A call that fails has changed
nothing, since whatever can go wrong is looked at before the first change; one that goes through has made the
whole of an edit. So after any calls the automaton is well-formed, and the states have got the ids from zero
on, in order. -/

namespace LanguageTheory.Automaton

variable {a b : Automaton} {e : Error} {c : Call} {calls : List Call}

/-! ### Single steps of a computation -/

section Run

variable {α β : Type} {y : α} {z : EStateM.Result Error Automaton β} {m : Editing α} {f : α → Editing β}

theorem bind_of_ok (h : m a = .ok y b) (hf : f y b = z) : (m >>= f) a = z := by
  show EStateM.bind m f a = z
  rw [EStateM.bind, h]
  exact hf

theorem bind_of_error (h : m a = .error e b) : (m >>= f) a = .error e b := by
  show EStateM.bind m f a = .error e b
  rw [EStateM.bind, h]

end Run

theorem require_of_ok {check : Automaton → Except Error Unit} (h : check a = .ok ()) :
    Editing.require check a = .ok () a := by
  apply bind_of_ok (y := a) rfl
  rw [h]
  rfl

theorem require_of_error {check : Automaton → Except Error Unit} (h : check a = .error e) :
    Editing.require check a = .error e a := by
  apply bind_of_ok (y := a) rfl
  rw [h]
  rfl

/-! ### Calls and edits -/

/-- The edit that a call makes. -/
def Call.edit : Call → Edit
  | createState point => .createState none point
  | addState => .createState none .origin
  | addLabeledState label => .createState (some label) .origin
  | setLabel id label => .setLabel id label
  | removeState id => .removeState id
  | setInitial id => .setInitial id
  | clearInitial => .clearInitial
  | addFinal id => .addFinal id
  | removeFinal id => .removeFinal id
  | setInitialStack contents => .setInitialStack contents
  | addTransition t => .addTransition t
  | removeTransition t => .removeTransition t

/-- The outcome of a call beside that of an edit: both go through and leave the same automaton, or both are
refused for the same reason, and the automaton `a` is left as it was. No id is given out, and the kind stays. -/
inductive Agrees (a : Automaton) : EStateM.Result Error Automaton Answer → Except Error Automaton → Prop
  | changed {x : Answer} {b : Automaton} : x.created? = none → b.nextId = a.nextId → b.kind = a.kind →
      Agrees a (.ok x b) (.ok b)
  | refused {e : Error} : Agrees a (.error e a) (.error e)

/-- A change after a check is made in place as it is made in an edit. -/
theorem agrees_of_check (check : Automaton → Except Error Unit) (change : Automaton → Automaton)
    (hnext : (change a).nextId = a.nextId) (hkind : (change a).kind = a.kind) :
    Agrees a (((do Editing.require check; modify change : Editing Unit) >>= fun _ => pure Answer.nothing) a)
      ((check a).bind fun _ => .ok (change a)) := by
  cases hcheck : check a with
  | ok =>
      have hrun : (do Editing.require check; modify change : Editing Unit) a = .ok () (change a) :=
        bind_of_ok (require_of_ok hcheck) rfl
      rw [bind_of_ok hrun rfl]
      exact .changed rfl hnext hkind
  | error e =>
      rw [bind_of_error (bind_of_error (require_of_error hcheck))]
      exact .refused

theorem agrees_removeState (id : StateId) : Agrees a (perform (.removeState id) a) (a.edit (.removeState id)) := by
  rw [edit, removeState]
  cases hs : a.state? id with
  | none =>
      have hremove : Editing.removeState id a = .error (.automaton (.unknownState id)) a := by
        apply bind_of_ok (y := a) rfl
        rw [hs]
        rfl
      rw [perform, bind_of_error hremove]
      exact .refused
  | some s =>
      have hremove : Editing.removeState id a = .ok s
          { a with
            states := a.states.filter fun s => s.id ≠ id
            transitions := a.transitions.filter fun t => !t.touches id
            finals := a.finals.erase id
            initial := if a.initial = some id then none else a.initial } := by
        apply bind_of_ok (y := a) rfl
        rw [hs]
        apply bind_of_ok rfl
        apply bind_of_ok rfl
        apply bind_of_ok rfl
        apply bind_of_ok rfl
        by_cases hinitial : a.initial = some id
        · rw [if_pos hinitial, if_pos hinitial]
          rfl
        · rw [if_neg hinitial, if_neg hinitial]
          rfl
      rw [perform, bind_of_ok hremove rfl]
      exact .changed rfl rfl rfl

theorem agrees_setInitialStack (contents : Word) :
    Agrees a (perform (.setInitialStack contents) a) (a.edit (.setInitialStack contents)) := by
  rw [edit, setInitialStack]
  by_cases hkind : a.kind = .pushdown
  · have hset : Editing.setInitialStack contents a = .ok () { a with initialStack := contents } := by
      apply bind_of_ok (y := a) rfl
      rw [if_neg (not_not.2 hkind)]
      rfl
    rw [if_pos hkind, perform, bind_of_ok hset rfl]
    exact .changed rfl rfl rfl
  · have hset : Editing.setInitialStack contents a = .error (.automaton (.unsupported .initialStack a.kind)) a := by
      apply bind_of_ok (y := a) rfl
      rw [if_pos hkind]
      rfl
    rw [if_neg hkind, perform, bind_of_error hset]
    exact .refused

theorem agrees_addTransition (t : Transition) :
    Agrees a (perform (.addTransition t) a) (a.edit (.addTransition t)) := by
  rw [edit, addTransition, perform]
  by_cases hkind : t.kind = a.kind
  · rw [if_neg (not_not.2 hkind)]
    cases hrequired : a.requireEndpoints t with
    | error e =>
        have hadd : Editing.addTransition t a = .error e a := by
          apply bind_of_ok (y := a) rfl
          rw [if_neg (not_not.2 hkind)]
          exact bind_of_error (require_of_error hrequired)
        rw [bind_of_error hadd]
        exact .refused
    | ok =>
        have hadd : Editing.addTransition t a =
            .ok () (if t ∈ a.transitions then a else { a with transitions := a.transitions ++ [t] }) := by
          apply bind_of_ok (y := a) rfl
          rw [if_neg (not_not.2 hkind)]
          apply bind_of_ok (require_of_ok hrequired)
          apply bind_of_ok (y := a) rfl
          by_cases hmem : t ∈ a.transitions
          · rw [if_pos hmem, if_pos hmem]
            rfl
          · rw [if_neg hmem, if_neg hmem]
            rfl
        rw [bind_of_ok hadd rfl]
        exact .changed rfl (by split <;> rfl) (by split <;> rfl)
  · have hadd : Editing.addTransition t a = .error (.automaton (.kindMismatch a.kind t.kind)) a := by
      apply bind_of_ok (y := a) rfl
      rw [if_pos hkind]
      rfl
    rw [if_pos hkind, bind_of_error hadd]
    exact .refused

/-- A call that makes no state does what the edit does. -/
theorem perform_agrees (hc : c.creates = false) : Agrees a (perform c a) (a.edit c.edit) := by
  cases c with
  | createState => cases hc
  | addState => cases hc
  | addLabeledState => cases hc
  | setLabel id label => exact agrees_of_check _ _ rfl rfl
  | removeState id => exact agrees_removeState id
  | setInitial id => exact agrees_of_check _ _ rfl rfl
  | clearInitial => exact .changed rfl rfl rfl
  | addFinal id => exact agrees_of_check _ _ rfl rfl
  | removeFinal id => exact agrees_of_check _ _ rfl rfl
  | setInitialStack contents => exact agrees_setInitialStack contents
  | addTransition t => exact agrees_addTransition t
  | removeTransition t => exact .changed rfl rfl rfl

/-! ### New states -/

theorem put_of_fresh {s : State} {states : List State} (h : s.id ∉ states.map (·.id)) :
    put s states = states ++ [s] := by
  refine if_neg fun hany => h ?_
  obtain ⟨old, hold, hid⟩ := List.any_eq_true.1 hany
  exact List.mem_map.2 ⟨old, hold, beq_iff_eq.1 hid⟩

theorem relabeled_append_fresh {s : State} {states : List State} (h : s.id ∉ states.map (·.id))
    (label : Option String) : relabeled s.id label (states ++ [s]) = states ++ [{ s with label }] := by
  have hold : relabeled s.id label states = states := by
    refine (List.map_congr_left fun old hmem => ?_).trans (List.map_id _)
    exact if_neg fun hid : old.id = s.id => h (hid ▸ List.mem_map_of_mem hmem)
  rw [relabeled, List.map_append, List.map_singleton, if_pos rfl, ← relabeled, hold]

theorem WellFormed.createState_eq (ha : a.WellFormed) (hroom : a.nextId + 1 < UInt32.size) (point : Point) :
    Editing.createState point a = .ok a.nextId (a.createLabeledState none point).2 := by
  have hput : put ⟨a.nextId, none, point⟩ a.states = _ := put_of_fresh ha.nextId_not_mem
  have hnext : (a.nextId + 1) % UInt32.size = a.nextId + 1 := Nat.mod_eq_of_lt hroom
  rw [Automaton.createLabeledState, ← hput, ← hnext]
  rfl

theorem WellFormed.addLabeledState_eq (ha : a.WellFormed) (hroom : a.nextId + 1 < UInt32.size) (label : String) :
    Editing.addLabeledState label a = .ok a.nextId (a.createLabeledState (some label) .origin).2 := by
  have hrelabeled := relabeled_append_fresh (s := ⟨a.nextId, none, .origin⟩) ha.nextId_not_mem (some label)
  apply bind_of_ok (ha.createState_eq hroom .origin)
  rw [Automaton.createLabeledState, Automaton.createLabeledState, ← hrelabeled]
  rfl

/-- A call that makes a state goes through, makes the edit, and gives out the next id. -/
theorem WellFormed.perform_creates (ha : a.WellFormed) (hroom : a.nextId + 1 < UInt32.size) (hc : c.creates = true) :
    ∃ label point, perform c a = .ok (.created a.nextId) (a.createLabeledState label point).2 := by
  cases c with
  | createState point => exact ⟨_, _, bind_of_ok (ha.createState_eq hroom point) rfl⟩
  | addState => exact ⟨_, _, bind_of_ok (ha.createState_eq hroom .origin) rfl⟩
  | addLabeledState label => exact ⟨_, _, bind_of_ok (ha.addLabeledState_eq hroom label) rfl⟩
  | _ => cases hc

/-- A call that fails has changed nothing. -/
theorem eq_of_perform_eq_error (h : perform c a = .error e b) : b = a := by
  cases hc : c.creates with
  | false =>
      have hagrees := perform_agrees (a := a) hc
      rw [h] at hagrees
      generalize a.edit c.edit = edited at hagrees
      cases hagrees
      rfl
  | true =>
      cases c with
      | createState point => cases h
      | addState => cases h
      | addLabeledState label => cases h
      | _ => cases hc

/-! ### Sequences of calls -/

theorem WellFormed.performAll (ha : a.WellFormed) (h : a.nextId + calls.countP Call.creates < UInt32.size) :
    (performAll calls a).2.WellFormed ∧ (performAll calls a).2.kind = a.kind ∧
      handedOut (performAll calls a).1 = List.range' a.nextId (calls.countP Call.creates) := by
  induction calls generalizing a with
  | nil => exact ⟨ha, rfl, rfl⟩
  | cons c calls ih =>
      cases hc : c.creates with
      | true =>
          -- There is room for this state, so the id after its own does not start over.
          rw [List.countP_cons_of_pos hc] at h ⊢
          have hroom : a.nextId + 1 < UInt32.size :=
            Nat.lt_of_le_of_lt (Nat.add_le_add_left (Nat.le_add_left 1 _) _) h
          obtain ⟨label, point, hperform⟩ := ha.perform_creates hroom hc
          have hnext : a.nextId + 1 + calls.countP Call.creates < UInt32.size := by
            rwa [Nat.add_right_comm]
          obtain ⟨hrest, hkind, hids⟩ := ih (ha.createLabeledState label point) hnext
          rw [Automaton.performAll, hperform, List.range'_succ]
          exact ⟨hrest, hkind, congrArg (a.nextId :: ·) hids⟩
      | false =>
          rw [List.countP_cons_of_neg (by rw [hc]; exact Bool.false_ne_true)] at h ⊢
          have hagrees := perform_agrees (a := a) hc
          rw [Automaton.performAll]
          cases hperform : perform c a with
          | error e b =>
              -- The calls that follow find the automaton as it was.
              obtain rfl := eq_of_perform_eq_error hperform
              exact ih ha h
          | ok x b =>
              rw [hperform] at hagrees
              generalize hedit : a.edit c.edit = edited at hagrees
              cases hagrees with
              | changed hcreated hnext hkind =>
                  obtain ⟨hrest, hkinds, hids⟩ := ih (ha.edit hedit) (by rwa [hnext])
                  rw [hnext] at hids
                  have hnone : handedOut (.ok x :: (performAll calls b).1) = handedOut (performAll calls b).1 :=
                    List.filterMap_cons_none hcreated
                  exact ⟨hrest, hkinds.trans hkind, hnone.trans hids⟩

/-- After any calls on a new automaton, failing or not, the automaton is well-formed and of the same kind, no id
has been given out twice, only a missing initial state can be wrong with it, and a call that fails leaves it as
it is. Ids have 32 bits, which is room for fewer than `2 ^ 32` new states. -/
theorem wellFormed_performAll (kind : Kind) (calls : List Call) (h : calls.countP Call.creates < UInt32.size) :
    let a := (performAll calls (empty kind)).2
    a.WellFormed ∧ a.kind = kind ∧ (handedOut (performAll calls (empty kind)).1).Nodup ∧
      (a.validate = match a.initial with
        | none => .error (.automaton .missingInitialState)
        | some _ => .ok ()) ∧
      ∀ c e b, perform c a = .error e b → b = a := by
  intro a
  have hroom : (empty kind).nextId + calls.countP Call.creates < UInt32.size := by rwa [empty, Nat.zero_add]
  obtain ⟨ha, hkind, hids⟩ := (wellFormed_empty kind).performAll hroom
  refine ⟨ha, hkind, ?_, ?_, fun c e b => eq_of_perform_eq_error⟩
  · rw [hids]
    exact List.nodup_range'
  · cases hinitial : a.initial with
    | none =>
        rw [validate, requireInitial, hinitial]
        rfl
    | some s => exact ha.validate hinitial

/-- Makes three states and removes one of them that is initial and touches a transition. What names the removed
state afterwards is refused. -/
def rearranging : List Call :=
  [.addState, .addLabeledState "p", .setInitialStack ['$'], .addTransition ⟨0, 1, .pushdown ['a'] [] ['x']⟩,
    .setInitial 0, .addFinal 1, .removeState 0, .setInitial 0, .createState .origin,
    .addTransition ⟨1, 0, .pushdown [] [] []⟩, .addTransition ⟨1, 2, .finite ['a']⟩]

theorem wellFormed_performAll_rearranging : rearranging.countP Call.creates < UInt32.size ∧
    handedOut (performAll rearranging (empty .pushdown)).1 = [0, 1, 2] ∧
    (performAll rearranging (empty .pushdown)).2.WellFormed ∧
    (performAll rearranging (empty .pushdown)).2.ids = [1, 2] ∧
    (performAll rearranging (empty .pushdown)).2.validate = .error (.automaton .missingInitialState) := by
  have hroom : rearranging.countP Call.creates < UInt32.size := by decide
  obtain ⟨hwellFormed, _, _, hvalidate, _⟩ := wellFormed_performAll .pushdown rearranging hroom
  exact ⟨hroom, rfl, hwellFormed, rfl, hvalidate⟩

end LanguageTheory.Automaton
