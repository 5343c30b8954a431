import LanguageTheory.Proofs.Machine.Search

/-! A search goes through its expansions in one order. A move of it tests the frontier, expands the
first configuration that waits, or makes the next generation the frontier; which of them it is does not
depend on the bound, which only decides where the calls stop. A call makes moves as long as the bound
lets it, so a search that was stopped and resumed is where a search with the last bound would be. -/

namespace LanguageTheory

/-- The machine with another bound for its searches. -/
def Simulator.withBound (m : Simulator) (bound : Nat) : Simulator :=
  { m with config := { m.config with bound } }

namespace Search

variable {m : Simulator} {input : Word} {s s' : Search} {e : Error} {o : Outcome} {b b' n n' : Nat}

/-! ### Moves -/

/-- One move of a search, whatever its bound. A decided search stays as it is. -/
def tick (s : Search) : Search :=
  match s.outcome, s.checked, s.waiting with
  | some _, _, _ => s
  | none, false, _ => { s with checked := true, outcome := s.verdict? }
  | none, true, id :: rest => { s with waiting := rest }.expand id
  | none, true, [] => { s.turn with generation := s.generation + 1 }

/-- The bound does not allow the expansion that comes next. -/
structure Stopped (b : Nat) (s : Search) : Prop where
  outcome_eq : s.outcome = none
  checked_eq : s.checked = true
  waiting_ne : s.waiting ≠ []
  lt_generated : b < s.generated

theorem Stopped.mono (h : Stopped b' s) (hle : b ≤ b') : Stopped b s where
  outcome_eq := h.outcome_eq
  checked_eq := h.checked_eq
  waiting_ne := h.waiting_ne
  lt_generated := hle.trans_lt h.lt_generated

theorem tick_of_outcome (h : s.outcome = some o) : s.tick = s := by
  rw [tick, h]

theorem tick_of_unchecked (houtcome : s.outcome = none) (hchecked : s.checked = false) :
    s.tick = { s with checked := true, outcome := s.verdict? } := by
  rw [tick, houtcome, hchecked]

theorem tick_of_waiting {id : Nat} {rest : List Nat} (houtcome : s.outcome = none)
    (hchecked : s.checked = true) (hwaiting : s.waiting = id :: rest) :
    s.tick = { s with waiting := rest }.expand id := by
  rw [tick, houtcome, hchecked, hwaiting]

theorem tick_of_expanded (houtcome : s.outcome = none) (hchecked : s.checked = true)
    (hwaiting : s.waiting = []) : s.tick = { s.turn with generation := s.generation + 1 } := by
  rw [tick, houtcome, hchecked, hwaiting]

theorem iterate_tick_of_outcome (h : s.outcome = some o) (n : Nat) : tick^[n] s = s :=
  Function.iterate_fixed (tick_of_outcome h) n

/-- Once some number of moves has led to a decision, more moves lead to nothing else. -/
theorem iterate_tick_eq (h : (tick^[n] s).outcome = some o) (hle : n ≤ n') : tick^[n'] s = tick^[n] s := by
  obtain ⟨k, rfl⟩ := Nat.exists_eq_add_of_le' hle
  rw [Function.iterate_add_apply]
  exact iterate_tick_of_outcome h k

/-! ### What expanding does not look at -/

/-- What changes only parts that adding configurations does not look at may be changed after an expansion
as well. -/
theorem expand_hom {f : Search → Search} (henter : ∀ parent s c, f (enter parent s c) = enter parent (f s) c)
    (hconfiguration : ∀ s, (f s).configuration? = s.configuration?)
    (hstep : ∀ s, (f s).machine.step = s.machine.step) (s : Search) (id : Nat) :
    (f s).expand id = f (s.expand id) := by
  unfold expand
  rw [hconfiguration]
  cases s.configuration? id with
  | none => rfl
  | some c =>
      simp only [hstep]
      exact List.foldl_hom f fun s d => (henter (some id) s d).symm

theorem expand_waiting (s : Search) (w : List Nat) (id : Nat) :
    { s with waiting := w }.expand id = { s.expand id with waiting := w } := by
  refine expand_hom (f := fun s : Search => { s with waiting := w }) ?_ (fun _ => rfl) (fun _ => rfl) s id
  intro parent s c
  unfold enter
  split <;> rfl

theorem expandAll_waiting (s : Search) (w ids : List Nat) :
    { s with waiting := w }.expandAll ids = s.expandAll ids := by
  induction ids generalizing s with
  | nil => rfl
  | cons id rest ih =>
      rw [expandAll, expandAll, expand_waiting, ih]
      rfl

/-- A search without anything that says how far it may go. -/
def unbounded (s : Search) : Search := { s with machine := s.machine.withBound 0, bound := 0 }

theorem unbounded_enter (parent : Option Nat) (s : Search) (c : Configuration) :
    (enter parent s c).unbounded = enter parent s.unbounded c := by
  rw [enter, apply_ite unbounded]
  rfl

theorem unbounded_tick (s : Search) : s.tick.unbounded = s.unbounded.tick := by
  show _ = match s.outcome, s.checked, s.waiting with
    | some _, _, _ => _
    | none, false, _ => _
    | none, true, _ :: _ => _
    | none, true, [] => _
  unfold tick
  split
  · rfl
  · rfl
  · exact (expand_hom unbounded_enter (fun _ => rfl) (fun _ => rfl) _ _).symm
  · rfl

theorem unbounded_iterate_tick (n : Nat) (s : Search) : (tick^[n] s).unbounded = tick^[n] s.unbounded := by
  induction n generalizing s with
  | zero => rfl
  | succ n ih => rw [Function.iterate_succ_apply, Function.iterate_succ_apply, ih, unbounded_tick]

/-- An expansion leaves everything alone but what has been produced. -/
theorem expand_frame (s : Search) (id : Nat) :
    { s.expand id with arena := s.arena, seen := s.seen, next := s.next } = s := by
  have henter : ∀ (parent : Option Nat) (t : Search) (c : Configuration),
      { enter parent t c with arena := s.arena, seen := s.seen, next := s.next } =
        { t with arena := s.arena, seen := s.seen, next := s.next } := by
    intro parent t c
    unfold enter
    split <;> rfl
  unfold expand
  cases s.configuration? id with
  | none => rfl
  | some c =>
      have hfoldl : ∀ (cs : List Configuration) (t : Search),
          { cs.foldl (enter (some id)) t with arena := s.arena, seen := s.seen, next := s.next } =
            { t with arena := s.arena, seen := s.seen, next := s.next } := by
        intro cs
        induction cs with
        | nil => intro t; rfl
        | cons c cs ih => intro t; exact (ih _).trans (henter (some id) t c)
      exact hfoldl _ s

theorem bound_tick (s : Search) : s.tick.bound = s.bound := by
  unfold tick
  split
  · rfl
  · rfl
  · next rest _ _ _ => exact congrArg (·.bound) (expand_frame { s with waiting := rest } _)
  · rfl

theorem bound_iterate_tick (n : Nat) (s : Search) : (tick^[n] s).bound = s.bound := by
  induction n generalizing s with
  | zero => rfl
  | succ n ih => rw [Function.iterate_succ_apply, ih, bound_tick]

/-! ### Calls make moves -/

/-- Some moves, each of which the bound allows. -/
def Moved (s s' : Search) : Prop :=
  s'.bound = s.bound ∧ ∃ n, s' = tick^[n] s ∧ ∀ k < n, ¬Stopped s.bound (tick^[k] s)

theorem Moved.refl (s : Search) : Moved s s := ⟨rfl, 0, rfl, fun _ hk => (Nat.not_lt_zero _ hk).elim⟩

theorem Moved.tick (hs : ¬Stopped s.bound s) : Moved s s.tick := by
  refine ⟨bound_tick s, 1, rfl, fun k hk => ?_⟩
  obtain rfl : k = 0 := Nat.lt_one_iff.1 hk
  exact hs

theorem Moved.trans {s'' : Search} (h : Moved s s') (h' : Moved s' s'') : Moved s s'' := by
  obtain ⟨hbound, n, rfl, hn⟩ := h
  obtain ⟨hbound', n', rfl, hn'⟩ := h'
  rw [hbound] at hbound' hn'
  refine ⟨hbound', n' + n, (Function.iterate_add_apply _ _ _ _).symm, fun k hk => ?_⟩
  rcases Nat.lt_or_ge k n with hlt | hge
  · exact hn k hlt
  · obtain ⟨j, rfl⟩ := Nat.exists_eq_add_of_le' hge
    rw [Function.iterate_add_apply]
    exact hn' j (Nat.add_lt_add_iff_right.1 hk)

/-- Expanding what waits is a series of moves. It ends with nothing left that waits, or where the bound
stops the search. -/
theorem moved_expandAll (houtcome : s.outcome = none) (hchecked : s.checked = true) :
    ∃ s', Moved s s' ∧ s'.outcome = none ∧ s'.checked = true ∧
      (s.expandAll s.waiting = (.ok (), s') ∧ s'.waiting = [] ∨
        s.expandAll s.waiting = (.error (.searchBound s'.generated s'.bound), s') ∧ Stopped s'.bound s') := by
  generalize hids : s.waiting = ids
  induction ids generalizing s with
  | nil =>
      refine ⟨s, .refl s, houtcome, hchecked, Or.inl ⟨?_, hids⟩⟩
      rw [expandAll, ← hids]
  | cons id rest ih =>
      by_cases hbound : s.generated > s.bound
      · have hne : s.waiting ≠ [] := by
          rw [hids]
          exact List.cons_ne_nil _ _
        refine ⟨s, .refl s, houtcome, hchecked, Or.inr ⟨?_, houtcome, hchecked, hne, hbound⟩⟩
        rw [expandAll, if_pos hbound, ← hids]
      · have htick := tick_of_waiting houtcome hchecked hids
        have hframe := expand_frame { s with waiting := rest } id
        rw [← htick] at hframe
        obtain ⟨s', hmoved, hs'⟩ := ih (s := s.tick) ((congrArg (·.outcome) hframe).trans houtcome)
          ((congrArg (·.checked) hframe).trans hchecked) (congrArg (·.waiting) hframe)
        refine ⟨s', (Moved.tick fun h => hbound h.lt_generated).trans hmoved, ?_⟩
        rw [expandAll, if_neg hbound]
        rwa [htick, expand_waiting, expandAll_waiting] at hs'

/-- A generation is a series of moves, which ends in an error just where the bound stops the search. -/
theorem moved_stepGeneration_of_checked (houtcome : s.outcome = none) (hchecked : s.checked = true) :
    Moved s s.stepGeneration.2 ∧ ∀ e, s.stepGeneration.1 = .error e → Stopped s.bound s.stepGeneration.2 := by
  have hverdict : (if s.checked then none else s.verdict?) = none := by rw [hchecked, if_pos rfl]
  have hself : { s with checked := true } = s := by rw [← hchecked]
  obtain ⟨s', hmoved, houtcome', hchecked', ⟨heq, hnil⟩ | ⟨heq, hstopped⟩⟩ := moved_expandAll houtcome hchecked
  · rw [← hself] at heq
    rw [stepGeneration_of_ok houtcome hverdict heq, ← tick_of_expanded houtcome' hchecked' hnil]
    exact ⟨hmoved.trans (.tick fun h => h.waiting_ne hnil), fun e he => nomatch he⟩
  · rw [← hself] at heq
    rw [stepGeneration_of_error houtcome hverdict heq]
    exact ⟨hmoved, fun e _ => hmoved.1 ▸ hstopped⟩

theorem stepGeneration_of_unchecked (houtcome : s.outcome = none) (hchecked : s.checked = false)
    (hverdict : s.verdict? = none) : s.stepGeneration = s.tick.stepGeneration := by
  rw [tick_of_unchecked houtcome hchecked, stepGeneration, stepGeneration, houtcome, hchecked, hverdict]
  rfl

theorem moved_stepGeneration (s : Search) :
    Moved s s.stepGeneration.2 ∧ ∀ e, s.stepGeneration.1 = .error e → Stopped s.bound s.stepGeneration.2 := by
  cases houtcome : s.outcome with
  | some o =>
      rw [stepGeneration_of_outcome houtcome]
      exact ⟨.refl s, fun e he => nomatch he⟩
  | none =>
      cases hchecked : s.checked with
      | true => exact moved_stepGeneration_of_checked houtcome hchecked
      | false =>
          have hmoved : Moved s s.tick := .tick fun h => by cases hchecked.symm.trans h.checked_eq
          have htick := tick_of_unchecked houtcome hchecked
          cases hverdict : s.verdict? with
          | some o =>
              have hif : (if s.checked then none else s.verdict?) = some o := by rw [hchecked, hverdict]; rfl
              rw [hverdict] at htick
              rw [stepGeneration_of_verdict houtcome hif, ← htick]
              exact ⟨hmoved, fun e he => nomatch he⟩
          | none =>
              rw [stepGeneration_of_unchecked houtcome hchecked hverdict]
              obtain ⟨hmoved', herror⟩ := moved_stepGeneration_of_checked (s := s.tick)
                (by rw [htick, hverdict]) (by rw [htick])
              exact ⟨hmoved.trans hmoved', fun e he => hmoved.1 ▸ herror e he⟩

theorem moved_runFor (limit : Nat) (s : Search) : Moved s (s.runFor limit).2 := by
  induction limit generalizing s with
  | zero => exact .refl s
  | succ limit ih =>
      have hstep := (moved_stepGeneration s).1
      unfold runFor
      split
      next e s' heq =>
        rw [heq] at hstep
        exact hstep
      next o s' heq =>
        rw [heq] at hstep
        exact hstep
      next s' heq =>
        rw [heq] at hstep
        exact hstep.trans (ih s')

/-! ### Calls on a search that has stopped or is decided -/

theorem expandAll_of_stopped (h : Stopped s.bound s) :
    s.expandAll s.waiting = (.error (.searchBound s.generated s.bound), s) := by
  obtain ⟨id, rest, hwaiting⟩ := List.exists_cons_of_ne_nil h.waiting_ne
  rw [hwaiting, expandAll, if_pos h.lt_generated, ← hwaiting]

/-- A search that has stopped stays as it is and says the same again. -/
theorem stepGeneration_of_stopped (h : Stopped s.bound s) :
    s.stepGeneration = (.error (.searchBound s.generated s.bound), s) := by
  have hverdict : (if s.checked then none else s.verdict?) = none := by rw [h.checked_eq, if_pos rfl]
  have hself : { s with checked := true } = s := by rw [← h.checked_eq]
  have heq := expandAll_of_stopped h
  rw [← hself] at heq
  exact stepGeneration_of_error h.outcome_eq hverdict (by simpa [hself] using heq)

theorem run_of_stopped (h : Stopped s.bound s) : s.run = (.error (.searchBound s.generated s.bound), s) := by
  rw [run, runFor, stepGeneration_of_stopped h]

theorem run_of_outcome (h : s.outcome = some o) : s.run = (.ok o, s) := by
  rw [run, runFor, stepGeneration_of_outcome h]

/-! ### The order of the moves -/

/-- Where a search is after a number of moves, whatever its bound. -/
def point (m : Simulator) (input : Word) (n : Nat) : Search := tick^[n] (start (m.withBound 0) input)

theorem unbounded_start (m : Simulator) (input : Word) : (start m input).unbounded = point m input 0 := by
  have hfoldl : (loaded m input).unbounded = loaded (m.withBound 0) input :=
    (List.foldl_hom unbounded fun s c => (unbounded_enter none s c).symm).symm
  exact congrArg turn hfoldl

/-- The search is at the given point of the order of moves, and its bound has allowed all moves up to
there. -/
structure At (m : Simulator) (input : Word) (s : Search) (n : Nat) : Prop where
  unbounded_eq : s.unbounded = point m input n
  allowed : ∀ k < n, ¬Stopped s.bound (point m input k)

theorem stopped_unbounded_iff : Stopped b s.unbounded ↔ Stopped b s :=
  ⟨fun h => ⟨h.outcome_eq, h.checked_eq, h.waiting_ne, h.lt_generated⟩,
    fun h => ⟨h.outcome_eq, h.checked_eq, h.waiting_ne, h.lt_generated⟩⟩

theorem at_start (m : Simulator) (input : Word) (bound : Nat) :
    At m input (start (m.withBound bound) input) 0 :=
  ⟨unbounded_start (m.withBound bound) input, fun _ hk => (Nat.not_lt_zero _ hk).elim⟩

theorem At.moved (h : At m input s n) (hmoved : Moved s s') : ∃ n', At m input s' n' := by
  obtain ⟨hbound, k, rfl, hk⟩ := hmoved
  have hpoint : ∀ j, (tick^[j] s).unbounded = point m input (j + n) := by
    intro j
    rw [unbounded_iterate_tick, h.unbounded_eq, point, point, Function.iterate_add_apply]
  refine ⟨k + n, hpoint k, fun i hi => ?_⟩
  rw [hbound]
  rcases Nat.lt_or_ge i n with hlt | hge
  · exact h.allowed i hlt
  · obtain ⟨j, rfl⟩ := Nat.exists_eq_add_of_le' hge
    rw [← hpoint, stopped_unbounded_iff]
    exact hk j (Nat.add_lt_add_iff_right.1 hi)

theorem le_bound_raiseBound (hs : s.bound < UInt64.size) (extra : Nat) :
    s.bound ≤ (s.raiseBound extra).bound :=
  Nat.le_min.2 ⟨Nat.le_add_right _ _, Nat.le_pred_of_lt hs⟩

/-- Whatever is called, the search stays in the order, and its bound stays a number of 64 bits. -/
theorem At.perform (h : At m input s n) (hs : s.bound < UInt64.size) (call : Call) :
    (∃ n', At m input (s.perform call) n') ∧ (s.perform call).bound < UInt64.size := by
  cases call with
  | step =>
      have hmoved := (moved_stepGeneration s).1
      exact ⟨h.moved hmoved, by rwa [Search.perform, hmoved.1]⟩
  | run =>
      have hmoved := moved_runFor (s.bound - s.generated + 3) s
      exact ⟨h.moved hmoved, by rwa [Search.perform, run, hmoved.1]⟩
  | raise extra =>
      refine ⟨⟨n, h.unbounded_eq, fun k hk hstopped => h.allowed k hk (hstopped.mono ?_)⟩, ?_⟩
      · exact le_bound_raiseBound hs extra
      · exact (Nat.min_le_right _ _).trans_lt (Nat.sub_one_lt (by decide))

theorem exists_at_performAll (m : Simulator) (input : Word) (hm : m.config.bound < UInt64.size)
    (calls : List Call) : (∃ n, At m input (calls.foldl perform (start m input)) n) ∧
      (calls.foldl perform (start m input)).bound < UInt64.size := by
  induction calls using List.reverseRecOn with
  | nil =>
      have hbound : (start m input).bound = m.config.bound := congrArg (·.bound) (entered_loaded m input).frame
      exact ⟨⟨0, at_start m input m.config.bound⟩, by rwa [List.foldl_nil, hbound]⟩
  | append_singleton calls call ih =>
      obtain ⟨⟨n, hn⟩, hbound⟩ := ih
      rw [List.foldl_append]
      exact hn.perform hbound call

/-! ### Resuming -/

/-- Two searches that are decided are at one point of the order. -/
theorem At.unbounded_eq_of_outcome (h : At m input s n) (h' : At m input s' n') (hs : s.outcome = some o)
    {o' : Outcome} (hs' : s'.outcome = some o') : s.unbounded = s'.unbounded := by
  have hn : (point m input n).outcome = some o := h.unbounded_eq ▸ hs
  have hn' : (point m input n').outcome = some o' := h'.unbounded_eq ▸ hs'
  rw [h.unbounded_eq, h'.unbounded_eq]
  rcases Nat.le_total n n' with hle | hle
  · exact (iterate_tick_eq hn hle).symm
  · exact iterate_tick_eq hn' hle

/-- Where the bound allows all moves up to a decision, no search stops at it. -/
theorem At.not_stopped (h : At m input s n) (hs : s.outcome = some o) (h' : At m input s' n')
    (hbound : s.bound ≤ s'.bound) : ¬Stopped s'.bound s' := by
  intro hstopped
  have hn : (point m input n).outcome = some o := h.unbounded_eq ▸ hs
  have hstopped' : Stopped s'.bound (point m input n') := by
    rw [← h'.unbounded_eq]
    exact stopped_unbounded_iff.2 hstopped
  rcases Nat.lt_or_ge n' n with hlt | hge
  · exact h.allowed n' hlt (hstopped'.mono hbound)
  · have houtcome := hstopped'.outcome_eq
    rw [point, iterate_tick_eq hn hge] at houtcome
    cases hn.symm.trans houtcome

theorem stopped_of_run_error (h : Valid m input s) (he : s.run.1 = .error e) : Stopped s.run.2.bound s.run.2 := by
  obtain ⟨s', _, hlast⟩ := h.exists_last s.fuel_le
  obtain ⟨⟨hbound, _⟩, herror⟩ := moved_stepGeneration s'
  change s'.stepGeneration = (s.run.1.map some, s.run.2) at hlast
  rw [hlast, he] at herror
  rw [hlast] at hbound
  rw [hbound]
  exact herror e rfl

/-- A search that may go as far as one that is decided comes to the same decision. -/
theorem At.run_eq {m' : Simulator} (h : At m input s n) (hs : s.outcome = some o) (hvalid : Valid m' input s')
    (h' : At m input s' n') (hbound : s.bound ≤ s'.bound) :
    s'.run.1 = .ok o ∧ s'.run.2.unbounded = s.unbounded := by
  have hmoved := moved_runFor (s'.bound - s'.generated + 3) s'
  obtain ⟨k, hk⟩ := h'.moved hmoved
  change At m input s'.run.2 k at hk
  have hbound' : s.bound ≤ s'.run.2.bound := hmoved.1.symm ▸ hbound
  cases hrun : s'.run.1 with
  | error e => exact (h.not_stopped hs hk hbound' (stopped_of_run_error hvalid hrun)).elim
  | ok o' =>
      have houtcome : s'.run.2.outcome = some o' := by
        have htells := hvalid.run.2
        rw [hrun] at htells
        exact htells
      have heq := hk.unbounded_eq_of_outcome h houtcome hs
      refine ⟨?_, heq⟩
      have hoo : s'.run.2.outcome = s.outcome := congrArg (·.outcome) heq
      rw [houtcome, hs] at hoo
      rw [Option.some.inj hoo]

theorem perform_of_outcome (h : s.outcome = some o) (call : Call) :
    (s.perform call).unbounded = s.unbounded := by
  cases call with
  | step => rw [perform, stepGeneration_of_outcome h]
  | run => rw [perform, run_of_outcome h]
  | raise extra => rfl

/-- A call that the bound has stopped, and any call after it but raising the bound, says the same and
changes nothing. -/
theorem Tells.repeated (h : Tells s (.error e)) (hstopped : Stopped s.bound s) :
    s.stepGeneration = (.error e, s) ∧ s.run = (.error e, s) := by
  rw [h.1]
  exact ⟨stepGeneration_of_stopped hstopped, run_of_stopped hstopped⟩

/-- Among the calls that lead to a decision there is one that makes it. -/
theorem exists_deciding_call (m : Simulator) (input : Word) (calls : List Call)
    (h : (calls.foldl perform (start m input)).outcome = some o) :
    ∃ before call after, calls = before ++ call :: after ∧
      (before.foldl perform (start m input)).outcome = none ∧
      ((before.foldl perform (start m input)).perform call).outcome = some o ∧
      ((before.foldl perform (start m input)).perform call).unbounded =
        (calls.foldl perform (start m input)).unbounded := by
  induction calls using List.reverseRecOn with
  | nil => cases (outcome_loaded m input).symm.trans h
  | append_singleton calls call ih =>
      rw [List.foldl_append] at h ⊢
      cases hbefore : (calls.foldl perform (start m input)).outcome with
      | none => exact ⟨calls, call, [], rfl, hbefore, h, rfl⟩
      | some o' =>
          have heq := perform_of_outcome hbefore call
          have hoo : (calls.foldl perform (start m input)).outcome = some o :=
            (congrArg (·.outcome) heq).symm.trans h
          obtain ⟨before, call', after, hcalls, hnone, hsome, hunbounded⟩ := ih hoo
          refine ⟨before, call', after ++ [call], ?_, hnone, hsome, hunbounded.trans heq.symm⟩
          rw [hcalls, List.append_assoc, List.cons_append]

theorem bound_perform_of_outcome {call : Call} (hnone : s.outcome = none)
    (hsome : (s.perform call).outcome = some o) : (s.perform call).bound = s.bound := by
  cases call with
  | step => exact (moved_stepGeneration s).1.1
  | run => exact (moved_runFor _ s).1
  | raise extra => cases hnone.symm.trans hsome

/-- However often a search was stopped and its bound raised, it is at a point of the one order of moves.
Once it is decided, it has produced what a fresh search produces in one run with the bound of the call
that decided it. A call that the bound stops can be repeated without effect. -/
theorem resume_eq_fresh (m : Simulator) (input : Word) (hm : m.config.bound < UInt64.size)
    (calls : List Call) :
    let s := calls.foldl perform (start m input)
    (∃ n, s.unbounded = point m input n) ∧
    (∀ o, s.outcome = some o → ∃ before call after, calls = before ++ call :: after ∧
      let s₀ := before.foldl perform (start m input)
      let fresh := (start (m.withBound s₀.bound) input).run
      s₀.outcome = none ∧ (s₀.perform call).outcome = some o ∧ (s₀.perform call).bound = s₀.bound ∧
        fresh.1 = .ok o ∧ fresh.2.outcome = s.outcome ∧ fresh.2.arena = s.arena ∧
        fresh.2.generated = s.generated ∧ fresh.2.generation = s.generation) ∧
    (∀ e, s.stepGeneration.1 = .error e → let s' := s.stepGeneration.2
      s'.stepGeneration = (.error e, s') ∧ s'.run = (.error e, s')) ∧
    (∀ e, s.run.1 = .error e → let s' := s.run.2
      s'.stepGeneration = (.error e, s') ∧ s'.run = (.error e, s')) := by
  intro s
  have hvalid : Valid m input s := valid_performAll m input calls
  obtain ⟨⟨n, hn⟩, _⟩ := exists_at_performAll m input hm calls
  refine ⟨⟨n, hn.unbounded_eq⟩, fun o ho => ?_, fun e he => ?_, fun e he => ?_⟩
  · obtain ⟨before, call, after, hcalls, hnone, hsome, hunbounded⟩ := exists_deciding_call m input calls ho
    refine ⟨before, call, after, hcalls, ?_⟩
    intro s₀ fresh
    have hbound : (s₀.perform call).bound = s₀.bound := bound_perform_of_outcome hnone hsome
    obtain ⟨⟨k, hk⟩, _⟩ := exists_at_performAll m input hm (before ++ [call])
    rw [List.foldl_append] at hk
    have hstart : (start (m.withBound s₀.bound) input).bound = s₀.bound :=
      congrArg (·.bound) (entered_loaded (m.withBound s₀.bound) input).frame
    obtain ⟨hok, heq⟩ := hk.run_eq hsome (valid_start (m.withBound s₀.bound) input)
      (at_start m input s₀.bound) (hbound.trans hstart.symm).le
    have hfresh : fresh.2.unbounded = s.unbounded := heq.trans hunbounded
    exact ⟨hnone, hsome, hbound, hok, congrArg (·.outcome) hfresh, congrArg (·.arena) hfresh,
      congrArg (·.generated) hfresh, congrArg (·.generation) hfresh⟩
  · obtain ⟨lo, done, hi, hs⟩ := hvalid
    have htells := hs.stepGeneration.2.1
    obtain ⟨⟨hbound, _⟩, hstopped⟩ := moved_stepGeneration s
    rw [he] at htells
    exact htells.repeated (hbound.symm ▸ hstopped e he)
  · have htells := hvalid.run.2
    rw [he] at htells
    exact htells.repeated (stopped_of_run_error hvalid he)

/-- Reads any number of symbols and guesses whether to end. At bound 3 it is stopped between the
expansions of its second generation. -/
def guessing : Simulator where
  automaton := { Automaton.ofLabels .finite [none, none] with
    initial := some 0
    finals := .ofList [1]
    transitions := [⟨0, 0, .finite ['a']⟩, ⟨0, 1, .finite ['a']⟩, ⟨1, 0, .finite ['a']⟩] }
  config := { bound := 3, dedup := false }

theorem resume_eq_fresh_guessing :
    let calls : List Call := [.run, .run, .raise 2, .step, .run, .raise 10, .run]
    let s := calls.foldl perform (start guessing ['a', 'a', 'a'])
    guessing.config.bound < UInt64.size ∧
    (start guessing ['a', 'a', 'a']).run.1 = .error (.searchBound 5 3) ∧ s.outcome = some (.accepted 7) ∧
    (∃ n, s.unbounded = point guessing ['a', 'a', 'a'] n) ∧
    (∃ before call after, calls = before ++ call :: after ∧
      let s₀ := before.foldl perform (start guessing ['a', 'a', 'a'])
      let fresh := (start (guessing.withBound s₀.bound) ['a', 'a', 'a']).run
      s₀.outcome = none ∧ (s₀.perform call).outcome = some (.accepted 7) ∧
        (s₀.perform call).bound = s₀.bound ∧ fresh.1 = .ok (.accepted 7) ∧ fresh.2.outcome = s.outcome ∧
        fresh.2.arena = s.arena ∧ fresh.2.generated = s.generated ∧ fresh.2.generation = s.generation) := by
  intro calls s
  have hbound : guessing.config.bound < UInt64.size := by decide
  have houtcome : s.outcome = some (.accepted 7) := by decide
  obtain ⟨hpoint, hdecided, _⟩ := resume_eq_fresh guessing ['a', 'a', 'a'] hbound calls
  exact ⟨hbound, by decide, houtcome, hpoint, hdecided _ houtcome⟩

end Search

end LanguageTheory
