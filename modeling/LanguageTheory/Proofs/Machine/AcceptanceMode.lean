import LanguageTheory.Proofs.Machine.Resumption

/-! How a machine accepts matters to a search only where it tests a frontier. If two ways to accept agree
on every configuration that the machine can reach, the searches go through the same states and give the
same answers, errors included. -/

namespace LanguageTheory

/-- The machine with another way to accept. -/
def Simulator.withAcceptance (m : Simulator) (mode : Acceptance) : Simulator :=
  { m with config := { m.config with acceptance := mode } }

/-- Another way to accept decides the same about everything that the machine can reach. -/
def Simulator.Indifferent (m : Simulator) (input : Word) (mode : Acceptance) : Prop :=
  ∀ k c, m.ReachedIn input k c → (m.withAcceptance mode).accepts c = m.accepts c

namespace Search

variable {m : Simulator} {input : Word} {s : Search} {mode : Acceptance} {i : Nat} {c : Configuration}

/-- The search with another way to accept. -/
def judged (mode : Acceptance) (s : Search) : Search := { s with machine := s.machine.withAcceptance mode }

theorem judged_enter (mode : Acceptance) (parent : Option Nat) (s : Search) (c : Configuration) :
    (enter parent s c).judged mode = enter parent (s.judged mode) c := by
  rw [enter, apply_ite (judged mode)]
  rfl

theorem judged_start (m : Simulator) (input : Word) (mode : Acceptance) :
    (start m input).judged mode = start (m.withAcceptance mode) input := by
  have hfoldl : (loaded m input).judged mode = loaded (m.withAcceptance mode) input :=
    (List.foldl_hom (judged mode) fun s c => (judged_enter mode none s c).symm).symm
  exact congrArg turn hfoldl

theorem judged_expandAll (mode : Acceptance) (s : Search) (ids : List Nat) :
    (s.judged mode).expandAll ids = Prod.map id (judged mode) (s.expandAll ids) := by
  induction ids generalizing s with
  | nil => rfl
  | cons i rest ih =>
      have hexpand : (s.judged mode).expand i = (s.expand i).judged mode :=
        expand_hom (judged_enter mode) (fun _ => rfl) (fun _ => rfl) s i
      rw [expandAll, expandAll, apply_ite (Prod.map id (judged mode)), hexpand, ih]
      rfl

theorem Grown.accepting_judged (h : Grown m input s) (hm : m.Indifferent input mode) (i : Nat) :
    (s.judged mode).accepting i = s.accepting i := by
  show (s.configuration? i).any (s.machine.withAcceptance mode).accepts = (s.configuration? i).any s.machine.accepts
  rw [h.machine_eq]
  cases hi : s.configuration? i with
  | none => rfl
  | some c =>
      obtain ⟨k, hk⟩ := h.exists_reachedIn hi
      exact hm k c hk

theorem judged_stepGeneration (h : Grown m input s) (hm : m.Indifferent input mode) :
    (s.judged mode).stepGeneration = Prod.map id (judged mode) s.stepGeneration := by
  have hverdict : (s.judged mode).verdict? = s.verdict? := by
    rw [verdict?, verdict?, funext (h.accepting_judged hm)]
    rfl
  cases houtcome : s.outcome with
  | some o =>
      rw [stepGeneration_of_outcome houtcome]
      exact stepGeneration_of_outcome (s := s.judged mode) houtcome
  | none =>
      cases hchecked : (if s.checked then none else s.verdict?) with
      | some o =>
          rw [stepGeneration_of_verdict houtcome hchecked]
          rw [← hverdict] at hchecked
          exact stepGeneration_of_verdict (s := s.judged mode) houtcome hchecked
      | none =>
          have hexpandAll := judged_expandAll mode { s with checked := true } s.waiting
          have hchecked' : (if (s.judged mode).checked then none else (s.judged mode).verdict?) = none := by
            rwa [hverdict]
          cases heq : ({ s with checked := true } : Search).expandAll s.waiting with
          | mk answer s' =>
              rw [heq] at hexpandAll
              cases answer with
              | ok =>
                  rw [stepGeneration_of_ok houtcome hchecked heq]
                  exact stepGeneration_of_ok (s := s.judged mode) houtcome hchecked' hexpandAll
              | error e =>
                  rw [stepGeneration_of_error houtcome hchecked heq]
                  exact stepGeneration_of_error (s := s.judged mode) houtcome hchecked' hexpandAll

theorem judged_runFor (h : Valid m input s) (hm : m.Indifferent input mode) (limit : Nat) :
    (s.judged mode).runFor limit = Prod.map id (judged mode) (s.runFor limit) := by
  induction limit generalizing s with
  | zero => rfl
  | succ limit ih =>
      obtain ⟨lo, done, hi, hs⟩ := h
      obtain ⟨hvalid, _⟩ := hs.stepGeneration
      rw [runFor, runFor, judged_stepGeneration hs.toGrown hm]
      cases heq : s.stepGeneration with
      | mk answer s' =>
          rw [heq] at hvalid
          cases answer with
          | error e => rfl
          | ok outcome =>
              cases outcome with
              | some o => rfl
              | none => exact ih hvalid

/-- A run gives the same answer and produces the same configurations, whatever the bound. -/
theorem run_withAcceptance (hm : m.Indifferent input mode) :
    (start (m.withAcceptance mode) input).run = Prod.map id (judged mode) (start m input).run := by
  rw [← judged_start]
  exact judged_runFor (valid_start m input) hm _

end Search

theorem Simulator.run_withAcceptance {m : Simulator} {input : Word} {mode : Acceptance}
    (hm : m.Indifferent input mode) : (m.withAcceptance mode).run input = m.run input := by
  rw [Simulator.run, Simulator.run, Search.run_withAcceptance hm, Prod.map_fst, id_eq]

end LanguageTheory
