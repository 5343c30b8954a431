import LanguageTheory.Proofs.Machine.Acceptance
import LanguageTheory.Proofs.Machine.Enumeration
import Mathlib.Data.List.Infix
import Mathlib.Data.List.Perm.Subperm
import Mathlib.Data.List.ProdSigma

/-! A search of a finite automaton that skips repeats. What it produces are configurations of a state and a
rest of the input, each of them once. So a bound with room for each state and each rest is never passed,
whatever moves the automaton has that read nothing, and the search comes to the right answer. -/

namespace LanguageTheory

namespace Simulator

variable {m : Simulator} {input : Word} {c : Configuration} {k : Nat}

/-- A finite automaton in any of its states with any rest of the input. -/
def finiteConfigurations (a : Automaton) (input : Word) : List Configuration :=
  (a.ids ×ˢ input.tails).map fun x => ⟨x.1, .finite x.2⟩

theorem length_finiteConfigurations (a : Automaton) (input : Word) :
    (finiteConfigurations a input).length = a.size * (input.length + 1) := by
  rw [finiteConfigurations, List.length_map, List.length_product, List.length_tails, Automaton.ids,
    List.length_map, Automaton.size]

theorem ReachedIn.mem_finiteConfigurations (hm : m.automaton.WellFormed) (hkind : m.automaton.kind = .finite)
    (h : m.ReachedIn input k c) : c ∈ finiteConfigurations m.automaton input := by
  obtain ⟨s, u, rest, hs, hinput, hstore, hpath⟩ := h.exists_path hkind
  have hstate := hm.mem_ids_of_path hpath (hm.initial_mem s hs)
  have hrest : rest ∈ input.tails := (List.mem_tails rest input).2 ⟨u, hinput.symm⟩
  refine List.mem_map.2 ⟨(c.state, rest), List.mem_product.2 ⟨hstate, hrest⟩, ?_⟩
  rw [← hstore]

end Simulator

namespace Search

variable {m : Simulator} {input : Word} {s : Search} {id : Nat}

/-! ### What is produced -/

/-- A search that skips repeats has produced nothing twice. -/
theorem Tracked.nodup_configurations (h : Tracked m input s) (hdedup : m.config.dedup = true) :
    s.configurations.Nodup := by
  obtain ⟨k, past, future, h, _⟩ := h
  rw [h.spells.configurations_eq, hdedup]
  show ((Way.firsts [] _).map (·.last)).Nodup
  rw [Way.map_last_firsts]
  exact nodup_fresh _ _

theorem Valid.exists_reachedIn (h : Valid m input s) {c : Configuration} (hc : c ∈ s.configurations) :
    ∃ k, m.ReachedIn input k c := by
  obtain ⟨lo, done, hi, hs⟩ := h
  obtain ⟨id, hid⟩ := mem_configurations.1 hc
  exact hs.toGrown.exists_reachedIn hid

/-- There is room for what a search of a finite automaton produces if it skips repeats. -/
theorem Tracked.generated_le (h : Tracked m input s) (hvalid : Valid m input s) (hdedup : m.config.dedup = true)
    (hm : m.automaton.WellFormed) (hkind : m.automaton.kind = .finite) :
    s.generated ≤ m.automaton.size * (input.length + 1) := by
  have hsubset : s.configurations ⊆ Simulator.finiteConfigurations m.automaton input := by
    intro c hc
    obtain ⟨k, hk⟩ := hvalid.exists_reachedIn hc
    exact hk.mem_finiteConfigurations hm hkind
  have hle := ((h.nodup_configurations hdedup).subperm hsubset).length_le
  rwa [Simulator.length_finiteConfigurations, configurations, List.length_map, Array.length_toList] at hle

/-! ### Answers -/

theorem Valid.accepts_of_accepted (h : Valid m input s) (ho : s.outcome = some (.accepted id)) :
    m.Accepts input := by
  obtain ⟨lo, done, hi, hs⟩ := h
  obtain ⟨_, _, haccepting⟩ := hs.accepted id ho
  obtain ⟨c, hc, haccepts⟩ := (Option.any_eq_true _ _).1 haccepting
  rw [hs.machine_eq] at haccepts
  obtain ⟨k, hk⟩ := hs.toGrown.exists_reachedIn hc
  exact ⟨k, c, hk, haccepts⟩

theorem Valid.not_accepts_of_rejected (h : Valid m input s) (ho : s.outcome = some .rejected) :
    ¬m.Accepts input := by
  obtain ⟨lo, done, hi, hs⟩ := h
  rintro ⟨k, c, hk, haccepts⟩
  cases (hs.of_rejected ho hk).symm.trans haccepts

theorem moved_run (s : Search) : Moved s s.run.2 := moved_runFor _ s

theorem bound_start (m : Simulator) (input : Word) : (start m input).bound = m.config.bound :=
  congrArg (·.bound) (entered_loaded m input).frame

end Search

/-- A run answers whether the machine accepts, unless more has been produced than the bound allows. -/
theorem Simulator.run_eq_ok {m : Simulator} {input : Word}
    (h : (Search.start m input).run.2.generated ≤ m.config.bound) :
    m.Accepts input ∧ m.run input = .ok true ∨ ¬m.Accepts input ∧ m.run input = .ok false := by
  obtain ⟨hvalid, htells⟩ := (Search.valid_start m input).run
  have hbound : (Search.start m input).run.2.bound = m.config.bound :=
    (Search.moved_run _).1.trans (Search.bound_start m input)
  cases hrun : (Search.start m input).run.1 with
  | error e =>
      rw [hrun] at htells
      obtain ⟨_, hlt, _⟩ := htells
      omega
  | ok outcome =>
      rw [hrun] at htells
      cases outcome with
      | accepted id =>
          refine Or.inl ⟨hvalid.accepts_of_accepted htells, ?_⟩
          rw [Simulator.run, hrun]
          rfl
      | rejected =>
          refine Or.inr ⟨hvalid.not_accepts_of_rejected htells, ?_⟩
          rw [Simulator.run, hrun]
          rfl

namespace Automaton

/-- A search of a finite automaton that skips repeats is never stopped by a bound of one configuration for each
state and each rest of the input. -/
theorem run_decides {a : Automaton} {s : StateId} {config : SearchConfig} {w : Word}
    (ha : a.WellFormed) (hkind : a.kind = .finite) (hinitial : a.initial = some s)
    (hdedup : config.dedup = true) (hbound : a.size * (w.length + 1) ≤ config.bound) :
    ∃ m, Simulator.of a config = .ok m ∧
      (w ∈ a.language ∧ m.run w = .ok true ∨ w ∉ a.language ∧ m.run w = .ok false) := by
  refine ⟨⟨a, config⟩, Simulator.of_eq_ok ha hinitial config, ?_⟩
  rw [← Simulator.accepts_iff_mem_language (m := ⟨a, config⟩) hkind]
  apply Simulator.run_eq_ok
  have htracked := (Search.tracked_start ⟨a, config⟩ w).moved (Search.moved_run _)
  exact (htracked.generated_le (Search.valid_start ⟨a, config⟩ w).run.1 hdedup ha hkind).trans hbound

/-- Two states with moves in a circle between them that read nothing, and a loop. -/
def circling : Automaton :=
  { ofLabels .finite [none, none] with
    initial := some 0
    finals := .ofList [0]
    transitions := [⟨0, 1, .finite []⟩, ⟨1, 0, .finite []⟩, ⟨1, 1, .finite ['a']⟩] }

theorem run_decides_circling :
    let config : SearchConfig := { bound := 6 }
    circling.WellFormed ∧ circling.kind = .finite ∧ circling.initial = some 0 ∧ config.dedup = true ∧
    circling.size * (['a', 'a'].length + 1) ≤ config.bound ∧
    ∃ m, Simulator.of circling config = .ok m ∧ m.run ['a', 'a'] = .ok true := by
  intro config
  have hwellFormed : circling.WellFormed := by decide
  have hinitial : circling.initial = some 0 := rfl
  have hdedup : config.dedup = true := rfl
  have hbound : circling.size * (['a', 'a'].length + 1) ≤ config.bound := by decide
  obtain ⟨m, hm, hrun⟩ := run_decides hwellFormed rfl hinitial hdedup hbound
  refine ⟨hwellFormed, rfl, hinitial, hdedup, hbound, m, hm, ?_⟩
  rcases hrun with ⟨_, htrue⟩ | ⟨hnot, _⟩
  · exact htrue
  · have hback : circling.Path 1 [] 0 := .cons (t := ⟨1, 0, .finite []⟩) (by decide) rfl (.nil 0)
    have hloop : ∀ w, circling.Path 1 w 0 → circling.Path 1 ('a' :: w) 0 :=
      fun w hw => .cons (t := ⟨1, 1, .finite ['a']⟩) (by decide) rfl hw
    have hpath : circling.Path 0 ['a', 'a'] 0 :=
      .cons (t := ⟨0, 1, .finite []⟩) (by decide) rfl (hloop _ (hloop _ hback))
    exact (hnot ⟨0, rfl, 0, by decide, hpath⟩).elim

end Automaton

end LanguageTheory
