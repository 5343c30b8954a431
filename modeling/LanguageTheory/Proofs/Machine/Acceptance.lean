import LanguageTheory.Proofs.Automaton.Edits
import LanguageTheory.Proofs.Automaton.Language
import LanguageTheory.Proofs.Machine.Arena

/-! What a machine accepts, as a property of its moves and not of a search for them. A finite automaton
consumes the labels of a path one after the other, so the machine that runs it accepts exactly the words
of its language, whatever the search is told. -/

namespace LanguageTheory

namespace Simulator

variable {m : Simulator} {input u rest : Word} {b c : Configuration} {s : StateId} {k : Nat}

/-- Some moves lead from an initial configuration to an accepting one. -/
def Accepts (m : Simulator) (input : Word) : Prop := ∃ k c, m.ReachedIn input k c ∧ m.accepts c = true

theorem of_eq_ok {a : Automaton} (ha : a.WellFormed) (hinitial : a.initial = some s) (config : SearchConfig) :
    Simulator.of a config = .ok ⟨a, config⟩ := by
  rw [Simulator.of, ha.validate hinitial]
  rfl

theorem mem_initialConfigurations :
    c ∈ m.initialConfigurations input ↔ m.automaton.initial = some c.state ∧ c.store = m.initialStore input := by
  rw [initialConfigurations, List.mem_map]
  constructor
  · rintro ⟨s, hs, rfl⟩
    exact ⟨Option.mem_toList.1 hs, rfl⟩
  · rintro ⟨hs, hstore⟩
    refine ⟨c.state, Option.mem_toList.2 hs, ?_⟩
    rw [← hstore]

theorem ReachedIn.exists_reaches (h : m.ReachedIn input k c) :
    ∃ b ∈ m.initialConfigurations input, Reaches m.step b c := by
  induction h with
  | initial hc => exact ⟨_, hc, .refl⟩
  | step _ hc ih =>
      obtain ⟨b, hb, hreaches⟩ := ih
      exact ⟨b, hb, hreaches.step hc⟩

/-! ### Finite automata -/

theorem initialStore_finite (hkind : m.automaton.kind = .finite) (input : Word) :
    m.initialStore input = .finite input := by
  simp only [initialStore, hkind]

/-- A move consumes the label of its transition. -/
theorem mem_step_finite (hb : b.store = .finite rest) : c ∈ m.step b ↔
    ∃ t ∈ m.automaton.transitions, ∃ read left, t.source = b.state ∧ t.target = c.state ∧
      t.label = .finite read ∧ rest = read ++ left ∧ c.store = .finite left := by
  rw [mem_step]
  refine exists_congr fun t => and_congr_right fun _ => ?_
  cases hlabel : t.label with
  | finite read =>
      simp only [hb, Store.after?, Option.map_eq_some_iff, List.isPrefixOf?_eq_some_iff_append_eq]
      constructor
      · rintro ⟨hsource, htarget, left, hleft, hstore⟩
        exact ⟨read, left, hsource, htarget, rfl, hleft.symm, hstore.symm⟩
      · rintro ⟨_, left, hsource, htarget, heq, hleft, hstore⟩
        cases heq
        exact ⟨hsource, htarget, left, hleft.symm, hstore.symm⟩
  | pushdown read pop push => simp [hb, Store.after?]
  | turing read write direction => simp [hb, Store.after?]

/-- The moves so far have consumed what a path from the initial state spells. -/
theorem ReachedIn.exists_path (hkind : m.automaton.kind = .finite) (h : m.ReachedIn input k c) :
    ∃ s u rest, m.automaton.initial = some s ∧ input = u ++ rest ∧ c.store = .finite rest ∧
      m.automaton.Path s u c.state := by
  induction h with
  | initial hc =>
      obtain ⟨hs, hstore⟩ := mem_initialConfigurations.1 hc
      rw [initialStore_finite hkind] at hstore
      exact ⟨_, [], input, hs, rfl, hstore, .nil _⟩
  | step _ hc ih =>
      obtain ⟨s, u, rest, hs, hinput, hstore, hpath⟩ := ih
      obtain ⟨t, ht, read, left, hsource, htarget, hlabel, hrest, hstore'⟩ := (mem_step_finite hstore).1 hc
      have hlast := Automaton.Path.cons ht hlabel (.nil t.target)
      rw [hsource, htarget, List.append_nil] at hlast
      refine ⟨s, u ++ read, left, hs, ?_, hstore', hpath.trans hlast⟩
      rw [hinput, hrest, List.append_assoc]

/-- A path is a way of the machine, whatever comes after the word that it spells. -/
theorem exists_reachedIn_of_path (hpath : m.automaton.Path s u t) (hb : m.ReachedIn input k b)
    (hstate : b.state = s) (hstore : b.store = .finite (u ++ rest)) :
    ∃ k', m.ReachedIn input k' ⟨t, .finite rest⟩ := by
  induction hpath generalizing k b with
  | nil s =>
      refine ⟨k, ?_⟩
      obtain ⟨state, store⟩ := b
      cases hstate
      cases hstore
      exact hb
  | @cons t read w f ht hlabel _ ih =>
      have hmove : (⟨t.target, .finite (w ++ rest)⟩ : Configuration) ∈ m.step b :=
        (mem_step_finite hstore).2 ⟨t, ht, read, w ++ rest, hstate.symm, rfl, hlabel,
          List.append_assoc read w rest, rfl⟩
      exact ih (hb.step hmove) rfl rfl

/-- A machine with a finite automaton accepts the words of its language. -/
theorem accepts_iff_mem_language (hkind : m.automaton.kind = .finite) :
    m.Accepts input ↔ input ∈ m.automaton.language := by
  constructor
  · rintro ⟨k, c, hreached, haccepts⟩
    obtain ⟨s, u, rest, hs, hinput, hstore, hpath⟩ := hreached.exists_path hkind
    rw [Simulator.accepts, hstore, Bool.and_eq_true, List.isEmpty_iff] at haccepts
    obtain ⟨rfl, hfinal⟩ := haccepts
    rw [List.append_nil] at hinput
    exact ⟨s, hs, c.state, of_decide_eq_true hfinal, hinput ▸ hpath⟩
  · rintro ⟨s, hs, f, hf, hpath⟩
    have hinitial : m.ReachedIn input 0 ⟨s, .finite (input ++ [])⟩ := by
      rw [List.append_nil]
      exact .initial (mem_initialConfigurations.2 ⟨hs, (initialStore_finite hkind input).symm⟩)
    obtain ⟨k, hreached⟩ := exists_reachedIn_of_path hpath hinitial rfl rfl
    exact ⟨k, _, hreached, decide_eq_true hf⟩

/-! ### Pushdown automata -/

theorem initialStore_pushdown (hkind : m.automaton.kind = .pushdown) (input : Word) :
    m.initialStore input = .pushdown input m.automaton.initialStack := by
  simp only [initialStore, hkind]

/-- A move consumes what its transition reads and replaces the word on top of the stack. -/
theorem mem_step_pushdown {stack : Stack} (hb : b.store = .pushdown rest stack) : c ∈ m.step b ↔
    ∃ t ∈ m.automaton.transitions, ∃ read pop push left below, t.source = b.state ∧ t.target = c.state ∧
      t.label = .pushdown read pop push ∧ rest = read ++ left ∧ stack = pop ++ below ∧
      c.store = .pushdown left (push ++ below) := by
  rw [mem_step]
  refine exists_congr fun t => and_congr_right fun _ => ?_
  cases hlabel : t.label with
  | pushdown read pop push =>
      simp only [hb, Store.after?, Stack.exchange?, Option.bind_eq_bind, Option.bind_eq_some_iff,
        List.isPrefixOf?_eq_some_iff_append_eq, Option.ite_none_right_eq_some, Stack.shows,
        List.isPrefixOf_iff_prefix]
      constructor
      · rintro ⟨hsource, htarget, left, hleft, _, ⟨⟨below, rfl⟩, hpush⟩, hstore⟩
        refine ⟨read, pop, push, left, below, hsource, htarget, rfl, hleft.symm, rfl, ?_⟩
        rw [← Option.some.inj hstore, ← Option.some.inj hpush, Stack.pop, List.drop_left, Stack.push]
      · rintro ⟨_, _, _, left, below, hsource, htarget, heq, hleft, rfl, hstore⟩
        cases heq
        refine ⟨hsource, htarget, left, hleft.symm, _, ⟨⟨below, rfl⟩, rfl⟩, ?_⟩
        rw [hstore, Stack.pop, List.drop_left, Stack.push]
        rfl
  | finite read => simp [hb, Store.after?]
  | turing read write direction => simp [hb, Store.after?]

end Simulator

end LanguageTheory
