import LanguageTheory.Proofs.Machine.Acceptance
import LanguageTheory.Proofs.Words.Sampling
import LanguageTheory.Words.OfAutomaton

/-! The words that are sampled from an automaton are those that the machine accepts. A node of the graph stands
for one configuration for each word that may come after the word read so far, and its edges are the moves of
the machine that read a part of this word. -/

namespace LanguageTheory

/-- What a machine of a kind without a tape has at hand. -/
def Kind.store (kind : Kind) (rest : Word) (stack : Stack) : Store :=
  match kind with
  | .pushdown => .pushdown rest stack
  | _ => .finite rest

namespace ReadingNode

def length (n : ReadingNode) : Nat := n.word.length

def root (s : StateId) (stack : Stack) : ReadingNode := ⟨s, stack, []⟩

end ReadingNode

namespace Simulator

variable {m : Simulator} {n : ReadingNode} {c : Configuration} {e : Nat × ReadingNode} {label : Label}
  {kind : Kind} {s : StateId} {stack : Stack} {store : Store} {rest w : Word} {length longest k : Nat}

/-- The configuration at a node when some of the input is still to be read. -/
def configurationBefore (m : Simulator) (n : ReadingNode) (rest : Word) : Configuration :=
  ⟨n.state, m.automaton.kind.store rest n.stack⟩

theorem configurationAt_eq (m : Simulator) (n : ReadingNode) : m.configurationAt n = m.configurationBefore n [] := by
  cases hkind : m.automaton.kind <;> simp only [configurationAt, configurationBefore, Kind.store, hkind]

theorem initialStore_eq (hkind : m.automaton.kind ≠ .turing) (input : Word) :
    m.initialStore input = m.automaton.kind.store input m.automaton.initialStack := by
  cases h : m.automaton.kind with
  | finite => exact initialStore_finite h input
  | pushdown => exact initialStore_pushdown h input
  | turing => exact (hkind h).elim

/-- A move reads the same and leaves the same stack at a node as in a configuration. -/
theorem after?_store (hlabel : label.kind = kind) (hkind : kind ≠ .turing) :
    (kind.store rest n.stack).after? label = some store ↔
      ∃ read left stack, readMove? n label = some (read, stack) ∧ rest = read ++ left ∧
        store = kind.store left stack := by
  subst hlabel
  cases label with
  | finite read =>
      simp only [Label.kind, Kind.store, Store.after?, readMove?, Option.map_eq_some_iff,
        List.isPrefixOf?_eq_some_iff_append_eq]
      constructor
      · rintro ⟨left, hleft, hstore⟩
        exact ⟨read, left, n.stack, rfl, hleft.symm, hstore.symm⟩
      · rintro ⟨_, left, _, heq, hleft, hstore⟩
        cases heq
        exact ⟨left, hleft.symm, hstore.symm⟩
  | pushdown read pop push =>
      simp only [Label.kind, Kind.store, Store.after?, readMove?, Option.bind_eq_bind, Option.bind_eq_some_iff,
        Option.map_eq_some_iff, List.isPrefixOf?_eq_some_iff_append_eq]
      constructor
      · rintro ⟨left, hleft, stack, hstack, hstore⟩
        exact ⟨read, left, stack, ⟨stack, hstack, rfl⟩, hleft.symm, (Option.some.inj hstore).symm⟩
      · rintro ⟨_, left, stack, ⟨_, hstack, heq⟩, hleft, hstore⟩
        cases heq
        exact ⟨left, hleft.symm, stack, hstack, by rw [hstore]; rfl⟩
  | turing read write direction => exact (hkind rfl).elim

/-- The moves of a machine are the edges of its graph. -/
theorem mem_step_configurationBefore (ha : m.automaton.WellFormed) (hkind : m.automaton.kind ≠ .turing) :
    c ∈ m.step (m.configurationBefore n rest) ↔ ∃ e ∈ m.wordGraph.successors n.length n, ∃ read left,
      e.1 = n.length + read.length ∧ e.2.word = n.word ++ read ∧ rest = read ++ left ∧
        c = m.configurationBefore e.2 left := by
  simp only [mem_step, wordGraph, Automaton.transitionsFrom, List.mem_filterMap, List.mem_filter, beq_iff_eq,
    Option.map_eq_some_iff]
  constructor
  · rintro ⟨t, ht, hsource, htarget, hstore⟩
    obtain ⟨read, left, stack, hmove, hrest, hstore⟩ := (after?_store (ha.kind_eq t ht) hkind).1 hstore
    refine ⟨_, ⟨t, ⟨ht, hsource⟩, (read, stack), hmove, rfl⟩, read, left, rfl, rfl, hrest, ?_⟩
    rw [configurationBefore, htarget, ← hstore]
  · rintro ⟨_, ⟨t, ⟨ht, hsource⟩, ⟨read, stack⟩, hmove, rfl⟩, read', left, _, hword, hrest, rfl⟩
    obtain rfl := List.append_cancel_left hword
    exact ⟨t, ht, hsource, rfl, (after?_store (ha.kind_eq t ht) hkind).2 ⟨read, left, stack, hmove, hrest, rfl⟩⟩

/-- Every edge is a move that reads some word. -/
theorem exists_read_of_mem_successors (he : e ∈ m.wordGraph.successors length n) :
    ∃ read, e.1 = length + read.length ∧ e.2.word = n.word ++ read := by
  simp only [wordGraph, List.mem_filterMap, Option.map_eq_some_iff] at he
  obtain ⟨t, _, ⟨read, stack⟩, _, rfl⟩ := he
  exact ⟨read, rfl, rfl⟩

theorem eq_length_of_mem_successors (he : e ∈ m.wordGraph.successors n.length n) : e.1 = e.2.length := by
  obtain ⟨read, hlength, hword⟩ := exists_read_of_mem_successors he
  rw [hlength, ReadingNode.length, ReadingNode.length, hword, List.length_append]

theorem word?_eq_some_iff : m.wordGraph.word? n = some w ↔ m.accepts (m.configurationAt n) = true ∧ n.word = w := by
  rw [wordGraph, Option.ite_none_right_eq_some, Option.some.injEq]

theorem ranked_wordGraph (m : Simulator) : m.wordGraph.Ranked ReadingNode.length where
  length_eq n w hword := by rw [← (word?_eq_some_iff.1 hword).2, ReadingNode.length]
  rank_le n e he := by
    obtain ⟨read, _, hword⟩ := exists_read_of_mem_successors he
    rw [ReadingNode.length, ReadingNode.length, hword, List.length_append]
    exact Nat.le_add_right _ _

/-- The initial node. -/
theorem configurationBefore_root (hkind : m.automaton.kind ≠ .turing) (hinitial : m.automaton.initial = some s)
    (input : Word) : c ∈ m.initialConfigurations input ↔
      c = m.configurationBefore (.root s m.automaton.initialStack) input := by
  rw [mem_initialConfigurations, initialStore_eq hkind, hinitial, Option.some.injEq]
  constructor
  · rintro ⟨hstate, hstore⟩
    rw [configurationBefore, ReadingNode.root, hstate, ← hstore]
  · rintro rfl
    exact ⟨rfl, rfl⟩

/-- What the graph leads to is reached while the word of the node is read, whatever comes after it. -/
theorem reachedIn_of_leads (ha : m.automaton.WellFormed) (hkind : m.automaton.kind ≠ .turing)
    (hinitial : m.automaton.initial = some s)
    (hleads : m.wordGraph.Leads ReadingNode.length longest (.root s m.automaton.initialStack) n) (rest : Word) :
    ∃ k, m.ReachedIn (n.word ++ rest) k (m.configurationBefore n rest) := by
  induction hleads generalizing rest with
  | root => exact ⟨0, .initial ((configurationBefore_root hkind hinitial rest).2 rfl)⟩
  | @step n e _ he _ ih =>
      obtain ⟨read, hlength, hword⟩ := exists_read_of_mem_successors he
      obtain ⟨k, hreached⟩ := ih (read ++ rest)
      rw [← List.append_assoc, ← hword] at hreached
      exact ⟨k + 1, hreached.step
        ((mem_step_configurationBefore ha hkind).2 ⟨e, he, read, rest, hlength, hword, rfl, rfl⟩)⟩

/-- What is reached with an input that is not too long stands at a node that the graph leads to. -/
theorem exists_leads_of_reachedIn (ha : m.automaton.WellFormed) (hkind : m.automaton.kind ≠ .turing)
    (hinitial : m.automaton.initial = some s) (hreached : m.ReachedIn w k c) (hw : w.length ≤ longest) :
    ∃ n rest, m.wordGraph.Leads ReadingNode.length longest (.root s m.automaton.initialStack) n ∧
      w = n.word ++ rest ∧ c = m.configurationBefore n rest := by
  induction hreached with
  | initial hc => exact ⟨_, w, .root, rfl, (configurationBefore_root hkind hinitial w).1 hc⟩
  | step _ hd ih =>
      obtain ⟨n, rest, hleads, hinput, rfl⟩ := ih
      obtain ⟨e, he, read, left, _, hword, hrest, hd⟩ := (mem_step_configurationBefore ha hkind).1 hd
      have hsplit : w = e.2.word ++ left := by rw [hinput, hrest, hword, List.append_assoc]
      refine ⟨e.2, left, hleads.step he ?_, hsplit, hd⟩
      rw [hsplit, List.length_append] at hw
      exact Nat.le_trans (Nat.le_add_right _ _) hw

theorem eq_nil_of_accepts (h : m.accepts (m.configurationBefore n rest) = true) : rest = [] := by
  unfold accepts at h
  cases hkind : m.automaton.kind <;>
    simp only [configurationBefore, Kind.store, hkind, Bool.and_eq_true, List.isEmpty_iff] at h <;>
    exact h.1

/-- The graph offers what the machine accepts. -/
theorem offers_wordGraph_iff (ha : m.automaton.WellFormed) (hkind : m.automaton.kind ≠ .turing)
    (hinitial : m.automaton.initial = some s) :
    m.wordGraph.Offers ReadingNode.length longest (.root s m.automaton.initialStack) w ↔
      m.Accepts w ∧ w.length ≤ longest := by
  constructor
  · rintro ⟨n, hleads, hword⟩
    obtain ⟨haccepts, rfl⟩ := word?_eq_some_iff.1 hword
    obtain ⟨k, hreached⟩ := reachedIn_of_leads ha hkind hinitial hleads []
    rw [List.append_nil, ← configurationAt_eq] at hreached
    exact ⟨⟨k, _, hreached, haccepts⟩, hleads.rank_le (Nat.zero_le _)⟩
  · rintro ⟨⟨k, c, hreached, haccepts⟩, hw⟩
    obtain ⟨n, rest, hleads, hinput, rfl⟩ := exists_leads_of_reachedIn ha hkind hinitial hreached hw
    obtain rfl := eq_nil_of_accepts haccepts
    rw [List.append_nil] at hinput
    rw [← configurationAt_eq] at haccepts
    exact ⟨n, hleads, word?_eq_some_iff.2 ⟨haccepts, hinput.symm⟩⟩

end Simulator

namespace Automaton

variable {a : Automaton} {s : StateId}

theorem words_eq_sample (ha : a.WellFormed) (hkind : a.kind ≠ .turing) (hinitial : a.initial = some s)
    (config : SearchConfig) {requested : Nat} (hpos : 0 < requested) (longest : Nat) :
    a.words requested longest config = .ok ((⟨a, config⟩ : Simulator).wordGraph.sample requested longest
      config.bound 0 (.root s a.initialStack)) := by
  rw [words, if_neg hkind, Simulator.of_eq_ok ha hinitial config, hinitial]
  cases requested with
  | zero => exact (Nat.lt_irrefl 0 hpos).elim
  | succ requested => rfl

/-- A complete answer is the list of the first words that the machine accepts, and an incomplete one is a
beginning of it. -/
theorem exact_accepted_words (ha : a.WellFormed) (hkind : a.kind ≠ .turing) (hinitial : a.initial = some s)
    (requested longest : Nat) (config : SearchConfig) :
    ∃ m r, Simulator.of a config = .ok m ∧ a.words requested longest config = .ok r ∧
      r.Exact requested longest m.Accepts := by
  rcases Nat.eq_zero_or_pos requested with rfl | hpos
  · refine ⟨_, .none 0, Simulator.of_eq_ok ha hinitial config, ?_, Words.exact_none (Or.inl rfl)⟩
    rw [words, if_neg hkind, Simulator.of_eq_ok ha hinitial config]
    rfl
  · refine ⟨_, _, Simulator.of_eq_ok ha hinitial config,
      words_eq_sample ha hkind hinitial config hpos longest, ?_⟩
    refine ((Simulator.ranked_wordGraph ⟨a, config⟩).returns_sample hpos fun node _ e he => ?_).exact
      fun w => Simulator.offers_wordGraph_iff ha hkind hinitial
    exact Simulator.eq_length_of_mem_successors he

/-- Reads letters `a` and puts as many symbols on the stack. -/
def stacking : Automaton where
  kind := .pushdown
  states := [⟨0, none, .origin⟩]
  transitions := [⟨0, 0, .pushdown ['a'] [] ['A']⟩]
  initial := some 0
  finals := .ofList [0]
  initialStack := []
  nextId := 1

theorem exact_accepted_words_stacking : stacking.WellFormed ∧ stacking.kind ≠ .turing ∧ stacking.initial = some 0 ∧
    stacking.words 3 1 { bound := 4 } = .ok ⟨3, [[], ['a']], true⟩ ∧
    ∃ m, Simulator.of stacking { bound := 4 } = .ok m ∧
      ∀ l, Words.First 3 (fun w => m.Accepts w ∧ w.length ≤ 1) l ↔ l = [[], ['a']] := by
  have hwellFormed : stacking.WellFormed := by decide
  have hkind : stacking.kind ≠ .turing := by decide
  have hinitial : stacking.initial = some 0 := rfl
  have hwords : stacking.words 3 1 { bound := 4 } = .ok ⟨3, [[], ['a']], true⟩ := by
    rw [words_eq_sample hwellFormed hkind hinitial _ (by decide)]
    congr 1
    -- What has been seen is asked for by hash, so the steps are simplified and not computed.
    simp only [WordGraph.sample, Sampling.runFor, Sampling.step, Sampling.start]
    simp [Sampling.enterAll, Sampling.enqueue, Sampling.insertLater, Sampling.absorb, Sampling.finish,
      Simulator.wordGraph, Simulator.readMove?, Simulator.accepts, Simulator.configurationAt, ReadingNode.root,
      Stack.exchange?, Stack.shows, Stack.pop, Stack.push, stacking, Automaton.transitionsFrom, Automaton.isFinal,
      Ascending.ofList, Ascending.insert, Ascending.insertInto, Ascending.mem_def]
  obtain ⟨m, r, hm, hr, hexact⟩ := exact_accepted_words hwellFormed hkind hinitial 3 1 { bound := 4 }
  obtain rfl := Except.ok.inj (hwords.symm.trans hr)
  exact ⟨hwellFormed, hkind, hinitial, hwords, m, hm, hexact.complete rfl⟩

end Automaton

end LanguageTheory
