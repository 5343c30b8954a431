import LanguageTheory.Machine.Search
import LanguageTheory.Proofs.Finite.Exploration
import Mathlib.Data.List.Chain

/-! What a search has produced. New configurations are put after the old ones, so the old ones keep
their numbers, their parents and the ways to them. A way is one entry longer than the way to the parent,
and spells a run of the machine. -/

namespace LanguageTheory

namespace Simulator

variable {m : Simulator} {input : Word}

/-- The machine can be in the configuration after the given number of moves. -/
inductive ReachedIn (m : Simulator) (input : Word) : Nat → Configuration → Prop
  | initial {c : Configuration} : c ∈ m.initialConfigurations input → ReachedIn m input 0 c
  | step {k : Nat} {b c : Configuration} : ReachedIn m input k b → c ∈ m.step b →
      ReachedIn m input (k + 1) c

/-- The configurations follow each other by moves, from an initial one on. -/
def IsRun (m : Simulator) (input : Word) (cs : List Configuration) : Prop :=
  (∃ c ∈ m.initialConfigurations input, cs.head? = some c) ∧ cs.IsChain fun b c => c ∈ m.step b

end Simulator

namespace Search

variable {m : Simulator} {input : Word} {s s' : Search} {parent : Option Nat} {cs : List Configuration}
  {b c : Configuration} {id p : Nat} {parent' : Option Nat}

/-- Everything produced so far, in order. -/
def configurations (s : Search) : List Configuration := s.arena.toList.map (·.configuration)

theorem configuration?_eq (s : Search) (id : Nat) : s.configuration? id = s.configurations[id]? := by
  rw [configuration?, configurations, List.getElem?_map, Array.getElem?_toList]

theorem lt_size_of_configuration? (h : s.configuration? id = some c) : id < s.arena.size := by
  obtain ⟨node, hnode, _⟩ := Option.map_eq_some_iff.1 h
  exact (Array.getElem?_eq_some_iff.1 hnode).1

theorem mem_configurations : c ∈ s.configurations ↔ ∃ id, s.configuration? id = some c := by
  simp only [configuration?_eq, List.mem_iff_getElem?]

/-! ### Adding configurations -/

/-- The configurations of a list that are added. -/
def admitted (s : Search) (cs : List Configuration) : List Configuration :=
  if s.machine.config.dedup then fresh s.configurations cs else cs

theorem subset_of_mem_admitted (h : c ∈ s.admitted cs) : c ∈ cs := by
  unfold admitted at h
  split at h
  · exact (mem_fresh.1 h).1
  · exact h

/-- What adding configurations with one parent does: those that are admitted come after the old ones and
enter the next generation, and nothing else changes. -/
structure Entered (s : Search) (parent : Option Nat) (cs : List Configuration) (s' : Search) : Prop where
  arena_eq : s'.arena.toList = s.arena.toList ++ (s.admitted cs).map (⟨·, parent⟩)
  next_eq : s'.next.toList = s.next.toList ++ List.range' s.arena.size (s.admitted cs).length
  seen_iff : ∀ c, c ∈ s'.seen ↔ c ∈ s'.configurations
  frame : { s' with arena := s.arena, seen := s.seen, next := s.next } = s

theorem admitted_of_skipped (hdedup : s.machine.config.dedup = true) (hc : c ∈ s.configurations) :
    s.admitted (c :: cs) = s.admitted cs := by
  rw [admitted, admitted, if_pos hdedup, if_pos hdedup, fresh, if_pos hc]

theorem enter_of_skipped (hdedup : s.machine.config.dedup = true) (hseen : c ∈ s.seen) :
    enter parent s c = s := by
  rw [enter, hdedup, Std.HashSet.mem_iff_contains.1 hseen]
  rfl

/-- A search with one configuration added. -/
def push (parent : Option Nat) (s : Search) (c : Configuration) : Search :=
  { s with
    arena := s.arena.push ⟨c, parent⟩
    seen := s.seen.insert c
    next := s.next.push s.arena.size }

theorem enter_of_new (h : ¬(s.machine.config.dedup = true ∧ c ∈ s.seen)) :
    enter parent s c = push parent s c := by
  rw [enter, if_neg]
  · rfl
  · rwa [Bool.and_eq_true, ← Std.HashSet.mem_iff_contains]

theorem configurations_push (parent : Option Nat) (s : Search) (c : Configuration) :
    (push parent s c).configurations = s.configurations ++ [c] := by
  simp [configurations, push]

theorem admitted_of_new (h : ¬(s.machine.config.dedup = true ∧ c ∈ s.configurations)) :
    s.admitted (c :: cs) = c :: (push parent s c).admitted cs := by
  have hmachine : (push parent s c).machine = s.machine := rfl
  by_cases hdedup : s.machine.config.dedup = true
  · have hc : c ∉ s.configurations := fun hc => h ⟨hdedup, hc⟩
    rw [admitted, admitted, hmachine, if_pos hdedup, if_pos hdedup, fresh, if_neg hc, configurations_push]
    congr 1
    apply fresh_congr
    intro a
    rw [List.mem_cons, List.mem_append, List.mem_singleton, or_comm]
  · rw [admitted, admitted, hmachine, if_neg hdedup, if_neg hdedup]

theorem entered_foldl (hseen : ∀ c, c ∈ s.seen ↔ c ∈ s.configurations) (parent : Option Nat)
    (cs : List Configuration) : Entered s parent cs (cs.foldl (enter parent) s) := by
  induction cs generalizing s with
  | nil =>
      have hadmitted : s.admitted [] = [] := by
        unfold admitted
        split <;> rfl
      refine ⟨?_, ?_, hseen, rfl⟩
      · rw [hadmitted, List.map_nil, List.append_nil, List.foldl_nil]
      · rw [hadmitted, List.length_nil, List.range'_zero, List.append_nil, List.foldl_nil]
  | cons c cs ih =>
      rw [List.foldl_cons]
      by_cases hskip : s.machine.config.dedup = true ∧ c ∈ s.seen
      · rw [enter_of_skipped hskip.1 hskip.2]
        have h := ih hseen
        have hadmitted : s.admitted (c :: cs) = s.admitted cs :=
          admitted_of_skipped hskip.1 ((hseen c).1 hskip.2)
        refine ⟨?_, ?_, h.seen_iff, h.frame⟩
        · rw [hadmitted, h.arena_eq]
        · rw [hadmitted, h.next_eq]
      · rw [enter_of_new hskip]
        have hseen' : ∀ d, d ∈ (push parent s c).seen ↔ d ∈ (push parent s c).configurations := by
          intro d
          rw [configurations_push, List.mem_append, List.mem_singleton, ← hseen d]
          show d ∈ s.seen.insert c ↔ _
          rw [Std.HashSet.mem_insert, beq_iff_eq, or_comm, eq_comm]
        have h := ih hseen'
        have hadmitted : s.admitted (c :: cs) = c :: (push parent s c).admitted cs := by
          apply admitted_of_new
          rwa [← hseen c]
        refine ⟨?_, ?_, h.seen_iff, ?_⟩
        · rw [hadmitted, h.arena_eq, push, Array.toList_push, List.map_cons, List.append_assoc,
            List.singleton_append]
        · rw [hadmitted, h.next_eq, List.length_cons, List.range'_succ]
          simp [push]
        · exact congrArg (fun t : Search =>
            { t with arena := s.arena, seen := s.seen, next := s.next }) h.frame

theorem Entered.configurations_eq (h : Entered s parent cs s') :
    s'.configurations = s.configurations ++ s.admitted cs := by
  rw [configurations, h.arena_eq, List.map_append, List.map_map]
  congr 1
  exact List.map_id _

/-- Whatever is not added was there before. -/
theorem Entered.mem_configurations (h : Entered s parent cs s') (hc : c ∈ cs) : c ∈ s'.configurations := by
  rw [h.configurations_eq, List.mem_append, admitted]
  by_cases hold : c ∈ s.configurations
  · exact Or.inl hold
  · apply Or.inr
    split
    · exact mem_fresh.2 ⟨hc, hold⟩
    · exact hc

theorem Entered.size_eq (h : Entered s parent cs s') :
    s'.arena.size = s.arena.size + (s.admitted cs).length := by
  rw [← Array.length_toList, h.arena_eq, List.length_append, List.length_map, Array.length_toList]

theorem Entered.getElem?_of_lt (h : Entered s parent cs s') (hid : id < s.arena.size) :
    s'.arena[id]? = s.arena[id]? := by
  rw [← Array.getElem?_toList, h.arena_eq, List.getElem?_append_left, Array.getElem?_toList]
  rwa [Array.length_toList]

theorem Entered.getElem?_of_le (h : Entered s parent cs s') (hle : s.arena.size ≤ id) {node : Node}
    (hnode : s'.arena[id]? = some node) : node.parent = parent ∧ node.configuration ∈ cs := by
  rw [← Array.getElem?_toList, h.arena_eq, List.getElem?_append_right] at hnode
  · obtain ⟨c, hc, rfl⟩ := List.mem_map.1 (List.mem_of_getElem? hnode)
    exact ⟨rfl, subset_of_mem_admitted hc⟩
  · rwa [Array.length_toList]

/-- What has been entered last has the parent that it was entered with. -/
theorem Entered.parent?_of_le (h : Entered s parent cs s') (hle : s.arena.size ≤ id)
    (hid : id < s'.arena.size) : s'.parent? id = parent := by
  obtain ⟨node, hnode⟩ : ∃ node, s'.arena[id]? = some node := ⟨_, Array.getElem?_eq_getElem hid⟩
  rw [parent?, hnode, Option.bind_some]
  exact (h.getElem?_of_le hle hnode).1

theorem Entered.configuration?_of_lt (h : Entered s parent cs s') (hid : id < s.arena.size) :
    s'.configuration? id = s.configuration? id := by
  rw [configuration?, configuration?, h.getElem?_of_lt hid]

theorem Entered.parent?_of_lt (h : Entered s parent cs s') (hid : id < s.arena.size) :
    s'.parent? id = s.parent? id := by
  rw [parent?, parent?, h.getElem?_of_lt hid]

theorem Entered.machine_eq (h : Entered s parent cs s') : s'.machine = s.machine :=
  congrArg (·.machine) h.frame

theorem Entered.generation_eq (h : Entered s parent cs s') : s'.generation = s.generation :=
  congrArg (·.generation) h.frame

theorem Entered.frontier_eq (h : Entered s parent cs s') : s'.frontier = s.frontier :=
  congrArg (·.frontier) h.frame

/-! ### Ways to configurations -/

/-- Parents come before their children. -/
def Rooted (s : Search) : Prop := ∀ id p, s.parent? id = some p → p < id

theorem chain_eq_append (s : Search) (limit id : Nat) (below : List Nat) :
    s.chain limit id below = s.chain limit id [] ++ below := by
  induction limit generalizing id below with
  | zero => rfl
  | succ limit ih =>
      unfold chain
      split
      next => rfl
      next p _ => rw [ih p (id :: below), ih p [id], List.append_assoc, List.singleton_append]

/-- A chain of parents does not depend on the limit if that is large enough, nor on later numbers. -/
theorem chain_congr (hrooted : s.Rooted) (hsame : ∀ i ≤ id, s'.parent? i = s.parent? i) {limit limit' : Nat}
    (hlimit : id < limit) (hlimit' : id < limit') (below : List Nat) :
    s'.chain limit' id below = s.chain limit id below := by
  induction limit generalizing id limit' below with
  | zero => exact (Nat.not_lt_zero id hlimit).elim
  | succ limit ih =>
      cases limit' with
      | zero => exact (Nat.not_lt_zero id hlimit').elim
      | succ limit' =>
          unfold chain
          rw [hsame id (Nat.le_refl id)]
          cases hparent : s.parent? id with
          | none => rfl
          | some p =>
              have hp : p < id := hrooted id p hparent
              exact ih (fun i hi => hsame i (hi.trans hp.le)) (hp.trans_le (Nat.le_of_lt_succ hlimit))
                (hp.trans_le (Nat.le_of_lt_succ hlimit')) (id :: below)

theorem path_of_root (hid : id < s.arena.size) (hparent : s.parent? id = none) : s.path id = [id] := by
  rw [path, if_pos hid, chain, hparent]

theorem path_of_child (hrooted : s.Rooted) (hid : id < s.arena.size) (hparent : s.parent? id = some p) :
    s.path id = s.path p ++ [id] := by
  have hp : p < id := hrooted id p hparent
  rw [path, path, if_pos hid, if_pos (hp.trans hid), chain, hparent]
  show s.chain id p [id] = _
  rw [chain_eq_append, chain_congr hrooted (fun _ _ => rfl) (Nat.lt_succ_self p) hp]

theorem Entered.path_of_lt (h : Entered s parent cs s') (hrooted : s.Rooted) (hid : id < s.arena.size) :
    s'.path id = s.path id := by
  have hid' : id < s'.arena.size := by
    rw [h.size_eq]
    exact Nat.lt_add_right _ hid
  rw [path, path, if_pos hid, if_pos hid']
  exact chain_congr hrooted (fun i hi => h.parent?_of_lt (hi.trans_lt hid)) (Nat.lt_succ_self id)
    (Nat.lt_succ_self id) []

/-! ### Searches of a machine -/

/-- Where a configuration may come from. -/
def Origin (m : Simulator) (input : Word) (s : Search) : Option Nat → Configuration → Prop
  | none, c => c ∈ m.initialConfigurations input
  | some p, c => ∃ b, s.configuration? p = some b ∧ c ∈ m.step b

/-- Everything produced is initial or a successor of its parent, and the record of what has been seen is
right. -/
structure Grown (m : Simulator) (input : Word) (s : Search) : Prop where
  machine_eq : s.machine = m
  seen_iff : ∀ c, c ∈ s.seen ↔ c ∈ s.configurations
  rooted : s.Rooted
  origin : ∀ (id : Nat) (node : Node), s.arena[id]? = some node →
    Origin m input s node.parent node.configuration

theorem Origin.entered (h : Entered s parent cs s') (ho : Origin m input s parent' c) :
    Origin m input s' parent' c := by
  cases parent' with
  | none => exact ho
  | some p =>
      obtain ⟨b, hb, hc⟩ := ho
      exact ⟨b, (h.configuration?_of_lt (lt_size_of_configuration? hb)).trans hb, hc⟩

theorem Origin.lt_size (ho : Origin m input s (some p) c) : p < s.arena.size := by
  obtain ⟨b, hb, _⟩ := ho
  exact lt_size_of_configuration? hb

/-- Adding successors of one configuration, or initial ones, keeps a search right. -/
theorem Grown.entered (hs : Grown m input s) (h : Entered s parent cs s')
    (hcs : ∀ c ∈ cs, Origin m input s parent c) : Grown m input s' where
  machine_eq := h.machine_eq.trans hs.machine_eq
  seen_iff := h.seen_iff
  rooted := by
    intro id p hp
    by_cases hid : id < s.arena.size
    · rw [h.parent?_of_lt hid] at hp
      exact hs.rooted id p hp
    · obtain ⟨node, hnode, hparent⟩ := Option.bind_eq_some_iff.1 hp
      obtain ⟨heq, hc⟩ := h.getElem?_of_le (Nat.le_of_not_lt hid) hnode
      have ho := hcs _ hc
      rw [← heq, hparent] at ho
      exact ho.lt_size.trans_le (Nat.le_of_not_lt hid)
  origin := by
    intro id node hnode
    by_cases hid : id < s.arena.size
    · rw [h.getElem?_of_lt hid] at hnode
      exact (hs.origin id node hnode).entered h
    · obtain ⟨heq, hc⟩ := h.getElem?_of_le (Nat.le_of_not_lt hid) hnode
      rw [heq]
      exact (hcs _ hc).entered h

/-- Whatever has been produced can be reached. -/
theorem Grown.exists_reachedIn (h : Grown m input s) (hid : s.configuration? id = some c) :
    ∃ k, m.ReachedIn input k c := by
  induction id using Nat.strongRecOn generalizing c with
  | ind id ih =>
      obtain ⟨node, hnode, rfl⟩ := Option.map_eq_some_iff.1 hid
      have horigin := h.origin id node hnode
      cases hparent : node.parent with
      | none =>
          rw [hparent] at horigin
          exact ⟨0, .initial horigin⟩
      | some p =>
          rw [hparent] at horigin
          obtain ⟨b, hb, hstep⟩ := horigin
          have hlt : p < id := h.rooted id p (by rw [parent?, hnode, Option.bind_some, hparent])
          obtain ⟨k, hk⟩ := ih p hlt hb
          exact ⟨k + 1, hk.step hstep⟩

/-- The way to a configuration is a run that ends in it. -/
theorem Grown.isRun_path (hs : Grown m input s) (hid : id < s.arena.size) : ∃ cs,
    (s.path id).map s.configuration? = cs.map some ∧ m.IsRun input cs ∧ cs.getLast? = s.configuration? id := by
  induction id using Nat.strongRecOn with
  | ind id ih =>
      obtain ⟨node, hnode⟩ : ∃ node, s.arena[id]? = some node := ⟨_, Array.getElem?_eq_getElem hid⟩
      have hconfiguration : s.configuration? id = some node.configuration := by
        rw [configuration?, hnode, Option.map_some]
      have hparent : s.parent? id = node.parent := by
        rw [parent?, hnode, Option.bind_some]
      have horigin := hs.origin id node hnode
      rw [hconfiguration]
      cases hp : node.parent with
      | none =>
          rw [hp] at hparent horigin
          rw [path_of_root hid hparent]
          refine ⟨[node.configuration], ?_, ⟨⟨_, horigin, rfl⟩, .singleton _⟩, rfl⟩
          rw [List.map_singleton, List.map_singleton, hconfiguration]
      | some p =>
          rw [hp] at hparent horigin
          have hlt : p < id := hs.rooted id p hparent
          obtain ⟨b, hb, hstep⟩ := horigin
          obtain ⟨cs, hcs, ⟨hinitial, hchain⟩, hlast⟩ := ih p hlt (hlt.trans hid)
          rw [hb] at hlast
          rw [path_of_child hs.rooted hid hparent]
          refine ⟨cs ++ [node.configuration], ?_, ⟨?_, ?_⟩, List.getLast?_concat⟩
          · rw [List.map_append, List.map_append, hcs, List.map_singleton, List.map_singleton, hconfiguration]
          · obtain ⟨c, hc, hhead⟩ := hinitial
            exact ⟨c, hc, by rw [List.head?_append, hhead, Option.some_or]⟩
          · rw [List.isChain_append]
            refine ⟨hchain, .singleton _, ?_⟩
            intro x hx y hy
            rw [hlast] at hx
            obtain rfl := Option.some.inj hx
            obtain rfl := Option.some.inj hy
            exact hstep

end Search

end LanguageTheory
