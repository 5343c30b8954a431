import LanguageTheory.Proofs.Regular.DfaEdits
import Mathlib.Data.Set.Card

/-! What minimization shows of its rounds. The trap takes part in every round and is left out of what is shown,
so a shown round is a partition of the reachable states: the one after `k` rounds by the words of at most `k`
symbols, and the last one by residuals, with the states of the minimal automaton as its blocks. A round that is
shown has split some block before, be it only the trap from others, and this leaves no more rounds than
reachable states. -/

namespace LanguageTheory

namespace Partition

variable {p : Partition} {members : List StateId} {trap : Option StateId} {s t : StateId} {b : Nat}

/-- The blocks hold each of the states once and nothing else, and none of them is empty. -/
structure Splits (p : Partition) (states : Set StateId) : Prop where
  ne_nil : ∀ block ∈ p, block ≠ []
  nodup : p.flatten.Nodup
  mem_iff : ∀ s, s ∈ p.flatten ↔ s ∈ states

theorem Of.splits (hp : p.Of members) (hnodup : ∀ block ∈ p, block.Nodup) : p.Splits {s | s ∈ members} where
  ne_nil := hp.ne_nil
  nodup := List.nodup_flatten.2 ⟨hnodup, hp.disjoint⟩
  mem_iff := by
    intro s
    show s ∈ p.flatten ↔ s ∈ members
    rw [List.mem_flatten, hp.mem_iff]

/-! ### Leaving out the trap -/

theorem mem_without {block : List StateId} : block ∈ p.without trap ↔
    block ≠ [] ∧ ∃ whole ∈ p, (whole.filter fun s => some s ≠ trap) = block := by
  simp only [without, List.mem_filter, List.mem_map, Bool.not_eq_true', List.isEmpty_eq_false_iff]
  exact and_comm

theorem mem_filter_ne_trap {l : List StateId} : (s ∈ l.filter fun s => some s ≠ trap) ↔ s ∈ l ∧ some s ≠ trap := by
  rw [List.mem_filter, decide_eq_true_eq]

theorem Of.without (hp : p.Of members) : (p.without trap).Of (members.filter fun s => some s ≠ trap) where
  ne_nil := fun _ hblock => (mem_without.1 hblock).1
  disjoint := by
    apply List.Pairwise.filter
    apply List.pairwise_map.2
    apply hp.disjoint.imp
    intro whole whole' hdisjoint s hs hs'
    exact hdisjoint (List.mem_filter.1 hs).1 (List.mem_filter.1 hs').1
  mem_iff := by
    intro s
    rw [mem_filter_ne_trap, hp.mem_iff]
    constructor
    · intro ⟨⟨whole, hwhole, hs⟩, hne⟩
      have hmem := mem_filter_ne_trap.2 ⟨hs, hne⟩
      exact ⟨_, mem_without.2 ⟨List.ne_nil_of_mem hmem, whole, hwhole, rfl⟩, hmem⟩
    · intro ⟨block, hblock, hs⟩
      obtain ⟨_, whole, hwhole, rfl⟩ := mem_without.1 hblock
      obtain ⟨hs, hne⟩ := mem_filter_ne_trap.1 hs
      exact ⟨⟨whole, hwhole, hs⟩, hne⟩

theorem together_without_iff (hs : some s ≠ trap) (ht : some t ≠ trap) :
    (p.without trap).Together s t ↔ p.Together s t := by
  constructor
  · intro ⟨block, hblock, hsb, htb⟩
    obtain ⟨_, whole, hwhole, rfl⟩ := mem_without.1 hblock
    exact ⟨whole, hwhole, (mem_filter_ne_trap.1 hsb).1, (mem_filter_ne_trap.1 htb).1⟩
  · intro ⟨whole, hwhole, hsw, htw⟩
    have hmem := mem_filter_ne_trap.2 ⟨hsw, hs⟩
    exact ⟨_, mem_without.2 ⟨List.ne_nil_of_mem hmem, whole, hwhole, rfl⟩, hmem, mem_filter_ne_trap.2 ⟨htw, ht⟩⟩

theorem nodup_of_mem_without (hnodup : ∀ block ∈ p, block.Nodup) : ∀ block ∈ p.without trap, block.Nodup := by
  intro block hblock
  obtain ⟨_, whole, hwhole, rfl⟩ := mem_without.1 hblock
  exact (hnodup whole hwhole).filter _

/-- What is left of the blocks, numbered as they are. -/
theorem without_eq (p : Partition) (trap : Option StateId) :
    p.without trap = ((List.range p.length).map (p.visible trap)).filter fun block => !block.isEmpty := by
  have hblocks : p = (List.range p.length).map fun b => p[b]?.getD [] := by
    apply List.ext_getElem
    · rw [List.length_map, List.length_range]
    · intro b hb _
      rw [List.getElem_map, List.getElem_range, List.getElem?_eq_getElem hb, Option.getD_some]
  conv_lhs => rw [without, hblocks, List.map_map]
  rfl

/-! ### Partitions with few blocks -/

/-- If all states are together there is no more than one block. -/
theorem Of.length_le_one (hp : p.Of members) (h : ∀ s ∈ members, ∀ t ∈ members, p.Together s t) :
    p.length ≤ 1 := by
  by_contra hlength
  have hfirst : p[0]? = some p[0] := List.getElem?_eq_getElem (by omega)
  have hsecond : p[1]? = some p[1] := List.getElem?_eq_getElem (by omega)
  obtain ⟨s, hs⟩ := List.exists_mem_of_ne_nil _ (hp.ne_nil _ (List.mem_of_getElem? hfirst))
  obtain ⟨t, ht⟩ := List.exists_mem_of_ne_nil _ (hp.ne_nil _ (List.mem_of_getElem? hsecond))
  have hsm := (hp.mem_iff s).2 ⟨_, List.mem_of_getElem? hfirst, hs⟩
  have htm := (hp.mem_iff t).2 ⟨_, List.mem_of_getElem? hsecond, ht⟩
  have hsame := (hp.together_iff hsm htm).1 (h s hsm t htm)
  rw [hp.blockOf_eq hfirst hs, hp.blockOf_eq hsecond ht] at hsame
  omega

theorem Of.together_of_length_eq_one (hp : p.Of members) (h : p.length = 1) (hs : s ∈ members)
    (ht : t ∈ members) : p.Together s t := by
  rw [hp.together_iff hs ht]
  have hslt := hp.blockOf_lt hs
  have htlt := hp.blockOf_lt ht
  omega

end Partition

namespace Dfa

variable {d : Dfa} {trap : Option StateId} {members : List StateId} {p q : Partition} {s t start : StateId}
  {b k limit : Nat}

/-! ### Number of rounds -/

/-- What holds of a partition and passes to the next one holds of all that follow. -/
theorem forall_mem_refinements {I : Partition → Prop} (hnext : ∀ p, I p → I (d.refine trap p)) (hp : I p) :
    ∀ q ∈ d.refinements trap limit p, I q := by
  induction limit generalizing p with
  | zero =>
      intro q hq
      obtain rfl := List.mem_singleton.1 hq
      exact hp
  | succ limit ih =>
      intro q hq
      unfold refinements at hq
      dsimp only at hq
      split at hq
      · obtain rfl := List.mem_singleton.1 hq
        exact hp
      · rcases List.mem_cons.1 hq with rfl | hq
        · exact hp
        · exact ih (hnext p hp) q hq

theorem nodup_of_mem_refine (hnodup : ∀ block ∈ p, block.Nodup) : ∀ block ∈ d.refine trap p, block.Nodup := by
  intro group hgroup
  obtain ⟨block, hblock, hgroup⟩ := List.mem_flatMap.1 hgroup
  obtain ⟨s, _, rfl⟩ := Partition.mem_groupBy.1 hgroup
  exact (hnodup block hblock).filter _

/-- Each round but the first has one block more than the round before it, or several. -/
theorem length_refinements_add_le (hp : p.Of members) :
    (d.refinements trap limit p).length + p.length ≤ members.length + 1 := by
  induction limit generalizing p with
  | zero =>
      have hle := hp.length_le
      rw [refinements, List.length_singleton]
      omega
  | succ limit ih =>
      unfold refinements
      dsimp only
      split
      · have hle := hp.length_le
        rw [List.length_singleton]
        omega
      · have hgrows : p.length ≤ (d.refine trap p).length := length_le_length_refine hp
        have hrest := @ih (d.refine trap p) (of_refine hp)
        rw [List.length_cons]
        omega

/-- A single block is never split: all its members move into it. -/
theorem length_refine_of_length_eq_one (hcompleted : d.Completed trap members) (hp : p.Of members)
    (h : p.length = 1) : (d.refine trap p).length = 1 := by
  have hlower : p.length ≤ (d.refine trap p).length := length_le_length_refine hp
  have hupper : (d.refine trap p).length ≤ 1 := by
    apply (of_refine hp).length_le_one
    intro s hs t ht
    rw [together_refine_iff]
    refine ⟨hp.together_of_length_eq_one h hs ht, (signature_eq_iff hcompleted hp hs ht).2 ?_⟩
    intro c hc s' t' hs' ht'
    obtain ⟨u, hu, hfu, _⟩ := hcompleted s hs c hc
    obtain ⟨v, hv, hfv, _⟩ := hcompleted t ht c hc
    obtain rfl := Option.some.inj (hfu.symm.trans hs')
    obtain rfl := Option.some.inj (hfv.symm.trans ht')
    exact hp.together_of_length_eq_one h hu hv
  omega

theorem length_refinements_of_length_eq_one (hcompleted : d.Completed trap members) (hp : p.Of members)
    (h : p.length = 1) : (d.refinements trap limit p).length = 1 := by
  cases limit with
  | zero => rfl
  | succ limit =>
      have hstable := length_refine_of_length_eq_one hcompleted hp h
      unfold refinements
      dsimp only
      rw [if_pos (hstable.trans h.symm), List.length_singleton]

theorem length_members (d : Dfa) : d.members.length = d.reachable.size + d.trap?.toList.length :=
  List.length_append

/-- The trap is one more state to tell apart, but then it is told from some final state at the very start,
unless there is nothing to tell apart at all. -/
theorem length_history_le (hd : d.WellFormed) (hstart : d.start = some start) :
    d.history.length ≤ d.reachable.size := by
  have hp := of_splitByFinality d d.members
  have hreachable := hd.tabulated.mem_reachable.2 (reachable_start hstart)
  have hsize : 0 < d.reachable.size := List.length_pos_of_mem hreachable
  have htrap : d.trap?.toList.length ≤ 1 := by cases d.trap? <;> simp
  have hmembers := d.length_members
  have hpos : 0 < (d.splitByFinality d.members).length := by
    have hmem := hd.mem_members.2 (Or.inl (reachable_start hstart))
    have hlt := hp.blockOf_lt hmem
    omega
  by_cases hone : (d.splitByFinality d.members).length = 1
  · rw [history, length_refinements_of_length_eq_one hd.completed_members hp hone]
    exact hsize
  · have hbound : d.history.length + (d.splitByFinality d.members).length ≤ d.members.length + 1 :=
      length_refinements_add_le hp
    omega

/-! ### The shown rounds -/

theorem filter_members (hd : d.WellFormed) :
    {s | s ∈ d.members.filter fun s => some s ≠ d.trap?} = {s | d.Reachable s} := by
  ext s
  show (s ∈ d.members.filter fun s => some s ≠ d.trap?) ↔ d.Reachable s
  rw [Partition.mem_filter_ne_trap, hd.mem_members]
  constructor
  · intro ⟨hs, hne⟩
    exact hs.resolve_right fun htrap => hne htrap.symm
  · intro hs
    exact ⟨Or.inl hs, hs.ne_trap hd⟩

theorem nodup_members (hd : d.WellFormed) : d.members.Nodup := by
  refine List.nodup_append.2 ⟨d.reachable.nodup_toList, by cases d.trap? <;> simp, ?_⟩
  intro s hs t ht hst
  subst hst
  exact (hd.tabulated.mem_reachable.1 hs).ne_trap hd (Option.mem_toList.1 ht).symm

theorem nodup_of_mem_history (hd : d.WellFormed) (hp : p ∈ d.history) : ∀ block ∈ p, block.Nodup := by
  apply forall_mem_refinements (I := fun p => ∀ block ∈ p, block.Nodup) (fun p => nodup_of_mem_refine) ?_ p hp
  intro block hblock
  obtain ⟨rfl | rfl, _⟩ := mem_splitByFinality.1 hblock
  · exact (nodup_members hd).filter _
  · exact (nodup_members hd).filter _

/-- Only words over the alphabet need to be compared. -/
theorem WellFormed.agree_iff (hd : d.WellFormed) : d.Agree k s t ↔ ∀ w : List SymbolId, w.length ≤ k →
    (∀ c ∈ w, c ∈ d.alphabet) → d.acceptsFrom s w = d.acceptsFrom t w := by
  constructor
  · intro h w hw _
    rw [Bool.eq_iff_iff]
    exact h w hw
  · intro h w hw
    by_cases hover : ∀ c ∈ w, c ∈ d.alphabet
    · exact Bool.eq_iff_iff.1 (h w hw hover)
    · have hforeign : ∀ r, w ∉ d.residual r := fun r hr => hover (hd.tabulated.mem_alphabet_of_mem_residual hr)
      exact iff_of_false (hforeign s) (hforeign t)

/-! ### The last round -/

theorem visible_eq_nil_of_trapBlock? (h : p.trapBlock? trap = some b) : p.visible trap b = [] := by
  obtain ⟨t, ht, _, hall⟩ := trapBlock?_eq_some h
  apply List.filter_eq_nil_iff.2
  intro s hs
  rw [hall s hs, ht]
  simp

/-- The states of the minimal automaton are the blocks of the last round, that of the start state moved to
the front. -/
theorem perm_map_visible_kept (hd : d.WellFormed) (hp : d.ResidualPartition p) (hstart : d.Reachable start) :
    (p.without d.trap?).Perm ((p.kept start d.trap?).map (p.visible d.trap?)) := by
  have hkept : (p.kept start d.trap?).Perm
      ((List.range p.length).filter fun b => some b ≠ p.trapBlock? d.trap?) := by
    rw [List.perm_ext_iff_of_nodup (nodup_kept p start d.trap?) (List.nodup_range.filter _)]
    intro b
    rw [mem_kept_iff hd hp hstart, List.mem_filter, List.mem_range, decide_eq_true_eq]
  have hvisible : ∀ b ∈ List.range p.length,
      (!(p.visible d.trap? b).isEmpty) = decide (some b ≠ p.trapBlock? d.trap?) := by
    intro b hb
    by_cases htrap : some b = p.trapBlock? d.trap?
    · rw [visible_eq_nil_of_trapBlock? htrap.symm, decide_eq_false (not_not.2 htrap)]
      rfl
    · obtain ⟨r, hr, _⟩ := head?_visible hd hp hstart
        ((mem_kept_iff hd hp hstart).2 ⟨List.mem_range.1 hb, htrap⟩)
      rw [decide_eq_true htrap, Bool.not_eq_true', List.isEmpty_eq_false_iff]
      exact List.ne_nil_of_mem (List.mem_of_head? hr)
  have hfilter : (List.range p.length).filter ((fun block => !block.isEmpty) ∘ p.visible d.trap?) =
      (List.range p.length).filter fun b => some b ≠ p.trapBlock? d.trap? := List.filter_congr hvisible
  rw [p.without_eq, List.filter_map, hfilter]
  exact (hkept.map _).symm

/-! ### The history -/

/-- The rounds shown with a minimal automaton compare the reachable states on ever longer words, until they are
told apart as far as any words do it. -/
structure MooreRounds (d : Dfa) (m : Minimized) : Prop where
  splits : ∀ (k : Nat) (p : Partition), m.rounds[k]? = some p → p.Splits {s | d.Reachable s}
  together_iff : ∀ (k : Nat) (p : Partition), m.rounds[k]? = some p → ∀ s t, d.Reachable s → d.Reachable t →
    (p.Together s t ↔ ∀ w : List SymbolId, w.length ≤ k → (∀ c ∈ w, c ∈ d.alphabet) →
      d.acceptsFrom s w = d.acceptsFrom t w)
  last : ∃ p : Partition, m.rounds.getLast? = some p ∧ p.Perm m.blocks ∧
    ∀ s t, d.Reachable s → d.Reachable t → (p.Together s t ↔ d.residual s = d.residual t)
  length_le : (m.rounds.length : ℕ∞) ≤ {s | d.Reachable s}.encard

theorem partitionAt_history (hd : d.WellFormed) (hp : d.history[k]? = some p) :
    d.PartitionAt d.members k p := by
  have hat := (partitionAt_zero d d.members).refinements hd hd.completed_members hp
  rwa [Nat.zero_add] at hat

theorem encard_reachable_eq (hd : d.WellFormed) : {s | d.Reachable s}.encard = d.reachable.size := by
  have hset : {s | d.Reachable s} = (d.reachable.toList.toFinset : Set StateId) := by
    ext s
    rw [Finset.mem_coe, List.mem_toFinset]
    exact hd.tabulated.mem_reachable.symm
  rw [hset, Set.encard_coe_eq_coe_finsetCard, List.toFinset_card_of_nodup d.reachable.nodup_toList]
  rfl

theorem rounds_minimize (hstart : d.start = some start) :
    d.minimize.rounds = d.history.map fun p => p.without d.trap? := by
  rw [minimize, hstart]

theorem getLast?_rounds (hstart : d.start = some start) :
    d.minimize.rounds.getLast? = some ((d.history.getLastD []).without d.trap?) := by
  have hne : d.history ≠ [] := refinements_ne_nil d d.trap? d.members.length _
  rw [rounds_minimize hstart, List.getLast?_map, List.getLastD_eq_getLast?, List.getLast?_eq_some_getLast hne]
  rfl

theorem blocks_minimize (hstart : d.start = some start) : d.minimize.blocks =
    ((d.history.getLastD []).kept start d.trap?).map ((d.history.getLastD []).visible d.trap?) := by
  rw [minimize, hstart]
  rfl

theorem mooreRounds_minimize (hd : d.WellFormed) (hstart : d.start = some start) :
    d.MooreRounds d.minimize := by
  have hshown : ∀ (k : Nat) (p : Partition), d.minimize.rounds[k]? = some p →
      ∃ q : Partition, d.history[k]? = some q ∧ q.without d.trap? = p := by
    intro k p hp
    rwa [rounds_minimize hstart, List.getElem?_map, Option.map_eq_some_iff] at hp
  refine ⟨?_, ?_, ⟨_, getLast?_rounds hstart, ?_, ?_⟩, ?_⟩
  · intro k p hp
    obtain ⟨q, hq, rfl⟩ := hshown k p hp
    rw [← filter_members hd]
    apply (partitionAt_history hd hq).of.without.splits
    exact Partition.nodup_of_mem_without (nodup_of_mem_history hd (List.mem_of_getElem? hq))
  · intro k p hp s t hs ht
    obtain ⟨q, hq, rfl⟩ := hshown k p hp
    rw [Partition.together_without_iff (hs.ne_trap hd) (ht.ne_trap hd), ← hd.agree_iff]
    exact (partitionAt_history hd hq).together_iff s (hd.mem_members.2 (Or.inl hs)) t (hd.mem_members.2 (Or.inl ht))
  · rw [blocks_minimize hstart]
    exact perm_map_visible_kept hd (residualPartition_last hd) (reachable_start hstart)
  · intro s t hs ht
    rw [Partition.together_without_iff (hs.ne_trap hd) (ht.ne_trap hd)]
    exact (residualPartition_last hd).together_iff s (hd.mem_members.2 (Or.inl hs)) t (hd.mem_members.2 (Or.inl ht))
  · rw [encard_reachable_eq hd, rounds_minimize hstart, List.length_map]
    exact_mod_cast length_history_le hd hstart

/-- Whatever edits an automaton is built by, as long as it has a start state and no state is named that is not
there, the rounds of its minimization are those by the words of at most `k` symbols, for each `k` in turn. -/
theorem mooreRounds_edits (edits : List Edit) (hrange : (edits.foldl edit empty).InRange)
    (hstart : (edits.foldl edit empty).start = some start) :
    (edits.foldl edit empty).MooreRounds (edits.foldl edit empty).minimize :=
  mooreRounds_minimize ((tabulated_empty.edits edits).wellFormed hrange) hstart

/-- Two ways to a final state that merge, a dead state, and one that cannot be reached. -/
def joining : List Edit :=
  [.addState, .addState, .addState, .addState, .addState, .addState, .setStart 0, .addFinal 3, .addFinal 5,
    .addMove ⟨0, 97, 1⟩, .addMove ⟨0, 98, 2⟩, .addMove ⟨1, 98, 3⟩, .addMove ⟨2, 98, 3⟩, .addMove ⟨1, 97, 4⟩,
    .addMove ⟨5, 97, 0⟩]

theorem mooreRounds_edits_joining :
    (joining.foldl edit empty).InRange ∧ (joining.foldl edit empty).start = some 0 ∧
    (joining.foldl edit empty).minimize.rounds = [[[3], [0, 1, 2, 4]], [[3], [0, 4], [1, 2]], [[3], [0], [4], [1, 2]]] ∧
    (joining.foldl edit empty).MooreRounds (joining.foldl edit empty).minimize :=
  ⟨by decide, rfl, by decide, mooreRounds_edits joining (by decide) rfl⟩

end Dfa

end LanguageTheory
