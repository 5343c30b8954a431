import LanguageTheory.Proofs.Regular.Dfa
import LanguageTheory.Regular.Minimization
import Mathlib.Data.List.Pairwise

/-! Partitions of a set of states and what one round of refinement does to them. Two states share a
block afterwards if they did before and have the same signature. The rounds compare the states on ever
longer words: after `k` of them two states share a block exactly if they agree on all words of at most
`k` symbols. Once a round changes nothing, sharing a block means having the same residual. -/

namespace LanguageTheory

namespace Partition

/-- The blocks are not empty, no two of them have a state in common, and together they hold exactly
the given states. -/
structure Of (p : Partition) (members : List StateId) : Prop where
  ne_nil : ∀ block ∈ p, block ≠ []
  disjoint : p.Pairwise List.Disjoint
  mem_iff : ∀ s, s ∈ members ↔ ∃ block ∈ p, s ∈ block

/-- Whether two states are in one block. -/
def Together (p : Partition) (s t : StateId) : Prop := ∃ block ∈ p, s ∈ block ∧ t ∈ block

variable {p : Partition} {members : List StateId} {s t : StateId}

theorem Of.mem_of_together (hp : p.Of members) (h : p.Together s t) : s ∈ members ∧ t ∈ members := by
  obtain ⟨block, hblock, hs, ht⟩ := h
  exact ⟨(hp.mem_iff s).2 ⟨block, hblock, hs⟩, (hp.mem_iff t).2 ⟨block, hblock, ht⟩⟩

/-! ### Numbers of blocks -/

theorem Of.blockOf_lt (hp : p.Of members) (hs : s ∈ members) : p.blockOf s < p.length := by
  obtain ⟨block, hblock, hs⟩ := (hp.mem_iff s).1 hs
  exact List.findIdx_lt_length_of_exists ⟨block, hblock, by simpa using hs⟩

theorem Of.mem_blockOf (hp : p.Of members) (hs : s ∈ members) :
    ∃ block, p[p.blockOf s]? = some block ∧ s ∈ block := by
  have hlt : p.findIdx (·.contains s) < p.length := hp.blockOf_lt hs
  have h := List.findIdx_getElem (w := hlt)
  exact ⟨_, List.getElem?_eq_getElem hlt, by simpa using h⟩

theorem Of.blockOf_eq (hp : p.Of members) {i : Nat} {block : List StateId} (hi : p[i]? = some block)
    (hs : s ∈ block) : p.blockOf s = i := by
  have hmem : s ∈ members := (hp.mem_iff s).2 ⟨block, List.mem_of_getElem? hi, hs⟩
  obtain ⟨block', hblock, hs'⟩ := hp.mem_blockOf hmem
  obtain ⟨hlt, rfl⟩ := List.getElem?_eq_some_iff.1 hi
  obtain ⟨hlt', rfl⟩ := List.getElem?_eq_some_iff.1 hblock
  rcases Nat.lt_trichotomy (p.blockOf s) i with h | h | h
  · exact (List.pairwise_iff_getElem.1 hp.disjoint _ _ hlt' hlt h hs' hs).elim
  · exact h
  · exact (List.pairwise_iff_getElem.1 hp.disjoint _ _ hlt hlt' h hs hs').elim

theorem Of.together_iff (hp : p.Of members) (hs : s ∈ members) (ht : t ∈ members) :
    p.Together s t ↔ p.blockOf s = p.blockOf t := by
  constructor
  · rintro ⟨block, hblock, hs, ht⟩
    obtain ⟨i, hi⟩ := List.mem_iff_getElem?.1 hblock
    rw [hp.blockOf_eq hi hs, hp.blockOf_eq hi ht]
  · intro h
    obtain ⟨block, hblock, hs⟩ := hp.mem_blockOf hs
    obtain ⟨block', hblock', ht⟩ := hp.mem_blockOf ht
    rw [← h, hblock] at hblock'
    obtain rfl := Option.some.inj hblock'
    exact ⟨block, List.mem_of_getElem? hblock, hs, ht⟩

/-- There are no more blocks than states: each block has a first member, and these are distinct. -/
theorem Of.length_le (hp : p.Of members) : p.length ≤ members.length := by
  have hdistinct : (p.filterMap List.head?).Nodup := by
    refine List.Pairwise.filterMap _ ?_ hp.disjoint
    rintro b c hbc s hs t ht rfl
    exact hbc (List.mem_of_head? hs) (List.mem_of_head? ht)
  have hsub : p.filterMap List.head? ⊆ members := by
    intro s hs
    obtain ⟨block, hblock, hs⟩ := List.mem_filterMap.1 hs
    exact (hp.mem_iff s).2 ⟨block, hblock, List.mem_of_head? hs⟩
  have hlength : (p.filterMap List.head?).length = p.length := by
    rw [List.length_filterMap_eq_countP, List.countP_eq_length]
    intro block hblock
    exact List.isSome_head?.2 (hp.ne_nil block hblock)
  rw [← hlength]
  exact (hdistinct.subperm hsub).length_le

/-! ### Grouping -/

section Grouping

variable {κ : Type} [DecidableEq κ] {key : StateId → κ}

theorem mem_groupBy {group : List StateId} :
    group ∈ groupBy key members ↔ ∃ s ∈ members, group = members.filter fun t => key t = key s := by
  simp only [groupBy, List.mem_map, mem_fresh, List.not_mem_nil, not_false_eq_true, and_true]
  constructor
  · rintro ⟨_, ⟨s, hs, rfl⟩, rfl⟩
    exact ⟨s, hs, rfl⟩
  · rintro ⟨s, hs, rfl⟩
    exact ⟨_, ⟨s, hs, rfl⟩, rfl⟩

theorem of_groupBy : (groupBy key members).Of members where
  ne_nil := by
    intro group hgroup
    obtain ⟨s, hs, rfl⟩ := mem_groupBy.1 hgroup
    exact List.ne_nil_of_mem (List.mem_filter.2 ⟨hs, by simp⟩)
  disjoint := by
    refine List.pairwise_map.2 ((nodup_fresh _ _).imp ?_)
    intro k l hkl s hk hl
    have hk := (List.mem_filter.1 hk).2
    have hl := (List.mem_filter.1 hl).2
    simp only [decide_eq_true_eq] at hk hl
    exact hkl (hk ▸ hl)
  mem_iff := by
    intro s
    constructor
    · intro hs
      exact ⟨_, mem_groupBy.2 ⟨s, hs, rfl⟩, List.mem_filter.2 ⟨hs, by simp⟩⟩
    · rintro ⟨group, hgroup, hs⟩
      obtain ⟨t, _, rfl⟩ := mem_groupBy.1 hgroup
      exact (List.mem_filter.1 hs).1

theorem together_groupBy_iff :
    (groupBy key members).Together s t ↔ s ∈ members ∧ t ∈ members ∧ key s = key t := by
  constructor
  · rintro ⟨group, hgroup, hs, ht⟩
    obtain ⟨r, _, rfl⟩ := mem_groupBy.1 hgroup
    obtain ⟨hs, hsr⟩ := List.mem_filter.1 hs
    obtain ⟨ht, htr⟩ := List.mem_filter.1 ht
    simp only [decide_eq_true_eq] at hsr htr
    exact ⟨hs, ht, hsr.trans htr.symm⟩
  · rintro ⟨hs, ht, hst⟩
    exact ⟨_, mem_groupBy.2 ⟨t, ht, rfl⟩, List.mem_filter.2 ⟨hs, by simpa using hst⟩,
      List.mem_filter.2 ⟨ht, by simp⟩⟩

/-- A list that stays in one group has one key. -/
theorem key_eq_of_length_groupBy (h : (groupBy key members).length = 1) (hs : s ∈ members)
    (ht : t ∈ members) : key s = key t := by
  have hgroups : (groupBy key members).Of members := of_groupBy
  obtain ⟨group, hgroup⟩ := List.length_eq_one_iff.1 h
  obtain ⟨b, hb, hsb⟩ := (hgroups.mem_iff s).1 hs
  obtain ⟨c, hc, htc⟩ := (hgroups.mem_iff t).1 ht
  rw [hgroup, List.mem_singleton] at hb hc
  subst hb
  subst hc
  have htogether : (groupBy key members).Together s t := ⟨_, by rw [hgroup]; simp, hsb, htc⟩
  exact (together_groupBy_iff.1 htogether).2.2

theorem length_groupBy_pos (h : members ≠ []) : 1 ≤ (groupBy key members).length := by
  obtain ⟨s, hs⟩ := List.exists_mem_of_ne_nil _ h
  exact List.length_pos_of_mem (mem_groupBy.2 ⟨s, hs, rfl⟩)

end Grouping

/-- Splitting every block of a partition gives a partition of the same states. -/
theorem Of.flatMap (hp : p.Of members) {split : List StateId → Partition}
    (hsplit : ∀ block ∈ p, (split block).Of block) : Partition.Of (p.flatMap split) members where
  ne_nil := by
    intro group hgroup
    obtain ⟨block, hblock, hgroup⟩ := List.mem_flatMap.1 hgroup
    exact (hsplit block hblock).ne_nil group hgroup
  disjoint := by
    refine List.pairwise_flatMap.2 ⟨fun block hblock => (hsplit block hblock).disjoint, ?_⟩
    refine hp.disjoint.imp_of_mem fun {b c} hb hc hbc => ?_
    intro x hx y hy s hsx hsy
    exact hbc (((hsplit b hb).mem_iff s).2 ⟨x, hx, hsx⟩) (((hsplit c hc).mem_iff s).2 ⟨y, hy, hsy⟩)
  mem_iff := by
    intro s
    rw [hp.mem_iff]
    constructor
    · rintro ⟨block, hblock, hs⟩
      obtain ⟨group, hgroup, hs⟩ := ((hsplit block hblock).mem_iff s).1 hs
      exact ⟨group, List.mem_flatMap.2 ⟨block, hblock, hgroup⟩, hs⟩
    · rintro ⟨group, hgroup, hs⟩
      obtain ⟨block, hblock, hgroup⟩ := List.mem_flatMap.1 hgroup
      exact ⟨block, hblock, ((hsplit block hblock).mem_iff s).2 ⟨group, hgroup, hs⟩⟩

theorem together_flatMap_iff {split : List StateId → Partition} :
    Together (p.flatMap split) s t ↔ ∃ block ∈ p, (split block).Together s t := by
  simp only [Together, List.mem_flatMap]
  constructor
  · rintro ⟨group, ⟨block, hblock, hgroup⟩, hst⟩
    exact ⟨block, hblock, group, hgroup, hst⟩
  · rintro ⟨block, hblock, group, hgroup, hst⟩
    exact ⟨group, ⟨block, hblock, hgroup⟩, hst⟩

end Partition

theorem length_le_length_flatMap {α β : Type} {l : List α} {f : α → List β}
    (hf : ∀ a ∈ l, 1 ≤ (f a).length) : l.length ≤ (l.flatMap f).length := by
  induction l with
  | nil => simp
  | cons a rest ih =>
      have hrest := ih fun b hb => hf b (List.mem_cons_of_mem a hb)
      have ha := hf a List.mem_cons_self
      rw [List.flatMap_cons, List.length_append, List.length_cons]
      omega

/-- If every member of a list gives at least one result and there are no more results than members,
each gives exactly one. -/
theorem length_eq_one_of_length_flatMap {α β : Type} {l : List α} {f : α → List β}
    (hf : ∀ a ∈ l, 1 ≤ (f a).length) (h : (l.flatMap f).length ≤ l.length) :
    ∀ a ∈ l, (f a).length = 1 := by
  induction l with
  | nil => simp
  | cons a rest ih =>
      have hrest : ∀ b ∈ rest, 1 ≤ (f b).length := fun b hb => hf b (List.mem_cons_of_mem a hb)
      have ha := hf a List.mem_cons_self
      have hlower := length_le_length_flatMap hrest
      rw [List.flatMap_cons, List.length_append, List.length_cons] at h
      intro b hb
      rcases List.mem_cons.1 hb with rfl | hb
      · omega
      · exact ih hrest (by omega) b hb

namespace Dfa

variable {d : Dfa} {trap : Option StateId} {members : List StateId} {p : Partition} {s t : StateId}

/-! ### One round -/

theorem of_refine (hp : p.Of members) : (d.refine trap p).Of members :=
  hp.flatMap fun _ _ => Partition.of_groupBy

theorem together_refine_iff : (d.refine trap p).Together s t ↔
    p.Together s t ∧ d.signature trap p s = d.signature trap p t := by
  rw [refine, Partition.together_flatMap_iff]
  constructor
  · rintro ⟨block, hblock, h⟩
    obtain ⟨hs, ht, hkey⟩ := Partition.together_groupBy_iff.1 h
    exact ⟨⟨block, hblock, hs, ht⟩, hkey⟩
  · rintro ⟨⟨block, hblock, hs, ht⟩, hkey⟩
    exact ⟨block, hblock, Partition.together_groupBy_iff.2 ⟨hs, ht, hkey⟩⟩

theorem length_groups_pos (hp : p.Of members) :
    ∀ block ∈ p, 1 ≤ (Partition.groupBy (d.signature trap p) block).length :=
  fun block hblock => Partition.length_groupBy_pos (hp.ne_nil block hblock)

theorem length_le_length_refine (hp : p.Of members) : p.length ≤ (d.refine trap p).length :=
  length_le_length_flatMap (length_groups_pos hp)

/-- A round that makes the partition no longer splits no block. -/
theorem signature_eq_of_length_le (hp : p.Of members) (h : (d.refine trap p).length ≤ p.length)
    (hst : p.Together s t) : d.signature trap p s = d.signature trap p t := by
  obtain ⟨block, hblock, hs, ht⟩ := hst
  have hone := length_eq_one_of_length_flatMap (length_groups_pos hp) h block hblock
  exact Partition.key_eq_of_length_groupBy hone hs ht

end Dfa

end LanguageTheory
