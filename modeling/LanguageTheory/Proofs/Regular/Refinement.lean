import LanguageTheory.Proofs.Regular.Partition

/-! The partitions that refinement goes through. The states taken part in it are such that every one of
them moves on every symbol of the alphabet, if need be to the trap. Starting from the partition into
final and other states, the one after `k` rounds puts two states together exactly if they agree on the
words of at most `k` symbols; the last one puts them together exactly if they have the same residual. -/

namespace LanguageTheory.Dfa

variable {d : Dfa} {trap : Option StateId} {members : List StateId} {p q : Partition} {s t : StateId}
  {k limit : Nat}

/-- Whether the same words of at most `k` symbols are accepted from two states. -/
def Agree (d : Dfa) (k : Nat) (s t : StateId) : Prop :=
  ∀ w : List SymbolId, w.length ≤ k → (w ∈ d.residual s ↔ w ∈ d.residual t)

/-- On every symbol each of the states goes on to one of them, which accepts what is left. -/
def Completed (d : Dfa) (trap : Option StateId) (members : List StateId) : Prop :=
  ∀ s ∈ members, ∀ c ∈ d.alphabet,
    ∃ t ∈ members, d.followOr trap s c = some t ∧ ∀ w, c :: w ∈ d.residual s ↔ w ∈ d.residual t

/-- The partition of the given states by agreement on words of at most `k` symbols. -/
structure PartitionAt (d : Dfa) (members : List StateId) (k : Nat) (p : Partition) : Prop where
  of : p.Of members
  together_iff : ∀ s ∈ members, ∀ t ∈ members, p.Together s t ↔ d.Agree k s t

theorem WellFormed.cons_notMem_residual (hd : d.WellFormed) {c : SymbolId} (hc : c ∉ d.alphabet)
    (w : List SymbolId) : c :: w ∉ d.residual s := by
  intro h
  exact hc (hd.tabulated.mem_alphabet_of_mem_residual h c List.mem_cons_self)

theorem forall_some_iff {r : StateId → StateId → Prop} :
    (∀ s' t', some s = some s' → some t = some t' → r s' t') ↔ r s t := by
  constructor
  · intro h
    exact h s t rfl rfl
  · intro h s' t' hs ht
    cases hs
    cases ht
    exact h

/-- Agreement on one more symbol is agreement before and, after each symbol, agreement of the states
that it leads to. -/
theorem agree_succ_iff (hd : d.WellFormed) (hcompleted : d.Completed trap members) (hs : s ∈ members)
    (ht : t ∈ members) : d.Agree (k + 1) s t ↔ d.Agree k s t ∧
      ∀ c ∈ d.alphabet, ∀ s' t', d.followOr trap s c = some s' → d.followOr trap t c = some t' →
        d.Agree k s' t' := by
  constructor
  · intro h
    refine ⟨fun w hw => h w (Nat.le_succ_of_le hw), ?_⟩
    intro c hc s' t' hs' ht' w hw
    obtain ⟨_, _, hfs, hres⟩ := hcompleted s hs c hc
    obtain ⟨_, _, hft, hret⟩ := hcompleted t ht c hc
    obtain rfl := Option.some.inj (hfs.symm.trans hs')
    obtain rfl := Option.some.inj (hft.symm.trans ht')
    rw [← hres, ← hret]
    exact h (c :: w) (Nat.succ_le_succ hw)
  · rintro ⟨hagree, hmove⟩ w hw
    cases w with
    | nil => exact hagree [] (Nat.zero_le k)
    | cons c w =>
        by_cases hc : c ∈ d.alphabet
        · obtain ⟨s', _, hfs, hres⟩ := hcompleted s hs c hc
          obtain ⟨t', _, hft, hret⟩ := hcompleted t ht c hc
          rw [hres, hret]
          exact hmove c hc s' t' hfs hft w (Nat.le_of_succ_le_succ hw)
        · exact iff_of_false (hd.cons_notMem_residual hc w) (hd.cons_notMem_residual hc w)

theorem signature_eq_iff (hcompleted : d.Completed trap members) (hp : p.Of members) (hs : s ∈ members)
    (ht : t ∈ members) : d.signature trap p s = d.signature trap p t ↔
      ∀ c ∈ d.alphabet, ∀ s' t', d.followOr trap s c = some s' → d.followOr trap t c = some t' →
        p.Together s' t' := by
  rw [signature, signature, List.map_inj_left]
  refine forall₂_congr fun c hc => ?_
  obtain ⟨s', hs', hfs, _⟩ := hcompleted s hs c hc
  obtain ⟨t', ht', hft, _⟩ := hcompleted t ht c hc
  rw [hfs, hft, Option.map_some, Option.map_some, Option.some_inj, ← hp.together_iff hs' ht',
    forall_some_iff]

/-- A round takes the partition by words of at most `k` symbols to that by words of at most `k + 1`. -/
theorem PartitionAt.refine (hd : d.WellFormed) (hcompleted : d.Completed trap members)
    (h : d.PartitionAt members k p) : d.PartitionAt members (k + 1) (d.refine trap p) where
  of := of_refine h.of
  together_iff := by
    intro s hs t ht
    rw [together_refine_iff, agree_succ_iff hd hcompleted hs ht, h.together_iff s hs t ht,
      signature_eq_iff hcompleted h.of hs ht]
    refine and_congr_right fun _ => forall₂_congr fun c hc => ?_
    obtain ⟨s', hs', hfs, _⟩ := hcompleted s hs c hc
    obtain ⟨t', ht', hft, _⟩ := hcompleted t ht c hc
    rw [hfs, hft, forall_some_iff, forall_some_iff, h.together_iff s' hs' t' ht']

theorem mem_splitByFinality {block : List StateId} : block ∈ d.splitByFinality members ↔
    (block = members.filter d.isFinal ∨ block = members.filter fun s => !d.isFinal s) ∧ block ≠ [] := by
  simp [splitByFinality]

theorem of_splitByFinality (d : Dfa) (members : List StateId) : (d.splitByFinality members).Of members where
  ne_nil := by
    intro block hblock
    exact (mem_splitByFinality.1 hblock).2
  disjoint := by
    apply List.Pairwise.filter
    rw [List.pairwise_pair]
    intro s hs hs'
    simp_all [List.mem_filter]
  mem_iff := by
    intro s
    simp only [mem_splitByFinality]
    constructor
    · intro hs
      cases hfinal : d.isFinal s with
      | true =>
          have hmem : s ∈ members.filter d.isFinal := List.mem_filter.2 ⟨hs, hfinal⟩
          exact ⟨_, ⟨Or.inl rfl, List.ne_nil_of_mem hmem⟩, hmem⟩
      | false =>
          have hmem : s ∈ members.filter fun s => !d.isFinal s := List.mem_filter.2 ⟨hs, by simp [hfinal]⟩
          exact ⟨_, ⟨Or.inr rfl, List.ne_nil_of_mem hmem⟩, hmem⟩
    · rintro ⟨block, ⟨rfl | rfl, _⟩, hs⟩
      · exact (List.mem_filter.1 hs).1
      · exact (List.mem_filter.1 hs).1

/-- The empty word tells final states from the others. -/
theorem agree_zero_iff : d.Agree 0 s t ↔ d.isFinal s = d.isFinal t := by
  rw [Bool.eq_iff_iff, isFinal_iff, isFinal_iff, ← nil_mem_residual, ← nil_mem_residual]
  constructor
  · intro h
    exact h [] (Nat.le_refl 0)
  · intro h w hw
    obtain rfl : w = [] := List.length_eq_zero_iff.1 (Nat.le_zero.1 hw)
    exact h

theorem together_splitByFinality_iff (hs : s ∈ members) (ht : t ∈ members) :
    (d.splitByFinality members).Together s t ↔ d.isFinal s = d.isFinal t := by
  constructor
  · rintro ⟨block, hblock, hsb, htb⟩
    obtain ⟨rfl | rfl, _⟩ := mem_splitByFinality.1 hblock
    · rw [(List.mem_filter.1 hsb).2, (List.mem_filter.1 htb).2]
    · have hsf := (List.mem_filter.1 hsb).2
      have htf := (List.mem_filter.1 htb).2
      rw [Bool.not_eq_true'] at hsf htf
      rw [hsf, htf]
  · intro hst
    -- the block of `s`, written so that it need not be known which of the two it is
    refine ⟨members.filter fun r => d.isFinal r == d.isFinal s, ?_, ?_, ?_⟩
    · have hne : (members.filter fun r => d.isFinal r == d.isFinal s) ≠ [] :=
        List.ne_nil_of_mem (List.mem_filter.2 ⟨hs, by simp⟩)
      refine mem_splitByFinality.2 ⟨?_, hne⟩
      cases hfinal : d.isFinal s <;> simp
    · exact List.mem_filter.2 ⟨hs, by simp⟩
    · exact List.mem_filter.2 ⟨ht, by simp [hst]⟩

/-- The partition by finality is that by the empty word. -/
theorem partitionAt_zero (d : Dfa) (members : List StateId) :
    d.PartitionAt members 0 (d.splitByFinality members) where
  of := of_splitByFinality d members
  together_iff := by
    intro s hs t ht
    rw [agree_zero_iff]
    exact together_splitByFinality_iff hs ht

/-! ### All rounds -/

theorem refinements_ne_nil (d : Dfa) (trap : Option StateId) (limit : Nat) (p : Partition) :
    d.refinements trap limit p ≠ [] := by
  cases limit with
  | zero => simp [refinements]
  | succ limit =>
      unfold refinements
      dsimp only
      split <;> simp

/-- The partition after `i` more rounds is that by words of `i` more symbols. -/
theorem PartitionAt.refinements (hd : d.WellFormed) (hcompleted : d.Completed trap members)
    (h : d.PartitionAt members k p) {i : Nat} (hi : (d.refinements trap limit p)[i]? = some q) :
    d.PartitionAt members (k + i) q := by
  induction limit generalizing k p i with
  | zero =>
      obtain ⟨rfl, rfl⟩ : i = 0 ∧ p = q := by
        rw [Dfa.refinements, List.getElem?_singleton] at hi
        split at hi
        · exact ⟨by assumption, Option.some.inj hi⟩
        · cases hi
      exact h
  | succ limit ih =>
      unfold Dfa.refinements at hi
      dsimp only at hi
      split at hi
      · obtain ⟨rfl, rfl⟩ : i = 0 ∧ p = q := by
          rw [List.getElem?_singleton] at hi
          split at hi
          · exact ⟨by assumption, Option.some.inj hi⟩
          · cases hi
        exact h
      · cases i with
        | zero =>
            obtain rfl : p = q := by simpa using hi
            exact h
        | succ i =>
            rw [List.getElem?_cons_succ] at hi
            have hnext := ih (h.refine hd hcompleted) hi
            rwa [Nat.add_right_comm, Nat.add_assoc] at hnext

/-- Every round but the last makes the partition longer, and it is never longer than the list of
states, so with that many rounds the last partition is one that a round does not change. -/
theorem length_refine_last (hp : p.Of members) (hlimit : members.length ≤ p.length + limit)
    (hq : (d.refinements trap limit p).getLast? = some q) : (d.refine trap q).length = q.length := by
  induction limit generalizing p with
  | zero =>
      obtain rfl : p = q := by simpa [refinements] using hq
      have hlower : p.length ≤ (d.refine trap p).length := length_le_length_refine hp
      have hupper : (d.refine trap p).length ≤ members.length := (of_refine hp).length_le
      omega
  | succ limit ih =>
      unfold refinements at hq
      dsimp only at hq
      split at hq
      next hlength =>
        obtain rfl : p = q := by simpa using hq
        exact hlength
      next hlength =>
        have hlower : p.length ≤ (d.refine trap p).length := length_le_length_refine hp
        rw [List.getLast?_cons_of_ne_nil (refinements_ne_nil d trap limit _)] at hq
        exact ih (of_refine hp) (by omega) hq

/-- In a partition that a round does not change, states that are together have the same residual. -/
theorem PartitionAt.residual_eq (hd : d.WellFormed) (hcompleted : d.Completed trap members)
    (h : d.PartitionAt members k p) (hstable : (d.refine trap p).length = p.length)
    (hst : p.Together s t) : d.residual s = d.residual t := by
  have hagree : ∀ w s t, p.Together s t → (w ∈ d.residual s ↔ w ∈ d.residual t) := by
    intro w
    induction w with
    | nil =>
        intro s t hst
        obtain ⟨hs, ht⟩ := h.of.mem_of_together hst
        exact (h.together_iff s hs t ht).1 hst [] (Nat.zero_le k)
    | cons c w ih =>
        intro s t hst
        obtain ⟨hs, ht⟩ := h.of.mem_of_together hst
        by_cases hc : c ∈ d.alphabet
        · obtain ⟨s', _, hfs, hres⟩ := hcompleted s hs c hc
          obtain ⟨t', _, hft, hret⟩ := hcompleted t ht c hc
          have hsignature := signature_eq_of_length_le h.of hstable.le hst
          rw [hres, hret]
          exact ih s' t' ((signature_eq_iff hcompleted h.of hs ht).1 hsignature c hc s' t' hfs hft)
        · exact iff_of_false (hd.cons_notMem_residual hc w) (hd.cons_notMem_residual hc w)
  ext w
  exact hagree w s t hst

/-- The last partition puts two states together exactly if they have the same residual. -/
theorem together_last_iff (hd : d.WellFormed) (hcompleted : d.Completed trap members)
    (h : d.PartitionAt members 0 p) (hlimit : members.length ≤ p.length + limit)
    (hq : (d.refinements trap limit p).getLast? = some q) :
    q.Of members ∧ ∀ s ∈ members, ∀ t ∈ members, q.Together s t ↔ d.residual s = d.residual t := by
  have hstable := length_refine_last h.of hlimit hq
  rw [List.getLast?_eq_getElem?] at hq
  have hat := h.refinements hd hcompleted hq
  refine ⟨hat.of, fun s hs t ht => ⟨hat.residual_eq hd hcompleted hstable, ?_⟩⟩
  intro hst
  rw [hat.together_iff s hs t ht]
  intro w _
  rw [hst]

end LanguageTheory.Dfa
