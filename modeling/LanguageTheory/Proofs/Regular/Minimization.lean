import LanguageTheory.Proofs.Regular.Refinement

/-! The minimal automaton. Its states are the blocks of the last partition that hold a reachable state,
so they correspond to the residuals of the reachable states: each state has such a residual, each such
residual belongs to a state, and no two states share one. A block moves as its first member does, which
is enough because the members of a block have the same residual. -/

namespace LanguageTheory.Dfa

variable {d : Dfa} {s t start : StateId} {c : SymbolId} {p : Partition}

/-! ### The trap -/

theorem trap?_eq (d : Dfa) : d.trap? = none ∨ d.trap? = some d.size := by
  unfold trap?
  split
  · exact Or.inl rfl
  · exact Or.inr rfl

theorem Reachable.ne_trap (hd : d.WellFormed) (hs : d.Reachable s) : some s ≠ d.trap? := by
  intro h
  have hlt := hd.lt_of_reachable hs
  rcases d.trap?_eq with htrap | htrap
  · rw [htrap] at h
    cases h
  · rw [htrap] at h
    exact hlt.ne (Option.some.inj h)

/-- Nothing is accepted from a state that is not there, such as the trap. -/
theorem WellFormed.notMem_residual (hd : d.WellFormed) (hs : d.size ≤ s) (w : List SymbolId) :
    w ∉ d.residual s := by
  intro h
  cases w with
  | nil => exact hs.not_gt (hd.finals_lt s (nil_mem_residual.1 h))
  | cons c w =>
      obtain ⟨t, ht, _⟩ := cons_mem_residual.1 h
      exact hs.not_gt (hd.lt_of_move? ht).1

theorem WellFormed.move?_of_trap?_eq_none (hd : d.WellFormed) (htrap : d.trap? = none)
    (hs : d.Reachable s) (hc : c ∈ d.alphabet) : ∃ t, d.move? s c = some t := by
  unfold trap? at htrap
  split at htrap
  next hall =>
    rw [List.all_eq_true] at hall
    have hmove := List.all_eq_true.1 (hall s (hd.tabulated.mem_reachable.2 hs)) c hc
    exact Option.isSome_iff_exists.1 hmove
  next => cases htrap

theorem WellFormed.mem_members (hd : d.WellFormed) : s ∈ d.members ↔ d.Reachable s ∨ d.trap? = some s := by
  rw [members, List.mem_append, ← hd.tabulated.mem_reachable, Ascending.mem_def, Option.mem_toList]

theorem WellFormed.completed_members (hd : d.WellFormed) : d.Completed d.trap? d.members := by
  intro s hs c hc
  rcases hd.mem_members.1 hs with hs | hs
  · have hne := hs.ne_trap hd
    cases hmove : d.move? s c with
    | some t =>
        refine ⟨t, hd.mem_members.2 (Or.inl (hs.move hmove)), by simp [followOr, hne, hmove], ?_⟩
        intro w
        simp [cons_mem_residual, hmove]
    | none =>
        rcases d.trap?_eq with htrap | htrap
        · obtain ⟨t, ht⟩ := hd.move?_of_trap?_eq_none htrap hs hc
          rw [hmove] at ht
          cases ht
        · refine ⟨d.size, hd.mem_members.2 (Or.inr htrap), by simp [followOr, hmove, htrap], ?_⟩
          intro w
          refine iff_of_false ?_ (hd.notMem_residual (Nat.le_refl _) w)
          simp [cons_mem_residual, hmove]
  · refine ⟨s, hd.mem_members.2 (Or.inr hs), by simp [followOr, hs], ?_⟩
    intro w
    have hsize : d.size ≤ s := by
      rcases d.trap?_eq with htrap | htrap
      · rw [htrap] at hs
        cases hs
      · exact (Option.some.inj (htrap.symm.trans hs)).le
    exact iff_of_false (hd.notMem_residual hsize _) (hd.notMem_residual hsize _)

/-! ### Blocks that are kept -/

/-- A partition of the members in which sharing a block is having the same residual. -/
structure ResidualPartition (d : Dfa) (p : Partition) : Prop where
  of : p.Of d.members
  together_iff : ∀ s ∈ d.members, ∀ t ∈ d.members, p.Together s t ↔ d.residual s = d.residual t

theorem ResidualPartition.blockOf_eq_iff (hp : d.ResidualPartition p) (hs : s ∈ d.members)
    (ht : t ∈ d.members) : p.blockOf s = p.blockOf t ↔ d.residual s = d.residual t := by
  rw [← hp.of.together_iff hs ht, hp.together_iff s hs t ht]

theorem trapBlock?_eq_some {trap : Option StateId} {b : Nat} (h : p.trapBlock? trap = some b) :
    ∃ t, trap = some t ∧ p.blockOf t = b ∧ ∀ s ∈ p[b]?.getD [], s = t := by
  obtain ⟨t, ht, h⟩ := Option.bind_eq_some_iff.1 h
  dsimp only at h
  split at h
  next hall =>
    obtain rfl := Option.some.inj h
    exact ⟨t, ht, rfl, by simpa using hall⟩
  next => cases h

theorem trapBlock?_of_forall {t : StateId} {b : Nat} (hb : p.blockOf t = b)
    (h : ∀ s ∈ p[b]?.getD [], s = t) : p.trapBlock? (some t) = some b := by
  subst hb
  simpa [Partition.trapBlock?] using h

section Kept

variable (hd : d.WellFormed) (hp : d.ResidualPartition p)

include hd hp

/-- The block of a reachable state holds more than the trap. -/
theorem blockOf_ne_trapBlock? (hs : d.Reachable s) : some (p.blockOf s) ≠ p.trapBlock? d.trap? := by
  intro h
  obtain ⟨t, ht, _, hall⟩ := trapBlock?_eq_some h.symm
  obtain ⟨block, hblock, hmem⟩ := hp.of.mem_blockOf (hd.mem_members.2 (Or.inl hs))
  rw [hblock, Option.getD_some] at hall
  exact hs.ne_trap hd (by rw [hall s hmem, ht])

theorem mem_kept_iff (hstart : d.Reachable start) {b : Nat} :
    b ∈ p.kept start d.trap? ↔ b < p.length ∧ some b ≠ p.trapBlock? d.trap? := by
  have hlt := hp.of.blockOf_lt (hd.mem_members.2 (Or.inl hstart))
  have hne := blockOf_ne_trapBlock? hd hp hstart
  simp only [Partition.kept, List.mem_cons, List.mem_filter, List.mem_range, Bool.and_eq_true,
    decide_eq_true_eq]
  constructor
  · rintro (rfl | ⟨hb, _, hb'⟩)
    · exact ⟨hlt, hne⟩
    · exact ⟨hb, hb'⟩
  · rintro ⟨hb, hb'⟩
    by_cases hfirst : b = p.blockOf start
    · exact Or.inl hfirst
    · exact Or.inr ⟨hb, hfirst, hb'⟩

theorem blockOf_mem_kept (hstart : d.Reachable start) (hs : d.Reachable s) :
    p.blockOf s ∈ p.kept start d.trap? :=
  (mem_kept_iff hd hp hstart).2
    ⟨hp.of.blockOf_lt (hd.mem_members.2 (Or.inl hs)), blockOf_ne_trapBlock? hd hp hs⟩

/-- A block that is kept has a first member besides the trap. -/
theorem head?_visible (hstart : d.Reachable start) {b : Nat} (hb : b ∈ p.kept start d.trap?) :
    ∃ r, (p.visible d.trap? b).head? = some r ∧ d.Reachable r ∧ p.blockOf r = b := by
  obtain ⟨hlt, hne⟩ := (mem_kept_iff hd hp hstart).1 hb
  have hblock : p[b]? = some p[b] := List.getElem?_eq_getElem hlt
  have hmem : ∀ s ∈ p.visible d.trap? b, d.Reachable s ∧ p.blockOf s = b := by
    intro s hs
    rw [Partition.visible, hblock, Option.getD_some, List.mem_filter, decide_eq_true_eq] at hs
    have hmember := (hp.of.mem_iff s).2 ⟨p[b], List.getElem_mem hlt, hs.1⟩
    refine ⟨(hd.mem_members.1 hmember).resolve_right fun h => hs.2 h.symm, ?_⟩
    exact hp.of.blockOf_eq hblock hs.1
  have hvisible : p.visible d.trap? b ≠ [] := by
    intro hnil
    have hall : ∀ s ∈ p[b], some s = d.trap? := by
      rw [Partition.visible, hblock, Option.getD_some, List.filter_eq_nil_iff] at hnil
      intro s hs
      simpa using hnil s hs
    obtain ⟨t, ht⟩ := List.exists_mem_of_ne_nil _ (hp.of.ne_nil _ (List.getElem_mem hlt))
    refine hne ?_
    rw [← hall t ht]
    refine (trapBlock?_of_forall (hp.of.blockOf_eq hblock ht) ?_).symm
    rw [hblock, Option.getD_some]
    intro s hs
    exact Option.some.inj ((hall s hs).trans (hall t ht).symm)
  obtain ⟨r, rest, hr⟩ := List.exists_cons_of_ne_nil hvisible
  have hr' := hmem r (by simp [hr])
  exact ⟨r, by simp [hr], hr'⟩

end Kept

theorem nodup_kept (p : Partition) (start : StateId) (trap : Option StateId) :
    (p.kept start trap).Nodup := by
  refine List.nodup_cons.2 ⟨?_, List.nodup_range.filter _⟩
  simp [List.mem_filter]

/-! ### States of the quotient -/

/-- The state that the block of `s` becomes. -/
def number? (d : Dfa) (start : StateId) (p : Partition) (s : StateId) : Option Nat :=
  (p.kept start d.trap?).idxOf? (p.blockOf s)

/-- The member of a block whose moves are taken over. -/
def first? (d : Dfa) (start : StateId) (p : Partition) (i : Nat) : Option StateId :=
  (p.kept start d.trap?)[i]?.bind fun b => (p.visible d.trap? b).head?

theorem lt_of_number? {i : Nat} (h : d.number? start p s = some i) :
    i < (p.kept start d.trap?).length :=
  (List.idxOf?_eq_some_iff.1 h).1

theorem number?_eq_some_iff {i : Nat} :
    d.number? start p s = some i ↔ (p.kept start d.trap?)[i]? = some (p.blockOf s) :=
  idxOf?_eq_some_iff_getElem? (nodup_kept p start d.trap?)

section Numbers

variable (hd : d.WellFormed) (hp : d.ResidualPartition p) (hstart : d.Reachable start)

include hd hp hstart

theorem exists_number? (hs : d.Reachable s) : ∃ i, d.number? start p s = some i := by
  obtain ⟨i, hi⟩ := List.mem_iff_getElem?.1 (blockOf_mem_kept hd hp hstart hs)
  exact ⟨i, number?_eq_some_iff.2 hi⟩

theorem exists_first? {i : Nat} (hi : i < (p.kept start d.trap?).length) :
    ∃ r, d.first? start p i = some r ∧ d.Reachable r ∧ d.number? start p r = some i := by
  have hget := List.getElem?_eq_getElem hi
  obtain ⟨r, hr, hreach, hblock⟩ := head?_visible hd hp hstart (List.getElem_mem hi)
  refine ⟨r, by rw [first?, hget, Option.bind_some, hr], hreach, ?_⟩
  rw [number?_eq_some_iff, hget, hblock]

omit hstart in
/-- Reachable states become one state exactly if they have the same residual. -/
theorem number?_eq_iff (hs : d.Reachable s) (ht : d.Reachable t) {i : Nat}
    (hi : d.number? start p s = some i) : d.number? start p t = some i ↔ d.residual s = d.residual t := by
  rw [← hp.blockOf_eq_iff (hd.mem_members.2 (Or.inl hs)) (hd.mem_members.2 (Or.inl ht))]
  rw [number?_eq_some_iff] at hi ⊢
  rw [hi, Option.some_inj]

end Numbers

theorem mem_blockMoves {kept : List Nat} {block : List StateId × Nat} {m : Move} :
    m ∈ d.blockMoves p kept block ↔ m.source = block.2 ∧ m.symbol ∈ d.alphabet ∧
      ∃ r t, block.1.head? = some r ∧ d.move? r m.symbol = some t ∧
        kept.idxOf? (p.blockOf t) = some m.target := by
  simp only [blockMoves, List.mem_flatMap, Option.mem_toList, List.mem_filterMap, bind_pure_comp,
    Option.bind_eq_bind, Option.bind_eq_some_iff, Option.map_eq_map, Option.map_eq_some_iff]
  constructor
  · rintro ⟨r, hr, c, hc, t, ht, j, hj, rfl⟩
    exact ⟨rfl, hc, r, t, hr, ht, hj⟩
  · rintro ⟨hsource, hc, r, t, hr, ht, hj⟩
    exact ⟨r, hr, m.symbol, hc, t, ht, m.target, hj, by rw [← hsource]⟩

theorem sorted_blockMoves (kept : List Nat) (block : List StateId × Nat) :
    (d.blockMoves p kept block).Pairwise fun m n => m.symbol < n.symbol := by
  unfold blockMoves
  cases block.1.head? with
  | none => simp
  | some r =>
      simp only [Option.toList_some, List.flatMap_singleton]
      refine d.alphabet.pairwise.filterMap _ ?_
      intro c c' hlt m hm m' hm'
      simp only [bind_pure_comp, Option.bind_eq_bind, Option.map_eq_map, Option.bind_eq_some_iff,
        Option.map_eq_some_iff] at hm hm'
      obtain ⟨_, _, _, _, rfl⟩ := hm
      obtain ⟨_, _, _, _, rfl⟩ := hm'
      exact hlt

/-! ### The quotient -/

section Quotient

variable (hd : d.WellFormed) (hp : d.ResidualPartition p) (hstart : d.Reachable start)

theorem mem_moves_quotient {m : Move} : m ∈ (d.quotient start d.trap? p).1.moves ↔
    m.symbol ∈ d.alphabet ∧ ∃ r t, d.first? start p m.source = some r ∧ d.move? r m.symbol = some t ∧
      d.number? start p t = some m.target := by
  simp only [quotient, List.mem_flatMap, mem_blockMoves, List.mem_zipIdx_iff_getElem?,
    List.getElem?_map, Option.map_eq_some_iff, first?, Option.bind_eq_some_iff, number?]
  constructor
  · rintro ⟨block, ⟨b, hb, hblock⟩, hsource, hc, r, t, hr, ht, hj⟩
    rw [← hsource] at hb
    exact ⟨hc, r, t, ⟨b, hb, by rw [hblock, hr]⟩, ht, hj⟩
  · rintro ⟨hc, r, t, ⟨b, hb, hr⟩, ht, hj⟩
    exact ⟨(p.visible d.trap? b, m.source), ⟨b, hb, rfl⟩, rfl, hc, r, t, hr, ht, hj⟩

theorem mem_finals_quotient {i : StateId} : i ∈ (d.quotient start d.trap? p).1.finals ↔
    ∃ r, d.first? start p i = some r ∧ r ∈ d.finals := by
  simp only [quotient, Ascending.mem_ofList, List.mem_filterMap, Option.ite_none_right_eq_some,
    Option.some.injEq, List.mem_zipIdx_iff_getElem?, List.getElem?_map, Option.map_eq_some_iff, first?,
    Option.bind_eq_some_iff, Option.any_eq_true_iff_get]
  constructor
  · rintro ⟨⟨block, _⟩, ⟨b, hb, rfl⟩, ⟨hsome, hfinal⟩, rfl⟩
    exact ⟨_, ⟨b, hb, (Option.some_get hsome).symm⟩, isFinal_iff.1 hfinal⟩
  · rintro ⟨r, ⟨b, hb, hr⟩, hfinal⟩
    refine ⟨(p.visible d.trap? b, i), ⟨b, hb, rfl⟩, ⟨by simp [hr], ?_⟩, rfl⟩
    simpa [hr] using isFinal_iff.2 hfinal

theorem lt_of_first? {i : Nat} {r : StateId} (h : d.first? start p i = some r) :
    i < (p.kept start d.trap?).length := by
  obtain ⟨b, hb, _⟩ := Option.bind_eq_some_iff.1 h
  exact (List.getElem?_eq_some_iff.1 hb).1

theorem wellFormed_quotient (d : Dfa) (start : StateId) (p : Partition) :
    (d.quotient start d.trap? p).1.WellFormed where
  start_lt := by
    intro s hs
    obtain rfl := Option.some.inj hs
    exact Nat.succ_pos _
  finals_lt := by
    intro i hi
    obtain ⟨r, hr, _⟩ := mem_finals_quotient.1 hi
    exact lt_of_first? hr
  source_lt := by
    intro m hm
    obtain ⟨_, r, _, hr, _, _⟩ := mem_moves_quotient.1 hm
    exact lt_of_first? hr
  target_lt := by
    intro m hm
    obtain ⟨_, _, _, _, _, hj⟩ := mem_moves_quotient.1 hm
    exact lt_of_number? hj
  symbol_mem := fun m hm => (mem_moves_quotient.1 hm).1
  sorted := sorted_flatMap_zipIdx (fun _ _ hm => (mem_blockMoves.1 hm).1) (sorted_blockMoves _)

theorem move?_quotient {i j : StateId} {r : StateId} (hd : d.WellFormed)
    (hr : d.first? start p i = some r) : (d.quotient start d.trap? p).1.move? i c = some j ↔
      ∃ t, d.move? r c = some t ∧ d.number? start p t = some j := by
  rw [(wellFormed_quotient d start p).tabulated.move?_eq_some_iff, mem_moves_quotient]
  constructor
  · rintro ⟨_, r', t, hr', ht, hj⟩
    obtain rfl := Option.some.inj (hr.symm.trans hr')
    exact ⟨t, ht, hj⟩
  · rintro ⟨t, ht, hj⟩
    exact ⟨hd.tabulated.symbol_mem_of_move? ht, r, t, hr, ht, hj⟩

include hd hp hstart

/-- A state of the quotient accepts what the states merged in it accept. -/
theorem residual_quotient (hs : d.Reachable s) {i : StateId} (hi : d.number? start p s = some i) :
    (d.quotient start d.trap? p).1.residual i = d.residual s := by
  ext w
  induction w generalizing s i with
  | nil =>
      obtain ⟨r, hr, hreach, hnumber⟩ := exists_first? hd hp hstart (lt_of_number? hi)
      have hresidual := (number?_eq_iff hd hp hreach hs hnumber).1 hi
      rw [← hresidual, nil_mem_residual, nil_mem_residual, mem_finals_quotient]
      simp [hr]
  | cons c w ih =>
      obtain ⟨r, hr, hreach, hnumber⟩ := exists_first? hd hp hstart (lt_of_number? hi)
      have hresidual := (number?_eq_iff hd hp hreach hs hnumber).1 hi
      rw [← hresidual, cons_mem_residual, cons_mem_residual]
      simp only [move?_quotient hd hr]
      constructor
      · rintro ⟨j, ⟨t, ht, hj⟩, hw⟩
        exact ⟨t, ht, (ih (hreach.move ht) hj).1 hw⟩
      · rintro ⟨t, ht, hw⟩
        obtain ⟨j, hj⟩ := exists_number? hd hp hstart (hreach.move ht)
        exact ⟨j, ⟨t, ht, hj⟩, (ih (hreach.move ht) hj).2 hw⟩

end Quotient

/-- The states of `m` correspond to the residuals of the reachable states of `d`, and both start with
the same one. -/
structure Minimizes (m d : Dfa) : Prop where
  wellFormed : m.WellFormed
  alphabet_eq : m.alphabet = d.alphabet
  residual_start : ∀ s, d.start = some s → ∃ i, m.start = some i ∧ m.residual i = d.residual s
  exists_reachable : ∀ i < m.size, ∃ s, d.Reachable s ∧ m.residual i = d.residual s
  exists_state : ∀ s, d.Reachable s → ∃ i < m.size, m.residual i = d.residual s
  residual_injective : ∀ i < m.size, ∀ j < m.size, m.residual i = m.residual j → i = j

theorem minimizes_quotient (hd : d.WellFormed) (hp : d.ResidualPartition p) (hstart : d.start = some start) :
    (d.quotient start d.trap? p).1.Minimizes d := by
  have hreachable : d.Reachable start := reachable_start hstart
  have hexists : ∀ i < (d.quotient start d.trap? p).1.size, ∃ s, d.Reachable s ∧
      d.number? start p s = some i ∧ (d.quotient start d.trap? p).1.residual i = d.residual s := by
    intro i hi
    obtain ⟨r, _, hr, hnumber⟩ := exists_first? hd hp hreachable hi
    exact ⟨r, hr, hnumber, residual_quotient hd hp hreachable hr hnumber⟩
  refine ⟨wellFormed_quotient d start p, rfl, ?_, ?_, ?_, ?_⟩
  · intro s hs
    obtain rfl := Option.some.inj (hstart.symm.trans hs)
    have hzero : d.number? start p start = some 0 := number?_eq_some_iff.2 rfl
    exact ⟨0, rfl, residual_quotient hd hp hreachable hreachable hzero⟩
  · intro i hi
    obtain ⟨s, hs, _, hresidual⟩ := hexists i hi
    exact ⟨s, hs, hresidual⟩
  · intro s hs
    obtain ⟨i, hi⟩ := exists_number? hd hp hreachable hs
    exact ⟨i, lt_of_number? hi, residual_quotient hd hp hreachable hs hi⟩
  · intro i hi j hj hij
    obtain ⟨s, hs, hsi, hresidual⟩ := hexists i hi
    obtain ⟨t, ht, htj, hresidual'⟩ := hexists j hj
    have hst : d.residual s = d.residual t := by rw [← hresidual, hij, hresidual']
    have hti := (number?_eq_iff hd hp hs ht hsi).2 hst
    exact Option.some.inj (hti.symm.trans htj)

/-- The last partition of the history is that by residuals. -/
theorem residualPartition_last (hd : d.WellFormed) : d.ResidualPartition (d.history.getLastD []) := by
  have hne : d.history ≠ [] := refinements_ne_nil d d.trap? d.members.length _
  have hlast : d.history.getLast? = some (d.history.getLastD []) := by
    rw [List.getLastD_eq_getLast?, List.getLast?_eq_some_getLast hne, Option.getD_some]
  have h := together_last_iff hd hd.completed_members (partitionAt_zero d d.members)
    (Nat.le_add_left _ _) hlast
  exact ⟨h.1, h.2⟩

/-- Minimization yields a state for each residual of a reachable state. -/
theorem minimizes_minimize (hd : d.WellFormed) (hstart : d.start = some start) :
    d.minimize.dfa.Minimizes d := by
  have heq : d.minimize.dfa = (d.quotient start d.trap? (d.history.getLastD [])).1 := by
    rw [minimize, hstart]
  rw [heq]
  exact minimizes_quotient hd (residualPartition_last hd) hstart

end LanguageTheory.Dfa
