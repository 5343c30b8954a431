import LanguageTheory.Proofs.Finite.Exploration
import LanguageTheory.Regular.Dfa
import Mathlib.Computability.MyhillNerode

/-! What a deterministic automaton accepts from each of its states. The words accepted from a state are
the residual of the state. Moving on a symbol takes the quotient of the residual by that symbol, and a
missing move stands for the empty residual. The states found from the start state are those that some
word leads to, and the live ones are those with a residual that is not empty. -/

namespace LanguageTheory.Dfa

/-- Every state that is named is there, and the moves are in order, so that no two of them have the
same source and symbol. -/
structure WellFormed (d : Dfa) : Prop where
  start_lt : ∀ s, d.start = some s → s < d.size
  finals_lt : ∀ s ∈ d.finals, s < d.size
  source_lt : ∀ m ∈ d.moves, m.source < d.size
  target_lt : ∀ m ∈ d.moves, m.target < d.size
  symbol_mem : ∀ m ∈ d.moves, m.symbol ∈ d.alphabet
  sorted : d.moves.Pairwise fun m n => m.before n.source n.symbol = true

/-- The moves are a table over the alphabet: they are in order, so that no two of them have the same source and
symbol. They and the start and final states may name any states, also such as are not there. -/
structure Tabulated (d : Dfa) : Prop where
  symbol_mem : ∀ m ∈ d.moves, m.symbol ∈ d.alphabet
  sorted : d.moves.Pairwise fun m n => m.before n.source n.symbol = true

variable {d : Dfa} {m n : Move} {s t : StateId} {c : SymbolId}

theorem WellFormed.tabulated (hd : d.WellFormed) : d.Tabulated := ⟨hd.symbol_mem, hd.sorted⟩

theorem Move.before_iff {m : Move} : m.before s c = true ↔ m.source < s ∨ m.source = s ∧ m.symbol < c := by
  simp [Move.before]

theorem mem_moves_of_move? (h : d.move? s c = some t) : ⟨s, c, t⟩ ∈ d.moves := by
  obtain ⟨m, hm, rfl⟩ := Option.map_eq_some_iff.1 h
  have hkey := List.find?_some hm
  simp only [Bool.and_eq_true, beq_iff_eq] at hkey
  obtain ⟨rfl, rfl⟩ := hkey
  exact List.mem_of_find?_eq_some hm

/-- Of two moves out of one state on one symbol the first in the list counts. -/
theorem move?_eq_some_of_sorted {moves : List Move}
    (h : moves.Pairwise fun m n => m.before n.source n.symbol = true) {m : Move} (hm : m ∈ moves) :
    (moves.find? fun n => n.source == m.source && n.symbol == m.symbol) = some m := by
  induction moves with
  | nil => cases hm
  | cons n rest ih =>
      obtain ⟨hn, hrest⟩ := List.pairwise_cons.1 h
      rcases List.mem_cons.1 hm with rfl | hm
      · simp
      · have hbefore := Move.before_iff.1 (hn m hm)
        have hkey : (n.source == m.source && n.symbol == m.symbol) = false := by
          rw [Bool.and_eq_false_iff, beq_eq_false_iff_ne, beq_eq_false_iff_ne]
          lia
        rw [List.find?_cons, hkey]
        exact ih hrest hm

theorem Tabulated.move?_eq_some_iff (hd : d.Tabulated) : d.move? s c = some t ↔ ⟨s, c, t⟩ ∈ d.moves := by
  constructor
  · exact mem_moves_of_move?
  · intro hm
    have hfind := move?_eq_some_of_sorted hd.sorted hm
    exact Option.map_eq_some_iff.2 ⟨_, hfind, rfl⟩

theorem WellFormed.lt_of_move? (hd : d.WellFormed) (h : d.move? s c = some t) : s < d.size ∧ t < d.size :=
  ⟨hd.source_lt _ (mem_moves_of_move? h), hd.target_lt _ (mem_moves_of_move? h)⟩

theorem Tabulated.symbol_mem_of_move? (hd : d.Tabulated) (h : d.move? s c = some t) : c ∈ d.alphabet :=
  hd.symbol_mem _ (mem_moves_of_move? h)

/-- Moves are in order if they are listed by source, and by symbol for each source. -/
theorem sorted_flatMap_zipIdx {β : Type} {l : List β} {f : β × Nat → List Move}
    (hsource : ∀ x, ∀ m ∈ f x, m.source = x.2)
    (hsymbol : ∀ x, (f x).Pairwise fun m n => m.symbol < n.symbol) :
    (l.zipIdx.flatMap f).Pairwise fun m n => m.before n.source n.symbol = true := by
  refine List.pairwise_flatMap.2 ⟨fun x _ => ?_, (pairwise_zipIdx l).imp fun hxy m hm n hn => ?_⟩
  · refine (hsymbol x).imp_of_mem fun hm hn hmn => ?_
    exact Move.before_iff.2 (Or.inr ⟨(hsource x _ hm).trans (hsource x _ hn).symm, hmn⟩)
  · rw [Move.before_iff, hsource _ m hm, hsource _ n hn]
    exact Or.inl hxy

theorem isFinal_iff : d.isFinal s = true ↔ s ∈ d.finals := by simp [isFinal]

/-! ### Adding moves -/

theorem Move.before_trans {p : Move} (hmn : m.before n.source n.symbol = true)
    (hnp : n.before p.source p.symbol = true) : m.before p.source p.symbol = true := by
  rw [Move.before_iff] at *
  lia

theorem mem_of_mem_insertMove {l : List Move} (h : n ∈ insertMove m l) : n = m ∨ n ∈ l := by
  induction l with
  | nil => exact Or.inl (List.mem_singleton.1 h)
  | cons p rest ih =>
      unfold insertMove at h
      split at h
      · rcases List.mem_cons.1 h with rfl | h
        · exact Or.inr List.mem_cons_self
        · exact (ih h).imp_right (List.mem_cons_of_mem p)
      · split at h
        · exact List.mem_cons.1 h
        · exact (List.mem_cons.1 h).imp_right (List.mem_cons_of_mem p)

/-- Insertion keeps every move with another source or symbol. -/
theorem mem_insertMove {l : List Move} (hnew : ∀ p ∈ l, p.source = m.source → p.symbol ≠ m.symbol) :
    n ∈ insertMove m l ↔ n = m ∨ n ∈ l := by
  refine ⟨mem_of_mem_insertMove, fun h => ?_⟩
  induction l with
  | nil => exact List.mem_singleton.2 (h.resolve_right List.not_mem_nil)
  | cons p rest ih =>
      have ih := ih fun q hq => hnew q (List.mem_cons_of_mem p hq)
      have hp := hnew p List.mem_cons_self
      unfold insertMove
      split
      next =>
        rw [List.mem_cons] at h ⊢
        tauto
      next hbefore =>
        split
        next => exact List.mem_cons.2 h
        next hafter =>
          rw [Move.before_iff] at hbefore hafter
          lia

theorem sorted_insertMove {l : List Move} (h : l.Pairwise fun m n => m.before n.source n.symbol = true) :
    (insertMove m l).Pairwise fun m n => m.before n.source n.symbol = true := by
  induction l with
  | nil => exact List.pairwise_singleton _ _
  | cons p rest ih =>
      obtain ⟨hp, hrest⟩ := List.pairwise_cons.1 h
      unfold insertMove
      split
      next hbefore =>
        refine List.pairwise_cons.2 ⟨fun q hq => ?_, ih hrest⟩
        rcases mem_of_mem_insertMove hq with rfl | hq
        · exact hbefore
        · exact hp q hq
      next hbefore =>
        split
        next hafter =>
          refine List.pairwise_cons.2 ⟨fun q hq => ?_, h⟩
          rcases List.mem_cons.1 hq with rfl | hq
          · exact hafter
          · exact Move.before_trans hafter (hp q hq)
        next hafter =>
          refine List.pairwise_cons.2 ⟨fun q hq => ?_, hrest⟩
          have hq := hp q hq
          rw [Move.before_iff] at hbefore hafter hq ⊢
          lia

theorem Tabulated.addMove (hd : d.Tabulated) (m : Move) : (d.addMove m).Tabulated where
  symbol_mem := by
    intro n hn
    apply Ascending.mem_insert.2
    rcases mem_of_mem_insertMove hn with rfl | hn
    · exact Or.inl rfl
    · exact Or.inr (hd.symbol_mem n hn)
  sorted := sorted_insertMove hd.sorted

/-! ### Residuals -/

/-- The words accepted from a state. -/
def residual (d : Dfa) (s : StateId) : Language SymbolId := fun w => d.acceptsFrom s w = true

theorem mem_residual {w : List SymbolId} : w ∈ d.residual s ↔ ∃ t, d.follow s w = some t ∧ t ∈ d.finals := by
  change d.acceptsFrom s w = true ↔ _
  simp [acceptsFrom, Option.any_eq_true, isFinal_iff]

theorem nil_mem_residual : [] ∈ d.residual s ↔ s ∈ d.finals := by simp [mem_residual, follow]

theorem cons_mem_residual {w : List SymbolId} :
    c :: w ∈ d.residual s ↔ ∃ t, d.move? s c = some t ∧ w ∈ d.residual t := by
  simp only [mem_residual, follow, Option.bind_eq_some_iff]
  constructor
  · rintro ⟨f, ⟨t, hmove, hfollow⟩, hf⟩
    exact ⟨t, hmove, f, hfollow, hf⟩
  · rintro ⟨t, hmove, f, hfollow, hf⟩
    exact ⟨f, ⟨t, hmove, hfollow⟩, hf⟩

theorem Tabulated.mem_alphabet_of_mem_residual (hd : d.Tabulated) {w : List SymbolId} (hw : w ∈ d.residual s) :
    ∀ c ∈ w, c ∈ d.alphabet := by
  induction w generalizing s with
  | nil =>
      intro c hc
      cases hc
  | cons b w ih =>
      obtain ⟨t, ht, hw⟩ := cons_mem_residual.1 hw
      intro c hc
      rcases List.mem_cons.1 hc with rfl | hc
      · exact hd.symbol_mem_of_move? ht
      · exact ih hw c hc

theorem follow_append (s : StateId) (u v : List SymbolId) :
    d.follow s (u ++ v) = (d.follow s u).bind fun t => d.follow t v := by
  induction u generalizing s with
  | nil => rfl
  | cons c u ih =>
      simp only [List.cons_append, follow]
      cases d.move? s c with
      | none => rfl
      | some t => exact ih t

/-- The residual of the state that a word leads to is the quotient by the word. -/
theorem residual_of_follow {u : List SymbolId} (h : d.follow s u = some t) :
    d.residual t = (d.residual s).leftQuotient u := by
  ext v
  rw [Language.mem_leftQuotient]
  change d.acceptsFrom t v = true ↔ d.acceptsFrom s (u ++ v) = true
  rw [acceptsFrom, acceptsFrom, follow_append, h, Option.bind_some]

theorem follow_snoc (s : StateId) (u : List SymbolId) (c : SymbolId) :
    d.follow s (u ++ [c]) = (d.follow s u).bind fun t => d.move? t c := by
  rw [follow_append]
  congr 1
  funext t
  simp [follow]

theorem residual_of_move? (h : d.move? s c = some t) : d.residual t = (d.residual s).leftQuotient [c] :=
  residual_of_follow (by simp [follow, h])

/-! ### Reachable states -/

/-- The states that some word leads to from the start state. -/
def Reachable (d : Dfa) (t : StateId) : Prop := ∃ s w, d.start = some s ∧ d.follow s w = some t

theorem Reachable.move (h : d.Reachable s) (hmove : d.move? s c = some t) : d.Reachable t := by
  obtain ⟨p, w, hp, hw⟩ := h
  exact ⟨p, w ++ [c], hp, by rw [follow_snoc, hw, Option.bind_some, hmove]⟩

theorem reachable_start (h : d.start = some s) : d.Reachable s := ⟨s, [], h, rfl⟩

theorem Reachable.follow {w : List SymbolId} (h : d.Reachable s) (hw : d.follow s w = some t) :
    d.Reachable t := by
  obtain ⟨p, u, hp, hu⟩ := h
  exact ⟨p, u ++ w, hp, by rw [follow_append, hu, Option.bind_some, hw]⟩

theorem WellFormed.lt_of_follow (hd : d.WellFormed) {w : List SymbolId} (hs : s < d.size)
    (h : d.follow s w = some t) : t < d.size := by
  induction w generalizing s with
  | nil =>
      obtain rfl : s = t := Option.some.inj h
      exact hs
  | cons c w ih =>
      obtain ⟨p, hp, hw⟩ := Option.bind_eq_some_iff.1 h
      exact ih (hd.lt_of_move? hp).2 hw

theorem WellFormed.lt_of_reachable (hd : d.WellFormed) (h : d.Reachable t) : t < d.size := by
  obtain ⟨s, w, hs, hw⟩ := h
  exact hd.lt_of_follow (hd.start_lt s hs) hw

theorem Tabulated.mem_successors (hd : d.Tabulated) : t ∈ d.successors s ↔ ∃ c, d.move? s c = some t := by
  rw [successors, List.mem_filterMap]
  constructor
  · rintro ⟨c, -, hc⟩
    exact ⟨c, hc⟩
  · rintro ⟨c, hc⟩
    exact ⟨c, hd.symbol_mem_of_move? hc, hc⟩

theorem Tabulated.reaches_successors_iff (hd : d.Tabulated) :
    Reaches d.successors s t ↔ ∃ w, d.follow s w = some t := by
  constructor
  · intro h
    induction h with
    | refl => exact ⟨[], rfl⟩
    | step _ ht ih =>
        obtain ⟨w, hw⟩ := ih
        obtain ⟨c, hc⟩ := hd.mem_successors.1 ht
        exact ⟨w ++ [c], by rw [follow_snoc, hw, Option.bind_some, hc]⟩
  · rintro ⟨w, hw⟩
    induction w generalizing s with
    | nil =>
        obtain rfl : s = t := Option.some.inj hw
        exact .refl
    | cons c w ih =>
        obtain ⟨p, hp, hw⟩ := Option.bind_eq_some_iff.1 hw
        exact .head (hd.mem_successors.2 ⟨c, hp⟩) (ih hw)

/-- Besides the start state only targets of moves can be reached, so the bound of the exploration is
large enough. -/
theorem Tabulated.mem_reachable (hd : d.Tabulated) : t ∈ d.reachable ↔ d.Reachable t := by
  have hcard : (d.start.toList ++ d.moves.map (·.target)).toFinset.card ≤ d.moves.length + 1 := by
    refine (List.toFinset_card_le _).trans ?_
    cases d.start <;> simp
  rw [reachable, Ascending.mem_ofList, mem_explore_iff (fun s hs => by simp [hs]) ?_ hcard]
  · constructor
    · rintro ⟨s, hs, hst⟩
      obtain ⟨w, hw⟩ := hd.reaches_successors_iff.1 hst
      exact ⟨s, w, by simpa using hs, hw⟩
    · rintro ⟨s, w, hs, hw⟩
      exact ⟨s, by simpa using hs, hd.reaches_successors_iff.2 ⟨w, hw⟩⟩
  · intro s _ t ht
    obtain ⟨c, hc⟩ := hd.mem_successors.1 ht
    have htarget : t ∈ d.moves.map (·.target) := List.mem_map.2 ⟨_, mem_moves_of_move? hc, rfl⟩
    simp only [List.mem_toFinset, List.mem_append]
    exact Or.inr htarget

/-! ### Live states -/

/-- The states from which some word is accepted. -/
def Live (d : Dfa) (s : StateId) : Prop := ∃ w, w ∈ d.residual s

theorem live_iff_ne : d.Live s ↔ d.residual s ≠ 0 := by
  rw [Live, ne_eq, Language.ext_iff]
  simp [Language.notMem_zero]

/-- A state moves to a live one on the symbols that an accepted word may begin with. -/
theorem exists_live_move_iff :
    (∃ t, d.move? s c = some t ∧ d.Live t) ↔ ∃ w, w ∈ (d.residual s).leftQuotient [c] := by
  simp only [Language.mem_leftQuotient, List.singleton_append, cons_mem_residual, Live]
  constructor
  · rintro ⟨t, ht, w, hw⟩
    exact ⟨w, t, ht, hw⟩
  · rintro ⟨w, t, ht, hw⟩
    exact ⟨t, ht, w, hw⟩

theorem Tabulated.mem_predecessors (hd : d.Tabulated) :
    s ∈ d.predecessors t ↔ ∃ c, d.move? s c = some t := by
  simp only [predecessors, List.mem_filterMap, Option.ite_none_right_eq_some, Option.some.injEq,
    hd.move?_eq_some_iff]
  constructor
  · rintro ⟨m, hm, rfl, rfl⟩
    exact ⟨m.symbol, hm⟩
  · rintro ⟨c, hc⟩
    exact ⟨_, hc, rfl, rfl⟩

theorem Tabulated.reaches_predecessors_iff (hd : d.Tabulated) :
    Reaches d.predecessors t s ↔ Reaches d.successors s t := by
  constructor
  · refine Reaches.reverse fun a b hb => ?_
    exact hd.mem_successors.2 (hd.mem_predecessors.1 hb)
  · refine Reaches.reverse fun a b hb => ?_
    exact hd.mem_predecessors.2 (hd.mem_successors.1 hb)

theorem Tabulated.mem_live (hd : d.Tabulated) : s ∈ d.live ↔ d.Live s := by
  have hcard : (d.finals.toList ++ d.moves.map (·.source)).toFinset.card ≤
      d.moves.length + d.finals.size := by
    refine (List.toFinset_card_le _).trans ?_
    simp [Ascending.size, Nat.add_comm]
  rw [live, Ascending.mem_ofList, mem_explore_iff (fun s hs => by simp [hs]) ?_ hcard]
  · simp only [hd.reaches_predecessors_iff, hd.reaches_successors_iff]
    constructor
    · rintro ⟨t, ht, w, hw⟩
      exact ⟨w, mem_residual.2 ⟨t, hw, ht⟩⟩
    · rintro ⟨w, hw⟩
      obtain ⟨t, hw, ht⟩ := mem_residual.1 hw
      exact ⟨t, ht, w, hw⟩
  · intro t _ s hs
    obtain ⟨c, hc⟩ := hd.mem_predecessors.1 hs
    have hsource : s ∈ d.moves.map (·.source) := List.mem_map.2 ⟨_, mem_moves_of_move? hc, rfl⟩
    simp only [List.mem_toFinset, List.mem_append]
    exact Or.inr hsource

end LanguageTheory.Dfa
