import LanguageTheory.Proofs.Automaton.Language
import LanguageTheory.Proofs.Regex.Language
import LanguageTheory.Regex.Elimination

/-! The expression for a finite automaton stands for the words that the automaton accepts. Walks through
the cells of a table spell words, and to take a state out keeps the walks between the other states: where
a walk passes the state, the detour is one cell of the new table. When only the start and the end are left,
a walk is one cell. -/

namespace LanguageTheory.Regex.Cells

variable {t : Cells} {old : Option Regex} {new : Regex} {f : Nat → Nat → Option Regex} {k n p q r size : Nat}
  {u v w x : Word}

/-! ### Cells -/

theorem cell_tabulate (size : Nat) (f : Nat → Nat → Option Regex) (p q : Nat) :
    (tabulate size f).cell p q = if p < size ∧ q < size then f p q else none := by
  by_cases hp : p < size <;> by_cases hq : q < size <;> simp [tabulate, cell, hp, hq]

/-- The words of the expression in a cell. -/
def Allowed (cell : Option Regex) (w : Word) : Prop := ∃ r, cell = some r ∧ Matches r w

theorem not_allowed_none : ¬Allowed none w := fun ⟨_, h, _⟩ => nomatch h

theorem allowed_some : Allowed (some new) w ↔ Matches new w := by simp [Allowed]

theorem allowed_merge : Allowed (merge old new) w ↔ Allowed old w ∨ Matches new w := by
  cases old with
  | none => simp [merge, allowed_some, not_allowed_none]
  | some r => simp [merge, allowed_some, matches_mkUnion]

theorem allowed_foldl_merge {α : Type} (g : α → Regex) (l : List α) (old : Option Regex) :
    Allowed (l.foldl (fun old e => merge old (g e)) old) w ↔ Allowed old w ∨ ∃ e ∈ l, Matches (g e) w := by
  induction l generalizing old with
  | nil => simp
  | cons e l ih => simp [ih, allowed_merge, or_assoc]

theorem matches_getD : Matches (old.getD empty) w ↔ Allowed old w := by
  cases old with
  | none => exact iff_of_false not_matches_empty not_allowed_none
  | some r => exact allowed_some.symm

theorem allowed_tabulate :
    Allowed ((tabulate size f).cell p q) w ↔ (p < size ∧ q < size) ∧ Allowed (f p q) w := by
  rw [cell_tabulate]
  split
  next h => exact (and_iff_right h).symm
  next h => exact iff_of_false not_allowed_none fun hw => h hw.1

/-! ### Taking a state out -/

/-- A detour: into the state, round its loop, and out of it again. -/
def Detour (t : Cells) (p q r : Nat) (w : Word) : Prop :=
  ∃ u v x, w = u ++ (v ++ x) ∧ Allowed (t.cell p q) u ∧ Matches (star ((t.cell q q).getD empty)) v ∧
    Allowed (t.cell q r) x

theorem matches_detour {into out : Regex} (hinto : t.cell p q = some into) (hout : t.cell q r = some out) :
    Matches (mkConcat (mkConcat into (mkStar ((t.cell q q).getD empty))) out) w ↔ Detour t p q r w := by
  simp only [Detour, hinto, hout, allowed_some, matches_mkConcat, matches_concat, matches_mkStar]
  constructor
  · rintro ⟨_, x, rfl, ⟨u, v, rfl, hu, hv⟩, hx⟩
    exact ⟨u, v, x, List.append_assoc u v x, hu, hv, hx⟩
  · rintro ⟨u, v, x, rfl, hu, hv, hx⟩
    exact ⟨u ++ v, x, (List.append_assoc u v x).symm, ⟨u, v, rfl, hu, hv⟩, hx⟩

theorem allowed_eliminate : Allowed ((t.eliminate size q).cell p r) w ↔
    (p < size ∧ r < size) ∧ (p ≠ q ∧ r ≠ q) ∧ (Allowed (t.cell p r) w ∨ Detour t p q r w) := by
  rw [eliminate, allowed_tabulate]
  refine and_congr_right fun _ => ?_
  split
  next h => exact iff_of_false not_allowed_none fun hw => h.elim hw.1.1 hw.1.2
  next h =>
    rw [and_iff_right (not_or.1 h)]
    split
    next into out hinto hout => rw [allowed_merge, matches_detour hinto hout]
    next hnone =>
      -- Without a cell into the state or out of it there is no detour.
      refine (or_iff_left ?_).symm
      rintro ⟨u, v, x, _, ⟨into, hinto, _⟩, _, out, hout, _⟩
      exact hnone into out hinto hout

/-- A walk from state to state spells a word. -/
inductive Walk (t : Cells) : Nat → Word → Nat → Prop
  | nil (p : Nat) : Walk t p [] p
  | cons {p q r : Nat} {u w : Word} : Allowed (t.cell p q) u → Walk t q w r → Walk t p (u ++ w) r

theorem Walk.trans (h : Walk t p u q) (h' : Walk t q w r) : Walk t p (u ++ w) r := by
  induction h with
  | nil => exact h'
  | cons hu _ ih =>
      rw [List.append_assoc]
      exact .cons hu (ih h')

theorem Walk.single (h : Allowed (t.cell p q) w) : Walk t p w q := by
  have hwalk := Walk.cons h (.nil q)
  rwa [List.append_nil] at hwalk

theorem Walk.exists_cons (h : Walk t p w r) (hne : p ≠ r) :
    ∃ q u v, w = u ++ v ∧ Allowed (t.cell p q) u ∧ Walk t q v r := by
  cases h with
  | nil => exact absurd rfl hne
  | cons hu hwalk => exact ⟨_, _, _, rfl, hu, hwalk⟩

theorem walk_of_matches_star (h : Matches (star ((t.cell q q).getD empty)) w) : Walk t q w q := by
  induction h using Matches.star_induction with
  | stop => exact .nil q
  | more hu _ ih => exact .cons (matches_getD.1 hu) ih

theorem Detour.walk (h : Detour t p q r w) : Walk t p w r := by
  obtain ⟨u, v, x, rfl, hu, hv, hx⟩ := h
  exact .cons hu ((walk_of_matches_star hv).trans (.single hx))

/-- What a walk to another state is in the new table: a walk again, and from the state that is taken out a
last round of its loop, a cell out of it, and then a walk. -/
theorem Walk.of_table (hsize : ∀ {p q w}, Allowed (t.cell p q) w → p < size ∧ q < size) (h : Walk t p w r)
    (hr : r ≠ q) : (p ≠ q → Walk (t.eliminate size q) p w r) ∧
      (p = q → ∃ s v x y, w = v ++ (x ++ y) ∧ s ≠ q ∧ Matches (star ((t.cell q q).getD empty)) v ∧
        Allowed (t.cell q s) x ∧ Walk (t.eliminate size q) s y r) := by
  induction h with
  | nil p => exact ⟨fun _ => .nil p, fun hp => absurd hp hr⟩
  | @cons p p' r u w hu _ ih =>
      obtain ⟨hother, hsame⟩ := ih hr
      constructor
      · intro hp
        by_cases hp' : p' = q
        · obtain ⟨s, v, x, y, rfl, hs, hv, hx, hwalk⟩ := hsame hp'
          subst hp'
          have hcell : Allowed ((t.eliminate size p').cell p s) (u ++ (v ++ x)) := allowed_eliminate.2
            ⟨⟨(hsize hu).1, (hsize hx).2⟩, ⟨hp, hs⟩, .inr ⟨u, v, x, rfl, hu, hv, hx⟩⟩
          have hcons := Walk.cons hcell hwalk
          rwa [List.append_assoc, List.append_assoc] at hcons
        · have hcell : Allowed ((t.eliminate size q).cell p p') u :=
            allowed_eliminate.2 ⟨hsize hu, ⟨hp, hp'⟩, .inl hu⟩
          exact .cons hcell (hother hp')
      · rintro rfl
        by_cases hp' : p' = p
        · obtain ⟨s, v, x, y, rfl, hs, hv, hx, hwalk⟩ := hsame hp'
          subst hp'
          exact ⟨s, u ++ v, x, y, (List.append_assoc u v _).symm, hs, .more (matches_getD.2 hu) hv, hx, hwalk⟩
        · exact ⟨p', [], u, w, rfl, hp', .stop, hu, hother hp'⟩

/-- To take a state out keeps the walks between the other states. -/
theorem walk_eliminate (hsize : ∀ {p q w}, Allowed (t.cell p q) w → p < size ∧ q < size) (hp : p ≠ q)
    (hr : r ≠ q) : Walk (t.eliminate size q) p w r ↔ Walk t p w r := by
  constructor
  · intro h
    induction h with
    | nil p => exact .nil p
    | cons hu hwalk ih =>
        obtain ⟨_, ⟨hp, hp'⟩, hu⟩ := allowed_eliminate.1 hu
        have hfirst : Walk t _ _ _ := hu.elim Walk.single Detour.walk
        exact hfirst.trans (ih hp' hr)
  · intro h
    exact (h.of_table hsize hr).1 hp

/-! ### All states but the start and the end -/

/-- Cells lead from states that are not taken out yet, or from the start, to such states or to the end. -/
def Confined (n k : Nat) (t : Cells) : Prop :=
  ∀ p q w, Allowed (t.cell p q) w → (k ≤ p ∧ p ≤ n) ∧ k ≤ q ∧ q ≤ n + 1 ∧ q ≠ n

theorem Confined.eliminate (h : Confined n k t) : Confined n (k + 1) (t.eliminate (n + 2) k) := by
  intro p r w hw
  obtain ⟨_, hne, hw⟩ := allowed_eliminate.1 hw
  have hbounds : (k ≤ p ∧ p ≤ n) ∧ k ≤ r ∧ r ≤ n + 1 ∧ r ≠ n := by
    rcases hw with hw | ⟨u, v, x, _, hu, _, hx⟩
    · exact h p r w hw
    · exact ⟨(h p k u hu).1, (h k r x hx).2⟩
  omega

/-- The states below `k` are taken out one after the other. -/
theorem walk_eliminations (h : Confined n 0 t) (hk : k ≤ n) :
    Confined n k ((List.range k).foldl (eliminate (n + 2)) t) ∧
      ∀ w, Walk ((List.range k).foldl (eliminate (n + 2)) t) n w (n + 1) ↔ Walk t n w (n + 1) := by
  induction k with
  | zero => exact ⟨h, fun _ => Iff.rfl⟩
  | succ k ih =>
      obtain ⟨hconfined, hwalk⟩ := ih (Nat.le_of_succ_le hk)
      rw [List.range_succ, List.foldl_append, List.foldl_cons, List.foldl_nil]
      refine ⟨hconfined.eliminate, fun w => ?_⟩
      have hsize : ∀ {p q w}, Allowed (Cells.cell ((List.range k).foldl (eliminate (n + 2)) t) p q) w →
          p < n + 2 ∧ q < n + 2 := by
        intro p q w hw
        have hbounds := hconfined p q w hw
        omega
      rw [walk_eliminate hsize (by omega) (by omega), hwalk]

theorem Confined.eq_nil_of_walk (h : Confined n k t) (hwalk : Walk t (n + 1) w r) : w = [] := by
  cases hwalk with
  | nil => rfl
  | @cons _ q _ u _ hu _ =>
      have hbounds := h (n + 1) q u hu
      omega

/-- From the start a walk goes to the end at once, and there it is over. -/
theorem walk_iff_of_confined (h : Confined n n t) : Walk t n w (n + 1) ↔ Allowed (t.cell n (n + 1)) w := by
  constructor
  · intro hwalk
    obtain ⟨q, u, v, rfl, hu, hrest⟩ := hwalk.exists_cons (Nat.succ_ne_self n).symm
    have hbounds := h n q u hu
    obtain rfl : q = n + 1 := by omega
    rwa [h.eq_nil_of_walk hrest, List.append_nil]
  · exact Walk.single

end LanguageTheory.Regex.Cells

namespace LanguageTheory.Automaton

open Regex (Matches)
open Regex.Cells (Allowed Confined Walk)

variable {a : Automaton} {initial s f : StateId} {p q : Nat} {r : Regex} {t : Transition} {w : Word}

/-! ### The first table -/

theorem mem_regexEdges : (p, q, r) ∈ a.regexEdges ↔
    (p = a.size ∧ a.initial.bind a.ids.idxOf? = some q ∧ r = .epsilon) ∨
      (q = a.size + 1 ∧ (∃ f ∈ a.finals, a.ids.idxOf? f = some p) ∧ r = .epsilon) ∨
      ∃ t ∈ a.transitions, ∃ read, t.label = .finite read ∧ a.ids.idxOf? t.source = some p ∧
        a.ids.idxOf? t.target = some q ∧ r = .ofWord read := by
  have hstart : (p, q, r) ∈ (a.initial.bind a.ids.idxOf?).toList.map (fun i => (a.size, i, Regex.epsilon)) ↔
      p = a.size ∧ a.initial.bind a.ids.idxOf? = some q ∧ r = .epsilon := by
    simp only [List.mem_map, Option.mem_toList, Prod.mk.injEq]
    constructor
    · rintro ⟨i, hi, rfl, rfl, rfl⟩
      exact ⟨rfl, hi, rfl⟩
    · rintro ⟨rfl, hi, rfl⟩
      exact ⟨q, hi, rfl, rfl, rfl⟩
  have hend : (p, q, r) ∈
        (a.finals.toList.filterMap a.ids.idxOf?).map (fun i => (i, a.size + 1, Regex.epsilon)) ↔
      q = a.size + 1 ∧ (∃ f ∈ a.finals, a.ids.idxOf? f = some p) ∧ r = .epsilon := by
    simp only [List.mem_map, List.mem_filterMap, Prod.mk.injEq]
    constructor
    · rintro ⟨i, hi, rfl, rfl, rfl⟩
      exact ⟨rfl, hi, rfl⟩
    · rintro ⟨rfl, hi, rfl⟩
      exact ⟨p, hi, rfl, rfl, rfl⟩
  rw [regexEdges, List.mem_append, List.mem_append, hstart, hend, or_assoc, List.mem_filterMap]
  refine or_congr_right (or_congr_right (exists_congr fun t => and_congr_right fun _ => ?_))
  constructor
  · intro h
    split at h
    next read i j hlabel hsource htarget =>
      cases h
      exact ⟨read, hlabel, hsource, htarget, rfl⟩
    next => cases h
  · rintro ⟨read, hlabel, hsource, htarget, rfl⟩
    simp only [hlabel, hsource, htarget]

/-- The table that elimination starts from. -/
def regexCells (a : Automaton) : Regex.Cells :=
  Regex.Cells.tabulate (a.size + 2) fun p q =>
    (a.regexEdges.filter fun e => e.1 = p ∧ e.2.1 = q).foldl (fun old e => Regex.Cells.merge old e.2.2) none

theorem allowed_regexCells_iff_mem : Allowed (a.regexCells.cell p q) w ↔
    (p < a.size + 2 ∧ q < a.size + 2) ∧ ∃ r, (p, q, r) ∈ a.regexEdges ∧ Matches r w := by
  rw [regexCells, Regex.Cells.allowed_tabulate, Regex.Cells.allowed_foldl_merge,
    or_iff_right Regex.Cells.not_allowed_none]
  refine and_congr_right fun _ => ?_
  simp only [List.mem_filter, decide_eq_true_eq, Prod.exists]
  constructor
  · rintro ⟨_, _, r, ⟨hr, rfl, rfl⟩, hw⟩
    exact ⟨r, hr, hw⟩
  · rintro ⟨r, hr, hw⟩
    exact ⟨p, q, r, ⟨hr, rfl, rfl⟩, hw⟩

theorem toRegex_eq (hkind : a.kind = .finite) (hinitial : a.initial = some initial) : a.toRegex =
    match a.reservedMove? with
    | some t => .error (.expression (t.label.read?.getD []) (.reservedLabel t))
    | none => .ok ((((List.range a.size).foldl (Regex.Cells.eliminate (a.size + 2)) a.regexCells).cell a.size
        (a.size + 1)).getD .empty) := by
  rw [toRegex, requireFinite, if_pos hkind, requireInitial, hinitial]
  simp only [bind, Except.bind]
  cases a.reservedMove? <;> rfl

/-- What the first table allows: nothing is read from the start to the initial state and from a final state
to the end, and a transition reads its label. -/
inductive Tied (a : Automaton) : Nat → Nat → Word → Prop
  | start {s : StateId} {q : Nat} : a.initial = some s → a.ids.idxOf? s = some q → Tied a a.size q []
  | final {f : StateId} {p : Nat} : f ∈ a.finals → a.ids.idxOf? f = some p → Tied a p (a.size + 1) []
  | read {t : Transition} {p q : Nat} {w : Word} : t ∈ a.transitions → t.label = .finite w →
      a.ids.idxOf? t.source = some p → a.ids.idxOf? t.target = some q → Tied a p q w

theorem Tied.bounds (h : Tied a p q w) : p ≤ a.size ∧ q ≤ a.size + 1 ∧ q ≠ a.size := by
  cases h with
  | start _ hq =>
      have hlt := lt_size_of_idxOf? hq
      omega
  | final _ hp =>
      have hlt := lt_size_of_idxOf? hp
      omega
  | read _ _ hp hq =>
      have hlt := lt_size_of_idxOf? hp
      have hlt' := lt_size_of_idxOf? hq
      omega

theorem allowed_regexCells : Allowed (a.regexCells.cell p q) w ↔ Tied a p q w := by
  rw [allowed_regexCells_iff_mem]
  simp only [mem_regexEdges]
  constructor
  · rintro ⟨_, r, ⟨rfl, hq, rfl⟩ | ⟨rfl, ⟨f, hf, hp⟩, rfl⟩ | ⟨t, ht, read, hlabel, hp, hq, rfl⟩, hw⟩
    · obtain ⟨s, hs, hq⟩ := Option.bind_eq_some_iff.1 hq
      exact Regex.matches_epsilon.1 hw ▸ .start hs hq
    · exact Regex.matches_epsilon.1 hw ▸ .final hf hp
    · exact .read ht (Regex.matches_ofWord.1 hw ▸ hlabel) hp hq
  · intro h
    have hbounds := h.bounds
    refine ⟨by omega, ?_⟩
    cases h with
    | start hs hq => exact ⟨_, .inl ⟨rfl, Option.bind_eq_some_iff.2 ⟨_, hs, hq⟩, rfl⟩, .epsilon⟩
    | final hf hp => exact ⟨_, .inr (.inl ⟨rfl, ⟨_, hf, hp⟩, rfl⟩), .epsilon⟩
    | read ht hlabel hp hq =>
        exact ⟨_, .inr (.inr ⟨_, ht, w, hlabel, hp, hq, rfl⟩), Regex.matches_ofWord.2 rfl⟩

theorem confined_regexCells (a : Automaton) : Confined a.size 0 a.regexCells := by
  intro p q w hw
  have hbounds := (allowed_regexCells.1 hw).bounds
  omega

theorem walk_of_path (ha : a.WellFormed) (h : a.Path s w f) (hs : a.ids.idxOf? s = some p)
    (hf : a.ids.idxOf? f = some q) : Walk a.regexCells p w q := by
  induction h generalizing p with
  | nil =>
      obtain rfl := Option.some.inj (hs.symm.trans hf)
      exact .nil p
  | cons ht hlabel _ ih =>
      obtain ⟨i, hi⟩ := ha.exists_idxOf? (ha.endpoints_mem _ ht).2
      exact .cons (allowed_regexCells.2 (.read ht hlabel hs hi)) (ih hi hf)

theorem exists_path_of_walk (ha : a.WellFormed) (h : Walk a.regexCells p w q) (hq : q = a.size + 1)
    (hs : a.ids.idxOf? s = some p) : ∃ f ∈ a.finals, a.Path s w f := by
  have hlt := lt_size_of_idxOf? hs
  induction h generalizing s with
  | nil p => omega
  | cons hu hrest ih =>
      have hplace := ha.idxOf?_eq_some_iff.1 hs
      cases allowed_regexCells.1 hu with
      | start => exact absurd hlt (Nat.lt_irrefl _)
      | @final f _ hf hp =>
          obtain rfl : f = s := Option.some.inj ((ha.idxOf?_eq_some_iff.1 hp).symm.trans hplace)
          rw [(confined_regexCells a).eq_nil_of_walk hrest]
          exact ⟨f, hf, .nil f⟩
      | @read t _ _ _ ht hlabel hp hi =>
          obtain rfl : t.source = s := Option.some.inj ((ha.idxOf?_eq_some_iff.1 hp).symm.trans hplace)
          obtain ⟨f, hf, hpath⟩ := ih hq hi (lt_size_of_idxOf? hi)
          exact ⟨f, hf, .cons ht hlabel hpath⟩

/-- What a walk from the start to the end spells is accepted. -/
theorem walk_regexCells (ha : a.WellFormed) (hinitial : a.initial = some initial) :
    Walk a.regexCells a.size w (a.size + 1) ↔ w ∈ a.language := by
  obtain ⟨i, hi⟩ := ha.exists_idxOf? (ha.initial_mem initial hinitial)
  constructor
  · intro h
    obtain ⟨q, u, v, rfl, hu, hrest⟩ := h.exists_cons (Nat.succ_ne_self _).symm
    generalize hp : a.size = p at hu
    cases allowed_regexCells.1 hu with
    | start hs hq => exact ⟨_, hs, exists_path_of_walk ha hrest rfl hq⟩
    | final _ hp' => exact absurd (lt_size_of_idxOf? hp') hp.not_gt
    | read _ _ hp' _ => exact absurd (lt_size_of_idxOf? hp') hp.not_gt
  · intro hw
    obtain ⟨f, hf, hpath⟩ := (mem_language hinitial).1 hw
    obtain ⟨j, hj⟩ := ha.exists_idxOf? (ha.finals_mem f hf)
    have hfirst := Walk.single (allowed_regexCells.2 (.start hinitial hi))
    have hlast := Walk.single (allowed_regexCells.2 (.final hf hj))
    have hwalk := hfirst.trans ((walk_of_path ha hpath hi hj).trans hlast)
    rwa [List.append_nil] at hwalk

/-! ### Labels with reserved characters -/

/-- The transition reads a character that has a meaning of its own in expressions. -/
def ReadsReserved (t : Transition) : Prop :=
  ∃ c ∈ t.label.read?.getD [], c ∈ ['+', '*', '(', ')', 'λ', '∅'] ∨ Text.isBlank c = true

theorem readsReserved_iff : (t.label.read?.getD []).any Regex.isReserved = true ↔ ReadsReserved t := by
  simp [ReadsReserved, Regex.isReserved, or_assoc]

instance (t : Transition) : Decidable (ReadsReserved t) := decidable_of_iff _ readsReserved_iff

theorem reservedMove?_eq_none : a.reservedMove? = none ↔ ∀ t ∈ a.transitions, ¬ReadsReserved t := by
  rw [reservedMove?, List.find?_eq_none]
  exact forall₂_congr fun t _ => not_congr readsReserved_iff

/-- If no transition reads a reserved character, a finite automaton with an initial state has an expression,
which stands for the words that the automaton accepts. Otherwise there is an error, which names a transition
that does, and its label. -/
theorem toRegex_correct (ha : a.WellFormed) (hkind : a.kind = .finite) (hinitial : a.initial = some initial) :
    ((∀ t ∈ a.transitions, ¬ReadsReserved t) →
      ∃ r, a.toRegex = .ok r ∧ ∀ w, Matches r w ↔ w ∈ a.language) ∧
    ((∃ t ∈ a.transitions, ReadsReserved t) →
      ∃ t ∈ a.transitions, ∃ read, ReadsReserved t ∧ t.label = .finite read ∧
        a.toRegex = .error (.expression read (.reservedLabel t))) := by
  rw [toRegex_eq hkind hinitial]
  constructor
  · intro hnone
    rw [reservedMove?_eq_none.2 hnone]
    refine ⟨_, rfl, fun w => ?_⟩
    obtain ⟨hconfined, hwalk⟩ :=
      Regex.Cells.walk_eliminations (confined_regexCells a) (Nat.le_refl a.size)
    rw [Regex.Cells.matches_getD, ← Regex.Cells.walk_iff_of_confined hconfined, hwalk,
      walk_regexCells ha hinitial]
  · rintro ⟨t, ht, hreserved⟩
    cases hfind : a.reservedMove? with
    | none => exact absurd hreserved (reservedMove?_eq_none.1 hfind t ht)
    | some first =>
        have hmem := List.mem_of_find?_eq_some hfind
        obtain ⟨read, hlabel⟩ := ha.exists_label_eq hkind hmem
        have hfirst : ReadsReserved first := readsReserved_iff.1 (List.find?_some (l := a.transitions) hfind :)
        refine ⟨first, hmem, read, hfirst, hlabel, ?_⟩
        simp only [hlabel]
        rfl

/-- The words of the letters `a` and `b` that end in `ab`, with a move that reads nothing and a label of two
symbols. -/
def endingInAb : Automaton :=
  { ofLabels .finite [none, none, none] with
    initial := some 0
    finals := .ofList [2]
    transitions := [⟨0, 0, .finite ['a']⟩, ⟨0, 0, .finite ['b']⟩, ⟨0, 1, .finite []⟩,
      ⟨1, 2, .finite ['a', 'b']⟩] }

/-- The same automaton with one more label, which is reserved. -/
def endingInAbOrPlus : Automaton :=
  { endingInAb with transitions := endingInAb.transitions ++ [⟨1, 2, .finite ['+']⟩] }

theorem toRegex_correct_endingInAb :
    (∃ r, endingInAb.toRegex = .ok r ∧ ∀ w, Matches r w ↔ w ∈ endingInAb.language) ∧
      ∃ t ∈ endingInAbOrPlus.transitions, ∃ read, ReadsReserved t ∧ t.label = .finite read ∧
        endingInAbOrPlus.toRegex = .error (.expression read (.reservedLabel t)) :=
  ⟨(toRegex_correct (by decide) rfl rfl).1 (by decide), (toRegex_correct (by decide) rfl rfl).2 (by decide)⟩

end LanguageTheory.Automaton
