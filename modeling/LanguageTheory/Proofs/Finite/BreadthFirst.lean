import LanguageTheory.Proofs.Finite.Exploration
import Mathlib.Data.List.Shortlex

/-! The order in which exploration meets the nodes of a graph with labels on its edges, where the edges out
of each node are listed by ascending label. Nodes come out by their least words: of the words that lead to a
node from the start the shortest, and of those the first in lexicographic order. The least word to a node goes
on from the least word to the node before by one label. So a node that is not known yet is led to by way of
one that still waits, and what the first of these leads to comes before everything else. -/

namespace LanguageTheory.Labelled

variable {α : Type u} {σ : Type v} {next : α → List (σ × α)} {start a b e : α} {c d : σ}
  {u v w : List σ} {done rest known : List α} {edges : List (σ × α)}

/-- The labels of some path from the start to a node spell the word. -/
inductive Path (next : α → List (σ × α)) (start : α) : List σ → α → Prop
  | nil : Path next start [] start
  | snoc {w : List σ} {a b : α} {c : σ} : Path next start w a → (c, b) ∈ next a →
      Path next start (w ++ [c]) b

theorem exists_path_iff : (∃ w, Path next start w a) ↔ Reaches (fun a => (next a).map (·.2)) start a := by
  constructor
  · rintro ⟨w, h⟩
    induction h with
    | nil => exact .refl
    | snoc _ hc ih => exact ih.step (List.mem_map.2 ⟨_, hc, rfl⟩)
  · intro h
    induction h with
    | refl => exact ⟨[], .nil⟩
    | step _ hb ih =>
        obtain ⟨w, hw⟩ := ih
        obtain ⟨_, hc, rfl⟩ := List.mem_map.1 hb
        exact ⟨_, hw.snoc hc⟩

/-! ### Words -/

variable [LinearOrder σ]

/-- Words are compared by length, and words of one length by the first labels in which they differ. -/
abbrev Precedes (v w : List σ) : Prop := List.Shortlex (· < ·) v w

/-- The word leads to the node, and none that comes before it does. -/
def Least (next : α → List (σ × α)) (start : α) (w : List σ) (a : α) : Prop :=
  Path next start w a ∧ ∀ v, Path next start v a → ¬Precedes v w

/-- The least word to the one node comes before the least word to the other. -/
def Before (next : α → List (σ × α)) (start a b : α) : Prop :=
  ∀ u v, Least next start u a → Least next start v b → Precedes u v

theorem Precedes.snoc (h : Precedes u v) (c d : σ) : Precedes (u ++ [c]) (v ++ [d]) := by
  rcases List.shortlex_def.1 h with hlt | ⟨hlength, hlex⟩
  · apply List.Shortlex.of_length_lt
    simpa using hlt
  · apply List.Shortlex.of_lex
    · simpa using hlength
    · induction hlex with
      | nil => simp at hlength
      | cons hlex ih =>
          have hlength' := Nat.succ.inj hlength
          exact .cons (ih (.of_lex hlength' hlex) hlength')
      | rel hab => exact .rel hab

theorem precedes_snoc (u : List σ) (h : c < d) : Precedes (u ++ [c]) (u ++ [d]) :=
  List.Shortlex.append_left ((List.shortlex_singleton_iff c d).2 h) u

theorem eq_or_precedes (h : ¬Precedes u v) : u = v ∨ Precedes v u := by
  by_contra hnot
  rw [not_or] at hnot
  exact hnot.1 (Std.Trichotomous.trichotomous (r := Precedes) u v h hnot.2)

theorem Least.unique (hu : Least next start u a) (hv : Least next start v a) : u = v :=
  Std.Trichotomous.trichotomous (r := Precedes) u v (hv.2 u hu.1) (hu.2 v hv.1)

/-- The least word to a node goes on from the least word to another one. -/
theorem Least.exists_snoc (h : Least next start w a) (ha : a ≠ start) :
    ∃ u b c, w = u ++ [c] ∧ (c, a) ∈ next b ∧ Least next start u b := by
  obtain ⟨hpath, hleast⟩ := h
  cases hpath with
  | nil => exact (ha rfl).elim
  | @snoc u b _ c hu hc => exact ⟨u, b, c, rfl, hc, hu, fun v hv hvu => hleast _ (hv.snoc hc) (hvu.snoc c c)⟩

section WellFounded

variable [WellFoundedLT σ]

theorem wellFounded_precedes : WellFounded (Precedes (σ := σ)) := List.Shortlex.wf wellFounded_lt

theorem Precedes.trans (huv : Precedes u v) (hvw : Precedes v w) : Precedes u w := by
  by_contra huw
  rcases eq_or_precedes huw with rfl | hwu
  · exact wellFounded_precedes.asymmetric _ _ huv hvw
  · exact wellFounded_precedes.asymmetric₃ u v w huv hvw hwu

theorem Path.exists_least (h : Path next start w a) : ∃ v, Least next start v a := by
  obtain ⟨v, hv, hleast⟩ := wellFounded_precedes.has_min {w | Path next start w a} ⟨w, h⟩
  exact ⟨v, hv, hleast⟩

/-- The least word to a node comes before everything that a word to it comes before. -/
theorem Least.precedes (hu : Least next start u a) (hv : Path next start v a) (hvw : Precedes v w) :
    Precedes u w := by
  rcases eq_or_precedes (hu.2 v hv) with rfl | huv
  · exact hvw
  · exact huv.trans hvw

end WellFounded

/-! ### Nodes in order -/

/-- The nodes in `done` have been expanded. All known nodes are in order, and come before the others. -/
structure Ordered (next : α → List (σ × α)) (start : α) (done waiting : List α) : Prop where
  start_mem : start ∈ done ++ waiting
  exists_path : ∀ a ∈ done ++ waiting, ∃ w, Path next start w a
  closed : ∀ a ∈ done, ∀ c b, (c, b) ∈ next a → b ∈ done ++ waiting
  ascending : (done ++ waiting).Pairwise (Before next start)
  before_unknown : ∀ a ∈ done ++ waiting, ∀ b ∉ done ++ waiting, Before next start a b

/-- Only the empty word leads to the start by no edge, and it comes before all others. -/
theorem ordered_start (next : α → List (σ × α)) (start : α) : Ordered next start [] [start] where
  start_mem := List.mem_singleton_self start
  exists_path := by
    intro a ha
    obtain rfl := List.mem_singleton.1 ha
    exact ⟨[], .nil⟩
  closed := fun _ ha => (List.not_mem_nil ha).elim
  ascending := List.pairwise_singleton _ _
  before_unknown := by
    intro a ha b hb u v hu hv
    obtain rfl := List.mem_singleton.1 ha
    obtain rfl := (List.shortlex_nil_or_eq_nil u).resolve_left (hu.2 [] .nil)
    refine (List.shortlex_nil_or_eq_nil v).resolve_right ?_
    rintro rfl
    obtain ⟨_, _, _, hsnoc, _, _⟩ := hv.exists_snoc fun hba => hb (List.mem_singleton.2 hba)
    exact List.append_ne_nil_of_right_ne_nil _ (List.cons_ne_nil _ _) hsnoc.symm

/-- The least word to an unknown node goes on from that to the node that waits first, or comes after
whatever does. -/
theorem Ordered.least_of_unknown (h : Ordered next start done (a :: rest)) (hu : Least next start u a)
    (hb : b ∉ done ++ a :: rest) (hv : Least next start v b) :
    (∃ c, v = u ++ [c] ∧ (c, b) ∈ next a) ∨ ∀ c, Precedes (u ++ [c]) v := by
  have hne : b ≠ start := by
    rintro rfl
    exact hb h.start_mem
  obtain ⟨v', a', d, rfl, hd, hv'⟩ := hv.exists_snoc hne
  have hdone : a' ∉ done := fun ha' => hb (h.closed a' ha' d b hd)
  by_cases heq : a' = a
  · subst heq
    exact Or.inl ⟨d, by rw [hv'.unique hu], hd⟩
  · have hbefore : Before next start a a' := by
      by_cases hknown : a' ∈ done ++ a :: rest
      · have hrest : a' ∈ rest := by
          rcases List.mem_append.1 hknown with ha' | ha'
          · exact (hdone ha').elim
          · exact (List.mem_cons.1 ha').resolve_left heq
        exact (List.pairwise_cons.1 (List.pairwise_append.1 h.ascending).2.1).1 a' hrest
      · exact h.before_unknown a (List.mem_append_right _ List.mem_cons_self) a' hknown
    exact Or.inr fun c => (hbefore u v' hu hv').snoc c d

/-- What the node that waits first leads to comes before what is unknown, unless that has the lesser label. -/
theorem Ordered.before_of_label [WellFoundedLT σ] (h : Ordered next start done (a :: rest))
    (hc : (c, b) ∈ next a) (he : e ∉ done ++ a :: rest) (hless : ∀ d, (d, e) ∈ next a → c < d) :
    Before next start b e := by
  obtain ⟨w, hw⟩ := h.exists_path a (List.mem_append_right _ List.mem_cons_self)
  obtain ⟨p, hp⟩ := hw.exists_least
  intro u v hu hv
  apply hu.precedes (hp.1.snoc hc)
  rcases h.least_of_unknown hp he hv with ⟨d, rfl, hd⟩ | hafter
  · exact precedes_snoc p (hless d hd)
  · exact hafter c

/-! ### Exploration -/

variable [DecidableEq α]

/-- Of the new nodes behind some edges, each comes before the next by the label that leads to it first. -/
theorem pairwise_fresh (h : edges.Pairwise fun x y => x.1 < y.1) (known : List α) :
    (fresh known (edges.map (·.2))).Pairwise fun a b =>
      ∃ c, (c, a) ∈ edges ∧ ∀ d, (d, b) ∈ edges → c < d := by
  induction edges generalizing known with
  | nil => exact .nil
  | cons edge edges ih =>
      obtain ⟨c, a⟩ := edge
      obtain ⟨hc, hedges⟩ := List.pairwise_cons.1 h
      -- The first edge does not lead to what is new where its end is known.
      have hlater : ∀ known, a ∈ known →
          (fresh known (edges.map (·.2))).Pairwise fun b e => ∃ d, (d, b) ∈ (c, a) :: edges ∧
            ∀ d', (d', e) ∈ (c, a) :: edges → d < d' := by
        intro known ha
        refine (ih hedges known).imp_of_mem ?_
        rintro b e _ he ⟨d, hd, hless⟩
        refine ⟨d, List.mem_cons_of_mem _ hd, fun d' hd' => ?_⟩
        rcases List.mem_cons.1 hd' with heq | hd'
        · cases heq
          exact ((mem_fresh.1 he).2 ha).elim
        · exact hless d' hd'
      rw [List.map_cons, fresh]
      split
      next ha => exact hlater known ha
      next ha =>
        have hrest := hlater (a :: known) List.mem_cons_self
        refine List.pairwise_cons.2 ⟨fun b hb => ⟨c, List.mem_cons_self, fun d hd => ?_⟩, hrest⟩
        rcases List.mem_cons.1 hd with heq | hd
        · cases heq
          exact ((mem_fresh.1 hb).2 List.mem_cons_self).elim
        · exact hc _ hd

variable [WellFoundedLT σ] (hnext : ∀ a, (next a).Pairwise fun x y => x.1 < y.1)
include hnext

/-- Expanding the node that waits first keeps the order. -/
theorem Ordered.expand (h : Ordered next start done (a :: rest)) :
    Ordered next start (done ++ [a]) (rest ++ fresh (done ++ a :: rest) ((next a).map (·.2))) := by
  have hmem : ∀ b, b ∈ done ++ [a] ++ (rest ++ fresh (done ++ a :: rest) ((next a).map (·.2))) ↔
      b ∈ done ++ a :: rest ∨ b ∈ fresh (done ++ a :: rest) ((next a).map (·.2)) := by
    intro b
    simp only [List.mem_append, List.mem_cons, List.not_mem_nil, or_false]
    tauto
  have hnew : ∀ b, b ∈ fresh (done ++ a :: rest) ((next a).map (·.2)) ↔
      (∃ c, (c, b) ∈ next a) ∧ b ∉ done ++ a :: rest := by
    intro b
    rw [mem_fresh, List.mem_map]
    simp only [Prod.exists, exists_eq_right]
  obtain ⟨w, hw⟩ := h.exists_path a (List.mem_append_right _ List.mem_cons_self)
  refine ⟨(hmem _).2 (Or.inl h.start_mem), ?_, ?_, ?_, ?_⟩
  · intro b hb
    rcases (hmem b).1 hb with hb | hb
    · exact h.exists_path b hb
    · obtain ⟨⟨c, hc⟩, _⟩ := (hnew b).1 hb
      exact ⟨_, hw.snoc hc⟩
  · intro b hb c e he
    rw [hmem]
    rcases List.mem_append.1 hb with hb | hb
    · exact Or.inl (h.closed b hb c e he)
    · obtain rfl := List.mem_singleton.1 hb
      by_cases hknown : e ∈ done ++ b :: rest
      · exact Or.inl hknown
      · exact Or.inr ((hnew e).2 ⟨⟨c, he⟩, hknown⟩)
  · rw [List.append_assoc, List.singleton_append, ← List.cons_append, ← List.append_assoc]
    refine List.pairwise_append.2 ⟨h.ascending, ?_, ?_⟩
    · refine (pairwise_fresh (hnext a) (done ++ a :: rest)).imp_of_mem ?_
      rintro b e _ he ⟨c, hc, hless⟩
      exact h.before_of_label hc ((hnew e).1 he).2 hless
    · intro b hb e he
      exact h.before_unknown b hb e ((hnew e).1 he).2
  · intro b hb e he
    rw [hmem, not_or] at he
    rcases (hmem b).1 hb with hb | hb
    · exact h.before_unknown b hb e he.1
    · obtain ⟨⟨c, hc⟩, _⟩ := (hnew b).1 hb
      exact h.before_of_label hc he.1 fun d hd => (he.2 ((hnew e).2 ⟨⟨d, hd⟩, he.1⟩)).elim

theorem Ordered.pairwise_exploreFrom (bound : Nat) {waiting : List α} (h : Ordered next start done waiting) :
    (exploreFrom (fun a => (next a).map (·.2)) bound done waiting).Pairwise (Before next start) := by
  induction bound generalizing done waiting with
  | zero => exact h.ascending
  | succ bound ih =>
      cases waiting with
      | nil =>
          have hascending := h.ascending
          rwa [List.append_nil] at hascending
      | cons a rest => exact ih (h.expand hnext)

/-- Nodes are met in the order of the least words that lead to them. -/
theorem pairwise_explore (bound : Nat) (start : α) :
    (explore (fun a => (next a).map (·.2)) bound [start]).Pairwise (Before next start) :=
  (ordered_start next start).pairwise_exploreFrom hnext bound

end LanguageTheory.Labelled
