import LanguageTheory.Finite.Exploration
import Mathlib.Data.Finset.Dedup
import Mathlib.Data.Finset.Card

/-! Exploration finds everything that is reachable, each node once, as soon as its bound is no smaller
than a finite set that holds all reachable nodes. While nodes wait, those that are done have all their
successors among the known ones; the bound is only used up when every node of the set is done. As each node
comes out once, its place in the result can stand for it. -/

namespace LanguageTheory

variable {α : Type u} {next : α → List α} {a b c : α}

/-! ### Places in a list without duplicates -/

/-- A member is in one place only. -/
theorem eq_of_getElem?_eq_some {l : List α} (h : l.Nodup) {i j : Nat} (hi : l[i]? = some a)
    (hj : l[j]? = some a) : i = j :=
  (List.getElem?_inj (List.getElem?_eq_some_iff.1 hi).1 h).1 (hi.trans hj.symm)

theorem idxOf?_eq_some_iff_getElem? [DecidableEq α] {l : List α} (h : l.Nodup) {i : Nat} :
    l.idxOf? a = some i ↔ l[i]? = some a := by
  rw [List.idxOf?_eq_some_iff, List.getElem?_eq_some_iff]
  refine exists_congr fun hi => and_iff_left_of_imp fun heq j hj hja => ?_
  exact hj.ne (h.getElem_inj_iff.1 (hja.trans heq.symm))

theorem pairwise_zipIdx (l : List α) : l.zipIdx.Pairwise fun x y => x.2 < y.2 := by
  rw [← List.pairwise_map, List.zipIdx_map_snd]
  exact List.pairwise_lt_range'

/-! ### Reachable nodes -/

theorem Reaches.trans (hab : Reaches next a b) (hbc : Reaches next b c) : Reaches next a c := by
  induction hbc with
  | refl => exact hab
  | step _ hc ih => exact ih.step hc

theorem Reaches.head (hb : b ∈ next a) (hbc : Reaches next b c) : Reaches next a c :=
  (Reaches.refl.step hb).trans hbc

/-- What holds of the end of a path and passes to predecessors holds of its start. -/
theorem Reaches.head_induction {p : α → Prop} (hab : Reaches next a b) (hb : p b)
    (hnext : ∀ a c, c ∈ next a → Reaches next c b → p c → p a) : p a := by
  induction hab with
  | refl => exact hb
  | @step c d _ hd ih =>
      refine ih (hnext c d hd .refl hb) fun e f hf hfc hpf => ?_
      exact hnext e f hf (hfc.step hd) hpf

/-- What holds of a node and passes to successors holds of everything reachable from it. -/
theorem Reaches.invariant {p : α → Prop} (hnext : ∀ a, p a → ∀ b ∈ next a, p b) (ha : p a)
    (hab : Reaches next a b) : p b := by
  induction hab with
  | refl => exact ha
  | step _ hc ih => exact hnext _ ih _ hc

/-- Following predecessors is following successors backwards. -/
theorem Reaches.reverse {back : α → List α} (h : ∀ a b, b ∈ next a → a ∈ back b)
    (hab : Reaches next a b) : Reaches back b a := by
  induction hab with
  | refl => exact .refl
  | step _ hc ih => exact .head (h _ _ hc) ih

variable [DecidableEq α]

/-- What counts as fresh depends only on which nodes are known, not on their order. -/
theorem fresh_congr {known known' : List α} (h : ∀ a, a ∈ known ↔ a ∈ known') (l : List α) :
    fresh known l = fresh known' l := by
  induction l generalizing known known' with
  | nil => rfl
  | cons b l ih =>
      by_cases hb : b ∈ known
      · rw [fresh, fresh, if_pos hb, if_pos ((h b).1 hb)]
        exact ih h
      · rw [fresh, fresh, if_neg hb, if_neg (mt (h b).2 hb)]
        congr 1
        apply ih
        intro a
        rw [List.mem_cons, List.mem_cons, h a]

/-- The known nodes stay distinct when the new successors of one of them are added. -/
theorem nodup_append_fresh {known l : List α} (h : known.Nodup) : (known ++ fresh known l).Nodup := by
  refine List.nodup_append.2 ⟨h, nodup_fresh known l, ?_⟩
  rintro a ha _ hb rfl
  exact (mem_fresh.1 hb).2 ha

theorem nodup_exploreFrom (bound : Nat) {done waiting : List α} (h : (done ++ waiting).Nodup) :
    (exploreFrom next bound done waiting).Nodup := by
  induction bound generalizing done waiting with
  | zero => exact h
  | succ bound ih =>
      cases waiting with
      | nil => simpa [exploreFrom] using h
      | cons a rest =>
          refine ih ?_
          have hgrown := nodup_append_fresh (l := next a) h
          simpa [List.append_assoc] using hgrown

theorem nodup_explore (next : α → List α) (bound : Nat) (starts : List α) :
    (explore next bound starts).Nodup :=
  nodup_exploreFrom bound (by simpa using nodup_fresh [] starts)

/-- The nodes known so far come out first. -/
theorem prefix_exploreFrom (next : α → List α) (bound : Nat) (done waiting : List α) :
    done ++ waiting <+: exploreFrom next bound done waiting := by
  induction bound generalizing done waiting with
  | zero => exact List.prefix_refl _
  | succ bound ih =>
      cases waiting with
      | nil =>
          rw [List.append_nil]
          exact List.prefix_refl _
      | cons a rest =>
          have hprefix := ih (done ++ [a]) (rest ++ fresh (done ++ a :: rest) (next a))
          rw [← List.append_assoc] at hprefix
          have hknown := (List.prefix_append _ _).trans hprefix
          rwa [List.append_assoc, List.singleton_append] at hknown

theorem head?_explore (next : α → List α) (bound : Nat) (a : α) :
    (explore next bound [a]).head? = some a := by
  obtain ⟨rest, hrest⟩ := prefix_exploreFrom next bound [] (fresh [] [a])
  rw [explore, ← hrest]
  rfl

/-- Distinct nodes within a set of no more nodes are all of it. -/
theorem eq_nil_of_card_le {known : Finset α} {done waiting : List α} (hnodup : (done ++ waiting).Nodup)
    (hmem : ∀ a ∈ done ++ waiting, a ∈ known) (hcard : known.card ≤ done.length) : waiting = [] := by
  have hsub : (done ++ waiting).toFinset ⊆ known := fun a ha => hmem a (List.mem_toFinset.1 ha)
  have hle := Finset.card_le_card hsub
  rw [List.toFinset_card_of_nodup hnodup, List.length_append] at hle
  exact List.length_eq_zero_iff.1 (by omega)

theorem exploreFrom_closed {known : Finset α} (hknown : ∀ a ∈ known, ∀ b ∈ next a, b ∈ known)
    (bound : Nat) {done waiting : List α} (hnodup : (done ++ waiting).Nodup)
    (hmem : ∀ a ∈ done ++ waiting, a ∈ known)
    (hdone : ∀ a ∈ done, ∀ b ∈ next a, b ∈ done ++ waiting)
    (hbound : known.card ≤ done.length + bound) :
    ∀ a ∈ exploreFrom next bound done waiting, ∀ b ∈ next a, b ∈ exploreFrom next bound done waiting := by
  induction bound generalizing done waiting with
  | zero =>
      have hnil : waiting = [] := eq_nil_of_card_le hnodup hmem hbound
      subst hnil
      simpa [exploreFrom] using hdone
  | succ bound ih =>
      cases waiting with
      | nil => simpa [exploreFrom] using hdone
      | cons a rest =>
          have hperm : ∀ c, c ∈ done ++ [a] ++ (rest ++ fresh (done ++ a :: rest) (next a)) ↔
              c ∈ (done ++ a :: rest) ++ fresh (done ++ a :: rest) (next a) := by
            intro c
            simp [List.append_assoc]
          refine ih ?_ ?_ ?_ ?_
          · simpa [List.append_assoc] using nodup_append_fresh (l := next a) hnodup
          · intro c hc
            rcases List.mem_append.1 ((hperm c).1 hc) with hc | hc
            · exact hmem c hc
            · exact hknown a (hmem a (by simp)) c (mem_fresh.1 hc).1
          · intro c hc b hb
            rw [hperm b, List.mem_append, mem_fresh]
            rcases List.mem_append.1 hc with hc | hc
            · exact Or.inl (hdone c hc b hb)
            · obtain rfl : c = a := by simpa using hc
              by_cases hold : b ∈ done ++ c :: rest
              · exact Or.inl hold
              · exact Or.inr ⟨hb, hold⟩
          · rw [List.length_append, List.length_singleton]
            omega

/-- An exploration finds exactly the reachable nodes if its bound is no smaller than some set that
holds the starts and is closed under successors. -/
theorem mem_explore_iff {known : Finset α} {starts : List α} {bound : Nat}
    (hstarts : ∀ a ∈ starts, a ∈ known) (hknown : ∀ a ∈ known, ∀ b ∈ next a, b ∈ known)
    (hbound : known.card ≤ bound) {a : α} :
    a ∈ explore next bound starts ↔ ∃ s ∈ starts, Reaches next s a := by
  constructor
  · exact reaches_of_mem_explore
  · rintro ⟨s, hs, hsa⟩
    have hclosed : ∀ a ∈ explore next bound starts, ∀ b ∈ next a, b ∈ explore next bound starts := by
      refine exploreFrom_closed hknown bound (by simpa using nodup_fresh [] starts) ?_ (by simp) (by simpa)
      intro b hb
      exact hstarts b (mem_fresh.1 (by simpa using hb)).1
    exact hsa.invariant hclosed (mem_explore_of_mem hs)

end LanguageTheory
