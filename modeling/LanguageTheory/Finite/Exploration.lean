/-! Breadth-first exploration of a directed graph given by its successor lists. The nodes come out in
the order in which they are first met, starting with the given ones. The bound counts the nodes whose
successors are followed; with a bound no smaller than the number of reachable nodes the result is
closed under successors. -/

namespace LanguageTheory

variable {α : Type u} [DecidableEq α]

/-- The members of a list that are not known yet, each once, in order of first occurrence. -/
def fresh (known : List α) : List α → List α
  | [] => []
  | a :: rest => if a ∈ known then fresh known rest else a :: fresh (a :: known) rest

theorem mem_fresh {known l : List α} {a : α} : a ∈ fresh known l ↔ a ∈ l ∧ a ∉ known := by
  induction l generalizing known with
  | nil => simp [fresh]
  | cons b rest ih =>
      unfold fresh
      split <;> simp only [List.mem_cons, ih] <;> grind

theorem nodup_fresh (known l : List α) : (fresh known l).Nodup := by
  induction l generalizing known with
  | nil => simp [fresh]
  | cons b rest ih =>
      unfold fresh
      split
      · exact ih _
      · exact List.nodup_cons.2 ⟨fun h => (mem_fresh.1 h).2 (by simp), ih _⟩

/-- Nodes in `done` have had their successors added; those in `waiting` have not. -/
def exploreFrom (next : α → List α) : Nat → List α → List α → List α
  | 0, done, waiting => done ++ waiting
  | _ + 1, done, [] => done
  | bound + 1, done, a :: waiting =>
      exploreFrom next bound (done ++ [a]) (waiting ++ fresh (done ++ a :: waiting) (next a))

/-- The nodes reachable from `starts`, in order of discovery. -/
def explore (next : α → List α) (bound : Nat) (starts : List α) : List α :=
  exploreFrom next bound [] (fresh [] starts)

/-- `Reaches next a b`: some path of successors leads from `a` to `b`. -/
inductive Reaches (next : α → List α) (a : α) : α → Prop
  | refl : Reaches next a a
  | step {b c : α} : Reaches next a b → c ∈ next b → Reaches next a c

theorem subset_exploreFrom (next : α → List α) (bound : Nat) (done waiting : List α) {a : α}
    (h : a ∈ done ++ waiting) : a ∈ exploreFrom next bound done waiting := by
  induction bound generalizing done waiting with
  | zero => exact h
  | succ bound ih =>
      cases waiting with
      | nil => simpa [exploreFrom] using h
      | cons b rest =>
          refine ih _ _ ?_
          simp only [List.mem_append, List.mem_cons, List.not_mem_nil, or_false] at h ⊢
          grind

theorem mem_explore_of_mem {next : α → List α} {bound : Nat} {starts : List α} {a : α}
    (h : a ∈ starts) : a ∈ explore next bound starts :=
  subset_exploreFrom next bound [] _ (by simp [mem_fresh, h])

theorem reaches_of_mem_exploreFrom {next : α → List α} {bound : Nat} {done waiting starts : List α}
    (hstart : ∀ b ∈ done ++ waiting, ∃ s ∈ starts, Reaches next s b) {a : α}
    (h : a ∈ exploreFrom next bound done waiting) : ∃ s ∈ starts, Reaches next s a := by
  induction bound generalizing done waiting with
  | zero => exact hstart a h
  | succ bound ih =>
      cases waiting with
      | nil => exact hstart a (by simpa [exploreFrom] using h)
      | cons b rest =>
          refine ih ?_ h
          intro c hc
          have hb : ∃ s ∈ starts, Reaches next s b := hstart b (by simp)
          simp only [List.mem_append, List.mem_cons, List.not_mem_nil, or_false, mem_fresh] at hc
          rcases hc with (hc | rfl) | hc | ⟨hc, -⟩
          · exact hstart c (by simp [hc])
          · exact hb
          · exact hstart c (by simp [hc])
          · obtain ⟨s, hs, hsb⟩ := hb
            exact ⟨s, hs, hsb.step hc⟩

/-- Whatever an exploration finds is reachable. -/
theorem reaches_of_mem_explore {next : α → List α} {bound : Nat} {starts : List α} {a : α}
    (h : a ∈ explore next bound starts) : ∃ s ∈ starts, Reaches next s a :=
  reaches_of_mem_exploreFrom (by
    intro b hb
    simp only [List.nil_append, mem_fresh] at hb
    exact ⟨b, hb.1, .refl⟩) h

end LanguageTheory
