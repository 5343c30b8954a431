import LanguageTheory.Proofs.Machine.Arena
import Mathlib.Data.List.Range

/-! The ways that a machine can take, generation by generation, in the order in which a search meets
them. A search that skips repeats keeps the ways to configurations that no way before them leads to;
what goes on from the others has been met before. -/

namespace LanguageTheory

/-- A way of the machine: where it leads, and the configurations passed on it. -/
structure Way where
  before : List Configuration
  last : Configuration

namespace Way

variable {m : Simulator} {known known' : List Configuration} {ws ws' : List Way} {w : Way} {c : Configuration}
  {dedup : Bool}

def toList (w : Way) : List Configuration := w.before ++ [w.last]

/-- The ways that go one move further. -/
def next (m : Simulator) (w : Way) : List Way := (m.step w.last).map (Way.mk w.toList)

/-! ### First ways -/

/-- The ways to configurations that are not known yet, one to each, in order of first occurrence. -/
def firsts (known : List Configuration) : List Way → List Way
  | [] => []
  | w :: ws => if w.last ∈ known then firsts known ws else w :: firsts (w.last :: known) ws

theorem map_last_firsts (known : List Configuration) (ws : List Way) :
    (firsts known ws).map (·.last) = fresh known (ws.map (·.last)) := by
  induction ws generalizing known with
  | nil => rfl
  | cons w ws ih =>
      rw [firsts, List.map_cons, fresh]
      split
      · exact ih known
      · rw [List.map_cons, ih]

theorem firsts_congr (h : ∀ c, c ∈ known ↔ c ∈ known') (ws : List Way) : firsts known ws = firsts known' ws := by
  induction ws generalizing known known' with
  | nil => rfl
  | cons w ws ih =>
      have hcons : ∀ c, c ∈ w.last :: known ↔ c ∈ w.last :: known' := by
        intro c
        rw [List.mem_cons, List.mem_cons, h c]
      rw [firsts, firsts, ih h, ih hcons]
      simp only [h w.last]

theorem firsts_append (known : List Configuration) (ws ws' : List Way) :
    firsts known (ws ++ ws') = firsts known ws ++ firsts (known ++ ws.map (·.last)) ws' := by
  induction ws generalizing known with
  | nil => rw [List.nil_append, firsts, List.nil_append, List.map_nil, List.append_nil]
  | cons w ws ih =>
      rw [List.cons_append, firsts, firsts]
      have hknown : ∀ c, c ∈ known ++ (w :: ws).map (·.last) ↔ c ∈ w.last :: (known ++ ws.map (·.last)) := by
        intro c
        simp only [List.mem_append, List.map_cons, List.mem_cons]
        exact or_left_comm
      rw [firsts_congr hknown]
      split
      next hw =>
        rw [ih]
        congr 1
        apply firsts_congr
        intro c
        rw [List.mem_cons, or_iff_right_of_imp]
        rintro rfl
        exact List.mem_append_left _ hw
      next => rw [ih, List.cons_append, List.cons_append]

theorem firsts_eq_nil_iff : firsts known ws = [] ↔ ∀ w ∈ ws, w.last ∈ known := by
  induction ws with
  | nil => simp [firsts]
  | cons w ws ih =>
      rw [firsts, List.forall_mem_cons]
      split
      next hw => rw [ih, and_iff_right hw]
      next hw => exact iff_of_false (List.cons_ne_nil _ _) fun h => hw h.1

theorem firsts_sublist (known : List Configuration) (ws : List Way) : (firsts known ws).Sublist ws := by
  induction ws generalizing known with
  | nil => exact .refl _
  | cons w ws ih =>
      rw [firsts]
      split
      · exact (ih known).cons w
      · exact (ih _).cons_cons w

/-- The first way that is kept comes after ways that are not. -/
theorem exists_eq_append_of_firsts {rest : List Way} (h : firsts known ws = w :: rest) :
    ∃ skipped after, ws = skipped ++ w :: after ∧ (∀ u ∈ skipped, u.last ∈ known) ∧ w.last ∉ known := by
  induction ws with
  | nil => cases h
  | cons v ws ih =>
      rw [firsts] at h
      split at h
      next hv =>
        obtain ⟨skipped, after, rfl, hskipped, hw⟩ := ih h
        exact ⟨v :: skipped, after, rfl, List.forall_mem_cons.2 ⟨hv, hskipped⟩, hw⟩
      next hv =>
        obtain ⟨rfl, _⟩ := List.cons.inj h
        exact ⟨[], ws, rfl, fun u hu => (List.not_mem_nil hu).elim, hv⟩

theorem firsts_map (known : List Configuration) (before cs : List Configuration) :
    firsts known (cs.map (Way.mk before)) = (fresh known cs).map (Way.mk before) := by
  induction cs generalizing known with
  | nil => rfl
  | cons c cs ih =>
      rw [List.map_cons, firsts, fresh]
      split
      · exact ih known
      · rw [List.map_cons, ih]

/-- Leaving out ways to configurations that fail a test keeps the first way to one that passes. -/
theorem find?_firsts {p : Configuration → Bool} (h : ∀ c ∈ known, p c = false) (ws : List Way) :
    (firsts known ws).find? (fun w => p w.last) = ws.find? (fun w => p w.last) := by
  induction ws generalizing known with
  | nil => rfl
  | cons w ws ih =>
      rw [firsts]
      split
      next hw => rw [ih h, List.find?_cons, h _ hw]
      next =>
        cases hp : p w.last with
        | true => rw [List.find?_cons, List.find?_cons, hp]
        | false =>
            rw [List.find?_cons, List.find?_cons, hp]
            exact ih (List.forall_mem_cons.2 ⟨hp, h⟩)

/-! ### The ways that a search keeps -/

/-- All ways, or the first ones if repeats are skipped. -/
def kept (dedup : Bool) (known : List Configuration) (ws : List Way) : List Way :=
  if dedup then firsts known ws else ws

theorem kept_append (dedup : Bool) (known : List Configuration) (ws ws' : List Way) :
    kept dedup known (ws ++ ws') = kept dedup known ws ++ kept dedup (known ++ ws.map (·.last)) ws' := by
  cases dedup with
  | true => exact firsts_append known ws ws'
  | false => rfl

/-- A way is left out if repeats are skipped and its end is known. -/
def Skipped (dedup : Bool) (known : List Configuration) (w : Way) : Prop := dedup = true ∧ w.last ∈ known

/-- The ends of ways that are skipped add nothing to what is known. -/
theorem Skipped.of_append {skipped : List Way} (h : Skipped dedup ((ws ++ skipped).map (·.last)) w)
    (hskipped : ∀ u ∈ skipped, Skipped dedup (ws.map (·.last)) u) : Skipped dedup (ws.map (·.last)) w := by
  obtain ⟨hdedup, hw⟩ := h
  refine ⟨hdedup, ?_⟩
  rw [List.map_append, List.mem_append] at hw
  rcases hw with hw | hw
  · exact hw
  · obtain ⟨u, hu, hlast⟩ := List.mem_map.1 hw
    exact hlast ▸ (hskipped u hu).2

theorem kept_eq_nil_iff : kept dedup known ws = [] ↔ ∀ w ∈ ws, Skipped dedup known w := by
  cases dedup with
  | true =>
      apply firsts_eq_nil_iff.trans
      exact forall₂_congr fun w _ => (and_iff_right rfl).symm
  | false =>
      rw [List.eq_nil_iff_forall_not_mem]
      exact forall₂_congr fun w _ => iff_of_false id fun h => Bool.false_ne_true h.1

theorem exists_eq_append_of_kept {rest : List Way} (h : kept dedup known ws = w :: rest) :
    ∃ skipped after, ws = skipped ++ w :: after ∧ (∀ u ∈ skipped, Skipped dedup known u) ∧
      ¬Skipped dedup known w := by
  cases dedup with
  | true =>
      obtain ⟨skipped, after, heq, hskipped, hw⟩ := exists_eq_append_of_firsts h
      exact ⟨skipped, after, heq, fun u hu => ⟨rfl, hskipped u hu⟩, fun hs => hw hs.2⟩
  | false => exact ⟨[], rest, h, fun u hu => (List.not_mem_nil hu).elim, fun hs => Bool.false_ne_true hs.1⟩

theorem mem_map_last_kept : c ∈ (kept dedup [] ws).map (·.last) ↔ c ∈ ws.map (·.last) := by
  cases dedup with
  | true =>
      show c ∈ (firsts [] ws).map (·.last) ↔ _
      rw [map_last_firsts, mem_fresh]
      exact and_iff_left List.not_mem_nil
  | false => rfl

theorem kept_sublist (dedup : Bool) (known : List Configuration) (ws : List Way) :
    (kept dedup known ws).Sublist ws := by
  cases dedup with
  | false => exact .refl _
  | true => exact firsts_sublist known ws

/-- Ways that are skipped may be left out at the end. -/
theorem kept_append_skipped {skipped : List Way} (h : ∀ u ∈ skipped, Skipped dedup (ws.map (·.last)) u) :
    kept dedup [] (ws ++ skipped) = kept dedup [] ws := by
  rw [kept_append, List.nil_append, kept_eq_nil_iff.2 h, List.append_nil]

theorem kept_append_singleton (h : ¬Skipped dedup (ws.map (·.last)) w) :
    kept dedup [] (ws ++ [w]) = kept dedup [] ws ++ [w] := by
  rw [kept_append, List.nil_append]
  congr 1
  cases dedup with
  | false => rfl
  | true =>
      have hw : w.last ∉ ws.map (·.last) := fun hw => h ⟨rfl, hw⟩
      show firsts _ [w] = _
      rw [firsts, if_neg hw, firsts]

end Way

/-! ### Generations of ways -/

namespace Simulator

variable {m : Simulator} {input : Word} {k j : Nat} {w : Way} {c : Configuration} {past skipped : List Way}
  {dedup : Bool}

/-- The ways of `k` moves, in the order in which a search meets them. -/
def ways (m : Simulator) (input : Word) : Nat → List Way
  | 0 => (m.initialConfigurations input).map (Way.mk [])
  | k + 1 => (m.ways input k).flatMap (Way.next m)

/-- The ways of fewer than `k` moves. -/
def waysBelow (m : Simulator) (input : Word) (k : Nat) : List Way := (List.range k).flatMap (m.ways input)

/-- The configurations `k` moves away from the initial ones, in order and with repeats. -/
def layer (m : Simulator) (input : Word) : Nat → List Configuration
  | 0 => m.initialConfigurations input
  | k + 1 => (m.layer input k).flatMap m.step

theorem waysBelow_succ (m : Simulator) (input : Word) (k : Nat) :
    m.waysBelow input (k + 1) = m.waysBelow input k ++ m.ways input k := by
  rw [waysBelow, List.range_succ, List.flatMap_append, List.flatMap_singleton]
  rfl

theorem mem_waysBelow : w ∈ m.waysBelow input k ↔ ∃ j < k, w ∈ m.ways input j := by
  simp only [waysBelow, List.mem_flatMap, List.mem_range]

theorem map_last_ways (m : Simulator) (input : Word) (k : Nat) :
    (m.ways input k).map (·.last) = m.layer input k := by
  induction k with
  | zero =>
      rw [ways, layer, List.map_map]
      exact List.map_id _
  | succ k ih =>
      rw [ways, layer, List.map_flatMap, ← ih, List.flatMap_map]
      congr 1
      funext w
      rw [Way.next, List.map_map]
      exact List.map_id _

theorem map_last_waysBelow (m : Simulator) (input : Word) (k : Nat) :
    (m.waysBelow input k).map (·.last) = (List.range k).flatMap (m.layer input) := by
  rw [waysBelow, List.map_flatMap]
  congr 1
  funext j
  exact map_last_ways m input j

theorem reachedIn_of_mem_ways (h : w ∈ m.ways input k) : m.ReachedIn input k w.last := by
  induction k generalizing w with
  | zero =>
      obtain ⟨c, hc, rfl⟩ := List.mem_map.1 h
      exact .initial hc
  | succ k ih =>
      obtain ⟨v, hv, hw⟩ := List.mem_flatMap.1 h
      obtain ⟨c, hc, rfl⟩ := List.mem_map.1 hw
      exact (ih hv).step hc

theorem ways_eq_nil_of_le (h : m.ways input k = []) (hle : k ≤ j) : m.ways input j = [] := by
  induction j, hle using Nat.le_induction with
  | base => exact h
  | succ j _ ih => rw [ways, ih, List.flatMap_nil]

/-- The moves of a configuration that some way up to a point leads to are known when that point has been
expanded. -/
theorem mem_of_step (hw : w.last ∈ (m.waysBelow input k ++ past).map (·.last)) (hc : c ∈ m.step w.last) :
    c ∈ (m.waysBelow input (k + 1) ++ past.flatMap (Way.next m)).map (·.last) := by
  obtain ⟨v, hv, heq⟩ := List.mem_map.1 hw
  rw [← heq] at hc
  have hnext : ⟨v.toList, c⟩ ∈ Way.next m v := List.mem_map.2 ⟨c, hc, rfl⟩
  apply List.mem_map.2
  refine ⟨⟨v.toList, c⟩, ?_, rfl⟩
  rcases List.mem_append.1 hv with hv | hv
  · obtain ⟨j, hj, hv⟩ := mem_waysBelow.1 hv
    exact List.mem_append_left _ (mem_waysBelow.2 ⟨j + 1, Nat.succ_lt_succ hj, List.mem_flatMap.2 ⟨v, hv, hnext⟩⟩)
  · exact List.mem_append_right _ (List.mem_flatMap.2 ⟨v, hv, hnext⟩)

/-- What goes on from skipped ways is skipped. -/
theorem kept_next_skipped
    (h : ∀ u ∈ skipped, Way.Skipped dedup ((m.waysBelow input k ++ past).map (·.last)) u) :
    Way.kept dedup [] (m.waysBelow input (k + 1) ++ (past ++ skipped).flatMap (Way.next m)) =
      Way.kept dedup [] (m.waysBelow input (k + 1) ++ past.flatMap (Way.next m)) := by
  rw [List.flatMap_append, ← List.append_assoc]
  apply Way.kept_append_skipped
  intro v hv
  obtain ⟨u, hu, hv⟩ := List.mem_flatMap.1 hv
  obtain ⟨c, hc, rfl⟩ := List.mem_map.1 hv
  exact ⟨(h u hu).1, mem_of_step (h u hu).2 hc⟩

end Simulator

end LanguageTheory
