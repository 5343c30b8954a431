import LanguageTheory.Automaton.Basic
import LanguageTheory.Proofs.Finite.Exploration
import Mathlib.Computability.MyhillNerode

/-! What a finite automaton accepts: the words that the labels along some path from the initial state to
a final state spell. -/

namespace LanguageTheory.Automaton

variable {a : Automaton} {s t f : StateId} {u w : Word}

/-- Some path from one state to another has labels that spell the word. -/
inductive Path (a : Automaton) : StateId → Word → StateId → Prop
  | nil (s : StateId) : Path a s [] s
  | cons {t : Transition} {read w : Word} {f : StateId} : t ∈ a.transitions → t.label = .finite read →
      Path a t.target w f → Path a t.source (read ++ w) f

/-- The words accepted from a state. -/
def languageFrom (a : Automaton) (s : StateId) : Language Char := fun w => ∃ f ∈ a.finals, a.Path s w f

/-- The words accepted from the initial state. -/
def language (a : Automaton) : Language Char := fun w => ∃ s, a.initial = some s ∧ w ∈ a.languageFrom s

/-- The words that begin what some path from the initial state spells. -/
def readable (a : Automaton) : Set Word := fun w => ∃ s v f, a.initial = some s ∧ a.Path s (w ++ v) f

/-- The states on paths from the initial state. -/
def Reachable (a : Automaton) (t : StateId) : Prop := ∃ s w, a.initial = some s ∧ a.Path s w t

theorem mem_languageFrom : w ∈ a.languageFrom s ↔ ∃ f ∈ a.finals, a.Path s w f := Iff.rfl

theorem mem_language (h : a.initial = some s) : w ∈ a.language ↔ w ∈ a.languageFrom s := by
  constructor
  · rintro ⟨s', hs', hw⟩
    obtain rfl := Option.some.inj (h.symm.trans hs')
    exact hw
  · intro hw
    exact ⟨s, h, hw⟩

theorem mem_readable (h : a.initial = some s) : w ∈ a.readable ↔ ∃ v f, a.Path s (w ++ v) f := by
  constructor
  · rintro ⟨s', v, f, hs', hpath⟩
    obtain rfl := Option.some.inj (h.symm.trans hs')
    exact ⟨v, f, hpath⟩
  · rintro ⟨v, f, hpath⟩
    exact ⟨s, v, f, h, hpath⟩

theorem Path.trans (hst : a.Path s u t) (htf : a.Path t w f) : a.Path s (u ++ w) f := by
  induction hst with
  | nil => exact htf
  | cons hmem hlabel _ ih =>
      rw [List.append_assoc]
      exact .cons hmem hlabel (ih htf)

theorem WellFormed.mem_ids_of_path (ha : a.WellFormed) (h : a.Path s w t) (hs : s ∈ a.ids) : t ∈ a.ids := by
  induction h with
  | nil => exact hs
  | cons hmem _ _ ih => exact ih (ha.endpoints_mem _ hmem).2

/-- The transitions of a finite automaton carry words. -/
theorem WellFormed.exists_label_eq (ha : a.WellFormed) (hkind : a.kind = .finite) {t : Transition}
    (ht : t ∈ a.transitions) : ∃ read, t.label = .finite read := by
  have hlabel : t.label.kind = .finite := (ha.kind_eq t ht).trans hkind
  cases ht : t.label with
  | finite read => exact ⟨read, rfl⟩
  | pushdown read pop push =>
      rw [ht] at hlabel
      cases hlabel
  | turing read write direction =>
      rw [ht] at hlabel
      cases hlabel

/-! ### Places of states -/

/-- The place of a state in the order of creation. -/
theorem WellFormed.idxOf?_eq_some_iff (ha : a.WellFormed) {i : Nat} :
    a.ids.idxOf? s = some i ↔ a.ids[i]? = some s :=
  idxOf?_eq_some_iff_getElem? ha.nodup_ids

theorem WellFormed.exists_idxOf? (ha : a.WellFormed) (hs : s ∈ a.ids) : ∃ i, a.ids.idxOf? s = some i := by
  obtain ⟨i, hi⟩ := List.mem_iff_getElem?.1 hs
  exact ⟨i, ha.idxOf?_eq_some_iff.2 hi⟩

theorem lt_size_of_getElem? {i : Nat} (h : a.ids[i]? = some s) : i < a.size := by
  have hlt := (List.getElem?_eq_some_iff.1 h).1
  simpa [ids, size] using hlt

theorem lt_size_of_idxOf? {i : Nat} (h : a.ids.idxOf? s = some i) : i < a.size := by
  obtain ⟨hi, _⟩ := List.idxOf?_eq_some_iff.1 h
  rwa [ids, List.length_map] at hi

end LanguageTheory.Automaton
