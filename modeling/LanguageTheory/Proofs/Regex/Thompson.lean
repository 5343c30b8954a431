import LanguageTheory.Proofs.Machine.Acceptance
import LanguageTheory.Proofs.Regex.Fragment
import LanguageTheory.Proofs.Regex.Language

/-! The automaton for an expression accepts the words that the expression stands for. A word for the
expression leads through its fragment. In the other direction, what leads from a state of the fragment to
its exit is a word for what the expression has left there, which holds at the exit and is kept by every
move backwards. -/

namespace LanguageTheory.Regex

open Automaton (Path)

variable {a : Automaton} {r s : Regex} {first n p q : Nat} {t : Transition} {read w : Word}

/-! ### From words to paths -/

theorem path_of_move (h : move p q w ∈ a.transitions) : a.Path p w q := by
  have hpath := Path.cons h rfl (.nil q)
  rwa [List.append_nil] at hpath

/-- From the exit of the repeated fragment, any number of words leads on to the exit of the repetition. -/
theorem path_of_matches_star (hback : move p q [] ∈ a.transitions) (hout : move p n [] ∈ a.transitions)
    (hinner : ∀ u, Matches r u → a.Path q u p) (h : Matches (star r) w) : a.Path p w n := by
  induction h using Matches.star_induction with
  | stop => exact path_of_move hout
  | more hu _ ih => exact (path_of_move hback).trans ((hinner _ hu).trans ih)

/-- A word for the expression leads through its fragment, whatever is around it. -/
theorem path_of_matches (hmoves : ∀ t ∈ (r.fragment first).moves, t ∈ a.transitions) (h : Matches r w) :
    a.Path (r.fragment first).entry w (r.fragment first).exit := by
  induction r generalizing first w with
  | empty => cases h
  | epsilon =>
      cases h
      exact path_of_move (hmoves _ (by simp [fragment]))
  | symbol c =>
      cases h
      exact path_of_move (hmoves _ (by simp [fragment]))
  | concat r s ihr ihs =>
      simp only [fragment, List.forall_mem_append, List.forall_mem_singleton] at hmoves
      obtain ⟨⟨hr, hs⟩, hjoin⟩ := hmoves
      cases h with
      | concat hu hv => exact (ihr hr hu).trans ((path_of_move hjoin).trans (ihs hs hv))
  | union r s ihr ihs =>
      simp only [fragment, List.forall_mem_append, List.forall_mem_cons] at hmoves
      obtain ⟨⟨⟨hr, hin, hout, _⟩, hs⟩, hin', hout', _⟩ := hmoves
      cases h with
      | left h =>
          have hpath := (path_of_move hin).trans ((ihr hr h).trans (path_of_move hout))
          rwa [List.append_nil] at hpath
      | right h =>
          have hpath := (path_of_move hin').trans ((ihs hs h).trans (path_of_move hout'))
          rwa [List.append_nil] at hpath
  | star r ih =>
      simp only [fragment, List.forall_mem_append, List.forall_mem_cons] at hmoves
      obtain ⟨hr, hin, hback, hout, hskip, _⟩ := hmoves
      cases h with
      | stop => exact path_of_move hskip
      | more hu hv =>
          have hrest := path_of_matches_star hback hout (fun u hu => ih hr hu) hv
          exact (path_of_move hin).trans ((ih hr hu).trans hrest)

/-! ### From paths to words -/

/-- The words for what the expression has left at a state of its fragment. -/
def Ahead : Regex → Nat → Nat → Word → Prop
  | empty, first, q, w => q = first + 1 ∧ w = []
  | epsilon, first, q, w => Between first (first + 2) q ∧ w = []
  | symbol c, first, q, w => (q = first ∧ w = [c]) ∨ q = first + 1 ∧ w = []
  | concat r s, first, q, w => (∃ u v, w = u ++ v ∧ Ahead r first q u ∧ Matches s v) ∨
      Ahead s (r.fragment first).next q w
  | union r s, first, q, w => (q = first ∧ Matches (union r s) w) ∨ Ahead r (first + 2) q w ∨
      Ahead s (r.fragment (first + 2)).next q w ∨ q = first + 1 ∧ w = []
  | star r, first, q, w => (q = first ∧ Matches (star r) w) ∨
      (∃ u v, w = u ++ v ∧ Ahead r (first + 2) q u ∧ Matches (star r) v) ∨ q = first + 1 ∧ w = []

theorem Ahead.between (h : Ahead r first q w) : Between first (r.fragment first).next q := by
  have hsize := fun first r => (bounded_fragment first r).two_le
  induction r generalizing first w with
  | empty => simp_all [Ahead, Between, fragment]
  | epsilon => exact h.1
  | symbol c => rcases h with ⟨rfl, _⟩ | ⟨rfl, _⟩ <;> simp [Between, fragment]
  | concat r s ihr ihs =>
      have hr := hsize first r
      have hs := hsize (r.fragment first).next s
      rcases h with ⟨u, v, _, hu, _⟩ | hv
      · exact (ihr hu).mono (Nat.le_refl _) (by simp only [fragment]; omega)
      · exact (ihs hv).mono (by omega) (Nat.le_refl _)
  | union r s ihr ihs =>
      have hr := hsize (first + 2) r
      have hs := hsize (r.fragment (first + 2)).next s
      rcases h with ⟨rfl, _⟩ | hu | hv | ⟨rfl, _⟩
      · exact ⟨Nat.le_refl _, by simp only [fragment]; omega⟩
      · exact (ihr hu).mono (by omega) (by simp only [fragment]; omega)
      · exact (ihs hv).mono (by omega) (Nat.le_refl _)
      · exact ⟨by omega, by simp only [fragment]; omega⟩
  | star r ih =>
      have hr := hsize (first + 2) r
      rcases h with ⟨rfl, _⟩ | ⟨u, v, _, hu, _⟩ | ⟨rfl, _⟩
      · exact ⟨Nat.le_refl _, by simp only [fragment]; omega⟩
      · exact (ih hu).mono (by omega) (Nat.le_refl _)
      · exact ⟨by omega, by simp only [fragment]; omega⟩

theorem not_ahead (hq : ¬Between first (r.fragment first).next q) : ¬Ahead r first q w := fun h => hq h.between

theorem ahead_concat_left (hq : Between first (r.fragment first).next q) :
    Ahead (concat r s) first q w ↔ ∃ u v, w = u ++ v ∧ Ahead r first q u ∧ Matches s v := by
  have hs : ¬Ahead s (r.fragment first).next q w := not_ahead (by simp only [Between] at *; omega)
  rw [Ahead, or_iff_left hs]

theorem ahead_concat_right (hq : Between (r.fragment first).next (s.fragment (r.fragment first).next).next q) :
    Ahead (concat r s) first q w ↔ Ahead s (r.fragment first).next q w := by
  have hr : ∀ u, ¬Ahead r first q u := fun u => not_ahead (by simp only [Between] at *; omega)
  rw [Ahead, or_iff_right]
  rintro ⟨u, _, _, hu, _⟩
  exact hr u hu

theorem ahead_union_first : Ahead (union r s) first first w ↔ Matches (union r s) w := by
  have hsize := (bounded_fragment (first + 2) r).two_le
  have hr : ¬Ahead r (first + 2) first w := not_ahead (by simp only [Between]; omega)
  have hs : ¬Ahead s (r.fragment (first + 2)).next first w := not_ahead (by simp only [Between]; omega)
  simp [Ahead, hr, hs]

theorem ahead_union_last : Ahead (union r s) first (first + 1) w ↔ w = [] := by
  have hsize := (bounded_fragment (first + 2) r).two_le
  have hr : ¬Ahead r (first + 2) (first + 1) w := not_ahead (by simp only [Between]; omega)
  have hs : ¬Ahead s (r.fragment (first + 2)).next (first + 1) w := not_ahead (by simp only [Between]; omega)
  simp [Ahead, hr, hs]

theorem ahead_union_left (hq : Between (first + 2) (r.fragment (first + 2)).next q) :
    Ahead (union r s) first q w ↔ Ahead r (first + 2) q w := by
  have hs : ¬Ahead s (r.fragment (first + 2)).next q w := not_ahead (by simp only [Between] at *; omega)
  have hends : q ≠ first ∧ q ≠ first + 1 := by simp only [Between] at hq; omega
  simp [Ahead, hs, hends]

theorem ahead_union_right
    (hq : Between (r.fragment (first + 2)).next (s.fragment (r.fragment (first + 2)).next).next q) :
    Ahead (union r s) first q w ↔ Ahead s (r.fragment (first + 2)).next q w := by
  have hsize := (bounded_fragment (first + 2) r).two_le
  have hr : ¬Ahead r (first + 2) q w := not_ahead (by simp only [Between] at *; omega)
  have hends : q ≠ first ∧ q ≠ first + 1 := by simp only [Between] at hq; omega
  simp [Ahead, hr, hends]

theorem ahead_star_first : Ahead (star r) first first w ↔ Matches (star r) w := by
  have hr : ∀ u, ¬Ahead r (first + 2) first u := fun u => not_ahead (by simp only [Between]; omega)
  simp [Ahead, hr]

theorem ahead_star_last : Ahead (star r) first (first + 1) w ↔ w = [] := by
  have hr : ∀ u, ¬Ahead r (first + 2) (first + 1) u := fun u => not_ahead (by simp only [Between]; omega)
  simp [Ahead, hr]

theorem ahead_star_inner (hq : Between (first + 2) (r.fragment (first + 2)).next q) :
    Ahead (star r) first q w ↔ ∃ u v, w = u ++ v ∧ Ahead r (first + 2) q u ∧ Matches (star r) v := by
  have hends : q ≠ first ∧ q ≠ first + 1 := by simp only [Between] at hq; omega
  simp [Ahead, hends]

theorem ahead_exit (r : Regex) (first : Nat) : Ahead r first (r.fragment first).exit [] := by
  induction r generalizing first with
  | empty => exact ⟨rfl, rfl⟩
  | epsilon => exact ⟨by simp [Between, fragment], rfl⟩
  | symbol c => exact .inr ⟨rfl, rfl⟩
  | concat r s ihr ihs => exact .inr (ihs _)
  | union r s ihr ihs => exact ahead_union_last.2 rfl
  | star r ih => exact ahead_star_last.2 rfl

theorem Ahead.matches_of_entry (h : Ahead r first (r.fragment first).entry w) : Matches r w := by
  induction r generalizing first w with
  | empty => simp [Ahead, fragment] at h
  | epsilon =>
      rw [h.2]
      exact .epsilon
  | symbol c =>
      have hw : w = [c] := by simpa [Ahead, fragment] using h
      rw [hw]
      exact .symbol c
  | concat r s ihr ihs =>
      obtain ⟨u, v, rfl, hu, hv⟩ := (ahead_concat_left (bounded_fragment first r).entry_mem).1 h
      exact .concat (ihr hu) hv
  | union r s ihr ihs => exact ahead_union_first.1 h
  | star r ih => exact ahead_star_first.1 h

/-- A move goes back from what is left at its target to what is left at its source. -/
theorem Ahead.of_move (h : Ahead r first t.target w) (ht : t ∈ (r.fragment first).moves)
    (hlabel : t.label = .finite read) : Ahead r first t.source (read ++ w) := by
  induction r generalizing first w with
  | empty => cases ht
  | epsilon =>
      obtain rfl := List.mem_singleton.1 ht
      cases hlabel
      exact ⟨by simp [move, Between], h.2⟩
  | symbol c =>
      obtain rfl := List.mem_singleton.1 ht
      cases hlabel
      have hw : w = [] := by simpa [Ahead, move] using h
      exact .inl ⟨rfl, by rw [hw, List.append_nil]⟩
  | concat r s ihr ihs =>
      have hf := bounded_fragment first r
      have hg := bounded_fragment (r.fragment first).next s
      simp only [fragment, List.mem_append, List.mem_singleton] at ht
      rcases ht with (ht | ht) | rfl
      · obtain ⟨hsource, htarget⟩ := hf.within t ht
        obtain ⟨u, v, rfl, hu, hv⟩ := (ahead_concat_left htarget).1 h
        exact (ahead_concat_left hsource).2 ⟨read ++ u, v, (List.append_assoc read u v).symm, ihr hu ht, hv⟩
      · obtain ⟨hsource, htarget⟩ := hg.within t ht
        exact (ahead_concat_right hsource).2 (ihs ((ahead_concat_right htarget).1 h) ht)
      · cases hlabel
        have hv := ((ahead_concat_right hg.entry_mem).1 h).matches_of_entry
        exact (ahead_concat_left hf.exit_mem).2 ⟨[], w, rfl, ahead_exit r first, hv⟩
  | union r s ihr ihs =>
      have hf := bounded_fragment (first + 2) r
      have hg := bounded_fragment (r.fragment (first + 2)).next s
      simp only [fragment, List.mem_append, List.mem_cons, List.not_mem_nil, or_false] at ht
      rcases ht with ((ht | rfl | rfl) | ht) | rfl | rfl
      · obtain ⟨hsource, htarget⟩ := hf.within t ht
        exact (ahead_union_left hsource).2 (ihr ((ahead_union_left htarget).1 h) ht)
      · cases hlabel
        exact ahead_union_first.2 (.left ((ahead_union_left hf.entry_mem).1 h).matches_of_entry)
      · cases hlabel
        obtain rfl := ahead_union_last.1 h
        exact (ahead_union_left hf.exit_mem).2 (ahead_exit r _)
      · obtain ⟨hsource, htarget⟩ := hg.within t ht
        exact (ahead_union_right hsource).2 (ihs ((ahead_union_right htarget).1 h) ht)
      · cases hlabel
        exact ahead_union_first.2 (.right ((ahead_union_right hg.entry_mem).1 h).matches_of_entry)
      · cases hlabel
        obtain rfl := ahead_union_last.1 h
        exact (ahead_union_right hg.exit_mem).2 (ahead_exit s _)
  | star r ih =>
      have hf := bounded_fragment (first + 2) r
      simp only [fragment, List.mem_append, List.mem_cons, List.not_mem_nil, or_false] at ht
      rcases ht with ht | rfl | rfl | rfl | rfl
      · obtain ⟨hsource, htarget⟩ := hf.within t ht
        obtain ⟨u, v, rfl, hu, hv⟩ := (ahead_star_inner htarget).1 h
        exact (ahead_star_inner hsource).2 ⟨read ++ u, v, (List.append_assoc read u v).symm, ih hu ht, hv⟩
      · cases hlabel
        obtain ⟨u, v, rfl, hu, hv⟩ := (ahead_star_inner hf.entry_mem).1 h
        have hmore : Matches (star r) (u ++ v) := .more hu.matches_of_entry hv
        exact ahead_star_first.2 hmore
      · cases hlabel
        obtain ⟨u, v, rfl, hu, hv⟩ := (ahead_star_inner hf.entry_mem).1 h
        exact (ahead_star_inner hf.exit_mem).2
          ⟨[], u ++ v, rfl, ahead_exit r _, .more hu.matches_of_entry hv⟩
      · cases hlabel
        obtain rfl := ahead_star_last.1 h
        exact (ahead_star_inner hf.exit_mem).2 ⟨[], [], rfl, ahead_exit r _, .stop⟩
      · cases hlabel
        obtain rfl := ahead_star_last.1 h
        exact ahead_star_first.2 .stop

/-- A path within the fragment to its exit spells a word for what is left. -/
theorem ahead_of_path (hmoves : a.transitions = (r.fragment first).moves) (h : a.Path q w p)
    (hp : p = (r.fragment first).exit) : Ahead r first q w := by
  induction h with
  | nil =>
      subst hp
      exact ahead_exit r first
  | cons ht hlabel _ ih => exact (ih hp).of_move (hmoves ▸ ht) hlabel

/-! ### The automaton -/

theorem language_toAutomaton (r : Regex) : w ∈ r.toAutomaton.language ↔ Matches r w := by
  have hinitial : r.toAutomaton.initial = some (r.fragment 0).entry := rfl
  rw [Automaton.mem_language hinitial, Automaton.mem_languageFrom]
  constructor
  · rintro ⟨f, hf, hpath⟩
    exact (ahead_of_path rfl hpath (List.mem_singleton.1 hf)).matches_of_entry
  · intro h
    exact ⟨_, List.mem_singleton_self _, path_of_matches (fun _ => id) h⟩

/-- The automaton for an expression is built without a refusal, whatever the expression is. It has an
initial and one final state, and the machine that runs it accepts the words that the expression stands for. -/
theorem toAutomaton_correct (r : Regex) :
    r.build = .ok r.toAutomaton ∧
      (∃ entry exit, r.toAutomaton.initial = some entry ∧ r.toAutomaton.finals.toList = [exit]) ∧
      ∀ config, Simulator.of r.toAutomaton config = .ok ⟨r.toAutomaton, config⟩ ∧
        ∀ w, Simulator.Accepts ⟨r.toAutomaton, config⟩ w ↔ Matches r w := by
  obtain ⟨hbuild, hwellFormed⟩ := build_eq r
  refine ⟨hbuild, ⟨_, _, rfl, rfl⟩, fun config => ⟨Simulator.of_eq_ok hwellFormed rfl config, fun w => ?_⟩⟩
  have hkind : r.toAutomaton.kind = .finite :=
    (Automaton.ids_ofLabels .finite (List.replicate (r.fragment 0).next none)).2.2.1
  rw [Simulator.accepts_iff_mem_language hkind, language_toAutomaton]

end LanguageTheory.Regex
