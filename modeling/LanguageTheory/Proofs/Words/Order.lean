import LanguageTheory.Words.Sampling
import Mathlib.Data.List.Perm.Subperm

/-! The first words with a property, shorter words before longer ones and words of one length in
lexicographic order. There is only one list of them. It is put together length by length: the words of one
length come behind all shorter ones, as many of them as are still asked for. -/

namespace LanguageTheory

/-- Shorter words come first, and words of one length in lexicographic order. -/
def Word.Precedes (v w : Word) : Prop := v.length < w.length ∨ v.length = w.length ∧ v < w

namespace Words

variable {requested length : Nat} {P : Word → Prop} {l l' : List Word} {found : Ascending Word} {u v w : Word}

/-- The first words that have a property, in order and no more than are asked for. Any other word that has it
comes after all of them, and then there are as many of them as are asked for. -/
structure First (requested : Nat) (P : Word → Prop) (l : List Word) : Prop where
  increasing : l.Pairwise Word.Precedes
  length_le : l.length ≤ requested
  sound : ∀ w ∈ l, P w
  first : ∀ w, P w → w ∉ l → l.length = requested ∧ ∀ v ∈ l, Word.Precedes v w

/-- Words that have a property, in order and no more than are asked for: up to some length all of them, of
this length some, and none that is longer. -/
structure Begins (requested : Nat) (P : Word → Prop) (l : List Word) : Prop where
  increasing : l.Pairwise Word.Precedes
  length_le : l.length ≤ requested
  sound : ∀ w ∈ l, P w
  exists_length : ∃ length, (∀ w, P w → w.length < length → w ∈ l) ∧ ∀ w ∈ l, w.length ≤ length

/-- All words below a length that have a property, in order. -/
structure Below (length : Nat) (P : Word → Prop) (l : List Word) : Prop where
  increasing : l.Pairwise Word.Precedes
  mem_iff : ∀ w, w ∈ l ↔ P w ∧ w.length < length

/-! ### The order -/

theorem not_precedes_self (w : Word) : ¬w.Precedes w := by
  rintro (hlt | ⟨_, hlt⟩)
  · exact Nat.lt_irrefl _ hlt
  · exact List.lt_irrefl w hlt

theorem precedes_asymm (h : u.Precedes v) : ¬v.Precedes u := by
  rcases h with hlt | ⟨heq, hlt⟩
  · rintro (hlt' | ⟨heq', _⟩) <;> omega
  · rintro (hlt' | ⟨_, hlt'⟩)
    · omega
    · exact List.lt_asymm hlt hlt'

theorem nodup_of_increasing (h : l.Pairwise Word.Precedes) : l.Nodup := by
  refine h.imp fun hprecedes heq => ?_
  subst heq
  exact not_precedes_self _ hprecedes

/-- Two lists of the first words hold the same words. -/
theorem First.subset (h : First requested P l) (h' : First requested P l') : l ⊆ l' := by
  intro w hw
  by_contra hnot
  obtain ⟨hlength, hprecedes⟩ := h'.first w (h.sound w hw) hnot
  -- The other list is full of words before `w`, which are all on this list.
  have hsubset : l' ⊆ l.erase w := by
    intro v hv
    have hne : v ≠ w := by
      rintro rfl
      exact hnot hv
    refine (List.mem_erase_of_ne hne).2 ?_
    by_contra hv'
    exact precedes_asymm (hprecedes v hv) ((h.first v (h'.sound v hv) hv').2 w hw)
  have hle := (List.subperm_of_subset (nodup_of_increasing h'.increasing) hsubset).length_le
  rw [List.length_erase_of_mem hw, hlength] at hle
  have hpos := List.length_pos_of_mem hw
  have hlength_le := h.length_le
  omega

theorem First.unique (h : First requested P l) (h' : First requested P l') : l = l' := by
  have hperm : l.Perm l' :=
    (List.perm_ext_iff_of_nodup (nodup_of_increasing h.increasing) (nodup_of_increasing h'.increasing)).2
      fun w => ⟨fun hw => h.subset h' hw, fun hw => h'.subset h hw⟩
  exact hperm.eq_of_pairwise (fun u v _ _ huv hvu => (precedes_asymm huv hvu).elim) h.increasing h'.increasing

theorem First.eq_iff (h : First requested P l) : First requested P l' ↔ l' = l :=
  ⟨fun h' => h'.unique h, fun heq => heq ▸ h⟩

/-- Nothing is listed if nothing is asked for or there is nothing. -/
theorem first_nil (h : requested = 0 ∨ ∀ w, ¬P w) : First requested P [] where
  increasing := .nil
  length_le := Nat.zero_le _
  sound w hw := (List.not_mem_nil hw).elim
  first w hw _ := ⟨(h.resolve_right fun hnone => hnone w hw).symm, fun v hv => (List.not_mem_nil hv).elim⟩

/-- What begins the words of a greatest length begins all words. -/
theorem Begins.of_length_le {longest : Nat} (h : Begins requested (fun w => P w ∧ w.length ≤ longest) l) :
    Begins requested P l := by
  refine ⟨h.increasing, h.length_le, fun w hw => (h.sound w hw).1, ?_⟩
  obtain ⟨length, hall, hle⟩ := h.exists_length
  refine ⟨min length (longest + 1), fun w hw hlt => hall w ⟨hw, by omega⟩ (by omega), fun w hw => ?_⟩
  have hlongest := (h.sound w hw).2
  have hlength := hle w hw
  omega

/-- An answer tells whether it is the list of the first words, up to a greatest length, or a beginning of it. -/
structure Exact (requested longest : Nat) (P : Word → Prop) (r : Words) : Prop where
  requested_eq : r.requested = requested
  complete : r.complete = true → ∀ l, First requested (fun w => P w ∧ w.length ≤ longest) l ↔ l = r.words
  incomplete : r.complete = false → Begins requested P r.words

theorem exact_none {longest : Nat} (h : requested = 0 ∨ ∀ w, P w → ¬w.length ≤ longest) :
    Exact requested longest P (.none requested) where
  requested_eq := rfl
  complete _ l := (first_nil (h.imp_right fun hlong w hw => hlong w hw.1 hw.2)).eq_iff
  incomplete h := Bool.noConfusion h

/-! ### Length by length -/

/-- The words of one length are put behind all shorter ones. -/
theorem Below.increasing_append (h : Below length P l) (hfound : ∀ w ∈ found, w.length = length) (k : Nat) :
    (l ++ found.toList.take k).Pairwise Word.Precedes := by
  have hmem : ∀ w ∈ found.toList.take k, w.length = length := fun w hw => hfound w (List.mem_of_mem_take hw)
  refine List.pairwise_append.2 ⟨h.increasing, ?_, fun v hv w hw => ?_⟩
  · refine (found.pairwise.take).imp_of_mem fun hv hw hlt => Or.inr ⟨?_, hlt⟩
    rw [hmem _ hv, hmem _ hw]
  · have hlt := ((h.mem_iff v).1 hv).2
    exact Or.inl (by rw [hmem w hw]; exact hlt)

theorem length_append_take_le (hroom : l.length ≤ requested) :
    (l ++ found.toList.take (requested - l.length)).length ≤ requested := by
  rw [List.length_append, List.length_take]
  omega

/-- Unless as many words are there as are asked for, none is left out. -/
theorem take_eq_of_length_lt (hlt : (l ++ found.toList.take (requested - l.length)).length < requested) :
    found.toList.take (requested - l.length) = found.toList := by
  rw [List.length_append, List.length_take] at hlt
  exact List.take_of_length_le (by omega)

theorem Below.mem_append (h : Below length P l) (hfound : ∀ w, w ∈ found ↔ P w ∧ w.length = length) :
    w ∈ l ++ found.toList ↔ P w ∧ w.length ≤ length := by
  rw [List.mem_append, h.mem_iff, ← Ascending.mem_def, hfound, ← and_or_left, Nat.le_iff_lt_or_eq]

theorem Below.begins (h : Below length P l) (hfound : ∀ w ∈ found, P w ∧ w.length = length)
    (hroom : l.length ≤ requested) : Begins requested P (l ++ found.toList.take (requested - l.length)) where
  increasing := h.increasing_append (fun w hw => (hfound w hw).2) _
  length_le := length_append_take_le hroom
  sound := by
    intro w hw
    rcases List.mem_append.1 hw with hw | hw
    · exact ((h.mem_iff w).1 hw).1
    · exact (hfound w (List.mem_of_mem_take hw)).1
  exists_length := by
    refine ⟨length, fun w hw hlt => List.mem_append_left _ ((h.mem_iff w).2 ⟨hw, hlt⟩), fun w hw => ?_⟩
    rcases List.mem_append.1 hw with hw | hw
    · exact Nat.le_of_lt ((h.mem_iff w).1 hw).2
    · exact Nat.le_of_eq (hfound w (List.mem_of_mem_take hw)).2

/-- With the words of one more length there may be enough, or there are no longer ones. -/
theorem Below.first (h : Below length P l) (hfound : ∀ w, w ∈ found ↔ P w ∧ w.length = length)
    (hroom : l.length ≤ requested)
    (hend : (∀ w, P w → w.length ≤ length) ∨
      requested ≤ (l ++ found.toList.take (requested - l.length)).length) :
    First requested P (l ++ found.toList.take (requested - l.length)) := by
  have hbegins := h.begins (fun w hw => (hfound w).1 hw) hroom
  refine ⟨hbegins.increasing, hbegins.length_le, hbegins.sound, fun w hw hnot => ?_⟩
  rw [List.mem_append, not_or, h.mem_iff] at hnot
  obtain ⟨hbelow, hnot⟩ := hnot
  have hge : length ≤ w.length := by
    by_contra hlt
    exact hbelow ⟨hw, Nat.lt_of_not_le hlt⟩
  constructor
  · by_contra hne
    have hlt := Nat.lt_of_le_of_ne hbegins.length_le hne
    rcases hend with hend | hend
    · rw [take_eq_of_length_lt hlt, ← Ascending.mem_def, hfound] at hnot
      exact hnot ⟨hw, Nat.le_antisymm (hend w hw) hge⟩
    · omega
  · intro v hv
    rcases List.mem_append.1 hv with hv | hv
    · exact Or.inl (Nat.lt_of_lt_of_le ((h.mem_iff v).1 hv).2 hge)
    · have hlength := ((hfound v).1 (List.mem_of_mem_take hv)).2
      rcases Nat.lt_or_eq_of_le hge with hlt | heq
      · exact Or.inl (hlength ▸ hlt)
      · refine Or.inr ⟨hlength.trans heq, ?_⟩
        -- `w` is one of the words that are left out.
        have hmem : w ∈ found.toList := (hfound w).2 ⟨hw, heq.symm⟩
        rw [← List.take_append_drop (requested - l.length) found.toList] at hmem
        have hdrop := (List.mem_append.1 hmem).resolve_left hnot
        have hpairwise := found.pairwise
        rw [← List.take_append_drop (requested - l.length) found.toList] at hpairwise
        exact (List.pairwise_append.1 hpairwise).2.2 v hv w hdrop

/-- Where no word has a length in between, the words below the next length are found. -/
theorem Below.next {following : Nat} (h : Below length P l) (hfound : ∀ w, w ∈ found ↔ P w ∧ w.length = length)
    (hlt : (l ++ found.toList.take (requested - l.length)).length < requested) (hfollowing : length < following)
    (hgap : ∀ w, P w → w.length ≤ length ∨ following ≤ w.length) :
    Below following P (l ++ found.toList.take (requested - l.length)) where
  increasing := h.increasing_append (fun w hw => ((hfound w).1 hw).2) _
  mem_iff := by
    intro w
    rw [take_eq_of_length_lt hlt, h.mem_append hfound]
    refine and_congr_right fun hw => ?_
    have hw := hgap w hw
    omega

end Words

end LanguageTheory
