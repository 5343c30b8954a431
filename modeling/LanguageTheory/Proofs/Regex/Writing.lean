import LanguageTheory.Proofs.Regex.Elimination
import LanguageTheory.Proofs.Regex.Reading

/-! What an expression is written as is read again, as an expression for the same words. The text of an
expression is of the level that its outermost construct asks for, and parentheses are written just where a
place asks for a tighter level. The tree of the text is another one, since sums and products are read from
the left, whatever side they were nested on. -/

namespace LanguageTheory.Regex

variable {r s t : Regex} {u v w : Word} {c : Char} {l : Level}

/-- The symbols of an expression in order, with repeats. -/
def symbols : Regex → List Char
  | symbol c => [c]
  | concat r s => r.symbols ++ s.symbols
  | union r s => r.symbols ++ s.symbols
  | star r => r.symbols
  | _ => []

/-- No symbol has a meaning of its own in the notation. -/
def Plain (r : Regex) : Prop := ∀ c ∈ r.symbols, isReserved c = false

instance (r : Regex) : Decidable r.Plain := List.decidableBAll (fun c => isReserved c = false) r.symbols

theorem plain_concat : (concat r s).Plain ↔ r.Plain ∧ s.Plain := List.forall_mem_append

theorem plain_union : (union r s).Plain ↔ r.Plain ∧ s.Plain := List.forall_mem_append

theorem plain_symbol : (symbol c).Plain ↔ isReserved c = false := List.forall_mem_singleton

/-! ### The level of a text -/

/-- The level that the text of an expression is of. -/
def level : Regex → Level
  | union .. => .sum
  | concat .. => .product
  | star _ => .repetition
  | _ => .atom

theorem Reads.toSum (h : Reads l u t) : Reads .sum u t := by
  cases l with
  | sum => exact h
  | product => exact .summand h
  | repetition => exact .summand (.factor h)
  | atom => exact .summand (.factor (.once h))

theorem Reads.toProduct (h : Reads r.level u t) : Reads .product (operand 1 r u) t := by
  cases r with
  | union => exact .factor (.once (.group h.toSum))
  | concat => exact h
  | star => exact .factor h
  | empty => exact .factor (.once h)
  | epsilon => exact .factor (.once h)
  | symbol => exact .factor (.once h)

theorem Reads.toAtom (h : Reads r.level u t) : Reads .atom (operand 3 r u) t := by
  cases r with
  | union => exact .group h.toSum
  | concat => exact .group h.toSum
  | star => exact .group h.toSum
  | empty => exact h
  | epsilon => exact h
  | symbol => exact h

theorem Reads.not_isBlank (h : Reads l u t) : ∀ c ∈ u, Text.isBlank c = false := by
  induction h with
  | summand _ ih => exact ih
  | union _ _ ihr ihs => exact List.forall_mem_append.2 ⟨ihr, List.forall_mem_cons.2 ⟨rfl, ihs⟩⟩
  | factor _ ih => exact ih
  | concat _ _ ihr ihs => exact List.forall_mem_append.2 ⟨ihr, ihs⟩
  | once _ ih => exact ih
  | star _ ih => exact List.forall_mem_append.2 ⟨ih, List.forall_mem_singleton.2 rfl⟩
  | group _ ih =>
      exact List.forall_mem_cons.2 ⟨rfl, List.forall_mem_append.2 ⟨ih, List.forall_mem_singleton.2 rfl⟩⟩
  | epsilon => exact List.forall_mem_singleton.2 rfl
  | empty => exact List.forall_mem_singleton.2 rfl
  | symbol hc =>
      simp only [isReserved, Bool.or_eq_false_iff] at hc
      exact List.forall_mem_singleton.2 hc.2

theorem Reads.dropBlanks_eq (h : Reads l u t) : Text.dropBlanks u = u := by
  rw [Text.dropBlanks, List.filter_eq_self]
  intro c hc
  rw [h.not_isBlank c hc, Bool.not_false]

/-! ### Nesting to the right -/

/-- Two products one after the other are a product, which is read from the left. -/
theorem exists_reads_append (hu : Reads .product u r) (hv : Reads .product v s) :
    ∃ t, Reads .product (u ++ v) t ∧ ∀ w, Matches t w ↔ Matches (concat r s) w := by
  generalize hlevel : Level.product = level at hv
  -- The factors of the second product go over to the first one, from the left.
  induction hv with
  | factor hv _ => exact ⟨r.concat _, .concat hu hv, fun w => Iff.rfl⟩
  | @concat v x s s' _ hx ih _ =>
      obtain ⟨t, ht, heq⟩ := ih rfl
      refine ⟨t.concat s', ?_, fun w => ?_⟩
      · rw [← List.append_assoc]
        exact .concat ht hx
      · rw [← matches_concat_concat]
        exact matches_concat_congr heq fun w => Iff.rfl
  | _ => cases hlevel

/-- Two sums with a mark between them are a sum, which is read from the left. -/
theorem exists_reads_alternatives (hu : Reads .sum u r) (hv : Reads .sum v s) :
    ∃ t, Reads .sum (u ++ '+' :: v) t ∧ ∀ w, Matches t w ↔ Matches (union r s) w := by
  generalize hlevel : Level.sum = level at hv
  induction hv with
  | summand hv _ => exact ⟨r.union _, .union hu hv, fun w => Iff.rfl⟩
  | @union v x s s' _ hx ih _ =>
      obtain ⟨t, ht, heq⟩ := ih rfl
      refine ⟨t.union s', ?_, fun w => ?_⟩
      · rw [← List.cons_append, ← List.append_assoc]
        exact .union ht hx
      · simp only [matches_union, heq, or_assoc]
  | _ => cases hlevel

/-- The text of an expression is of its level, and its tree stands for the same words. -/
theorem exists_reads_shown (h : r.Plain) : ∃ t, Reads r.level r.shown t ∧ ∀ w, Matches t w ↔ Matches r w := by
  induction r with
  | empty => exact ⟨_, .empty, fun w => Iff.rfl⟩
  | epsilon => exact ⟨_, .epsilon, fun w => Iff.rfl⟩
  | symbol c => exact ⟨_, .symbol (plain_symbol.1 h), fun w => Iff.rfl⟩
  | concat r s ihr ihs =>
      -- A product on the right has no parentheses either, so the tree of the text is another one.
      obtain ⟨hr, hs⟩ := plain_concat.1 h
      obtain ⟨r', hr', heqr⟩ := ihr hr
      obtain ⟨s', hs', heqs⟩ := ihs hs
      obtain ⟨t, ht, heq⟩ := exists_reads_append hr'.toProduct hs'.toProduct
      exact ⟨t, ht, fun w => (heq w).trans (matches_concat_congr heqr heqs)⟩
  | union r s ihr ihs =>
      obtain ⟨hr, hs⟩ := plain_union.1 h
      obtain ⟨r', hr', heqr⟩ := ihr hr
      obtain ⟨s', hs', heqs⟩ := ihs hs
      obtain ⟨t, ht, heq⟩ := exists_reads_alternatives hr'.toSum hs'.toSum
      exact ⟨t, ht, fun w => by rw [heq, matches_union, matches_union, heqr, heqs]⟩
  | star r ih =>
      obtain ⟨t, ht, heq⟩ := ih h
      exact ⟨t.star, .star (.once ht.toAtom), fun w => matches_star_congr heq⟩

/-! ### Expressions without reserved symbols -/

theorem Reads.plain (h : Reads l u t) : t.Plain := by
  induction h with
  | summand _ ih => exact ih
  | union _ _ ihr ihs => exact plain_union.2 ⟨ihr, ihs⟩
  | factor _ ih => exact ih
  | concat _ _ ihr ihs => exact plain_concat.2 ⟨ihr, ihs⟩
  | once _ ih => exact ih
  | star _ ih => exact ih
  | group _ ih => exact ih
  | epsilon => exact List.forall_mem_nil _
  | empty => exact List.forall_mem_nil _
  | symbol hc => exact plain_symbol.2 hc

theorem Plain.mkConcat (hr : r.Plain) (hs : s.Plain) : (mkConcat r s).Plain := by
  unfold Regex.mkConcat
  split
  · exact List.forall_mem_nil _
  · exact List.forall_mem_nil _
  · exact hs
  · exact hr
  · exact plain_concat.2 ⟨hr, hs⟩

theorem Plain.mkUnion (hr : r.Plain) (hs : s.Plain) : (mkUnion r s).Plain := by
  unfold Regex.mkUnion
  split
  · exact hs
  · exact hr
  · split
    · exact hr
    · exact plain_union.2 ⟨hr, hs⟩

theorem Plain.mkStar (hr : r.Plain) : (mkStar r).Plain := by
  unfold Regex.mkStar
  split
  · exact List.forall_mem_nil _
  · exact List.forall_mem_nil _
  · exact hr
  · exact hr

theorem Plain.simplified (h : t.Plain) : t.simplified.Plain := by
  induction t with
  | empty => exact h
  | epsilon => exact h
  | symbol c => exact h
  | concat r s ihr ihs => exact (ihr (plain_concat.1 h).1).mkConcat (ihs (plain_concat.1 h).2)
  | union r s ihr ihs => exact (ihr (plain_union.1 h).1).mkUnion (ihs (plain_union.1 h).2)
  | star r ih => exact (ih h).mkStar

theorem plain_of_parse {text : Word} (h : parse text = .ok r) : r.Plain := by
  obtain ⟨t, ht, rfl⟩ := parse_eq_ok.1 h
  exact ht.plain.simplified

theorem plain_foldl_mkConcat (hr : r.Plain) (hu : ∀ c ∈ u, isReserved c = false) :
    (u.foldl (fun r c => Regex.mkConcat r (symbol c)) r).Plain := by
  induction u generalizing r with
  | nil => exact hr
  | cons c u ih =>
      obtain ⟨hc, hu⟩ := List.forall_mem_cons.1 hu
      exact ih (hr.mkConcat (plain_symbol.2 hc)) hu

theorem plain_ofWord (hu : ∀ c ∈ u, isReserved c = false) : (ofWord u).Plain :=
  plain_foldl_mkConcat (List.forall_mem_nil _) hu

namespace Cells

variable {cells : Cells} {old : Option Regex} {size q : Nat}

theorem plain_merge (hold : ∀ r ∈ old, r.Plain) (hs : s.Plain) : ∀ r ∈ merge old s, r.Plain := by
  intro r hr
  obtain rfl := Option.some.inj hr
  cases old with
  | none => exact hs
  | some p => exact (hold p rfl).mkUnion hs

theorem plain_foldl_merge {α : Type} {g : α → Regex} {l : List α} (hl : ∀ e ∈ l, (g e).Plain)
    (hold : ∀ r ∈ old, r.Plain) : ∀ r ∈ l.foldl (fun old e => merge old (g e)) old, r.Plain := by
  induction l generalizing old with
  | nil => exact hold
  | cons e l ih =>
      obtain ⟨he, hl⟩ := List.forall_mem_cons.1 hl
      exact ih hl (plain_merge hold he)

/-- No cell holds a reserved symbol. -/
def AllPlain (cells : Cells) : Prop := ∀ p q, ∀ r ∈ cells.cell p q, r.Plain

theorem allPlain_tabulate {f : Nat → Nat → Option Regex} (h : ∀ p q, ∀ r ∈ f p q, r.Plain) :
    (tabulate size f).AllPlain := by
  intro p q r hr
  rw [cell_tabulate] at hr
  split at hr
  · exact h p q r hr
  · cases hr

theorem AllPlain.eliminate (h : cells.AllPlain) (q : Nat) : (cells.eliminate size q).AllPlain := by
  apply allPlain_tabulate
  intro p r
  split
  · intro s hs
    cases hs
  · split
    next into out hinto hout =>
      have hloop : ((cells.cell q q).getD empty).Plain := by
        cases hcell : cells.cell q q with
        | none => exact List.forall_mem_nil _
        | some s => exact h q q s hcell
      exact plain_merge (h p r) (((h p q into hinto).mkConcat hloop.mkStar).mkConcat (h q r out hout))
    next => exact h p r

theorem AllPlain.eliminations (h : cells.AllPlain) (size : Nat) (l : List Nat) :
    (l.foldl (Cells.eliminate size) cells).AllPlain := by
  induction l generalizing cells with
  | nil => exact h
  | cons q l ih => exact ih (h.eliminate q)

end Cells

theorem plain_of_mem_regexEdges {a : Automaton} (ha : a.reservedMove? = none) {e : Nat × Nat × Regex}
    (he : e ∈ a.regexEdges) : e.2.2.Plain := by
  obtain ⟨p, q, r⟩ := e
  rcases Automaton.mem_regexEdges.1 he with ⟨_, _, rfl⟩ | ⟨_, _, rfl⟩ | ⟨m, hm, read, hlabel, _, _, rfl⟩
  · exact List.forall_mem_nil _
  · exact List.forall_mem_nil _
  · have hread := List.find?_eq_none.1 ha m hm
    rw [hlabel, List.any_eq_true] at hread
    exact plain_ofWord fun c hc => eq_false_of_ne_true fun hreserved => hread ⟨c, hc, hreserved⟩

theorem plain_of_toRegex {a : Automaton} (h : a.toRegex = .ok r) : r.Plain := by
  obtain ⟨_, _, h⟩ := exists_of_bind_eq_ok h
  obtain ⟨_, _, h⟩ := exists_of_bind_eq_ok h
  split at h
  next => cases h
  next hnone =>
    obtain rfl := Except.ok.inj h
    -- Only the words of moves bring symbols into the cells, and no move reads a reserved one.
    have hcells : a.regexCells.AllPlain := Cells.allPlain_tabulate fun p q =>
      Cells.plain_foldl_merge (fun e he => plain_of_mem_regexEdges hnone (List.mem_filter.1 he).1) (by simp)
    have hend := hcells.eliminations (a.size + 2) (List.range a.size) a.size (a.size + 1)
    rw [← Automaton.regexCells]
    cases hcell : Cells.cell _ a.size (a.size + 1) with
    | none => exact List.forall_mem_nil _
    | some s => exact hend s hcell

/-- The text of an expression without reserved symbols is read again, as an expression for the same words.
What has been read is such an expression, and so is what has been made from an automaton. -/
theorem exists_parse_text
    (h : r.Plain ∨ (∃ text, parse text = .ok r) ∨ ∃ a : Automaton, a.toRegex = .ok r) :
    ∃ s, parse r.text.toList = .ok s ∧ ∀ w, Matches s w ↔ Matches r w := by
  have hplain : r.Plain := by
    rcases h with h | ⟨text, h⟩ | ⟨a, h⟩
    · exact h
    · exact plain_of_parse h
    · exact plain_of_toRegex h
  obtain ⟨t, ht, heq⟩ := exists_reads_shown hplain
  have hreads := ht.toSum
  rw [← hreads.dropBlanks_eq] at hreads
  refine ⟨t.simplified, ?_, fun w => (matches_simplified t w).trans (heq w)⟩
  rw [text, String.toList_ofList]
  exact parse_eq_ok.2 ⟨t, hreads, rfl⟩

/-- A product nested to the right, with a repetition of a repetition and a sum of equal sides. The constructors
that simplify would leave neither of these two. -/
def nested : Regex := concat (symbol 'a') (concat (star (star (symbol 'b'))) (union epsilon epsilon))

/-- Besides such a tree, an expression that has been read, and one that has been made from an automaton. -/
theorem exists_parse_text_nested :
    (∃ s, parse nested.text.toList = .ok s ∧ ∀ w, Matches s w ↔ Matches nested w) ∧
      (∃ r, parse ['a', ' ', '(', 'b', 'c', ')'] = .ok r ∧
        ∃ s, parse r.text.toList = .ok s ∧ ∀ w, Matches s w ↔ Matches r w) ∧
      ∃ r, Automaton.endingInAb.toRegex = .ok r ∧
        ∃ s, parse r.text.toList = .ok s ∧ ∀ w, Matches s w ↔ Matches r w := by
  have hread : parse ['a', ' ', '(', 'b', 'c', ')'] =
      .ok (concat (symbol 'a') (concat (symbol 'b') (symbol 'c'))) := rfl
  have hmade : Automaton.endingInAb.toRegex = .ok (concat (star (union (symbol 'a') (symbol 'b')))
      (concat (symbol 'a') (symbol 'b'))) := by decide +kernel
  exact ⟨exists_parse_text (.inl (by decide)), ⟨_, hread, exists_parse_text (.inr (.inl ⟨_, hread⟩))⟩,
    ⟨_, hmade, exists_parse_text (.inr (.inr ⟨_, hmade⟩))⟩⟩

end LanguageTheory.Regex
