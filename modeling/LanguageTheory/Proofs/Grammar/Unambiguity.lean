import LanguageTheory.Proofs.Grammar.Predictive
import LanguageTheory.Proofs.Grammar.ShiftReduce

/-! A table without conflicts certifies that the grammar is not ambiguous. In a leftmost derivation the
symbol that comes next chooses the production, so two of them cannot part where a predictive table has
one entry to a cell. A shift-reduce parse is determined by the input, and its reductions list the forest
that it goes through, so a word has one forest only. -/

namespace LanguageTheory

open Forest (Carries)

variable {g : Grammar} {u w x : Word} {ps qs : List Production}

namespace PredictiveTable

variable {p q : Production} {after : Word}

/-- The symbol at which a production is used where a terminal word is before it. -/
theorem exists_lookahead (hp : p ∈ g.productions) (hx : x.all isTerminal = true)
    (hderives : g.Derives [g.start] (x ++ p.left :: after)) (hw : w.all isTerminal = true)
    (h : g.Derives (x ++ p.right ++ after) w) :
    ∃ c, (w.drop x.length ++ [endMarker]).head? = some c ∧ c ∈ lookahead (.of g) p := by
  obtain ⟨d, hgrown⟩ := (Grammar.derives_iff_grown hw).1 h
  obtain ⟨y', z, rfl, hy', hz⟩ := hgrown.split
  obtain ⟨x', y, rfl, hx', hy⟩ := hy'.split
  -- The trees on a terminal word are its leaves.
  obtain ⟨f, hf, _⟩ := Forest.exists_carries_of_grown hx'
  obtain ⟨rfl, _, _⟩ := hf.of_all_isTerminal hx
  obtain ⟨c, hc⟩ : ∃ c, (y ++ (z ++ [endMarker])).head? = some c :=
    Option.isSome_iff_exists.1 (by simp)
  refine ⟨c, ?_, mem_lookahead hp hderives hy hz hc⟩
  rwa [List.append_assoc, List.drop_left, List.append_assoc]

/-- Without conflicts, a leftmost derivation has no choice. -/
theorem leftmost_unique (h : (build g).firstConflict? = none) (hu : g.Derives [g.start] u)
    (hw : w.all isTerminal = true) (hps : g.Leftmost ps u w) (hqs : g.Leftmost qs u w) : ps = qs := by
  induction hps generalizing qs with
  | @nil u =>
      generalize hsource : u = v at hqs
      cases hqs with
      | nil => rfl
      | @cons _ before after _ q _ _ _ =>
          have hleft : isTerminal q.left = true := List.all_eq_true.1 hw _ (hsource ▸ by simp)
          exact (Grammar.not_isTerminal_left q hleft).elim
  | @cons ps before after w p hp hbefore hrest ih =>
      generalize hsource : before ++ p.left :: after = v at hqs
      cases hqs with
      | nil =>
          have hleft : isTerminal p.left = true := List.all_eq_true.1 hw _ (hsource ▸ by simp)
          exact (Grammar.not_isTerminal_left p hleft).elim
      | @cons qs before' after' _ q hq hbefore' hrest' =>
          obtain ⟨rfl, hleft, rfl⟩ := Grammar.eq_of_first_variable hbefore hbefore' hsource
          obtain ⟨c, hc, hpc⟩ := exists_lookahead hp hbefore hu hw hrest.derives
          obtain ⟨c', hc', hqc⟩ := exists_lookahead hq hbefore (hleft ▸ hu) hw hrest'.derives
          obtain rfl : c = c' := Option.some.inj (hc.symm.trans hc')
          -- Both productions are the entry of one cell.
          have hentry : (build g).get? p.left c = some q := hleft ▸ get?_of_mem_lookahead h hq hqc
          obtain rfl : p = q := Option.some.inj ((get?_of_mem_lookahead h hp hpc).symm.trans hentry)
          rw [ih (hu.step (.intro before after p hp)) hw hrest']

end PredictiveTable

namespace ShiftReduceTable

/-- Without conflicts, only one forest carries a word. -/
theorem carries_unique {a : AugmentedGrammar} (h : a.Augments g) (hconflict : a.table.firstConflict? = none)
    {f f' : Forest} (hf : Carries g f [g.start] w) (hf' : Carries g f' [g.start] w) : f = f' := by
  obtain ⟨y, n, _, hmakes, haccepts⟩ := makes_of_carries_start h hconflict hf
  obtain ⟨y', m, _, hmakes', haccepts'⟩ := makes_of_carries_start h hconflict hf'
  have hpostorder : f.postorder = f'.postorder := hmakes.unique haccepts hmakes' haccepts'
  exact (hf.eq_of_postorder hf' (congrArg (·.reverse ++ []) hpostorder)).1

end ShiftReduceTable

namespace Grammar

/-- Every word that is generated has a leftmost derivation and a rightmost one. -/
theorem generates_iff_exists_leftmost (hw : w.all isTerminal = true) :
    g.Generates w ↔ ∃ ps, g.Leftmost ps [g.start] w := by
  constructor
  · intro hgenerates
    obtain ⟨f, hf, _⟩ := Forest.exists_carries_of_generates hgenerates
    exact ⟨_, hf.leftmost⟩
  · rintro ⟨ps, hps⟩
    exact ⟨hw, hps.derives⟩

theorem generates_iff_exists_rightmost (hw : w.all isTerminal = true) :
    g.Generates w ↔ ∃ ps, g.Rightmost ps [g.start] w := by
  constructor
  · intro hgenerates
    obtain ⟨f, hf, _⟩ := Forest.exists_carries_of_generates hgenerates
    exact ⟨_, hf.rightmost⟩
  · rintro ⟨ps, hps⟩
    exact ⟨hw, hps.derives⟩

/-- If one of the two tables of a grammar has no conflict, a terminal word has at most one leftmost
derivation, and at most one rightmost one. -/
theorem derivation_unique (g : Grammar)
    (h : (∃ t, g.predictiveTable = .ok t) ∨ ∃ t, g.shiftReduceTable = .ok t) (w : Word)
    (hw : w.all isTerminal = true) :
    {ps | g.Leftmost ps [g.start] w}.Subsingleton ∧ {ps | g.Rightmost ps [g.start] w}.Subsingleton := by
  rw [Forest.leftmost_subsingleton_iff hw, Forest.rightmost_subsingleton_iff hw, and_self]
  rcases h with ⟨t, ht⟩ | ⟨t, ht⟩
  · obtain ⟨rfl, hconflict⟩ := PredictiveTable.eq_build_of_predictiveTable ht
    rw [← Forest.leftmost_subsingleton_iff hw]
    intro ps hps qs hqs
    exact PredictiveTable.leftmost_unique hconflict .refl hw hps hqs
  · obtain ⟨a, haugments, rfl, hconflict⟩ := ShiftReduceTable.eq_table_of_shiftReduceTable ht
    intro f hf f' hf'
    exact ShiftReduceTable.carries_unique haugments hconflict hf hf'

/-- The only leftmost derivation of the word `ab`. -/
theorem derivation_unique_nested : (∃ t, ShiftReduceTable.nested.shiftReduceTable = .ok t) ∧
    ['a', 'b'].all isTerminal = true ∧
    {ps | ShiftReduceTable.nested.Leftmost ps ['S'] ['a', 'b']} =
      {[⟨'S', ['a', 'S', 'b'], rfl, rfl⟩, ⟨'S', [], rfl, rfl⟩]} := by
  have hw : (['a', 'b'] : Word).all isTerminal = true := by decide
  have hok : (ShiftReduceTable.nested.shiftReduceTable.toOption.any fun _ => true) = true := by decide +kernel
  obtain ⟨t, ht, _⟩ := exists_ok_of_any hok
  have hinner : ShiftReduceTable.nested.Leftmost [⟨'S', [], rfl, rfl⟩] (['a'] ++ 'S' :: ['b']) ['a', 'b'] :=
    .cons (p := ⟨'S', [], rfl, rfl⟩) (by decide) (by decide) .nil
  have houter : ShiftReduceTable.nested.Leftmost [⟨'S', ['a', 'S', 'b'], rfl, rfl⟩, ⟨'S', [], rfl, rfl⟩]
      ['S'] ['a', 'b'] := .head (p := ⟨'S', ['a', 'S', 'b'], rfl, rfl⟩) (by decide) rfl hinner
  refine ⟨⟨t, ht⟩, hw, ?_⟩
  have hunique := (derivation_unique ShiftReduceTable.nested (.inr ⟨t, ht⟩) ['a', 'b'] hw).1
  exact hunique.eq_singleton_of_mem houter

end Grammar

end LanguageTheory
