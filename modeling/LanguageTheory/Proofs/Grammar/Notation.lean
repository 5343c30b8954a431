import LanguageTheory.Grammar.Notation
import LanguageTheory.Proofs.Grammar.Derivation

/-! Printing a grammar and reading what was printed. A production is printed with the arrow `→`, and a line is read
with `->` for its arrow if these two characters stand anywhere in it. So a grammar that was read from a text comes
back, production by production, unless `->` stands on a right-hand side. The first line with such a right-hand side
is then taken to have more than one character before its arrow, and nothing is read. -/

namespace LanguageTheory

/-! ### Lines and blanks -/

namespace Text

variable {c d : Char} {u w rest : Word}

theorem not_isBlank_of_isVariable (hc : isVariable c = true) : isBlank c = false := by
  rw [isVariable, Bool.and_eq_true, decide_eq_true_eq, decide_eq_true_eq] at hc
  have hlower : 65 ≤ c.toNat := hc.1
  have hupper : c.toNat ≤ 90 := hc.2
  simp only [isBlank, Bool.or_eq_false_iff, Bool.and_eq_false_iff, decide_eq_false_iff_not, beq_eq_false_iff_ne]
  omega

/-- Trimming leaves all that stands between two characters that are no blanks. -/
theorem exists_trim (hc : isBlank c = false) (hd : isBlank d = false) (u w : Word) :
    ∃ v, trim (c :: (u ++ d :: w)) = c :: (u ++ d :: v) := by
  have hfront : (c :: (u ++ d :: w)).reverse = w.reverse ++ (d :: (u.reverse ++ [c])) := by simp
  have hback : (d :: (u.reverse ++ [c])).dropWhile isBlank = d :: (u.reverse ++ [c]) :=
    List.dropWhile_cons_of_neg (by rw [hd]; exact Bool.false_ne_true)
  rw [trim, List.dropWhile_cons_of_neg (by rw [hc]; exact Bool.false_ne_true), hfront, List.dropWhile_append, hback]
  split
  · exact ⟨[], by simp⟩
  · exact ⟨(w.reverse.dropWhile isBlank).reverse, by simp⟩

theorem trim_of_isBlank (hc : isBlank c = false) (hd : isBlank d = true) : trim [c, d] = [c] := by
  simp [trim, hc, hd]

theorem lines_append (hfeed : '\n' ∉ w) (hreturn : '\r' ∉ w) : lines (w ++ '\n' :: rest) = w :: lines rest := by
  induction w with
  | nil => rw [List.nil_append, lines]
  | cons c w ih =>
      obtain ⟨hc, hfeed⟩ := List.ne_and_not_mem_of_not_mem_cons hfeed
      obtain ⟨hc', hreturn⟩ := List.ne_and_not_mem_of_not_mem_cons hreturn
      rw [List.cons_append, lines, ih hfeed hreturn]
      · exact fun h => hc h.symm
      · intro _ h
        exact (hc' h.symm).elim

end Text

/-! ### Splitting at a mark -/

section Splitting

variable {c mark : Char} {marks text before rest piece : Word}

/-- What stands in front of the first occurrence goes to the text before it. -/
theorem splitOnce_append (h : c ∉ before) : splitOnce (c :: marks) (before ++ rest) =
    (splitOnce (c :: marks) rest).map fun x => (before ++ x.1, x.2) := by
  induction before with
  | nil => simp
  | cons d before ih =>
      obtain ⟨hne, hbefore⟩ := List.ne_and_not_mem_of_not_mem_cons h
      have hprefix : (c :: marks).isPrefixOf? (d :: (before ++ rest)) = none := by
        simp [List.isPrefixOf?, hne]
      rw [List.cons_append, splitOnce, hprefix, ih hbefore, Option.map_map]
      rfl

theorem splitOnce_cons (c : Char) (rest : Word) : splitOnce [c] (c :: rest) = some ([], rest) := by
  simp [splitOnce, List.isPrefixOf?]

theorem splitOnce_eq_none_iff (hmarks : marks ≠ []) : splitOnce marks text = none ↔ ¬marks <:+: text := by
  induction text with
  | nil => simp [splitOnce, hmarks]
  | cons c rest ih =>
      rw [splitOnce, List.infix_cons_iff]
      cases hprefix : marks.isPrefixOf? (c :: rest) with
      | some after =>
          have happend := List.isPrefixOf?_eq_some_iff_append_eq.1 hprefix
          exact iff_of_false nofun (not_not_intro (Or.inl ⟨after, happend⟩))
      | none =>
          have hno : ¬marks <+: c :: rest := by
            intro ⟨after, happend⟩
            rw [List.isPrefixOf?_eq_some_iff_append_eq.2 happend] at hprefix
            cases hprefix
          rw [Option.map_eq_none_iff, ih, not_or, and_iff_right hno]

theorem pieces_ne_nil (mark : Char) (text : Word) : pieces mark text ≠ [] := by
  induction text with
  | nil => exact List.cons_ne_nil _ _
  | cons c rest ih =>
      rw [pieces]
      split
      · exact List.cons_ne_nil _ _
      · split <;> exact List.cons_ne_nil _ _

theorem pieces_of_notMem (h : mark ∉ text) : pieces mark text = [text] := by
  induction text with
  | nil => rfl
  | cons c rest ih =>
      obtain ⟨hne, hrest⟩ := List.ne_and_not_mem_of_not_mem_cons h
      rw [pieces, if_neg (Ne.symm hne), ih hrest]

theorem mark_notMem_of_mem_pieces (h : piece ∈ pieces mark text) : mark ∉ piece := by
  induction text generalizing piece with
  | nil =>
      obtain rfl := List.mem_singleton.1 h
      exact List.not_mem_nil
  | cons c rest ih =>
      rw [pieces] at h
      split at h
      next =>
        rcases List.mem_cons.1 h with rfl | h
        · exact List.not_mem_nil
        · exact ih h
      next hne =>
        split at h
        next heq => exact (pieces_ne_nil mark rest heq).elim
        next first others heq =>
          rw [heq] at ih
          rcases List.mem_cons.1 h with rfl | h
          · exact List.not_mem_cons_of_ne_of_not_mem (Ne.symm hne) (ih List.mem_cons_self)
          · exact ih (List.mem_cons_of_mem _ h)

end Splitting

/-! ### Lines of productions -/

namespace Production

variable {p : Production} {c : Char} {before after : Word}

/-- The characters `->` stand on the right-hand side. -/
def HasArrow (p : Production) : Prop := ['-', '>'] <:+: p.right

instance : DecidablePred HasArrow := fun p => inferInstanceAs (Decidable (['-', '>'] <:+: p.right))

theorem ne_left (p : Production) (hc : isVariable c = false) : c ≠ p.left := by
  intro h
  rw [h, p.left_isVariable] at hc
  cases hc

theorem not_isBlank_of_mem_shown (hc : c ∈ p.right.shown) : Text.isBlank c = false := by
  rw [Word.shown] at hc
  split at hc
  · obtain rfl := List.mem_singleton.1 hc
    decide
  · have hsymbol := List.all_eq_true.1 p.right_isGrammarSymbol c hc
    rw [isGrammarSymbol, Bool.and_eq_true, Bool.not_eq_true'] at hsymbol
    exact hsymbol.2

theorem notMem_shown_of_isBlank (p : Production) (hc : Text.isBlank c = true) (hspace : c ≠ ' ') : c ∉ p.shown := by
  intro hmem
  rcases List.mem_append.1 hmem with h | h
  · have hleft : c ≠ p.left := by
      intro heq
      rw [heq, Text.not_isBlank_of_isVariable p.left_isVariable] at hc
      cases hc
    have harrow : c ≠ '→' := by
      intro heq
      rw [heq] at hc
      exact absurd hc (by decide)
    simp [hleft, hspace, harrow] at h
  · rw [not_isBlank_of_mem_shown h] at hc
    cases hc

theorem of_sides (p : Production) : of p.left p.right = .ok p := by
  have hend : p.right.contains endMarker = false := by
    rw [List.contains_eq_mem, decide_eq_false_iff_not]
    exact Grammar.endMarker_not_mem_right p
  rw [of, dif_pos p.left_isVariable, hend, dif_pos p.right_isGrammarSymbol]
  rfl

/-- A right-hand side is read from what it is printed as. -/
theorem readRight_shown (p : Production) : readRight (' ' :: p.right.shown) = p.right := by
  have hblanks : Text.dropBlanks (' ' :: p.right.shown) = p.right.shown := by
    rw [Text.dropBlanks, List.filter_cons_of_neg (by decide), List.filter_eq_self]
    intro c hc
    rw [not_isBlank_of_mem_shown hc]
    rfl
  rw [readRight, hblanks, Word.shown]
  cases hright : p.right with
  | nil => rfl
  | cons c right =>
      have hc : c ≠ lambda := by
        have hsymbol := List.all_eq_true.1 p.right_isGrammarSymbol c (hright ▸ List.mem_cons_self)
        intro heq
        rw [heq] at hsymbol
        exact absurd hsymbol (by decide)
      simp [hc]

/-- In a printed production the two characters stand where they stand on the right-hand side. -/
theorem splitOnce_shown (p : Production) : splitOnce ['-', '>'] p.shown =
    (splitOnce ['-', '>'] p.right).map fun x => ([p.left, ' ', '→', ' '] ++ x.1, x.2) := by
  have hfront : '-' ∉ [p.left, ' ', '→', ' '] := by
    have hleft : '-' ≠ p.left := p.ne_left (by decide)
    simp [hleft]
  have hright : splitOnce ['-', '>'] p.right.shown = splitOnce ['-', '>'] p.right := by
    cases p.right with
    | nil => rfl
    | cons => rfl
  rw [shown, splitOnce_append hfront, hright]

/-- The printed arrow is left when its line is trimmed. -/
theorem exists_trim_arrow (p : Production) (text : Word) :
    ∃ v, Text.trim (p.left :: ' ' :: '→' :: text) = p.left :: ' ' :: '→' :: v :=
  Text.exists_trim (Text.not_isBlank_of_isVariable p.left_isVariable) (by decide) [' '] text

theorem splitArrow_shown (h : ¬p.HasArrow) : splitArrow p.shown = some ([p.left, ' '], ' ' :: p.right.shown) := by
  have hnone : splitOnce ['-', '>'] p.right = none := (splitOnce_eq_none_iff (List.cons_ne_nil _ _)).2 h
  have hfront : '→' ∉ [p.left, ' '] := by
    have hleft : '→' ≠ p.left := p.ne_left (by decide)
    simp [hleft]
  have hshown : p.shown = [p.left, ' '] ++ '→' :: ' ' :: p.right.shown := rfl
  rw [splitArrow, splitOnce_shown, hnone, Option.map_none, Option.none_or, hshown, splitOnce_append hfront,
    splitOnce_cons]
  rfl

end Production

namespace Grammar

variable {g g' : Grammar} {p : Production} {ps : List Production} {text before after : Word}

theorem readLine_shown (h : ¬p.HasArrow) : readLine p.shown = .ok (p.left, ' ' :: p.right.shown) := by
  have hleft := Text.trim_of_isBlank (Text.not_isBlank_of_isVariable p.left_isVariable) (d := ' ') (by decide)
  rw [readLine, Production.splitArrow_shown h]
  simp only [Production.readLeft, hleft]
  rfl

/-- Where `->` stands on the right-hand side, the text before it is taken for a left-hand side. -/
theorem readLine_shown_of_splitOnce (h : splitOnce ['-', '>'] p.right = some (before, after)) :
    readLine p.shown = .error (.production
      (Production.refusedText (Text.trim ([p.left, ' ', '→', ' '] ++ before)) after) .longLeft) := by
  obtain ⟨v, hv⟩ := p.exists_trim_arrow (' ' :: before)
  have htrim : Text.trim ([p.left, ' ', '→', ' '] ++ before) = p.left :: ' ' :: '→' :: v := hv
  rw [readLine, Production.splitArrow, Production.splitOnce_shown, h, Option.map_some, Option.some_or, htrim]
  simp only [Production.readLeft, htrim]
  rfl

theorem addLine_shown (g : Grammar) (hbar : '|' ∉ p.right) :
    addLine g (p.left, ' ' :: p.right.shown) = .ok (g.add p) := by
  have hmem : '|' ∉ ' ' :: p.right.shown := by
    apply List.not_mem_cons_of_ne_of_not_mem (by decide)
    rw [Word.shown]
    split
    · decide
    · exact hbar
  rw [addLine, pieces_of_notMem hmem, List.foldlM_cons, Production.readRight_shown, addSides, Production.of_sides]
  rfl

/-- The lines of a printed grammar are its productions. -/
theorem lines_shown (ps : List Production) :
    ((Text.lines (ps.flatMap fun p => p.shown ++ ['\n'])).filter fun line => !(Text.trim line).isEmpty) =
      ps.map Production.shown := by
  induction ps with
  | nil => rfl
  | cons p ps ih =>
      have hfeed : '\n' ∉ p.shown := p.notMem_shown_of_isBlank (by decide) (by decide)
      have hreturn : '\r' ∉ p.shown := p.notMem_shown_of_isBlank (by decide) (by decide)
      obtain ⟨v, hv⟩ := p.exists_trim_arrow (' ' :: p.right.shown)
      have htrim : Text.trim p.shown = p.left :: ' ' :: '→' :: v := hv
      rw [List.flatMap_cons, List.append_assoc, List.singleton_append, Text.lines_append hfeed hreturn,
        List.filter_cons_of_pos (by rw [htrim]; rfl), ih, List.map_cons]

/-! ### Grammars that are read -/

/-- What is true of every grammar that is read: its first production is one of the start variable, and no
right-hand side holds the mark between alternatives. -/
structure Written (g : Grammar) : Prop where
  exists_first : ∃ p ps, g.productions = p :: ps ∧ p.left = g.start
  bar_notMem : ∀ p ∈ g.productions, '|' ∉ p.right

theorem productions_add (h : p ∉ g.productions) : (g.add p).productions = g.productions ++ [p] := by
  rw [add, dif_neg h]

theorem prefix_add (g : Grammar) (p : Production) : g.productions <+: (g.add p).productions := by
  rw [add]
  split
  · exact List.prefix_rfl
  · exact List.prefix_append _ _

theorem Written.add (h : g.Written) (hp : '|' ∉ p.right) : (g.add p).Written := by
  obtain ⟨⟨q, qs, hproductions, hleft⟩, hbar⟩ := h
  constructor
  · obtain ⟨others, hothers⟩ := prefix_add g p
    refine ⟨q, qs ++ others, ?_, hleft.trans (start_add g p).symm⟩
    rw [← hothers, hproductions, List.cons_append]
  · intro r hr
    rcases mem_add.1 hr with hr | rfl
    · exact hbar r hr
    · exact hp

theorem written_add (hempty : g.productions = []) (hleft : p.left = g.start) (hp : '|' ∉ p.right) :
    (g.add p).Written := by
  have hproductions : (g.add p).productions = [p] := by
    rw [productions_add (hempty ▸ List.not_mem_nil), hempty, List.nil_append]
  constructor
  · exact ⟨p, [], hproductions, hleft.trans (start_add g p).symm⟩
  · intro q hq
    rw [hproductions, List.mem_singleton] at hq
    rwa [hq]

theorem bar_notMem_readRight {right : Word} (h : '|' ∉ right) : '|' ∉ Production.readRight right := by
  intro hmem
  rw [Production.readRight] at hmem
  split at hmem
  · exact List.not_mem_nil hmem
  · exact h (List.mem_of_mem_filter hmem)

/-- A right-hand side without the mark between alternatives adds one production. -/
theorem exists_of_addSides {v : Char} {right : Word} (hright : '|' ∉ right)
    (h : g.addSides v (Production.readRight right) = .ok g') : ∃ p, p.left = v ∧ '|' ∉ p.right ∧ g' = g.add p := by
  obtain ⟨p, hp, hg⟩ := exists_of_bind_eq_ok h
  obtain ⟨hleft, hsides⟩ := sides_of_production hp
  exact ⟨p, hleft, hsides ▸ bar_notMem_readRight hright, (Except.ok.inj hg).symm⟩

theorem Written.addSides {v : Char} {rights : List Word} (h : g.Written) (hrights : ∀ right ∈ rights, '|' ∉ right)
    (hrun : rights.foldlM (fun g right => g.addSides v (Production.readRight right)) g = .ok g') : g'.Written := by
  refine of_foldlM_eq_ok (fun right hright g₁ g₂ hwritten hadd => ?_) h hrun
  obtain ⟨p, _, hp, rfl⟩ := exists_of_addSides (hrights right hright) hadd
  exact hwritten.add hp

theorem Written.addLines {lines : List (Char × Word)} (h : g.Written) (hrun : lines.foldlM addLine g = .ok g') :
    g'.Written :=
  of_foldlM_eq_ok (fun _ _ _ _ hwritten hadd => hwritten.addSides (fun _ => mark_notMem_of_mem_pieces) hadd) h hrun

theorem written_of_addLine {line : Char × Word} (hempty : g.productions = []) (hstart : line.1 = g.start)
    (h : g.addLine line = .ok g') : g'.Written := by
  rw [addLine] at h
  cases hpieces : pieces '|' line.2 with
  | nil => exact (pieces_ne_nil _ _ hpieces).elim
  | cons right rights =>
      have hbar : ∀ piece ∈ right :: rights, '|' ∉ piece := hpieces ▸ fun _ => mark_notMem_of_mem_pieces
      obtain ⟨hright, hrights⟩ := List.forall_mem_cons.1 hbar
      rw [hpieces, List.foldlM_cons] at h
      obtain ⟨g₁, hfirst, hrest⟩ := exists_of_bind_eq_ok h
      obtain ⟨p, hleft, hp, rfl⟩ := exists_of_addSides hright hfirst
      exact (written_add hempty (hleft.trans hstart) hp).addSides hrights hrest

theorem written_of_parse (h : parse text = .ok g) : g.Written := by
  obtain ⟨lines, _, hrun⟩ := exists_of_bind_eq_ok h
  cases lines with
  | nil => cases hrun
  | cons first rest =>
      obtain ⟨g₀, hg₀, hrun⟩ := exists_of_bind_eq_ok hrun
      rw [of] at hg₀
      split at hg₀
      next =>
        obtain rfl := Except.ok.inj hg₀
        rw [List.foldlM_cons] at hrun
        obtain ⟨g₁, hfirst, hrest⟩ := exists_of_bind_eq_ok hrun
        exact (written_of_addLine rfl rfl hfirst).addLines hrest
      next => cases hg₀

/-! ### Reading what was printed -/

theorem productions_foldl_add (h : (g.productions ++ ps).Nodup) :
    (ps.foldl add g).start = g.start ∧ (ps.foldl add g).productions = g.productions ++ ps := by
  induction ps generalizing g with
  | nil => exact ⟨rfl, (List.append_nil _).symm⟩
  | cons p ps ih =>
      have hmem : p ∉ g.productions := fun hp => (List.nodup_append.1 h).2.2 p hp p List.mem_cons_self rfl
      have hproductions := productions_add hmem
      rw [List.append_cons, ← hproductions] at h
      obtain ⟨hstart, hall⟩ := ih h
      refine ⟨hstart.trans (start_add g p), ?_⟩
      rw [List.foldl_cons, hall, hproductions, List.append_assoc, List.singleton_append]

theorem mapM_readLine (h : ∀ p ∈ ps, ¬p.HasArrow) :
    (ps.map Production.shown).mapM readLine = .ok (ps.map fun p => (p.left, ' ' :: p.right.shown)) := by
  induction ps with
  | nil => rfl
  | cons p ps ih =>
      obtain ⟨hp, hps⟩ := List.forall_mem_cons.1 h
      rw [List.map_cons, List.mapM_cons, readLine_shown hp, ih hps]
      rfl

theorem foldlM_addLine (g : Grammar) (h : ∀ p ∈ ps, '|' ∉ p.right) :
    (ps.map fun p => (p.left, ' ' :: p.right.shown)).foldlM addLine g = .ok (ps.foldl add g) := by
  induction ps generalizing g with
  | nil => rfl
  | cons p ps ih =>
      obtain ⟨hp, hps⟩ := List.forall_mem_cons.1 h
      rw [List.map_cons, List.foldlM_cons, addLine_shown g hp]
      exact ih (g.add p) hps

theorem eq_of_parts (hstart : g.start = g'.start) (hproductions : g.productions = g'.productions) : g = g' := by
  cases g
  cases g'
  cases hstart
  cases hproductions
  rfl

/-- A grammar comes back if `->` stands on no right-hand side. -/
theorem Written.parse_shown (h : g.Written) (harrow : ∀ p ∈ g.productions, ¬p.HasArrow) : parse g.shown = .ok g := by
  obtain ⟨⟨p, ps, hproductions, hleft⟩, hbar⟩ := h
  have hempty : of p.left = .ok ⟨p.left, [], p.left_isVariable, .nil⟩ := dif_pos p.left_isVariable
  have hnodup : ([] ++ g.productions).Nodup := g.nodup
  obtain ⟨hstart, hall⟩ := productions_foldl_add (g := ⟨p.left, [], p.left_isVariable, .nil⟩) hnodup
  calc parse g.shown
      = (of p.left).bind fun g₀ =>
          (g.productions.map fun p => (p.left, ' ' :: p.right.shown)).foldlM addLine g₀ := by
        rw [parse, shown, lines_shown, mapM_readLine harrow, hproductions]
        rfl
    _ = .ok (g.productions.foldl Grammar.add ⟨p.left, [], p.left_isVariable, .nil⟩) := by
        rw [hempty]
        exact foldlM_addLine _ hbar
    _ = .ok g := congrArg Except.ok (eq_of_parts (hstart.trans hleft) hall)

/-- Nothing is read if `->` stands on a right-hand side. The message shows what was split at the first one. -/
theorem parse_shown_of_find? (h : g.productions.find? (fun p => decide p.HasArrow) = some p) :
    ∃ before after, splitOnce ['-', '>'] p.right = some (before, after) ∧
      parse g.shown = .error (.production
        (Production.refusedText (Text.trim ([p.left, ' ', '→', ' '] ++ before)) after) .longLeft) := by
  obtain ⟨hp, ps, qs, hproductions, hps⟩ := List.find?_eq_some_iff_append.1 h
  have hread := mapM_readLine fun q hq => by simpa using hps q hq
  cases hsplit : splitOnce ['-', '>'] p.right with
  | none => exact ((splitOnce_eq_none_iff (List.cons_ne_nil _ _)).1 hsplit (of_decide_eq_true hp)).elim
  | some x =>
      refine ⟨x.1, x.2, rfl, ?_⟩
      rw [parse, shown, lines_shown, hproductions, List.map_append, List.map_cons, List.mapM_append, hread,
        List.mapM_cons, readLine_shown_of_splitOnce hsplit]
      rfl

/-- A grammar that was read comes back from what it is printed as if and only if `->` stands on none of its
right-hand sides. Otherwise the first production with such a right-hand side is refused. -/
theorem parse_shown_iff (h : parse text = .ok g) :
    (parse g.shown = .ok g ↔ ∀ p ∈ g.productions, ¬p.HasArrow) ∧
    ∀ p, g.productions.find? (fun p => decide p.HasArrow) = some p →
      ∃ before after, splitOnce ['-', '>'] p.right = some (before, after) ∧
        parse g.shown = .error (.production
          (Production.refusedText (Text.trim ([p.left, ' ', '→', ' '] ++ before)) after) .longLeft) := by
  refine ⟨⟨fun hok => ?_, (written_of_parse h).parse_shown⟩, fun p => parse_shown_of_find?⟩
  cases hfind : g.productions.find? fun p => decide p.HasArrow with
  | none => exact fun p hp => of_decide_eq_false (Bool.eq_false_of_not_eq_true (List.find?_eq_none.1 hfind p hp))
  | some p =>
      obtain ⟨_, _, _, herror⟩ := parse_shown_of_find? hfind
      rw [hok] at herror
      cases herror

theorem parse_shown_iff_alternatives :
    let text := "\n S->a S b | λ\r\nT → > - | S\nS -> λ".toList
    ∃ g, parse text = .ok g ∧ g.shown = "S → aSb\nS → λ\nT → >-\nT → S\n".toList ∧ parse g.shown = .ok g := by
  intro text
  have hok : (parse text).toOption.any (fun g => g.shown = "S → aSb\nS → λ\nT → >-\nT → S\n".toList ∧
      ∀ p ∈ g.productions, ¬p.HasArrow) = true := by decide +kernel
  obtain ⟨g, hg, hshown⟩ := exists_ok_of_any hok
  obtain ⟨hshown, harrow⟩ := of_decide_eq_true hshown
  exact ⟨g, hg, hshown, (parse_shown_iff hg).1.2 harrow⟩

/-- One production with `->` on its right-hand side. -/
def arrowed : Grammar where
  start := 'S'
  productions := [⟨'S', ['a', '-', '>', 'b'], Eq.refl true, Eq.refl true⟩]
  start_isVariable := Eq.refl true
  nodup := by decide

/-- What is read from `S -> a->b` is printed as `S → a->b`, which is refused. -/
theorem parse_shown_arrowed :
    parse "S -> a->b".toList = .ok arrowed ∧ arrowed.shown = "S → a->b\n".toList ∧
    parse arrowed.shown = .error (.production "S → a->b".toList .longLeft) ∧ parse arrowed.shown ≠ .ok arrowed := by
  decide +kernel

end Grammar

end LanguageTheory
