import LanguageTheory.Grammar.Predictive
import LanguageTheory.Proofs.Grammar.FirstFollow

/-! Predictive parsing is right. What has been read, and then what is expected, is always derived from the
start variable and the end marker, so acceptance means that the start variable derives the input. In the
other direction the parser goes through the forest of a derivation from the top: the symbol that comes next
is the first that the tree of a variable carries, or follows the variable if the tree carries nothing, so
that the production of the tree is the only entry of the cell. -/

namespace LanguageTheory.PredictiveTable

open ParseStep (run run_succ_of_next)

variable {t : PredictiveTable} {g : Grammar} {p : Production} {b c v : Char} {d e i n : Nat}
  {u w x y z stack rest before after : Word} {s s' : Parse} {accepted : Bool}

/-! ### Cells -/

theorem mem_entries : i ∈ t.entries v c ↔ ∃ p symbols, t.grammar.productions[i]? = some p ∧
    t.lookaheads[i]? = some symbols ∧ p.left = v ∧ c ∈ symbols := by
  simp only [entries, List.mem_filterMap, Prod.exists, List.mk_mem_zipIdx_iff_getElem?,
    List.getElem?_zip_eq_some, Option.ite_none_right_eq_some, Option.some.injEq]
  constructor
  · rintro ⟨p, symbols, _, ⟨hp, hsymbols⟩, ⟨hleft, hc⟩, rfl⟩
    exact ⟨p, symbols, hp, hsymbols, hleft, hc⟩
  · rintro ⟨p, symbols, hp, hsymbols, hleft, hc⟩
    exact ⟨p, symbols, i, ⟨hp, hsymbols⟩, ⟨hleft, hc⟩, rfl⟩

theorem mem_entries_build : i ∈ (build g).entries v c ↔ ∃ p, g.productions[i]? = some p ∧ p.left = v ∧
    c ∈ lookahead (.of g) p := by
  simp only [mem_entries, build, List.getElem?_map, Option.map_eq_some_iff]
  constructor
  · rintro ⟨p, _, hp, ⟨q, hq, rfl⟩, hleft, hc⟩
    obtain rfl := Option.some.inj (hp.symm.trans hq)
    exact ⟨p, hp, hleft, hc⟩
  · rintro ⟨p, hp, hleft, hc⟩
    exact ⟨p, _, hp, ⟨p, hp, rfl⟩, hleft, hc⟩

theorem of_get? (h : t.get? v c = some p) : p ∈ t.grammar.productions ∧ p.left = v := by
  unfold get? at h
  split at h
  next i hentries =>
    have hi : i ∈ t.entries v c := hentries ▸ List.mem_singleton_self i
    obtain ⟨q, _, hq, _, hleft, _⟩ := mem_entries.1 hi
    obtain rfl := Option.some.inj (h.symm.trans hq)
    exact ⟨List.mem_of_getElem? h, hleft⟩
  next => cases h

/-- A production is chosen on what can begin its right-hand side, and on what can follow its variable if
the right-hand side can vanish. -/
theorem mem_lookahead_iff (hp : p ∈ g.productions) : c ∈ lookahead (.of g) p ↔
    c ∈ g.firstOf g.nullable p.right ∨
      (∀ b ∈ p.right, b ∈ g.nullable) ∧ c ∈ g.followOf g.nullable p.left := by
  have hleft : p.left ∈ g.variableSymbols :=
    Grammar.mem_variableSymbols.2 (Or.inr ⟨p, hp, Or.inl rfl⟩)
  have hnullable : (FirstFollow.of g).isNullable p.right = true ↔ ∀ b ∈ p.right, b ∈ g.nullable :=
    List.all_eq_true.trans (forall₂_congr fun _ _ => decide_eq_true_iff)
  rw [lookahead, Ascending.mem_union, ← hnullable, Grammar.follow_of hleft]
  refine or_congr Iff.rfl ?_
  split
  next h => rw [and_iff_right h]
  next h => exact iff_of_false (Ascending.not_mem_empty c) fun hc => h hc.1

/-- A production that is found in a cell is the only one that claims it. -/
theorem of_get?_build (h : (build g).get? v c = some p) :
    p ∈ g.productions ∧ p.left = v ∧ c ∈ lookahead (.of g) p ∧
      ∀ q ∈ g.productions, q.left = v → c ∈ lookahead (.of g) q → q = p := by
  unfold get? at h
  split at h
  next i hentries =>
    have hi : i ∈ (build g).entries v c := hentries ▸ List.mem_singleton_self i
    obtain ⟨p', hp', hleft, hc⟩ := mem_entries_build.1 hi
    obtain rfl := Option.some.inj (h.symm.trans hp')
    refine ⟨List.mem_of_getElem? hp', hleft, hc, fun q hq hqleft hqc => ?_⟩
    obtain ⟨j, hj⟩ := List.mem_iff_getElem?.1 hq
    have hmem : j ∈ (build g).entries v c := mem_entries_build.2 ⟨q, hj, hqleft, hqc⟩
    rw [hentries, List.mem_singleton] at hmem
    exact Option.some.inj (hj.symm.trans (hmem ▸ hp'))
  next => cases h

theorem mem_columns {symbols : Ascending Char} (h : symbols ∈ t.lookaheads) (hc : c ∈ symbols) : c ∈ t.columns :=
  (Ascending.mem_foldl_union (f := id)).2 (Or.inr ⟨symbols, h, hc⟩)

/-- A cell with several entries is a conflict. -/
theorem mem_conflicts (h : 1 < ((build g).entries v c).length) : (v, c) ∈ (build g).conflicts := by
  obtain ⟨i, hi⟩ := List.exists_mem_of_length_pos (Nat.lt_of_succ_lt h)
  obtain ⟨p, symbols, hp, hsymbols, rfl, hc⟩ := mem_entries.1 hi
  have hleft : p.left ∈ g.variableSymbols :=
    Grammar.mem_variableSymbols.2 (Or.inr ⟨p, List.mem_of_getElem? hp, Or.inl rfl⟩)
  refine List.mem_flatMap.2 ⟨p.left, hleft, List.mem_map.2 ⟨c, List.mem_filter.2 ⟨?_, decide_eq_true h⟩, rfl⟩⟩
  exact mem_columns (List.mem_of_getElem? hsymbols) hc

theorem length_entries_le (h : (build g).firstConflict? = none) (v c : Char) :
    ((build g).entries v c).length ≤ 1 := by
  by_contra hlength
  have hmem := mem_conflicts (Nat.lt_of_not_le hlength)
  -- The first conflict has two entries to show, each of which is a production.
  obtain ⟨⟨v', c'⟩, hhead⟩ : ∃ cell, (build g).conflicts.head? = some cell := by
    cases hconflicts : (build g).conflicts with
    | nil =>
        rw [hconflicts] at hmem
        cases hmem
    | cons cell cells => exact ⟨cell, rfl⟩
  have hentry : ∀ k < 2, ∃ i p, ((build g).entries v' c')[k]? = some i ∧
      (build g).grammar.productions[i]? = some p := by
    intro k hk
    obtain ⟨_, _, hcell⟩ := List.mem_flatMap.1 (List.mem_of_head? hhead)
    obtain ⟨_, hfilter, hcell⟩ := List.mem_map.1 hcell
    cases hcell
    have hlt := of_decide_eq_true (List.mem_filter.1 hfilter).2
    have hget := List.getElem?_eq_getElem (hk.trans_le hlt)
    obtain ⟨p, _, hp, _⟩ := mem_entries.1 (List.mem_of_getElem? hget)
    exact ⟨_, p, hget, hp⟩
  obtain ⟨i, p, hi, hp⟩ := hentry 0 (by omega)
  obtain ⟨j, q, hj, hq⟩ := hentry 1 (by omega)
  simp [firstConflict?, hhead, hi, hj, hp, hq] at h

/-- Without conflicts, a production that claims a cell is found there. -/
theorem get?_of_mem_lookahead (h : (build g).firstConflict? = none) (hp : p ∈ g.productions)
    (hc : c ∈ lookahead (.of g) p) : (build g).get? p.left c = some p := by
  obtain ⟨i, hi⟩ := List.mem_iff_getElem?.1 hp
  have hmem := mem_entries_build.2 ⟨p, hi, rfl, hc⟩
  have hlength := length_entries_le h p.left c
  rw [get?]
  match hentries : (build g).entries p.left c, hlength with
  | [], _ =>
      rw [hentries] at hmem
      cases hmem
  | [j], _ =>
      rw [hentries, List.mem_singleton] at hmem
      rw [← hmem]
      exact hi

/-! ### Soundness -/

/-- What a step can be. -/
inductive Stepped (t : PredictiveTable) : Parse → ParseStep Parse → Prop
  | replaces {p : Production} {stack rest : Word} : p ∈ t.grammar.productions →
      Stepped t ⟨p.left :: stack, rest⟩ (.next ⟨p.right ++ stack, rest⟩)
  | reads {c : Char} {stack rest : Word} : isTerminal c = true →
      Stepped t ⟨c :: stack, c :: rest⟩ (.next ⟨stack, rest⟩)
  | accepts : Stepped t ⟨[], []⟩ (.verdict true)
  | rejects {s : Parse} : Stepped t s (.verdict false)

theorem stepped (t : PredictiveTable) (s : Parse) : Stepped t s (t.step s) := by
  obtain ⟨stack, rest⟩ := s
  cases stack with
  | nil =>
      cases rest with
      | nil => exact .accepts
      | cons c rest => exact .rejects
  | cons top stack =>
      cases rest with
      | nil => exact .rejects
      | cons c rest =>
          simp only [step]
          split
          · split
            next p hp =>
              obtain ⟨hmem, rfl⟩ := of_get? hp
              exact .replaces hmem
            next => exact .rejects
          next hvariable =>
            split
            next htop =>
              subst htop
              exact .reads (by simp [isTerminal, hvariable])
            next => exact .rejects

/-- What has been read, and then what is expected, is derived from the start variable and the end marker. -/
def Expects (g : Grammar) (w : Word) (s : Parse) : Prop :=
  ∃ x, x.all isTerminal = true ∧ x ++ s.rest = w ++ [endMarker] ∧ g.Derives [g.start, endMarker] (x ++ s.stack)

theorem expects_start (g : Grammar) (w : Word) : Expects g w ((build g).start w) := ⟨[], rfl, rfl, .refl⟩

theorem Expects.next (h : Expects t.grammar w s) (hstep : t.step s = .next s') : Expects t.grammar w s' := by
  obtain ⟨x, hterminal, hrest, hderives⟩ := h
  have hstepped := stepped t s
  rw [hstep] at hstepped
  cases hstepped with
  | @replaces p stack _ hp =>
      refine ⟨x, hterminal, hrest, ?_⟩
      have hnext := hderives.step (.intro x stack p hp)
      rwa [List.append_assoc] at hnext
  | @reads c stack rest hc =>
      refine ⟨x ++ [c], ?_, ?_, ?_⟩
      · simp [hterminal, hc]
      · rwa [List.append_assoc]
      · rwa [List.append_assoc]

theorem Expects.generates (h : Expects t.grammar w s) (hstep : t.step s = .verdict true) :
    t.grammar.Generates w := by
  obtain ⟨x, hterminal, hrest, hderives⟩ := h
  have hstepped := stepped t s
  rw [hstep] at hstepped
  cases hstepped with
  | accepts =>
      rw [List.append_nil] at hrest hderives
      subst hrest
      obtain ⟨d, hgrown⟩ := (Grammar.derives_iff_grown hterminal).1 hderives
      obtain ⟨y, z, heq, hy, hz⟩ := Grammar.Grown.split (u := [t.grammar.start]) hgrown
      -- The tree of the end marker is its leaf.
      have hleaf : t.grammar.Grown 0 [endMarker] z := Grammar.Grown.terminal_of_singleton (by decide) hz
      have hmarker : z = [endMarker] := by
        cases hleaf with
        | leaf _ h =>
            cases h
            rfl
      rw [hmarker] at heq
      obtain rfl := List.append_cancel_right heq
      exact ⟨hy.all_isTerminal, hy.derives⟩

/-- Acceptance, after however many steps, means that the start variable derives the input. -/
theorem generates_of_run (hrun : run (build g).step n ((build g).start w) = some true) : g.Generates w := by
  obtain ⟨s, hs, hstep⟩ := ParseStep.exists_verdict_of_run (I := Expects g w)
    (fun _ _ => Expects.next (t := build g)) (expects_start g w) hrun
  exact hs.generates hstep

/-! ### Completeness -/

/-- The symbol that comes next chooses the production whose tree comes next. -/
theorem mem_lookahead (hp : p ∈ g.productions) (hderives : g.Derives [g.start] (before ++ p.left :: after))
    (hx : g.Grown d p.right x) (hz : g.Grown e after z) (hc : (x ++ (z ++ [endMarker])).head? = some c) :
    c ∈ lookahead (.of g) p := by
  rw [mem_lookahead_iff hp]
  cases x with
  | cons b x =>
      obtain rfl := Option.some.inj hc
      exact Or.inl hx.mem_firstOf
  | nil => exact Or.inr ⟨hx.mem_nullable, Grammar.mem_followOf_of_derives hderives rfl hz hc⟩

theorem step_replaces (h : (build g).firstConflict? = none) (hp : p ∈ g.productions)
    (hc : c ∈ lookahead (.of g) p) :
    (build g).step ⟨p.left :: stack, c :: rest⟩ = .next ⟨p.right ++ stack, c :: rest⟩ := by
  simp only [step, p.left_isVariable, get?_of_mem_lookahead h hp hc, if_true]

theorem step_reads (t : PredictiveTable) (hc : isTerminal c = true) :
    t.step ⟨c :: stack, c :: rest⟩ = .next ⟨stack, rest⟩ := by
  have hvariable : isVariable c = false := by rwa [isTerminal, Bool.not_eq_true'] at hc
  simp [step, hvariable]

/-- Without conflicts, the parser goes through a forest to whatever it comes to behind it. -/
theorem exists_run_of_grown (h : (build g).firstConflict? = none) (hgrown : g.Grown d u x)
    (hderives : g.Derives [g.start] (before ++ u ++ after)) (hz : g.Grown e after z)
    (hrun : run (build g).step n ⟨stack, z ++ [endMarker]⟩ = some accepted) :
    ∃ n, run (build g).step n ⟨u ++ stack, x ++ (z ++ [endMarker])⟩ = some accepted := by
  induction hgrown generalizing before after z e stack n with
  | nil => exact ⟨n, hrun⟩
  | @leaf d c u x hc _ ih =>
      rw [List.append_cons] at hderives
      obtain ⟨m, hm⟩ := ih hderives hz hrun
      exact ⟨m + 1, (run_succ_of_next (step_reads _ hc)).trans hm⟩
  | @node d p u x y hp hright hu ih ih' =>
      have hbefore : g.Derives [g.start] (before ++ p.left :: (u ++ after)) := by
        rwa [List.append_assoc, List.cons_append] at hderives
      have hafter : g.Grown (max (d + 1) e) (u ++ after) (y ++ z) :=
        (hu.mono (Nat.le_max_left (d + 1) e)).append (hz.mono (Nat.le_max_right (d + 1) e))
      -- What comes after the first tree, the first tree, and the step that begins it.
      rw [List.append_cons] at hderives
      obtain ⟨m, hm⟩ := ih' hderives hz hrun
      rw [← List.append_assoc] at hm
      have hstep := hbefore.step (.intro before (u ++ after) p hp)
      obtain ⟨k, hk⟩ := ih hstep hafter hm
      obtain ⟨c, hc⟩ : ∃ c, (x ++ (y ++ z ++ [endMarker])).head? = some c :=
        Option.isSome_iff_exists.1 (by simp)
      obtain ⟨rest, hrest⟩ := List.head?_eq_some_iff.1 hc
      have hreplaces : (build g).step ⟨p.left :: (u ++ stack), c :: rest⟩ =
          .next ⟨p.right ++ (u ++ stack), c :: rest⟩ :=
        step_replaces h hp (mem_lookahead hp hbefore hright hafter hc)
      refine ⟨k + 1, ?_⟩
      rw [List.append_assoc x, ← List.append_assoc y, hrest, List.cons_append, run_succ_of_next hreplaces, ← hrest]
      exact hk

/-- Without conflicts, every word that the start variable derives is accepted. -/
theorem exists_run_of_generates (h : (build g).firstConflict? = none) (hw : g.Generates w) :
    ∃ n, run (build g).step n ((build g).start w) = some true := by
  obtain ⟨hterminal, hderives⟩ := hw
  obtain ⟨d, hgrown⟩ := (Grammar.derives_iff_grown hterminal).1 hderives
  have hstart : g.Derives [g.start] ([] ++ [g.start] ++ []) := .refl
  have hrun : run (build g).step 2 ⟨[endMarker], [] ++ [endMarker]⟩ = some true := rfl
  exact exists_run_of_grown h hgrown hstart (.nil (d := 0)) hrun

theorem eq_build_of_predictiveTable (h : g.predictiveTable = .ok t) :
    t = build g ∧ (build g).firstConflict? = none := by
  unfold Grammar.predictiveTable at h
  cases hconflict : (build g).firstConflict? with
  | some conflict =>
      simp only [hconflict] at h
      cases h
  | none =>
      simp only [hconflict] at h
      exact ⟨(Except.ok.inj h).symm, rfl⟩

end LanguageTheory.PredictiveTable
