import LanguageTheory.Grammar.FirstFollow
import LanguageTheory.Proofs.Finite.Exploration
import LanguageTheory.Proofs.Finite.Saturation
import LanguageTheory.Proofs.Grammar.Derivation

/-! Nullable variables, FIRST and FOLLOW are exact. They are computed as reachability, and each step of it
is a piece of a derivation of sentential forms. Conversely, what they say of a sentential form passes from
the end of a step of a derivation back to its beginning, so that it passes along whole derivations. Nothing
has to be derivable to the end: variables that derive no terminal word count like all others. -/

namespace LanguageTheory.Grammar

variable {g : Grammar} {u v w x y z before after : Word} {a b c : Char} {d : Nat} {p : Production}

/-! ### The empty word -/

theorem mem_nullable_of_right (hp : p ∈ g.productions) (hright : ∀ c ∈ p.right, c ∈ g.nullable) :
    p.left ∈ g.nullable := by
  simp only [nullable, Ascending.mem_ofList, Rule.mem_consequences] at hright ⊢
  exact Rule.Derives.intro ⟨p.right, p.left⟩ (List.mem_map_of_mem hp) hright

theorem forall_mem_nullable_of_step (hstep : g.Step u v) (h : ∀ c ∈ v, c ∈ g.nullable) :
    ∀ c ∈ u, c ∈ g.nullable := by
  obtain ⟨before, after, p, hp⟩ := hstep
  rw [List.append_assoc, List.forall_mem_append, List.forall_mem_append] at h
  obtain ⟨hbefore, hright, hafter⟩ := h
  exact List.forall_mem_append.2 ⟨hbefore, List.forall_mem_cons.2 ⟨mem_nullable_of_right hp hright, hafter⟩⟩

theorem derives_nil_of_forall (h : ∀ c ∈ u, g.Derives [c] []) : g.Derives u [] := by
  induction u with
  | nil => exact .refl
  | cons c u ih =>
      obtain ⟨hc, hu⟩ := List.forall_mem_cons.1 h
      exact hc.append (ih hu)

theorem derives_nil_of_mem_nullable (h : c ∈ g.nullable) : g.Derives [c] [] := by
  rw [nullable, Ascending.mem_ofList, Rule.mem_consequences] at h
  induction h with
  | intro rule hrule _ ih =>
      obtain ⟨p, hp, rfl⟩ := List.mem_map.1 hrule
      exact (derives_of_mem hp).trans (derives_nil_of_forall ih)

/-- The symbols of a string are nullable if the string derives the empty word, and only then. -/
theorem forall_mem_nullable_iff : (∀ c ∈ u, c ∈ g.nullable) ↔ g.Derives u [] := by
  constructor
  · exact fun h => derives_nil_of_forall fun c hc => derives_nil_of_mem_nullable (h c hc)
  · exact fun h => h.backward (fun hstep => forall_mem_nullable_of_step hstep) (List.forall_mem_nil _)

theorem mem_nullable_iff : c ∈ g.nullable ↔ g.Derives [c] [] := by
  rw [← forall_mem_nullable_iff, List.forall_mem_singleton]

theorem Grown.mem_nullable (h : Grown g d u []) : ∀ c ∈ u, c ∈ g.nullable := forall_mem_nullable_iff.2 h.derives

/-! ### First symbols -/

theorem mem_of_mem_leading {nullable : Ascending Char} (h : c ∈ leading nullable w) : c ∈ w := by
  induction w with
  | nil => cases h
  | cons a w ih =>
      unfold leading at h
      split at h
      · exact List.mem_cons.2 ((List.mem_cons.1 h).imp_right ih)
      · exact List.mem_singleton.1 h ▸ List.mem_cons_self

theorem mem_leading_cons (nullable : Ascending Char) (c : Char) (w : Word) : c ∈ leading nullable (c :: w) := by
  unfold leading
  split
  · exact List.mem_cons_self
  · exact List.mem_singleton_self c

/-- A symbol comes to stand in front of two strings if it does in the first one, or in the second one once
the first has vanished. -/
theorem mem_leading_append {nullable : Ascending Char} : c ∈ leading nullable (u ++ v) ↔
    c ∈ leading nullable u ∨ (∀ b ∈ u, b ∈ nullable) ∧ c ∈ leading nullable v := by
  induction u with
  | nil => simp [leading]
  | cons b u ih =>
      rw [List.cons_append, leading, leading]
      by_cases hb : b ∈ nullable
      · rw [if_pos hb, if_pos hb, List.mem_cons, ih, List.mem_cons, List.forall_mem_cons, and_iff_right hb, or_assoc]
      · rw [if_neg hb, if_neg hb, List.forall_mem_cons]
        exact (or_iff_left fun h => hb h.1.1).symm

theorem exists_of_mem_leading {nullable : Ascending Char} (h : c ∈ leading nullable u) :
    ∃ before after, u = before ++ c :: after ∧ ∀ b ∈ before, b ∈ nullable := by
  induction u with
  | nil => cases h
  | cons b u ih =>
      rw [leading] at h
      by_cases hb : b ∈ nullable
      · rw [if_pos hb] at h
        rcases List.mem_cons.1 h with rfl | h
        · exact ⟨[], u, rfl, fun b hb => (List.not_mem_nil hb).elim⟩
        · obtain ⟨before, after, rfl, hbefore⟩ := ih h
          exact ⟨b :: before, after, rfl, List.forall_mem_cons.2 ⟨hb, hbefore⟩⟩
      · rw [if_neg hb, List.mem_singleton] at h
        exact ⟨[], u, by rw [h]; rfl, fun b hb => (List.not_mem_nil hb).elim⟩

theorem mem_fronts {nullable : Ascending Char} :
    b ∈ g.fronts nullable a ↔ ∃ p ∈ g.productions, p.left = a ∧ b ∈ leading nullable p.right := by
  simp only [fronts, productionsFor, List.mem_flatMap, List.mem_filter, beq_iff_eq, and_assoc]

theorem volume_eq (g : Grammar) : g.volume = (g.productions.flatMap (·.right)).length := by
  rw [volume, ← List.sum_eq_foldl_nat, List.length_flatMap]
  rfl

theorem mem_firstOf : c ∈ g.firstOf g.nullable w ↔
    isTerminal c = true ∧ ∃ s ∈ leading g.nullable w, Reaches (g.fronts g.nullable) s c := by
  have hstarts : ∀ a ∈ leading g.nullable w, a ∈ (w ++ g.productions.flatMap (·.right)).toFinset :=
    fun a ha => List.mem_toFinset.2 (List.mem_append_left _ (mem_of_mem_leading ha))
  rw [firstOf, Ascending.mem_ofList, List.mem_filter, and_comm, mem_explore_iff hstarts]
  · intro a _ b hb
    obtain ⟨p, hp, _, hb⟩ := mem_fronts.1 hb
    exact List.mem_toFinset.2 (List.mem_append_right _ (List.mem_flatMap.2 ⟨p, hp, mem_of_mem_leading hb⟩))
  · rw [volume_eq, ← List.length_append]
    exact List.toFinset_card_le _

theorem mem_firstOf_append : c ∈ g.firstOf g.nullable (u ++ v) ↔
    c ∈ g.firstOf g.nullable u ∨ (∀ b ∈ u, b ∈ g.nullable) ∧ c ∈ g.firstOf g.nullable v := by
  simp only [mem_firstOf, mem_leading_append, or_and_right, exists_or, and_or_left, and_assoc, exists_and_left]
  exact or_congr_right and_left_comm

theorem mem_firstOf_of_terminal (hc : isTerminal c = true) : c ∈ g.firstOf g.nullable (c :: w) :=
  mem_firstOf.2 ⟨hc, c, mem_leading_cons _ c w, .refl⟩

theorem mem_firstOf_left (hp : p ∈ g.productions) (h : c ∈ g.firstOf g.nullable p.right) :
    c ∈ g.firstOf g.nullable [p.left] := by
  obtain ⟨hc, s, hs, hreaches⟩ := mem_firstOf.1 h
  exact mem_firstOf.2 ⟨hc, p.left, mem_leading_cons _ _ _, hreaches.head (mem_fronts.2 ⟨p, hp, rfl, hs⟩)⟩

theorem mem_firstOf_of_step (hstep : g.Step u v) (h : c ∈ g.firstOf g.nullable v) : c ∈ g.firstOf g.nullable u := by
  obtain ⟨before, after, p, hp⟩ := hstep
  rw [List.append_assoc, mem_firstOf_append, mem_firstOf_append] at h
  rw [List.append_cons, List.append_assoc, mem_firstOf_append, mem_firstOf_append, List.forall_mem_singleton]
  refine h.imp_right (And.imp_right ?_)
  exact Or.imp (mem_firstOf_left hp) (And.imp_left (mem_nullable_of_right hp))

/-- What comes to stand in front of a string stands in front of something that the string derives. -/
theorem exists_derives_of_mem_leading (h : c ∈ leading g.nullable u) : ∃ v, g.Derives u (c :: v) := by
  obtain ⟨before, after, rfl, hbefore⟩ := exists_of_mem_leading h
  exact ⟨after, (forall_mem_nullable_iff.1 hbefore).append .refl⟩

theorem exists_derives_of_reaches_fronts (h : Reaches (g.fronts g.nullable) a c) : ∃ v, g.Derives [a] (c :: v) := by
  induction h with
  | refl => exact ⟨[], .refl⟩
  | step _ hc ih =>
      obtain ⟨v, hv⟩ := ih
      obtain ⟨p, hp, rfl, hfront⟩ := mem_fronts.1 hc
      obtain ⟨w, hw⟩ := exists_derives_of_mem_leading hfront
      exact ⟨w ++ v, hv.trans (((derives_of_mem hp).trans hw).append .refl)⟩

/-- FIRST of a string is the set of the terminals that begin what the string derives. -/
theorem mem_firstOf_iff : c ∈ g.firstOf g.nullable u ↔ isTerminal c = true ∧ ∃ v, g.Derives u (c :: v) := by
  constructor
  · intro h
    obtain ⟨hc, s, hs, hreaches⟩ := mem_firstOf.1 h
    obtain ⟨v, hv⟩ := exists_derives_of_mem_leading hs
    obtain ⟨w, hw⟩ := exists_derives_of_reaches_fronts hreaches
    exact ⟨hc, w ++ v, hv.trans (hw.append .refl)⟩
  · rintro ⟨hc, v, hv⟩
    exact hv.backward (fun hstep => mem_firstOf_of_step hstep) (mem_firstOf_of_terminal hc)

theorem Grown.mem_firstOf (h : Grown g d u (c :: x)) : c ∈ g.firstOf g.nullable u := by
  have hc := h.all_isTerminal
  rw [List.all_cons, Bool.and_eq_true] at hc
  exact mem_firstOf_iff.2 ⟨hc.1, x, h.derives⟩

/-! ### Following symbols -/

theorem mem_rests_iff : w ∈ rests c u ↔ ∃ before, u = before ++ c :: w := by
  induction u with
  | nil => simp [rests]
  | cons a u ih =>
      have hlater : (∃ before, a :: u = before ++ c :: w) ↔ (a = c ∧ u = w) ∨ w ∈ rests c u := by
        rw [ih]
        constructor
        · rintro ⟨_ | ⟨_, before⟩, h⟩
          · exact Or.inl (List.cons.inj h)
          · exact Or.inr ⟨before, (List.cons.inj h).2⟩
        · rintro (⟨rfl, rfl⟩ | ⟨before, rfl⟩)
          · exact ⟨[], rfl⟩
          · exact ⟨a :: before, rfl⟩
      rw [hlater, rests]
      by_cases ha : a = c
      · rw [if_pos ha, List.mem_cons, and_iff_right ha, eq_comm]
      · rw [if_neg ha]
        exact (or_iff_right fun h => ha h.1).symm

theorem mem_rests (before after : Word) (c : Char) : after ∈ rests c (before ++ c :: after) :=
  mem_rests_iff.2 ⟨before, rfl⟩

theorem mem_hosts {nullable : Ascending Char} : a ∈ g.hosts nullable c ↔
    ∃ p ∈ g.productions, (∃ w ∈ rests c p.right, ∀ b ∈ w, b ∈ nullable) ∧ p.left = a := by
  simp only [hosts, List.mem_filterMap, Option.ite_none_right_eq_some, List.any_eq_true, List.all_eq_true,
    decide_eq_true_eq, Option.some.injEq]

theorem mem_neighbours {nullable : Ascending Char} : b ∈ g.neighbours nullable c ↔
    (c = g.start ∧ b = endMarker) ∨
      ∃ p ∈ g.productions, ∃ w ∈ rests c p.right, b ∈ g.firstOf nullable w := by
  rw [neighbours, List.mem_append, List.mem_flatMap]
  refine or_congr ?_ (exists_congr fun p => and_congr_right fun _ => List.mem_flatMap)
  split
  next hc => rw [List.mem_singleton, and_iff_right hc]
  next hc => exact iff_of_false List.not_mem_nil fun h => hc h.1

theorem mem_followOf {nullable : Ascending Char} : b ∈ g.followOf nullable c ↔
    ∃ a, Reaches (g.hosts nullable) c a ∧ b ∈ g.neighbours nullable a := by
  have hstarts : ∀ a ∈ [c], a ∈ insert c (g.productions.map (·.left)).toFinset := by
    intro a ha
    rw [List.mem_singleton.1 ha]
    exact Finset.mem_insert_self _ _
  rw [followOf, Ascending.mem_ofList, List.mem_flatMap]
  refine exists_congr fun a => and_congr_left fun _ => ?_
  rw [mem_explore_iff hstarts]
  · simp only [List.mem_singleton, exists_eq_left]
  · intro s _ b hb
    obtain ⟨p, hp, _, rfl⟩ := mem_hosts.1 hb
    exact Finset.mem_insert_of_mem (List.mem_toFinset.2 (List.mem_map_of_mem hp))
  · refine (Finset.card_insert_le _ _).trans (Nat.succ_le_succ ?_)
    exact (List.toFinset_card_le _).trans (List.length_map _).le

theorem isTerminal_of_mem_followOf (h : b ∈ g.followOf g.nullable c) : isTerminal b = true := by
  obtain ⟨_, _, hb⟩ := mem_followOf.1 h
  rcases mem_neighbours.1 hb with ⟨_, rfl⟩ | ⟨_, _, _, _, hfirst⟩
  · decide
  · exact (mem_firstOf.1 hfirst).1

theorem mem_followOf_of_host {nullable : Ascending Char} (ha : a ∈ g.hosts nullable c)
    (hb : b ∈ g.followOf nullable a) : b ∈ g.followOf nullable c := by
  obtain ⟨e, hreaches, he⟩ := mem_followOf.1 hb
  exact mem_followOf.2 ⟨e, hreaches.head ha, he⟩

theorem append_eq_append_cons (h : x ++ y = u ++ c :: v) :
    (∃ t, x = u ++ c :: t ∧ v = t ++ y) ∨ ∃ t, u = x ++ t ∧ y = t ++ c :: v := by
  rcases List.append_eq_append_iff.1 h with ⟨t, rfl, rfl⟩ | ⟨t, rfl, ht⟩
  · exact Or.inr ⟨t, rfl, rfl⟩
  · cases t with
    | nil => exact Or.inr ⟨[], by rw [List.append_nil, List.append_nil], ht.symm⟩
    | cons e t =>
        obtain ⟨rfl, rfl⟩ := List.cons.inj ht
        exact Or.inl ⟨t, rfl, rfl⟩

theorem mem_followOf_start (g : Grammar) : endMarker ∈ g.followOf g.nullable g.start :=
  mem_followOf.2 ⟨_, .refl, mem_neighbours.2 (Or.inl ⟨rfl, rfl⟩)⟩

/-- What comes after a symbol in a right-hand side begins what the rest of it derives, or comes after its
variable where the rest vanishes. -/
theorem mem_followOf_of_right (hp : p ∈ g.productions) (hright : p.right = u ++ c :: v)
    (hb : b ∈ g.firstOf g.nullable v ∨ (∀ e ∈ v, e ∈ g.nullable) ∧ b ∈ g.followOf g.nullable p.left) :
    b ∈ g.followOf g.nullable c := by
  have hrests : v ∈ rests c p.right := mem_rests_iff.2 ⟨u, hright⟩
  rcases hb with hfirst | ⟨hnullable, hfollow⟩
  · exact mem_followOf.2 ⟨c, .refl, mem_neighbours.2 (Or.inr ⟨p, hp, v, hrests, hfirst⟩)⟩
  · exact mem_followOf_of_host (mem_hosts.2 ⟨p, hp, ⟨v, hrests, hnullable⟩, rfl⟩) hfollow

/-- What comes after a symbol in a string derived from a variable is in its FOLLOW set. Where the symbol
comes last, this is what comes after the variable. -/
theorem mem_followOf_of_derives_variable (h : g.Derives [a] w) (hw : w = u ++ c :: v)
    (hb : b ∈ g.firstOf g.nullable v ∨ (∀ e ∈ v, e ∈ g.nullable) ∧ b ∈ g.followOf g.nullable a) :
    b ∈ g.followOf g.nullable c := by
  -- Over the derivation: each step goes back to a symbol of the string before it, which may be another one.
  induction h generalizing u v c with
  | refl =>
      rcases List.append_eq_singleton_iff.1 hw.symm with ⟨rfl, hcons⟩ | ⟨_, hcons⟩
      · obtain ⟨rfl, rfl⟩ := List.cons.inj hcons
        refine hb.elim (fun hfirst => ?_) And.right
        obtain ⟨_, s, hs, _⟩ := mem_firstOf.1 hfirst
        exact (List.not_mem_nil hs).elim
      · cases hcons
  | step _ hstep ih =>
      have hback := hstep
      obtain ⟨before, after, p, hp⟩ := hstep
      rcases append_eq_append_cons hw with ⟨t, hbefore, rfl⟩ | ⟨t, rfl, rfl⟩
      · rcases append_eq_append_cons hbefore with ⟨s, rfl, rfl⟩ | ⟨s, rfl, hright⟩
        · -- The symbol stands before the variable that the step replaces.
          have hstep : g.Step (s ++ p.left :: after) (s ++ p.right ++ after) := .intro s after p hp
          refine ih (u := u) (v := s ++ p.left :: after) (by rw [List.append_assoc, List.cons_append]) ?_
          exact hb.imp (mem_firstOf_of_step hstep) (And.imp_left (forall_mem_nullable_of_step hstep))
        · -- The symbol stands in the right-hand side that the step puts in.
          apply mem_followOf_of_right hp hright
          rw [mem_firstOf_append, List.forall_mem_append] at hb
          rcases hb with (hfirst | ⟨ht, hfirst⟩) | ⟨⟨ht, hafter⟩, hfollow⟩
          · exact Or.inl hfirst
          · exact Or.inr ⟨ht, ih rfl (Or.inl hfirst)⟩
          · exact Or.inr ⟨ht, ih rfl (Or.inr ⟨hafter, hfollow⟩)⟩
      · -- The symbol stands after the variable.
        refine ih (u := before ++ p.left :: t) ?_ hb
        rw [List.append_assoc, List.cons_append]

/-- What comes after a symbol in a string derived from the start variable is in its FOLLOW set. -/
theorem mem_followOf_of_derives (h : g.Derives [g.start] w) (hw : w = u ++ c :: v) (hz : Grown g d v z)
    (hb : (z ++ [endMarker]).head? = some b) : b ∈ g.followOf g.nullable c := by
  apply mem_followOf_of_derives_variable h hw
  cases z with
  | nil =>
      obtain rfl := Option.some.inj hb
      exact Or.inr ⟨hz.mem_nullable, mem_followOf_start g⟩
  | cons e z =>
      obtain rfl := Option.some.inj hb
      exact Or.inl hz.mem_firstOf

/-- Something that a host derives ends in the symbol. -/
theorem exists_derives_of_reaches_hosts (h : Reaches (g.hosts g.nullable) c a) : ∃ u, g.Derives [a] (u ++ [c]) := by
  induction h with
  | refl => exact ⟨[], .refl⟩
  | step _ ha ih =>
      obtain ⟨u, hu⟩ := ih
      obtain ⟨p, hp, ⟨w, hw, hnullable⟩, rfl⟩ := mem_hosts.1 ha
      obtain ⟨before, hright⟩ := mem_rests_iff.1 hw
      have hderives := derives_of_mem hp
      have hrest := hu.append (forall_mem_nullable_iff.1 hnullable)
      rw [hright] at hderives
      refine ⟨before ++ u, hderives.trans ?_⟩
      simpa using (Derives.refl (u := before)).append hrest

/-- FOLLOW of a symbol is the set of the terminals that come directly after it in something that a variable
derives, and of the end marker if the symbol ends something that the start variable derives. -/
theorem mem_followOf_iff : b ∈ g.followOf g.nullable c ↔
    (b = endMarker ∧ ∃ u, g.Derives [g.start] (u ++ [c])) ∨
      isTerminal b = true ∧ ∃ a ∈ g.variableSymbols, ∃ u v, g.Derives [a] (u ++ c :: b :: v) := by
  constructor
  · intro h
    obtain ⟨a, hreaches, hb⟩ := mem_followOf.1 h
    obtain ⟨u, hu⟩ := exists_derives_of_reaches_hosts hreaches
    rcases mem_neighbours.1 hb with ⟨rfl, rfl⟩ | ⟨p, hp, w, hw, hfirst⟩
    · exact Or.inl ⟨rfl, u, hu⟩
    · obtain ⟨before, hright⟩ := mem_rests_iff.1 hw
      obtain ⟨hterminal, v, hv⟩ := mem_firstOf_iff.1 hfirst
      have hderives := derives_of_mem hp
      have hleft : p.left ∈ g.variableSymbols := mem_variableSymbols.2 (Or.inr ⟨p, hp, Or.inl rfl⟩)
      rw [hright] at hderives
      refine Or.inr ⟨hterminal, p.left, hleft, before ++ u, v, hderives.trans ?_⟩
      simpa using (Derives.refl (u := before)).append (hu.append hv)
  · rintro (⟨rfl, u, hu⟩ | ⟨hterminal, a, _, u, v, hderives⟩)
    · exact mem_followOf_of_derives_variable hu rfl (Or.inr ⟨List.forall_mem_nil _, mem_followOf_start g⟩)
    · exact mem_followOf_of_derives_variable hderives rfl (Or.inl (mem_firstOf_of_terminal hterminal))

/-! ### The sets of a grammar -/

theorem lookup_map_pair {β : Type} (f : Char → β) {l : List Char} (h : c ∈ l) :
    (l.map fun v => (v, f v)).lookup c = some (f c) := by
  induction l with
  | nil => cases h
  | cons a l ih =>
      rw [List.map_cons, List.lookup_cons]
      by_cases hc : c = a
      · subst hc
        rw [beq_self_eq_true]
      · rw [beq_false_of_ne hc]
        exact ih ((List.mem_cons.1 h).resolve_left hc)

theorem first_of (hc : c ∈ g.variableSymbols) : (FirstFollow.of g).first c = g.firstOf g.nullable [c] := by
  show ((g.variableSymbols.toList.map fun v => (v, g.firstOf g.nullable [v])).lookup c).getD ∅ = _
  rw [lookup_map_pair _ hc, Option.getD_some]

theorem follow_of (hc : c ∈ g.variableSymbols) :
    (FirstFollow.of g).follow c = g.followOf g.nullable c := by
  show ((g.variableSymbols.toList.map fun v => (v, g.followOf g.nullable v)).lookup c).getD ∅ = _
  rw [lookup_map_pair _ hc, Option.getD_some]

theorem isNullable_of : (FirstFollow.of g).isNullable u = true ↔ g.Derives u [] := by
  show (u.all fun c => decide (c ∈ g.nullable)) = true ↔ _
  simp only [List.all_eq_true, decide_eq_true_eq, forall_mem_nullable_iff]

/-- Nullable variables, FIRST and FOLLOW are what derivations of sentential forms make them: a string is
nullable if it derives the empty word, FIRST holds the terminals that begin what a string derives, and FOLLOW
the terminals that come directly after a variable in what some variable derives. The end marker is in FOLLOW
of the variables that end something that the start variable derives. -/
theorem firstFollow_exact (g : Grammar) :
    (∀ v, v ∈ (FirstFollow.of g).nullable ↔ g.Derives [v] []) ∧
    (∀ u, (FirstFollow.of g).isNullable u = true ↔ g.Derives u []) ∧
    (∀ u a, a ∈ (FirstFollow.of g).firstOf u ↔ isTerminal a = true ∧ ∃ v, g.Derives u (a :: v)) ∧
    ∀ v ∈ g.variableSymbols,
      (∀ a, a ∈ (FirstFollow.of g).first v ↔ isTerminal a = true ∧ ∃ w, g.Derives [v] (a :: w)) ∧
      (∀ a, a ≠ endMarker → (a ∈ (FirstFollow.of g).follow v ↔
        isTerminal a = true ∧ ∃ b ∈ g.variableSymbols, ∃ x y, g.Derives [b] (x ++ v :: a :: y))) ∧
      (endMarker ∈ (FirstFollow.of g).follow v ↔ ∃ x, g.Derives [g.start] (x ++ [v])) := by
  refine ⟨fun v => mem_nullable_iff, fun u => isNullable_of, fun u a => mem_firstOf_iff, fun v hv => ?_⟩
  rw [first_of hv, follow_of hv]
  refine ⟨fun a => mem_firstOf_iff, fun a ha => ?_, ?_⟩
  · rw [mem_followOf_iff]
    exact or_iff_right fun h => ha h.1
  · rw [mem_followOf_iff]
    refine ⟨?_, fun h => Or.inl ⟨rfl, h⟩⟩
    rintro (⟨_, h⟩ | ⟨_, b, hb, x, y, hderives⟩)
    · exact h
    · -- no variable derives anything with an end marker in it
      have hb : endMarker ∉ [b] := by
        intro hmem
        have hvariable := isVariable_of_mem_variableSymbols hb
        rw [← List.mem_singleton.1 hmem] at hvariable
        exact absurd hvariable (by decide)
      refine absurd ?_ (endMarker_not_mem_of_derives hderives hb)
      exact List.mem_append_right x (List.mem_cons_of_mem v List.mem_cons_self)

/-- Left-recursive in `A`, which can vanish. `U` is not reachable and derives no terminal word. -/
def vanishing : Grammar where
  start := 'S'
  productions := [⟨'S', ['b', 'A'], Eq.refl true, Eq.refl true⟩, ⟨'A', ['A', 'a'], Eq.refl true, Eq.refl true⟩,
    ⟨'A', [], Eq.refl true, Eq.refl true⟩, ⟨'U', ['A', 'A', 'c', 'U'], Eq.refl true, Eq.refl true⟩]
  start_isVariable := Eq.refl true
  nodup := by decide

theorem firstFollow_exact_vanishing :
    ('A' ∈ vanishing.variableSymbols ∧ 'c' ≠ endMarker ∧ 'b' ≠ endMarker) ∧
      vanishing.Derives ['A'] [] ∧ (∃ w, vanishing.Derives ['A', 'A', 'U'] ('c' :: w)) ∧
      (∃ b ∈ vanishing.variableSymbols, ∃ x y, vanishing.Derives [b] (x ++ 'A' :: 'c' :: y)) ∧
      (¬∃ b ∈ vanishing.variableSymbols, ∃ x y, vanishing.Derives [b] (x ++ 'A' :: 'b' :: y)) ∧
      ∃ x, vanishing.Derives ['S'] (x ++ ['A']) := by
  have hA : 'A' ∈ vanishing.variableSymbols := by decide +kernel
  obtain ⟨hnullable, _, hfirstOf, hsets⟩ := firstFollow_exact vanishing
  obtain ⟨_, hfollow, hlast⟩ := hsets 'A' hA
  refine ⟨⟨hA, by decide, by decide⟩, (hnullable 'A').1 (by decide +kernel), ?_, ?_, ?_, ?_⟩
  · exact ((hfirstOf ['A', 'A', 'U'] 'c').1 (by decide +kernel)).2
  · exact ((hfollow 'c' (by decide)).1 (by decide +kernel)).2
  · exact fun h => absurd ((hfollow 'b' (by decide)).2 ⟨by decide, h⟩) (by decide +kernel)
  · exact hlast.1 (by decide +kernel)

end LanguageTheory.Grammar
