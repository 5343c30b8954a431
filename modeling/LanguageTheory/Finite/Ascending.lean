/-! Finite sets over an ordered type, held as their strictly ascending list of members. Each set has
one such list, so equality of sets is equality of the lists, and a set is determined by membership
(`Ascending.ext`). -/

namespace LanguageTheory

/-- A finite set, listed in ascending order. -/
structure Ascending (α : Type u) [LT α] where
  toList : List α
  pairwise : toList.Pairwise (· < ·)
deriving DecidableEq

namespace Ascending

variable {α : Type u} [LT α]

instance : Membership α (Ascending α) := ⟨fun s a => a ∈ s.toList⟩

instance [DecidableEq α] (a : α) (s : Ascending α) : Decidable (a ∈ s) :=
  inferInstanceAs (Decidable (a ∈ s.toList))

instance [Hashable α] : Hashable (Ascending α) := ⟨fun s => hash s.toList⟩

instance : EmptyCollection (Ascending α) := ⟨⟨[], .nil⟩⟩

instance : Inhabited (Ascending α) := ⟨∅⟩

theorem mem_def {a : α} {s : Ascending α} : a ∈ s ↔ a ∈ s.toList := Iff.rfl

theorem nodup_toList [Std.Irrefl (α := α) (· < ·)] (s : Ascending α) : s.toList.Nodup := by
  refine s.pairwise.imp fun hlt heq => ?_
  subst heq
  exact Std.Irrefl.irrefl _ hlt

@[simp] theorem toList_empty : (∅ : Ascending α).toList = [] := rfl

@[simp] theorem not_mem_empty (a : α) : a ∉ (∅ : Ascending α) := List.not_mem_nil

def isEmpty (s : Ascending α) : Bool := s.toList.isEmpty

def size (s : Ascending α) : Nat := s.toList.length

/-- Whether the two sets have a member in common. -/
def meets [DecidableEq α] (s t : Ascending α) : Bool := s.toList.any (· ∈ t)

theorem meets_iff [DecidableEq α] {s t : Ascending α} : s.meets t = true ↔ ∃ a, a ∈ s ∧ a ∈ t := by
  simp [meets, mem_def]

def filter (p : α → Bool) (s : Ascending α) : Ascending α := ⟨s.toList.filter p, s.pairwise.filter p⟩

@[simp] theorem mem_filter {p : α → Bool} {s : Ascending α} {a : α} :
    a ∈ s.filter p ↔ a ∈ s ∧ p a = true := List.mem_filter

def erase [DecidableEq α] (s : Ascending α) (a : α) : Ascending α := s.filter (· ≠ a)

@[simp] theorem mem_erase [DecidableEq α] {s : Ascending α} {a b : α} :
    b ∈ s.erase a ↔ b ∈ s ∧ b ≠ a := by simp [erase]

/-- Two sets with the same members are equal. -/
@[ext] theorem ext [Std.Irrefl (α := α) (· < ·)] [Trans (α := α) (· < ·) (· < ·) (· < ·)]
    {s t : Ascending α} (h : ∀ a, a ∈ s ↔ a ∈ t) :
    s = t := by
  obtain ⟨l, hl⟩ := s
  obtain ⟨m, hm⟩ := t
  have hlm : ∀ a, a ∈ l ↔ a ∈ m := h
  suffices l = m by subst this; rfl
  clear h
  have key : ∀ {x y : α}, x < y → y < x → False := fun hxy hyx =>
    Std.Irrefl.irrefl (r := (· < ·)) _ (Trans.trans hxy hyx)
  induction l generalizing m with
  | nil => exact (List.eq_nil_iff_forall_not_mem.2 fun a ha => by simpa using (hlm a).2 ha).symm
  | cons a rest ih =>
      obtain ⟨ha, hrest⟩ := List.pairwise_cons.1 hl
      cases m with
      | nil => simpa using (hlm a).1 (by simp)
      | cons b others =>
          obtain ⟨hb, hothers⟩ := List.pairwise_cons.1 hm
          have hab : a = b := by
            rcases List.mem_cons.1 ((hlm a).1 (by simp)) with h | h
            · exact h
            · rcases List.mem_cons.1 ((hlm b).2 (by simp)) with h' | h'
              · exact h'.symm
              · exact (key (hb a h) (ha b h')).elim
          subst hab
          have : rest = others := by
            refine ih hrest others hothers fun c => ⟨fun hc => ?_, fun hc => ?_⟩
            · rcases List.mem_cons.1 ((hlm c).1 (by simp [hc])) with h | h
              · exact (Std.Irrefl.irrefl (r := (· < ·)) c (h ▸ ha c hc)).elim
              · exact h
            · rcases List.mem_cons.1 ((hlm c).2 (by simp [hc])) with h | h
              · exact (Std.Irrefl.irrefl (r := (· < ·)) c (h ▸ hb c hc)).elim
              · exact h
          rw [this]

variable [DecidableLT α] [Trans (α := α) (· < ·) (· < ·) (· < ·)]
  [Std.Trichotomous (α := α) (· < ·)]

def insertInto (a : α) : List α → List α
  | [] => [a]
  | b :: rest => if a < b then a :: b :: rest else if b < a then b :: insertInto a rest else b :: rest

omit [Trans (α := α) (· < ·) (· < ·) (· < ·)] in
@[simp] theorem mem_insertInto {a b : α} {l : List α} : b ∈ insertInto a l ↔ b = a ∨ b ∈ l := by
  induction l with
  | nil => simp [insertInto]
  | cons c rest ih =>
      unfold insertInto
      split
      · simp
      · split
        · simp only [List.mem_cons, ih]
          grind
        · rename_i h h'
          have : a = c := Std.Trichotomous.trichotomous (r := (· < ·)) a c h h'
          subst this
          simp

theorem pairwise_insertInto (a : α) {l : List α} (h : l.Pairwise (· < ·)) :
    (insertInto a l).Pairwise (· < ·) := by
  induction l with
  | nil => simp [insertInto]
  | cons c rest ih =>
      obtain ⟨hc, hrest⟩ := List.pairwise_cons.1 h
      unfold insertInto
      split
      · rename_i hac
        refine List.pairwise_cons.2 ⟨fun b hb => ?_, h⟩
        rcases List.mem_cons.1 hb with rfl | hb
        · exact hac
        · exact Trans.trans hac (hc b hb)
      · split
        · rename_i hca
          refine List.pairwise_cons.2 ⟨fun b hb => ?_, ih hrest⟩
          rcases mem_insertInto.1 hb with rfl | hb
          · exact hca
          · exact hc b hb
        · exact h

def insert (a : α) (s : Ascending α) : Ascending α :=
  ⟨insertInto a s.toList, pairwise_insertInto a s.pairwise⟩

@[simp] theorem mem_insert {a b : α} {s : Ascending α} : b ∈ s.insert a ↔ b = a ∨ b ∈ s :=
  mem_insertInto

def ofList (l : List α) : Ascending α := l.foldr insert ∅

@[simp] theorem mem_ofList {a : α} {l : List α} : a ∈ ofList l ↔ a ∈ l := by
  induction l with
  | nil => simp [ofList]
  | cons b rest ih =>
      have : ofList (b :: rest) = (ofList rest).insert b := rfl
      simp [this, ih]

def union (s t : Ascending α) : Ascending α := s.toList.foldr insert t

instance : Union (Ascending α) := ⟨union⟩

@[simp] theorem mem_union {a : α} {s t : Ascending α} : a ∈ s ∪ t ↔ a ∈ s ∨ a ∈ t := by
  have : ∀ l : List α, a ∈ l.foldr insert t ↔ a ∈ l ∨ a ∈ t := by
    intro l
    induction l with
    | nil => simp
    | cons b rest ih => simp [ih, or_assoc]
  exact this s.toList

theorem mem_foldl_union {β : Type v} {f : β → Ascending α} {l : List β} {s : Ascending α} {a : α} :
    a ∈ l.foldl (fun s b => s ∪ f b) s ↔ a ∈ s ∨ ∃ b ∈ l, a ∈ f b := by
  induction l generalizing s with
  | nil => simp
  | cons b l ih =>
      simp only [List.foldl_cons, ih, mem_union, List.mem_cons, or_and_right, exists_or, exists_eq_left, or_assoc]

end Ascending

end LanguageTheory
