import LanguageTheory.Machine.Simulator
import Mathlib.Data.List.Forall2
import Mathlib.Data.List.GetD
import Mathlib.Data.List.TakeWhile
import Mathlib.Logic.Function.Basic

/-! The window that a tape keeps stands for a tape without ends. Seen from the head, writing and shifting change
the one as they change the other, however the window grows, and what is written is what the window holds without
the blank cells at its ends. So those cells never matter to a machine. -/

namespace LanguageTheory

/-! ### Tapes without ends -/

/-- A symbol for every integer, and the place of the head. -/
structure EndlessTape where
  symbols : Int → Char
  head : Int

/-- What a machine does to a tape. -/
inductive Tape.Edit
  | write (c : Char)
  | shift (direction : Direction)

/-- How far the head goes. -/
def Direction.offset : Direction → Int
  | .left => -1
  | .right => 1
  | .stay => 0

/-- The symbols of a word at the places `0, 1, …`, and blanks elsewhere. -/
def Word.spread (w : Word) : Int → Char
  | .ofNat n => w.getD n blank
  | .negSucc _ => blank

namespace EndlessTape

def ofInput (w : Word) : EndlessTape := ⟨w.spread, 0⟩

def read (e : EndlessTape) : Char := e.symbols e.head

def edit (e : EndlessTape) : Tape.Edit → EndlessTape
  | .write c => { e with symbols := Function.update e.symbols e.head c }
  | .shift direction => { e with head := e.head + direction.offset }

/-- Blank but for a word that neither begins nor ends with a blank. -/
def Spans (e : EndlessTape) (w : Word) : Prop :=
  (∃ start, ∀ i, e.symbols i = w.spread (i - start)) ∧ w.head? ≠ some blank ∧ w.getLast? ≠ some blank

end EndlessTape

/-! ### Cells with a number for the head -/

/-- The cells of a tape by their numbers, and the number of the one under the head. -/
structure CellArray where
  cells : List Char
  head : Nat

namespace CellArray

def ofInput (w : Word) : CellArray := ⟨if w.isEmpty then [blank] else w, 0⟩

/-- The cell under the head, if there is one. -/
def read? (a : CellArray) : Option Char := a.cells[a.head]?

/-- A new cell is put in front when the head goes left from the first cell, and after the last cell when it comes
to stand there. Writing needs a cell under the head. -/
def edit? (a : CellArray) : Tape.Edit → Option CellArray
  | .write c => if a.head < a.cells.length then some { a with cells := a.cells.set a.head c } else none
  | .shift .left => if a.head = 0 then some { a with cells := blank :: a.cells } else some { a with head := a.head - 1 }
  | .shift .right =>
      let head := a.head + 1
      some ⟨if head = a.cells.length then a.cells ++ [blank] else a.cells, head⟩
  | .shift .stay => some a

end CellArray

namespace Tape

variable {t u : Tape} {e : EndlessTape} {w : Word}

def edit (t : Tape) : Edit → Tape
  | .write c => t.write c
  | .shift direction => t.shift direction

def toCellArray (t : Tape) : CellArray := ⟨t.cells, t.head⟩

theorem toCellArray_ofInput (w : Word) : (ofInput w).toCellArray = .ofInput w := by
  cases w <;> rfl

/-- The cell under the head is there, and the cells change as the tape does. -/
theorem edit?_toCellArray (t : Tape) (edit : Edit) : t.toCellArray.edit? edit = some (t.edit edit).toCellArray := by
  obtain ⟨left, cell, right⟩ := t
  cases edit with
  | write c => simp [CellArray.edit?, toCellArray, Tape.edit, write, cells, head]
  | shift direction =>
      cases direction with
      | stay => rfl
      | left => cases left <;> simp [CellArray.edit?, toCellArray, Tape.edit, shift, cells, head]
      | right => cases right <;> simp [CellArray.edit?, toCellArray, Tape.edit, shift, cells, head]

theorem foldlM_edit?_toCellArray (t : Tape) (edits : List Edit) :
    edits.foldlM CellArray.edit? t.toCellArray = some (edits.foldl edit t).toCellArray := by
  induction edits generalizing t with
  | nil => rfl
  | cons edit edits ih =>
      rw [List.foldlM_cons, edit?_toCellArray, List.foldl_cons]
      exact ih (t.edit edit)

/-! ### Seen from the head -/

/-- The symbol so many cells to the right of the head. -/
def symbolAt (t : Tape) : Int → Char
  | .ofNat 0 => t.cell
  | .ofNat (n + 1) => t.right.getD n blank
  | .negSucc n => t.left.getD n blank

theorem symbolAt_write (t : Tape) (c : Char) (i : Int) : (t.write c).symbolAt i = if i = 0 then c else t.symbolAt i := by
  match i with
  | .ofNat 0 => rfl
  | .ofNat (n + 1) => rfl
  | .negSucc n => rfl

theorem symbolAt_shift (t : Tape) (direction : Direction) (i : Int) :
    (t.shift direction).symbolAt i = t.symbolAt (i + direction.offset) := by
  obtain ⟨left, cell, right⟩ := t
  cases direction with
  | stay => rw [shift, Direction.offset, Int.add_zero]
  | left =>
      match i with
      | .ofNat 0 => cases left <;> rfl
      | .ofNat 1 => cases left <;> rfl
      | .ofNat (n + 2) =>
          have hplace : Int.ofNat (n + 2) + Direction.left.offset = Int.ofNat (n + 1) := by
            simp only [Direction.offset, Int.ofNat_eq_natCast]
            omega
          rw [hplace]
          cases left <;> rfl
      | .negSucc n => cases left <;> rfl
  | right =>
      match i with
      | .ofNat 0 => cases right <;> rfl
      | .ofNat (n + 1) => cases right <;> rfl
      | .negSucc 0 => cases right <;> rfl
      | .negSucc (n + 1) => cases right <;> rfl

/-- The tape without ends holds the symbols of the window, and its head is where the head of the window is. -/
def Represents (t : Tape) (e : EndlessTape) : Prop := ∀ i, e.symbols i = t.symbolAt (i - e.head)

theorem represents_ofInput (w : Word) : (ofInput w).Represents (.ofInput w) := by
  intro i
  rw [show i - (EndlessTape.ofInput w).head = i from Int.sub_zero i]
  match i with
  | .ofNat 0 => cases w <;> rfl
  | .ofNat (n + 1) => cases w <;> rfl
  | .negSucc n => cases w <;> rfl

theorem Represents.read_eq (h : t.Represents e) : e.read = t.cell := by
  rw [EndlessTape.read, h, Int.sub_self]
  rfl

theorem Represents.edit (h : t.Represents e) (edit : Edit) : (t.edit edit).Represents (e.edit edit) := by
  intro i
  cases edit with
  | write c =>
      show Function.update e.symbols e.head c i = (t.write c).symbolAt (i - e.head)
      rw [Function.update_apply, symbolAt_write, h i]
      simp only [Int.sub_eq_zero]
  | shift direction =>
      show e.symbols i = (t.shift direction).symbolAt (i - (e.head + direction.offset))
      rw [symbolAt_shift, h i]
      congr 1
      omega

theorem Represents.edits (h : t.Represents e) (edits : List Edit) :
    (edits.foldl Tape.edit t).Represents (edits.foldl EndlessTape.edit e) := by
  induction edits generalizing t e with
  | nil => exact h
  | cons edit edits ih => exact ih (h.edit edit)

/-! ### What is written -/

theorem exists_eq_replicate_append_dropWhile (w : Word) :
    ∃ n, w = List.replicate n blank ++ w.dropWhile (· = blank) := by
  have htake : w.takeWhile (· = blank) = List.replicate (w.takeWhile (· = blank)).length blank :=
    List.eq_replicate_of_mem fun c hc => by simpa using List.mem_takeWhile_imp hc
  exact ⟨_, by rw [← htake, List.takeWhile_append_dropWhile]⟩

theorem head?_dropWhile_ne (w : Word) : (w.dropWhile (· = blank)).head? ≠ some blank := by
  intro h
  have hnot := List.head?_dropWhile_not (fun c : Char => decide (c = blank)) w
  rw [h] at hnot
  simp at hnot

/-- The window is what is written with blank cells around it. -/
theorem exists_cells_eq (t : Tape) : ∃ m n,
    t.cells = List.replicate m blank ++ t.output ++ List.replicate n blank := by
  obtain ⟨m, hm⟩ := exists_eq_replicate_append_dropWhile t.cells
  obtain ⟨n, hn⟩ := exists_eq_replicate_append_dropWhile (t.cells.dropWhile (· = blank)).reverse
  refine ⟨m, n, ?_⟩
  rw [List.append_assoc, output]
  conv_lhs => rw [hm, ← List.reverse_reverse (t.cells.dropWhile _), hn]
  rw [List.reverse_append, List.reverse_replicate]

theorem head?_output_ne (t : Tape) : t.output.head? ≠ some blank := by
  obtain ⟨n, hn⟩ := exists_eq_replicate_append_dropWhile (t.cells.dropWhile (· = blank)).reverse
  have hfront : t.cells.dropWhile (· = blank) = t.output ++ List.replicate n blank := by
    rw [output, ← List.reverse_replicate, ← List.reverse_append, ← hn, List.reverse_reverse]
  have hne := head?_dropWhile_ne t.cells
  rw [hfront, List.head?_append] at hne
  intro h
  rw [h] at hne
  exact hne rfl

theorem getLast?_output_ne (t : Tape) : t.output.getLast? ≠ some blank := by
  rw [output, List.getLast?_reverse]
  exact head?_dropWhile_ne _

end Tape

namespace Word

variable {u w : Word} {i start start' : Int} {n : Nat}

theorem spread_natCast (w : Word) (n : Nat) : w.spread n = w.getD n blank := rfl

theorem spread_of_neg (w : Word) (hi : i < 0) : w.spread i = blank := by
  match i with
  | .negSucc _ => rfl

theorem of_spread_ne (h : w.spread i ≠ blank) : 0 ≤ i ∧ i < w.length := by
  match i with
  | .ofNat n =>
      refine ⟨Int.natCast_nonneg n, Int.ofNat_lt.2 (Nat.lt_of_not_le fun hn => h ?_)⟩
      exact List.getD_eq_default _ _ hn
  | .negSucc n => exact (h rfl).elim

theorem getD_replicate_blank (n k : Nat) : (List.replicate n blank).getD k blank = blank :=
  List.getElem?_getD_replicate_default_eq _ n k

theorem spread_append_replicate (w : Word) (n : Nat) (i : Int) :
    Word.spread (w ++ List.replicate n blank) i = w.spread i := by
  match i with
  | .negSucc _ => rfl
  | .ofNat k =>
      show (w ++ List.replicate n blank).getD k blank = w.getD k blank
      rcases Nat.lt_or_ge k w.length with hlt | hge
      · rw [List.getD_append _ _ _ _ hlt]
      · rw [List.getD_append_right _ _ _ _ hge, getD_replicate_blank, List.getD_eq_default _ _ hge]

theorem spread_replicate_append (n : Nat) (w : Word) (i : Int) :
    Word.spread (List.replicate n blank ++ w) i = w.spread (i - n) := by
  match i with
  | .negSucc k => rw [spread_of_neg w (by omega)]; rfl
  | .ofNat k =>
      show (List.replicate n blank ++ w).getD k blank = w.spread ((k : Int) - n)
      rcases Nat.lt_or_ge k n with hlt | hge
      · rw [List.getD_append _ _ _ _ (by rwa [List.length_replicate]), getD_replicate_blank,
          spread_of_neg w (by omega)]
      · rw [List.getD_append_right _ _ _ _ (by rwa [List.length_replicate]), List.length_replicate,
          ← spread_natCast, Int.ofNat_sub hge]

theorem spread_zero_ne (hw : w ≠ []) (hhead : w.head? ≠ some blank) : w.spread 0 ≠ blank := by
  cases w with
  | nil => exact (hw rfl).elim
  | cons c w => exact fun h => hhead (congrArg some h)

theorem spread_last_ne (hw : w ≠ []) (hlast : w.getLast? ≠ some blank) : w.spread (w.length - 1) ≠ blank := by
  have hpos := List.length_pos_iff.2 hw
  rw [show (w.length : Int) - 1 = ((w.length - 1 : Nat) : Int) by omega, spread_natCast, List.getD_eq_getElem _ _ (by omega)]
  rw [List.getLast?_eq_getElem?, List.getElem?_eq_getElem (by omega)] at hlast
  exact fun h => hlast (congrArg some h)

/-- A word that is spread over the same symbols as another one stands within it. -/
theorem within_of_spread_eq (h : ∀ i, u.spread (i - start) = w.spread (i - start')) (hu : u ≠ [])
    (hhead : u.head? ≠ some blank) (hlast : u.getLast? ≠ some blank) :
    start' ≤ start ∧ start + u.length ≤ start' + w.length := by
  have hfirst := h start
  rw [Int.sub_self] at hfirst
  have hend := h (start + (u.length - 1))
  rw [show start + ((u.length : Int) - 1) - start = u.length - 1 by omega] at hend
  have hlow := of_spread_ne (hfirst ▸ spread_zero_ne hu hhead)
  have hhigh := of_spread_ne (hend ▸ spread_last_ne hu hlast)
  omega

theorem eq_of_spread_eq (h : ∀ i, u.spread (i - start) = w.spread (i - start')) (hu : u.head? ≠ some blank)
    (hu' : u.getLast? ≠ some blank) (hw : w.head? ≠ some blank) (hw' : w.getLast? ≠ some blank) : u = w := by
  rcases eq_or_ne u [] with rfl | hne
  · by_contra hne
    have hin := within_of_spread_eq (fun i => (h i).symm) (Ne.symm hne) hw hw'
    have hpos := List.length_pos_iff.2 (Ne.symm hne)
    rw [List.length_nil] at hin
    omega
  · have hin := within_of_spread_eq h hne hu hu'
    have hpos := List.length_pos_iff.2 hne
    have hne' : w ≠ [] := List.length_pos_iff.1 (by omega)
    have hin' := within_of_spread_eq (fun i => (h i).symm) hne' hw hw'
    obtain rfl : start = start' := by omega
    refine List.ext_getElem (by omega) fun n hn hn' => ?_
    have heq := h (start + n)
    rwa [show start + (n : Int) - start = n by omega, spread_natCast, spread_natCast, List.getD_eq_getElem _ _ hn,
      List.getD_eq_getElem _ _ hn'] at heq

/-- Words with the same symbols where either has any differ only in blanks at their ends. -/
theorem exists_append_replicate_eq (h : ∀ n, u.getD n blank = w.getD n blank) :
    ∃ m n, u ++ List.replicate m blank = w ++ List.replicate n blank := by
  refine ⟨w.length, u.length, List.ext_getElem ?_ fun n hn hn' => ?_⟩
  · rw [List.length_append, List.length_append, List.length_replicate, List.length_replicate, Nat.add_comm]
  · rw [← List.getD_eq_getElem _ blank hn, ← List.getD_eq_getElem _ blank hn', ← spread_natCast, ← spread_natCast,
      spread_append_replicate, spread_append_replicate]
    exact h n

end Word

namespace Tape

variable {t u : Tape} {e : EndlessTape} {w : Word}

/-- Seen from the head, the symbols of the window stand where its cells are. -/
theorem symbolAt_eq_spread (t : Tape) (i : Int) : t.symbolAt i = Word.spread t.cells (i + t.head) := by
  obtain ⟨left, cell, right⟩ := t
  match i with
  | .ofNat n =>
      show _ = (left.reverse ++ cell :: right).getD (n + left.length) blank
      rw [List.getD_append_right _ _ _ _ (by rw [List.length_reverse]; omega), List.length_reverse,
        Nat.add_sub_cancel]
      cases n <;> rfl
  | .negSucc n =>
      show left.getD n blank = Word.spread (left.reverse ++ cell :: right) (Int.negSucc n + left.length)
      rcases Nat.lt_or_ge n left.length with hlt | hge
      · rw [show Int.negSucc n + left.length = ((left.length - 1 - n : Nat) : Int) by omega, Word.spread_natCast,
          List.getD_append _ _ _ _ (by rw [List.length_reverse]; omega), List.getD_eq_getElem _ _ hlt,
          List.getD_eq_getElem _ _ (by rw [List.length_reverse]; omega), List.getElem_reverse]
        congr 1
        omega
      · rw [Word.spread_of_neg _ (by omega), List.getD_eq_default _ _ hge]

/-- What is written on a tape is what its window holds without the blank cells at the ends. -/
theorem Represents.spans_iff (h : t.Represents e) : e.Spans w ↔ w = t.output := by
  obtain ⟨m, n, hcells⟩ := t.exists_cells_eq
  have hspread : ∀ i, e.symbols i = Word.spread t.output (i - (e.head - t.head + m)) := by
    intro i
    rw [h, symbolAt_eq_spread, hcells, Word.spread_append_replicate, Word.spread_replicate_append]
    congr 1
    omega
  constructor
  · rintro ⟨⟨start, hstart⟩, hhead, hlast⟩
    exact Word.eq_of_spread_eq (fun i => (hstart i).symm.trans (hspread i)) hhead hlast t.head?_output_ne
      t.getLast?_output_ne
  · rintro rfl
    exact ⟨⟨_, hspread⟩, t.head?_output_ne, t.getLast?_output_ne⟩

/-! ### Blank cells at the ends -/

/-- The tape with more blank cells at its ends. -/
def pad (t : Tape) (m n : Nat) : Tape :=
  { t with left := t.left ++ List.replicate m blank, right := t.right ++ List.replicate n blank }

/-- The tapes differ only in blank cells at their ends, and their heads are on the same cell. -/
def SameWritten (t u : Tape) : Prop := ∃ m n m' n', t.pad m n = u.pad m' n'

theorem symbolAt_pad (t : Tape) (m n : Nat) (i : Int) : (t.pad m n).symbolAt i = t.symbolAt i := by
  match i with
  | .ofNat 0 => rfl
  | .ofNat (k + 1) => exact Word.spread_append_replicate t.right n k
  | .negSucc k => exact Word.spread_append_replicate t.left m k

theorem sameWritten_iff : t.SameWritten u ↔ ∀ i, t.symbolAt i = u.symbolAt i := by
  constructor
  · rintro ⟨m, n, m', n', h⟩ i
    rw [← symbolAt_pad t m n, h, symbolAt_pad]
  · intro h
    obtain ⟨left, cell, right⟩ := t
    obtain ⟨left', cell', right'⟩ := u
    obtain rfl : cell = cell' := h 0
    obtain ⟨m, m', hleft⟩ := Word.exists_append_replicate_eq fun k => h (.negSucc k)
    obtain ⟨n, n', hright⟩ := Word.exists_append_replicate_eq fun k => h (.ofNat (k + 1))
    refine ⟨m, n, m', n', ?_⟩
    rw [pad, pad, hleft, hright]

theorem SameWritten.cell_eq (h : t.SameWritten u) : t.cell = u.cell := sameWritten_iff.1 h 0

theorem SameWritten.edit (h : t.SameWritten u) (edit : Edit) : (t.edit edit).SameWritten (u.edit edit) := by
  rw [sameWritten_iff] at h ⊢
  intro i
  cases edit with
  | write c =>
      show (t.write c).symbolAt i = (u.write c).symbolAt i
      rw [symbolAt_write, symbolAt_write, h i]
  | shift direction =>
      show (t.shift direction).symbolAt i = (u.shift direction).symbolAt i
      rw [symbolAt_shift, symbolAt_shift, h]

/-- A move is possible on both tapes or on neither. -/
theorem SameWritten.after? (h : t.SameWritten u) (label : Label) :
    (Store.turing t).after? label = none ∧ (Store.turing u).after? label = none ∨
      ∃ t' u', (Store.turing t).after? label = some (.turing t') ∧
        (Store.turing u).after? label = some (.turing u') ∧ t'.SameWritten u' := by
  cases label with
  | finite read => exact Or.inl ⟨rfl, rfl⟩
  | pushdown read pop push => exact Or.inl ⟨rfl, rfl⟩
  | turing read write direction =>
      simp only [Store.after?, h.cell_eq]
      split
      · exact Or.inr ⟨_, _, rfl, rfl, (h.edit (.write write)).edit (.shift direction)⟩
      · exact Or.inl ⟨rfl, rfl⟩

end Tape

/-! ### Configurations -/

/-- The same state, and tapes that differ only in blank cells at their ends. -/
def Configuration.SameWritten (c d : Configuration) : Prop :=
  c.state = d.state ∧ ∃ t u : Tape, c.store = .turing t ∧ d.store = .turing u ∧ t.SameWritten u

namespace Simulator

variable {m : Simulator} {c d : Configuration}

theorem accepts_congr (h : c.SameWritten d) : m.accepts c = m.accepts d := by
  obtain ⟨hstate, t, u, hc, hd, _⟩ := h
  simp only [accepts, hc, hd, hstate]

/-- Blank cells at the ends of a tape do not matter to a machine: the same transitions are possible, and they lead
to configurations that differ in such cells only. -/
theorem forall₂_step (h : c.SameWritten d) : List.Forall₂ Configuration.SameWritten (m.step c) (m.step d) := by
  obtain ⟨hstate, t, u, hc, hd, htape⟩ := h
  rw [step, step, hstate, hc, hd]
  induction m.automaton.transitionsFrom d.state with
  | nil => exact .nil
  | cons move moves ih =>
      rcases htape.after? move.label with ⟨ht, hu⟩ | ⟨t', u', ht, hu, htape'⟩
      · rwa [List.filterMap_cons_none (by rw [ht]; rfl), List.filterMap_cons_none (by rw [hu]; rfl)]
      · rw [List.filterMap_cons_some (by rw [ht]; rfl), List.filterMap_cons_some (by rw [hu]; rfl)]
        exact .cons ⟨rfl, t', u', rfl, rfl, htape'⟩ ih

end Simulator

namespace Tape

/-- Whatever a machine does to a tape, the head stays on a cell, the symbol under it is that of a tape without
ends, and what is written is the span of that tape that is not blank. Tapes that differ only in blank cells at
their ends are the same to a machine. -/
theorem simulates_endless (input : Word) (edits : List Edit) (m : Simulator) {c d : Configuration}
    (h : c.SameWritten d) :
    let t := edits.foldl edit (ofInput input)
    let e := edits.foldl EndlessTape.edit (.ofInput input)
    edits.foldlM CellArray.edit? (.ofInput input) = some t.toCellArray ∧ t.head < t.cells.length ∧
      t.toCellArray.read? = some e.read ∧ t.cell = e.read ∧ (∀ w, e.Spans w ↔ w = t.output) ∧
      m.accepts c = m.accepts d ∧ List.Forall₂ Configuration.SameWritten (m.step c) (m.step d) := by
  intro t e
  have hrepresents : t.Represents e := (represents_ofInput input).edits edits
  refine ⟨?_, t.head_lt_length_cells, ?_, hrepresents.read_eq.symm, fun w => hrepresents.spans_iff,
    Simulator.accepts_congr h, Simulator.forall₂_step h⟩
  · rw [← toCellArray_ofInput, foldlM_edit?_toCellArray]
  · rw [hrepresents.read_eq]
    exact t.getElem?_cells_head

/-- Takes an `a` off the tape and goes on to the right, or replaces it and goes back. -/
def erasing : Automaton :=
  { Automaton.ofLabels .turing [none, none] with
    initial := some 0
    finals := .ofList [1]
    transitions := [⟨0, 0, .turing 'a' blank .right⟩, ⟨0, 1, .turing 'a' 'b' .left⟩] }

theorem simulates_endless_erasing :
    let m : Simulator := ⟨erasing, {}⟩
    let c : Configuration := ⟨0, .turing ⟨[], 'a', []⟩⟩
    let d : Configuration := ⟨0, .turing ⟨[blank], 'a', [blank, blank]⟩⟩
    let edits : List Edit := [.shift .left, .write 'x', .shift .right, .shift .right, .shift .right, .write blank]
    let e := edits.foldl EndlessTape.edit (.ofInput ['a', blank, 'b'])
    c.SameWritten d ∧ edits.foldlM CellArray.edit? (.ofInput ['a', blank, 'b']) = some ⟨['x', 'a', blank, blank], 3⟩ ∧
      e.read = blank ∧ e.Spans ['x', 'a'] ∧ (m.step c).length = 2 ∧
      List.Forall₂ Configuration.SameWritten (m.step c) (m.step d) := by
  intro m c d edits e
  have hsame : c.SameWritten d := ⟨rfl, _, _, rfl, rfl, 1, 2, 0, 0, rfl⟩
  obtain ⟨hcells, _, _, hread, hspans, _, hstep⟩ := simulates_endless ['a', blank, 'b'] edits m hsame
  exact ⟨hsame, hcells, hread.symm, (hspans _).2 (by decide), by decide, hstep⟩

end Tape

end LanguageTheory
