import Mathlib.Data.Int.Notation
import Mathlib.Logic.Function.Basic
import TapeMachine.Proofs.IndexedTape

/-!
# Tapes without ends

A tape stands for one that has a cell for every integer. The cells of the row are
numbered from some integer on, all others are blank, and the head is on the cell with
its number. What is done to the tape is then done to the tape without ends: a write
changes one symbol, a move changes none and puts the head on the next cell.

This is shown for the cells on either side of the head, and an indexed tape has it from
the tape that it keeps.

The numbers of the cells in the row are not fixed by the row. When a blank is added on
the left, it gets the number before the first, so that the others keep theirs.
-/

namespace TapeMachine

@[ext] structure InfiniteTape where
  symbol : ℤ → Symbol
  head : ℤ
  /-- The leftmost cell that has been in use. -/
  first : ℤ
  /-- The rightmost cell that has been in use. -/
  last : ℤ

/-! ## Tapes without ends -/

namespace InfiniteTape

/-- The symbol at `i` if the cells of the row are numbered from `first` on. -/
def symbolAt (row : List Symbol) (first i : ℤ) : Symbol :=
  if first ≤ i then row[(i - first).toNat]?.getD .blank else .blank

/-- The row from the cell `origin` on, with the head there. At least that cell is in use. -/
def ofRow (origin : ℤ) (row : List Symbol) : InfiniteTape where
  symbol := symbolAt row origin
  head := origin
  first := origin
  last := origin + (row.length - 1 : Nat)

def moveLeft (v : InfiniteTape) : InfiniteTape :=
  { v with head := v.head - 1, first := min v.first (v.head - 1) }

def moveRight (v : InfiniteTape) : InfiniteTape :=
  { v with head := v.head + 1, last := max v.last (v.head + 1) }

def perform (v : InfiniteTape) : Tape.Operation → InfiniteTape
  | .left => v.moveLeft
  | .right => v.moveRight
  | .shift .left => v.moveLeft
  | .shift .right => v.moveRight
  | .write s => { v with symbol := Function.update v.symbol v.head s }
  | .moveTo n => { v with head := v.first + n.toNat, last := max v.last (v.first + n.toNat) }

def performAll (v : InfiniteTape) (ops : List Tape.Operation) : InfiniteTape :=
  ops.foldl perform v

theorem first_perform_le (v : InfiniteTape) (op : Tape.Operation) :
    (v.perform op).first ≤ v.first := by
  cases op with
  | left => exact Int.min_le_left _ _
  | right => exact Int.le_refl _
  | shift m =>
      cases m with
      | left => exact Int.min_le_left _ _
      | right => exact Int.le_refl _
  | write s => exact Int.le_refl _
  | moveTo n => exact Int.le_refl _

theorem last_le_perform (v : InfiniteTape) (op : Tape.Operation) :
    v.last ≤ (v.perform op).last := by
  cases op with
  | left => exact Int.le_refl _
  | right => exact Int.le_max_left _ _
  | shift m =>
      cases m with
      | left => exact Int.le_refl _
      | right => exact Int.le_max_left _ _
  | write s => exact Int.le_refl _
  | moveTo n => exact Int.le_max_left _ _

theorem symbolAt_place (row : List Symbol) (first : ℤ) (k : Nat) :
    symbolAt row first (first + k) = row[k]?.getD .blank := by
  have hplace : (first + (k : ℤ) - first).toNat = k := by omega
  rw [symbolAt, if_pos (by omega), hplace]

/-- Blanks at the right end are there already. -/
theorem symbolAt_append_blanks (row : List Symbol) (first : ℤ) (b : Nat) :
    symbolAt (row ++ List.replicate b .blank) first = symbolAt row first := by
  funext i
  simp only [symbolAt]
  by_cases hlt : (i - first).toNat < row.length
  · rw [List.getElem?_append_left hlt]
  · have hblank (k : Nat) : (List.replicate b Symbol.blank)[k]?.getD .blank = .blank := by
      rw [List.getElem?_replicate]
      split <;> rfl
    rw [List.getElem?_append_right (Nat.le_of_not_lt hlt), hblank,
      List.getElem?_eq_none (Nat.le_of_not_lt hlt)]
    rfl

/-- So is a blank at the left end, under the number before the first. -/
theorem symbolAt_blank_cons (row : List Symbol) (first : ℤ) :
    symbolAt (.blank :: row) (first - 1) = symbolAt row first := by
  funext i
  simp only [symbolAt]
  by_cases hle : first ≤ i
  · have hnext : (i - (first - 1)).toNat = (i - first).toNat + 1 := by omega
    rw [if_pos hle, if_pos (by omega), hnext, List.getElem?_cons_succ]
  · rw [if_neg hle]
    by_cases heq : first - 1 ≤ i
    · have hzero : (i - (first - 1)).toNat = 0 := by omega
      rw [if_pos heq, hzero]
      rfl
    · rw [if_neg heq]

theorem symbolAt_middle (l r : List Symbol) (s : Symbol) (first : ℤ) :
    symbolAt (l ++ s :: r) first (first + l.length) = s := by
  rw [symbolAt_place]
  simp

/-- To replace a symbol of the row is to change one cell. -/
theorem symbolAt_set (l r : List Symbol) (s s' : Symbol) (first : ℤ) :
    symbolAt (l ++ s' :: r) first =
      Function.update (symbolAt (l ++ s :: r) first) (first + l.length) s' := by
  funext i
  by_cases heq : i = first + l.length
  · rw [heq, Function.update_self, symbolAt_middle]
  · rw [Function.update_of_ne heq, symbolAt, symbolAt]
    by_cases hle : first ≤ i
    · rw [if_pos hle, if_pos hle]
      by_cases hlt : (i - first).toNat < l.length
      · rw [List.getElem?_append_left hlt, List.getElem?_append_left hlt]
      · obtain ⟨k, hk⟩ : ∃ k, (i - first).toNat = l.length + (k + 1) :=
          ⟨(i - first).toNat - l.length - 1, by omega⟩
        rw [hk, List.getElem?_append_right (Nat.le_add_right _ _),
          List.getElem?_append_right (Nat.le_add_right _ _), Nat.add_sub_cancel_left]
        rfl
    · rw [if_neg hle, if_neg hle]

end InfiniteTape

/-! ## The tape that a row stands for -/

open InfiniteTape

namespace Tape

/-- The tape without ends if the leftmost cell has the number `first`. -/
def view (t : Tape) (first : ℤ) : InfiniteTape where
  symbol := symbolAt t.cells first
  head := first + t.position
  first := first
  last := first + t.size - 1

variable (t : Tape) (first : ℤ)

theorem symbol_head_view : (t.view first).symbol (t.view first).head = t.read := by
  show symbolAt (t.left.reverse ++ t.head :: t.right) first (first + t.left.length) = t.head
  rw [← List.length_reverse]
  exact symbolAt_middle _ _ _ _

theorem view_write (s : Symbol) : (t.write s).view first = (t.view first).perform (.write s) := by
  ext1
  · show symbolAt (t.left.reverse ++ s :: t.right) first =
      Function.update (symbolAt (t.left.reverse ++ t.head :: t.right) first)
        (first + t.left.length) s
    rw [← List.length_reverse]
    exact symbolAt_set _ _ _ _ _
  · rfl
  · rfl
  · rfl

theorem size_moveLeft : t.moveLeft.size = t.size + if t.left = [] then 1 else 0 := by
  rw [← length_cells, cells_moveLeft, List.length_append, length_cells, Nat.add_comm]
  split <;> rfl

theorem size_moveRight : t.moveRight.size = t.size + if t.right = [] then 1 else 0 := by
  rw [← length_cells, cells_moveRight, List.length_append, length_cells]
  split <;> rfl

/-- At the left end the new cell gets the number before the first. -/
theorem view_moveLeft :
    t.moveLeft.view (t.view first).moveLeft.first = (t.view first).moveLeft := by
  have hposition := t.position_moveLeft
  have hsize := t.size_moveLeft
  by_cases hleft : t.left = []
  · have hzero : t.position = 0 := List.length_eq_zero_iff.mpr hleft
    have hfirst : (t.view first).moveLeft.first = first - 1 := by
      show min first (first + (t.position : ℤ) - 1) = first - 1
      omega
    rw [if_pos hleft] at hsize
    rw [hfirst]
    ext1
    · show symbolAt t.moveLeft.cells (first - 1) = symbolAt t.cells first
      rw [cells_moveLeft, if_pos hleft]
      exact symbolAt_blank_cons t.cells first
    · show first - 1 + (t.moveLeft.position : ℤ) = first + t.position - 1
      omega
    · exact hfirst.symm
    · show first - 1 + (t.moveLeft.size : ℤ) - 1 = first + t.size - 1
      omega
  · have hpos : 0 < t.position := List.length_pos_iff.mpr hleft
    have hfirst : (t.view first).moveLeft.first = first := by
      show min first (first + (t.position : ℤ) - 1) = first
      omega
    rw [if_neg hleft] at hsize
    rw [hfirst]
    ext1
    · show symbolAt t.moveLeft.cells first = symbolAt t.cells first
      rw [cells_moveLeft, if_neg hleft]
      rfl
    · show first + (t.moveLeft.position : ℤ) = first + t.position - 1
      omega
    · exact hfirst.symm
    · show first + (t.moveLeft.size : ℤ) - 1 = first + t.size - 1
      omega

theorem view_moveRight : t.moveRight.view first = (t.view first).moveRight := by
  have hposition := t.position_moveRight
  have hsize := t.size_moveRight
  have hlast : t.size = t.position + 1 + t.right.length := rfl
  ext1
  · show symbolAt t.moveRight.cells first = symbolAt t.cells first
    rw [cells_moveRight]
    split
    · exact symbolAt_append_blanks t.cells first 1
    · rw [List.append_nil]
  · show first + (t.moveRight.position : ℤ) = first + t.position + 1
    omega
  · rfl
  · show first + (t.moveRight.size : ℤ) - 1 = max (first + t.size - 1) (first + t.position + 1)
    by_cases hright : t.right = []
    · rw [if_pos hright] at hsize
      rw [hright, List.length_nil] at hlast
      omega
    · have hpos : 0 < t.right.length := List.length_pos_iff.mpr hright
      rw [if_neg hright] at hsize
      omega

theorem view_ofSymbols (row : List Symbol) : (ofSymbols row).view first = ofRow first row := by
  cases row with
  | nil =>
      ext1
      · exact symbolAt_append_blanks [] first 1
      · exact Int.add_zero first
      · rfl
      · show first + (1 : ℤ) - 1 = first + (0 : Nat)
        omega
  | cons s rest =>
      ext1
      · rfl
      · exact Int.add_zero first
      · rfl
      · show first + ((ofSymbols (s :: rest)).size : ℤ) - 1 = first + (rest.length : Nat)
        rw [← length_cells, cells_ofSymbols_cons, List.length_cons]
        omega

theorem view_moveTo (n : Place) :
    (t.moveTo n.toNat).view first = (t.view first).perform (.moveTo n) := by
  have hsize : (t.moveTo n.toNat).size = t.size + (n.toNat + 1 - t.size) := by
    rw [← length_cells, cells_moveTo, List.length_append, List.length_replicate, length_cells]
  ext1
  · show symbolAt (t.moveTo n.toNat).cells first = symbolAt t.cells first
    rw [cells_moveTo, symbolAt_append_blanks]
  · show first + ((t.moveTo n.toNat).position : ℤ) = first + n.toNat
    rw [position_moveTo]
  · rfl
  · show first + ((t.moveTo n.toNat).size : ℤ) - 1 = max (first + t.size - 1) (first + n.toNat)
    omega

/-- Whatever is done to a tape is done to the tape without ends. -/
theorem view_perform (op : Operation) :
    (t.perform op).view ((t.view first).perform op).first = (t.view first).perform op := by
  cases op with
  | left => exact t.view_moveLeft first
  | right => exact t.view_moveRight first
  | shift m =>
      cases m with
      | left => exact t.view_moveLeft first
      | right => exact t.view_moveRight first
  | write s => exact t.view_write first s
  | moveTo n => exact t.view_moveTo first n

theorem view_performAll (ops : List Operation) :
    (t.performAll ops).view ((t.view first).performAll ops).first =
      (t.view first).performAll ops := by
  -- a row that grows on the left is numbered from elsewhere, so the number is not fixed
  induction ops generalizing t first with
  | nil => rfl
  | cons op ops ih =>
      have hstep := t.view_perform first op
      have hrest := ih (t.perform op) ((t.view first).perform op).first
      rw [hstep] at hrest
      exact hrest

end Tape

/-! ## Indexed tapes -/

namespace IndexedTape

/-- The tape without ends if the leftmost cell has the number `first`. -/
def view (t : IndexedTape) (first : ℤ) : InfiniteTape where
  symbol := symbolAt t.cells first
  head := first + t.position.toNat
  first := first
  last := first + t.size - 1

theorem Keeps.view {r : IndexedTape} {t : Tape} (h : r.Keeps t) (first : ℤ) :
    r.view first = t.view first := by
  rw [IndexedTape.view, h.cells, h.position, h.size]
  rfl

/-- A tape that has just been made with this row of symbols. -/
inductive Initial : List Symbol → IndexedTape → Prop
  | blank : Initial [] IndexedTape.blank
  | ofSymbols (row : List Symbol) : Initial row (ofSymbols row)
  | parse {text : String} {t : IndexedTape} (parsed : parse text = .ok t) :
      Initial (text.toList.filterMap Symbol.ofChar?) t

variable {t : IndexedTape}

theorem parse_eq_ok_iff {s : String} :
    parse s = .ok t ↔ ∃ row, s.toList = row.map Symbol.toChar ∧ t = ofSymbols row :=
  Tape.map_parseSymbols_eq_ok_iff

theorem Initial.eq_ofSymbols {row : List Symbol} (h : Initial row t) :
    t = IndexedTape.ofSymbols row := by
  cases h with
  | blank => rfl
  | ofSymbols row => rfl
  | @parse text _ parsed =>
      obtain ⟨row, hrow, rfl⟩ := parse_eq_ok_iff.mp parsed
      have hread : Symbol.ofChar? ∘ Symbol.toChar = some := funext Symbol.ofChar?_toChar
      rw [hrow, List.filterMap_map, hread, List.filterMap_some]

/-- The cells of the row are the cells of the tape without ends that have been in use, the others
are blank, and the heads are on the same cell. -/
structure Represents (t : IndexedTape) (v : InfiniteTape) : Prop where
  cells (k : Nat) (h : k < t.size) : t.cells[k]? = some (v.symbol (v.first + k))
  outside (i : ℤ) (h : i < v.first ∨ v.last < i) : v.symbol i = .blank
  head : v.head = v.first + t.position.toNat
  last : v.last = v.first + t.size - 1

theorem represents_of_view {v : InfiniteTape} (h : t.view v.first = v) : t.Represents v := by
  have hsymbol : v.symbol = symbolAt t.cells v.first := congrArg InfiniteTape.symbol h.symm
  have hlast : v.last = v.first + t.size - 1 := congrArg InfiniteTape.last h.symm
  have hlength : t.cells.length = t.size := rfl
  refine ⟨?_, ?_, congrArg InfiniteTape.head h.symm, hlast⟩
  · intro k hk
    rw [hsymbol, symbolAt_place, List.getElem?_eq_getElem hk]
    rfl
  · intro i hi
    rw [hsymbol, symbolAt]
    split
    · -- not before the first cell, so past the last one
      rw [List.getElem?_eq_none (by omega)]
      rfl
    · rfl

/-- However a tape is made and whatever is done to it within the range of words, the head is on a
cell, and the tape stands for one without ends on which the same is done. No cell goes out of use. -/
theorem refines_infinite {row : List Symbol} {made : IndexedTape} (h : Initial row made)
    (origin : ℤ) {ops : List Tape.Operation} (hrange : made.InRangeAll ops) :
    let t := made.performAll ops
    let v := (ofRow origin row).performAll ops
    1 ≤ t.size ∧ t.position.toNat < t.size ∧ t.Represents v ∧ t.read = v.symbol v.head ∧
      ∀ op, t.InRange op →
        (t.perform op).Represents (v.perform op) ∧ t.size ≤ (t.perform op).size ∧
          (v.perform op).first ≤ v.first ∧ v.last ≤ (v.perform op).last := by
  intro t v
  obtain rfl := h.eq_ofSymbols
  have hbounds : t.InBounds := (InBounds.ofSymbols row).performAll hrange
  let u := (Tape.ofSymbols row).performAll ops
  have hkeeps : t.Keeps u := (Keeps.ofSymbols row).performAll hrange
  have hview : u.view v.first = v := by
    have hrun := (Tape.ofSymbols row).view_performAll origin ops
    rw [Tape.view_ofSymbols] at hrun
    exact hrun
  have hrepresents : t.Represents v := represents_of_view ((hkeeps.view v.first).trans hview)
  have hread : v.symbol v.head = u.read := by
    have hhead := u.symbol_head_view v.first
    rw [hview] at hhead
    exact hhead
  refine ⟨Nat.one_le_of_lt hbounds, hbounds, hrepresents, hkeeps.read.trans hread.symm, ?_⟩
  intro op hop
  have hstep : (u.perform op).view (v.perform op).first = v.perform op := by
    have hperform := u.view_perform v.first op
    rw [hview] at hperform
    exact hperform
  have hnext : (t.perform op).Represents (v.perform op) :=
    represents_of_view (((hkeeps.perform hop).view _).trans hstep)
  have hfirst := v.first_perform_le op
  have hlast := v.last_le_perform op
  refine ⟨hnext, ?_, hfirst, hlast⟩
  -- there are as many cells as numbers from the first to the last
  have hsize := hrepresents.last
  have hsize' := hnext.last
  omega

/-- One mark, then a mark left of it and a long way to the right: the row has five cells, and the
first mark is still on the cell where it was. -/
theorem mark_refines_infinite :
    ∃ t₀ t v, parse "*" = .ok t₀ ∧
      t₀.InRangeAll [.left, .write .mark, .moveTo 4, .shift .left] ∧
      t = t₀.performAll [.left, .write .mark, .moveTo 4, .shift .left] ∧
      t.cells = [.mark, .mark, .blank, .blank, .blank] ∧ t.position = 3 ∧
      t.Represents v ∧ v.first = -1 ∧ v.head = 2 ∧ v.symbol 0 = .mark := by
  have hparse : parse "*" = .ok (ofSymbols [.mark]) := by cbv
  have hrange : (ofSymbols [.mark]).InRangeAll
      [.left, .write .mark, .moveTo 4, .shift .left] := by decide
  obtain ⟨-, -, hrepresents, -, -⟩ := refines_infinite (.parse hparse) 0 hrange
  exact ⟨_, _, _, hparse, hrange, rfl, by decide, by decide, hrepresents, rfl, rfl, by decide⟩

end IndexedTape

end TapeMachine
