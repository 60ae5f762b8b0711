import Mathlib.Algebra.Order.Ring.Nat
import TapeMachine.Proofs.TapeText
import TapeMachine.Tape.Indexed

/-!
# The head of an indexed tape is on a cell

The number of the head may be that of no cell, and then a read finds a blank and a write
is lost. This does not happen to a tape whose head is on a cell, whatever is done to it,
as long as no number goes past the greatest word: each operation leaves the head on a
cell again.

An indexed tape with its head on a cell keeps a tape, that is, it has its cells and the
place of its head. Each operation then does to the one what it does to the other.
-/

namespace TapeMachine

/-- What can be done to a tape. -/
inductive Tape.Operation where
  | left
  | right
  | shift (movement : Movement)
  | write (symbol : Symbol)
  /-- Goes to the cell with this place in the row. -/
  | moveTo (n : Place)
deriving DecidableEq, Repr

namespace Place

theorem toNat_succ {n : Place} (h : n.toNat + 1 < 2 ^ 64) : (n + 1).toNat = n.toNat + 1 := by
  rw [UInt64.toNat_add]
  exact Nat.mod_eq_of_lt h

theorem toNat_pred {n : Place} (h : n ≠ 0) : (n - 1).toNat = n.toNat - 1 := by
  have hpos : n.toNat ≠ 0 := fun hzero => h (UInt64.toNat_inj.mp hzero)
  exact UInt64.toNat_sub_of_le _ _ (UInt64.le_iff_toNat_le.mpr (Nat.one_le_iff_ne_zero.mpr hpos))

theorem toNat_eq_zero_iff {n : Place} : n.toNat = 0 ↔ n = 0 :=
  ⟨fun h => UInt64.toNat_inj.mp h, fun h => congrArg UInt64.toNat h⟩

end Place

namespace Tape

def perform (t : Tape) : Operation → Tape
  | .left => t.moveLeft
  | .right => t.moveRight
  | .shift m => t.move m
  | .write s => t.write s
  | .moveTo n => t.moveTo n.toNat

def performAll (t : Tape) (ops : List Operation) : Tape :=
  ops.foldl perform t

end Tape

namespace IndexedTape

def perform (t : IndexedTape) : Tape.Operation → IndexedTape
  | .left => t.moveLeft
  | .right => t.moveRight
  | .shift m => t.move m
  | .write s => t.write s
  | .moveTo n => t.moveTo n

def performAll (t : IndexedTape) (ops : List Tape.Operation) : IndexedTape :=
  ops.foldl perform t

theorem performAll_append (t : IndexedTape) (ops ops' : List Tape.Operation) :
    t.performAll (ops ++ ops') = (t.performAll ops).performAll ops' :=
  List.foldl_append

/-- The sum that the operation computes, if it does, is not past the greatest word. -/
def InRange (t : IndexedTape) : Tape.Operation → Prop
  | .right => t.position.toNat + 1 < 2 ^ 64
  | .shift .right => t.position.toNat + 1 < 2 ^ 64
  | .moveTo n => n.toNat + 1 < 2 ^ 64
  | .left => True
  | .shift .left => True
  | .write _ => True

/-- Each of the operations is in range when it is its turn. -/
def InRangeAll (t : IndexedTape) : List Tape.Operation → Prop
  | [] => True
  | op :: ops => t.InRange op ∧ (t.perform op).InRangeAll ops

instance (t : IndexedTape) : DecidablePred t.InRange
  | .right => inferInstanceAs (Decidable (_ < _))
  | .shift .right => inferInstanceAs (Decidable (_ < _))
  | .moveTo _ => inferInstanceAs (Decidable (_ < _))
  | .left => inferInstanceAs (Decidable True)
  | .shift .left => inferInstanceAs (Decidable True)
  | .write _ => inferInstanceAs (Decidable True)

instance decidableInRangeAll (t : IndexedTape) : (ops : List Tape.Operation) →
    Decidable (t.InRangeAll ops)
  | [] => inferInstanceAs (Decidable True)
  | op :: ops =>
    have := (t.perform op).decidableInRangeAll ops
    inferInstanceAs (Decidable (t.InRange op ∧ (t.perform op).InRangeAll ops))

/-! ## The head -/

/-- The head is on a cell. -/
def InBounds (t : IndexedTape) : Prop :=
  t.position.toNat < t.size

variable {t : IndexedTape}

theorem length_resize (row : List Symbol) (n : Nat) : (resize row n).length = n := by
  rw [resize, List.length_append, List.length_take, List.length_replicate]
  omega

/-- A row that is not cut off gets blanks at its end. -/
theorem resize_of_le {row : List Symbol} {n : Nat} (h : row.length ≤ n) :
    resize row n = row ++ List.replicate (n - row.length) .blank := by
  rw [resize, List.take_of_length_le h]

namespace InBounds

theorem ofSymbols (row : List Symbol) : (ofSymbols row).InBounds := by
  cases row with
  | nil => exact Nat.zero_lt_one
  | cons s row => exact Nat.succ_pos row.length

theorem write (h : t.InBounds) (s : Symbol) : (t.write s).InBounds := by
  unfold InBounds size at h ⊢
  rw [IndexedTape.write, if_pos h, List.length_set]
  exact h

theorem moveLeft (h : t.InBounds) : t.moveLeft.InBounds := by
  unfold InBounds size at h ⊢
  rw [IndexedTape.moveLeft]
  split
  · -- the head stays where it is, and the row has one cell more
    exact Nat.lt_succ_of_lt h
  · rename_i hne
    rw [Place.toNat_pred hne]
    exact Nat.lt_of_le_of_lt (Nat.sub_le _ _) h

theorem moveRight (h : t.InBounds) (hrange : t.position.toNat + 1 < 2 ^ 64) :
    t.moveRight.InBounds := by
  unfold InBounds size at h ⊢
  rw [IndexedTape.moveRight, Place.toNat_succ hrange]
  split
  · rename_i hend
    rw [List.length_append, ← hend]
    exact Nat.lt_succ_self _
  · rename_i hend
    exact Nat.lt_of_le_of_ne h hend

/-- Wherever the head was, it is on a cell then. -/
theorem moveTo (t : IndexedTape) {n : Place} (hrange : n.toNat + 1 < 2 ^ 64) :
    (t.moveTo n).InBounds := by
  unfold InBounds size
  rw [IndexedTape.moveTo]
  split
  · rw [length_resize, Place.toNat_succ hrange]
    exact Nat.lt_succ_self _
  · rename_i hlt
    exact Nat.lt_of_not_le hlt

theorem perform (h : t.InBounds) {op : Tape.Operation} (hrange : t.InRange op) :
    (t.perform op).InBounds := by
  cases op with
  | left => exact h.moveLeft
  | right => exact h.moveRight hrange
  | shift m =>
      cases m with
      | left => exact h.moveLeft
      | right => exact h.moveRight hrange
  | write s => exact h.write s
  | moveTo n => exact moveTo t hrange

theorem performAll (h : t.InBounds) {ops : List Tape.Operation} (hrange : t.InRangeAll ops) :
    (t.performAll ops).InBounds := by
  induction ops generalizing t with
  | nil => exact h
  | cons op ops ih => exact ih (h.perform hrange.1) hrange.2

end InBounds

/-! ## The tape that is kept -/

/-- The cells are those of `t`, and the head is on the same one. -/
structure Keeps (r : IndexedTape) (t : Tape) : Prop where
  cells : r.cells = t.cells
  position : r.position.toNat = t.position

namespace Keeps

variable {r : IndexedTape} {t : Tape}

theorem size (h : r.Keeps t) : r.size = t.size := by
  rw [IndexedTape.size, h.cells, t.length_cells]

theorem ofSymbols (row : List Symbol) : (ofSymbols row).Keeps (Tape.ofSymbols row) := by
  cases row with
  | nil => exact ⟨rfl, rfl⟩
  | cons s row => exact ⟨rfl, rfl⟩

theorem read (h : r.Keeps t) : r.read = t.read := by
  rw [IndexedTape.read, h.cells, h.position, t.getElem?_cells_position]
  rfl

theorem write (h : r.Keeps t) (s : Symbol) : (r.write s).Keeps (t.write s) := by
  have hlt : r.position.toNat < r.cells.length := by
    rw [h.position, h.cells, t.length_cells]
    exact t.position_lt_size
  rw [IndexedTape.write, if_pos hlt]
  refine ⟨?_, h.position⟩
  show r.cells.set r.position.toNat s = t.left.reverse ++ s :: t.right
  rw [h.cells, h.position, Tape.cells, Tape.position, ← List.length_reverse,
    List.set_append_right _ _ (Nat.le_refl _), Nat.sub_self]
  rfl

theorem moveLeft (h : r.Keeps t) : r.moveLeft.Keeps t.moveLeft := by
  have hzero : r.position = 0 ↔ t.left = [] := by
    rw [← Place.toNat_eq_zero_iff, h.position]
    exact List.length_eq_zero_iff
  rw [IndexedTape.moveLeft]
  split
  · rename_i hposition
    refine ⟨?_, ?_⟩
    · rw [t.cells_moveLeft, if_pos (hzero.mp hposition), ← h.cells]
      rfl
    · rw [t.position_moveLeft, ← h.position, hposition]
      rfl
  · rename_i hposition
    refine ⟨?_, ?_⟩
    · rw [t.cells_moveLeft, if_neg (mt hzero.mpr hposition), ← h.cells]
      rfl
    · rw [t.position_moveLeft, ← h.position]
      exact Place.toNat_pred hposition

theorem moveRight (h : r.Keeps t) (hrange : r.position.toNat + 1 < 2 ^ 64) :
    r.moveRight.Keeps t.moveRight := by
  have hnext : (r.position + 1).toNat = t.position + 1 := by
    rw [Place.toNat_succ hrange, h.position]
  have hend : t.position + 1 = t.cells.length ↔ t.right = [] := by
    have hsize : t.cells.length = t.position + 1 + t.right.length := t.length_cells
    rw [← List.length_eq_zero_iff]
    omega
  refine ⟨?_, ?_⟩
  · show (if (r.position + 1).toNat = r.cells.length then r.cells ++ [.blank] else r.cells) = _
    rw [hnext, h.cells, t.cells_moveRight]
    simp only [hend]
    split
    · rfl
    · rw [List.append_nil]
  · rw [t.position_moveRight]
    exact hnext

theorem moveTo (h : r.Keeps t) {n : Place} (hrange : n.toNat + 1 < 2 ^ 64) :
    (r.moveTo n).Keeps (t.moveTo n.toNat) := by
  refine ⟨?_, (t.position_moveTo n.toNat).symm⟩
  show (if r.cells.length ≤ n.toNat then resize r.cells (n + 1).toNat else r.cells) = _
  rw [Place.toNat_succ hrange, t.cells_moveTo, h.cells]
  split
  · rename_i hle
    exact resize_of_le (Nat.le_succ_of_le hle)
  · rename_i hlt
    rw [Nat.sub_eq_zero_of_le (Nat.lt_of_not_le hlt), List.replicate_zero, List.append_nil]

/-- Whatever is done to an indexed tape is done to the tape that it keeps. -/
theorem perform (h : r.Keeps t) {op : Tape.Operation} (hrange : r.InRange op) :
    (r.perform op).Keeps (t.perform op) := by
  cases op with
  | left => exact h.moveLeft
  | right => exact h.moveRight hrange
  | shift m =>
      cases m with
      | left => exact h.moveLeft
      | right => exact h.moveRight hrange
  | write s => exact h.write s
  | moveTo n => exact h.moveTo hrange

theorem performAll (h : r.Keeps t) {ops : List Tape.Operation} (hrange : r.InRangeAll ops) :
    (r.performAll ops).Keeps (t.performAll ops) := by
  induction ops generalizing r t with
  | nil => exact h
  | cons op ops ih => exact ih (h.perform hrange.1) hrange.2

end Keeps

/-- An indexed tape with its head on a cell keeps one tape, and no other one keeps any. -/
theorem tape?_eq_some_iff {r : IndexedTape} {t : Tape} : r.tape? = some t ↔ r.Keeps t := by
  constructor
  · intro h
    rw [tape?] at h
    split at h
    · cases h
    · rename_i s right hdrop
      have hlt : r.position.toNat < r.cells.length := by
        rw [← Nat.not_le, ← List.drop_eq_nil_iff, hdrop]
        exact List.cons_ne_nil s right
      cases h
      refine ⟨?_, ?_⟩
      · rw [Tape.cells, List.reverse_reverse, ← hdrop, List.take_append_drop]
      · rw [Tape.position, List.length_reverse, List.length_take_of_le (Nat.le_of_lt hlt)]
  · intro h
    have hcells : r.cells = t.left.reverse ++ t.head :: t.right := h.cells
    have hposition : r.position.toNat = t.left.reverse.length := by
      rw [List.length_reverse]
      exact h.position
    rw [tape?, hposition, hcells, List.drop_left, List.take_left, List.reverse_reverse]

theorem inBounds_iff_exists_keeps : t.InBounds ↔ ∃ u, t.Keeps u := by
  constructor
  · intro h
    cases htape : t.tape? with
    | some u => exact ⟨u, tape?_eq_some_iff.mp htape⟩
    | none =>
        rw [tape?] at htape
        split at htape
        · rename_i hdrop
          exact absurd h (Nat.not_lt.mpr (List.drop_eq_nil_iff.mp hdrop))
        · cases htape
  · rintro ⟨u, h⟩
    rw [InBounds, h.position, h.size]
    exact u.position_lt_size

end IndexedTape

theorem Tape.tape?_indexed {t : Tape} (h : t.position < 2 ^ 64) : t.indexed.tape? = some t :=
  IndexedTape.tape?_eq_some_iff.mpr ⟨rfl, UInt64.toNat_ofNat_of_lt h⟩

end TapeMachine
