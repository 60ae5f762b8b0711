import TapeMachine.Tape.Text

/-!
# Tapes as numbered cells

A tape can be kept as the row of its cells and the number of the cell that the head is
on. Numbers are words of 64 bits. Nothing in the type says that there is a cell with the
number of the head: reading gives a blank if there is none, and writing does nothing.

Such a cell is there as long as no number goes past the greatest word, and then the tape
is a `Tape`. To go to the cell with the greatest number takes away all cells instead, as
one more than it is zero.
-/

namespace TapeMachine

/-- The number of a cell in its row, counted from the left. -/
abbrev Place := UInt64

structure IndexedTape where
  cells : List Symbol
  position : Place
deriving DecidableEq, Repr

namespace IndexedTape

/-- One blank cell. -/
def blank : IndexedTape where
  cells := [.blank]
  position := 0

instance : Inhabited IndexedTape := ⟨blank⟩

/-- The head is on the first cell. If there are no symbols, there is one blank cell. -/
def ofSymbols (row : List Symbol) : IndexedTape :=
  if row.isEmpty then blank else { cells := row, position := 0 }

def size (t : IndexedTape) : Nat :=
  t.cells.length

/-- A tape is taken to have cells. -/
def isEmpty (_ : IndexedTape) : Bool :=
  false

def read (t : IndexedTape) : Symbol :=
  t.cells[t.position.toNat]?.getD .blank

def write (t : IndexedTape) (s : Symbol) : IndexedTape :=
  if t.position.toNat < t.cells.length then { t with cells := t.cells.set t.position.toNat s }
  else t

/-- At the first cell the number stays and all cells get the next one. -/
def moveLeft (t : IndexedTape) : IndexedTape :=
  if t.position = 0 then { t with cells := .blank :: t.cells }
  else { t with position := t.position - 1 }

def moveRight (t : IndexedTape) : IndexedTape where
  cells := if (t.position + 1).toNat = t.cells.length then t.cells ++ [.blank] else t.cells
  position := t.position + 1

def move (t : IndexedTape) : Movement → IndexedTape
  | .left => t.moveLeft
  | .right => t.moveRight

/-- The first `n` symbols of the row, and blanks for those that it does not have. -/
def resize (row : List Symbol) (n : Nat) : List Symbol :=
  row.take n ++ List.replicate (n - row.length) .blank

/-- Puts the head on a cell. If there is no such cell, there are `n + 1` cells afterwards, where
the sum is a word. -/
def moveTo (t : IndexedTape) (n : Place) : IndexedTape where
  cells := if t.cells.length ≤ n.toNat then resize t.cells (n + 1).toNat else t.cells
  position := n

def text (t : IndexedTape) : String :=
  Symbol.rowText t.cells

def trimmedText (t : IndexedTape) : String :=
  Symbol.rowText (Symbol.trim t.cells)

/-- The tape with these cells and the head on the first; one blank cell for the empty text. -/
def parse (s : String) : Except TapeError IndexedTape :=
  (Tape.parseSymbols 0 s.toList).map ofSymbols

/-- The cells on either side of the head, if the head is on a cell. -/
def tape? (t : IndexedTape) : Option Tape :=
  match t.cells.drop t.position.toNat with
  | [] => none
  | s :: right => some { left := (t.cells.take t.position.toNat).reverse, head := s, right := right }

end IndexedTape

/-- The same tape with its head given by a number. -/
def Tape.indexed (t : Tape) : IndexedTape where
  cells := t.cells
  position := UInt64.ofNat t.position

end TapeMachine
