import TapeMachine.Symbol

/-!
# The tape

A tape is a finite row of cells with a head on one of them. It is kept as the
cells on either side of the head, so that the head is always on a cell and a
row is never empty. Moving past either end adds a blank cell there.

`cells` and `position` are the row read from the left and the place of the
head in it. A tape that is kept as these two is an `IndexedTape`.
-/

namespace TapeMachine

structure Tape where
  /-- The cells left of the head, the nearest first. -/
  left : List Symbol
  head : Symbol
  /-- The cells right of the head, the nearest first. -/
  right : List Symbol
deriving DecidableEq, Repr

namespace Tape

/-- One blank cell. -/
def blank : Tape where
  left := []
  head := .blank
  right := []

instance : Inhabited Tape := ⟨blank⟩

/-- The row `cells` with the head on its first cell; one blank cell if there are none. -/
def ofSymbols : List Symbol → Tape
  | [] => blank
  | s :: rest => { left := [], head := s, right := rest }

def cells (t : Tape) : List Symbol :=
  t.left.reverse ++ t.head :: t.right

/-- How many cells stand left of the head. -/
def position (t : Tape) : Nat :=
  t.left.length

def size (t : Tape) : Nat :=
  t.left.length + 1 + t.right.length

def read (t : Tape) : Symbol :=
  t.head

def write (t : Tape) (s : Symbol) : Tape :=
  { t with head := s }

def moveLeft (t : Tape) : Tape :=
  match t.left with
  | [] => { left := [], head := .blank, right := t.head :: t.right }
  | s :: rest => { left := rest, head := s, right := t.head :: t.right }

def moveRight (t : Tape) : Tape :=
  match t.right with
  | [] => { left := t.head :: t.left, head := .blank, right := [] }
  | s :: rest => { left := t.head :: t.left, head := s, right := rest }

def move (t : Tape) : Movement → Tape
  | .left => t.moveLeft
  | .right => t.moveRight

/-- Moves the head right `n` times. -/
def advance : Nat → Tape → Tape
  | 0, t => t
  | n + 1, t => advance n t.moveRight

/-- Puts the head on the cell number `n`, counted from the leftmost cell. There is no greatest
number here; for cells that are numbered by words see `IndexedTape.moveTo`. -/
def moveTo (t : Tape) (n : Nat) : Tape :=
  (ofSymbols t.cells).advance n

/-- The cells from the first mark to the last one. -/
def trimmed (t : Tape) : List Symbol :=
  Symbol.trim t.cells

theorem length_cells (t : Tape) : t.cells.length = t.size := by
  simp [cells, size]
  omega

theorem position_lt_size (t : Tape) : t.position < t.size := by
  simp only [position, size]
  omega

@[simp] theorem cells_ofSymbols_cons (s : Symbol) (rest : List Symbol) :
    (ofSymbols (s :: rest)).cells = s :: rest := rfl

@[simp] theorem cells_moveRight (t : Tape) :
    t.moveRight.cells = t.cells ++ if t.right = [] then [.blank] else [] := by
  rcases t with ⟨l, h, r⟩
  cases r <;> simp [moveRight, cells]

@[simp] theorem cells_moveLeft (t : Tape) :
    t.moveLeft.cells = (if t.left = [] then [.blank] else []) ++ t.cells := by
  rcases t with ⟨l, h, r⟩
  cases l <;> simp [moveLeft, cells]

@[simp] theorem position_moveRight (t : Tape) : t.moveRight.position = t.position + 1 := by
  rcases t with ⟨l, h, r⟩
  cases r <;> simp [moveRight, position]

@[simp] theorem position_moveLeft (t : Tape) : t.moveLeft.position = t.position - 1 := by
  rcases t with ⟨l, h, r⟩
  cases l <;> simp [moveLeft, position]

end Tape

end TapeMachine
