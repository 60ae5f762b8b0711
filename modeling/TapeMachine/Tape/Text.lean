import TapeMachine.Tape.Basic
import TapeMachine.Text.Quoted

/-!
# Tapes as text

A tape is written as its cells from left to right, and read back with the head
on the first cell. Reading fails at the first character that is no symbol.
-/

namespace TapeMachine

/-- A character that stands for no symbol, and how many characters stand before it. -/
structure TapeError where
  found : Char
  position : Nat
deriving DecidableEq, Repr

def TapeError.message (e : TapeError) : String :=
  "invalid tape symbol " ++ Text.quoted e.found ++ " at position " ++ toString e.position

namespace Tape

/-- All cells from left to right. -/
def text (t : Tape) : String :=
  Symbol.rowText t.cells

/-- The cells from the first mark to the last one. -/
def trimmedText (t : Tape) : String :=
  Symbol.rowText t.trimmed

/-- Reads characters as symbols; `position` is the place of the first of them in the text. -/
def parseSymbols (position : Nat) : List Char → Except TapeError (List Symbol)
  | [] => .ok []
  | c :: rest =>
    match Symbol.ofChar? c with
    | none => .error { found := c, position := position }
    | some s => (parseSymbols (position + 1) rest).map (s :: ·)

/-- The tape with these cells and the head on the first; one blank cell for the empty text. -/
def parse (s : String) : Except TapeError Tape :=
  (parseSymbols 0 s.toList).map ofSymbols

end Tape

end TapeMachine
