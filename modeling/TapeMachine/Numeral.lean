/-!
# Numerals

Two grammars of numbers, read on lists of characters. An integer is a row of
ASCII digits after at most one sign. A decimal also admits a point, an exponent
and the words for infinity and for no number; only its shape matters, so there
is a test for it and no value.
-/

namespace TapeMachine.Numeral

def isDigits (cs : List Char) : Bool :=
  !cs.isEmpty && cs.all Char.isDigit

def nat? (cs : List Char) : Option Nat :=
  if isDigits cs then some (Nat.ofDigitChars 10 cs 0) else none

/-- The integer written by at most one sign and at least one digit. -/
def int? : List Char → Option Int
  | '-' :: cs => (nat? cs).map fun n => -(n : Int)
  | '+' :: cs => (nat? cs).map fun n => (n : Int)
  | cs => (nat? cs).map fun n => (n : Int)

/-- What follows the sign, if there is one. -/
def dropSign : List Char → List Char
  | '-' :: cs => cs
  | '+' :: cs => cs
  | cs => cs

/-- Either nothing, or the letter `e` in any case, at most one sign and at least one digit. -/
def isExponent : List Char → Bool
  | [] => true
  | c :: cs => (c == 'e' || c == 'E') && isDigits (dropSign cs)

/-- Digits with at most one point among them, at least one digit, and an exponent. -/
def isPositional (cs : List Char) : Bool :=
  match cs.dropWhile Char.isDigit with
  | '.' :: rest =>
    !(cs.takeWhile Char.isDigit ++ rest.takeWhile Char.isDigit).isEmpty &&
      isExponent (rest.dropWhile Char.isDigit)
  | rest => !(cs.takeWhile Char.isDigit).isEmpty && isExponent rest

/-- The words for infinity and for no number, in any case. -/
def isWord (cs : List Char) : Bool :=
  ["inf".toList, "infinity".toList, "nan".toList].contains (cs.map Char.toLower)

def isDecimal (cs : List Char) : Bool :=
  isWord (dropSign cs) || isPositional (dropSign cs)

end TapeMachine.Numeral
