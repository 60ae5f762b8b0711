import TapeMachine.Index

/-!
# Keys

Every entry of a scope stands under a key, a piece of text. A key that is the
numeral of a nonzero index declares an instruction, and one that is a name
declares a subroutine. The other keys are told apart only by whether they look
like a number, for the sake of the message.
-/

namespace TapeMachine

abbrev Key := String

/-- What a key can stand for. -/
inductive KeyKind where
  | index (value : Index)
  | name
  /-- Looks like a number and is no index. -/
  | numeric
  | other
deriving DecidableEq, Repr

namespace Key

/-- The index that the key declares: an integer numeral, in range and not zero. -/
def index? (k : Key) : Option Index :=
  match Numeral.int? k.toList with
  | none => none
  | some n => if n = 0 then none else Index.ofInt? n

def isIndex (k : Key) : Bool :=
  k.index?.isSome

def isNameStart (c : Char) : Bool :=
  c.isAlpha || c == '_' || c == '$'

def isNameRest (c : Char) : Bool :=
  isNameStart c || c.isDigit

/-- Letters, digits, underscores and dollar signs, with no digit in front. -/
def isName (k : Key) : Bool :=
  match k.toList with
  | [] => false
  | c :: cs => isNameStart c && cs.all isNameRest

def isNumericStart (c : Char) : Bool :=
  c.isDigit || c == '-' || c == '+' || c == '.'

/-- A decimal that does not begin with a letter. -/
def looksNumeric (k : Key) : Bool :=
  match k.toList with
  | [] => false
  | c :: cs => isNumericStart c && Numeral.isDecimal (c :: cs)

def kind (k : Key) : KeyKind :=
  match k.index? with
  | some i => .index i
  | none =>
    if k.isName then .name
    else if k.looksNumeric then .numeric
    else .other

end Key

end TapeMachine
