/-!
# Symbols and movements

A cell of the tape holds one of two symbols, and the head moves by one cell
at a time. A symbol is written as one character, a space or an asterisk.
-/

namespace TapeMachine

/-- The content of one cell. -/
inductive Symbol where
  | blank
  | mark
deriving DecidableEq, Repr, Inhabited

namespace Symbol

def isMark : Symbol → Bool
  | blank => false
  | mark => true

def isBlank : Symbol → Bool
  | blank => true
  | mark => false

def toChar : Symbol → Char
  | blank => ' '
  | mark => '*'

def ofChar? (c : Char) : Option Symbol :=
  if c = ' ' then some blank
  else if c = '*' then some mark
  else none

theorem ofChar?_eq_some_iff {c : Char} {s : Symbol} :
    ofChar? c = some s ↔ c = s.toChar := by
  unfold ofChar?
  by_cases hb : c = ' '
  · subst hb
    cases s <;> simp [toChar]
  · by_cases hm : c = '*'
    · subst hm
      cases s <;> simp [toChar]
    · cases s <;> simp [toChar, hb, hm]

@[simp] theorem ofChar?_toChar (s : Symbol) : ofChar? s.toChar = some s :=
  ofChar?_eq_some_iff.2 rfl

@[simp] theorem toChar_inj {s s' : Symbol} : s.toChar = s'.toChar ↔ s = s' := by
  constructor
  · intro h
    rw [← Option.some_inj, ← ofChar?_toChar s, h, ofChar?_toChar]
  · rintro rfl
    rfl

/-- The row without the blanks at its ends. -/
def trim (row : List Symbol) : List Symbol :=
  ((row.dropWhile isBlank).reverse.dropWhile isBlank).reverse

/-- The text of a row of symbols, one character for each. -/
def rowText (row : List Symbol) : String :=
  String.ofList (row.map toChar)

end Symbol

/-- The two directions in which the head moves. -/
inductive Movement where
  | left
  | right
deriving DecidableEq, Repr

def Movement.name : Movement → String
  | left => "left"
  | right => "right"

end TapeMachine
