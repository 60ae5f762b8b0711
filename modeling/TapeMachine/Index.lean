import TapeMachine.Numeral

/-!
# Instruction indices

Instructions are numbered by signed words of 64 bits. A scope may declare any
index but zero.
-/

namespace TapeMachine

abbrev Index := Int64

namespace Index

/-- The decimal numeral of an index. -/
def text (i : Index) : String :=
  toString i.toInt

/-- The word with the value `n`, if `n` is in range. -/
def ofInt? (n : Int) : Option Index :=
  if Int64.minValue.toInt ≤ n ∧ n ≤ Int64.maxValue.toInt then some (Int64.ofInt n) else none

end Index

end TapeMachine
