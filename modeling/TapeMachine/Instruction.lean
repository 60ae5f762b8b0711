import TapeMachine.Index
import TapeMachine.Symbol

/-!
# Instructions

An instruction is a command together with the index of the instruction to go on
with. Where that index is left out, the instruction that follows in its scope is
meant.
-/

namespace TapeMachine

/-- What one transition does to the tape. -/
inductive Action where
  | move (movement : Movement)
  | write (symbol : Symbol)
  | noop
deriving DecidableEq, Repr

mutual

inductive Command where
  | act (action : Action)
  | stop
  /-- Goes on at one of two instructions, chosen by the symbol under the head. -/
  | check (ifMarked otherwise : Index)
  /-- Runs a subroutine. -/
  | call (name : String)
  /-- Runs several instructions in a row. -/
  | group (members : List Instruction)

structure Instruction where
  command : Command
  /-- The instruction to go on with, if it is given. -/
  next : Option Index := none

end

/-- The commands apart from their arguments. -/
inductive CommandKind where
  | left
  | right
  | mark
  | erase
  | noop
  | stop
  | check
  | call
  | group
deriving DecidableEq, Repr

def CommandKind.name : CommandKind → String
  | left => "left"
  | right => "right"
  | mark => "mark"
  | erase => "erase"
  | noop => "noop"
  | stop => "stop"
  | check => "check"
  | call => "call"
  | group => "group"

def Action.kind : Action → CommandKind
  | move .left => .left
  | move .right => .right
  | write .mark => .mark
  | write .blank => .erase
  | noop => .noop

namespace Command

def kind : Command → CommandKind
  | act action => action.kind
  | stop => .stop
  | check _ _ => .check
  | call _ => .call
  | group _ => .group

def isGroup : Command → Bool
  | group _ => true
  | _ => false

end Command

namespace Instruction

def kind (i : Instruction) : CommandKind :=
  i.command.kind

/-- The same command with `next` to go on with. -/
def goOn (i : Instruction) (next : Index) : Instruction :=
  { i with next := some next }

end Instruction

/-- The members of a group are numbered from one. -/
def numberMembers (members : List Instruction) : List (Index × Instruction) :=
  members.zipIdx.map fun (i, k) => (Int64.ofNat (k + 1), i)

/-! ## Equality -/

mutual

def Command.decEq : (a b : Command) → Decidable (a = b)
  | .act x, .act y => decidable_of_iff (x = y) (by simp)
  | .stop, .stop => isTrue rfl
  | .check m o, .check m' o' => decidable_of_iff (m = m' ∧ o = o') (by simp)
  | .call n, .call n' => decidable_of_iff (n = n') (by simp)
  | .group ms, .group ms' =>
    have := Command.decEqMembers ms ms'
    decidable_of_iff (ms = ms') (by simp)
  | .act _, .stop | .act _, .check _ _ | .act _, .call _ | .act _, .group _
  | .stop, .act _ | .stop, .check _ _ | .stop, .call _ | .stop, .group _
  | .check _ _, .act _ | .check _ _, .stop | .check _ _, .call _ | .check _ _, .group _
  | .call _, .act _ | .call _, .stop | .call _, .check _ _ | .call _, .group _
  | .group _, .act _ | .group _, .stop | .group _, .check _ _ | .group _, .call _ =>
    isFalse (by simp)

def Instruction.decEq : (a b : Instruction) → Decidable (a = b)
  | ⟨c, n⟩, ⟨c', n'⟩ =>
    have := Command.decEq c c'
    decidable_of_iff (c = c' ∧ n = n') (by simp)

def Command.decEqMembers : (a b : List Instruction) → Decidable (a = b)
  | [], [] => isTrue rfl
  | [], _ :: _ => isFalse (by simp)
  | _ :: _, [] => isFalse (by simp)
  | i :: is, j :: js =>
    have := Instruction.decEq i j
    have := Command.decEqMembers is js
    decidable_of_iff (i = j ∧ is = js) (by simp)

end

instance : DecidableEq Command := Command.decEq

instance : DecidableEq Instruction := Instruction.decEq

end TapeMachine
