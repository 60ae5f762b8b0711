import TapeMachine.Compile.Error
import TapeMachine.Scope

/-!
# Outlines

The outline of a scope is what its keys declare: subroutines by name and
instructions by index, each in the order of the scope. A scope has no outline if
a key declares nothing, an entry is not of the kind that its key asks for, an
index comes twice, or there is no instruction.
-/

namespace TapeMachine

structure Outline where
  subroutines : List (Key × Scope) := []
  instructions : List (Index × Instruction) := []
deriving DecidableEq

namespace Outline

def addInstruction (o : Outline) (index : Index) (i : Instruction) : Outline :=
  { o with instructions := (index, i) :: o.instructions }

def addSubroutine (o : Outline) (name : Key) (body : Scope) : Outline :=
  { o with subroutines := (name, body) :: o.subroutines }

end Outline

namespace Scope

/-- What the entries declare; `declared` holds the indices declared before them. -/
def declarations (declared : List Index) : Scope → Except CompileError Outline
  | nil => .ok {}
  | instr key i rest =>
    match key.kind with
    | .index n =>
      if n ∈ declared then .error (.repeatedIndex n)
      else (rest.declarations (n :: declared)).map (·.addInstruction n i)
    | .name => .error (.bodyExpected key)
    | .numeric => .error (.malformedIndex key)
    | .other => .error (.malformedName key)
  | sub key body rest =>
    match key.kind with
    | .index n => .error (.instructionExpected n)
    | .name => (rest.declarations declared).map (·.addSubroutine key body)
    | .numeric => .error (.malformedIndex key)
    | .other => .error (.malformedName key)

def outline (s : Scope) : Except CompileError Outline := do
  let o ← s.declarations []
  if o.instructions.isEmpty then .error .emptyScope else .ok o

end Scope

end TapeMachine
