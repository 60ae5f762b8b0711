import TapeMachine.Instruction
import TapeMachine.Key

/-!
# Why a program is refused

Each cause carries what its message names. The index in a cause is the one that
the instruction has in its scope, or its place in its group.

No cause says that there are too many labels or states. They are numbered by natural
numbers here. Where the numbers are words of 32 bits, a program that needs more labels or
states than there are words has to be refused as well.
-/

namespace TapeMachine

inductive CompileError where
  | emptyScope
  /-- A key that looks like a number and is no index. -/
  | malformedIndex (key : Key)
  /-- The same index under two spellings. -/
  | repeatedIndex (index : Index)
  | malformedName (name : Key)
  /-- An instruction under a name. -/
  | bodyExpected (name : Key)
  /-- A body under an index. -/
  | instructionExpected (index : Index)
  | emptyGroup (index : Index)
  | nestedGroup (index : Index)
  | undeclaredNext (index target : Index)
  /-- An instruction that goes on at itself. -/
  | endlessLoop (index : Index)
  /-- A check with a branch to itself. -/
  | possibleLoop (index : Index)
  | equalBranches (index : Index)
  | undefinedSubroutine (name : Key)
  /-- A command, or a continuation, that a group does not admit. -/
  | refusedInGroup (index : Index) (command : CommandKind)
  /-- A continuation given to a command that takes none. -/
  | refusedNext (index : Index) (command : CommandKind)
  /-- A label that was never placed. -/
  | unplacedLabel
deriving DecidableEq, Repr

def CompileError.message : CompileError → String
  | emptyScope => "there are no instructions"
  | malformedIndex key => "invalid instruction index: '" ++ key ++ "'"
  | repeatedIndex index => "duplicate instruction index: " ++ index.text
  | malformedName name => "invalid subroutine name: '" ++ name ++ "'"
  | bodyExpected name => "invalid body of the '" ++ name ++ "' subroutine"
  | instructionExpected index => "invalid instruction at " ++ index.text
  | emptyGroup index => "empty group at instruction " ++ index.text
  | nestedGroup index => "invalid command in the group at instruction " ++ index.text
  | undeclaredNext index target =>
    "invalid next instruction index " ++ target.text ++ " at instruction " ++ index.text
  | endlessLoop index => "infinite loop at instruction " ++ index.text
  | possibleLoop index => "potential infinite loop at instruction " ++ index.text
  | equalBranches index =>
    "next instruction indexes for the check at " ++ index.text ++ " must be unique"
  | undefinedSubroutine name => "undefined '" ++ name ++ "' subroutine"
  | refusedInGroup index command =>
    "inappropriate '" ++ command.name ++ "' command usage in a group at instruction " ++ index.text
  | refusedNext index command =>
    "inappropriate '" ++ command.name ++ "' command usage at instruction " ++ index.text
  | unplacedLabel => "unbound state reference"

end TapeMachine
