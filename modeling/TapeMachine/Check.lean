import TapeMachine.Compile.Error
import TapeMachine.Scope

/-!
# Checking a program

The rules that a program has to keep, tested without making any state. The first
rule that is broken is reported: in each scope the keys come first, then the
bodies, then the instructions, each in the order of the scope.
-/

namespace TapeMachine

namespace Instruction

/-- A continuation is left out, or it is a declared index other than the instruction's own. -/
def checkNext (declared : List Index) (index : Index) : Option Index → Except CompileError Unit
  | none => .ok ()
  | some target =>
    if target = index then .error (.endlessLoop index)
    else if target ∈ declared then .ok ()
    else .error (.undeclaredNext index target)

def checkBranches (declared : List Index) (index ifMarked otherwise : Index) :
    Except CompileError Unit :=
  if ifMarked ∉ declared then .error (.undeclaredNext index ifMarked)
  else if otherwise ∉ declared then .error (.undeclaredNext index otherwise)
  else if ifMarked = otherwise then .error (.equalBranches index)
  else if ifMarked = index ∨ otherwise = index then .error (.possibleLoop index)
  else .ok ()

def checkCallee (visible : List Key) (name : Key) : Except CompileError Unit :=
  if !name.isName then .error (.malformedName name)
  else if name ∈ visible then .ok ()
  else .error (.undefinedSubroutine name)

def checkNoNext (index : Index) (i : Instruction) : Except CompileError Unit :=
  if i.next.isSome then .error (.refusedInGroup index i.kind) else .ok ()

/-- A member of a group acts or calls, and gives no continuation. -/
def checkMember (visible : List Key) (index : Index) (i : Instruction) :
    Except CompileError Unit :=
  match i.command with
  | .act _ => checkNoNext index i
  | .call name => do
    checkCallee visible name
    checkNoNext index i
  | .stop | .check _ _ =>
    if i.next.isSome then .error (.refusedNext index i.kind)
    else .error (.refusedInGroup index i.kind)
  | .group _ => .error (.nestedGroup index)

def checkMembers (visible : List Key) (index : Index) (members : List Instruction) :
    Except CompileError Unit :=
  if members.isEmpty then .error (.emptyGroup index)
  else if members.any (·.command.isGroup) then .error (.nestedGroup index)
  else (numberMembers members).forM fun (k, m) => checkMember visible k m

/-- Tests the instruction at `index` of a scope that declares the indices `declared`. -/
def check (visible : List Key) (declared : List Index) (index : Index) (i : Instruction) :
    Except CompileError Unit :=
  match i.command with
  | .act _ => checkNext declared index i.next
  | .stop => if i.next.isSome then .error (.refusedNext index .stop) else .ok ()
  | .check ifMarked otherwise =>
    if i.next.isSome then .error (.refusedNext index .check)
    else checkBranches declared index ifMarked otherwise
  | .call name => do
    checkCallee visible name
    checkNext declared index i.next
  | .group members => do
    checkMembers visible index members
    checkNext declared index i.next

end Instruction

namespace Key

/-- What is wrong with a key that is neither an index nor a name. -/
def malformed (k : Key) : CompileError :=
  if k.looksNumeric then .malformedIndex k else .malformedName k

end Key

namespace Scope

/-- Every index stands over an instruction and is there once, every name stands over a body, and
there are no other keys; `seen` holds the indices that came before. -/
def checkKeys (seen : List Index) : Scope → Except CompileError Unit
  | nil => .ok ()
  | instr key _ rest =>
    match key.index? with
    | some index =>
      if index ∈ seen then .error (.repeatedIndex index) else rest.checkKeys (index :: seen)
    | none => if key.isName then .error (.bodyExpected key) else .error key.malformed
  | sub key _ rest =>
    match key.index? with
    | some index => .error (.instructionExpected index)
    | none => if key.isName then rest.checkKeys seen else .error key.malformed

/-- Tests a scope; `bodies` tests the bodies in it, given the names that they can call. -/
def checkWith (bodies : List Key → Except CompileError Unit) (s : Scope) (visible : List Key) :
    Except CompileError Unit := do
  s.checkKeys []
  if s.numbered.isEmpty then throw .emptyScope
  let visible := s.subroutines.map Prod.fst ++ visible
  let declared := s.numbered.map Prod.fst
  bodies visible
  s.numbered.forM fun (index, i) => i.check visible declared index

def checkBodies : Scope → List Key → Except CompileError Unit
  | nil, _ => .ok ()
  | instr _ _ rest, visible => rest.checkBodies visible
  | sub _ body rest, visible => do
    checkWith body.checkBodies body visible
    rest.checkBodies visible

/-- Tests a scope in which the names of `visible` can be called from outside. -/
def check (s : Scope) (visible : List Key) : Except CompileError Unit :=
  checkWith s.checkBodies s visible

end Scope

end TapeMachine
