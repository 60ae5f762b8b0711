import TapeMachine.Compile.Draft

/-!
# Sequences of instructions

The instructions of a scope, or the members of a group, are compiled together.
Each has a label, so that it can go on at any other; then they are made in order
and the labels placed on their states.

`instruction` makes the state of one instruction at its site. The index that
follows in the sequence is the default to go on at; past the last one the
machine halts.
-/

namespace TapeMachine

/-- The subroutines in sight with their entries, the nearest declaration first. -/
abbrev Visible := List (Key × StateId)

/-- The entry of the subroutine that a call of `name` runs. -/
def Visible.callee (visible : Visible) (name : Key) : Except CompileError StateId :=
  if !name.isName then .error (.malformedName name)
  else
    match visible.lookup name with
    | none => .error (.undefinedSubroutine name)
    | some entry => .ok entry

/-- An instruction of a sequence. -/
structure Line where
  index : Index
  instruction : Instruction
  label : Label
deriving DecidableEq

/-- An instruction together with what can be seen from it. -/
structure Site where
  line : Line
  /-- The index that comes after it. -/
  following : Option Index
  /-- All lines of its sequence. -/
  lines : List Line
  inGroup : Bool

namespace Site

def index (s : Site) : Index :=
  s.line.index

def kind (s : Site) : CommandKind :=
  s.line.instruction.kind

/-- The line with the index `target`. -/
def branch (s : Site) (target : Index) : Except CompileError Target :=
  match s.lines.find? (·.index = target) with
  | none => .error (.undeclaredNext s.index target)
  | some line => .ok (.label line.label)

/-- Where the instruction goes on: at the index it gives, else at the following one, else halt. -/
def continuation (s : Site) : Except CompileError Target :=
  if s.inGroup && s.line.instruction.next.isSome then .error (.refusedInGroup s.index s.kind)
  else
    match s.line.instruction.next <|> s.following with
    | none => .ok (.state .halt)
    | some target => if target = s.index then .error (.endlessLoop s.index) else s.branch target

/-- Fails for a command that takes no continuation and is not admitted in a group. -/
def requireFinal (s : Site) : Except CompileError Unit :=
  if s.line.instruction.next.isSome then .error (.refusedNext s.index s.kind)
  else if s.inGroup then .error (.refusedInGroup s.index s.kind)
  else .ok ()

/-- The two targets of a check, which are declared, different and not the check itself. -/
def branches (s : Site) (ifMarked otherwise : Index) : Except CompileError (Target × Target) := do
  s.requireFinal
  let marked ← s.branch ifMarked
  let blank ← s.branch otherwise
  if ifMarked = otherwise then .error (.equalBranches s.index)
  else if s.index = ifMarked ∨ s.index = otherwise then .error (.possibleLoop s.index)
  else .ok (marked, blank)

end Site

namespace Build

/-- Makes the state of one instruction; `group` makes that of a group. -/
def instructionWith (group : Site → List Instruction → Build StateId) (visible : Visible)
    (s : Site) : Build StateId := do
  emit (.producing s.index s.kind)
  match s.line.instruction.command with
  | .act action => act action (← ofExcept s.continuation)
  | .stop =>
    ofExcept s.requireFinal
    return .halt
  | .check ifMarked otherwise =>
    let (marked, blank) ← ofExcept (s.branches ifMarked otherwise)
    check marked blank
  | .call name =>
    let entry ← ofExcept (visible.callee name)
    enter entry (← ofExcept s.continuation)
  | .group members => group s members

/-- Makes the state of the line that stands before `rest` and places its label. -/
def line (make : Site → Build StateId) (inGroup : Bool) (lines : List Line) (l : Line)
    (rest : List Line) : Build Unit := do
  let id ← make { line := l, following := rest.head?.map (·.index), lines, inGroup }
  place l.label id

def eachLine (make : Site → Build StateId) (inGroup : Bool) (lines : List Line) :
    List Line → Build Unit
  | [] => pure ()
  | l :: rest => do
    line make inGroup lines l rest
    eachLine make inGroup lines rest

def labelled : List (Index × Instruction) → Build (List Line)
  | [] => return []
  | (index, instruction) :: rest => do
    let label ← newLabel
    return { index, instruction, label } :: (← labelled rest)

/-- Makes all states of a sequence and gives that of its first instruction. -/
def sequence (make : Site → Build StateId) (inGroup : Bool)
    (numbered : List (Index × Instruction)) : Build StateId := do
  let lines ← labelled numbered
  match lines with
  | [] => throw .emptyScope
  | first :: _ =>
    eachLine make inGroup lines lines
    let entry ← placeOf first.label
    emit (.scopeBuilt first.index lines.length inGroup entry)
    return entry

/-- Makes the state of a member of a group. -/
def member (visible : Visible) : Site → Build StateId :=
  instructionWith (fun s _ => throw (.nestedGroup s.index)) visible

/-- Makes the members of a group and a state that enters the first of them. -/
def group (visible : Visible) (s : Site) (members : List Instruction) : Build StateId :=
  if members.isEmpty then throw (.emptyGroup s.index)
  else if members.any (·.command.isGroup) then throw (.nestedGroup s.index)
  else do
    let entry ← sequence (member visible) true (numberMembers members)
    emit (.groupInlined s.index members.length)
    enter entry (← ofExcept s.continuation)

def instruction (visible : Visible) : Site → Build StateId :=
  instructionWith (group visible) visible

end Build

end TapeMachine
