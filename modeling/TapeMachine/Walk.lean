import TapeMachine.Run.Basic
import TapeMachine.Scope

/-!
# Walking a program

What a program does, read off its instructions alone. A walk goes from one
instruction to the next and keeps the calls and groups that it is inside of.

A call costs a step and goes to the first instruction of the body, which is that
of the nearest scope around the call that declares the name. A group goes to its
first member at once, or after a step if that member is a call. At `stop` and
past the last instruction the latest call or group is taken up again, which
costs a step, and its continuation is next; if there is none the walk halts.
-/

namespace TapeMachine

namespace Scope

def body? (s : Scope) (name : Key) : Option Scope :=
  match s.get? name with
  | some (.subroutine body) => some body
  | _ => none

end Scope

/-- A place in a program: an instruction, or the end of a sequence of them. -/
structure Cursor where
  /-- The scopes around the place, the nearest first. -/
  scopes : List Scope
  /-- The sequence that the place is in. -/
  sequence : List (Index × Instruction)
  /-- The part of the sequence from the place on. -/
  rest : List (Index × Instruction)

namespace Cursor

/-- The first instruction of the nearest of `scopes`. -/
def start (scopes : List Scope) : Cursor :=
  let sequence := scopes.head?.elim [] Scope.numbered
  { scopes, sequence, rest := sequence }

/-- The instruction at the index `target` of the same sequence. -/
def jump (c : Cursor) (target : Index) : Cursor :=
  { c with rest := c.sequence.dropWhile (·.1 ≠ target) }

/-- Where the instruction at the place goes on. -/
def continuation (c : Cursor) : Cursor :=
  match c.rest with
  | [] => c
  | (_, i) :: following =>
    match i.next with
    | none => { c with rest := following }
    | some target => c.jump target

/-- The scopes around the body that `name` stands for, the body included. -/
def resolve (name : Key) : List Scope → Option (List Scope)
  | [] => none
  | s :: outer =>
    match s.body? name with
    | some body => some (body :: s :: outer)
    | none => resolve name outer

end Cursor

namespace Action

def apply (tape : Tape) : Action → Tape
  | move m => tape.move m
  | write s => tape.write s
  | noop => tape

def effect (tape : Tape) : Action → Effect
  | move m => { before := tape.read, after := tape.read, move := some m }
  | write s => { before := tape.read, after := s, move := none }
  | noop => { before := tape.read, after := tape.read, move := none }

end Action

structure Walk where
  cursor : Cursor
  /-- The calls and groups that the walk is inside of, the latest first. -/
  suspended : List Cursor := []
  tape : Tape
  /-- How many steps led here. -/
  steps : Nat := 0

namespace Walk

def start (program : Scope) (tape : Tape) : Walk where
  cursor := .start [program]
  tape := tape

/-- The step that does `action` and goes to `cursor`, inside of `suspended`. -/
def act (w : Walk) (action : Action) (cursor : Cursor) (suspended : List Cursor) : Effect × Walk :=
  (action.effect w.tape, { cursor, suspended, tape := action.apply w.tape, steps := w.steps + 1 })

/-- Takes up the latest call or group. -/
def resume? (w : Walk) : Option (Effect × Walk) :=
  match w.suspended with
  | [] => none
  | c :: suspended => some (w.act .noop c.continuation suspended)

/-- Goes into a group. -/
def enterGroup? (w : Walk) (members : List Instruction) : Option (Effect × Walk) :=
  let sequence := numberMembers members
  let inside (rest : List (Index × Instruction)) : Cursor := { w.cursor with sequence, rest }
  match sequence with
  | [] => none
  | (_, first) :: following =>
    match first.command with
    | .act action => some (w.act action (inside following) (w.cursor :: w.suspended))
    | _ => some (w.act .noop (inside sequence) (w.cursor :: w.suspended))

/-- One step, unless the walk has halted. -/
def step? (w : Walk) : Option (Effect × Walk) :=
  match w.cursor.rest with
  | [] => w.resume?
  | (_, i) :: _ =>
    match i.command with
    | .act action => some (w.act action w.cursor.continuation w.suspended)
    | .stop => w.resume?
    | .check ifMarked otherwise =>
      let target := if w.tape.read = .mark then ifMarked else otherwise
      some (w.act .noop (w.cursor.jump target) w.suspended)
    | .call name =>
      match Cursor.resolve name w.cursor.scopes with
      | none => none
      | some scopes => some (w.act .noop (.start scopes) (w.cursor :: w.suspended))
    | .group members => w.enterGroup? members

/-- Steps until the walk halts, `budget` times at most, and folds `report` over what the steps do.
Gives the number of steps taken. -/
def run {σ : Type} (report : σ → Effect → σ) : Nat → σ → Walk → Except RunError Nat × σ × Walk
  | 0, acc, w =>
    if w.step?.isNone then (.ok w.steps, acc, w)
    else (.error (.longExecution w.steps), acc, w)
  | budget + 1, acc, w =>
    match w.step? with
    | none => (.ok w.steps, acc, w)
    | some (effect, w') => run report budget (report acc effect) w'

end Walk

/-- Walks a program from its first instruction. Gives the number of steps, what `report` made of
them and the tape as the walk left it. -/
def Scope.walk {σ : Type} (program : Scope) (report : σ → Effect → σ) (init : σ) (limit : Nat)
    (tape : Tape) : Except RunError Nat × σ × Tape :=
  let (result, acc, w) := Walk.run report limit init (.start program tape)
  (result, acc, w.tape)

end TapeMachine
