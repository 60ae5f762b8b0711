import TapeMachine.Graph.Basic
import TapeMachine.Tape.Basic

/-!
# Running a graph

A configuration is where a run stands. One step applies the transition of the
current state: if the state has a return, that is pushed first, and if the
transition leads to halt, the latest return is taken instead. A run halts where
no state is current, that is at halt with no return left or at an id without a
state.

`Graph.run` steps until the run halts or a number of steps is used up.
-/

namespace TapeMachine

structure Configuration where
  current : StateId
  /-- The returns that are pending, the latest first. -/
  returns : List StateId := []
  tape : Tape
  /-- How many steps led here. -/
  steps : Nat := 0
deriving DecidableEq, Repr

/-- One applied transition. -/
structure Step where
  /-- Steps are numbered from one. -/
  index : Nat
  state : StateId
  before : Symbol
  after : Symbol
  move : Option Movement
  /-- Where the run goes on, after any return. -/
  next : StateId
deriving DecidableEq, Repr

/-- What a step does to the cell under the head, and where it moves. -/
structure Effect where
  before : Symbol
  after : Symbol
  move : Option Movement
deriving DecidableEq, Repr

def Step.effect (s : Step) : Effect where
  before := s.before
  after := s.after
  move := s.move

inductive RunError where
  /-- The run has not halted within `limit` steps. -/
  | longExecution (limit : Nat)
deriving DecidableEq, Repr

def RunError.message : RunError → String
  | longExecution limit => "long execution: no halt within " ++ toString limit ++ " steps"

/-- Writes, then moves. -/
def Transition.apply {τ : Type} (t : Transition τ) (tape : Tape) : Tape :=
  let tape := match t.write with
    | none => tape
    | some s => tape.write s
  match t.move with
  | none => tape
  | some m => tape.move m

/-- Where to go on from a target: halt takes the latest return, if there is one. -/
def StateId.resume : StateId → List StateId → StateId × List StateId
  | .halt, r :: returns => (r, returns)
  | next, returns => (next, returns)

namespace Configuration

def isHalted (g : Graph) (c : Configuration) : Bool :=
  (g.state? c.current).isNone

/-- One step, unless the run has halted. -/
def step? (g : Graph) (c : Configuration) : Option (Step × Configuration) :=
  match g.state? c.current with
  | none => none
  | some s =>
    let t := s.table.forSymbol c.tape.read
    let (next, returns) := t.next.resume (s.returnTo.toList ++ c.returns)
    some (
      { index := c.steps + 1
        state := c.current
        before := c.tape.read
        after := t.write.getD c.tape.read
        move := t.move
        next := next },
      { current := next
        returns := returns
        tape := t.apply c.tape
        steps := c.steps + 1 })

theorem isNone_step? (g : Graph) (c : Configuration) : (c.step? g).isNone = c.isHalted g := by
  unfold step? isHalted
  cases g.state? c.current <;> rfl

end Configuration

/-- Steps until the run halts, `budget` times at most, and folds `report` over the steps and the
configurations that they lead to. Gives the number of steps taken. -/
def Graph.run {σ : Type} (g : Graph) (report : σ → Step → Configuration → σ) :
    Nat → σ → Configuration → Except RunError Nat × σ × Configuration
  | 0, acc, c =>
    if c.isHalted g then (.ok c.steps, acc, c)
    else (.error (.longExecution c.steps), acc, c)
  | budget + 1, acc, c =>
    match c.step? g with
    | none => (.ok c.steps, acc, c)
    | some (step, c') => g.run report budget (report acc step c') c'

end TapeMachine
