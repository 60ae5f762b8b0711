import TapeMachine.Run.Basic

/-!
# Runs one step at a time

A run in progress gives its steps on demand. After it has halted or has reported
that its budget is used up, it gives nothing more.
-/

namespace TapeMachine

structure Run where
  graph : Graph
  configuration : Configuration
  /-- How many more steps may be taken. -/
  budget : Nat
  finished : Bool := false
deriving DecidableEq

namespace Run

def start (graph : Graph) (entry : StateId) (tape : Tape) (limit : Nat) : Run where
  graph := graph
  configuration := { current := entry, tape := tape }
  budget := limit

def current (r : Run) : StateId :=
  r.configuration.current

def steps (r : Run) : Nat :=
  r.configuration.steps

def tape (r : Run) : Tape :=
  r.configuration.tape

def isHalted (r : Run) : Bool :=
  r.configuration.isHalted r.graph

/-- The next step, or that the budget is used up, or nothing. -/
def next (r : Run) : Option (Except RunError Step) × Run :=
  if r.finished then (none, r)
  else
    match r.configuration.step? r.graph, r.budget with
    | none, _ => (none, { r with finished := true })
    | some _, 0 => (some (.error (.longExecution r.steps)), { r with finished := true })
    | some (step, c), budget + 1 =>
      (some (.ok step), { r with configuration := c, budget := budget })

variable {r : Run}

theorem next_of_finished (h : r.finished = true) : r.next = (none, r) := by
  simp [next, h]

theorem next_of_halted (hfinished : r.finished = false)
    (h : r.configuration.step? r.graph = none) : r.next = (none, { r with finished := true }) := by
  simp [next, hfinished, h]

theorem next_of_spent {p : Step × Configuration} (hfinished : r.finished = false)
    (h : r.configuration.step? r.graph = some p) (hbudget : r.budget = 0) :
    r.next = (some (.error (.longExecution r.steps)), { r with finished := true }) := by
  simp [next, hfinished, h, hbudget]

theorem next_of_step {step : Step} {c : Configuration} {budget : Nat}
    (hfinished : r.finished = false) (h : r.configuration.step? r.graph = some (step, c))
    (hbudget : r.budget = budget + 1) :
    r.next = (some (.ok step), { r with configuration := c, budget := budget }) := by
  simp [next, hfinished, h, hbudget]

end Run

end TapeMachine
