import TapeMachine.Compile.Basic
import TapeMachine.Run.Stepwise

/-!
# Machines

A machine is an automaton with a tape of its own. It runs on that tape, which
keeps what the run left on it, or on a tape that it is given.
-/

namespace TapeMachine

/-- The number of steps after which a run is given up unless another is asked for. -/
def defaultLimit : Nat := 100000

structure Machine where
  automaton : Automaton
  tape : Tape := Tape.blank
deriving DecidableEq

namespace Machine

variable {σ : Type}

def compile (program : Scope) : Except CompileError Machine :=
  program.compile.map fun a => { automaton := a }

/-- Runs on `tape` and folds `report` over the steps. Gives the number of steps, what `report`
made of them and the tape as the run left it. -/
def runOn (m : Machine) (report : σ → Step → σ) (init : σ) (limit : Nat) (tape : Tape) :
    Except RunError Nat × σ × Tape :=
  let (result, acc, c) := m.automaton.graph.run (fun acc step _ => report acc step) limit init
    { current := m.automaton.entry, tape := tape }
  (result, acc, c.tape)

/-- Runs on the machine's own tape. -/
def run (m : Machine) (report : σ → Step → σ) (init : σ) (limit : Nat) :
    Except RunError Nat × σ × Machine :=
  let (result, acc, tape) := m.runOn report init limit m.tape
  (result, acc, { m with tape := tape })

/-- A run on the machine's own tape, to be taken step by step. -/
def stepwise (m : Machine) (limit : Nat) : Run :=
  .start m.automaton.graph m.automaton.entry m.tape limit

/-- Puts in another tape and gives back the old one. -/
def replaceTape (m : Machine) (tape : Tape) : Tape × Machine :=
  (m.tape, { m with tape := tape })

end Machine

end TapeMachine
