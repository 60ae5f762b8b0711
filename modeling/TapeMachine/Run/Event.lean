import TapeMachine.Compile.Basic
import TapeMachine.Run.Basic

/-!
# Events of a run

What a run reports on its way: every step, that it halted or used up its budget,
and at the end of a completed run the tape.
-/

namespace TapeMachine

inductive RunEvent where
  /-- `depth` is the number of returns that are pending after the step. -/
  | step (step : Step) (depth : Nat)
  | halted (steps : Nat)
  | limitReached (limit : Nat) (state : StateId)
  | finished (steps : Nat) (tape : Tape)
deriving DecidableEq

/-- Runs an automaton on `tape` and reports the events on the way. -/
def Automaton.runLogged (a : Automaton) (limit : Nat) (tape : Tape) :
    Except RunError Nat × Array RunEvent :=
  let report := fun (events : Array RunEvent) step (c : Configuration) =>
    events.push (.step step c.returns.length)
  let (result, events, c) := a.graph.run report limit #[] { current := a.entry, tape := tape }
  match result with
  | .ok n => (.ok n, events ++ #[.halted n, .finished n c.tape])
  | .error (.longExecution n) =>
    (.error (.longExecution n), events.push (.limitReached n c.current))

end TapeMachine
