import TapeMachine.Compile.Outline
import TapeMachine.Compile.Sequence

/-!
# Compiling a program

A scope is compiled from its outline. First every subroutine gets a label and an
entry state that goes to the label, so that it can be called from every body,
its own included; then the bodies are compiled in order and the labels placed;
then the instructions of the scope itself. The entry of a scope is the state of
its first instruction.
-/

namespace TapeMachine

namespace Build

/-- Gives each subroutine an entry state and puts them before those that are visible already. The
labels that the entries go to are in the same order. -/
def declare (visible : Visible) : List (Key × Scope) → Build (Visible × List Label)
  | [] => return (visible, [])
  | (name, _) :: rest => do
    let label ← newLabel
    let entry ← addState { table := .always (.goto (.label label)) }
    let (visible, labels) ← declare visible rest
    return ((name, entry) :: visible, label :: labels)

/-- Compiles a scope; `bodies` compiles the bodies in it and places the labels it is given. -/
def scopeWith (bodies : Visible → List Label → Build Unit) (s : Scope) (visible : Visible) :
    Build StateId := do
  let o ← ofExcept s.outline
  let (visible, labels) ← declare visible o.subroutines
  bodies visible labels
  sequence (instruction visible) false o.instructions

/-- Compiles the bodies of a scope, one for each label. -/
def bodies : Scope → Visible → List Label → Build Unit
  | .nil, _, _ => pure ()
  | .instr _ _ rest, visible, labels => bodies rest visible labels
  | .sub _ _ _, _, [] => pure ()
  | .sub name body rest, visible, label :: labels => do
    let entry ← scopeWith (bodies body) body visible
    place label entry
    emit (.subroutineBound name entry)
    bodies rest visible labels

/-- Compiles a scope and gives its entry; `visible` holds the subroutines declared around it. -/
def scope (s : Scope) (visible : Visible) : Build StateId :=
  scopeWith (bodies s) s visible

end Build

/-- A graph with the state to start in. -/
structure Automaton where
  graph : Graph
  entry : StateId
deriving DecidableEq, Repr

namespace Scope

/-- Compiles a program and reports the events on the way. -/
def compileLogged (s : Scope) : Except CompileError Automaton × Array CompileEvent :=
  match Build.scope s [] {} with
  | .error e d => (.error e, d.events.push (.rejected e))
  | .ok entry d =>
    match d.link with
    | .error e => (.error e, d.events)
    | .ok graph =>
      (.ok { graph, entry },
        d.events ++ #[.compiled d.states.size d.recipes.size entry, .listing graph])

def compile (s : Scope) : Except CompileError Automaton :=
  s.compileLogged.1

end Scope

end TapeMachine
