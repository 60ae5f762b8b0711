import TapeMachine.Graph.Text
import TapeMachine.Run.Event
import TapeMachine.Tape.Text

/-!
# Log records

The written form of events: a level, a message and named fields.
-/

namespace TapeMachine

inductive Level where
  | trace
  | debug
deriving DecidableEq, Repr

def Level.name : Level → String
  | trace => "TRACE"
  | debug => "DEBUG"

inductive FieldValue where
  | number (n : Int)
  | flag (b : Bool)
  | text (s : String)
deriving DecidableEq, Repr

structure Record where
  level : Level
  message : String
  fields : List (String × FieldValue) := []
deriving DecidableEq, Repr

/-! ## Recipes

A recipe is written as its name and its fields between braces. -/

def StateId.tagged (id : StateId) : String :=
  "StateId(" ++ toString id.number ++ ")"

def Target.tagged : Target → String
  | state id => "State(" ++ id.tagged ++ ")"
  | label l => "Ref(RefId(" ++ toString l.number ++ "))"

def Action.tagged : Action → String
  | move .left => "Move(Left)"
  | move .right => "Move(Right)"
  | write .mark => "Write(Mark)"
  | write .blank => "Write(Blank)"
  | noop => "Noop"

def Recipe.braced (name : String) (fields : List (String × String)) : String :=
  name ++ " \x7b " ++ ", ".intercalate (fields.map fun (field, value) => field ++ ": " ++ value) ++
    " \x7d"

def Recipe.text : Recipe → String
  | act action next => braced "Command" [("action", action.tagged), ("next", next.tagged)]
  | check marked blank => braced "Check" [("marked", marked.tagged), ("blank", blank.tagged)]
  | enter entry next => braced "Wrap" [("entry", entry.tagged), ("continuation", next.tagged)]

/-! ## Records -/

def CompileEvent.record : CompileEvent → Record
  | producing index command =>
    { level := .trace
      message := "producing state"
      fields := [("index", .number index.toInt), ("command", .text command.name)] }
  | reused recipe state =>
    { level := .trace
      message := "state cache hit"
      fields := [("key", .text recipe.text), ("state", .text state.text)] }
  | scopeBuilt first instructions inGroup entry =>
    { level := .debug
      message := "scope built"
      fields :=
        [("first", .number first.toInt), ("instructions", .number instructions),
          ("in_group", .flag inGroup), ("entry", .text entry.text)] }
  | subroutineBound name entry =>
    { level := .debug
      message := "subroutine bound"
      fields := [("subroutine", .text name), ("entry", .text entry.text)] }
  | groupInlined index members =>
    { level := .debug
      message := "group inlined"
      fields := [("index", .number index.toInt), ("commands", .number members)] }
  | rejected error =>
    { level := .debug
      message := "program rejected"
      fields := [("error", .text error.message)] }
  | compiled states recipes entry =>
    { level := .debug
      message := "program compiled"
      fields :=
        [("states", .number states), ("cached", .number recipes), ("entry", .text entry.text)] }
  | listing graph => { level := .trace, message := "state graph:\n" ++ graph.text }

def RunEvent.record : RunEvent → Record
  | step s depth =>
    { level := .trace
      message := "step"
      fields :=
        [("step", .number s.index), ("state", .text s.state.text), ("next", .text s.next.text),
          ("depth", .number depth)] }
  | halted steps => { level := .trace, message := "halted", fields := [("steps", .number steps)] }
  | limitReached limit state =>
    { level := .debug
      message := "step limit reached"
      fields := [("limit", .number limit), ("state", .text state.text)] }
  | finished steps tape =>
    { level := .debug
      message := "run finished"
      fields := [("steps", .number steps), ("tape", .text tape.text)] }

end TapeMachine
