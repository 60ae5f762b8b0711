import TapeMachine.Graph.Basic

/-!
# Graphs as text

A graph is listed one state to a line. A table is written as one bracket for any
symbol or as two, marked first, and each bracket says what is written, where the
head moves and where to go on.
-/

namespace TapeMachine

def Symbol.quoted (s : Symbol) : String :=
  "'" ++ s.toChar.toString ++ "'"

/-- A bracket: the symbols it is for, then the effects, then the target. -/
def Transition.text (read : String) (t : Transition StateId) : String :=
  let write := match t.write with
    | none => ""
    | some s => " write " ++ s.quoted
  let move := match t.move with
    | none => ""
    | some m => " " ++ m.name
  "[" ++ read ++ write ++ move ++ " -> " ++ t.next.text ++ "]"

def Table.text : Table StateId → String
  | always t => t.text "any"
  | onSymbol marked blank =>
    marked.text Symbol.mark.quoted ++ " " ++ blank.text Symbol.blank.quoted

def State.text (s : State StateId) : String :=
  match s.returnTo with
  | none => s.table.text
  | some r => s.table.text ++ " returns to " ++ r.text

namespace Graph

/-- One line for each state, in order. -/
def lines (g : Graph) : List String :=
  g.states.toList.zipIdx.map fun (s, k) => (StateId.slot k).text ++ ": " ++ s.text

/-- The lines, each with its end. -/
def text (g : Graph) : String :=
  String.join (g.lines.map (· ++ "\n"))

end Graph

end TapeMachine
