import Std.Data.TreeSet
import TapeMachine.Instruction

/-!
# State graphs

A state has a table of transitions, either one transition for every symbol or
one for each, and possibly a state to return to. Tables are parametric in what
they point to, since a state is first made with forward references and only
later with the ids of other states.

A graph is a row of states. The halt id names no state, and neither does an id
past the end of the row.
-/

namespace TapeMachine

inductive StateId where
  | halt
  /-- The state at place `k` of the row, counted from zero. -/
  | slot (k : Nat)
deriving DecidableEq, Repr

namespace StateId

/-- Halt has the number zero, and the states are numbered from one. -/
def number : StateId → Nat
  | halt => 0
  | slot k => k + 1

def ofNumber : Nat → StateId
  | 0 => halt
  | k + 1 => slot k

def isHalt : StateId → Bool
  | halt => true
  | slot _ => false

def text : StateId → String
  | halt => "halt"
  | slot k => "s" ++ toString (k + 1)

@[simp] theorem ofNumber_number (id : StateId) : ofNumber id.number = id := by
  cases id <;> rfl

@[simp] theorem number_ofNumber (n : Nat) : (ofNumber n).number = n := by
  cases n <;> rfl

theorem number_inj {a b : StateId} (h : a.number = b.number) : a = b := by
  rw [← ofNumber_number a, h, ofNumber_number]

/-! Ids are ordered by their numbers. -/

instance : Ord StateId := ⟨compareOn number⟩

instance : Std.TransOrd StateId :=
  inferInstanceAs (Std.TransCmp (compareOn number))

instance : Std.LawfulEqOrd StateId where
  eq_of_compare h := number_inj (Std.LawfulEqOrd.eq_of_compare h)

end StateId

/-- One row of a table: what to write, where to move and where to go on. -/
structure Transition (τ : Type) where
  write : Option Symbol := none
  move : Option Movement := none
  next : τ
deriving DecidableEq, Repr

/-- The transition that does nothing but go on at `next`. -/
def Transition.goto {τ : Type} (next : τ) : Transition τ where
  next := next

def Action.transition {τ : Type} (next : τ) : Action → Transition τ
  | move m => { move := some m, next := next }
  | write s => { write := some s, next := next }
  | noop => .goto next

inductive Table (τ : Type) where
  /-- The same transition whatever the symbol. -/
  | always (transition : Transition τ)
  | onSymbol (marked blank : Transition τ)
deriving DecidableEq, Repr

namespace Table

variable {τ : Type}

def forSymbol : Table τ → Symbol → Transition τ
  | always t, _ => t
  | onSymbol marked _, .mark => marked
  | onSymbol _ blank, .blank => blank

def targets : Table τ → List τ
  | always t => [t.next]
  | onSymbol marked blank => [marked.next, blank.next]

end Table

structure State (τ : Type) where
  table : Table τ
  /-- Where to go on when the states entered here have halted. -/
  returnTo : Option τ := none
deriving DecidableEq, Repr

/-! Replacing the targets of a state, in the order marked, blank, return. -/

section Retarget

variable {m : Type → Type} [Monad m] {τ υ : Type}

def Transition.mapM (f : τ → m υ) (t : Transition τ) : m (Transition υ) := do
  return { write := t.write, move := t.move, next := ← f t.next }

def Table.mapM (f : τ → m υ) : Table τ → m (Table υ)
  | .always t => return .always (← t.mapM f)
  | .onSymbol marked blank => do
    let marked ← marked.mapM f
    let blank ← blank.mapM f
    return .onSymbol marked blank

def State.mapM (f : τ → m υ) (s : State τ) : m (State υ) := do
  let table ← s.table.mapM f
  let returnTo ← match s.returnTo with
    | none => pure none
    | some r => some <$> f r
  return { table := table, returnTo := returnTo }

end Retarget

structure Graph where
  states : Array (State StateId)
deriving DecidableEq, Repr

namespace Graph

instance : Inhabited Graph := ⟨⟨#[]⟩⟩

def size (g : Graph) : Nat :=
  g.states.size

def isEmpty (g : Graph) : Bool :=
  g.states.isEmpty

def ids (g : Graph) : List StateId :=
  (List.range g.size).map .slot

def state? (g : Graph) : StateId → Option (State StateId)
  | .halt => none
  | .slot k => g.states[k]?

/-- The ids that can come after `id`: the targets of its table, then its return. -/
def successors (g : Graph) (id : StateId) : List StateId :=
  match g.state? id with
  | none => []
  | some s => s.table.targets ++ s.returnTo.toList

end Graph

end TapeMachine
