import TapeMachine.Compile.Event

/-!
# Drafts

A draft is a graph in the making: the states so far, what each label is placed
on, the recipes that have been followed and the events so far. A label is to be
placed once, and a draft keeps those that were placed again. `Build` is the
monad of steps on a draft that may fail; the draft of a failed step is kept,
since its events are.

`Draft.link` replaces every label by the state that it is placed on.

Neither labels nor states run out: each new one gets the next natural number, so a step
that adds one does not fail.
-/

namespace TapeMachine

structure Draft where
  states : Array (State Target) := #[]
  /-- For each label, the state that it is placed on. -/
  places : Array (Option StateId) := #[]
  /-- The labels that were placed although they had a place already. -/
  replaced : Array Label := #[]
  /-- The state that each recipe has made. -/
  recipes : Std.TreeMap Recipe StateId := ∅
  events : Array CompileEvent := #[]

namespace Draft

def state? (d : Draft) : StateId → Option (State Target)
  | .halt => none
  | .slot k => d.states[k]?

def place? (d : Draft) (l : Label) : Option StateId :=
  d.places[l.number]?.join

def resolve (d : Draft) : Target → Except CompileError StateId
  | .state id => .ok id
  | .label l =>
    match d.place? l with
    | none => .error .unplacedLabel
    | some id => .ok id

def link (d : Draft) : Except CompileError Graph := do
  return { states := ← d.states.mapM (·.mapM d.resolve) }

end Draft

abbrev Build := EStateM CompileError Draft

namespace Build

def emit (e : CompileEvent) : Build Unit :=
  modify fun d => { d with events := d.events.push e }

/-- A new label, not placed yet. There is one however many have been handed out. -/
def newLabel : Build Label :=
  modifyGet fun d => (⟨d.places.size⟩, { d with places := d.places.push none })

def place (l : Label) (id : StateId) : Build Unit := do
  if ((← get).place? l).isSome then
    modify fun d => { d with replaced := d.replaced.push l }
  modify fun d => { d with places := d.places.setIfInBounds l.number (some id) }

/-- The state that a label is placed on by now. -/
def placeOf (l : Label) : Build StateId := do
  ofExcept ((← get).resolve (.label l))

/-- Adds a state at the end, however many there are. -/
def addState (s : State Target) : Build StateId :=
  modifyGet fun d => (.slot d.states.size, { d with states := d.states.push s })

/-- The state made by `recipe`: the one made earlier, or else `s`. -/
def share (recipe : Recipe) (s : State Target) : Build StateId := do
  match (← get).recipes[recipe]? with
  | some id =>
    emit (.reused recipe id)
    return id
  | none =>
    let id ← addState s
    modify fun d => { d with recipes := d.recipes.insert recipe id }
    return id

def act (action : Action) (next : Target) : Build StateId :=
  share (.act action next) { table := .always (action.transition next) }

def check (marked blank : Target) : Build StateId :=
  share (.check marked blank) { table := .onSymbol (.goto marked) (.goto blank) }

/-- The state that stands in for `s`, whose id is `entry`, and returns to `back`. If `s` has a
return of its own it is stepped into, and otherwise its table is taken over. -/
def standIn (entry : StateId) (s : State Target) (back : StateId) : State Target where
  table := if s.returnTo.isSome then .always (.goto (.state entry)) else s.table
  returnTo := some (.state back)

/-- A state that enters `entry` and goes on at `next` when the states there halt. They return
through a state without effect, which is all that remains where `entry` is halt itself. -/
def enter (entry : StateId) (next : Target) : Build StateId := do
  let back ← act .noop next
  match (← get).state? entry with
  | none => return back
  | some s => share (.enter entry next) (standIn entry s back)

end Build

end TapeMachine
