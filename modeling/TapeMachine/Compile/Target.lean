import Std.Data.TreeMap
import TapeMachine.Graph.Basic

/-!
# Targets and recipes

While a program is compiled, a transition may lead to a state that is not made
yet. It then points to a label, which is placed on a state later.

A recipe says all that makes one state different from another, so a state is
made once for each recipe and shared by every instruction that asks for it.
-/

namespace TapeMachine

/-- Labels are numbered from zero in the order in which they are handed out. -/
@[ext] structure Label where
  number : Nat
deriving DecidableEq, Repr

inductive Target where
  | state (id : StateId)
  | label (label : Label)
deriving DecidableEq, Repr

inductive Recipe where
  /-- Acts and goes on at `next`. -/
  | act (action : Action) (next : Target)
  | check (marked blank : Target)
  /-- Enters the states at `entry`, and goes on at `next` when they halt. -/
  | enter (entry : StateId) (next : Target)
deriving DecidableEq, Repr

/-! Recipes are ordered by a code, a list of numbers that determines them. -/

def Action.code : Action → Nat
  | move .left => 0
  | move .right => 1
  | write .blank => 2
  | write .mark => 3
  | noop => 4

def Target.code : Target → List Nat
  | state id => [0, id.number]
  | label l => [1, l.number]

def Recipe.code : Recipe → List Nat
  | act action next => 0 :: action.code :: next.code
  | check marked blank => 1 :: marked.code ++ blank.code
  | enter entry next => 2 :: entry.number :: next.code

theorem Action.code_inj {a b : Action} (h : a.code = b.code) : a = b := by
  rcases a with (_ | _) | (_ | _) | _ <;> rcases b with (_ | _) | (_ | _) | _ <;>
    simp_all [code]

theorem Target.length_code (t : Target) : t.code.length = 2 := by
  cases t <;> rfl

theorem Target.code_inj {a b : Target} (h : a.code = b.code) : a = b := by
  cases a <;> cases b <;> simp [code] at h
  case state.state => rw [StateId.number_inj h]
  case label.label => rw [Label.ext h]

theorem Recipe.code_inj {a b : Recipe} (h : a.code = b.code) : a = b := by
  cases a <;> cases b <;> simp [code] at h
  case act.act => rw [Action.code_inj h.1, Target.code_inj h.2]
  case check.check a a' b b' =>
    have h := List.append_inj h (by rw [a.length_code, b.length_code])
    rw [Target.code_inj h.1, Target.code_inj h.2]
  case enter.enter => rw [StateId.number_inj h.1, Target.code_inj h.2]

namespace Recipe

instance : Ord Recipe := ⟨compareOn code⟩

instance : Std.TransOrd Recipe :=
  inferInstanceAs (Std.TransCmp (compareOn code))

instance : Std.LawfulEqOrd Recipe where
  eq_of_compare h := code_inj (Std.LawfulEqOrd.eq_of_compare h)

end Recipe

end TapeMachine
