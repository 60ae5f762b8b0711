import TapeMachine.Compile.Error
import TapeMachine.Compile.Target

/-!
# Events of a compilation

What a compilation reports on its way, in order.
-/

namespace TapeMachine

inductive CompileEvent where
  /-- The state of an instruction is about to be made. -/
  | producing (index : Index) (command : CommandKind)
  /-- A state made earlier is used again. -/
  | reused (recipe : Recipe) (state : StateId)
  | scopeBuilt (first : Index) (instructions : Nat) (inGroup : Bool) (entry : StateId)
  | subroutineBound (name : Key) (entry : StateId)
  | groupInlined (index : Index) (members : Nat)
  | rejected (error : CompileError)
  | compiled (states recipes : Nat) (entry : StateId)
  | listing (graph : Graph)
deriving DecidableEq

end TapeMachine
