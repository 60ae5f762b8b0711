import TapeMachine.Graph.Basic

/-!
# Searching a graph

Which ids are reachable from an entry, and whether a cycle is. Both searches
are depth first and keep a list of what is still to do. The bounds on their
length come from the size of the graph: a state has at most three successors,
and its successors are taken up once.
-/

namespace TapeMachine.Graph

/-- Takes the ids of `pending` one by one and adds those not seen yet and their successors. -/
def explore (g : Graph) : Nat → Std.TreeSet StateId → List StateId → Std.TreeSet StateId
  | 0, seen, _ => seen
  | _ + 1, seen, [] => seen
  | bound + 1, seen, id :: pending =>
    if id ∈ seen then g.explore bound seen pending
    else g.explore bound (seen.insert id) (g.successors id ++ pending)

/-- The ids reachable from `entry`, itself included, in the order of their numbers. -/
def reachableFrom (g : Graph) (entry : StateId) : List StateId :=
  (g.explore (3 * g.size + 1) ∅ [entry]).toList

/-- What the search for a cycle still has to do. -/
inductive Visit where
  | enter (id : StateId)
  /-- All that comes after `id` has been visited. -/
  | leave (id : StateId)
deriving DecidableEq, Repr

/-- Makes the visits of `pending`. The ids of `entered` that are not yet in `left` are those on the
way to the current one, so there is a cycle if one of them is to be entered again. -/
def search (g : Graph) : Nat → Std.TreeSet StateId → Std.TreeSet StateId → List Visit → Bool
  | 0, _, _, _ => false
  | _ + 1, _, _, [] => false
  | bound + 1, entered, left, .leave id :: pending =>
    g.search bound entered (left.insert id) pending
  | bound + 1, entered, left, .enter id :: pending =>
    if id ∈ left then g.search bound entered left pending
    else if id ∈ entered then true
    else
      g.search bound (entered.insert id) left
        ((g.successors id).map .enter ++ .leave id :: pending)

/-- Whether some id reachable from `entry` leads back to itself. -/
def hasCycleFrom (g : Graph) (entry : StateId) : Bool :=
  g.search (2 * (3 * g.size + 1)) ∅ ∅ [.enter entry]

end TapeMachine.Graph
