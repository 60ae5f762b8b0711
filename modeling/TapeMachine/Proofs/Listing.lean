import TapeMachine.Scope

/-!
# The instructions of a program and where they lead

A program is read as the list of its instructions, those of every body and the
members of every group included. Each is known by its spot, which says in which
body and group it stands and at which place, and its order says what it asks for,
with spots in the place of indices and names.

Nothing is compiled here and nothing is refused. An index or a name that stands
for nothing gives no spot.
-/

namespace TapeMachine

/-- Where an instruction stands in a program. -/
structure Spot where
  /-- The names of the bodies around it, the nearest first. -/
  path : List Key
  /-- The place of its group, if it is the member of one. -/
  group : Option Nat := none
  /-- Its place in its scope or group, counted from zero. -/
  place : Nat
deriving DecidableEq, Repr

/-- The first instruction of the scope at `path`. -/
def Spot.start (path : List Key) : Spot :=
  { path, place := 0 }

/-- What an instruction asks for. Where nothing comes next the machine halts. -/
inductive Order where
  | act (action : Action) (next : Option Spot)
  | stop
  | check (marked blank : Option Spot)
  /-- Runs the body at the path `callee`. -/
  | call (callee : Option (List Key)) (next : Option Spot)
  /-- Runs a number of members, beginning with `first`. -/
  | group (first : Spot) (members : Nat) (next : Option Spot)
deriving DecidableEq, Repr

namespace Order

/-- Where an order goes on, apart from what it runs. -/
def nexts : Order → List (Option Spot)
  | act _ next => [next]
  | stop => []
  | check marked blank => [marked, blank]
  | call _ next => [next]
  | group _ _ next => [next]

end Order

/-- The paths of the bodies that the names in sight stand for. -/
abbrev Names := Key → Option (List Key)

/-- A sequence of instructions, that of a scope or the members of a group, and where it stands. -/
structure Row where
  path : List Key
  group : Option Nat := none
  names : Names
  numbered : List (Index × Instruction)

namespace Row

def spot (r : Row) (place : Nat) : Spot :=
  { path := r.path, group := r.group, place }

/-- The first instruction of the row with the index `index`. -/
def target (r : Row) (index : Index) : Option Spot :=
  (r.numbered.findIdx? (·.1 = index)).map r.spot

/-- The index that is declared right after the place. -/
def following (r : Row) (place : Nat) : Option Index :=
  (r.numbered[place + 1]?).map Prod.fst

/-- Where the instruction at the place goes on: at the index it gives, else at the following one.
The members of a group give none. -/
def next (r : Row) (place : Nat) (i : Instruction) : Option Spot :=
  match r.group with
  | none => (i.next <|> r.following place).bind r.target
  | some _ => (r.following place).bind r.target

/-- What the instruction `i` at the place asks for. -/
def order (r : Row) (place : Nat) (i : Instruction) : Order :=
  match i.command with
  | .act action => .act action (r.next place i)
  | .stop => .stop
  | .check ifMarked otherwise => .check (r.target ifMarked) (r.target otherwise)
  | .call name => .call (r.names name) (r.next place i)
  | .group members =>
    .group { path := r.path, group := some place, place := 0 } members.length (r.next place i)

def orders (r : Row) : List (Spot × Order) :=
  r.numbered.zipIdx.map fun (p, place) => (r.spot place, r.order place p.2)

/-- The row of the members, if the instruction `i` at the place is a group. -/
def inside (r : Row) (place : Nat) (i : Instruction) : List Row :=
  match i.command with
  | .group members => [{ r with group := some place, numbered := numberMembers members }]
  | _ => []

def groups (r : Row) : List Row :=
  r.numbered.zipIdx.flatMap fun (p, place) => r.inside place p.2

end Row

namespace Scope

/-- What can be called in a scope at `path`: its own subroutines, and else those of `outer`. -/
def names (s : Scope) (path : List Key) (outer : Names) : Names :=
  fun name => if name ∈ s.subroutines.map Prod.fst then some (name :: path) else outer name

def row (s : Scope) (path : List Key) (names : Names) : Row :=
  { path, names, numbered := s.numbered }

/-- The rows of a scope at `path`; `bodies` gives those of the bodies in it. -/
def rowsWith (bodies : Names → List Row) (s : Scope) (path : List Key) (outer : Names) :
    List Row :=
  let names := s.names path outer
  bodies names ++ s.row path names :: (s.row path names).groups

def bodyRows : Scope → List Key → Names → List Row
  | nil, _, _ => []
  | instr _ _ rest, path, names => rest.bodyRows path names
  | sub name body rest, path, names =>
    rowsWith (body.bodyRows (name :: path)) body (name :: path) names ++
      rest.bodyRows path names

/-- All sequences of a program: of the main scope, of the bodies at any depth, and of the groups. -/
def rows (program : Scope) : List Row :=
  rowsWith (program.bodyRows []) program [] fun _ => none

/-- All instructions of a program with what they ask for. -/
def orders (program : Scope) : List (Spot × Order) :=
  program.rows.flatMap Row.orders

end Scope

namespace Row

variable {r : Row}

theorem mem_orders {o : Spot × Order} :
    o ∈ r.orders ↔
      ∃ place index i, r.numbered[place]? = some (index, i) ∧
        o = (r.spot place, r.order place i) := by
  simp only [orders, List.mem_map, List.mem_zipIdx_iff_getElem?]
  constructor
  · rintro ⟨⟨⟨index, i⟩, place⟩, hplace, rfl⟩
    exact ⟨place, index, i, hplace, rfl⟩
  · rintro ⟨place, index, i, hplace, rfl⟩
    exact ⟨((index, i), place), hplace, rfl⟩

theorem mem_inside {r' : Row} {place : Nat} {i : Instruction} :
    r' ∈ r.inside place i ↔
      ∃ members, i.command = .group members ∧
        r' = { r with group := some place, numbered := numberMembers members } := by
  unfold inside
  split
  · rename_i members hcommand
    simp [hcommand]
  · rename_i hcommand
    constructor
    · simp
    · rintro ⟨members, hmembers, -⟩
      exact absurd hmembers (hcommand members)

theorem target_eq_some {index : Index} {spot : Spot} :
    r.target index = some spot ↔
      ∃ place, r.numbered.findIdx? (·.1 = index) = some place ∧ r.spot place = spot := by
  rw [target, Option.map_eq_some_iff]

/-- The member of a group that is not the last goes on at another member. -/
theorem exists_next {place k : Nat} {i : Instruction} (hgroup : r.group = some k)
    (hlt : place + 1 < r.numbered.length) : ∃ t, r.next place i = some t := by
  have hfollowing : r.following place = some r.numbered[place + 1].1 := by
    simp [following, hlt]
  have htarget : (r.target r.numbered[place + 1].1).isSome := by
    rw [target, Option.isSome_map, List.findIdx?_isSome, List.any_eq_true]
    exact ⟨_, List.getElem_mem hlt, by simp⟩
  obtain ⟨t, ht⟩ := Option.isSome_iff_exists.mp htarget
  exact ⟨t, by simp [next, hgroup, hfollowing, ht]⟩

theorem target_home {index : Index} {t : Spot} (h : r.target index = some t) :
    t.path = r.path ∧ t.group = r.group := by
  obtain ⟨place, -, rfl⟩ := target_eq_some.mp h
  exact ⟨rfl, rfl⟩

theorem next_home {place : Nat} {i : Instruction} {t : Spot} (h : r.next place i = some t) :
    t.path = r.path ∧ t.group = r.group := by
  unfold next at h
  split at h
  · obtain ⟨index, -, ht⟩ := Option.bind_eq_some_iff.mp h
    exact target_home ht
  · obtain ⟨index, -, ht⟩ := Option.bind_eq_some_iff.mp h
    exact target_home ht

/-- An instruction goes on in its own scope or group. -/
theorem nexts_home {place : Nat} {i : Instruction} {t : Spot}
    (h : some t ∈ (r.order place i).nexts) : t.path = r.path ∧ t.group = r.group := by
  unfold order at h
  split at h
  · exact next_home (List.mem_singleton.mp h).symm
  · cases h
  · simp only [Order.nexts, List.mem_cons, List.not_mem_nil, or_false] at h
    rcases h with h | h
    · exact target_home h.symm
    · exact target_home h.symm
  · exact next_home (List.mem_singleton.mp h).symm
  · exact next_home (List.mem_singleton.mp h).symm

end Row

namespace Scope

variable {program : Scope} {spot : Spot} {order : Order}

theorem mem_orders :
    (spot, order) ∈ program.orders ↔
      ∃ r ∈ program.rows, ∃ place index i, r.numbered[place]? = some (index, i) ∧
        spot = r.spot place ∧ order = r.order place i := by
  simp [orders, List.mem_flatMap, Row.mem_orders, Prod.ext_iff]

theorem nexts_home {t : Spot} (h : (spot, order) ∈ program.orders) (ht : some t ∈ order.nexts) :
    t.path = spot.path ∧ t.group = spot.group := by
  obtain ⟨r, -, place, index, i, -, rfl, rfl⟩ := mem_orders.mp h
  exact Row.nexts_home ht

theorem group_home {first : Spot} {members : Nat} {next : Option Spot}
    (h : (spot, .group first members next) ∈ program.orders) : first.path = spot.path := by
  obtain ⟨r, -, place, index, i, -, rfl, horder⟩ := mem_orders.mp h
  unfold Row.order at horder
  split at horder <;> cases horder
  rfl

theorem groups_mem_rowsWith {s : Scope} {bodies : Names → List Row} {path : List Key}
    {outer : Names} (hbodies : ∀ names, ∀ r ∈ bodies names, r.group = none →
      ∀ r' ∈ r.groups, r' ∈ bodies names) :
    ∀ r ∈ rowsWith bodies s path outer, r.group = none →
      ∀ r' ∈ r.groups, r' ∈ rowsWith bodies s path outer := by
  intro r hr hgroup r' hr'
  simp only [rowsWith, List.mem_append, List.mem_cons] at hr ⊢
  rcases hr with hr | rfl | hr
  · exact Or.inl (hbodies _ r hr hgroup r' hr')
  · exact Or.inr (Or.inr hr')
  · -- a row of groups is that of a group
    simp only [Row.groups, List.mem_flatMap] at hr
    obtain ⟨x, -, hx⟩ := hr
    obtain ⟨members, -, rfl⟩ := Row.mem_inside.mp hx
    cases hgroup

theorem groups_mem_bodyRows (s : Scope) (path : List Key) (names : Names) :
    ∀ r ∈ s.bodyRows path names, r.group = none →
      ∀ r' ∈ r.groups, r' ∈ s.bodyRows path names := by
  induction s generalizing path names with
  | nil => simp [bodyRows]
  | instr key i rest ih => exact ih path names
  | sub name body rest ihbody ihrest =>
      intro r hr hgroup r' hr'
      rw [bodyRows, List.mem_append] at hr ⊢
      rcases hr with hr | hr
      · exact Or.inl (groups_mem_rowsWith (ihbody _) r hr hgroup r' hr')
      · exact Or.inr (ihrest path names r hr hgroup r' hr')

/-- The members of a group are listed. -/
theorem exists_row_of_group {first : Spot} {members : Nat} {next : Option Spot}
    (h : (spot, .group first members next) ∈ program.orders) (hgroup : spot.group = none) :
    ∃ r ∈ program.rows, r.path = spot.path ∧ r.group = some spot.place ∧
      r.numbered.length = members ∧ r.spot 0 = first := by
  obtain ⟨r, hr, place, index, i, hplace, rfl, horder⟩ := mem_orders.mp h
  cases hcommand : i.command with
  | group instructions =>
      simp only [Row.order, hcommand] at horder
      cases horder
      refine ⟨{ r with group := some place, numbered := numberMembers instructions },
        groups_mem_rowsWith (program.groups_mem_bodyRows []) r hr hgroup _ ?_, rfl, rfl, ?_, rfl⟩
      · simp only [Row.groups, List.mem_flatMap, List.mem_zipIdx_iff_getElem?]
        exact ⟨((index, i), place), hplace, Row.mem_inside.mpr ⟨_, hcommand, rfl⟩⟩
      · simp [numberMembers]
  | act action => simp [Row.order, hcommand] at horder
  | stop => simp [Row.order, hcommand] at horder
  | check ifMarked otherwise => simp [Row.order, hcommand] at horder
  | call name => simp [Row.order, hcommand] at horder

end Scope

end TapeMachine
