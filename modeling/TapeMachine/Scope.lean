import TapeMachine.Instruction
import TapeMachine.Key

/-!
# Scopes

A scope maps keys to entries, an instruction or the body of a subroutine, and
keeps them in the order in which the keys first came. A program is a scope, and
so is every body in it.

`entries` is the scope as a list. `insert` replaces the entry under a key that
is there already and otherwise adds one at the end, so no key occurs twice in a
scope that was built by insertion.
-/

namespace TapeMachine

inductive Scope where
  | nil
  | instr (key : Key) (instruction : Instruction) (rest : Scope)
  | sub (key : Key) (body rest : Scope)
deriving DecidableEq

/-- What stands under a key. -/
inductive Entry where
  | instruction (instruction : Instruction)
  | subroutine (body : Scope)
deriving DecidableEq

namespace Scope

instance : Inhabited Scope := ⟨nil⟩

def cons (key : Key) (e : Entry) (rest : Scope) : Scope :=
  match e with
  | .instruction i => instr key i rest
  | .subroutine body => sub key body rest

def entries : Scope → List (Key × Entry)
  | nil => []
  | instr key i rest => (key, .instruction i) :: rest.entries
  | sub key body rest => (key, .subroutine body) :: rest.entries

def keys : Scope → List Key
  | nil => []
  | instr key _ rest => key :: rest.keys
  | sub key _ rest => key :: rest.keys

def size : Scope → Nat
  | nil => 0
  | instr _ _ rest => rest.size + 1
  | sub _ _ rest => rest.size + 1

def isEmpty : Scope → Bool
  | nil => true
  | instr _ _ _ => false
  | sub _ _ _ => false

def get? (key : Key) : Scope → Option Entry
  | nil => none
  | instr k i rest => if k = key then some (.instruction i) else rest.get? key
  | sub k body rest => if k = key then some (.subroutine body) else rest.get? key

/-- The instructions that stand under an index, in order. -/
def numbered : Scope → List (Index × Instruction)
  | nil => []
  | instr key i rest =>
    match key.index? with
    | some index => (index, i) :: rest.numbered
    | none => rest.numbered
  | sub _ _ rest => rest.numbered

/-- The bodies with the keys that they stand under, in order. -/
def subroutines : Scope → List (Key × Scope)
  | nil => []
  | instr _ _ rest => rest.subroutines
  | sub key body rest => (key, body) :: rest.subroutines

/-- Stores an entry and gives back the one it replaces. -/
def getThenInsert (key : Key) (e : Entry) : Scope → Option Entry × Scope
  | nil => (none, cons key e nil)
  | instr k i rest =>
    if k = key then (some (.instruction i), cons key e rest)
    else
      let (old, rest) := rest.getThenInsert key e
      (old, instr k i rest)
  | sub k body rest =>
    if k = key then (some (.subroutine body), cons key e rest)
    else
      let (old, rest) := rest.getThenInsert key e
      (old, sub k body rest)

def insert (s : Scope) (key : Key) (e : Entry) : Scope :=
  (s.getThenInsert key e).2

/-- Stores an instruction under the numeral of its index. -/
def insertInstruction (s : Scope) (index : Index) (i : Instruction) : Scope :=
  s.insert index.text (.instruction i)

def insertSubroutine (s : Scope) (name : Key) (body : Scope) : Scope :=
  s.insert name (.subroutine body)

/-- Inserts the entries one after the other into an empty scope. -/
def ofList (entries : List (Key × Entry)) : Scope :=
  entries.foldl (fun s (key, e) => s.insert key e) nil

@[simp] theorem entries_cons (key : Key) (e : Entry) (s : Scope) :
    (cons key e s).entries = (key, e) :: s.entries := by
  cases e <;> rfl

theorem keys_eq_map_entries (s : Scope) : s.keys = s.entries.map Prod.fst := by
  induction s with
  | nil => rfl
  | instr key i rest ih => simp [keys, entries, ih]
  | sub key body rest _ ih => simp [keys, entries, ih]

theorem get?_eq_lookup_entries (s : Scope) (key : Key) : s.get? key = s.entries.lookup key := by
  induction s with
  | nil => rfl
  | instr k i rest ih =>
    by_cases h : k = key
    · simp [get?, entries, h]
    · simp [get?, entries, List.lookup_cons, h, beq_false_of_ne (Ne.symm h), ih]
  | sub k body rest _ ih =>
    by_cases h : k = key
    · simp [get?, entries, h]
    · simp [get?, entries, List.lookup_cons, h, beq_false_of_ne (Ne.symm h), ih]

theorem getThenInsert_fst (s : Scope) (key : Key) (e : Entry) :
    (s.getThenInsert key e).1 = s.get? key := by
  induction s with
  | nil => rfl
  | instr k i rest ih => by_cases h : k = key <;> simp [getThenInsert, get?, h, ih]
  | sub k body rest _ ih => by_cases h : k = key <;> simp [getThenInsert, get?, h, ih]

end Scope

end TapeMachine
