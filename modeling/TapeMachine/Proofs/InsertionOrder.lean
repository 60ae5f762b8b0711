import Mathlib.Data.List.Basic
import TapeMachine.Scope

/-!
# Scopes keep the order of first insertion

What has been stored in a scope since it was last collected is a list of keys with their
entries, in which a key may stand any number of times. The scope has every key once. It
stands there in the order of its first place in the list, and the entry under it is the
one of its last place.

One insertion adds a place at the end of the list. If the key is new, that is its first
place, and it comes after all other keys. If it is not, the keys stay as they are.
-/

namespace TapeMachine

/-- What can be done to a scope. -/
inductive Scope.Operation where
  | insert (key : Key) (e : Entry)
  | entry (key : Key) (e : Entry)
  | instruction (index : Index) (i : Instruction)
  | subroutine (name : Key) (body : Scope)
  /-- Puts a scope in place that is collected from these entries. -/
  | collect (entries : List (Key × Entry))
deriving DecidableEq

namespace Scope

def perform (s : Scope) : Operation → Scope
  | .insert key e => (s.getThenInsert key e).2
  | .entry key e => s.insert key e
  | .instruction index i => s.insertInstruction index i
  | .subroutine name body => s.insertSubroutine name body
  | .collect entries => ofList entries

def performAll (s : Scope) (ops : List Operation) : Scope :=
  ops.foldl perform s

/-- What has been stored since the last collection, after one more operation. -/
def record (stored : List (Key × Entry)) : Operation → List (Key × Entry)
  | .insert key e => stored ++ [(key, e)]
  | .entry key e => stored ++ [(key, e)]
  | .instruction index i => stored ++ [(index.text, .instruction i)]
  | .subroutine name body => stored ++ [(name, .subroutine body)]
  | .collect entries => entries

/-- The keys and entries that are stored from the last collection on, in order. -/
def stored (ops : List Operation) : List (Key × Entry) :=
  ops.foldl record []

/-- The keys are the ones that have been stored, in the order in which each was stored first.
Under a key stands what has been stored there last. -/
structure Holds (s : Scope) (stored : List (Key × Entry)) : Prop where
  mem_keys (k : Key) : k ∈ s.keys ↔ k ∈ stored.map Prod.fst
  order : s.keys.Pairwise fun k k' =>
    (stored.map Prod.fst).idxOf k < (stored.map Prod.fst).idxOf k'
  get? (k : Key) : s.get? k = stored.reverse.lookup k

/-! ## Scopes as rows of entries -/

/-- What holds of the empty scope and is kept when an entry is put in front holds of all scopes. -/
@[elab_as_elim]
theorem consInduction {motive : Scope → Prop} (nil : motive nil)
    (cons : ∀ key e rest, motive rest → motive (cons key e rest)) (s : Scope) : motive s := by
  induction s with
  | nil => exact nil
  | instr key i rest ih => exact cons key (.instruction i) rest ih
  | sub key body rest _ ih => exact cons key (.subroutine body) rest ih

theorem keys_cons (key : Key) (e : Entry) (s : Scope) : (cons key e s).keys = key :: s.keys := by
  cases e <;> rfl

theorem size_cons (key : Key) (e : Entry) (s : Scope) : (cons key e s).size = s.size + 1 := by
  cases e <;> rfl

theorem get?_cons (key : Key) (e : Entry) (s : Scope) (k : Key) :
    (cons key e s).get? k = if key = k then some e else s.get? k := by
  cases e <;> rfl

theorem insert_cons (k : Key) (old : Entry) (s : Scope) (key : Key) (e : Entry) :
    (cons k old s).insert key e =
      if k = key then cons key e s else cons k old (s.insert key e) := by
  by_cases h : k = key <;> cases old <;> simp [insert, getThenInsert, cons, h]

theorem length_keys (s : Scope) : s.keys.length = s.size := by
  induction s using consInduction with
  | nil => rfl
  | cons key e rest ih => rw [keys_cons, List.length_cons, size_cons, ih]

theorem foldr_entries (s : Scope) :
    s.entries.foldr (fun p rest => cons p.1 p.2 rest) nil = s := by
  induction s using consInduction with
  | nil => rfl
  | cons key e rest ih => rw [entries_cons, List.foldr_cons, ih]

/-- A scope is given by its entries. -/
theorem eq_of_entries {s s' : Scope} (h : s.entries = s'.entries) : s = s' := by
  rw [← foldr_entries s, h, foldr_entries]

/-! ## One insertion -/

variable {s : Scope} {key : Key} {e : Entry}

theorem keys_insert (s : Scope) (key : Key) (e : Entry) :
    (s.insert key e).keys = if key ∈ s.keys then s.keys else s.keys ++ [key] := by
  induction s using consInduction with
  | nil => exact keys_cons key e nil
  | cons k old rest ih =>
      rw [insert_cons, keys_cons]
      by_cases hk : k = key
      · rw [if_pos hk, keys_cons, hk, if_pos List.mem_cons_self]
      · have hmem : key ∈ k :: rest.keys ↔ key ∈ rest.keys := by
          rw [List.mem_cons, or_iff_right (Ne.symm hk)]
        rw [if_neg hk, keys_cons, ih]
        simp only [hmem]
        split <;> rfl

theorem mem_keys_insert {k : Key} : k ∈ (s.insert key e).keys ↔ k = key ∨ k ∈ s.keys := by
  rw [keys_insert]
  split
  · rename_i hkey
    exact ⟨Or.inr, fun hk => hk.elim (fun heq => heq ▸ hkey) id⟩
  · rw [List.mem_append, List.mem_singleton, or_comm]

theorem get?_insert (s : Scope) (key : Key) (e : Entry) (k : Key) :
    (s.insert key e).get? k = if key = k then some e else s.get? k := by
  induction s using consInduction with
  | nil => exact get?_cons key e nil k
  | cons k' old rest ih =>
      rw [insert_cons]
      by_cases hk : k' = key
      · rw [if_pos hk, get?_cons, get?_cons, hk]
        split <;> rfl
      · rw [if_neg hk, get?_cons, get?_cons, ih]
        by_cases hk' : k' = k
        · rw [if_pos hk', if_pos hk', if_neg fun h => hk (hk'.trans h.symm)]
        · rw [if_neg hk', if_neg hk']

theorem entries_insert_of_notMem (h : key ∉ s.keys) :
    (s.insert key e).entries = s.entries ++ [(key, e)] := by
  induction s using consInduction with
  | nil => exact entries_cons key e nil
  | cons k old rest ih =>
      rw [keys_cons, List.mem_cons, not_or] at h
      rw [insert_cons, if_neg (Ne.symm h.1), entries_cons, entries_cons, ih h.2, List.cons_append]

/-- The other keys keep their places. -/
theorem getElem?_keys_insert {k : Key} (h : k ≠ key) (n : Nat) :
    (s.insert key e).keys[n]? = some k ↔ s.keys[n]? = some k := by
  rw [keys_insert]
  split
  · rfl
  · rw [List.getElem?_append]
    split
    · rfl
    · rename_i hle
      rw [List.getElem?_eq_none (Nat.le_of_not_lt hle), List.getElem?_singleton]
      split
      · simp [Ne.symm h]
      · rfl

/-- An insertion is one more place at the end of the list. -/
theorem Holds.insert {stored : List (Key × Entry)} (h : s.Holds stored) (key : Key) (e : Entry) :
    (s.insert key e).Holds (stored ++ [(key, e)]) := by
  have hmem := h.mem_keys
  have hkeys : (stored ++ [(key, e)]).map Prod.fst = stored.map Prod.fst ++ [key] :=
    List.map_append
  -- a key that was stored before has its first place where it was
  have hplace : ∀ k ∈ s.keys,
      (stored.map Prod.fst ++ [key]).idxOf k = (stored.map Prod.fst).idxOf k :=
    fun k hk => List.idxOf_append_of_mem ((hmem k).mp hk)
  have horder : s.keys.Pairwise fun k k' =>
      (stored.map Prod.fst ++ [key]).idxOf k < (stored.map Prod.fst ++ [key]).idxOf k' := by
    refine h.order.imp_of_mem fun {k k'} hk hk' hlt => ?_
    rw [hplace k hk, hplace k' hk']
    exact hlt
  refine ⟨fun k => ?_, ?_, fun k => ?_⟩
  · rw [mem_keys_insert, hkeys, List.mem_append, ← hmem, List.mem_singleton, or_comm]
  · rw [keys_insert, hkeys]
    split
    · exact horder
    · -- a new key has its first place after those of all others
      rename_i hkey
      refine List.pairwise_append.mpr ⟨horder, List.pairwise_singleton _ _, fun k hk k' hk' => ?_⟩
      obtain rfl := List.mem_singleton.mp hk'
      rw [hplace k hk, List.idxOf_append_of_notMem (mt (hmem k').mpr hkey)]
      exact Nat.lt_add_right _ (List.idxOf_lt_length_iff.mpr ((hmem k).mp hk))
  · rw [get?_insert, List.reverse_append, List.reverse_singleton, List.singleton_append,
      List.lookup_cons, h.get?]
    by_cases hk : key = k
    · rw [if_pos hk, hk, beq_self_eq_true]
    · rw [if_neg hk, beq_false_of_ne (Ne.symm hk)]

theorem Holds.nodup_keys {stored : List (Key × Entry)} (h : s.Holds stored) : s.keys.Nodup := by
  refine h.order.imp fun {k k'} hlt heq => ?_
  rw [heq] at hlt
  exact Nat.lt_irrefl _ hlt

/-! ## Runs of insertions -/

theorem holds_nil : nil.Holds [] :=
  ⟨fun _ => Iff.rfl, .nil, fun _ => rfl⟩

theorem Holds.foldl_insert {stored : List (Key × Entry)} (h : s.Holds stored)
    (entries : List (Key × Entry)) :
    (entries.foldl (fun s p => s.insert p.1 p.2) s).Holds (stored ++ entries) := by
  induction entries generalizing s stored with
  | nil =>
      rw [List.append_nil]
      exact h
  | cons p entries ih =>
      have hrest := ih (h.insert p.1 p.2)
      rw [List.append_assoc] at hrest
      exact hrest

theorem holds_ofList (entries : List (Key × Entry)) : (ofList entries).Holds entries :=
  holds_nil.foldl_insert entries

/-- Entries under keys that are new and all different are added as they are. -/
theorem entries_foldl_insert {entries : List (Key × Entry)}
    (h : (s.keys ++ entries.map Prod.fst).Nodup) :
    (entries.foldl (fun s p => s.insert p.1 p.2) s).entries = s.entries ++ entries := by
  induction entries generalizing s with
  | nil => exact (List.append_nil _).symm
  | cons p entries ih =>
      rw [List.map_cons] at h
      have hkey : p.1 ∉ s.keys :=
        fun hmem => (List.nodup_append.mp h).2.2 _ hmem _ List.mem_cons_self rfl
      have hkeys : (s.insert p.1 p.2).keys = s.keys ++ [p.1] := by rw [keys_insert, if_neg hkey]
      rw [List.append_cons, ← hkeys] at h
      rw [List.foldl_cons, ih h, entries_insert_of_notMem hkey, List.append_assoc]
      rfl

theorem ofList_entries (h : s.keys.Nodup) : ofList s.entries = s := by
  rw [keys_eq_map_entries] at h
  exact eq_of_entries (entries_foldl_insert h)

theorem Holds.perform {stored : List (Key × Entry)} (h : s.Holds stored) (op : Operation) :
    (s.perform op).Holds (record stored op) := by
  cases op with
  | insert key e => exact h.insert key e
  | entry key e => exact h.insert key e
  | instruction index i => exact h.insert index.text (.instruction i)
  | subroutine name body => exact h.insert name (.subroutine body)
  | collect entries => exact holds_ofList entries

theorem Holds.performAll {stored : List (Key × Entry)} (h : s.Holds stored)
    (ops : List Operation) : (s.performAll ops).Holds (ops.foldl record stored) := by
  induction ops generalizing s stored with
  | nil => exact h
  | cons op ops ih => exact ih (h.perform op)

/-- However a scope has come about, its keys are different from each other and stand in the order
in which each was stored first, and under a key stands what was stored there last. To insert an
entry gives back what stood under its key and leaves the other keys with their entries and in their
places. To collect the entries of the scope gives the scope again. -/
theorem insertion_ordered (ops : List Operation) :
    let s := performAll nil ops
    s.keys.Nodup ∧ s.Holds (stored ops) ∧ s.size = s.keys.length ∧
    (∀ key e, (s.getThenInsert key e).1 = s.get? key ∧
      ∀ k, k ≠ key → (s.getThenInsert key e).2.get? k = s.get? k ∧
        ∀ n : Nat, (s.getThenInsert key e).2.keys[n]? = some k ↔ s.keys[n]? = some k) ∧
    ofList s.entries = s := by
  intro s
  have hholds : s.Holds (stored ops) := holds_nil.performAll ops
  refine ⟨hholds.nodup_keys, hholds, s.length_keys.symm, ?_, ofList_entries hholds.nodup_keys⟩
  intro key e
  refine ⟨s.getThenInsert_fst key e, fun k hk => ⟨?_, getElem?_keys_insert hk⟩⟩
  exact (s.get?_insert key e k).trans (if_neg (Ne.symm hk))

end Scope

end TapeMachine
