import Mathlib.Algebra.Order.Ring.Nat
import Mathlib.Data.List.Nodup
import Mathlib.Logic.Relation
import TapeMachine.Graph.Search

/-!
# What a search for a cycle has found

If the search finds no cycle it has gone through all that comes after the entry,
and the order in which it left the ids is one in which every id comes after all
of its successors. The order is not kept by the search; the proof builds it up
beside the set of the ids that were left.

That the search is never cut short by its bound is a matter of counting: a visit
that enters an id stands for two calls at most, and a state has three successors
at most and is entered once.

If it does find a cycle, then what is to be visited before an id is left comes after
that id, and the id that was entered twice has not been left.
-/

namespace TapeMachine.Graph

/-! ## Orders -/

/-- The latest id first. Every id stands once, before all of its successors. -/
def Settled (g : Graph) : List StateId → Prop
  | [] => True
  | id :: order => id ∉ order ∧ (∀ s ∈ g.successors id, s ∈ order) ∧ g.Settled order

/-- What the visits are still to bring into the order, or what is there already. -/
def Covered (order : List StateId) (visits : List Visit) (id : StateId) : Prop :=
  id ∈ order ∨ .enter id ∈ visits ∨ .leave id ∈ visits

def Visit.id : Visit → StateId
  | enter id => id
  | leave id => id

namespace Covered

variable {order order' : List StateId} {visits visits' : List Visit} {id : StateId}

theorem mono (h : Covered order visits id) (ho : order ⊆ order') (hv : visits ⊆ visits') :
    Covered order' visits' id := by
  rcases h with h | h | h
  · exact Or.inl (ho h)
  · exact Or.inr (Or.inl (hv h))
  · exact Or.inr (Or.inr (hv h))

theorem of_cons {visit : Visit} (h : Covered order (visit :: visits) id) :
    id = visit.id ∨ Covered order visits id := by
  rcases h with h | h | h
  · exact Or.inr (Or.inl h)
  · rcases List.mem_cons.mp h with rfl | h
    · exact Or.inl rfl
    · exact Or.inr (Or.inr (Or.inl h))
  · rcases List.mem_cons.mp h with rfl | h
    · exact Or.inl rfl
    · exact Or.inr (Or.inr (Or.inr h))

theorem mem_of_nil (h : Covered order [] id) : id ∈ order := by
  simpa [Covered] using h

end Covered

theorem Settled.nodup {g : Graph} {order : List StateId} (h : g.Settled order) :
    order.Nodup := by
  induction order with
  | nil => exact List.nodup_nil
  | cons id order ih => exact List.nodup_cons.mpr ⟨h.1, ih h.2.2⟩

theorem Settled.successors_mem {g : Graph} {order : List StateId} (h : g.Settled order)
    {id s : StateId} (hid : id ∈ order) (hs : s ∈ g.successors id) : s ∈ order := by
  induction order with
  | nil => cases hid
  | cons first order ih =>
      obtain ⟨-, hsuccessors, hrest⟩ := h
      rcases List.mem_cons.mp hid with rfl | hid
      · exact List.mem_cons_of_mem _ (hsuccessors s hs)
      · exact List.mem_cons_of_mem _ (ih hrest hid)

/-! ## Counting visits -/

def Visit.cost : Visit → Nat
  | enter _ => 2
  | leave _ => 1

/-- How many states have not been entered. -/
def unentered (g : Graph) (entered : Std.TreeSet StateId) : Nat :=
  g.ids.countP (· ∉ entered)

/-- The calls that the search may still make. -/
def cost (g : Graph) (entered : Std.TreeSet StateId) (pending : List Visit) : Nat :=
  (pending.map Visit.cost).sum + 6 * g.unentered entered

theorem mem_ids_of_state? {g : Graph} {id : StateId} {s : State StateId}
    (h : g.state? id = some s) : id ∈ g.ids := by
  cases id with
  | halt => cases h
  | slot k =>
      obtain ⟨hk, -⟩ := Array.getElem?_eq_some_iff.mp h
      simpa [ids, size] using hk

theorem length_successors_le (g : Graph) (id : StateId) : (g.successors id).length ≤ 3 := by
  unfold successors
  split
  · simp
  · rename_i s _
    rcases s with ⟨_ | _, _ | _⟩ <;> simp [Table.targets]

theorem mem_insert_iff {entered : Std.TreeSet StateId} {id id' : StateId} :
    id' ∈ entered.insert id ↔ id' = id ∨ id' ∈ entered := by
  rw [Std.TreeSet.mem_insert, Std.LawfulEqOrd.compare_eq_iff_eq, eq_comm]

/-- Entering a state makes room for the visits of its successors. -/
theorem unentered_insert {g : Graph} {entered : Std.TreeSet StateId} {id : StateId}
    (hid : id ∉ entered) :
    2 * (g.successors id).length + 6 * g.unentered (entered.insert id) ≤
      6 * g.unentered entered := by
  have hless : ∀ x : StateId, x ∉ entered.insert id → x ∉ entered :=
    fun x hx hmem => hx (mem_insert_iff.mpr (Or.inr hmem))
  have hmono : ∀ l : List StateId,
      l.countP (· ∉ entered.insert id) ≤ l.countP (· ∉ entered) :=
    fun l => List.countP_mono_left fun x _ hx => by simpa using hless x (by simpa using hx)
  cases hs : g.state? id with
  | none =>
      have hnil : g.successors id = [] := by simp [successors, hs]
      have hcount := hmono g.ids
      simp only [hnil, List.length_nil, unentered]
      omega
  | some s =>
      have hthree := g.length_successors_le id
      obtain ⟨pre, post, hsplit⟩ := List.append_of_mem (mem_ids_of_state? hs)
      have hpre := hmono pre
      have hpost := hmono post
      have hmem : id ∈ entered.insert id := mem_insert_iff.mpr (Or.inl rfl)
      simp only [unentered, hsplit, List.countP_append, List.countP_cons, hid, hmem,
        not_true_eq_false, not_false_eq_true, decide_false, decide_true, Bool.false_eq_true,
        if_false, if_true]
      omega

/-! ## The search -/

/-- How far a search has come; `order` holds the ids of `left`. All that comes after an id has
been visited, or will be visited before the id is left. -/
structure Searching (g : Graph) (order : List StateId) (left : Std.TreeSet StateId)
    (pending : List Visit) : Prop where
  left : ∀ id, id ∈ left ↔ id ∈ order
  settled : g.Settled order
  covered : ∀ pre id post, pending = pre ++ .leave id :: post →
    ∀ s ∈ g.successors id, Covered order pre s

namespace Searching

variable {g : Graph} {order : List StateId} {left : Std.TreeSet StateId} {pending : List Visit}
  {id : StateId}

/-- An id that was left already needs no visit. -/
theorem skip (h : g.Searching order left (.enter id :: pending)) (hid : id ∈ left) :
    g.Searching order left pending := by
  refine ⟨h.left, h.settled, ?_⟩
  intro pre x post hsplit s hs
  have hcovered := h.covered (.enter id :: pre) x post (by simp [hsplit]) s hs
  rcases hcovered.of_cons with rfl | hrest
  · exact Or.inl ((h.left _).mp hid)
  · exact hrest

theorem enter (h : g.Searching order left (.enter id :: pending)) :
    g.Searching order left ((g.successors id).map .enter ++ .leave id :: pending) := by
  refine ⟨h.left, h.settled, ?_⟩
  intro pre x post hsplit s hs
  -- the id that is left is this one, or it was to be left before
  rcases List.append_eq_append_iff.mp hsplit with ⟨mid, rfl, hmid⟩ | ⟨mid, hpre, hmid⟩
  · cases mid with
    | nil =>
        obtain ⟨heq, -⟩ := List.cons.inj hmid
        cases heq
        exact Or.inr (Or.inl (by simpa using hs))
    | cons visit mid =>
        obtain ⟨rfl, htail⟩ := List.cons.inj hmid
        have hcovered := h.covered (.enter id :: mid) x post (by simp [htail]) s hs
        rcases hcovered.of_cons with rfl | hrest
        · exact Or.inr (Or.inr (by simp))
        · exact hrest.mono (List.Subset.refl _) fun v hv => by simp [hv]
  · cases mid with
    | nil =>
        obtain ⟨heq, -⟩ := List.cons.inj hmid
        cases heq
        rw [List.append_nil] at hpre
        exact Or.inr (Or.inl (hpre ▸ List.mem_map_of_mem hs))
    | cons visit mid =>
        obtain ⟨rfl, -⟩ := List.cons.inj hmid
        have hleave : Visit.leave x ∈ (g.successors id).map Visit.enter := by simp [hpre]
        simp at hleave

/-- When an id is left, all of its successors are in the order. -/
theorem leave (h : g.Searching order left (.leave id :: pending)) :
    ∃ order', g.Searching order' (left.insert id) pending ∧ order ⊆ order' ∧ id ∈ order' := by
  have hready : ∀ s ∈ g.successors id, s ∈ order :=
    fun s hs => (h.covered [] id pending rfl s hs).mem_of_nil
  have hcovered : ∀ order', order ⊆ order' → id ∈ order' → ∀ pre x post,
      pending = pre ++ .leave x :: post → ∀ s ∈ g.successors x, Covered order' pre s := by
    intro order' hsub hid pre x post hsplit s hs
    rcases (h.covered (.leave id :: pre) x post (by simp [hsplit]) s hs).of_cons with rfl | hrest
    · exact Or.inl hid
    · exact hrest.mono hsub (List.Subset.refl _)
  by_cases hid : id ∈ order
  · refine ⟨order, ⟨?_, h.settled, hcovered order (List.Subset.refl _) hid⟩,
      List.Subset.refl _, hid⟩
    intro x
    rw [mem_insert_iff, h.left]
    constructor
    · rintro (rfl | hx)
      · exact hid
      · exact hx
    · exact Or.inr
  · have hsub : order ⊆ id :: order := List.subset_cons_self id order
    refine ⟨id :: order, ⟨?_, ⟨hid, hready, h.settled⟩, hcovered _ hsub List.mem_cons_self⟩,
      hsub, List.mem_cons_self⟩
    intro x
    rw [mem_insert_iff, h.left, List.mem_cons]

end Searching

theorem cost_cons (g : Graph) (entered : Std.TreeSet StateId) (visit : Visit)
    (pending : List Visit) :
    g.cost entered (visit :: pending) = visit.cost + g.cost entered pending := by
  simp [cost, Nat.add_assoc]

theorem cost_enter {g : Graph} {entered : Std.TreeSet StateId} {id : StateId}
    (hid : id ∉ entered) (pending : List Visit) :
    g.cost (entered.insert id) ((g.successors id).map .enter ++ .leave id :: pending) <
      g.cost entered (.enter id :: pending) := by
  have hroom := unentered_insert (g := g) hid
  have hsuccessors : (((g.successors id).map Visit.enter).map Visit.cost).sum =
      2 * (g.successors id).length := by
    simp [Function.comp_def, Visit.cost, Nat.mul_comm]
  simp only [cost, List.map_append, List.sum_append, hsuccessors, List.map_cons, List.sum_cons,
    Visit.cost]
  omega

theorem unentered_empty (g : Graph) : g.unentered ∅ ≤ g.size := by
  calc g.unentered ∅ ≤ g.ids.length := List.countP_le_length
    _ = g.size := by simp [ids]

theorem cost_start (g : Graph) (entry : StateId) :
    g.cost ∅ [.enter entry] ≤ 2 * (3 * g.size + 1) := by
  have hids := g.unentered_empty
  simp only [cost, List.map_cons, List.map_nil, List.sum_cons, List.sum_nil, Visit.cost]
  omega

/-- A search that finds no cycle, within its bound, has put all that it was to visit in order. -/
theorem exists_order_of_search {g : Graph} {bound : Nat} {entered left : Std.TreeSet StateId}
    {pending : List Visit} {order : List StateId} (h : g.Searching order left pending)
    (hbound : g.cost entered pending ≤ bound)
    (hfalse : g.search bound entered left pending = false) :
    ∃ order', g.Settled order' ∧ ∀ id, Covered order pending id → id ∈ order' := by
  induction bound generalizing entered left pending order with
  | zero =>
      cases pending with
      | nil => exact ⟨order, h.settled, fun _ hid => hid.mem_of_nil⟩
      | cons visit pending =>
          rw [cost_cons] at hbound
          cases visit <;> simp [Visit.cost] at hbound
  | succ bound ih =>
      cases pending with
      | nil => exact ⟨order, h.settled, fun _ hid => hid.mem_of_nil⟩
      | cons visit pending =>
          cases visit with
          | leave id =>
              rw [cost_cons, Visit.cost] at hbound
              obtain ⟨order₁, h₁, hsub, hid⟩ := h.leave
              obtain ⟨order', hsettled, hall⟩ := ih h₁ (by omega) hfalse
              refine ⟨order', hsettled, ?_⟩
              intro x hx
              rcases hx.of_cons with rfl | hx
              · exact hall _ (Or.inl hid)
              · exact hall x (hx.mono hsub (List.Subset.refl _))
          | enter id =>
              rw [search] at hfalse
              by_cases hleft : id ∈ left
              · rw [if_pos hleft] at hfalse
                rw [cost_cons, Visit.cost] at hbound
                obtain ⟨order', hsettled, hall⟩ := ih (h.skip hleft) (by omega) hfalse
                refine ⟨order', hsettled, ?_⟩
                intro x hx
                rcases hx.of_cons with rfl | hx
                · exact hall _ (Or.inl ((h.left _).mp hleft))
                · exact hall x hx
              · rw [if_neg hleft] at hfalse
                by_cases hentered : id ∈ entered
                · rw [if_pos hentered] at hfalse
                  cases hfalse
                · rw [if_neg hentered] at hfalse
                  have hcost := cost_enter (g := g) hentered pending
                  obtain ⟨order', hsettled, hall⟩ := ih h.enter (by omega) hfalse
                  refine ⟨order', hsettled, ?_⟩
                  intro x hx
                  rcases hx.of_cons with rfl | hx
                  · exact hall _ (Or.inr (Or.inr (by simp)))
                  · exact hall x (hx.mono (List.Subset.refl _) fun v hv => by simp [hv])

/-- Where no cycle can be reached, all that can be reached has an order. -/
theorem exists_order_of_hasCycleFrom {g : Graph} {entry : StateId}
    (h : g.hasCycleFrom entry = false) : ∃ order, g.Settled order ∧ entry ∈ order := by
  have hstart : g.Searching [] ∅ [.enter entry] := by
    refine ⟨by simp, trivial, ?_⟩
    intro pre x post hsplit
    rcases List.cons_eq_append_iff.mp hsplit with ⟨-, hleave⟩ | ⟨pre', -, hleave⟩
    · cases hleave
    · simp at hleave
  obtain ⟨order, hsettled, hall⟩ := exists_order_of_search hstart (g.cost_start entry) h
  exact ⟨order, hsettled, hall entry (Or.inr (Or.inl (by simp)))⟩

/-! ## A cycle that was found -/

/-- The state `b` can come right after `a`. -/
def Leads (g : Graph) (a b : StateId) : Prop :=
  b ∈ g.successors a

open Relation

/-- How far a search from `entry` has come. What is to be visited before an id is left comes after
that id, and an id that was entered is left or still to be left. -/
structure Following (g : Graph) (entry : StateId) (entered left : Std.TreeSet StateId)
    (pending : List Visit) : Prop where
  reached : ∀ visit ∈ pending, ReflTransGen g.Leads entry visit.id
  inside : pending.Pairwise fun visit visit' =>
    ∀ id, visit' = .leave id → TransGen g.Leads id visit.id
  unleft : ∀ id ∈ entered, id ∈ left ∨ .leave id ∈ pending

namespace Following

variable {g : Graph} {entry id : StateId} {entered left : Std.TreeSet StateId}
  {pending : List Visit}

theorem skip (h : g.Following entry entered left (.enter id :: pending)) :
    g.Following entry entered left pending := by
  refine ⟨fun visit hv => h.reached visit (List.mem_cons_of_mem _ hv), h.inside.of_cons, ?_⟩
  intro id' hid'
  refine (h.unleft id' hid').imp_right ?_
  exact List.mem_of_ne_of_mem (by simp)

theorem leave (h : g.Following entry entered left (.leave id :: pending)) :
    g.Following entry entered (left.insert id) pending := by
  refine ⟨fun visit hv => h.reached visit (List.mem_cons_of_mem _ hv), h.inside.of_cons, ?_⟩
  intro id' hid'
  rw [mem_insert_iff]
  rcases h.unleft id' hid' with hleft | hpending
  · exact Or.inl (Or.inr hleft)
  · rcases List.mem_cons.mp hpending with heq | hpending
    · cases heq
      exact Or.inl (Or.inl rfl)
    · exact Or.inr hpending

theorem enter (h : g.Following entry entered left (.enter id :: pending)) :
    g.Following entry (entered.insert id) left
      ((g.successors id).map .enter ++ .leave id :: pending) := by
  have hid := h.reached _ List.mem_cons_self
  have hinside := List.pairwise_cons.mp h.inside
  refine ⟨?_, ?_, ?_⟩
  · intro visit hvisit
    rcases List.mem_append.mp hvisit with hsucc | hrest
    · obtain ⟨s, hs, rfl⟩ := List.mem_map.mp hsucc
      exact hid.tail hs
    · rcases List.mem_cons.mp hrest with rfl | hrest
      · exact hid
      · exact h.reached visit (List.mem_cons_of_mem _ hrest)
  · refine List.pairwise_append.mpr ⟨?_, List.pairwise_cons.mpr ⟨hinside.1, hinside.2⟩, ?_⟩
    · refine List.pairwise_map.mpr (List.pairwise_of_forall fun s s' x hx => ?_)
      cases hx
    · intro visit hvisit visit' hvisit' x hx
      obtain ⟨s, hs, rfl⟩ := List.mem_map.mp hvisit
      subst hx
      rcases List.mem_cons.mp hvisit' with heq | hrest
      · cases heq
        exact .single hs
      · exact (hinside.1 _ hrest x rfl).tail hs
  · intro x hx
    rcases mem_insert_iff.mp hx with rfl | hx
    · exact Or.inr (by simp)
    · refine (h.unleft x hx).imp_right fun hmem => ?_
      have hrest : .leave x ∈ pending := List.mem_of_ne_of_mem (by simp) hmem
      simp [hrest]

/-- An id that is to be entered again and has not been left comes after itself. -/
theorem cycle (h : g.Following entry entered left (.enter id :: pending)) (hentered : id ∈ entered)
    (hleft : id ∉ left) : TransGen g.Leads id id := by
  have hmem := (h.unleft id hentered).resolve_left hleft
  have hrest : .leave id ∈ pending := List.mem_of_ne_of_mem (by simp) hmem
  exact (List.pairwise_cons.mp h.inside).1 _ hrest id rfl

end Following

theorem exists_cycle_of_search {g : Graph} {entry : StateId} {bound : Nat}
    {entered left : Std.TreeSet StateId} {pending : List Visit}
    (h : g.Following entry entered left pending)
    (htrue : g.search bound entered left pending = true) :
    ∃ id, ReflTransGen g.Leads entry id ∧ TransGen g.Leads id id := by
  induction bound generalizing entered left pending with
  | zero => cases htrue
  | succ bound ih =>
      cases pending with
      | nil => cases htrue
      | cons visit pending =>
          cases visit with
          | leave id => exact ih h.leave htrue
          | enter id =>
              rw [search] at htrue
              split at htrue
              · exact ih h.skip htrue
              · rename_i hleft
                split at htrue
                · rename_i hentered
                  exact ⟨id, h.reached _ List.mem_cons_self, h.cycle hentered hleft⟩
                · exact ih h.enter htrue

/-- A cycle that is found can be reached. -/
theorem exists_cycle_of_hasCycleFrom {g : Graph} {entry : StateId}
    (h : g.hasCycleFrom entry = true) :
    ∃ id, ReflTransGen g.Leads entry id ∧ TransGen g.Leads id id := by
  have hstart : g.Following entry ∅ ∅ [.enter entry] := by
    refine ⟨?_, List.pairwise_singleton _ _, by simp⟩
    intro visit hvisit
    rw [List.mem_singleton.mp hvisit]
    exact .refl
  exact exists_cycle_of_search hstart h

end TapeMachine.Graph
