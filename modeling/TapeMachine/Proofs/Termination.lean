import Mathlib.Data.List.Perm.Subperm
import TapeMachine.Proofs.Cycle
import TapeMachine.Run.Stepwise

/-!
# Runs without a cycle halt

A run does not follow the edges of its graph alone: at halt it goes on at a
return that may have been pushed long before. So an order of the ids does not
bound the run by itself. Instead every id has a weight, more than that of any
transition of its state and of its return together. The weights of the current
id and of all pending returns add up to a number that every step makes smaller.
-/

namespace TapeMachine

/-! ## Weights -/

namespace Graph

/-- No id of the order weighs more than this. -/
def ceiling (g : Graph) : List StateId → Nat
  | [] => 0
  | id :: order => if (g.state? id).isSome then 2 * g.ceiling order + 1 else g.ceiling order

/-- How many steps it takes at most until what is entered at `id` has halted. -/
def weight (g : Graph) : List StateId → StateId → Nat
  | [], _ => 0
  | first :: order, id =>
    if id = first then if (g.state? first).isSome then 2 * g.ceiling order + 1 else 0
    else g.weight order id

variable {g : Graph} {order : List StateId} {id : StateId}

theorem weight_le_ceiling (g : Graph) (order : List StateId) (id : StateId) :
    g.weight order id ≤ g.ceiling order := by
  induction order with
  | nil => exact Nat.le_refl 0
  | cons first order ih =>
      rw [weight, ceiling]
      split <;> split <;> omega

theorem weight_halt (g : Graph) (order : List StateId) : g.weight order .halt = 0 := by
  induction order with
  | nil => rfl
  | cons first order ih =>
      rw [weight]
      split
      · rename_i hfirst
        subst hfirst
        rfl
      · exact ih

theorem weight_of_mem {first : StateId} (hfirst : first ∉ order) (hid : id ∈ order) :
    g.weight (first :: order) id = g.weight order id := by
  have hne : id ≠ first := by
    rintro rfl
    exact hfirst hid
  rw [weight, if_neg hne]

/-- The weight of a state exceeds that of a target and the return together. -/
theorem weight_lt (hsettled : g.Settled order) (hid : id ∈ order) {s : State StateId}
    (hs : g.state? id = some s) {t : StateId} (ht : t ∈ s.table.targets) :
    g.weight order t + (s.returnTo.toList.map (g.weight order)).sum < g.weight order id := by
  have hsuccessors : ∀ x ∈ s.table.targets ++ s.returnTo.toList, x ∈ g.successors id := by
    intro x hx
    rw [successors, hs]
    exact hx
  induction order with
  | nil => cases hid
  | cons first order ih =>
      obtain ⟨hfirst, hafter, hrest⟩ := hsettled
      have hmem : ∀ x ∈ s.table.targets ++ s.returnTo.toList, x ∈ order := by
        intro x hx
        rcases List.mem_cons.mp hid with rfl | hid
        · exact hafter x (hsuccessors x hx)
        · exact hrest.successors_mem hid (hsuccessors x hx)
      have htarget := weight_of_mem (g := g) hfirst (hmem t (List.mem_append_left _ ht))
      have hreturn : s.returnTo.toList.map (g.weight (first :: order)) =
          s.returnTo.toList.map (g.weight order) :=
        List.map_congr_left fun x hx => weight_of_mem hfirst (hmem x (List.mem_append_right _ hx))
      rw [htarget, hreturn]
      by_cases heq : id = first
      · subst heq
        have hone := g.weight_le_ceiling order t
        have htwo : (s.returnTo.toList.map (g.weight order)).sum ≤ g.ceiling order := by
          cases s.returnTo with
          | none => exact Nat.zero_le _
          | some r => simpa using g.weight_le_ceiling order r
        rw [weight, if_pos rfl, hs, Option.isSome_some, if_pos rfl]
        omega
      · have hid' : id ∈ order := (List.mem_cons.mp hid).resolve_left heq
        rw [weight_of_mem hfirst hid']
        exact ih hrest hid'

theorem ceiling_eq (g : Graph) (order : List StateId) :
    g.ceiling order + 1 = 2 ^ order.countP fun id => (g.state? id).isSome := by
  induction order with
  | nil => rfl
  | cons id order ih =>
      rw [ceiling, List.countP_cons]
      split
      · rw [Nat.pow_succ, ← ih]
        omega
      · exact ih

theorem ceiling_lt (hsettled : g.Settled order) : g.ceiling order < 2 ^ g.size := by
  have hcount : (order.countP fun id => (g.state? id).isSome) ≤ g.size := by
    rw [List.countP_eq_length_filter]
    have hsub : (order.filter fun id => (g.state? id).isSome) ⊆ g.ids := by
      intro id hid
      obtain ⟨s, hs⟩ := Option.isSome_iff_exists.mp (List.mem_filter.mp hid).2
      exact mem_ids_of_state? hs
    have hlength := (List.subperm_of_subset (hsettled.nodup.filter _) hsub).length_le
    simpa [ids] using hlength
  have hpow : 2 ^ (order.countP fun id => (g.state? id).isSome) ≤ 2 ^ g.size :=
    Nat.pow_le_pow_right (by omega) hcount
  have hceiling := g.ceiling_eq order
  omega

end Graph

theorem Table.next_mem_targets {τ : Type} (table : Table τ) (symbol : Symbol) :
    (table.forSymbol symbol).next ∈ table.targets := by
  cases table <;> cases symbol <;> simp [forSymbol, targets]

namespace Configuration

/-! ## Steps -/

/-- The current id and the pending returns. -/
def ahead (c : Configuration) : List StateId :=
  c.current :: c.returns

/-- The weight of all that is still ahead. -/
def load (g : Graph) (order : List StateId) (c : Configuration) : Nat :=
  (c.ahead.map (g.weight order)).sum

variable {g : Graph} {order : List StateId} {c c' : Configuration} {step : Step}

theorem ahead_step (h : c.step? g = some (step, c')) :
    ∃ s t, g.state? c.current = some s ∧ t ∈ s.table.targets ∧
      (c'.current, c'.returns) = t.resume (s.returnTo.toList ++ c.returns) := by
  unfold step? at h
  split at h
  · cases h
  · rename_i s hs
    cases h
    exact ⟨s, _, hs, s.table.next_mem_targets c.tape.read, rfl⟩

/-- Resuming drops a halt and keeps the rest. -/
theorem ahead_of_resume {t : StateId} {returns : List StateId}
    (h : (c.current, c.returns) = t.resume returns) :
    c.ahead = t :: returns ∨ t = .halt ∧ c.ahead = returns := by
  unfold ahead
  cases t with
  | slot k =>
      obtain ⟨hcurrent, hreturns⟩ := Prod.mk.inj h
      exact Or.inl (by rw [hcurrent, hreturns])
  | halt =>
      cases returns with
      | nil =>
          obtain ⟨hcurrent, hreturns⟩ := Prod.mk.inj h
          exact Or.inl (by rw [hcurrent, hreturns])
      | cons r returns =>
          obtain ⟨hcurrent, hreturns⟩ := Prod.mk.inj h
          exact Or.inr ⟨rfl, by rw [hcurrent, hreturns]⟩

/-- A step stays in the order and takes weight off. -/
theorem step_load (hsettled : g.Settled order) (hc : ∀ id ∈ c.ahead, id ∈ order)
    (h : c.step? g = some (step, c')) :
    (∀ id ∈ c'.ahead, id ∈ order) ∧ c'.load g order < c.load g order := by
  obtain ⟨s, t, hs, ht, hresume⟩ := ahead_step h
  have hcurrent : c.current ∈ order := hc c.current (by simp [ahead])
  have hweight := Graph.weight_lt hsettled hcurrent hs ht
  have hmem : ∀ id ∈ t :: (s.returnTo.toList ++ c.returns), id ∈ order := by
    have hsuccessors : ∀ id ∈ s.table.targets ++ s.returnTo.toList, id ∈ order := by
      intro id hid
      refine hsettled.successors_mem hcurrent ?_
      rw [Graph.successors, hs]
      exact hid
    intro id hid
    rcases List.mem_cons.mp hid with rfl | hid
    · exact hsuccessors id (List.mem_append_left _ ht)
    · rcases List.mem_append.mp hid with hid | hid
      · exact hsuccessors id (List.mem_append_right _ hid)
      · exact hc id (List.mem_cons_of_mem _ hid)
  have hsum : ((t :: (s.returnTo.toList ++ c.returns)).map (g.weight order)).sum <
      c.load g order := by
    simp only [load, ahead, List.map_cons, List.map_append, List.sum_cons, List.sum_append]
    omega
  rcases ahead_of_resume hresume with hahead | ⟨rfl, hahead⟩
  · rw [load, hahead]
    exact ⟨hmem, hsum⟩
  · rw [load, hahead]
    refine ⟨fun id hid => hmem id (List.mem_cons_of_mem _ hid), ?_⟩
    rw [List.map_cons, List.sum_cons, Graph.weight_halt, Nat.zero_add] at hsum
    exact hsum

/-- The run takes `n` steps and then halts. -/
inductive HaltsIn (g : Graph) : Configuration → Nat → Prop
  | here {c : Configuration} (halted : c.step? g = none) : HaltsIn g c 0
  | step {c c' : Configuration} {step : Step} {n : Nat} (next : c.step? g = some (step, c'))
      (rest : HaltsIn g c' n) : HaltsIn g c (n + 1)

theorem exists_haltsIn (hsettled : g.Settled order) (hc : ∀ id ∈ c.ahead, id ∈ order) :
    ∃ n, n ≤ c.load g order ∧ HaltsIn g c n := by
  -- the load is not known beforehand to be the number of steps, only to bound it
  generalize hbound : c.load g order = bound
  induction bound using Nat.strongRecOn generalizing c with
  | ind bound ih =>
      subst hbound
      cases h : c.step? g with
      | none => exact ⟨0, Nat.zero_le _, .here h⟩
      | some next =>
          obtain ⟨step, c'⟩ := next
          obtain ⟨hc', hload⟩ := step_load hsettled hc h
          obtain ⟨n, hn, hhalts⟩ := ih _ hload hc' rfl
          exact ⟨n + 1, by omega, .step h hhalts⟩

end Configuration

namespace Run

/-! ## Runs on demand -/

/-- The run after `next` has been called `k` times. -/
def advance : Nat → Run → Run
  | 0, r => r
  | k + 1, r => advance k r.next.2

/-- What call `k` of `next` gives, counted from zero. -/
def item (r : Run) (k : Nat) : Option (Except RunError Step) :=
  (r.advance k).next.1

/-- The run gives `n` steps and nothing more, and has halted then. -/
structure EndsAfter (r : Run) (n : Nat) : Prop where
  steps : ∀ k, k < n → ∃ step, r.item k = some (.ok step)
  silent : ∀ k, n ≤ k → r.item k = none
  halted : (r.advance n).isHalted = true

theorem item_of_finished {r : Run} (h : r.finished = true) (k : Nat) : r.item k = none := by
  induction k generalizing r with
  | zero => rw [item, advance, next_of_finished h]
  | succ k ih =>
      rw [item, advance, next_of_finished h]
      exact ih h

/-- A run without a next step gives nothing more. -/
theorem item_of_halted {r : Run} (hfinished : r.finished = false)
    (h : r.configuration.step? r.graph = none) (k : Nat) : r.item k = none := by
  have hnext := next_of_halted hfinished h
  cases k with
  | zero => rw [item, advance, hnext]
  | succ k =>
      rw [item, advance, hnext]
      exact item_of_finished rfl k

theorem endsAfter_of_haltsIn {r : Run} {n : Nat}
    (h : Configuration.HaltsIn r.graph r.configuration n) (hbudget : n ≤ r.budget)
    (hfinished : r.finished = false) : r.EndsAfter n := by
  generalize hg : r.graph = g, hc : r.configuration = c at h
  induction h generalizing r with
  | here halted =>
      subst hg hc
      refine ⟨fun k hk => absurd hk (Nat.not_lt_zero k), ?_, ?_⟩
      · exact fun k _ => item_of_halted hfinished halted k
      · rw [advance, isHalted, ← Configuration.isNone_step?, halted]
        rfl
  | @step c c' step n hstep _ ih =>
      subst hg hc
      obtain ⟨budget, hb⟩ : ∃ budget, r.budget = budget + 1 := ⟨r.budget - 1, by omega⟩
      have hnext := next_of_step hfinished hstep hb
      have hrest := ih (r := { r with configuration := c', budget := budget }) (by simp; omega)
        hfinished rfl rfl
      refine ⟨?_, ?_, ?_⟩
      · intro k hk
        cases k with
        | zero => exact ⟨step, by rw [item, advance, hnext]⟩
        | succ k =>
            rw [item, advance, hnext]
            exact hrest.steps k (by omega)
      · intro k hk
        cases k with
        | zero => omega
        | succ k =>
            rw [item, advance, hnext]
            exact hrest.silent k (by omega)
      · rw [advance, hnext]
        exact hrest.halted

end Run

/-- A graph in which no cycle can be reached from the entry: on every tape the run halts after at
most `N` steps, whatever the limit from `N` on, and never reports that the limit is used up. There
is such an `N` below `2 ^ size`. -/
theorem Graph.halts_of_hasCycleFrom {g : Graph} {entry : StateId}
    (h : g.hasCycleFrom entry = false) :
    ∃ N, N < 2 ^ g.size ∧ ∀ (tape : Tape) (limit : Nat), N ≤ limit →
      (∃ n, n ≤ N ∧ (Run.start g entry tape limit).EndsAfter n) ∧
      ∀ k e, (Run.start g entry tape limit).item k ≠ some (.error e) := by
  obtain ⟨order, hsettled, hentry⟩ := exists_order_of_hasCycleFrom h
  refine ⟨g.weight order entry,
    Nat.lt_of_le_of_lt (g.weight_le_ceiling order entry) (ceiling_lt hsettled), ?_⟩
  intro tape limit hlimit
  obtain ⟨n, hn, hhalts⟩ := Configuration.exists_haltsIn
    (c := { current := entry, tape := tape }) hsettled (by simpa [Configuration.ahead] using hentry)
  have hload : Configuration.load g order { current := entry, tape := tape } =
      g.weight order entry := by
    simp [Configuration.load, Configuration.ahead]
  rw [hload] at hn
  have hends : (Run.start g entry tape limit).EndsAfter n :=
    Run.endsAfter_of_haltsIn hhalts (Nat.le_trans hn hlimit) rfl
  refine ⟨⟨n, hn, hends⟩, ?_⟩
  intro k e herror
  by_cases hk : k < n
  · obtain ⟨step, hstep⟩ := hends.steps k hk
    rw [hstep] at herror
    cases herror
  · rw [hends.silent k (Nat.le_of_not_lt hk)] at herror
    cases herror

/-- Two states with the same return, which is then run twice; on a blank it leads to an id without
a state. -/
def Graph.sharedReturn : Graph where
  states := #[
    { table := .always (.goto (.slot 1)), returnTo := some (.slot 2) },
    { table := .always { write := some .mark, next := .halt }, returnTo := some (.slot 2) },
    { table := .onSymbol (.goto .halt) { move := some .right, next := .slot 9 } }]

theorem Graph.sharedReturn_halts :
    sharedReturn.hasCycleFrom (.slot 0) = false ∧
    ∃ N, N < 2 ^ 3 ∧ ∀ (tape : Tape) (limit : Nat), N ≤ limit →
      (∃ n, n ≤ N ∧ (Run.start sharedReturn (.slot 0) tape limit).EndsAfter n) ∧
      ∀ k e, (Run.start sharedReturn (.slot 0) tape limit).item k ≠ some (.error e) := by
  have hacyclic : sharedReturn.hasCycleFrom (.slot 0) = false := by decide +kernel
  exact ⟨hacyclic, halts_of_hasCycleFrom hacyclic⟩

end TapeMachine
