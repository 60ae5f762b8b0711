import TapeMachine.Proofs.IndexedTape
import TapeMachine.Proofs.Limits

/-!
# The steps of a run are a log of it

A step says where the run stood, what was under the head and what was left there. The
steps that a run reports are therefore a log from which it can be followed: each begins
where the one before went on, and the tape of the run is found again if the steps are
done on the tape that it began with.

A replay writes at every step and a run only where its transition says so. They agree
since a step that writes nothing leaves what it found.

A log can be replayed on an indexed tape as well. Each step takes the head at most one
cell to the right, so there is room for the whole run if there is for as many cells.
-/

namespace TapeMachine

/-! ## Replay -/

/-- Writes the symbol, then moves or stays. -/
def Tape.leave (t : Tape) (s : Symbol) : Option Movement → Tape
  | none => t.write s
  | some m => (t.write s).move m

/-- Does to the tape what the step did. -/
def Step.redo (s : Step) (t : Tape) : Tape :=
  t.leave s.after s.move

/-- Does all steps of a log, one after the other. -/
def Tape.replay (t : Tape) (log : List Step) : Tape :=
  log.foldl (fun t s => s.redo t) t

theorem Tape.write_read (t : Tape) : t.write t.read = t := rfl

/-- Where a transition leaves the symbol alone, writing it again changes nothing. -/
theorem Transition.apply_eq_leave {τ : Type} (transition : Transition τ) (t : Tape) :
    transition.apply t = t.leave (transition.write.getD t.read) transition.move := by
  unfold apply
  cases transition.write with
  | none =>
      rw [Option.getD_none]
      cases transition.move <;> rw [Tape.leave, Tape.write_read]
  | some s => cases transition.move <;> rfl

/-! ## One step -/

/-- The step tells how the run came from `c` to `c'`. -/
structure Step.Records (step : Step) (c c' : Configuration) : Prop where
  index : step.index = c.steps + 1
  state : step.state = c.current
  before : step.before = c.tape.read
  next : step.next = c'.current
  tape : c'.tape = step.redo c.tape

namespace Configuration

variable {g : Graph} {c c' : Configuration} {step : Step}

theorem records_step (h : c.step? g = some (step, c')) : step.Records c c' := by
  unfold step? at h
  split at h
  · cases h
  · cases h
    exact ⟨rfl, rfl, rfl, rfl, Transition.apply_eq_leave _ _⟩

/-! ## All steps -/

/-- The step at place `k` is the one that is taken after `k` others. -/
theorem step?_after_of_trace {n k : Nat} (h : (trace g n c)[k]? = some step) :
    k < n ∧ (after g k c).steps = c.steps + k ∧
      (after g k c).step? g = some (step, after g (k + 1) c) := by
  induction n generalizing c k with
  | zero => cases h
  | succ n ih =>
      cases hstep : c.step? g with
      | none =>
          rw [trace_of_none hstep] at h
          cases h
      | some p =>
          obtain ⟨first, c'⟩ := p
          rw [trace_of_some hstep] at h
          rw [after_of_some hstep]
          cases k with
          | zero =>
              cases h
              exact ⟨Nat.zero_lt_succ n, rfl, hstep⟩
          | succ k =>
              rw [List.getElem?_cons_succ] at h
              rw [after_of_some hstep]
              obtain ⟨hlt, hsteps, hnext⟩ := ih h
              rw [hsteps, steps_step hstep]
              exact ⟨Nat.succ_lt_succ hlt, Nat.add_right_comm _ _ _, hnext⟩

theorem tape_after (g : Graph) (n : Nat) (c : Configuration) :
    (after g n c).tape = c.tape.replay (trace g n c) := by
  induction n generalizing c with
  | zero => rfl
  | succ n ih =>
      cases hstep : c.step? g with
      | none =>
          rw [after_of_none hstep, trace_of_none hstep]
          rfl
      | some p =>
          obtain ⟨step, c'⟩ := p
          rw [after_of_some hstep, trace_of_some hstep, ih, (records_step hstep).tape]
          rfl

end Configuration

/-! ## Runs on demand -/

namespace Run

open TapeMachine.Configuration

variable {r : Run}

theorem configuration_advance (hfinished : r.finished = false) (k : Nat) :
    (r.advance k).configuration = after r.graph (min k r.budget) r.configuration := by
  induction k generalizing r with
  | zero => rw [Nat.zero_min]; rfl
  | succ k ih =>
      rw [advance]
      cases h : r.configuration.step? r.graph with
      | none => rw [next_of_halted hfinished h, advance_of_finished rfl, after_of_none h]
      | some p =>
          obtain ⟨step, c⟩ := p
          cases hbudget : r.budget with
          | zero =>
              rw [next_of_spent hfinished h hbudget, advance_of_finished rfl, Nat.min_zero]
              rfl
          | succ budget =>
              rw [next_of_step hfinished h hbudget, Nat.add_min_add_right, after_of_some h]
              exact ih hfinished

theorem item_ne_ok (h : ∀ step, r.next.1 ≠ some (.ok step)) (k : Nat) (step : Step) :
    r.item k ≠ some (.ok step) := by
  cases k with
  | zero => exact h step
  | succ k =>
      rw [(silent_of_item (k := 0) h (Nat.succ_pos k)).1]
      exact nofun

/-- The calls give the steps of the log, each at its place. -/
theorem item_eq_ok_iff (hfinished : r.finished = false) {k : Nat} {step : Step} :
    r.item k = some (.ok step) ↔ r.given[k]? = some step := by
  rw [given_eq r hfinished]
  generalize hbudget : r.budget = budget
  induction budget generalizing r k with
  | zero =>
      have hnone : ∀ step, r.next.1 ≠ some (.ok step) := by
        cases h : r.configuration.step? r.graph with
        | none => simp [next_of_halted hfinished h]
        | some p => simp [next_of_spent hfinished h hbudget]
      simp [trace, item_ne_ok hnone]
  | succ budget ih =>
      cases h : r.configuration.step? r.graph with
      | none =>
          have hnone : ∀ step, r.next.1 ≠ some (.ok step) := by simp [next_of_halted hfinished h]
          simp [trace_of_none h, item_ne_ok hnone]
      | some p =>
          obtain ⟨first, c⟩ := p
          have hnext := next_of_step hfinished h hbudget
          rw [trace_of_some h, item]
          cases k with
          | zero => simp [advance, hnext]
          | succ k =>
              rw [advance, hnext, List.getElem?_cons_succ]
              exact @ih { r with configuration := c, budget := budget } hfinished k rfl

end Run

/-! ## Whole runs -/

/-- What the log says of a run that began at `entry` on the tape `t` and had the tape `tapes k`
after `k` steps. -/
structure Faithful (entry : StateId) (t : Tape) (tapes : Nat → Tape) (log : List Step) : Prop where
  index : ∀ k step, log[k]? = some step → step.index = k + 1
  first : ∀ step, log[0]? = some step → step.state = entry
  /-- A step begins where the one before went on. -/
  next : ∀ k step step', log[k]? = some step → log[k + 1]? = some step' → step'.state = step.next
  /-- A step says what was under the head when it was taken. -/
  before : ∀ k step, log[k]? = some step → (tapes k).cells[(tapes k).position]? = some step.before
  replay : ∀ k, tapes k = t.replay (log.take k)

namespace Machine

open TapeMachine.Configuration

theorem tape_advance (m : Machine) (limit k : Nat) :
    ((m.stepwise limit).advance k).tape =
      (after m.automaton.graph (min k limit) m.start).tape :=
  congrArg Configuration.tape (Run.configuration_advance rfl k)

theorem faithful_trace (m : Machine) (limit : Nat) :
    Faithful m.automaton.entry m.tape (fun k => ((m.stepwise limit).advance k).tape)
      (trace m.automaton.graph limit m.start) where
  index := by
    intro k step h
    obtain ⟨-, hsteps, hstep⟩ := step?_after_of_trace h
    rw [(records_step hstep).index, hsteps]
    exact congrArg (· + 1) (Nat.zero_add k)
  first := by
    intro step h
    obtain ⟨-, -, hstep⟩ := step?_after_of_trace h
    exact (records_step hstep).state
  next := by
    intro k step step' h h'
    obtain ⟨-, -, hstep⟩ := step?_after_of_trace h
    obtain ⟨-, -, hstep'⟩ := step?_after_of_trace h'
    rw [(records_step hstep').state, (records_step hstep).next]
  before := by
    intro k step h
    obtain ⟨hlt, -, hstep⟩ := step?_after_of_trace h
    rw [tape_advance, Nat.min_eq_left (Nat.le_of_lt hlt), Tape.getElem?_cells_position,
      (records_step hstep).before]
  replay := by
    intro k
    rw [tape_advance, tape_after, trace_eq_take (Nat.min_le_right k limit), ← List.take_take,
      ← trace_eq_take (Nat.le_refl limit)]
    rfl

/-- The steps of a run are a log of it. They are what the calls give and what every way to run the
machine reports, in the same order. The step at place `k` has the number `k + 1`, begins where the
one before went on, the first at the entry, and names the symbol that was under the head. Replayed
on the tape that the run began with, the first `k` of them give the tape of the run after `k` calls,
and all of them give the tape that it leaves. -/
theorem log_replays {σ : Type} (m : Machine) (report : σ → Step → σ) (init : σ) (limit : Nat) :
    (∀ k step, (m.stepwise limit).item k = some (.ok step) ↔
      (m.stepwise limit).given[k]? = some step) ∧
    Faithful m.automaton.entry m.tape (fun k => ((m.stepwise limit).advance k).tape)
      (m.stepwise limit).given ∧
    ∃ result, m.Delivers report init limit result (m.stepwise limit).given
      (m.tape.replay (m.stepwise limit).given) := by
  refine ⟨fun k step => Run.item_eq_ok_iff rfl, ?_, ?_⟩
  · rw [Run.given_eq _ rfl]
    exact m.faithful_trace limit
  · have hdelivers := m.delivers report init limit
    rw [tape_after] at hdelivers
    rw [Run.given_eq _ rfl]
    exact ⟨_, hdelivers⟩

end Machine

/-! ## Runs on indexed tapes -/

/-- What a step does, as operations on a tape. -/
def Step.operations (s : Step) : List Tape.Operation :=
  .write s.after :: (s.move.map Tape.Operation.shift).toList

theorem Tape.position_redo_le (t : Tape) (s : Step) : (s.redo t).position ≤ t.position + 1 := by
  rw [Step.redo]
  cases s.move with
  | none => exact Nat.le_succ _
  | some m =>
      cases m with
      | left =>
          show (t.write s.after).moveLeft.position ≤ _
          rw [position_moveLeft]
          exact Nat.le_succ_of_le (Nat.sub_le _ _)
      | right =>
          show (t.write s.after).moveRight.position ≤ _
          rw [position_moveRight]
          exact Nat.le_refl _

namespace IndexedTape

variable {r : IndexedTape} {t : Tape}

theorem Keeps.redo (h : r.Keeps t) (s : Step) (hrange : r.position.toNat + 1 < 2 ^ 64) :
    (r.performAll s.operations).Keeps (s.redo t) := by
  have hwrite := h.write s.after
  rw [h.position] at hrange
  rw [Step.redo, Step.operations]
  cases s.move with
  | none => exact hwrite
  | some m =>
      cases m with
      | left => exact hwrite.moveLeft
      | right => exact hwrite.moveRight (hwrite.position.symm ▸ hrange)

theorem Keeps.replay (h : r.Keeps t) {log : List Step}
    (hrange : r.position.toNat + log.length < 2 ^ 64) :
    (r.performAll (log.flatMap Step.operations)).Keeps (t.replay log) := by
  induction log generalizing r t with
  | nil => exact h
  | cons s log ih =>
      rw [List.length_cons] at hrange
      have hstep := h.redo s (by omega)
      have hposition := t.position_redo_le s
      rw [← hstep.position, ← h.position] at hposition
      rw [List.flatMap_cons, performAll_append]
      exact ih hstep (by omega)

end IndexedTape

/-- A machine can be run on an indexed tape that keeps its own: after any number of calls the steps
so far, done on the one, have led to what the other is by then. The limit must not exceed the
number of places to the right of the head. -/
theorem Machine.keeps_tape (m : Machine) {r : IndexedTape} (h : r.Keeps m.tape) {limit : Nat}
    (hrange : r.position.toNat + limit < 2 ^ 64) (k : Nat) :
    (r.performAll (((m.stepwise limit).given.take k).flatMap Step.operations)).Keeps
      ((m.stepwise limit).advance k).tape := by
  have hreplay := (m.faithful_trace limit).replay k
  rw [hreplay, Run.given_eq _ rfl]
  apply h.replay
  -- the log has no more steps than the limit
  have hlength : (Configuration.trace m.automaton.graph limit m.start).length ≤ limit := by
    rw [Configuration.trace_eq_take (Nat.le_refl limit)]
    exact List.length_take_le limit _
  have htake := List.length_take_le' k (Configuration.trace m.automaton.graph limit m.start)
  exact Nat.lt_of_le_of_lt (Nat.add_le_add_left (Nat.le_trans htake hlength) _) hrange

end TapeMachine
