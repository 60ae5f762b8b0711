import TapeMachine.Machine
import TapeMachine.Proofs.Returns

/-!
# Limits

Without a limit a machine takes its steps until it halts, if it ever does. A limit
cuts this off and changes nothing else: whichever way the machine is run, it reports
the steps up to the limit, leaves the tape as it is then, and says that it has halted
exactly if it has.

Both the run as a whole and the run on demand count their budget down. What they
share is stated once, in terms of the steps that come without a limit, and the
statements about limits compare these.
-/

namespace TapeMachine

/-! ## Steps without a limit -/

namespace Configuration

/-- Where the machine stands after `n` steps, or where it has halted before. -/
def after (g : Graph) : Nat → Configuration → Configuration
  | 0, c => c
  | n + 1, c =>
    match c.step? g with
    | none => c
    | some (_, c') => after g n c'

/-- The first `n` steps, or all of them if the machine halts before. -/
def trace (g : Graph) : Nat → Configuration → List Step
  | 0, _ => []
  | n + 1, c =>
    match c.step? g with
    | none => []
    | some (step, c') => step :: trace g n c'

/-- What is to be reported after `n` steps. -/
def outcome (g : Graph) (n : Nat) (c : Configuration) : Except RunError Nat :=
  if (after g n c).isHalted g then .ok (after g n c).steps
  else .error (.longExecution (after g n c).steps)

variable {g : Graph} {c c' : Configuration} {step : Step}

theorem after_of_none (h : c.step? g = none) (n : Nat) : after g n c = c := by
  cases n with
  | zero => rfl
  | succ n => rw [after, h]

theorem trace_of_none (h : c.step? g = none) (n : Nat) : trace g n c = [] := by
  cases n with
  | zero => rfl
  | succ n => rw [trace, h]

theorem after_of_some (h : c.step? g = some (step, c')) (n : Nat) :
    after g (n + 1) c = after g n c' := by
  rw [after, h]

theorem trace_of_some (h : c.step? g = some (step, c')) (n : Nat) :
    trace g (n + 1) c = step :: trace g n c' := by
  rw [trace, h]

theorem outcome_of_some (h : c.step? g = some (step, c')) (n : Nat) :
    outcome g (n + 1) c = outcome g n c' := by
  rw [outcome, after_of_some h, outcome]

theorem isHalted_of_none (h : c.step? g = none) : c.isHalted g = true := by
  rw [← isNone_step?, h]
  rfl

theorem outcome_of_none (h : c.step? g = none) (n : Nat) : outcome g n c = .ok c.steps := by
  rw [outcome, after_of_none h, if_pos (isHalted_of_none h)]

theorem steps_step (h : c.step? g = some (step, c')) : c'.steps = c.steps + 1 := by
  unfold step? at h
  split at h
  · cases h
  · cases h
    rfl

theorem steps_after (g : Graph) (n : Nat) (c : Configuration) :
    (after g n c).steps = c.steps + (trace g n c).length := by
  induction n generalizing c with
  | zero => rfl
  | succ n ih =>
      cases h : c.step? g with
      | none =>
          rw [after_of_none h, trace_of_none h]
          rfl
      | some next =>
          obtain ⟨step, c'⟩ := next
          rw [after_of_some h, trace_of_some h, ih, steps_step h, List.length_cons]
          omega

/-- Fewer steps are the first of more steps. -/
theorem trace_eq_take {n m : Nat} (hle : n ≤ m) (c : Configuration) :
    trace g n c = (trace g m c).take n := by
  induction n generalizing m c with
  | zero => rfl
  | succ n ih =>
      obtain ⟨m, rfl⟩ : ∃ k, m = k + 1 := ⟨m - 1, by omega⟩
      cases h : c.step? g with
      | none => rw [trace_of_none h, trace_of_none h, List.take_nil]
      | some next =>
          obtain ⟨step, c'⟩ := next
          rw [trace_of_some h, trace_of_some h, List.take_succ_cons, ih (Nat.le_of_succ_le_succ hle)]

/-- A machine that halts after `n` steps stays where it is from then on. -/
theorem HaltsIn.stays {n m : Nat} (h : HaltsIn g c n) (hle : n ≤ m) :
    trace g m c = trace g n c ∧ after g m c = after g n c ∧ (trace g n c).length = n ∧
      (after g n c).isHalted g = true := by
  induction h generalizing m with
  | here halted =>
      rw [trace_of_none halted, after_of_none halted]
      exact ⟨rfl, rfl, rfl, isHalted_of_none halted⟩
  | @step c c' step n next _ ih =>
      obtain ⟨m, rfl⟩ : ∃ k, m = k + 1 := ⟨m - 1, by omega⟩
      obtain ⟨htrace, hafter, hlength, hhalted⟩ := ih (Nat.le_of_succ_le_succ hle)
      rw [trace_of_some next, trace_of_some next, after_of_some next, after_of_some next, htrace,
        hafter, List.length_cons, hlength]
      exact ⟨rfl, rfl, rfl, hhalted⟩

/-- A machine that has not halted within `n` steps has taken all of them. -/
theorem runs_on_of_not_haltsIn {n : Nat} (h : ∀ k, HaltsIn g c k → n < k) :
    (trace g n c).length = n ∧ (after g n c).isHalted g = false := by
  induction n generalizing c with
  | zero =>
      refine ⟨rfl, ?_⟩
      rw [after, ← isNone_step?]
      cases hstep : c.step? g with
      | none => exact absurd (h 0 (.here hstep)) (Nat.lt_irrefl 0)
      | some next => rfl
  | succ n ih =>
      cases hstep : c.step? g with
      | none => exact absurd (h 0 (.here hstep)) (Nat.not_lt_zero _)
      | some next =>
          obtain ⟨step, c'⟩ := next
          rw [trace_of_some hstep, after_of_some hstep, List.length_cons]
          obtain ⟨hlength, hhalted⟩ := ih fun k hk => Nat.lt_of_succ_lt_succ (h _ (.step hstep hk))
          exact ⟨congrArg (· + 1) hlength, hhalted⟩

theorem haltsIn_iff {n : Nat} :
    HaltsIn g c n ↔ (trace g n c).length = n ∧ (after g n c).isHalted g = true := by
  constructor
  · intro h
    exact (h.stays (Nat.le_refl n)).2.2
  · rintro ⟨hlength, hhalted⟩
    induction n generalizing c with
    | zero =>
        rw [after, ← isNone_step?, Option.isNone_iff_eq_none] at hhalted
        exact .here hhalted
    | succ n ih =>
        cases hstep : c.step? g with
        | none =>
            rw [trace_of_none hstep] at hlength
            cases hlength
        | some next =>
            obtain ⟨step, c'⟩ := next
            rw [trace_of_some hstep, List.length_cons] at hlength
            rw [after_of_some hstep] at hhalted
            exact .step hstep (ih (Nat.succ.inj hlength) hhalted)

end Configuration

/-! ## The ways to run a machine -/

open TapeMachine.Configuration

/-- A run as a whole is the steps without a limit, cut off. -/
theorem Graph.run_eq {σ : Type} (g : Graph) (report : σ → Step → σ) (budget : Nat) (acc : σ)
    (c : Configuration) :
    g.run (fun acc step _ => report acc step) budget acc c =
      (outcome g budget c, (trace g budget c).foldl report acc, after g budget c) := by
  induction budget generalizing acc c with
  | zero =>
      rw [run, outcome, after, trace]
      cases c.isHalted g <;> rfl
  | succ budget ih =>
      rw [run]
      cases h : c.step? g with
      | none => rw [outcome_of_none h, trace_of_none h, after_of_none h]; rfl
      | some next =>
          obtain ⟨step, c'⟩ := next
          rw [outcome_of_some h, trace_of_some h, after_of_some h]
          exact ih (report acc step) c'

namespace Run

variable {r r' : Run} {step : Step}

theorem budget_lt_of_next (h : r.next = (some (.ok step), r')) : r'.budget < r.budget := by
  unfold next at h
  split at h
  · cases h
  · split at h
    · cases h
    · cases h
    · rename_i hbudget
      cases h
      rw [hbudget]
      exact Nat.lt_succ_self _

/-- Calls `next` until it gives no more steps, and folds `report` over those it gives. -/
def drain {σ : Type} (report : σ → Step → σ) (acc : σ) (r : Run) :
    Except RunError Nat × σ × Run :=
  match _ : r.next with
  | (none, r') => (.ok r'.steps, acc, r')
  | (some (.error e), r') => (.error e, acc, r')
  | (some (.ok step), r') => r'.drain report (report acc step)
termination_by r.budget
decreasing_by exact budget_lt_of_next ‹_›

/-- The steps that a run gives. -/
def given (r : Run) : List Step :=
  (r.drain (fun steps step => steps ++ [step]) []).2.1

/-- A run on demand gives the steps without a limit as well, cut off at its budget. -/
theorem drain_eq {σ : Type} (report : σ → Step → σ) (acc : σ) (r : Run)
    (hfinished : r.finished = false) :
    ∃ left, r.drain report acc =
      (outcome r.graph r.budget r.configuration,
        (trace r.graph r.budget r.configuration).foldl report acc,
        { r with
          configuration := after r.graph r.budget r.configuration
          budget := left
          finished := true }) := by
  generalize hbudget : r.budget = budget
  induction budget generalizing r acc with
  | zero =>
      cases h : r.configuration.step? r.graph with
      | none =>
          refine ⟨r.budget, ?_⟩
          rw [drain, next_of_halted hfinished h, outcome_of_none h]
          rfl
      | some p =>
          refine ⟨r.budget, ?_⟩
          have hhalted : r.configuration.isHalted r.graph = false := by
            rw [← isNone_step?, h]
            rfl
          rw [drain, next_of_spent hfinished h hbudget, outcome, after, if_neg (by simp [hhalted])]
          rfl
  | succ budget ih =>
      cases h : r.configuration.step? r.graph with
      | none =>
          refine ⟨r.budget, ?_⟩
          rw [drain, next_of_halted hfinished h, outcome_of_none h, trace_of_none h,
            after_of_none h]
          rfl
      | some p =>
          obtain ⟨step, c⟩ := p
          obtain ⟨left, hrest⟩ := ih (report acc step)
            { r with configuration := c, budget := budget } hfinished rfl
          refine ⟨left, ?_⟩
          rw [drain, next_of_step hfinished h hbudget, outcome_of_some h, trace_of_some h,
            after_of_some h]
          exact hrest

theorem given_eq (r : Run) (hfinished : r.finished = false) :
    r.given = trace r.graph r.budget r.configuration := by
  obtain ⟨left, hdrain⟩ := r.drain_eq (fun steps step => steps ++ [step]) [] hfinished
  rw [given, hdrain]
  simp [← List.flatMap_def]

/-! ## After the end -/

theorem advance_of_finished (h : r.finished = true) (k : Nat) : r.advance k = r := by
  induction k with
  | zero => rfl
  | succ k ih => rw [advance, next_of_finished h, ih]

/-- A call that gives no step is the last to give anything, and it changes nothing. -/
theorem finished_of_next (h : ∀ step, r.next.1 ≠ some (.ok step)) :
    r.next.2 = { r with finished := true } := by
  unfold next at h ⊢
  split at h
  · rename_i hfinished
    rw [if_pos hfinished, ← hfinished]
  · rename_i hfinished
    rw [if_neg hfinished]
    split at h
    · rfl
    · rfl
    · exact absurd rfl (h _)

theorem advance_add (r : Run) (k j : Nat) : r.advance (k + j) = (r.advance k).advance j := by
  induction k generalizing r with
  | zero => rw [Nat.zero_add, advance]
  | succ k ih => rw [Nat.succ_add, advance, advance, ih]

theorem silent_of_item {k : Nat} (h : ∀ step, r.item k ≠ some (.ok step)) {j : Nat} (hj : k < j) :
    r.item j = none ∧ (r.advance j).configuration = (r.advance k).configuration := by
  obtain ⟨i, rfl⟩ : ∃ i, j = k + (i + 1) := ⟨j - k - 1, by omega⟩
  have hnext := finished_of_next h
  have hadvance : r.advance (k + (i + 1)) = { r.advance k with finished := true } := by
    rw [advance_add, advance, hnext, advance_of_finished rfl]
  rw [item, hadvance]
  exact ⟨by rw [next_of_finished rfl], rfl⟩

end Run

/-! ## Machines -/

namespace Machine

/-- Where a run of the machine on its own tape starts. -/
def start (m : Machine) : Configuration where
  current := m.automaton.entry
  tape := m.tape

theorem steps_after_start (m : Machine) (n : Nat) :
    (after m.automaton.graph n m.start).steps = (trace m.automaton.graph n m.start).length := by
  rw [steps_after]
  exact Nat.zero_add _

theorem runOn_eq {σ : Type} (m : Machine) (report : σ → Step → σ) (init : σ) (limit : Nat)
    (tape : Tape) :
    m.runOn report init limit tape =
      (outcome m.automaton.graph limit { current := m.automaton.entry, tape := tape },
        (trace m.automaton.graph limit { current := m.automaton.entry, tape := tape }).foldl
          report init,
        (after m.automaton.graph limit { current := m.automaton.entry, tape := tape }).tape) := by
  rw [runOn, Graph.run_eq]

/-- However the machine is run on its tape within the limit, it comes to `result`, has reported
`steps` and nothing else, and leaves `tape`. -/
structure Delivers {σ : Type} (m : Machine) (report : σ → Step → σ) (init : σ) (limit : Nat)
    (result : Except RunError Nat) (steps : List Step) (tape : Tape) : Prop where
  run : m.run report init limit = (result, steps.foldl report init, { m with tape := tape })
  runOn : m.runOn report init limit m.tape = (result, steps.foldl report init, tape)
  stepwise : ∃ r, (m.stepwise limit).drain report init = (result, steps.foldl report init, r) ∧
    r.tape = tape ∧ r.steps = steps.length

theorem delivers {σ : Type} (m : Machine) (report : σ → Step → σ) (init : σ) (limit : Nat) :
    m.Delivers report init limit (outcome m.automaton.graph limit m.start)
      (trace m.automaton.graph limit m.start) (after m.automaton.graph limit m.start).tape := by
  have hrunOn := m.runOn_eq report init limit m.tape
  obtain ⟨left, hdrain⟩ := (m.stepwise limit).drain_eq report init rfl
  refine ⟨?_, hrunOn, _, hdrain, rfl, ?_⟩
  · rw [Machine.run, hrunOn]
    rfl
  · exact m.steps_after_start limit

/-- A limit only cuts off. The steps within a limit are the first of those within a larger one, and
all ways to run the machine report the same. If it halts after `n` steps, then every way reports
these `n` steps and gives `n` as soon as the limit allows them. If it has not halted within the
limit, then every way reports as many steps as the limit says, leaves the tape as it is then and
says that the limit is used up. After a call that gave no step there is nothing more, and nothing
changes. -/
theorem limit_truncates {σ : Type} (m : Machine) (report : σ → Step → σ) (init : σ) :
    (∀ limit limit', limit ≤ limit' →
      (m.stepwise limit).given = (m.stepwise limit').given.take limit) ∧
    (∀ n, HaltsIn m.automaton.graph m.start n → ∀ limit, n ≤ limit →
      (trace m.automaton.graph n m.start).length = n ∧
      m.Delivers report init limit (.ok n) (trace m.automaton.graph n m.start)
        (after m.automaton.graph n m.start).tape) ∧
    (∀ limit, (∀ n, HaltsIn m.automaton.graph m.start n → limit < n) →
      (trace m.automaton.graph limit m.start).length = limit ∧
      m.Delivers report init limit (.error (.longExecution limit))
        (trace m.automaton.graph limit m.start) (after m.automaton.graph limit m.start).tape) ∧
    (∀ limit, ∃ result tape,
      m.Delivers report init limit result (m.stepwise limit).given tape) ∧
    (∀ limit k, (∀ step, (m.stepwise limit).item k ≠ some (.ok step)) → ∀ j, k < j →
      (m.stepwise limit).item j = none ∧
      ((m.stepwise limit).advance j).configuration =
        ((m.stepwise limit).advance k).configuration) := by
  refine ⟨?_, ?_, ?_, ?_, fun limit k h j hj => Run.silent_of_item h hj⟩
  · intro limit limit' hle
    rw [Run.given_eq _ rfl, Run.given_eq _ rfl]
    exact trace_eq_take hle _
  · intro n hhalts limit hle
    obtain ⟨htrace, hafter, hlength, hhalted⟩ := hhalts.stays hle
    refine ⟨hlength, ?_⟩
    have hdelivers := m.delivers report init limit
    rw [outcome, htrace, hafter, if_pos hhalted, steps_after_start, hlength] at hdelivers
    exact hdelivers
  · intro limit hlong
    obtain ⟨hlength, hhalted⟩ := runs_on_of_not_haltsIn hlong
    refine ⟨hlength, ?_⟩
    have hdelivers := m.delivers report init limit
    rw [outcome, if_neg (by simp [hhalted]), steps_after_start, hlength] at hdelivers
    exact hdelivers
  · intro limit
    rw [Run.given_eq _ rfl]
    exact ⟨_, _, m.delivers report init limit⟩

/-- The graph with a shared return, on a tape of one blank. -/
def sharedReturn : Machine where
  automaton := { graph := .sharedReturn, entry := .slot 0 }

/-- It halts after four steps: with a limit of four it gives four, and with a limit of three it has
reported three and has given up. -/
theorem sharedReturn_truncated :
    HaltsIn sharedReturn.automaton.graph sharedReturn.start 4 ∧
    (sharedReturn.run (fun n _ => n + 1) 0 4).1 = .ok 4 ∧
    (sharedReturn.run (fun n _ => n + 1) 0 3).1 = .error (.longExecution 3) ∧
    (sharedReturn.run (fun n _ => n + 1) 0 3).2.1 = 3 ∧
    (sharedReturn.stepwise 3).given = (sharedReturn.stepwise 4).given.take 3 ∧
    (sharedReturn.stepwise 3).item 4 = none := by
  obtain ⟨hfirst, hhalts, hlong, -, hsilent⟩ :=
    limit_truncates sharedReturn (fun n _ => n + 1) 0
  have hfour : HaltsIn sharedReturn.automaton.graph sharedReturn.start 4 :=
    haltsIn_iff.mpr (by decide +kernel)
  have hthree : ∀ n, HaltsIn sharedReturn.automaton.graph sharedReturn.start n → 3 < n := by
    intro n hn
    by_contra hle
    have hhalted : (after sharedReturn.automaton.graph 3 sharedReturn.start).isHalted
        sharedReturn.automaton.graph = false := by decide +kernel
    obtain ⟨-, hafter, -, hat⟩ := hn.stays (Nat.le_of_not_lt hle)
    rw [hafter, hat] at hhalted
    cases hhalted
  obtain ⟨hlength, hgives⟩ := hhalts 4 hfour 4 (Nat.le_refl 4)
  obtain ⟨hlength', hgives'⟩ := hlong 3 hthree
  refine ⟨hfour, ?_, ?_, ?_, hfirst 3 4 (by decide), (hsilent 3 3 ?_ 4 (by decide)).1⟩
  · rw [hgives.run]
  · rw [hgives'.run]
  · rw [hgives'.run]
    rfl
  · have hspent : (sharedReturn.stepwise 3).item 3 = some (.error (.longExecution 3)) := rfl
    rw [hspent]
    simp

end Machine

end TapeMachine
