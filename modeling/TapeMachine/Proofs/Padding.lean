import TapeMachine.Proofs.Limits
import TapeMachine.Proofs.Trimming

/-!
# Blanks at the ends of a tape

A tape has blank cells past both of its ends, some of them kept in the row and the
others added when the head gets there. How many are kept is of no account to a run:
on two tapes that differ only in this a run takes the same steps.

The blanks that one tape has more than the other change along the run. Where the
head leaves the smaller tape, that one grows, and the larger tape has one blank less
to spare, unless it has none and grows as well.
-/

namespace TapeMachine

namespace Tape

/-- The tape `t'` is `t` with `a` more blanks on the left and `b` on the right, and with the head
on the same cell. -/
structure Pads (a b : Nat) (t t' : Tape) : Prop where
  cells : t'.cells = List.replicate a .blank ++ t.cells ++ List.replicate b .blank
  position : t'.position = t.position + a

/-- The tape with `a` more blanks on the left and `b` on the right. -/
def pad (a b : Nat) (t : Tape) : Tape where
  left := t.left ++ List.replicate a .blank
  head := t.head
  right := t.right ++ List.replicate b .blank

theorem pads_pad (a b : Nat) (t : Tape) : t.Pads a b (t.pad a b) where
  cells := by simp [cells, pad]
  position := by simp [position, pad]

theorem pads_iff {a b : Nat} {t t' : Tape} : t.Pads a b t' ↔ t' = t.pad a b := by
  constructor
  · intro h
    have hpad := pads_pad a b t
    exact eq_of_cells (h.cells.trans hpad.cells.symm) (h.position.trans hpad.position.symm)
  · rintro rfl
    exact pads_pad a b t

/-! ## Reading, writing and moving -/

section Pad

variable (a b : Nat) (t : Tape)

theorem read_pad : (t.pad a b).read = t.read := rfl

theorem write_pad (s : Symbol) : (t.pad a b).write s = (t.write s).pad a b := rfl

/-- Past the left end the larger tape uses one of its blanks, if it has any. -/
theorem moveLeft_pad :
    (t.pad a b).moveLeft = t.moveLeft.pad (if t.left = [] then a - 1 else a) b := by
  obtain ⟨left, head, right⟩ := t
  cases left with
  | cons s rest => rfl
  | nil =>
      cases a with
      | zero => rfl
      | succ a => rfl

theorem moveRight_pad :
    (t.pad a b).moveRight = t.moveRight.pad a (if t.right = [] then b - 1 else b) := by
  obtain ⟨left, head, right⟩ := t
  cases right with
  | cons s rest => rfl
  | nil =>
      cases b with
      | zero => rfl
      | succ b => rfl

end Pad

theorem Pads.read {a b : Nat} {t t' : Tape} (h : t.Pads a b t') : t'.read = t.read := by
  rw [pads_iff.mp h, read_pad]

theorem Pads.write {a b : Nat} {t t' : Tape} (h : t.Pads a b t') (s : Symbol) :
    (t.write s).Pads a b (t'.write s) := by
  rw [pads_iff.mp h, write_pad]
  exact pads_pad a b _

theorem Pads.move {a b : Nat} {t t' : Tape} (h : t.Pads a b t') (m : Movement) :
    ∃ a' b', (t.move m).Pads a' b' (t'.move m) := by
  rw [pads_iff.mp h]
  cases m with
  | left =>
      refine ⟨if t.left = [] then a - 1 else a, b, ?_⟩
      rw [Tape.move, Tape.move, moveLeft_pad]
      exact pads_pad _ _ _
  | right =>
      refine ⟨a, if t.right = [] then b - 1 else b, ?_⟩
      rw [Tape.move, Tape.move, moveRight_pad]
      exact pads_pad _ _ _

/-! ## The cells between the marks -/

theorem Pads.trimmed {a b : Nat} {t t' : Tape} (h : t.Pads a b t') : t'.trimmed = t.trimmed := by
  rw [Tape.trimmed, h.cells, Symbol.trim_append_blanks, Symbol.trim_blanks_append, Tape.trimmed]

theorem Pads.trimmedText {a b : Nat} {t t' : Tape} (h : t.Pads a b t') :
    t'.trimmedText = t.trimmedText := by
  rw [Tape.trimmedText, Tape.trimmedText, h.trimmed]

end Tape

/-! ## Steps -/

theorem Transition.apply_pads {τ : Type} (transition : Transition τ) {a b : Nat} {t t' : Tape}
    (h : t.Pads a b t') : ∃ a' b', (transition.apply t).Pads a' b' (transition.apply t') := by
  unfold apply
  cases transition.write with
  | none =>
      cases transition.move with
      | none => exact ⟨a, b, h⟩
      | some m => exact h.move m
  | some s =>
      cases transition.move with
      | none => exact ⟨a, b, h.write s⟩
      | some m => exact (h.write s).move m

namespace Configuration

/-- The two stand at the same place, and the tapes differ in blanks at the ends. -/
structure Pads (c c' : Configuration) : Prop where
  current : c'.current = c.current
  returns : c'.returns = c.returns
  steps : c'.steps = c.steps
  tape : ∃ a b, c.tape.Pads a b c'.tape

/-- Both have halted, or both take the same step and differ in blanks again. -/
inductive PadsNext : Option (Step × Configuration) → Option (Step × Configuration) → Prop
  | halted : PadsNext none none
  | step (step : Step) {c c' : Configuration} (next : c.Pads c') :
      PadsNext (some (step, c)) (some (step, c'))

variable {g : Graph} {c c' : Configuration}

theorem Pads.step? (g : Graph) (h : c.Pads c') : PadsNext (c.step? g) (c'.step? g) := by
  obtain ⟨a, b, htape⟩ := h.tape
  unfold Configuration.step?
  rw [h.current, h.returns, h.steps, htape.read]
  cases g.state? c.current with
  | none => exact .halted
  | some s => exact .step _ ⟨rfl, rfl, rfl, Transition.apply_pads _ htape⟩

/-- Without a limit both take the same steps. -/
theorem Pads.trace (h : c.Pads c') (n : Nat) :
    trace g n c' = trace g n c ∧ (after g n c).Pads (after g n c') := by
  induction n generalizing c c' with
  | zero => exact ⟨rfl, h⟩
  | succ n ih =>
      have hnext := h.step? g
      unfold Configuration.trace after
      generalize c.step? g = o, c'.step? g = o' at hnext
      cases hnext with
      | halted => exact ⟨rfl, h⟩
      | step step hpads =>
          obtain ⟨htrace, hafter⟩ := ih hpads
          exact ⟨congrArg (step :: ·) htrace, hafter⟩

theorem Pads.isHalted (h : c.Pads c') : c'.isHalted g = c.isHalted g := by
  rw [Configuration.isHalted, Configuration.isHalted, h.current]

theorem Pads.outcome (h : c.Pads c') (n : Nat) : outcome g n c' = outcome g n c := by
  have hafter := (h.trace (g := g) n).2
  rw [Configuration.outcome, Configuration.outcome, hafter.isHalted, hafter.steps]

end Configuration

namespace Run

/-- The runs stand at the same place, and their tapes differ in blanks at the ends. -/
structure Pads (r r' : Run) : Prop where
  graph : r'.graph = r.graph
  configuration : r.configuration.Pads r'.configuration
  budget : r'.budget = r.budget
  finished : r'.finished = r.finished

variable {r r' : Run}

theorem Pads.next (h : r.Pads r') : r'.next.1 = r.next.1 ∧ r.next.2.Pads r'.next.2 := by
  have hnext := h.configuration.step? r.graph
  unfold Run.next
  rw [h.finished, h.graph, h.budget, Run.steps, h.configuration.steps]
  split
  · exact ⟨rfl, h⟩
  · generalize r.configuration.step? r.graph = o, r'.configuration.step? r.graph = o' at hnext
    cases hnext with
    | halted => exact ⟨rfl, rfl, h.configuration, rfl, rfl⟩
    | step step hpads =>
        cases r.budget with
        | zero => exact ⟨rfl, rfl, h.configuration, rfl, rfl⟩
        | succ budget => exact ⟨rfl, rfl, hpads, rfl, rfl⟩

theorem Pads.advance (h : r.Pads r') (k : Nat) : (r.advance k).Pads (r'.advance k) := by
  induction k generalizing r r' with
  | zero => exact h
  | succ k ih => exact ih h.next.2

theorem Pads.item (h : r.Pads r') (k : Nat) : r'.item k = r.item k :=
  (h.advance k).next.1

end Run

/-! ## Whole runs -/

/-- Blanks at the ends of a tape make no difference to a run within any limit. It takes the same
steps and comes to the same result, step by step and as a whole, and at all times the tapes are the
same up to blanks at the ends, with the head on the same cell. -/
theorem Graph.runs_padded {σ : Type} (g : Graph) (entry : StateId) (limit : Nat) {a b : Nat}
    {t t' : Tape} (h : t.Pads a b t') (report : σ → Step → σ) (init : σ) :
    (∀ k, (Run.start g entry t' limit).item k = (Run.start g entry t limit).item k) ∧
    (∀ k, ∃ a' b', ((Run.start g entry t limit).advance k).tape.Pads a' b'
      ((Run.start g entry t' limit).advance k).tape) ∧
    (∀ k, ((Run.start g entry t' limit).advance k).tape.trimmedText =
      ((Run.start g entry t limit).advance k).tape.trimmedText) ∧
    ∃ result acc left left',
      ({ automaton := { graph := g, entry } } : Machine).runOn report init limit t =
        (result, acc, left) ∧
      ({ automaton := { graph := g, entry } } : Machine).runOn report init limit t' =
        (result, acc, left') ∧
      left'.trimmedText = left.trimmedText ∧ ∃ a' b', left.Pads a' b' left' := by
  have hstart : ({ current := entry, tape := t } : Configuration).Pads
      { current := entry, tape := t' } := ⟨rfl, rfl, rfl, a, b, h⟩
  have hruns : (Run.start g entry t limit).Pads (Run.start g entry t' limit) :=
    ⟨rfl, hstart, rfl, rfl⟩
  have htapes := fun k => (hruns.advance k).configuration.tape
  obtain ⟨htrace, hafter⟩ := hstart.trace (g := g) limit
  obtain ⟨a', b', hleft⟩ := hafter.tape
  refine ⟨hruns.item, htapes, ?_, _, _, _, _, Machine.runOn_eq _ report init limit t, ?_,
    hleft.trimmedText, a', b', hleft⟩
  · intro k
    obtain ⟨_, _, hpads⟩ := htapes k
    exact hpads.trimmedText
  · rw [Machine.runOn_eq, htrace, hstart.outcome]

/-- Marks a cell, goes left, comes back to the mark and passes it. -/
def Graph.bounce : Graph where
  states := #[
    { table := .always { write := some .mark, move := some .left, next := .slot 1 } },
    { table := .onSymbol { move := some .right, next := .halt }
        { move := some .right, next := .slot 1 } }]

/-- On one blank cell the tape grows at both ends, and on four cells it has room. -/
theorem Graph.bounce_padded :
    Tape.blank.Pads 2 1 (Tape.blank.pad 2 1) ∧
    ((Run.start bounce (.slot 0) Tape.blank 9).advance 3).tape.size = 3 ∧
    ((Run.start bounce (.slot 0) (Tape.blank.pad 2 1) 9).advance 3).tape.size = 4 ∧
    (∀ k, (Run.start bounce (.slot 0) (Tape.blank.pad 2 1) 9).item k =
      (Run.start bounce (.slot 0) Tape.blank 9).item k) ∧
    ((Run.start bounce (.slot 0) (Tape.blank.pad 2 1) 9).advance 3).tape.trimmedText =
      ((Run.start bounce (.slot 0) Tape.blank 9).advance 3).tape.trimmedText := by
  have hpads := Tape.pads_pad 2 1 Tape.blank
  obtain ⟨hitems, -, htrimmed, -⟩ := runs_padded bounce (.slot 0) 9 hpads (fun n _ => n + 1) 0
  exact ⟨hpads, rfl, rfl, hitems, htrimmed 3⟩

end TapeMachine
