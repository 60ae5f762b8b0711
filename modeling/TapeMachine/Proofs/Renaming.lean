import Mathlib.Data.Set.Function
import TapeMachine.Proofs.Compiled
import TapeMachine.Proofs.Returns

/-!
# Renaming the states of an automaton

Two automata that differ only in the ids of their states take the same steps on every
tape, with one id in the place of the other.
-/

namespace TapeMachine

/-- The ids of `a` are renamed to those of `a'`, one by one. -/
structure Automaton.Renames (f : StateId → StateId) (a a' : Automaton) : Prop where
  halt : f .halt = .halt
  bijOn : Set.BijOn f {id | a.graph.Present id} {id | a'.graph.Present id}
  entry : f a.entry = a'.entry
  states : ∀ id, a.graph.Present id →
    a'.graph.state? (f id) = (a.graph.state? id).map (State.map f)

section Rename

variable (f : StateId → StateId)

def Step.rename (s : Step) : Step :=
  { s with state := f s.state, next := f s.next }

def Configuration.rename (c : Configuration) : Configuration :=
  { c with current := f c.current, returns := c.returns.map f }

/-- The run on the graph `g` with its ids renamed. -/
def Run.rename (g : Graph) (r : Run) : Run :=
  { r with graph := g, configuration := r.configuration.rename f }

end Rename

/-- The current id and the pending returns are there. -/
def Configuration.Within (g : Graph) (c : Configuration) : Prop :=
  ∀ id ∈ c.ahead, g.Present id

theorem Configuration.Within.after_step {a : Automaton} {c c' : Configuration} {step : Step}
    (hclosed : a.Closed) (hc : c.Within a.graph) (h : c.step? a.graph = some (step, c')) :
    c'.Within a.graph := by
  obtain ⟨s, t, hs, ht, hresume⟩ := ahead_step h
  have htarget : a.graph.Present t := hclosed.targets _ s hs t (List.mem_append_left _ ht)
  have hreturns : ∀ id ∈ s.returnTo.toList ++ c.returns, a.graph.Present id := by
    intro id hid
    rcases List.mem_append.mp hid with hid | hid
    · exact hclosed.targets _ s hs id (List.mem_append_right _ hid)
    · exact hc id (List.mem_cons_of_mem _ hid)
  intro id hid
  rcases ahead_of_resume hresume with hahead | ⟨-, hahead⟩
  · rw [hahead] at hid
    rcases List.mem_cons.mp hid with rfl | hid
    · exact htarget
    · exact hreturns id hid
  · rw [hahead] at hid
    exact hreturns id hid

namespace Automaton.Renames

variable {f : StateId → StateId} {a a' : Automaton}

theorem eq_halt_iff (h : a.Renames f a') {id : StateId} (hid : a.graph.Present id) :
    f id = .halt ↔ id = .halt := by
  constructor
  · intro heq
    refine h.bijOn.injOn hid (Or.inl rfl) ?_
    rw [heq, h.halt]
  · rintro rfl
    exact h.halt

/-- Where to go on is renamed as well: halt is halt in both. -/
theorem resume (h : a.Renames f a') {id : StateId} (hid : a.graph.Present id)
    (returns : List StateId) :
    (f id).resume (returns.map f) = (f (id.resume returns).1, (id.resume returns).2.map f) := by
  cases id with
  | halt =>
      rw [h.halt]
      cases returns <;> simp [StateId.resume, h.halt]
  | slot k =>
      cases hf : f (.slot k) with
      | halt => cases (h.eq_halt_iff hid).mp hf
      | slot k' => simp [StateId.resume, hf]

theorem step?_rename (h : a.Renames f a') (hclosed : a.Closed) {c : Configuration}
    (hc : c.Within a.graph) :
    (c.rename f).step? a'.graph =
      (c.step? a.graph).map fun p => (p.1.rename f, p.2.rename f) := by
  have hstate := h.states c.current (hc _ List.mem_cons_self)
  unfold Configuration.step?
  cases hs : a.graph.state? c.current with
  | none =>
      rw [hs] at hstate
      simp only [Configuration.rename, hstate]
      rfl
  | some s =>
      rw [hs] at hstate
      have htarget := hclosed.targets _ s hs _
        (List.mem_append_left _ (s.table.next_mem_targets c.tape.read))
      have hresume := h.resume htarget (s.returnTo.toList ++ c.returns)
      have hreturns : (s.map f).returnTo.toList ++ c.returns.map f =
          (s.returnTo.toList ++ c.returns).map f := by
        cases hreturn : s.returnTo <;> simp [State.map, hreturn]
      have hsymbol : (s.map f).table.forSymbol c.tape.read =
          (s.table.forSymbol c.tape.read).map f := s.table.forSymbol_map f _
      simp only [Configuration.rename, hstate, Option.map_some, hreturns, hsymbol,
        Transition.map, hresume]
      rfl

/-- One call of `next` gives the same in both, with the ids renamed. -/
theorem next_rename (h : a.Renames f a') (hclosed : a.Closed) {r : Run}
    (hgraph : r.graph = a.graph) (hc : r.configuration.Within a.graph) :
    (r.rename f a'.graph).next =
      (r.next.1.map (·.map (Step.rename f)), r.next.2.rename f a'.graph) := by
  have hstep := h.step?_rename hclosed hc
  unfold Run.next
  rw [hgraph]
  simp only [Run.rename, hstep]
  split
  · rfl
  · cases r.configuration.step? a.graph with
    | none => rfl
    | some p =>
        cases r.budget with
        | zero => rfl
        | succ budget => rfl

/-- After any number of steps the two runs stand at the same place. -/
theorem advance_rename (h : a.Renames f a') (hclosed : a.Closed) {r : Run}
    (hgraph : r.graph = a.graph) (hc : r.configuration.Within a.graph) (k : Nat) :
    (r.rename f a'.graph).advance k = (r.advance k).rename f a'.graph ∧
      (r.advance k).graph = a.graph ∧ (r.advance k).configuration.Within a.graph := by
  induction k generalizing r with
  | zero => exact ⟨rfl, hgraph, hc⟩
  | succ k ih =>
      rw [Run.advance, Run.advance, h.next_rename hclosed hgraph hc]
      rcases r.next_cases with ⟨step, c, hstep, -, hnext, hkept⟩ | ⟨-, hnext, hkept⟩
      · rw [hgraph] at hstep hkept
        exact ih hkept (hnext ▸ hc.after_step hclosed hstep)
      · exact ih (hkept.trans hgraph) (hnext ▸ hc)

/-- The two automata run alike on every tape. -/
theorem runs (h : a.Renames f a') (hclosed : a.Closed) (tape : Tape) (limit k : Nat) :
    (Run.start a'.graph a'.entry tape limit).item k =
        ((Run.start a.graph a.entry tape limit).item k).map (·.map (Step.rename f)) ∧
      ((Run.start a'.graph a'.entry tape limit).advance k).tape =
        ((Run.start a.graph a.entry tape limit).advance k).tape := by
  have hstart : Run.start a'.graph a'.entry tape limit =
      (Run.start a.graph a.entry tape limit).rename f a'.graph := by
    simp [Run.start, Run.rename, Configuration.rename, h.entry]
  have hwithin : (Run.start a.graph a.entry tape limit).configuration.Within a.graph := by
    intro id hid
    rw [List.mem_singleton.mp hid]
    exact hclosed.entry
  obtain ⟨hadvance, hgraph, hc⟩ := h.advance_rename hclosed rfl hwithin k
  rw [Run.item, Run.item, hstart, hadvance, h.next_rename hclosed hgraph hc]
  exact ⟨rfl, rfl⟩

end Automaton.Renames

end TapeMachine
