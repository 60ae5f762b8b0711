import TapeMachine.Proofs.Compiled
import TapeMachine.Proofs.Termination

/-!
# The returns of a compiled program

In a hand-made graph a state may return anywhere. The compiler makes every return
a state without effect that goes on at once, and this is a matter of the states
and recipes alone: no step of a compilation can add a state with another kind of
return, whatever labels it is given and whether or not it succeeds.

In a run such a return is pushed, and it is no halt. So where a transition leads
to halt the run can only stay there if nothing is pending.
-/

namespace TapeMachine

namespace Build

/-! ## What every step of a compilation keeps -/

variable {α β : Type}

/-- Whether or not the step succeeds, it leaves a draft with `P` if it finds one. -/
def Keeps (P : Draft → Prop) (x : Build α) : Prop :=
  ∀ d, P d → P (x.final d)

/-- What the steps that change a draft keep. -/
structure Stable (P : Draft → Prop) : Prop where
  emit : ∀ e, Keeps P (emit e)
  newLabel : Keeps P newLabel
  place : ∀ l id, Keeps P (place l id)
  declare : ∀ l, Keeps P (addState (Draft.entryState l))
  act : ∀ action next, Keeps P (act action next)
  check : ∀ marked blank, Keeps P (check marked blank)
  enter : ∀ entry next, Keeps P (enter entry next)

variable {P : Draft → Prop}

theorem keeps_pure (a : α) : Keeps P (pure a : Build α) :=
  fun _ h => h

theorem keeps_throw (e : CompileError) : Keeps P (throw e : Build α) :=
  fun _ h => h

theorem keeps_ofExcept (r : Except CompileError α) : Keeps P (ofExcept r : Build α) := by
  cases r with
  | error e => exact keeps_throw e
  | ok a => exact keeps_pure a

theorem keeps_placeOf (l : Label) : Keeps P (placeOf l) := by
  intro d h
  rw [placeOf, final, bind_of_ok (get_apply d)]
  exact keeps_ofExcept _ d h

theorem Keeps.bind {x : Build α} {f : α → Build β} (hx : Keeps P x) (hf : ∀ a, Keeps P (f a)) :
    Keeps P (x >>= f) := by
  intro d h
  have hd := hx d h
  cases hrun : x d with
  | ok a d' =>
      rw [final_of_ok hrun] at hd
      rw [final, bind_of_ok hrun]
      exact hf a d' hd
  | error e d' =>
      rw [final_of_error hrun] at hd
      rw [final_of_error (bind_of_error hrun)]
      exact hd

namespace Stable

variable (hP : Stable P)
include hP

theorem labelled (numbered : List (Index × Instruction)) : Keeps P (labelled numbered) := by
  induction numbered with
  | nil => exact keeps_pure _
  | cons entry rest ih => exact hP.newLabel.bind fun _ => ih.bind fun _ => keeps_pure _

theorem eachLine {make : Site → Build StateId} (hmake : ∀ s, Keeps P (make s)) (inGroup : Bool)
    (lines rest : List Line) : Keeps P (eachLine make inGroup lines rest) := by
  induction rest with
  | nil => exact keeps_pure _
  | cons l rest ih =>
      exact ((hmake _).bind fun id => hP.place l.label id).bind fun _ => ih

theorem sequence {make : Site → Build StateId} (hmake : ∀ s, Keeps P (make s)) (inGroup : Bool)
    (numbered : List (Index × Instruction)) : Keeps P (sequence make inGroup numbered) := by
  refine (hP.labelled numbered).bind fun lines => ?_
  cases lines with
  | nil => exact keeps_throw _
  | cons first rest =>
      exact (hP.eachLine hmake inGroup _ _).bind fun _ => (keeps_placeOf _).bind fun _ =>
        (hP.emit _).bind fun _ => keeps_pure _

theorem instructionWith {group : Site → List Instruction → Build StateId}
    (hgroup : ∀ s members, Keeps P (group s members)) (visible : Visible) (s : Site) :
    Keeps P (instructionWith group visible s) := by
  refine (hP.emit _).bind fun _ => ?_
  cases s.line.instruction.command with
  | act action => exact (keeps_ofExcept _).bind fun next => hP.act action next
  | stop => exact (keeps_ofExcept _).bind fun _ => keeps_pure _
  | check ifMarked otherwise => exact (keeps_ofExcept _).bind fun _ => hP.check _ _
  | call name =>
      exact (keeps_ofExcept _).bind fun entry => (keeps_ofExcept _).bind fun next =>
        hP.enter entry next
  | group members => exact hgroup s members

theorem group (visible : Visible) (s : Site) (members : List Instruction) :
    Keeps P (group visible s members) := by
  unfold Build.group
  split
  · exact keeps_throw _
  · split
    · exact keeps_throw _
    · have hmember := hP.instructionWith (fun s _ => keeps_throw (.nestedGroup s.index)) visible
      exact (hP.sequence hmember true _).bind fun entry => (hP.emit _).bind fun _ =>
        (keeps_ofExcept _).bind fun next => hP.enter entry next

theorem declared (visible : Visible) (subs : List (Key × Scope)) :
    Keeps P (Build.declare visible subs) := by
  induction subs with
  | nil => exact keeps_pure _
  | cons sub rest ih =>
      exact hP.newLabel.bind fun label => (hP.declare label).bind fun _ => ih.bind fun _ =>
        keeps_pure _

theorem scopeWith {bodies : Visible → List Label → Build Unit}
    (hbodies : ∀ visible labels, Keeps P (bodies visible labels)) (s : Scope) (visible : Visible) :
    Keeps P (scopeWith bodies s visible) :=
  (keeps_ofExcept _).bind fun o => (hP.declared visible o.subroutines).bind fun _ =>
    (hbodies _ _).bind fun _ =>
      hP.sequence (hP.instructionWith (hP.group _) _) false o.instructions

theorem bodies (s : Scope) : ∀ visible labels, Keeps P (bodies s visible labels) := by
  induction s with
  | nil => exact fun _ _ => keeps_pure _
  | instr key i rest ih => exact ih
  | sub name body rest ihbody ihrest =>
      intro visible labels
      cases labels with
      | nil => exact keeps_pure _
      | cons label labels =>
          exact (hP.scopeWith ihbody body visible).bind fun entry =>
            (hP.place label entry).bind fun _ => (hP.emit _).bind fun _ =>
              ihrest visible labels

theorem scope (s : Scope) (visible : Visible) : Keeps P (scope s visible) :=
  hP.scopeWith (hP.bodies s) s visible

end Stable

end Build

/-! ## Returns in a draft -/

namespace Draft

/-- The id names a state that goes on at once: for every symbol the same transition without effect,
and no return of its own. -/
def Relay (d : Draft) (id : StateId) : Prop :=
  ∃ next, d.state? id = some { table := .always (.goto next) }

/-- Every return is a relay, and so is what a recipe without effect stands for. -/
structure ReturnsRelayed (d : Draft) : Prop where
  noops : ∀ next id, d.recipes[Recipe.act .noop next]? = some id → d.Relay id
  returns : ∀ id s, d.state? id = some s → ∀ t ∈ s.returnTo, ∃ back, t = .state back ∧ d.Relay back

theorem Grows.relay {pending : List Label} {d d' : Draft} (h : Grows pending d d') {id : StateId}
    (hid : d.Relay id) : d'.Relay id := by
  obtain ⟨next, hnext⟩ := hid
  exact ⟨next, h.state? hnext⟩

theorem returnsRelayed_empty : ReturnsRelayed {} where
  noops := by
    intro next id h
    simp at h
  returns := by
    intro id s h
    cases id <;> simp [state?] at h

namespace ReturnsRelayed

variable {d : Draft}

theorem pushState (h : d.ReturnsRelayed) {s : State Target}
    (hs : ∀ t ∈ s.returnTo, ∃ back, t = .state back ∧ d.Relay back) :
    ({ d with states := d.states.push s } : Draft).ReturnsRelayed := by
  have hgrow := grows_pushState d s
  refine ⟨fun next id hr => hgrow.relay (h.noops next id hr), ?_⟩
  intro id s' hs' t ht
  suffices hold : ∃ back, t = .state back ∧ d.Relay back by
    obtain ⟨back, rfl, hback⟩ := hold
    exact ⟨back, rfl, hgrow.relay hback⟩
  cases id with
  | halt => simp [state?] at hs'
  | slot k =>
      simp only [state?, Array.getElem?_push] at hs'
      split at hs'
      · cases hs'
        exact hs t ht
      · exact h.returns (.slot k) s' hs' t ht

/-- A recipe may be recorded for a relay, and for any state if it has an effect. -/
theorem record (h : d.ReturnsRelayed) {r : Recipe} {id : StateId}
    (hr : ∀ next, r = .act .noop next → d.Relay id) :
    ({ d with recipes := d.recipes.insert r id } : Draft).ReturnsRelayed := by
  refine ⟨?_, h.returns⟩
  intro next id' hid'
  change (d.recipes.insert r id)[Recipe.act .noop next]? = some id' at hid'
  rw [Std.TreeMap.getElem?_insert] at hid'
  split at hid'
  · rename_i heq
    cases hid'
    exact hr next (Std.LawfulEqOrd.eq_of_compare heq)
  · exact h.noops next id' hid'

end ReturnsRelayed

end Draft

namespace Build

open Draft

theorem keeps_share {r : Recipe} {s : State Target} {d : Draft} (h : d.ReturnsRelayed)
    (hr : ∀ next, r = .act .noop next → s = { table := .always (.goto next) })
    (hs : ∀ t ∈ s.returnTo, ∃ back, t = .state back ∧ d.Relay back) :
    ((share r s).final d).ReturnsRelayed := by
  cases hcached : d.recipes[r]? with
  | some id =>
      rw [final_of_ok (share_of_some hcached)]
      exact ⟨h.noops, h.returns⟩
  | none =>
      rw [final_of_ok (share_of_none hcached)]
      refine (h.pushState hs).record ?_
      intro next hnext
      refine ⟨next, ?_⟩
      rw [← hr next hnext]
      simp [state?]

theorem keeps_act (action : Action) (next : Target) : Keeps ReturnsRelayed (act action next) := by
  intro d h
  refine keeps_share h ?_ (by simp)
  rintro next' heq
  cases heq
  rfl

/-- The state that stands in for an entry returns through a relay made for it. -/
theorem keeps_enter (entry : StateId) (next : Target) :
    Keeps ReturnsRelayed (enter entry next) := by
  intro d h
  have hact := keeps_act .noop next d h
  cases hback : act .noop next d with
  | error e d₁ =>
      rw [final_of_error hback] at hact
      rw [enter, final_of_error (bind_of_error hback)]
      exact hact
  | ok back d₁ =>
      rw [final_of_ok hback] at hact
      rw [enter, final, bind_of_ok hback, bind_of_ok (get_apply d₁)]
      cases d₁.state? entry with
      | none => exact hact
      | some s =>
          refine keeps_share hact (by simp) ?_
          intro t ht
          obtain rfl : Target.state back = t := by simpa [standIn] using ht
          exact ⟨back, rfl, hact.noops next back (share_recipe hback)⟩

theorem stable_returnsRelayed : Stable ReturnsRelayed where
  emit := fun _ _ h => ⟨h.noops, h.returns⟩
  newLabel := fun _ h => ⟨h.noops, h.returns⟩
  place := by
    intro l id d h
    rw [final, place, bind_of_ok (get_apply d)]
    cases (d.place? l).isSome <;> exact ⟨h.noops, h.returns⟩
  declare := fun l _ h => h.pushState (by simp [entryState])
  act := keeps_act
  check := fun _ _ _ h => keeps_share h (by simp) (by simp)
  enter := keeps_enter

theorem program_returnsRelayed {s : Scope} {d : Draft} {entry : StateId}
    (h : scope s [] {} = .ok entry d) : d.ReturnsRelayed := by
  have hfinal := stable_returnsRelayed.scope s [] {} returnsRelayed_empty
  rw [final_of_ok h] at hfinal
  exact hfinal

end Build

/-! ## Returns in a run -/

/-- The id names a state that goes on at once: for every symbol the same transition without effect,
and no return of its own. -/
def Graph.Relay (g : Graph) (id : StateId) : Prop :=
  ∃ next, g.state? id = some { table := .always (.goto next) }

theorem Draft.Relay.graph {d : Draft} {id : StateId} (h : d.Relay id) : d.graph.Relay id := by
  obtain ⟨next, hnext⟩ := h
  refine ⟨d.locate next, ?_⟩
  rw [state?_graph, hnext]
  rfl

theorem Draft.ReturnsRelayed.graph {d : Draft} (h : d.ReturnsRelayed) {id : StateId}
    {s : State StateId} (hs : d.graph.state? id = some s) :
    ∀ back ∈ s.returnTo, d.graph.Relay back := by
  rw [state?_graph, Option.map_eq_some_iff] at hs
  obtain ⟨s', hs', rfl⟩ := hs
  intro back hback
  obtain ⟨t, ht, rfl⟩ := Option.map_eq_some_iff.mp hback
  obtain ⟨back, rfl, hrelay⟩ := h.returns id s' hs' t ht
  exact hrelay.graph

theorem Graph.Relay.ne_halt {g : Graph} {id : StateId} (h : g.Relay id) : id ≠ .halt := by
  rintro rfl
  obtain ⟨next, hnext⟩ := h
  cases hnext

namespace Configuration

/-- The run stands at halt or at a state, all that is pending are relays, and nothing is pending
at halt. -/
structure Orderly (g : Graph) (c : Configuration) : Prop where
  present : g.Present c.current
  returns : ∀ id ∈ c.returns, g.Relay id
  halt : c.current = .halt → c.returns = []

variable {g : Graph} {c c' : Configuration} {step : Step}

theorem next_step (h : c.step? g = some (step, c')) : step.next = c'.current := by
  unfold step? at h
  split at h
  · cases h
  · cases h
    rfl

theorem Orderly.isHalted_iff (h : c.Orderly g) : c.isHalted g = true ↔ c.current = .halt := by
  rw [isHalted, Option.isNone_iff_eq_none]
  constructor
  · intro hnone
    rcases h.present with hhalt | hstate
    · exact hhalt
    · rw [hnone] at hstate
      cases hstate
  · intro hhalt
    rw [hhalt]
    rfl

/-- Where a transition leads: on to a state, back to the latest return, or to halt at last. -/
theorem orderly_resume {t : StateId} {returns : List StateId} (ht : g.Present t)
    (hreturns : ∀ id ∈ returns, g.Relay id)
    (h : (c.current, c.returns) = t.resume returns) : c.Orderly g := by
  cases t with
  | slot k =>
      obtain ⟨hcurrent, hrest⟩ := Prod.mk.inj h
      rw [← hcurrent] at ht
      refine ⟨ht, by rwa [hrest], ?_⟩
      rw [hcurrent]
      rintro ⟨⟩
  | halt =>
      cases returns with
      | nil =>
          obtain ⟨hcurrent, hrest⟩ := Prod.mk.inj h
          exact ⟨Or.inl hcurrent, by simp [hrest], fun _ => hrest⟩
      | cons back returns =>
          obtain ⟨hcurrent, hrest⟩ := Prod.mk.inj h
          have hback := hreturns back List.mem_cons_self
          refine ⟨?_, ?_, ?_⟩
          · obtain ⟨next, hnext⟩ := hback
            right
            rw [hcurrent, hnext]
            rfl
          · intro id hid
            rw [hrest] at hid
            exact hreturns id (List.mem_cons_of_mem back hid)
          · intro hhalt
            exact absurd (hcurrent.symm.trans hhalt) hback.ne_halt

/-- One step of a graph that leads nowhere but to its own states and returns through relays. -/
theorem Orderly.after_step
    (htargets : ∀ id s, g.state? id = some s → ∀ t ∈ s.targets, g.Present t)
    (hrelays : ∀ id s, g.state? id = some s → ∀ back ∈ s.returnTo, g.Relay back)
    (h : c.Orderly g) (hstep : c.step? g = some (step, c')) : c'.Orderly g := by
  obtain ⟨s, t, hs, ht, hresume⟩ := ahead_step hstep
  refine orderly_resume (htargets _ s hs t (List.mem_append_left _ ht)) ?_ hresume
  intro id hid
  rcases List.mem_append.mp hid with hid | hid
  · exact hrelays _ s hs id (by simpa using hid)
  · exact h.returns id hid

end Configuration

namespace Run

theorem next_cases (r : Run) :
    (∃ step c, r.configuration.step? r.graph = some (step, c) ∧ r.next.1 = some (.ok step) ∧
      r.next.2.configuration = c ∧ r.next.2.graph = r.graph) ∨
    ((∀ step, r.next.1 ≠ some (.ok step)) ∧ r.next.2.configuration = r.configuration ∧
      r.next.2.graph = r.graph) := by
  unfold next
  split
  · exact Or.inr ⟨by simp, rfl, rfl⟩
  · split
    · exact Or.inr ⟨by simp, rfl, rfl⟩
    · exact Or.inr ⟨by simp, rfl, rfl⟩
    · rename_i step c budget hstep hbudget
      exact Or.inl ⟨step, c, hstep, rfl, rfl, rfl⟩

theorem graph_advance (r : Run) (k : Nat) : (r.advance k).graph = r.graph := by
  induction k generalizing r with
  | zero => rfl
  | succ k ih =>
      rw [advance, ih]
      rcases r.next_cases with ⟨_, _, _, _, _, hgraph⟩ | ⟨_, _, hgraph⟩
      · exact hgraph
      · exact hgraph

/-- What every step keeps, a run keeps: a call takes a step or leaves the configuration alone. -/
theorem keeps_advance {P : Configuration → Prop} {r : Run}
    (hstep : ∀ c step c', P c → c.step? r.graph = some (step, c') → P c')
    (h : P r.configuration) (k : Nat) : P (r.advance k).configuration := by
  induction k generalizing r with
  | zero => exact h
  | succ k ih =>
      rw [advance]
      rcases r.next_cases with ⟨step, c, hnext, -, hc, hgraph⟩ | ⟨-, hc, hgraph⟩
      · exact ih (hgraph ▸ hstep) (hc ▸ hstep _ step c h hnext)
      · exact ih (hgraph ▸ hstep) (hc ▸ h)

/-- A run that stands at halt gives nothing more. -/
theorem item_of_halt {r : Run} (h : r.current = .halt) (k : Nat) : r.item k = none := by
  cases hfinished : r.finished with
  | true => exact item_of_finished hfinished k
  | false =>
      apply item_of_halted hfinished
      rw [← Option.isNone_iff_eq_none, Configuration.isNone_step?, Configuration.isHalted]
      change (r.graph.state? r.current).isNone = true
      rw [h]
      rfl

/-- How a run of a compiled program stands, and what its next step is. -/
structure Disciplined (r : Run) : Prop where
  /-- The current id is halt or names a state. -/
  present : r.graph.Present r.current
  /-- Every pending return names a state without effect and without a return of its own. -/
  returns : ∀ id ∈ r.configuration.returns, r.graph.Relay id
  /-- A step that leads to halt leaves no return pending, and nothing comes after it. -/
  last : ∀ step, r.next.1 = some (.ok step) → step.next = .halt →
    r.next.2.configuration.returns = [] ∧ ∀ k, r.next.2.item k = none
  /-- The run has halted exactly where halt is current. -/
  halted_iff : r.isHalted = true ↔ r.current = .halt
  /-- Nothing is pending then. -/
  settled : r.isHalted = true → r.configuration.returns = []

section Closed

variable {r : Run}
  (htargets : ∀ id s, r.graph.state? id = some s → ∀ t ∈ s.targets, r.graph.Present t)
  (hrelays : ∀ id s, r.graph.state? id = some s → ∀ back ∈ s.returnTo, r.graph.Relay back)
include htargets hrelays

theorem orderly_advance (h : r.configuration.Orderly r.graph) (k : Nat) :
    (r.advance k).configuration.Orderly r.graph :=
  keeps_advance (fun _ _ _ hc hstep => hc.after_step htargets hrelays hstep) h k

theorem disciplined_of_orderly (h : r.configuration.Orderly r.graph) : r.Disciplined where
  present := h.present
  returns := h.returns
  last := by
    intro step hstep hhalt
    rcases r.next_cases with ⟨step', c, hstep', hok, hc, -⟩ | ⟨hno, -, -⟩
    · obtain rfl : step' = step := by simpa [hok] using hstep
      have hcurrent : c.current = .halt := by
        rw [← Configuration.next_step hstep']
        exact hhalt
      have hnext := h.after_step htargets hrelays hstep'
      rw [hc]
      refine ⟨hnext.halt hcurrent, item_of_halt ?_⟩
      rw [current, hc, hcurrent]
    · exact absurd hstep (hno step)
  halted_iff := h.isHalted_iff
  settled := fun hhalted => h.halt (h.isHalted_iff.mp hhalted)

end Closed

end Run

/-- In a run of a compiled program, after any number of steps and on any tape: halt or a state is
current, whatever is pending is a state without effect that has no return of its own, a step to halt
leaves nothing pending and is the last, and the run has halted exactly where halt is current. -/
theorem Scope.run_disciplined {program : Scope} {a : Automaton} (h : program.compile = .ok a)
    (tape : Tape) (limit k : Nat) :
    ((Run.start a.graph a.entry tape limit).advance k).Disciplined := by
  obtain ⟨entry, d, hscope, rfl⟩ := compile_eq_ok h
  have hclosed := (Build.program_completed hscope).closed
  have hrelayed := Build.program_returnsRelayed hscope
  have hrelays : ∀ id s, d.graph.state? id = some s → ∀ back ∈ s.returnTo, d.graph.Relay back :=
    fun id s hs => hrelayed.graph hs
  have horderly := Run.orderly_advance (r := .start d.graph entry tape limit) hclosed.targets
    hrelays ⟨hclosed.entry, by simp [Run.start], fun _ => rfl⟩ k
  have hgraph := Run.graph_advance (.start d.graph entry tape limit) k
  refine Run.disciplined_of_orderly ?_ ?_ ?_
  · rw [hgraph]
    exact hclosed.targets
  · rw [hgraph]
    exact hrelays
  · rw [hgraph]
    exact horderly

/-- On two blanks the run is three calls and two groups deep after nine steps. -/
theorem Scope.fill_disciplined :
    ∃ a, fill.compile = .ok a ∧
      let r := (Run.start a.graph a.entry
        { left := [], head := .blank, right := [.blank, .mark] } 100).advance 9
      r.configuration.returns.length = 5 ∧ r.Disciplined := by
  cases h : fill.compile with
  | error e =>
      have hcompiles : fill.compile.toOption.isSome := by decide +kernel
      rw [h] at hcompiles
      cases hcompiles
  | ok a =>
      refine ⟨a, rfl, ?_, run_disciplined h _ 100 9⟩
      have hdepth : fill.compile.toOption.map (fun a => ((Run.start a.graph a.entry
          { left := [], head := .blank, right := [.blank, .mark] } 100).advance
            9).configuration.returns.length) = some 5 := by decide +kernel
      rw [h] at hdepth
      exact Option.some.inj hdepth

end TapeMachine
