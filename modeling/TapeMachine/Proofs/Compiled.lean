import TapeMachine.Proofs.Checking
import TapeMachine.Proofs.Linking

/-!
# Compiled programs

Once every label has a place, linking cannot fail: it replaces each target by the
id that the target stands for. So a program is rejected only by the steps that
make its states, which report what the check of the program reports, and the
graph of a program that is not rejected leads nowhere but to its own states and
to halt.
-/

namespace TapeMachine

/-! ## Linking -/

section Retarget

variable {τ υ : Type}

def Transition.map (f : τ → υ) (t : Transition τ) : Transition υ where
  write := t.write
  move := t.move
  next := f t.next

def Table.map (f : τ → υ) : Table τ → Table υ
  | .always t => .always (t.map f)
  | .onSymbol marked blank => .onSymbol (marked.map f) (blank.map f)

/-- The state with its targets replaced. -/
def State.map (f : τ → υ) (s : State τ) : State υ where
  table := s.table.map f
  returnTo := s.returnTo.map f

theorem Transition.goto_map (f : τ → υ) (next : τ) :
    (Transition.goto next).map f = .goto (f next) :=
  rfl

theorem Action.transition_map (f : τ → υ) (action : Action) (next : τ) :
    (action.transition next).map f = action.transition (f next) := by
  cases action <;> rfl

theorem Table.targets_map (f : τ → υ) (t : Table τ) : (t.map f).targets = t.targets.map f := by
  cases t <;> rfl

theorem Table.forSymbol_map (f : τ → υ) (t : Table τ) (symbol : Symbol) :
    (t.map f).forSymbol symbol = (t.forSymbol symbol).map f := by
  cases t <;> cases symbol <;> rfl

theorem State.targets_map (f : τ → υ) (s : State τ) : (s.map f).targets = s.targets.map f := by
  unfold targets
  rw [List.map_append, ← Table.targets_map]
  cases h : s.returnTo <;> simp [State.map, h]

variable {f : τ → Except CompileError υ} {g : τ → υ}

theorem Table.mapM_eq_ok {t : Table τ} (h : ∀ x ∈ t.targets, f x = .ok (g x)) :
    t.mapM f = .ok (t.map g) := by
  cases t with
  | always t =>
      have ht := h t.next (by simp [targets])
      simp [mapM, Transition.mapM, ht, map, Transition.map, bind, Except.bind, pure, Except.pure]
  | onSymbol marked blank =>
      have hm := h marked.next (by simp [targets])
      have hb := h blank.next (by simp [targets])
      simp [mapM, Transition.mapM, hm, hb, map, Transition.map, bind, Except.bind, pure,
        Except.pure]

theorem State.mapM_eq_ok {s : State τ} (h : ∀ x ∈ s.targets, f x = .ok (g x)) :
    s.mapM f = .ok (s.map g) := by
  have htable := Table.mapM_eq_ok fun x hx => h x (List.mem_append_left _ hx)
  cases hr : s.returnTo with
  | none => simp [mapM, htable, hr, map, bind, Except.bind, pure, Except.pure]
  | some r =>
      have hreturn := h r (by simp [targets, hr])
      simp [mapM, htable, hr, hreturn, map, bind, Except.bind, pure, Except.pure, Functor.map,
        Except.map]

end Retarget

theorem mapM_eq_ok {α β : Type} {f : α → Except CompileError β} {g : α → β} {l : List α}
    (h : ∀ a ∈ l, f a = .ok (g a)) : l.mapM f = .ok (l.map g) := by
  induction l with
  | nil => rfl
  | cons a l ih =>
      rw [List.mapM_cons, h a (by simp), ih fun b hb => h b (by simp [hb])]
      rfl

namespace Draft

/-- The id that a target stands for when all labels are placed. -/
def locate (d : Draft) : Target → StateId
  | .state id => id
  | .label l => (d.place? l).getD .halt

/-- The graph that linking is to give. -/
def graph (d : Draft) : Graph where
  states := d.states.map (·.map d.locate)

theorem state?_graph (d : Draft) (id : StateId) :
    d.graph.state? id = (d.state? id).map (·.map d.locate) := by
  cases id with
  | halt => rfl
  | slot k => simp [graph, Graph.state?, state?]

theorem isSome_state?_of_has {d : Draft} {id : StateId} (h : d.Has id) (hne : id ≠ .halt) :
    (d.state? id).isSome := by
  cases id with
  | halt => exact absurd rfl hne
  | slot k => simpa [state?, Has, StateId.number, Nat.succ_le_iff] using h

section Placed

variable {d : Draft} {entry : StateId} (h : Completed {} entry d)
include h

theorem Completed.isSome_place? {l : Label} (hl : l.number < d.places.size) :
    (d.place? l).isSome :=
  h.settles l (Nat.zero_le _) hl

theorem Completed.resolve_eq_ok {t : Target} (ht : d.Aims t) :
    d.resolve t = .ok (d.locate t) := by
  cases t with
  | state id => rfl
  | label l =>
      obtain ⟨id, hid⟩ := Option.isSome_iff_exists.mp (h.isSome_place? ht)
      simp [resolve, locate, hid]

theorem Completed.has_locate {t : Target} (ht : d.Aims t) : d.Has (d.locate t) := by
  cases t with
  | state id => exact ht
  | label l =>
      obtain ⟨id, hid⟩ := Option.isSome_iff_exists.mp (h.isSome_place? ht)
      simpa [locate, hid] using h.wellFormed.places l id hid

theorem Completed.link_eq_ok : d.link = .ok d.graph := by
  have hstates : d.states.toList.mapM (·.mapM d.resolve) =
      .ok (d.states.toList.map (·.map d.locate)) := by
    refine mapM_eq_ok fun s hs => State.mapM_eq_ok fun t ht => h.resolve_eq_ok ?_
    obtain ⟨k, hk, rfl⟩ := List.mem_iff_getElem.mp hs
    exact h.wellFormed.targets (.slot k) _ (by simp [state?]) t ht
  rw [link, Array.mapM_eq_mapM_toList, hstates, ← Array.toList_map]
  rfl

end Placed

end Draft

namespace Scope

theorem compile_of_ok {program : Scope} {entry : StateId} {d : Draft}
    (h : Build.scope program [] {} = .ok entry d) :
    program.compile = .ok { graph := d.graph, entry } := by
  rw [compile, compileLogged, h]
  simp [(Build.program_completed h).link_eq_ok]

theorem compile_of_error {program : Scope} {e : CompileError} {d : Draft}
    (h : Build.scope program [] {} = .error e d) : program.compile = .error e := by
  rw [compile, compileLogged, h]

/-- What a compiled program was linked from. -/
theorem compile_eq_ok {program : Scope} {a : Automaton} (h : program.compile = .ok a) :
    ∃ entry d, Build.scope program [] {} = .ok entry d ∧ a = { graph := d.graph, entry } := by
  cases hs : Build.scope program [] {} with
  | ok entry d =>
      rw [compile_of_ok hs] at h
      cases h
      exact ⟨entry, d, rfl, rfl⟩
  | error e d =>
      rw [compile_of_error hs] at h
      cases h

end Scope

/-! ## Acceptance -/

/-- What comes of a program, its graph aside, is what comes of its check. -/
theorem Scope.map_compile (program : Scope) :
    program.compile.map (fun _ => ()) = program.check [] := by
  have hbuild : program.compile.map (fun _ => ()) = (Build.scope program []).outcome {} := by
    cases h : Build.scope program [] {} with
    | ok entry d => rw [compile_of_ok h, Build.outcome_of_ok h]; rfl
    | error e d => rw [compile_of_error h, Build.outcome_of_error h]; rfl
  exact hbuild.trans (Build.scope_outcome program [] {})

theorem Scope.exists_compile_iff {program : Scope} :
    (∃ a, program.compile = .ok a) ↔ program.check [] = .ok () := by
  rw [← map_compile]
  cases program.compile <;> simp [Except.map]

theorem Scope.compile_eq_error_iff {program : Scope} {e : CompileError} :
    program.compile = .error e ↔ program.check [] = .error e := by
  rw [← map_compile]
  cases program.compile <;> simp [Except.map]

/-- A program is compiled if and only if it keeps the rules, and otherwise it is rejected for the
first rule that it breaks. -/
theorem Scope.compile_outcome_eq_check (program : Scope) :
    program.compile.map (fun _ => ()) = program.check [] :=
  map_compile program

/-! ## Labels and targets -/

/-- The id is halt or names a state. -/
def Graph.Present (g : Graph) (id : StateId) : Prop :=
  id = .halt ∨ (g.state? id).isSome

/-- The entry and all that the states lead to, their returns included, are there. -/
structure Automaton.Closed (a : Automaton) : Prop where
  entry : a.graph.Present a.entry
  targets : ∀ id s, a.graph.state? id = some s → ∀ t ∈ s.targets, a.graph.Present t

/-- Whether or not the step succeeds, the states that were there are as they were. -/
def Build.KeepsStates {α : Type} (x : Build α) : Prop :=
  ∀ (d : Draft) (id : StateId) (s : State Target), d.state? id = some s →
    (x.final d).state? id = some s

/-- Every label is placed, on halt or on a state. -/
def Draft.AllPlaced (d : Draft) : Prop :=
  ∀ l : Label, l.number < d.places.size →
    ∃ id, d.place? l = some id ∧ (id = .halt ∨ 1 ≤ id.number ∧ id.number ≤ d.states.size)

theorem Build.Frames.keepsStates {α : Type} {x : Build α} (h : Frames x) : KeepsStates x :=
  fun d _ _ hs => (h d).state? hs

theorem Draft.present_graph {d : Draft} {id : StateId} (h : d.Has id) : d.graph.Present id := by
  by_cases hid : id = .halt
  · exact Or.inl hid
  · right
    rw [state?_graph, Option.isSome_map]
    exact isSome_state?_of_has h hid

namespace Draft.Completed

variable {d : Draft} {entry : StateId} (h : Completed {} entry d)
include h

theorem allPlaced : d.AllPlaced := by
  intro l hl
  obtain ⟨id, hid⟩ := Option.isSome_iff_exists.mp (h.isSome_place? hl)
  refine ⟨id, hid, ?_⟩
  cases hcase : id with
  | halt => exact Or.inl rfl
  | slot k => exact Or.inr ⟨Nat.succ_pos k, hcase ▸ h.wellFormed.places l id hid⟩

theorem closed : Automaton.Closed { graph := d.graph, entry } where
  entry := present_graph h.has
  targets := by
    intro id s hs t ht
    rw [state?_graph, Option.map_eq_some_iff] at hs
    obtain ⟨s', hs', rfl⟩ := hs
    rw [State.targets_map, List.mem_map] at ht
    obtain ⟨t', ht', rfl⟩ := ht
    exact present_graph (h.has_locate (h.wellFormed.targets id s' hs' t' ht'))

end Draft.Completed

/-- No label is placed twice and no state is changed once it is made, even where the compilation
fails. Where it succeeds every label has a place, so linking succeeds as well, a missing place is
never what is reported, and the automaton leads nowhere but to its own states and to halt. -/
theorem Scope.compile_links (program : Scope) :
    ((Build.scope program []).final {}).replaced = #[] ∧
    (∀ s, (Build.addState s).KeepsStates) ∧
    (∀ visible site, (Build.instruction visible site).KeepsStates) ∧
    (∀ s visible, (Build.scope s visible).KeepsStates) ∧
    (∀ entry d, Build.scope program [] {} = .ok entry d →
      d.AllPlaced ∧ ∃ g, d.link = .ok g) ∧
    program.compile ≠ .error .unplacedLabel ∧
    ∀ a, program.compile = .ok a → a.Closed := by
  refine ⟨(Build.frames_scope program [] {}).replaced,
    fun s => (Build.frames_addState s).keepsStates,
    fun visible site => (Build.frames_instruction visible site).keepsStates,
    fun s visible => (Build.frames_scope s visible).keepsStates, ?_, ?_, ?_⟩
  · intro entry d h
    have hdone := Build.program_completed h
    exact ⟨hdone.allPlaced, d.graph, hdone.link_eq_ok⟩
  · exact fun h => check_ne_unplaced program [] (compile_eq_error_iff.mp h)
  · intro a h
    obtain ⟨entry, d, hs, rfl⟩ := compile_eq_ok h
    exact (Build.program_completed hs).closed

/-- Marks the blanks from the head up to the first mark, by recursion inside of a group. -/
def Scope.fill : Scope :=
  .instr "1" { command := .call "fill" }
    (.sub "fill"
      (.instr "1" { command := .check 3 2 }
        (.instr "2" { command := .group [
            { command := .act (.write .mark) },
            { command := .act (.move .right) },
            { command := .call "fill" }] }
          (.instr "3" { command := .stop } .nil)))
      .nil)

theorem Scope.fill_closed :
    ∃ a, fill.compile = .ok a ∧ a.graph.size = 8 ∧ a.Closed := by
  have hcompiles : fill.compile.toOption.map (·.graph.size) = some 8 := by decide +kernel
  obtain ⟨-, -, -, -, -, -, hclosed⟩ := compile_links fill
  cases h : fill.compile with
  | error e =>
      rw [h] at hcompiles
      cases hcompiles
  | ok a =>
      rw [h] at hcompiles
      exact ⟨a, rfl, Option.some.inj hcompiles, hclosed a h⟩

end TapeMachine
