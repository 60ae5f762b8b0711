import TapeMachine.Proofs.Blueprint
import TapeMachine.Proofs.Renaming

/-!
# Programs with the same instructions and bodies

Two programs may have the same instructions, with the same orders, and the same bodies, and still
number their labels and states in different orders; a state that is shared may be made by
another instruction first. The blueprints of the states are the same, though. A state of the
one automaton takes the place of the state with the same blueprint of the other, and this
renames the one automaton into the other.
-/

namespace TapeMachine

open Draft

theorem map_standIn {locate : Target → StateId} (hlocate : ∀ id, locate (.state id) = id)
    (callee back : StateId) (s : State Target) :
    (Build.standIn callee s back).map locate =
      { table := if s.returnTo.isSome then .always (.goto callee) else s.table.map locate
        returnTo := some back } := by
  unfold Build.standIn State.map
  rw [Option.map_some, hlocate]
  split
  · rw [Table.map, Transition.goto_map, hlocate]
  · rfl

/-- A stand-in is renamed with what it stands in for. -/
theorem map_standIn_of_map {locate locate' : Target → StateId}
    (hlocate : ∀ id, locate (.state id) = id) (hlocate' : ∀ id, locate' (.state id) = id)
    {f : StateId → StateId} {s s' : State Target} (hs : s'.map locate' = (s.map locate).map f)
    (callee back : StateId) :
    (Build.standIn (f callee) s' (f back)).map locate' =
      ((Build.standIn callee s back).map locate).map f := by
  obtain ⟨htable, hreturn⟩ := State.mk.inj hs
  have hsome : s'.returnTo.isSome = s.returnTo.isSome := by
    simpa [State.map] using congrArg Option.isSome hreturn
  rw [map_standIn hlocate, map_standIn hlocate', hsome]
  -- either both step into what they enter, or both take over its table
  by_cases hinside : s.returnTo.isSome
  · simp only [hinside, if_true, State.map, Table.map, Transition.goto_map, Option.map_some]
  · simp only [hinside, if_false, State.map, htable, Option.map_some, Bool.false_eq_true]

theorem Draft.present_graph_iff {d : Draft} {id : StateId} : d.graph.Present id ↔ d.Has id := by
  constructor
  · rintro (rfl | hsome)
    · exact d.has_halt
    · rw [state?_graph, Option.isSome_map] at hsome
      obtain ⟨s, hs⟩ := Option.isSome_iff_exists.mp hsome
      exact has_of_state? hs
  · exact present_graph

/-! ## Programs with the same instructions and bodies -/

namespace Scope

/-- The programs have the same instructions with the same orders, and the same bodies. -/
structure Alike (p p' : Scope) : Prop where
  orders : ∀ spot order, (spot, order) ∈ p.orders ↔ (spot, order) ∈ p'.orders
  bodies : ∀ path, .body path ∈ p.numbering ↔ .body path ∈ p'.numbering

variable {p p' : Scope} {spot : Spot} {b : Blueprint}

theorem Alike.symm (h : p.Alike p') : p'.Alike p :=
  ⟨fun spot order => (h.orders spot order).symm, fun path => (h.bodies path).symm⟩

theorem Draws.alike (h : p.Draws spot b) (halike : p.Alike p') : p'.Draws spot b := by
  induction h with
  | stop ho => exact .stop ((halike.orders _ _).mp ho)
  | act ho => exact .act ((halike.orders _ _).mp ho)
  | check ho => exact .check ((halike.orders _ _).mp ho)
  | call ho => exact .call ((halike.orders _ _).mp ho)
  | group ho _ ih => exact .group ((halike.orders _ _).mp ho) ih

variable {entry entry' : StateId} {d d' : Draft}

/-- The state `id` in the draft of `p` and `id'` in that of `p'` have the same blueprint. -/
def Matches (p p' : Scope) (d d' : Draft) (id id' : StateId) : Prop :=
  ∃ b : Blueprint, b.Builds p.numbering d id ∧ b.Builds p'.numbering d' id'

theorem Matches.symm {id id' : StateId} (h : Matches p p' d d' id id') :
    Matches p' p d' d id' id := by
  obtain ⟨b, hb, hb'⟩ := h
  exact ⟨b, hb', hb⟩

theorem Matches.has {id id' : StateId} (hmatch : Matches p p' d d' id id')
    (h : p.Drafted entry d) : d.Has id := by
  obtain ⟨b, hb, -⟩ := hmatch
  exact hb.has h.exact

theorem matches_halt : Matches p p' d d' .halt .halt :=
  ⟨.halt, .halt, .halt⟩

section Pair

variable (h : p.Drafted entry d) (h' : p'.Drafted entry' d') (halike : p.Alike p')
include h h'

/-- A state has one counterpart. -/
theorem matches_eq {id id₁ id₂ : StateId} (h₁ : Matches p p' d d' id id₁)
    (h₂ : Matches p p' d d' id id₂) : id₁ = id₂ := by
  obtain ⟨b, hb, hb'⟩ := h₁
  obtain ⟨b₂, hb₂, hb₂'⟩ := h₂
  cases h.blueprint_eq hb hb₂
  exact hb'.eq h'.exact hb₂'

include halike

/-- The states of an instruction in the two drafts are counterparts. -/
theorem matches_stateOf {spot : Spot} {id : StateId} (hid : p.stateOf d spot = some id) :
    ∃ id', p'.stateOf d' spot = some id' ∧ Matches p p' d d' id id' := by
  obtain ⟨b, hb⟩ := h.exists_draws hid
  obtain ⟨order, ho⟩ := h.exists_order hid
  obtain ⟨-, id', hid', -⟩ := h'.made spot order ((halike.orders spot order).mp ho)
  exact ⟨id', hid', b, h.builds_of_draws hb hid, h'.builds_of_draws (hb.alike halike) hid'⟩

/-- Every state has a counterpart: some instruction of both programs asks for it. -/
theorem exists_matches {id : StateId} (hid : d.Has id) : ∃ id', Matches p p' d d' id id' := by
  by_cases hhalt : id = .halt
  · subst hhalt
    exact ⟨.halt, matches_halt⟩
  · obtain ⟨s, hs⟩ := Option.isSome_iff_exists.mp (isSome_state?_of_has hid hhalt)
    rcases h.exact.origin id s hs with ⟨r, hr⟩ | ⟨path, hpath, rfl⟩
    · obtain ⟨spot, order, r', ho, hmade, hparts⟩ := h.demanded r id hr
      rcases Recipe.mem_parts_cases hparts with rfl | ⟨callee, t, rfl, rfl⟩
      · -- the recipe of the instruction itself
        have hstop : order ≠ .stop := by
          rintro rfl
          cases hmade
        obtain ⟨r₀, id₀, hmade₀, hr₀, hid₀⟩ := h.exists_recipe ho hstop
        cases hmade.eq h.exact hmade₀
        cases hr.symm.trans hr₀
        obtain ⟨id', -, hmatch⟩ := matches_stateOf h h' halike hid₀
        exact ⟨id', hmatch⟩
      · -- the way back of an instruction that enters others
        have henters := hmade.enters_iff.mpr ⟨callee, t, rfl⟩
        have ht : t ∈ order.nexts.map p.numbering.target :=
          hmade.targets ▸ List.mem_singleton_self t
        obtain ⟨next, hnext, rfl⟩ := List.mem_map.mp ht
        obtain ⟨back, hback⟩ :=
          h'.exists_back ((halike.orders spot order).mp ho) henters hnext
        exact ⟨back, .act .noop next, .act hr, .act hback⟩
    · obtain ⟨id', hid'⟩ := h'.declared path ((halike.bodies path).mp hpath)
      exact ⟨id', .entry path, .entry hs, .entry hid'⟩

theorem matches_target {next : Option Spot} (haims : d.Aims (p.numbering.target next)) :
    Matches p p' d d' (d.locate (p.numbering.target next))
      (d'.locate (p'.numbering.target next)) := by
  cases next with
  | none => exact matches_halt
  | some t =>
      obtain ⟨id, hid⟩ := h.exists_stateOf haims
      obtain ⟨id', hid', hmatch⟩ := matches_stateOf h h' halike hid
      rwa [Drafted.locate_target hid, Drafted.locate_target hid']

theorem matches_body {path : List Key} {id id' : StateId}
    (hid : d.state? id = some (entryState (p.numbering.label (.body path))))
    (hid' : d'.state? id' = some (entryState (p'.numbering.label (.body path)))) :
    Matches p p' d d' (d.locate (.label (p.numbering.label (.body path))))
      (d'.locate (.label (p'.numbering.label (.body path)))) := by
  obtain ⟨start, hstart, hlocate⟩ := h.locate_body hid
  obtain ⟨start', hstart', hlocate'⟩ := h'.locate_body hid'
  obtain ⟨start'', hstart'', hmatch⟩ := matches_stateOf h h' halike hstart
  cases hstart'.symm.trans hstart''
  rwa [hlocate, hlocate']

/-- Counterparts lead to counterparts. -/
theorem state?_of_matches {f : StateId → StateId}
    (hf : ∀ id id', Matches p p' d d' id id' → f id = id') {id id' : StateId}
    (hmatch : Matches p p' d d' id id') :
    d'.graph.state? id' = (d.graph.state? id).map (State.map f) := by
  have hwf := h.exact.wellFormed
  have hwf' := h'.exact.wellFormed
  have htarget : ∀ {next : Option Spot}, d.Aims (p.numbering.target next) →
      f (d.locate (p.numbering.target next)) = d'.locate (p'.numbering.target next) :=
    fun haims => hf _ _ (matches_target h h' halike haims)
  obtain ⟨b, hb, hb'⟩ := hmatch
  induction hb generalizing id' with
  | halt =>
      cases hb'
      rfl
  | entry hstate =>
      cases hb' with
      | entry hstate' =>
          rw [state?_graph, state?_graph, hstate, hstate']
          simp only [Option.map_some, entryState, State.map, Table.map, Transition.goto_map,
            Option.map_none, hf _ _ (matches_body h h' halike hstate hstate')]
  | act hrecipe =>
      cases hb' with
      | act hrecipe' =>
          obtain ⟨s, hs, rfl⟩ := hwf.yields hrecipe
          obtain ⟨s', hs', rfl⟩ := hwf'.yields hrecipe'
          have haims := h.aims_targets hrecipe _ (List.mem_singleton_self _)
          rw [state?_graph, state?_graph, hs, hs']
          simp only [Option.map_some, State.map, Table.map, Action.transition_map,
            Option.map_none, htarget haims]
  | check hrecipe =>
      cases hb' with
      | check hrecipe' =>
          obtain ⟨s, hs, rfl⟩ := hwf.yields hrecipe
          obtain ⟨s', hs', rfl⟩ := hwf'.yields hrecipe'
          have haims := h.aims_targets hrecipe
          have hmarked := htarget (haims _ List.mem_cons_self)
          have hblank := htarget (haims _ (List.mem_cons_of_mem _ List.mem_cons_self))
          rw [state?_graph, state?_graph, hs, hs']
          simp only [Option.map_some, State.map, Table.map, Transition.goto_map,
            Option.map_none, hmarked, hblank]
  | @enter inner next callee id hinner hrecipe ih =>
      cases hb' with
      | @enter _ _ callee' _ hinner' hrecipe' =>
          obtain ⟨s, hs, s₀, back, hcallee, hback, rfl⟩ := hwf.yields hrecipe
          obtain ⟨s', hs', s₀', back', hcallee', hback', rfl⟩ := hwf'.yields hrecipe'
          have hsame := ih hinner'
          rw [state?_graph, state?_graph, hcallee, hcallee'] at hsame
          have hcallees : f callee = callee' := hf _ _ ⟨inner, hinner, hinner'⟩
          have hbacks : f back = back' := hf _ _ ⟨.act .noop next, .act hback, .act hback'⟩
          rw [state?_graph, state?_graph, hs, hs', ← hcallees, ← hbacks]
          exact congrArg some (map_standIn_of_map (fun _ => rfl) (fun _ => rfl)
            (Option.some.inj hsame) callee back)

/-- The two compiled programs differ in the ids of their states only. -/
theorem exists_renames :
    ∃ f, Automaton.Renames f { graph := d.graph, entry }
      { graph := d'.graph, entry := entry' } := by
  have htotal : ∀ id, ∃ id', d.Has id → Matches p p' d d' id id' := by
    intro id
    by_cases hid : d.Has id
    · obtain ⟨id', hmatch⟩ := exists_matches h h' halike hid
      exact ⟨id', fun _ => hmatch⟩
    · exact ⟨.halt, fun hhas => absurd hhas hid⟩
  choose f hmatch using htotal
  have hf : ∀ id id', Matches p p' d d' id id' → f id = id' := by
    intro id id' hm
    exact matches_eq h h' (hmatch id (hm.has h)) hm
  refine ⟨f, hf _ _ matches_halt, ⟨?_, ?_, ?_⟩, ?_, ?_⟩
  · intro id hid
    have hm := hmatch id (present_graph_iff.mp hid)
    exact present_graph_iff.mpr (hm.symm.has h')
  · intro id hid id₂ hid₂ heq
    have hm := hmatch id (present_graph_iff.mp hid)
    have hm₂ := hmatch id₂ (present_graph_iff.mp hid₂)
    rw [← heq] at hm₂
    exact matches_eq h' h hm.symm hm₂.symm
  · intro id' hid'
    obtain ⟨id, hm⟩ := exists_matches h' h halike.symm (present_graph_iff.mp hid')
    exact ⟨id, present_graph_iff.mpr (hm.symm.has h), hf _ _ hm.symm⟩
  · obtain ⟨id', hid', hm⟩ := matches_stateOf h h' halike h.entry
    cases h'.entry.symm.trans hid'
    exact hf _ _ hm
  · intro id hid
    exact state?_of_matches h h' halike hf (hmatch id (present_graph_iff.mp hid))

end Pair

end Scope

end TapeMachine
