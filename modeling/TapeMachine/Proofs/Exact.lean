import TapeMachine.Proofs.Assembly

/-!
# Different recipes make different states

A state is made once for each recipe. Here is the converse: different recipes give
different states, so no state stands twice in a draft.

Two things could go wrong. A state that enters another takes over its table, and the
entry of a subroutine goes to its body as an effect-free instruction might. The first
is settled by the return, which leads back through a state of its own for each
continuation. The second is settled by the labels, since no instruction goes on at the
label of a body.
-/

namespace TapeMachine

open Draft

namespace Recipe

/-- Where the state of the recipe goes on, apart from what it enters. -/
def targets : Recipe → List Target
  | act _ next => [next]
  | check marked blank => [marked, blank]
  | enter _ next => [next]

/-- The recipe itself and, if it enters a state, that of the way back. -/
def parts : Recipe → List Recipe
  | act action next => [.act action next]
  | check marked blank => [.check marked blank]
  | enter entry next => [.enter entry next, .act .noop next]

theorem mem_parts (r : Recipe) : r ∈ r.parts := by
  cases r <;> simp [parts]

theorem mem_parts_cases {r r' : Recipe} (h : r ∈ r'.parts) :
    r = r' ∨ ∃ entry next, r' = .enter entry next ∧ r = .act .noop next := by
  cases r' with
  | act action next => exact Or.inl (List.mem_singleton.mp h)
  | check marked blank => exact Or.inl (List.mem_singleton.mp h)
  | enter entry next =>
      rcases List.mem_cons.mp h with h | h
      · exact Or.inl h
      · exact Or.inr ⟨entry, next, rfl, List.mem_singleton.mp h⟩

end Recipe

namespace Draft

/-- The recipe asks for the state `s`. -/
def Yields (d : Draft) : Recipe → State Target → Prop
  | .act action next, s => s = { table := .always (action.transition next) }
  | .check marked blank, s => s = { table := .onSymbol (.goto marked) (.goto blank) }
  | .enter entry next, s =>
      ∃ s₀ back, d.state? entry = some s₀ ∧ d.recipes[Recipe.act .noop next]? = some back ∧
        s = Build.standIn entry s₀ back

variable {d d' : Draft} {id : StateId} {r : Recipe} {s : State Target}

theorem describes_iff : d.Describes id r ↔ ∃ s, d.state? id = some s ∧ d.Yields r s := by
  cases r with
  | act action next => simp [Describes, Yields]
  | check marked blank => simp [Describes, Yields]
  | enter entry next =>
      constructor
      · rintro ⟨s, back, hentry, hback, hid⟩
        exact ⟨_, hid, s, back, hentry, hback, rfl⟩
      · rintro ⟨s', hid, s, back, hentry, hback, rfl⟩
        exact ⟨s, back, hentry, hback, hid⟩

theorem Yields.eq (h : d.Yields r s) {s' : State Target} (h' : d.Yields r s') : s = s' := by
  cases r with
  | act action next => exact h.trans h'.symm
  | check marked blank => exact h.trans h'.symm
  | enter entry next =>
      obtain ⟨s₀, back, hentry, hback, rfl⟩ := h
      obtain ⟨s₀', back', hentry', hback', rfl⟩ := h'
      rw [hentry] at hentry'
      rw [hback] at hback'
      cases hentry'
      cases hback'
      rfl

/-- What enters another state has a return, and nothing else does. -/
theorem Yields.isSome_returnTo (h : d.Yields r s) :
    s.returnTo.isSome ↔ ∃ entry next, r = .enter entry next := by
  cases r with
  | act action next =>
      rw [h]
      simp
  | check marked blank =>
      rw [h]
      simp
  | enter entry next =>
      obtain ⟨s₀, back, -, -, rfl⟩ := h
      simp [Build.standIn]

theorem WellFormed.yields (h : d.WellFormed) (hr : d.recipes[r]? = some id) :
    ∃ s, d.state? id = some s ∧ d.Yields r s :=
  describes_iff.mp (h.recipes r id hr)

theorem WellFormed.yields_state? (h : d.WellFormed) (hr : d.recipes[r]? = some id)
    (hs : d.state? id = some s) : d.Yields r s := by
  obtain ⟨s', hs', hyields⟩ := h.yields hr
  cases hs.symm.trans hs'
  exact hyields

theorem state?_pushState {s' : State Target} :
    ({ d with states := d.states.push s } : Draft).state? id = some s' ↔
      d.state? id = some s' ∨ id = .slot d.states.size ∧ s' = s := by
  cases id with
  | halt => simp [state?]
  | slot k =>
      simp only [state?, Array.getElem?_push, StateId.slot.injEq]
      by_cases hk : k = d.states.size
      · subst hk
        simp [eq_comm]
      · simp [hk]

theorem distinct_pushState
    (h : ∀ id id' s, d.state? id = some s → d.state? id' = some s → id = id')
    (hnew : ∀ id, d.state? id ≠ some s) {id id' : StateId} {s' : State Target}
    (hid : ({ d with states := d.states.push s } : Draft).state? id = some s')
    (hid' : ({ d with states := d.states.push s } : Draft).state? id' = some s') : id = id' := by
  rcases state?_pushState.mp hid with hold | ⟨rfl, rfl⟩
  · rcases state?_pushState.mp hid' with hold' | ⟨-, rfl⟩
    · exact h _ _ _ hold hold'
    · exact absurd hold (hnew id)
  · rcases state?_pushState.mp hid' with hold' | ⟨rfl, -⟩
    · exact absurd hold' (hnew id')
    · rfl

end Draft

/-! ## Exact drafts -/

namespace Numbering

/-- No two states of the draft are equal, and each is the entry of a subroutine or was made by a
recipe. A recipe goes on at instructions and was followed after what it enters was there. -/
structure Exact (N : Numbering) (d : Draft) : Prop where
  wellFormed : d.WellFormed
  distinct : ∀ id id' s, d.state? id = some s → d.state? id' = some s → id = id'
  origin : ∀ id s, d.state? id = some s →
    (∃ r : Recipe, d.recipes[r]? = some id) ∨
      ∃ path, .body path ∈ N ∧ s = entryState (N.label (.body path))
  targets : ∀ (r : Recipe) (id : StateId), d.recipes[r]? = some id →
    ∀ t ∈ r.targets, ∃ spot, t = N.target spot
  older : ∀ (entry : StateId) (next : Target) (id : StateId),
    d.recipes[Recipe.enter entry next]? = some id → entry.number < id.number

variable {N : Numbering} {d d' : Draft} {id : StateId} {r : Recipe} {s : State Target}

theorem exact_empty (N : Numbering) : N.Exact {} where
  wellFormed := wellFormed_empty
  distinct := by
    intro id id' s h
    cases id <;> simp [state?] at h
  origin := by
    intro id s h
    cases id <;> simp [state?] at h
  targets := by
    intro r id h
    simp at h
  older := by
    intro entry next id h
    simp at h

/-- No recipe gives the entry of a subroutine: its label is not that of an instruction. -/
theorem not_yields_entryState {path : List Key} (hpath : .body path ∈ N)
    (htargets : ∀ t ∈ r.targets, ∃ spot, t = N.target spot) :
    ¬ d.Yields r (entryState (N.label (.body path))) := by
  intro h
  cases r with
  | act action next =>
      have hnext : next = .label (N.label (.body path)) := by
        cases action <;>
          simp [Yields, entryState, Action.transition, Transition.goto] at h
        exact h.symm
      obtain ⟨spot, hspot⟩ := htargets next (by simp [Recipe.targets])
      cases spot with
      | none => cases hnext.symm.trans hspot
      | some spot => cases label_inj hpath (Target.label.inj (hnext.symm.trans hspot))
  | check marked blank => simp [Yields, entryState] at h
  | enter entry next =>
      obtain ⟨s₀, back, -, -, h⟩ := h
      cases congrArg State.returnTo h

namespace Exact

/-- A state without a return does not go to another state, but only to labels and to halt. -/
theorem not_goto (h : N.Exact d) {id' : StateId} (hid : d.state? id = some s)
    (hid' : (d.state? id').isSome) (hreturn : s.returnTo = none) :
    s.table ≠ .always (.goto (.state id')) := by
  intro htable
  rcases h.origin id s hid with ⟨r, hr⟩ | ⟨path, -, rfl⟩
  · have hyields := h.wellFormed.yields_state? hr hid
    cases r with
    | act action next =>
        have hnext : next = .state id' := by
          rw [hyields] at htable
          cases action <;> simp [Action.transition, Transition.goto] at htable
          exact htable
        obtain ⟨spot, hspot⟩ := h.targets _ _ hr next (by simp [Recipe.targets])
        cases spot with
        | none =>
            cases hnext.symm.trans hspot
            cases hid'
        | some spot => cases hnext.symm.trans hspot
    | check marked blank =>
        rw [hyields] at htable
        cases htable
    | enter entry next =>
        have hsome := hyields.isSome_returnTo.mpr ⟨entry, next, rfl⟩
        simp [hreturn] at hsome
  · simp [entryState, Transition.goto] at htable

/-- Different continuations have different ways back. -/
theorem noop_inj (h : N.Exact d) {next next' : Target} {back : StateId}
    (hback : d.recipes[Recipe.act .noop next]? = some back)
    (hback' : d.recipes[Recipe.act .noop next']? = some back) : next = next' := by
  obtain ⟨s, hs, hyields⟩ := h.wellFormed.yields hback
  have hyields' := h.wellFormed.yields_state? hback' hs
  simpa [Yields, Action.transition, Transition.goto] using hyields.symm.trans hyields'

/-- With the same way back, different entries have different stand-ins. -/
theorem standIn_inj (h : N.Exact d) {entry entry' back : StateId} {s s' : State Target}
    (hentry : d.state? entry = some s) (hentry' : d.state? entry' = some s')
    (heq : Build.standIn entry s back = Build.standIn entry' s' back) : entry = entry' := by
  have htable := congrArg State.table heq
  unfold Build.standIn at htable
  -- the two entries are stepped into, or both tables are taken over
  cases hs : s.returnTo with
  | none =>
      cases hs' : s'.returnTo with
      | none =>
          have hsame : s = s' := by
            cases s
            cases s'
            simp_all
          subst hsame
          exact h.distinct _ _ _ hentry hentry'
      | some t =>
          simp only [hs, hs', Option.isSome_none, Option.isSome_some, if_true] at htable
          refine absurd htable (h.not_goto hentry ?_ hs)
          simp [hentry']
  | some t =>
      cases hs' : s'.returnTo with
      | none =>
          simp only [hs, hs', Option.isSome_none, Option.isSome_some, if_true] at htable
          refine absurd htable.symm (h.not_goto hentry' ?_ hs')
          simp [hentry]
      | some t' =>
          simp only [hs, hs', Option.isSome_some, if_true] at htable
          simpa [Transition.goto] using htable

/-- Different recipes ask for different states. -/
theorem yields_inj (h : N.Exact d) {r' : Recipe} (hr : d.Yields r s) (hr' : d.Yields r' s) :
    r = r' := by
  have henters : (∃ entry next, r = .enter entry next) ↔ ∃ entry next, r' = .enter entry next :=
    hr.isSome_returnTo.symm.trans hr'.isSome_returnTo
  cases r with
  | act action next =>
      cases r' with
      | act action' next' =>
          have htransition : action.transition next = action'.transition next' := by
            simpa [Yields] using hr.symm.trans hr'
          cases action <;> cases action' <;>
            simp_all [Action.transition, Transition.goto]
      | check marked blank =>
          simp only [Yields] at hr hr'
          simp [hr] at hr'
      | enter entry next' => simp at henters
  | check marked blank =>
      cases r' with
      | act action next =>
          simp only [Yields] at hr hr'
          simp [hr] at hr'
      | check marked' blank' =>
          simp only [Yields] at hr hr'
          simpa [hr, Transition.goto] using hr'
      | enter entry next => simp at henters
  | enter entry next =>
      obtain ⟨entry', next', rfl⟩ := henters.mp ⟨entry, next, rfl⟩
      obtain ⟨s₀, back, hentry, hback, rfl⟩ := hr
      obtain ⟨s₁, back', hentry', hback', heq⟩ := hr'
      cases congrArg State.returnTo heq
      cases h.noop_inj hback hback'
      rw [h.standIn_inj hentry hentry' heq]

theorem recipe_inj (h : N.Exact d) {r' : Recipe} (hr : d.recipes[r]? = some id)
    (hr' : d.recipes[r']? = some id) : r = r' := by
  obtain ⟨s, hs, hyields⟩ := h.wellFormed.yields hr
  exact h.yields_inj hyields (h.wellFormed.yields_state? hr' hs)

/-- A recipe may be followed if it asks for `s`: either it has been, or `s` is a new state. -/
theorem share (h : N.Exact d) (hrun : Build.share r s d = .ok id d') (hwf : d'.WellFormed)
    (hyields : d.Yields r s) (htargets : ∀ t ∈ r.targets, ∃ spot, t = N.target spot) :
    N.Exact d' := by
  rcases Build.share_eq_ok hrun with ⟨-, rfl⟩ | ⟨hnone, rfl, rfl⟩
  · exact ⟨hwf, h.distinct, h.origin, h.targets, h.older⟩
  · have hnew : ∀ id', d.state? id' ≠ some s := by
      intro id' hid'
      rcases h.origin id' s hid' with ⟨r', hr'⟩ | ⟨path, hpath, rfl⟩
      · rw [h.yields_inj hyields (h.wellFormed.yields_state? hr' hid'), hr'] at hnone
        cases hnone
      · exact not_yields_entryState hpath htargets hyields
    have hinsert : ∀ (r' : Recipe) (id' : StateId),
        (d.recipes.insert r (.slot d.states.size))[r']? = some id' →
          r' = r ∧ id' = .slot d.states.size ∨ d.recipes[r']? = some id' := by
      intro r' id' hr'
      rw [Std.TreeMap.getElem?_insert] at hr'
      split at hr'
      · rename_i heq
        cases hr'
        exact Or.inl ⟨(Std.LawfulEqOrd.eq_of_compare heq).symm, rfl⟩
      · exact Or.inr hr'
    refine ⟨hwf, ?_, ?_, ?_, ?_⟩
    · intro id id' s' hid hid'
      exact distinct_pushState h.distinct hnew hid hid'
    · intro id s' hid
      rcases state?_pushState.mp hid with hid | ⟨rfl, rfl⟩
      · rcases h.origin id s' hid with ⟨r', hr'⟩ | hentry
        · exact Or.inl ⟨r', (grows_record hnone _).recipes _ _ hr'⟩
        · exact Or.inr hentry
      · exact Or.inl ⟨r, Std.TreeMap.getElem?_insert_self⟩
    · intro r' id' hr'
      rcases hinsert r' id' hr' with ⟨rfl, -⟩ | hr'
      · exact htargets
      · exact h.targets r' id' hr'
    · intro entry next id' hr'
      rcases hinsert _ id' hr' with ⟨rfl, rfl⟩ | hr'
      · obtain ⟨s₀, -, hentry, -, -⟩ := hyields
        exact Nat.lt_succ_of_le (has_of_state? hentry)
      · exact h.older entry next id' hr'

/-- The entry of a subroutine is new, since its label is. -/
theorem addEntry (h : N.Exact d) {path : List Key} (hpath : .body path ∈ N)
    (hlabel : N.label (.body path) = ⟨d.places.size⟩) : N.Exact d.addEntry := by
  have hnew : ∀ id', d.state? id' ≠ some (entryState ⟨d.places.size⟩) := by
    intro id' hid'
    have haims := h.wellFormed.targets id' _ hid' (.label ⟨d.places.size⟩)
      (by simp [State.targets, entryState, Table.targets, Transition.goto])
    exact Nat.lt_irrefl _ haims
  refine ⟨h.wellFormed.addEntries 1, ?_, ?_, h.targets, h.older⟩
  · intro id id' s hid hid'
    exact distinct_pushState h.distinct hnew hid hid'
  · intro id s hid
    rcases state?_pushState.mp hid with hid | ⟨rfl, rfl⟩
    · exact h.origin id s hid
    · exact Or.inr ⟨path, hpath, by rw [hlabel]⟩

end Exact

/-! ## Assembling exact drafts -/

theorem Makes.grows {order : Order} (h : N.Makes d id d' order) : Grows [] d d' := by
  cases h with
  | act hrun => exact (Build.frames_act _ _).of_ok hrun
  | stop _ hd => exact hd ▸ Grows.refl [] d
  | check hrun => exact (Build.frames_check _ _).of_ok hrun
  | call _ hrun => exact (Build.frames_enter _ _).of_ok hrun
  | group _ _ hrun => exact (Build.frames_enter _ _).of_ok hrun

theorem Makes.completed {order : Order} (h : N.Makes d id d' order) (hwf : d.WellFormed)
    (haims : ∀ t ∈ order.nexts, d.Aims (N.target t)) : d.Completed id d' := by
  cases h with
  | act hrun => exact Build.act_completed hwf (haims _ (by simp [Order.nexts])) hrun
  | stop hid hd =>
      subst hid hd
      exact ⟨hwf, settles_of_places_eq rfl, has_halt d'⟩
  | check hrun =>
      exact Build.check_completed hwf (haims _ (by simp [Order.nexts]))
        (haims _ (by simp [Order.nexts])) hrun
  | call _ hrun => exact Build.enter_completed hwf (haims _ (by simp [Order.nexts])) hrun
  | group _ _ hrun => exact Build.enter_completed hwf (haims _ (by simp [Order.nexts])) hrun

theorem Exact.enter (h : N.Exact d) {entry : StateId} {next : Option Spot}
    (hnext : d.Aims (N.target next)) (hrun : Build.enter entry (N.target next) d = .ok id d') :
    N.Exact d' := by
  have hwf' := (Build.enter_completed h.wellFormed hnext hrun).wellFormed
  obtain ⟨back, d₁, hback, ⟨-, -, rfl⟩ | ⟨s, hs, hshare⟩⟩ := Build.enter_eq_ok hrun
  · exact h.share hback hwf' rfl (by simp [Recipe.targets])
  · have hwf₁ := (Build.act_completed h.wellFormed hnext hback).wellFormed
    have hexact : N.Exact d₁ := h.share hback hwf₁ rfl (by simp [Recipe.targets])
    exact hexact.share hshare hwf' ⟨s, back, hs, Build.share_recipe hback, rfl⟩
      (by simp [Recipe.targets])

theorem Makes.exact {order : Order} (h : N.Makes d id d' order) (he : N.Exact d)
    (haims : ∀ t ∈ order.nexts, d.Aims (N.target t)) : N.Exact d' := by
  have hwf' := (h.completed he.wellFormed haims).wellFormed
  cases h with
  | act hrun => exact he.share hrun hwf' rfl (by simp [Recipe.targets])
  | stop _ hd => exact hd ▸ he
  | check hrun => exact he.share hrun hwf' rfl (by simp [Recipe.targets])
  | call _ hrun => exact he.enter (haims _ (by simp [Order.nexts])) hrun
  | group _ _ hrun => exact he.enter (haims _ (by simp [Order.nexts])) hrun

theorem Exact.put (h : N.Exact d) (l : Label) (hid : d.Has id) : N.Exact (d.put l id) :=
  ⟨h.wellFormed.put l hid, h.distinct, h.origin, h.targets, h.older⟩

theorem Does.exact {task : Task} (h : N.Does task d d') (he : N.Exact d) : N.Exact d' := by
  cases h with
  | declare hmem hlabel => exact he.addEntry hmem hlabel
  | label => exact ⟨he.wellFormed.handOut 1, he.distinct, he.origin, he.targets, he.older⟩
  | make _ hmakes haims =>
      exact (hmakes.exact he haims).put _ (hmakes.completed he.wellFormed haims).has
  | bind hplace => exact he.put _ (he.wellFormed.places _ _ hplace)

theorem Assembles.exact {tasks : List Task} (h : N.Assembles tasks d d') (he : N.Exact d) :
    N.Exact d' := by
  induction h with
  | done => exact he
  | log _ ih => exact ih ⟨he.wellFormed.log _, he.distinct, he.origin, he.targets, he.older⟩
  | task hdoes _ ih => exact ih (hdoes.exact he)

end Numbering

end TapeMachine
