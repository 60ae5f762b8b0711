import TapeMachine.Proofs.Sharing

/-!
# The blueprints of states

A blueprint says what a state is without the numbers of labels and states: it acts, or
checks, or enters a state with a blueprint of its own, and goes on at instructions.
Every state of a compiled program has exactly one blueprint, and what blueprints there
are depends on the instructions and bodies of the program alone, not on the order in
which they were compiled.
-/

namespace TapeMachine

open Draft

inductive Blueprint where
  | halt
  /-- Goes to the body at `path`. -/
  | entry (path : List Key)
  | act (action : Action) (next : Option Spot)
  | check (marked blank : Option Spot)
  | enter (inner : Blueprint) (next : Option Spot)
deriving DecidableEq, Repr

namespace Blueprint

/-- The state `id` of the draft was made after the blueprint. -/
inductive Builds (N : Numbering) (d : Draft) : Blueprint → StateId → Prop
  | halt : Builds N d .halt .halt
  | entry {path : List Key} {id : StateId}
      (state : d.state? id = some (entryState (N.label (.body path)))) :
      Builds N d (.entry path) id
  | act {action : Action} {next : Option Spot} {id : StateId}
      (recipe : d.recipes[Recipe.act action (N.target next)]? = some id) :
      Builds N d (.act action next) id
  | check {marked blank : Option Spot} {id : StateId}
      (recipe : d.recipes[Recipe.check (N.target marked) (N.target blank)]? = some id) :
      Builds N d (.check marked blank) id
  | enter {inner : Blueprint} {next : Option Spot} {entry id : StateId}
      (builds : Builds N d inner entry)
      (recipe : d.recipes[Recipe.enter entry (N.target next)]? = some id) :
      Builds N d (.enter inner next) id

variable {N : Numbering} {d : Draft} {b : Blueprint} {id id' : StateId}

theorem Builds.has (hexact : N.Exact d) (h : b.Builds N d id) : d.Has id := by
  cases h with
  | halt => exact d.has_halt
  | entry hstate => exact has_of_state? hstate
  | act hrecipe => exact (hexact.wellFormed.recipes _ _ hrecipe).has
  | check hrecipe => exact (hexact.wellFormed.recipes _ _ hrecipe).has
  | enter _ hrecipe => exact (hexact.wellFormed.recipes _ _ hrecipe).has

/-- A blueprint is followed once. -/
theorem Builds.eq (hexact : N.Exact d) (h : b.Builds N d id) (h' : b.Builds N d id') :
    id = id' := by
  induction h generalizing id' with
  | halt =>
      cases h'
      rfl
  | entry hstate =>
      cases h' with
      | entry hstate' => exact hexact.distinct _ _ _ hstate hstate'
  | act hrecipe =>
      cases h' with
      | act hrecipe' => exact Option.some.inj (hrecipe.symm.trans hrecipe')
  | check hrecipe =>
      cases h' with
      | check hrecipe' => exact Option.some.inj (hrecipe.symm.trans hrecipe')
  | enter _ hrecipe ih =>
      cases h' with
      | enter hinner' hrecipe' =>
          rw [ih hinner'] at hrecipe
          exact Option.some.inj (hrecipe.symm.trans hrecipe')

end Blueprint

namespace Scope

/-- The blueprint of the state that an instruction is bound to. -/
inductive Draws (program : Scope) : Spot → Blueprint → Prop
  | stop {spot : Spot} (listed : (spot, .stop) ∈ program.orders) : Draws program spot .halt
  | act {spot : Spot} {action : Action} {next : Option Spot}
      (listed : (spot, .act action next) ∈ program.orders) :
      Draws program spot (.act action next)
  | check {spot : Spot} {marked blank : Option Spot}
      (listed : (spot, .check marked blank) ∈ program.orders) :
      Draws program spot (.check marked blank)
  | call {spot : Spot} {path : List Key} {next : Option Spot}
      (listed : (spot, .call (some path) next) ∈ program.orders) :
      Draws program spot (.enter (.entry path) next)
  | group {spot first : Spot} {members : Nat} {next : Option Spot} {inner : Blueprint}
      (listed : (spot, .group first members next) ∈ program.orders)
      (draws : Draws program first inner) : Draws program spot (.enter inner next)

namespace Drafted

variable {program : Scope} {entry : StateId} {d : Draft} {spot : Spot} {id : StateId}
  {b b' : Blueprint}

theorem recipe_ne_halt (h : program.Drafted entry d) {r : Recipe} :
    d.recipes[r]? ≠ some .halt := by
  intro hr
  obtain ⟨s, hs, -⟩ := h.exact.wellFormed.yields hr
  cases hs

theorem not_recipe_of_entryState (h : program.Drafted entry d) {path : List Key} {r : Recipe}
    (hstate : d.state? id = some (entryState (program.numbering.label (.body path)))) :
    d.recipes[r]? ≠ some id := by
  intro hr
  have hyields := h.exact.wellFormed.yields_state? hr hstate
  exact Numbering.not_yields_entryState (h.body_mem hstate) (h.exact.targets r id hr) hyields

/-- A state has one blueprint. -/
theorem blueprint_eq (h : program.Drafted entry d) (hb : b.Builds program.numbering d id)
    (hb' : b'.Builds program.numbering d id) : b = b' := by
  -- a state is halt, an entry or made after one recipe, so both blueprints are of one kind
  induction hb generalizing b' with
  | halt =>
      cases hb' with
      | halt => rfl
      | entry hstate => cases hstate
      | act hrecipe => exact absurd hrecipe h.recipe_ne_halt
      | check hrecipe => exact absurd hrecipe h.recipe_ne_halt
      | enter _ hrecipe => exact absurd hrecipe h.recipe_ne_halt
  | entry hstate =>
      cases hb' with
      | halt => cases hstate
      | entry hstate' => rw [h.body_inj hstate hstate']
      | act hrecipe => exact absurd hrecipe (h.not_recipe_of_entryState hstate)
      | check hrecipe => exact absurd hrecipe (h.not_recipe_of_entryState hstate)
      | enter _ hrecipe => exact absurd hrecipe (h.not_recipe_of_entryState hstate)
  | act hrecipe =>
      have haims := h.aims_targets hrecipe
      cases hb' with
      | halt => exact absurd hrecipe h.recipe_ne_halt
      | entry hstate => exact absurd hrecipe (h.not_recipe_of_entryState hstate)
      | act hrecipe' =>
          obtain ⟨rfl, hnext⟩ := Recipe.act.inj (h.exact.recipe_inj hrecipe hrecipe')
          rw [h.target_inj (haims _ (by simp [Recipe.targets])) hnext]
      | check hrecipe' => cases h.exact.recipe_inj hrecipe hrecipe'
      | enter _ hrecipe' => cases h.exact.recipe_inj hrecipe hrecipe'
  | check hrecipe =>
      have haims := h.aims_targets hrecipe
      cases hb' with
      | halt => exact absurd hrecipe h.recipe_ne_halt
      | entry hstate => exact absurd hrecipe (h.not_recipe_of_entryState hstate)
      | act hrecipe' => cases h.exact.recipe_inj hrecipe hrecipe'
      | check hrecipe' =>
          obtain ⟨hmarked, hblank⟩ := Recipe.check.inj (h.exact.recipe_inj hrecipe hrecipe')
          rw [h.target_inj (haims _ (by simp [Recipe.targets])) hmarked,
            h.target_inj (haims _ (by simp [Recipe.targets])) hblank]
      | enter _ hrecipe' => cases h.exact.recipe_inj hrecipe hrecipe'
  | enter _ hrecipe ih =>
      have haims := h.aims_targets hrecipe
      cases hb' with
      | halt => exact absurd hrecipe h.recipe_ne_halt
      | entry hstate => exact absurd hrecipe (h.not_recipe_of_entryState hstate)
      | act hrecipe' => cases h.exact.recipe_inj hrecipe hrecipe'
      | check hrecipe' => cases h.exact.recipe_inj hrecipe hrecipe'
      | enter hinner' hrecipe' =>
          obtain ⟨rfl, hnext⟩ := Recipe.enter.inj (h.exact.recipe_inj hrecipe hrecipe')
          rw [ih hinner', h.target_inj (haims _ (by simp [Recipe.targets])) hnext]

/-- The state of an instruction is made after its blueprint. -/
theorem builds_of_draws (h : program.Drafted entry d) (hdraws : program.Draws spot b)
    (hid : program.stateOf d spot = some id) : b.Builds program.numbering d id := by
  induction hdraws generalizing id with
  | stop ho =>
      rcases h.stateOf_eq ho with ⟨-, hhalt⟩ | ⟨r, -, hr, -, -⟩
      · cases hid.symm.trans hhalt
        exact .halt
      · cases hr
  | act ho =>
      obtain ⟨r, id', hr, hrecipe, hid'⟩ := h.exists_recipe ho (by simp)
      cases hid.symm.trans hid'
      cases hr
      exact .act hrecipe
  | check ho =>
      obtain ⟨r, id', hr, hrecipe, hid'⟩ := h.exists_recipe ho (by simp)
      cases hid.symm.trans hid'
      cases hr
      exact .check hrecipe
  | call ho =>
      obtain ⟨r, id', hr, hrecipe, hid'⟩ := h.exists_recipe ho (by simp)
      cases hid.symm.trans hid'
      cases hr with
      | call hstate => exact .enter (.entry hstate) hrecipe
  | group ho _ ih =>
      obtain ⟨r, id', hr, hrecipe, hid'⟩ := h.exists_recipe ho (by simp)
      cases hid.symm.trans hid'
      cases hr with
      | group hplace => exact .enter (ih hplace) hrecipe

/-- Every instruction of a compiled program has a blueprint. A group comes after its first
member, so the blueprint of that can be had first. -/
theorem exists_draws (h : program.Drafted entry d) (hid : program.stateOf d spot = some id) :
    ∃ b, program.Draws spot b := by
  induction hn : id.number using Nat.strong_induction_on generalizing id spot with
  | _ n ih =>
      obtain ⟨order, ho⟩ := h.exists_order hid
      rcases h.stateOf_eq ho with ⟨rfl, -⟩ | ⟨r, id', hr, hrecipe, hid'⟩
      · exact ⟨_, .stop ho⟩
      · cases hid.symm.trans hid'
        cases hr with
        | act => exact ⟨_, .act ho⟩
        | check => exact ⟨_, .check ho⟩
        | call => exact ⟨_, .call ho⟩
        | group hplace =>
            have holder := h.exact.older _ _ _ hrecipe
            obtain ⟨inner, hinner⟩ := ih _ (hn ▸ holder) hplace rfl
            exact ⟨_, .group ho hinner⟩

end Drafted

end Scope

end TapeMachine
