import TapeMachine.Proofs.Exact

/-!
# Instructions share their states exactly

What the instructions of a compiled program are bound to: each has the state of the
recipe that its order asks for, and there are no recipes but those that some order
asks for. Since different recipes make different states, two instructions are bound to
one state only if they ask for the same.
-/

namespace TapeMachine

open Draft

namespace Order

/-- The recipe of the state that an order asks for. -/
inductive MadeBy (N : Numbering) (d : Draft) : Order → Recipe → Prop
  | act {action : Action} {next : Option Spot} :
      MadeBy N d (.act action next) (.act action (N.target next))
  | check {marked blank : Spot} :
      MadeBy N d (.check marked blank) (.check (N.target marked) (N.target blank))
  | call {path : List Key} {entry : StateId} {next : Option Spot}
      (state : d.state? entry = some (entryState (N.label (.body path)))) :
      MadeBy N d (.call (some path) next) (.enter entry (N.target next))
  | group {first : Spot} {members : Nat} {entry : StateId} {next : Option Spot}
      (place : d.place? (N.label (.spot first)) = some entry) :
      MadeBy N d (.group first members next) (.enter entry (N.target next))

/-- The id is that of the state that the order asks for, and halt for a stop. -/
def Fulfilled (N : Numbering) (d : Draft) (id : StateId) (order : Order) : Prop :=
  order = .stop ∧ id = .halt ∨ ∃ r, order.MadeBy N d r ∧ d.recipes[r]? = some id

/-- The order runs other instructions before it goes on. -/
def enters : Order → Bool
  | call _ _ | group _ _ _ => true
  | act _ _ | stop | check _ _ => false

variable {N : Numbering} {d D : Draft} {order : Order} {r r' : Recipe} {id : StateId}

theorem madeBy_act {action : Action} {next : Option Spot} :
    (Order.act action next).MadeBy N d r ↔ r = .act action (N.target next) := by
  constructor
  · intro h
    cases h
    rfl
  · rintro rfl
    exact .act

theorem madeBy_check {marked blank : Option Spot} (h : (Order.check marked blank).MadeBy N d r) :
    r = .check (N.target marked) (N.target blank) := by
  cases h
  rfl

theorem madeBy_call {callee : Option (List Key)} {next : Option Spot}
    (h : (Order.call callee next).MadeBy N d r) :
    ∃ path entry, callee = some path ∧ d.state? entry = some (entryState (N.label (.body path))) ∧
      r = .enter entry (N.target next) := by
  cases h with
  | call hstate => exact ⟨_, _, rfl, hstate, rfl⟩

theorem madeBy_group {first : Spot} {members : Nat} {next : Option Spot} :
    (Order.group first members next).MadeBy N d r ↔
      ∃ entry, d.place? (N.label (.spot first)) = some entry ∧
        r = .enter entry (N.target next) := by
  constructor
  · intro h
    cases h with
    | group hplace => exact ⟨_, hplace, rfl⟩
  · rintro ⟨entry, hplace, rfl⟩
    exact .group hplace

theorem MadeBy.targets (h : order.MadeBy N d r) : r.targets = order.nexts.map N.target := by
  cases h <;> rfl

theorem MadeBy.enters_iff (h : order.MadeBy N d r) :
    order.enters = true ↔ ∃ entry next, r = .enter entry next := by
  cases h <;> simp [enters]

theorem MadeBy.survives (h : order.MadeBy N d r) (hD : Survives d D) : order.MadeBy N D r := by
  cases h with
  | act => exact .act
  | check => exact .check
  | call hstate => exact .call (hD.state? _ _ hstate)
  | group hplace => exact .group (hD.place? _ _ hplace)

/-- An order asks for one recipe. -/
theorem MadeBy.eq (hexact : N.Exact d) (h : order.MadeBy N d r) (h' : order.MadeBy N d r') :
    r = r' := by
  cases h with
  | act =>
      cases h'
      rfl
  | check =>
      cases h'
      rfl
  | call hstate =>
      cases h' with
      | call hstate' => rw [hexact.distinct _ _ _ hstate hstate']
  | group hplace =>
      cases h' with
      | group hplace' =>
          rw [hplace] at hplace'
          cases hplace'
          rfl

theorem Fulfilled.survives (h : order.Fulfilled N d id) (hD : Survives d D) :
    order.Fulfilled N D id := by
  rcases h with hstop | ⟨r, hr, hid⟩
  · exact Or.inl hstop
  · exact Or.inr ⟨r, hr.survives hD, hD.recipes _ _ hid⟩

end Order

namespace Numbering

variable {N : Numbering} {d d' D : Draft} {id : StateId} {order : Order} {tasks : List Task}

/-! ## What the tasks have done -/

theorem share_recipe_cases {r r' : Recipe} {s : State Target} {id' : StateId}
    (h : Build.share r s d = .ok id d') (hr' : d'.recipes[r']? = some id') :
    r' = r ∨ d.recipes[r']? = some id' := by
  rcases Build.share_eq_ok h with ⟨-, rfl⟩ | ⟨-, -, rfl⟩
  · exact Or.inr hr'
  · change (d.recipes.insert r (.slot d.states.size))[r']? = some id' at hr'
    rw [Std.TreeMap.getElem?_insert] at hr'
    split at hr'
    · rename_i heq
      exact Or.inl (Std.LawfulEqOrd.eq_of_compare heq).symm
    · exact Or.inr hr'

theorem enter_recipe_cases {entry id' : StateId} {next : Target} {r' : Recipe}
    (h : Build.enter entry next d = .ok id d') (hr' : d'.recipes[r']? = some id') :
    r' ∈ (Recipe.enter entry next).parts ∨ d.recipes[r']? = some id' := by
  obtain ⟨back, d₁, hback, ⟨-, -, rfl⟩ | ⟨s, -, hshare⟩⟩ := Build.enter_eq_ok h
  · exact (share_recipe_cases hback hr').imp_left (by simp +contextual [Recipe.parts])
  · rcases share_recipe_cases hshare hr' with rfl | hr'
    · exact Or.inl (Recipe.mem_parts _)
    · exact (share_recipe_cases hback hr').imp_left (by simp +contextual [Recipe.parts])

namespace Makes

theorem fulfilled (h : N.Makes d id d' order) : order.Fulfilled N d' id := by
  have hgrow := h.grows
  cases h with
  | act hrun => exact Or.inr ⟨_, .act, Build.share_recipe hrun⟩
  | stop hid _ => exact Or.inl ⟨rfl, hid⟩
  | check hrun => exact Or.inr ⟨_, .check, Build.share_recipe hrun⟩
  | call hstate hrun =>
      exact Or.inr ⟨_, .call (hgrow.state? hstate), Build.enter_recipe (by simp [hstate]) hrun⟩
  | group hplace hstate hrun =>
      exact Or.inr ⟨_, .group (hgrow.keeps unplaced_nil hplace), Build.enter_recipe hstate hrun⟩

/-- Nothing is made but what the order asks for. -/
theorem recipe_cases (h : N.Makes d id d' order) {r : Recipe} {id' : StateId}
    (hr : d'.recipes[r]? = some id') :
    (∃ r', order.MadeBy N d r' ∧ r ∈ r'.parts) ∨ d.recipes[r]? = some id' := by
  cases h with
  | act hrun =>
      rcases share_recipe_cases hrun hr with rfl | hold
      · exact Or.inl ⟨_, .act, Recipe.mem_parts _⟩
      · exact Or.inr hold
  | stop _ hd => exact Or.inr (hd ▸ hr)
  | check hrun =>
      rcases share_recipe_cases hrun hr with rfl | hold
      · exact Or.inl ⟨_, .check, Recipe.mem_parts _⟩
      · exact Or.inr hold
  | call hstate hrun =>
      exact (enter_recipe_cases hrun hr).imp_left fun hparts => ⟨_, .call hstate, hparts⟩
  | group hplace _ hrun =>
      exact (enter_recipe_cases hrun hr).imp_left fun hparts => ⟨_, .group hplace, hparts⟩

end Makes

theorem Does.survives {task : Task} (h : N.Does task d d') (hD : Survives d' D) : Survives d D := by
  cases h with
  | declare => exact (grows_addEntry d).survives unplaced_nil hD
  | label => exact (grows_handOut d 1).survives unplaced_nil hD
  | make _ hmakes _ hfree =>
      exact hmakes.grows.survives unplaced_nil ((grows_put _ _ _).survives hfree hD)
  | bind _ hfree => exact (grows_put d _ _).survives hfree hD

namespace Assembles

theorem survives (h : N.Assembles tasks d d') (hD : Survives d' D) : Survives d D := by
  induction h with
  | done => exact hD
  | log _ ih => exact (grows_log _ _).survives unplaced_nil (ih hD)
  | task hdoes _ ih => exact hdoes.survives (ih hD)

/-- What a task has done is there in the end. -/
theorem does_of_mem (h : N.Assembles tasks d d') (hD : Survives d' D) {task : Task}
    (hmem : task ∈ tasks) : ∃ d₀ d₁, N.Does task d₀ d₁ ∧ Survives d₁ D := by
  induction h with
  | done => cases hmem
  | log _ ih => exact ih hD hmem
  | task hdoes hrest ih =>
      rcases List.mem_cons.mp hmem with rfl | hmem
      · exact ⟨_, _, hdoes, hrest.survives hD⟩
      · exact ih hD hmem

/-- What holds in the end and did not hold at the beginning has come to hold by some task. -/
theorem exists_does (h : N.Assembles tasks d d') (hD : Survives d' D) {P : Draft → Prop}
    (hlog : ∀ d e, P (d.log e) → P d) (hfirst : ¬ P d) (hlast : P d') :
    ∃ task ∈ tasks, ∃ d₀ d₁, N.Does task d₀ d₁ ∧ ¬ P d₀ ∧ P d₁ ∧ Survives d₁ D := by
  induction h with
  | done => exact absurd hlast hfirst
  | log _ ih => exact ih hD (fun hP => hfirst (hlog _ _ hP)) hlast
  | @task task _ d₀ d₁ _ hdoes hrest ih =>
      by_cases hP : P d₁
      · exact ⟨task, List.mem_cons_self, d₀, d₁, hdoes, hfirst, hP, hrest.survives hD⟩
      · obtain ⟨task', hmem, hdoes'⟩ := ih hD hP hlast
        exact ⟨task', List.mem_cons_of_mem _ hmem, hdoes'⟩

/-- Every instruction has the state that it asks for. -/
theorem made (h : N.Assembles tasks d d') {spot : Spot} (hmem : .make spot order ∈ tasks) :
    order.Admitted spot ∧
      ∃ id, d'.place? (N.label (.spot spot)) = some id ∧ order.Fulfilled N d' id := by
  obtain ⟨d₀, d₁, hdoes, hD⟩ := h.does_of_mem (Survives.refl d') hmem
  cases hdoes with
  | make hadmitted hmakes _ hfree =>
      have hlt := (hfree _ (List.mem_singleton_self _)).1
      exact ⟨hadmitted, _, hD.place? _ _ (place?_put_self hlt _),
        hmakes.fulfilled.survives ((grows_put _ _ _).survives hfree hD)⟩

/-- A body has the label of its subroutine on its first instruction. -/
theorem bound (h : N.Assembles tasks d d') {path : List Key} (hmem : .bind path ∈ tasks) :
    ∃ id, d'.place? (N.label (.body path)) = some id ∧
      d'.place? (N.label (.spot (.start path))) = some id := by
  obtain ⟨d₀, d₁, hdoes, hD⟩ := h.does_of_mem (Survives.refl d') hmem
  cases hdoes with
  | bind hplace hfree =>
      have hlt := (hfree _ (List.mem_singleton_self _)).1
      exact ⟨_, hD.place? _ _ (place?_put_self hlt _),
        ((grows_put _ _ _).survives hfree hD).place? _ _ hplace⟩

theorem declared (h : N.Assembles tasks d d') {path : List Key} (hmem : .declare path ∈ tasks) :
    ∃ id, d'.state? id = some (entryState (N.label (.body path))) := by
  obtain ⟨d₀, d₁, hdoes, hD⟩ := h.does_of_mem (Survives.refl d') hmem
  cases hdoes with
  | declare _ hlabel =>
      refine ⟨.slot d₀.states.size, hD.state? _ _ ?_⟩
      rw [hlabel]
      exact state?_pushState.mpr (Or.inr ⟨rfl, rfl⟩)

/-- Every recipe is part of what some instruction asks for. -/
theorem demanded (h : N.Assembles tasks {} d') {r : Recipe} {id : StateId}
    (hr : d'.recipes[r]? = some id) :
    ∃ spot order r', .make spot order ∈ tasks ∧ order.MadeBy N d' r' ∧ r ∈ r'.parts := by
  obtain ⟨task, hmem, d₀, d₁, hdoes, hnew, hr, hD⟩ :=
    h.exists_does (P := fun d => d.recipes[r]? = some id) (Survives.refl d') (fun _ _ h => h)
      (by simp) hr
  cases hdoes with
  | declare => exact absurd hr hnew
  | label => exact absurd hr hnew
  | bind => exact absurd hr hnew
  | make _ hmakes _ hfree =>
      rcases hmakes.recipe_cases hr with ⟨r', hr', hparts⟩ | hold
      · have hD₀ := hmakes.grows.survives unplaced_nil ((grows_put _ _ _).survives hfree hD)
        exact ⟨_, _, r', hmem, hr'.survives hD₀, hparts⟩
      · exact absurd hold hnew

/-- Only the labels of instructions and of bodies are placed. -/
theorem placed (h : N.Assembles tasks {} d') {l : Label} (hl : (d'.place? l).isSome) :
    (∃ spot order, .make spot order ∈ tasks ∧ l = N.label (.spot spot)) ∨
      ∃ path, .bind path ∈ tasks ∧ l = N.label (.body path) := by
  obtain ⟨task, hmem, d₀, d₁, hdoes, hnew, hl, -⟩ :=
    h.exists_does (P := fun d => (d.place? l).isSome) (Survives.refl d') (fun _ _ h => h)
      (by simp [place?]) hl
  cases hdoes with
  | declare =>
      change ((d₀.handOut 1).place? l).isSome at hl
      rw [place?_handOut] at hl
      exact absurd hl hnew
  | label =>
      rw [place?_handOut] at hl
      exact absurd hl hnew
  | @make spot order _ _ _ _ hmakes =>
      by_cases heq : l = N.label (.spot spot)
      · exact Or.inl ⟨spot, order, hmem, heq⟩
      · rw [place?_put_of_ne heq, place?, hmakes.places] at hl
        exact absurd hl hnew
  | @bind path =>
      by_cases heq : l = N.label (.body path)
      · exact Or.inr ⟨path, hmem, heq⟩
      · rw [place?_put_of_ne heq] at hl
        exact absurd hl hnew

end Assembles

end Numbering

/-! ## Compiled programs -/

namespace Scope

/-- What the draft of a compiled program holds. -/
structure Drafted (program : Scope) (entry : StateId) (d : Draft) : Prop where
  exact : program.numbering.Exact d
  size : d.places.size = program.numbering.length
  made : ∀ spot order, (spot, order) ∈ program.orders →
    order.Admitted spot ∧ ∃ id, d.place? (program.numbering.label (.spot spot)) = some id ∧
      order.Fulfilled program.numbering d id
  listed : ∀ spot, .spot spot ∈ program.numbering → ∃ order, (spot, order) ∈ program.orders
  bound : ∀ path, .body path ∈ program.numbering →
    ∃ id, d.place? (program.numbering.label (.body path)) = some id ∧
      d.place? (program.numbering.label (.spot (.start path))) = some id
  declared : ∀ path, .body path ∈ program.numbering →
    ∃ id, d.state? id = some (entryState (program.numbering.label (.body path)))
  demanded : ∀ (r : Recipe) (id : StateId), d.recipes[r]? = some id →
    ∃ spot order r', (spot, order) ∈ program.orders ∧
      order.MadeBy program.numbering d r' ∧ r ∈ r'.parts
  entry : d.place? (program.numbering.label (.spot (.start []))) = some entry

variable {program : Scope} {entry : StateId} {d : Draft}

theorem drafted_of_build (hkeys : program.WellKeyed)
    (h : Build.scope program [] {} = .ok entry d) : program.Drafted entry d := by
  obtain ⟨hassembles, hentry⟩ := Build.program_assembles hkeys h
  have hsize : d.places.size = program.numbering.length := by
    rw [hassembles.size_places]
    simp [numbering]
  -- a label that is handed out is placed in the end, and so it is that of a task
  have hplaced : ∀ a ∈ program.numbering, (d.place? (program.numbering.label a)).isSome := by
    intro a ha
    refine (Build.program_completed h).isSome_place? ?_
    rw [hsize]
    exact Numbering.mem_iff_label_lt.mp ha
  refine ⟨hassembles.exact (Numbering.exact_empty _), hsize, ?_, ?_, ?_, ?_, ?_, hentry⟩
  · intro spot order ho
    exact hassembles.made (program.make_mem_plan.mpr ho)
  · intro spot hspot
    rcases hassembles.placed (hplaced _ hspot) with ⟨spot', order, hmem, heq⟩ | ⟨path, -, heq⟩
    · cases Numbering.label_inj hspot heq
      exact ⟨order, program.make_mem_plan.mp hmem⟩
    · cases Numbering.label_inj hspot heq
  · intro path hpath
    rcases hassembles.placed (hplaced _ hpath) with ⟨spot, order, -, heq⟩ | ⟨path', hmem, heq⟩
    · cases Numbering.label_inj hpath heq
    · cases Numbering.label_inj hpath heq
      exact hassembles.bound hmem
  · intro path hpath
    obtain ⟨task, htask, hanchor⟩ := List.mem_filterMap.mp hpath
    cases task with
    | declare path' =>
        cases hanchor
        exact hassembles.declared htask
    | label spot => cases hanchor
    | make spot order => cases hanchor
    | bind path' => cases hanchor
  · intro r id hr
    obtain ⟨spot, order, r', hmem, hr'⟩ := hassembles.demanded hr
    exact ⟨spot, order, r', program.make_mem_plan.mp hmem, hr'⟩

/-- The state that an instruction is bound to. -/
def stateOf (program : Scope) (d : Draft) (spot : Spot) : Option StateId :=
  d.place? (program.numbering.label (.spot spot))

namespace Drafted

variable {spot spot' : Spot} {order order' : Order}

theorem aims_targets (h : program.Drafted entry d) {r : Recipe} {id : StateId}
    (hr : d.recipes[r]? = some id) : ∀ t ∈ r.targets, d.Aims t := by
  have hwf := h.exact.wellFormed
  have hact : ∀ {action next id}, d.recipes[Recipe.act action next]? = some id → d.Aims next := by
    intro action next id hr
    obtain ⟨s, hs, rfl⟩ := hwf.yields hr
    refine hwf.targets id _ hs next ?_
    cases action <;> simp [State.targets, Table.targets, Action.transition, Transition.goto]
  intro t ht
  cases r with
  | act action next =>
      rw [List.mem_singleton.mp ht]
      exact hact hr
  | check marked blank =>
      obtain ⟨s, hs, rfl⟩ := hwf.yields hr
      refine hwf.targets id _ hs t ?_
      simpa [State.targets, Table.targets, Transition.goto, Recipe.targets] using ht
  | enter entry next =>
      obtain ⟨s, hs, -, back, -, hback, -⟩ := hwf.yields hr
      rw [List.mem_singleton.mp ht]
      exact hact hback

theorem target_inj (h : program.Drafted entry d) {next next' : Option Spot}
    (haims : d.Aims (program.numbering.target next))
    (heq : program.numbering.target next = program.numbering.target next') : next = next' := by
  cases next with
  | none => cases next' with
    | none => rfl
    | some t' => cases heq
  | some t => cases next' with
    | none => cases heq
    | some t' =>
        have hmem : .spot t ∈ program.numbering :=
          Numbering.mem_iff_label_lt.mpr (h.size ▸ haims)
        cases Numbering.label_inj hmem (Target.label.inj heq)
        rfl

theorem nexts_inj (h : program.Drafted entry d) {nexts nexts' : List (Option Spot)}
    (haims : ∀ t ∈ nexts, d.Aims (program.numbering.target t))
    (heq : nexts.map program.numbering.target = nexts'.map program.numbering.target) :
    nexts = nexts' := by
  induction nexts generalizing nexts' with
  | nil => exact (List.map_eq_nil_iff.mp heq.symm).symm
  | cons t nexts ih =>
      cases nexts' with
      | nil => cases heq
      | cons t' nexts' =>
          obtain ⟨ht, hrest⟩ := List.cons.inj heq
          rw [h.target_inj (haims t List.mem_cons_self) ht,
            ih (fun t ht => haims t (List.mem_cons_of_mem _ ht)) hrest]

theorem body_mem (h : program.Drafted entry d) {path : List Key} {id : StateId}
    (hpath : d.state? id = some (entryState (program.numbering.label (.body path)))) :
    .body path ∈ program.numbering := by
  have haims := h.exact.wellFormed.targets id _ hpath
    (.label (program.numbering.label (.body path)))
    (by simp [State.targets, entryState, Table.targets, Transition.goto])
  exact Numbering.mem_iff_label_lt.mpr (h.size ▸ haims)

theorem body_inj (h : program.Drafted entry d) {path path' : List Key} {id : StateId}
    (hpath : d.state? id = some (entryState (program.numbering.label (.body path))))
    (hpath' : d.state? id = some (entryState (program.numbering.label (.body path')))) :
    path = path' := by
  have hmem := h.body_mem hpath
  rw [hpath] at hpath'
  have hlabel : program.numbering.label (.body path) = program.numbering.label (.body path') := by
    simpa [entryState, Transition.goto] using hpath'
  cases Numbering.label_inj hmem hlabel
  rfl

/-- Only instructions are bound to states. -/
theorem exists_order (h : program.Drafted entry d) {id : StateId}
    (hid : program.stateOf d spot = some id) : ∃ order, (spot, order) ∈ program.orders := by
  refine h.listed spot (Numbering.mem_iff_label_lt.mpr ?_)
  rw [← h.size]
  exact lt_size_of_place? hid

/-- The state of an instruction is that of its recipe, unless it is a stop. -/
theorem stateOf_eq (h : program.Drafted entry d) (ho : (spot, order) ∈ program.orders) :
    order = .stop ∧ program.stateOf d spot = some .halt ∨
      ∃ r id, order.MadeBy program.numbering d r ∧ d.recipes[r]? = some id ∧
        program.stateOf d spot = some id := by
  obtain ⟨-, id, hid, ⟨hstop, rfl⟩ | ⟨r, hr, hrecipe⟩⟩ := h.made spot order ho
  · exact Or.inl ⟨hstop, hid⟩
  · exact Or.inr ⟨r, id, hr, hrecipe, hid⟩

theorem exists_recipe (h : program.Drafted entry d) (ho : (spot, order) ∈ program.orders)
    (hstop : order ≠ .stop) :
    ∃ r id, order.MadeBy program.numbering d r ∧ d.recipes[r]? = some id ∧
      program.stateOf d spot = some id :=
  (h.stateOf_eq ho).resolve_left fun hs => hstop hs.1

theorem aims_nexts (h : program.Drafted entry d) (ho : (spot, order) ∈ program.orders) :
    ∀ t ∈ order.nexts, d.Aims (program.numbering.target t) := by
  intro t ht
  rcases h.stateOf_eq ho with ⟨rfl, -⟩ | ⟨r, id, hr, hrecipe, -⟩
  · cases ht
  · exact h.aims_targets hrecipe _ (hr.targets ▸ List.mem_map_of_mem ht)

/-- What an instruction goes on at is bound to a state. -/
theorem exists_stateOf (h : program.Drafted entry d) {next : Spot}
    (haims : d.Aims (program.numbering.target next)) : ∃ id, program.stateOf d next = some id := by
  have hlt : (program.numbering.label (.spot next)).number < program.numbering.length :=
    h.size ▸ haims
  obtain ⟨order, ho⟩ := h.listed next (Numbering.mem_iff_label_lt.mpr hlt)
  obtain ⟨-, id, hid, -⟩ := h.made next order ho
  exact ⟨id, hid⟩

theorem locate_target {next : Spot} {id : StateId} (h : program.stateOf d next = some id) :
    d.locate (program.numbering.target next) = id :=
  locate_of_place? h

/-- A body is entered at the state of its first instruction. -/
theorem locate_body (h : program.Drafted entry d) {path : List Key} {callee : StateId}
    (hcallee : d.state? callee = some (entryState (program.numbering.label (.body path)))) :
    ∃ id, program.stateOf d (.start path) = some id ∧
      d.locate (.label (program.numbering.label (.body path))) = id := by
  obtain ⟨id, hbody, hstart⟩ := h.bound path (h.body_mem hcallee)
  exact ⟨id, hstart, locate_of_place? hbody⟩

/-- What enters other states has a way back for each place where it goes on. -/
theorem exists_back (h : program.Drafted entry d) (ho : (spot, order) ∈ program.orders)
    (henters : order.enters = true) {next : Option Spot} (hnext : next ∈ order.nexts) :
    ∃ back, d.recipes[Recipe.act .noop (program.numbering.target next)]? = some back := by
  have hstop : order ≠ .stop := by
    rintro rfl
    cases henters
  obtain ⟨r, id, hr, hrecipe, -⟩ := h.exists_recipe ho hstop
  obtain ⟨callee, t, rfl⟩ := hr.enters_iff.mp henters
  obtain ⟨-, -, -, back, -, hback, -⟩ := h.exact.wellFormed.yields hrecipe
  have htarget : program.numbering.target next ∈ (Recipe.enter callee t).targets :=
    hr.targets ▸ List.mem_map_of_mem hnext
  rw [List.mem_singleton.mp htarget]
  exact ⟨back, hback⟩

/-- Two instructions have the same state if and only if they ask for the same recipe. -/
theorem stateOf_eq_iff (h : program.Drafted entry d) (ho : (spot, order) ∈ program.orders)
    (ho' : (spot', order') ∈ program.orders) (hstop : order ≠ .stop) (hstop' : order' ≠ .stop) :
    program.stateOf d spot = program.stateOf d spot' ↔
      ∃ r, order.MadeBy program.numbering d r ∧ order'.MadeBy program.numbering d r := by
  obtain ⟨r, id, hr, hrecipe, hid⟩ := h.exists_recipe ho hstop
  obtain ⟨r', id', hr', hrecipe', hid'⟩ := h.exists_recipe ho' hstop'
  rw [hid, hid', Option.some.injEq]
  constructor
  · rintro rfl
    exact ⟨r, hr, h.exact.recipe_inj hrecipe hrecipe' ▸ hr'⟩
  · rintro ⟨r₀, hr₀, hr₀'⟩
    rw [hr.eq h.exact hr₀] at hrecipe
    rw [hr'.eq h.exact hr₀', hrecipe] at hrecipe'
    exact Option.some.inj hrecipe'

theorem acts (h : program.Drafted entry d) {action action' : Action} {next next' : Option Spot}
    (ho : (spot, .act action next) ∈ program.orders)
    (ho' : (spot', .act action' next') ∈ program.orders) :
    program.stateOf d spot = program.stateOf d spot' ↔ action = action' ∧ next = next' := by
  rw [h.stateOf_eq_iff ho ho' (by simp) (by simp)]
  constructor
  · rintro ⟨r, hr, hr'⟩
    obtain ⟨haction, hnext⟩ :=
      Recipe.act.inj ((Order.madeBy_act.mp hr).symm.trans (Order.madeBy_act.mp hr'))
    exact ⟨haction, h.target_inj (h.aims_nexts ho next (by simp [Order.nexts])) hnext⟩
  · rintro ⟨rfl, rfl⟩
    exact ⟨_, .act, .act⟩

theorem checks (h : program.Drafted entry d) {marked marked' blank blank' : Option Spot}
    (ho : (spot, .check marked blank) ∈ program.orders)
    (ho' : (spot', .check marked' blank') ∈ program.orders) :
    program.stateOf d spot = program.stateOf d spot' ↔ marked = marked' ∧ blank = blank' := by
  rw [h.stateOf_eq_iff ho ho' (by simp) (by simp)]
  constructor
  · rintro ⟨r, hr, hr'⟩
    obtain ⟨hmarked, hblank⟩ :=
      Recipe.check.inj ((Order.madeBy_check hr).symm.trans (Order.madeBy_check hr'))
    exact ⟨h.target_inj (h.aims_nexts ho marked (by simp [Order.nexts])) hmarked,
      h.target_inj (h.aims_nexts ho blank (by simp [Order.nexts])) hblank⟩
  · rintro ⟨rfl, rfl⟩
    obtain ⟨r, id, hr, -, -⟩ := h.exists_recipe ho (by simp)
    exact ⟨r, hr, hr⟩

theorem calls (h : program.Drafted entry d) {callee callee' : Option (List Key)}
    {next next' : Option Spot} (ho : (spot, .call callee next) ∈ program.orders)
    (ho' : (spot', .call callee' next') ∈ program.orders) :
    program.stateOf d spot = program.stateOf d spot' ↔ callee = callee' ∧ next = next' := by
  rw [h.stateOf_eq_iff ho ho' (by simp) (by simp)]
  constructor
  · rintro ⟨r, hr, hr'⟩
    obtain ⟨path, e, rfl, hstate, rfl⟩ := Order.madeBy_call hr
    obtain ⟨path', e', rfl, hstate', heq⟩ := Order.madeBy_call hr'
    obtain ⟨rfl, hnext⟩ := Recipe.enter.inj heq
    exact ⟨congrArg some (h.body_inj hstate hstate'),
      h.target_inj (h.aims_nexts ho next (by simp [Order.nexts])) hnext⟩
  · rintro ⟨rfl, rfl⟩
    obtain ⟨r, id, hr, -, -⟩ := h.exists_recipe ho (by simp)
    exact ⟨r, hr, hr⟩

theorem groups (h : program.Drafted entry d) {first first' : Spot} {members members' : Nat}
    {next next' : Option Spot} (ho : (spot, .group first members next) ∈ program.orders)
    (ho' : (spot', .group first' members' next') ∈ program.orders) :
    program.stateOf d spot = program.stateOf d spot' ↔
      program.stateOf d first = program.stateOf d first' ∧ next = next' := by
  rw [h.stateOf_eq_iff ho ho' (by simp) (by simp)]
  constructor
  · rintro ⟨r, hr, hr'⟩
    obtain ⟨e, hplace, rfl⟩ := Order.madeBy_group.mp hr
    obtain ⟨e', hplace', heq⟩ := Order.madeBy_group.mp hr'
    obtain ⟨rfl, hnext⟩ := Recipe.enter.inj heq
    exact ⟨hplace.trans hplace'.symm,
      h.target_inj (h.aims_nexts ho next (by simp [Order.nexts])) hnext⟩
  · rintro ⟨hfirst, rfl⟩
    obtain ⟨r, id, hr, -, -⟩ := h.exists_recipe ho (by simp)
    obtain ⟨e, hplace, rfl⟩ := Order.madeBy_group.mp hr
    exact ⟨_, hr, Order.madeBy_group.mpr ⟨e, hfirst.symm.trans hplace, rfl⟩⟩

theorem stateOf_ne_halt (h : program.Drafted entry d) (ho : (spot, order) ∈ program.orders)
    (hstop : order ≠ .stop) : program.stateOf d spot ≠ some .halt := by
  obtain ⟨r, id, -, hrecipe, hid⟩ := h.exists_recipe ho hstop
  obtain ⟨s, hs, -⟩ := h.exact.wellFormed.yields hrecipe
  rw [hid]
  rintro ⟨⟩
  cases hs

/-- What enters other states is never shared with what does not. -/
theorem enters_apart (h : program.Drafted entry d) (ho : (spot, order) ∈ program.orders)
    (ho' : (spot', order') ∈ program.orders) (henters : order.enters = true)
    (hplain : order'.enters = false) : program.stateOf d spot ≠ program.stateOf d spot' := by
  have hstop : order ≠ .stop := by
    rintro rfl
    cases henters
  intro heq
  rcases h.stateOf_eq ho' with ⟨-, hhalt⟩ | ⟨r', id', hr', -, -⟩
  · exact h.stateOf_ne_halt ho hstop (heq.trans hhalt)
  · have hstop' : order' ≠ .stop := by
      rintro rfl
      cases hr'
    obtain ⟨r, hr, hr'⟩ := (h.stateOf_eq_iff ho ho' hstop hstop').mp heq
    rw [hr'.enters_iff.mpr (hr.enters_iff.mp henters)] at hplain
    cases hplain

theorem ne_stop (h : program.Drafted entry d) (ho : (spot, order) ∈ program.orders)
    (hne : program.stateOf d spot ≠ some .halt) : order ≠ .stop := by
  rintro rfl
  rcases h.stateOf_eq ho with ⟨-, hhalt⟩ | ⟨r, id, hr, -, -⟩
  · exact hne hhalt
  · cases hr

/-- Two instructions that share a state go on alike. -/
theorem nexts_eq (h : program.Drafted entry d) (ho : (spot, order) ∈ program.orders)
    (ho' : (spot', order') ∈ program.orders) (hne : program.stateOf d spot ≠ some .halt)
    (heq : program.stateOf d spot = program.stateOf d spot') : order.nexts = order'.nexts := by
  obtain ⟨r, hr, hr'⟩ :=
    (h.stateOf_eq_iff ho ho' (h.ne_stop ho hne) (h.ne_stop ho' (heq ▸ hne))).mp heq
  exact h.nexts_inj (h.aims_nexts ho) (hr.targets.symm.trans hr'.targets)

/-- The first of several members of a group goes on at another member. -/
theorem exists_mem_nexts (h : program.Drafted entry d) {r : Row} {i : Instruction} {k : Nat}
    (hgroup : r.group = some k) (hlt : 1 < r.numbered.length)
    (ho : (spot, r.order 0 i) ∈ program.orders)
    (hne : program.stateOf d spot ≠ some .halt) : ∃ t, some t ∈ (r.order 0 i).nexts := by
  obtain ⟨t, ht⟩ := Row.exists_next (i := i) hgroup hlt
  obtain ⟨recipe, -, hmade, -, -⟩ := h.exists_recipe ho (h.ne_stop ho hne)
  unfold Row.order at hmade ⊢
  split at hmade
  · exact ⟨t, by simp [Order.nexts, ht]⟩
  · cases hmade
  · rename_i ifMarked otherwise _
    cases hmarked : r.target ifMarked with
    | none =>
        rw [hmarked] at hmade
        cases hmade
    | some t => exact ⟨t, by simp [Order.nexts]⟩
  · exact ⟨t, by simp [Order.nexts, ht]⟩
  · exact ⟨t, by simp [Order.nexts, ht]⟩

/-- Groups of several members have states of their own: their first members go on at different
second ones. -/
theorem groups_apart (h : program.Drafted entry d) {first first' : Spot} {members members' : Nat}
    {next next' : Option Spot} (ho : (spot, .group first members next) ∈ program.orders)
    (ho' : (spot', .group first' members' next') ∈ program.orders) (hmany : 2 ≤ members)
    (heq : program.stateOf d spot = program.stateOf d spot') : spot = spot' := by
  have hgroup : spot.group = none := (h.made _ _ ho).1
  have hgroup' : spot'.group = none := (h.made _ _ ho').1
  have hfirst := ((h.groups ho ho').mp heq).1
  obtain ⟨r, hr, hpath, hplace, hlength, rfl⟩ := exists_row_of_group ho hgroup
  obtain ⟨r', hr', hpath', hplace', -, rfl⟩ := exists_row_of_group ho' hgroup'
  -- the state of the first members is entered, so it is not halt
  obtain ⟨recipe, id, hrecipe, hid, -⟩ := h.exists_recipe ho (by simp)
  obtain ⟨e, he, rfl⟩ := Order.madeBy_group.mp hrecipe
  obtain ⟨-, -, s, -, hs, -, -⟩ := h.exact.wellFormed.yields hid
  have hne : program.stateOf d (r.spot 0) ≠ some .halt := by
    intro hhalt
    cases he.symm.trans hhalt
    cases hs
  have hlt : 0 < r.numbered.length := by omega
  have hmember : (r.spot 0, r.order 0 r.numbered[0].2) ∈ program.orders :=
    mem_orders.mpr ⟨r, hr, 0, r.numbered[0].1, r.numbered[0].2, by simp [hlt], rfl, rfl⟩
  obtain ⟨order', hmember'⟩ := h.exists_order (hfirst.symm.trans he)
  have hnexts := h.nexts_eq hmember hmember' hne hfirst
  obtain ⟨t, ht⟩ := h.exists_mem_nexts hplace (by omega) hmember hne
  obtain ⟨htpath, htgroup⟩ := nexts_home hmember ht
  obtain ⟨htpath', htgroup'⟩ := nexts_home hmember' (hnexts ▸ ht)
  -- both groups are where that member stands
  have hsame : spot.path = spot'.path := by
    rw [← hpath, ← hpath']
    exact htpath.symm.trans htpath'
  have hplaces : some spot.place = some spot'.place := by
    rw [← hplace, ← hplace']
    exact htgroup.symm.trans htgroup'
  cases spot
  cases spot'
  simp_all

end Drafted

/-- States are shared between instructions that ask for the same, and between no others. -/
structure Shared (program : Scope) (d : Draft) : Prop where
  /-- No state stands twice. -/
  states : d.states.toList.Nodup
  /-- A recipe leads to the one state that it describes. -/
  describes : ∀ (r : Recipe) (id : StateId), d.recipes[r]? = some id →
    ∀ id', d.Describes id' r ↔ id' = id
  recipes : ∀ (r r' : Recipe) (id : StateId), d.recipes[r]? = some id →
    d.recipes[r']? = some id → r = r'
  /-- The states with a return are those that were made to enter others. -/
  returns : ∀ id s, d.state? id = some s →
    (s.returnTo.isSome ↔ ∃ entry next, d.recipes[Recipe.enter entry next]? = some id)
  placed : ∀ spot order, (spot, order) ∈ program.orders → (program.stateOf d spot).isSome
  acts : ∀ spot spot' action action' next next',
    (spot, .act action next) ∈ program.orders → (spot', .act action' next') ∈ program.orders →
    (program.stateOf d spot = program.stateOf d spot' ↔ action = action' ∧ next = next')
  checks : ∀ spot spot' marked marked' blank blank',
    (spot, .check marked blank) ∈ program.orders →
    (spot', .check marked' blank') ∈ program.orders →
    (program.stateOf d spot = program.stateOf d spot' ↔ marked = marked' ∧ blank = blank')
  calls : ∀ spot spot' callee callee' next next',
    (spot, .call callee next) ∈ program.orders → (spot', .call callee' next') ∈ program.orders →
    (program.stateOf d spot = program.stateOf d spot' ↔ callee = callee' ∧ next = next')
  groups : ∀ spot spot' first first' members members' next next',
    (spot, .group first members next) ∈ program.orders →
    (spot', .group first' members' next') ∈ program.orders →
    (program.stateOf d spot = program.stateOf d spot' ↔
      program.stateOf d first = program.stateOf d first' ∧ next = next')
  /-- Groups of two or more members share no state. -/
  groups_apart : ∀ spot spot' first first' members members' next next',
    (spot, .group first members next) ∈ program.orders →
    (spot', .group first' members' next') ∈ program.orders → 2 ≤ members → spot ≠ spot' →
    program.stateOf d spot ≠ program.stateOf d spot'
  enters_apart : ∀ spot spot' order order', (spot, order) ∈ program.orders →
    (spot', order') ∈ program.orders → order.enters = true → order'.enters = false →
    program.stateOf d spot ≠ program.stateOf d spot'

theorem Drafted.nodup_states (h : program.Drafted entry d) : d.states.toList.Nodup := by
  rw [List.nodup_iff_getElem?_ne_getElem?]
  intro i j hij hj heq
  have hstate : ∀ k, d.state? (.slot k) = d.states.toList[k]? := fun k => by simp [state?]
  rw [← hstate, ← hstate] at heq
  have hsome : d.state? (.slot j) = some d.states.toList[j] := by rw [hstate]; simp
  have hslots := h.exact.distinct _ _ _ (heq.trans hsome) hsome
  exact Nat.ne_of_lt hij (StateId.slot.inj hslots)

theorem Drafted.shared (h : program.Drafted entry d) : program.Shared d where
  states := h.nodup_states
  describes := by
    intro r id hr id'
    obtain ⟨s, hs, hyields⟩ := h.exact.wellFormed.yields hr
    constructor
    · intro hdescribes
      obtain ⟨s', hs', hyields'⟩ := describes_iff.mp hdescribes
      rw [hyields'.eq hyields] at hs'
      exact h.exact.distinct _ _ _ hs' hs
    · rintro rfl
      exact h.exact.wellFormed.recipes r id' hr
  recipes := fun r r' id hr hr' => h.exact.recipe_inj hr hr'
  returns := by
    intro id s hs
    constructor
    · intro hreturn
      rcases h.exact.origin id s hs with ⟨r, hr⟩ | ⟨path, -, rfl⟩
      · have hyields := h.exact.wellFormed.yields_state? hr hs
        obtain ⟨entry, next, rfl⟩ := hyields.isSome_returnTo.mp hreturn
        exact ⟨entry, next, hr⟩
      · cases hreturn
    · rintro ⟨entry, next, hr⟩
      have hyields := h.exact.wellFormed.yields_state? hr hs
      exact hyields.isSome_returnTo.mpr ⟨entry, next, rfl⟩
  placed := by
    intro spot order ho
    obtain ⟨-, id, hid, -⟩ := h.made spot order ho
    rw [stateOf, hid]
    rfl
  acts := fun _ _ _ _ _ _ ho ho' => h.acts ho ho'
  checks := fun _ _ _ _ _ _ ho ho' => h.checks ho ho'
  calls := fun _ _ _ _ _ _ ho ho' => h.calls ho ho'
  groups := fun _ _ _ _ _ _ _ _ ho ho' => h.groups ho ho'
  groups_apart := fun _ _ _ _ _ _ _ _ ho ho' hmany hne heq =>
    hne (h.groups_apart ho ho' hmany heq)
  enters_apart := fun _ _ _ _ ho ho' henters hplain => h.enters_apart ho ho' henters hplain

/-- The states of a compiled program, just before its labels are replaced, are shared exactly. -/
theorem compile_shares {program : Scope} {a : Automaton} (hkeys : program.WellKeyed)
    (h : program.compile = .ok a) :
    ∃ d, Build.scope program [] {} = .ok a.entry d ∧ d.link = .ok a.graph ∧ program.Shared d := by
  obtain ⟨entry, d, hbuild, rfl⟩ := compile_eq_ok h
  exact ⟨d, hbuild, (Build.program_completed hbuild).link_eq_ok,
    (drafted_of_build hkeys hbuild).shared⟩

/-- Two moves to the right that go on at the fifth instruction, and two groups that look alike. -/
def twins : Scope :=
  .instr "1" { command := .act (.move .right), next := some 5 }
    (.instr "2" { command := .act (.move .right), next := some 5 }
      (.instr "3" { command := .group [
          { command := .act .noop },
          { command := .act .noop }], next := some 5 }
        (.instr "4" { command := .group [
            { command := .act .noop },
            { command := .act .noop }] }
          (.instr "5" { command := .stop } .nil))))

/-- The two moves share a state, and the two groups do not. -/
theorem twins_shared :
    twins.WellKeyed ∧ ∃ a d, twins.compile = .ok a ∧ Build.scope twins [] {} = .ok a.entry d ∧
      twins.Shared d ∧
      twins.stateOf d { path := [], place := 0 } = twins.stateOf d { path := [], place := 1 } ∧
      twins.stateOf d { path := [], place := 2 } ≠ twins.stateOf d { path := [], place := 3 } := by
  have hkeys : twins.WellKeyed := by decide
  have hcompiles : twins.compile.toOption.isSome := by decide +kernel
  cases h : twins.compile with
  | error e =>
      rw [h] at hcompiles
      cases hcompiles
  | ok a =>
      obtain ⟨d, hbuild, -, hshared⟩ := compile_shares hkeys h
      refine ⟨hkeys, a, d, rfl, hbuild, hshared, ?_, ?_⟩
      · refine (hshared.acts _ _ (.move .right) (.move .right) (some { path := [], place := 4 })
          (some { path := [], place := 4 }) ?_ ?_).mpr ⟨rfl, rfl⟩
        · decide +kernel
        · decide +kernel
      · refine hshared.groups_apart _ _ { path := [], group := some 2, place := 0 }
          { path := [], group := some 3, place := 0 } 2 2 (some { path := [], place := 4 })
          (some { path := [], place := 4 }) ?_ ?_ (by decide) (by decide)
        · decide +kernel
        · decide +kernel

end Scope

end TapeMachine
