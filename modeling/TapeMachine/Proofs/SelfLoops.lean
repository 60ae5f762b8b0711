import TapeMachine.Proofs.Blueprint
import TapeMachine.Proofs.Flow
import TapeMachine.Proofs.Rules

/-!
# No state goes straight back to itself

The rules forbid an instruction that goes on at its own index. They compare indices
only, and a state may stand for several instructions, each of which goes on at the
state of another. Sharing nevertheless brings no state to go on at itself. If it did,
then an instruction that has the state would be the one at which the state goes on, and
since all instructions that share a state go on alike, it would go on at itself.

What a state enters is another matter. A body that begins with a call of itself is
entered at the very state that enters it, and this is the only state of a compiled
program that leads to itself.
-/

namespace TapeMachine

open Draft

/-! ## Instructions that keep the rules -/

theorem Instruction.Plain.targets_eq_nil {i : Instruction} (h : i.Plain) : i.targets = [] := by
  obtain ⟨hnext, ⟨action, hcommand⟩ | ⟨name, hcommand⟩⟩ := h
  · simp [targets, hnext, hcommand]
  · simp [targets, hnext, hcommand]

namespace Row

/-- No instruction of the row gives its own index to go on at, and none is followed by one with its
own index. -/
structure Onward (r : Row) : Prop where
  targets : ∀ p ∈ r.numbered, p.1 ∉ p.2.targets
  following : (r.numbered.map Prod.fst).IsChain (· ≠ ·)

variable {r : Row} {place : Nat} {index : Index} {i : Instruction}

theorem Onward.following_ne (h : r.Onward) (hplace : r.numbered[place]? = some (index, i)) :
    r.following place ≠ some index := by
  intro hfollowing
  obtain ⟨p, hnext, hindex⟩ := Option.map_eq_some_iff.mp hfollowing
  obtain ⟨hlt, hp⟩ := List.getElem?_eq_some_iff.mp hnext
  obtain ⟨hlt', hi⟩ := List.getElem?_eq_some_iff.mp hplace
  have hne := List.isChain_iff_getElem.mp h.following place (by simpa using hlt)
  simp only [List.getElem_map, hp, hi] at hne
  exact hne hindex.symm

/-- The index of a place that is the target of it is its own. -/
theorem eq_of_target_eq {target : Index} (hplace : r.numbered[place]? = some (index, i))
    (h : r.target target = some (r.spot place)) : target = index := by
  obtain ⟨place', hfind, hspot⟩ := target_eq_some.mp h
  cases congrArg Spot.place hspot
  obtain ⟨hlt, hp, -⟩ := List.findIdx?_eq_some_iff_getElem.mp hfind
  obtain ⟨_, hi⟩ := List.getElem?_eq_some_iff.mp hplace
  have hindex : (r.numbered[place]).1 = target := of_decide_eq_true hp
  rw [← hindex, hi]

theorem Onward.next_ne (h : r.Onward) (hplace : r.numbered[place]? = some (index, i)) :
    r.next place i ≠ some (r.spot place) := by
  have hgiven : i.next ≠ some index := by
    intro hnext
    exact h.targets _ (List.mem_of_getElem? hplace) (by simp [Instruction.targets, hnext])
  intro hself
  unfold next at hself
  split at hself
  · obtain ⟨target, hgoes, htarget⟩ := Option.bind_eq_some_iff.mp hself
    cases eq_of_target_eq hplace htarget
    rw [Option.orElse_eq_orElse, Option.orElse_eq_or, Option.or_eq_some_iff] at hgoes
    rcases hgoes with hnext | ⟨-, hfollowing⟩
    · exact hgiven hnext
    · exact h.following_ne hplace hfollowing
  · obtain ⟨target, hfollowing, htarget⟩ := Option.bind_eq_some_iff.mp hself
    cases eq_of_target_eq hplace htarget
    exact h.following_ne hplace hfollowing

theorem Onward.not_mem_nexts (h : r.Onward) (hplace : r.numbered[place]? = some (index, i)) :
    some (r.spot place) ∉ (r.order place i).nexts := by
  have hnext := (h.next_ne hplace).symm
  have htargets := h.targets _ (List.mem_of_getElem? hplace)
  unfold order
  split
  · simpa [Order.nexts] using hnext
  · simp [Order.nexts]
  · rename_i ifMarked otherwise hcommand
    simp only [Order.nexts, List.mem_cons, List.not_mem_nil, or_false]
    rintro (hself | hself)
    · exact htargets (by simp [Instruction.targets, hcommand, eq_of_target_eq hplace hself.symm])
    · exact htargets (by simp [Instruction.targets, hcommand, eq_of_target_eq hplace hself.symm])
  · simpa [Order.nexts] using hnext
  · simpa [Order.nexts] using hnext

end Row

/-! ## All rows of a program -/

namespace Scope

theorem onward_rowsWith {bodies : Names → List Row} {s : Scope} {visible path : List Key}
    {outer : Names} (hlawful : Lawful visible s.numbered)
    (hbodies : ∀ names, ∀ r ∈ bodies names, r.Onward) :
    ∀ r ∈ rowsWith bodies s path outer, r.Onward := by
  intro r hr
  simp only [rowsWith, List.mem_append, List.mem_cons] at hr
  rcases hr with hr | rfl | hr
  · exact hbodies _ r hr
  · refine ⟨fun p hp hself => ?_, List.Pairwise.isChain hlawful.nodup⟩
    exact (Instruction.targets_of_check (hlawful.check p hp) p.1 hself).1 rfl
  · simp only [Row.groups, List.mem_flatMap, List.mem_zipIdx_iff_getElem?] at hr
    obtain ⟨⟨⟨index, command, next⟩, place⟩, hplace, hinside⟩ := hr
    obtain ⟨members, hcommand, rfl⟩ := Row.mem_inside.mp hinside
    cases hcommand
    obtain ⟨-, hmembers, -⟩ := hlawful.group (List.mem_of_getElem? hplace)
    refine ⟨fun p hp => ?_, numberMembers_isChain members⟩
    have hmem : p.2 ∈ members := by
      rw [← map_snd_numberMembers members]
      exact List.mem_map_of_mem hp
    rw [(hmembers _ hmem).1.targets_eq_nil]
    exact List.not_mem_nil

theorem onward_bodyRows (s : Scope) {visible path : List Key} {names : Names}
    (h : ∀ p ∈ s.subroutines, p.2.check visible = .ok ()) :
    ∀ r ∈ s.bodyRows path names, r.Onward := by
  induction s generalizing visible path names with
  | nil => simp [bodyRows]
  | instr key i rest ih => exact ih h
  | sub name body rest ihbody ihrest =>
      rw [subroutines, List.forall_mem_cons] at h
      obtain ⟨-, -, hlawful, hinner⟩ := check_eq_ok_iff.mp h.1
      intro r hr
      rw [bodyRows, List.mem_append] at hr
      rcases hr with hr | hr
      · exact onward_rowsWith hlawful (fun _ => ihbody hinner) r hr
      · exact ihrest h.2 r hr

/-- No instruction of a program that keeps the rules goes on at itself. -/
theorem not_mem_nexts_self {program : Scope} (h : program.check [] = .ok ()) {spot : Spot}
    {order : Order} (ho : (spot, order) ∈ program.orders) : some spot ∉ order.nexts := by
  obtain ⟨-, -, hlawful, hinner⟩ := check_eq_ok_iff.mp h
  obtain ⟨r, hr, place, index, i, hplace, rfl, rfl⟩ := mem_orders.mp ho
  have honward := onward_rowsWith hlawful (fun _ => program.onward_bodyRows hinner) r hr
  exact honward.not_mem_nexts hplace

end Scope

/-! ## States of a compiled program -/

namespace Scope.Drafted

variable {program : Scope} {entry : StateId} {d : Draft} {spot : Spot} {order : Order}
  {id id' : StateId} {r : Recipe}

/-- An instruction that has the state of a recipe asks for this recipe. -/
theorem madeBy_of_stateOf (h : program.Drafted entry d) (hid : program.stateOf d spot = some id)
    (hr : d.recipes[r]? = some id) (ho : (spot, order) ∈ program.orders) :
    order.MadeBy program.numbering d r := by
  rcases h.stateOf_eq ho with ⟨-, hhalt⟩ | ⟨r', id', hmade, hrecipe, hid'⟩
  · cases hid.symm.trans hhalt
    exact absurd hr h.recipe_ne_halt
  · cases hid.symm.trans hid'
    exact h.exact.recipe_inj hr hrecipe ▸ hmade

/-- What a recipe goes on at is the state of an instruction or halt. -/
theorem locate_cases (h : program.Drafted entry d) (hr : d.recipes[r]? = some id) {t : Target}
    (ht : t ∈ r.targets) :
    d.locate t = .halt ∨ ∃ next order, t = program.numbering.target (some next) ∧
      (next, order) ∈ program.orders ∧ program.stateOf d next = some (d.locate t) := by
  have haims := h.aims_targets hr t ht
  obtain ⟨next, rfl⟩ := h.exact.targets r id hr t ht
  cases next with
  | none => exact Or.inl rfl
  | some next =>
      obtain ⟨id', hid'⟩ := h.exists_stateOf haims
      obtain ⟨order, ho⟩ := h.exists_order hid'
      exact Or.inr ⟨next, order, rfl, ho, by rw [hid', locate_target hid']⟩

theorem mem_nexts_of_target (h : program.Drafted entry d) (hr : d.recipes[r]? = some id)
    (hmade : order.MadeBy program.numbering d r) {next : Option Spot}
    (hnext : program.numbering.target next ∈ r.targets) : next ∈ order.nexts := by
  have haims := h.aims_targets hr _ hnext
  rw [hmade.targets, List.mem_map] at hnext
  obtain ⟨next', hmem, htarget⟩ := hnext
  exact h.target_inj haims htarget.symm ▸ hmem

/-- A state that was made by a recipe does not go on at itself. -/
theorem locate_ne (h : program.Drafted entry d) (hcheck : program.check [] = .ok ())
    (hr : d.recipes[r]? = some id) {t : Target} (ht : t ∈ r.targets) : d.locate t ≠ id := by
  intro hself
  rcases h.locate_cases hr ht with hhalt | ⟨next, order, rfl, ho, hid⟩
  · exact h.recipe_ne_halt (hself.symm.trans hhalt ▸ hr)
  · -- the instruction there has the state and so goes on where the recipe does
    have hmade := h.madeBy_of_stateOf (hself ▸ hid) hr ho
    exact not_mem_nexts_self hcheck ho (h.mem_nexts_of_target hr hmade ht)

/-- A state without a return leads to where its recipe goes on. -/
theorem exists_target_of_leads (h : program.Drafted entry d) (hr : d.recipes[r]? = some id)
    {s : State Target} (hs : d.state? id = some s) (hreturn : s.returnTo = none)
    (hleads : d.graph.Leads id id') : ∃ t ∈ r.targets, d.locate t = id' := by
  have hwf := h.exact.wellFormed
  cases r with
  | act action next => exact ⟨next, by simp [Recipe.targets], ((hwf.leads_act hr).mp hleads).symm⟩
  | check marked blank =>
      rcases (hwf.leads_check hr).mp hleads with rfl | rfl
      · exact ⟨marked, by simp [Recipe.targets], rfl⟩
      · exact ⟨blank, by simp [Recipe.targets], rfl⟩
  | enter callee next =>
      have hsome := (hwf.yields_state? hr hs).isSome_returnTo.mpr ⟨callee, next, rfl⟩
      simp [hreturn] at hsome

/-- The entry of a subroutine is not the state of an instruction. -/
theorem stateOf_ne_of_entryState (h : program.Drafted entry d) {path : List Key}
    (hstate : d.state? id = some (entryState (program.numbering.label (.body path)))) :
    program.stateOf d spot ≠ some id := by
  intro hid
  obtain ⟨order, ho⟩ := h.exists_order hid
  rcases h.stateOf_eq ho with ⟨-, hhalt⟩ | ⟨r, id', -, hrecipe, hid'⟩
  · cases hid.symm.trans hhalt
    cases hstate
  · cases hid.symm.trans hid'
    exact h.not_recipe_of_entryState hstate hrecipe

theorem not_leads_self (h : program.Drafted entry d) (hcheck : program.check [] = .ok ())
    {s : State Target} (hs : d.state? id = some s) (hreturn : s.returnTo = none) :
    ¬ d.graph.Leads id id := by
  intro hself
  rcases h.exact.origin id s hs with ⟨r, hr⟩ | ⟨path, -, rfl⟩
  · obtain ⟨t, ht, hlocate⟩ := h.exists_target_of_leads hr hs hreturn hself
    exact h.locate_ne hcheck hr ht hlocate
  · obtain ⟨start, hstart, hlocate⟩ := h.locate_body hs
    rw [leads_entryState hs, hlocate] at hself
    exact h.stateOf_ne_of_entryState hs (hself ▸ hstart)

/-! ## States that enter others -/

variable {callee : StateId} {t : Target}

/-- What is entered is the entry of a subroutine or the state of the first member of a group. -/
theorem exists_entered (h : program.Drafted entry d)
    (hr : d.recipes[Recipe.enter callee t]? = some id) :
    (∃ path, d.state? callee = some (entryState (program.numbering.label (.body path)))) ∨
      ∃ spot first members next, (spot, .group first members next) ∈ program.orders ∧
        program.stateOf d first = some callee := by
  obtain ⟨spot, order, r', ho, hmade, hpart⟩ := h.demanded _ _ hr
  rcases Recipe.mem_parts_cases hpart with rfl | ⟨_, _, -, hnoop⟩
  · cases hmade with
    | call hstate => exact Or.inl ⟨_, hstate⟩
    | group hplace => exact Or.inr ⟨_, _, _, _, ho, hplace⟩
  · cases hnoop

/-- If the entry of a subroutine goes on at a state that enters it, then the body begins with a call
of the subroutine. -/
theorem exists_call_of_leads (h : program.Drafted entry d) {path : List Key}
    (hstate : d.state? callee = some (entryState (program.numbering.label (.body path))))
    (hr : d.recipes[Recipe.enter callee t]? = some id) (hleads : d.graph.Leads callee id) :
    ∃ next, (.start path, .call (some path) next) ∈ program.orders ∧
      program.stateOf d (.start path) = some id := by
  obtain ⟨start, hstart, hlocate⟩ := h.locate_body hstate
  rw [leads_entryState hstate, hlocate] at hleads
  subst hleads
  obtain ⟨order, ho⟩ := h.exists_order hstart
  cases h.madeBy_of_stateOf hstart hr ho with
  | call hstate' =>
      cases h.body_inj hstate hstate'
      exact ⟨_, ho, hstart⟩
  | group hplace => exact absurd hplace (h.stateOf_ne_of_entryState hstate)

/-- The first member of a group does not go on at a state that enters it: there it would find a
call, which enters a body, or a group within the group. -/
theorem not_leads_of_group (h : program.Drafted entry d) {first : Spot} {members : Nat}
    {next : Option Spot} (ho : (spot, .group first members next) ∈ program.orders)
    (hfirst : program.stateOf d first = some callee) {s : State Target}
    (hs : d.state? callee = some s) (hreturn : s.returnTo = none)
    (hr : d.recipes[Recipe.enter callee t]? = some id) : ¬ d.graph.Leads callee id := by
  intro hleads
  obtain ⟨order, hmember⟩ := h.exists_order hfirst
  rcases h.stateOf_eq hmember with ⟨-, hhalt⟩ | ⟨r, callee', hmade, hrecipe, hcallee⟩
  · cases hfirst.symm.trans hhalt
    cases hs
  · cases hfirst.symm.trans hcallee
    obtain ⟨t', ht', rfl⟩ := h.exists_target_of_leads hrecipe hs hreturn hleads
    rcases h.locate_cases hrecipe ht' with hhalt | ⟨member, order', rfl, ho', hid⟩
    · exact h.recipe_ne_halt (hhalt ▸ hr)
    · cases h.madeBy_of_stateOf hid hr ho' with
      | call hstate => exact h.stateOf_ne_of_entryState hstate hfirst
      | group _ =>
          have hnone : member.group = none := (h.made _ _ ho').1
          obtain ⟨r, -, -, hgroup, -, rfl⟩ := exists_row_of_group ho (h.made _ _ ho).1
          have hhome := nexts_home hmember (h.mem_nexts_of_target hrecipe hmade ht')
          cases hnone.symm.trans (hhome.2.trans hgroup)

/-- The states that lead to themselves are those of a call of the body that begins with it. -/
theorem leads_self_iff (h : program.Drafted entry d) (hcheck : program.check [] = .ok ()) :
    d.graph.Leads id id ↔
      ∃ path next, (.start path, .call (some path) next) ∈ program.orders ∧
        program.stateOf d (.start path) = some id := by
  have hwf := h.exact.wellFormed
  constructor
  · intro hself
    obtain ⟨s, hs, -⟩ := leads_graph.mp hself
    have hreturn : s.returnTo.isSome := by
      rw [Option.isSome_iff_ne_none]
      exact fun hnone => h.not_leads_self hcheck hs hnone hself
    obtain ⟨callee, t, hr⟩ := (h.shared.returns id s hs).mp hreturn
    obtain ⟨s₀, back, hs₀, hback, hleads⟩ := hwf.leads_enter hr
    rcases (hleads id).mp hself with rfl | hinner
    · -- the way back goes on where the recipe does
      have hgoes := (hback id).mp hself
      exact absurd hgoes.symm (h.locate_ne hcheck hr (by simp [Recipe.targets]))
    · split at hinner
      · exact absurd (h.exact.older _ _ _ hr) (hinner ▸ Nat.lt_irrefl _)
      · rename_i hplain
        rcases h.exists_entered hr with ⟨path, hstate⟩ | ⟨spot, first, members, next, ho, hfirst⟩
        · exact ⟨path, h.exists_call_of_leads hstate hr hinner⟩
        · have hnone : s₀.returnTo = none := by simpa using hplain
          exact absurd hinner (h.not_leads_of_group ho hfirst hs₀ hnone hr)
  · rintro ⟨path, next, ho, hid⟩
    obtain ⟨r, id', hmade, hr, hid'⟩ := h.exists_recipe ho (by simp)
    cases hid.symm.trans hid'
    cases hmade with
    | call hstate =>
        obtain ⟨back, -, hleads⟩ := hwf.leads_call hstate hr
        obtain ⟨start, hstart, hlocate⟩ := h.locate_body hstate
        cases hid.symm.trans hstart
        exact (hleads id).mpr (Or.inr hlocate.symm)

end Scope.Drafted

/-! ## Programs -/

namespace Scope

/-- A state of a compiled program that has no return does not lead to itself. Of those with a
return only the states of calls do, and only those that begin the body which they call. -/
theorem compile_no_self_loop {program : Scope} {a : Automaton} (hkeys : program.WellKeyed)
    (h : program.compile = .ok a) :
    (∀ id s, a.graph.state? id = some s → s.returnTo = none → id ∉ a.graph.successors id) ∧
    ∃ d, Build.scope program [] {} = .ok a.entry d ∧ d.link = .ok a.graph ∧
      ∀ id, id ∈ a.graph.successors id ↔
        ∃ path next, (.start path, .call (some path) next) ∈ program.orders ∧
          program.stateOf d (.start path) = some id := by
  have hcheck := exists_compile_iff.mp ⟨a, h⟩
  obtain ⟨entry, d, hbuild, rfl⟩ := compile_eq_ok h
  have hdrafted := drafted_of_build hkeys hbuild
  refine ⟨?_, d, hbuild, (Build.program_completed hbuild).link_eq_ok,
    fun id => hdrafted.leads_self_iff hcheck⟩
  intro id s hs hreturn
  rw [state?_graph] at hs
  obtain ⟨s₀, hs₀, rfl⟩ := Option.map_eq_some_iff.mp hs
  exact hdrafted.not_leads_self hcheck hs₀ (Option.map_eq_none_iff.mp hreturn)

/-- A body that begins with a call of itself, with two moves in it that share a state. -/
def plunge : Scope :=
  .instr "1" { command := .call "f" }
    (.instr "2" { command := .stop }
      (.sub "f"
        (.instr "1" { command := .call "f" }
          (.instr "2" { command := .check 3 4 }
            (.instr "3" { command := .act (.move .right), next := some 5 }
              (.instr "4" { command := .act (.move .right) }
                (.instr "5" { command := .act (.write .mark), next := some 3 } .nil)))))
        .nil))

/-- The state of the moves, which both go on at the fifth instruction, does not lead to itself, and
that of the call at the beginning of the body does. -/
theorem plunge_self_loop :
    plunge.WellKeyed ∧ ∃ a, plunge.compile = .ok a ∧
      (∃ s, a.graph.state? (.slot 4) = some s ∧ s.returnTo = none ∧
        .slot 4 ∉ a.graph.successors (.slot 4)) ∧
      ∃ id, id ∈ a.graph.successors id := by
  have hkeys : plunge.WellKeyed := by decide
  have hmoves : (plunge.compile.toOption.bind (·.graph.state? (.slot 4))).map State.returnTo =
      some none := by decide +kernel
  cases h : plunge.compile with
  | error e =>
      rw [h] at hmoves
      cases hmoves
  | ok a =>
      obtain ⟨hplain, d, hbuild, -, hself⟩ := compile_no_self_loop hkeys h
      rw [h] at hmoves
      obtain ⟨s, hs, hreturn⟩ := Option.map_eq_some_iff.mp hmoves
      have hcall : (.start ["f"], .call (some ["f"]) (some { path := ["f"], place := 1 })) ∈
          plunge.orders := by decide +kernel
      obtain ⟨-, id, hid, -⟩ := (drafted_of_build hkeys hbuild).made _ _ hcall
      exact ⟨hkeys, a, rfl, ⟨s, hs, hreturn, hplain _ s hs hreturn⟩, id,
        (hself id).mpr ⟨["f"], _, hcall, hid⟩⟩

end Scope

end TapeMachine
