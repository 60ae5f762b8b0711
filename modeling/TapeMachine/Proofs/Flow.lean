import Mathlib.Data.Finset.Card
import TapeMachine.Proofs.Cycle
import TapeMachine.Proofs.Sharing

/-!
# Cycles of a compiled program are those of its control flow

The control flow of a program leads from instruction to instruction. A call leads to
the first instruction of the body that it runs and to where it goes on, and a group to
its first member and to where it goes on.

The graph of the compiled program has fewer states than there are instructions, since
states are shared, and it has states of its own, the ways back. Neither adds a cycle or
hides one. What is compared is therefore not walk with walk, but whether all walks from
an instruction come to an end. They do if and only if all walks from its state do.
-/

namespace TapeMachine

open Draft Relation

/-! ## Walks that come to an end -/

/-- Every walk from `a` comes to an end. -/
def Ends {α : Type} (R : α → α → Prop) (a : α) : Prop :=
  Acc (flip R) a

section Walks

variable {α : Type} {R : α → α → Prop} {a b : α}

theorem ends_intro (h : ∀ b, R a b → Ends R b) : Ends R a :=
  Acc.intro a h

theorem Ends.next (h : Ends R a) (hb : R a b) : Ends R b :=
  h.inv hb

theorem Ends.of_reflTransGen (h : Ends R a) (hb : ReflTransGen R a b) : Ends R b := by
  induction hb with
  | refl => exact h
  | tail _ hstep ih => exact ih.next hstep

theorem Ends.transGen (h : Ends R a) : Ends (TransGen R) a := by
  refine Subrelation.accessible (fun hxy => ?_) (Acc.transGen h)
  exact transGen_swap.mpr hxy

theorem Ends.not_rel_self (h : Ends R a) : ¬ R a a := by
  induction h with
  | intro x _ ih => exact fun hx => ih x hx hx

theorem Ends.not_cycle (h : Ends R a) (hb : ReflTransGen R a b) : ¬ TransGen R b b :=
  (h.of_reflTransGen hb).transGen.not_rel_self

/-- Where only finitely many lead anywhere, a walk without an end comes back to itself. -/
theorem ends_of_not_cycle (sources : List α) (hsources : ∀ a b, R a b → a ∈ sources)
    (h : ∀ b, ReflTransGen R a b → ¬ TransGen R b b) : Ends R a := by
  classical
  -- with each step there is less that can still be reached
  let ahead : α → Finset α := fun a => sources.toFinset.filter (ReflTransGen R a)
  induction hn : (ahead a).card using Nat.strong_induction_on generalizing a with
  | _ n ih =>
      refine ends_intro fun b hb => ih (ahead b).card ?_ (fun c hc => ?_) rfl
      · rw [← hn]
        refine Finset.card_lt_card (Finset.ssubset_iff_subset_ne.mpr ⟨?_, ?_⟩)
        · intro c hc
          simp only [ahead, Finset.mem_filter] at hc ⊢
          exact ⟨hc.1, .head hb hc.2⟩
        · intro heq
          have hmem : a ∈ ahead a := by
            simp only [ahead, Finset.mem_filter, List.mem_toFinset]
            exact ⟨hsources a b hb, .refl⟩
          rw [← heq] at hmem
          have hback : ReflTransGen R b a := (Finset.mem_filter.mp hmem).2
          exact h a .refl (TransGen.head' hb hback)
      · exact h c (.head hb hc)

end Walks

namespace Graph

theorem ends_of_settled {g : Graph} {order : List StateId} (h : g.Settled order) {id : StateId}
    (hid : id ∈ order) : Ends g.Leads id := by
  induction order generalizing id with
  | nil => cases hid
  | cons first order ih =>
      obtain ⟨-, hsuccessors, hrest⟩ := h
      rcases List.mem_cons.mp hid with rfl | hid
      · exact ends_intro fun b hb => ih hrest (hsuccessors b hb)
      · exact ih hrest hid

/-- The search finds no cycle if and only if every walk from the entry comes to an end. -/
theorem hasCycleFrom_eq_false_iff {g : Graph} {entry : StateId} :
    g.hasCycleFrom entry = false ↔ Ends g.Leads entry := by
  constructor
  · intro h
    obtain ⟨order, hsettled, hentry⟩ := exists_order_of_hasCycleFrom h
    exact ends_of_settled hsettled hentry
  · intro h
    cases hcycle : g.hasCycleFrom entry with
    | false => rfl
    | true =>
        obtain ⟨id, hreached, hloop⟩ := exists_cycle_of_hasCycleFrom hcycle
        exact absurd hloop (h.not_cycle hreached)

end Graph

/-! ## Control flow -/

/-- The instructions that may come right after one with the order. -/
def Order.successors : Order → List Spot
  | act _ next => next.toList
  | stop => []
  | check marked blank => marked.toList ++ blank.toList
  | call callee next => (callee.map Spot.start).toList ++ next.toList
  | group first _ next => first :: next.toList

/-- An instruction leads to where it goes on and to the first of what it runs. -/
theorem Order.mem_successors {order : Order} {t : Spot} :
    t ∈ order.successors ↔
      some t ∈ order.nexts ∨ (∃ path next, order = .call (some path) next ∧ t = .start path) ∨
        ∃ members next, order = .group t members next := by
  cases order with
  | act action next => simp [successors, nexts, eq_comm]
  | stop => simp [successors, nexts]
  | check marked blank => simp [successors, nexts, eq_comm]
  | call callee next => simp [successors, nexts, eq_comm, or_comm]
  | group first members next => simp [successors, nexts, eq_comm, or_comm]

namespace Scope

def Flows (program : Scope) (a b : Spot) : Prop :=
  ∃ order, (a, order) ∈ program.orders ∧ b ∈ order.successors

/-- A call in the body at `path` that can be reached runs the body at `callee`. -/
def Calls (program : Scope) (path callee : List Key) : Prop :=
  ∃ spot next, spot.path = path ∧ ReflTransGen program.Flows (.start []) spot ∧
    (spot, .call (some callee) next) ∈ program.orders

end Scope

/-! ## States of a draft -/

namespace Draft

variable {d : Draft} {id id' : StateId}

theorem leads_graph :
    d.graph.Leads id id' ↔ ∃ s, d.state? id = some s ∧ ∃ t ∈ s.targets, d.locate t = id' := by
  rw [Graph.Leads, Graph.successors, state?_graph]
  cases hs : d.state? id with
  | none => simp
  | some s =>
      show id' ∈ (s.map d.locate).targets ↔ _
      rw [State.targets_map, List.mem_map]
      simp

theorem not_leads_halt : ¬ d.graph.Leads .halt id := by
  rw [leads_graph]
  rintro ⟨s, hs, -⟩
  cases hs

theorem leads_entryState {l : Label} (h : d.state? id = some (entryState l)) :
    d.graph.Leads id id' ↔ id' = d.locate (.label l) := by
  simp [leads_graph, h, entryState, State.targets, Table.targets, Transition.goto, eq_comm]

namespace WellFormed

theorem leads_act (h : d.WellFormed) {action : Action} {next : Target}
    (hr : d.recipes[Recipe.act action next]? = some id) :
    d.graph.Leads id id' ↔ id' = d.locate next := by
  obtain ⟨s, hs, rfl⟩ := h.yields hr
  rw [leads_graph]
  cases action <;>
    simp [hs, State.targets, Table.targets, Action.transition, Transition.goto, eq_comm]

theorem leads_check (h : d.WellFormed) {marked blank : Target}
    (hr : d.recipes[Recipe.check marked blank]? = some id) :
    d.graph.Leads id id' ↔ id' = d.locate marked ∨ id' = d.locate blank := by
  obtain ⟨s, hs, rfl⟩ := h.yields hr
  simp [leads_graph, hs, State.targets, Table.targets, Transition.goto, eq_comm]

/-- A state that enters another leads there, or to where that leads, and to the way back. -/
theorem leads_enter (h : d.WellFormed) {entry : StateId} {next : Target}
    (hr : d.recipes[Recipe.enter entry next]? = some id) :
    ∃ s back, d.state? entry = some s ∧ (∀ id', d.graph.Leads back id' ↔ id' = d.locate next) ∧
      ∀ id', d.graph.Leads id id' ↔
        id' = back ∨ if s.returnTo.isSome then id' = entry else d.graph.Leads entry id' := by
  obtain ⟨-, hid, s, back, hentry, hback, rfl⟩ := h.yields hr
  refine ⟨s, back, hentry, fun id' => h.leads_act hback, fun id' => ?_⟩
  simp only [leads_graph, hid, hentry, Option.some.injEq, exists_eq_left', State.targets,
    Build.standIn]
  cases hs : s.returnTo with
  | none => simp [locate, or_comm, eq_comm, or_and_right, exists_or]
  | some t => simp [locate, Table.targets, Transition.goto, or_comm, eq_comm]

/-- A state that enters a subroutine leads to the start of its body and to the way back. -/
theorem leads_call (h : d.WellFormed) {entry : StateId} {next : Target} {l : Label}
    (hentry : d.state? entry = some (entryState l))
    (hr : d.recipes[Recipe.enter entry next]? = some id) :
    ∃ back, (∀ id', d.graph.Leads back id' ↔ id' = d.locate next) ∧
      ∀ id', d.graph.Leads id id' ↔ id' = back ∨ id' = d.locate (.label l) := by
  obtain ⟨s, back, hs, hback, hleads⟩ := h.leads_enter hr
  cases hentry.symm.trans hs
  refine ⟨back, hback, fun id' => ?_⟩
  rw [hleads, ← leads_entryState hentry]
  rfl

end WellFormed

end Draft

/-! ## Walks of instructions and walks of states -/

namespace Scope.Drafted

variable {program : Scope} {entry : StateId} {d : Draft} {spot : Spot} {order : Order}
  {id id' : StateId}

/-- The walks from where an instruction goes on come to an end if those from its successors do. -/
theorem ends_locate_target (h : program.Drafted entry d) (ho : (spot, order) ∈ program.orders)
    {next : Option Spot} (hnext : next ∈ order.nexts)
    (hends : ∀ t id, some t = next → program.stateOf d t = some id → Ends d.graph.Leads id) :
    Ends d.graph.Leads (d.locate (program.numbering.target next)) := by
  cases next with
  | none => exact ends_intro fun b hb => absurd hb not_leads_halt
  | some t =>
      obtain ⟨id, hid⟩ := h.exists_stateOf (h.aims_nexts ho _ hnext)
      rw [locate_target hid]
      exact hends t id rfl hid

/-- If the walks from an instruction come to an end, so do those from its state. -/
theorem ends_state (h : program.Drafted entry d) (hends : Ends program.Flows spot) :
    ∀ id, program.stateOf d spot = some id → Ends d.graph.Leads id := by
  have hwf := h.exact.wellFormed
  induction hends with
  | intro spot _ ih =>
      intro id hid
      obtain ⟨order, ho⟩ := h.exists_order hid
      have hsuccessors : ∀ b ∈ order.successors, ∀ id, program.stateOf d b = some id →
          Ends d.graph.Leads id := fun b hb => ih b ⟨order, ho, hb⟩
      have hnexts : ∀ next ∈ order.nexts,
          Ends d.graph.Leads (d.locate (program.numbering.target next)) := by
        intro next hnext
        refine h.ends_locate_target ho hnext fun t id ht => hsuccessors t ?_ id
        exact Order.mem_successors.mpr (Or.inl (ht ▸ hnext))
      rcases h.stateOf_eq ho with ⟨-, hhalt⟩ | ⟨r, id', hr, hrecipe, hid'⟩
      · cases hid.symm.trans hhalt
        exact ends_intro fun b hb => absurd hb not_leads_halt
      · cases hid.symm.trans hid'
        refine ends_intro fun b hb => ?_
        cases hr with
        | act =>
            rw [hwf.leads_act hrecipe] at hb
            exact hb ▸ hnexts _ (by simp [Order.nexts])
        | check =>
            rcases (hwf.leads_check hrecipe).mp hb with rfl | rfl
            · exact hnexts _ (by simp [Order.nexts])
            · exact hnexts _ (by simp [Order.nexts])
        | call hstate =>
            obtain ⟨back, hback, hleads⟩ := hwf.leads_call hstate hrecipe
            rcases (hleads b).mp hb with rfl | rfl
            · exact ends_intro fun c hc => (hback c).mp hc ▸ hnexts _ (by simp [Order.nexts])
            · obtain ⟨start, hstart, hlocate⟩ := h.locate_body hstate
              rw [hlocate]
              exact hsuccessors _ (by simp [Order.successors]) start hstart
        | group hplace =>
            obtain ⟨s, back, hs, hback, hleads⟩ := hwf.leads_enter hrecipe
            have hfirst := hsuccessors _ (by simp [Order.successors]) _ hplace
            rcases (hleads b).mp hb with rfl | hb
            · exact ends_intro fun c hc => (hback c).mp hc ▸ hnexts _ (by simp [Order.nexts])
            · -- the first member is stepped into, or its table is taken over
              split at hb
              · exact hb ▸ hfirst
              · exact hfirst.next hb

/-- An instruction that enters nothing leads as its state does. -/
theorem leads_of_plain (h : program.Drafted entry d) (ho : (spot, order) ∈ program.orders)
    (hid : program.stateOf d spot = some id) (hplain : order.enters = false) {b : Spot}
    (hb : b ∈ order.successors) :
    ∃ id', program.stateOf d b = some id' ∧ d.graph.Leads id id' := by
  have hwf := h.exact.wellFormed
  rcases h.stateOf_eq ho with ⟨rfl, -⟩ | ⟨r, id', hr, hrecipe, hid'⟩
  · cases hb
  · cases hid.symm.trans hid'
    cases hr with
    | act =>
        cases Option.mem_toList.mp hb
        obtain ⟨id', hnext⟩ := h.exists_stateOf (h.aims_nexts ho (some b) (by simp [Order.nexts]))
        exact ⟨id', hnext, (hwf.leads_act hrecipe).mpr (locate_target hnext).symm⟩
    | check =>
        simp only [Order.successors, Option.toList_some, List.cons_append, List.nil_append,
          List.mem_cons, List.not_mem_nil, or_false] at hb
        have haims := h.aims_nexts ho (some b) (by simp [Order.nexts, hb])
        obtain ⟨id', hnext⟩ := h.exists_stateOf haims
        refine ⟨id', hnext, (hwf.leads_check hrecipe).mpr ?_⟩
        rcases hb with rfl | rfl
        · exact Or.inl (locate_target hnext).symm
        · exact Or.inr (locate_target hnext).symm
    | call => cases hplain
    | group => cases hplain

/-- What comes after the way back comes after the state that entered. -/
theorem transGen_next (h : program.Drafted entry d) (ho : (spot, order) ∈ program.orders)
    {callee : StateId} (b : Spot) (hb : some b ∈ order.nexts)
    (hrecipe : d.recipes[Recipe.enter callee (program.numbering.target b)]? = some id) :
    ∃ id', program.stateOf d b = some id' ∧ TransGen d.graph.Leads id id' := by
  obtain ⟨id', hnext⟩ := h.exists_stateOf (h.aims_nexts ho (some b) hb)
  obtain ⟨s, back, -, hback, hleads⟩ := h.exact.wellFormed.leads_enter hrecipe
  refine ⟨id', hnext, .tail (.single ((hleads back).mpr (Or.inl rfl))) ((hback id').mpr ?_)⟩
  exact (locate_target hnext).symm

theorem leads_of_no_return (h : program.Drafted entry d) {s : State Target}
    (hid : program.stateOf d spot = some id) (hs : d.state? id = some s)
    (hreturn : ¬ s.returnTo.isSome) {c : Spot} (hc : program.Flows spot c) :
    ∃ id', program.stateOf d c = some id' ∧ d.graph.Leads id id' := by
  obtain ⟨order, ho, hc⟩ := hc
  refine h.leads_of_plain ho hid ?_ hc
  rcases h.stateOf_eq ho with ⟨rfl, -⟩ | ⟨r, id₀, hr, hrecipe, hid₀⟩
  · rfl
  · cases hid.symm.trans hid₀
    have hyields := h.exact.wellFormed.yields_state? hrecipe hs
    rw [Bool.eq_false_iff]
    intro henters
    exact hreturn (hyields.isSome_returnTo.mpr (hr.enters_iff.mp henters))

/-- What comes after an instruction comes after its state, or else it is the first member of a
group, whose table was taken over, and what comes after that does. -/
theorem flows_cases (h : program.Drafted entry d) (ho : (spot, order) ∈ program.orders)
    (hid : program.stateOf d spot = some id) {b : Spot} (hb : b ∈ order.successors) :
    (∃ id', program.stateOf d b = some id' ∧ TransGen d.graph.Leads id id') ∨
      ∀ c, program.Flows b c →
        ∃ id', program.stateOf d c = some id' ∧ TransGen d.graph.Leads id id' := by
  by_cases hplain : order.enters = false
  · obtain ⟨id', hid', hleads⟩ := h.leads_of_plain ho hid hplain hb
    exact Or.inl ⟨id', hid', .single hleads⟩
  · rcases h.stateOf_eq ho with ⟨rfl, -⟩ | ⟨r, id₀, hr, hrecipe, hid₀⟩
    · cases hb
    · cases hid.symm.trans hid₀
      cases hr with
      | act => exact absurd rfl hplain
      | check => exact absurd rfl hplain
      | call hstate =>
          left
          rcases List.mem_append.mp hb with hb | hb
          · cases Option.mem_toList.mp hb
            obtain ⟨back, -, hleads⟩ := h.exact.wellFormed.leads_call hstate hrecipe
            obtain ⟨id', hstart, hlocate⟩ := h.locate_body hstate
            exact ⟨id', hstart, .single ((hleads id').mpr (Or.inr hlocate.symm))⟩
          · cases Option.mem_toList.mp hb
            exact h.transGen_next ho b (by simp [Order.nexts]) hrecipe
      | @group first _ e _ hplace =>
          rcases List.mem_cons.mp hb with rfl | hb
          · obtain ⟨s, back, hs, -, hleads⟩ := h.exact.wellFormed.leads_enter hrecipe
            by_cases hreturn : s.returnTo.isSome
            · left
              refine ⟨e, hplace, .single ((hleads e).mpr (Or.inr ?_))⟩
              rw [if_pos hreturn]
            · right
              intro c hc
              obtain ⟨id', hid', hmember⟩ := h.leads_of_no_return hplace hs hreturn hc
              refine ⟨id', hid', .single ((hleads id').mpr (Or.inr ?_))⟩
              rw [if_neg hreturn]
              exact hmember
          · left
            cases Option.mem_toList.mp hb
            exact h.transGen_next ho b (by simp [Order.nexts]) hrecipe

/-- If the walks from a state come to an end, so do those from every instruction that has it. -/
theorem ends_spot (h : program.Drafted entry d) (hends : Ends d.graph.Leads id) :
    ∀ spot, program.stateOf d spot = some id → Ends program.Flows spot := by
  -- one step of the instructions may be several of the states, so the induction is on paths
  have htransGen := hends.transGen
  clear hends
  induction htransGen with
  | intro id _ ih =>
      intro spot hid
      refine ends_intro ?_
      rintro b ⟨order, ho, hb⟩
      rcases h.flows_cases ho hid hb with ⟨id', hid', hleads⟩ | hskip
      · exact ih id' hleads b hid'
      · refine ends_intro fun c hc => ?_
        obtain ⟨id', hid', hleads⟩ := hskip c hc
        exact ih id' hleads c hid'

end Scope.Drafted

/-! ## Programs -/

namespace Scope

variable {program : Scope}

theorem ends_flows_iff :
    Ends program.Flows (.start []) ↔
      ∀ spot, ReflTransGen program.Flows (.start []) spot → ¬ TransGen program.Flows spot spot := by
  constructor
  · intro h spot hspot
    exact h.not_cycle hspot
  · refine ends_of_not_cycle (program.orders.map Prod.fst) ?_
    rintro a b ⟨order, ho, -⟩
    exact List.mem_map.mpr ⟨(a, order), ho, rfl⟩

/-- Whatever is reached in a body is reached from its first instruction. -/
theorem reached_from_start {spot : Spot} (h : ReflTransGen program.Flows (.start []) spot) :
    ReflTransGen program.Flows (.start spot.path) spot := by
  induction h with
  | refl => exact .refl
  | @tail a b _ hstep ih =>
      obtain ⟨order, ho, hb⟩ := hstep
      rcases Order.mem_successors.mp hb with hnext | ⟨path, next, -, rfl⟩ | ⟨members, next, rfl⟩
      · rw [(nexts_home ho hnext).1]
        exact ih.tail ⟨order, ho, hb⟩
      · exact .refl
      · rw [group_home ho]
        exact ih.tail ⟨_, ho, hb⟩

/-- A body that calls another leads to it. -/
theorem flows_of_calls {path callee : List Key} (h : program.Calls path callee) :
    ReflTransGen program.Flows (.start []) (.start callee) ∧
      TransGen program.Flows (.start path) (.start callee) := by
  obtain ⟨spot, next, rfl, hreached, ho⟩ := h
  have hstep : program.Flows spot (.start callee) := ⟨_, ho, by simp [Order.successors]⟩
  exact ⟨hreached.tail hstep, TransGen.tail' (reached_from_start hreached) hstep⟩

/-- A body that comes to call itself, through others or not, makes a cycle that can be reached. -/
theorem cycle_of_calls {path : List Key} (h : TransGen program.Calls path path) :
    ReflTransGen program.Flows (.start []) (.start path) ∧
      TransGen program.Flows (.start path) (.start path) := by
  have hlast : ∀ {callee}, TransGen program.Calls path callee →
      ReflTransGen program.Flows (.start []) (.start callee) ∧
        TransGen program.Flows (.start path) (.start callee) := by
    intro callee hcalls
    induction hcalls with
    | single hcall => exact flows_of_calls hcall
    | tail _ hcall ih =>
        obtain ⟨hreached, hflows⟩ := flows_of_calls hcall
        exact ⟨hreached, ih.2.trans hflows⟩
  exact hlast h

/-- The cycles that can be reached in a compiled program are those of its control flow, and
recursion is among them. -/
theorem hasCycleFrom_iff_flows {program : Scope} {a : Automaton} (hkeys : program.WellKeyed)
    (h : program.compile = .ok a) :
    (a.graph.hasCycleFrom a.entry = true ↔
      ∃ spot, ReflTransGen program.Flows (.start []) spot ∧
        TransGen program.Flows spot spot) ∧
    ∀ path, TransGen program.Calls path path → a.graph.hasCycleFrom a.entry = true := by
  obtain ⟨entry, d, hbuild, rfl⟩ := compile_eq_ok h
  have hdrafted := drafted_of_build hkeys hbuild
  have hends : d.graph.hasCycleFrom entry = false ↔ Ends program.Flows (.start []) := by
    rw [Graph.hasCycleFrom_eq_false_iff]
    constructor
    · exact fun hstate => hdrafted.ends_spot hstate _ hdrafted.entry
    · exact fun hspot => hdrafted.ends_state hspot _ hdrafted.entry
  have hcycle : d.graph.hasCycleFrom entry = true ↔
      ∃ spot, ReflTransGen program.Flows (.start []) spot ∧
        TransGen program.Flows spot spot := by
    rw [← Bool.not_eq_false, hends, ends_flows_iff]
    simp only [not_forall, not_not, exists_prop]
  refine ⟨hcycle, ?_⟩
  intro path hcalls
  exact hcycle.mpr ⟨.start path, cycle_of_calls hcalls⟩

/-- The body of the program calls itself from the last member of a group. -/
theorem fill_hasCycleFrom :
    fill.WellKeyed ∧ fill.Calls ["fill"] ["fill"] ∧
      ∃ a, fill.compile = .ok a ∧ a.graph.hasCycleFrom a.entry = true := by
  have hkeys : fill.WellKeyed := by decide
  have hreached : ReflTransGen fill.Flows (.start [])
      { path := ["fill"], group := some 1, place := 2 } := by
    have hcall : fill.Flows (.start []) (.start ["fill"]) :=
      ⟨.call (some ["fill"]) none, by decide +kernel, by decide⟩
    have hcheck : fill.Flows (.start ["fill"]) { path := ["fill"], place := 1 } :=
      ⟨.check (some { path := ["fill"], place := 2 }) (some { path := ["fill"], place := 1 }),
        by decide +kernel, by decide⟩
    have hgroup : fill.Flows { path := ["fill"], place := 1 }
        { path := ["fill"], group := some 1, place := 0 } :=
      ⟨.group { path := ["fill"], group := some 1, place := 0 } 3
        (some { path := ["fill"], place := 2 }), by decide +kernel, by decide⟩
    have hmark : fill.Flows { path := ["fill"], group := some 1, place := 0 }
        { path := ["fill"], group := some 1, place := 1 } :=
      ⟨.act (.write .mark) (some { path := ["fill"], group := some 1, place := 1 }),
        by decide +kernel, by decide⟩
    have hright : fill.Flows { path := ["fill"], group := some 1, place := 1 }
        { path := ["fill"], group := some 1, place := 2 } :=
      ⟨.act (.move .right) (some { path := ["fill"], group := some 1, place := 2 }),
        by decide +kernel, by decide⟩
    exact .tail (.tail (.tail (.tail (.single hcall) hcheck) hgroup) hmark) hright
  have hcalls : fill.Calls ["fill"] ["fill"] := ⟨_, none, rfl, hreached, by decide +kernel⟩
  have hcompiles : fill.compile.toOption.isSome := by decide +kernel
  cases h : fill.compile with
  | error e =>
      rw [h] at hcompiles
      cases hcompiles
  | ok a =>
      exact ⟨hkeys, hcalls, a, rfl, (hasCycleFrom_iff_flows hkeys h).2 _ (.single hcalls)⟩

end Scope

end TapeMachine
