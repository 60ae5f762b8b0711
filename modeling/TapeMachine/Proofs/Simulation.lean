import TapeMachine.Machine
import TapeMachine.Proofs.Realised
import TapeMachine.Walk

/-!
# A compiled program does what the program says

The walk of a program and the run of its graph go step by step together. A place
of the walk belongs to the state of the line that stands there, or to halt past
the last line. A call or group that is taken up later has left a return, which is
a state without effect that goes to where the call or group goes on.

Where the walk stands at a stop or past the last line, the state is halt and has
been replaced by the latest return, so that the run is one `StateId.resume` ahead.
The relation between the two says so, and one step on both sides keeps it.
-/

namespace TapeMachine

/-! ## Names and indices -/

namespace Scope

theorem index?_of_mem_subroutines {s : Scope} {seen : List Index}
    (h : s.checkKeys seen = .ok ()) : ∀ p ∈ s.subroutines, p.1.index? = none := by
  induction s generalizing seen with
  | nil => simp [subroutines]
  | instr key i rest ih =>
      obtain ⟨index, -, -, hrest⟩ := checkKeys_instr h
      exact ih hrest
  | sub key body rest _ ih =>
      obtain ⟨hindex, -, hrest⟩ := checkKeys_sub h
      intro p hp
      rcases List.mem_cons.mp hp with rfl | hp
      · exact hindex
      · exact ih hrest p hp

/-- In a scope with proper keys no instruction hides a body. -/
theorem body?_eq_lookup {s : Scope} {seen : List Index} (h : s.checkKeys seen = .ok ())
    (name : Key) : s.body? name = s.subroutines.lookup name := by
  induction s generalizing seen with
  | nil => rfl
  | instr key i rest ih =>
      obtain ⟨index, hindex, -, hrest⟩ := checkKeys_instr h
      by_cases hkey : key = name
      · subst hkey
        have hnone : rest.subroutines.lookup key = none := by
          rw [List.lookup_eq_none_iff]
          intro p hp
          have hp' := index?_of_mem_subroutines hrest p hp
          simp only [bne_iff_ne]
          rintro rfl
          rw [hindex] at hp'
          cases hp'
        simp [body?, get?, subroutines, hnone]
      · have hget : (instr key i rest).body? name = rest.body? name := by
          simp [body?, get?, hkey]
        rw [hget]
        exact ih hrest
  | sub key body rest _ ih =>
      obtain ⟨-, -, hrest⟩ := checkKeys_sub h
      by_cases hkey : key = name
      · subst hkey
        simp [body?, get?, subroutines]
      · have hget : (sub key body rest).body? name = rest.body? name := by
          simp [body?, get?, hkey]
        rw [hget, ih hrest, subroutines, List.lookup_cons, beq_false_of_ne (Ne.symm hkey)]

end Scope

theorem nodup_numberMembers {members : List Instruction} (h : members.length < 2 ^ 64) :
    ((numberMembers members).map Prod.fst).Nodup := by
  rw [List.nodup_iff_pairwise_ne, List.pairwise_iff_getElem]
  intro i j hi hj hlt heq
  have hbits := congrArg (BitVec.toNat ∘ Int64.toBitVec) heq
  simp [numberMembers] at hj hbits
  omega

/-- The place before the first of the members of a group at the cursor. -/
def Cursor.inside (c : Cursor) (members : List Instruction) : Cursor :=
  { c with sequence := numberMembers members, rest := numberMembers members }

namespace Draft

/-! ## Places -/

/-- The scopes around a place have been compiled, and `visible` is what can be seen from it. -/
inductive Encloses (d : Draft) : List Scope → Visible → Prop
  | nil : d.Encloses [] []
  | cons {s : Scope} {outer : List Scope} {entries visible : Visible}
      (keys : s.checkKeys [] = .ok ())
      (bodies : d.HoldsBodies s (entries ++ visible) entries)
      (around : d.Encloses outer visible) :
      d.Encloses (s :: outer) (entries ++ visible)

/-- The sequence of the cursor has been compiled, as the lines `pre` and `rest`, and its place is
before `rest`. -/
structure Located (d : Draft) (c : Cursor) (visible : Visible) (inGroup : Bool)
    (pre rest : List Line) : Prop where
  around : d.Encloses c.scopes visible
  sequence : (pre ++ rest).map Line.numbered = c.sequence
  place : rest.map Line.numbered = c.rest
  lines : d.Sequenced (d.Realises visible) inGroup (pre ++ rest)
  unique : ((pre ++ rest).map (·.index)).Nodup

/-- The place of the cursor has been compiled to the state `id`. -/
def At (d : Draft) (c : Cursor) (id : StateId) : Prop :=
  ∃ visible inGroup pre rest, d.Located c visible inGroup pre rest ∧ d.first rest = id

namespace Located

variable {d : Draft} {c : Cursor} {visible : Visible} {inGroup : Bool} {pre rest : List Line}

/-- Any other place of the sequence. -/
theorem move {pre' rest' : List Line} (h : d.Located c visible inGroup pre rest)
    (hsplit : pre ++ rest = pre' ++ rest') :
    d.Located { c with rest := rest'.map Line.numbered } visible inGroup pre' rest' where
  around := h.around
  sequence := hsplit ▸ h.sequence
  place := rfl
  lines := hsplit ▸ h.lines
  unique := hsplit ▸ h.unique

theorem jump {target : Index} {line : Line} (h : d.Located c visible inGroup pre rest)
    (hline : (pre ++ rest).find? (·.index = target) = some line) :
    d.At (c.jump target) (d.locate (.label line.label)) := by
  obtain ⟨hindex, before, after, hsplit, hbefore⟩ := List.find?_eq_some_iff_append.mp hline
  have hdrop : c.sequence.dropWhile (·.1 ≠ target) = (line :: after).map Line.numbered := by
    rw [← h.sequence, hsplit, List.map_append, List.dropWhile_append_of_pos]
    · simp_all [Line.numbered]
    · simpa [Line.numbered] using hbefore
  refine ⟨visible, inGroup, before, line :: after, ?_, rfl⟩
  rw [Cursor.jump, hdrop]
  exact h.move hsplit

/-- The place after the line at the cursor. -/
theorem following {l : Line} (h : d.Located c visible inGroup pre (l :: rest)) :
    d.At { c with rest := rest.map Line.numbered } (d.first rest) :=
  ⟨visible, inGroup, pre ++ [l], rest, h.move (by simp), rfl⟩

theorem continuation {l : Line} {next : Target}
    (h : d.Located c visible inGroup pre (l :: rest))
    (hnext : (Site.before inGroup (pre ++ l :: rest) l rest).continuation = .ok next) :
    d.At c.continuation (d.locate next) := by
  have hplace : c.rest = (l.index, l.instruction) :: rest.map Line.numbered := h.place.symm
  obtain ⟨-, hcases⟩ := Site.continuation_eq_ok hnext
  cases hgiven : l.instruction.next with
  | some target =>
      have hjump : c.continuation = c.jump target := by
        simp [Cursor.continuation, hplace, hgiven]
      rcases hcases with ⟨hnone, -⟩ | ⟨target', line, hsome, -, hline, rfl⟩
      · simp [Site.before, hgiven] at hnone
      · obtain rfl : target = target' := by simpa [Site.before, hgiven] using hsome
        rw [hjump]
        exact h.jump hline
  | none =>
      have hstay : c.continuation = { c with rest := rest.map Line.numbered } := by
        simp [Cursor.continuation, hplace, hgiven]
      rw [hstay]
      rcases hcases with ⟨hnone, rfl⟩ | ⟨target, line, hsome, -, hline, rfl⟩
      · obtain rfl : rest = [] := by simpa [Site.before, hgiven] using hnone
        exact h.following
      · -- the following line is the only one with its index, so it is the one that was found
        cases rest with
        | nil => simp [Site.before, hgiven] at hsome
        | cons l' rest =>
            obtain rfl : l'.index = target := by simpa [Site.before, hgiven] using hsome
            obtain rfl : line = l' := by
              refine List.inj_on_of_nodup_map h.unique (List.mem_of_find?_eq_some hline)
                (by simp) ?_
              simpa using List.find?_some hline
            exact h.following

/-- The members of a group are lines of their own, inside of the same scopes. -/
theorem inside {members : List Instruction} {lines : List Line}
    (h : d.Located c visible inGroup pre rest) (hfits : members.length < 2 ^ 64)
    (hnumbered : lines.map Line.numbered = numberMembers members)
    (hlines : d.Sequenced (d.Performs visible) true lines) :
    d.Located (c.inside members) visible true [] lines := by
  refine ⟨h.around, hnumbered, hnumbered, ?_, ?_⟩
  · intro pre l rest hsplit
    exact .plain (hlines pre l rest hsplit)
  · have hunique := nodup_numberMembers hfits
    rw [← hnumbered, List.map_map] at hunique
    exact hunique

end Located

/-! ## Names -/

theorem HoldsBodies.lookup {d : Draft} {s : Scope} {visible entries : Visible}
    (h : d.HoldsBodies s visible entries) (name : Key) :
    (entries.lookup name = none ∧ s.subroutines.lookup name = none) ∨
      ∃ entry body label, entries.lookup name = some entry ∧
        s.subroutines.lookup name = some body ∧ d.state? entry = some (entryState label) ∧
        d.Holds body visible (d.locate (.label label)) := by
  induction s generalizing entries with
  | nil =>
      obtain rfl : entries = [] := h
      exact Or.inl ⟨rfl, rfl⟩
  | instr key i rest ih => exact ih h
  | sub key body rest _ ih =>
      cases entries with
      | nil => exact h.elim
      | cons p entries =>
          obtain ⟨key', entry⟩ := p
          obtain ⟨rfl, ⟨label, hstate, hholds⟩, hrest⟩ := h
          by_cases hname : name = key'
          · subst hname
            exact Or.inr ⟨entry, body, label, by simp, by simp [Scope.subroutines], hstate, hholds⟩
          · rw [Scope.subroutines, List.lookup_cons, List.lookup_cons, beq_false_of_ne hname]
            exact ih hrest

/-- The start of a compiled scope, inside of scopes that have been compiled. -/
theorem Holds.at_start {d : Draft} {s : Scope} {outer : List Scope} {visible : Visible}
    {start : StateId} (h : d.Holds s visible start) (houter : d.Encloses outer visible) :
    d.At (.start (s :: outer)) start := by
  obtain ⟨entries, lines, hkeys, hbodies, hnumbered, hlines, hstart⟩ := h
  refine ⟨entries ++ visible, false, [], lines, ?_, hstart⟩
  refine ⟨.cons hkeys hbodies houter, hnumbered, hnumbered, hlines, ?_⟩
  have hunique := Scope.nodup_numbered_of_checkKeys hkeys
  rw [← hnumbered, List.map_map] at hunique
  exact hunique

/-- A call finds the body that its name stands for at the place of the call. -/
theorem Encloses.resolve {d : Draft} {scopes : List Scope} {visible : Visible} {name : Key}
    {entry : StateId} (h : d.Encloses scopes visible) (hentry : visible.lookup name = some entry) :
    ∃ scopes' label, Cursor.resolve name scopes = some scopes' ∧
      d.state? entry = some (entryState label) ∧
      d.At (.start scopes') (d.locate (.label label)) := by
  induction h with
  | nil => cases hentry
  | @cons s outer entries visible hkeys hbodies houter ih =>
      have hbody := Scope.body?_eq_lookup hkeys name
      rw [List.lookup_append] at hentry
      rcases hbodies.lookup name with
        ⟨hnone, hsub⟩ | ⟨entry', body, label, hsome, hsub, hstate, hholds⟩
      · rw [hnone] at hentry
        obtain ⟨scopes', label, hresolve, hstate, hat⟩ := ih hentry
        refine ⟨scopes', label, ?_, hstate, hat⟩
        rw [Cursor.resolve, hbody, hsub]
        exact hresolve
      · rw [hsome] at hentry
        cases hentry
        refine ⟨body :: s :: outer, label, ?_, hstate, ?_⟩
        · rw [Cursor.resolve, hbody, hsub]
        · exact hholds.at_start (.cons hkeys hbodies houter)

end Draft

/-! ## Steps of the graph -/

theorem Action.apply_transition {τ : Type} (action : Action) (next : τ) (tape : Tape) :
    (action.transition next).apply tape = action.apply tape := by
  cases action <;> rfl

theorem Action.next_transition {τ : Type} (action : Action) (next : τ) :
    (action.transition next).next = next := by
  cases action <;> rfl

/-- A step whose transition does `action`. -/
theorem Configuration.step?_eq_some {g : Graph} {c : Configuration} {s : State StateId}
    {action : Action} {next : StateId} (hs : g.state? c.current = some s)
    (ht : s.table.forSymbol c.tape.read = action.transition next) :
    ∃ step c', c.step? g = some (step, c') ∧ step.effect = action.effect c.tape ∧
      (c'.current, c'.returns) = next.resume (s.returnTo.toList ++ c.returns) ∧
      c'.tape = action.apply c.tape ∧ c'.steps = c.steps + 1 := by
  refine ⟨_, _, by rw [step?, hs], ?_, ?_, ?_, rfl⟩
  · rw [ht]
    cases action <;> rfl
  · rw [ht, action.next_transition]
  · rw [ht, action.apply_transition]

namespace Draft

/-! ## The relation between walk and run -/

/-- The return `back` goes to where the call or group at the cursor goes on. -/
def Awaits (d : Draft) (c : Cursor) (back : StateId) : Prop :=
  ∃ next, d.At c.continuation (d.locate next) ∧ d.recipes[Recipe.act .noop next]? = some back

/-- The walk stands where the run does, or at a halt that the run has resumed from already. -/
structure Matches (d : Draft) (w : Walk) (c : Configuration) : Prop where
  place : ∃ id returns, d.At w.cursor id ∧ List.Forall₂ d.Awaits w.suspended returns ∧
    (c.current, c.returns) = id.resume returns
  tape : c.tape = w.tape
  steps : c.steps = w.steps

/-- Both have halted, or both take a step with the same effect and match again. -/
inductive Agree (d : Draft) : Option (Effect × Walk) → Option (Step × Configuration) → Prop
  | halted : d.Agree none none
  | step {effect : Effect} {w : Walk} {step : Step} {c : Configuration}
      (effect_eq : step.effect = effect) (next : d.Matches w c) :
      d.Agree (some (effect, w)) (some (step, c))

theorem resume_of_state? {d : Draft} {id : StateId} {s : State Target}
    (h : d.state? id = some s) (returns : List StateId) : id.resume returns = (id, returns) := by
  cases id with
  | halt => cases h
  | slot k => rfl

section Step

variable {d : Draft} {w : Walk} {c : Configuration} (htape : c.tape = w.tape)
  (hsteps : c.steps = w.steps)
include htape hsteps

/-- A step of the walk that does `action` against a state that does the same. -/
theorem agree_act {s : State Target} {action : Action} {next : Target} {cursor : Cursor}
    {suspended : List Cursor} (hs : d.state? c.current = some s)
    (ht : s.table.forSymbol w.tape.read = action.transition next)
    (hat : d.At cursor (d.locate next))
    (hreturns : List.Forall₂ d.Awaits suspended
      ((s.returnTo.map d.locate).toList ++ c.returns)) :
    d.Agree (some (w.act action cursor suspended)) (c.step? d.graph) := by
  have hs' : d.graph.state? c.current = some (s.map d.locate) := by
    rw [state?_graph, hs]
    rfl
  have ht' : (s.map d.locate).table.forSymbol c.tape.read =
      action.transition (d.locate next) := by
    rw [State.map, Table.forSymbol_map, htape, ht, action.transition_map]
  obtain ⟨step, c', hstep, heffect, hplace, htape', hsteps'⟩ :=
    Configuration.step?_eq_some hs' ht'
  rw [hstep]
  rw [htape] at heffect htape'
  refine .step heffect ⟨⟨d.locate next, _, hat, hreturns, hplace⟩, htape', ?_⟩
  rw [hsteps', hsteps]

variable (hwf : d.WellFormed)
include hwf

/-- At halt the walk takes up the latest call or group and the run the latest return. -/
theorem agree_resume {returns : List StateId}
    (hreturns : List.Forall₂ d.Awaits w.suspended returns)
    (hplace : (c.current, c.returns) = StateId.halt.resume returns) :
    d.Agree w.resume? (c.step? d.graph) := by
  unfold Walk.resume?
  cases hw : w.suspended with
  | nil =>
      -- no return is left either, so the run stays at halt
      rw [hw] at hreturns
      cases hreturns
      obtain ⟨hcurrent, -⟩ := Prod.mk.inj hplace
      have hhalted : c.step? d.graph = none := by simp [Configuration.step?, hcurrent, Graph.state?]
      rw [hhalted]
      exact .halted
  | cons cursor suspended =>
      rw [hw] at hreturns
      cases hreturns with
      | @cons _ back _ returns hawaits htail =>
          obtain ⟨hcurrent, hrest⟩ := Prod.mk.inj hplace
          obtain ⟨next, hat, hrecipe⟩ := hawaits
          have hstate := hwf.recipes _ _ hrecipe
          refine agree_act (s := { table := .always (.goto next) }) htape hsteps ?_ rfl hat ?_
          · rw [hcurrent]
            exact hstate
          · rw [hrest]
            exact htail

/-- A call steps through the entry of the subroutine into its body. -/
theorem agree_call {visible : Visible} {inGroup : Bool} {pre rest : List Line} {l : Line}
    {name : Key} {entry id : StateId} {next : Target}
    (hreturns : List.Forall₂ d.Awaits w.suspended c.returns)
    (hlocated : d.Located w.cursor visible inGroup pre (l :: rest)) (hcurrent : c.current = id)
    (hcommand : l.instruction.command = .call name)
    (hlookup : visible.lookup name = some entry)
    (hnext : (Site.before inGroup (pre ++ l :: rest) l rest).continuation = .ok next)
    (hrecipe : d.recipes[Recipe.enter entry next]? = some id) :
    d.Agree w.step? (c.step? d.graph) := by
  obtain ⟨scopes, label, hresolve, hentry, hat⟩ := hlocated.around.resolve hlookup
  obtain ⟨s, back, hs, hback, hstate⟩ := hwf.recipes _ _ hrecipe
  obtain rfl : entryState label = s := Option.some.inj (hentry.symm.trans hs)
  have hstep : w.step? = some (w.act .noop (.start scopes) (w.cursor :: w.suspended)) := by
    simp [Walk.step?, ← hlocated.place, Line.numbered, hcommand, hresolve]
  have htable : (Build.standIn entry (entryState label) back).table.forSymbol w.tape.read =
      Action.noop.transition (.label label) := rfl
  rw [hstep]
  refine agree_act htape hsteps (hcurrent ▸ hstate) htable hat ?_
  exact .cons ⟨next, hlocated.continuation hnext, hback⟩ hreturns

/-- A group pushes its return with the first step, which is that of its first member unless the
member is a call and pushes a return of its own. -/
theorem agree_group {visible : Visible} {inGroup : Bool} {pre rest ms : List Line} {l m : Line}
    {members : List Instruction} {id : StateId} {next : Target}
    (hreturns : List.Forall₂ d.Awaits w.suspended c.returns)
    (hlocated : d.Located w.cursor visible inGroup pre (l :: rest)) (hcurrent : c.current = id)
    (hcommand : l.instruction.command = .group members)
    (hfits : members.length < 2 ^ 64)
    (hnumbered : (m :: ms).map Line.numbered = numberMembers members)
    (hlines : d.Sequenced (d.Performs visible) true (m :: ms))
    (hnext : (Site.before inGroup (pre ++ l :: rest) l rest).continuation = .ok next)
    (hrecipe : d.recipes[Recipe.enter (d.first (m :: ms)) next]? = some id) :
    d.Agree w.step? (c.step? d.graph) := by
  have hinside := hlocated.inside hfits hnumbered hlines
  obtain ⟨s, back, hs, hback, hstate⟩ := hwf.recipes _ _ hrecipe
  have hawaits : List.Forall₂ d.Awaits (w.cursor :: w.suspended) (back :: c.returns) :=
    .cons ⟨next, hlocated.continuation hnext, hback⟩ hreturns
  rw [← hcurrent] at hstate
  have hgroup : w.step? = w.enterGroup? members := by
    simp [Walk.step?, ← hlocated.place, Line.numbered, hcommand]
  cases hlines [] m ms rfl with
  | @act action target hm htarget hfirst =>
      -- the state of the group has taken over the table of its first member
      obtain rfl := Option.some.inj (hs.symm.trans (hwf.recipes _ _ hfirst))
      have hact : m.instruction.command = .act action := hm
      have hnone : m.instruction.next = none := (Site.continuation_eq_ok htarget).1 rfl
      have hstep : w.step? = some (w.act action (w.cursor.inside members).continuation
          (w.cursor :: w.suspended)) := by
        rw [hgroup]
        simp [Walk.enterGroup?, Cursor.inside, Cursor.continuation, ← hnumbered, Line.numbered,
          hact, hnone]
      rw [hstep]
      exact agree_act htape hsteps hstate rfl (hinside.continuation htarget) hawaits
  | stop _ hfree _ => cases hfree
  | check _ hfree _ _ => cases hfree
  | @call name _ _ hm _ _ hfirst =>
      -- the first member has a return of its own, so the state of the group goes there
      obtain ⟨s', back', -, -, hentry⟩ := hwf.recipes _ _ hfirst
      obtain rfl := Option.some.inj (hs.symm.trans hentry)
      have hcall : m.instruction.command = .call name := hm
      have hstep : w.step? = some (w.act .noop (w.cursor.inside members)
          (w.cursor :: w.suspended)) := by
        rw [hgroup]
        simp [Walk.enterGroup?, Cursor.inside, ← hnumbered, Line.numbered, hcall]
      have hat : d.At (w.cursor.inside members) (d.locate (.state (d.first (m :: ms)))) :=
        ⟨visible, true, [], m :: ms, hinside, rfl⟩
      rw [hstep]
      exact agree_act htape hsteps hstate rfl hat hawaits

/-- A command other than a group. -/
theorem agree_performs {visible : Visible} {inGroup : Bool} {pre rest : List Line} {l : Line}
    {id : StateId} {returns : List StateId}
    (hreturns : List.Forall₂ d.Awaits w.suspended returns)
    (hlocated : d.Located w.cursor visible inGroup pre (l :: rest))
    (hplace : (c.current, c.returns) = id.resume returns)
    (h : d.Performs visible (.before inGroup (pre ++ l :: rest) l rest) id) :
    d.Agree w.step? (c.step? d.graph) := by
  cases h with
  | @act action next hcommand hnext hrecipe =>
      have hstate := hwf.recipes _ _ hrecipe
      rw [resume_of_state? hstate] at hplace
      obtain ⟨rfl, rfl⟩ := Prod.mk.inj hplace
      have hact : l.instruction.command = .act action := hcommand
      have hstep : w.step? = some (w.act action w.cursor.continuation w.suspended) := by
        simp [Walk.step?, ← hlocated.place, Line.numbered, hact]
      rw [hstep]
      exact agree_act htape hsteps hstate rfl (hlocated.continuation hnext) hreturns
  | stop hcommand _ hid =>
      have hstop : l.instruction.command = .stop := hcommand
      have hstep : w.step? = w.resume? := by
        simp [Walk.step?, ← hlocated.place, Line.numbered, hstop]
      rw [hstep]
      exact agree_resume htape hsteps hwf hreturns (hid ▸ hplace)
  | @check ifMarked otherwise marked blank hcommand _ hbranches hrecipe =>
      have hstate := hwf.recipes _ _ hrecipe
      rw [resume_of_state? hstate] at hplace
      obtain ⟨rfl, rfl⟩ := Prod.mk.inj hplace
      have hcheck : l.instruction.command = .check ifMarked otherwise := hcommand
      obtain ⟨m, o, hm, rfl, ho, rfl⟩ := Site.branches_eq_ok hbranches
      have hstep : w.step? = some (w.act .noop (w.cursor.jump
          (if w.tape.read = .mark then ifMarked else otherwise)) w.suspended) := by
        simp [Walk.step?, ← hlocated.place, Line.numbered, hcheck]
      rw [hstep]
      cases hread : w.tape.read with
      | mark =>
          refine agree_act htape hsteps hstate ?_ (hlocated.jump hm) hreturns
          rw [hread]
          rfl
      | blank =>
          refine agree_act htape hsteps hstate ?_ (hlocated.jump ho) hreturns
          rw [hread]
          rfl
  | @call name entry next hcommand hlookup hnext hrecipe =>
      obtain ⟨s, back, -, -, hstate⟩ := hwf.recipes _ _ hrecipe
      rw [resume_of_state? hstate] at hplace
      obtain ⟨hcurrent, rfl⟩ := Prod.mk.inj hplace
      exact agree_call htape hsteps hwf hreturns hlocated hcurrent hcommand hlookup hnext hrecipe

end Step

section Run

variable {d : Draft} {w : Walk} {c : Configuration}

/-- One step on both sides. -/
theorem Matches.step (hwf : d.WellFormed) (h : d.Matches w c) :
    d.Agree w.step? (c.step? d.graph) := by
  obtain ⟨⟨id, returns, ⟨visible, inGroup, pre, rest, hlocated, hid⟩, hreturns, hplace⟩, htape,
    hsteps⟩ := h
  rw [← hid] at hplace
  cases rest with
  | nil =>
      have hstep : w.step? = w.resume? := by simp [Walk.step?, ← hlocated.place]
      rw [hstep]
      exact agree_resume htape hsteps hwf hreturns hplace
  | cons l rest =>
      cases hlocated.lines pre l rest rfl with
      | plain hperforms =>
          exact agree_performs htape hsteps hwf hreturns hlocated hplace hperforms
      | group hcommand hfits hnumbered hlines hnext hrecipe =>
          obtain ⟨s, back, -, -, hstate⟩ := hwf.recipes _ _ hrecipe
          have hresume : (d.first (l :: rest)).resume returns = _ := resume_of_state? hstate _
          rw [hresume] at hplace
          obtain ⟨hcurrent, rfl⟩ := Prod.mk.inj hplace
          exact agree_group htape hsteps hwf hreturns hlocated hcurrent hcommand hfits hnumbered
            hlines hnext hrecipe

/-- A whole run: the same result, the same reports, and walk and run match where they end. -/
theorem Matches.run {σ : Type} (report : σ → Effect → σ) (hwf : d.WellFormed)
    (h : d.Matches w c) (budget : Nat) (acc : σ) :
    ∃ result acc' w' c',
      w.run report budget acc = (result, acc', w') ∧
      d.graph.run (fun acc step _ => report acc step.effect) budget acc c =
        (result, acc', c') ∧
      d.Matches w' c' := by
  induction budget generalizing w c acc with
  | zero =>
      have hagree := h.step hwf
      have hhalted : w.step?.isNone = c.isHalted d.graph := by
        rw [← Configuration.isNone_step?]
        generalize w.step? = ow, c.step? d.graph = oc at hagree
        cases hagree <;> rfl
      rw [Walk.run, Graph.run, hhalted, ← h.steps]
      cases c.isHalted d.graph with
      | true => exact ⟨_, _, w, c, rfl, rfl, h⟩
      | false => exact ⟨_, _, w, c, rfl, rfl, h⟩
  | succ budget ih =>
      have hagree := h.step hwf
      rw [Walk.run, Graph.run]
      generalize w.step? = ow, c.step? d.graph = oc at hagree
      cases hagree with
      | halted => exact ⟨_, _, w, c, rfl, by rw [h.steps], h⟩
      | @step effect w' step c' heffect hnext =>
          subst heffect
          exact ih hnext (report acc step.effect)

end Run

/-- Where walk and run start, they match. -/
theorem matches_start {d : Draft} {program : Scope} {entry : StateId}
    (h : d.Holds program [] entry) (tape : Tape) :
    d.Matches (.start program tape) { current := entry, tape := tape } := by
  refine ⟨⟨entry, [], h.at_start .nil, .nil, ?_⟩, rfl, rfl⟩
  cases entry <;> rfl

end Draft

/-- A compiled program ends its run as the walk of the program ends. -/
theorem Scope.runOn_of_walk {σ : Type} {program : Scope} {a : Automaton}
    (hfits : program.GroupsFit) (hcompile : program.compile = .ok a) {report : σ → Effect → σ}
    {init acc : σ} {limit : Nat} {tape : Tape} {result : Except RunError Nat} {w : Walk}
    (h : Walk.run report limit init (.start program tape) = (result, acc, w)) :
    ({ automaton := a } : Machine).runOn (fun acc step => report acc step.effect) init limit tape =
      (result, acc, w.tape) := by
  obtain ⟨entry, d, hscope, rfl⟩ := compile_eq_ok hcompile
  have hstart := Draft.matches_start (Build.program_made hfits hscope) tape
  obtain ⟨_, _, _, c, hwalk, hrun, hmatches⟩ :=
    hstart.run report (Build.program_completed hscope).wellFormed limit init
  cases hwalk.symm.trans h
  rw [Machine.runOn, hrun, ← hmatches.tape]

/-- A compiled program does on every tape what the program says, for as long as the steps last: the
steps have the same effects, and there are as many of them, with the same tape at the end. Only a
group with more members than can be numbered apart is left out, and no list in memory is as long. -/
theorem Scope.runOn_eq_walk {σ : Type} {program : Scope} {a : Automaton}
    (hfits : program.GroupsFit) (hcompile : program.compile = .ok a) (report : σ → Effect → σ)
    (init : σ) (limit : Nat) (tape : Tape) :
    ({ automaton := a } : Machine).runOn (fun acc step => report acc step.effect) init limit tape =
      program.walk report init limit tape := by
  rw [walk]
  exact runOn_of_walk hfits hcompile rfl

/-- Two calls deep, with a return out of each group, in fifteen steps. -/
theorem Scope.fill_runOn :
    fill.GroupsFit ∧ ∃ a, fill.compile = .ok a ∧
      ({ automaton := a } : Machine).runOn (fun n _ => n + 1) 0 100
        { left := [], head := .blank, right := [.blank, .mark] } =
          (.ok 15, 15, { left := [.mark, .mark], head := .mark, right := [] }) := by
  have hfits : fill.GroupsFit := by decide
  refine ⟨hfits, ?_⟩
  cases h : fill.compile with
  | error e =>
      have hcompiles : fill.compile.toOption.isSome := by decide +kernel
      rw [h] at hcompiles
      cases hcompiles
  | ok a =>
      refine ⟨a, rfl, (runOn_eq_walk hfits h (fun n _ => n + 1) 0 100 _).trans ?_⟩
      decide +kernel

end TapeMachine
