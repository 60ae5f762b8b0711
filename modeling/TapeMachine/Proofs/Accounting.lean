import Mathlib.Algebra.BigOperators.Group.List.Basic
import TapeMachine.Proofs.Realised
import TapeMachine.Proofs.Rules

/-!
# Counting states

What a compilation has used up is kept in a tally: the states that no recipe stands
for, how often a recipe was asked for, and which instructions and bodies the events
name. A recipe that is asked for is either recorded together with a new state or it
is reported as used again, so the tally of a draft moves by a fixed amount with every
request, whatever the recipes followed so far.

The tally of a program is read off the program. Each body counts once in it, wherever
it is called from.
-/

namespace TapeMachine

/-! ## What there is to count in a program -/

namespace Command

/-- Moves, writes, does nothing or checks: one state. -/
def isStep : Command → Bool
  | act _ => true
  | check _ _ => true
  | _ => false

/-- Calls or groups: one state to go in and one to come back. -/
def isEntry : Command → Bool
  | call _ => true
  | group _ => true
  | _ => false

end Command

/-- The instruction and, after a group, its members. -/
def Instruction.withMembers (i : Instruction) : List Instruction :=
  match i.command with
  | .group members => i :: members
  | _ => [i]

namespace Scope

/-- The instructions of the scope itself, with the members of its groups. -/
def ownInstructions : Scope → List Instruction
  | nil => []
  | instr _ i rest => i.withMembers ++ rest.ownInstructions
  | sub _ _ rest => rest.ownInstructions

/-- The instructions of the bodies in the scope, at all depths. -/
def bodyInstructions : Scope → List Instruction
  | nil => []
  | instr _ _ rest => rest.bodyInstructions
  | sub _ body rest => body.bodyInstructions ++ body.ownInstructions ++ rest.bodyInstructions

/-- All instructions of a program in the order in which their states are made, bodies first. -/
def allInstructions (s : Scope) : List Instruction :=
  s.bodyInstructions ++ s.ownInstructions

/-- The names of all bodies of a program, at all depths, inner ones first. -/
def bodyNames : Scope → List Key
  | nil => []
  | instr _ _ rest => rest.bodyNames
  | sub name body rest => body.bodyNames ++ name :: rest.bodyNames

end Scope

namespace CompileEvent

def isReuse : CompileEvent → Bool
  | reused _ _ => true
  | _ => false

/-- The kind of the command whose state is about to be made. -/
def produced? : CompileEvent → Option CommandKind
  | producing _ kind => some kind
  | _ => none

/-- The name of the subroutine whose body has been made. -/
def bound? : CompileEvent → Option Key
  | subroutineBound name _ => some name
  | _ => none

end CompileEvent

/-! ## Tallies -/

@[ext] structure Tally where
  /-- The states that no recipe stands for. -/
  entries : ℤ := 0
  /-- How often a recipe was asked for. -/
  asked : ℕ := 0
  produced : List CommandKind := []
  bound : List Key := []
deriving DecidableEq

namespace Tally

instance : Zero Tally := ⟨{}⟩

instance : Add Tally where
  add s t :=
    { entries := s.entries + t.entries
      asked := s.asked + t.asked
      produced := s.produced ++ t.produced
      bound := s.bound ++ t.bound }

@[simp] theorem entries_zero : (0 : Tally).entries = 0 := rfl
@[simp] theorem asked_zero : (0 : Tally).asked = 0 := rfl
@[simp] theorem produced_zero : (0 : Tally).produced = [] := rfl
@[simp] theorem bound_zero : (0 : Tally).bound = [] := rfl

variable (s t : Tally)

@[simp] theorem entries_add : (s + t).entries = s.entries + t.entries := rfl
@[simp] theorem asked_add : (s + t).asked = s.asked + t.asked := rfl
@[simp] theorem produced_add : (s + t).produced = s.produced ++ t.produced := rfl
@[simp] theorem bound_add : (s + t).bound = s.bound ++ t.bound := rfl

instance : AddMonoid Tally where
  add_assoc a b c := by ext1 <;> simp [add_assoc]
  zero_add a := by ext1 <;> simp
  add_zero a := by ext1 <;> simp
  nsmul := nsmulRec

/-- Asks for `n` recipes. -/
def ask (n : ℕ) : Tally :=
  { asked := n }

/-- What the instructions use up. -/
def ofInstructions (instructions : List Instruction) : Tally where
  asked := instructions.countP (·.command.isStep) + 2 * instructions.countP (·.command.isEntry)
  produced := instructions.map (·.kind)

theorem ofInstructions_append (l l' : List Instruction) :
    ofInstructions (l ++ l') = ofInstructions l + ofInstructions l' := by
  ext1
  · rfl
  · simp only [ofInstructions, List.countP_append, asked_add]
    omega
  · simp [ofInstructions]
  · rfl

/-- An instruction is reported and asks for its states. -/
theorem ofInstructions_singleton {i : Instruction} {command : Command}
    (h : i.command = command) :
    ofInstructions [i] = { produced := [i.kind] } +
      ask ((if command.isStep then 1 else 0) + 2 * if command.isEntry then 1 else 0) := by
  subst h
  ext1
  · rfl
  · simp [ofInstructions, List.countP_cons, ask]
  · rfl
  · rfl

/-- It does not matter when a recipe is asked for. -/
theorem ask_add_comm (n : ℕ) (t : Tally) : ask n + t = t + ask n := by
  ext1 <;> simp [ask, add_comm]

end Tally

/-- What the event adds to a tally. -/
def CompileEvent.tally (e : CompileEvent) : Tally where
  asked := if e.isReuse then 1 else 0
  produced := e.produced?.toList
  bound := e.bound?.toList

theorem CompileEvent.sum_tally (events : List CompileEvent) :
    (events.map tally).sum =
      { asked := events.countP isReuse
        produced := events.filterMap produced?
        bound := events.filterMap bound? } := by
  induction events with
  | nil => rfl
  | cons e events ih =>
      rw [List.map_cons, List.sum_cons, ih]
      ext1
      · rfl
      · simp [tally, List.countP_cons, Nat.add_comm]
      · rw [List.filterMap_cons]
        cases hkind : e.produced? <;> simp [tally, hkind]
      · rw [List.filterMap_cons]
        cases hname : e.bound? <;> simp [tally, hname]

/-- What the steps that led to the draft have used up. -/
def Draft.tally (d : Draft) : Tally :=
  { entries := d.states.size - d.recipes.size, asked := d.recipes.size } +
    (d.events.toList.map CompileEvent.tally).sum

namespace Draft

variable (d : Draft)

@[simp] theorem tally_handOut (n : Nat) : (d.handOut n).tally = d.tally := rfl

@[simp] theorem tally_put (l : Label) (id : StateId) : (d.put l id).tally = d.tally := rfl

theorem tally_log (e : CompileEvent) : (d.log e).tally = d.tally + e.tally := by
  simp [tally, log, add_assoc]

theorem tally_addEntry : d.addEntry.tally = d.tally + { entries := 1 } := by
  ext1
  · simp [tally, addEntry, handOut]
    omega
  all_goals simp [tally, addEntry, handOut]

theorem tally_addEntries (n : Nat) : (d.addEntries n).tally = d.tally + { entries := n } := by
  induction n generalizing d with
  | zero => exact (add_zero d.tally).symm
  | succ n ih =>
      rw [addEntries, ih, tally_addEntry, add_assoc]
      congr 1
      ext1 <;> simp [add_comm]

end Draft

namespace Build

open Draft

/-! ## One state -/

/-- A recipe that is asked for counts once, whether it had been followed before or not. -/
theorem share_tally {r : Recipe} {s : State Target} {d d' : Draft} {id : StateId}
    (h : share r s d = .ok id d') : d'.tally = d.tally + .ask 1 := by
  rcases share_eq_ok h with ⟨-, rfl⟩ | ⟨hnone, -, rfl⟩
  · rw [tally_log]
    rfl
  · have hnew : ¬d.recipes.contains r = true := by
      simp [Std.TreeMap.contains_eq_isSome_getElem?, hnone]
    have hsize : (d.recipes.insert r (.slot d.states.size)).size = d.recipes.size + 1 := by
      rw [Std.TreeMap.size_insert, if_neg hnew]
    ext1
    · simp [tally, Tally.ask, hsize]
    · simp [tally, Tally.ask, hsize]
      omega
    all_goals simp [tally, Tally.ask]

/-- What is entered has its state, so the way in is asked for after the way back. -/
theorem enter_tally {entry : StateId} {next : Target} {d d' : Draft} {id : StateId}
    (hentry : (d.state? entry).isSome) (h : enter entry next d = .ok id d') :
    d'.tally = d.tally + .ask 2 := by
  obtain ⟨s, hs⟩ := Option.isSome_iff_exists.mp hentry
  obtain ⟨back, d₁, hback, hrest⟩ := enter_eq_ok h
  rcases hrest with ⟨hnone, -, -⟩ | ⟨s', -, hshare⟩
  · rw [((frames_act .noop next).of_ok hback).state? hs] at hnone
    cases hnone
  · rw [share_tally hshare, share_tally hback, add_assoc]
    rfl

/-! ## Sequences -/

/-- Making the state of a site uses up what the instructions of `parts` do. -/
def Uses (visible : Visible) (make : Site → Build StateId)
    (parts : Instruction → List Instruction) : Prop :=
  ∀ (s : Site) (d : Draft) (id : StateId) (d' : Draft), d.WellFormed → d.Hosts visible →
    s.Within d → make s d = .ok id d' →
    d'.tally = d.tally + .ofInstructions (parts s.line.instruction)

section Lines

variable {make : Site → Build StateId} {visible : Visible} {inGroup : Bool}
  {parts : Instruction → List Instruction} (hframes : ∀ s, Frames (make s))
  (hcomplete : Completes visible make) (hmake : Uses visible make parts)
include hframes hcomplete hmake

theorem eachLine_tally {lines rest : List Line} {d d' : Draft} (hwf : d.WellFormed)
    (hv : d.Hosts visible) (hlines : ∀ l ∈ lines, l.label.number < d.places.size)
    (hnodup : (rest.map (·.label)).Nodup) (hu : Unplaced (rest.map (·.label)) d)
    (h : eachLine make inGroup lines rest d = .ok () d') :
    d'.tally = d.tally + .ofInstructions (rest.flatMap fun l => parts l.instruction) := by
  induction rest generalizing d with
  | nil =>
      cases h
      exact (add_zero _).symm
  | cons l rest ih =>
      obtain ⟨id, d₁, hid, -, hu', h⟩ := eachLine_cons_eq_ok hframes hnodup hu h
      rw [List.map_cons, List.nodup_cons] at hnodup
      have hdone := hcomplete { line := l, following := _, lines, inGroup } d id d₁ hwf hv hlines hid
      have hgrow := ((hframes _).of_ok hid).trans (grows_put d₁ l.label id)
      have hrest := ih (hdone.wellFormed.put l.label hdone.has) (hgrow.hosts hv)
        (fun l' hl' => Nat.lt_of_lt_of_le (hlines l' hl') hgrow.size_le) hnodup.2 hu' h
      have hline := hmake { line := l, following := _, lines, inGroup } d id d₁ hwf hv hlines hid
      rw [hrest, tally_put, hline, List.flatMap_cons, Tally.ofInstructions_append, add_assoc]

theorem sequence_tally {numbered : List (Index × Instruction)} {d d' : Draft} {entry : StateId}
    (hwf : d.WellFormed) (hv : d.Hosts visible)
    (h : sequence make inGroup numbered d = .ok entry d') :
    d'.tally = d.tally + .ofInstructions (numbered.flatMap fun p => parts p.2) := by
  obtain ⟨first, rest, d₁, hlabels, hnumbered, heach, -, rfl⟩ := sequence_eq_ok h
  obtain ⟨hnodup, hu⟩ := fresh_labels hlabels
  have hlines := eachLine_tally hframes hcomplete hmake (hwf.handOut numbered.length)
    ((grows_handOut d numbered.length).hosts hv)
    (fun l hl => (hu l.label (List.mem_map_of_mem hl)).1) hnodup hu heach
  rw [tally_handOut] at hlines
  rw [tally_log, hlines, ← hnumbered, List.flatMap_map]
  exact add_zero _

end Lines

/-- A command other than a group uses up what it says on its own. -/
theorem made_tally {group : Site → List Instruction → Build StateId} {visible : Visible}
    {s : Site} {d d' : Draft} {id : StateId} (hv : d.Hosts visible)
    (h : Made group visible s (d.log (.producing s.index s.kind)) id d') :
    (s.line.instruction.withMembers = [s.line.instruction] ∧
      d'.tally = d.tally + .ofInstructions [s.line.instruction]) ∨
    ∃ members, s.line.instruction.command = .group members ∧
      group s members (d.log (.producing s.index s.kind)) = .ok id d' := by
  have hproducing : (d.log (.producing s.index s.kind)).tally =
      d.tally + { produced := [s.kind] } := tally_log d _
  cases h with
  | act hcommand _ hrun =>
      left
      refine ⟨by simp [Instruction.withMembers, hcommand], ?_⟩
      rw [Tally.ofInstructions_singleton hcommand, share_tally hrun, hproducing, add_assoc]
      rfl
  | stop hcommand _ _ hdraft =>
      left
      refine ⟨by simp [Instruction.withMembers, hcommand], ?_⟩
      rw [Tally.ofInstructions_singleton hcommand, hdraft, hproducing]
      rfl
  | check hcommand _ hrun =>
      left
      refine ⟨by simp [Instruction.withMembers, hcommand], ?_⟩
      rw [Tally.ofInstructions_singleton hcommand, share_tally hrun, hproducing, add_assoc]
      rfl
  | @call name entry next hcommand hcallee _ hrun =>
      left
      refine ⟨by simp [Instruction.withMembers, hcommand], ?_⟩
      -- a subroutine that can be called has its entry state from its declaration
      have hmem : (name, entry) ∈ visible := by
        obtain ⟨pre, post, hsplit, -⟩ :=
          List.lookup_eq_some_iff.mp (Visible.callee_eq_ok hcallee).2
        simp [hsplit]
      obtain ⟨l, hl⟩ := hv _ hmem
      have hentry : ((d.log (.producing s.index s.kind)).state? entry).isSome := by
        rw [(grows_log d _).state? hl]
        rfl
      rw [Tally.ofInstructions_singleton hcommand, enter_tally hentry hrun, hproducing, add_assoc]
      rfl
  | group hcommand hrun => exact Or.inr ⟨_, hcommand, hrun⟩

theorem member_uses (visible : Visible) : Uses visible (member visible) fun i => [i] := by
  intro s d id d' _ hv _ h
  rcases made_tally hv (instructionWith_eq_ok h) with ⟨-, htally⟩ | ⟨members, -, hrun⟩
  · exact htally
  · cases hrun

theorem instruction_uses (visible : Visible) :
    Uses visible (instruction visible) Instruction.withMembers := by
  intro s d id d' hwf hv hw h
  rcases made_tally hv (instructionWith_eq_ok h) with ⟨hparts, htally⟩ | ⟨members, hcommand, hrun⟩
  · rw [hparts]
    exact htally
  · obtain ⟨entry, d₁, next, hseq, -, henter⟩ := group_eq_ok hrun
    have hwf₀ := hwf.log (.producing s.index s.kind)
    have hmembers := sequence_tally (frames_member visible) (member_completed visible)
      (member_uses visible) hwf₀ hv hseq
    -- the first member has its state by now, so there is something to enter
    have hentry := isSome_of_members hwf₀ hv hseq
    rw [← List.map_eq_flatMap, map_snd_numberMembers] at hmembers
    have hparts : s.line.instruction.withMembers = [s.line.instruction] ++ members := by
      simp [Instruction.withMembers, hcommand]
    calc d'.tally
      _ = d₁.tally + .ask 2 := by
          rw [enter_tally (d := d₁.log _) hentry henter, tally_log]
          exact congrArg (· + Tally.ask 2) (add_zero _)
      _ = d.tally + ({ produced := [s.kind] } + .ofInstructions members + .ask 2) := by
          rw [hmembers, tally_log, add_assoc, add_assoc, add_assoc]
          rfl
      _ = d.tally + .ofInstructions s.line.instruction.withMembers := by
          rw [hparts, Tally.ofInstructions_append, Tally.ofInstructions_singleton hcommand,
            add_assoc, add_assoc, Tally.ask_add_comm]
          rfl

end Build

/-! ## Scopes -/

namespace Scope

/-- What a scope uses up, with an entry for each body in it. -/
def tally (s : Scope) : Tally :=
  { entries := s.bodyNames.length, bound := s.bodyNames } + .ofInstructions s.allInstructions

/-- What the bodies in a scope use up when their own entries have been counted. -/
def bodyTally (s : Scope) : Tally :=
  { entries := s.bodyNames.length - s.subroutines.length, bound := s.bodyNames } +
    .ofInstructions s.bodyInstructions

theorem flatMap_numbered {s : Scope} {seen : List Index} (h : s.checkKeys seen = .ok ()) :
    (s.numbered.flatMap fun p => p.2.withMembers) = s.ownInstructions := by
  induction s generalizing seen with
  | nil => rfl
  | instr key i rest ih =>
      obtain ⟨index, hkey, -, hrest⟩ := checkKeys_instr h
      rw [numbered, hkey, List.flatMap_cons, ih hrest, ownInstructions]
  | sub key body rest _ ih => exact ih (checkKeys_sub h).2.2

theorem bodyTally_sub (name : Key) (body rest : Scope) :
    (sub name body rest).bodyTally = body.tally + { bound := [name] } + rest.bodyTally := by
  ext1
  · simp [bodyTally, tally, bodyNames, subroutines, Tally.ofInstructions]
    omega
  · simp [bodyTally, tally, bodyInstructions, allInstructions, Tally.ofInstructions_append,
      add_assoc]
  · simp [bodyTally, tally, bodyInstructions, allInstructions, Tally.ofInstructions_append]
  · simp [bodyTally, tally, bodyNames, Tally.ofInstructions]

theorem tally_eq (s : Scope) :
    s.tally = { entries := s.subroutines.length } + s.bodyTally +
      .ofInstructions s.ownInstructions := by
  ext1
  · simp [bodyTally, tally, Tally.ofInstructions]
  all_goals simp [bodyTally, tally, allInstructions, Tally.ofInstructions_append]

end Scope

namespace Build

open Draft

/-- Compiling the bodies of `s` uses up what is in them. -/
def UsesBodies (s : Scope) : Prop :=
  ∀ (visible : Visible) (labels : List Label) (d d' : Draft), d.WellFormed → d.Hosts visible →
    labels.Nodup → Unplaced labels d → labels.length = s.subroutines.length →
    bodies s visible labels d = .ok () d' → d'.tally = d.tally + s.bodyTally

theorem scope_tally {s : Scope} (hbodies : UsesBodies s) {visible : Visible} {d d' : Draft}
    {entry : StateId} (hwf : d.WellFormed) (hv : d.Hosts visible)
    (h : scope s visible d = .ok entry d') : d'.tally = d.tally + s.tally := by
  obtain ⟨entries, d₁, hkeys, -, hentries, hrun, hseq⟩ := scopeWith_eq_ok h
  have hv₀ := hosts_append hentries ((grows_addEntries d s.subroutines.length).hosts hv)
  have hnodup := nodup_newLabels d s.subroutines.length
  have hu := unplaced_addEntries d s.subroutines.length
  have hlength : (d.newLabels s.subroutines.length).length = s.subroutines.length := by
    simp [newLabels]
  have hgrow := growsBodies s (entries ++ visible) _ _ hnodup hu
  rw [final_of_ok hrun] at hgrow
  obtain ⟨hwf₁, -, -⟩ :=
    completesBodies s _ _ _ _ (hwf.addEntries _) hv₀ hnodup hu hlength hrun
  have hown := sequence_tally (frames_instruction _) (instruction_completed _)
    (instruction_uses _) hwf₁ (hgrow.hosts hv₀) hseq
  rw [Scope.flatMap_numbered hkeys] at hown
  rw [hown, hbodies _ _ _ _ (hwf.addEntries _) hv₀ hnodup hu hlength hrun, tally_addEntries,
    s.tally_eq]
  simp only [add_assoc]

theorem usesBodies (s : Scope) : UsesBodies s := by
  induction s with
  | nil =>
      intro visible labels d d' _ _ _ _ _ h
      cases h
      exact (add_zero _).symm
  | instr key i rest ih => exact ih
  | sub name body rest ihbody ihrest =>
      intro visible labels d d' hwf hv hnodup hu hlength h
      cases labels with
      | nil => simp [Scope.subroutines] at hlength
      | cons label labels =>
          obtain ⟨entry, d₁, hbody, -, hu', hrest⟩ := bodies_sub_eq_ok hnodup hu h
          have hdone := scope_completed (completesBodies body) hwf hv hbody
          have hgrow := ((frames_scope body visible).of_ok hbody).trans
            (grows_put d₁ label entry)
          rw [ihrest visible labels _ d' ((hdone.wellFormed.put label hdone.has).log _)
              (hgrow.hosts hv) (List.nodup_cons.mp hnodup).2 hu'
              (by simpa [Scope.subroutines] using hlength) hrest,
            tally_log, tally_put, scope_tally ihbody hwf hv hbody, Scope.bodyTally_sub]
          simp only [add_assoc]
          rfl

/-- A program that compiles has used up its tally. -/
theorem program_tally {s : Scope} {d : Draft} {entry : StateId}
    (h : scope s [] {} = .ok entry d) : d.tally = s.tally := by
  rw [scope_tally (usesBodies s) wellFormed_empty (hosts_nil _) h]
  exact zero_add _

end Build

/-! ## Compiled programs -/

namespace Draft

variable (d : Draft)

theorem entries_tally : d.tally.entries = d.states.size - d.recipes.size := by
  simp [tally, CompileEvent.sum_tally]

theorem asked_tally : d.tally.asked = d.recipes.size + d.events.countP (·.isReuse) := by
  simp [tally, CompileEvent.sum_tally]

theorem produced_tally : d.tally.produced = d.events.toList.filterMap (·.produced?) := by
  simp [tally, CompileEvent.sum_tally]

theorem bound_tally : d.tally.bound = d.events.toList.filterMap (·.bound?) := by
  simp [tally, CompileEvent.sum_tally]

end Draft

/-- No instruction asks for more than two recipes. -/
theorem Tally.asked_ofInstructions_le (l : List Instruction) :
    (ofInstructions l).asked ≤ 2 * l.length := by
  induction l with
  | nil => exact Nat.le_refl 0
  | cons i l ih =>
      have hone : (ofInstructions [i]).asked ≤ 2 := by
        cases hcommand : i.command <;>
          simp [ofInstructions, hcommand, Command.isStep, Command.isEntry]
      have hcons := congrArg asked (ofInstructions_append [i] l)
      rw [List.singleton_append, asked_add] at hcons
      rw [hcons, List.length_cons]
      omega

theorem Scope.compileLogged_of_ok {program : Scope} {entry : StateId} {d : Draft}
    (h : Build.scope program [] {} = .ok entry d) :
    program.compileLogged.2 =
      d.events ++ #[.compiled d.states.size d.recipes.size entry, .listing d.graph] := by
  rw [compileLogged, h]
  simp [(Build.program_completed h).link_eq_ok]

/-- A graph has a state for each recipe that was followed and for each body of the program. Every
move, write, check and the like has asked for one recipe and every call and group for two, and those
that had been followed before are reported as used again. So each body is made once, however often
it is called, each instruction is made once as well, and the graph is no larger than twice the
program. -/
theorem Scope.compile_accounts {program : Scope} {a : Automaton} (h : program.compile = .ok a) :
    ∃ d, Build.scope program [] {} = .ok a.entry d ∧
      program.compileLogged.2 =
        d.events ++ #[.compiled a.graph.size d.recipes.size a.entry, .listing a.graph] ∧
      a.graph.size = d.recipes.size + program.bodyNames.length ∧
      d.recipes.size + program.compileLogged.2.countP (·.isReuse) =
        program.allInstructions.countP (·.command.isStep) +
          2 * program.allInstructions.countP (·.command.isEntry) ∧
      program.compileLogged.2.toList.filterMap (·.bound?) = program.bodyNames ∧
      program.compileLogged.2.toList.filterMap (·.produced?) =
        program.allInstructions.map (·.kind) ∧
      a.graph.size ≤ 2 * program.allInstructions.length + program.bodyNames.length := by
  obtain ⟨entry, d, hscope, rfl⟩ := compile_eq_ok h
  have htally := Build.program_tally hscope
  have hsize : d.graph.size = d.states.size := by simp [Draft.graph, Graph.size]
  have hstates : d.states.size = d.recipes.size + program.bodyNames.length := by
    have hentries : (d.states.size - d.recipes.size : ℤ) = program.bodyNames.length := by
      rw [← d.entries_tally, htally]
      simp [tally, Tally.ofInstructions]
    omega
  have hasked : d.recipes.size + d.events.countP (·.isReuse) =
      (Tally.ofInstructions program.allInstructions).asked := by
    rw [← d.asked_tally, htally]
    simp [tally]
  have hle := Tally.asked_ofInstructions_le program.allInstructions
  have hlog := compileLogged_of_ok hscope
  refine ⟨d, hscope, hsize.symm ▸ hlog, hsize.trans hstates, ?_, ?_, ?_, ?_⟩
  · rw [hlog, Array.countP_append]
    exact hasked
  · rw [hlog, Array.toList_append, List.filterMap_append, ← d.bound_tally, htally]
    simp [tally, Tally.ofInstructions, CompileEvent.bound?]
  · rw [hlog, Array.toList_append, List.filterMap_append, ← d.produced_tally, htally]
    simp [tally, Tally.ofInstructions, CompileEvent.produced?]
  · rw [hsize, hstates]
    omega

/-- The body is called from two places and made once; two of nine recipes had been followed
before. -/
theorem Scope.fill_accounts :
    ∃ a, fill.compile = .ok a ∧ a.graph.size = 8 ∧ fill.bodyNames = ["fill"] ∧
      fill.allInstructions.length = 7 ∧
      ∃ recipes, a.graph.size = recipes + 1 ∧
        recipes + fill.compileLogged.2.countP (·.isReuse) = 3 + 2 * 3 ∧
        fill.compileLogged.2.countP (·.isReuse) = 2 := by
  cases h : fill.compile with
  | error e =>
      have hcompiles : fill.compile.toOption.isSome := by decide +kernel
      rw [h] at hcompiles
      cases hcompiles
  | ok a =>
      obtain ⟨d, -, -, hsize, hasked, -⟩ := compile_accounts h
      have hreuses : fill.compileLogged.2.countP (·.isReuse) = 2 := by decide +kernel
      have hcounts : fill.allInstructions.countP (·.command.isStep) +
          2 * fill.allInstructions.countP (·.command.isEntry) = 3 + 2 * 3 := by decide +kernel
      have hone : fill.bodyNames.length = 1 := rfl
      rw [hone] at hsize
      rw [hcounts] at hasked
      exact ⟨a, rfl, by omega, rfl, rfl, d.recipes.size, hsize, hasked, hreuses⟩

end TapeMachine
