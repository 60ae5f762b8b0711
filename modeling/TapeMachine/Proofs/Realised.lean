import Mathlib.Algebra.Order.Ring.Nat
import TapeMachine.Proofs.Compiled

/-!
# What a compiled program consists of

Whatever is compiled later leaves the states, places and recipes of a draft as
they are. So what the steps of a compilation have made can be read off the
finished draft: each line of a sequence has its label on a state that the recipe
of its instruction stands for, a group has lines of its own and a state that
enters the first, and the entry of each subroutine leads to the first line of its
body.

Nothing here speaks of runs. The recipes of a line say which other lines its
state leads to, and the forward references are gone.
-/

namespace TapeMachine

/-- The members of a group are numbered by words of 64 bits, and are fewer than there are words. -/
def Instruction.Fits (i : Instruction) : Prop :=
  match i.command with
  | .group members => members.length < 2 ^ 64
  | _ => True

/-- Every group of the program fits, the bodies included. -/
def Scope.GroupsFit : Scope → Prop
  | nil => True
  | instr _ i rest => i.Fits ∧ rest.GroupsFit
  | sub _ body rest => body.GroupsFit ∧ rest.GroupsFit

instance : (i : Instruction) → Decidable i.Fits
  | ⟨.group members, _⟩ => inferInstanceAs (Decidable (members.length < 2 ^ 64))
  | ⟨.act _, _⟩ | ⟨.stop, _⟩ | ⟨.check _ _, _⟩ | ⟨.call _, _⟩ => isTrue trivial

def Scope.decGroupsFit : (s : Scope) → Decidable s.GroupsFit
  | nil => isTrue trivial
  | instr _ _ rest =>
    have := rest.decGroupsFit
    inferInstanceAs (Decidable (_ ∧ _))
  | sub _ body rest =>
    have := body.decGroupsFit
    have := rest.decGroupsFit
    inferInstanceAs (Decidable (_ ∧ _))

instance (s : Scope) : Decidable s.GroupsFit := s.decGroupsFit

theorem Scope.GroupsFit.fits {s : Scope} (h : s.GroupsFit) {p : Index × Instruction}
    (hp : p ∈ s.numbered) : p.2.Fits := by
  induction s with
  | nil => cases hp
  | instr key i rest ih =>
      cases hkey : key.index? with
      | none =>
          simp only [numbered, hkey] at hp
          exact ih h.2 hp
      | some index =>
          simp only [numbered, hkey, List.mem_cons] at hp
          rcases hp with rfl | hp
          · exact h.1
          · exact ih h.2 hp
  | sub key body rest _ ih => exact ih h.2 hp

/-- The line without its label. -/
def Line.numbered (l : Line) : Index × Instruction :=
  (l.index, l.instruction)

namespace Site

theorem inGroup_of_requireFinal (s : Site) (h : s.requireFinal = .ok ()) : s.inGroup = false := by
  unfold requireFinal at h
  split at h
  · cases h
  · split at h
    · cases h
    · rename_i hfree
      simpa using hfree

theorem inGroup_of_branches (s : Site) {ifMarked otherwise : Index} {targets : Target × Target}
    (h : s.branches ifMarked otherwise = .ok targets) : s.inGroup = false :=
  s.inGroup_of_requireFinal (branches_eq_ok_iff.mp h).1

end Site

/-- The site of the line `l` that stands before `rest`. -/
def Site.before (inGroup : Bool) (lines : List Line) (l : Line) (rest : List Line) : Site where
  line := l
  following := rest.head?.map (·.index)
  lines := lines
  inGroup := inGroup

namespace Draft

/-! ## Finished drafts -/

/-- All that `d` holds is in `D` as well. -/
structure Survives (d D : Draft) : Prop where
  state? : ∀ id s, d.state? id = some s → D.state? id = some s
  place? : ∀ l id, d.place? l = some id → D.place? l = some id
  recipes : ∀ (r : Recipe) (id : StateId), d.recipes[r]? = some id → D.recipes[r]? = some id

theorem Survives.refl (d : Draft) : Survives d d :=
  ⟨fun _ _ h => h, fun _ _ h => h, fun _ _ h => h⟩

theorem Grows.survives {pending : List Label} {d d' D : Draft} (h : Grows pending d d')
    (hu : Unplaced pending d) (hD : Survives d' D) : Survives d D where
  state? := fun id s hs => hD.state? id s (h.state? hs)
  place? := fun l id hl => hD.place? l id (h.keeps hu hl)
  recipes := fun r id hr => hD.recipes r id (h.recipes r id hr)

theorem locate_of_place? {d : Draft} {l : Label} {id : StateId} (h : d.place? l = some id) :
    d.locate (.label l) = id := by
  simp [locate, h]

/-- The state of the first of some lines, and halt past the last. -/
def first (d : Draft) : List Line → StateId
  | [] => .halt
  | l :: _ => d.locate (.label l.label)

/-! ## Instructions -/

/-- What the state `id` of a command other than a group is. -/
inductive Performs (d : Draft) (visible : Visible) (s : Site) (id : StateId) : Prop
  | act {action : Action} {next : Target}
      (command : s.line.instruction.command = .act action)
      (continuation : s.continuation = .ok next)
      (recipe : d.recipes[Recipe.act action next]? = some id)
  | stop
      (command : s.line.instruction.command = .stop)
      (notInGroup : s.inGroup = false)
      (id_eq : id = .halt)
  | check {ifMarked otherwise : Index} {marked blank : Target}
      (command : s.line.instruction.command = .check ifMarked otherwise)
      (notInGroup : s.inGroup = false)
      (branches : s.branches ifMarked otherwise = .ok (marked, blank))
      (recipe : d.recipes[Recipe.check marked blank]? = some id)
  | call {name : Key} {entry : StateId} {next : Target}
      (command : s.line.instruction.command = .call name)
      (callee : visible.lookup name = some entry)
      (continuation : s.continuation = .ok next)
      (recipe : d.recipes[Recipe.enter entry next]? = some id)

/-- Every line has its label on a state for which `made` holds. -/
def Sequenced (d : Draft) (made : Site → StateId → Prop) (inGroup : Bool) (lines : List Line) :
    Prop :=
  ∀ pre l rest, lines = pre ++ l :: rest →
    made (.before inGroup lines l rest) (d.locate (.label l.label))

/-- What the state `id` of an instruction is. The members of a group are lines of their own. -/
inductive Realises (d : Draft) (visible : Visible) (s : Site) (id : StateId) : Prop
  | plain (performs : d.Performs visible s id)
  | group {members : List Instruction} {l : Line} {rest : List Line} {next : Target}
      (command : s.line.instruction.command = .group members)
      (fits : members.length < 2 ^ 64)
      (numbered : (l :: rest).map Line.numbered = numberMembers members)
      (lines : d.Sequenced (d.Performs visible) true (l :: rest))
      (continuation : s.continuation = .ok next)
      (recipe : d.recipes[Recipe.enter (d.first (l :: rest)) next]? = some id)

/-! ## Scopes -/

/-- The scope has been compiled and starts at `start`; `bodies` says so of the bodies in it, given
what they can see and their own entries. -/
def HoldsWith (d : Draft) (bodies : Visible → Visible → Prop) (s : Scope) (visible : Visible)
    (start : StateId) : Prop :=
  ∃ entries lines,
    s.checkKeys [] = .ok () ∧
    bodies (entries ++ visible) entries ∧
    lines.map Line.numbered = s.numbered ∧
    d.Sequenced (d.Realises (entries ++ visible)) false lines ∧
    d.first lines = start

/-- The entry of each subroutine goes to the start of its body, and that has been compiled. -/
def HoldsBodies (d : Draft) : Scope → Visible → Visible → Prop
  | .nil, _, entries => entries = []
  | .instr _ _ rest, visible, entries => d.HoldsBodies rest visible entries
  | .sub _ _ _, _, [] => False
  | .sub name body rest, visible, (key, entry) :: entries =>
      key = name ∧
      (∃ label, d.state? entry = some (entryState label) ∧
        d.HoldsWith (d.HoldsBodies body) body visible (d.locate (.label label))) ∧
      d.HoldsBodies rest visible entries

def Holds (d : Draft) (s : Scope) (visible : Visible) (start : StateId) : Prop :=
  d.HoldsWith (d.HoldsBodies s) s visible start

end Draft

namespace Build

open Draft

/-! ## Every step makes what it is to make -/

/-- What `make` leaves for a site is there in every draft that comes later. -/
def Makes (visible : Visible) (make : Site → Build StateId)
    (made : Draft → Site → StateId → Prop) : Prop :=
  ∀ (s : Site) (d : Draft) (id : StateId) (d' D : Draft), d.WellFormed → d.Hosts visible →
    s.Within d → make s d = .ok id d' → Survives d' D → made D s id

section Lines

variable {make : Site → Build StateId} {made : Draft → Site → StateId → Prop}
  {visible : Visible} {inGroup : Bool}

theorem eachLine_made (hframes : ∀ s, Frames (make s)) (hcomplete : Completes visible make)
    (hmake : Makes visible make made) {lines rest : List Line} {d d' D : Draft}
    (hwf : d.WellFormed) (hv : d.Hosts visible)
    (hlines : ∀ l ∈ lines, l.label.number < d.places.size)
    (hnodup : (rest.map (·.label)).Nodup) (hu : Unplaced (rest.map (·.label)) d)
    (h : eachLine make inGroup lines rest d = .ok () d') (hD : Survives d' D) :
    ∀ pre l post, rest = pre ++ l :: post →
      made D (.before inGroup lines l post) (D.locate (.label l.label)) := by
  induction rest generalizing d with
  | nil => simp
  | cons first rest ih =>
      obtain ⟨id, d₁, hid, hlt, hu', h⟩ := eachLine_cons_eq_ok hframes hnodup hu h
      rw [List.map_cons, List.nodup_cons] at hnodup
      have hgrow := ((hframes _).of_ok hid).trans (grows_put d₁ first.label id)
      have hdone := hcomplete (.before inGroup lines first rest) d id d₁ hwf hv hlines hid
      have hafter := grows_eachLine inGroup lines hframes hnodup.2 hu'
      rw [final_of_ok h] at hafter
      have hput := hafter.survives hu' hD
      intro pre l post hsplit
      cases pre with
      | nil =>
          obtain ⟨rfl, rfl⟩ := List.cons.inj hsplit
          rw [locate_of_place? (hput.place? _ _ (place?_put_self hlt id))]
          refine hmake (.before inGroup lines first rest) d id d₁ D hwf hv hlines hid ?_
          have hfirst := ((hframes _).of_ok hid).unplaced hu.head (by simp)
          exact (grows_put d₁ first.label id).survives hfirst hput
      | cons _ pre =>
          obtain ⟨rfl, htail⟩ := List.cons.inj hsplit
          exact ih (hdone.wellFormed.put first.label hdone.has) (hgrow.hosts hv)
            (fun l' hl' => Nat.lt_of_lt_of_le (hlines l' hl') hgrow.size_le) hnodup.2 hu' h
            pre l post htail

theorem sequence_made (hframes : ∀ s, Frames (make s)) (hcomplete : Completes visible make)
    (hmake : Makes visible make made) {numbered : List (Index × Instruction)}
    {d d' D : Draft} {entry : StateId} (hwf : d.WellFormed) (hv : d.Hosts visible)
    (h : sequence make inGroup numbered d = .ok entry d') (hD : Survives d' D) :
    ∃ l rest,
      (l :: rest).map Line.numbered = numbered ∧
      D.Sequenced (made D) inGroup (l :: rest) ∧
      D.first (l :: rest) = entry := by
  obtain ⟨l, rest, d₁, hlabels, hnumbered, heach, hplace, rfl⟩ := sequence_eq_ok h
  obtain ⟨hnodup, hu⟩ := fresh_labels hlabels
  have hlines : ∀ l' ∈ l :: rest, l'.label.number < (d.handOut numbered.length).places.size :=
    fun l' hl' => (hu l'.label (List.mem_map_of_mem hl')).1
  refine ⟨l, rest, hnumbered, ?_, locate_of_place? (hD.place? _ _ hplace)⟩
  exact eachLine_made hframes hcomplete hmake (hwf.handOut numbered.length)
    ((grows_handOut d numbered.length).hosts hv) hlines hnodup hu heach
    ((grows_log d₁ _).survives unplaced_nil hD)

end Lines

/-- A state that was made for a command other than a group is what the command asks for. -/
theorem performs_of_made {group : Site → List Instruction → Build StateId} {visible : Visible}
    {s : Site} {d d' D : Draft} {id : StateId} (hv : d.Hosts visible)
    (h : Made group visible s d id d') (hD : Survives d' D) :
    D.Performs visible s id ∨
      ∃ members, s.line.instruction.command = .group members ∧ group s members d = .ok id d' := by
  cases h with
  | act hcommand hnext hrun =>
      exact Or.inl (.act hcommand hnext (hD.recipes _ _ (share_recipe hrun)))
  | stop hcommand hfinal hid _ =>
      exact Or.inl (.stop hcommand (s.inGroup_of_requireFinal hfinal) hid)
  | check hcommand hbranches hrun =>
      exact Or.inl (.check hcommand (s.inGroup_of_branches hbranches) hbranches
        (hD.recipes _ _ (share_recipe hrun)))
  | @call name entry next hcommand hcallee hnext hrun =>
      have hlookup := (Visible.callee_eq_ok hcallee).2
      obtain ⟨pre, post, hsplit, -⟩ := List.lookup_eq_some_iff.mp hlookup
      have hmem : (name, entry) ∈ visible := by simp [hsplit]
      obtain ⟨label, hentry⟩ := hv (name, entry) hmem
      refine Or.inl (.call hcommand hlookup hnext (hD.recipes _ _ (enter_recipe ?_ hrun)))
      rw [hentry]
      rfl
  | group hcommand hrun => exact Or.inr ⟨_, hcommand, hrun⟩

theorem member_made (visible : Visible) :
    Makes visible (member visible) fun D => D.Performs visible := by
  intro s d id d' D hwf hv hw h hD
  rcases performs_of_made (d := d.log _) hv (instructionWith_eq_ok h) hD with
    hperforms | ⟨members, -, hrun⟩
  · exact hperforms
  · cases hrun

/-- The state of a line in a group is there: it is neither that of a stop nor that of a check. -/
theorem isSome_of_performs {visible : Visible} {s : Site} {d : Draft} {id : StateId}
    (hwf : d.WellFormed) (hgroup : s.inGroup = true) (h : d.Performs visible s id) :
    (d.state? id).isSome := by
  cases h with
  | act _ _ hrecipe =>
      have hstate := hwf.recipes _ _ hrecipe
      simp only [Describes] at hstate
      simp [hstate]
  | stop _ hfree _ => simp [hfree] at hgroup
  | check _ hfree _ _ => simp [hfree] at hgroup
  | call _ _ _ hrecipe =>
      obtain ⟨s', back, -, -, hstate⟩ := hwf.recipes _ _ hrecipe
      simp [hstate]

/-- The first member of a group has its state by now: there is something to enter. -/
theorem isSome_of_members {visible : Visible} {numbered : List (Index × Instruction)}
    {d d' : Draft} {entry : StateId} (hwf : d.WellFormed) (hv : d.Hosts visible)
    (h : sequence (member visible) true numbered d = .ok entry d') :
    (d'.state? entry).isSome := by
  have hdone := sequence_completed (frames_member visible) (member_completed visible) hwf hv h
  obtain ⟨l, rest, -, hlines, rfl⟩ := sequence_made (frames_member visible)
    (member_completed visible) (member_made visible) hwf hv h (Survives.refl d')
  exact isSome_of_performs hdone.wellFormed rfl (hlines [] l rest rfl)

theorem group_made {visible : Visible} {s : Site} {members : List Instruction} {d d' D : Draft}
    {id : StateId} (hcommand : s.line.instruction.command = .group members)
    (hfits : members.length < 2 ^ 64) (hwf : d.WellFormed) (hv : d.Hosts visible)
    (h : group visible s members d = .ok id d') (hD : Survives d' D) :
    D.Realises visible s id := by
  obtain ⟨entry, d₁, next, hseq, hnext, henter⟩ := group_eq_ok h
  have hframes := frames_member visible
  have hcomplete := member_completed visible
  have hgrow := (grows_log d₁ (.groupInlined s.index members.length)).trans
    ((frames_enter entry next).of_ok henter)
  have hentry := isSome_of_members hwf hv hseq
  obtain ⟨l, rest, hnumbered, hlines, rfl⟩ := sequence_made hframes hcomplete
    (member_made visible) hwf hv hseq (hgrow.survives unplaced_nil hD)
  exact .group hcommand hfits hnumbered hlines hnext
    (hD.recipes _ _ (enter_recipe (d := d₁.log _) hentry henter))

theorem instruction_made (visible : Visible) :
    Makes visible (instruction visible) fun D s id =>
      s.line.instruction.Fits → D.Realises visible s id := by
  intro s d id d' D hwf hv hw h hD hfits
  rcases performs_of_made (d := d.log _) hv (instructionWith_eq_ok h) hD with
    hperforms | ⟨members, hc, hrun⟩
  · exact .plain hperforms
  · have hlength : members.length < 2 ^ 64 := by simpa [Instruction.Fits, hc] using hfits
    exact group_made hc hlength (hwf.log _) hv hrun hD

/-- Compiling the bodies of `s` leaves them where their entries go. -/
def MakesBodies (s : Scope) : Prop :=
  ∀ (visible entries : Visible) (labels : List Label) (d d' D : Draft), s.GroupsFit →
    d.WellFormed → d.Hosts visible → labels.Nodup → Unplaced labels d →
    entries.map Prod.fst = s.subroutines.map Prod.fst →
    List.Forall₂ (fun p l => d.state? p.2 = some (entryState l)) entries labels →
    bodies s visible labels d = .ok () d' → Survives d' D → D.HoldsBodies s visible entries

theorem scope_made {s : Scope} (hbodies : MakesBodies s) (hfits : s.GroupsFit)
    {visible : Visible} {d d' D : Draft} {start : StateId} (hwf : d.WellFormed)
    (hv : d.Hosts visible) (h : scope s visible d = .ok start d') (hD : Survives d' D) :
    D.Holds s visible start := by
  obtain ⟨entries, d₁, hkeys, hnames, hentries, hrun, hseq⟩ := scopeWith_eq_ok h
  have hnodup := nodup_newLabels d s.subroutines.length
  have hu := unplaced_addEntries d s.subroutines.length
  have hv₀ := hosts_append hentries ((grows_addEntries d s.subroutines.length).hosts hv)
  have hwf₀ := hwf.addEntries s.subroutines.length
  have hgrow := growsBodies s (entries ++ visible) _ _ hnodup hu
  rw [final_of_ok hrun] at hgrow
  have hwf₁ := (completesBodies s _ _ _ _ hwf₀ hv₀ hnodup hu (by simp [newLabels]) hrun).1
  have hframes := frames_instruction (entries ++ visible)
  obtain ⟨l, rest, hnumbered, hlines, hstart⟩ := sequence_made hframes
    (instruction_completed (entries ++ visible)) (instruction_made (entries ++ visible)) hwf₁
    (hgrow.hosts hv₀) hseq hD
  refine ⟨entries, l :: rest, hkeys, ?_, hnumbered, ?_, hstart⟩
  · have hD₁ := ((frames_sequence hframes false _).of_ok hseq).survives unplaced_nil hD
    exact hbodies _ _ _ _ d₁ D hfits hwf₀ hv₀ hnodup hu hnames hentries hrun hD₁
  · intro pre l' post hsplit
    refine hlines pre l' post hsplit ?_
    have hmem : l'.numbered ∈ s.numbered := by
      rw [← hnumbered, hsplit]
      simp
    exact hfits.fits hmem

theorem makesBodies (s : Scope) : MakesBodies s := by
  induction s with
  | nil =>
      intro visible entries labels d d' D _ _ _ _ _ hnames _ _ _
      exact List.map_eq_nil_iff.mp hnames
  | instr key i rest ih =>
      intro visible entries labels d d' D hfits
      exact ih visible entries labels d d' D hfits.2
  | sub name body rest ihbody ihrest =>
      intro visible entries labels d d' D hfits hwf hv hnodup hu hnames hentries h hD
      cases hentries with
      | nil => simp [Scope.subroutines] at hnames
      | @cons p label entries labels hstate htail =>
          obtain ⟨key, entry⟩ := p
          obtain ⟨rfl, hnames'⟩ := List.cons.inj hnames
          obtain ⟨start, d₁, hbody, hlt, hu', hrest⟩ := bodies_sub_eq_ok hnodup hu h
          have hdone := scope_completed (completesBodies body) hwf hv hbody
          have hlabels := (List.nodup_cons.mp hnodup).2
          have hafter := growsBodies rest visible labels _ hlabels hu'
          rw [final_of_ok hrest] at hafter
          have hput := (grows_log (d₁.put label start) _).survives unplaced_nil
            (hafter.survives hu' hD)
          have hgrow := ((frames_scope body visible).of_ok hbody).trans
            (grows_put d₁ label start)
          refine ⟨rfl, ⟨label, hput.state? _ _ (hgrow.state? hstate), ?_⟩, ?_⟩
          · rw [locate_of_place? (hput.place? _ _ (place?_put_self hlt start))]
            have hlabel := ((frames_scope body visible).of_ok hbody).unplaced hu.head (by simp)
            exact scope_made ihbody hfits.1 hwf hv hbody
              ((grows_put d₁ label start).survives hlabel hput)
          · refine ihrest visible entries labels _ d' D hfits.2
              ((hdone.wellFormed.put label hdone.has).log _) (hgrow.hosts hv) hlabels hu' hnames'
              ?_ hrest hD
            exact htail.imp fun p l hp => hgrow.state? hp

/-- When a program has been compiled, the draft holds all of it. -/
theorem program_made {s : Scope} (hfits : s.GroupsFit) {start : StateId} {d : Draft}
    (h : scope s [] {} = .ok start d) : d.Holds s [] start :=
  scope_made (makesBodies s) hfits wellFormed_empty (hosts_nil _) h (Survives.refl d)

end Build

end TapeMachine
