import Mathlib.Data.Set.Function
import TapeMachine.Proofs.Edits
import TapeMachine.Proofs.Mirroring

/-!
# Names and indices do not matter

The indices of each scope are replaced by others, the names of the subroutines too,
and bodies are moved among the instructions. As long as no two indices of a scope and
no two names become one, each step of the compilation is mirrored: labels are handed
out in the same order, and neither a label nor a recipe holds an index or a name. The
same automaton comes out, state by state.
-/

namespace TapeMachine

/-! ## Renaming instructions -/

/-- The instruction with another name for what it calls. This is all that there is to rename in a
member of a group: it is numbered by its place and gives no continuation. -/
def Instruction.renameCall (ν : Key → Key) (i : Instruction) : Instruction :=
  match i.command with
  | .call name => { i with command := .call (ν name) }
  | _ => i

def Command.rename (σ : Index → Index) (ν : Key → Key) : Command → Command
  | .act action => .act action
  | .stop => .stop
  | .check ifMarked otherwise => .check (σ ifMarked) (σ otherwise)
  | .call name => .call (ν name)
  | .group members => .group (members.map (·.renameCall ν))

/-- The instruction with `σ` for the indices of its scope and `ν` for the names. -/
def Instruction.rename (σ : Index → Index) (ν : Key → Key) (i : Instruction) : Instruction where
  command := i.command.rename σ ν
  next := i.next.map σ

namespace Instruction

variable (ν : Key → Key) (i : Instruction)

theorem renameCall_eq (h : i.command.isGroup = false) : i.renameCall ν = i.rename id ν := by
  obtain ⟨command, next⟩ := i
  cases command with
  | group members => cases h
  | _ => simp [renameCall, rename, Command.rename]

theorem isGroup_renameCall : (i.renameCall ν).command.isGroup = i.command.isGroup := by
  obtain ⟨command, next⟩ := i
  cases command <;> rfl

end Instruction

theorem numberMembers_map (τ : Instruction → Instruction) (members : List Instruction) :
    numberMembers (members.map τ) = (numberMembers members).map (Prod.map id τ) := by
  unfold numberMembers
  rw [List.zipIdx_map, List.map_map, List.map_map]
  rfl

/-! ## Sites -/

section Sites

variable (σ : Index → Index) (τ : Instruction → Instruction)

def Line.map (l : Line) : Line :=
  { l with index := σ l.index, instruction := τ l.instruction }

def Site.map (s : Site) : Site where
  line := s.line.map σ τ
  following := s.following.map σ
  lines := s.lines.map (Line.map σ τ)
  inGroup := s.inGroup

end Sites

namespace Site

/-- What is asked of a site so that it can be renamed: its line is one of the lines, no two of them
get the same index, and a continuation stays the continuation. -/
structure Renumbers (σ : Index → Index) (τ : Instruction → Instruction) (s : Site) : Prop where
  mem : s.line ∈ s.lines
  injOn : Set.InjOn σ {index | ∃ l ∈ s.lines, l.index = index}
  next : (τ s.line.instruction).next = s.line.instruction.next.map σ

namespace Renumbers

variable {σ : Index → Index} {τ : Instruction → Instruction} {s : Site}

theorem index_eq_iff (h : s.Renumbers σ τ) {target : Index} {line : Line}
    (hline : s.lines.find? (·.index = target) = some line) {l : Line} (hl : l ∈ s.lines) :
    σ l.index = σ target ↔ l.index = target := by
  have htarget : line.index = target := by simpa using List.find?_some hline
  constructor
  · intro heq
    exact h.injOn ⟨l, hl, rfl⟩ ⟨line, List.mem_of_find?_eq_some hline, htarget⟩ heq
  · rintro rfl
    rfl

theorem find? (h : s.Renumbers σ τ) {target : Index} {line : Line}
    (hline : s.lines.find? (·.index = target) = some line) :
    (s.map σ τ).lines.find? (·.index = σ target) = some (line.map σ τ) := by
  have hsame : ∀ l ∈ s.lines,
      ((fun l : Line => decide (l.index = σ target)) ∘ Line.map σ τ) l =
        decide (l.index = target) := by
    intro l hl
    exact decide_eq_decide.mpr (h.index_eq_iff hline hl)
  show (s.lines.map (Line.map σ τ)).find? _ = _
  rw [List.find?_map, ← List.head?_filter, List.filter_congr hsame, List.head?_filter, hline]
  rfl

theorem branch (h : s.Renumbers σ τ) {target : Index} {t : Target}
    (ht : s.branch target = .ok t) : (s.map σ τ).branch (σ target) = .ok t := by
  obtain ⟨line, hline, rfl⟩ := branch_eq_ok ht
  unfold Site.branch
  rw [h.find? hline]
  rfl

theorem continuation (h : s.Renumbers σ τ) {t : Target} (ht : s.continuation = .ok t) :
    (s.map σ τ).continuation = .ok t := by
  have hnext : (s.map σ τ).line.instruction.next = s.line.instruction.next.map σ := h.next
  have hgoes : ((s.map σ τ).line.instruction.next <|> (s.map σ τ).following) =
      (s.line.instruction.next <|> s.following).map σ := by
    rw [hnext]
    cases s.line.instruction.next <;> rfl
  obtain ⟨hgroup, hrest⟩ := continuation_eq_ok ht
  have hfree : ((s.map σ τ).inGroup && (s.map σ τ).line.instruction.next.isSome) = false := by
    rw [hnext, Bool.and_eq_false_imp]
    intro hin
    rw [hgroup hin]
    rfl
  unfold Site.continuation
  rw [hfree, hgoes]
  rcases hrest with ⟨hnone, rfl⟩ | ⟨target, line, hsome, hne, hline, rfl⟩
  · rw [hnone]
    rfl
  · have hne' : σ target ≠ (s.map σ τ).index := by
      intro heq
      exact hne ((h.index_eq_iff hline h.mem).mp heq.symm).symm
    have hbranch : s.branch target = .ok (.label line.label) := by rw [Site.branch, hline]
    rw [hsome]
    simp only [Option.map_some, if_neg hne', h.branch hbranch]
    rfl

theorem requireFinal (h : s.Renumbers σ τ) (hs : s.requireFinal = .ok ()) :
    (s.map σ τ).requireFinal = .ok () := by
  have hnext : (s.map σ τ).line.instruction.next.isSome = s.line.instruction.next.isSome := by
    show (τ s.line.instruction).next.isSome = _
    rw [h.next, Option.isSome_map]
  unfold Site.requireFinal at hs ⊢
  rw [hnext]
  split at hs
  · cases hs
  · rename_i hnone
    rw [if_neg hnone]
    split at hs
    · cases hs
    · rename_i hfree
      exact if_neg hfree

theorem branches (h : s.Renumbers σ τ) {ifMarked otherwise : Index} {targets : Target × Target}
    (hs : s.branches ifMarked otherwise = .ok targets) :
    (s.map σ τ).branches (σ ifMarked) (σ otherwise) = .ok targets := by
  obtain ⟨marked, blank⟩ := targets
  obtain ⟨hfinal, hmarked, hblank, hdiffer, hne, hne'⟩ := branches_eq_ok_iff.mp hs
  obtain ⟨m, hm, -⟩ := branch_eq_ok hmarked
  obtain ⟨o, ho, -⟩ := branch_eq_ok hblank
  have hmem : m ∈ s.lines := List.mem_of_find?_eq_some hm
  have hindex : m.index = ifMarked := by simpa using List.find?_some hm
  refine branches_eq_ok_iff.mpr
    ⟨h.requireFinal hfinal, h.branch hmarked, h.branch hblank, ?_, ?_, ?_⟩
  · intro heq
    rw [← hindex] at heq hdiffer
    exact hdiffer ((h.index_eq_iff ho hmem).mp heq)
  · intro heq
    exact hne ((h.index_eq_iff hm h.mem).mp heq)
  · intro heq
    exact hne' ((h.index_eq_iff ho h.mem).mp heq)

end Renumbers

end Site

/-! ## Names in sight -/

/-- The subroutines in sight under their new names. -/
def Visible.rename (ν : Key → Key) (visible : Visible) : Visible :=
  visible.map (Prod.map ν id)

/-- What is asked of new names: names become names, and no two become one. -/
structure Renames (ν : Key → Key) : Prop where
  isName : ∀ name, Key.isName name = true → (ν name).isName = true
  injOn : Set.InjOn ν {name | Key.isName name = true}

/-- All subroutines in sight have names. -/
def Visible.Named (visible : Visible) : Prop :=
  ∀ p ∈ visible, Key.isName p.1 = true

namespace Renames

variable {ν : Key → Key} {visible : Visible} {name : Key} {entry : StateId}

theorem lookup (hν : Renames ν) (hv : visible.Named) (hname : name.isName = true) :
    (visible.rename ν).lookup (ν name) = visible.lookup name := by
  induction visible with
  | nil => rfl
  | cons p visible ih =>
      obtain ⟨hkey, hrest⟩ := List.forall_mem_cons.mp hv
      have hsame : (ν name == ν p.1) = (name == p.1) := by
        rw [Bool.eq_iff_iff, beq_iff_eq, beq_iff_eq]
        exact hν.injOn.eq_iff hname hkey
      show List.lookup (ν name) ((ν p.1, p.2) :: Visible.rename ν visible) = _
      rw [List.lookup_cons, List.lookup_cons, hsame, ih hrest]

theorem callee (hν : Renames ν) (hv : visible.Named) (h : visible.callee name = .ok entry) :
    (visible.rename ν).callee (ν name) = .ok entry := by
  obtain ⟨hname, hlookup⟩ := Visible.callee_eq_ok h
  unfold Visible.callee
  rw [hν.isName name hname, hν.lookup hv hname, hlookup]
  rfl

end Renames

/-! ## Instructions -/

namespace Build

variable {σ : Index → Index} {ν : Key → Key} {visible : Visible}

/-- A command other than a group is mirrored by the renamed command. -/
theorem mirrors_instructionWith {group group' : Site → List Instruction → Build StateId} {s : Site}
    {τ : Instruction → Instruction} (hν : Renames ν) (hv : visible.Named) (hs : s.Renumbers σ τ)
    (hplain : s.line.instruction.command.isGroup = false)
    (hτ : (τ s.line.instruction).command = s.line.instruction.command.rename σ ν) :
    Mirrors Eq (instructionWith group visible s)
      (instructionWith group' (visible.rename ν) (s.map σ τ)) := by
  have hcommand : (s.map σ τ).line.instruction.command =
      s.line.instruction.command.rename σ ν := hτ
  have hcontinuation : Mirrors Eq (ofExcept s.continuation : Build Target)
      (ofExcept (s.map σ τ).continuation) :=
    mirrors_ofExcept fun t ht => ⟨t, hs.continuation ht, rfl⟩
  apply (mirrors_emit _ _).bind
  rintro - - -
  rw [hcommand]
  cases hc : s.line.instruction.command with
  | act action =>
      apply hcontinuation.bind
      rintro next _ rfl
      exact mirrors_share _ _
  | stop =>
      have hfinal : Mirrors Eq (ofExcept s.requireFinal : Build Unit)
          (ofExcept (s.map σ τ).requireFinal) :=
        mirrors_ofExcept fun u hu => ⟨u, hs.requireFinal hu, rfl⟩
      exact hfinal.bind fun _ _ _ => mirrors_pure rfl
  | check ifMarked otherwise =>
      have hbranches : Mirrors Eq
          (ofExcept (s.branches ifMarked otherwise) : Build (Target × Target))
          (ofExcept ((s.map σ τ).branches (σ ifMarked) (σ otherwise))) :=
        mirrors_ofExcept fun targets h => ⟨targets, hs.branches h, rfl⟩
      apply hbranches.bind
      rintro targets _ rfl
      exact mirrors_share _ _
  | call name =>
      have hcallee : Mirrors Eq (ofExcept (visible.callee name) : Build StateId)
          (ofExcept ((visible.rename ν).callee (ν name))) :=
        mirrors_ofExcept fun entry h => ⟨entry, hν.callee hv h, rfl⟩
      apply hcallee.bind
      rintro entry _ rfl
      apply hcontinuation.bind
      rintro next _ rfl
      exact mirrors_enter _ _
  | group members =>
      rw [hc] at hplain
      cases hplain

/-! ## Sequences -/

section Sequences

variable {τ : Instruction → Instruction}

theorem mirrors_labelled (numbered : List (Index × Instruction)) :
    Mirrors (fun lines lines' => lines.map Line.numbered = numbered ∧
        lines' = lines.map (Line.map σ τ))
      (labelled numbered) (labelled (numbered.map (Prod.map σ τ))) := by
  induction numbered with
  | nil => exact mirrors_pure ⟨rfl, rfl⟩
  | cons p rest ih =>
      apply mirrors_newLabel.bind
      rintro label _ rfl
      apply ih.bind
      rintro lines _ ⟨rfl, rfl⟩
      exact mirrors_pure ⟨rfl, rfl⟩

variable {make make' : Site → Build StateId} {inGroup : Bool}

theorem mirrors_eachLine {lines rest : List Line} (hrest : rest ⊆ lines)
    (hmake : ∀ l ∈ lines, ∀ rest, Mirrors Eq (make (.before inGroup lines l rest))
      (make' ((Site.before inGroup lines l rest).map σ τ))) :
    Mirrors Eq (eachLine make inGroup lines rest)
      (eachLine make' inGroup (lines.map (Line.map σ τ)) (rest.map (Line.map σ τ))) := by
  induction rest with
  | nil => exact mirrors_pure rfl
  | cons l rest ih =>
      obtain ⟨hl, hrest⟩ := List.cons_subset.mp hrest
      have hsite : Site.before inGroup (lines.map (Line.map σ τ)) (l.map σ τ)
          (rest.map (Line.map σ τ)) = (Site.before inGroup lines l rest).map σ τ := by
        cases rest <;> rfl
      have hline : Mirrors Eq (line make inGroup lines l rest)
          (line make' inGroup (lines.map (Line.map σ τ)) (l.map σ τ)
            (rest.map (Line.map σ τ))) := by
        show Mirrors Eq (make (.before inGroup lines l rest) >>= place l.label)
          (make' (.before inGroup (lines.map (Line.map σ τ)) (l.map σ τ)
            (rest.map (Line.map σ τ))) >>= place l.label)
        rw [hsite]
        apply (hmake l hl rest).bind
        rintro id _ rfl
        exact mirrors_place _ _
      exact hline.bind fun _ _ _ => ih hrest

theorem mirrors_sequence {numbered : List (Index × Instruction)}
    (hmake : ∀ lines, lines.map Line.numbered = numbered → ∀ l ∈ lines, ∀ rest,
      Mirrors Eq (make (.before inGroup lines l rest))
        (make' ((Site.before inGroup lines l rest).map σ τ))) :
    Mirrors Eq (sequence make inGroup numbered)
      (sequence make' inGroup (numbered.map (Prod.map σ τ))) := by
  apply (mirrors_labelled numbered).bind
  rintro lines _ ⟨hnumbered, rfl⟩
  cases lines with
  | nil => exact mirrors_throw _ _
  | cons first rest =>
      apply (mirrors_eachLine (List.Subset.refl _) (hmake _ hnumbered)).bind
      rintro - - -
      apply (mirrors_placeOf _).bind
      rintro entry _ rfl
      exact (mirrors_emit _ _).bind fun _ _ _ => mirrors_pure rfl

end Sequences

/-! ## Groups -/

theorem mirrors_member (hν : Renames ν) (hv : visible.Named) {s : Site} (hmem : s.line ∈ s.lines) :
    Mirrors Eq (member visible s)
      (member (visible.rename ν) (s.map id (Instruction.renameCall ν))) := by
  cases hgroup : s.line.instruction.command.isGroup with
  | false =>
      have hrename := s.line.instruction.renameCall_eq ν hgroup
      have hs : s.Renumbers id (Instruction.renameCall ν) :=
        ⟨hmem, Set.injOn_id _, by rw [hrename]; rfl⟩
      exact mirrors_instructionWith hν hv hs hgroup (by rw [hrename]; rfl)
  | true =>
      -- a group within a group is refused
      intro d e id d' _ h
      cases instructionWith_eq_ok h with
      | group _ hrun => cases hrun
      | _ hcommand => simp [hcommand, Command.isGroup] at hgroup

theorem mirrors_group (hν : Renames ν) (hv : visible.Named) {s : Site}
    {τ : Instruction → Instruction} (hs : s.Renumbers σ τ) (members : List Instruction) :
    Mirrors Eq (group visible s members)
      (group (visible.rename ν) (s.map σ τ) (members.map (·.renameCall ν))) := by
  have hempty : (members.map (·.renameCall ν)).isEmpty = members.isEmpty := List.isEmpty_map
  have hnested : (members.map (·.renameCall ν)).any (·.command.isGroup) =
      members.any (·.command.isGroup) := by
    rw [List.any_map]
    exact congrArg members.any (funext (Instruction.isGroup_renameCall ν))
  unfold group
  rw [hempty, hnested, numberMembers_map]
  split
  · exact mirrors_throw _ _
  · split
    · exact mirrors_throw _ _
    · have hmembers : Mirrors Eq (sequence (member visible) true (numberMembers members))
          (sequence (member (visible.rename ν)) true
            ((numberMembers members).map (Prod.map id (·.renameCall ν)))) :=
        mirrors_sequence fun lines _ l hl rest => mirrors_member hν hv hl
      apply hmembers.bind
      rintro entry _ rfl
      apply (mirrors_emit _ _).bind
      rintro - - -
      apply (mirrors_ofExcept fun t ht => ⟨t, hs.continuation ht, rfl⟩).bind
      rintro next _ rfl
      exact mirrors_enter _ _

theorem mirrors_instruction (hν : Renames ν) (hv : visible.Named) {s : Site}
    (hs : s.Renumbers σ (Instruction.rename σ ν)) :
    Mirrors Eq (instruction visible s)
      (instruction (visible.rename ν) (s.map σ (Instruction.rename σ ν))) := by
  cases hc : s.line.instruction.command with
  | group members =>
      have hcommand : (s.map σ (Instruction.rename σ ν)).line.instruction.command =
          .group (members.map (·.renameCall ν)) := by
        show s.line.instruction.command.rename σ ν = _
        rw [hc]
        rfl
      unfold instruction instructionWith
      rw [hc, hcommand]
      exact (mirrors_emit _ _).bind fun _ _ _ => mirrors_group hν hv hs members
  | _ => exact mirrors_instructionWith hν hv hs (by rw [hc]; rfl) rfl

/-! ## Scopes -/

theorem mirrors_declare (hv : visible.Named) {subs subs' : List (Key × Scope)}
    (hnames : ∀ name ∈ subs.map Prod.fst, name.isName = true)
    (hsubs : subs'.map Prod.fst = (subs.map Prod.fst).map ν) :
    Mirrors (fun r r' => r.1.Named ∧ r' = (r.1.rename ν, r.2)) (declare visible subs)
      (declare (visible.rename ν) subs') := by
  induction subs generalizing subs' with
  | nil =>
      rw [List.map_eq_nil_iff.mp hsubs]
      exact mirrors_pure ⟨hv, rfl⟩
  | cons p subs ih =>
      obtain ⟨p', subs', rfl, hp, hsubs'⟩ := List.map_eq_cons_iff.mp hsubs
      obtain ⟨hname, hnames'⟩ := List.forall_mem_cons.mp hnames
      apply mirrors_newLabel.bind
      rintro label _ rfl
      apply (mirrors_addState _).bind
      rintro entry _ rfl
      apply (ih hnames' hsubs').bind
      rintro ⟨inner, labels⟩ _ ⟨hinner, rfl⟩
      refine mirrors_pure ⟨List.forall_mem_cons.mpr ⟨hname, hinner⟩, ?_⟩
      show ((p'.1, entry) :: _, _) = ((ν p.1, entry) :: _, _)
      rw [hp]
      rfl

/-- Compiles bodies in order, one for each label. -/
def eachBody (visible : Visible) : List (Key × Scope) → List Label → Build Unit
  | [], _ => pure ()
  | _ :: _, [] => pure ()
  | (name, body) :: rest, label :: labels => do
    let entry ← scope body visible
    place label entry
    emit (.subroutineBound name entry)
    eachBody visible rest labels

/-- It makes no difference to the bodies which instructions stand between them. -/
theorem bodies_eq_eachBody (s : Scope) (visible : Visible) (labels : List Label) :
    bodies s visible labels = eachBody visible s.subroutines labels := by
  induction s generalizing labels with
  | nil => rfl
  | instr _ _ _ ih => exact ih labels
  | sub name body rest _ ih =>
      cases labels with
      | nil => rfl
      | cons label labels =>
          show (scope body visible >>= _) = (scope body visible >>= _)
          simp only [ih]

end Build

/-- The indices of a scope are replaced by `σ` throughout its instructions, and the names that they
call by `ν`. No two indices become one. -/
def Renumbered (ν : Key → Key) : Edit := fun l l' =>
  ∃ σ : Index → Index, Set.InjOn σ {index | index ≠ 0} ∧
    l' = l.map (Prod.map σ (Instruction.rename σ ν))

namespace Build

variable {ν : Key → Key} {s s' : Scope}

/-- The new keys are in order if the old ones are, so there is an outline again. -/
theorem mirrors_outline (hν : Renames ν) (hindexed : s'.Indexed)
    (hnumbered : Renumbered ν s.numbered s'.numbered)
    (hnames : s'.subroutines.map Prod.fst = (s.subroutines.map Prod.fst).map ν) :
    Mirrors (fun o o' => s.checkKeys [] = .ok () ∧ o = ⟨s.subroutines, s.numbered⟩ ∧
        o' = ⟨s'.subroutines, s'.numbered⟩)
      (ofExcept s.outline) (ofExcept s'.outline) := by
  refine mirrors_ofExcept fun o ho => ?_
  obtain ⟨hkeys, hne, hsubs, hins⟩ := Scope.outline_eq_ok ho
  obtain ⟨-, hold, hnodup, -⟩ := Scope.checkKeys_iff.mp hkeys
  obtain ⟨σ, hσ, hmap⟩ := hnumbered
  have hkeys' : s'.checkKeys [] = .ok () := by
    refine Scope.checkKeys_iff.mpr ⟨hindexed, ?_, ?_, by simp⟩
    · rw [hnames, List.forall_mem_map]
      exact fun name hname => hν.isName name (hold name hname)
    · have hindices : s'.numbered.map Prod.fst = (s.numbered.map Prod.fst).map σ := by
        rw [hmap, List.map_map, List.map_map]
        rfl
      have hnonzero : ∀ index ∈ s.numbered.map Prod.fst, index ≠ 0 := by
        rw [List.forall_mem_map]
        exact fun p hp => Scope.ne_zero_of_mem_numbered hp
      rw [hindices]
      exact hnodup.map_on fun i hi j hj => hσ (hnonzero i hi) (hnonzero j hj)
  have hempty : s'.numbered.isEmpty = false := by
    rw [hmap, List.isEmpty_map]
    exact List.isEmpty_eq_false_iff.mpr hne
  refine ⟨⟨s'.subroutines, s'.numbered⟩, ?_, hkeys, ?_, rfl⟩
  · rw [Scope.outline_eq, hkeys', hempty]
    rfl
  · rw [← hsubs, ← hins]

/-- The two scopes are compiled alike, whatever the names in sight. -/
def MirroredScope (ν : Key → Key) (s s' : Scope) : Prop :=
  ∀ visible : Visible, visible.Named →
    Mirrors Eq (scope s visible) (scope s' (visible.rename ν))

theorem mirrors_eachBody {subs subs' : List (Key × Scope)}
    (h : Scope.Paired ν (MirroredScope ν) subs subs') {visible : Visible} (hv : visible.Named)
    (labels : List Label) :
    Mirrors Eq (eachBody visible subs labels) (eachBody (visible.rename ν) subs' labels) := by
  induction h generalizing labels with
  | nil => exact mirrors_pure rfl
  | cons hhead _ ih =>
      cases labels with
      | nil => exact mirrors_pure rfl
      | cons label labels =>
          apply (hhead.2 visible hv).bind
          rintro entry _ rfl
          apply (mirrors_place label entry).bind
          rintro - - -
          apply (mirrors_emit _ _).bind
          rintro - - -
          exact ih labels

theorem mirrors_scope (hν : Renames ν) (h : s.Edited ν (Renumbered ν) s') :
    MirroredScope ν s s' := by
  refine Scope.Edited.induction (motive := MirroredScope ν) ?_ h
  intro s s' hindexed hnumbered hbodies visible hv
  apply (mirrors_outline hν hindexed hnumbered hbodies.names).bind
  rintro _ _ ⟨hkeys, rfl, rfl⟩
  have hnames := (Scope.checkKeys_iff.mp hkeys).2.1
  apply (mirrors_declare hv hnames hbodies.names).bind
  rintro ⟨inner, labels⟩ _ ⟨hinner, rfl⟩
  -- only the order of the bodies counts, not what stands between them
  show Mirrors Eq (bodies s inner labels >>= _) (bodies s' (inner.rename ν) labels >>= _)
  rw [bodies_eq_eachBody s, bodies_eq_eachBody s']
  apply (mirrors_eachBody hbodies hinner labels).bind
  rintro - - -
  obtain ⟨σ, hσ, hmap⟩ := hnumbered
  show Mirrors Eq (sequence (instruction inner) false s.numbered)
    (sequence (instruction (inner.rename ν)) false s'.numbered)
  rw [hmap]
  refine mirrors_sequence fun lines hlines l hl rest => mirrors_instruction hν hinner ?_
  refine ⟨hl, hσ.mono ?_, rfl⟩
  rintro _ ⟨l, hl, rfl⟩
  have hmem : l.numbered ∈ s.numbered := hlines ▸ List.mem_map_of_mem hl
  exact Scope.ne_zero_of_mem_numbered hmem

end Build

namespace Scope

/-- The indices of a program, its names and the places of the bodies among the instructions do not
matter: the automaton is the same, state by state. -/
theorem compile_renamed {ν : Key → Key} {p p' : Scope} {a : Automaton} (hν : Renames ν)
    (h : p.Edited ν (Renumbered ν) p') (hcompile : p.compile = .ok a) : p'.compile = .ok a := by
  have hnamed : Visible.Named [] := by simp [Visible.Named]
  exact compile_of_mirrors (Build.mirrors_scope hν h [] hnamed) hcompile

/-- Marks the cells from the head on up to a marked one, by a call in a group. The body of the call
is declared twice under one name. -/
def pave : Scope :=
  .instr "1" { command := .call "pave" }
    (.sub "pave"
      (.instr "1" { command := .check 3 2 }
        (.sub "pave" (.instr "1" { command := .act (.move .right) } .nil)
          (.instr "2"
            { command := .group [{ command := .act (.write .mark) }, { command := .call "pave" }],
              next := some 1 }
            (.instr "3" { command := .stop } .nil))))
      .nil)

/-- The same with other indices and another name, and with the bodies at the end or in front. -/
def paveAgain : Scope :=
  .sub "step"
    (.instr "+2" { command := .check 3 1 }
      (.instr "01"
        { command := .group [{ command := .act (.write .mark) }, { command := .call "step" }],
          next := some 2 }
        (.instr "3" { command := .stop }
          (.sub "step" (.instr "-7" { command := .act (.move .right) } .nil) .nil))))
    (.instr "1" { command := .call "step" } .nil)

theorem pave_renamed :
    Renames (Equiv.swap "pave" "step") ∧
      pave.Edited (Equiv.swap "pave" "step") (Renumbered (Equiv.swap "pave" "step")) paveAgain ∧
      ∃ a, pave.compile = .ok a ∧ paveAgain.compile = .ok a := by
  have hnames : Renames (Equiv.swap "pave" "step") := by
    refine ⟨fun name hname => ?_, (Equiv.injective _).injOn⟩
    rw [Equiv.swap_apply_def]
    split
    · decide
    · split
      · decide
      · exact hname
  have hedited :
      pave.Edited (Equiv.swap "pave" "step") (Renumbered (Equiv.swap "pave" "step")) paveAgain := by
    refine .intro ⟨by decide, trivial⟩ ?_ (.cons "pave" (.intro ?_ ?_ (.cons "pave" ?_ .nil)) .nil)
    · exact ⟨id, Set.injOn_id _, by decide +kernel⟩
    · exact ⟨by decide, by decide, by decide, trivial⟩
    · exact ⟨Equiv.swap 1 2, (Equiv.injective _).injOn, by decide +kernel⟩
    · refine .intro ⟨by decide, trivial⟩ ?_ .nil
      exact ⟨Equiv.swap 1 (-7), (Equiv.injective _).injOn, by decide +kernel⟩
  obtain ⟨a, ha⟩ := exists_compile_iff.mpr (by decide +kernel : pave.check [] = .ok ())
  exact ⟨hnames, hedited, a, ha, compile_renamed hnames hedited ha⟩

end Scope

end TapeMachine
