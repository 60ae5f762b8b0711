import TapeMachine.Proofs.Realised
import TapeMachine.Proofs.Rules

/-!
# The following instruction is the default

An instruction that leaves out its continuation goes on at the instruction that
follows it. Here it is given the index of that instruction, for any choice of
instructions in the scopes of a program. Every step of the compilation does the same
then, so the same automaton comes out, or the same error.
-/

namespace TapeMachine

/-- The command goes on at one instruction when it is done. -/
def Command.goesOn : Command → Bool
  | act _ | call _ | group _ => true
  | stop | check _ _ => false

/-- The two instructions are the same, or the second gives as its continuation the index
`following`, where the first leaves it out. -/
def Instruction.SpellsOut (following : Option Index) (i i' : Instruction) : Prop :=
  i' = i ∨ i.command.goesOn = true ∧ i.next = none ∧
    ∃ index, following = some index ∧ i' = i.goOn index

/-- The index of the first of some instructions. -/
def firstIndex (numbered : List (Index × Instruction)) : Option Index :=
  numbered.head?.map Prod.fst

/-- Some instructions of the second sequence give the index that follows them, where those of the
first leave out their continuation. -/
inductive SpelledOut : List (Index × Instruction) → List (Index × Instruction) → Prop
  | nil : SpelledOut [] []
  | cons (index : Index) {i i' : Instruction} {rest rest' : List (Index × Instruction)}
      (head : i.SpellsOut (firstIndex rest) i') (tail : SpelledOut rest rest') :
      SpelledOut ((index, i) :: rest) ((index, i') :: rest')

namespace SpelledOut

variable {numbered numbered' : List (Index × Instruction)}

theorem of_cons {p p' : Index × Instruction} (h : SpelledOut (p :: numbered) (p' :: numbered')) :
    p.2.SpellsOut (firstIndex numbered) p'.2 ∧ SpelledOut numbered numbered' := by
  cases h with
  | cons _ hhead htail => exact ⟨hhead, htail⟩

theorem map_fst (h : SpelledOut numbered numbered') :
    numbered'.map Prod.fst = numbered.map Prod.fst := by
  induction h with
  | nil => rfl
  | cons index _ _ ih => rw [List.map_cons, List.map_cons, ih]

theorem isEmpty (h : SpelledOut numbered numbered') : numbered'.isEmpty = numbered.isEmpty := by
  cases h <;> rfl

end SpelledOut

/-! ## Sites -/

/-- The index of a line and its label. -/
def Line.tag (l : Line) : Index × Label :=
  (l.index, l.label)

theorem map_tag_eq_zip (lines : List Line) :
    lines.map Line.tag = (lines.map (·.index)).zip (lines.map (·.label)) :=
  List.zip_map'.symm

namespace Site

/-- What the two sites see is the same. Only the continuation may be written in two ways. -/
structure Agrees (s s' : Site) : Prop where
  index : s'.index = s.index
  command : s'.line.instruction.command = s.line.instruction.command
  branch : s'.branch = s.branch
  continuation : s'.continuation = s.continuation
  requireFinal : s.line.instruction.command.goesOn = false → s'.requireFinal = s.requireFinal

/-- A branch depends on the tags of the lines. -/
theorem branch_eq_of_tags {s s' : Site} (hindex : s'.index = s.index)
    (htags : s'.lines.map Line.tag = s.lines.map Line.tag) : s'.branch = s.branch := by
  have hfind : ∀ (lines : List Line) (target : Index),
      (lines.find? (·.index = target)).map (·.label) =
        ((lines.map Line.tag).find? (·.1 = target)).map Prod.snd := by
    intro lines target
    rw [List.find?_map, Option.map_map]
    rfl
  funext target
  have hlabel := hfind s'.lines target
  rw [htags, ← hfind] at hlabel
  unfold branch
  rw [hindex]
  cases h : s.lines.find? (·.index = target) <;>
    cases h' : s'.lines.find? (·.index = target) <;> simp_all

theorem agrees_of_spellsOut {s s' : Site} (hindex : s'.index = s.index)
    (htags : s'.lines.map Line.tag = s.lines.map Line.tag) (hfollowing : s'.following = s.following)
    (hfree : s.inGroup = false) (hfree' : s'.inGroup = false)
    (h : s.line.instruction.SpellsOut s.following s'.line.instruction) : s.Agrees s' := by
  have hbranch := branch_eq_of_tags hindex htags
  rcases h with heq | ⟨hgoes, hnone, index, hsome, heq⟩
  · constructor
    · exact hindex
    · rw [heq]
    · exact hbranch
    · unfold continuation kind
      rw [hindex, heq, hfollowing, hfree, hfree', hbranch]
    · intro _
      unfold requireFinal kind
      rw [hindex, heq, hfree, hfree']
  · have hnext : s'.line.instruction.next = some index := by rw [heq]; rfl
    constructor
    · exact hindex
    · rw [heq]
      rfl
    · exact hbranch
    · -- the index that is given is the one that would be taken
      unfold continuation
      rw [hindex, hfree, hfree', hnext, hnone, hsome, hbranch]
      rfl
    · intro hstays
      rw [hgoes] at hstays
      cases hstays

end Site

namespace Build

theorem instruction_of_agrees {s s' : Site} (h : s.Agrees s') (visible : Visible) :
    instruction visible s' = instruction visible s := by
  have hkind : s'.kind = s.kind := by
    show s'.line.instruction.command.kind = s.line.instruction.command.kind
    rw [h.command]
  unfold instruction instructionWith
  rw [h.index, hkind, h.command]
  cases hcommand : s.line.instruction.command with
  | act action => simp only [h.continuation]
  | stop => simp only [h.requireFinal (by rw [hcommand]; rfl)]
  | check ifMarked otherwise =>
      have hbranches : s'.branches ifMarked otherwise = s.branches ifMarked otherwise := by
        unfold Site.branches
        rw [h.requireFinal (by rw [hcommand]; rfl), h.branch, h.index]
      simp only [hbranches]
  | call name => simp only [h.continuation]
  | group members =>
      have hgroup : group visible s' members = group visible s members := by
        unfold group
        rw [h.index, h.continuation]
      simp only [hgroup]

/-! ## Sequences -/

theorem eachLine_of_spelledOut (visible : Visible) {lines lines' : List Line}
    (htags : lines'.map Line.tag = lines.map Line.tag) {rest rest' : List Line}
    (hrest : rest'.map Line.tag = rest.map Line.tag)
    (h : SpelledOut (rest.map Line.numbered) (rest'.map Line.numbered)) :
    eachLine (instruction visible) false lines' rest' =
      eachLine (instruction visible) false lines rest := by
  induction rest generalizing rest' with
  | nil =>
      rw [List.map_eq_nil_iff.mp hrest]
      rfl
  | cons l rest ih =>
      obtain ⟨l', rest', rfl, hl, hrest'⟩ := List.map_eq_cons_iff.mp hrest
      obtain ⟨hindex, hlabel⟩ := Prod.mk.inj hl
      obtain ⟨hhead, htail⟩ := h.of_cons
      have hfollowing : firstIndex (rest.map Line.numbered) = rest.head?.map (·.index) := by
        cases rest <;> rfl
      have hfollowing' : rest'.head?.map (·.index) = rest.head?.map (·.index) := by
        have hheads := congrArg (fun tags => tags.head?.map Prod.fst) hrest'
        simpa [Function.comp_def, Line.tag] using hheads
      rw [hfollowing] at hhead
      have hagrees : (Site.before false lines l rest).Agrees (.before false lines' l' rest') :=
        Site.agrees_of_spellsOut hindex htags hfollowing' rfl rfl hhead
      have hline : line (instruction visible) false lines' l' rest' =
          line (instruction visible) false lines l rest := by
        show (instruction visible (.before false lines' l' rest') >>= place l'.label) =
          (instruction visible (.before false lines l rest) >>= place l.label)
        rw [instruction_of_agrees hagrees, hlabel]
      unfold eachLine
      rw [hline, ih hrest' htail]

theorem sequence_of_spelledOut (visible : Visible) {numbered numbered' : List (Index × Instruction)}
    (h : SpelledOut numbered numbered') :
    sequence (instruction visible) false numbered' =
      sequence (instruction visible) false numbered := by
  have hlength : numbered'.length = numbered.length := by
    simpa using congrArg List.length h.map_fst
  funext d
  obtain ⟨lines, hrun, hlabels, hnumbered⟩ := labelled_apply numbered d
  obtain ⟨lines', hrun', hlabels', hnumbered'⟩ := labelled_apply numbered' d
  have htags : lines'.map Line.tag = lines.map Line.tag := by
    have hindices : ∀ ls : List Line,
        ls.map (·.index) = (ls.map fun l => (l.index, l.instruction)).map Prod.fst := by
      intro ls
      rw [List.map_map]
      rfl
    rw [map_tag_eq_zip, map_tag_eq_zip, hlabels, hlabels', hindices, hindices, hnumbered,
      hnumbered', h.map_fst, hlength]
  rw [← hnumbered, ← hnumbered'] at h
  have heach := eachLine_of_spelledOut visible htags htags h
  unfold sequence
  rw [bind_of_ok hrun, bind_of_ok hrun', hlength]
  cases lines with
  | nil => rw [List.map_eq_nil_iff.mp htags]
  | cons first rest =>
      obtain ⟨first', rest', rfl, hfirst, hrest⟩ := List.map_eq_cons_iff.mp htags
      obtain ⟨hindex, hlabel⟩ := Prod.mk.inj hfirst
      have hcount : (first' :: rest').length = (first :: rest).length := by
        simpa using congrArg List.length htags
      simp only [heach, hlabel, hindex, hcount]

theorem declare_of_names (visible : Visible) {subs subs' : List (Key × Scope)}
    (h : subs'.map Prod.fst = subs.map Prod.fst) :
    declare visible subs' = declare visible subs := by
  induction subs generalizing subs' with
  | nil => rw [List.map_eq_nil_iff.mp h]
  | cons p subs ih =>
      obtain ⟨p', subs', rfl, hp, hsubs⟩ := List.map_eq_cons_iff.mp h
      unfold declare
      rw [hp, ih hsubs]

end Build

/-! ## Programs -/

namespace Scope

/-- Some instructions of the program, in any of its scopes, are given the index that follows them,
where they leave out their continuation. -/
inductive SpelledOut : Scope → Scope → Prop
  | nil : SpelledOut nil nil
  | instr (key : Key) {i i' : Instruction} {rest rest' : Scope}
      (head : i.SpellsOut (firstIndex rest.numbered) i') (tail : SpelledOut rest rest') :
      SpelledOut (.instr key i rest) (.instr key i' rest')
  | sub (key : Key) {body body' rest rest' : Scope} (hbody : SpelledOut body body')
      (hrest : SpelledOut rest rest') : SpelledOut (.sub key body rest) (.sub key body' rest')

namespace SpelledOut

variable {s s' : Scope}

theorem numbered (h : s.SpelledOut s') : TapeMachine.SpelledOut s.numbered s'.numbered := by
  induction h with
  | nil => exact .nil
  | instr key hhead _ ih =>
      unfold Scope.numbered
      cases key.index? with
      | none => exact ih
      | some index => exact .cons index hhead ih
  | sub _ _ _ _ ih => exact ih

theorem names (h : s.SpelledOut s') :
    s'.subroutines.map Prod.fst = s.subroutines.map Prod.fst := by
  induction h with
  | nil => rfl
  | instr _ _ _ ih => exact ih
  | sub key _ _ _ ih => exact congrArg (key :: ·) ih

theorem checkKeys (h : s.SpelledOut s') (seen : List Index) :
    s'.checkKeys seen = s.checkKeys seen := by
  induction h generalizing seen with
  | nil => rfl
  | instr _ _ _ ih => simp only [Scope.checkKeys, ih]
  | sub _ _ _ _ ih => simp only [Scope.checkKeys, ih]

theorem scopeWith {compiled compiled' : Visible → List Label → Build Unit}
    (h : s.SpelledOut s') (hcompiled : compiled' = compiled) (visible : Visible) :
    Build.scopeWith compiled' s' visible = Build.scopeWith compiled s visible := by
  funext d
  unfold Build.scopeWith
  rw [outline_eq, outline_eq, h.checkKeys, h.numbered.isEmpty]
  cases s.checkKeys [] with
  | error e => rfl
  | ok u =>
      cases s.numbered.isEmpty with
      | true => rfl
      | false =>
          show (Build.declare visible s'.subroutines >>= _) d =
            (Build.declare visible s.subroutines >>= _) d
          simp only [Build.declare_of_names visible h.names, hcompiled,
            Build.sequence_of_spelledOut _ h.numbered]

theorem bodies (h : s.SpelledOut s') : Build.bodies s' = Build.bodies s := by
  induction h with
  | nil => rfl
  | instr _ _ _ ih =>
      funext visible labels
      exact congrFun (congrFun ih visible) labels
  | sub key hbody _ ihbody ih =>
      funext visible labels
      cases labels with
      | nil => rfl
      | cons label labels =>
          unfold Build.bodies
          rw [hbody.scopeWith ihbody, ih]

theorem compileLogged (h : s.SpelledOut s') : s'.compileLogged = s.compileLogged := by
  unfold Scope.compileLogged Build.scope
  rw [h.scopeWith h.bodies]

end SpelledOut

/-- Giving instructions the continuation that they have by their position, in any scope and for any
choice of them, changes nothing: the automaton is the same, or the error is. -/
theorem compile_spelledOut {p p' : Scope} (h : p.SpelledOut p') : p'.compile = p.compile := by
  unfold compile
  rw [h.compileLogged]

/-- Marks the two cells to the right. The first instruction of the program and that of the body
give `next`. -/
def stride (next : Option Index) : Scope :=
  .instr "1" { command := .call "step", next }
    (.sub "step"
      (.instr "1" { command := .act (.move .right), next }
        (.instr "2" { command := .act (.write .mark) } .nil))
      (.instr "2" { command := .call "step" } .nil))

theorem stride_spelledOut :
    (stride none).SpelledOut (stride (some 2)) ∧
      ∃ a, (stride none).compile = .ok a ∧ (stride (some 2)).compile = .ok a := by
  have hspelled : (stride none).SpelledOut (stride (some 2)) := by
    refine .instr "1" (Or.inr ⟨rfl, rfl, 2, by decide, rfl⟩) (.sub "step" ?_ ?_)
    · exact .instr "1" (Or.inr ⟨rfl, rfl, 2, by decide, rfl⟩) (.instr "2" (Or.inl rfl) .nil)
    · exact .instr "2" (Or.inl rfl) .nil
  have hcompiles : (stride none).check [] = .ok () := by decide +kernel
  obtain ⟨a, ha⟩ := exists_compile_iff.mpr hcompiles
  exact ⟨hspelled, a, ha, (compile_spelledOut hspelled).trans ha⟩

end Scope

end TapeMachine
