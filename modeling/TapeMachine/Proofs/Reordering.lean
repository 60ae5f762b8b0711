import TapeMachine.Proofs.Alike
import TapeMachine.Proofs.Rules

/-!
# The order of subroutines does not matter

The subroutines of a program, in any of its scopes, can be declared in another order. The plan has
the same tasks then, so that the instructions, their orders and the bodies are the same, and the
same rules are kept. The compiled programs differ in the ids of their states only, and they
make the same steps.
-/

namespace TapeMachine

open Draft

namespace Scope

/-! ## Subroutines in another order -/

/-- The subroutines of the program, and of the bodies in it, are declared in another order. They
may also stand at other places among the instructions, whose order is the same. -/
inductive Reordered : Scope → Scope → Prop
  | refl (s : Scope) : Reordered s s
  | symm {s s' : Scope} (h : Reordered s s') : Reordered s' s
  | trans {s s' s'' : Scope} (h : Reordered s s') (h' : Reordered s' s'') : Reordered s s''
  | instr (key : Key) (i : Instruction) {rest rest' : Scope} (h : Reordered rest rest') :
      Reordered (.instr key i rest) (.instr key i rest')
  | sub (key : Key) {body body' rest rest' : Scope} (hbody : Reordered body body')
      (hrest : Reordered rest rest') : Reordered (.sub key body rest) (.sub key body' rest')
  | swap (key key' : Key) (body body' rest : Scope) :
      Reordered (.sub key body (.sub key' body' rest)) (.sub key' body' (.sub key body rest))
  | pass (key key' : Key) (body : Scope) (i : Instruction) (rest : Scope) :
      Reordered (.sub key body (.instr key' i rest)) (.instr key' i (.sub key body rest))

/-- The scope without its subroutines. -/
def bare : Scope → Scope
  | nil => nil
  | instr key i rest => instr key i rest.bare
  | sub _ _ rest => rest.bare

/-- Declares the bodies, in order, before what is in the scope. -/
def declaring (bodies : List (Key × Scope)) (s : Scope) : Scope :=
  bodies.foldr (fun p rest => sub p.1 p.2 rest) s

namespace Reordered

variable {s s' : Scope}

theorem declaring_instr (bodies : List (Key × Scope)) (key : Key) (i : Instruction) (s : Scope) :
    Reordered (.instr key i (declaring bodies s)) (declaring bodies (.instr key i s)) := by
  induction bodies with
  | nil => exact .refl _
  | cons p bodies ih => exact .trans (.symm (.pass p.1 key p.2 i _)) (.sub p.1 (.refl _) ih)

theorem declaring_perm {bodies bodies' : List (Key × Scope)} (h : bodies.Perm bodies')
    (s : Scope) : Reordered (declaring bodies s) (declaring bodies' s) := by
  induction h with
  | nil => exact .refl _
  | cons p _ ih => exact .sub p.1 (.refl _) ih
  | swap p p' bodies => exact .swap p'.1 p.1 p'.2 p.2 _
  | trans _ _ ih ih' => exact .trans ih ih'

/-- All declarations can be brought to the front. -/
theorem declaring_bare (s : Scope) : Reordered s (declaring s.subroutines s.bare) := by
  induction s with
  | nil => exact .refl _
  | instr key i rest ih => exact .trans (.instr key i ih) (declaring_instr _ key i _)
  | sub key body rest _ ih => exact .sub key (.refl _) ih

/-- Every permutation of the subroutines of a scope is a reordering. -/
theorem of_perm (hbare : s.bare = s'.bare) (hperm : s.subroutines.Perm s'.subroutines) :
    Reordered s s' := by
  have hfront := declaring_perm hperm s.bare
  rw [hbare] at hfront
  exact .trans (hbare ▸ declaring_bare s) (.trans hfront (.symm (declaring_bare s')))

theorem numbered_eq (h : Reordered s s') : s.numbered = s'.numbered := by
  induction h with
  | refl => rfl
  | symm _ ih => exact ih.symm
  | trans _ _ ih ih' => exact ih.trans ih'
  | instr key i _ ih => simp only [numbered, ih]
  | sub _ _ _ _ ih => exact ih
  | swap => rfl
  | pass => rfl

theorem names_perm (h : Reordered s s') :
    (s.subroutines.map Prod.fst).Perm (s'.subroutines.map Prod.fst) := by
  induction h with
  | refl => exact .refl _
  | symm _ ih => exact ih.symm
  | trans _ _ ih ih' => exact ih.trans ih'
  | instr _ _ _ ih => exact ih
  | sub key _ _ _ ih => exact ih.cons key
  | swap key key' => exact .swap key' key _
  | pass => exact .refl _

theorem names_eq (h : Reordered s s') (path : List Key) (outer : Names) :
    s.names path outer = s'.names path outer := by
  funext name
  simp only [names, h.names_perm.mem_iff]

theorem keys_perm (h : Reordered s s') : s.keys.Perm s'.keys := by
  induction h with
  | refl => exact .refl _
  | symm _ ih => exact ih.symm
  | trans _ _ ih ih' => exact ih.trans ih'
  | instr key _ _ ih => exact ih.cons key
  | sub key _ _ _ ih => exact ih.cons key
  | swap key key' => exact .swap key' key _
  | pass key key' => exact .swap key' key _

theorem wellKeyed_iff (h : Reordered s s') : s.WellKeyed ↔ s'.WellKeyed := by
  induction h with
  | refl => exact Iff.rfl
  | symm _ ih => exact ih.symm
  | trans _ _ ih ih' => exact ih.trans ih'
  | instr key i hrest ih => simp only [WellKeyed, hrest.keys_perm.mem_iff, ih]
  | sub key _ hrest ihbody ih => simp only [WellKeyed, hrest.keys_perm.mem_iff, ihbody, ih]
  | swap key key' body body' rest =>
      simp only [WellKeyed, keys, List.mem_cons, not_or, eq_comm]
      tauto
  | pass key key' body i rest =>
      simp only [WellKeyed, keys, List.mem_cons, not_or, eq_comm]
      tauto

/-! ## The plan -/

theorem mem_tasksWith {bodies bodies' : Names → List Task} (h : Reordered s s') {task : Task}
    (hbodies : ∀ names, task ∈ bodies names ↔ task ∈ bodies' names) (path : List Key)
    (outer : Names) :
    task ∈ tasksWith bodies s path outer ↔ task ∈ tasksWith bodies' s' path outer := by
  have hrow : ∀ names, s.row path names = s'.row path names := by
    intro names
    rw [row, row, h.numbered_eq]
  have hdeclare : ∀ t : Task, t ∈ s.subroutines.map (fun p => .declare (p.1 :: path)) ↔
      t ∈ s'.subroutines.map (fun p => .declare (p.1 :: path)) := by
    intro t
    have hperm := h.names_perm.map fun name => Task.declare (name :: path)
    simpa [Function.comp_def] using hperm.mem_iff (a := t)
  simp only [tasksWith, List.mem_append, hdeclare, hbodies, hrow, h.names_eq]

theorem mem_bodyTasks (h : Reordered s s') {task : Task} (path : List Key) (names : Names) :
    task ∈ s.bodyTasks path names ↔ task ∈ s'.bodyTasks path names := by
  induction h generalizing path names with
  | refl => exact Iff.rfl
  | symm _ ih => exact (ih path names).symm
  | trans _ _ ih ih' => exact (ih path names).trans (ih' path names)
  | instr _ _ _ ih => exact ih path names
  | sub key hbody _ ihbody ih =>
      simp only [bodyTasks, List.mem_append, List.mem_cons, ih path names,
        hbody.mem_tasksWith (ihbody (key :: path))]
  | swap key key' body body' rest =>
      simp only [bodyTasks, List.mem_append, List.mem_cons]
      tauto
  | pass => exact Iff.rfl

theorem mem_plan (h : Reordered s s') {task : Task} : task ∈ s.plan ↔ task ∈ s'.plan :=
  h.mem_tasksWith (h.mem_bodyTasks []) [] _

theorem alike (h : Reordered s s') : s.Alike s' where
  orders := by
    intro spot order
    rw [← make_mem_plan, ← make_mem_plan, h.mem_plan]
  bodies := by
    intro path
    simp only [numbering, anchors, List.mem_filterMap, h.mem_plan]

/-! ## The rules -/

theorem checkKeys_iff (h : Reordered s s') (seen : List Index) :
    s.checkKeys seen = .ok () ↔ s'.checkKeys seen = .ok () := by
  induction h generalizing seen with
  | refl => exact Iff.rfl
  | symm _ ih => exact (ih seen).symm
  | trans _ _ ih ih' => exact (ih seen).trans (ih' seen)
  | instr key i _ ih => simp only [checkKeys_instr_iff, ih]
  | sub key _ _ _ ih => simp only [checkKeys_sub_iff, ih]
  | swap key key' body body' rest =>
      simp only [checkKeys_sub_iff]
      tauto
  | pass key key' body i rest =>
      simp only [checkKeys_sub_iff, checkKeys_instr_iff]
      tauto

theorem checkWith_iff {bodies bodies' : List Key → Except CompileError Unit}
    (h : Reordered s s') (hbodies : ∀ visible, bodies visible = .ok () ↔ bodies' visible = .ok ())
    (hcongr : ∀ inner inner', (∀ name, name ∈ inner ↔ name ∈ inner') →
      bodies' inner = bodies' inner') (visible : List Key) :
    checkWith bodies s visible = .ok () ↔ checkWith bodies' s' visible = .ok () := by
  have hinner : ∀ name, name ∈ s.subroutines.map Prod.fst ++ visible ↔
      name ∈ s'.subroutines.map Prod.fst ++ visible := by
    intro name
    simp only [List.mem_append, h.names_perm.mem_iff]
  simp only [Scope.checkWith_iff, h.checkKeys_iff, h.numbered_eq, hbodies, hcongr _ _ hinner,
    Instruction.check_congr hinner]

theorem checkBodies_iff (h : Reordered s s') (visible : List Key) :
    s.checkBodies visible = .ok () ↔ s'.checkBodies visible = .ok () := by
  induction h generalizing visible with
  | refl => exact Iff.rfl
  | symm _ ih => exact (ih visible).symm
  | trans _ _ ih ih' => exact (ih visible).trans (ih' visible)
  | instr _ _ _ ih => exact ih visible
  | @sub key body body' rest rest' hbody _ ihbody ih =>
      simp only [checkBodies, bind_eq_ok_iff, ih visible,
        hbody.checkWith_iff ihbody (fun _ _ => body'.checkBodies_congr) visible]
  | swap key key' body body' rest =>
      simp only [checkBodies, bind_eq_ok_iff]
      tauto
  | pass => exact Iff.rfl

theorem check_iff (h : Reordered s s') : s.check [] = .ok () ↔ s'.check [] = .ok () :=
  h.checkWith_iff h.checkBodies_iff (fun _ _ => s'.checkBodies_congr) []

end Reordered

/-! ## Compiled programs -/

/-- If subroutines are declared in another order, at any depth, then the program is accepted or
rejected as before. If it is accepted, the ids of the states are renamed one to one: halt and the
entry are kept, and each state has the renamed targets and return of the state it stands for. On
every tape and with every limit the two programs make the same steps, up to that renaming. -/
theorem compile_reordered {p p' : Scope} (hkeys : p.WellKeyed) (h : p.Reordered p') :
    ((∃ a, p.compile = .ok a) ↔ ∃ a', p'.compile = .ok a') ∧
      ∀ a a', p.compile = .ok a → p'.compile = .ok a' →
        ∃ f, a.Renames f a' ∧ ∀ (tape : Tape) (limit k : Nat),
          (Run.start a'.graph a'.entry tape limit).item k =
              ((Run.start a.graph a.entry tape limit).item k).map (·.map (Step.rename f)) ∧
            ((Run.start a'.graph a'.entry tape limit).advance k).tape =
              ((Run.start a.graph a.entry tape limit).advance k).tape := by
  refine ⟨by rw [exists_compile_iff, exists_compile_iff, h.check_iff], ?_⟩
  intro a a' ha ha'
  obtain ⟨entry, d, hbuild, rfl⟩ := compile_eq_ok ha
  obtain ⟨entry', d', hbuild', rfl⟩ := compile_eq_ok ha'
  have hdrafted := drafted_of_build hkeys hbuild
  have hdrafted' := drafted_of_build (h.wellKeyed_iff.mp hkeys) hbuild'
  obtain ⟨f, hrenames⟩ := exists_renames hdrafted hdrafted' h.alike
  exact ⟨f, hrenames, hrenames.runs (Build.program_completed hbuild).closed⟩

/-- Marks the cell to the right and then the cell it started from, with two subroutines that are
declared in the given order. -/
def errand (first second : Key × Scope) : Scope :=
  .sub first.1 first.2
    (.instr "1" { command := .call "there" }
      (.instr "2" { command := .call "back" } (.sub second.1 second.2 .nil)))

def there : Key × Scope :=
  ("there", .instr "1" { command := .act (.move .right) }
    (.instr "2" { command := .act (.write .mark) } .nil))

def back : Key × Scope :=
  ("back", .instr "1" { command := .act (.move .left) }
    (.instr "2" { command := .act (.write .mark) } .nil))

theorem errand_reordered : (errand there back).Reordered (errand back there) :=
  .of_perm rfl (.swap back there [])

/-- The subroutines of `errand` change places. They share the state that marks, which is made for
another of them then, and the graphs are not the same. -/
theorem errand_runs_alike :
    (errand there back).WellKeyed ∧ (errand there back).Reordered (errand back there) ∧
      ∃ a a', (errand there back).compile = .ok a ∧ (errand back there).compile = .ok a' ∧
        a.graph ≠ a'.graph ∧
        ∃ f, a.Renames f a' ∧ ∀ (tape : Tape) (limit k : Nat),
          (Run.start a'.graph a'.entry tape limit).item k =
              ((Run.start a.graph a.entry tape limit).item k).map (·.map (Step.rename f)) ∧
            ((Run.start a'.graph a'.entry tape limit).advance k).tape =
              ((Run.start a.graph a.entry tape limit).advance k).tape := by
  have hkeys : (errand there back).WellKeyed := by decide
  obtain ⟨hiff, hrun⟩ := compile_reordered hkeys errand_reordered
  have hcompiles : (errand there back).check [] = .ok () := by decide +kernel
  obtain ⟨a, ha⟩ := exists_compile_iff.mpr hcompiles
  obtain ⟨a', ha'⟩ := hiff.mp ⟨a, ha⟩
  refine ⟨hkeys, errand_reordered, a, a', ha, ha', ?_, hrun a a' ha ha'⟩
  have hthird : ((errand there back).compile.toOption.bind fun a => a.graph.states[2]?) ≠
      (errand back there).compile.toOption.bind fun a => a.graph.states[2]? := by
    decide +kernel
  rw [ha, ha'] at hthird
  intro heq
  simp [heq, Except.toOption] at hthird

end Scope

end TapeMachine
