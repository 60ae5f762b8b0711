import Mathlib.Data.List.Nodup
import TapeMachine.Compile.Target
import TapeMachine.Proofs.InsertionOrder
import TapeMachine.Proofs.Listing

/-!
# The plan of a program

What a compilation of a program does, in order: subroutines are declared, labels
are handed out, the states of instructions are made and the starts of bodies are
bound. The plan is read off the program alone, so two programs are compiled alike
if their plans are alike.

Labels are numbered in the order in which they are handed out. In a program whose
keys are distinct no two labels are for the same thing, so the number of a label
can be read off the plan as well.
-/

namespace TapeMachine

/-- What a label is for: the body at a path, or an instruction. -/
inductive Anchor where
  | body (path : List Key)
  | spot (spot : Spot)
deriving DecidableEq, Repr

inductive Task where
  /-- Hands out the label of the body at `path` and makes a state that goes there. -/
  | declare (path : List Key)
  | label (spot : Spot)
  /-- Makes the state of an instruction and places its label. -/
  | make (spot : Spot) (order : Order)
  /-- Places the label of the body at `path` on the state of its first instruction. -/
  | bind (path : List Key)
deriving DecidableEq, Repr

namespace Row

/-- The instructions of `rest`, which begin at `place`; `before` gives what comes before each. -/
def makes (before : Nat → Instruction → List Task) (r : Row) (place : Nat)
    (rest : List (Index × Instruction)) : List Task :=
  (rest.zipIdx place).flatMap fun (p, place) =>
    before place p.2 ++ [.make (r.spot place) (r.order place p.2)]

def labels (r : Row) : List Task :=
  (List.range r.numbered.length).map fun place => .label (r.spot place)

def tasks (before : Nat → Instruction → List Task) (r : Row) : List Task :=
  r.labels ++ r.makes before 0 r.numbered

/-- The members come before their group. -/
def members (r : Row) (place : Nat) (i : Instruction) : List Task :=
  (r.inside place i).flatMap (tasks fun _ _ => [])

end Row

namespace Scope

/-- The tasks of a scope at `path`; `bodies` gives those of the bodies in it. -/
def tasksWith (bodies : Names → List Task) (s : Scope) (path : List Key) (outer : Names) :
    List Task :=
  let names := s.names path outer
  s.subroutines.map (fun p => .declare (p.1 :: path)) ++
    (bodies names ++ (s.row path names).tasks (s.row path names).members)

def bodyTasks : Scope → List Key → Names → List Task
  | nil, _, _ => []
  | instr _ _ rest, path, names => rest.bodyTasks path names
  | sub name body rest, path, names =>
    tasksWith (body.bodyTasks (name :: path)) body (name :: path) names ++
      .bind (name :: path) :: rest.bodyTasks path names

def tasks (s : Scope) (path : List Key) (outer : Names) : List Task :=
  tasksWith (s.bodyTasks path) s path outer

def plan (program : Scope) : List Task :=
  program.tasks [] fun _ => none

end Scope

/-- What the task hands out a label for. -/
def Task.anchor? : Task → Option Anchor
  | declare path => some (.body path)
  | label spot => some (.spot spot)
  | make _ _ => none
  | bind _ => none

def anchors (tasks : List Task) : List Anchor :=
  tasks.filterMap Task.anchor?

/-- Anchors in the order in which they get their labels. -/
abbrev Numbering := List Anchor

namespace Numbering

def label (N : Numbering) (a : Anchor) : Label :=
  ⟨N.idxOf a⟩

/-- Where a state leads that goes on at a spot, or at none. -/
def target (N : Numbering) : Option Spot → Target
  | none => .state .halt
  | some spot => .label (N.label (.spot spot))

variable {N : Numbering}

theorem label_inj {a b : Anchor} (ha : a ∈ N) (h : N.label a = N.label b) : a = b :=
  (List.idxOf_inj ha).mp (congrArg Label.number h)

theorem mem_iff_label_lt {a : Anchor} : a ∈ N ↔ (N.label a).number < N.length :=
  List.idxOf_lt_length_iff.symm

end Numbering

namespace Scope

/-- What the program has labels for. -/
def numbering (program : Scope) : Numbering :=
  anchors program.plan

/-- No key stands twice in a scope, nor in a body of it. -/
def WellKeyed : Scope → Prop
  | nil => True
  | instr key _ rest => key ∉ rest.keys ∧ rest.WellKeyed
  | sub key body rest => key ∉ rest.keys ∧ body.WellKeyed ∧ rest.WellKeyed

def decWellKeyed : (s : Scope) → Decidable s.WellKeyed
  | nil => isTrue trivial
  | instr _ _ rest =>
    have := rest.decWellKeyed
    inferInstanceAs (Decidable (_ ∧ _))
  | sub _ body rest =>
    have := body.decWellKeyed
    have := rest.decWellKeyed
    inferInstanceAs (Decidable (_ ∧ _ ∧ _))

instance (s : Scope) : Decidable s.WellKeyed := s.decWellKeyed

/-! ## Insertion never repeats a key -/

theorem wellKeyed_cons {key : Key} {e : Entry} {rest : Scope} :
    (cons key e rest).WellKeyed ↔
      key ∉ rest.keys ∧ rest.WellKeyed ∧ ∀ body, e = .subroutine body → body.WellKeyed := by
  cases e with
  | instruction i => simp [cons, WellKeyed]
  | subroutine body => simp [cons, WellKeyed, and_comm]

theorem WellKeyed.insert {s : Scope} {key : Key} {e : Entry} (h : s.WellKeyed)
    (he : ∀ body, e = .subroutine body → body.WellKeyed) : (s.insert key e).WellKeyed := by
  induction s using consInduction with
  | nil => exact wellKeyed_cons.mpr ⟨List.not_mem_nil, trivial, he⟩
  | cons k old rest ih =>
      obtain ⟨hfresh, hrest, hold⟩ := wellKeyed_cons.mp h
      rw [insert_cons]
      by_cases hkey : k = key
      · rw [if_pos hkey]
        exact wellKeyed_cons.mpr ⟨hkey ▸ hfresh, hrest, he⟩
      · rw [if_neg hkey]
        refine wellKeyed_cons.mpr ⟨?_, ih hrest, hold⟩
        rw [mem_keys_insert, not_or]
        exact ⟨hkey, hfresh⟩

/-- A scope that is collected from entries, with bodies that were collected before, has every key
once: the programs that are read are well keyed. -/
theorem wellKeyed_ofList {entries : List (Key × Entry)}
    (h : ∀ key body, (key, Entry.subroutine body) ∈ entries → body.WellKeyed) :
    (ofList entries).WellKeyed := by
  suffices hfold : ∀ s : Scope, s.WellKeyed →
      (entries.foldl (fun s p => s.insert p.1 p.2) s).WellKeyed from hfold nil trivial
  induction entries with
  | nil => exact fun s hs => hs
  | cons entry rest ih =>
      intro s hs
      refine ih (fun key body hm => h key body (List.mem_cons_of_mem _ hm)) _ (hs.insert ?_)
      intro body hbody
      exact h entry.1 body (hbody ▸ List.mem_cons_self)

end Scope

/-! ## The instructions of a plan -/

namespace Row

variable {r : Row} {before : Nat → Instruction → List Task} {spot : Spot} {order : Order}

theorem make_mem_tasks :
    .make spot order ∈ r.tasks before ↔
      (spot, order) ∈ r.orders ∨
        ∃ place index i, r.numbered[place]? = some (index, i) ∧
          .make spot order ∈ before place i := by
  simp only [tasks, labels, makes, List.mem_append, List.mem_map, List.mem_flatMap,
    List.mem_zipIdx_iff_getElem?, List.mem_singleton, reduceCtorEq, and_false, exists_false,
    false_or, mem_orders]
  constructor
  · rintro ⟨⟨⟨index, i⟩, place⟩, hplace, hbefore | hmake⟩
    · exact Or.inr ⟨place, index, i, hplace, hbefore⟩
    · cases hmake
      exact Or.inl ⟨place, index, i, hplace, rfl⟩
  · rintro (⟨place, index, i, hplace, ho⟩ | ⟨place, index, i, hplace, hbefore⟩)
    · cases ho
      exact ⟨((index, i), place), hplace, Or.inr rfl⟩
    · exact ⟨((index, i), place), hplace, Or.inl hbefore⟩

theorem make_mem_members {place : Nat} {i : Instruction} :
    .make spot order ∈ r.members place i ↔
      ∃ r' ∈ r.inside place i, (spot, order) ∈ r'.orders := by
  simp [members, List.mem_flatMap, make_mem_tasks]

theorem make_mem_tasks_members :
    .make spot order ∈ r.tasks r.members ↔
      ∃ r' ∈ r :: r.groups, (spot, order) ∈ r'.orders := by
  simp only [make_mem_tasks, make_mem_members, groups, List.mem_cons, List.mem_flatMap,
    List.mem_zipIdx_iff_getElem?]
  constructor
  · rintro (ho | ⟨place, index, i, hplace, r', hr', ho⟩)
    · exact ⟨r, Or.inl rfl, ho⟩
    · exact ⟨r', Or.inr ⟨((index, i), place), hplace, hr'⟩, ho⟩
  · rintro ⟨r', rfl | ⟨⟨⟨index, i⟩, place⟩, hplace, hr'⟩, ho⟩
    · exact Or.inl ho
    · exact Or.inr ⟨place, index, i, hplace, r', hr', ho⟩

end Row

namespace Scope

variable {spot : Spot} {order : Order}

theorem make_mem_tasksWith {s : Scope} {bodies : Names → List Task} {rows : Names → List Row}
    (hbodies : ∀ names, .make spot order ∈ bodies names ↔
      ∃ r ∈ rows names, (spot, order) ∈ r.orders) (path : List Key) (outer : Names) :
    .make spot order ∈ tasksWith bodies s path outer ↔
      ∃ r ∈ rowsWith rows s path outer, (spot, order) ∈ r.orders := by
  simp only [tasksWith, rowsWith, List.mem_append, List.mem_map, reduceCtorEq, and_false,
    exists_false, false_or, hbodies, Row.make_mem_tasks_members, or_and_right, exists_or]

theorem make_mem_bodyTasks (s : Scope) (path : List Key) (names : Names) :
    .make spot order ∈ s.bodyTasks path names ↔
      ∃ r ∈ s.bodyRows path names, (spot, order) ∈ r.orders := by
  induction s generalizing path names with
  | nil => simp [bodyTasks, bodyRows]
  | instr key i rest ih => exact ih path names
  | sub name body rest ihbody ihrest =>
      have hbody := make_mem_tasksWith (s := body) (ihbody (name :: path)) (name :: path) names
      simp only [bodyTasks, bodyRows, List.mem_append, List.mem_cons, reduceCtorEq, false_or, hbody,
        ihrest, or_and_right, exists_or]

/-- The states that are made are those of the instructions. -/
theorem make_mem_plan (program : Scope) :
    .make spot order ∈ program.plan ↔ (spot, order) ∈ program.orders := by
  rw [plan, tasks, make_mem_tasksWith (program.make_mem_bodyTasks []), orders, List.mem_flatMap]
  rfl

end Scope

/-! ## Distinct labels -/

@[simp] theorem anchors_append (tasks tasks' : List Task) :
    anchors (tasks ++ tasks') = anchors tasks ++ anchors tasks' :=
  List.filterMap_append

/-- The path of the scope that declares it. -/
def Anchor.home : Anchor → List Key
  | body path => path.tail
  | spot s => s.path

theorem anchors_declare (path : List Key) (subs : List (Key × Scope)) :
    anchors (subs.map fun p => .declare (p.1 :: path)) =
      subs.map fun p => .body (p.1 :: path) := by
  simp [anchors, List.filterMap_map, Function.comp_def, Task.anchor?]

namespace Row

variable {r : Row} {before : Nat → Instruction → List Task}

theorem anchors_labels (r : Row) :
    anchors r.labels = (List.range r.numbered.length).map fun place => .spot (r.spot place) := by
  simp [anchors, labels, List.filterMap_map, Function.comp_def, Task.anchor?]

theorem anchors_makes (r : Row) (place : Nat) (rest : List (Index × Instruction)) :
    anchors (r.makes before place rest) =
      (rest.zipIdx place).flatMap fun (p, place) => anchors (before place p.2) := by
  rw [makes, anchors, List.filterMap_flatMap]
  refine List.flatMap_congr fun x _ => ?_
  rw [List.filterMap_append]
  exact List.append_nil _

theorem anchors_members (r : Row) (place : Nat) (i : Instruction) :
    anchors (r.members place i) = (r.inside place i).flatMap fun r' => anchors r'.labels := by
  rw [members, anchors, List.filterMap_flatMap]
  refine List.flatMap_congr fun r' _ => ?_
  change anchors (r'.tasks fun _ _ => []) = _
  rw [tasks, anchors_append, anchors_makes]
  simp [anchors]

theorem nodup_anchors_labels (r : Row) : (anchors r.labels).Nodup := by
  rw [anchors_labels]
  refine List.nodup_range.map ?_
  intro a b h
  exact congrArg Spot.place (Anchor.spot.inj h)

theorem mem_anchors_members {a : Anchor} {place : Nat} {i : Instruction}
    (h : a ∈ anchors (r.members place i)) :
    ∃ k, a = .spot { path := r.path, group := some place, place := k } := by
  rw [anchors_members, List.mem_flatMap] at h
  obtain ⟨r', hr', ha⟩ := h
  obtain ⟨members, -, rfl⟩ := mem_inside.mp hr'
  rw [anchors_labels, List.mem_map] at ha
  obtain ⟨k, -, rfl⟩ := ha
  exact ⟨k, rfl⟩

/-- The labels of a row and of the groups in it, which are told apart by their places. -/
theorem nodup_anchors_tasks (hgroup : r.group = none) : (anchors (r.tasks r.members)).Nodup := by
  rw [tasks, anchors_append, anchors_makes]
  refine List.Nodup.append r.nodup_anchors_labels ?_ ?_
  · rw [List.nodup_flatMap]
    constructor
    · rintro ⟨p, place⟩ -
      show (anchors (r.members place p.2)).Nodup
      rw [anchors_members, List.nodup_flatMap]
      refine ⟨fun r' _ => r'.nodup_anchors_labels, ?_⟩
      unfold inside
      split <;> simp
    · have hplaces : (r.numbered.zipIdx.map Prod.snd).Nodup := by
        rw [List.zipIdx_map_snd]
        exact List.nodup_range'
      refine (List.pairwise_map.mp hplaces).imp ?_
      intro x y hne a hx hy
      obtain ⟨k, rfl⟩ := mem_anchors_members hx
      obtain ⟨k', hk'⟩ := mem_anchors_members hy
      have hplace := congrArg Spot.group (Anchor.spot.inj hk')
      exact hne (Option.some.inj hplace)
  · intro a hlabel hmember
    rw [anchors_labels, List.mem_map] at hlabel
    obtain ⟨place, -, rfl⟩ := hlabel
    obtain ⟨x, -, hx⟩ := List.mem_flatMap.mp hmember
    obtain ⟨k, hk⟩ := mem_anchors_members hx
    have hnone := congrArg Spot.group (Anchor.spot.inj hk)
    rw [spot, hgroup] at hnone
    cases hnone

theorem home_of_mem_anchors {a : Anchor} (h : a ∈ anchors (r.tasks r.members)) :
    a.home = r.path := by
  rw [tasks, anchors_append, anchors_makes, List.mem_append] at h
  rcases h with h | h
  · rw [anchors_labels, List.mem_map] at h
    obtain ⟨place, -, rfl⟩ := h
    rfl
  · obtain ⟨x, -, hx⟩ := List.mem_flatMap.mp h
    obtain ⟨k, rfl⟩ := mem_anchors_members hx
    rfl

theorem body_not_mem_anchors {path : List Key} : .body path ∉ anchors (r.tasks r.members) := by
  rw [tasks, anchors_append, anchors_makes, anchors_labels, List.mem_append]
  rintro (h | h)
  · simp at h
  · obtain ⟨x, -, hx⟩ := List.mem_flatMap.mp h
    obtain ⟨k, hk⟩ := mem_anchors_members hx
    cases hk

end Row

namespace Scope

theorem keys_of_mem_subroutines {s : Scope} {p : Key × Scope} (h : p ∈ s.subroutines) :
    p.1 ∈ s.keys := by
  induction s with
  | nil => cases h
  | instr key i rest ih => exact List.mem_cons_of_mem _ (ih h)
  | sub key body rest _ ih =>
      rcases List.mem_cons.mp h with rfl | h
      · exact List.mem_cons_self
      · exact List.mem_cons_of_mem _ (ih h)

theorem WellKeyed.nodup_subroutines {s : Scope} (h : s.WellKeyed) :
    (s.subroutines.map Prod.fst).Nodup := by
  induction s with
  | nil => exact List.nodup_nil
  | instr key i rest ih => exact ih h.2
  | sub key body rest _ ih =>
      obtain ⟨hkey, -, hrest⟩ := h
      refine List.nodup_cons.mpr ⟨?_, ih hrest⟩
      intro hmem
      obtain ⟨p, hp, rfl⟩ := List.mem_map.mp hmem
      exact hkey (keys_of_mem_subroutines hp)

/-- What the scope itself hands out belongs to its path, and what its bodies do to longer ones. -/
theorem home_of_mem_tasksWith {s : Scope} {bodies : Names → List Task} {path : List Key}
    {outer : Names} {a : Anchor} (h : a ∈ anchors (tasksWith bodies s path outer)) :
    a.home = path ∨ a ∈ anchors (bodies (s.names path outer)) := by
  rw [tasksWith, anchors_append, anchors_append, anchors_declare, List.mem_append,
    List.mem_append] at h
  rcases h with h | h | h
  · obtain ⟨p, -, rfl⟩ := List.mem_map.mp h
    exact Or.inl rfl
  · exact Or.inr h
  · exact Or.inl (Row.home_of_mem_anchors h)

theorem suffix_of_mem_bodyTasks {s : Scope} {path : List Key} {names : Names} {a : Anchor}
    (h : a ∈ anchors (s.bodyTasks path names)) :
    ∃ p ∈ s.subroutines, (p.1 :: path) <:+ a.home := by
  induction s generalizing path names with
  | nil => cases h
  | instr key i rest ih => exact ih h
  | sub name body rest ihbody ihrest =>
      rw [bodyTasks, anchors_append, List.mem_append] at h
      rcases h with h | h
      · refine ⟨(name, body), List.mem_cons_self, ?_⟩
        rcases home_of_mem_tasksWith h with hhome | hbody
        · exact hhome ▸ List.suffix_rfl
        · obtain ⟨p, -, hsuffix⟩ := ihbody hbody
          exact (List.suffix_cons p.1 (name :: path)).trans hsuffix
      · obtain ⟨p, hp, hsuffix⟩ := ihrest h
        exact ⟨p, List.mem_cons_of_mem _ hp, hsuffix⟩

theorem suffix_of_mem_tasks {s : Scope} {path : List Key} {outer : Names} {a : Anchor}
    (h : a ∈ anchors (s.tasks path outer)) : path <:+ a.home := by
  rcases home_of_mem_tasksWith h with hhome | hbody
  · exact hhome ▸ List.suffix_rfl
  · obtain ⟨p, -, hsuffix⟩ := suffix_of_mem_bodyTasks hbody
    exact (List.suffix_cons p.1 path).trans hsuffix

theorem home_ne_of_mem_bodyTasks {s : Scope} {path : List Key} {names : Names} {a : Anchor}
    (h : a ∈ anchors (s.bodyTasks path names)) : a.home ≠ path := by
  intro heq
  obtain ⟨p, -, hsuffix⟩ := suffix_of_mem_bodyTasks h
  have hlength := hsuffix.length_le
  rw [heq, List.length_cons] at hlength
  omega

theorem WellKeyed.nodup_tasks {s : Scope} (hkeys : s.WellKeyed) {path : List Key} {outer : Names}
    (hbodies : (anchors (s.bodyTasks path (s.names path outer))).Nodup) :
    (anchors (s.tasks path outer)).Nodup := by
  rw [tasks, tasksWith, anchors_append, anchors_append, anchors_declare]
  refine List.Nodup.append ?_ (List.Nodup.append hbodies (Row.nodup_anchors_tasks rfl) ?_) ?_
  · have hnames := hkeys.nodup_subroutines
    refine List.pairwise_map.mpr ((List.pairwise_map.mp hnames).imp ?_)
    intro p q hne heq
    exact hne (List.cons.inj (Anchor.body.inj heq)).1
  · intro a hbody hrow
    exact home_ne_of_mem_bodyTasks hbody (Row.home_of_mem_anchors hrow)
  · intro a hdeclare hrest
    obtain ⟨p, -, rfl⟩ := List.mem_map.mp hdeclare
    rcases List.mem_append.mp hrest with hbody | hrow
    · exact home_ne_of_mem_bodyTasks hbody rfl
    · exact Row.body_not_mem_anchors hrow

theorem WellKeyed.nodup_bodyTasks {s : Scope} (h : s.WellKeyed) (path : List Key) (names : Names) :
    (anchors (s.bodyTasks path names)).Nodup := by
  induction s generalizing path names with
  | nil => exact List.nodup_nil
  | instr key i rest ih => exact ih h.2 path names
  | sub name body rest ihbody ihrest =>
      obtain ⟨hkey, hbody, hrest⟩ := h
      rw [bodyTasks, anchors_append]
      refine List.Nodup.append (hbody.nodup_tasks (ihbody hbody _ _)) (ihrest hrest path names) ?_
      -- a body has a name of its own, and what belongs to two of them would have both
      intro a hthis hother
      have hsuffix : (name :: path) <:+ a.home := suffix_of_mem_tasks hthis
      obtain ⟨p, hp, hsuffix'⟩ := suffix_of_mem_bodyTasks (s := rest) hother
      have heq := List.suffix_of_suffix_length_le hsuffix hsuffix' (by simp)
      obtain ⟨rfl, -⟩ := List.cons.inj (heq.eq_of_length (by simp))
      exact hkey (keys_of_mem_subroutines hp)

theorem WellKeyed.nodup_numbering {program : Scope} (h : program.WellKeyed) :
    program.numbering.Nodup :=
  h.nodup_tasks (h.nodup_bodyTasks [] _)

end Scope

end TapeMachine
