import TapeMachine.Proofs.Walks

/-!
# A group does what its members do in a row

A group is replaced by the straight line of its members, between a step without effect
for the way in, where the first member is a call, and one for the way out. The walk of
the program is inside the group where the other walk is on the line, so it has one more
cursor to take up again. Both take their steps together.
-/

namespace TapeMachine

/-! ## Straight lines -/

/-- A step without effect that goes on at `next`. -/
def Instruction.pass (next : Option Index) : Instruction :=
  { command := .act .noop, next }

/-- What a group needs before its first member: a step of its own if that is a call. -/
def wayIn : List Instruction → List Instruction
  | ⟨.call _, _⟩ :: _ => [.pass none]
  | _ => []

/-- The members of a group in a row, and then a step that goes on where the group does. -/
def straightLine (members : List Instruction) (next : Option Index) : List Instruction :=
  wayIn members ++ members ++ [.pass next]

/-- The straight line of the group at `index`, in a scope that declares the indices `declared`: it
begins at the index of the group, and its other indices are new. -/
structure LineFor (declared : List Index) (index : Index) (members : List Instruction)
    (next : Option Index) (line : List (Index × Instruction)) : Prop where
  instructions : line.map Prod.snd = straightLine members next
  head : line.head?.map Prod.fst = some index
  unused : ∀ p ∈ line.tail, p.1 ∉ declared
  nodup : (line.tail.map Prod.fst).Nodup

/-- One of the groups is replaced by its straight line, or the instructions stay as they are. -/
inductive Inlined : Edit
  | same (l : List (Index × Instruction)) : Inlined l l
  | group (before after : List (Index × Instruction)) {index : Index} {members : List Instruction}
      {next : Option Index} {line : List (Index × Instruction)}
      (inPlace : LineFor ((before ++ (index, ⟨.group members, next⟩) :: after).map Prod.fst)
        index members next line) :
      Inlined (before ++ (index, ⟨.group members, next⟩) :: after) (before ++ line ++ after)

section Line

variable {visible : List Key} {declared : List Index} {index : Index}
  {members : List Instruction} {next : Option Index}
  {before after line : List (Index × Instruction)}

/-- An instruction under the index of the group, the others, and the way out. -/
theorem LineFor.exists_eq (h : LineFor declared index members next line) (hne : members ≠ []) :
    ∃ first rest last, line = (index, first) :: rest ++ [(last, .pass next)] ∧
      first :: rest.map Prod.snd = wayIn members ++ members := by
  obtain ⟨front, back, rfl, hfront, hback⟩ := List.map_eq_append_iff.mp h.instructions
  obtain ⟨last, rfl, hlast⟩ := List.map_eq_singleton_iff.mp hback
  cases front with
  | nil =>
      have hnil : wayIn members ++ members = [] := hfront.symm
      exact absurd (List.append_eq_nil_iff.mp hnil).2 hne
  | cons first rest =>
      have hindex : first.1 = index := Option.some.inj h.head
      refine ⟨first.2, rest, last.1, ?_, hfront⟩
      rw [← hindex, ← hlast]

theorem LineFor.indices_perm (h : LineFor declared index members next line)
    (before after : List (Index × Instruction)) (i : Instruction) :
    ((before ++ line ++ after).map Prod.fst).Perm
      ((before ++ (index, i) :: after).map Prod.fst ++ line.tail.map Prod.fst) := by
  cases line with
  | nil => cases h.head
  | cons first rest =>
      have hindex : first.1 = index := Option.some.inj h.head
      simp only [List.map_append, List.map_cons, hindex, List.append_assoc, List.cons_append]
      exact List.Perm.append_left _ (List.Perm.cons _ List.perm_append_comm)

theorem mem_line_or_mem {i : Instruction} {p : Index × Instruction}
    (h : p ∈ before ++ line ++ after) : p ∈ line ∨ p ∈ before ++ (index, i) :: after := by
  simp only [List.mem_append, List.mem_cons] at h ⊢
  tauto

theorem check_of_mem_wayIn
    (h : ∀ m ∈ members, m.Plain ∧ ∀ declared k, m.check visible declared k = .ok ())
    {i : Instruction} (hi : i ∈ wayIn members ++ members) :
    i.Plain ∧ ∀ declared k, i.check visible declared k = .ok () := by
  rcases List.mem_append.mp hi with hi | hi
  · unfold wayIn at hi
    split at hi
    · rw [List.mem_singleton.mp hi]
      exact ⟨⟨rfl, Or.inl ⟨.noop, rfl⟩⟩, fun _ _ => rfl⟩
    · cases hi
  · exact h i hi

theorem Instruction.Plain.fits {i : Instruction} (h : i.Plain) : i.Fits := by
  unfold Fits
  rcases h.2 with ⟨action, hc⟩ | ⟨name, hc⟩ <;> simp only [hc]

/-- Each instruction of the line passes its test. The way out cannot go on at itself, since its
index is new. -/
theorem LineFor.check
    (h : LineFor ((before ++ (index, ⟨.group members, next⟩) :: after).map Prod.fst)
      index members next line)
    (hlawful : Lawful visible (before ++ (index, ⟨.group members, next⟩) :: after))
    (hsub : (before ++ (index, ⟨.group members, next⟩) :: after).map Prod.fst ⊆ declared)
    {p : Index × Instruction} (hp : p ∈ line) : p.2.check visible declared p.1 = .ok () := by
  obtain ⟨hne, hall, hnext⟩ := hlawful.group List.mem_append_cons_self
  obtain ⟨first, rest, last, rfl, hfront⟩ := h.exists_eq hne
  rcases List.mem_append.mp hp with hp | hp
  · have hmem : p.2 ∈ wayIn members ++ members := hfront ▸ List.mem_map_of_mem hp
    exact (check_of_mem_wayIn hall hmem).2 declared p.1
  · rw [List.mem_singleton.mp hp]
    refine Instruction.checkNext_iff.mpr fun target htarget => ?_
    refine ⟨?_, hsub (hnext target htarget)⟩
    have hlast : (last, .pass next) ∈ rest ++ [(last, Instruction.pass next)] := by simp
    rintro rfl
    exact h.unused _ hlast (hnext _ htarget)

theorem LineFor.fits (h : LineFor declared index members next line)
    (hlawful : Lawful visible (before ++ (index, ⟨.group members, next⟩) :: after))
    {p : Index × Instruction} (hp : p ∈ line) : p.2.Fits := by
  obtain ⟨-, hall, -⟩ := hlawful.group List.mem_append_cons_self
  have hmem : p.2 ∈ straightLine members next := h.instructions ▸ List.mem_map_of_mem hp
  rcases List.mem_append.mp hmem with hmem | hmem
  · exact (check_of_mem_wayIn hall hmem).1.fits
  · rw [List.mem_singleton.mp hmem]
    trivial

end Line

theorem Inlined.sound : Edit.Sound Inlined := by
  constructor
  · intro visible l l' h hlawful
    cases h with
    | same => exact hlawful
    | @group before after index members next line hline =>
        have hperm := hline.indices_perm before after ⟨.group members, next⟩
        have hsub : (before ++ (index, ⟨.group members, next⟩) :: after).map Prod.fst ⊆
            (before ++ line ++ after).map Prod.fst :=
          fun k hk => hperm.mem_iff.mpr (List.mem_append_left _ hk)
        constructor
        · intro hnil
          simp [hnil] at hsub
        · rw [hperm.nodup_iff]
          apply hlawful.nodup.append hline.nodup
          intro k hk hnew
          obtain ⟨p, hp, rfl⟩ := List.mem_map.mp hnew
          exact hline.unused p hp hk
        · intro p hp
          rcases mem_line_or_mem hp with hp | hp
          · exact hline.check hlawful hsub hp
          · exact Instruction.check_mono hsub (hlawful.check p hp)
  · intro visible l l' h hlawful hfits p hp
    cases h with
    | same => exact hfits p hp
    | group before after hline =>
        rcases mem_line_or_mem hp with hp | hp
        · exact hline.fits hlawful hp
        · exact hfits p hp

/-! ## Places -/

/-- What stands in the edited program for an instruction: itself, or the line for a group. -/
inductive Unrolls : Index × Instruction → List (Index × Instruction) → Prop
  | same (p : Index × Instruction) : Unrolls p [p]
  | group {index last : Index} {members : List Instruction} {next : Option Index}
      {first : Instruction} {rest : List (Index × Instruction)} (nonempty : members ≠ [])
      (plain : ∀ m ∈ members, m.Plain)
      (line : first :: rest.map Prod.snd = wayIn members ++ members) :
      Unrolls (index, ⟨.group members, next⟩) ((index, first) :: rest ++ [(last, .pass next)])

theorem Unrolls.exists_head {p : Index × Instruction} {line : List (Index × Instruction)}
    (h : Unrolls p line) : ∃ i tail, line = (p.1, i) :: tail := by
  cases h with
  | same => exact ⟨_, _, rfl⟩
  | group => exact ⟨_, _, rfl⟩

/-- For each instruction of a sequence, the row that stands for it. -/
abbrev Layout := Index × Instruction → List (Index × Instruction)

/-- The rows stand for the instructions of the sequence. Where a row has more than one index, the
others are not gone to. -/
structure Rows (row : Layout) (sequence : List (Index × Instruction)) : Prop where
  unrolls : ∀ p ∈ sequence, Unrolls p (row p)
  apart : ∀ p ∈ sequence, ∀ target ∈ p.2.targets,
    ∀ q ∈ sequence, ∀ r ∈ (row q).tail, r.1 ≠ target

/-- Every instruction stands for itself. -/
def Layout.single : Layout := fun p => [p]

/-- The line stands for the instruction at `index`. -/
def Layout.inPlace (index : Index) (line : List (Index × Instruction)) : Layout :=
  fun p => if p.1 = index then line else [p]

namespace Rows

variable {row : Layout} {sequence : List (Index × Instruction)}

theorem single (sequence : List (Index × Instruction)) : Rows .single sequence where
  unrolls := fun p _ => .same p
  apart := fun _ _ _ _ _ _ r hr => by cases hr

theorem dropWhile_flatMap {target : Index}
    (hheads : ∀ q ∈ sequence, ∃ i tail, row q = (q.1, i) :: tail)
    (htails : ∀ q ∈ sequence, ∀ r ∈ (row q).tail, r.1 ≠ target) :
    (sequence.flatMap row).dropWhile (·.1 ≠ target) =
      (sequence.dropWhile (·.1 ≠ target)).flatMap row := by
  induction sequence with
  | nil => rfl
  | cons q sequence ih =>
      obtain ⟨⟨i, tail, hrow⟩, hheads⟩ := List.forall_mem_cons.mp hheads
      obtain ⟨htail, htails⟩ := List.forall_mem_cons.mp htails
      by_cases hq : q.1 = target
      · simp [hrow, hq]
      · have hdrop : ∀ r ∈ row q, decide (r.1 ≠ target) = true := by
          rw [hrow] at htail ⊢
          simpa [hq] using htail
        rw [List.flatMap_cons, List.dropWhile_append_of_pos hdrop, ih hheads htails,
          List.dropWhile_cons_of_pos (by simpa using hq)]

/-- The way to a target leads to the row of the instruction there. -/
theorem dropWhile (h : Rows row sequence) {p : Index × Instruction} (hp : p ∈ sequence)
    {target : Index} (htarget : target ∈ p.2.targets) :
    (sequence.flatMap row).dropWhile (·.1 ≠ target) =
      (sequence.dropWhile (·.1 ≠ target)).flatMap row :=
  dropWhile_flatMap (fun q hq => (h.unrolls q hq).exists_head) (h.apart p hp target htarget)

section InPlace

variable {visible : List Key} {index : Index} {members : List Instruction} {next : Option Index}
  {before after line : List (Index × Instruction)}

theorem flatMap_inPlace {l : List (Index × Instruction)} (h : index ∉ l.map Prod.fst) :
    l.flatMap (Layout.inPlace index line) = l := by
  have hself : ∀ p ∈ l, Layout.inPlace index line p = [p] := by
    rintro p hp
    refine if_neg ?_
    rintro rfl
    exact h (List.mem_map_of_mem hp)
  rw [List.flatMap_congr hself, List.flatMap_singleton']

theorem inPlace_eq {i : Instruction} (h : ((before ++ (index, i) :: after).map Prod.fst).Nodup) :
    (before ++ (index, i) :: after).flatMap (Layout.inPlace index line) =
      before ++ line ++ after := by
  rw [List.map_append, List.map_cons, List.nodup_middle, List.nodup_cons, List.mem_append,
    not_or] at h
  have hindex : Layout.inPlace index line (index, i) = line := if_pos rfl
  rw [List.flatMap_append, List.flatMap_cons, hindex, flatMap_inPlace h.1.1,
    flatMap_inPlace h.1.2, List.append_assoc]

theorem inPlace (hlawful : Lawful visible (before ++ (index, ⟨.group members, next⟩) :: after))
    (hline : LineFor ((before ++ (index, ⟨.group members, next⟩) :: after).map Prod.fst)
      index members next line) :
    Rows (.inPlace index line) (before ++ (index, ⟨.group members, next⟩) :: after) := by
  have hgroup : (index, ⟨.group members, next⟩) ∈
      before ++ (index, ⟨.group members, next⟩) :: after := List.mem_append_cons_self
  constructor
  · intro p hp
    by_cases hindex : p.1 = index
    · obtain rfl := List.inj_on_of_nodup_map hlawful.nodup hp hgroup hindex
      obtain ⟨hne, hall, -⟩ := hlawful.group hgroup
      obtain ⟨first, rest, last, rfl, hfront⟩ := hline.exists_eq hne
      rw [Layout.inPlace, if_pos rfl]
      exact .group hne (fun m hm => (hall m hm).1) hfront
    · rw [Layout.inPlace, if_neg hindex]
      exact .same p
  · intro p hp target htarget q _ r hr
    -- a target is declared in the scope, and the other indices of the line are not
    have hdeclared := Instruction.targets_subset (hlawful.check p hp) htarget
    by_cases hindex : q.1 = index
    · rw [Layout.inPlace, if_pos hindex] at hr
      rintro rfl
      exact hline.unused r hr hdeclared
    · rw [Layout.inPlace, if_neg hindex] at hr
      cases hr

end InPlace

/-- The rows of an edited scope. -/
theorem exists_of_inlined {visible : List Key} {l l' : List (Index × Instruction)}
    (h : Inlined l l') (hlawful : Lawful visible l) : ∃ row, Rows row l ∧ l' = l.flatMap row := by
  cases h with
  | same => exact ⟨.single, single l, (List.flatMap_singleton' l).symm⟩
  | group before after hline =>
      exact ⟨_, inPlace hlawful hline, (inPlace_eq hlawful.nodup).symm⟩

end Rows

/-- The two places are in corresponding scopes, and the rows stand for the instructions there. -/
structure Cursor.Aligned (row : Layout) (c c' : Cursor) : Prop where
  scopes : List.Forall₂ (Scope.Counterpart Inlined) c.scopes c'.scopes
  rows : Rows row c.sequence
  within : c.rest ⊆ c.sequence
  sequence : c'.sequence = c.sequence.flatMap row

/-- The place `c'` is at the row of the instruction that `c` is at. -/
structure Cursor.Unrolled (row : Layout) (c c' : Cursor) : Prop extends Aligned row c c' where
  rest : c'.rest = c.rest.flatMap row

/-- The place `g` is in the group that stands at `c`, and `c'` is at the same member on the line. -/
structure Cursor.Inside (row : Layout) (g c c' : Cursor) : Prop extends Aligned row c c' where
  around : g.scopes = c.scopes
  plain : ∀ p ∈ g.rest, p.2.Plain
  place : ∃ group following line last, c.rest = group :: following ∧
    c'.rest = line ++ (last, .pass group.2.next) :: following.flatMap row ∧
    line.map Prod.snd = g.rest.map Prod.snd

namespace Cursor

variable {row : Layout} {c c' g : Cursor}

theorem Aligned.jump (h : Aligned row c c') {p : Index × Instruction} (hp : p ∈ c.sequence)
    {target : Index} (htarget : target ∈ p.2.targets) :
    Unrolled row (c.jump target) (c'.jump target) where
  scopes := h.scopes
  rows := h.rows
  within := (List.dropWhile_suffix _).subset
  sequence := h.sequence
  rest := by
    show c'.sequence.dropWhile _ = _
    rw [h.sequence]
    exact h.rows.dropWhile hp htarget

/-- An instruction on either side, of which the second goes on as the first does. -/
theorem Aligned.continuation (h : Aligned row c c') {p q : Index × Instruction}
    {following : List (Index × Instruction)} (hrest : c.rest = p :: following)
    (hrest' : c'.rest = q :: following.flatMap row) (hnext : q.2.next = p.2.next) :
    Unrolled row c.continuation c'.continuation := by
  have hp : p ∈ c.sequence := h.within (hrest ▸ List.mem_cons_self)
  unfold Cursor.continuation
  simp only [hrest, hrest', hnext]
  cases hn : p.2.next with
  | none =>
      refine ⟨⟨h.scopes, h.rows, ?_, h.sequence⟩, rfl⟩
      exact fun x hx => h.within (hrest ▸ List.mem_cons_of_mem _ hx)
  | some target => exact h.jump hp (by simp [Instruction.targets, hn])

/-- On to the next member, on both sides. -/
theorem Inside.continuation (h : Inside row g c c') (hmember : g.rest ≠ []) :
    Inside row g.continuation c c'.continuation := by
  obtain ⟨group, following, line, last, hrest, hrest', hline⟩ := h.place
  cases hg : g.rest with
  | nil => exact absurd hg hmember
  | cons m members =>
      rw [hg] at hline
      obtain ⟨m', line, rfl, hm, hline⟩ := List.map_eq_cons_iff.mp hline
      obtain ⟨hplain, hmembers⟩ := List.forall_mem_cons.mp (hg ▸ h.plain)
      have hnext : m'.2.next = none := hm ▸ hplain.1
      have hcontinuation : g.continuation = { g with rest := members } := by
        simp [Cursor.continuation, hg, hplain.1]
      have hcontinuation' : c'.continuation =
          { c' with rest := line ++ (last, .pass group.2.next) :: following.flatMap row } := by
        simp [Cursor.continuation, hrest', hnext]
      rw [hcontinuation, hcontinuation']
      exact ⟨⟨h.scopes, h.rows, h.within, h.sequence⟩, h.around, hmembers,
        group, following, line, last, hrest, rfl, hline⟩

theorem Unrolled.start {scopes scopes' : List Scope}
    (h : List.Forall₂ (Scope.Counterpart Inlined) scopes scopes') :
    ∃ row, Unrolled row (.start scopes) (.start scopes') := by
  cases h with
  | nil => exact ⟨.single, ⟨.nil, .single _, List.Subset.refl _, rfl⟩, rfl⟩
  | cons hs houter =>
      obtain ⟨visible, hlawful⟩ := hs.checked.lawful
      obtain ⟨-, hnumbered, -⟩ := hs.edited
      obtain ⟨row, hrows, hflat⟩ := Rows.exists_of_inlined hnumbered hlawful
      exact ⟨row, ⟨.cons hs houter, hrows, List.Subset.refl _, hflat⟩, hflat⟩

/-- Inside a group that stays a group. -/
theorem Unrolled.group (h : Unrolled row c c') {sequence rest : List (Index × Instruction)}
    (hrest : rest ⊆ sequence) :
    Unrolled .single { c with sequence := sequence, rest := rest }
      { c' with sequence := sequence, rest := rest } :=
  ⟨⟨h.scopes, .single _, hrest, (List.flatMap_singleton' _).symm⟩, (List.flatMap_singleton' _).symm⟩

end Cursor

/-! ## Walks -/

namespace Walk

open Cursor

/-- The calls and groups that the two walks are inside of. Where a group is inlined, the first walk
has one more to take up again. -/
inductive Pending : List Cursor → List Cursor → Prop
  | nil : Pending [] []
  | outside {row : Layout} {c c' : Cursor}
      {suspended suspended' : List Cursor} (place : Unrolled row c.continuation c'.continuation)
      (around : Pending suspended suspended') : Pending (c :: suspended) (c' :: suspended')
  | inside {row : Layout} {g c c' : Cursor}
      {suspended suspended' : List Cursor} (place : Inside row g.continuation c c'.continuation)
      (around : Pending suspended suspended') : Pending (g :: c :: suspended) (c' :: suspended')

/-- Where the two walks stand: at corresponding places, or in a group and on its line. -/
inductive InlinedPlaces : Pairing
  | outside {row : Layout} {c c' : Cursor}
      {suspended suspended' : List Cursor} (place : Unrolled row c c')
      (around : Pending suspended suspended') : InlinedPlaces c suspended c' suspended'
  | inside {row : Layout} {g c c' : Cursor}
      {suspended suspended' : List Cursor} (place : Inside row g c c')
      (around : Pending suspended suspended') : InlinedPlaces g (c :: suspended) c' suspended'

variable {w w' : Walk}

/-- Both walks take up what they are inside of. -/
theorem InStep.resume_inlined (h : InStep InlinedPlaces w w')
    (hpending : Pending w.suspended w'.suspended) : Agree InlinedPlaces w.resume? w'.resume? := by
  unfold Walk.resume?
  generalize w.suspended = s, w'.suspended = s' at hpending
  cases hpending with
  | nil => exact .halted
  | outside hplace haround => exact h.act .noop (.outside hplace haround)
  | inside hplace haround => exact h.act .noop (.inside hplace haround)

/-- The way into a group does what the first instruction of the line does, and the members that are
left are those left on the line. -/
theorem exists_enterGroup? (w : Walk) {members : List Instruction} {first : Instruction}
    {rest : List Instruction} (hne : members ≠ []) (hplain : ∀ m ∈ members, m.Plain)
    (hline : first :: rest = wayIn members ++ members) :
    ∃ action inner, first.command = .act action ∧ first.next = none ∧
      inner.map Prod.snd = rest ∧ (∀ p ∈ inner, p.2.Plain) ∧
      w.enterGroup? members = some (w.act action
        { w.cursor with sequence := numberMembers members, rest := inner }
        (w.cursor :: w.suspended)) := by
  obtain ⟨m, ms, rfl⟩ := List.exists_cons_of_ne_nil hne
  obtain ⟨p, inner, hsequence, rfl, rfl⟩ :=
    List.map_eq_cons_iff.mp (map_snd_numberMembers (m :: ms))
  have hall : ∀ q ∈ p :: inner, q.2.Plain := fun q hq => hplain q.2 (List.mem_map_of_mem hq)
  unfold Walk.enterGroup?
  rw [hsequence]
  obtain ⟨index, command, next⟩ := p
  obtain ⟨hnext, ⟨action, rfl⟩ | ⟨name, rfl⟩⟩ := hall _ List.mem_cons_self
  · obtain ⟨rfl, rfl⟩ := List.cons.inj hline
    exact ⟨action, inner, rfl, hnext, rfl, fun q hq => hall q (List.mem_cons_of_mem _ hq), rfl⟩
  · obtain ⟨rfl, rfl⟩ := List.cons.inj hline
    exact ⟨.noop, _ :: inner, rfl, rfl, rfl, hall, rfl⟩

variable {row : Layout}

/-- A step at an instruction that is the same in both programs. -/
theorem InStep.step_same (h : InStep InlinedPlaces w w') (hplace : Unrolled row w.cursor w'.cursor)
    (hpending : Pending w.suspended w'.suspended) {p : Index × Instruction}
    {following : List (Index × Instruction)} (hrest : w.cursor.rest = p :: following)
    (hrest' : w'.cursor.rest = p :: following.flatMap row) :
    Agree InlinedPlaces w.step? w'.step? := by
  have hgoes := hplace.toAligned.continuation hrest hrest' rfl
  have hp : p ∈ w.cursor.sequence := hplace.within (hrest ▸ List.mem_cons_self)
  refine h.same hrest hrest' hplace.scopes ?_ ?_ ?_ ?_ ?_
  · exact fun _ _ => .outside hgoes hpending
  · exact fun _ => h.resume_inlined hpending
  · intro ifMarked otherwise hc target htarget
    have hmem : target ∈ p.2.targets := by simpa [Instruction.targets, hc] using Or.inr htarget
    exact .outside (hplace.toAligned.jump hp hmem) hpending
  · intro _ _ scopes scopes' hscopes
    obtain ⟨row', hstart⟩ := Unrolled.start hscopes
    exact .outside hstart (.outside hgoes hpending)
  · exact fun _ _ rest hsub => .outside (hplace.group hsub) (.outside hgoes hpending)

/-- The step into a group that is a line in the other program. -/
theorem InStep.step_into (h : InStep InlinedPlaces w w') (hplace : Unrolled row w.cursor w'.cursor)
    (hpending : Pending w.suspended w'.suspended) {index last : Index}
    {members : List Instruction} {next : Option Index} {first : Instruction}
    {following rest : List (Index × Instruction)} (hne : members ≠ [])
    (hplain : ∀ m ∈ members, m.Plain)
    (hline : first :: rest.map Prod.snd = wayIn members ++ members)
    (hrest : w.cursor.rest = (index, ⟨.group members, next⟩) :: following)
    (hrest' : w'.cursor.rest =
      (index, first) :: rest ++ (last, .pass next) :: following.flatMap row) :
    Agree InlinedPlaces w.step? w'.step? := by
  obtain ⟨action, inner, hfirst, hnext, hinner, hmembers, henter⟩ :=
    exists_enterGroup? w hne hplain hline
  have hstep : w.step? = w.enterGroup? members := by simp [Walk.step?, hrest]
  have hcontinuation : w'.cursor.continuation =
      { w'.cursor with rest := rest ++ (last, .pass next) :: following.flatMap row } := by
    simp [Cursor.continuation, hrest', hnext]
  have hstep' : w'.step? = some (w'.act action w'.cursor.continuation w'.suspended) := by
    simp [Walk.step?, hrest', hfirst]
  rw [hstep, hstep', henter, hcontinuation]
  refine h.act action (.inside ⟨⟨hplace.scopes, hplace.rows, hplace.within, hplace.sequence⟩,
    rfl, hmembers, ?_⟩ hpending)
  exact ⟨_, following, rest, last, hrest, rfl, hinner.symm⟩

/-- A step in the group, on the line in the other program. -/
theorem InStep.step_inside {c : Cursor} {suspended : List Cursor} (h : InStep InlinedPlaces w w')
    (hplace : Inside row w.cursor c w'.cursor) (hsuspended : w.suspended = c :: suspended)
    (hpending : Pending suspended w'.suspended) : Agree InlinedPlaces w.step? w'.step? := by
  obtain ⟨group, following, line, last, hrest, hrest', hline⟩ := hplace.place
  cases hg : w.cursor.rest with
  | nil =>
      -- the group is done: it is taken up again on one side, and the other is at the way out
      rw [hg] at hline
      rw [List.map_eq_nil_iff.mp hline] at hrest'
      have hstep : w.step? = some (w.act .noop c.continuation suspended) := by
        simp [Walk.step?, hg, Walk.resume?, hsuspended]
      have hstep' : w'.step? = some (w'.act .noop w'.cursor.continuation w'.suspended) := by
        simp [Walk.step?, hrest', Instruction.pass]
      rw [hstep, hstep']
      exact h.act .noop (.outside (hplace.toAligned.continuation hrest hrest' rfl) hpending)
  | cons m members =>
      have hcontinuation := hplace.continuation (by simp [hg])
      have hplain : m.2.Plain := hplace.plain m (hg ▸ List.mem_cons_self)
      rw [hg] at hline
      obtain ⟨m', line, rfl, hm, -⟩ := List.map_eq_cons_iff.mp hline
      obtain ⟨k, i⟩ := m
      obtain ⟨k', i'⟩ := m'
      obtain rfl : i' = i := hm
      refine h.same hg hrest' (hplace.around ▸ hplace.scopes) ?_ ?_ ?_ ?_ ?_
      · intro _ _
        rw [hsuspended]
        exact .inside hcontinuation hpending
      · -- no member stops, checks or is a group
        intro hc
        rcases hplain.2 with ⟨_, h⟩ | ⟨_, h⟩ <;> cases hc.symm.trans h
      · intro _ _ hc
        rcases hplain.2 with ⟨_, h⟩ | ⟨_, h⟩ <;> cases hc.symm.trans h
      · intro _ _ scopes scopes' hscopes
        obtain ⟨row', hstart⟩ := Unrolled.start hscopes
        rw [hsuspended]
        exact .outside hstart (.inside hcontinuation hpending)
      · intro _ hc
        rcases hplain.2 with ⟨_, h⟩ | ⟨_, h⟩ <;> cases hc.symm.trans h

theorem InStep.step_inlined (h : InStep InlinedPlaces w w') :
    Agree InlinedPlaces w.step? w'.step? := by
  have hplace := h.place
  generalize hsuspended : w.suspended = suspended at hplace
  cases hplace with
  | inside hplace hpending => exact h.step_inside hplace hsuspended hpending
  | @outside row _ _ _ _ hplace hpending =>
      subst hsuspended
      cases hrest : w.cursor.rest with
      | nil =>
          have hstep : w.step? = w.resume? := by simp [Walk.step?, hrest]
          have hstep' : w'.step? = w'.resume? := by simp [Walk.step?, hplace.rest, hrest]
          rw [hstep, hstep']
          exact h.resume_inlined hpending
      | cons p following =>
          have hunrolls := hplace.rows.unrolls p (hplace.within (hrest ▸ List.mem_cons_self))
          have hrest' : w'.cursor.rest = row p ++ following.flatMap row := by
            rw [hplace.rest, hrest, List.flatMap_cons]
          generalize row p = line at hunrolls hrest'
          cases hunrolls with
          | same => exact h.step_same hplace hpending hrest hrest'
          | group hne hplain hline =>
              rw [List.append_assoc] at hrest'
              exact h.step_into hplace hpending hne hplain hline hrest hrest'

end Walk

namespace Scope

/-- A program runs the same, step for step, with a group in some of its scopes replaced by the
straight line of its members. Only a group with more members than can be numbered apart is left out,
and no list in memory is as long. -/
theorem compile_inlined {p p' : Scope} {a : Automaton} (hfits : p.GroupsFit)
    (h : p.Edited id Inlined p') (hcompile : p.compile = .ok a) :
    ∃ a', p'.compile = .ok a' ∧ a.RunsLike a' := by
  refine h.exists_runsLike Inlined.sound hfits hcompile (R := Walk.InlinedPlaces) ?_ ?_
  · intro scopes scopes' hscopes
    obtain ⟨row, hstart⟩ := Cursor.Unrolled.start hscopes
    exact .outside hstart .nil
  · exact fun _ _ => Walk.InStep.step_inlined

/-- Goes right to a marked cell and marks the cells on the way back; `work` is what is done at a
blank cell. -/
def sweep (work : Scope) : Scope :=
  .instr "1" { command := .call "sweep" }
    (.sub "sweep"
      (.sub "step" (.instr "1" { command := .act (.move .right) } .nil)
        (.instr "1" { command := .check 2 3 } (.instr "2" { command := .stop } work)))
      .nil)

/-- The first member of the group is a call, and from the second the group is come to again. -/
def sweepMembers : List Instruction :=
  [{ command := .call "step" }, { command := .call "sweep" }, { command := .act (.write .mark) }]

def sweepGroup : Scope :=
  .instr "3" { command := .group sweepMembers } .nil

def sweepLine : Scope :=
  .instr "3" { command := .act .noop } (.instr "9" { command := .call "step" }
    (.instr "-4" { command := .call "sweep" } (.instr "5" { command := .act (.write .mark) }
      (.instr "8" { command := .act .noop } .nil))))

theorem sweep_inlined :
    (sweep sweepGroup).GroupsFit ∧ (sweep sweepGroup).Edited id Inlined (sweep sweepLine) ∧
      ∃ a a', (sweep sweepGroup).compile = .ok a ∧ (sweep sweepLine).compile = .ok a' ∧
        a.RunsLike a' := by
  have hfits : (sweep sweepGroup).GroupsFit := by decide
  have hgroup : sweepGroup.numbered = [(3, { command := .group sweepMembers })] := by
    decide +kernel
  have hline : Inlined
      ([(1, { command := .check 2 3 }), (2, { command := .stop })] ++ sweepGroup.numbered)
      ([(1, { command := .check 2 3 }), (2, { command := .stop })] ++ sweepLine.numbered ++
        []) := by
    rw [hgroup]
    refine .group _ [] ⟨?_, ?_, ?_, ?_⟩ <;> decide +kernel
  have hedited : (sweep sweepGroup).Edited id Inlined (sweep sweepLine) := by
    refine .intro ⟨by decide, trivial⟩ (.same _)
      (.cons "sweep" (.intro ?_ hline (.cons "step" ?_ .nil)) .nil)
    · exact ⟨by decide, by decide, by decide, by decide, by decide, by decide, by decide, trivial⟩
    · exact .intro ⟨by decide, trivial⟩ (.same _) .nil
  obtain ⟨a, ha⟩ := exists_compile_iff.mpr
    (by decide +kernel : (sweep sweepGroup).check [] = .ok ())
  obtain ⟨a', ha', hruns⟩ := compile_inlined hfits hedited ha
  exact ⟨hfits, hedited, a, a', ha, ha', hruns⟩

end Scope

end TapeMachine
