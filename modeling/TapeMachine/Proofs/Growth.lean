import Mathlib.Data.List.Nodup
import TapeMachine.Compile.Basic

/-!
# Drafts grow

A step of a compilation may fail at any point, and in any case it leaves a draft
behind. This module says how that draft compares with the one before: the states
are still there, a label that had been handed out is placed as it was, a recipe
gives the state that it gave, and no label has been placed a second time.

Labels are handed out long before they are placed, so the comparison carries the
labels that the step was meant to place. A sequence and the bodies of a scope
place none but their own, which are new, and so compiling a whole scope leaves
every label of the scopes around it alone.
-/

namespace TapeMachine

/-- The draft that a step leaves, whether or not it succeeds. -/
def Build.final {α : Type} (x : Build α) (d : Draft) : Draft :=
  match x d with
  | .ok _ d' => d'
  | .error _ d' => d'

/-- Nothing that `d` holds is lost in `d'`. Labels are placed as before, except for those of
`pending`, which may have been placed in between. -/
structure Draft.Grows (pending : List Label) (d d' : Draft) : Prop where
  states : d.states.toList <+: d'.states.toList
  size_le : d.places.size ≤ d'.places.size
  place? : ∀ l : Label, l.number < d.places.size → l ∉ pending → d'.place? l = d.place? l
  recipes : ∀ (r : Recipe) (id : StateId), d.recipes[r]? = some id → d'.recipes[r]? = some id
  replaced : d'.replaced = d.replaced

namespace Draft

/-- Labels that have been handed out and not placed. -/
def Unplaced (labels : List Label) (d : Draft) : Prop :=
  ∀ l ∈ labels, l.number < d.places.size ∧ d.place? l = none

theorem unplaced_nil {d : Draft} : Unplaced [] d := by simp [Unplaced]

theorem Unplaced.head {l : Label} {labels : List Label} {d : Draft}
    (h : Unplaced (l :: labels) d) : Unplaced [l] d := by
  intro l' hl'
  rw [List.mem_singleton.mp hl']
  exact h l List.mem_cons_self

theorem Unplaced.tail {l : Label} {labels : List Label} {d : Draft}
    (h : Unplaced (l :: labels) d) : Unplaced labels d :=
  fun l' hl' => h l' (List.mem_cons_of_mem l hl')

theorem lt_size_of_place? {d : Draft} {l : Label} {id : StateId}
    (h : d.place? l = some id) : l.number < d.places.size := by
  by_contra hge
  rw [place?, Array.getElem?_eq_none (Nat.le_of_not_lt hge)] at h
  simp at h

namespace Grows

variable {pending pending' : List Label} {d d' d'' : Draft}

theorem refl (pending : List Label) (d : Draft) : Grows pending d d where
  states := List.prefix_rfl
  size_le := Nat.le_refl _
  place? := fun _ _ _ => rfl
  recipes := fun _ _ h => h
  replaced := rfl

theorem mono (hsub : pending ⊆ pending') (h : Grows pending d d') : Grows pending' d d' :=
  { h with place? := fun l hl hn => h.place? l hl fun hm => hn (hsub hm) }

theorem trans (h : Grows pending d d') (h' : Grows pending' d' d'') :
    Grows (pending ++ pending') d d'' where
  states := h.states.trans h'.states
  size_le := Nat.le_trans h.size_le h'.size_le
  place? := by
    intro l hl hn
    rw [List.mem_append, not_or] at hn
    rw [h'.place? l (Nat.lt_of_lt_of_le hl h.size_le) hn.2, h.place? l hl hn.1]
  recipes := fun r id hr => h'.recipes r id (h.recipes r id hr)
  replaced := h'.replaced.trans h.replaced

/-- Labels that were handed out after `d` do not count as labels of `d`. -/
theorem drop_new (h : Grows pending d d') (hnew : ∀ l ∈ pending, d.places.size ≤ l.number) :
    Grows [] d d' :=
  { h with
    place? := by
      intro l hl _
      refine h.place? l hl ?_
      intro hm
      exact Nat.not_le_of_lt hl (hnew l hm) }

theorem state? (h : Grows pending d d') {id : StateId} {s : State Target}
    (hs : d.state? id = some s) : d'.state? id = some s := by
  cases id with
  | halt => simp [Draft.state?] at hs
  | slot k =>
      simp only [Draft.state?, ← Array.getElem?_toList] at hs ⊢
      obtain ⟨rest, hrest⟩ := h.states
      rw [← hrest]
      exact List.getElem?_append_left (List.getElem?_eq_some_iff.mp hs).1 ▸ hs

theorem states_size_le (h : Grows pending d d') : d.states.size ≤ d'.states.size := by
  simpa using h.states.length_le

/-- A label that is not among the open ones keeps its place. -/
theorem place?_eq_some (h : Grows pending d d') {l : Label} {id : StateId}
    (hl : d.place? l = some id) (hn : l ∉ pending) : d'.place? l = some id := by
  rw [h.place? l (lt_size_of_place? hl) hn]
  exact hl

/-- A placed label keeps its place in any case if the pending ones are unplaced. -/
theorem keeps (h : Grows pending d d') (hu : Unplaced pending d) {l : Label} {id : StateId}
    (hl : d.place? l = some id) : d'.place? l = some id := by
  refine h.place?_eq_some hl ?_
  intro hm
  rw [(hu l hm).2] at hl
  cases hl

theorem unplaced (h : Grows pending d d') {labels : List Label}
    (hu : Unplaced labels d) (hn : ∀ l ∈ labels, l ∉ pending) : Unplaced labels d' := by
  intro l hl
  obtain ⟨hlt, hnone⟩ := hu l hl
  exact ⟨Nat.lt_of_lt_of_le hlt h.size_le, by rw [h.place? l hlt (hn l hl), hnone]⟩

/-- Placing one label leaves the others unplaced. -/
theorem unplaced_tail {l : Label} {labels : List Label} (h : Grows [l] d d')
    (hl : l ∉ labels) (hu : Unplaced labels d) : Unplaced labels d' := by
  refine h.unplaced hu ?_
  intro l' hl' hmem
  rw [List.mem_singleton.mp hmem] at hl'
  exact hl hl'

end Grows

theorem grows_pushState (d : Draft) (s : State Target) :
    Grows [] d { d with states := d.states.push s } where
  states := by
    rw [Array.toList_push]
    exact List.prefix_append _ _
  size_le := Nat.le_refl _
  place? := fun _ _ _ => rfl
  recipes := fun _ _ h => h
  replaced := rfl

/-- A recipe that is recorded for the first time does not touch the others. -/
theorem grows_record {d : Draft} {r : Recipe} (hr : d.recipes[r]? = none) (id : StateId) :
    Grows [] d { d with recipes := d.recipes.insert r id } := by
  refine { Grows.refl [] d with recipes := ?_ }
  intro r' id' hr'
  show (d.recipes.insert r id)[r']? = some id'
  have hne : r ≠ r' := by
    rintro rfl
    rw [hr] at hr'
    cases hr'
  rw [Std.TreeMap.getElem?_insert,
    if_neg fun heq => hne (Std.LawfulEqOrd.eq_of_compare heq)]
  exact hr'

/-! ## Labels -/

/-- The draft after `n` more labels have been handed out. -/
def handOut (d : Draft) (n : Nat) : Draft :=
  { d with places := d.places ++ Array.replicate n none }

/-- The draft after the label `l` has been placed. -/
def put (d : Draft) (l : Label) (id : StateId) : Draft :=
  { d with places := d.places.setIfInBounds l.number (some id) }

/-- The next `n` labels that `d` hands out. -/
def newLabels (d : Draft) (n : Nat) : List Label :=
  (List.range' d.places.size n).map Label.mk

theorem mem_newLabels {d : Draft} {n : Nat} {l : Label} :
    l ∈ d.newLabels n ↔ d.places.size ≤ l.number ∧ l.number < d.places.size + n := by
  simp only [newLabels, List.mem_map, List.mem_range'_1]
  constructor
  · rintro ⟨k, hk, rfl⟩
    exact hk
  · intro h
    exact ⟨l.number, h, rfl⟩

theorem nodup_newLabels (d : Draft) (n : Nat) : (d.newLabels n).Nodup := by
  refine List.Nodup.map ?_ List.nodup_range'
  intro a b h
  exact congrArg Label.number h

theorem newLabels_succ (d : Draft) (n : Nat) :
    d.newLabels (n + 1) = ⟨d.places.size⟩ :: (d.handOut 1).newLabels n := by
  simp [newLabels, handOut, List.range'_succ]

theorem handOut_succ (d : Draft) (n : Nat) : d.handOut (n + 1) = (d.handOut 1).handOut n := by
  simp only [handOut, Array.append_assoc]
  rw [Nat.add_comm n 1, ← Array.replicate_append_replicate]

theorem place?_handOut (d : Draft) (n : Nat) (l : Label) :
    (d.handOut n).place? l = d.place? l := by
  simp only [place?, handOut, Array.getElem?_append]
  by_cases h : l.number < d.places.size
  · rw [if_pos h]
  · rw [if_neg h, Array.getElem?_eq_none (Nat.le_of_not_lt h), Array.getElem?_replicate]
    split <;> rfl

theorem grows_handOut (d : Draft) (n : Nat) : Grows [] d (d.handOut n) where
  states := List.prefix_rfl
  size_le := by simp [handOut]
  place? := fun l _ _ => place?_handOut d n l
  recipes := fun _ _ h => h
  replaced := rfl

theorem unplaced_newLabels (d : Draft) (n : Nat) :
    Unplaced (d.newLabels n) (d.handOut n) := by
  intro l hl
  rw [mem_newLabels] at hl
  refine ⟨by simpa [handOut] using hl.2, ?_⟩
  rw [place?_handOut, place?, Array.getElem?_eq_none hl.1]
  rfl

theorem fresh_labels {d : Draft} {n : Nat} {lines : List Line}
    (h : lines.map (·.label) = d.newLabels n) :
    (lines.map (·.label)).Nodup ∧ Unplaced (lines.map (·.label)) (d.handOut n) := by
  rw [h]
  exact ⟨nodup_newLabels d n, unplaced_newLabels d n⟩

theorem place?_put_self {d : Draft} {l : Label} (h : l.number < d.places.size)
    (id : StateId) : (d.put l id).place? l = some id := by
  simp [place?, put, h]

theorem place?_put_of_ne {d : Draft} {l l' : Label} (h : l' ≠ l) (id : StateId) :
    (d.put l id).place? l' = d.place? l' := by
  have hne : l.number ≠ l'.number := fun he => h (Label.ext he.symm)
  simp [place?, put, Array.getElem?_setIfInBounds_ne hne]

theorem grows_put (d : Draft) (l : Label) (id : StateId) : Grows [l] d (d.put l id) where
  states := List.prefix_rfl
  size_le := by simp [put]
  place? := by
    intro l' _ hn
    exact place?_put_of_ne (by simpa using hn) id
  recipes := fun _ _ h => h
  replaced := rfl

/-- The entry state of a subroutine: it goes to the label of the body. -/
def entryState (l : Label) : State Target where
  table := .always (.goto (.label l))

/-- The draft after one subroutine has been given a label and an entry state. -/
def addEntry (d : Draft) : Draft :=
  { d.handOut 1 with states := d.states.push (entryState ⟨d.places.size⟩) }

/-- The draft after `n` subroutines have been given labels and entry states. -/
def addEntries (d : Draft) : Nat → Draft
  | 0 => d
  | n + 1 => d.addEntry.addEntries n

theorem newLabels_addEntry (d : Draft) (n : Nat) :
    d.newLabels (n + 1) = ⟨d.places.size⟩ :: d.addEntry.newLabels n :=
  newLabels_succ d n

theorem places_addEntries (d : Draft) (n : Nat) :
    (d.addEntries n).places = (d.handOut n).places := by
  induction n generalizing d with
  | zero => simp [addEntries, handOut]
  | succ n ih =>
      rw [addEntries, ih, handOut_succ]
      rfl

theorem grows_addEntry (d : Draft) : Grows [] d d.addEntry :=
  (grows_handOut d 1).trans (grows_pushState (d.handOut 1) (entryState ⟨d.places.size⟩))

theorem grows_addEntries (d : Draft) (n : Nat) : Grows [] d (d.addEntries n) := by
  induction n generalizing d with
  | zero => exact Grows.refl [] d
  | succ n ih => exact (grows_addEntry d).trans (ih d.addEntry)

theorem unplaced_addEntries (d : Draft) (n : Nat) :
    Unplaced (d.newLabels n) (d.addEntries n) := by
  intro l hl
  have h := unplaced_newLabels d n l hl
  rw [place?] at h
  rw [place?, places_addEntries]
  exact h

end Draft

namespace Build

open Draft

variable {α β : Type}

theorem final_of_ok {x : Build α} {d d' : Draft} {a : α} (h : x d = .ok a d') :
    x.final d = d' := by
  rw [final, h]

theorem final_of_error {x : Build α} {d d' : Draft} {e : CompileError}
    (h : x d = .error e d') : x.final d = d' := by
  rw [final, h]

theorem bind_of_ok {x : Build α} {f : α → Build β} {d d' : Draft} {a : α}
    (h : x d = .ok a d') : (x >>= f) d = f a d' := by
  show EStateM.bind x f d = _
  rw [EStateM.bind, h]

theorem bind_of_error {x : Build α} {f : α → Build β} {d d' : Draft} {e : CompileError}
    (h : x d = .error e d') : (x >>= f) d = .error e d' := by
  show EStateM.bind x f d = _
  rw [EStateM.bind, h]

theorem bind_eq_ok {x : Build α} {f : α → Build β} {d d'' : Draft} {b : β}
    (h : (x >>= f) d = .ok b d'') :
    ∃ a d', x d = .ok a d' ∧ f a d' = .ok b d'' := by
  cases hx : x d with
  | ok a d' => exact ⟨a, d', rfl, by rw [← h, bind_of_ok hx]⟩
  | error e d' =>
      rw [bind_of_error hx] at h
      cases h

theorem ofExcept_eq_ok {r : Except CompileError α} {d d' : Draft} {a : α}
    (h : (ofExcept r : Build α) d = .ok a d') : r = .ok a ∧ d' = d := by
  cases r with
  | error e => cases h
  | ok b =>
      cases h
      exact ⟨rfl, rfl⟩

/-- Two steps in a row grow a draft if the first does and the second does from where it starts. -/
theorem grows_bind {x : Build α} {f : α → Build β} {d : Draft} {pending pending' : List Label}
    (hx : Grows pending d (x.final d))
    (hf : ∀ a d', x d = .ok a d' → Grows pending' d' ((f a).final d')) :
    Grows (pending ++ pending') d ((x >>= f).final d) := by
  cases h : x d with
  | ok a d' =>
      rw [final_of_ok h] at hx
      rw [final, bind_of_ok h]
      exact hx.trans (hf a d' h)
  | error e d' =>
      rw [final_of_error h] at hx
      rw [final_of_error (bind_of_error h)]
      exact hx.mono (List.subset_append_left _ _)

/-- A step that leaves alone every label that has been handed out before it. -/
def Frames (x : Build α) : Prop :=
  ∀ d : Draft, Grows [] d (x.final d)

theorem Frames.of_ok {x : Build α} (hx : Frames x) {d d' : Draft} {a : α}
    (h : x d = .ok a d') : Grows [] d d' := by
  rw [← final_of_ok h]
  exact hx d

theorem frames_pure (a : α) : Frames (pure a : Build α) :=
  fun d => Grows.refl [] d

theorem frames_throw (e : CompileError) : Frames (throw e : Build α) :=
  fun d => Grows.refl [] d

theorem frames_ofExcept (r : Except CompileError α) : Frames (ofExcept r : Build α) := by
  cases r with
  | error e => exact frames_throw e
  | ok a => exact frames_pure a

theorem Frames.bind {x : Build α} {f : α → Build β} (hx : Frames x)
    (hf : ∀ a, Frames (f a)) : Frames (x >>= f) :=
  fun d => grows_bind (hx d) fun a d' _ => hf a d'

theorem get_apply (d : Draft) : (get : Build Draft) d = .ok d d := rfl

theorem frames_get : Frames (get : Build Draft) :=
  fun d => Grows.refl [] d

theorem frames_emit (e : CompileEvent) : Frames (emit e) :=
  fun _ => ⟨List.prefix_rfl, Nat.le_refl _, fun _ _ _ => rfl, fun _ _ h => h, rfl⟩

theorem frames_addState (s : State Target) : Frames (addState s) :=
  fun d => grows_pushState d s

/-! ## Sharing states -/

theorem share_of_some {r : Recipe} {s : State Target} {d : Draft} {id : StateId}
    (h : d.recipes[r]? = some id) :
    share r s d = .ok id { d with events := d.events.push (.reused r id) } := by
  rw [share, bind_of_ok (get_apply d), h]
  rfl

theorem share_of_none {r : Recipe} {s : State Target} {d : Draft}
    (h : d.recipes[r]? = none) :
    share r s d = .ok (.slot d.states.size)
      { d with
        states := d.states.push s
        recipes := d.recipes.insert r (.slot d.states.size) } := by
  rw [share, bind_of_ok (get_apply d), h]
  rfl

theorem frames_share (r : Recipe) (s : State Target) : Frames (share r s) := by
  intro d
  cases h : d.recipes[r]? with
  | some id =>
      rw [final_of_ok (share_of_some h)]
      exact frames_emit (.reused r id) d
  | none =>
      rw [final_of_ok (share_of_none h)]
      exact (grows_pushState d s).trans
        (grows_record (d := { d with states := d.states.push s }) h _)

theorem frames_act (action : Action) (next : Target) : Frames (act action next) :=
  frames_share _ _

theorem frames_check (marked blank : Target) : Frames (check marked blank) :=
  frames_share _ _

theorem frames_enter (entry : StateId) (next : Target) : Frames (enter entry next) := by
  refine (frames_act .noop next).bind fun back => frames_get.bind fun d => ?_
  cases d.state? entry with
  | none => exact frames_pure back
  | some s => exact frames_share _ _

/-! ## Placing labels -/

theorem newLabel_apply (d : Draft) : newLabel d = .ok ⟨d.places.size⟩ (d.handOut 1) := rfl

theorem place_apply {d : Draft} {l : Label} (h : d.place? l = none) (id : StateId) :
    place l id d = .ok () (d.put l id) := by
  rw [place, bind_of_ok (get_apply d), h]
  rfl

theorem placeOf_apply {d : Draft} {l : Label} {id : StateId} (h : d.place? l = some id) :
    placeOf l d = .ok id d := by
  rw [placeOf, bind_of_ok (get_apply d), resolve, h]
  rfl

theorem frames_placeOf (l : Label) : Frames (placeOf l) :=
  frames_get.bind fun _ => frames_ofExcept _

/-- Labelling numbered instructions hands out one label for each and makes nothing. -/
theorem labelled_apply (numbered : List (Index × Instruction)) (d : Draft) :
    ∃ lines : List Line,
      labelled numbered d = .ok lines (d.handOut numbered.length) ∧
      lines.map (·.label) = d.newLabels numbered.length ∧
      lines.map (fun l => (l.index, l.instruction)) = numbered := by
  induction numbered generalizing d with
  | nil => exact ⟨[], by simp [labelled, handOut]; rfl, rfl, rfl⟩
  | cons entry rest ih =>
      obtain ⟨index, i⟩ := entry
      obtain ⟨lines, hrun, hlabels, hnumbered⟩ := ih (d.handOut 1)
      refine ⟨⟨index, i, ⟨d.places.size⟩⟩ :: lines, ?_, ?_, ?_⟩
      · rw [labelled, bind_of_ok (newLabel_apply d), bind_of_ok hrun, List.length_cons,
          handOut_succ d rest.length]
        rfl
      · rw [List.map_cons, hlabels, List.length_cons, newLabels_succ]
      · rw [List.map_cons, hnumbered]

/-! ## Sequences

In a sequence each line finds its own label unplaced, since making the lines before it has placed
only theirs. -/

section Lines

variable {make : Site → Build StateId} (inGroup : Bool) (lines : List Line)

theorem grows_line (hmake : ∀ s, Frames (make s)) {l : Line} (rest : List Line) {d : Draft}
    (hl : Unplaced [l.label] d) :
    Grows [l.label] d ((line make inGroup lines l rest).final d) := by
  refine grows_bind (hmake _ d) ?_
  intro id d' h
  have hnone := (((hmake _).of_ok h).unplaced hl (by simp) l.label (by simp)).2
  rw [final_of_ok (place_apply hnone id)]
  exact grows_put d' l.label id

theorem grows_eachLine (hmake : ∀ s, Frames (make s)) {rest : List Line} {d : Draft}
    (hnodup : (rest.map (·.label)).Nodup) (hu : Unplaced (rest.map (·.label)) d) :
    Grows (rest.map (·.label)) d ((eachLine make inGroup lines rest).final d) := by
  induction rest generalizing d with
  | nil => exact Grows.refl _ d
  | cons l rest ih =>
      rw [List.map_cons, List.nodup_cons] at hnodup
      have hline := grows_line inGroup lines hmake rest hu.head
      refine grows_bind hline ?_
      intro _ d' h
      rw [final_of_ok h] at hline
      exact ih hnodup.2 (hline.unplaced_tail hnodup.1 hu.tail)

end Lines

/-- What a sequence places is new, and so it leaves every earlier label alone. -/
theorem frames_sequence {make : Site → Build StateId} (hmake : ∀ s, Frames (make s))
    (inGroup : Bool) (numbered : List (Index × Instruction)) :
    Frames (sequence make inGroup numbered) := by
  intro d
  obtain ⟨lines, hrun, hlabels, -⟩ := labelled_apply numbered d
  rw [final, sequence, bind_of_ok hrun]
  cases lines with
  | nil => exact grows_handOut d numbered.length
  | cons first rest =>
      obtain ⟨hnodup, hu⟩ := fresh_labels hlabels
      have hlines := grows_eachLine inGroup (first :: rest) hmake hnodup hu
      have hall := (grows_handOut d numbered.length).trans
        (grows_bind hlines fun _ d' _ =>
          ((frames_placeOf first.label).bind fun entry =>
            (frames_emit (.scopeBuilt first.index (first :: rest).length inGroup entry)).bind
              fun _ => frames_pure entry) d')
      refine hall.drop_new ?_
      intro l hl
      rw [hlabels] at hl
      exact (mem_newLabels.mp (by simpa using hl)).1

theorem frames_instructionWith {group : Site → List Instruction → Build StateId}
    (hgroup : ∀ s members, Frames (group s members)) (visible : Visible) (s : Site) :
    Frames (instructionWith group visible s) := by
  refine (frames_emit _).bind fun _ => ?_
  cases s.line.instruction.command with
  | act action => exact (frames_ofExcept _).bind fun next => frames_act action next
  | stop => exact (frames_ofExcept _).bind fun _ => frames_pure _
  | check ifMarked otherwise => exact (frames_ofExcept _).bind fun _ => frames_check _ _
  | call name =>
      exact (frames_ofExcept _).bind fun entry =>
        (frames_ofExcept _).bind fun next => frames_enter entry next
  | group members => exact hgroup s members

theorem frames_member (visible : Visible) (s : Site) : Frames (member visible s) :=
  frames_instructionWith (fun _ _ => frames_throw _) visible s

theorem frames_group (visible : Visible) (s : Site) (members : List Instruction) :
    Frames (group visible s members) := by
  unfold group
  split
  · exact frames_throw _
  · split
    · exact frames_throw _
    · exact (frames_sequence (frames_member visible) true _).bind fun entry =>
        (frames_emit _).bind fun _ =>
          (frames_ofExcept _).bind fun next => frames_enter entry next

theorem frames_instruction (visible : Visible) (s : Site) : Frames (instruction visible s) :=
  frames_instructionWith (frames_group visible) visible s

/-! ## Scopes -/

/-- Declaring subroutines gives each a new label and a state that goes to it. -/
theorem declare_apply (visible : Visible) (subs : List (Key × Scope)) (d : Draft) :
    ∃ entries : Visible,
      declare visible subs d =
        .ok (entries ++ visible, d.newLabels subs.length) (d.addEntries subs.length) ∧
      entries.map Prod.fst = subs.map Prod.fst ∧
      List.Forall₂ (fun p l => (d.addEntries subs.length).state? p.2 = some (entryState l))
        entries (d.newLabels subs.length) := by
  induction subs generalizing d with
  | nil => exact ⟨[], rfl, rfl, List.Forall₂.nil⟩
  | cons sub rest ih =>
      obtain ⟨name, body⟩ := sub
      obtain ⟨entries, hrun, hnames, hstates⟩ := ih d.addEntry
      refine ⟨(name, .slot d.states.size) :: entries, ?_, ?_, ?_⟩
      · have hadd : addState (entryState ⟨d.places.size⟩) (d.handOut 1) =
            .ok (.slot d.states.size) d.addEntry := rfl
        rw [declare, bind_of_ok (newLabel_apply d)]
        refine (bind_of_ok hadd).trans ?_
        rw [bind_of_ok hrun, List.length_cons, newLabels_addEntry]
        rfl
      · rw [List.map_cons, List.map_cons, hnames]
      · rw [List.length_cons, newLabels_addEntry]
        refine List.Forall₂.cons ?_ hstates
        refine (grows_addEntries d.addEntry rest.length).state? ?_
        simp [addEntry, state?]

/-- What the bodies of a scope may do: place their own labels. -/
def GrowsBodies (bodies : Visible → List Label → Build Unit) : Prop :=
  ∀ (visible : Visible) (labels : List Label) (d : Draft), labels.Nodup → Unplaced labels d →
    Grows labels d ((bodies visible labels).final d)

theorem frames_scopeWith {bodies : Visible → List Label → Build Unit}
    (hbodies : GrowsBodies bodies) (s : Scope) (visible : Visible) :
    Frames (scopeWith bodies s visible) := by
  refine (frames_ofExcept _).bind fun o d => ?_
  obtain ⟨entries, hrun, -, -⟩ := declare_apply visible o.subroutines d
  rw [final, bind_of_ok hrun]
  have hgrow := (grows_addEntries d o.subroutines.length).trans
    (grows_bind
      (hbodies (entries ++ visible) (d.newLabels o.subroutines.length) _
        (nodup_newLabels d _) (unplaced_addEntries d _))
      fun _ d' _ => frames_sequence (frames_instruction (entries ++ visible)) false
        o.instructions d')
  refine hgrow.drop_new ?_
  intro l hl
  exact (mem_newLabels.mp (by simpa using hl)).1

theorem growsBodies (s : Scope) : GrowsBodies (bodies s) := by
  induction s with
  | nil => exact fun _ _ d _ _ => Grows.refl _ d
  | instr key i rest ih => exact ih
  | sub name body rest ihbody ihrest =>
      intro visible labels d hnodup hu
      cases labels with
      | nil => exact Grows.refl _ d
      | cons label labels =>
          rw [List.nodup_cons] at hnodup
          have hbody := frames_scopeWith ihbody body visible
          -- the label of this body is still unplaced when the body is compiled
          refine grows_bind (hbody d) fun entry d' h => ?_
          have hu' := (hbody.of_ok h).unplaced hu (by simp)
          have hplace := place_apply (hu' label (by simp)).2 entry
          have hput : Grows [label] d' ((place label entry).final d') := by
            rw [final_of_ok hplace]
            exact grows_put d' label entry
          refine grows_bind hput fun _ d'' h' => ?_
          rw [final_of_ok h'] at hput
          refine grows_bind (frames_emit _ _) fun _ d₃ h₃ => ?_
          refine ihrest visible labels d₃ hnodup.2 ?_
          exact ((frames_emit _).of_ok h₃).unplaced (hput.unplaced_tail hnodup.1 hu'.tail) (by simp)

theorem frames_scope (s : Scope) (visible : Visible) : Frames (scope s visible) :=
  frames_scopeWith (growsBodies s) s visible

end Build

end TapeMachine
