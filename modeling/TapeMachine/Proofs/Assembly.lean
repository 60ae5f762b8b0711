import TapeMachine.Proofs.Plan
import TapeMachine.Proofs.Realised

/-!
# A compilation follows the plan

A program that is compiled is assembled by the tasks of its plan, one after the
other and in that order, with the labels that the plan says. What holds of a
compiled program is then proved task by task, and the compiler with its scopes,
groups and errors is not opened again.

The labels come out right since the labels handed out so far are as many as the
tasks so far ask for. Each part of the compiler is given that its own labels are
the next ones.
-/

namespace TapeMachine

open Draft

/-- The order may stand at the spot: there is no group in a group. -/
def Order.Admitted (spot : Spot) : Order → Prop
  | group _ _ _ => spot.group = none
  | _ => True

namespace Numbering

variable (N : Numbering)

/-- The step from `d` to `d'` makes the state `id` that an order asks for. -/
inductive Makes (d : Draft) (id : StateId) (d' : Draft) : Order → Prop
  | act {action : Action} {next : Option Spot}
      (run : Build.act action (N.target next) d = .ok id d') : Makes d id d' (.act action next)
  | stop (id_eq : id = .halt) (draft_eq : d' = d) : Makes d id d' .stop
  | check {marked blank : Spot}
      (run : Build.check (N.target marked) (N.target blank) d = .ok id d') :
      Makes d id d' (.check marked blank)
  | call {path : List Key} {entry : StateId} {next : Option Spot}
      (state : d.state? entry = some (entryState (N.label (.body path))))
      (run : Build.enter entry (N.target next) d = .ok id d') :
      Makes d id d' (.call (some path) next)
  | group {first : Spot} {members : Nat} {entry : StateId} {next : Option Spot}
      (place : d.place? (N.label (.spot first)) = some entry)
      (state : (d.state? entry).isSome)
      (run : Build.enter entry (N.target next) d = .ok id d') :
      Makes d id d' (.group first members next)

/-- The task takes the draft `d` to `d'`. -/
inductive Does : Task → Draft → Draft → Prop
  | declare {path : List Key} {d : Draft}
      (mem : .body path ∈ N) (label : N.label (.body path) = ⟨d.places.size⟩) :
      Does (.declare path) d d.addEntry
  | label {spot : Spot} {d : Draft}
      (mem : .spot spot ∈ N) (label : N.label (.spot spot) = ⟨d.places.size⟩) :
      Does (.label spot) d (d.handOut 1)
  | make {spot : Spot} {order : Order} {d d' : Draft} {id : StateId}
      (admitted : order.Admitted spot) (makes : N.Makes d id d' order)
      (aims : ∀ t ∈ order.nexts, d.Aims (N.target t))
      (free : Unplaced [N.label (.spot spot)] d') :
      Does (.make spot order) d (d'.put (N.label (.spot spot)) id)
  | bind {path : List Key} {d : Draft} {id : StateId}
      (place : d.place? (N.label (.spot (.start path))) = some id)
      (free : Unplaced [N.label (.body path)] d) :
      Does (.bind path) d (d.put (N.label (.body path)) id)

/-- The tasks take the draft `d` to `d'`, with nothing but events in between. -/
inductive Assembles : List Task → Draft → Draft → Prop
  | done {d : Draft} : Assembles [] d d
  | log {tasks : List Task} {d d' : Draft} {e : CompileEvent}
      (rest : Assembles tasks (d.log e) d') : Assembles tasks d d'
  | task {task : Task} {tasks : List Task} {d d₁ d' : Draft}
      (does : N.Does task d d₁) (rest : Assembles tasks d₁ d') : Assembles (task :: tasks) d d'

/-- The labels that the tasks ask for are the next ones. -/
def Expects (d : Draft) (tasks : List Task) : Prop :=
  ∃ pre post, N = pre ++ anchors tasks ++ post ∧ pre.length = d.places.size

/-- The entries of the visible subroutines go to the labels of the bodies that `names` has. -/
def Knows (d : Draft) (visible : Visible) (names : Names) : Prop :=
  ∀ name entry, visible.lookup name = some entry →
    ∃ path, names name = some path ∧ d.state? entry = some (entryState (N.label (.body path)))

variable {N}

theorem Knows.grows {pending : List Label} {d d' : Draft} {visible : Visible} {names : Names}
    (h : N.Knows d visible names) (hgrow : Grows pending d d') : N.Knows d' visible names := by
  intro name entry hentry
  obtain ⟨path, hpath, hstate⟩ := h name entry hentry
  exact ⟨path, hpath, hgrow.state? hstate⟩

/-! ## Numbers of labels -/

theorem Makes.places {d d' : Draft} {id : StateId} {order : Order} (h : N.Makes d id d' order) :
    d'.places = d.places := by
  have hshare : ∀ {r s d id d'}, Build.share r s d = .ok id d' → d'.places = d.places := by
    intro r s d id d' hrun
    rcases Build.share_eq_ok hrun with ⟨-, rfl⟩ | ⟨-, -, rfl⟩ <;> rfl
  have henter : ∀ {entry next}, Build.enter entry next d = .ok id d' → d'.places = d.places := by
    intro entry next hrun
    obtain ⟨back, d₁, hback, ⟨-, -, rfl⟩ | ⟨s, -, hrun'⟩⟩ := Build.enter_eq_ok hrun
    · exact hshare hback
    · exact (hshare hrun').trans (hshare hback)
  cases h with
  | act hrun => exact hshare hrun
  | stop _ hd => rw [hd]
  | check hrun => exact hshare hrun
  | call _ hrun => exact henter hrun
  | group _ _ hrun => exact henter hrun

theorem Does.size_places {task : Task} {d d' : Draft} (h : N.Does task d d') :
    d'.places.size = d.places.size + (anchors [task]).length := by
  cases h with
  | declare => simp [addEntry, handOut, anchors, Task.anchor?]
  | label => simp [handOut, anchors, Task.anchor?]
  | make _ hmakes => simp [put, hmakes.places, anchors, Task.anchor?]
  | bind => simp [put, anchors, Task.anchor?]

namespace Assembles

theorem size_places {tasks : List Task} {d d' : Draft} (h : N.Assembles tasks d d') :
    d'.places.size = d.places.size + (anchors tasks).length := by
  induction h with
  | done => rfl
  | log _ ih => exact ih
  | @task task tasks d _ _ hdoes _ ih =>
      have hcons : anchors (task :: tasks) = anchors [task] ++ anchors tasks :=
        anchors_append [task] tasks
      rw [ih, hdoes.size_places, hcons, List.length_append, Nat.add_assoc]

theorem append {tasks tasks' : List Task} {d d₁ d' : Draft} (h : N.Assembles tasks d d₁)
    (h' : N.Assembles tasks' d₁ d') : N.Assembles (tasks ++ tasks') d d' := by
  induction h with
  | done => exact h'
  | log _ ih => exact .log (ih h')
  | task hdoes _ ih => exact .task hdoes (ih h')

theorem and_log {tasks : List Task} {d d' : Draft} (h : N.Assembles tasks d d')
    (e : CompileEvent) : N.Assembles tasks d (d'.log e) := by
  have happend := h.append (.log (e := e) .done)
  rwa [List.append_nil] at happend

end Assembles

namespace Expects

variable {d d' : Draft} {tasks tasks' : List Task}

theorem left (h : N.Expects d (tasks ++ tasks')) : N.Expects d tasks := by
  obtain ⟨pre, post, hN, hlength⟩ := h
  exact ⟨pre, anchors tasks' ++ post, by simp [hN], hlength⟩

theorem right (h : N.Expects d (tasks ++ tasks')) (hrun : N.Assembles tasks d d') :
    N.Expects d' tasks' := by
  obtain ⟨pre, post, hN, hlength⟩ := h
  refine ⟨pre ++ anchors tasks, post, by simp [hN], ?_⟩
  rw [List.length_append, hlength, hrun.size_places]

theorem tail {task : Task} (h : N.Expects d (task :: tasks)) (hdoes : N.Does task d d') :
    N.Expects d' tasks :=
  right (show N.Expects d ([task] ++ tasks) from h) (.task hdoes .done)

/-- In a numbering without repetition the number of a label is its place. -/
theorem label_eq (hN : N.Nodup) (h : N.Expects d tasks) {k : Nat} {a : Anchor}
    (ha : (anchors tasks)[k]? = some a) : a ∈ N ∧ N.label a = ⟨d.places.size + k⟩ := by
  obtain ⟨pre, post, hsplit, hlength⟩ := h
  obtain ⟨hk, -⟩ := List.getElem?_eq_some_iff.mp ha
  have hget : N[pre.length + k]? = some a := by
    rw [hsplit, List.append_assoc, List.getElem?_append_right (Nat.le_add_right _ _),
      Nat.add_sub_cancel_left, List.getElem?_append_left hk]
    exact ha
  obtain ⟨hlt, hget⟩ := List.getElem?_eq_some_iff.mp hget
  refine ⟨hget ▸ List.getElem_mem hlt, Label.ext ?_⟩
  show N.idxOf a = d.places.size + k
  rw [← hget, hN.idxOf_getElem, hlength]

theorem cons_label (hN : N.Nodup) {task : Task} {a : Anchor} (ha : task.anchor? = some a)
    (h : N.Expects d (task :: tasks)) : a ∈ N ∧ N.label a = ⟨d.places.size⟩ := by
  refine h.label_eq hN (k := 0) ?_
  simp [anchors, ha]

end Expects

end Numbering

/-! ## Sites -/

namespace Row

variable (N : Numbering) (r : Row)

/-- The instructions of the row with their labels. -/
def lines : List Line :=
  r.numbered.zipIdx.map fun (p, place) =>
    { index := p.1, instruction := p.2, label := N.label (.spot (r.spot place)) }

/-- The site is that of the instruction at the place. -/
structure Shows (place : Nat) (s : Site) : Prop where
  lines : s.lines = r.lines N
  following : s.following = r.following place
  inGroup : s.inGroup = r.group.isSome

variable {N r}

theorem getElem?_lines {place : Nat} {l : Line} (h : (r.lines N)[place]? = some l) :
    r.numbered[place]? = some (l.index, l.instruction) ∧
      l.label = N.label (.spot (r.spot place)) := by
  simp only [lines, List.getElem?_map, List.getElem?_zipIdx, Nat.zero_add,
    Option.map_eq_some_iff] at h
  obtain ⟨p, ⟨q, hq, rfl⟩, rfl⟩ := h
  exact ⟨hq, rfl⟩

theorem map_numbered_lines : (r.lines N).map Line.numbered = r.numbered := by
  rw [lines, List.map_map]
  exact List.zipIdx_map_fst 0 r.numbered

theorem shows_before {pre rest : List Line} {l : Line} (h : r.lines N = pre ++ l :: rest) :
    r.Shows N pre.length (.before r.group.isSome (r.lines N) l rest) := by
  refine ⟨rfl, ?_, rfl⟩
  have hrest : (r.numbered.map Prod.fst)[pre.length + 1]? = rest.head?.map (·.index) := by
    rw [← map_numbered_lines (N := N), h]
    cases rest <;> simp [Line.numbered]
  rw [following, ← List.getElem?_map, hrest]
  rfl

namespace Shows

variable {place : Nat} {s : Site}

theorem find? (h : r.Shows N place s) {index : Index} {line : Line}
    (hfind : s.lines.find? (·.index = index) = some line) :
    ∃ spot, r.target index = some spot ∧ line.label = N.label (.spot spot) := by
  rw [h.lines, List.find?_eq_some_iff_getElem] at hfind
  obtain ⟨hindex, k, hk, hline, hbefore⟩ := hfind
  obtain ⟨hnumbered, hlabel⟩ := getElem?_lines (List.getElem?_eq_some_iff.mpr ⟨hk, hline⟩)
  obtain ⟨hlt, hget⟩ := List.getElem?_eq_some_iff.mp hnumbered
  refine ⟨r.spot k, target_eq_some.mpr ⟨k, ?_, rfl⟩, hlabel⟩
  rw [List.findIdx?_eq_some_iff_getElem]
  refine ⟨hlt, by simpa [hget] using hindex, ?_⟩
  intro j hj heq
  have hne := hbefore j hj
  simp only [Row.lines, List.getElem_map, List.getElem_zipIdx] at hne
  simp only [decide_eq_true_eq] at heq
  simp [heq] at hne

theorem continuation (h : r.Shows N place s) {t : Target} (hnext : s.continuation = .ok t) :
    t = N.target (r.next place s.line.instruction) := by
  obtain ⟨hgroup, hcases⟩ := Site.continuation_eq_ok hnext
  have hindex : r.next place s.line.instruction =
      (s.line.instruction.next <|> s.following).bind r.target := by
    rw [next, h.following]
    split
    · rfl
    · rename_i k hk
      rw [hgroup (by simp [h.inGroup, hk])]
      rfl
  rw [hindex]
  rcases hcases with ⟨hnone, rfl⟩ | ⟨target, line, hsome, -, hline, rfl⟩
  · rw [hnone]
    rfl
  · obtain ⟨spot, hspot, hlabel⟩ := h.find? hline
    rw [hsome, Option.bind_some, hspot, hlabel]
    rfl

end Shows

end Row

namespace Build

variable {N : Numbering} {visible : Visible} {r : Row}
  {before : Nat → Instruction → List Task} {make : Site → Build StateId}

/-! ## Instructions -/

/-- Making the state of a site is to do the tasks that come before and then to make what the
order of the instruction asks for. -/
def FollowsOrder (N : Numbering) (visible : Visible) (r : Row)
    (before : Nat → Instruction → List Task) (make : Site → Build StateId) : Prop :=
  ∀ (place : Nat) (s : Site) (d : Draft) (id : StateId) (d' : Draft), r.Shows N place s →
    d.WellFormed → d.Hosts visible → N.Knows d visible r.names → s.Within d →
    N.Expects d (before place s.line.instruction) → make s d = .ok id d' →
    ∃ d₁, N.Assembles (before place s.line.instruction) d d₁ ∧
      (r.order place s.line.instruction).Admitted (r.spot place) ∧
      N.Makes d₁ id d' (r.order place s.line.instruction) ∧
      ∀ t ∈ (r.order place s.line.instruction).nexts, d₁.Aims (N.target t)

/-- A command other than a group has no tasks before it. -/
theorem makes_of_made {group : Site → List Instruction → Build StateId} {place : Nat} {s : Site}
    {d d' : Draft} {id : StateId} (hs : r.Shows N place s) (hk : N.Knows d visible r.names)
    (hw : s.Within d) (h : Made group visible s d id d') :
    (r.inside place s.line.instruction = [] ∧
      (r.order place s.line.instruction).Admitted (r.spot place) ∧
      N.Makes d id d' (r.order place s.line.instruction) ∧
      ∀ t ∈ (r.order place s.line.instruction).nexts, d.Aims (N.target t)) ∨
    ∃ members, s.line.instruction.command = .group members ∧ group s members d = .ok id d' := by
  cases h with
  | act hcommand hnext hrun =>
      left
      have haims := s.aims_continuation hw hnext
      rw [hs.continuation hnext] at hrun haims
      rw [Row.order, hcommand]
      exact ⟨by simp [Row.inside, hcommand], trivial, .act hrun, by simpa [Order.nexts] using haims⟩
  | stop hcommand _ hid hd =>
      left
      rw [Row.order, hcommand]
      exact ⟨by simp [Row.inside, hcommand], trivial, .stop hid hd, by simp [Order.nexts]⟩
  | check hcommand hbranches hrun =>
      left
      obtain ⟨hm, hb⟩ := s.aims_branches hw hbranches
      obtain ⟨m, o, hmarked, rfl, hblank, rfl⟩ := Site.branches_eq_ok hbranches
      obtain ⟨marked, hmarked, hmlabel⟩ := hs.find? hmarked
      obtain ⟨blank, hblank, holabel⟩ := hs.find? hblank
      rw [hmlabel] at hrun hm
      rw [holabel] at hrun hb
      rw [Row.order, hcommand]
      simp only [hmarked, hblank]
      refine ⟨by simp [Row.inside, hcommand], trivial, .check hrun, ?_⟩
      simp only [Order.nexts, List.mem_cons, List.not_mem_nil, or_false]
      rintro t (rfl | rfl)
      · exact hm
      · exact hb
  | call hcommand hcallee hnext hrun =>
      left
      obtain ⟨path, hpath, hstate⟩ := hk _ _ (Visible.callee_eq_ok hcallee).2
      have haims := s.aims_continuation hw hnext
      rw [hs.continuation hnext] at hrun haims
      rw [Row.order, hcommand]
      simp only [hpath]
      exact ⟨by simp [Row.inside, hcommand], trivial, .call hstate hrun,
        by simpa [Order.nexts] using haims⟩
  | group hcommand hrun => exact Or.inr ⟨_, hcommand, hrun⟩

theorem member_followsOrder (N : Numbering) (visible : Visible) (r : Row) :
    FollowsOrder N visible r (fun _ _ => []) (member visible) := by
  intro place s d id d' hs _ _ hk hw _ h
  rcases makes_of_made (d := d.log _) hs hk hw (instructionWith_eq_ok h) with
    ⟨-, hmakes⟩ | ⟨members, -, hrun⟩
  · exact ⟨_, .log .done, hmakes⟩
  · cases hrun

/-! ## Sequences -/

theorem makes_cons (place : Nat) (p : Index × Instruction) (rest : List (Index × Instruction)) :
    r.makes before place (p :: rest) =
      before place p.2 ++ .make (r.spot place) (r.order place p.2) ::
        r.makes before (place + 1) rest := by
  simp [Row.makes, List.zipIdx_cons]

theorem labels_assembles (hN : N.Nodup) {spots : List Spot} {d : Draft}
    (h : N.Expects d (spots.map .label)) :
    N.Assembles (spots.map .label) d (d.handOut spots.length) := by
  induction spots generalizing d with
  | nil =>
      have hd : d.handOut 0 = d := by simp [handOut]
      rw [List.length_nil, hd]
      exact .done
  | cons spot spots ih =>
      obtain ⟨hmem, hlabel⟩ := h.cons_label hN rfl
      have hdoes : N.Does (.label spot) d (d.handOut 1) := .label hmem hlabel
      rw [List.length_cons, handOut_succ]
      exact .task hdoes (ih (h.tail hdoes))

theorem lines_eq (hN : N.Nodup) {d : Draft} (h : N.Expects d r.labels) {lines : List Line}
    (hlabels : lines.map (·.label) = d.newLabels r.numbered.length)
    (hnumbered : lines.map Line.numbered = r.numbered) : lines = r.lines N := by
  have hlength : lines.length = r.numbered.length := by rw [← hnumbered, List.length_map]
  refine List.ext_getElem (by simp [Row.lines, hlength]) ?_
  intro k hk _
  have hlabel : lines[k].label = N.label (.spot (r.spot k)) := by
    have hget : (anchors r.labels)[k]? = some (.spot (r.spot k)) := by
      rw [Row.anchors_labels, List.getElem?_map, List.getElem?_range (by omega)]
      rfl
    rw [(h.label_eq hN hget).2]
    have hnew := List.getElem_of_eq hlabels (i := k) (by simpa using hk)
    simpa [newLabels] using hnew
  have hline : (lines[k].index, lines[k].instruction) = r.numbered[k] := by
    have hget := List.getElem_of_eq hnumbered (i := k) (by simpa using hk)
    simpa [Line.numbered] using hget
  simp only [Row.lines, List.getElem_map, List.getElem_zipIdx, ← hline, ← hlabel, Nat.zero_add]

section Lines

variable (hframes : ∀ s, Frames (make s)) (hcomplete : Completes visible make)
  (hmake : FollowsOrder N visible r before make)
include hframes hcomplete hmake

theorem eachLine_assembles {pre rest : List Line} {d d' : Draft} (hwf : d.WellFormed)
    (hv : d.Hosts visible) (hk : N.Knows d visible r.names) (hsplit : r.lines N = pre ++ rest)
    (hlines : ∀ l ∈ r.lines N, l.label.number < d.places.size)
    (hnodup : (rest.map (·.label)).Nodup) (hu : Unplaced (rest.map (·.label)) d)
    (hexpects : N.Expects d (r.makes before pre.length (rest.map Line.numbered)))
    (h : eachLine make r.group.isSome (r.lines N) rest d = .ok () d') :
    N.Assembles (r.makes before pre.length (rest.map Line.numbered)) d d' := by
  induction rest generalizing pre d with
  | nil =>
      cases h
      exact .done
  | cons l rest ih =>
      obtain ⟨id, d₂, hid, -, hu', h⟩ := eachLine_cons_eq_ok hframes hnodup hu h
      rw [List.map_cons, List.nodup_cons] at hnodup
      rw [List.map_cons, makes_cons] at hexpects ⊢
      have hshows := Row.shows_before hsplit
      obtain ⟨d₁, hbefore, hadmitted, hmakes, haims⟩ := hmake pre.length _ d id d₂ hshows hwf hv hk
        hlines hexpects.left hid
      have hget : (r.lines N)[pre.length]? = some l := by simp [hsplit]
      have hlabel := (Row.getElem?_lines hget).2
      have hgrow := (hframes _).of_ok hid
      have hfree : Unplaced [l.label] d₂ := hgrow.unplaced hu.head (by simp)
      have hdone := hcomplete (.before r.group.isSome (r.lines N) l rest) d id d₂ hwf hv hlines hid
      have hgrow' := hgrow.trans (grows_put d₂ l.label id)
      rw [hlabel] at hfree h hu' hgrow'
      have hdoes : N.Does (.make (r.spot pre.length) (r.order pre.length l.instruction)) d₁
          (d₂.put (N.label (.spot (r.spot pre.length))) id) :=
        .make hadmitted hmakes haims hfree
      refine hbefore.append (.task hdoes ?_)
      have hsplit' : r.lines N = (pre ++ [l]) ++ rest := by simp [hsplit]
      have hrest := ih (hdone.wellFormed.put _ hdone.has) (hgrow'.hosts hv) (hk.grows hgrow')
        hsplit' (fun l' hl' => Nat.lt_of_lt_of_le (hlines l' hl') hgrow'.size_le) hnodup.2 hu' ?_ h
      · simpa using hrest
      · rw [List.length_append]
        exact (hexpects.right hbefore).tail hdoes

theorem sequence_assembles (hN : N.Nodup) {d d' : Draft} {entry : StateId} (hwf : d.WellFormed)
    (hv : d.Hosts visible) (hk : N.Knows d visible r.names)
    (hexpects : N.Expects d (r.tasks before))
    (h : sequence make r.group.isSome r.numbered d = .ok entry d') :
    N.Assembles (r.tasks before) d d' ∧ d'.place? (N.label (.spot (r.spot 0))) = some entry := by
  obtain ⟨first, rest, d₁, hlabels, hnumbered, heach, hplace, rfl⟩ := sequence_eq_ok h
  obtain ⟨hnodup, hu⟩ := fresh_labels hlabels
  have hlines := lines_eq hN hexpects.left hlabels hnumbered
  have hget : (r.lines N)[0]? = some first := by rw [← hlines]; rfl
  have hfirst := (Row.getElem?_lines hget).2
  have hrange : r.labels = ((List.range r.numbered.length).map r.spot).map .label := by
    simp [Row.labels, Function.comp_def]
  have hhand : N.Assembles r.labels d (d.handOut r.numbered.length) := by
    have hleft := hexpects.left
    rw [hrange] at hleft ⊢
    simpa using labels_assembles hN hleft
  have hright := hexpects.right hhand
  rw [hlines] at hu hnodup heach
  have hnumbered' := r.map_numbered_lines (N := N)
  have hmakes := eachLine_assembles hframes hcomplete hmake (hwf.handOut r.numbered.length)
    ((grows_handOut d _).hosts hv) (hk.grows (grows_handOut d _))
    (show r.lines N = [] ++ r.lines N from rfl)
    (fun l hl => (hu l.label (List.mem_map_of_mem hl)).1) hnodup hu (by rwa [hnumbered']) heach
  rw [hnumbered'] at hmakes
  refine ⟨(hhand.append hmakes).and_log _, ?_⟩
  rw [← hfirst]
  exact hplace

end Lines

/-! ## Groups -/

theorem instruction_followsOrder (hN : N.Nodup) (visible : Visible) (hr : r.group = none) :
    FollowsOrder N visible r r.members (instruction visible) := by
  intro place s d id d' hs hwf hv hk hw hexpects h
  rcases makes_of_made (d := d.log _) hs hk hw (instructionWith_eq_ok h) with
    ⟨hinside, hmakes⟩ | ⟨members, hcommand, hrun⟩
  · refine ⟨d.log _, ?_, hmakes⟩
    rw [Row.members, hinside]
    exact .log .done
  · obtain ⟨entry, d₁, next, hseq, hnext, henter⟩ := group_eq_ok hrun
    have hwf₀ := hwf.log (.producing s.index s.kind)
    have hgrow := (frames_sequence (frames_member visible) true _).of_ok hseq
    have haims : (d₁.log (.groupInlined s.index members.length)).Aims next :=
      hgrow.aims (s.aims_continuation hw hnext)
    have hinside : r.inside place s.line.instruction =
        [{ r with group := some place, numbered := numberMembers members }] := by
      rw [Row.inside, hcommand]
    rw [Row.members, hinside, List.flatMap_singleton] at hexpects ⊢
    obtain ⟨hrow, hplace⟩ := sequence_assembles
      (r := { r with group := some place, numbered := numberMembers members })
      (frames_member visible) (member_completed visible) (member_followsOrder N visible _) hN
      hwf₀ hv hk hexpects hseq
    have hentry := isSome_of_members hwf₀ hv hseq
    rw [hs.continuation hnext] at henter haims
    refine ⟨_, (Numbering.Assembles.log hrow).and_log (.groupInlined s.index members.length), ?_⟩
    rw [Row.order, hcommand]
    exact ⟨hr, .group hplace hentry henter, by simpa [Order.nexts] using haims⟩

/-! ## Scopes -/

theorem declare_assembles (hN : N.Nodup) {path : List Key} {subs : List (Key × Scope)} {d : Draft}
    (h : N.Expects d (subs.map fun p => .declare (p.1 :: path))) :
    N.Assembles (subs.map fun p => .declare (p.1 :: path)) d (d.addEntries subs.length) := by
  induction subs generalizing d with
  | nil => exact .done
  | cons p subs ih =>
      obtain ⟨hmem, hlabel⟩ := h.cons_label hN rfl
      have hdoes : N.Does (.declare (p.1 :: path)) d d.addEntry := .declare hmem hlabel
      exact .task hdoes (ih (h.tail hdoes))

theorem newLabels_eq (hN : N.Nodup) {path : List Key} {subs : List (Key × Scope)} {d : Draft}
    (h : N.Expects d (subs.map fun p => .declare (p.1 :: path))) :
    d.newLabels subs.length = subs.map fun p => N.label (.body (p.1 :: path)) := by
  refine List.ext_getElem (by simp [newLabels]) ?_
  intro k hk _
  have hlt : k < subs.length := by simpa [newLabels] using hk
  have hget : (anchors (subs.map fun p => .declare (p.1 :: path)))[k]? =
      some (.body (subs[k].1 :: path)) := by
    rw [anchors_declare]
    simp [hlt]
  rw [List.getElem_map, (h.label_eq hN hget).2]
  simp [newLabels]

/-- The subroutines of a scope hide those of the same name around it. -/
theorem knows_append {s : Scope} {path : List Key} {outer : Names} {entries : Visible}
    {labels : List Label} {d : Draft} (hnames : entries.map Prod.fst = s.subroutines.map Prod.fst)
    (hentries : List.Forall₂ (fun p l => d.state? p.2 = some (entryState l)) entries labels)
    (hlabels : labels = s.subroutines.map fun p => N.label (.body (p.1 :: path)))
    (hk : N.Knows d visible outer) : N.Knows d (entries ++ visible) (s.names path outer) := by
  have hstates : ∀ p ∈ entries,
      d.state? p.2 = some (entryState (N.label (.body (p.1 :: path)))) := by
    have hmap : labels = entries.map fun p => N.label (.body (p.1 :: path)) := by
      have hcomp := congrArg (List.map fun name => N.label (.body (name :: path))) hnames
      simpa [hlabels, Function.comp_def] using hcomp.symm
    rw [hmap, List.forall₂_map_right_iff] at hentries
    exact List.forall₂_same.mp hentries
  intro name entry hentry
  rw [List.lookup_append] at hentry
  cases hlookup : entries.lookup name with
  | some entry' =>
      rw [hlookup] at hentry
      cases hentry
      obtain ⟨pre, post, hsplit, -⟩ := List.lookup_eq_some_iff.mp hlookup
      have hmem : (name, entry) ∈ entries := by simp [hsplit]
      refine ⟨name :: path, ?_, hstates _ hmem⟩
      rw [Scope.names, if_pos (hnames ▸ List.mem_map_of_mem hmem)]
  | none =>
      rw [hlookup] at hentry
      obtain ⟨path', hpath, hstate⟩ := hk name entry hentry
      refine ⟨path', ?_, hstate⟩
      rw [Scope.names, if_neg, hpath]
      rw [← hnames, List.mem_map]
      rintro ⟨p, hp, rfl⟩
      simpa using List.lookup_eq_none_iff.mp hlookup p hp

/-- Compiling the bodies of `s` is to do their tasks. -/
def FollowsBodies (N : Numbering) (s : Scope) : Prop :=
  ∀ (visible : Visible) (path : List Key) (names : Names) (labels : List Label) (d d' : Draft),
    d.WellFormed → d.Hosts visible → N.Knows d visible names →
    labels = s.subroutines.map (fun p => N.label (.body (p.1 :: path))) → labels.Nodup →
    Unplaced labels d → N.Expects d (s.bodyTasks path names) →
    bodies s visible labels d = .ok () d' → N.Assembles (s.bodyTasks path names) d d'

theorem scope_assembles (hN : N.Nodup) {s : Scope} (hbodies : FollowsBodies N s) {path : List Key}
    {outer : Names} {d d' : Draft} {entry : StateId} (hwf : d.WellFormed) (hv : d.Hosts visible)
    (hk : N.Knows d visible outer) (hexpects : N.Expects d (s.tasks path outer))
    (h : scope s visible d = .ok entry d') :
    N.Assembles (s.tasks path outer) d d' ∧
      d'.place? (N.label (.spot (.start path))) = some entry := by
  obtain ⟨entries, d₁, -, hnames, hentries, hrun, hseq⟩ := scopeWith_eq_ok h
  have hgrow₀ := grows_addEntries d s.subroutines.length
  have hlabels := newLabels_eq hN hexpects.left
  have hdeclare := declare_assembles hN hexpects.left
  have hv₀ := hosts_append hentries (hgrow₀.hosts hv)
  have hk₀ := knows_append hnames hentries hlabels (hk.grows hgrow₀)
  have hnodup := nodup_newLabels d s.subroutines.length
  have hu := unplaced_addEntries d s.subroutines.length
  have hrest := hexpects.right hdeclare
  have hbody := hbodies _ path _ _ _ _ (hwf.addEntries _) hv₀ hk₀ hlabels hnodup hu hrest.left hrun
  have hgrow := growsBodies s (entries ++ visible) _ _ hnodup hu
  rw [final_of_ok hrun] at hgrow
  obtain ⟨hwf₁, -, -⟩ := completesBodies s _ _ _ _ (hwf.addEntries _) hv₀ hnodup hu
    (by simp [newLabels]) hrun
  obtain ⟨hrow, hplace⟩ := sequence_assembles (r := s.row path (s.names path outer))
    (frames_instruction _) (instruction_completed _) (instruction_followsOrder hN _ rfl) hN hwf₁
    (hgrow.hosts hv₀) (hk₀.grows hgrow) (hrest.right hbody) hseq
  exact ⟨hdeclare.append (hbody.append hrow), hplace⟩

theorem followsBodies (hN : N.Nodup) (s : Scope) : FollowsBodies N s := by
  induction s with
  | nil =>
      intro visible path names labels d d' _ _ _ _ _ _ _ h
      cases h
      exact .done
  | instr key i rest ih => exact ih
  | sub name body rest ihbody ihrest =>
      intro visible path names labels d d' hwf hv hk hlabels hnodup hu hexpects h
      rw [Scope.subroutines, List.map_cons] at hlabels
      subst hlabels
      obtain ⟨entry, d₁, hbody, -, hu', hrest⟩ := bodies_sub_eq_ok hnodup hu h
      have hgrow := (frames_scope body visible).of_ok hbody
      have hfree := (hgrow.unplaced hu (by simp)).head
      have hdone := scope_completed (completesBodies body) hwf hv hbody
      obtain ⟨hscope, hplace⟩ := scope_assembles hN ihbody hwf hv hk hexpects.left hbody
      have hdoes : N.Does (.bind (name :: path)) d₁ (d₁.put _ entry) := .bind hplace hfree
      have hgrow' := (hgrow.trans (grows_put d₁ (N.label (.body (name :: path))) entry)).trans
        (grows_log _ (.subroutineBound name entry))
      have hexpects' := (hexpects.right hscope).tail hdoes
      refine hscope.append (.task hdoes (.log (e := .subroutineBound name entry) ?_))
      exact ihrest visible path names _ _ d' ((hdone.wellFormed.put _ hdone.has).log _)
        (hgrow'.hosts hv) (hk.grows hgrow') rfl (List.nodup_cons.mp hnodup).2 hu'
        hexpects' hrest

/-- A program that compiles was assembled by its plan, and its entry is its first instruction. -/
theorem program_assembles {s : Scope} {d : Draft} {entry : StateId} (hs : s.WellKeyed)
    (h : scope s [] {} = .ok entry d) :
    s.numbering.Assembles s.plan {} d ∧
      d.place? (s.numbering.label (.spot (.start []))) = some entry := by
  have hN := hs.nodup_numbering
  refine scope_assembles hN (followsBodies hN s) wellFormed_empty (hosts_nil _) ?_ ?_ h
  · intro name entry hentry
    cases hentry
  · exact ⟨[], [], by simp [Scope.numbering, Scope.plan], rfl⟩

end Build

end TapeMachine
