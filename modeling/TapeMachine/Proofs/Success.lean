import TapeMachine.Proofs.Growth
import TapeMachine.Proofs.Outline

/-!
# What a successful step has done

For each step of a compilation, the steps that it consists of, given that it
succeeds. Properties of compiled programs are proved from these and do not open
the definitions again.
-/

namespace TapeMachine

/-- The draft after one more event. -/
def Draft.log (d : Draft) (e : CompileEvent) : Draft :=
  { d with events := d.events.push e }

theorem Draft.grows_log (d : Draft) (e : CompileEvent) : Grows [] d (d.log e) :=
  ⟨List.prefix_rfl, Nat.le_refl _, fun _ _ _ => rfl, fun _ _ h => h, rfl⟩

/-! ## Sites -/

namespace Site

theorem branch_eq_ok {s : Site} {target : Index} {t : Target}
    (h : s.branch target = .ok t) :
    ∃ line, s.lines.find? (·.index = target) = some line ∧ t = .label line.label := by
  unfold branch at h
  split at h
  · cases h
  · rename_i line hline
    cases h
    exact ⟨line, hline, rfl⟩

/-- An instruction that may go on gives no continuation in a group. It goes on at halt or at
another line of its sequence. -/
theorem continuation_eq_ok {s : Site} {t : Target} (h : s.continuation = .ok t) :
    (s.inGroup = true → s.line.instruction.next = none) ∧
    (((s.line.instruction.next <|> s.following) = none ∧ t = .state .halt) ∨
      ∃ target line, (s.line.instruction.next <|> s.following) = some target ∧
        target ≠ s.index ∧ s.lines.find? (·.index = target) = some line ∧
        t = .label line.label) := by
  unfold continuation at h
  split at h
  · cases h
  · rename_i hg
    refine ⟨by simpa using hg, ?_⟩
    split at h
    · rename_i hnone
      cases h
      exact Or.inl ⟨hnone, rfl⟩
    · rename_i target hsome
      split at h
      · cases h
      · rename_i hne
        obtain ⟨line, hline, rfl⟩ := branch_eq_ok h
        exact Or.inr ⟨target, line, hsome, hne, hline, rfl⟩

/-- All that is asked of the branches of a check. -/
theorem branches_eq_ok_iff {s : Site} {ifMarked otherwise : Index} {marked blank : Target} :
    s.branches ifMarked otherwise = .ok (marked, blank) ↔
      s.requireFinal = .ok () ∧ s.branch ifMarked = .ok marked ∧ s.branch otherwise = .ok blank ∧
        ifMarked ≠ otherwise ∧ s.index ≠ ifMarked ∧ s.index ≠ otherwise := by
  unfold branches
  cases s.requireFinal with
  | error e => simp [bind, Except.bind]
  | ok u =>
      cases s.branch ifMarked with
      | error e => simp [bind, Except.bind]
      | ok marked' =>
          cases s.branch otherwise with
          | error e => simp [bind, Except.bind]
          | ok blank' =>
              show (if ifMarked = otherwise then _ else _) = _ ↔ _
              split_ifs with hequal hloop
              · simp [hequal]
              · rcases hloop with hloop | hloop <;> simp [hloop]
              · rw [not_or] at hloop
                simp [hequal, hloop]

/-- The two branches of a check are lines of its sequence. -/
theorem branches_eq_ok {s : Site} {ifMarked otherwise : Index} {marked blank : Target}
    (h : s.branches ifMarked otherwise = .ok (marked, blank)) :
    ∃ m o : Line, s.lines.find? (·.index = ifMarked) = some m ∧ marked = .label m.label ∧
      s.lines.find? (·.index = otherwise) = some o ∧ blank = .label o.label := by
  obtain ⟨-, hm, ho, -⟩ := branches_eq_ok_iff.mp h
  obtain ⟨m, hmarked, rfl⟩ := branch_eq_ok hm
  obtain ⟨o, hblank, rfl⟩ := branch_eq_ok ho
  exact ⟨m, o, hmarked, rfl, hblank, rfl⟩

end Site

theorem Visible.callee_eq_ok {visible : Visible} {name : Key} {entry : StateId}
    (h : visible.callee name = .ok entry) :
    name.isName = true ∧ visible.lookup name = some entry := by
  unfold callee at h
  split at h
  · cases h
  · rename_i hname
    split at h
    · cases h
    · rename_i hentry
      cases h
      exact ⟨by simpa using hname, hentry⟩

namespace Build

open Draft

theorem emit_apply (e : CompileEvent) (d : Draft) : emit e d = .ok () (d.log e) := rfl

theorem share_eq_ok {r : Recipe} {s : State Target} {d d' : Draft} {id : StateId}
    (h : share r s d = .ok id d') :
    (d.recipes[r]? = some id ∧ d' = d.log (.reused r id)) ∨
    (d.recipes[r]? = none ∧ id = .slot d.states.size ∧
      d' = { d with
        states := d.states.push s
        recipes := d.recipes.insert r (.slot d.states.size) }) := by
  cases hr : d.recipes[r]? with
  | some id' =>
      rw [share_of_some hr] at h
      cases h
      exact Or.inl ⟨rfl, rfl⟩
  | none =>
      rw [share_of_none hr] at h
      cases h
      exact Or.inr ⟨rfl, rfl, rfl⟩

theorem enter_eq_ok {entry : StateId} {next : Target} {d d' : Draft} {id : StateId}
    (h : enter entry next d = .ok id d') :
    ∃ back d₁, act .noop next d = .ok back d₁ ∧
      ((d₁.state? entry = none ∧ id = back ∧ d' = d₁) ∨
        ∃ s, d₁.state? entry = some s ∧
          share (.enter entry next) (standIn entry s back) d₁ = .ok id d') := by
  obtain ⟨back, d₁, hback, h⟩ := bind_eq_ok h
  refine ⟨back, d₁, hback, ?_⟩
  rw [bind_of_ok (get_apply d₁)] at h
  cases hs : d₁.state? entry with
  | none =>
      simp only [hs] at h
      cases h
      exact Or.inl ⟨rfl, rfl, rfl⟩
  | some s =>
      simp only [hs] at h
      exact Or.inr ⟨s, rfl, h⟩

/-- A recipe that has been followed stands for the state that came out. -/
theorem share_recipe {r : Recipe} {s : State Target} {d d' : Draft} {id : StateId}
    (h : share r s d = .ok id d') : d'.recipes[r]? = some id := by
  rcases share_eq_ok h with ⟨hsome, rfl⟩ | ⟨-, rfl, rfl⟩
  · exact hsome
  · exact Std.TreeMap.getElem?_insert_self

theorem enter_recipe {entry : StateId} {next : Target} {d d' : Draft} {id : StateId}
    (hentry : (d.state? entry).isSome) (h : enter entry next d = .ok id d') :
    d'.recipes[Recipe.enter entry next]? = some id := by
  obtain ⟨s, hs⟩ := Option.isSome_iff_exists.mp hentry
  obtain ⟨back, d₁, hback, hrest⟩ := enter_eq_ok h
  rcases hrest with ⟨hnone, -, -⟩ | ⟨s', -, hshare⟩
  · rw [((frames_act .noop next).of_ok hback).state? hs] at hnone
    cases hnone
  · exact share_recipe hshare

/-! ## Instructions -/

/-- How the state of an instruction was made; `group` makes that of a group. -/
inductive Made (group : Site → List Instruction → Build StateId) (visible : Visible) (s : Site)
    (d : Draft) (id : StateId) (d' : Draft) : Prop
  | act {action : Action} {next : Target}
      (command : s.line.instruction.command = .act action)
      (continuation : s.continuation = .ok next)
      (run : Build.act action next d = .ok id d')
  | stop
      (command : s.line.instruction.command = .stop)
      (final : s.requireFinal = .ok ())
      (id_eq : id = .halt)
      (draft_eq : d' = d)
  | check {ifMarked otherwise : Index} {marked blank : Target}
      (command : s.line.instruction.command = .check ifMarked otherwise)
      (branches : s.branches ifMarked otherwise = .ok (marked, blank))
      (run : Build.check marked blank d = .ok id d')
  | call {name : Key} {entry : StateId} {next : Target}
      (command : s.line.instruction.command = .call name)
      (callee : visible.callee name = .ok entry)
      (continuation : s.continuation = .ok next)
      (run : enter entry next d = .ok id d')
  | group {members : List Instruction}
      (command : s.line.instruction.command = .group members)
      (run : group s members d = .ok id d')

theorem instructionWith_eq_ok {group : Site → List Instruction → Build StateId}
    {visible : Visible} {s : Site} {d d' : Draft} {id : StateId}
    (h : instructionWith group visible s d = .ok id d') :
    Made group visible s (d.log (.producing s.index s.kind)) id d' := by
  rw [instructionWith, bind_of_ok (emit_apply _ d)] at h
  cases hc : s.line.instruction.command with
  | act action =>
      simp only [hc] at h
      obtain ⟨next, d₁, hn, hrun⟩ := bind_eq_ok h
      obtain ⟨hnext, rfl⟩ := ofExcept_eq_ok hn
      exact .act hc hnext hrun
  | stop =>
      simp only [hc] at h
      obtain ⟨u, d₁, hf, hrun⟩ := bind_eq_ok h
      obtain ⟨hfinal, rfl⟩ := ofExcept_eq_ok hf
      cases hrun
      exact .stop hc hfinal rfl rfl
  | check ifMarked otherwise =>
      simp only [hc] at h
      obtain ⟨⟨marked, blank⟩, d₁, hb, hrun⟩ := bind_eq_ok h
      obtain ⟨hbranches, rfl⟩ := ofExcept_eq_ok hb
      exact .check hc hbranches hrun
  | call name =>
      simp only [hc] at h
      obtain ⟨entry, d₁, he, hrest⟩ := bind_eq_ok h
      obtain ⟨hcallee, rfl⟩ := ofExcept_eq_ok he
      obtain ⟨next, d₂, hn, hrun⟩ := bind_eq_ok hrest
      obtain ⟨hnext, rfl⟩ := ofExcept_eq_ok hn
      exact .call hc hcallee hnext hrun
  | group members =>
      simp only [hc] at h
      exact .group hc h

theorem group_eq_ok {visible : Visible} {s : Site} {members : List Instruction} {d d' : Draft}
    {id : StateId} (h : group visible s members d = .ok id d') :
    ∃ entry d₁ next,
      sequence (member visible) true (numberMembers members) d = .ok entry d₁ ∧
      s.continuation = .ok next ∧
      enter entry next (d₁.log (.groupInlined s.index members.length)) = .ok id d' := by
  unfold group at h
  split at h
  · cases h
  · split at h
    · cases h
    · obtain ⟨entry, d₁, hseq, hrest⟩ := bind_eq_ok h
      rw [bind_of_ok (emit_apply _ d₁)] at hrest
      obtain ⟨next, d₂, hn, hrun⟩ := bind_eq_ok hrest
      obtain ⟨hnext, rfl⟩ := ofExcept_eq_ok hn
      exact ⟨entry, d₁, next, hseq, hnext, hrun⟩

/-! ## Sequences -/

section Lines

variable {make : Site → Build StateId} {inGroup : Bool} {lines : List Line}

theorem line_eq_ok (hmake : ∀ s, Frames (make s)) {l : Line} {rest : List Line} {d d' : Draft}
    (hu : Unplaced [l.label] d) (h : line make inGroup lines l rest d = .ok () d') :
    ∃ id d₁,
      make { line := l, following := rest.head?.map (·.index), lines, inGroup } d = .ok id d₁ ∧
      l.label.number < d₁.places.size ∧ d' = d₁.put l.label id := by
  obtain ⟨id, d₁, hid, h⟩ := bind_eq_ok h
  have hl := ((hmake _).of_ok hid).unplaced hu (by simp) l.label (by simp)
  rw [place_apply hl.2 id] at h
  cases h
  exact ⟨id, d₁, hid, hl.1, rfl⟩

/-- The first line of a row is made, its label is placed, and then the other lines are made. -/
theorem eachLine_cons_eq_ok (hmake : ∀ s, Frames (make s)) {l : Line} {rest : List Line}
    {d d' : Draft} (hnodup : ((l :: rest).map (·.label)).Nodup)
    (hu : Unplaced ((l :: rest).map (·.label)) d)
    (h : eachLine make inGroup lines (l :: rest) d = .ok () d') :
    ∃ id d₁,
      make { line := l, following := rest.head?.map (·.index), lines, inGroup } d = .ok id d₁ ∧
      l.label.number < d₁.places.size ∧
      Unplaced (rest.map (·.label)) (d₁.put l.label id) ∧
      eachLine make inGroup lines rest (d₁.put l.label id) = .ok () d' := by
  obtain ⟨u, d₂, hline, h⟩ := bind_eq_ok h
  rw [List.map_cons, List.nodup_cons] at hnodup
  obtain ⟨id, d₁, hid, hlt, rfl⟩ :=
    line_eq_ok hmake hu.head hline
  refine ⟨id, d₁, hid, hlt, ?_, h⟩
  have hrest := ((hmake _).of_ok hid).unplaced hu.tail (by simp)
  exact (grows_put d₁ l.label id).unplaced_tail hnodup.1 hrest

theorem eachLine_places (hmake : ∀ s, Frames (make s)) {rest : List Line} {d d' : Draft}
    (hnodup : (rest.map (·.label)).Nodup) (hu : Unplaced (rest.map (·.label)) d)
    (h : eachLine make inGroup lines rest d = .ok () d') :
    ∀ l ∈ rest, ∃ id, d'.place? l.label = some id := by
  induction rest generalizing d with
  | nil => simp
  | cons first rest ih =>
      obtain ⟨id, d₁, -, hlt, hu', h⟩ := eachLine_cons_eq_ok hmake hnodup hu h
      rw [List.map_cons, List.nodup_cons] at hnodup
      have hgrow := grows_eachLine inGroup lines hmake hnodup.2 hu'
      rw [final_of_ok h] at hgrow
      intro l hl
      rcases List.mem_cons.mp hl with rfl | hl
      · exact ⟨id, hgrow.keeps hu' (place?_put_self hlt id)⟩
      · exact ih hnodup.2 hu' h l hl

/-- A sequence labels its instructions, makes the lines and gives the state of the first. -/
theorem sequence_eq_ok {numbered : List (Index × Instruction)} {d d' : Draft} {entry : StateId}
    (h : sequence make inGroup numbered d = .ok entry d') :
    ∃ first rest d₁,
      (first :: rest : List Line).map (·.label) = d.newLabels numbered.length ∧
      (first :: rest : List Line).map (fun l => (l.index, l.instruction)) = numbered ∧
      eachLine make inGroup (first :: rest) (first :: rest) (d.handOut numbered.length) =
        .ok () d₁ ∧
      d₁.place? first.label = some entry ∧
      d' = d₁.log (.scopeBuilt first.index (first :: rest).length inGroup entry) := by
  obtain ⟨lines, hrun, hlabels, hnumbered⟩ := labelled_apply numbered d
  rw [sequence, bind_of_ok hrun] at h
  cases lines with
  | nil => cases h
  | cons first rest =>
      obtain ⟨u, d₁, heach, hrest⟩ := bind_eq_ok h
      obtain ⟨entry', d₂, hplace, hend⟩ := bind_eq_ok hrest
      rw [placeOf, bind_of_ok (get_apply d₁)] at hplace
      obtain ⟨hresolve, rfl⟩ := ofExcept_eq_ok hplace
      cases hend
      refine ⟨first, rest, _, hlabels, hnumbered, heach, ?_, rfl⟩
      rw [resolve] at hresolve
      cases hp : d₂.place? first.label with
      | none => simp [hp] at hresolve
      | some id =>
          rw [hp] at hresolve
          cases hresolve
          rfl

end Lines

/-! ## Scopes -/

theorem scopeWith_eq_ok {compiled : Visible → List Label → Build Unit} {s : Scope}
    {visible : Visible} {d d' : Draft} {entry : StateId}
    (h : scopeWith compiled s visible d = .ok entry d') :
    ∃ entries d₁,
      s.checkKeys [] = .ok () ∧
      entries.map Prod.fst = s.subroutines.map Prod.fst ∧
      List.Forall₂ (fun p l => (d.addEntries s.subroutines.length).state? p.2 =
        some (entryState l)) entries (d.newLabels s.subroutines.length) ∧
      compiled (entries ++ visible) (d.newLabels s.subroutines.length)
        (d.addEntries s.subroutines.length) = .ok () d₁ ∧
      sequence (instruction (entries ++ visible)) false s.numbered d₁ = .ok entry d' := by
  obtain ⟨o, d₀, ho, hrest⟩ := bind_eq_ok h
  obtain ⟨houtline, rfl⟩ := ofExcept_eq_ok ho
  obtain ⟨hkeys, -, hsubs, hins⟩ := Scope.outline_eq_ok houtline
  rw [hsubs, hins] at hrest
  obtain ⟨entries, hrun, hnames, hstates⟩ := declare_apply visible s.subroutines d₀
  rw [bind_of_ok hrun] at hrest
  obtain ⟨u, d₁, hbodies, hseq⟩ := bind_eq_ok hrest
  exact ⟨entries, d₁, hkeys, hnames, hstates, hbodies, hseq⟩

theorem bodies_sub_eq_ok {name : Key} {body rest : Scope} {visible : Visible} {label : Label}
    {labels : List Label} {d d' : Draft} (hnodup : (label :: labels).Nodup)
    (hu : Unplaced (label :: labels) d)
    (h : bodies (.sub name body rest) visible (label :: labels) d = .ok () d') :
    ∃ entry d₁,
      scope body visible d = .ok entry d₁ ∧
      label.number < d₁.places.size ∧
      Unplaced labels ((d₁.put label entry).log (.subroutineBound name entry)) ∧
      bodies rest visible labels ((d₁.put label entry).log (.subroutineBound name entry)) =
        .ok () d' := by
  obtain ⟨entry, d₁, hbody, h⟩ := bind_eq_ok h
  have hu' := ((frames_scope body visible).of_ok hbody).unplaced hu (by simp)
  rw [bind_of_ok (place_apply (hu' label (by simp)).2 entry), bind_of_ok (emit_apply _ _)] at h
  refine ⟨entry, d₁, hbody, (hu' label (by simp)).1, ?_, h⟩
  rw [List.nodup_cons] at hnodup
  exact (grows_put d₁ label entry).unplaced_tail hnodup.1 hu'.tail

end Build

end TapeMachine
