import TapeMachine.Proofs.Success

/-!
# Every label is placed

A draft is well formed if its states lead to ids of states, to halt or to labels
that have been handed out, its labels are placed on such ids, and every recipe
stands for the state that it describes. Each step of a compilation keeps a draft
well formed and places the labels that it hands out, so when a whole program has
been compiled there is no label left without a place.
-/

namespace TapeMachine

/-- All that a state leads to: the targets of its table, and its return. -/
def State.targets {τ : Type} (s : State τ) : List τ :=
  s.table.targets ++ s.returnTo.toList

namespace Draft

/-- The id is halt or names a state of the draft. -/
def Has (d : Draft) (id : StateId) : Prop :=
  id.number ≤ d.states.size

/-- A target that can be followed once all labels are placed. -/
def Aims (d : Draft) : Target → Prop
  | .state id => d.Has id
  | .label l => l.number < d.places.size

/-- The state `id` is the one that the recipe asks for. -/
def Describes (d : Draft) (id : StateId) : Recipe → Prop
  | .act action next => d.state? id = some { table := .always (action.transition next) }
  | .check marked blank =>
      d.state? id = some { table := .onSymbol (.goto marked) (.goto blank) }
  | .enter entry next =>
      ∃ s back, d.state? entry = some s ∧ d.recipes[Recipe.act .noop next]? = some back ∧
        d.state? id = some (Build.standIn entry s back)

structure WellFormed (d : Draft) : Prop where
  targets : ∀ id s, d.state? id = some s → ∀ t ∈ s.targets, d.Aims t
  places : ∀ l id, d.place? l = some id → d.Has id
  recipes : ∀ (r : Recipe) (id : StateId), d.recipes[r]? = some id → d.Describes id r

/-- Every label that was handed out between `d` and `d'` has a place in `d'`. -/
def Settles (d d' : Draft) : Prop :=
  ∀ l : Label, d.places.size ≤ l.number → l.number < d'.places.size → (d'.place? l).isSome

/-- The draft has the entry states of the visible subroutines. -/
def Hosts (d : Draft) (visible : Visible) : Prop :=
  ∀ p ∈ visible, ∃ l, d.state? p.2 = some (entryState l)

theorem wellFormed_empty : WellFormed {} where
  targets := by
    intro id s h
    cases id <;> simp [state?] at h
  places := by
    intro l id h
    simp [place?] at h
  recipes := by
    intro r id h
    simp at h

theorem has_of_state? {d : Draft} {id : StateId} {s : State Target}
    (h : d.state? id = some s) : d.Has id := by
  cases id with
  | halt => exact Nat.zero_le _
  | slot k => exact (Array.getElem?_eq_some_iff.mp h).1

theorem has_halt (d : Draft) : d.Has .halt := Nat.zero_le _

theorem hosts_nil (d : Draft) : d.Hosts [] := by simp [Hosts]

theorem settles_of_places_eq {d d' : Draft} (h : d'.places = d.places) : Settles d d' := by
  intro l hge hlt
  rw [h] at hlt
  exact absurd hlt (Nat.not_lt_of_le hge)

theorem Settles.trans {pending : List Label} {d d' d'' : Draft} (h : Settles d d')
    (hgrow : Grows pending d' d'') (hu : Unplaced pending d') (h' : Settles d' d'') :
    Settles d d'' := by
  intro l hge hlt
  by_cases hl : l.number < d'.places.size
  · obtain ⟨id, hid⟩ := Option.isSome_iff_exists.mp (h l hge hl)
    rw [hgrow.keeps hu hid]
    rfl
  · exact h' l (Nat.le_of_not_lt hl) hlt

theorem Settles.put {d d' : Draft} (h : Settles d d') (l : Label) (id : StateId) :
    Settles d (d'.put l id) := by
  intro l' hge hlt
  have hlt' : l'.number < d'.places.size := by simpa [Draft.put] using hlt
  by_cases hne : l' = l
  · subst hne
    rw [place?_put_self hlt']
    rfl
  · rw [place?_put_of_ne hne]
    exact h l' hge hlt'

namespace Grows

variable {pending : List Label} {d d' : Draft}

theorem has (h : Grows pending d d') {id : StateId} (hid : d.Has id) : d'.Has id :=
  Nat.le_trans hid h.states_size_le

theorem aims (h : Grows pending d d') {t : Target} (ht : d.Aims t) : d'.Aims t := by
  cases t with
  | state id => exact h.has ht
  | label l => exact Nat.lt_of_lt_of_le ht h.size_le

theorem describes (h : Grows pending d d') {id : StateId} {r : Recipe}
    (hd : d.Describes id r) : d'.Describes id r := by
  cases r with
  | act action next => exact h.state? hd
  | check marked blank => exact h.state? hd
  | enter entry next =>
      obtain ⟨s, back, hs, hback, hid⟩ := hd
      exact ⟨s, back, h.state? hs, h.recipes _ _ hback, h.state? hid⟩

theorem hosts (h : Grows pending d d') {visible : Visible} (hv : d.Hosts visible) :
    d'.Hosts visible := by
  intro p hp
  obtain ⟨l, hl⟩ := hv p hp
  exact ⟨l, h.state? hl⟩

end Grows

namespace WellFormed

variable {d : Draft}

theorem log (h : d.WellFormed) (e : CompileEvent) : (d.log e).WellFormed :=
  ⟨h.targets, h.places, h.recipes⟩

theorem handOut (h : d.WellFormed) (n : Nat) : (d.handOut n).WellFormed where
  targets := fun id s hs t ht => (grows_handOut d n).aims (h.targets id s hs t ht)
  places := by
    intro l id hl
    rw [place?_handOut] at hl
    exact h.places l id hl
  recipes := fun r id hr => (grows_handOut d n).describes (h.recipes r id hr)

theorem put (h : d.WellFormed) (l : Label) {id : StateId} (hid : d.Has id) :
    (d.put l id).WellFormed where
  targets := fun id' s hs t ht => (grows_put d l id).aims (h.targets id' s hs t ht)
  places := by
    intro l' id' hl'
    by_cases hne : l' = l
    · subst hne
      have hlt : l'.number < d.places.size := by simpa [Draft.put] using lt_size_of_place? hl'
      rw [place?_put_self hlt] at hl'
      cases hl'
      exact hid
    · rw [place?_put_of_ne hne] at hl'
      exact h.places l' id' hl'
  recipes := fun r id' hr => (grows_put d l id).describes (h.recipes r id' hr)

/-- A state may be added if what it leads to is there. -/
theorem pushState (h : d.WellFormed) {s : State Target} (hs : ∀ t ∈ s.targets, d.Aims t) :
    ({ d with states := d.states.push s } : Draft).WellFormed := by
  have hgrow := grows_pushState d s
  refine ⟨?_, fun l id hl => hgrow.has (h.places l id hl),
    fun r id hr => hgrow.describes (h.recipes r id hr)⟩
  intro id s' hs' t ht
  cases id with
  | halt => simp [state?] at hs'
  | slot k =>
      simp only [state?, Array.getElem?_push] at hs'
      by_cases hk : k = d.states.size
      · rw [if_pos hk] at hs'
        cases hs'
        exact hgrow.aims (hs t ht)
      · rw [if_neg hk] at hs'
        exact hgrow.aims (h.targets (.slot k) s' hs' t ht)

/-- A recipe may be recorded if it stands for its state. -/
theorem record (h : d.WellFormed) {r : Recipe} {id : StateId} (hr : d.recipes[r]? = none)
    (hd : d.Describes id r) :
    ({ d with recipes := d.recipes.insert r id } : Draft).WellFormed := by
  have hgrow := grows_record hr id
  refine ⟨h.targets, h.places, ?_⟩
  intro r' id' hr'
  change (d.recipes.insert r id)[r']? = some id' at hr'
  rw [Std.TreeMap.getElem?_insert] at hr'
  split at hr'
  · rename_i heq
    cases hr'
    rw [← Std.LawfulEqOrd.eq_of_compare heq]
    exact hgrow.describes hd
  · exact hgrow.describes (h.recipes r' id' hr')

theorem addEntries (h : d.WellFormed) (n : Nat) : (d.addEntries n).WellFormed := by
  induction n generalizing d with
  | zero => exact h
  | succ n ih =>
      refine ih ((h.handOut 1).pushState ?_)
      intro t ht
      simp [State.targets, entryState, Table.targets, Transition.goto] at ht
      subst ht
      simp [Aims, Draft.handOut]

end WellFormed

/-- What the state of a recipe has: it is there. -/
theorem Describes.has {d : Draft} {id : StateId} {r : Recipe} (h : d.Describes id r) :
    d.Has id := by
  cases r with
  | act action next => exact has_of_state? h
  | check marked blank => exact has_of_state? h
  | enter entry next =>
      obtain ⟨s, back, -, -, hid⟩ := h
      exact has_of_state? hid

/-- A step from `d` to `d'` that gives `id` and leaves nothing open. -/
structure Completed (d : Draft) (id : StateId) (d' : Draft) : Prop where
  wellFormed : d'.WellFormed
  settles : Settles d d'
  has : d'.Has id

theorem Completed.of_log {d d' : Draft} {e : CompileEvent} {id : StateId}
    (h : (d.log e).Completed id d') : d.Completed id d' :=
  ⟨h.wellFormed, h.settles, h.has⟩

theorem Completed.trans {d d₁ d₂ : Draft} {id id' : StateId} (h : d.Completed id d₁)
    (hgrow : Grows [] d₁ d₂) (h' : d₁.Completed id' d₂) : d.Completed id' d₂ :=
  ⟨h'.wellFormed, h.settles.trans hgrow unplaced_nil h'.settles, h'.has⟩

end Draft

/-- The lines that can be seen from the site have their labels. -/
def Site.Within (s : Site) (d : Draft) : Prop :=
  ∀ l ∈ s.lines, l.label.number < d.places.size

theorem Site.aims_continuation {s : Site} {d : Draft} {t : Target} (hw : s.Within d)
    (h : s.continuation = .ok t) : d.Aims t := by
  rcases (continuation_eq_ok h).2 with ⟨-, rfl⟩ | ⟨target, line, -, -, hline, rfl⟩
  · exact d.has_halt
  · exact hw line (List.mem_of_find?_eq_some hline)

theorem Site.aims_branches {s : Site} {d : Draft} {ifMarked otherwise : Index}
    {marked blank : Target} (hw : s.Within d)
    (h : s.branches ifMarked otherwise = .ok (marked, blank)) :
    d.Aims marked ∧ d.Aims blank := by
  obtain ⟨m, o, hm, rfl, ho, rfl⟩ := branches_eq_ok h
  exact ⟨hw m (List.mem_of_find?_eq_some hm), hw o (List.mem_of_find?_eq_some ho)⟩

namespace Build

open Draft

/-! ## One state -/

/-- A recipe may be followed if `s` is the state that it asks for. -/
theorem share_completed {r : Recipe} {s : State Target} {d d' : Draft} {id : StateId}
    (hwf : d.WellFormed) (hs : ∀ t ∈ s.targets, d.Aims t)
    (hr : ∀ d', Grows [] d d' → d'.state? (.slot d.states.size) = some s →
      d'.Describes (.slot d.states.size) r)
    (h : share r s d = .ok id d') : Completed d id d' := by
  rcases share_eq_ok h with ⟨hsome, rfl⟩ | ⟨hnone, rfl, rfl⟩
  · exact ⟨hwf.log _, settles_of_places_eq rfl, (hwf.recipes r id hsome).has⟩
  · have hpushed := hwf.pushState hs
    have hdesc := hr _ (grows_pushState d s) (by simp [state?])
    exact ⟨hpushed.record hnone hdesc, settles_of_places_eq rfl, hdesc.has⟩

theorem act_completed {action : Action} {next : Target} {d d' : Draft} {id : StateId}
    (hwf : d.WellFormed) (hnext : d.Aims next) (h : act action next d = .ok id d') :
    Completed d id d' := by
  refine share_completed (r := .act action next) hwf ?_ (fun _ _ hs => hs) h
  intro t ht
  cases action <;>
    simp [State.targets, Table.targets, Action.transition, Transition.goto] at ht <;>
    exact ht ▸ hnext

theorem check_completed {marked blank : Target} {d d' : Draft} {id : StateId}
    (hwf : d.WellFormed) (hm : d.Aims marked) (hb : d.Aims blank)
    (h : check marked blank d = .ok id d') : Completed d id d' := by
  refine share_completed (r := .check marked blank) hwf ?_ (fun _ _ hs => hs) h
  intro t ht
  simp [State.targets, Table.targets, Transition.goto] at ht
  rcases ht with rfl | rfl
  · exact hm
  · exact hb

/-- What a stand-in leads to is there if its parts are. -/
theorem aims_standIn {entry back : StateId} {s : State Target} {d : Draft} (hwf : d.WellFormed)
    (hentry : d.state? entry = some s) (hback : d.Has back) :
    ∀ t ∈ (standIn entry s back).targets, d.Aims t := by
  intro t ht
  rw [State.targets, standIn, List.mem_append] at ht
  rcases ht with ht | ht
  · split at ht
    · simp [Table.targets, Transition.goto] at ht
      subst ht
      exact has_of_state? hentry
    · exact hwf.targets entry s hentry t (List.mem_append_left _ ht)
  · simp at ht
    subst ht
    exact hback

theorem enter_completed {entry : StateId} {next : Target} {d d' : Draft} {id : StateId}
    (hwf : d.WellFormed) (hnext : d.Aims next) (h : enter entry next d = .ok id d') :
    Completed d id d' := by
  obtain ⟨back, d₁, hback, hrest⟩ := enter_eq_ok h
  have hdone := act_completed hwf hnext hback
  rcases hrest with ⟨-, rfl, rfl⟩ | ⟨s, hs, hshare⟩
  · exact hdone
  · have hdesc : ∀ d₂, Grows [] d₁ d₂ →
        d₂.state? (.slot d₁.states.size) = some (standIn entry s back) →
        d₂.Describes (.slot d₁.states.size) (.enter entry next) := fun d₂ hgrow hs₂ =>
      ⟨s, back, hgrow.state? hs, hgrow.recipes _ _ (share_recipe hback), hs₂⟩
    have haims := aims_standIn hdone.wellFormed hs hdone.has
    exact hdone.trans ((frames_share _ _).of_ok hshare)
      (share_completed hdone.wellFormed haims hdesc hshare)

/-! ## Sequences -/

/-- Making the state of a site leaves nothing open. -/
def Completes (visible : Visible) (make : Site → Build StateId) : Prop :=
  ∀ (s : Site) (d : Draft) (id : StateId) (d' : Draft), d.WellFormed → d.Hosts visible →
    s.Within d → make s d = .ok id d' → Completed d id d'

section Lines

variable {make : Site → Build StateId} {visible : Visible} {inGroup : Bool}

theorem eachLine_completed (hframes : ∀ s, Frames (make s)) (hmake : Completes visible make)
    {lines rest : List Line} {d d' : Draft} (hwf : d.WellFormed) (hv : d.Hosts visible)
    (hlines : ∀ l ∈ lines, l.label.number < d.places.size)
    (hnodup : (rest.map (·.label)).Nodup) (hu : Unplaced (rest.map (·.label)) d)
    (h : eachLine make inGroup lines rest d = .ok () d') :
    d'.WellFormed ∧ Settles d d' := by
  induction rest generalizing d with
  | nil =>
      cases h
      exact ⟨hwf, settles_of_places_eq rfl⟩
  | cons l rest ih =>
      obtain ⟨id, d₁, hid, -, hu', h⟩ := eachLine_cons_eq_ok hframes hnodup hu h
      rw [List.map_cons, List.nodup_cons] at hnodup
      have hgrow := (hframes _).of_ok hid
      have hdone := hmake { line := l, following := _, lines, inGroup } d id d₁ hwf hv hlines hid
      have hput := hdone.wellFormed.put l.label hdone.has
      have hgrow' := hgrow.trans (grows_put d₁ l.label id)
      obtain ⟨hwf', hsettles⟩ := ih hput (hgrow'.hosts hv)
        (fun l' hl' => Nat.lt_of_lt_of_le (hlines l' hl') hgrow'.size_le) hnodup.2 hu' h
      refine ⟨hwf', ?_⟩
      have hrest := grows_eachLine inGroup lines hframes hnodup.2 hu'
      rw [final_of_ok h] at hrest
      exact (hdone.settles.put l.label id).trans hrest hu' hsettles

theorem sequence_completed (hframes : ∀ s, Frames (make s)) (hmake : Completes visible make)
    {numbered : List (Index × Instruction)} {d d' : Draft} {entry : StateId}
    (hwf : d.WellFormed) (hv : d.Hosts visible)
    (h : sequence make inGroup numbered d = .ok entry d') : Completed d entry d' := by
  obtain ⟨first, rest, d₁, hlabels, -, heach, hplace, rfl⟩ := sequence_eq_ok h
  obtain ⟨hnodup, hu⟩ := fresh_labels hlabels
  have hlines : ∀ l ∈ first :: rest, l.label.number < (d.handOut numbered.length).places.size :=
    fun l hl => (hu l.label (List.mem_map_of_mem hl)).1
  obtain ⟨hwf', hsettles⟩ := eachLine_completed hframes hmake (hwf.handOut numbered.length)
    ((grows_handOut d numbered.length).hosts hv) hlines hnodup hu heach
  refine ⟨hwf'.log _, ?_, hwf'.places first.label entry hplace⟩
  -- a label handed out here belongs to one of the lines, or to the making of one
  intro l hge hlt
  by_cases hl : l ∈ d.newLabels numbered.length
  · rw [← hlabels, List.mem_map] at hl
    obtain ⟨line, hline, rfl⟩ := hl
    obtain ⟨id, hid⟩ := eachLine_places hframes hnodup hu heach line hline
    show (d₁.place? line.label).isSome
    rw [hid]
    rfl
  · refine hsettles l ?_ hlt
    rw [mem_newLabels, not_and] at hl
    simpa [handOut] using hl hge

end Lines

theorem instructionWith_completed {group : Site → List Instruction → Build StateId}
    {visible : Visible} (hgroup : ∀ members, Completes visible (group · members)) :
    Completes visible (instructionWith group visible) := by
  intro s d id d' hwf hv hw h
  have hwf₀ := hwf.log (.producing s.index s.kind)
  suffices hdone : (d.log (.producing s.index s.kind)).Completed id d' from hdone.of_log
  cases instructionWith_eq_ok h with
  | act _ hnext hrun => exact act_completed hwf₀ (s.aims_continuation hw hnext) hrun
  | stop _ _ hid hdraft =>
      subst hid hdraft
      exact ⟨hwf₀, settles_of_places_eq rfl, has_halt _⟩
  | check _ hbranches hrun =>
      obtain ⟨hm, hb⟩ := s.aims_branches hw hbranches
      exact check_completed hwf₀ hm hb hrun
  | call _ _ hnext hrun => exact enter_completed hwf₀ (s.aims_continuation hw hnext) hrun
  | group _ hrun => exact hgroup _ s (d.log _) id d' hwf₀ hv hw hrun

theorem member_completed (visible : Visible) : Completes visible (member visible) :=
  instructionWith_completed fun _ _ _ _ _ _ _ _ h => by cases h

theorem group_completed (visible : Visible) (members : List Instruction) :
    Completes visible (group visible · members) := by
  intro s d id d' hwf hv hw h
  obtain ⟨entry, d₁, next, hseq, hnext, henter⟩ := group_eq_ok h
  have hgrow := (frames_sequence (frames_member visible) true _).of_ok hseq
  have hdone := sequence_completed (frames_member visible) (member_completed visible) hwf hv hseq
  have hnext₁ : d₁.Aims next := hgrow.aims (s.aims_continuation hw hnext)
  refine hdone.trans ?_ (enter_completed (hdone.wellFormed.log _) hnext₁ henter).of_log
  exact (grows_log d₁ _).trans ((frames_enter entry next).of_ok henter)

theorem instruction_completed (visible : Visible) : Completes visible (instruction visible) :=
  instructionWith_completed (group_completed visible)

/-! ## Scopes -/

/-- Compiling the bodies of `s` places their labels and leaves nothing else open. -/
def CompletesBodies (s : Scope) : Prop :=
  ∀ (visible : Visible) (labels : List Label) (d d' : Draft), d.WellFormed → d.Hosts visible →
    labels.Nodup → Unplaced labels d → labels.length = s.subroutines.length →
    bodies s visible labels d = .ok () d' →
    d'.WellFormed ∧ Settles d d' ∧ ∀ l ∈ labels, (d'.place? l).isSome

theorem hosts_append {entries visible : Visible} {labels : List Label} {d : Draft}
    (hentries : List.Forall₂ (fun p l => d.state? p.2 = some (entryState l)) entries labels)
    (hv : d.Hosts visible) : d.Hosts (entries ++ visible) := by
  intro p hp
  rcases List.mem_append.mp hp with hp | hp
  · induction hentries with
    | nil => cases hp
    | cons hstate _ ih =>
        rcases List.mem_cons.mp hp with rfl | hp
        · exact ⟨_, hstate⟩
        · exact ih (by simp [hp]) hp
  · exact hv p hp

theorem scope_completed {s : Scope} (hbodies : CompletesBodies s) {visible : Visible}
    {d d' : Draft} {entry : StateId} (hwf : d.WellFormed) (hv : d.Hosts visible)
    (h : scope s visible d = .ok entry d') : Completed d entry d' := by
  obtain ⟨entries, d₁, -, -, hentries, hrun, hseq⟩ := scopeWith_eq_ok h
  have hv₀ := hosts_append hentries ((grows_addEntries d s.subroutines.length).hosts hv)
  have hnodup := nodup_newLabels d s.subroutines.length
  have hu := unplaced_addEntries d s.subroutines.length
  have hgrow := growsBodies s (entries ++ visible) _ _ hnodup hu
  rw [final_of_ok hrun] at hgrow
  obtain ⟨hwf₁, hsettles, hplaced⟩ := hbodies _ _ _ _ (hwf.addEntries _) hv₀ hnodup hu
    (by simp [newLabels]) hrun
  have hdone := sequence_completed (frames_instruction _) (instruction_completed _) hwf₁
    (hgrow.hosts hv₀) hseq
  refine ⟨hdone.wellFormed, ?_, hdone.has⟩
  refine Settles.trans ?_ ((frames_sequence (frames_instruction _) false _).of_ok hseq)
    unplaced_nil hdone.settles
  -- a label handed out for the bodies is that of a subroutine, or comes from inside a body
  intro l hge hlt
  by_cases hl : l ∈ d.newLabels s.subroutines.length
  · exact hplaced l hl
  · refine hsettles l ?_ hlt
    rw [mem_newLabels, not_and] at hl
    rw [places_addEntries]
    simpa [handOut] using hl hge

theorem completesBodies (s : Scope) : CompletesBodies s := by
  induction s with
  | nil =>
      intro visible labels d d' hwf _ _ _ hlen h
      cases h
      have hnil : labels = [] := List.length_eq_zero_iff.mp hlen
      exact ⟨hwf, settles_of_places_eq rfl, by simp [hnil]⟩
  | instr key i rest ih => exact ih
  | sub name body rest ihbody ihrest =>
      intro visible labels d d' hwf hv hnodup hu hlen h
      cases labels with
      | nil => simp [Scope.subroutines] at hlen
      | cons label labels =>
          obtain ⟨entry, d₁, hbody, hlt, hu', hrest⟩ := bodies_sub_eq_ok hnodup hu h
          have hdone := scope_completed ihbody hwf hv hbody
          have hgrow := ((frames_scope body visible).of_ok hbody).trans
            (grows_put d₁ label entry)
          have hrest' := growsBodies rest visible labels _ (List.nodup_cons.mp hnodup).2 hu'
          rw [final_of_ok hrest] at hrest'
          have hafter := (grows_log (d₁.put label entry) _).trans hrest'
          obtain ⟨hwf', hsettles, hplaced⟩ := ihrest visible labels _ d'
            ((hdone.wellFormed.put label hdone.has).log _) (hgrow.hosts hv)
            (List.nodup_cons.mp hnodup).2 hu' (by simpa [Scope.subroutines] using hlen) hrest
          refine ⟨hwf', (hdone.settles.put label entry).trans hafter hu' hsettles, ?_⟩
          intro l hl
          rcases List.mem_cons.mp hl with rfl | hl
          · rw [hrest'.keeps hu' (place?_put_self hlt entry)]
            rfl
          · exact hplaced l hl

/-- When a program has been compiled, all is well formed and every label has its place. -/
theorem program_completed {s : Scope} {d : Draft} {entry : StateId}
    (h : scope s [] {} = .ok entry d) : Completed {} entry d :=
  scope_completed (completesBodies s) wellFormed_empty (hosts_nil _) h

end Build

end TapeMachine
