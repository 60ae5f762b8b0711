import TapeMachine.Proofs.Walks

/-!
# Running off the end is stopping

A walk that has passed the last instruction of a scope does what it does at a stop. So
a program does the same with a stop added at the end of a scope. The automata are in
general different ones: a state that goes on at halt is not shared with one that goes
on at an instruction, even if that is a stop.
-/

namespace TapeMachine

/-- A stop is added at the end of the instructions under a new index, or they stay as they are. -/
def Ended : Edit := fun l l' =>
  l' = l ∨ ∃ index, index ∉ l.map Prod.fst ∧ l' = l ++ [(index, { command := .stop })]

theorem Ended.sound : Edit.Sound Ended := by
  constructor
  · rintro visible l l' (rfl | ⟨index, hindex, rfl⟩) hlawful
    · exact hlawful
    · rw [← List.disjoint_singleton] at hindex
      constructor
      · simp
      · rw [List.map_append]
        exact hlawful.nodup.append (List.nodup_singleton _) hindex
      · intro p hp
        rcases List.mem_append.mp hp with hp | hp
        · rw [List.map_append]
          exact Instruction.check_mono (List.subset_append_left _ _) (hlawful.check p hp)
        · rw [List.mem_singleton.mp hp]
          rfl
  · rintro visible l l' (rfl | ⟨index, -, rfl⟩) - hfits p hp
    · exact hfits p hp
    · rcases List.mem_append.mp hp with hp | hp
      · exact hfits p hp
      · rw [List.mem_singleton.mp hp]
        trivial

/-! ## Places -/

/-- The second list has more instructions at the end, all of them stops. -/
def Padded (l l' : List (Index × Instruction)) : Prop :=
  ∃ stops, l' = l ++ stops ∧ ∀ p ∈ stops, p.2.command = .stop

namespace Padded

variable {l l' : List (Index × Instruction)}

theorem refl (l : List (Index × Instruction)) : Padded l l :=
  ⟨[], by simp, by simp⟩

theorem of_ended (h : Ended l l') : Padded l l' := by
  rcases h with rfl | ⟨index, -, rfl⟩
  · exact refl _
  · exact ⟨_, rfl, by simp⟩

theorem dropWhile (h : Padded l l') (test : Index × Instruction → Bool) :
    Padded (l.dropWhile test) (l'.dropWhile test) := by
  obtain ⟨stops, rfl, hstops⟩ := h
  rw [List.dropWhile_append]
  split
  · -- the search runs off the list and goes on among the stops
    rename_i hempty
    rw [List.isEmpty_iff.mp hempty]
    refine ⟨_, rfl, fun p hp => hstops p ?_⟩
    exact (List.dropWhile_suffix _).subset hp
  · exact ⟨stops, rfl, hstops⟩

end Padded

/-- The place in the edited program that corresponds to the place `c`. -/
structure Cursor.Padded (c c' : Cursor) : Prop where
  scopes : List.Forall₂ (Scope.Counterpart Ended) c.scopes c'.scopes
  sequence : TapeMachine.Padded c.sequence c'.sequence
  rest : TapeMachine.Padded c.rest c'.rest

namespace Cursor.Padded

variable {c c' : Cursor}

theorem start {scopes scopes' : List Scope}
    (h : List.Forall₂ (Scope.Counterpart Ended) scopes scopes') :
    (Cursor.start scopes).Padded (.start scopes') := by
  have hsequence : TapeMachine.Padded (scopes.head?.elim [] Scope.numbered)
      (scopes'.head?.elim [] Scope.numbered) := by
    cases h with
    | nil => exact .refl _
    | cons hs _ =>
        obtain ⟨-, hnumbered, -⟩ := hs.edited
        exact .of_ended hnumbered
  exact ⟨h, hsequence, hsequence⟩

theorem jump (h : c.Padded c') (target : Index) : (c.jump target).Padded (c'.jump target) :=
  ⟨h.scopes, h.sequence, h.sequence.dropWhile _⟩

theorem continuation (h : c.Padded c') (hrest : c.rest ≠ []) :
    c.continuation.Padded c'.continuation := by
  obtain ⟨stops, hstops, hall⟩ := h.rest
  cases hplace : c.rest with
  | nil => exact absurd hplace hrest
  | cons p following =>
      rw [hplace] at hstops
      unfold Cursor.continuation
      simp only [hplace, hstops, List.cons_append]
      cases p.2.next with
      | none => exact ⟨h.scopes, h.sequence, stops, rfl, hall⟩
      | some target => exact h.jump target

theorem inside (h : c.Padded c') (sequence rest : List (Index × Instruction)) :
    Padded { c with sequence := sequence, rest := rest }
      { c' with sequence := sequence, rest := rest } :=
  ⟨h.scopes, .refl _, .refl _⟩

end Cursor.Padded

/-! ## Walks -/

namespace Walk

/-- The places correspond, and so do those where the calls and groups around them go on. -/
def PaddedPlaces : Pairing := fun c suspended c' suspended' =>
  c.Padded c' ∧
    List.Forall₂ (fun c c' => c.continuation.Padded c'.continuation) suspended suspended'

theorem InStep.resume_padded {w w' : Walk} (h : InStep PaddedPlaces w w') :
    Agree PaddedPlaces w.resume? w'.resume? := by
  have hsuspended := h.place.2
  unfold Walk.resume?
  generalize w.suspended = s, w'.suspended = s' at hsuspended
  cases hsuspended with
  | nil => exact .halted
  | cons hfirst hrest => exact h.act .noop ⟨hfirst, hrest⟩

theorem InStep.step_padded {w w' : Walk} (h : InStep PaddedPlaces w w') :
    Agree PaddedPlaces w.step? w'.step? := by
  obtain ⟨hplace, hsuspended⟩ := h.place
  obtain ⟨stops, hrest', hstops⟩ := hplace.rest
  cases hrest : w.cursor.rest with
  | nil =>
      -- past the end on one side, and there or at a stop on the other
      have hstep : w.step? = w.resume? := by simp [Walk.step?, hrest]
      have hstep' : w'.step? = w'.resume? := by
        cases stops with
        | nil => simp [Walk.step?, hrest', hrest]
        | cons p stops => simp [Walk.step?, hrest', hrest, hstops p List.mem_cons_self]
      rw [hstep, hstep']
      exact h.resume_padded
  | cons p following =>
      have hgoes : w.cursor.continuation.Padded w'.cursor.continuation :=
        hplace.continuation (by simp [hrest])
      rw [hrest, List.cons_append] at hrest'
      refine h.same hrest hrest' hplace.scopes ?_ ?_ ?_ ?_ ?_
      · exact fun _ _ => ⟨hgoes, hsuspended⟩
      · exact fun _ => h.resume_padded
      · exact fun _ _ _ target _ => ⟨hplace.jump target, hsuspended⟩
      · exact fun _ _ _ _ hscopes => ⟨.start hscopes, .cons hgoes hsuspended⟩
      · exact fun _ _ rest _ => ⟨hplace.inside _ rest, .cons hgoes hsuspended⟩

end Walk

namespace Scope

/-- A program runs the same, step for step, with a stop added at the end of some of its scopes. Only
a group with more members than can be numbered apart is left out, and no list in memory is as
long. -/
theorem compile_ended {p p' : Scope} {a : Automaton} (hfits : p.GroupsFit)
    (h : p.Edited id Ended p') (hcompile : p.compile = .ok a) :
    ∃ a', p'.compile = .ok a' ∧ a.RunsLike a' := by
  refine h.exists_runsLike Ended.sound hfits hcompile (R := Walk.PaddedPlaces) ?_ ?_
  · exact fun _ _ hscopes => ⟨.start hscopes, .nil⟩
  · exact fun _ _ => Walk.InStep.step_padded

/-- Marks two cells, the first by a call. The body goes on to `ending`. -/
def markTwice (ending : Scope) : Scope :=
  .sub "mark" (.instr "1" { command := .act (.write .mark) } ending)
    (.instr "1" { command := .call "mark" }
      (.instr "2" { command := .act (.move .right) }
        (.instr "3" { command := .act (.write .mark) } .nil)))

/-- The last state of the program is that of the body as well, until a stop comes after it. -/
theorem markTwice_ended :
    (markTwice .nil).GroupsFit ∧
      (markTwice .nil).Edited id Ended (markTwice (.instr "2" { command := .stop } .nil)) ∧
      ∃ a a', (markTwice .nil).compile = .ok a ∧
        (markTwice (.instr "2" { command := .stop } .nil)).compile = .ok a' ∧ a ≠ a' ∧
        a.RunsLike a' := by
  have hfits : (markTwice .nil).GroupsFit := by decide
  have hedited :
      (markTwice .nil).Edited id Ended (markTwice (.instr "2" { command := .stop } .nil)) := by
    refine .intro ⟨by decide, by decide, by decide, trivial⟩ (Or.inl rfl) (.cons "mark" ?_ .nil)
    refine .intro ⟨by decide, by decide, trivial⟩ (Or.inr ⟨2, ?_, ?_⟩) .nil
    · decide
    · decide +kernel
  have hdiffer : (markTwice .nil).compile ≠
      (markTwice (.instr "2" { command := .stop } .nil)).compile := by decide +kernel
  obtain ⟨a, ha⟩ := exists_compile_iff.mpr (by decide +kernel : (markTwice .nil).check [] = .ok ())
  obtain ⟨a', ha', hruns⟩ := compile_ended hfits hedited ha
  refine ⟨hfits, hedited, a, a', ha, ha', ?_, hruns⟩
  rintro rfl
  exact hdiffer (ha.trans ha'.symm)

end Scope

end TapeMachine
