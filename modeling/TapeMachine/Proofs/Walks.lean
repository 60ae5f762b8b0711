import TapeMachine.Proofs.Edits
import TapeMachine.Proofs.Simulation

/-!
# Two walks in step

A relation between the places of two walks that every step keeps, with the same effect
on both sides, holds all along. So the two programs do the same on every tape, and by
the simulation their automata do.

For an edited program the places are related by the scopes around them: a call goes to
a body in one program and to the edited body in the other.
-/

namespace TapeMachine

namespace Walk

/-- Relates where two walks stand: the cursor and what it is inside of, on either side. -/
abbrev Pairing := Cursor → List Cursor → Cursor → List Cursor → Prop

variable {R : Pairing} {w w' : Walk}

/-- The walks stand at related places, with the same tape and after as many steps. -/
structure InStep (R : Pairing) (w w' : Walk) : Prop where
  place : R w.cursor w.suspended w'.cursor w'.suspended
  tape : w'.tape = w.tape
  steps : w'.steps = w.steps

/-- Both walks have halted, or both take a step of the same effect and are in step again. -/
inductive Agree (R : Pairing) : Option (Effect × Walk) → Option (Effect × Walk) → Prop
  | halted : Agree R none none
  | step (effect : Effect) {w w' : Walk} (next : InStep R w w') :
      Agree R (some (effect, w)) (some (effect, w'))

theorem InStep.act (h : InStep R w w') (action : Action) {c c' : Cursor} {s s' : List Cursor}
    (hplace : R c s c' s') : Agree R (some (w.act action c s)) (some (w'.act action c' s')) := by
  unfold Walk.act
  rw [h.tape, h.steps]
  exact .step _ ⟨hplace, rfl, rfl⟩

/-- What every step keeps holds all along, and so both walks report the same. -/
theorem InStep.run {σ : Type} (report : σ → Effect → σ)
    (hstep : ∀ w w', InStep R w w' → Agree R w.step? w'.step?) (h : InStep R w w') (budget : Nat)
    (acc : σ) :
    ∃ result acc' v v', w.run report budget acc = (result, acc', v) ∧
      w'.run report budget acc = (result, acc', v') ∧ InStep R v v' := by
  induction budget generalizing w w' acc with
  | zero =>
      have hagree := hstep w w' h
      have hhalted : w'.step?.isNone = w.step?.isNone := by
        generalize w.step? = o, w'.step? = o' at hagree
        cases hagree <;> rfl
      rw [Walk.run, Walk.run, hhalted, h.steps]
      cases w.step?.isNone with
      | true => exact ⟨_, _, w, w', rfl, rfl, h⟩
      | false => exact ⟨_, _, w, w', rfl, rfl, h⟩
  | succ budget ih =>
      have hagree := hstep w w' h
      rw [Walk.run, Walk.run]
      generalize w.step? = o, w'.step? = o' at hagree
      cases hagree with
      | halted => exact ⟨_, _, w, w', rfl, by rw [h.steps], h⟩
      | step effect hnext => exact ih hnext (report acc effect)

end Walk

/-! ## Automata that run alike -/

/-- The automata run alike on every tape: their steps have the same effects, there are as many of
them within any limit, and the same tape is left. -/
def Automaton.RunsLike (a a' : Automaton) : Prop :=
  ∀ {σ : Type} (report : σ → Effect → σ) (init : σ) (limit : Nat) (tape : Tape),
    ({ automaton := a } : Machine).runOn (fun acc step => report acc step.effect) init limit tape =
      ({ automaton := a' } : Machine).runOn (fun acc step => report acc step.effect) init limit tape

namespace Scope

/-! ## Scopes around two places -/

/-- The scope keeps the rules among some that are declared around it. -/
def Checked (s : Scope) : Prop :=
  ∃ visible, s.check visible = .ok ()

namespace Checked

variable {s : Scope}

theorem keys (h : s.Checked) : s.checkKeys [] = .ok () := by
  obtain ⟨visible, hs⟩ := h
  exact (checkWith_iff.mp hs).1

theorem lawful (h : s.Checked) : ∃ visible, Lawful visible s.numbered := by
  obtain ⟨visible, hs⟩ := h
  exact ⟨_, (check_eq_ok_iff.mp hs).2.2.1⟩

theorem bodies (h : s.Checked) : ∀ p ∈ s.subroutines, p.2.Checked := by
  obtain ⟨visible, hs⟩ := h
  exact fun p hp => ⟨_, (check_eq_ok_iff.mp hs).2.2.2 p hp⟩

end Checked

/-- A scope of a program that keeps the rules, and that scope in the edited program. -/
structure Counterpart (edit : Edit) (s s' : Scope) : Prop where
  edited : s.Edited id edit s'
  checked : s.Checked
  checked' : s'.Checked

theorem Paired.mono_mem {ν : Key → Key} {R S : Scope → Scope → Prop}
    {subs subs' : List (Key × Scope)} (h : Paired ν R subs subs')
    (hRS : ∀ q ∈ subs, ∀ q' ∈ subs', R q.2 q'.2 → S q.2 q'.2) : Paired ν S subs subs' := by
  induction h with
  | nil => exact .nil
  | cons hhead _ ih =>
      refine .cons ⟨hhead.1, hRS _ List.mem_cons_self _ List.mem_cons_self hhead.2⟩ ?_
      exact ih fun q hq q' hq' => hRS q (List.mem_cons_of_mem _ hq) q' (List.mem_cons_of_mem _ hq')

theorem Paired.lookup {R : Scope → Scope → Prop} {subs subs' : List (Key × Scope)}
    (h : Paired id R subs subs') (name : Key) :
    Option.Rel R (subs.lookup name) (subs'.lookup name) := by
  induction h with
  | nil => exact .none
  | @cons q q' subs subs' hhead _ ih =>
      obtain ⟨hname, hbody⟩ := hhead
      rw [List.lookup_cons, List.lookup_cons, hname]
      show Option.Rel R (match name == q.1 with | true => _ | false => _)
        (match name == q.1 with | true => _ | false => _)
      cases name == q.1 with
      | true => exact .some hbody
      | false => exact ih

theorem Counterpart.body? {edit : Edit} {s s' : Scope} (h : Counterpart edit s s') (name : Key) :
    Option.Rel (Counterpart edit) (s.body? name) (s'.body? name) := by
  have hpaired : Paired id (Counterpart edit) s.subroutines s'.subroutines := by
    refine h.edited.bodies.mono_mem fun q hq q' hq' hedited => ?_
    exact ⟨hedited, h.checked.bodies q hq, h.checked'.bodies q' hq'⟩
  rw [body?_eq_lookup h.checked.keys, body?_eq_lookup h.checked'.keys]
  exact hpaired.lookup name

/-- A name stands for counterparts again. -/
theorem resolve_counterparts {edit : Edit} {scopes scopes' : List Scope}
    (h : List.Forall₂ (Counterpart edit) scopes scopes') (name : Key) :
    Option.Rel (List.Forall₂ (Counterpart edit)) (Cursor.resolve name scopes)
      (Cursor.resolve name scopes') := by
  induction h with
  | nil => exact .none
  | @cons s s' outer outer' hs houter ih =>
      have hbody := hs.body? name
      unfold Cursor.resolve
      generalize s.body? name = o, s'.body? name = o' at hbody
      cases hbody with
      | none => exact ih
      | some hbody => exact .some (.cons hbody (.cons hs houter))

end Scope

/-! ## One step -/

/-- A step at the same instruction on both sides. What is asked of the places that it leads to is
asked for each kind of command apart. -/
theorem Walk.InStep.same {R : Pairing} {edit : Edit} {w w' : Walk} (h : InStep R w w')
    {k k' : Index} {i : Instruction} {following following' : List (Index × Instruction)}
    (hrest : w.cursor.rest = (k, i) :: following) (hrest' : w'.cursor.rest = (k', i) :: following')
    (hscopes : List.Forall₂ (Scope.Counterpart edit) w.cursor.scopes w'.cursor.scopes)
    (hact : ∀ action, i.command = .act action →
      R w.cursor.continuation w.suspended w'.cursor.continuation w'.suspended)
    (hstop : i.command = .stop → Agree R w.resume? w'.resume?)
    (hcheck : ∀ ifMarked otherwise, i.command = .check ifMarked otherwise →
      ∀ target ∈ [ifMarked, otherwise],
        R (w.cursor.jump target) w.suspended (w'.cursor.jump target) w'.suspended)
    (hcall : ∀ name, i.command = .call name →
      ∀ scopes scopes', List.Forall₂ (Scope.Counterpart edit) scopes scopes' →
        R (.start scopes) (w.cursor :: w.suspended) (.start scopes') (w'.cursor :: w'.suspended))
    (hgroup : ∀ members, i.command = .group members → ∀ rest ⊆ numberMembers members,
      R { w.cursor with sequence := numberMembers members, rest := rest } (w.cursor :: w.suspended)
        { w'.cursor with sequence := numberMembers members, rest := rest }
        (w'.cursor :: w'.suspended)) :
    Agree R w.step? w'.step? := by
  unfold Walk.step?
  simp only [hrest, hrest']
  cases hc : i.command with
  | act action => exact h.act action (hact action hc)
  | stop => exact hstop hc
  | check ifMarked otherwise =>
      simp only [h.tape]
      refine h.act .noop (hcheck ifMarked otherwise hc _ ?_)
      split <;> simp
  | call name =>
      have hresolve := Scope.resolve_counterparts hscopes name
      simp only
      generalize Cursor.resolve name w.cursor.scopes = o, Cursor.resolve name w'.cursor.scopes = o'
        at hresolve
      cases hresolve with
      | none => exact .halted
      | some hfound => exact h.act .noop (hcall name hc _ _ hfound)
  | group members =>
      have hinside := hgroup members hc
      simp only [Walk.enterGroup?]
      generalize numberMembers members = sequence at hinside ⊢
      cases sequence with
      | nil => exact .halted
      | cons first rest =>
          cases hfirst : first.2.command with
          | act action =>
              simp only [hfirst]
              exact h.act action (hinside rest (List.subset_cons_self _ _))
          | _ =>
              simp only [hfirst]
              exact h.act .noop (hinside _ (List.Subset.refl _))

/-- An edited program compiles, and it runs like the program itself, if the walks of the two are in
step from every pair of corresponding scopes on. -/
theorem Scope.Edited.exists_runsLike {edit : Edit} {R : Walk.Pairing} {p p' : Scope} {a : Automaton}
    (h : p.Edited id edit p') (hedit : edit.Sound) (hfits : p.GroupsFit)
    (hcompile : p.compile = .ok a)
    (hstart : ∀ scopes scopes', List.Forall₂ (Counterpart edit) scopes scopes' →
      R (.start scopes) [] (.start scopes') [])
    (hstep : ∀ w w', Walk.InStep R w w' → Walk.Agree R w.step? w'.step?) :
    ∃ a', p'.compile = .ok a' ∧ a.RunsLike a' := by
  have hcheck : p.check [] = .ok () := exists_compile_iff.mp ⟨a, hcompile⟩
  have hcheck' : p'.check [] = .ok () := h.check hedit [] hcheck
  have hfits' : p'.GroupsFit := h.groupsFit hedit [] hcheck hfits
  obtain ⟨a', hcompile'⟩ := exists_compile_iff.mpr hcheck'
  refine ⟨a', hcompile', ?_⟩
  intro σ report init limit tape
  have hscopes : List.Forall₂ (Counterpart edit) [p] [p'] :=
    .cons ⟨h, ⟨[], hcheck⟩, ⟨[], hcheck'⟩⟩ .nil
  have hinStep : Walk.InStep R (.start p tape) (.start p' tape) := ⟨hstart _ _ hscopes, rfl, rfl⟩
  obtain ⟨result, acc, w, w', hwalk, hwalk', hend⟩ := hinStep.run report hstep limit init
  rw [runOn_of_walk hfits hcompile hwalk, runOn_of_walk hfits' hcompile' hwalk', hend.tape]

end TapeMachine
