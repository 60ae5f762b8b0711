import TapeMachine.Proofs.Realised
import TapeMachine.Proofs.Rules

/-!
# Programs edited scope by scope

An edit says how the instructions of one scope may be changed. A program is edited by
editing the instructions of each of its scopes, with the bodies kept in their order
under names that may be others. If an edit keeps the rules for the instructions of a
scope, the edited program keeps all rules.
-/

namespace TapeMachine

/-- What the instructions of a scope may be changed to. -/
abbrev Edit := List (Index × Instruction) → List (Index × Instruction) → Prop

/-- Whatever can be called, instructions that keep the rules keep them after the edit, and no group
gets too large. -/
structure Edit.Sound (edit : Edit) : Prop where
  lawful : ∀ visible l l', edit l l' → Lawful visible l → Lawful visible l'
  fits : ∀ visible l l', edit l l' → Lawful visible l → (∀ p ∈ l, p.2.Fits) → ∀ p ∈ l', p.2.Fits

namespace Scope

mutual

/-- The instructions of each scope are edited, and its bodies are in the same order under the names
that `ν` gives them. Where they stand among the instructions is left open, and so is the spelling of
the indices. -/
inductive Edited (ν : Key → Key) (edit : Edit) : Scope → Scope → Prop
  | intro {s s' : Scope} (indexed : s'.Indexed) (numbered : edit s.numbered s'.numbered)
      (bodies : EditedBodies ν edit s.subroutines s'.subroutines) : Edited ν edit s s'

inductive EditedBodies (ν : Key → Key) (edit : Edit) :
    List (Key × Scope) → List (Key × Scope) → Prop
  | nil : EditedBodies ν edit [] []
  | cons (name : Key) {body body' : Scope} {rest rest' : List (Key × Scope)}
      (head : Edited ν edit body body') (tail : EditedBodies ν edit rest rest') :
      EditedBodies ν edit ((name, body) :: rest) ((ν name, body') :: rest')

end

/-- The bodies stand in pairs under corresponding names. -/
def Paired (ν : Key → Key) (R : Scope → Scope → Prop) :
    List (Key × Scope) → List (Key × Scope) → Prop :=
  List.Forall₂ fun p p' => p'.1 = ν p.1 ∧ R p.2 p'.2

theorem Paired.names {ν : Key → Key} {R : Scope → Scope → Prop} {subs subs' : List (Key × Scope)}
    (h : Paired ν R subs subs') : subs'.map Prod.fst = (subs.map Prod.fst).map ν := by
  induction h with
  | nil => rfl
  | cons hhead _ ih => rw [List.map_cons, List.map_cons, List.map_cons, ih, hhead.1]

theorem Paired.forall_mem {ν : Key → Key} {R : Scope → Scope → Prop} {P P' : Scope → Prop}
    {subs subs' : List (Key × Scope)} (h : Paired ν R subs subs')
    (hR : ∀ s s', R s s' → P s → P' s') (hsubs : ∀ p ∈ subs, P p.2) : ∀ p ∈ subs', P' p.2 := by
  induction h with
  | nil => simp
  | cons hhead _ ih =>
      obtain ⟨hfirst, hrest⟩ := List.forall_mem_cons.mp hsubs
      exact List.forall_mem_cons.mpr ⟨hR _ _ hhead.2 hfirst, ih hrest⟩

section Edited

variable {ν : Key → Key} {edit : Edit}

/-- Induction on the scopes of an edited program, from the bodies outwards. -/
theorem Edited.induction {motive : Scope → Scope → Prop}
    (step : ∀ s s', s'.Indexed → edit s.numbered s'.numbered →
      Paired ν motive s.subroutines s'.subroutines → motive s s')
    {s s' : Scope} (h : s.Edited ν edit s') : motive s s' := by
  refine @Edited.rec ν edit (fun s s' _ => motive s s')
    (fun subs subs' _ => Paired ν motive subs subs') ?_ ?_ ?_ s s' h
  · intro s s' hindexed hnumbered _ hbodies
    exact step s s' hindexed hnumbered hbodies
  · exact .nil
  · intro name body body' rest rest' _ _ hbody hrest
    exact .cons ⟨rfl, hbody⟩ hrest

theorem Edited.bodies {s s' : Scope} (h : s.Edited ν edit s') :
    Paired ν (Edited ν edit) s.subroutines s'.subroutines := by
  obtain ⟨-, -, hbodies⟩ := h
  generalize s.subroutines = subs, s'.subroutines = subs' at hbodies
  induction subs generalizing subs' with
  | nil =>
      cases hbodies
      exact .nil
  | cons p subs ih =>
      cases hbodies with
      | cons name hhead htail => exact .cons ⟨rfl, hhead⟩ (ih _ htail)

end Edited

/-! ## What an edit keeps -/

section Keeps

variable {edit : Edit} {s s' : Scope}

theorem Edited.check (hedit : edit.Sound) (h : s.Edited id edit s') (visible : List Key)
    (hs : s.check visible = .ok ()) : s'.check visible = .ok () := by
  refine Edited.induction (motive := fun s s' =>
    ∀ visible, s.check visible = .ok () → s'.check visible = .ok ()) ?_ h visible hs
  intro s s' hindexed hnumbered hbodies visible hs
  obtain ⟨-, hnames, hlawful, hchecked⟩ := check_eq_ok_iff.mp hs
  have hsame : s'.subroutines.map Prod.fst = s.subroutines.map Prod.fst := by
    rw [hbodies.names, List.map_id]
  refine check_eq_ok_iff.mpr ⟨hindexed, ?_, ?_, ?_⟩
  · rw [hsame]
    exact hnames
  · rw [hsame]
    exact hedit.lawful _ _ _ hnumbered hlawful
  · rw [hsame]
    exact hbodies.forall_mem (fun _ _ hcheck => hcheck _) hchecked

theorem GroupsFit.bodies (h : s.GroupsFit) : ∀ p ∈ s.subroutines, p.2.GroupsFit := by
  induction s with
  | nil => simp [subroutines]
  | instr _ _ _ ih => exact ih h.2
  | sub _ _ _ _ ih => exact List.forall_mem_cons.mpr ⟨h.1, ih h.2⟩

theorem groupsFit_of_indexed (h : s.Indexed) (hnumbered : ∀ p ∈ s.numbered, p.2.Fits)
    (hbodies : ∀ p ∈ s.subroutines, p.2.GroupsFit) : s.GroupsFit := by
  induction s with
  | nil => trivial
  | instr key i rest ih =>
      obtain ⟨index, hindex⟩ := Option.isSome_iff_exists.mp h.1
      rw [numbered, hindex] at hnumbered
      obtain ⟨hfirst, hrest⟩ := List.forall_mem_cons.mp hnumbered
      exact ⟨hfirst, ih h.2 hrest hbodies⟩
  | sub _ _ _ _ ih =>
      obtain ⟨hfirst, hrest⟩ := List.forall_mem_cons.mp hbodies
      exact ⟨hfirst, ih h hnumbered hrest⟩

theorem Edited.groupsFit (hedit : edit.Sound) (h : s.Edited id edit s') (visible : List Key)
    (hcheck : s.check visible = .ok ()) (hs : s.GroupsFit) : s'.GroupsFit := by
  refine Edited.induction (motive := fun s s' =>
    ∀ visible, s.check visible = .ok () → s.GroupsFit → s'.GroupsFit) ?_ h visible hcheck hs
  intro s s' hindexed hnumbered hbodies visible hcheck hs
  obtain ⟨-, -, hlawful, hchecked⟩ := check_eq_ok_iff.mp hcheck
  refine groupsFit_of_indexed hindexed ?_ ?_
  · exact hedit.fits _ _ _ hnumbered hlawful fun p hp => hs.fits hp
  · have hall : ∀ p ∈ s.subroutines,
        p.2.check (s.subroutines.map Prod.fst ++ visible) = .ok () ∧ p.2.GroupsFit :=
      fun p hp => ⟨hchecked p hp, hs.bodies p hp⟩
    exact hbodies.forall_mem (P := fun s => s.check _ = .ok () ∧ s.GroupsFit)
      (fun _ _ hfit hbody => hfit _ hbody.1 hbody.2) hall

end Keeps

end Scope

end TapeMachine
