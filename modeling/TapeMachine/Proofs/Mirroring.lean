import TapeMachine.Proofs.Compiled

/-!
# Two compilations in step

Two compilations may report different events and still make the same states, place
the same labels and follow the same recipes. A step mirrors another if it does so
wherever the other one succeeds. The automaton does not depend on the events, so a
compilation that mirrors another ends with the same automaton.
-/

namespace TapeMachine

/-- The drafts hold the same states, places and recipes. Their events may differ. -/
structure Draft.Same (d e : Draft) : Prop where
  states : e.states = d.states
  places : e.places = d.places
  recipes : e.recipes = d.recipes

namespace Draft.Same

variable {d e : Draft}

theorem refl (d : Draft) : Same d d :=
  ⟨rfl, rfl, rfl⟩

theorem state? (h : Same d e) (id : StateId) : e.state? id = d.state? id := by
  cases id with
  | halt => rfl
  | slot k => rw [Draft.state?, Draft.state?, h.states]

theorem place? (h : Same d e) (l : Label) : e.place? l = d.place? l := by
  rw [Draft.place?, Draft.place?, h.places]

theorem resolve (h : Same d e) (t : Target) : e.resolve t = d.resolve t := by
  cases t with
  | state id => rfl
  | label l => rw [Draft.resolve, Draft.resolve, h.place?]

theorem log (h : Same d e) (event event' : CompileEvent) : Same (d.log event) (e.log event') :=
  ⟨h.states, h.places, h.recipes⟩

theorem graph (h : Same d e) : e.graph = d.graph := by
  have hlocate : e.locate = d.locate := by
    funext t
    cases t with
    | state id => rfl
    | label l => rw [locate, locate, h.place?]
  unfold Draft.graph
  rw [h.states, hlocate]

end Draft.Same

namespace Build

open Draft

variable {α β γ δ : Type}

/-- Where `x` succeeds, so does `y` from a draft that holds the same. The results are related, and
the drafts hold the same again. -/
def Mirrors (R : α → β → Prop) (x : Build α) (y : Build β) : Prop :=
  ∀ d e a d', Same d e → x d = .ok a d' → ∃ b e', y e = .ok b e' ∧ R a b ∧ Same d' e'

section Steps

variable {R : α → β → Prop} {S : γ → δ → Prop}

theorem mirrors_pure {a : α} {b : β} (h : R a b) : Mirrors R (pure a) (pure b) := by
  rintro d e _ _ hsame ⟨⟩
  exact ⟨b, e, rfl, h, hsame⟩

/-- A step that never succeeds is mirrored by any. -/
theorem mirrors_throw (error : CompileError) (y : Build β) : Mirrors R (throw error) y := by
  rintro d e a d' - ⟨⟩

theorem Mirrors.bind {x : Build α} {y : Build β} {f : α → Build γ} {g : β → Build δ}
    (hx : Mirrors R x y) (hf : ∀ a b, R a b → Mirrors S (f a) (g b)) :
    Mirrors S (x >>= f) (y >>= g) := by
  intro d e c d' hsame h
  obtain ⟨a, d₁, ha, hc⟩ := bind_eq_ok h
  obtain ⟨b, e₁, hb, hab, hsame₁⟩ := hx d e a d₁ hsame ha
  rw [bind_of_ok hb]
  exact hf a b hab d₁ e₁ c d' hsame₁ hc

theorem mirrors_ofExcept {r : Except CompileError α} {r' : Except CompileError β}
    (h : ∀ a, r = .ok a → ∃ b, r' = .ok b ∧ R a b) :
    Mirrors R (ofExcept r : Build α) (ofExcept r' : Build β) := by
  intro d e a d' hsame hrun
  obtain ⟨hr, rfl⟩ := ofExcept_eq_ok hrun
  obtain ⟨b, hb, hab⟩ := h a hr
  rw [hb]
  exact ⟨b, e, rfl, hab, hsame⟩

end Steps

theorem mirrors_emit (event event' : CompileEvent) : Mirrors Eq (emit event) (emit event') := by
  rintro d e _ _ hsame ⟨⟩
  exact ⟨(), _, rfl, rfl, hsame.log event event'⟩

theorem mirrors_get : Mirrors Same (get : Build Draft) get := by
  rintro d e _ _ hsame ⟨⟩
  exact ⟨e, e, rfl, hsame, hsame⟩

theorem mirrors_newLabel : Mirrors Eq newLabel newLabel := by
  rintro d e _ _ hsame ⟨⟩
  refine ⟨_, _, newLabel_apply e, ?_, ?_⟩
  · rw [hsame.places]
  · exact ⟨hsame.states, by simp [handOut, hsame.places], hsame.recipes⟩

theorem mirrors_addState (s : State Target) : Mirrors Eq (addState s) (addState s) := by
  rintro d e _ _ hsame ⟨⟩
  refine ⟨_, _, rfl, ?_, ?_⟩
  · rw [hsame.states]
  · exact ⟨by simp [hsame.states], hsame.places, hsame.recipes⟩

theorem mirrors_place (l : Label) (id : StateId) : Mirrors Eq (place l id) (place l id) := by
  -- a label that was placed before is noted, and nothing else depends on that
  have hplace : ∀ d, ∃ d', place l id d = .ok () d' ∧ d'.states = d.states ∧
      d'.places = (d.put l id).places ∧ d'.recipes = d.recipes := by
    intro d
    rw [place, bind_of_ok (get_apply d)]
    cases (d.place? l).isSome with
    | true => exact ⟨_, rfl, rfl, rfl, rfl⟩
    | false => exact ⟨_, rfl, rfl, rfl, rfl⟩
  intro d e u d' hsame h
  obtain ⟨d₁, hd, hstates, hplaces, hrecipes⟩ := hplace d
  obtain ⟨e₁, he, hstates', hplaces', hrecipes'⟩ := hplace e
  cases h.symm.trans hd
  refine ⟨(), e₁, he, rfl, ?_, ?_, ?_⟩
  · rw [hstates, hstates', hsame.states]
  · rw [hplaces, hplaces', put, put, hsame.places]
  · rw [hrecipes, hrecipes', hsame.recipes]

theorem mirrors_placeOf (l : Label) : Mirrors Eq (placeOf l) (placeOf l) := by
  refine mirrors_get.bind fun d e hsame => mirrors_ofExcept fun id hid => ?_
  exact ⟨id, hsame.resolve _ ▸ hid, rfl⟩

theorem mirrors_share (r : Recipe) (s : State Target) : Mirrors Eq (share r s) (share r s) := by
  intro d e id d' hsame h
  rcases share_eq_ok h with ⟨hsome, rfl⟩ | ⟨hnone, rfl, rfl⟩
  · rw [← hsame.recipes] at hsome
    exact ⟨id, _, share_of_some hsome, rfl, hsame.log _ _⟩
  · rw [← hsame.recipes] at hnone
    refine ⟨_, _, share_of_none hnone, ?_, ?_, hsame.places, ?_⟩
    · rw [hsame.states]
    · simp [hsame.states]
    · simp [hsame.states, hsame.recipes]

theorem mirrors_enter (entry : StateId) (next : Target) :
    Mirrors Eq (enter entry next) (enter entry next) := by
  apply (mirrors_share _ _).bind
  rintro back _ rfl
  refine mirrors_get.bind fun d e hsame => ?_
  rw [hsame.state?]
  cases d.state? entry with
  | none => exact mirrors_pure rfl
  | some s => exact mirrors_share _ _

end Build

/-- A compilation that mirrors a successful one gives the same automaton. -/
theorem Scope.compile_of_mirrors {p p' : Scope} {a : Automaton}
    (h : Build.Mirrors Eq (Build.scope p []) (Build.scope p' [])) (hcompile : p.compile = .ok a) :
    p'.compile = .ok a := by
  obtain ⟨entry, d, hbuild, rfl⟩ := compile_eq_ok hcompile
  obtain ⟨_, e, hbuild', rfl, hsame⟩ := h {} {} entry d (.refl _) hbuild
  rw [compile_of_ok hbuild', hsame.graph]

end TapeMachine
