import TapeMachine.Proofs.Flow
import TapeMachine.Proofs.Returns

/-!
# Both searches of a graph are exact

A search is a loop that goes on for as long as something is left to visit. Its bound
decides nothing: without one the loop stops as well, after no more rounds than the bound
allows, and gives the same. What it gives is then a matter of what each round keeps.

The ids that are reached are closed under successors when nothing is pending, and
nothing else is reached on the way. A run stays among them. It goes on at successors,
or at a return, and a return is a successor of the state that pushed it.
-/

namespace TapeMachine

open Relation

/-! ## Loops -/

/-- The loop at `s` stops after `n` more rounds and gives `r`. A round says where the loop goes on
or what it gives. -/
inductive Stops {σ ρ : Type} (round : σ → σ ⊕ ρ) : σ → Nat → ρ → Prop
  | now {s : σ} {r : ρ} (gives : round s = .inr r) : Stops round s 0 r
  | later {s s' : σ} {n : Nat} {r : ρ} (goesOn : round s = .inl s') (rest : Stops round s' n r) :
      Stops round s (n + 1) r

/-- What every round keeps holds in the last one. -/
theorem Stops.keeps {σ ρ : Type} {round : σ → σ ⊕ ρ} {s : σ} {n : Nat} {r : ρ}
    (h : Stops round s n r) {P : σ → Prop} (hround : ∀ s s', P s → round s = .inl s' → P s')
    (hs : P s) : ∃ last, P last ∧ round last = .inr r := by
  induction h with
  | now hgives => exact ⟨_, hs, hgives⟩
  | later hgoesOn _ ih => exact ih (hround _ _ hs hgoesOn)

namespace Graph

variable {g : Graph} {entry : StateId}

/-! ## The search for a cycle -/

/-- Where the search for a cycle is. -/
structure Hunt where
  entered : Std.TreeSet StateId
  left : Std.TreeSet StateId
  pending : List Visit

/-- One visit of the search for a cycle. -/
def Hunt.round (g : Graph) (hunt : Hunt) : Hunt ⊕ Bool :=
  match hunt.pending with
  | [] => .inr false
  | .leave id :: pending => .inl { hunt with left := hunt.left.insert id, pending }
  | .enter id :: pending =>
    if id ∈ hunt.left then .inl { hunt with pending }
    else if id ∈ hunt.entered then .inr true
    else .inl { hunt with
      entered := hunt.entered.insert id
      pending := (g.successors id).map .enter ++ .leave id :: pending }

/-- A bound that covers the cost is never used up. -/
theorem search_stops {bound : Nat} {entered left : Std.TreeSet StateId} {pending : List Visit}
    (hbound : g.cost entered pending ≤ bound) :
    ∃ n, n ≤ bound ∧
      Stops (Hunt.round g) { entered, left, pending } n (g.search bound entered left pending) := by
  induction bound generalizing entered left pending with
  | zero =>
      cases pending with
      | nil => exact ⟨0, Nat.le_refl 0, .now rfl⟩
      | cons visit pending =>
          rw [cost_cons] at hbound
          cases visit <;> simp [Visit.cost] at hbound
  | succ bound ih =>
      cases pending with
      | nil => exact ⟨0, Nat.zero_le _, .now rfl⟩
      | cons visit pending =>
          cases visit with
          | leave id =>
              rw [cost_cons, Visit.cost] at hbound
              have hrest : g.cost entered pending ≤ bound := by omega
              obtain ⟨n, hn, hstops⟩ := @ih entered (left.insert id) pending hrest
              exact ⟨n + 1, by omega, .later rfl hstops⟩
          | enter id =>
              rw [search]
              by_cases hleft : id ∈ left
              · rw [cost_cons, Visit.cost] at hbound
                have hrest : g.cost entered pending ≤ bound := by omega
                obtain ⟨n, hn, hstops⟩ := @ih entered left pending hrest
                rw [if_pos hleft]
                exact ⟨n + 1, by omega, .later (if_pos hleft) hstops⟩
              · rw [if_neg hleft]
                by_cases hentered : id ∈ entered
                · rw [if_pos hentered]
                  exact ⟨0, Nat.zero_le _, .now ((if_neg hleft).trans (if_pos hentered))⟩
                · have hrest := Nat.lt_of_lt_of_le (cost_enter (g := g) hentered pending) hbound
                  obtain ⟨n, hn, hstops⟩ := @ih _ left _ (Nat.le_of_lt_succ hrest)
                  rw [if_neg hentered]
                  exact ⟨n + 1, by omega,
                    .later ((if_neg hleft).trans (if_neg hentered)) hstops⟩

/-- The search for a cycle stops by itself, and it finds one if and only if some id that can be
reached from the entry leads back to itself. -/
theorem hasCycleFrom_exact (g : Graph) (entry : StateId) :
    (∃ n, n ≤ 2 * (3 * g.size + 1) ∧
      Stops (Hunt.round g) { entered := ∅, left := ∅, pending := [.enter entry] } n
        (g.hasCycleFrom entry)) ∧
    (g.hasCycleFrom entry = true ↔
      ∃ id, ReflTransGen g.Leads entry id ∧ TransGen g.Leads id id) := by
  refine ⟨search_stops (g.cost_start entry), exists_cycle_of_hasCycleFrom, ?_⟩
  rintro ⟨id, hreached, hcycle⟩
  rw [← Bool.not_eq_false, hasCycleFrom_eq_false_iff]
  exact fun hends => hends.not_cycle hreached hcycle

/-! ## The search for what can be reached -/

/-- Where the search for the ids that can be reached is. -/
structure Survey where
  seen : Std.TreeSet StateId
  pending : List StateId

/-- Takes up one of the pending ids. -/
def Survey.round (g : Graph) (survey : Survey) : Survey ⊕ Std.TreeSet StateId :=
  match survey.pending with
  | [] => .inr survey.seen
  | id :: pending =>
    if id ∈ survey.seen then .inl { survey with pending }
    else .inl { seen := survey.seen.insert id, pending := g.successors id ++ pending }

/-- A bound that covers the pending ids and three for each state that was not seen is never used
up. An id may be pending many times, but its successors are added once. -/
theorem explore_stops {bound : Nat} {seen : Std.TreeSet StateId} {pending : List StateId}
    (hbound : pending.length + 3 * g.unentered seen ≤ bound) :
    ∃ n, n ≤ bound ∧ Stops (Survey.round g) { seen, pending } n (g.explore bound seen pending) := by
  induction bound generalizing seen pending with
  | zero =>
      cases pending with
      | nil => exact ⟨0, Nat.le_refl 0, .now rfl⟩
      | cons id pending => simp at hbound
  | succ bound ih =>
      cases pending with
      | nil => exact ⟨0, Nat.zero_le _, .now rfl⟩
      | cons id pending =>
          rw [List.length_cons] at hbound
          rw [explore]
          by_cases hseen : id ∈ seen
          · obtain ⟨n, hn, hstops⟩ := @ih seen pending (by omega)
            rw [if_pos hseen]
            exact ⟨n + 1, by omega, .later (if_pos hseen) hstops⟩
          · have hroom := unentered_insert (g := g) hseen
            have hrest : (g.successors id ++ pending).length +
                3 * g.unentered (seen.insert id) ≤ bound := by
              rw [List.length_append]
              omega
            obtain ⟨n, hn, hstops⟩ := ih hrest
            rw [if_neg hseen]
            exact ⟨n + 1, by omega, .later (if_neg hseen) hstops⟩

/-- How far the search has come. What is seen or pending can be reached, and what comes right
after an id that is seen is seen or pending. -/
structure Surveying (g : Graph) (entry : StateId) (survey : Survey) : Prop where
  begun : entry ∈ survey.seen ∨ entry ∈ survey.pending
  reached : ∀ id, id ∈ survey.seen ∨ id ∈ survey.pending → ReflTransGen g.Leads entry id
  covered : ∀ id ∈ survey.seen, ∀ s ∈ g.successors id, s ∈ survey.seen ∨ s ∈ survey.pending

namespace Surveying

variable {survey survey' : Survey}

theorem skip {seen : Std.TreeSet StateId} {id : StateId} {pending : List StateId}
    (h : g.Surveying entry { seen, pending := id :: pending }) (hid : id ∈ seen) :
    g.Surveying entry { seen, pending } := by
  have hdrop : ∀ x, x ∈ seen ∨ x ∈ id :: pending → x ∈ seen ∨ x ∈ pending := by
    rintro x (hx | hx)
    · exact Or.inl hx
    · rcases List.mem_cons.mp hx with rfl | hx
      · exact Or.inl hid
      · exact Or.inr hx
  refine ⟨hdrop _ h.begun, ?_, fun x hx s hs => hdrop s (h.covered x hx s hs)⟩
  intro x hx
  exact h.reached x (hx.imp_right (List.mem_cons_of_mem id))

theorem take {seen : Std.TreeSet StateId} {id : StateId} {pending : List StateId}
    (h : g.Surveying entry { seen, pending := id :: pending }) :
    g.Surveying entry { seen := seen.insert id, pending := g.successors id ++ pending } := by
  have hmove : ∀ x, x ∈ seen ∨ x ∈ id :: pending →
      x ∈ seen.insert id ∨ x ∈ g.successors id ++ pending := by
    rintro x (hx | hx)
    · exact Or.inl (mem_insert_iff.mpr (Or.inr hx))
    · rcases List.mem_cons.mp hx with rfl | hx
      · exact Or.inl (mem_insert_iff.mpr (Or.inl rfl))
      · exact Or.inr (List.mem_append_right _ hx)
  have hid : ReflTransGen g.Leads entry id := h.reached id (Or.inr List.mem_cons_self)
  refine ⟨hmove _ h.begun, ?_, ?_⟩
  · rintro x (hx | hx)
    · rcases mem_insert_iff.mp hx with rfl | hx
      · exact hid
      · exact h.reached x (Or.inl hx)
    · rcases List.mem_append.mp hx with hx | hx
      · exact hid.tail hx
      · exact h.reached x (Or.inr (List.mem_cons_of_mem id hx))
  · intro x hx s hs
    rcases mem_insert_iff.mp hx with rfl | hx
    · exact Or.inr (List.mem_append_left _ hs)
    · exact hmove s (h.covered x hx s hs)

theorem round (h : g.Surveying entry survey) (hround : survey.round g = .inl survey') :
    g.Surveying entry survey' := by
  obtain ⟨seen, pending⟩ := survey
  cases pending with
  | nil => cases hround
  | cons id pending =>
      unfold Survey.round at hround
      split at hround
      · cases hround
      · rename_i heq
        cases heq
        split at hround
        · rename_i hid
          cases hround
          exact h.skip hid
        · cases hround
          exact h.take

/-- Where nothing is pending, exactly what can be reached is seen. -/
theorem mem_seen_iff {seen : Std.TreeSet StateId}
    (h : g.Surveying entry { seen, pending := [] }) {id : StateId} :
    id ∈ seen ↔ ReflTransGen g.Leads entry id := by
  have hseen : ∀ x, x ∈ seen ∨ x ∈ ([] : List StateId) → x ∈ seen :=
    fun x hx => hx.resolve_right List.not_mem_nil
  constructor
  · exact fun hid => h.reached id (Or.inl hid)
  · intro hid
    induction hid with
    | refl => exact hseen _ h.begun
    | tail _ hstep ih => exact hseen _ (h.covered _ ih _ hstep)

end Surveying

theorem exists_survey_stops (g : Graph) (entry : StateId) :
    ∃ n seen, n ≤ 3 * g.size + 1 ∧
      Stops (Survey.round g) { seen := ∅, pending := [entry] } n seen ∧
      g.reachableFrom entry = seen.toList := by
  have hbound : [entry].length + 3 * g.unentered ∅ ≤ 3 * g.size + 1 := by
    have hids := g.unentered_empty
    rw [List.length_singleton]
    omega
  obtain ⟨n, hn, hstops⟩ := explore_stops hbound
  exact ⟨n, _, hn, hstops, rfl⟩

theorem mem_reachableFrom_iff {id : StateId} :
    id ∈ g.reachableFrom entry ↔ ReflTransGen g.Leads entry id := by
  obtain ⟨n, seen, -, hstops, heq⟩ := g.exists_survey_stops entry
  have hstart : g.Surveying entry { seen := ∅, pending := [entry] } := by
    refine ⟨Or.inr List.mem_cons_self, ?_, by simp⟩
    rintro x (hx | hx)
    · simp at hx
    · rw [List.mem_singleton.mp hx]
  obtain ⟨⟨seen', pending⟩, hlast, hgives⟩ :=
    hstops.keeps (fun _ _ hsurvey hround => hsurvey.round hround) hstart
  rw [heq, Std.TreeSet.mem_toList]
  -- a round that gives something has nothing pending
  cases pending with
  | nil =>
      cases hgives
      exact hlast.mem_seen_iff
  | cons x pending =>
      unfold Survey.round at hgives
      split at hgives
      · rename_i hnil
        cases hnil
      · split at hgives <;> cases hgives

theorem pairwise_reachableFrom (g : Graph) (entry : StateId) :
    (g.reachableFrom entry).Pairwise fun a b => a.number < b.number := by
  refine Std.TreeSet.ordered_toList.imp ?_
  intro a b hlt
  exact Nat.compare_eq_lt.mp hlt

end Graph

/-! ## Runs -/

/-- A step keeps to what can be reached: what is current afterwards and all that is pending then. -/
theorem Configuration.reached_step {g : Graph} {entry : StateId} {c c' : Configuration} {step : Step}
    (h : ∀ id ∈ c.ahead, ReflTransGen g.Leads entry id) (hstep : c.step? g = some (step, c')) :
    ∀ id ∈ c'.ahead, ReflTransGen g.Leads entry id := by
  obtain ⟨s, t, hs, ht, hresume⟩ := ahead_step hstep
  have hcurrent := h c.current List.mem_cons_self
  have hsuccessor : ∀ id ∈ s.table.targets ++ s.returnTo.toList,
      ReflTransGen g.Leads entry id := by
    intro id hid
    refine hcurrent.tail ?_
    rw [Graph.Leads, Graph.successors, hs]
    exact hid
  have hreturns : ∀ id ∈ s.returnTo.toList ++ c.returns, ReflTransGen g.Leads entry id := by
    intro id hid
    rcases List.mem_append.mp hid with hid | hid
    · exact hsuccessor id (List.mem_append_right _ hid)
    · exact h id (List.mem_cons_of_mem _ hid)
  intro id hid
  rcases ahead_of_resume hresume with hahead | ⟨-, hahead⟩
  · rw [hahead] at hid
    rcases List.mem_cons.mp hid with rfl | hid
    · exact hsuccessor id (List.mem_append_left _ ht)
    · exact hreturns id hid
  · exact hreturns id (hahead ▸ hid)

/-- The search for what can be reached stops by itself. It gives each id once, in the order of
their numbers, and exactly those that can be reached from the entry, the entry included. On every
tape, whatever the limit and however many steps are taken, a run from the entry stands at one of
these ids. -/
theorem Graph.reachableFrom_exact (g : Graph) (entry : StateId) :
    (∃ n seen, n ≤ 3 * g.size + 1 ∧
      Stops (Survey.round g) { seen := ∅, pending := [entry] } n seen ∧
      g.reachableFrom entry = seen.toList) ∧
    ((g.reachableFrom entry).Pairwise fun a b => a.number < b.number) ∧
    (∀ id, id ∈ g.reachableFrom entry ↔ ReflTransGen g.Leads entry id) ∧
    ∀ (tape : Tape) (limit k : Nat),
      ((Run.start g entry tape limit).advance k).current ∈ g.reachableFrom entry := by
  refine ⟨g.exists_survey_stops entry, g.pairwise_reachableFrom entry,
    fun id => mem_reachableFrom_iff, ?_⟩
  intro tape limit k
  have hstart : ∀ id ∈ (Run.start g entry tape limit).configuration.ahead,
      ReflTransGen g.Leads entry id := by
    intro id hid
    rw [List.mem_singleton.mp hid]
    exact .refl
  have hahead := Run.keeps_advance (P := fun c => ∀ id ∈ c.ahead, ReflTransGen g.Leads entry id)
    (fun _ _ _ hc hstep => Configuration.reached_step hc hstep) hstart k
  exact mem_reachableFrom_iff.mpr (hahead _ List.mem_cons_self)

end TapeMachine
