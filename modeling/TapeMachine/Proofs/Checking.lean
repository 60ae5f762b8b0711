import Mathlib.Data.List.Chain
import TapeMachine.Proofs.Success

/-!
# Compiling fails as checking does

Whether a step of a compilation fails, and with which error, depends neither on
the states made so far nor on the labels. `Yields` says so for one step and
names the answer, and for a whole scope the answer is that of `Scope.check`.
-/

namespace TapeMachine

namespace Build

open Draft

variable {α β : Type}

/-- Whether a step fails, and with which error. -/
def outcome (x : Build α) (d : Draft) : Except CompileError Unit :=
  match x d with
  | .ok _ _ => .ok ()
  | .error e _ => .error e

/-- The outcome of the step is `r` whatever the draft. -/
def Yields (x : Build α) (r : Except CompileError Unit) : Prop :=
  ∀ d : Draft, x.outcome d = r

theorem outcome_of_ok {x : Build α} {d d' : Draft} {a : α} (h : x d = .ok a d') :
    x.outcome d = .ok () := by
  rw [outcome, h]

theorem outcome_of_error {x : Build α} {d d' : Draft} {e : CompileError}
    (h : x d = .error e d') : x.outcome d = .error e := by
  rw [outcome, h]

theorem outcome_bind {x : Build α} {f : α → Build β} {d : Draft}
    {r r' : Except CompileError Unit} (hx : x.outcome d = r)
    (hf : ∀ a d', x d = .ok a d' → (f a).outcome d' = r') :
    (x >>= f).outcome d = r >>= fun _ => r' := by
  subst hx
  cases h : x d with
  | ok a d' =>
      rw [outcome_of_ok h, outcome, bind_of_ok h]
      exact hf a d' h
  | error e d' =>
      rw [outcome_of_error h, outcome_of_error (bind_of_error h)]
      rfl

theorem Yields.bind {x : Build α} {f : α → Build β} {r r' : Except CompileError Unit}
    (hx : Yields x r) (hf : ∀ a, Yields (f a) r') : Yields (x >>= f) (r >>= fun _ => r') :=
  fun d => outcome_bind (hx d) fun a d' _ => hf a d'

/-- What cannot fail does not count. -/
theorem Yields.bind_ok {x : Build α} {f : α → Build β} {r : Except CompileError Unit}
    (hx : Yields x r) (hf : ∀ a, Yields (f a) (.ok ())) : Yields (x >>= f) r := by
  intro d
  rw [hx.bind hf d]
  cases r <;> rfl

theorem Yields.ok_bind {x : Build α} {f : α → Build β} {r : Except CompileError Unit}
    (hx : Yields x (.ok ())) (hf : ∀ a, Yields (f a) r) : Yields (x >>= f) r :=
  hx.bind hf

theorem yields_of_ok {x : Build α} (h : ∀ d, ∃ a d', x d = .ok a d') : Yields x (.ok ()) := by
  intro d
  obtain ⟨a, d', hok⟩ := h d
  exact outcome_of_ok hok

theorem yields_pure (a : α) : Yields (pure a : Build α) (.ok ()) :=
  fun _ => rfl

theorem yields_throw (e : CompileError) : Yields (throw e : Build α) (.error e) :=
  fun _ => rfl

theorem yields_ofExcept (r : Except CompileError α) :
    Yields (ofExcept r : Build α) (r.map fun _ => ()) := by
  cases r with
  | error e => exact yields_throw e
  | ok a => exact yields_pure a

theorem yields_emit (e : CompileEvent) : Yields (emit e) (.ok ()) :=
  fun _ => rfl

theorem yields_share (r : Recipe) (s : State Target) : Yields (share r s) (.ok ()) := by
  refine yields_of_ok fun d => ?_
  cases h : d.recipes[r]? with
  | some id => exact ⟨_, _, share_of_some h⟩
  | none => exact ⟨_, _, share_of_none h⟩

theorem yields_enter (entry : StateId) (next : Target) :
    Yields (enter entry next) (.ok ()) := by
  refine (yields_share _ _).ok_bind fun back => Yields.ok_bind (fun _ => rfl) fun d => ?_
  cases d.state? entry with
  | none => exact yields_pure back
  | some s => exact yields_share _ _

theorem yields_place (l : Label) (id : StateId) : Yields (place l id) (.ok ()) := by
  refine yields_of_ok fun d => ?_
  rw [place, bind_of_ok (get_apply d)]
  cases (d.place? l).isSome
  · exact ⟨_, _, rfl⟩
  · exact ⟨_, _, rfl⟩

end Build

/-! ## Sites

What a site finds depends on the indices that its sequence declares. -/

namespace Site

/-- The sequence of the site declares the indices `declared`, and what follows the site is one of
them and not the site itself. -/
structure Fits (s : Site) (declared : List Index) : Prop where
  lines : s.lines.map (·.index) = declared
  following : ∀ i, s.following = some i → i ∈ declared ∧ i ≠ s.index

variable {s : Site} {declared : List Index}

theorem branch_of_mem (h : s.Fits declared) {target : Index} (ht : target ∈ declared) :
    ∃ t, s.branch target = .ok t := by
  rw [← h.lines] at ht
  obtain ⟨l, hl, hidx⟩ := List.mem_map.mp ht
  obtain ⟨line, hline⟩ := Option.isSome_iff_exists.mp
    (List.find?_isSome (p := (·.index = target)).mpr ⟨l, hl, by simpa using hidx⟩)
  exact ⟨.label line.label, by rw [branch, hline]⟩

theorem branch_of_not_mem (h : s.Fits declared) {target : Index} (ht : target ∉ declared) :
    s.branch target = .error (.undeclaredNext s.index target) := by
  rw [branch]
  cases hfind : s.lines.find? (·.index = target) with
  | none => rfl
  | some line =>
      refine absurd ?_ ht
      rw [← h.lines]
      exact List.mem_map.mpr
        ⟨line, List.mem_of_find?_eq_some hfind, by simpa using List.find?_some hfind⟩

/-- What follows by position can always be gone on at. -/
theorem continuation_of_none (h : s.Fits declared) (hn : s.line.instruction.next = none) :
    ∃ t, s.continuation = .ok t := by
  rw [continuation, hn]
  simp only [Option.isSome_none, Bool.and_false, Bool.false_eq_true, if_false]
  cases hf : s.following with
  | none => exact ⟨_, rfl⟩
  | some target =>
      obtain ⟨hmem, hne⟩ := h.following target hf
      obtain ⟨t, ht⟩ := branch_of_mem h hmem
      exact ⟨t, by simp [hne, ht]⟩

/-- Outside of a group a continuation is tested against the indices that are declared. -/
theorem continuation_outcome (h : s.Fits declared) (hg : s.inGroup = false) :
    s.continuation.map (fun _ => ()) =
      Instruction.checkNext declared s.index s.line.instruction.next := by
  cases hn : s.line.instruction.next with
  | none =>
      obtain ⟨t, ht⟩ := continuation_of_none h hn
      rw [ht]
      rfl
  | some target =>
      rw [continuation, hg, hn, Instruction.checkNext]
      show Except.map _ (if target = s.index then _ else s.branch target) = _
      by_cases heq : target = s.index
      · rw [if_pos heq, if_pos heq]
        rfl
      · rw [if_neg heq, if_neg heq]
        by_cases hm : target ∈ declared
        · obtain ⟨t, ht⟩ := branch_of_mem h hm
          rw [if_pos hm, ht]
          rfl
        · rw [if_neg hm, branch_of_not_mem h hm]
          rfl

/-- In a group there may be none. -/
theorem continuation_outcome_inGroup (h : s.Fits declared) (hg : s.inGroup = true) :
    s.continuation.map (fun _ => ()) =
      Instruction.checkNoNext s.index s.line.instruction := by
  rw [Instruction.checkNoNext]
  cases hn : s.line.instruction.next with
  | none =>
      obtain ⟨t, ht⟩ := continuation_of_none h hn
      rw [ht]
      rfl
  | some target =>
      rw [continuation, hg, hn]
      rfl

/-- The tests of a check, in the order in which they are made. -/
theorem branches_outcome (h : s.Fits declared) (hfinal : s.requireFinal = .ok ())
    (ifMarked otherwise : Index) :
    (s.branches ifMarked otherwise).map (fun _ => ()) =
      Instruction.checkBranches declared s.index ifMarked otherwise := by
  rw [branches, hfinal, Instruction.checkBranches]
  show Except.map _ (s.branch ifMarked >>= _) = _
  by_cases hm : ifMarked ∈ declared
  · obtain ⟨marked, hmarked⟩ := branch_of_mem h hm
    rw [if_neg (not_not.mpr hm), hmarked]
    show Except.map _ (s.branch otherwise >>= _) = _
    by_cases ho : otherwise ∈ declared
    · obtain ⟨blank, hblank⟩ := branch_of_mem h ho
      rw [if_neg (not_not.mpr ho), hblank]
      show Except.map _ (if ifMarked = otherwise then _ else _) = _
      by_cases heq : ifMarked = otherwise
      · rw [if_pos heq, if_pos heq]
        rfl
      · rw [if_neg heq, if_neg heq]
        by_cases hself : s.index = ifMarked ∨ s.index = otherwise
        · rw [if_pos hself, if_pos (hself.imp Eq.symm Eq.symm)]
          rfl
        · rw [if_neg hself, if_neg fun hs => hself (hs.imp Eq.symm Eq.symm)]
          rfl
    · rw [if_pos ho, branch_of_not_mem h ho]
      rfl
  · rw [if_pos hm, branch_of_not_mem h hm]
    rfl

/-- Sites in a row that does not repeat an index at once. -/
theorem fits_of_lines {pre rest : List Line} {l : Line} {inGroup : Bool}
    {numbered : List (Index × Instruction)}
    (hlines : (pre ++ l :: rest).map (fun l => (l.index, l.instruction)) = numbered)
    (hchain : (numbered.map Prod.fst).IsChain (· ≠ ·)) :
    Fits { line := l, following := rest.head?.map (·.index), lines := pre ++ l :: rest, inGroup }
      (numbered.map Prod.fst) := by
  subst hlines
  refine ⟨by simp [Function.comp_def], ?_⟩
  intro i hi
  cases rest with
  | nil => simp at hi
  | cons r rest =>
      simp only [List.head?_cons, Option.map_some, Option.some.injEq] at hi
      subst hi
      refine ⟨by simp, ?_⟩
      simp only [List.map_append, List.map_cons] at hchain
      exact (List.isChain_cons_cons.mp (List.isChain_append.mp hchain).2.1).1.symm

end Site

theorem int64_ofNat_ne_succ (n : Nat) : Int64.ofNat n ≠ Int64.ofNat (n + 1) := by
  intro h
  have hbits := congrArg (BitVec.toNat ∘ Int64.toBitVec) h
  simp only [Function.comp, Int64.toBitVec_ofNat', BitVec.toNat_ofNat] at hbits
  omega

theorem numberMembers_isChain (members : List Instruction) :
    ((numberMembers members).map Prod.fst).IsChain (· ≠ ·) := by
  rw [List.isChain_iff_getElem]
  intro i hi
  simp only [numberMembers, List.map_map, List.getElem_map, List.getElem_zipIdx, Function.comp]
  rw [show 0 + (i + 1) + 1 = 0 + i + 1 + 1 by omega]
  exact int64_ofNat_ne_succ _

theorem Visible.callee_outcome (visible : Visible) (name : Key) :
    (visible.callee name).map (fun _ => ()) =
      Instruction.checkCallee (visible.map Prod.fst) name := by
  rw [callee, Instruction.checkCallee]
  cases name.isName with
  | false => rfl
  | true =>
      simp only [Bool.not_true, Bool.false_eq_true, if_false]
      cases hl : visible.lookup name with
      | none =>
          have hn : name ∉ visible.map Prod.fst := by
            intro hm
            obtain ⟨p, hp, rfl⟩ := List.mem_map.mp hm
            have := List.lookup_eq_none_iff.mp hl p hp
            simp at this
          rw [if_neg hn]
          rfl
      | some entry =>
          obtain ⟨l₁, l₂, rfl, -⟩ := List.lookup_eq_some_iff.mp hl
          rw [if_pos (by simp)]
          rfl

namespace Build

open Draft

/-! ## Sequences -/

section Lines

variable {make : Site → Build StateId} {inGroup : Bool} {lines : List Line}

/-- If each site yields its test, so does the row of all sites. -/
theorem yields_eachLine {test : Index → Instruction → Except CompileError Unit}
    (hmake : ∀ pre l rest, lines = pre ++ l :: rest →
      Yields (make { line := l, following := rest.head?.map (·.index), lines, inGroup })
        (test l.index l.instruction))
    (pre : List Line) {rest : List Line} (hlines : lines = pre ++ rest) :
    Yields (eachLine make inGroup lines rest)
      ((rest.map fun l => (l.index, l.instruction)).forM fun (index, i) => test index i) := by
  induction rest generalizing pre with
  | nil => exact yields_pure ()
  | cons l rest ih =>
      show Yields (line make inGroup lines l rest >>= _) (test l.index l.instruction >>= _)
      refine Yields.bind ?_ fun _ => ih (pre ++ [l]) (by simp [hlines])
      exact (hmake pre l rest hlines).bind_ok fun id => yields_place l.label id

/-- A sequence yields the tests of its instructions. Where its lines succeed, the label of the first
is placed, so that the sequence itself cannot fail. -/
theorem yields_sequence (hframes : ∀ s, Frames (make s))
    {test : Index → Instruction → Except CompileError Unit}
    {numbered : List (Index × Instruction)} (hne : numbered ≠ [])
    (hmake : ∀ pre l rest, (pre ++ l :: rest : List Line).map (fun l => (l.index, l.instruction)) =
        numbered →
      Yields (make
          { line := l
            following := rest.head?.map (·.index)
            lines := pre ++ l :: rest
            inGroup })
        (test l.index l.instruction)) :
    Yields (sequence make inGroup numbered)
      (numbered.forM fun (index, i) => test index i) := by
  intro d
  obtain ⟨lines, hrun, hlabels, hnumbered⟩ := labelled_apply numbered d
  rw [outcome, sequence, bind_of_ok hrun]
  cases lines with
  | nil => exact absurd hnumbered.symm hne
  | cons first rest =>
      obtain ⟨hnodup, hu⟩ := fresh_labels hlabels
      have heach : Yields (eachLine make inGroup (first :: rest) (first :: rest))
          (numbered.forM fun (index, i) => test index i) := by
        rw [← hnumbered]
        refine yields_eachLine ?_ [] rfl
        intro pre l rest' hl
        rw [hl]
        exact hmake pre l rest' (hl ▸ hnumbered)
      have hend : ∀ u d', eachLine make inGroup (first :: rest) (first :: rest)
          (d.handOut numbered.length) = .ok u d' →
          outcome (do
            let entry ← placeOf first.label
            emit (.scopeBuilt first.index (first :: rest).length inGroup entry)
            return entry) d' = .ok () := by
        intro u d' h
        obtain ⟨id, hid⟩ := eachLine_places hframes hnodup hu h first List.mem_cons_self
        rw [outcome, bind_of_ok (placeOf_apply hid)]
        rfl
      refine (outcome_bind (heach (d.handOut numbered.length)) hend).trans ?_
      cases numbered.forM fun (index, i) => test index i <;> rfl

end Lines

/-! ## Instructions -/

/-- The outcome for the instruction at a site, by its command; `group` is that for its members. -/
def siteOutcome (visible : Visible) (s : Site)
    (group : List Instruction → Except CompileError Unit) : Except CompileError Unit :=
  match s.line.instruction.command with
  | .act _ => s.continuation.map fun _ => ()
  | .stop => s.requireFinal
  | .check ifMarked otherwise => (s.branches ifMarked otherwise).map fun _ => ()
  | .call name => do
    Instruction.checkCallee (visible.map Prod.fst) name
    s.continuation.map fun _ => ()
  | .group members => group members

section Instructions

variable {visible : Visible} {s : Site} {declared : List Index}

theorem yields_instructionWith {group : Site → List Instruction → Build StateId}
    {test : List Instruction → Except CompileError Unit}
    (hgroup : ∀ members, Yields (group s members) (test members)) :
    Yields (instructionWith group visible s) (siteOutcome visible s test) := by
  refine (yields_emit _).ok_bind fun _ => ?_
  rw [siteOutcome]
  cases s.line.instruction.command with
  | act action => exact (yields_ofExcept s.continuation).bind_ok fun _ => yields_share _ _
  | stop =>
      refine Yields.bind_ok ?_ fun _ => yields_pure _
      cases s.requireFinal with
      | ok u => exact yields_pure u
      | error e => exact yields_throw e
  | check ifMarked otherwise =>
      exact (yields_ofExcept (s.branches ifMarked otherwise)).bind_ok fun _ => yields_share _ _
  | call name =>
      show Yields _ (Instruction.checkCallee (visible.map Prod.fst) name >>= _)
      rw [← visible.callee_outcome name]
      exact (yields_ofExcept _).bind fun entry =>
        (yields_ofExcept s.continuation).bind_ok fun next => yields_enter entry next
  | group members => exact hgroup members

/-- The members of a group are tested by `checkMember`. -/
theorem yields_member (h : s.Fits declared) (hg : s.inGroup = true) :
    Yields (member visible s)
      (s.line.instruction.checkMember (visible.map Prod.fst) s.index) := by
  have hm : Yields (member visible s)
      (siteOutcome visible s fun _ => .error (.nestedGroup s.index)) :=
    yields_instructionWith fun _ => yields_throw _
  have hfinal : s.requireFinal =
      if s.line.instruction.next.isSome then .error (.refusedNext s.index s.kind)
      else .error (.refusedInGroup s.index s.kind) := by
    rw [Site.requireFinal, hg]
    rfl
  rw [siteOutcome, s.continuation_outcome_inGroup h hg] at hm
  rw [Instruction.checkMember]
  cases hc : s.line.instruction.command with
  | act action =>
      rw [hc] at hm
      exact hm
  | stop =>
      rw [hc] at hm
      exact hfinal ▸ hm
  | check ifMarked otherwise =>
      -- the test for a continuation comes before the branches, and fails in either case
      rw [hc] at hm
      simp only [Site.branches, hfinal] at hm
      cases hn : s.line.instruction.next.isSome <;> rw [hn] at hm <;> exact hm
  | call name =>
      rw [hc] at hm
      exact hm
  | group members =>
      rw [hc] at hm
      exact hm

theorem yields_group (members : List Instruction) :
    Yields (group visible s members) (do
      Instruction.checkMembers (visible.map Prod.fst) s.index members
      s.continuation.map fun _ => ()) := by
  rw [group, Instruction.checkMembers]
  cases hempty : members.isEmpty with
  | true => exact yields_throw _
  | false =>
      cases hnested : members.any (·.command.isGroup) with
      | true => exact yields_throw _
      | false =>
          have hne : numberMembers members ≠ [] := by
            intro hnil
            simp [numberMembers] at hnil
            simp [hnil] at hempty
          refine (yields_sequence (frames_member visible) hne ?_).bind fun entry =>
            (yields_emit _).ok_bind fun _ =>
              (yields_ofExcept s.continuation).bind_ok fun next => yields_enter entry next
          intro pre l rest hlines
          exact yields_member (Site.fits_of_lines hlines (numberMembers_isChain members)) rfl

/-- The instructions of a scope are tested by `check`. -/
theorem yields_instruction (h : s.Fits declared) (hg : s.inGroup = false) :
    Yields (instruction visible s)
      (s.line.instruction.check (visible.map Prod.fst) declared s.index) := by
  have hi : Yields (instruction visible s) (siteOutcome visible s fun members => do
      Instruction.checkMembers (visible.map Prod.fst) s.index members
      s.continuation.map fun _ => ()) :=
    yields_instructionWith yields_group
  have hfinal : s.requireFinal =
      if s.line.instruction.next.isSome then .error (.refusedNext s.index s.kind)
      else .ok () := by
    rw [Site.requireFinal, hg]
    rfl
  have hkind : s.kind = s.line.instruction.command.kind := rfl
  rw [siteOutcome, s.continuation_outcome h hg] at hi
  rw [Instruction.check]
  cases hc : s.line.instruction.command with
  | act action =>
      rw [hc] at hi
      exact hi
  | stop =>
      rw [hc] at hi hkind
      rw [hkind] at hfinal
      exact hfinal ▸ hi
  | check ifMarked otherwise =>
      rw [hc] at hi hkind
      rw [hkind] at hfinal
      cases hn : s.line.instruction.next.isSome with
      | true =>
          rw [hn] at hfinal
          simp only [Site.branches, hfinal] at hi
          exact hi
      | false =>
          rw [hn] at hfinal
          simp only [s.branches_outcome h hfinal] at hi
          exact hi
  | call name =>
      rw [hc] at hi
      exact hi
  | group members =>
      rw [hc] at hi
      exact hi

end Instructions

/-! ## Scopes -/

/-- If the bodies of a scope yield their tests, so does the scope. -/
theorem yields_scope {s : Scope}
    (hbodies : ∀ (visible : Visible) (labels : List Label),
      labels.length = s.subroutines.length →
      Yields (bodies s visible labels) (s.checkBodies (visible.map Prod.fst)))
    (visible : Visible) : Yields (scope s visible) (s.check (visible.map Prod.fst)) := by
  intro d
  rw [scope, scopeWith, Scope.outline_eq, Scope.check, Scope.checkWith]
  cases hkeys : s.checkKeys [] with
  | error e => rfl
  | ok u =>
      cases hempty : s.numbered.isEmpty with
      | true => rfl
      | false =>
          obtain ⟨entries, hrun, hnames, -⟩ := declare_apply visible s.subroutines d
          have hvisible : (entries ++ visible).map Prod.fst =
              s.subroutines.map Prod.fst ++ visible.map Prod.fst := by
            rw [List.map_append, hnames]
          have hne : s.numbered ≠ [] := by
            intro hnil
            rw [hnil] at hempty
            cases hempty
          have hchain := (Scope.nodup_numbered_of_checkKeys hkeys).isChain
          have hseq : Yields (sequence (instruction (entries ++ visible)) false s.numbered)
              (s.numbered.forM fun (index, i) =>
                i.check ((entries ++ visible).map Prod.fst) (s.numbered.map Prod.fst) index) := by
            refine yields_sequence (frames_instruction _) hne ?_
            intro pre l rest hlines
            exact yields_instruction (Site.fits_of_lines hlines hchain) rfl
          have hall := (hbodies (entries ++ visible) (d.newLabels s.subroutines.length)
            (by simp [newLabels])).bind fun _ => hseq
          rw [hvisible] at hall
          have hafter := hall (d.addEntries s.subroutines.length)
          rw [outcome, bind_of_ok (show (ofExcept _ : Build Outline) d = .ok _ d from rfl)]
          simp only
          rw [bind_of_ok hrun]
          exact hafter

theorem yields_bodies (s : Scope) : ∀ (visible : Visible) (labels : List Label),
    labels.length = s.subroutines.length →
    Yields (bodies s visible labels) (s.checkBodies (visible.map Prod.fst)) := by
  induction s with
  | nil => exact fun _ _ _ => yields_pure ()
  | instr key i rest ih => exact ih
  | sub name body rest ihbody ihrest =>
      intro visible labels hlen
      cases labels with
      | nil => simp [Scope.subroutines] at hlen
      | cons label labels =>
          refine (yields_scope ihbody visible).bind fun entry => ?_
          refine (yields_place label entry).ok_bind fun _ => (yields_emit _).ok_bind fun _ => ?_
          exact ihrest visible labels (by simpa [Scope.subroutines] using hlen)

/-- Compiling a scope fails exactly as checking it does. -/
theorem scope_outcome (s : Scope) (visible : Visible) (d : Draft) :
    (scope s visible).outcome d = s.check (visible.map Prod.fst) :=
  yields_scope (yields_bodies s) visible d

end Build

/-! ## Checking never asks for a place -/

section Unplaced

variable {α β : Type}

theorem bind_ne_unplaced {x : Except CompileError α} {f : α → Except CompileError β}
    (hx : x ≠ .error .unplacedLabel) (hf : ∀ a, f a ≠ .error .unplacedLabel) :
    (x >>= f) ≠ .error .unplacedLabel := by
  cases x with
  | error e =>
      intro h
      cases h
      exact hx rfl
  | ok a => exact hf a

theorem forM_ne_unplaced {f : α → Except CompileError Unit}
    (hf : ∀ a, f a ≠ .error .unplacedLabel) (l : List α) :
    l.forM f ≠ .error .unplacedLabel := by
  induction l with
  | nil => exact nofun
  | cons a l ih => exact bind_ne_unplaced (hf a) fun _ => ih

end Unplaced

namespace Instruction

theorem checkNext_ne_unplaced (declared : List Index) (index : Index) (next : Option Index) :
    checkNext declared index next ≠ .error .unplacedLabel := by
  unfold checkNext
  repeat' split
  all_goals simp

theorem checkCallee_ne_unplaced (visible : List Key) (name : Key) :
    checkCallee visible name ≠ .error .unplacedLabel := by
  unfold checkCallee
  repeat' split
  all_goals simp

theorem checkNoNext_ne_unplaced (index : Index) (i : Instruction) :
    checkNoNext index i ≠ .error .unplacedLabel := by
  unfold checkNoNext
  split <;> simp

theorem checkMember_ne_unplaced (visible : List Key) (index : Index) (i : Instruction) :
    i.checkMember visible index ≠ .error .unplacedLabel := by
  unfold checkMember
  split
  · exact checkNoNext_ne_unplaced index i
  · exact bind_ne_unplaced (checkCallee_ne_unplaced _ _) fun _ => checkNoNext_ne_unplaced index i
  · split <;> simp
  · split <;> simp
  · simp

theorem checkMembers_ne_unplaced (visible : List Key) (index : Index)
    (members : List Instruction) :
    checkMembers visible index members ≠ .error .unplacedLabel := by
  unfold checkMembers
  split
  · simp
  · split
    · simp
    · exact forM_ne_unplaced (fun (k, m) => checkMember_ne_unplaced visible k m) _

theorem check_ne_unplaced (visible : List Key) (declared : List Index) (index : Index)
    (i : Instruction) : i.check visible declared index ≠ .error .unplacedLabel := by
  unfold check
  split
  · exact checkNext_ne_unplaced declared index i.next
  · split <;> simp
  · split
    · simp
    · unfold checkBranches
      repeat' split
      all_goals simp
  · exact bind_ne_unplaced (checkCallee_ne_unplaced _ _) fun _ => checkNext_ne_unplaced _ _ _
  · exact bind_ne_unplaced (checkMembers_ne_unplaced _ _ _) fun _ => checkNext_ne_unplaced _ _ _

end Instruction

namespace Scope

theorem checkKeys_ne_unplaced (s : Scope) (seen : List Index) :
    s.checkKeys seen ≠ .error .unplacedLabel := by
  induction s generalizing seen with
  | nil => exact nofun
  | instr key i rest ih =>
      unfold checkKeys
      split
      · split
        · simp
        · exact ih _
      · unfold Key.malformed
        repeat' split
        all_goals simp
  | sub key body rest _ ih =>
      unfold checkKeys
      split
      · simp
      · split
        · exact ih _
        · unfold Key.malformed
          split <;> simp

theorem checkWith_ne_unplaced {bodies : List Key → Except CompileError Unit}
    (hbodies : ∀ visible, bodies visible ≠ .error .unplacedLabel) (s : Scope)
    (visible : List Key) : checkWith bodies s visible ≠ .error .unplacedLabel := by
  refine bind_ne_unplaced (checkKeys_ne_unplaced s []) fun _ => ?_
  cases s.numbered.isEmpty with
  | true => exact nofun
  | false =>
      exact bind_ne_unplaced (hbodies _) fun _ =>
        forM_ne_unplaced (fun (index, i) => i.check_ne_unplaced _ _ index) _

theorem check_ne_unplaced (s : Scope) (visible : List Key) :
    s.check visible ≠ .error .unplacedLabel := by
  refine checkWith_ne_unplaced ?_ s visible
  induction s with
  | nil => exact nofun
  | instr key i rest ih => exact ih
  | sub name body rest ihbody ihrest =>
      intro visible
      exact bind_ne_unplaced (checkWith_ne_unplaced ihbody body visible) fun _ => ihrest visible

end Scope

end TapeMachine
