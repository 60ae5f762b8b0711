import TapeMachine.Proofs.Rules

/-!
# What a group refuses

The members of a group act or call, and leave their continuations out. A member that
stops, branches or gives a continuation is unfit. If nothing that is looked at before
such a member breaks a rule, the program is rejected for it, and the cause names its
place in the group and its command.

As a rule the cause is that the member is refused in a group. A stop or a check that
gives a continuation breaks two rules at once, and of these the other one is reported,
that such a command takes no continuation anywhere.
-/

namespace TapeMachine

/-- Tests that are made one after the other fail as the first that fails. -/
theorem forM_eq_error {α : Type} {test : α → Except CompileError Unit} {l before after : List α}
    {a : α} {e : CompileError} (hl : l = before ++ a :: after)
    (hbefore : ∀ b ∈ before, test b = .ok ()) (ha : test a = .error e) :
    l.forM test = .error e := by
  subst hl
  induction before with
  | nil =>
      show (test a >>= fun _ => after.forM test) = .error e
      rw [ha]
      rfl
  | cons b before ih =>
      show (test b >>= fun _ => (before ++ a :: after).forM test) = .error e
      rw [hbefore b List.mem_cons_self]
      exact ih fun b' hb' => hbefore b' (List.mem_cons_of_mem b hb')

/-! ## Members -/

/-- The command stops or branches, and takes no continuation. -/
def Command.isFinal : Command → Bool
  | stop => true
  | check _ _ => true
  | _ => false

theorem numberMembers_append (before : List Instruction) (m : Instruction)
    (after : List Instruction) : ∃ rest,
      numberMembers (before ++ m :: after) =
        numberMembers before ++ (Int64.ofNat (before.length + 1), m) :: rest := by
  have hsplit : (before ++ m :: after).zipIdx =
      before.zipIdx ++ (m, before.length) :: after.zipIdx (before.length + 1) := by
    rw [List.zipIdx_append, List.zipIdx_cons, Nat.zero_add]
  refine ⟨(after.zipIdx (before.length + 1)).map fun p => (Int64.ofNat (p.2 + 1), p.1), ?_⟩
  rw [numberMembers, hsplit, List.map_append]
  rfl

namespace Instruction

/-- A group does not admit the instruction: it stops, branches or gives a continuation. -/
def Unfit (i : Instruction) : Prop :=
  i.command.isFinal = true ∨ i.next.isSome = true

/-- If the instruction is a call, then of a name that can be called. -/
def CallsVisible (visible : List Key) (i : Instruction) : Prop :=
  ∀ name : Key, i.command = .call name → name.isName = true ∧ name ∈ visible

/-- Why an unfit instruction is refused, with its place in the group. -/
def refusal (index : Index) (i : Instruction) : CompileError :=
  if i.command.isFinal = true ∧ i.next.isSome = true then .refusedNext index i.kind
  else .refusedInGroup index i.kind

variable {visible : List Key} {m : Instruction}

theorem refusal_eq_refusedInGroup_iff {index : Index} :
    m.refusal index = .refusedInGroup index m.kind ↔
      ¬ (m.command.isFinal = true ∧ m.next.isSome = true) := by
  unfold refusal
  split <;> simp_all

theorem checkCallee_eq_ok {name : Key} (hname : name.isName = true) (hmem : name ∈ visible) :
    checkCallee visible name = .ok () := by
  simp [checkCallee, hname, hmem]

theorem checkMember_of_fit (hgroup : m.command.isGroup = false) (hfit : ¬ m.Unfit)
    (hcalls : m.CallsVisible visible) (index : Index) : m.checkMember visible index = .ok () := by
  obtain ⟨command, next⟩ := m
  obtain ⟨hfinal, hnext⟩ := not_or.mp hfit
  have hno : checkNoNext index ⟨command, next⟩ = .ok () := if_neg hnext
  cases command with
  | act action => exact hno
  | call name =>
      obtain ⟨hname, hmem⟩ := hcalls name rfl
      exact bind_eq_ok_iff.mpr ⟨checkCallee_eq_ok hname hmem, hno⟩
  | stop => exact absurd rfl hfinal
  | check _ _ => exact absurd rfl hfinal
  | group _ => cases hgroup

theorem checkMember_of_unfit (hgroup : m.command.isGroup = false) (hunfit : m.Unfit)
    (hcalls : m.CallsVisible visible) (index : Index) :
    m.checkMember visible index = .error (m.refusal index) := by
  obtain ⟨command, next⟩ := m
  cases command with
  | act action =>
      have hnext : next.isSome = true := hunfit.resolve_left nofun
      exact if_pos hnext
  | call name =>
      have hnext : next.isSome = true := hunfit.resolve_left nofun
      obtain ⟨hname, hmem⟩ := hcalls name rfl
      show (checkCallee visible name >>= fun _ => checkNoNext index ⟨.call name, next⟩) = _
      rw [checkCallee_eq_ok hname hmem]
      exact if_pos hnext
  | stop => cases next <;> rfl
  | check _ _ => cases next <;> rfl
  | group _ => cases hgroup

theorem checkMembers_of_unfit {before after : List Instruction}
    (hgroups : ∀ i ∈ before ++ m :: after, i.command.isGroup = false)
    (hbefore : ∀ i ∈ before, ¬ i.Unfit ∧ i.CallsVisible visible) (hunfit : m.Unfit)
    (hcalls : m.CallsVisible visible) (index : Index) :
    checkMembers visible index (before ++ m :: after) =
      .error (m.refusal (Int64.ofNat (before.length + 1))) := by
  have hany : (before ++ m :: after).any (·.command.isGroup) = false := by
    rw [List.any_eq_false]
    exact fun i hi => Bool.eq_false_iff.mp (hgroups i hi)
  obtain ⟨rest, hrest⟩ := numberMembers_append before m after
  rw [checkMembers, if_neg (by simp), hany, if_neg Bool.false_ne_true]
  refine forM_eq_error hrest ?_ (checkMember_of_unfit (hgroups m (by simp)) hunfit hcalls _)
  intro p hp
  have hmem : p.2 ∈ before := by
    rw [← map_snd_numberMembers before]
    exact List.mem_map_of_mem hp
  obtain ⟨hfit, hcallee⟩ := hbefore p.2 hmem
  exact checkMember_of_fit (hgroups p.2 (List.mem_append_left _ hmem)) hfit hcallee p.1

end Instruction

/-! ## Scopes -/

namespace Scope

/-- The names that can be called in a scope if those of `visible` can be called around it. -/
def inSight (s : Scope) (visible : List Key) : List Key :=
  s.subroutines.map Prod.fst ++ visible

/-- The first that breaks a rule is the member `m` of a group, at the place `k` of it, and the
member is unfit. What is looked at before it is in order: the keys of the scope, the bodies of its
subroutines, the instructions before the group and the members before `m`. If the group stands in
one of the bodies, then the bodies before that one. -/
inductive FirstUnfit (k : Nat) (m : Instruction) : Scope → List Key → Prop
  | member {s : Scope} {visible : List Key} {index : Index} {next : Option Index}
      {earlier later : List (Index × Instruction)} {before after : List Instruction}
      (keys : s.checkKeys [] = .ok ())
      (bodies : ∀ p ∈ s.subroutines, p.2.check (s.inSight visible) = .ok ())
      (numbered : s.numbered = earlier ++ (index, ⟨.group (before ++ m :: after), next⟩) :: later)
      (instructions : ∀ p ∈ earlier,
        p.2.check (s.inSight visible) (s.numbered.map Prod.fst) p.1 = .ok ())
      (groups : ∀ i ∈ before ++ m :: after, i.command.isGroup = false)
      (members : ∀ i ∈ before, ¬ i.Unfit ∧ i.CallsVisible (s.inSight visible))
      (place : k = before.length + 1)
      (unfit : m.Unfit)
      (calls : m.CallsVisible (s.inSight visible)) :
      FirstUnfit k m s visible
  | body {s body : Scope} {visible : List Key} {name : Key} {earlier later : List (Key × Scope)}
      (keys : s.checkKeys [] = .ok ())
      (numbered : s.numbered ≠ [])
      (subroutines : s.subroutines = earlier ++ (name, body) :: later)
      (bodies : ∀ p ∈ earlier, p.2.check (s.inSight visible) = .ok ())
      (inside : FirstUnfit k m body (s.inSight visible)) :
      FirstUnfit k m s visible

theorem checkBodies_eq_forM (s : Scope) (visible : List Key) :
    s.checkBodies visible = s.subroutines.forM fun p => p.2.check visible := by
  induction s with
  | nil => rfl
  | instr _ _ _ ih => exact ih
  | sub name body rest _ ih =>
      rw [checkBodies, ih]
      rfl

theorem check_of_keys {s : Scope} (hkeys : s.checkKeys [] = .ok ()) (hnumbered : s.numbered ≠ [])
    (visible : List Key) :
    s.check visible =
      (do
        s.subroutines.forM fun p => p.2.check (s.inSight visible)
        s.numbered.forM fun p => p.2.check (s.inSight visible) (s.numbered.map Prod.fst) p.1) := by
  have hempty : s.numbered.isEmpty = false := List.isEmpty_eq_false_iff.mpr hnumbered
  rw [check, checkWith, hkeys, ← checkBodies_eq_forM, hempty]
  rfl

/-- Whatever stands behind the member, the scope is rejected for it. -/
theorem FirstUnfit.check {k : Nat} {m : Instruction} {s : Scope} {visible : List Key}
    (h : FirstUnfit k m s visible) :
    s.check visible = .error (m.refusal (Int64.ofNat k)) := by
  induction h with
  | @member s visible index next earlier later before after keys bodies numbered instructions
      groups members place unfit calls =>
      have hne : s.numbered ≠ [] := by
        rw [numbered]
        simp
      have hgroup : Instruction.check (s.inSight visible) (s.numbered.map Prod.fst) index
          ⟨.group (before ++ m :: after), next⟩ = .error (m.refusal (Int64.ofNat k)) := by
        show (Instruction.checkMembers (s.inSight visible) index (before ++ m :: after) >>=
          fun _ => _) = _
        rw [Instruction.checkMembers_of_unfit groups members unfit calls, place]
        rfl
      rw [check_of_keys keys hne, (forM_eq_ok_iff _).mpr bodies]
      exact forM_eq_error numbered instructions hgroup
  | body keys numbered subroutines bodies inside ih =>
      rw [check_of_keys keys numbered, forM_eq_error subroutines bodies ih]
      rfl

/-! ## Programs -/

/-- A program that goes wrong first at an unfit member of a group is rejected for it. The cause is
that the member is refused in a group, unless it is a stop or a check with a continuation, which is
refused for the continuation. -/
theorem compile_refuses_unfit {program : Scope} {k : Nat} {m : Instruction}
    (h : FirstUnfit k m program []) :
    (program.compile = .error (.refusedInGroup (Int64.ofNat k) m.kind) ↔
      ¬ (m.command.isFinal = true ∧ m.next.isSome = true)) ∧
    (m.command.isFinal = true → m.next.isSome = true →
      program.compile = .error (.refusedNext (Int64.ofNat k) m.kind)) := by
  have hcompile : program.compile = .error (m.refusal (Int64.ofNat k)) :=
    compile_eq_error_iff.mpr h.check
  rw [hcompile]
  refine ⟨?_, fun hfinal hnext => ?_⟩
  · rw [Except.error.injEq]
    exact Instruction.refusal_eq_refusedInGroup_iff
  · rw [Instruction.refusal, if_pos ⟨hfinal, hnext⟩]

/-- A move and a group, in which a call of `f` is to go on at the first member. -/
def relapse : Scope :=
  .instr "5" { command := .act (.move .left) }
    (.instr "7" { command := .group [{ command := .act (.write .mark) },
      { command := .call "f", next := some 1 }, { command := .stop }] } .nil)

/-- The body of `f` is refused for the call, though `f` is in sight there. The stop in the group is
not looked at, and neither is what the program does with `f`. -/
theorem relapse_refused :
    let program : Scope :=
      .instr "1" { command := .call "f", next := some 9 } (.sub "f" relapse .nil)
    FirstUnfit 2 { command := .call "f", next := some 1 } program [] ∧
      program.compile = .error (.refusedInGroup 2 .call) := by
  intro program
  have hbody : FirstUnfit 2 { command := .call "f", next := some 1 } relapse ["f"] := by
    have hnumbered : relapse.numbered =
        [(5, { command := .act (.move .left) })] ++
          (7, ⟨.group ([{ command := .act (.write .mark) }] ++
            { command := .call "f", next := some 1 } :: [{ command := .stop }]), none⟩) :: [] := by
      decide +kernel
    refine .member (by decide +kernel) nofun hnumbered (by decide +kernel) (by decide) ?_ rfl
      (Or.inr rfl) ?_
    · simp [Instruction.Unfit, Instruction.CallsVisible, Command.isFinal]
    · rintro name ⟨⟩
      decide +kernel
  have hsubroutines : program.subroutines = [] ++ ("f", relapse) :: [] := rfl
  have hfirst : FirstUnfit 2 { command := .call "f", next := some 1 } program [] :=
    .body (by decide +kernel) (by decide +kernel) hsubroutines nofun hbody
  exact ⟨hfirst, (compile_refuses_unfit hfirst).1.mpr (by decide)⟩

/-- A group that marks and stops, where the stop gives a continuation. -/
def overrun : Scope :=
  .instr "1" { command := .group [{ command := .act (.write .mark) },
    { command := .stop, next := some 1 }] } .nil

/-- The stop is refused for its continuation, and not for being in a group. -/
theorem overrun_refused :
    FirstUnfit 2 { command := .stop, next := some 1 } overrun [] ∧
      overrun.compile = .error (.refusedNext 2 .stop) ∧
      overrun.compile ≠ .error (.refusedInGroup 2 .stop) := by
  have hnumbered : overrun.numbered =
      [] ++ (1, ⟨.group ([{ command := .act (.write .mark) }] ++
        { command := .stop, next := some 1 } :: []), none⟩) :: [] := by
    decide +kernel
  refine ⟨.member (by decide +kernel) nofun hnumbered nofun (by decide) ?_ rfl (Or.inl rfl) nofun,
    by decide +kernel, by decide +kernel⟩
  simp [Instruction.Unfit, Instruction.CallsVisible, Command.isFinal]

end Scope

end TapeMachine
