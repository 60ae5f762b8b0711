import TapeMachine.Proofs.Compiled

/-!
# What the rules depend on

A program that keeps the rules keeps each of them. The rules are taken apart here:
which of them a scope has to keep, and what the verdict on an instruction depends on.
-/

namespace TapeMachine

/-! ## Rules one after the other -/

section Verdict

variable {α : Type}

theorem bind_eq_ok_iff {x y : Except CompileError Unit} :
    (x >>= fun _ => y) = .ok () ↔ x = .ok () ∧ y = .ok () := by
  cases x <;> simp [bind, Except.bind]

theorem forM_eq_ok_iff {test : α → Except CompileError Unit} (l : List α) :
    l.forM test = .ok () ↔ ∀ a ∈ l, test a = .ok () := by
  induction l with
  | nil => simp [pure, Except.pure]
  | cons a l ih =>
      rw [List.forall_mem_cons, ← ih, ← bind_eq_ok_iff]
      rfl

end Verdict

/-! ## Keys -/

namespace Key

theorem index?_ne_zero {k : Key} {index : Index} (h : k.index? = some index) : index ≠ 0 := by
  unfold index? at h
  split at h
  · cases h
  · split at h
    · cases h
    · rename_i hn
      unfold Index.ofInt? at h
      split at h
      · rename_i hrange
        cases h
        intro hzero
        apply hn
        rw [← Int64.toInt_ofInt_of_le hrange.1 (Int.lt_add_one_of_le hrange.2), hzero]
        rfl
      · cases h

theorem isDigit_of_isNameStart {c : Char} (h : isNameStart c = true) : c.isDigit = false := by
  rw [Bool.eq_false_iff]
  intro hdigit
  change ((decide (c.val ≥ 'A'.val ∧ c.val ≤ 'Z'.val) ||
    (decide (c.val ≥ 'a'.val) && decide (c.val ≤ 'z'.val))) || c == '_' || c == '$') = true at h
  change (decide (c.val ≥ '0'.val) && decide (c.val ≤ '9'.val)) = true at hdigit
  simp only [Bool.or_eq_true, Bool.and_eq_true, decide_eq_true_eq, beq_iff_eq] at h hdigit
  rcases h with ((h | h) | rfl) | rfl
  · exact absurd (UInt32.le_trans h.1 hdigit.2) (by decide)
  · exact absurd (UInt32.le_trans h.1 hdigit.2) (by decide)
  · exact absurd hdigit (by decide)
  · exact absurd hdigit (by decide)

/-- A name begins with no digit and no sign, so no key is both a name and an index. -/
theorem index?_of_isName {k : Key} (h : k.isName = true) : k.index? = none := by
  have hnumeral : Numeral.int? k.toList = none := by
    unfold isName at h
    cases hchars : k.toList with
    | nil => rfl
    | cons c cs =>
        simp only [hchars, Bool.and_eq_true] at h
        have hnat : Numeral.nat? (c :: cs) = none := by
          simp [Numeral.nat?, Numeral.isDigits, isDigit_of_isNameStart h.1]
        unfold Numeral.int?
        split
        · rename_i heq
          cases heq
          exact absurd h.1 (by decide)
        · rename_i heq
          cases heq
          exact absurd h.1 (by decide)
        · rw [hnat]
          rfl
  rw [index?, hnumeral]

end Key

/-! ## Instructions -/

theorem map_snd_numberMembers (members : List Instruction) :
    (numberMembers members).map Prod.snd = members := by
  simp [numberMembers, Function.comp_def]

namespace Instruction

variable {visible visible' : List Key}

theorem checkCallee_congr (hv : ∀ name, name ∈ visible ↔ name ∈ visible') :
    checkCallee visible = checkCallee visible' := by
  funext name
  simp only [checkCallee, hv]

/-- The verdict on an instruction depends on which names can be called, not on their order. -/
theorem check_congr (hv : ∀ name, name ∈ visible ↔ name ∈ visible') :
    check visible = check visible' := by
  have hmember : checkMember visible = checkMember visible' := by
    funext index i
    simp only [checkMember, checkCallee_congr hv]
  have hmembers : checkMembers visible = checkMembers visible' := by
    funext index members
    simp only [checkMembers, hmember]
  funext declared index i
  simp only [check, checkCallee_congr hv, hmembers]

theorem checkNext_iff {declared : List Index} {index : Index} {next : Option Index} :
    checkNext declared index next = .ok () ↔
      ∀ target, next = some target → target ≠ index ∧ target ∈ declared := by
  cases next with
  | none => simp [checkNext]
  | some target =>
      show (if target = index then _ else if target ∈ declared then _ else _) = _ ↔ _
      split_ifs with hloop hmem
      · simp [hloop]
      · simp [hloop, hmem]
      · simp [hmem]

theorem checkBranches_iff {declared : List Index} {index ifMarked otherwise : Index} :
    checkBranches declared index ifMarked otherwise = .ok () ↔
      ifMarked ∈ declared ∧ otherwise ∈ declared ∧ ifMarked ≠ otherwise ∧ ifMarked ≠ index ∧
        otherwise ≠ index := by
  unfold checkBranches
  split_ifs with hmarked hotherwise hequal hloop
  · simp [hequal]
  · rcases hloop with hloop | hloop <;> simp [hloop]
  · rw [not_or] at hloop
    simp [hmarked, hotherwise, hequal, hloop]
  · simp [hotherwise]
  · simp [hmarked]

/-- An instruction that passes its test does so where more indices are declared. -/
theorem check_mono {declared declared' : List Index} (hsub : declared ⊆ declared') {index : Index}
    {i : Instruction} (h : i.check visible declared index = .ok ()) :
    i.check visible declared' index = .ok () := by
  have hnext : checkNext declared index i.next = .ok () →
      checkNext declared' index i.next = .ok () := by
    simp only [checkNext_iff]
    intro hpass target htarget
    obtain ⟨hne, hmem⟩ := hpass target htarget
    exact ⟨hne, hsub hmem⟩
  obtain ⟨command, next⟩ := i
  cases command with
  | act action => exact hnext h
  | stop => exact h
  | check ifMarked otherwise =>
      cases next with
      | some target => cases h
      | none =>
          obtain ⟨hmarked, hotherwise, hrest⟩ := checkBranches_iff.mp h
          exact checkBranches_iff.mpr ⟨hsub hmarked, hsub hotherwise, hrest⟩
  | call name =>
      obtain ⟨hcallee, hpass⟩ := bind_eq_ok_iff.mp h
      exact bind_eq_ok_iff.mpr ⟨hcallee, hnext hpass⟩
  | group members =>
      obtain ⟨hmembers, hpass⟩ := bind_eq_ok_iff.mp h
      exact bind_eq_ok_iff.mpr ⟨hmembers, hnext hpass⟩

/-- The indices that an instruction gives to go on at. -/
def targets (i : Instruction) : List Index :=
  i.next.toList ++
    match i.command with
    | .check ifMarked otherwise => [ifMarked, otherwise]
    | _ => []

theorem targets_of_check {declared : List Index} {index : Index} {i : Instruction}
    (h : i.check visible declared index = .ok ()) :
    ∀ target ∈ i.targets, target ≠ index ∧ target ∈ declared := by
  have hnext : checkNext declared index i.next = .ok () →
      ∀ target ∈ i.next.toList, target ≠ index ∧ target ∈ declared := by
    intro hpass target htarget
    exact checkNext_iff.mp hpass target (Option.mem_toList.mp htarget)
  obtain ⟨command, next⟩ := i
  cases command with
  | act action => simpa [targets] using hnext h
  | stop =>
      cases next with
      | some target => cases h
      | none => simp [targets]
  | check ifMarked otherwise =>
      cases next with
      | some target => cases h
      | none =>
          obtain ⟨hmarked, hotherwise, -, hmarkedNe, hotherwiseNe⟩ := checkBranches_iff.mp h
          simp [targets, hmarked, hotherwise, hmarkedNe, hotherwiseNe]
  | call name => simpa [targets] using hnext (bind_eq_ok_iff.mp h).2
  | group members => simpa [targets] using hnext (bind_eq_ok_iff.mp h).2

theorem targets_subset {declared : List Index} {index : Index} {i : Instruction}
    (h : i.check visible declared index = .ok ()) : i.targets ⊆ declared :=
  fun target htarget => (targets_of_check h target htarget).2

/-! ## Groups -/

/-- The instruction acts or calls and leaves its continuation out, as the members of a group do. -/
def Plain (i : Instruction) : Prop :=
  i.next = none ∧ ((∃ action, i.command = .act action) ∨ ∃ name, i.command = .call name)

theorem checkNoNext_iff {index : Index} {i : Instruction} :
    checkNoNext index i = .ok () ↔ i.next = none := by
  unfold checkNoNext
  cases i.next <;> simp

/-- A member passes the test for an instruction of a scope as well, wherever it stands. -/
theorem checkMember_eq_ok {index : Index} {m : Instruction}
    (h : checkMember visible index m = .ok ()) :
    m.Plain ∧ ∀ declared k, m.check visible declared k = .ok () := by
  obtain ⟨command, next⟩ := m
  cases command with
  | act action =>
      obtain rfl : next = none := checkNoNext_iff.mp h
      exact ⟨⟨rfl, Or.inl ⟨action, rfl⟩⟩, fun _ _ => rfl⟩
  | call name =>
      obtain ⟨hcallee, hnext⟩ := bind_eq_ok_iff.mp h
      obtain rfl : next = none := checkNoNext_iff.mp hnext
      exact ⟨⟨rfl, Or.inr ⟨name, rfl⟩⟩, fun _ _ => bind_eq_ok_iff.mpr ⟨hcallee, rfl⟩⟩
  | stop => cases next <;> cases h
  | check _ _ => cases next <;> cases h
  | group _ => cases h

theorem checkMembers_eq_ok {index : Index} {members : List Instruction}
    (h : checkMembers visible index members = .ok ()) :
    members ≠ [] ∧ ∀ m ∈ members, m.Plain ∧ ∀ declared k, m.check visible declared k = .ok () := by
  unfold checkMembers at h
  split at h
  · cases h
  · rename_i hempty
    split at h
    · cases h
    · refine ⟨by simpa using hempty, fun m hm => ?_⟩
      rw [← map_snd_numberMembers members] at hm
      obtain ⟨p, hp, rfl⟩ := List.mem_map.mp hm
      exact checkMember_eq_ok ((forM_eq_ok_iff _).mp h p hp)

end Instruction

/-- The instructions of a scope keep the rules if those of `visible` can be called: there are some,
no index comes twice, and each passes its test. -/
structure Lawful (visible : List Key) (numbered : List (Index × Instruction)) : Prop where
  nonempty : numbered ≠ []
  nodup : (numbered.map Prod.fst).Nodup
  check : ∀ p ∈ numbered, p.2.check visible (numbered.map Prod.fst) p.1 = .ok ()

/-- A group among instructions that keep the rules. -/
theorem Lawful.group {visible : List Key} {l : List (Index × Instruction)} (h : Lawful visible l)
    {index : Index} {members : List Instruction} {next : Option Index}
    (hmem : (index, ⟨.group members, next⟩) ∈ l) :
    members ≠ [] ∧
      (∀ m ∈ members, m.Plain ∧ ∀ declared k, m.check visible declared k = .ok ()) ∧
      ∀ target, next = some target → target ∈ l.map Prod.fst := by
  obtain ⟨hmembers, hnext⟩ := bind_eq_ok_iff.mp (h.check _ hmem)
  obtain ⟨hne, hall⟩ := Instruction.checkMembers_eq_ok hmembers
  exact ⟨hne, hall, fun target htarget => (Instruction.checkNext_iff.mp hnext target htarget).2⟩

/-! ## Scopes -/

namespace Scope

/-- Every instruction stands under an index. -/
def Indexed : Scope → Prop
  | nil => True
  | instr key _ rest => key.isIndex = true ∧ rest.Indexed
  | sub _ _ rest => rest.Indexed

theorem ne_zero_of_mem_numbered {s : Scope} {p : Index × Instruction} (h : p ∈ s.numbered) :
    p.1 ≠ 0 := by
  induction s with
  | nil => cases h
  | instr key i rest ih =>
      unfold numbered at h
      split at h
      · rename_i index hindex
        rcases List.mem_cons.mp h with rfl | h
        · exact Key.index?_ne_zero hindex
        · exact ih h
      · exact ih h
  | sub _ _ _ _ ih => exact ih h

theorem checkKeys_instr_iff {key : Key} {i : Instruction} {rest : Scope} {seen : List Index} :
    (instr key i rest).checkKeys seen = .ok () ↔
      ∃ index, key.index? = some index ∧ index ∉ seen ∧
        rest.checkKeys (index :: seen) = .ok () := by
  refine ⟨checkKeys_instr, ?_⟩
  rintro ⟨index, hindex, hseen, hrest⟩
  simp only [checkKeys, hindex, hseen, if_false, hrest]

theorem checkKeys_sub_iff {key : Key} {body rest : Scope} {seen : List Index} :
    (sub key body rest).checkKeys seen = .ok () ↔
      key.index? = none ∧ key.isName = true ∧ rest.checkKeys seen = .ok () := by
  refine ⟨checkKeys_sub, ?_⟩
  rintro ⟨hindex, hname, hrest⟩
  simp only [checkKeys, hindex, hname, if_true, hrest]

/-- What the keys of a scope have to be, apart from the order of its entries. -/
theorem checkKeys_iff {s : Scope} {seen : List Index} :
    s.checkKeys seen = .ok () ↔
      s.Indexed ∧ (∀ name ∈ s.subroutines.map Prod.fst, name.isName = true) ∧
        (s.numbered.map Prod.fst).Nodup ∧ ∀ index ∈ s.numbered.map Prod.fst, index ∉ seen := by
  induction s generalizing seen with
  | nil => simp [checkKeys, Indexed, subroutines, numbered]
  | instr key i rest ih =>
      rw [checkKeys_instr_iff]
      cases hkey : key.index? with
      | none => simp [Indexed, Key.isIndex, hkey]
      | some index =>
          simp only [Option.some.injEq, exists_eq_left', ih, Indexed, Key.isIndex, hkey,
            subroutines, numbered, List.map_cons, List.nodup_cons, List.mem_cons, not_or,
            forall_eq_or_imp, Option.isSome_some, true_and, forall_and]
          constructor
          · rintro ⟨hseen, hindexed, hnames, hnodup, hne, hnotin⟩
            exact ⟨hindexed, hnames, ⟨fun h => hne index h rfl, hnodup⟩, hseen, hnotin⟩
          · rintro ⟨hindexed, hnames, ⟨hnotin, hnodup⟩, hseen, hrest⟩
            exact ⟨hseen, hindexed, hnames, hnodup, fun x hx heq => hnotin (heq ▸ hx), hrest⟩
  | sub key body rest _ ih =>
      rw [checkKeys_sub_iff, ih]
      simp only [Indexed, subroutines, numbered, List.map_cons, List.forall_mem_cons]
      constructor
      · rintro ⟨-, hname, hindexed, hnames, hrest⟩
        exact ⟨hindexed, ⟨hname, hnames⟩, hrest⟩
      · rintro ⟨hindexed, ⟨hname, hnames⟩, hrest⟩
        exact ⟨Key.index?_of_isName hname, hname, hindexed, hnames, hrest⟩

theorem checkWith_iff {bodies : List Key → Except CompileError Unit} {s : Scope}
    {visible : List Key} :
    checkWith bodies s visible = .ok () ↔
      s.checkKeys [] = .ok () ∧ s.numbered ≠ [] ∧
        bodies (s.subroutines.map Prod.fst ++ visible) = .ok () ∧
        ∀ p ∈ s.numbered, p.2.check (s.subroutines.map Prod.fst ++ visible)
          (s.numbered.map Prod.fst) p.1 = .ok () := by
  rw [checkWith, bind_eq_ok_iff]
  refine and_congr_right fun _ => ?_
  cases hempty : s.numbered.isEmpty with
  | true =>
      simp [List.isEmpty_iff.mp hempty, throw, throwThe, MonadExceptOf.throw, bind, Except.bind]
  | false =>
      have hne : s.numbered ≠ [] := List.isEmpty_eq_false_iff.mp hempty
      rw [← forM_eq_ok_iff, ← bind_eq_ok_iff, and_iff_right hne]
      rfl

theorem checkWith_congr {bodies : List Key → Except CompileError Unit} (s : Scope)
    {visible visible' : List Key} (hv : ∀ name, name ∈ visible ↔ name ∈ visible')
    (hbodies : ∀ inner inner', (∀ name, name ∈ inner ↔ name ∈ inner') →
      bodies inner = bodies inner') :
    checkWith bodies s visible = checkWith bodies s visible' := by
  have hinner : ∀ name, name ∈ s.subroutines.map Prod.fst ++ visible ↔
      name ∈ s.subroutines.map Prod.fst ++ visible' := by
    intro name
    simp only [List.mem_append, hv]
  simp only [checkWith, hbodies _ _ hinner, Instruction.check_congr hinner]

theorem checkBodies_congr (s : Scope) {visible visible' : List Key}
    (hv : ∀ name, name ∈ visible ↔ name ∈ visible') :
    s.checkBodies visible = s.checkBodies visible' := by
  induction s generalizing visible visible' with
  | nil => rfl
  | instr _ _ _ ih => exact ih hv
  | sub _ body _ ihbody ih =>
      simp only [checkBodies, ih hv, checkWith_congr body hv fun _ _ => ihbody]

theorem checkBodies_iff {s : Scope} {visible : List Key} :
    s.checkBodies visible = .ok () ↔ ∀ p ∈ s.subroutines, p.2.check visible = .ok () := by
  induction s with
  | nil => simp [checkBodies, subroutines]
  | instr _ _ _ ih => exact ih
  | sub _ body _ _ ih =>
      rw [checkBodies, bind_eq_ok_iff, ih, subroutines, List.forall_mem_cons]
      rfl

/-- All rules for a scope. -/
theorem check_eq_ok_iff {s : Scope} {visible : List Key} :
    s.check visible = .ok () ↔
      s.Indexed ∧ (∀ name ∈ s.subroutines.map Prod.fst, name.isName = true) ∧
        Lawful (s.subroutines.map Prod.fst ++ visible) s.numbered ∧
        ∀ p ∈ s.subroutines, p.2.check (s.subroutines.map Prod.fst ++ visible) = .ok () := by
  rw [check, checkWith_iff, checkKeys_iff, checkBodies_iff]
  constructor
  · rintro ⟨⟨hindexed, hnames, hnodup, -⟩, hne, hbodies, hcheck⟩
    exact ⟨hindexed, hnames, ⟨hne, hnodup, hcheck⟩, hbodies⟩
  · rintro ⟨hindexed, hnames, ⟨hne, hnodup, hcheck⟩, hbodies⟩
    exact ⟨⟨hindexed, hnames, hnodup, by simp⟩, hne, hbodies, hcheck⟩

end Scope

end TapeMachine
