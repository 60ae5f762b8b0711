import Mathlib.Data.List.TakeWhile
import Mathlib.Data.Nat.Digits.Defs
import TapeMachine.Proofs.Rules

/-!
# How keys are read

What a key stands for is given by two grammars. An index is written as at most one sign
and one or more digits, and the digits are read in base ten; there may be zeros in front,
and the value has to be in range and not zero. A name is a letter, an underscore or a
dollar sign, followed by any number of these and of digits.

No key is of two kinds. A numeral begins with a digit or a sign and a decimal with one of
these or a point, where a name begins with none of them. So it does not matter in which
order a key is tested for the kinds, as long as a number is one that is no index.
-/

namespace TapeMachine

/-! ## Characters -/

theorem isDigit_iff {c : Char} : c.isDigit = true ↔ '0' ≤ c ∧ c ≤ '9' := by
  change (decide (c.val ≥ '0'.val) && decide (c.val ≤ '9'.val)) = true ↔ _
  rw [Bool.and_eq_true, decide_eq_true_iff, decide_eq_true_iff]
  rfl

theorem isAlpha_iff {c : Char} :
    c.isAlpha = true ↔ ('A' ≤ c ∧ c ≤ 'Z') ∨ ('a' ≤ c ∧ c ≤ 'z') := by
  change (decide (c.val ≥ 'A'.val ∧ c.val ≤ 'Z'.val) ||
    (decide (c.val ≥ 'a'.val) && decide (c.val ≤ 'z'.val))) = true ↔ _
  rw [Bool.or_eq_true, Bool.and_eq_true, decide_eq_true_iff, decide_eq_true_iff,
    decide_eq_true_iff]
  rfl

theorem digitChar_of_isDigit {c : Char} (h : c.isDigit = true) :
    c.toNat - 48 < 10 ∧ Nat.digitChar (c.toNat - 48) = c := by
  obtain ⟨hlow, hhigh⟩ := isDigit_iff.mp h
  have hlow' : 48 ≤ c.toNat := hlow
  have hhigh' : c.toNat ≤ 57 := hhigh
  have hlt : c.toNat - 48 < 10 := by omega
  refine ⟨hlt, Char.toNat_inj.mp ?_⟩
  rw [Nat.toNat_digitChar_of_lt_ten hlt]
  omega

/-! ## Numerals -/

namespace Numeral

/-- These are the characters of one or more digits in base ten, and `n` is their value. The first
digit has the greatest weight. -/
def IsNatural (cs : List Char) (n : Nat) : Prop :=
  ∃ ds : List Nat, ds ≠ [] ∧ (∀ d ∈ ds, d < 10) ∧ cs = ds.map Nat.digitChar ∧
    n = Nat.ofDigits 10 ds.reverse

/-- These are the characters of at most one sign and of digits, and `n` is their value. -/
inductive IsInteger : List Char → Int → Prop
  | bare {cs : List Char} {n : Nat} (digits : IsNatural cs n) : IsInteger cs n
  | plus {cs : List Char} {n : Nat} (digits : IsNatural cs n) : IsInteger ('+' :: cs) n
  | minus {cs : List Char} {n : Nat} (digits : IsNatural cs n) : IsInteger ('-' :: cs) (-n)

theorem isDigits_iff {cs : List Char} :
    isDigits cs = true ↔ cs ≠ [] ∧ ∀ c ∈ cs, c.isDigit = true := by
  simp [isDigits]

theorem ofDigitChars_map_digitChar {ds : List Nat} (h : ∀ d ∈ ds, d < 10) :
    Nat.ofDigitChars 10 (ds.map Nat.digitChar) 0 = Nat.ofDigits 10 ds.reverse := by
  -- the last digit is the one of least weight
  induction ds using List.reverseRecOn with
  | nil => rfl
  | append_singleton ds d ih =>
      have hd : d < 10 := h d (by simp)
      have hds : ∀ d' ∈ ds, d' < 10 := fun d' hd' => h d' (by simp [hd'])
      rw [List.map_append, Nat.ofDigitChars_append, ih hds, List.reverse_append]
      simp only [List.map_cons, List.map_nil, Nat.ofDigitChars_cons_digitChar_of_lt_ten hd,
        Nat.ofDigitChars_nil, List.reverse_cons, List.reverse_nil, List.nil_append,
        List.cons_append, Nat.ofDigits_cons]
      omega

theorem nat?_eq_some_iff {cs : List Char} {n : Nat} : nat? cs = some n ↔ IsNatural cs n := by
  constructor
  · intro h
    unfold nat? at h
    split at h
    · rename_i hdigits
      obtain ⟨hne, hall⟩ := isDigits_iff.mp hdigits
      have hmap : cs = (cs.map fun c => c.toNat - 48).map Nat.digitChar := by
        have hchars : ∀ c ∈ cs, (Nat.digitChar ∘ fun c => c.toNat - 48) c = id c :=
          fun c hc => (digitChar_of_isDigit (hall c hc)).2
        rw [List.map_map, List.map_congr_left hchars, List.map_id]
      have hlt : ∀ d ∈ cs.map (fun c => c.toNat - 48), d < 10 := by
        intro d hd
        obtain ⟨c, hc, rfl⟩ := List.mem_map.mp hd
        exact (digitChar_of_isDigit (hall c hc)).1
      refine ⟨_, by simpa using hne, hlt, hmap, ?_⟩
      rw [← ofDigitChars_map_digitChar hlt, ← hmap]
      exact (Option.some.inj h).symm
    · cases h
  · rintro ⟨ds, hne, hlt, rfl, rfl⟩
    have hdigits : isDigits (ds.map Nat.digitChar) = true := by
      refine isDigits_iff.mpr ⟨by simpa using hne, fun c hc => ?_⟩
      obtain ⟨d, hd, rfl⟩ := List.mem_map.mp hc
      rw [Nat.isDigit_digitChar, decide_eq_true (hlt d hd)]
    rw [nat?, if_pos hdigits, ofDigitChars_map_digitChar hlt]

theorem IsNatural.isDigits {cs : List Char} {n : Nat} (h : IsNatural cs n) :
    isDigits cs = true := by
  have hread := nat?_eq_some_iff.mpr h
  unfold nat? at hread
  split at hread
  · assumption
  · cases hread

theorem IsNatural.isDigit_head {c : Char} {cs : List Char} {n : Nat}
    (h : IsNatural (c :: cs) n) : c.isDigit = true :=
  (isDigits_iff.mp h.isDigits).2 c List.mem_cons_self

theorem isNatural_toDigits (n : Nat) : IsNatural (Nat.toDigits 10 n) n := by
  have hdigits : isDigits (Nat.toDigits 10 n) = true :=
    isDigits_iff.mpr ⟨Nat.toDigits_ne_nil,
      fun c hc => Nat.isDigit_of_mem_toDigits (by decide) (by decide) hc⟩
  rw [← nat?_eq_some_iff, nat?, if_pos hdigits, Nat.ofDigitChars_ten_toDigits]

theorem map_nat?_eq_some_iff {cs : List Char} {n : Int} {f : Int → Int} :
    Option.map f (do let m ← nat? cs; pure (m : Int)) = some n ↔
      ∃ m : Nat, IsNatural cs m ∧ f m = n := by
  simp only [← nat?_eq_some_iff]
  cases nat? cs <;> simp

theorem int?_eq_some_iff {cs : List Char} {n : Int} : int? cs = some n ↔ IsInteger cs n := by
  unfold int?
  split
  · rw [map_nat?_eq_some_iff]
    constructor
    · rintro ⟨m, digits, rfl⟩
      exact .minus digits
    · intro h
      cases h with
      | bare digits => exact absurd digits.isDigit_head (by decide)
      | minus digits => exact ⟨_, digits, rfl⟩
  · rw [map_nat?_eq_some_iff]
    constructor
    · rintro ⟨m, digits, rfl⟩
      exact .plus digits
    · intro h
      cases h with
      | bare digits => exact absurd digits.isDigit_head (by decide)
      | plus digits => exact ⟨_, digits, rfl⟩
  · rename_i hminus hplus
    rw [map_nat?_eq_some_iff]
    constructor
    · rintro ⟨m, digits, rfl⟩
      exact .bare digits
    · intro h
      cases h with
      | bare digits => exact ⟨_, digits, rfl⟩
      | plus digits => exact absurd rfl (hplus _)
      | minus digits => exact absurd rfl (hminus _)

/-- The numeral of an integer, as it is written. -/
theorem isInteger_toString (a : Int) : IsInteger (toString a).toList a := by
  rw [Int.toString_eq_repr, Int.repr_eq_if]
  split
  · rename_i hnonneg
    have hbare := IsInteger.bare (isNatural_toDigits a.toNat)
    rw [Int.toNat_of_nonneg hnonneg] at hbare
    rwa [Nat.toList_repr]
  · rename_i hneg
    have hminus := IsInteger.minus (isNatural_toDigits (-a).toNat)
    rw [Int.toNat_of_nonneg (by omega), Int.neg_neg] at hminus
    rw [String.toList_append, Nat.toList_repr]
    exact hminus

/-- A row of digits is a decimal without a point and an exponent. -/
theorem isPositional_of_isDigits {cs : List Char} (h : isDigits cs = true) :
    isPositional cs = true := by
  obtain ⟨hne, hall⟩ := isDigits_iff.mp h
  have hdrop : cs.dropWhile Char.isDigit = [] := List.dropWhile_eq_nil_iff.mpr hall
  have htake : cs.takeWhile Char.isDigit = cs := List.takeWhile_eq_self_iff.mpr hall
  rw [isPositional, hdrop, htake]
  simpa [isExponent] using hne

theorem IsInteger.isDigits_dropSign {cs : List Char} {n : Int} (h : IsInteger cs n) :
    isDigits (dropSign cs) = true := by
  cases h with
  | plus digits => exact digits.isDigits
  | minus digits => exact digits.isDigits
  | bare digits =>
      unfold dropSign
      split
      · exact absurd digits.isDigit_head (by decide)
      · exact absurd digits.isDigit_head (by decide)
      · exact digits.isDigits

end Numeral

/-! ## Indices -/

open Numeral

theorem Index.ofInt?_eq_some_iff {n : Int} {i : Index} :
    Index.ofInt? n = some i ↔ i.toInt = n := by
  unfold Index.ofInt?
  constructor
  · intro h
    split at h
    · rename_i hrange
      cases h
      exact Int64.toInt_ofInt_of_le hrange.1 (Int.lt_add_one_of_le hrange.2)
    · cases h
  · rintro rfl
    rw [if_pos ⟨Int64.minValue_le_toInt i, Int64.toInt_le i⟩, Int64.ofInt_toInt]

namespace Key

/-- A key is read as an index if it is an integer numeral, the value of which is the index. -/
theorem index?_eq_some_iff {k : Key} {i : Index} :
    k.index? = some i ↔ IsInteger k.toList i.toInt ∧ i ≠ 0 := by
  have hzero : i.toInt = 0 ↔ i = 0 := Int64.toInt_inj (y := 0)
  rw [← int?_eq_some_iff, index?]
  cases hread : int? k.toList with
  | none => simp
  | some n =>
      simp only [Option.some.injEq]
      split
      · rename_i hn
        simp [hn, ← hzero, eq_comm]
      · rename_i hn
        rw [Index.ofInt?_eq_some_iff]
        constructor
        · rintro rfl
          exact ⟨rfl, fun hi => hn (hzero.mpr hi)⟩
        · rintro ⟨rfl, -⟩
          rfl

theorem index?_text {i : Index} (h : i ≠ 0) : Key.index? i.text = some i :=
  index?_eq_some_iff.mpr ⟨isInteger_toString i.toInt, h⟩

theorem isNumericStart_of_isInteger {c : Char} {cs : List Char} {n : Int}
    (h : IsInteger (c :: cs) n) : isNumericStart c = true := by
  cases h with
  | bare digits => simp [isNumericStart, digits.isDigit_head]
  | plus digits => rfl
  | minus digits => rfl

theorem looksNumeric_of_isIndex {k : Key} (h : k.isIndex = true) : k.looksNumeric = true := by
  obtain ⟨i, hi⟩ := Option.isSome_iff_exists.mp h
  obtain ⟨hnumeral, -⟩ := index?_eq_some_iff.mp hi
  have hdecimal : isDecimal k.toList = true := by
    rw [isDecimal, isPositional_of_isDigits hnumeral.isDigits_dropSign, Bool.or_true]
  unfold looksNumeric
  cases hchars : k.toList with
  | nil =>
      rw [hchars] at hnumeral
      exact absurd hnumeral.isDigits_dropSign (by decide)
  | cons c cs =>
      rw [hchars] at hnumeral hdecimal
      simp only [isNumericStart_of_isInteger hnumeral, hdecimal, Bool.and_true]

/-! ## Names -/

/-- A letter, an underscore or a dollar sign. -/
def NameStart (c : Char) : Prop :=
  ('A' ≤ c ∧ c ≤ 'Z') ∨ ('a' ≤ c ∧ c ≤ 'z') ∨ c = '_' ∨ c = '$'

/-- One of the characters that a name begins with, then any number of these and of digits. -/
def IsNamePattern (cs : List Char) : Prop :=
  ∃ c rest, cs = c :: rest ∧ NameStart c ∧ ∀ d ∈ rest, NameStart d ∨ ('0' ≤ d ∧ d ≤ '9')

theorem isNameStart_iff {c : Char} : isNameStart c = true ↔ NameStart c := by
  rw [isNameStart, Bool.or_eq_true, Bool.or_eq_true, isAlpha_iff, beq_iff_eq, beq_iff_eq, NameStart]
  tauto

theorem isNameRest_iff {c : Char} :
    isNameRest c = true ↔ NameStart c ∨ ('0' ≤ c ∧ c ≤ '9') := by
  rw [isNameRest, Bool.or_eq_true, isNameStart_iff, isDigit_iff]

theorem isName_iff {k : Key} : k.isName = true ↔ IsNamePattern k.toList := by
  unfold isName IsNamePattern
  cases k.toList with
  | nil => simp
  | cons c cs => simp [isNameStart_iff, isNameRest_iff]

theorem looksNumeric_of_isName {k : Key} (h : k.isName = true) : k.looksNumeric = false := by
  obtain ⟨c, cs, hchars, hstart, -⟩ := isName_iff.mp h
  have hdigit : c.isDigit = false := isDigit_of_isNameStart (isNameStart_iff.mpr hstart)
  have hother : c ≠ '-' ∧ c ≠ '+' ∧ c ≠ '.' := by
    refine ⟨?_, ?_, ?_⟩
    all_goals
      rintro rfl
      revert hstart
      unfold NameStart
      decide
  have hnumeric : isNumericStart c = false := by
    simp [isNumericStart, hdigit, hother]
  rw [looksNumeric, hchars]
  simp only [hnumeric, Bool.false_and]

/-! ## Kinds -/

theorem kind_eq_index_iff {k : Key} {i : Index} : k.kind = .index i ↔ k.index? = some i := by
  cases hindex : k.index? with
  | some j => simp [kind_of_index hindex]
  | none =>
      rw [kind_of_not_index hindex]
      split
      · simp
      · split <;> simp

theorem kind_eq_name_iff {k : Key} : k.kind = .name ↔ k.isName = true := by
  cases hindex : k.index? with
  | some i =>
      rw [kind_of_index hindex]
      refine ⟨nofun, fun hname => ?_⟩
      rw [index?_of_isName hname] at hindex
      cases hindex
  | none =>
      rw [kind_of_not_index hindex]
      split
      · rename_i hname
        simp [hname]
      · rename_i hname
        split <;> simp [hname]

theorem kind_eq_numeric_iff {k : Key} :
    k.kind = .numeric ↔ k.looksNumeric = true ∧ k.isIndex = false := by
  cases hindex : k.index? with
  | some i => simp [kind_of_index hindex, isIndex, hindex]
  | none =>
      rw [kind_of_not_index hindex, isIndex, hindex]
      split
      · rename_i hname
        simp [looksNumeric_of_isName hname]
      · split <;> simp_all

theorem kind_eq_other_iff {k : Key} :
    k.kind = .other ↔ k.isIndex = false ∧ k.isName = false ∧ k.looksNumeric = false := by
  cases hindex : k.index? with
  | some i => simp [kind_of_index hindex, isIndex, hindex]
  | none =>
      rw [kind_of_not_index hindex, isIndex, hindex]
      split
      · simp_all
      · split <;> simp_all

/-- The tests for the kinds other than the last, each of which gives its kind or nothing. -/
def tests (k : Key) : List (Option KeyKind) :=
  [k.index?.map .index, if k.isName then some .name else none,
    if k.looksNumeric && !k.isIndex then some .numeric else none]

/-- Only the test for the kind of the key can succeed. -/
theorem some_mem_tests_iff {k : Key} {a : KeyKind} :
    some a ∈ k.tests ↔ k.kind = a ∧ a ≠ .other := by
  have hname := kind_eq_name_iff (k := k)
  have hnumeric := kind_eq_numeric_iff (k := k)
  cases a with
  | index i => simp [tests, kind_eq_index_iff]
  | name => simp [tests, hname]
  | numeric => simp [tests, hnumeric]
  | other => simp [tests]

/-- Whichever test is made first, the first that succeeds gives the kind. -/
theorem kind_of_tests {k : Key} {l : List (Option KeyKind)} (h : l.Perm k.tests) :
    (l.findSome? id).getD .other = k.kind := by
  have hmem : ∀ a, some a ∈ l ↔ k.kind = a ∧ a ≠ .other :=
    fun a => h.mem_iff.trans some_mem_tests_iff
  cases hfirst : l.findSome? id with
  | some a =>
      obtain ⟨o, ho, hid⟩ := List.exists_of_findSome?_eq_some hfirst
      obtain rfl : o = some a := hid
      exact ((hmem a).mp ho).1.symm
  | none =>
      by_contra hne
      have hkind : some k.kind ∈ l := (hmem _).mpr ⟨rfl, fun h => hne h.symm⟩
      exact absurd (List.findSome?_eq_none_iff.mp hfirst _ hkind) nofun

end Key

/-! ## Scopes -/

namespace Scope

theorem mem_numbered_insert (s : Scope) {key : Key} {index : Index} (h : key.index? = some index)
    (i : Instruction) : (index, i) ∈ (s.insert key (.instruction i)).numbered := by
  rw [insert]
  induction s with
  | nil => simp [getThenInsert, cons, numbered, h]
  | instr k j rest ih =>
      by_cases hk : k = key
      · simp [getThenInsert, hk, cons, numbered, h]
      · simp only [getThenInsert, hk, if_false, numbered]
        split
        · exact List.mem_cons_of_mem _ ih
        · exact ih
  | sub k body rest _ ih =>
      by_cases hk : k = key
      · simp [getThenInsert, hk, cons, numbered, h]
      · simpa only [getThenInsert, hk, if_false, numbered] using ih

/-- An instruction is declared under the index that it is stored for, unless that is zero. -/
theorem mem_numbered_insertInstruction_iff {s : Scope} {index : Index} {i : Instruction} :
    (index, i) ∈ (s.insertInstruction index i).numbered ↔ index ≠ 0 :=
  ⟨fun h => ne_zero_of_mem_numbered h, fun h => s.mem_numbered_insert (Key.index?_text h) i⟩

end Scope

/-! ## Reading keys -/

/-- A key is an index if it is the numeral of a word that is not zero, and then it looks like a
number; it is a name if it fits the pattern for names, and then it does not. The numeral of a word
is read as the word. Every key is of one kind, and the order of the tests has no part in it. -/
theorem Key.read_exactly (k : Key) :
    (∀ i : Index, k.index? = some i ↔ IsInteger k.toList i.toInt ∧ i ≠ 0) ∧
    (∀ i : Index, Key.index? i.text = if i = 0 then none else some i) ∧
    (∀ (s : Scope) (i : Index) (x : Instruction),
      (i, x) ∈ (s.insertInstruction i x).numbered ↔ i ≠ 0) ∧
    (k.isIndex = true → k.looksNumeric = true) ∧
    (k.isName = true ↔ IsNamePattern k.toList) ∧
    ¬ (k.isName = true ∧ k.looksNumeric = true) ∧
    (∀ i, k.kind = .index i ↔ k.index? = some i) ∧
    (k.kind = .name ↔ k.isName = true) ∧
    (k.kind = .numeric ↔ k.looksNumeric = true ∧ k.isIndex = false) ∧
    (k.kind = .other ↔ k.isIndex = false ∧ k.isName = false ∧ k.looksNumeric = false) ∧
    ∀ l : List (Option KeyKind), l.Perm k.tests → (l.findSome? id).getD .other = k.kind := by
  refine ⟨fun i => index?_eq_some_iff, ?_, fun s i x => Scope.mem_numbered_insertInstruction_iff,
    looksNumeric_of_isIndex, isName_iff, ?_, fun i => kind_eq_index_iff, kind_eq_name_iff,
    kind_eq_numeric_iff, kind_eq_other_iff, fun l => kind_of_tests⟩
  · intro i
    split
    · rename_i hi
      rw [hi]
      decide +kernel
    · rename_i hi
      exact index?_text hi
  · rintro ⟨hname, hnumeric⟩
    rw [looksNumeric_of_isName hname] at hnumeric
    cases hnumeric

/-! The ends of the range, zeros in front, and what lies beyond. -/

example : Key.index? "-9223372036854775808" = some Int64.minValue := by decide +kernel

example : Key.index? "+0009223372036854775807" = some Int64.maxValue := by decide +kernel

example : Key.kind "9223372036854775808" = .numeric ∧ Key.kind "-inf" = .numeric ∧
    Key.kind ".5e+1" = .numeric ∧ Key.kind "+" = .other ∧ Key.kind "inf" = .name := by
  decide +kernel

end TapeMachine
