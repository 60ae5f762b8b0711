import Mathlib.Data.List.DropRight
import TapeMachine.Proofs.InfiniteTape

/-!
# The trimmed cells stand for the contents

A tape without ends that has marks has a first and a last one. The cells from the one to
the other are found in the row wherever it is cut off and from wherever it is numbered. So
two tapes have the same trimmed cells if the symbols of the one are those of the other,
moved by some number of cells, and only then.

A row that begins and ends with a mark is bounded by marks on the tape without ends. For
two such rows that give the same tape each lies within the other, so they are equal.

All of this is about rows of cells, so the head of an indexed tape need not be on a cell.
-/

namespace TapeMachine

namespace Symbol

theorem rowText_inj {row row' : List Symbol} : rowText row = rowText row' ↔ row = row' := by
  rw [← String.toList_inj, toList_rowText, toList_rowText]
  exact List.map_inj_right fun s s' => toChar_inj.mp

theorem exists_eq_replicate {row : List Symbol} (h : ∀ s ∈ row, s.isBlank = true) :
    ∃ n, row = List.replicate n .blank := by
  refine ⟨row.length, List.eq_replicate_of_mem fun s hs => ?_⟩
  cases s with
  | blank => rfl
  | mark => cases h _ hs

theorem eq_mark_of_isBlank {s : Symbol} (h : s.isBlank = false) : s = .mark := by
  cases s with
  | blank => cases h
  | mark => rfl

/-- The row begins and ends with a mark, unless it is empty. -/
def IsTrimmed (row : List Symbol) : Prop :=
  row ≠ [] → row.head? = some mark ∧ row.getLast? = some mark

end Symbol

/-! ## Rows on a tape without ends -/

namespace InfiniteTape

/-- The symbols of `w` are those of `v`, all of them moved by the same number of cells. -/
def IsTranslate (v w : InfiniteTape) : Prop :=
  ∃ d : ℤ, ∀ i, w.symbol i = v.symbol (i + d)

variable {row row' : List Symbol} {first first' : ℤ}

theorem symbolAt_blanks_append (row : List Symbol) (first : ℤ) (a : Nat) :
    symbolAt (List.replicate a .blank ++ row) first = symbolAt row (first + a) := by
  induction a generalizing first with
  | zero =>
      rw [List.replicate_zero, List.nil_append]
      exact congrArg (symbolAt row) (Int.add_zero first).symm
  | succ a ih =>
      have hcons := symbolAt_blank_cons (List.replicate a .blank ++ row) (first + 1)
      rw [Int.add_sub_cancel] at hcons
      have hnext : first + 1 + (a : ℤ) = first + (a + 1 : Nat) := by omega
      rw [List.replicate_succ, List.cons_append, hcons, ih, hnext]

theorem symbolAt_add (row : List Symbol) (first d i : ℤ) :
    symbolAt row (first + d) (i + d) = symbolAt row first i := by
  have hplace : i + d - (first + d) = i - first := by omega
  simp only [symbolAt, hplace, Int.add_le_add_iff_right]

/-- There are no marks outside of the row. -/
theorem within_of_symbolAt_eq_mark {i : ℤ} (h : symbolAt row first i = .mark) :
    first ≤ i ∧ i < first + row.length := by
  rw [symbolAt] at h
  split at h
  · rename_i hle
    refine ⟨hle, ?_⟩
    by_contra hlt
    rw [List.getElem?_eq_none (by omega)] at h
    cases h
  · cases h

/-- A row with marks at both ends lies within every row that gives the same symbols. -/
theorem within_of_isTrimmed (htrimmed : Symbol.IsTrimmed row) (hpos : 0 < row.length)
    (h : symbolAt row first = symbolAt row' first') :
    first' ≤ first ∧ first + row.length ≤ first' + row'.length := by
  obtain ⟨hhead, hlast⟩ := htrimmed (List.length_pos_iff.mp hpos)
  rw [List.head?_eq_getElem?] at hhead
  rw [List.getLast?_eq_getElem?] at hlast
  have hmark : symbolAt row' first' (first + (0 : Nat)) = .mark := by
    rw [← h, symbolAt_place, hhead]
    rfl
  have hmark' : symbolAt row' first' (first + (row.length - 1 : Nat)) = .mark := by
    rw [← h, symbolAt_place, hlast]
    rfl
  have hbefore := (within_of_symbolAt_eq_mark hmark).1
  have hafter := (within_of_symbolAt_eq_mark hmark').2
  omega

/-- A trimmed row can be read off the tape without ends. -/
theorem eq_of_symbolAt_eq (htrimmed : Symbol.IsTrimmed row) (htrimmed' : Symbol.IsTrimmed row')
    (h : symbolAt row first = symbolAt row' first') : row = row' := by
  have hwithin : 0 < row.length → first' ≤ first ∧ first + row.length ≤ first' + row'.length :=
    fun hpos => within_of_isTrimmed htrimmed hpos h
  have hwithin' : 0 < row'.length → first ≤ first' ∧ first' + row'.length ≤ first + row.length :=
    fun hpos => within_of_isTrimmed htrimmed' hpos h.symm
  -- where one of the rows is empty there is no mark, so the other is empty as well
  have hlength : row.length = row'.length := by omega
  refine List.ext_getElem hlength fun k hk hk' => ?_
  have hfirst : first = first' := by omega
  have hsymbol := congrFun h (first + k)
  rwa [symbolAt_place, hfirst, symbolAt_place, List.getElem?_eq_getElem hk,
    List.getElem?_eq_getElem hk'] at hsymbol

end InfiniteTape

/-! ## Trimmed rows -/

namespace Symbol

open InfiniteTape

variable (row : List Symbol)

theorem trim_eq_rdropWhile : trim row = (row.dropWhile isBlank).rdropWhile isBlank := rfl

/-- Nothing but blanks is left out. -/
theorem eq_trim : ∃ a b, row = List.replicate a .blank ++ trim row ++ List.replicate b .blank := by
  obtain ⟨a, hleft⟩ : ∃ a, row.takeWhile isBlank = List.replicate a .blank :=
    exists_eq_replicate fun _ => List.mem_takeWhile_imp
  obtain ⟨b, hright⟩ : ∃ b, (row.dropWhile isBlank).rtakeWhile isBlank = List.replicate b .blank :=
    exists_eq_replicate fun _ => List.mem_rtakeWhile_imp
  refine ⟨a, b, ?_⟩
  rw [← hleft, ← hright, trim_eq_rdropWhile, List.append_assoc, List.rdropWhile_append_rtakeWhile,
    List.takeWhile_append_dropWhile]

theorem isTrimmed_trim : IsTrimmed (trim row) := by
  intro hne
  constructor
  · -- what is left out on the right leaves the first cell alone
    have hrest : trim row ++ (row.dropWhile isBlank).rtakeWhile isBlank = row.dropWhile isBlank :=
      List.rdropWhile_append_rtakeWhile
    have hdrop : row.dropWhile isBlank ≠ [] := by
      rw [← hrest]
      exact List.append_ne_nil_of_left_ne_nil hne _
    have hhead := List.head_dropWhile_not isBlank hdrop
    rw [← List.head?_append_of_ne_nil _ hne, hrest, List.head?_eq_some_head hdrop]
    exact congrArg some (eq_mark_of_isBlank hhead)
  · have hlast := List.rdropWhile_last_not isBlank _ hne
    rw [List.getLast?_eq_some_getLast hne]
    exact congrArg some (eq_mark_of_isBlank (Bool.eq_false_iff.mpr hlast))

theorem trim_eq_nil_iff : trim row = [] ↔ mark ∉ row := by
  obtain ⟨a, b, hrow⟩ := eq_trim row
  constructor
  · intro hnil hmark
    rw [hrow, hnil] at hmark
    simp at hmark
  · intro hmark
    by_contra hne
    have hhead := List.mem_of_head? (isTrimmed_trim row hne).1
    apply hmark
    rw [hrow]
    exact List.mem_append_left _ (List.mem_append_right _ hhead)

/-- The trimmed row is all that is needed for the tape without ends. -/
theorem symbolAt_eq_trim (first : ℤ) : ∃ start, symbolAt row first = symbolAt (trim row) start := by
  obtain ⟨a, b, hrow⟩ := eq_trim row
  refine ⟨first + a, ?_⟩
  calc symbolAt row first
      = symbolAt (List.replicate a .blank ++ trim row ++ List.replicate b .blank) first := by
        rw [← hrow]
    _ = symbolAt (trim row) (first + a) := by
        rw [symbolAt_append_blanks, symbolAt_blanks_append]

variable {row}

theorem trim_eq_iff {row' : List Symbol} (first first' : ℤ) :
    trim row = trim row' ↔ ∃ d, ∀ i, symbolAt row' first' i = symbolAt row first (i + d) := by
  obtain ⟨start, hstart⟩ := symbolAt_eq_trim row first
  obtain ⟨start', hstart'⟩ := symbolAt_eq_trim row' first'
  rw [hstart, hstart']
  constructor
  · intro htrim
    refine ⟨start - start', fun i => ?_⟩
    have hstarts : start' + (start - start') = start := by omega
    have hmoved := symbolAt_add (trim row') start' (start - start') i
    rw [hstarts] at hmoved
    rw [htrim, hmoved]
  · rintro ⟨d, hd⟩
    have hsymbol : symbolAt (trim row) (start - d) = symbolAt (trim row') start' := by
      funext i
      rw [hd, ← symbolAt_add (trim row) (start - d) d i, Int.sub_add_cancel]
    exact eq_of_symbolAt_eq (isTrimmed_trim row) (isTrimmed_trim row') hsymbol

/-! Blanks at the ends make no difference, as they are blanks of the tape without ends. -/

theorem trim_append_blanks (row : List Symbol) (b : Nat) :
    trim (row ++ List.replicate b .blank) = trim row := by
  refine (trim_eq_iff 0 0).mpr ⟨0, fun i => ?_⟩
  rw [symbolAt_append_blanks, Int.add_zero]

theorem trim_blanks_append (a : Nat) (row : List Symbol) :
    trim (List.replicate a .blank ++ row) = trim row := by
  refine (trim_eq_iff 0 (0 + a)).mpr ⟨0, fun i => ?_⟩
  rw [symbolAt_blanks_append, Int.add_zero]

end Symbol

/-! ## Trimmed texts -/

namespace IndexedTape

variable (t : IndexedTape)

theorem trim_moveLeft : Symbol.trim t.moveLeft.cells = Symbol.trim t.cells := by
  rw [moveLeft]
  split
  · exact Symbol.trim_blanks_append 1 t.cells
  · rfl

theorem trim_moveRight : Symbol.trim t.moveRight.cells = Symbol.trim t.cells := by
  rw [moveRight]
  split
  · exact Symbol.trim_append_blanks t.cells 1
  · rfl

theorem trim_move (m : Movement) : Symbol.trim (t.move m).cells = Symbol.trim t.cells := by
  cases m with
  | left => exact t.trim_moveLeft
  | right => exact t.trim_moveRight

theorem trim_moveTo {n : Place} (h : n.toNat + 1 < 2 ^ 64) :
    Symbol.trim (t.moveTo n).cells = Symbol.trim t.cells := by
  rw [moveTo, Place.toNat_succ h]
  split
  · rename_i hle
    rw [resize_of_le (Nat.le_succ_of_le hle)]
    exact Symbol.trim_append_blanks _ _
  · rfl

/-- One more than the greatest place is zero, and that many cells are left. -/
theorem cells_moveTo_greatest {n : Place} (h : n.toNat + 1 = 2 ^ 64) (hsize : t.size < 2 ^ 64) :
    (t.moveTo n).cells = [] := by
  have hle : t.cells.length ≤ n.toNat := by
    rw [← h] at hsize
    exact Nat.le_of_lt_succ hsize
  have hzero : (n + 1).toNat = 0 := by
    rw [UInt64.toNat_add]
    show (n.toNat + 1) % 2 ^ 64 = 0
    omega
  rw [moveTo, if_pos hle, hzero]
  exact List.eq_nil_of_length_eq_zero (length_resize t.cells 0)

variable {t}

theorem trimmedText_inj {u : IndexedTape} :
    t.trimmedText = u.trimmedText ↔ Symbol.trim t.cells = Symbol.trim u.cells :=
  Symbol.rowText_inj

theorem trimmedText_eq_empty_iff : t.trimmedText = "" ↔ Symbol.trim t.cells = [] :=
  @Symbol.rowText_inj (Symbol.trim t.cells) []

/-- The trimmed text is the text without the spaces at its ends. It is empty if the tape has no
mark, and otherwise it begins and ends with one. Two tapes have the same trimmed text if, as tapes
without ends, they are the same up to a translation, and only then. Where the head is makes no
difference to it, but for the greatest place: to go there takes away all cells, and with them the
marks. -/
theorem trimmed_canonical (t u : IndexedTape) (first first' : ℤ) :
    (t.trimmedText = u.trimmedText ↔ (t.view first).IsTranslate (u.view first')) ∧
    (t.trimmedText = "" ↔ Symbol.mark ∉ t.cells) ∧
    (t.trimmedText ≠ "" →
      t.trimmedText.toList.head? = some '*' ∧ t.trimmedText.toList.getLast? = some '*') ∧
    (∃ a b, t.text.toList =
      List.replicate a ' ' ++ t.trimmedText.toList ++ List.replicate b ' ') ∧
    t.moveLeft.trimmedText = t.trimmedText ∧ t.moveRight.trimmedText = t.trimmedText ∧
    (∀ m, (t.move m).trimmedText = t.trimmedText) ∧
    (∀ n : Place, n.toNat + 1 < 2 ^ 64 → (t.moveTo n).trimmedText = t.trimmedText) ∧
    ∀ n : Place, n.toNat + 1 = 2 ^ 64 → t.size < 2 ^ 64 → (t.moveTo n).trimmedText = "" := by
  refine ⟨trimmedText_inj.trans (Symbol.trim_eq_iff first first'),
    trimmedText_eq_empty_iff.trans (Symbol.trim_eq_nil_iff t.cells), ?_, ?_,
    trimmedText_inj.mpr t.trim_moveLeft, trimmedText_inj.mpr t.trim_moveRight,
    fun m => trimmedText_inj.mpr (t.trim_move m),
    fun n hn => trimmedText_inj.mpr (t.trim_moveTo hn), ?_⟩
  · intro hne
    obtain ⟨hhead, hlast⟩ := Symbol.isTrimmed_trim t.cells (mt trimmedText_eq_empty_iff.mpr hne)
    rw [trimmedText, Symbol.toList_rowText, List.head?_map, List.getLast?_map, hhead, hlast]
    exact ⟨rfl, rfl⟩
  · obtain ⟨a, b, hcells⟩ := Symbol.eq_trim t.cells
    have hchars := congrArg (List.map Symbol.toChar) hcells
    rw [List.map_append, List.map_append, List.map_replicate, List.map_replicate] at hchars
    refine ⟨a, b, ?_⟩
    rw [text, trimmedText, Symbol.toList_rowText, Symbol.toList_rowText]
    exact hchars
  · intro n hn hsize
    rw [trimmedText, t.cells_moveTo_greatest hn hsize]
    rfl

/-- A tape with one mark has none once its head is at the greatest place. -/
theorem mark_lost_at_greatest :
    ∃ t, parse "*" = .ok t ∧ t.trimmedText = "*" ∧
      (t.moveTo 18446744073709551615).size = 0 ∧
      (t.moveTo 18446744073709551615).trimmedText = "" := by
  have hparse : parse "*" = .ok (ofSymbols [.mark]) := by cbv
  exact ⟨_, hparse, by decide, by decide, by decide⟩

end IndexedTape

end TapeMachine
