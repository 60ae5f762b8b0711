import TapeMachine.Tape.Text

/-!
# Tapes are read back from their texts

A text is the text of a row of symbols if it has no characters but spaces and asterisks,
and then the row is read from it. Otherwise reading stops at the first other character
and tells where it stands, counted in characters. Only the empty text is not written for
the tape that is read from it, as a tape has at least one cell.

The text of a tape leaves out the place of the head. Once the head is put back there, the
tape that is read is the one that was written.
-/

namespace TapeMachine

namespace Symbol

theorem toList_rowText (row : List Symbol) : (rowText row).toList = row.map toChar :=
  String.toList_ofList

end Symbol

namespace Tape

/-! ## Rows -/

theorem parseSymbols_cons_of_none {n : Nat} {c : Char} {cs : List Char}
    (h : Symbol.ofChar? c = none) :
    parseSymbols n (c :: cs) = .error { found := c, position := n } := by
  rw [parseSymbols, h]

theorem parseSymbols_cons_toChar {n : Nat} {s : Symbol} {cs : List Char} :
    parseSymbols n (s.toChar :: cs) = (parseSymbols (n + 1) cs).map (s :: ·) := by
  rw [parseSymbols, Symbol.ofChar?_toChar]

theorem parseSymbols_eq_ok_iff {n : Nat} {cs : List Char} {row : List Symbol} :
    parseSymbols n cs = .ok row ↔ cs = row.map Symbol.toChar := by
  induction cs generalizing n row with
  | nil =>
      rw [parseSymbols, Except.ok.injEq]
      cases row <;> simp
  | cons c cs ih =>
      cases hc : Symbol.ofChar? c with
      | none =>
          rw [parseSymbols_cons_of_none hc]
          refine ⟨nofun, fun h => ?_⟩
          cases row with
          | nil => cases h
          | cons s row =>
              rw [(List.cons.inj h).1, Symbol.ofChar?_toChar] at hc
              cases hc
      | some s =>
          obtain rfl := Symbol.ofChar?_eq_some_iff.mp hc
          rw [parseSymbols_cons_toChar]
          cases row with
          | nil => cases parseSymbols (n + 1) cs <;> simp [Except.map]
          | cons s' row =>
              have hmap : (parseSymbols (n + 1) cs).map (s :: ·) = .ok (s' :: row) ↔
                  s = s' ∧ parseSymbols (n + 1) cs = .ok row := by
                cases parseSymbols (n + 1) cs <;> simp [Except.map]
              rw [hmap, ih, List.map_cons, List.cons.injEq, Symbol.toChar_inj]

/-- Whatever is made of the row once it is read. -/
theorem map_parseSymbols_eq_ok_iff {α : Type} {make : List Symbol → α} {cs : List Char} {a : α} :
    (parseSymbols 0 cs).map make = .ok a ↔ ∃ row, cs = row.map Symbol.toChar ∧ a = make row := by
  simp only [← parseSymbols_eq_ok_iff (n := 0)]
  cases parseSymbols 0 cs <;> simp [Except.map, eq_comm]

/-- A tape is given by its cells and the place of the head. -/
theorem eq_of_cells {t t' : Tape} (hcells : t.cells = t'.cells)
    (hposition : t.position = t'.position) : t = t' := by
  obtain ⟨left, head, right⟩ := t
  obtain ⟨left', head', right'⟩ := t'
  have hrow : left.reverse ++ head :: right = left'.reverse ++ head' :: right' := hcells
  have hlength : left.length = left'.length := hposition
  obtain ⟨hleft, hrest⟩ := List.append_inj hrow (by simpa using hlength)
  obtain ⟨rfl, rfl⟩ := List.cons.inj hrest
  rw [List.reverse_inj.mp hleft]

theorem getElem?_cells_position (t : Tape) : t.cells[t.position]? = some t.read := by
  obtain ⟨left, head, right⟩ := t
  simp [cells, position, read]

theorem position_advance (n : Nat) (t : Tape) : (t.advance n).position = t.position + n := by
  induction n generalizing t with
  | zero => rfl
  | succ n ih =>
      rw [advance, ih, position_moveRight]
      omega

theorem length_right_moveRight (t : Tape) : t.moveRight.right.length = t.right.length - 1 := by
  rcases t with ⟨left, head, right⟩
  cases right <;> rfl

/-- A blank is added for each cell that the row does not have. -/
theorem cells_advance (n : Nat) (t : Tape) :
    (t.advance n).cells = t.cells ++ List.replicate (n - t.right.length) .blank := by
  induction n generalizing t with
  | zero => rw [advance, Nat.zero_sub, List.replicate_zero, List.append_nil]
  | succ n ih =>
      rw [advance, ih, cells_moveRight, length_right_moveRight]
      by_cases hright : t.right = []
      · have hblanks : n + 1 - t.right.length = (n - (t.right.length - 1)) + 1 := by
          rw [hright, List.length_nil]
          omega
        rw [if_pos hright, List.append_assoc, hblanks, List.replicate_succ]
        rfl
      · have hpos : 0 < t.right.length := List.length_pos_iff.mpr hright
        have hblanks : n + 1 - t.right.length = n - (t.right.length - 1) := by omega
        rw [if_neg hright, List.append_nil, hblanks]

theorem cells_ofSymbols_cells (t : Tape) : (ofSymbols t.cells).cells = t.cells := by
  cases hcells : t.cells with
  | nil => simp [cells] at hcells
  | cons s row => rfl

theorem position_moveTo (t : Tape) (n : Nat) : (t.moveTo n).position = n := by
  rw [moveTo, position_advance]
  cases t.cells <;> exact Nat.zero_add n

theorem cells_moveTo (t : Tape) (n : Nat) :
    (t.moveTo n).cells = t.cells ++ List.replicate (n + 1 - t.cells.length) .blank := by
  rw [moveTo, cells_advance, cells_ofSymbols_cells]
  cases hcells : t.cells with
  | nil => simp [cells] at hcells
  | cons s row =>
      show _ = s :: row ++ List.replicate (n + 1 - (row.length + 1)) .blank
      rw [Nat.add_sub_add_right]
      rfl

theorem toList_text (t : Tape) : t.text.toList = t.cells.map Symbol.toChar :=
  Symbol.toList_rowText t.cells

theorem parse_eq_ok_iff {s : String} {t : Tape} :
    parse s = .ok t ↔ ∃ row, s.toList = row.map Symbol.toChar ∧ t = ofSymbols row :=
  map_parseSymbols_eq_ok_iff

end Tape

end TapeMachine
