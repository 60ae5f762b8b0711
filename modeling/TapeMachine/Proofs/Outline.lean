import Mathlib.Data.List.Nodup
import TapeMachine.Check
import TapeMachine.Compile.Outline

/-!
# What an outline holds

The compiler reads the keys of a scope and collects what they declare in one
pass. Here the pass is taken apart: the keys are tested by `checkKeys`, and what
is collected are the bodies and the numbered instructions of the scope. In a
scope whose keys pass the test, no index comes twice.
-/

namespace TapeMachine

namespace Key

theorem kind_of_index {k : Key} {i : Index} (h : k.index? = some i) : k.kind = .index i := by
  rw [kind, h]

theorem kind_of_not_index {k : Key} (h : k.index? = none) :
    k.kind = if k.isName then .name else if k.looksNumeric then .numeric else .other := by
  rw [kind, h]

end Key

namespace Scope

/-- Reading the keys fails as their test does, and otherwise gives what stands under them. -/
theorem declarations_eq (s : Scope) (seen : List Index) :
    s.declarations seen =
      (s.checkKeys seen).map fun _ =>
        { subroutines := s.subroutines, instructions := s.numbered } := by
  induction s generalizing seen with
  | nil => rfl
  | instr key i rest ih =>
      rw [declarations, checkKeys, numbered, subroutines]
      cases hk : key.index? with
      | some index =>
          rw [Key.kind_of_index hk]
          by_cases hseen : index ∈ seen
          · simp only [if_pos hseen]
            rfl
          · simp only [if_neg hseen, ih]
            cases rest.checkKeys (index :: seen) <;> rfl
      | none =>
          rw [Key.kind_of_not_index hk]
          cases key.isName
          · cases hn : key.looksNumeric <;> simp [Key.malformed, hn, Except.map]
          · rfl
  | sub key body rest _ ih =>
      rw [declarations, checkKeys, numbered, subroutines]
      cases hk : key.index? with
      | some index =>
          rw [Key.kind_of_index hk]
          rfl
      | none =>
          rw [Key.kind_of_not_index hk]
          cases key.isName
          · cases hn : key.looksNumeric <;> simp [Key.malformed, hn, Except.map]
          · simp only [if_true, ih]
            cases rest.checkKeys seen <;> rfl

theorem outline_eq (s : Scope) :
    s.outline = do
      s.checkKeys []
      if s.numbered.isEmpty then throw .emptyScope
      return { subroutines := s.subroutines, instructions := s.numbered } := by
  rw [outline, declarations_eq]
  cases s.checkKeys [] with
  | error e => rfl
  | ok _ =>
      show (if s.numbered.isEmpty then _ else _) = _
      cases s.numbered.isEmpty <;> rfl

/-- A scope that has an outline: its keys pass the test, and there is an instruction. -/
theorem outline_eq_ok {s : Scope} {o : Outline} (h : s.outline = .ok o) :
    s.checkKeys [] = .ok () ∧ s.numbered ≠ [] ∧
      o.subroutines = s.subroutines ∧ o.instructions = s.numbered := by
  rw [outline_eq] at h
  cases hkeys : s.checkKeys [] with
  | error e =>
      rw [hkeys] at h
      cases h
  | ok u =>
      rw [hkeys] at h
      cases hn : s.numbered with
      | nil =>
          rw [hn] at h
          cases h
      | cons entry rest =>
          rw [hn] at h
          cases h
          exact ⟨rfl, by simp, rfl, rfl⟩

theorem checkKeys_instr {key : Key} {i : Instruction} {rest : Scope} {seen : List Index}
    (h : (instr key i rest).checkKeys seen = .ok ()) :
    ∃ index, key.index? = some index ∧ index ∉ seen ∧
      rest.checkKeys (index :: seen) = .ok () := by
  rw [checkKeys] at h
  cases hk : key.index? with
  | none =>
      simp only [hk] at h
      split at h <;> cases h
  | some index =>
      simp only [hk] at h
      split at h
      · cases h
      · exact ⟨index, rfl, ‹_›, h⟩

theorem checkKeys_sub {key : Key} {body rest : Scope} {seen : List Index}
    (h : (sub key body rest).checkKeys seen = .ok ()) :
    key.index? = none ∧ key.isName = true ∧ rest.checkKeys seen = .ok () := by
  rw [checkKeys] at h
  cases hk : key.index? with
  | some index =>
      simp only [hk] at h
      cases h
  | none =>
      simp only [hk] at h
      split at h
      · exact ⟨rfl, ‹_›, h⟩
      · cases h

theorem not_mem_seen_of_checkKeys {s : Scope} {seen : List Index}
    (h : s.checkKeys seen = .ok ()) : ∀ i ∈ s.numbered.map Prod.fst, i ∉ seen := by
  induction s generalizing seen with
  | nil => simp [numbered]
  | instr key i rest ih =>
      obtain ⟨index, hk, hseen, hrest⟩ := checkKeys_instr h
      rw [numbered, hk]
      intro j hj
      rw [List.map_cons, List.mem_cons] at hj
      rcases hj with rfl | hj
      · exact hseen
      · exact fun hm => ih hrest j hj (List.mem_cons_of_mem _ hm)
  | sub key body rest _ ih => exact ih (checkKeys_sub h).2.2

theorem nodup_numbered_of_checkKeys {s : Scope} {seen : List Index}
    (h : s.checkKeys seen = .ok ()) : (s.numbered.map Prod.fst).Nodup := by
  induction s generalizing seen with
  | nil => simp [numbered]
  | instr key i rest ih =>
      obtain ⟨index, hk, -, hrest⟩ := checkKeys_instr h
      rw [numbered, hk, List.map_cons, List.nodup_cons]
      refine ⟨?_, ih hrest⟩
      intro hm
      exact not_mem_seen_of_checkKeys hrest index hm List.mem_cons_self
  | sub key body rest _ ih => exact ih (checkKeys_sub h).2.2

end Scope

end TapeMachine
