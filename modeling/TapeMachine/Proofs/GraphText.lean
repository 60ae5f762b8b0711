import Mathlib.Data.List.TakeWhile
import TapeMachine.Graph.Text

/-!
# The text of a graph determines it

Two graphs with the same text are equal. The text is put together from parts of
unknown length, some of which may be missing, so it has to be seen where each of them
ends. Every lemma here takes two texts that begin with the same kind of part and are
equal as a whole: then the parts are the same, and so is what follows them.

The number of a state ends where the digits do, and nothing that can follow a number
begins with a digit. A missing part is told from one that is there by the second
character, as the first is a space in either case.
-/

namespace TapeMachine

/-! ## Numbers -/

theorem toDigits_append_inj {m n : Nat} {u v : List Char}
    (hu : ∀ c ∈ u.head?, c.isDigit = false) (hv : ∀ c ∈ v.head?, c.isDigit = false)
    (h : Nat.toDigits 10 m ++ u = Nat.toDigits 10 n ++ v) : m = n ∧ u = v := by
  have hspan : ∀ (k : Nat) (w : List Char), (∀ c ∈ w.head?, c.isDigit = false) →
      (Nat.toDigits 10 k ++ w).takeWhile Char.isDigit = Nat.toDigits 10 k := by
    intro k w hw
    rw [List.takeWhile_append_of_pos
      fun c hc => Nat.isDigit_of_mem_toDigits (by decide) (by decide) hc]
    cases w with
    | nil => simp
    | cons c w => simp [hw c rfl]
  have hdigits : Nat.toDigits 10 m = Nat.toDigits 10 n := by
    rw [← hspan m u hu, h, hspan n v hv]
  have hvalue : m = n := by
    rw [← Nat.ofDigitChars_ten_toDigits (n := m), hdigits, Nat.ofDigitChars_ten_toDigits]
  rw [hdigits] at h
  exact ⟨hvalue, List.append_cancel_left h⟩

namespace StateId

theorem toList_text_halt : halt.text.toList = ['h', 'a', 'l', 't'] := rfl

theorem toList_text_slot (k : Nat) :
    (slot k).text.toList = 's' :: Nat.toDigits 10 (k + 1) := by
  rw [text, String.toList_append, Nat.toString_eq_repr, Nat.toList_repr]
  rfl

theorem text_append_inj {a b : StateId} {u v : List Char}
    (hu : ∀ c ∈ u.head?, c.isDigit = false) (hv : ∀ c ∈ v.head?, c.isDigit = false)
    (h : a.text.toList ++ u = b.text.toList ++ v) : a = b ∧ u = v := by
  cases a with
  | halt =>
      cases b with
      | halt => exact ⟨rfl, List.append_cancel_left h⟩
      | slot k => simp [toList_text_halt, toList_text_slot] at h
  | slot j =>
      cases b with
      | halt => simp [toList_text_halt, toList_text_slot] at h
      | slot k =>
          rw [toList_text_slot, toList_text_slot] at h
          obtain ⟨hnumber, hrest⟩ := toDigits_append_inj hu hv (List.cons.inj h).2
          exact ⟨congrArg slot (Nat.succ.inj hnumber), hrest⟩

end StateId

/-! ## Parts that may be missing -/

/-- The text `f a` if there is such an `a`, and else nothing. -/
def optionText {α : Type} (f : α → List Char) : Option α → List Char
  | none => []
  | some a => f a

/-- It can be told whether the part is there if what follows does not begin like the part. -/
theorem optionText_append_inj {α : Type} {f : α → List Char} {o o' : Option α} {u v : List Char}
    (hf : ∀ a b, f a ++ u = f b ++ v → a = b ∧ u = v) (hu : ∀ a w, f a ++ w ≠ u)
    (hv : ∀ a w, f a ++ w ≠ v) (h : optionText f o ++ u = optionText f o' ++ v) :
    o = o' ∧ u = v := by
  cases o with
  | none =>
      cases o' with
      | none => exact ⟨rfl, h⟩
      | some b => exact absurd h.symm (hu b v)
  | some a =>
      cases o' with
      | none => exact absurd h (hv a u)
      | some b =>
          obtain ⟨rfl, hrest⟩ := hf a b h
          exact ⟨rfl, hrest⟩

/-! ## Transitions -/

namespace Symbol

theorem toList_quoted (s : Symbol) : s.quoted.toList = ['\'', s.toChar, '\''] := by
  simp [quoted]

theorem quoted_append_inj {s s' : Symbol} {u v : List Char}
    (h : s.quoted.toList ++ u = s'.quoted.toList ++ v) : s = s' ∧ u = v := by
  simp only [toList_quoted, List.cons_append, List.nil_append, List.cons.injEq, true_and] at h
  exact ⟨toChar_inj.mp h.1, h.2⟩

end Symbol

theorem Movement.name_append_inj {m m' : Movement} {u v : List Char}
    (h : m.name.toList ++ u = m'.name.toList ++ v) : m = m' ∧ u = v := by
  cases m with
  | left =>
      cases m' with
      | left => exact ⟨rfl, List.append_cancel_left h⟩
      | right => simp [name] at h
  | right =>
      cases m' with
      | left => simp [name] at h
      | right => exact ⟨rfl, List.append_cancel_left h⟩

namespace Transition

def writeText (s : Symbol) : List Char :=
  [' ', 'w', 'r', 'i', 't', 'e', ' '] ++ s.quoted.toList

def moveText (m : Movement) : List Char :=
  ' ' :: m.name.toList

def nextText (next : StateId) : List Char :=
  [' ', '-', '>', ' '] ++ next.text.toList

theorem toList_text (read : String) (t : Transition StateId) :
    (t.text read).toList =
      '[' :: (read.toList ++ (optionText writeText t.write ++
        (optionText moveText t.move ++ (nextText t.next ++ [']'])))) := by
  obtain ⟨write, move, next⟩ := t
  cases write <;> cases move <;>
    simp [text, optionText, writeText, moveText, nextText]

theorem writeText_append_ne (s : Symbol) (w : List Char) (move : Option Movement) (next : StateId)
    (u : List Char) : writeText s ++ w ≠ optionText moveText move ++ (nextText next ++ u) := by
  rcases move with _ | _ | _ <;> simp [writeText, optionText, moveText, nextText, Movement.name]

theorem moveText_append_ne (m : Movement) (w : List Char) (next : StateId) (u : List Char) :
    moveText m ++ w ≠ nextText next ++ u := by
  cases m <;> simp [moveText, nextText, Movement.name]

/-- A bracket has its own end, so anything can follow it. -/
theorem text_append_inj {read : String} {t t' : Transition StateId} {u v : List Char}
    (h : (t.text read).toList ++ u = (t'.text read).toList ++ v) : t = t' ∧ u = v := by
  obtain ⟨write, move, next⟩ := t
  obtain ⟨write', move', next'⟩ := t'
  simp only [toList_text, List.cons_append, List.nil_append, List.append_assoc, List.cons.injEq,
    true_and, List.append_cancel_left_eq] at h
  obtain ⟨rfl, hmove⟩ := optionText_append_inj
    (fun s s' hs => Symbol.quoted_append_inj (by simpa [writeText] using hs))
    (fun s w => writeText_append_ne s w _ _ _) (fun s w => writeText_append_ne s w _ _ _) h
  obtain ⟨rfl, hnext⟩ := optionText_append_inj
    (fun m m' hm => Movement.name_append_inj (List.cons.inj hm).2)
    (fun m w => moveText_append_ne m w _ _) (fun m w => moveText_append_ne m w _ _) hmove
  simp only [nextText, List.append_assoc, List.append_cancel_left_eq] at hnext
  obtain ⟨rfl, hend⟩ := StateId.text_append_inj (by simp) (by simp) hnext
  exact ⟨rfl, (List.cons.inj hend).2⟩

end Transition

/-! ## States -/

namespace Table

theorem toList_text_onSymbol (marked blank : Transition StateId) :
    (onSymbol marked blank).text.toList =
      (marked.text Symbol.mark.quoted).toList ++
        ' ' :: (blank.text Symbol.blank.quoted).toList := by
  simp [text]

/-- The second character tells the two kinds of tables apart. -/
theorem text_append_inj {t t' : Table StateId} {u v : List Char}
    (h : t.text.toList ++ u = t'.text.toList ++ v) : t = t' ∧ u = v := by
  cases t with
  | always a =>
      cases t' with
      | always a' =>
          obtain ⟨rfl, hrest⟩ := Transition.text_append_inj h
          exact ⟨rfl, hrest⟩
      | onSymbol m' b' =>
          simp [text, Transition.toList_text, Symbol.toList_quoted] at h
  | onSymbol m b =>
      cases t' with
      | always a' =>
          simp [text, Transition.toList_text, Symbol.toList_quoted] at h
      | onSymbol m' b' =>
          simp only [toList_text_onSymbol, List.append_assoc, List.cons_append] at h
          obtain ⟨rfl, hblank⟩ := Transition.text_append_inj h
          obtain ⟨rfl, hrest⟩ := Transition.text_append_inj (List.cons.inj hblank).2
          exact ⟨rfl, hrest⟩

end Table

namespace State

def returnText (r : StateId) : List Char :=
  [' ', 'r', 'e', 't', 'u', 'r', 'n', 's', ' ', 't', 'o', ' '] ++ r.text.toList

theorem toList_text (s : State StateId) :
    s.text.toList = s.table.text.toList ++ optionText returnText s.returnTo := by
  obtain ⟨table, returnTo⟩ := s
  cases returnTo <;> simp [text, optionText, returnText]

theorem text_append_inj {s s' : State StateId} {u v : List Char}
    (h : s.text.toList ++ '\n' :: u = s'.text.toList ++ '\n' :: v) : s = s' ∧ u = v := by
  obtain ⟨table, returnTo⟩ := s
  obtain ⟨table', returnTo'⟩ := s'
  simp only [toList_text, List.append_assoc] at h
  obtain ⟨rfl, hreturn⟩ := Table.text_append_inj h
  have hne : ∀ (r : StateId) (w rest : List Char), returnText r ++ w ≠ '\n' :: rest := by
    simp [returnText]
  obtain ⟨rfl, hend⟩ := optionText_append_inj
    (fun r r' hr => by
      simp only [returnText, List.append_assoc, List.append_cancel_left_eq] at hr
      exact StateId.text_append_inj (by simp) (by simp) hr)
    (fun r w => hne r w u) (fun r w => hne r w v) hreturn
  exact ⟨rfl, (List.cons.inj hend).2⟩

end State

/-! ## Graphs -/

namespace Graph

/-- The lines of these states if they are numbered from the place `k` on. -/
def linesFrom (k : Nat) (states : List (State StateId)) : List Char :=
  (states.zipIdx k).flatMap fun p =>
    (StateId.slot p.2).text.toList ++ ':' :: ' ' :: (p.1.text.toList ++ ['\n'])

theorem linesFrom_cons (k : Nat) (s : State StateId) (l : List (State StateId)) :
    linesFrom k (s :: l) =
      (StateId.slot k).text.toList ++
        ':' :: ' ' :: (s.text.toList ++ '\n' :: linesFrom (k + 1) l) := by
  simp [linesFrom]

theorem toList_text (g : Graph) : g.text.toList = linesFrom 0 g.states.toList := by
  simp [text, lines, linesFrom, String.toList_join, List.flatMap_map]

theorem linesFrom_inj {k : Nat} {l l' : List (State StateId)}
    (h : linesFrom k l = linesFrom k l') : l = l' := by
  induction l generalizing k l' with
  | nil =>
      cases l' with
      | nil => rfl
      | cons s' l' => simp [linesFrom] at h
  | cons s l ih =>
      cases l' with
      | nil => simp [linesFrom] at h
      | cons s' l' =>
          rw [linesFrom_cons, linesFrom_cons] at h
          -- the place gives the number, so both lines begin with the same one
          have hstate := (List.cons.inj (List.cons.inj (List.append_cancel_left h)).2).2
          obtain ⟨rfl, hrest⟩ := State.text_append_inj hstate
          rw [ih hrest]

/-- The text of a graph determines the graph: the number of its states, and for each of them the
kind of its table, what is written, where the head moves, where to go on and where to return. -/
theorem text_inj {g g' : Graph} : g.text = g'.text ↔ g = g' := by
  refine ⟨fun h => ?_, congrArg text⟩
  obtain ⟨states⟩ := g
  obtain ⟨states'⟩ := g'
  rw [← String.toList_inj, toList_text, toList_text] at h
  exact congrArg Graph.mk (Array.toList_inj.mp (linesFrom_inj h))

end Graph

end TapeMachine
