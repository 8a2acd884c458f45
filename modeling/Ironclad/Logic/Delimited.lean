import Ironclad.Logic.TextSearch

/-!
# Delimited text

A text of lines, each ended by a terminator, and a line of fields with a separator between them,
which a reader finds by position. Nothing is escaped: texts without the symbol are read as they
were written, and what is read never contains the symbol.
-/

namespace Ironclad.Logic.Text

variable {α : Type*} {s t : α} {field rest text : List α} {pos i : Nat}

/-- At most `n` symbols from `pos` on. -/
def slice (text : List α) (pos n : Nat) : List α := (text.drop pos).take n

theorem getElem?_ne_of_not_mem (h : s ∉ text) : text[i]? ≠ some s :=
  fun hi => h (List.mem_of_getElem? hi)

theorem slice_field (front field rest : List α) :
    slice (front ++ (field ++ rest)) front.length field.length = field := by
  unfold slice
  rw [List.drop_left, List.take_left]

theorem slice_last (front field : List α) :
    slice (front ++ field) front.length field.length = field := by
  unfold slice
  rw [List.drop_left, List.take_length]

section

variable [DecidableEq α]

/-- The lines of a text, each up to the next terminator, the last one possibly up to the end. -/
def lines (t : α) : List α → List (List α)
  | [] => []
  | c :: cs =>
      if c = t then [] :: lines t cs
      else match lines t cs with
        | [] => [[c]]
        | l :: ls => (c :: l) :: ls

/-- The next place from `pos` on with the symbol. -/
def findSymbol (s : α) (text : List α) (pos : Nat) : Option Nat :=
  find (fun rest => rest.head? == some s) text pos

/-! ## Lines -/

theorem lines_append (h : t ∉ field) : lines t (field ++ t :: rest) = field :: lines t rest := by
  induction field with
  | nil =>
      show lines t (t :: rest) = _
      rw [lines, if_pos rfl]
  | cons c field ih =>
      rw [List.mem_cons, not_or] at h
      show lines t (c :: (field ++ t :: rest)) = _
      rw [lines, if_neg (Ne.symm h.1), ih h.2]

/-- **Lines are read as they were written.** -/
theorem lines_terminate {ls : List (List α)} (h : ∀ l ∈ ls, t ∉ l) :
    lines t (ls.flatMap fun l => l ++ [t]) = ls := by
  induction ls with
  | nil => rfl
  | cons l ls ih =>
      rw [List.forall_mem_cons] at h
      rw [List.flatMap_cons, List.append_assoc, List.singleton_append, lines_append h.1, ih h.2]

/-! ## Places -/

theorem head?_drop_eq_iff : ((text.drop i).head? == some s) = true ↔ text[i]? = some s := by
  rw [List.head?_drop, beq_iff_eq]

theorem findSymbol_eq_some_iff : findSymbol s text pos = some i ↔
    pos ≤ i ∧ text[i]? = some s ∧ ∀ j, pos ≤ j → j < i → text[j]? ≠ some s := by
  unfold findSymbol
  rw [find_eq_some_iff]
  simp only [head?_drop_eq_iff, ← Bool.not_eq_true]
  constructor
  · intro ⟨hpos, _, hi, hfirst⟩
    exact ⟨hpos, hi, hfirst⟩
  · intro ⟨hpos, hi, hfirst⟩
    obtain ⟨hlt, -⟩ := List.getElem?_eq_some_iff.mp hi
    exact ⟨hpos, hlt, hi, hfirst⟩

theorem findSymbol_eq_none_iff : findSymbol s text pos = none ↔
    ∀ i, pos ≤ i → text[i]? ≠ some s := by
  unfold findSymbol
  rw [find_eq_none_iff]
  simp only [head?_drop_eq_iff, ← Bool.not_eq_true]
  constructor
  · intro h i hpos hi
    obtain ⟨hlt, -⟩ := List.getElem?_eq_some_iff.mp hi
    exact h i hpos hlt hi
  · intro h i hpos _
    exact h i hpos

theorem findSymbol_bounds (h : findSymbol s text pos = some i) : pos ≤ i ∧ i < text.length := by
  obtain ⟨hpos, hi, -⟩ := findSymbol_eq_some_iff.mp h
  obtain ⟨hlt, -⟩ := List.getElem?_eq_some_iff.mp hi
  exact ⟨hpos, hlt⟩

/-! ## Fields -/

/-- The search for the end of a field that another one follows. -/
theorem findSymbol_field (front rest : List α) (h : s ∉ field) :
    findSymbol s (front ++ (field ++ s :: rest)) front.length =
      some (front.length + field.length) := by
  rw [findSymbol_eq_some_iff]
  refine ⟨by omega, ?_, fun j hj hlt => ?_⟩
  · rw [List.getElem?_append_right (by omega), Nat.add_sub_cancel_left,
      List.getElem?_append_right le_rfl, Nat.sub_self]
    rfl
  · rw [List.getElem?_append_right hj, List.getElem?_append_left (by omega)]
    exact getElem?_ne_of_not_mem h

/-- The search for the end of the last field. -/
theorem findSymbol_last (front : List α) (h : s ∉ field) : findSymbol s (front ++ field) front.length = none := by
  rw [findSymbol_eq_none_iff]
  intro j hj
  rw [List.getElem?_append_right hj]
  exact getElem?_ne_of_not_mem h

/-- What is in front of the first separator does not contain it. -/
theorem not_mem_slice_of_find (h : findSymbol s text 0 = some i) : s ∉ slice text 0 i := by
  intro hmem
  obtain ⟨j, hj⟩ := List.mem_iff_getElem?.mp hmem
  unfold slice at hj
  rw [List.drop_zero, List.getElem?_take, Option.ite_none_right_eq_some] at hj
  exact (findSymbol_eq_some_iff.mp h).2.2 j (Nat.zero_le j) hj.1 hj.2

theorem not_mem_of_find_none (h : findSymbol s text 0 = none) : s ∉ text := by
  intro hmem
  obtain ⟨j, hj⟩ := List.mem_iff_getElem?.mp hmem
  exact findSymbol_eq_none_iff.mp h j (Nat.zero_le j) hj

end

end Ironclad.Logic.Text
