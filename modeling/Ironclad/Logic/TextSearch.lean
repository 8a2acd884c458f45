import Mathlib.Data.List.DropRight
import Mathlib.Tactic.TypeStar

/-!
# Searching and erasing in texts

The operations of a string class on a text that is a list of symbols: search forward for a place,
search backward for a symbol, erase a range. Positions are numbers, and the position behind which
nothing is found is `none`.

Erasing from behind the last symbol of a kind up to a place is cutting the text there and dropping
its tail (`take_afterLast`), so a loop over positions can be read as one over a finished part and
a rest.
-/

namespace Ironclad.Logic.Text

variable {α : Type*}

/-- The first place from `pos` on where the rest of the text has the property. -/
def find (p : List α → Bool) (text : List α) (pos : Nat) : Option Nat :=
  (List.range text.length).find? fun i => decide (pos ≤ i) && p (text.drop i)

/-- The last place up to `pos` with a symbol that has the property. -/
def findLast (p : α → Bool) (text : List α) : Nat → Option Nat
  | 0 => if text[0]?.any p then some 0 else none
  | pos + 1 => if text[pos + 1]?.any p then some (pos + 1) else findLast p text pos

/-- The text without the symbols from `first` up to `last`. -/
def erase (text : List α) (first last : Nat) : List α := text.take first ++ text.drop last

/-- The place behind the last symbol with the property, or the beginning. -/
def afterLast (p : α → Bool) (text : List α) (pos : Nat) : Nat :=
  match findLast p text pos with
  | none => 0
  | some i => i + 1

section

variable {p : List α → Bool} {text : List α} {pos i : Nat}

theorem find_eq_some_iff : find p text pos = some i ↔
    pos ≤ i ∧ i < text.length ∧ p (text.drop i) = true ∧
      ∀ j, pos ≤ j → j < i → p (text.drop j) = false := by
  unfold find
  rw [List.find?_range_eq_some]
  simp only [Bool.and_eq_true, decide_eq_true_eq, List.mem_range, Bool.not_eq_eq_eq_not,
    Bool.not_true, Bool.and_eq_false_iff, decide_eq_false_iff_not]
  constructor
  · intro ⟨⟨hpos, hi⟩, hlt, hfirst⟩
    exact ⟨hpos, hlt, hi, fun j hj hji => (hfirst j hji).resolve_left fun hn => hn hj⟩
  · intro ⟨hpos, hlt, hi, hfirst⟩
    refine ⟨⟨hpos, hi⟩, hlt, fun j hji => ?_⟩
    rcases Nat.lt_or_ge j pos with hj | hj
    · exact .inl (by omega)
    · exact .inr (hfirst j hj hji)

theorem find_eq_none_iff : find p text pos = none ↔
    ∀ i, pos ≤ i → i < text.length → p (text.drop i) = false := by
  unfold find
  rw [List.find?_range_eq_none]
  simp only [Bool.not_eq_eq_eq_not, Bool.not_true, Bool.and_eq_false_iff, decide_eq_false_iff_not]
  constructor
  · intro h i hpos hi
    exact (h i hi).resolve_left fun hn => hn hpos
  · intro h i hi
    rcases Nat.lt_or_ge i pos with hlt | hge
    · exact .inl (by omega)
    · exact .inr (h i hge hi)

theorem drop_append_add (front rest : List α) (i : Nat) :
    (front ++ rest).drop (front.length + i) = rest.drop i := by
  rw [List.drop_append, List.drop_eq_nil_of_le (by omega), List.nil_append,
    Nat.add_sub_cancel_left]

/-- Behind a first part the search is one of the rest. -/
theorem find_append (p : List α → Bool) (front rest : List α) (pos : Nat) :
    find p (front ++ rest) (front.length + pos) = (find p rest pos).map (front.length + ·) := by
  cases h : find p rest pos with
  | none =>
      rw [find_eq_none_iff] at h
      rw [Option.map_none, find_eq_none_iff]
      intro i hi hlt
      obtain ⟨j, rfl⟩ := Nat.exists_eq_add_of_le (show front.length ≤ i by omega)
      rw [List.length_append] at hlt
      rw [drop_append_add]
      exact h j (by omega) (by omega)
  | some i =>
      obtain ⟨hpos, hlt, hi, hfirst⟩ := find_eq_some_iff.mp h
      rw [Option.map_some, find_eq_some_iff, List.length_append, drop_append_add]
      refine ⟨by omega, by omega, hi, ?_⟩
      intro j hj hji
      obtain ⟨k, rfl⟩ := Nat.exists_eq_add_of_le (show front.length ≤ j by omega)
      rw [drop_append_add]
      exact hfirst k (by omega) (by omega)

/-- A place that is none can be left out of the search. -/
theorem find_succ (h : p (text.drop pos) = false) : find p text pos = find p text (pos + 1) := by
  unfold find
  congr 1
  funext i
  rcases Nat.lt_trichotomy i pos with hlt | rfl | hgt
  · rw [decide_eq_false (by omega), decide_eq_false (by omega)]
  · rw [h, Bool.and_false, Bool.and_false]
  · rw [decide_eq_true (by omega), decide_eq_true (by omega)]

end

section

variable {p : α → Bool} {text : List α} {pos i : Nat}

theorem findLast_le (h : findLast p text pos = some i) : i ≤ pos := by
  induction pos with
  | zero =>
      unfold findLast at h
      split at h
      · exact le_of_eq (Option.some.inj h).symm
      · cases h
  | succ pos ih =>
      unfold findLast at h
      split at h
      · exact le_of_eq (Option.some.inj h).symm
      · exact Nat.le_succ_of_le (ih h)

theorem findLast_any (h : findLast p text pos = some i) : text[i]?.any p = true := by
  induction pos with
  | zero =>
      unfold findLast at h
      split at h
      · cases h
        assumption
      · cases h
  | succ pos ih =>
      unfold findLast at h
      split at h
      · cases h
        assumption
      · exact ih h

/-- What is in front of the place behind the last symbol is the text without its tail. -/
theorem take_afterLast (p : α → Bool) (text : List α) (pos : Nat) :
    text.take (afterLast p text pos) = (text.take (pos + 1)).rdropWhile fun a => !p a := by
  unfold afterLast
  induction pos with
  | zero =>
      unfold findLast
      cases text with
      | nil => rfl
      | cons a text =>
          show _ = [a].rdropWhile _
          rw [List.rdropWhile_singleton]
          cases h : p a <;> simp [h]
  | succ pos ih =>
      unfold findLast
      rw [List.take_add_one]
      cases h : text[pos + 1]? with
      | none =>
          rw [Option.any_none, if_neg Bool.false_ne_true, Option.toList_none, List.append_nil]
          exact ih
      | some a =>
          rw [Option.any_some, Option.toList_some]
          cases ha : p a with
          | true =>
              rw [if_pos rfl, List.rdropWhile_concat_neg _ _ _ (by simp [ha]), List.take_add_one, h]
              rfl
          | false =>
              rw [if_neg Bool.false_ne_true, List.rdropWhile_concat_pos _ _ _ (by simp [ha])]
              exact ih

end

/-! ## Erasing -/

section

variable {text : List α} {a g q n i m : Nat}

theorem length_erase {first last : Nat} (h : first ≤ last) (hlast : last ≤ text.length) :
    (erase text first last).length = text.length - (last - first) := by
  unfold erase
  rw [List.length_append, List.length_take, List.length_drop]
  omega

theorem getElem?_erase (ha : a ≤ text.length) :
    (erase text a (a + n))[i]? = if i < a then text[i]? else text[i + n]? := by
  have hlen : (text.take a).length = a := by
    rw [List.length_take]
    omega
  unfold erase
  split
  · rename_i hi
    rw [List.getElem?_append_left (by omega), List.getElem?_take_of_lt hi]
  · rw [List.getElem?_append_right (by omega), List.getElem?_drop, hlen]
    congr 1
    omega

/-- **Erasing as many symbols at two places** gives the same text exactly if the symbols in between
repeat. -/
theorem erase_eq_iff (hgq : g ≤ q) (hq : q ≤ text.length) :
    erase text q (q + n) = erase text g (g + n) ↔
      ∀ i, g ≤ i → i < q → text[i]? = text[i + n]? := by
  constructor
  · intro h i hgi hiq
    have hat := congrArg (fun l => l[i]?) h
    simp only [getElem?_erase hq, getElem?_erase (hgq.trans hq), if_pos hiq,
      if_neg (show ¬i < g by omega)] at hat
    exact hat
  · intro h
    apply List.ext_getElem?
    intro i
    rw [getElem?_erase hq, getElem?_erase (hgq.trans hq)]
    by_cases hiq : i < q
    · by_cases hig : i < g
      · rw [if_pos hiq, if_pos hig]
      · rw [if_pos hiq, if_neg hig]
        exact h i (by omega) hiq
    · rw [if_neg hiq, if_neg (by omega)]

theorem mem_take_of_getElem? {c : α} (h : text[m]? = some c) (hm : m < n) : c ∈ text.take n := by
  apply List.mem_of_getElem? (i := m)
  rw [List.getElem?_take_of_lt hm]
  exact h

end

/-! ## Symbols that carry more -/

section

variable {β : Type*} {f : α → β} {text : List α} {pos : Nat}

/-- A search that only looks at the images of the symbols. -/
theorem find_map {p : List α → Bool} {q : List β → Bool} (h : ∀ l, p l = q (l.map f)) :
    find p text pos = find q (text.map f) pos := by
  unfold find
  rw [List.length_map]
  congr 1
  funext i
  rw [h, List.map_drop]

theorem findLast_map {p : α → Bool} {q : β → Bool} (h : ∀ a, p a = q (f a)) :
    findLast p text pos = findLast q (text.map f) pos := by
  have hat : ∀ i : Nat, text[i]?.any p = (text.map f)[i]?.any q := by
    intro i
    rw [List.getElem?_map]
    cases text[i]? with
    | none => rfl
    | some a => exact h a
  induction pos with
  | zero =>
      unfold findLast
      rw [hat]
  | succ pos ih =>
      unfold findLast
      rw [hat, ih]

theorem map_erase (first last : Nat) :
    (erase text first last).map f = erase (text.map f) first last := by
  unfold erase
  rw [List.map_append, List.map_take, List.map_drop]

end

/-! ## Symbols in order -/

/-- In a text whose symbols are in order, the tail that is dropped is what has no symbol with the
property behind it. -/
theorem mem_rdropWhile_iff {p : α → Bool} {key : α → Nat} {text : List α}
    (hsorted : text.Pairwise fun a b => key a < key b) {a : α} :
    a ∈ text.rdropWhile (fun a => !p a) ↔
      a ∈ text ∧ ∃ b ∈ text, p b = true ∧ key a ≤ key b := by
  induction text using List.reverseRecOn with
  | nil => simp
  | append_singleton text x ih =>
      obtain ⟨hfront, -, hlast⟩ := List.pairwise_append.mp hsorted
      have hlt : ∀ b ∈ text, key b < key x := fun b hb => hlast b hb x (List.mem_singleton_self x)
      cases hx : p x with
      | true =>
          rw [List.rdropWhile_concat_neg _ _ _ (by simp [hx])]
          constructor
          · intro ha
            refine ⟨ha, x, List.mem_append_right _ (List.mem_singleton_self x), hx, ?_⟩
            rcases List.mem_append.mp ha with ha | ha
            · exact Nat.le_of_lt (hlt a ha)
            · rw [List.mem_singleton.mp ha]
          · exact And.left
      | false =>
          rw [List.rdropWhile_concat_pos _ _ _ (by simp [hx]), ih hfront]
          constructor
          · intro ⟨ha, b, hb, hpb, hle⟩
            exact ⟨List.mem_append_left _ ha, b, List.mem_append_left _ hb, hpb, hle⟩
          · intro ⟨ha, b, hb, hpb, hle⟩
            -- `b` is not the last symbol, and `a` is in front of it
            have hb' : b ∈ text := by
              rcases List.mem_append.mp hb with hb | hb
              · exact hb
              · rw [List.mem_singleton.mp hb, hx] at hpb
                cases hpb
            refine ⟨?_, b, hb', hpb, hle⟩
            rcases List.mem_append.mp ha with ha | ha
            · exact ha
            · have hblt := hlt b hb'
              rw [List.mem_singleton.mp ha] at hle
              omega

end Ironclad.Logic.Text
