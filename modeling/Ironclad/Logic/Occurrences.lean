import Mathlib.Data.List.Infix
import Ironclad.Logic.TextSearch

/-!
# Occurrences of a pattern

Where a pattern stands in a text, the text without its occurrences (`deleteAll`), and when that is
the same text as the one that loses as many symbols at its beginning (`deleteAll_eq_drop_iff`).
The occurrences of a pattern whose first symbol does not come again in it do not overlap.
-/

namespace Ironclad.Logic.Text

variable {α : Type*} {pat text front rest : List α} {a : α} {i j : Nat}

/-- The pattern stands in the text at `i`. -/
def OccursAt (pat text : List α) (i : Nat) : Prop := pat <+: text.drop i

instance [DecidableEq α] (pat text : List α) (i : Nat) : Decidable (OccursAt pat text i) :=
  inferInstanceAs (Decidable (pat <+: text.drop i))

theorem occursAt_zero_iff : OccursAt pat text 0 ↔ pat <+: text := Iff.rfl

@[simp] theorem occursAt_cons_succ : OccursAt pat (a :: text) (i + 1) ↔ OccursAt pat text i :=
  Iff.rfl

theorem occursAt_drop_iff : OccursAt pat (text.drop i) j ↔ OccursAt pat text (i + j) := by
  unfold OccursAt
  rw [List.drop_drop]

theorem occursAt_append_add :
    OccursAt pat (front ++ rest) (front.length + i) ↔ OccursAt pat rest i := by
  unfold OccursAt
  rw [drop_append_add]

theorem OccursAt.append_right (h : OccursAt pat text i) : OccursAt pat (text ++ rest) i := by
  obtain ⟨tail, htail⟩ := h
  unfold OccursAt
  rw [List.drop_append, ← htail, List.append_assoc]
  exact List.prefix_append pat _

/-- An occurrence is inside of the text. -/
theorem OccursAt.add_length_le (h : OccursAt pat text i) (hi : i ≤ text.length) :
    i + pat.length ≤ text.length := by
  have hlen := h.length_le
  rw [List.length_drop] at hlen
  omega

theorem OccursAt.lt_length (h : OccursAt pat text i) (hpat : pat ≠ []) : i < text.length := by
  have hlen := h.length_le
  have hpos := List.length_pos_iff.mpr hpat
  rw [List.length_drop] at hlen
  omega

theorem OccursAt.eq_append (h : OccursAt pat text i) :
    text = text.take i ++ (pat ++ text.drop (i + pat.length)) := by
  obtain ⟨tail, htail⟩ := h
  have hrest : text.drop (i + pat.length) = tail := by
    rw [← List.drop_drop, ← htail, List.drop_left]
  rw [hrest, htail, List.take_append_drop]

/-- Whether the pattern stands inside of the first part depends on that part only. -/
theorem occursAt_append_iff (h : i + pat.length ≤ text.length) :
    OccursAt pat (text ++ rest) i ↔ OccursAt pat text i := by
  refine ⟨fun hocc => ?_, .append_right⟩
  unfold OccursAt at hocc ⊢
  rw [List.drop_append_of_le_length (by omega)] at hocc
  refine List.prefix_of_prefix_length_le hocc (List.prefix_append _ rest) ?_
  rw [List.length_drop]
  omega

/-- The symbols of an occurrence are those of the pattern. -/
theorem OccursAt.getElem? (h : OccursAt pat text i) (hj : j < pat.length) :
    text[i + j]? = pat[j]? := by
  obtain ⟨tail, htail⟩ := h
  rw [← List.getElem?_drop, ← htail, List.getElem?_append_left hj]

/-- The first occurrence is where `find` finds it. -/
theorem find_isPrefixOf_eq_some_iff [DecidableEq α] (hpat : pat ≠ []) :
    find pat.isPrefixOf text 0 = some i ↔ OccursAt pat text i ∧ ∀ j < i, ¬OccursAt pat text j := by
  rw [find_eq_some_iff]
  simp only [List.isPrefixOf_iff_prefix, ← Bool.not_eq_true, Nat.zero_le, true_and, true_implies]
  constructor
  · intro ⟨_, hi, hfirst⟩
    exact ⟨hi, hfirst⟩
  · intro ⟨hi, hfirst⟩
    exact ⟨hi.lt_length hpat, hi, hfirst⟩

theorem find_isPrefixOf_eq_none_iff [DecidableEq α] (hpat : pat ≠ []) :
    find pat.isPrefixOf text 0 = none ↔ ∀ i, ¬OccursAt pat text i := by
  rw [find_eq_none_iff]
  simp only [List.isPrefixOf_iff_prefix, ← Bool.not_eq_true, Nat.zero_le, true_implies]
  constructor
  · intro h i hi
    exact h i (hi.lt_length hpat) hi
  · intro h i _
    exact h i

/-! ## Deleting the occurrences -/

/-- The symbol at `i` is in an occurrence. -/
def Covered (pat text : List α) (i : Nat) : Prop :=
  ∃ j, j ≤ i ∧ OccursAt pat text j ∧ i < j + pat.length

/-- No occurrence runs from the front into the rest. -/
def Apart (pat front rest : List α) : Prop :=
  ∀ j < front.length, OccursAt pat (front ++ rest) j → j + pat.length ≤ front.length

theorem Apart.covered_left (h : Apart pat front rest) (hi : i < front.length) :
    Covered pat (front ++ rest) i ↔ Covered pat front i := by
  constructor
  · rintro ⟨j, hji, hocc, hij⟩
    exact ⟨j, hji, (occursAt_append_iff (h j (by omega) hocc)).mp hocc, hij⟩
  · rintro ⟨j, hji, hocc, hij⟩
    exact ⟨j, hji, hocc.append_right, hij⟩

theorem Apart.covered_right (h : Apart pat front rest) :
    Covered pat (front ++ rest) (front.length + i) ↔ Covered pat rest i := by
  constructor
  · rintro ⟨j, hji, hocc, hij⟩
    have hj : front.length ≤ j := by
      by_contra hlt
      have := h j (by omega) hocc
      omega
    obtain ⟨k, rfl⟩ := Nat.exists_eq_add_of_le hj
    exact ⟨k, by omega, occursAt_append_add.mp hocc, by omega⟩
  · rintro ⟨j, hji, hocc, hij⟩
    exact ⟨front.length + j, by omega, occursAt_append_add.mpr hocc, by omega⟩

theorem cons_eq_drop_iff {k : Nat} :
    a :: rest = text.drop k ↔ text[k]? = some a ∧ rest = text.drop (k + 1) := by
  constructor
  · intro h
    refine ⟨?_, ?_⟩
    · rw [← List.head?_drop, ← h, List.head?_cons]
    · rw [← List.tail_drop, ← h, List.tail_cons]
  · intro ⟨hat, hrest⟩
    obtain ⟨hk, rfl⟩ := List.getElem?_eq_some_iff.mp hat
    rw [hrest, ← List.drop_eq_getElem_cons hk]

/-- A first symbol at which no occurrence begins. -/
theorem apart_singleton (h : ¬OccursAt pat (a :: text) 0) : Apart pat [a] text := by
  intro j hj hocc
  obtain rfl : j = 0 := by
    rw [List.length_singleton] at hj
    omega
  exact absurd hocc h

/-- The first symbol of the pattern does not come again in it. -/
def Simple (pat : List α) : Prop := ∃ c t, pat = c :: t ∧ c ∉ t

theorem Simple.ne_nil (h : Simple pat) : pat ≠ [] := by
  obtain ⟨c, t, rfl, -⟩ := h
  exact List.cons_ne_nil c t

/-- No other occurrence begins in an occurrence. -/
theorem Simple.eq_zero (h : Simple pat) (hj : j < pat.length)
    (hocc : OccursAt pat (pat ++ rest) j) : j = 0 := by
  by_contra hne
  obtain ⟨k, rfl⟩ := Nat.exists_eq_succ_of_ne_zero hne
  have hat := hocc.getElem? (List.length_pos_iff.mpr h.ne_nil)
  obtain ⟨c, t, rfl, hc⟩ := h
  rw [Nat.add_zero, List.getElem?_append_left hj] at hat
  exact hc (List.mem_of_getElem? hat)

theorem Simple.apart (h : Simple pat) (rest : List α) : Apart pat pat rest := by
  intro j hj hocc
  rw [h.eq_zero hj hocc]
  omega

section

variable [DecidableEq α]

instance (pat text : List α) (i : Nat) : Decidable (Covered pat text i) :=
  inferInstanceAs (Decidable (∃ j, j ≤ i ∧ OccursAt pat text j ∧ i < j + pat.length))

/-- The text without its occurrences: all the other symbols, in order. -/
def deleteAll (pat text : List α) : List α :=
  (List.range text.length).filterMap fun i => if Covered pat text i then none else text[i]?

/-- The number of occurrences. -/
def count (pat text : List α) : Nat :=
  (List.range text.length).countP fun i => OccursAt pat text i

theorem Apart.deleteAll (h : Apart pat front rest) :
    deleteAll pat (front ++ rest) = deleteAll pat front ++ deleteAll pat rest := by
  unfold Text.deleteAll
  rw [List.length_append, List.range_add, List.filterMap_append, List.filterMap_map]
  congr 1
  · apply List.filterMap_congr
    intro i hi
    rw [List.mem_range] at hi
    simp only [h.covered_left hi, List.getElem?_append_left hi]
  · apply List.filterMap_congr
    intro i _
    simp only [Function.comp_apply, h.covered_right,
      List.getElem?_append_right (Nat.le_add_right front.length i), Nat.add_sub_cancel_left]

theorem Apart.count (h : Apart pat front rest) :
    count pat (front ++ rest) = count pat front + count pat rest := by
  unfold Text.count
  rw [List.length_append, List.range_add, List.countP_append, List.countP_map]
  congr 1
  · apply List.countP_congr
    intro i hi
    rw [List.mem_range] at hi
    simp only [decide_eq_true_eq]
    exact ⟨fun hocc => (occursAt_append_iff (h i hi hocc)).mp hocc, .append_right⟩
  · apply List.countP_congr
    intro i _
    simp only [Function.comp_apply, decide_eq_true_eq]
    exact occursAt_append_add

theorem deleteAll_cons (h : ¬OccursAt pat (a :: text) 0) :
    deleteAll pat (a :: text) = a :: deleteAll pat text := by
  have hself : ¬Covered pat [a] 0 := by
    rw [← (apart_singleton h).covered_left (by simp)]
    rintro ⟨j, hj, hocc, -⟩
    rw [Nat.le_zero.mp hj] at hocc
    exact h hocc
  have hone : deleteAll pat [a] = [a] := by
    unfold deleteAll
    simp [hself]
  have happ := (apart_singleton h).deleteAll
  rw [hone] at happ
  exact happ

theorem count_cons (h : ¬OccursAt pat (a :: text) 0) : count pat (a :: text) = count pat text := by
  have hone : count pat [a] = 0 := by
    unfold count
    rw [List.countP_eq_zero]
    intro i hi hocc
    obtain rfl : i = 0 := by
      rw [List.mem_range, List.length_singleton] at hi
      omega
    have hfirst : OccursAt pat ([a] ++ text) 0 := (of_decide_eq_true hocc).append_right
    exact h hfirst
  have happ := (apart_singleton h).count
  rw [hone, Nat.zero_add] at happ
  exact happ

theorem count_eq_zero_iff (hpat : pat ≠ []) :
    count pat text = 0 ↔ ∀ i, ¬OccursAt pat text i := by
  unfold count
  rw [List.countP_eq_zero]
  constructor
  · intro h i hocc
    exact h i (List.mem_range.mpr (hocc.lt_length hpat)) (decide_eq_true hocc)
  · intro h i _ hocc
    exact h i (of_decide_eq_true hocc)

/-- Nothing is deleted in front of the first occurrence. -/
theorem deleteAll_of_first (h : ∀ j < i, ¬OccursAt pat text j) :
    deleteAll pat text = text.take i ++ deleteAll pat (text.drop i) := by
  induction i generalizing text with
  | zero => rfl
  | succ i ih =>
      cases text with
      | nil => rfl
      | cons a text =>
          rw [deleteAll_cons (h 0 (Nat.succ_pos i)), ih fun j hj => h (j + 1) (Nat.succ_lt_succ hj)]
          rfl

theorem count_of_first (h : ∀ j < i, ¬OccursAt pat text j) :
    count pat text = count pat (text.drop i) := by
  induction i generalizing text with
  | zero => rfl
  | succ i ih =>
      cases text with
      | nil => rfl
      | cons a text =>
          rw [count_cons (h 0 (Nat.succ_pos i)), ih fun j hj => h (j + 1) (Nat.succ_lt_succ hj)]
          rfl

theorem deleteAll_of_not_occurs (h : ∀ j, ¬OccursAt pat text j) : deleteAll pat text = text := by
  rw [deleteAll_of_first fun j (_ : j < text.length) => h j, List.take_length, List.drop_length]
  exact List.append_nil text

theorem Simple.deleteAll_append (h : Simple pat) (text : List α) :
    deleteAll pat (pat ++ text) = deleteAll pat text := by
  have hself : deleteAll pat pat = [] := by
    unfold deleteAll
    rw [List.filterMap_eq_nil_iff]
    intro i hi
    rw [List.mem_range] at hi
    exact if_pos ⟨0, Nat.zero_le i, List.prefix_refl pat, by omega⟩
  rw [(h.apart text).deleteAll, hself, List.nil_append]

theorem Simple.count_append (h : Simple pat) (text : List α) :
    count pat (pat ++ text) = count pat text + 1 := by
  have hself : count pat pat = 1 := by
    unfold count
    obtain ⟨n, hn⟩ := Nat.exists_eq_succ_of_ne_zero (List.length_pos_iff.mpr h.ne_nil).ne'
    rw [hn, List.range_succ_eq_map, List.countP_cons_of_pos, List.countP_eq_zero.mpr]
    · intro i hi hocc
      obtain ⟨k, hk, rfl⟩ := List.mem_map.mp hi
      rw [List.mem_range] at hk
      have hocc : OccursAt pat (pat ++ []) (k + 1) := (of_decide_eq_true hocc).append_right
      have := h.eq_zero (by omega) hocc
      omega
    · exact decide_eq_true (List.prefix_refl pat)
  rw [(h.apart text).count, hself, Nat.add_comm]

/-- **Induction along a text**: it is empty, or begins with an occurrence or with another
symbol. -/
theorem Simple.induction {motive : List α → Prop} (h : Simple pat) (nil : motive [])
    (occurrence : ∀ rest, motive rest → motive (pat ++ rest))
    (symbol : ∀ a rest, ¬OccursAt pat (a :: rest) 0 → motive rest → motive (a :: rest))
    (text : List α) : motive text := by
  induction hn : text.length using Nat.strong_induction_on generalizing text with
  | _ n ih =>
      cases text with
      | nil => exact nil
      | cons a rest =>
          by_cases hocc : OccursAt pat (a :: rest) 0
          · obtain ⟨tail, htail⟩ := hocc
            have hpos := List.length_pos_iff.mpr h.ne_nil
            have hlen := congrArg List.length htail
            rw [List.length_append, List.length_drop, Nat.sub_zero, hn] at hlen
            rw [List.drop_zero] at htail
            rw [← htail]
            exact occurrence tail (ih tail.length (by omega) tail rfl)
          · rw [List.length_cons] at hn
            exact symbol a rest hocc (ih rest.length (by omega) rest rfl)

/-- An occurrence takes its length from the text. -/
theorem Simple.length_deleteAll (h : Simple pat) (text : List α) :
    (deleteAll pat text).length + pat.length * count pat text = text.length := by
  induction text using h.induction with
  | nil => rfl
  | occurrence rest ih =>
      rw [h.deleteAll_append, h.count_append, List.length_append, ← ih, Nat.mul_succ]
      omega
  | symbol a rest hno ih =>
      rw [deleteAll_cons hno, count_cons hno, List.length_cons, List.length_cons, ← ih]
      omega

/-- As the occurrences do not overlap, there is one behind the room that fewer would take. -/
theorem Simple.exists_occursAt (h : Simple pat) {n : Nat} (hn : n < count pat text) :
    ∃ i, pat.length * n ≤ i ∧ OccursAt pat text i := by
  induction text using h.induction generalizing n with
  | nil => exact absurd hn (Nat.not_lt_zero n)
  | occurrence rest ih =>
      rw [h.count_append] at hn
      cases n with
      | zero => exact ⟨0, Nat.zero_le _, List.prefix_append pat rest⟩
      | succ n =>
          obtain ⟨i, hi, hocc⟩ := ih (Nat.lt_of_succ_lt_succ hn)
          refine ⟨pat.length + i, ?_, occursAt_append_add.mpr hocc⟩
          rw [Nat.mul_succ]
          omega
  | symbol a rest hno ih =>
      rw [count_cons hno] at hn
      obtain ⟨i, hi, hocc⟩ := ih hn
      exact ⟨i + 1, by omega, hocc⟩

/-- Every symbol that stays is the one that is further on by the occurrences behind it. -/
def Repeats (pat text : List α) : Prop :=
  ∀ i < text.length, ¬Covered pat text i →
    text[i + pat.length * count pat (text.drop i)]? = text[i]?

theorem Simple.repeats_append_iff (h : Simple pat) :
    Repeats pat (pat ++ text) ↔ Repeats pat text := by
  have hat : ∀ i n, (pat ++ text)[pat.length + i + n]? = text[i + n]? := by
    intro i n
    rw [List.getElem?_append_right (by omega)]
    congr 1
    omega
  constructor
  · intro hrep i hi hno
    have := hrep (pat.length + i) (by rw [List.length_append]; omega)
      fun hcov => hno ((h.apart text).covered_right.mp hcov)
    rw [drop_append_add, hat] at this
    exact this.trans (hat i 0)
  · intro hrep i hi hno
    rcases Nat.lt_or_ge i pat.length with hlt | hge
    · exact absurd ⟨0, Nat.zero_le i, List.prefix_append pat text, by omega⟩ hno
    · obtain ⟨k, rfl⟩ := Nat.exists_eq_add_of_le hge
      rw [List.length_append] at hi
      rw [drop_append_add, hat]
      refine (hrep k (by omega) fun hcov => hno ?_).trans (hat k 0).symm
      exact (h.apart text).covered_right.mpr hcov

theorem repeats_cons_iff (h : ¬OccursAt pat (a :: text) 0) :
    Repeats pat (a :: text) ↔
      (a :: text)[pat.length * count pat text]? = some a ∧ Repeats pat text := by
  have hcov : ∀ i, Covered pat (a :: text) (i + 1) ↔ Covered pat text i := by
    intro i
    rw [Nat.add_comm]
    exact (apart_singleton h).covered_right
  have hzero : ¬Covered pat (a :: text) 0 := by
    rintro ⟨j, hj, hocc, -⟩
    rw [Nat.le_zero.mp hj] at hocc
    exact h hocc
  constructor
  · intro hrep
    refine ⟨?_, fun i hi hno => ?_⟩
    · have := hrep 0 (Nat.succ_pos _) hzero
      rw [Nat.zero_add, List.drop_zero, count_cons h] at this
      exact this
    · have := hrep (i + 1) (Nat.succ_lt_succ hi) fun hc => hno ((hcov i).mp hc)
      rw [Nat.add_right_comm] at this
      exact this
  · intro ⟨hfirst, hrep⟩ i hi hno
    cases i with
    | zero =>
        rw [Nat.zero_add, List.drop_zero, count_cons h]
        exact hfirst
    | succ i =>
        rw [Nat.add_right_comm]
        exact hrep i (Nat.lt_of_succ_lt_succ hi) fun hc => hno ((hcov i).mpr hc)

/-- **Deleting the occurrences is the same as deleting as many symbols at the beginning** exactly
if the symbols that stay repeat. -/
theorem Simple.deleteAll_eq_drop_iff (h : Simple pat) (text : List α) :
    deleteAll pat text = text.drop (pat.length * count pat text) ↔ Repeats pat text := by
  induction text using h.induction with
  | nil =>
      refine iff_of_true ?_ fun i hi => absurd hi (Nat.not_lt_zero i)
      rw [List.drop_nil]
      rfl
  | occurrence rest ih =>
      rw [h.deleteAll_append, h.count_append, h.repeats_append_iff, ← ih, Nat.mul_succ,
        Nat.add_comm, drop_append_add]
  | symbol a rest hno ih =>
      rw [deleteAll_cons hno, count_cons hno, repeats_cons_iff hno, ← ih]
      exact cons_eq_drop_iff

end

end Ironclad.Logic.Text
