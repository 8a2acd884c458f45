import Mathlib.Algebra.Order.Floor.Div

/-!
# The layout of records

A record places its members one after the other, each at the next multiple of its alignment, and
is padded at the end to a multiple of its own alignment, the greatest of the members'. Sizes and
offsets are numbers here: whether they fit a machine word is the user's question.
-/

namespace Ironclad.Logic

/-- What the layout rules know of a type. Arrays need the size to be a multiple of the
alignment. -/
structure Layout where
  size : Nat
  align : Nat
  size_pos : 0 < size
  align_pos : 0 < align
  align_dvd : align ∣ size

namespace Layout

/-- The next multiple of `a`. -/
def roundUp (n a : Nat) : Nat := a * (n ⌈/⌉ a)

theorem le_roundUp {n a : Nat} (ha : 0 < a) : n ≤ roundUp n a := by
  unfold roundUp
  exact le_smul_ceilDiv ha

theorem dvd_roundUp (n a : Nat) : a ∣ roundUp n a := Nat.dvd_mul_right a _

/-- The end of the members that are placed from `off` on. -/
def endOf (off : Nat) : List Layout → Nat
  | [] => off
  | l :: ls => endOf (roundUp off l.align + l.size) ls

/-- The greatest alignment. -/
def alignOf : List Layout → Nat
  | [] => 1
  | l :: ls => max l.align (alignOf ls)

/-- Where a member that follows `before` is placed. -/
def offset (before : List Layout) (l : Layout) : Nat := roundUp (endOf 0 before) l.align

theorem alignOf_pos (ls : List Layout) : 0 < alignOf ls := by
  induction ls with
  | nil => exact Nat.one_pos
  | cons l ls ih => exact lt_max_of_lt_right ih

theorem endOf_append (off : Nat) (ls : List Layout) (l : Layout) :
    endOf off (ls ++ [l]) = roundUp (endOf off ls) l.align + l.size := by
  induction ls generalizing off with
  | nil => rfl
  | cons k ks ih => exact ih _

/-- The record with the members `before` and, at the end, `last`. -/
def record (before : List Layout) (last : Layout) : Layout where
  size := roundUp (endOf 0 (before ++ [last])) (alignOf (before ++ [last]))
  align := alignOf (before ++ [last])
  size_pos := by
    refine lt_of_lt_of_le ?_ (le_roundUp (alignOf_pos _))
    rw [endOf_append]
    exact Nat.add_pos_right _ last.size_pos
  align_pos := alignOf_pos _
  align_dvd := dvd_roundUp _ _

/-- **The last member lies in the record.** -/
theorem offset_add_size_le (before : List Layout) (last : Layout) :
    offset before last + last.size ≤ (record before last).size := by
  refine le_trans ?_ (le_roundUp (alignOf_pos _))
  rw [endOf_append]
  exact le_rfl

end Layout

end Ironclad.Logic
