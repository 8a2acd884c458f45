import Ironclad.Logic.LowTag

/-!
# Words, element types and the bounds checks

The library is modelled on the 64-bit target it is built for: a pointer, a
`long`, an `unsigned long` and a `size_t` are all 64-bit words, and arithmetic
on them wraps. `long` comparisons are signed, `size_t` comparisons unsigned.

`common.hpp` defines the two bounds checks that every dereference of an array
pointer goes through. `ARRAY_NULL_CHECK` is defined there as nothing, so it has
no counterpart here.
-/

namespace Ironclad.Pointers

open Ironclad.Logic

/-- A machine word: an address, a `long`, an `unsigned long` or a `size_t`. -/
abbrev Word := BitVec 64

/-- The primitive element types that `casts.hpp` converts between. -/
inductive Prim where
  | char | unsignedChar | unsignedShort | int | unsignedInt | long | float | double
  deriving DecidableEq, Repr

/-- `sizeof` of the primitive types on the 64-bit target. -/
def Prim.sizeof : Prim → Word
  | .char => 1
  | .unsignedChar => 1
  | .unsignedShort => 2
  | .int => 4
  | .unsignedInt => 4
  | .long => 8
  | .float => 4
  | .double => 8

/-- An element type: a primitive type, or a class with its size. -/
inductive CType where
  | prim (p : Prim)
  | cls (id : Nat) (size : Word)
  deriving DecidableEq, Repr

def CType.sizeof : CType → Word
  | .prim p => p.sizeof
  | .cls _ size => size

/-- Pointer arithmetic `data + index` on a `T *`. -/
def element (sizeofT data index : Word) : Word := data + index * sizeofT

@[simp] theorem element_zero (sizeofT data : Word) : element sizeofT data 0 = data := by
  unfold element
  rw [zero_mul, add_zero]

theorem element_sub_data (sizeofT data index : Word) :
    element sizeofT data index - data = index * sizeofT := by
  unfold element
  exact add_sub_cancel_left data _

/-- An `int` used as a `long`. -/
def ofInt (n : BitVec 32) : Word := n.signExtend 64

/-- An `unsigned int` used as a `long`. -/
def ofUnsigned (n : BitVec 32) : Word := n.setWidth 64

/-- `BOUNDS_CHECK`: `index >= 0 && index < size`. -/
def BOUNDS_CHECK (index size : Word) : Bool := (0#64).sle index && index.slt size

/-- `BOUNDS_CHECK_INDEX(idx)`: `index + idx >= 0 && index + idx < size`. -/
def BOUNDS_CHECK_INDEX (index size idx : Word) : Bool :=
  (0#64).sle (index + idx) && (index + idx).slt size

/-- An access to `data[index]` behind an assertion: the address, `none` when the
assertion fails. -/
def access (check : Bool) (sizeofT data index : Word) : Option Word :=
  if check then some (element sizeofT data index) else none

/-- The comparison operators between pointers. -/
inductive Comparison where
  | eq | ne | lt | le | gt | ge
  deriving DecidableEq, Repr

/-- The comparison of two addresses. -/
def Comparison.holds : Comparison → Word → Word → Bool
  | .eq, a, b => a == b
  | .ne, a, b => a != b
  | .lt, a, b => decide (a < b)
  | .le, a, b => decide (a ≤ b)
  | .gt, a, b => decide (b < a)
  | .ge, a, b => decide (b ≤ a)

theorem access_eq_some {check : Bool} {sizeofT data index a : Word} :
    access check sizeofT data index = some a ↔
      check = true ∧ a = element sizeofT data index := by
  rw [access, Option.ite_none_right_eq_some, Option.some.injEq]
  exact and_congr_right' eq_comm

theorem access_eq_none {check : Bool} {sizeofT data index : Word} (h : check = false) :
    access check sizeofT data index = none := by
  rw [access, h]
  rfl

theorem boundsCheck_iff {index size : Word} :
    BOUNDS_CHECK index size = true ↔ 0 ≤ index.toInt ∧ index.toInt < size.toInt := by
  simp only [BOUNDS_CHECK, Bool.and_eq_true, BitVec.sle_iff_toInt_le, BitVec.slt_iff_toInt_lt,
    BitVec.toInt_zero]

theorem boundsCheckIndex_eq (index size idx : Word) :
    BOUNDS_CHECK_INDEX index size idx = BOUNDS_CHECK (index + idx) size := rfl

/-- A word that is not negative as a `long` reads the same as a `size_t`. -/
theorem toInt_eq_toNat {x : Word} (h : 0 ≤ x.toInt) : x.toInt = x.toNat := by
  rw [BitVec.toInt_eq_toNat_cond] at h ⊢
  split at h <;> rename_i hlt
  · rw [if_pos hlt]
  · have := x.isLt
    omega

theorem toInt_of_lt {x : Word} (h : x.toNat < 2 ^ 63) : x.toInt = x.toNat := by
  rw [BitVec.toInt_eq_toNat_cond, if_pos (by omega)]

theorem toNat_pos {x : Word} (h : x ≠ 0) : 0 < x.toNat :=
  Nat.pos_of_ne_zero fun h0 => h (BitVec.eq_of_toNat_eq h0)

/-- What a passing bounds check gives: the index is a number below the size. -/
theorem boundsCheck_toNat {index size : Word} (h : BOUNDS_CHECK index size = true) :
    index.toNat < size.toNat := by
  obtain ⟨h0, hlt⟩ := boundsCheck_iff.mp h
  have h1 := toInt_eq_toNat h0
  have h2 := toInt_eq_toNat (x := size) (by omega)
  omega

/-- No bounds check passes against an empty size. -/
@[simp] theorem boundsCheck_zero (index : Word) : BOUNDS_CHECK index 0 = false := by
  cases h : BOUNDS_CHECK index 0 with
  | false => rfl
  | true =>
      have := boundsCheck_toNat h
      simp at this

end Ironclad.Pointers
