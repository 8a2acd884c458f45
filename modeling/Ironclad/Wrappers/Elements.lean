import Ironclad.Logic.Cells
import Ironclad.Pointers.Displacement
import Ironclad.Pointers.SpatialSafety
import Ironclad.Wrappers.FastCopy

/-!
# The elements of an array in memory

The loops over `p[c]` go through the elements of an array one after the other. This module says
what such a loop needs to know of one element: which address the checked subscript gives and when
it fails, what an element holds, and that the elements of an array in memory are cells.
-/

namespace Ironclad.Wrappers

open Ironclad.Logic Ironclad.CLib Ironclad.Pointers

/-- What `data[k]` holds. -/
def value (m : Memory 64) (sizeofT data : Word) (k : Int) : Fin sizeofT.toNat → BitVec 8 :=
  fun j => m.byte (element sizeofT data (BitVec.ofInt 64 k)) j

/-- An element that consists of the bytes `v`. -/
def asElement (sizeofT : Word) (v : Nat → BitVec 8) : Fin sizeofT.toNat → BitVec 8 := fun j => v j

/-- The assignment of `n` bytes to what a reference refers to. -/
def store (a : Word) (n : Nat) (v : Nat → BitVec 8) : Prog 64 Unit := fun m =>
  ⟨.returns (), m.write a n v, [], [⟨a, n⟩]⟩

/-- `elementOf c` is `p[c]` for a pointer that is not null; `conv` converts the counter to the
type of the subscript. -/
structure ElementOf (sizeofT : Word) (conv : Word → Word) (p : Position)
    (elementOf : Word → Prog 64 Word) : Prop where
  returns : ∀ c m, BOUNDS_CHECK (p.index + conv c) p.size = true →
    elementOf c m = ⟨.returns (element sizeofT p.data (p.index + conv c)), m, [], []⟩
  fails : ∀ c m, BOUNDS_CHECK (p.index + conv c) p.size = false →
    elementOf c m = ⟨.fails, m, [], []⟩

section

variable {sizeofT data size index : Word} {m : Memory 64} {i : Nat} {k : Int}

theorem aptr_elementOf {p : Aptr} (h : p.data ≠ 0) :
    ElementOf sizeofT asInt p.place (aptrElement sizeofT p) := by
  constructor
  · intro c m hcheck
    have hsub : p.subscript sizeofT (c.setWidth 32) =
        some (element sizeofT p.data (p.index + asInt c)) :=
      access_eq_some.mpr ⟨hcheck, rfl⟩
    rw [aptrElement, hsub]
    show (if p.data = 0 then (Prog.undefined : Prog 64 Word) else pure _) m = _
    rw [if_neg h]
    rfl
  · intro c m hcheck
    have hsub : p.subscript sizeofT (c.setWidth 32) = none := access_eq_none hcheck
    rw [aptrElement, hsub]
    rfl

theorem laptr_elementOf {p : Laptr} (h : p.data ≠ 0) :
    ElementOf sizeofT asUnsigned p.place (laptrElement sizeofT p) := by
  have hdata : (p.data != 0) = true := bne_iff_ne.mpr h
  constructor
  · intro c m hcheck
    have hsub : p.subscript sizeofT (c.setWidth 32) =
        some (element sizeofT p.data (p.index + asUnsigned c)) :=
      access_eq_some.mpr ⟨(Bool.and_eq_true _ _).mpr ⟨hdata, hcheck⟩, rfl⟩
    rw [laptrElement, hsub]
    rfl
  · intro c m hcheck
    have hsub : p.subscript sizeofT (c.setWidth 32) = none := by
      apply access_eq_none
      rw [hdata]
      exact hcheck
    rw [laptrElement, hsub]
    rfl

/-- A subscript of a null `aptr` follows the null pointer if its check passes. -/
theorem aptrElement_null (sizeofT : Word) {p : Aptr} (h : p.data = 0) (c : Word) (m : Memory 64) :
    aptrElement sizeofT p c m =
      if BOUNDS_CHECK (p.index + asInt c) p.size = true then ⟨.undefined, m, [], []⟩
      else ⟨.fails, m, [], []⟩ := by
  by_cases hcheck : BOUNDS_CHECK (p.index + asInt c) p.size = true
  · have hsub : p.subscript sizeofT (c.setWidth 32) =
        some (element sizeofT p.data (p.index + asInt c)) :=
      access_eq_some.mpr ⟨hcheck, rfl⟩
    rw [aptrElement, hsub, if_pos hcheck]
    show (if p.data = 0 then (Prog.undefined : Prog 64 Word) else pure _) m = _
    rw [if_pos h]
    rfl
  · have hsub : p.subscript sizeofT (c.setWidth 32) = none :=
      access_eq_none (Bool.eq_false_iff.mpr hcheck)
    rw [aptrElement, hsub, if_neg hcheck]
    rfl

/-- A subscript of a null `laptr` fails. -/
theorem laptrElement_null (sizeofT : Word) {p : Laptr} (h : p.data = 0) (c : Word) (m : Memory 64) :
    laptrElement sizeofT p c m = ⟨.fails, m, [], []⟩ := by
  have hsub : p.subscript sizeofT (c.setWidth 32) = none := by
    apply access_eq_none
    rw [h]
    rfl
  rw [laptrElement, hsub]
  rfl

/-! ## Which elements -/

/-- From any index forward: a sum that overflows is out of bounds as a number too. -/
theorem forward_check_iff (hi : i < 2 ^ 62) :
    BOUNDS_CHECK (index + BitVec.ofNat 64 i) size = true ↔
      0 ≤ index.toInt + i ∧ index.toInt + i < size.toInt := by
  have hnat : (BitVec.ofNat 64 i).toNat = i := Region.toNat_ofNat_of_lt (by omega)
  have hint : (BitVec.ofNat 64 i).toInt = i := by
    rw [toInt_of_lt (by omega), hnat]
  have hlo := BitVec.le_toInt index
  have hhi := BitVec.toInt_lt (x := index)
  have hsize := BitVec.toInt_lt (x := size)
  rw [boundsCheck_iff, BitVec.toInt_add, hint, Int.bmod_def]
  split_ifs <;> omega

/-! ## Elements as cells -/

/-- The address of an element, as a number of bytes from the first. -/
theorem element_ofInt (hk : 0 ≤ k) : element sizeofT data (BitVec.ofInt 64 k) =
    data + BitVec.ofNat 64 (k.toNat * sizeofT.toNat) := by
  obtain ⟨n, rfl⟩ := Int.eq_ofNat_of_zero_le hk
  unfold element
  rw [Int.toNat_natCast, BitVec.ofInt_natCast, BitVec.ofNat_mul, BitVec.ofNat_toNat,
    BitVec.setWidth_eq]

theorem element_ofNat (sizeofT data : Word) (k : Nat) :
    element sizeofT data (BitVec.ofNat 64 k) = data + BitVec.ofNat 64 (k * sizeofT.toNat) := by
  rw [← BitVec.ofInt_natCast, element_ofInt (Int.natCast_nonneg k), Int.toNat_natCast]

theorem value_eq_cell (hk : 0 ≤ k) :
    value m sizeofT data k = m.cell data sizeofT.toNat k.toNat := by
  funext j
  unfold value
  rw [element_ofInt hk, Memory.byte_add]
  rfl

/-- One element of the array is written. -/
theorem value_write {v : Nat → BitVec 8} {l : Int} (hfit : Fitting sizeofT size) (hl0 : 0 ≤ l)
    (hl : l < size.toInt) (hk0 : 0 ≤ k) (hk : k < size.toInt) :
    value (m.write (data + BitVec.ofNat 64 (l.toNat * sizeofT.toNat)) sizeofT.toNat v) sizeofT
        data k =
      if k = l then asElement sizeofT v else value m sizeofT data k := by
  have hsize : size.toInt = size.toNat := toInt_of_lt hfit.count_lt
  rw [value_eq_cell hk0, Memory.cell_write (Nat.le_of_lt hfit.bytes_lt) (by omega) (by omega)]
  by_cases hkl : k = l
  · rw [if_pos hkl, hkl, Function.update_self]
    rfl
  · rw [if_neg hkl, Function.update_of_ne (by omega), value_eq_cell hk0]

/-- The element that a subscript picks. -/
theorem element_moved_eq (h : 0 ≤ index.toInt + i) :
    element sizeofT data (index + BitVec.ofNat 64 i) =
      data + BitVec.ofNat 64 ((index.toInt + i).toNat * sizeofT.toNat) := by
  rw [← element_ofInt h, BitVec.ofInt_add, BitVec.ofInt_toInt, BitVec.ofInt_natCast]

end

end Ironclad.Wrappers
