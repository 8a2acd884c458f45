import Ironclad.Logic.Cells
import Ironclad.Logic.Layout
import Ironclad.Pointers.Allocators

/-!
# Structures of variable size

A structure whose last member is a `varray<T>` is allocated with room for more than one element,
and `new_variable_ptr` stores the number of elements in the `size` field of the `varray`. It
looks for that field from the end of the structure, one `T` and one `size_t` back, so it finds it
only when nothing but the element follows the field: no padding between the two, and none at the
end. `new_variable_ptr_iff` covers all layouts.
-/

namespace Ironclad.Pointers

open Ironclad.Logic

/-- `size_t`. -/
def sizeT : Layout := ⟨8, 8, by decide, by decide, by decide⟩

/-- `varray<T>`: `size_t size; T data[1];`. -/
def varray (T : Layout) : Layout := .record [sizeT] T

/-- The offset of `data` in a `varray<T>`. -/
def varrayData (T : Layout) : Nat := Layout.offset [sizeT] T

/-- `varray<T>::operator[]`, for a `varray` with these elements and this `size`. -/
def varraySubscript (sizeofT data size : Word) (index : BitVec 32) : Option Word :=
  access (decide (ofUnsigned index < size)) sizeofT data (ofUnsigned index)

/-- The bytes of a `size_t` in memory, the lowest first. -/
def sizeBytes (v : Word) (i : Nat) : BitVec 8 := v.extractLsb' (8 * i) 8

/-- `new_variable_ptr`: the object and the memory, `none` when an assertion fails. `construct` is
the constructor `S(args...)`; `*size` is read right after it was stored. -/
def new_variable_ptr (malloc : Malloc) (construct : Word → Memory 64 → Memory 64)
    (sizeofS sizeofT vSize : Word) (m : Memory 64) : Option (Word × Memory 64) :=
  let buffer := (malloc (sizeofS - sizeofT + vSize * sizeofT)).base
  let m := construct buffer m
  let sizeLoc := buffer + sizeofS - sizeofT - 8
  let m := m.write sizeLoc 8 (sizeBytes vSize)
  if vSize ≠ 0 ∧ buffer ≠ 0 then some (buffer, m) else none

section

variable (before : List Layout) (T : Layout)

/-- A structure whose last member is a `varray<T>`. -/
def variableStruct : Layout := .record before (varray T)

/-- The offset of the `size` field of its `varray<T>`. -/
def sizeField : Nat := Layout.offset before (varray T)

/-- The bytes of the structure that are neither in front of the `size` field, nor the field,
nor the element. -/
def padding : Nat := (variableStruct before T).size - (sizeField before T + 8 + T.size)

/-- The block that `new_variable_ptr` obtains. -/
def variableBlock (malloc : Malloc) (vSize : Word) : Block
    (BitVec.ofNat 64 (variableStruct before T).size - BitVec.ofNat 64 T.size +
      vSize * BitVec.ofNat 64 T.size) :=
  malloc _

/-- The object in the block has `vSize` in its `size` field and is otherwise as `constructed`,
and the elements that `varray` then accepts lie in the block. -/
structure SizeFieldSet {bytes : Word} (b : Block bytes) (vSize : Word)
    (constructed m : Memory 64) : Prop where
  object : ∀ i < (variableStruct before T).size, m.byte b.base i =
    (constructed.write (b.base + BitVec.ofNat 64 (sizeField before T)) 8
      (sizeBytes vSize)).byte b.base i
  elements : HoldsElements b (BitVec.ofNat 64 T.size)
    (b.base + BitVec.ofNat 64 (sizeField before T + varrayData T)) vSize.toNat
  accepted : ∀ index a, varraySubscript (BitVec.ofNat 64 T.size)
      (b.base + BitVec.ofNat 64 (sizeField before T + varrayData T)) vSize index = some a →
    b.Holds (BitVec.ofNat 64 T.size) a

end

/-- Of the bytes `c` of a field and behind it: writing the 8 bytes `v` comes to the same `p`
bytes behind the field. Without padding it is the same place. -/
structure SameWrite (c v : Nat → BitVec 8) (p : Nat) : Prop where
  front : ∀ i < 8, i < p → c i = v i
  both : ∀ i < 8, p ≤ i → v (i - p) = v i
  behind : ∀ i < p + 8, p ≤ i → 8 ≤ i → c i = v (i - p)

/-! ## The layout -/

section

variable (before : List Layout) (T : Layout)

theorem eight_le_varrayData : 8 ≤ varrayData T := by
  refine le_trans ?_ (Layout.le_roundUp T.align_pos)
  decide

theorem varrayData_add_size_le :
    sizeField before T + varrayData T + T.size ≤ (variableStruct before T).size := by
  have hdata : varrayData T + T.size ≤ (varray T).size := Layout.offset_add_size_le [sizeT] T
  have hlast : sizeField before T + (varray T).size ≤ (variableStruct before T).size :=
    Layout.offset_add_size_le before (varray T)
  omega

/-- The code looks for the `size` field `padding` bytes too far behind. -/
theorem variableStruct_size :
    (variableStruct before T).size = sizeField before T + padding before T + 8 + T.size := by
  have hend := varrayData_add_size_le before T
  have hdata := eight_le_varrayData T
  unfold padding
  omega

end

/-! ## The two writes -/

/-- **Two writes of the same 8 bytes, `p` apart**, leave an object of `N` bytes in the same state
exactly when they come to the same. -/
theorem write_eq_iff_sameWrite {m : Memory 64} {base : Word} {v : Nat → BitVec 8} {b p N : Nat}
    (hN : b + p + 8 ≤ N) (hw : N < 2 ^ 64) :
    (∀ i < N, (m.write (base + BitVec.ofNat 64 (b + p)) 8 v).byte base i =
        (m.write (base + BitVec.ofNat 64 b) 8 v).byte base i) ↔
      SameWrite (fun i => m.byte base (b + i)) v p := by
  constructor
  · intro h
    refine ⟨?_, ?_, ?_⟩
    · intro i hi hp
      have := h (b + i) (by omega)
      rw [Memory.byte_write (by omega) (by omega), Memory.byte_write (by omega) (by omega),
        if_neg (by omega), if_pos (by omega), Nat.add_sub_cancel_left] at this
      exact this
    · intro i hi hp
      have := h (b + i) (by omega)
      rw [Memory.byte_write (by omega) (by omega), Memory.byte_write (by omega) (by omega),
        if_pos (by omega), if_pos (by omega), Nat.add_sub_cancel_left,
        Nat.add_sub_add_left] at this
      exact this
    · intro i hi hp hge
      have := h (b + i) (by omega)
      rw [Memory.byte_write (by omega) (by omega), Memory.byte_write (by omega) (by omega),
        if_pos (by omega), if_neg (by omega), Nat.add_sub_add_left] at this
      exact this.symm
  · intro h i hi
    rw [Memory.byte_write (by omega) (by omega), Memory.byte_write (by omega) (by omega)]
    rcases Nat.lt_or_ge i b with hlt | hge
    · rw [if_neg (by omega), if_neg (by omega)]
    obtain ⟨j, rfl⟩ : ∃ j, i = b + j := ⟨i - b, by omega⟩
    rw [Nat.add_sub_add_left, Nat.add_sub_cancel_left]
    split_ifs with hlate hfront
    · exact h.both j (by omega) (by omega)
    · exact (h.behind j (by omega) (by omega) (by omega)).symm
    · exact h.front j (by omega) (by omega)
    · rfl

/-! ## The allocation -/

section

variable {malloc : Malloc} {before : List Layout} {T : Layout} {vSize : Word}

/-- The bytes asked for, when their number does not wrap. -/
theorem variableBlock_bytes
    (hfits : (variableStruct before T).size - T.size + vSize.toNat * T.size < 2 ^ 64)
    (hv : 1 ≤ vSize) :
    (BitVec.ofNat 64 (variableStruct before T).size - BitVec.ofNat 64 T.size +
      vSize * BitVec.ofNat 64 T.size).toNat =
        (variableStruct before T).size - T.size + vSize.toNat * T.size := by
  have hsize := variableStruct_size before T
  have hpos : 1 ≤ vSize.toNat := hv
  have hone : 1 * T.size ≤ vSize.toNat * T.size := Nat.mul_le_mul_right _ hpos
  have hT : (BitVec.ofNat 64 T.size).toNat = T.size := Region.toNat_ofNat_of_lt (by omega)
  have hS : (BitVec.ofNat 64 (variableStruct before T).size).toNat =
      (variableStruct before T).size := Region.toNat_ofNat_of_lt (by omega)
  rw [BitVec.toNat_add, BitVec.toNat_mul, BitVec.toNat_sub_of_le, hS, hT, Nat.add_mod_mod,
    Nat.mod_eq_of_lt hfits]
  rw [BitVec.le_def, hS, hT]
  omega

/-- **The elements always fit**: the structure has room for one, and the rest is asked for. -/
theorem holdsElements_variable
    (hfits : (variableStruct before T).size - T.size + vSize.toNat * T.size < 2 ^ 64)
    (hv : 1 ≤ vSize) :
    HoldsElements (variableBlock before T malloc vSize) (BitVec.ofNat 64 T.size)
      ((variableBlock before T malloc vSize).base +
        BitVec.ofNat 64 (sizeField before T + varrayData T)) vSize.toNat := by
  have hbytes := variableBlock_bytes hfits hv
  have hroom := varrayData_add_size_le before T
  have hpos : 1 ≤ vSize.toNat := hv
  have hone : 1 * T.size ≤ vSize.toNat * T.size := Nat.mul_le_mul_right _ hpos
  have hTpos := T.size_pos
  have hT : (BitVec.ofNat 64 T.size).toNat = T.size := Region.toNat_ofNat_of_lt (by omega)
  have hblock := (variableBlock before T malloc vSize).fits
  rw [hbytes] at hblock
  have hdata : ((variableBlock before T malloc vSize).base +
      BitVec.ofNat 64 (sizeField before T + varrayData T)).toNat =
        (variableBlock before T malloc vSize).base.toNat +
          (sizeField before T + varrayData T) := by
    rw [BitVec.toNat_add, BitVec.toNat_ofNat, Nat.add_mod_mod, Nat.mod_eq_of_lt (by omega)]
  apply holdsElements_of_le
  · omega
  · rw [hT, hbytes, hdata]
    omega

theorem holds_of_varraySubscript {bytes sizeofT data size a : Word} {b : Block bytes}
    {index : BitVec 32} (h : HoldsElements b sizeofT data size.toNat)
    (ha : varraySubscript sizeofT data size index = some a) : b.Holds sizeofT a := by
  obtain ⟨hcheck, rfl⟩ := access_eq_some.mp ha
  have hlt : (ofUnsigned index).toNat < size.toNat := of_decide_eq_true hcheck
  have hk := h _ hlt
  rw [BitVec.ofNat_toNat, BitVec.setWidth_eq] at hk
  exact hk

/-- The call returns the block, with the size `padding` bytes behind the field. -/
theorem new_variable_ptr_eq {construct : Word → Memory 64 → Memory 64} {m : Memory 64}
    (hv : 1 ≤ vSize) :
    new_variable_ptr malloc construct (BitVec.ofNat 64 (variableStruct before T).size)
        (BitVec.ofNat 64 T.size) vSize m =
      some ((variableBlock before T malloc vSize).base,
        (construct (variableBlock before T malloc vSize).base m).write
          ((variableBlock before T malloc vSize).base +
            BitVec.ofNat 64 (sizeField before T + padding before T)) 8 (sizeBytes vSize)) := by
  have hne : vSize ≠ 0 := by
    intro h0
    rw [h0] at hv
    exact absurd hv (by decide)
  have hloc : BitVec.ofNat 64 (variableStruct before T).size - BitVec.ofNat 64 T.size - 8 =
      BitVec.ofNat 64 (sizeField before T + padding before T) := by
    rw [variableStruct_size, BitVec.ofNat_add _ T.size, add_sub_cancel_right, BitVec.ofNat_add _ 8]
    exact add_sub_cancel_right _ _
  unfold new_variable_ptr
  rw [if_pos ⟨hne, (malloc _).base_ne_zero⟩, add_sub_assoc, add_sub_assoc, hloc]
  rfl

/-- **When the size field is set.** For all layouts the call returns an object whose elements
fit, and its `size` field is right exactly when there is no padding, or the constructor happened
to leave what the misplaced write leaves. -/
theorem new_variable_ptr_iff (malloc : Malloc) (construct : Word → Memory 64 → Memory 64)
    (before : List Layout) (T : Layout) (vSize : Word) (m : Memory 64) (hv : 1 ≤ vSize)
    (hfits : (variableStruct before T).size - T.size + vSize.toNat * T.size < 2 ^ 64) :
    (∃ m', new_variable_ptr malloc construct (BitVec.ofNat 64 (variableStruct before T).size)
        (BitVec.ofNat 64 T.size) vSize m =
          some ((variableBlock before T malloc vSize).base, m') ∧
        SizeFieldSet before T (variableBlock before T malloc vSize) vSize
          (construct (variableBlock before T malloc vSize).base m) m') ↔
      padding before T = 0 ∨
        SameWrite (fun i => (construct (variableBlock before T malloc vSize).base m).byte
          (variableBlock before T malloc vSize).base (sizeField before T + i))
          (sizeBytes vSize) (padding before T) := by
  have hsize := variableStruct_size before T
  have hpos : 1 ≤ vSize.toNat := hv
  have hone : 1 * T.size ≤ vSize.toNat * T.size := Nat.mul_le_mul_right _ hpos
  have hnone : ∀ c, padding before T = 0 → SameWrite c (sizeBytes vSize) (padding before T) := by
    intro c h0
    rw [h0]
    exact ⟨fun i _ hi => absurd hi (Nat.not_lt_zero i), fun i _ _ => rfl,
      fun i hi _ hge => absurd hi (by omega)⟩
  rw [or_iff_right_of_imp (hnone _), new_variable_ptr_eq hv,
    ← write_eq_iff_sameWrite (N := (variableStruct before T).size) (by omega) (by omega)]
  constructor
  · rintro ⟨m', heq, hset⟩
    obtain ⟨-, rfl⟩ := Prod.mk.inj (Option.some.inj heq)
    exact hset.object
  · intro hobject
    have helements := @holdsElements_variable malloc before T vSize hfits hv
    exact ⟨_, rfl, hobject, helements, fun index a => holds_of_varraySubscript helements⟩

/-- Three `long`s behind nothing else: there is no padding. -/
theorem new_variable_ptr_iff_three :
    (∃ m', new_variable_ptr lowBlock (fun _ m => m) 16 8 3 (fun _ => 0) = some (1, m') ∧
        SizeFieldSet [] sizeT (variableBlock [] sizeT lowBlock 3) 3 (fun _ => 0) m') ↔
      padding [] sizeT = 0 ∨
        SameWrite (fun _ => 0) (sizeBytes 3) (padding [] sizeT) :=
  new_variable_ptr_iff lowBlock (fun _ m => m) [] sizeT 3 (fun _ => 0) (by decide) (by decide)

/-- Behind three `int`s the size lands in the element. -/
theorem not_sizeFieldSet_int : ¬ ∀ (malloc : Malloc) (construct : Word → Memory 64 → Memory 64)
    (before : List Layout) (T : Layout) (vSize : Word) (m : Memory 64), 1 ≤ vSize →
    (variableStruct before T).size - T.size + vSize.toNat * T.size < 2 ^ 64 →
    ∃ m', new_variable_ptr malloc construct (BitVec.ofNat 64 (variableStruct before T).size)
        (BitVec.ofNat 64 T.size) vSize m =
          some ((variableBlock before T malloc vSize).base, m') ∧
        SizeFieldSet before T (variableBlock before T malloc vSize) vSize
          (construct (variableBlock before T malloc vSize).base m) m' := by
  intro h
  let int : Layout := ⟨4, 4, by decide, by decide, by decide⟩
  obtain ⟨m', heq, hset⟩ :=
    h lowBlock (fun _ m => m) [] int 3 (fun _ => 0) (by decide) (by decide)
  obtain ⟨-, rfl⟩ := Prod.mk.inj (Option.some.inj heq)
  exact absurd (hset.object 0 (by decide)) (by decide)

end

end Ironclad.Pointers
