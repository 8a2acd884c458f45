import Ironclad.Pointers.Aptr

/-!
# `safe::array`: fixed-size arrays

`safe::array<T, ARRAY_N>` holds its elements inside the object, so its address
is an address of the frame, the heap block or the global segment the object
lies in. The checks compare that address with a stack pointer read on the spot:
`notOnStack` through a default `laptr`, the conversion to `laptr` through the
`laptr` under construction.
-/

namespace Ironclad.Pointers

open Ironclad.Logic.LowTag

structure SafeArray where
  data : Word
  ARRAY_N : Word
  deriving DecidableEq, Repr

namespace SafeArray

/-- `notOnStack()`: `laptr<T> newPtr; return newPtr.dataNotOnStack((size_t)data);`. -/
def notOnStack (sp : Word) (arr : SafeArray) : Bool := (Laptr.null sp).dataNotOnStack arr.data

/-- `operator laptr<T>()`. -/
def toLaptr (sp this : Word) (arr : SafeArray) : Laptr :=
  let newPtr := Laptr.ofData sp this arr.data arr.ARRAY_N
  if newPtr.dataNotOnStack arr.data then newPtr.setAsGlobal else newPtr

/-- `getAptr()`. -/
def getAptr (sp : Word) (arr : SafeArray) : Option Aptr :=
  if arr.notOnStack sp then some (Aptr.ofData arr.data arr.ARRAY_N) else none

/-- `offsetAptr(unsigned int index)`. -/
def offsetAptr (sp : Word) (arr : SafeArray) (index : BitVec 32) : Option Aptr :=
  if ofUnsigned index < arr.ARRAY_N && arr.notOnStack sp then
    some (Aptr.ofDataIndex arr.data arr.ARRAY_N (ofUnsigned index))
  else none

theorem notOnStack_iff {sp : Word} {arr : SafeArray} :
    arr.notOnStack sp = true ↔ arr.data ≤ sp :=
  decide_eq_true_iff

theorem getAptr_eq_some {sp : Word} {arr : SafeArray} {p : Aptr} :
    arr.getAptr sp = some p ↔ arr.data ≤ sp ∧ p = Aptr.ofData arr.data arr.ARRAY_N := by
  rw [getAptr, Option.ite_none_right_eq_some, Option.some.injEq, notOnStack_iff]
  exact and_congr_right' eq_comm

theorem offsetAptr_eq_some {sp : Word} {arr : SafeArray} {index : BitVec 32} {p : Aptr} :
    arr.offsetAptr sp index = some p ↔
      ofUnsigned index < arr.ARRAY_N ∧ arr.data ≤ sp ∧
        p = Aptr.ofDataIndex arr.data arr.ARRAY_N (ofUnsigned index) := by
  rw [offsetAptr, Option.ite_none_right_eq_some, Option.some.injEq, Bool.and_eq_true,
    decide_eq_true_eq, notOnStack_iff, and_assoc]
  exact and_congr_right' (and_congr_right' eq_comm)

@[simp] theorem toLaptr_data (sp this : Word) (arr : SafeArray) :
    (arr.toLaptr sp this).data = arr.data := by
  simp only [toLaptr]
  split <;> rfl

@[simp] theorem toLaptr_index (sp this : Word) (arr : SafeArray) :
    (arr.toLaptr sp this).index = 0 := by
  simp only [toLaptr]
  split <;> rfl

@[simp] theorem toLaptr_size (sp this : Word) (arr : SafeArray) :
    (arr.toLaptr sp this).size = arr.ARRAY_N := by
  simp only [toLaptr]
  split <;> rfl

@[simp] theorem toLaptr_bound (sp this : Word) (arr : SafeArray) :
    (arr.toLaptr sp this).bound = untag sp := by
  simp only [toLaptr]
  split
  · rw [Laptr.setAsGlobal_bound]
    exact Laptr.untag_checkStackBoundGlobal sp this
  · exact Laptr.untag_checkStackBoundGlobal sp this

/-- For a `laptr` that lies above an aligned stack pointer, the flag is the
comparison of the array's address with the stack pointer. -/
theorem toLaptr_notOnStack {sp this : Word} (hthis : sp ≤ this) (hsp : tagged sp = false)
    (arr : SafeArray) : (arr.toLaptr sp this).notOnStack = decide (arr.data ≤ sp) := by
  have htb : (Laptr.ofData sp this arr.data arr.ARRAY_N).tb = sp :=
    Laptr.checkStackBoundGlobal_of_le hthis
  simp only [toLaptr, Laptr.dataNotOnStack, htb, decide_eq_true_eq]
  by_cases hle : arr.data ≤ sp
  · rw [if_pos hle, decide_eq_true hle]
    exact tagged_or_one (by omega) _
  · rw [if_neg hle, decide_eq_false hle, Laptr.notOnStack, htb, hsp]

end SafeArray

end Ironclad.Pointers
