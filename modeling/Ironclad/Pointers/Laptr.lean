import Ironclad.Pointers.Lptr

/-!
# `laptr`: local array pointers

`laptr<T>` is the array counterpart of `lptr<T>`: an address with an index and a
size, and the same `tb` word. Its constructors also read the address of the
pointer itself (`this`): `checkStackBoundGlobal` sets the flag from where the
*pointer* lies, not from the address it holds.
-/

namespace Ironclad.Pointers

open Ironclad.Logic.LowTag

structure Laptr where
  data : Word
  index : Word
  size : Word
  tb : Word
  deriving DecidableEq, Repr

namespace Laptr

/-- `GETSP(tb); checkStackBoundGlobal();`, where the check is
`if((size_t)this < tb){ tb |= 1; }`. -/
def checkStackBoundGlobal (sp this : Word) : Word :=
  if this < sp then sp ||| 1#64 else sp

/-- `laptr()`. -/
def null (sp : Word) : Laptr := ⟨0, 0, 0, sp⟩

/-- `laptr(T * _data, long _size)`. -/
def ofData (sp this data size : Word) : Laptr :=
  ⟨data, 0, size, checkStackBoundGlobal sp this⟩

/-- `laptr(T * _data, long _size, long _index)`. -/
def ofDataIndex (sp this data size index : Word) : Laptr :=
  ⟨data, index, size, checkStackBoundGlobal sp this⟩

/-- `laptr(laptr const & other)`. -/
def copy (sp this : Word) (other : Laptr) : Laptr :=
  ⟨other.data, other.index, other.size, checkStackBoundGlobal sp this⟩

def notOnStack (p : Laptr) : Bool := tagged p.tb

/-- `dataNotOnStack(size_t other)`: `other <= tb`. -/
def dataNotOnStack (p : Laptr) (other : Word) : Bool := decide (other ≤ p.tb)

def setAsGlobal (p : Laptr) : Laptr := { p with tb := p.tb ||| 1#64 }

/-! ## Index arithmetic

The operators that return a pointer by value construct it at `this`. -/

/-- `operator++()`. -/
def preInc (p : Laptr) : Laptr := { p with index := p.index + 1 }

/-- `operator++(int)`: the pointer afterwards and the returned copy. -/
def postInc (sp this : Word) (p : Laptr) : Laptr × Laptr :=
  ({ p with index := p.index + 1 }, copy sp this p)

/-- `operator--()`. -/
def preDec (p : Laptr) : Laptr := { p with index := p.index - 1 }

/-- `operator--(int)`: the pointer afterwards and the returned copy. -/
def postDec (sp this : Word) (p : Laptr) : Laptr × Laptr :=
  ({ p with index := p.index - 1 }, copy sp this p)

/-- `operator+=(int op)`. -/
def addAssign (p : Laptr) (op : BitVec 32) : Laptr := { p with index := p.index + ofInt op }

/-- `operator-=(int op)`. -/
def subAssign (p : Laptr) (op : BitVec 32) : Laptr := { p with index := p.index - ofInt op }

/-- `operator-(size_t diff)`. -/
def sub (sp this : Word) (p : Laptr) (diff : Word) : Laptr :=
  { ofData sp this p.data p.size with index := p.index - diff }

/-- `operator+(size_t diff)`. -/
def add (sp this : Word) (p : Laptr) (diff : Word) : Laptr :=
  { ofData sp this p.data p.size with index := p.index + diff }

/-- `offset(unsigned int _index)`. -/
def offset (sp this : Word) (p : Laptr) (_index : BitVec 32) : Laptr :=
  ofDataIndex sp this p.data p.size (p.index + ofUnsigned _index)

/-! ## Dereference and assignment -/

/-- `operator*` and `operator->`: the address accessed, `none` when the bounds
check fails. -/
def deref (sizeofT : Word) (p : Laptr) : Option Word :=
  access (BOUNDS_CHECK p.index p.size) sizeofT p.data p.index

/-- `operator[](const unsigned int _index)`. Unlike `aptr` it also asserts that
the address is not null. -/
def subscript (sizeofT : Word) (p : Laptr) (_index : BitVec 32) : Option Word :=
  access (p.data != 0 && BOUNDS_CHECK_INDEX p.index p.size (ofUnsigned _index)) sizeofT p.data
    (p.index + ofUnsigned _index)

/-- `operator=`. -/
def assign (p other : Laptr) : Option Laptr :=
  if assignCheck p.tb other.data other.tb then
    some ⟨other.data, other.index, other.size, assignTb p.tb other.tb⟩
  else none

/-- `spatialCheck(size_t numBytes)`: `index + (numBytes / sizeof(T)) >= 0 &&
index + (numBytes / sizeof(T)) <= size`, both comparisons between `size_t`s. -/
def spatialCheck (sizeofT : Word) (p : Laptr) (numBytes : Word) : Bool :=
  decide (0 ≤ p.index + numBytes / sizeofT) && decide (p.index + numBytes / sizeofT ≤ p.size)

/-- The comparison operators: `data + index` against `data + index`. -/
def compare (sizeofT : Word) (c : Comparison) (p other : Laptr) : Bool :=
  c.holds (element sizeofT p.data p.index) (element sizeofT other.data other.index)

/-- `operator lptr<T>()`: the index is added, and the bounds check is made unless the address
is null. -/
def toLptr (sizeofT sp : Word) (p : Laptr) : Option Lptr :=
  if p.data ≠ 0 ∧ BOUNDS_CHECK p.index p.size = false then none
  else some (.ofData sp (element sizeofT p.data p.index))

/-- The temporal bound: `tb` without the flag. -/
def bound (p : Laptr) : Word := untag p.tb

/-! ## What the operations do to the address, the size and the bound -/

@[simp] theorem untag_checkStackBoundGlobal (sp this : Word) :
    untag (checkStackBoundGlobal sp this) = untag sp := by
  unfold checkStackBoundGlobal
  split
  · exact untag_or_one sp
  · rfl

/-- A pointer that does not itself lie below the stack pointer gets `tb = sp`,
whatever address it holds. -/
theorem checkStackBoundGlobal_of_le {sp this : Word} (h : sp ≤ this) :
    checkStackBoundGlobal sp this = sp := by
  unfold checkStackBoundGlobal
  rw [if_neg]
  exact BitVec.not_lt.mpr h

@[simp] theorem ofDataIndex_bound (sp this data size index : Word) :
    (ofDataIndex sp this data size index).bound = untag sp :=
  untag_checkStackBoundGlobal sp this

@[simp] theorem setAsGlobal_bound (p : Laptr) : p.setAsGlobal.bound = p.bound :=
  untag_or_one p.tb

/-- The result of an assignment that passes. -/
theorem assign_eq_some {p other q : Laptr} :
    p.assign other = some q ↔ assignCheck p.tb other.data other.tb = true ∧
      q = ⟨other.data, other.index, other.size, assignTb p.tb other.tb⟩ := by
  rw [assign, Option.ite_none_right_eq_some, Option.some.injEq]
  exact and_congr_right' eq_comm

end Laptr

end Ironclad.Pointers
