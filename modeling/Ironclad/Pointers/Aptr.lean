import Ironclad.Pointers.Laptr

/-!
# `ptr` and `aptr`: pointers to the heap and the globals

`ptr<T>` is one address. `aptr<T>` is an address with an index and a size, and
every access goes through the bounds check only. A conversion from a local
pointer (`ptr(lptr)`, `from_laptr`) checks the *not on stack* flag.
-/

namespace Ironclad.Pointers

open Ironclad.Logic.LowTag

structure Ptr where
  data : Word
  deriving DecidableEq, Repr

structure Aptr where
  data : Word
  index : Word
  size : Word
  deriving DecidableEq, Repr

namespace Ptr

/-- `ptr(T * new_data)`. -/
def ofData (new_data : Word) : Ptr := ⟨new_data⟩

/-- `ptr(lptr<T> const & other)`: `assert(other.notOnStack())`. -/
def ofLptr (other : Lptr) : Option Ptr := if other.notOnStack then some ⟨other.data⟩ else none

/-- `operator lptr<T>()`: the flag is set whatever the address. -/
def toLptr (sp : Word) (p : Ptr) : Lptr :=
  { Lptr.ofData sp p.data with tb := (Lptr.ofData sp p.data).tb ||| 1#64 }

theorem ofLptr_eq_some {other : Lptr} {p : Ptr} :
    ofLptr other = some p ↔ other.notOnStack = true ∧ p = ⟨other.data⟩ := by
  rw [ofLptr, Option.ite_none_right_eq_some, Option.some.injEq]
  exact and_congr_right' eq_comm

@[simp] theorem toLptr_bound (sp : Word) (p : Ptr) : (p.toLptr sp).bound = untag sp := by
  rw [← Lptr.ofData_bound sp p.data]
  exact untag_or_one _

end Ptr

namespace Aptr

/-- `aptr()` and `aptr(std::nullptr_t)`. -/
def null : Aptr := ⟨0, 0, 0⟩

/-- `aptr(T * _data, long _size)`. -/
def ofData (data size : Word) : Aptr := ⟨data, 0, size⟩

/-- `aptr(T * _data, long _size, long _index)`. -/
def ofDataIndex (data size index : Word) : Aptr := ⟨data, index, size⟩

/-- `aptr(aptr const & other)`. -/
def copy (other : Aptr) : Aptr := ⟨other.data, other.index, other.size⟩

/-- `operator=`. -/
def assign (_p other : Aptr) : Aptr := ⟨other.data, other.index, other.size⟩

/-- `new_array<T>(size)`, with the block that the allocator returned. -/
def new_array (buffer size : Word) : Aptr := ofData buffer size

/-- `from_laptr`: the fields are copied and `STACK_CHECK` looks at the source. -/
def from_laptr (_p : Aptr) (other : Laptr) : Option Aptr :=
  if other.notOnStack then some ⟨other.data, other.index, other.size⟩ else none

/-- `operator laptr<T>()`: the flag is set whatever the address. -/
def toLaptr (sp this : Word) (p : Aptr) : Laptr :=
  (Laptr.ofDataIndex sp this p.data p.size p.index).setAsGlobal

/-! ## Index arithmetic -/

/-- `operator++()`. -/
def preInc (p : Aptr) : Aptr := { p with index := p.index + 1 }

/-- `operator--()`. -/
def preDec (p : Aptr) : Aptr := { p with index := p.index - 1 }

/-- `operator++(int)`: the pointer afterwards and the returned copy. -/
def postInc (p : Aptr) : Aptr × Aptr := ({ p with index := p.index + 1 }, copy p)

/-- `operator--(int)`: the pointer afterwards and the returned copy. -/
def postDec (p : Aptr) : Aptr × Aptr := ({ p with index := p.index - 1 }, copy p)

/-- `operator+=(int op)`. -/
def addAssign (p : Aptr) (op : BitVec 32) : Aptr := { p with index := p.index + ofInt op }

/-- `operator-=(int op)`. -/
def subAssign (p : Aptr) (op : BitVec 32) : Aptr := { p with index := p.index - ofInt op }

/-- `operator-(size_t diff)`. -/
def sub (p : Aptr) (diff : Word) : Aptr := { ofData p.data p.size with index := p.index - diff }

/-- `operator+(size_t diff)`. -/
def add (p : Aptr) (diff : Word) : Aptr := { ofData p.data p.size with index := p.index + diff }

/-- `offset(unsigned int _index)`. -/
def offset (p : Aptr) (_index : BitVec 32) : Aptr :=
  { ofData p.data p.size with index := p.index + ofUnsigned _index }

/-! ## Dereference and release -/

/-- `operator*` and `operator->`: the address accessed, `none` when the bounds
check fails. -/
def deref (sizeofT : Word) (p : Aptr) : Option Word :=
  access (BOUNDS_CHECK p.index p.size) sizeofT p.data p.index

/-- `operator[](const int _index)`. -/
def subscript (sizeofT : Word) (p : Aptr) (_index : BitVec 32) : Option Word :=
  access (BOUNDS_CHECK_INDEX p.index p.size (ofInt _index)) sizeofT p.data
    (p.index + ofInt _index)

/-- `free()`: the address becomes null; the index and the size stay. -/
def free (p : Aptr) : Aptr := { p with data := 0 }

/-- `spatialCheck(size_t numBytes)`: `index + (long)(numBytes / sizeof(T)) >= 0 &&
index + (numBytes / sizeof(T)) <= size`, the second comparison between `size_t`s. -/
def spatialCheck (sizeofT : Word) (p : Aptr) (numBytes : Word) : Bool :=
  (0#64).sle (p.index + numBytes / sizeofT) && decide (p.index + numBytes / sizeofT ≤ p.size)

/-- The comparison operators: `data + index` against `data + index`. -/
def compare (sizeofT : Word) (c : Comparison) (p other : Aptr) : Bool :=
  c.holds (element sizeofT p.data p.index) (element sizeofT other.data other.index)

/-- `operator ptr<T>()`: the bounds check is made unless the address is null, and then the
index is added. -/
def toPtr (sizeofT : Word) (p : Aptr) : Option Ptr :=
  if p.data ≠ 0 ∧ BOUNDS_CHECK p.index p.size = false then none
  else some (.ofData (element sizeofT p.data p.index))

/-! ## What the operations do -/

theorem from_laptr_eq_some {p q : Aptr} {other : Laptr} :
    p.from_laptr other = some q ↔
      other.notOnStack = true ∧ q = ⟨other.data, other.index, other.size⟩ := by
  rw [from_laptr, Option.ite_none_right_eq_some, Option.some.injEq]
  exact and_congr_right' eq_comm

@[simp] theorem toLaptr_bound (sp this : Word) (p : Aptr) :
    (p.toLaptr sp this).bound = untag sp := by
  unfold toLaptr
  rw [Laptr.setAsGlobal_bound, Laptr.ofDataIndex_bound]

end Aptr

end Ironclad.Pointers
