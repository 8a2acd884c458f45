import Ironclad.Pointers.Aptr

/-!
# Casts between array pointers

`casts.hpp` has two kinds of casts. The specialised ones convert between the
primitive element types listed in `aptrCasts` and `laptrCasts` and recompute the
size (`internal_cast`). The generic one is a `dynamic_cast` of the address; its
result is the environment's, and the size and the index are kept.
-/

namespace Ironclad.Pointers

/-- The size that `internal_cast<U,T>` computes:
`(p.getSize() * sizeof(T)) / sizeof(U)`, in `size_t`. -/
def castSize (T U : Prim) (size : Word) : Word := (size * T.sizeof) / U.sizeof

/-- The specialisations of `cast` for `aptr`, as pairs of source and target. -/
def aptrCasts : List (Prim × Prim) :=
  [(.unsignedChar, .char), (.int, .char), (.double, .char), (.float, .char),
   (.unsignedInt, .unsignedChar), (.unsignedChar, .unsignedShort), (.char, .unsignedChar),
   (.unsignedInt, .unsignedShort)]

/-- The specialisations of `cast` for `laptr`, as pairs of source and target. -/
def laptrCasts : List (Prim × Prim) := [(.unsignedChar, .char), (.long, .unsignedChar)]

namespace Aptr

/-- `internal::internal_cast<U,T>(aptr<T> &p)`. -/
def internal_cast (T U : Prim) (p : Aptr) : Aptr :=
  ofDataIndex p.data (castSize T U p.size) p.index

/-- The specialised `cast<U>(aptr<T> &p)`; other pairs of types do not compile. -/
def castPrim (T U : Prim) (p : Aptr) : Option Aptr :=
  if (T, U) ∈ aptrCasts then some (p.internal_cast T U) else none

/-- The generic `cast<U>(aptr<T> &p)`, with the result of
`dynamic_cast<U*>(p.getData())`. -/
def castDynamic (result : Word) (p : Aptr) : Aptr := ofDataIndex result p.size p.index

end Aptr

namespace Laptr

/-- `internal::internal_cast<U,T>(laptr<T> &p)`. -/
def internal_cast (sp this : Word) (T U : Prim) (p : Laptr) : Laptr :=
  ofDataIndex sp this p.data (castSize T U p.size) p.index

/-- The specialised `cast<U>(laptr<T> &p)`; other pairs of types do not compile. -/
def castPrim (sp this : Word) (T U : Prim) (p : Laptr) : Option Laptr :=
  if (T, U) ∈ laptrCasts then some (p.internal_cast sp this T U) else none

/-- The generic `cast<U>(laptr<T> &p)`, with the result of
`dynamic_cast<U*>(p.getData())`. -/
def castDynamic (sp this result : Word) (p : Laptr) : Laptr :=
  ofDataIndex sp this result p.size p.index

end Laptr

/-- An empty array stays empty. -/
@[simp] theorem castSize_zero (T U : Prim) : castSize T U 0 = 0 := by
  show (0#64 * T.sizeof) / U.sizeof = 0#64
  rw [BitVec.zero_mul, BitVec.zero_udiv]

end Ironclad.Pointers
