import Ironclad.Pointers.Narrowing

/-!
# The null tests

A program can ask in four ways whether an array pointer is null. `operator!` and the conversion
to bool look at the address alone; the comparisons, with a default-constructed pointer or with
the raw null pointer, look at the address plus the scaled index. They agree on a pointer iff its
current element is at address 0 exactly when its address is null, and only index arithmetic and
`free` can break that: see `narrowMachine_nullTests_iff`.
-/

namespace Ironclad.Pointers

open Ironclad.Logic

namespace Aptr

/-- `operator!`. -/
def opNot (p : Aptr) : Bool := p.data == 0

/-- `operator unspecified_bool_type()`: `data == 0 ? 0 : &aptr::data`, which is a null member
pointer or not. -/
def toBool (p : Aptr) : Bool := if p.data == 0 then false else true

/-- `operator==` with a `T const *`, on either side. -/
def eqRaw (sizeofT : Word) (p : Aptr) (aptr2 : Word) : Bool :=
  element sizeofT p.data p.index == aptr2

end Aptr

namespace Laptr

/-- `operator!`. -/
def opNot (p : Laptr) : Bool := p.data == 0

/-- `operator unspecified_bool_type()`: `data == 0 ? 0 : &laptr::data`. -/
def toBool (p : Laptr) : Bool := if p.data == 0 then false else true

/-- `operator==` with a `T const *`, on either side. -/
def eqRaw (sizeofT : Word) (p : Laptr) (laptr2 : Word) : Bool :=
  element sizeofT p.data p.index == laptr2

end Laptr

/-- The four null tests of one pointer: what `operator!`, the conversion to bool and the
comparisons with a default-constructed pointer and with the raw null pointer say. -/
structure TestsAgree (opNot toBool eqNull eqRaw : Bool) : Prop where
  toBool : opNot = true ↔ toBool = false
  eqNull : opNot = true ↔ eqNull = true
  eqRaw : opNot = true ↔ eqRaw = true

/-- All null tests of all pointers agree, and pointers that test as null compare equal. The
comparison operators exist between pointers of one class and one element type. -/
structure NullTestsAgree (s : Vars) : Prop where
  aptrs : ∀ v ∈ s.aptrs, TestsAgree v.ptr.opNot v.ptr.toBool
    (v.ptr.compare v.ty.sizeof .eq .null) (v.ptr.eqRaw v.ty.sizeof 0)
  laptrs : ∀ v ∈ s.laptrs, ∀ sp, TestsAgree v.ptr.opNot v.ptr.toBool
    (v.ptr.compare v.ty.sizeof .eq (.null sp)) (v.ptr.eqRaw v.ty.sizeof 0)
  aptrs_eq : ∀ v ∈ s.aptrs, ∀ w ∈ s.aptrs, v.ty = w.ty →
    v.ptr.opNot = true → w.ptr.opNot = true → v.ptr.compare v.ty.sizeof .eq w.ptr = true
  laptrs_eq : ∀ v ∈ s.laptrs, ∀ w ∈ s.laptrs, v.ty = w.ty →
    v.ptr.opNot = true → w.ptr.opNot = true → v.ptr.compare v.ty.sizeof .eq w.ptr = true

/-- The current element is at address 0 exactly when the address is null. -/
def NullTogether (ty : CType) (data index : Word) : Prop :=
  data = 0 ↔ element ty.sizeof data index = 0

instance (ty : CType) (data index : Word) : Decidable (NullTogether ty data index) :=
  inferInstanceAs (Decidable (_ ↔ _))

/-! ## One pointer -/

theorem toBool_eq_false_iff (data : Word) :
    (if data == 0 then false else true) = false ↔ data = 0 := by
  cases h : data == 0 with
  | true => exact ⟨fun _ => eq_of_beq h, fun _ => rfl⟩
  | false =>
      apply iff_of_false
      · intro hc
        cases hc
      · intro hz
        rw [hz] at h
        cases h

/-- **The tests of one pointer agree exactly if its current element and its address are null
together.** Both comparisons look at the same address. -/
theorem testsAgree_iff {ty : CType} {data index : Word} :
    TestsAgree (data == 0) (if data == 0 then false else true)
        (Comparison.eq.holds (element ty.sizeof data index) (element ty.sizeof 0 0))
        (element ty.sizeof data index == 0) ↔
      NullTogether ty data index := by
  have hzero : element ty.sizeof 0 0 = 0 := by
    rw [element_null]
    exact BitVec.zero_mul
  rw [hzero]
  show TestsAgree _ _ (element ty.sizeof data index == 0) _ ↔ _
  constructor
  · intro h
    have heq := h.eqRaw
    rw [beq_iff_eq, beq_iff_eq] at heq
    exact heq
  · intro h
    have heq : (data == 0) = true ↔ (element ty.sizeof data index == 0) = true := by
      rw [beq_iff_eq, beq_iff_eq]
      exact h
    refine ⟨?_, heq, heq⟩
    rw [toBool_eq_false_iff, beq_iff_eq]

/-- Null pointers whose tests agree are all at address 0. -/
theorem eq_of_nullTogether {ty : CType} {data index data' index' : Word}
    (h : NullTogether ty data index) (h' : NullTogether ty data' index')
    (hd : (data == 0) = true) (hd' : (data' == 0) = true) :
    Comparison.eq.holds (element ty.sizeof data index) (element ty.sizeof data' index') = true := by
  show (_ == _) = true
  rw [h.mp (eq_of_beq hd), h'.mp (eq_of_beq hd')]
  rfl

/-! ## Whole runs -/

theorem nullTestsAgree_iff {s : Vars} : NullTestsAgree s ↔ Each NullTogether s := by
  constructor
  · intro h
    constructor
    · intro v hv
      exact testsAgree_iff.mp (h.aptrs v hv)
    · intro v hv
      exact testsAgree_iff.mp (h.laptrs v hv 0)
  · intro h
    refine ⟨?_, ?_, ?_, ?_⟩
    · intro v hv
      exact testsAgree_iff.mpr (h.1 v hv)
    · intro v hv sp
      exact testsAgree_iff.mpr (h.2 v hv)
    · intro v hv w hw hty
      exact eq_of_nullTogether (h.1 v hv) (hty ▸ h.1 w hw)
    · intro v hv w hw hty
      exact eq_of_nullTogether (h.2 v hv) (hty ▸ h.2 w hw)

theorem nullTogether_zero (ty : CType) : NullTogether ty 0 0 := by
  refine iff_of_true rfl ?_
  rw [element_null]
  exact BitVec.zero_mul

/-- A new block is at its first element, which is not at address 0. -/
theorem Root.nullTogether (r : Root) : NullTogether r.ty r.base 0 := by
  refine iff_of_false r.base_ne_zero ?_
  have h : element r.ty.sizeof r.base 0 = r.base := by
    unfold element
    rw [show (0 : Word) * r.ty.sizeof = 0 from BitVec.zero_mul]
    exact BitVec.add_zero r.base
  rw [h]
  exact r.base_ne_zero

end Ironclad.Pointers
