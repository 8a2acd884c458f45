import Ironclad.Pointers.Array
import Ironclad.Pointers.Displacement
import Ironclad.Pointers.SpatialSafety

/-!
# Pointing into a fixed array

A `safe::array` gives pointers at an index by `offset`, `offsetAptr`, `operator+` and by its
conversion to a `laptr`, which can then be moved; a `global_array` by `offset` and by its
conversion to an `aptr`. All but one of them put the array's address, the index and the number
of elements into the pointer. `global_array::offset` puts in the address of the element *and*
its index, so it counts the index twice.
-/

namespace Ironclad.Pointers

namespace SafeArray

/-- `offset(unsigned int index)`. -/
def offset (sp this : Word) (arr : SafeArray) (index : BitVec 32) : Option Laptr :=
  let newP := Laptr.ofDataIndex sp this arr.data arr.ARRAY_N (ofUnsigned index)
  if ofUnsigned index < arr.ARRAY_N then some newP else none

/-- `operator+(size_t diff)`. -/
def add (sp this : Word) (arr : SafeArray) (diff : Word) : Laptr :=
  Laptr.ofDataIndex sp this arr.data arr.ARRAY_N diff

end SafeArray

/-- `safe::global_array<T, ARRAY_N>`. -/
structure GlobalArray where
  data : Word
  ARRAY_N : Word
  deriving DecidableEq, Repr

/-- A `laptr` returned as an `aptr`, field by field. -/
def Aptr.ofFields (other : Laptr) : Aptr := ⟨other.data, other.index, other.size⟩

namespace GlobalArray

/-- `operator aptr<T>()`. -/
def toAptr (sp this : Word) (arr : GlobalArray) : Aptr :=
  let newPtr := Laptr.ofData sp this arr.data arr.ARRAY_N
  if newPtr.dataNotOnStack arr.data then .ofFields newPtr.setAsGlobal else .ofFields newPtr

/-- `offset(unsigned int index)`: the `laptr` is made from `&data[index]` and `index`. -/
def offset (sizeofT sp this : Word) (arr : GlobalArray) (index : BitVec 32) : Option Aptr :=
  let newP := Laptr.ofDataIndex sp this (element sizeofT arr.data (ofUnsigned index)) arr.ARRAY_N
    (ofUnsigned index)
  if ofUnsigned index < arr.ARRAY_N then some (.ofFields newP) else none

end GlobalArray

/-- A pointer to the element `i` of an array of `n` elements at `data`: its base is the first
element, its size `n`, and its checked operators reach the elements of the array. -/
structure PointsTo (sizeofT data n i : Word) (p : Position) (reaches : Word → Prop) : Prop where
  base : p.data = data
  index : p.index = i
  size : p.size = n
  reaches_iff : ∀ a, reaches a ↔ ∃ k : Word, k.toNat < n.toNat ∧ a = element sizeofT data k

/-- The routes from an `array` to its element `i`, a `size_t`, which `offset` and `offsetAptr`
take as an `unsigned int`. `offsetAptr` is for arrays that are not on the stack. -/
structure ArrayRoutesAgree (sizeofT : Word) (arr : SafeArray) (i : Word) : Prop where
  offset : i < arr.ARRAY_N → ∀ sp this, ∃ p, arr.offset sp this (i.setWidth 32) = some p ∧
    PointsTo sizeofT arr.data arr.ARRAY_N i p.place (p.Reaches sizeofT)
  offsetAptr : i < arr.ARRAY_N → ∀ sp, arr.notOnStack sp = true →
    ∃ p, arr.offsetAptr sp (i.setWidth 32) = some p ∧
      PointsTo sizeofT arr.data arr.ARRAY_N i p.place (p.Reaches sizeofT)
  add : i < arr.ARRAY_N → ∀ sp this,
    PointsTo sizeofT arr.data arr.ARRAY_N i (arr.add sp this i).place
      ((arr.add sp this i).Reaches sizeofT)
  convert_add : i < arr.ARRAY_N → ∀ sp this sp' this',
    PointsTo sizeofT arr.data arr.ARRAY_N i ((arr.toLaptr sp this).add sp' this' i).place
      (((arr.toLaptr sp this).add sp' this' i).Reaches sizeofT)
  offset_fails : arr.ARRAY_N ≤ i → ∀ sp this, arr.offset sp this (i.setWidth 32) = none
  offsetAptr_fails : arr.ARRAY_N ≤ i → ∀ sp, arr.offsetAptr sp (i.setWidth 32) = none

/-- The routes from a `global_array` to its element `i`. -/
structure GlobalRoutesAgree (sizeofT : Word) (arr : GlobalArray) (i : Word) : Prop where
  offset : i < arr.ARRAY_N → ∀ sp this, ∃ p, arr.offset sizeofT sp this (i.setWidth 32) = some p ∧
    PointsTo sizeofT arr.data arr.ARRAY_N i p.place (p.Reaches sizeofT)
  convert_add : i < arr.ARRAY_N → ∀ sp this,
    PointsTo sizeofT arr.data arr.ARRAY_N i ((arr.toAptr sp this).add i).place
      (((arr.toAptr sp this).add i).Reaches sizeofT)
  offset_fails : arr.ARRAY_N ≤ i → ∀ sp this, arr.offset sizeofT sp this (i.setWidth 32) = none

/-! ## One pointer -/

section

variable {sizeofT data n i : Word}

/-- The fields decide: the checks of a pointer with the array's size accept its elements. -/
theorem boundsCheck_iff_lt (h : n.toNat < 2 ^ 63) {k : Word} :
    BOUNDS_CHECK k n = true ↔ k.toNat < n.toNat :=
  ⟨boundsCheck_toNat, fun hk => boundsCheck_of_lt hk h⟩

theorem Laptr.pointsTo (h : n.toNat < 2 ^ 63) {p : Laptr} (hp : p.place = ⟨data, i, n⟩) :
    PointsTo sizeofT data n i p.place (p.Reaches sizeofT) := by
  obtain ⟨hd, hi, hn⟩ := Position.mk.inj hp
  refine ⟨hd, hi, hn, ?_⟩
  intro a
  rw [Laptr.reaches_iff, hd, hn]
  exact exists_congr fun k => and_congr_left' (boundsCheck_iff_lt h)

theorem Aptr.pointsTo (h : n.toNat < 2 ^ 63) {p : Aptr} (hp : p.place = ⟨data, i, n⟩) :
    PointsTo sizeofT data n i p.place (p.Reaches sizeofT) := by
  obtain ⟨hd, hi, hn⟩ := Position.mk.inj hp
  refine ⟨hd, hi, hn, ?_⟩
  intro a
  rw [Aptr.reaches_iff, hd, hn]
  exact exists_congr fun k => and_congr_left' (boundsCheck_iff_lt h)

/-- An index that is passed as an `unsigned int` arrives modulo `2^32`. -/
theorem ofUnsigned_setWidth_toNat (i : Word) :
    (ofUnsigned (i.setWidth 32)).toNat = i.toNat % 2 ^ 32 := by
  unfold ofUnsigned
  rw [BitVec.toNat_setWidth, BitVec.toNat_setWidth]
  omega

/-- An element of an array that is not the first is not at the first one's address. -/
theorem Fitting.element_ne (h : Fitting sizeofT n) (hi : i < n) (h0 : i ≠ 0) :
    element sizeofT data i ≠ data := by
  intro heq
  apply h0
  exact h.element_inj (Nat.le_of_lt hi) (Nat.zero_le _) (heq.trans (element_zero _ _).symm)

end

/-! ## The routes -/

section

variable {sizeofT i : Word}

theorem SafeArray.offset_eq_some {sp this : Word} {arr : SafeArray} {index : BitVec 32}
    {p : Laptr} : arr.offset sp this index = some p ↔ ofUnsigned index < arr.ARRAY_N ∧
      p = Laptr.ofDataIndex sp this arr.data arr.ARRAY_N (ofUnsigned index) := by
  rw [offset, Option.ite_none_right_eq_some, Option.some.injEq]
  exact and_congr_right' eq_comm

theorem GlobalArray.offset_eq_some {sp this : Word} {arr : GlobalArray} {index : BitVec 32}
    {p : Aptr} : arr.offset sizeofT sp this index = some p ↔ ofUnsigned index < arr.ARRAY_N ∧
      p = ⟨element sizeofT arr.data (ofUnsigned index), ofUnsigned index, arr.ARRAY_N⟩ := by
  rw [offset, Option.ite_none_right_eq_some, Option.some.injEq]
  exact and_congr_right' eq_comm

theorem GlobalArray.toAptr_eq (sp this : Word) (arr : GlobalArray) :
    arr.toAptr sp this = ⟨arr.data, 0, arr.ARRAY_N⟩ := by
  simp only [toAptr]
  split <;> rfl

/-- The check of an index that is passed as an `unsigned int` accepts no index behind the array
exactly if the index modulo `2^32` is behind it too. -/
theorem not_ofUnsigned_lt_iff {n : Word} :
    ¬ofUnsigned (i.setWidth 32) < n ↔ n.toNat ≤ i.toNat % 2 ^ 32 := by
  rw [BitVec.lt_def, ofUnsigned_setWidth_toNat]
  exact Nat.not_lt

/-- **All routes into an `array` agree exactly if the index survives as an `unsigned int`.** -/
theorem arrayRoutesAgree_iff {arr : SafeArray} (h : Fitting sizeofT arr.ARRAY_N) :
    ArrayRoutesAgree sizeofT arr i ↔ (i < arr.ARRAY_N → i.toNat < 2 ^ 32) ∧
      (arr.ARRAY_N ≤ i → arr.ARRAY_N.toNat ≤ i.toNat % 2 ^ 32) := by
  have hn := h.count_lt
  constructor
  · intro hr
    constructor
    · intro hi
      obtain ⟨p, hp, hto⟩ := hr.offset hi 0 0
      obtain ⟨-, rfl⟩ := SafeArray.offset_eq_some.mp hp
      have hidx : (ofUnsigned (i.setWidth 32)).toNat = i.toNat := congrArg BitVec.toNat hto.index
      rw [ofUnsigned_setWidth_toNat] at hidx
      omega
    · intro hi
      rw [← not_ofUnsigned_lt_iff]
      intro hlt
      have hfail := hr.offset_fails hi 0 0
      rw [SafeArray.offset_eq_some.mpr ⟨hlt, rfl⟩] at hfail
      cases hfail
  · intro ⟨hin, hout⟩
    have hkept : i < arr.ARRAY_N → ofUnsigned (i.setWidth 32) = i :=
      fun hi => ofUnsigned_setWidth (hin hi)
    refine ⟨?_, ?_, ?_, ?_, ?_, ?_⟩
    · intro hi sp this
      refine ⟨_, SafeArray.offset_eq_some.mpr ⟨by rw [hkept hi]; exact hi, rfl⟩, ?_⟩
      apply Laptr.pointsTo hn
      rw [hkept hi]
      rfl
    · intro hi sp hstack
      refine ⟨_, SafeArray.offsetAptr_eq_some.mpr ⟨by rw [hkept hi]; exact hi,
        SafeArray.notOnStack_iff.mp hstack, rfl⟩, ?_⟩
      apply Aptr.pointsTo hn
      rw [hkept hi]
      rfl
    · intro hi sp this
      exact Laptr.pointsTo hn rfl
    · intro hi sp this sp' this'
      apply Laptr.pointsTo hn
      show (⟨(arr.toLaptr sp this).data, (arr.toLaptr sp this).index + i,
        (arr.toLaptr sp this).size⟩ : Position) = _
      rw [SafeArray.toLaptr_data, SafeArray.toLaptr_index, SafeArray.toLaptr_size, zero_add]
    · intro hi sp this
      exact if_neg (not_ofUnsigned_lt_iff.mpr (hout hi))
    · intro hi sp
      apply if_neg
      intro hc
      rw [Bool.and_eq_true, decide_eq_true_eq] at hc
      exact not_ofUnsigned_lt_iff.mpr (hout hi) hc.1

/-- **The routes into a `global_array` agree at the first element only.** -/
theorem globalRoutesAgree_iff {arr : GlobalArray} (h : Fitting sizeofT arr.ARRAY_N) :
    GlobalRoutesAgree sizeofT arr i ↔ (i < arr.ARRAY_N → i = 0) ∧
      (arr.ARRAY_N ≤ i → arr.ARRAY_N.toNat ≤ i.toNat % 2 ^ 32) := by
  have hn := h.count_lt
  constructor
  · intro hr
    constructor
    · intro hi
      obtain ⟨p, hp, hto⟩ := hr.offset hi 0 0
      obtain ⟨-, rfl⟩ := GlobalArray.offset_eq_some.mp hp
      -- the base is the element, so the element must be the first
      have hidx : ofUnsigned (i.setWidth 32) = i := hto.index
      have hbase : element sizeofT arr.data (ofUnsigned (i.setWidth 32)) = arr.data := hto.base
      rw [hidx] at hbase
      by_contra h0
      exact h.element_ne hi h0 hbase
    · intro hi
      rw [← not_ofUnsigned_lt_iff]
      intro hlt
      have hfail := hr.offset_fails hi 0 0
      rw [GlobalArray.offset_eq_some.mpr ⟨hlt, rfl⟩] at hfail
      cases hfail
  · intro ⟨hin, hout⟩
    refine ⟨?_, ?_, ?_⟩
    · intro hi sp this
      have h0 := hin hi
      subst h0
      refine ⟨_, GlobalArray.offset_eq_some.mpr ⟨hi, rfl⟩, ?_⟩
      apply Aptr.pointsTo hn
      show (⟨element sizeofT arr.data 0, 0, arr.ARRAY_N⟩ : Position) = _
      rw [element_zero]
    · intro hi sp this
      apply Aptr.pointsTo hn
      rw [GlobalArray.toAptr_eq]
      show (⟨arr.data, 0 + i, arr.ARRAY_N⟩ : Position) = _
      rw [zero_add]
    · intro hi sp this
      exact if_neg (not_ofUnsigned_lt_iff.mpr (hout hi))

end

/-- **When every way of pointing into a fixed array agrees**, for arrays of both classes. -/
theorem fixedArray_routes_iff {sizeofT n : Word} (h : Fitting sizeofT n) (data i : Word) :
    (ArrayRoutesAgree sizeofT ⟨data, n⟩ i ↔
      (i < n → i.toNat < 2 ^ 32) ∧ (n ≤ i → n.toNat ≤ i.toNat % 2 ^ 32)) ∧
    (GlobalRoutesAgree sizeofT ⟨data, n⟩ i ↔
      (i < n → i = 0) ∧ (n ≤ i → n.toNat ≤ i.toNat % 2 ^ 32)) :=
  ⟨arrayRoutesAgree_iff h, globalRoutesAgree_iff h⟩

/-- Five `int`s at `0x1000`, at the index 2. -/
theorem fixedArray_routes_iff_five :
    (ArrayRoutesAgree 4 ⟨0x1000, 5⟩ 2 ↔
      ((2 : Word) < 5 → (2 : Word).toNat < 2 ^ 32) ∧
        ((5 : Word) ≤ 2 → (5 : Word).toNat ≤ (2 : Word).toNat % 2 ^ 32)) ∧
    (GlobalRoutesAgree 4 ⟨0x1000, 5⟩ 2 ↔
      ((2 : Word) < 5 → (2 : Word) = 0) ∧
        ((5 : Word) ≤ 2 → (5 : Word).toNat ≤ (2 : Word).toNat % 2 ^ 32)) :=
  fixedArray_routes_iff ⟨by decide, by decide, by decide⟩ 0x1000 2

/-- `global_array<int,5> a; a.offset(1)` has the element 1 for its base and the index 1, so it
denotes the element 2. -/
theorem global_offset_counts_twice :
    ¬∀ i : Word, GlobalRoutesAgree 4 ⟨0x1000, 5⟩ i := by
  intro h
  obtain ⟨p, hp, hto⟩ := (h 1).offset (by decide) 0x5000 0x6000
  obtain ⟨-, rfl⟩ := GlobalArray.offset_eq_some.mp hp
  exact absurd hto.base (by decide)

end Ironclad.Pointers
