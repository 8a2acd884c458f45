import Ironclad.Logic.Region
import Ironclad.Pointers.Casts
import Ironclad.Pointers.Displacement

/-!
# What a cast does to the index

A cast converts the address and, between primitive types, the size; the index it hands on as it
is. An index counts elements, so the pointer moves unless the index is 0 or the elements have
the same size. The generic cast converts neither size nor index: an element of the result is the
one that `dynamic_cast` finds only where the elements lie at the same distances.

`dynamic_cast` itself is a parameter. What is used of it is that the elements of one array have
one dynamic type, so that it finds their `U` objects at one offset or finds none.
-/

namespace Ironclad.Pointers

open Ironclad.Logic

/-- The index is in `[0, size]`, and the elements fit in the address space. -/
structure InRange (sizeofT : Word) (p : Position) : Prop where
  nonneg : 0 ≤ p.index.toInt
  le_size : p.index.toInt ≤ p.size.toInt
  fits : p.size.toNat * sizeofT.toNat < 2 ^ 64

/-- `q`, over elements of `sizeofU` bytes, denotes the address of `p`, over elements of `sizeofT`
bytes, rounded down to a whole element: both as distances from the first element. -/
def KeepsAddress (sizeofT sizeofU : Word) (p q : Position) : Prop :=
  (element sizeofU q.data q.index - q.data).toNat =
    (element sizeofT p.data p.index - p.data).toNat / sizeofU.toNat * sizeofU.toNat

/-- Every element of `q` that its bounds check accepts is the `U` object that `dynamic_cast`
finds for the element of `p`, and lies in the allocation. -/
def KeepsElements (dyn : Word → Word) (sizeofT sizeofU : Word) (block : Region 64)
    (p q : Position) : Prop :=
  ∀ k, BOUNDS_CHECK k q.size = true →
    dyn (element sizeofT p.data k) ≠ 0 ∧
      element sizeofU q.data k = dyn (element sizeofT p.data k) ∧
      (⟨element sizeofU q.data k, sizeofU.toNat⟩ : Region 64) ⊆ block

/-- `dynamic_cast<U *>` on the elements of an array: they all have one dynamic type, so either
none of them has a `U` object, or the object is at the same offset for all; and it exists, so it
lies in the allocation and its address is not null. -/
structure DynamicCast (dyn : Word → Word) (sizeofT sizeofU : Word) (block : Region 64)
    (p : Position) : Prop where
  uniform : ∀ k : Word, k.toNat < p.size.toNat →
    dyn (element sizeofT p.data k) =
      if dyn p.data = 0 then 0 else element sizeofT (dyn p.data) k
  inside : dyn p.data ≠ 0 → ∀ k : Word, k.toNat < p.size.toNat →
    element sizeofT (dyn p.data) k ≠ 0 ∧
      (⟨element sizeofT (dyn p.data) k, sizeofU.toNat⟩ : Region 64) ⊆ block

/-! ## Distances -/

section

variable {sizeofT sizeofU : Word} {p q : Position}

/-- The distances as numbers, where the new one does not wrap. -/
theorem InRange.keepsAddress_iff (h : InRange sizeofT p) (hidx : q.index = p.index)
    (hU : p.index.toNat * sizeofU.toNat < 2 ^ 64) :
    KeepsAddress sizeofT sizeofU p q ↔ p.index.toNat * sizeofU.toNat =
      p.index.toNat * sizeofT.toNat / sizeofU.toNat * sizeofU.toNat := by
  have hle : p.index.toNat ≤ p.size.toNat := by
    have h0 := toInt_eq_toNat h.nonneg
    have h1 := toInt_eq_toNat (Int.le_trans h.nonneg h.le_size)
    have := h.le_size
    omega
  have hT : p.index.toNat * sizeofT.toNat < 2 ^ 64 :=
    Nat.lt_of_le_of_lt (Nat.mul_le_mul_right _ hle) h.fits
  unfold KeepsAddress
  rw [hidx, element_sub_data, element_sub_data, BitVec.toNat_mul, BitVec.toNat_mul,
    Nat.mod_eq_of_lt hU, Nat.mod_eq_of_lt hT]

theorem InRange.index_le (h : InRange sizeofT p) :
    p.index.toNat ≤ p.size.toNat ∧ p.size.toNat < 2 ^ 63 := by
  have hsize := Int.le_trans h.nonneg h.le_size
  have h0 := toInt_eq_toNat h.nonneg
  have h1 := toInt_eq_toNat hsize
  have hlt : p.size.toInt < 2 ^ 63 := BitVec.toInt_lt
  have := h.le_size
  omega

/-- The first element stays the first. -/
theorem InRange.keepsAddress_first (h : InRange sizeofT p) (hidx : q.index = p.index)
    (h0 : p.index = 0) : KeepsAddress sizeofT sizeofU p q := by
  have hnat : p.index.toNat = 0 := BitVec.toNat_eq.mp h0
  rw [h.keepsAddress_iff hidx (by rw [hnat]; omega), hnat]
  simp

/-- Elements of one size lie at the same distances. -/
theorem InRange.keepsAddress_of_eq (h : InRange sizeofT p) (hidx : q.index = p.index)
    (heq : sizeofT = sizeofU) : KeepsAddress sizeofT sizeofU p q := by
  unfold KeepsAddress
  rw [hidx, element_sub_data, element_sub_data, ← heq, BitVec.toNat_mul,
    Nat.mod_eq_of_lt (Nat.lt_of_le_of_lt (Nat.mul_le_mul_right _ h.index_le.1) h.fits)]
  rcases Nat.eq_zero_or_pos sizeofT.toNat with hs | hs
  · rw [hs, Nat.mul_zero, Nat.mul_zero]
  · rw [Nat.mul_div_cancel _ hs]

/-- One element behind the first, the old distance is rounded down to one new element. -/
theorem InRange.keepsAddress_second_iff (h : InRange sizeofT p) (hidx : q.index = p.index)
    (hU : sizeofU ≠ 0) (h1 : p.index.toNat = 1) : KeepsAddress sizeofT sizeofU p q ↔
      sizeofU.toNat ≤ sizeofT.toNat ∧ sizeofT.toNat < 2 * sizeofU.toNat := by
  have hpos := toNat_pos hU
  rw [h.keepsAddress_iff hidx (by rw [h1, Nat.one_mul]; exact sizeofU.isLt), h1, Nat.one_mul,
    Nat.one_mul]
  have hdiv := Nat.div_add_mod sizeofT.toNat sizeofU.toNat
  have hmod := Nat.mod_lt sizeofT.toNat hpos
  rw [Nat.mul_comm] at hdiv
  constructor
  · intro heq
    omega
  · intro hb
    have hq1 : sizeofT.toNat / sizeofU.toNat = 1 := Nat.div_eq_of_lt_le (by omega) (by omega)
    rw [hq1, Nat.one_mul]

end

/-! ## Casts between primitive types -/

/-- The sizes that the specialised casts convert between: to one byte, or to two. -/
theorem casts_sizes {T U : Prim} (h : (T, U) ∈ aptrCasts ++ laptrCasts) :
    (T.sizeof, U.sizeof) ∈ [((1 : Word), (1 : Word)), (4, 1), (8, 1), (1, 2), (4, 2)] := by
  revert h
  cases T <;> cases U <;> decide

/-- **A primitive cast keeps the address exactly if the index is 0 or the sizes are equal.** -/
theorem keepsAddress_castPrim_iff {T U : Prim} (hcast : (T, U) ∈ aptrCasts ++ laptrCasts)
    {p q : Position} (h : InRange T.sizeof p) (hidx : q.index = p.index) :
    KeepsAddress T.sizeof U.sizeof p q ↔ p.index = 0 ∨ T.sizeof = U.sizeof := by
  obtain ⟨hle, hsize⟩ := h.index_le
  have hzero : p.index = 0 ↔ p.index.toNat = 0 := BitVec.toNat_eq
  have hsizes := casts_sizes hcast
  -- no pointer is cast to elements of more than two bytes, so the new distance does not wrap
  have hU : U.sizeof.toNat ≤ 2 := by
    revert hsizes
    cases T <;> cases U <;> decide
  have hfit : p.index.toNat * U.sizeof.toNat < 2 ^ 64 := by
    have := Nat.mul_le_mul_left p.index.toNat hU
    omega
  rw [h.keepsAddress_iff hidx hfit, hzero]
  simp only [List.mem_cons, Prod.mk.injEq, List.not_mem_nil, or_false] at hsizes
  rcases hsizes with ⟨hT, hU⟩ | ⟨hT, hU⟩ | ⟨hT, hU⟩ | ⟨hT, hU⟩ | ⟨hT, hU⟩ <;> rw [hT, hU]
  · exact iff_of_true (by simp) (.inr rfl)
  all_goals
    simp
    omega

/-! ## Casts between classes -/

section

variable {dyn : Word → Word} {sizeofT sizeofU : Word} {block : Region 64} {p q : Position}

/-- **The elements are kept exactly if `dynamic_cast` finds them and there is at most one, or
the sizes are equal.** -/
theorem keepsElements_iff (hsize : p.size.toNat < 2 ^ 63)
    (hdyn : DynamicCast dyn sizeofT sizeofU block p) (hdata : q.data = dyn p.data)
    (hq : q.size = p.size) :
    KeepsElements dyn sizeofT sizeofU block p q ↔
      p.size = 0 ∨ dyn p.data ≠ 0 ∧ (p.size = 1 ∨ sizeofT = sizeofU) := by
  have hzero : p.size = 0 ↔ p.size.toNat = 0 := BitVec.toNat_eq
  have hone : p.size = 1 ↔ p.size.toNat = 1 := BitVec.toNat_eq
  constructor
  · intro h
    rcases Nat.eq_zero_or_pos p.size.toNat with hs | hs
    · exact .inl (hzero.mpr hs)
    right
    -- the element 0 says that the cast succeeds, and the element 1 that the distances agree
    have hnull : dyn p.data ≠ 0 := by
      intro hd
      obtain ⟨hne, -⟩ := h 0 (boundsCheck_of_lt (by rw [hq]; exact hs) (hq ▸ hsize))
      rw [hdyn.uniform 0 hs, if_pos hd] at hne
      exact hne rfl
    refine ⟨hnull, ?_⟩
    rcases Nat.lt_or_ge 1 p.size.toNat with hs1 | hs1
    · right
      obtain ⟨-, heq, -⟩ := h 1 (boundsCheck_of_lt (by rw [hq]; exact hs1) (hq ▸ hsize))
      rw [hdyn.uniform 1 hs1, if_neg hnull, hdata] at heq
      unfold element at heq
      have hmul := add_left_cancel heq
      rw [one_mul, one_mul] at hmul
      exact hmul.symm
    · exact .inl (hone.mpr (by omega))
  · intro h k hk
    have hlt : k.toNat < p.size.toNat := hq ▸ boundsCheck_toNat hk
    rcases h with h | ⟨hnull, h⟩
    · rw [hzero] at h
      omega
    have hpos : element sizeofU (dyn p.data) k = element sizeofT (dyn p.data) k := by
      rcases h with h | h
      · -- the only element is the first
        have hk0 : k = 0 := BitVec.eq_of_toNat_eq (by rw [hone] at h; show k.toNat = 0; omega)
        unfold element
        rw [hk0, zero_mul, zero_mul]
      · rw [h]
    obtain ⟨hne, hin⟩ := hdyn.inside hnull k hlt
    rw [hdyn.uniform k hlt, if_neg hnull, hdata, hpos]
    exact ⟨hne, rfl, hin⟩

/-- **When a class cast keeps what a pointer means.** -/
theorem castDynamic_keeps_iff (hU : sizeofU ≠ 0) (h : InRange sizeofT p)
    (hdyn : DynamicCast dyn sizeofT sizeofU block p) (hdata : q.data = dyn p.data)
    (hidx : q.index = p.index) (hq : q.size = p.size) :
    KeepsAddress sizeofT sizeofU p q ∧ KeepsElements dyn sizeofT sizeofU block p q ↔
      p.size = 0 ∨ dyn p.data ≠ 0 ∧ (sizeofT = sizeofU ∨ p.size = 1 ∧
        (p.index = 0 ∨ sizeofU.toNat ≤ sizeofT.toNat ∧ sizeofT.toNat < 2 * sizeofU.toNat)) := by
  obtain ⟨hle, hsize⟩ := h.index_le
  have hzero : p.size = 0 ↔ p.size.toNat = 0 := BitVec.toNat_eq
  have hone : p.size = 1 ↔ p.size.toNat = 1 := BitVec.toNat_eq
  have hidx0 : p.index = 0 ↔ p.index.toNat = 0 := BitVec.toNat_eq
  rw [keepsElements_iff hsize hdyn hdata hq]
  constructor
  · rintro ⟨haddr, hs | ⟨hnull, hs | hs⟩⟩
    · exact .inl hs
    · rcases Nat.eq_zero_or_pos p.index.toNat with h0 | h0
      · exact .inr ⟨hnull, .inr ⟨hs, .inl (hidx0.mpr h0)⟩⟩
      · have h1 : p.index.toNat = 1 := by
          rw [hone] at hs
          omega
        exact .inr ⟨hnull, .inr ⟨hs, .inr ((h.keepsAddress_second_iff hidx hU h1).mp haddr)⟩⟩
    · exact .inr ⟨hnull, .inl hs⟩
  · rintro (hs | ⟨hnull, hs | ⟨hs, h0 | hb⟩⟩)
    · have h0 : p.index = 0 := by
        rw [hidx0]
        rw [hzero] at hs
        omega
      exact ⟨h.keepsAddress_first hidx h0, .inl hs⟩
    · exact ⟨h.keepsAddress_of_eq hidx hs, .inr ⟨hnull, .inr hs⟩⟩
    · exact ⟨h.keepsAddress_first hidx h0, .inr ⟨hnull, .inl hs⟩⟩
    · refine ⟨?_, .inr ⟨hnull, .inl hs⟩⟩
      rcases Nat.eq_zero_or_pos p.index.toNat with h0 | h0
      · exact h.keepsAddress_first hidx (hidx0.mpr h0)
      · rw [hone] at hs
        exact (h.keepsAddress_second_iff hidx hU (by omega)).mpr hb

end

/-! ## All casts of the two classes -/

/-- What a class cast has to keep. -/
def KeepsPosition (dyn : Word → Word) (sizeofT sizeofU : Word) (block : Region 64)
    (p q : Position) : Prop :=
  KeepsAddress sizeofT sizeofU p q ∧ KeepsElements dyn sizeofT sizeofU block p q

/-- The class casts that keep it: of an empty array, or, where `dynamic_cast` succeeds, between
elements of one size, or of a single element that the pointer is at, or that it is behind with
less than two new elements in the old one. -/
def CastsInPlace (dyn : Word → Word) (sizeofT sizeofU : Word) (p : Position) : Prop :=
  p.size = 0 ∨ dyn p.data ≠ 0 ∧ (sizeofT = sizeofU ∨ p.size = 1 ∧
    (p.index = 0 ∨ sizeofU.toNat ≤ sizeofT.toNat ∧ sizeofT.toNat < 2 * sizeofU.toNat))

/-- **When a cast keeps what a pointer means**, for the specialised and the generic casts of both
classes. -/
theorem casts_keep_iff (sp this : Word) (T U : Prim) (p p' : Aptr) (l l' : Laptr)
    (dyn : Word → Word) (sizeofT sizeofU : Word) (block : Region 64) :
    (p.castPrim T U = some p' → InRange T.sizeof p.place →
      (KeepsAddress T.sizeof U.sizeof p.place p'.place ↔ p.index = 0 ∨ T.sizeof = U.sizeof)) ∧
    (l.castPrim sp this T U = some l' → InRange T.sizeof l.place →
      (KeepsAddress T.sizeof U.sizeof l.place l'.place ↔ l.index = 0 ∨ T.sizeof = U.sizeof)) ∧
    (sizeofU ≠ 0 → InRange sizeofT p.place → DynamicCast dyn sizeofT sizeofU block p.place →
      (KeepsPosition dyn sizeofT sizeofU block p.place (p.castDynamic (dyn p.data)).place ↔
        CastsInPlace dyn sizeofT sizeofU p.place)) ∧
    (sizeofU ≠ 0 → InRange sizeofT l.place → DynamicCast dyn sizeofT sizeofU block l.place →
      (KeepsPosition dyn sizeofT sizeofU block l.place
          (l.castDynamic sp this (dyn l.data)).place ↔
        CastsInPlace dyn sizeofT sizeofU l.place)) := by
  refine ⟨?_, ?_, ?_, ?_⟩
  · intro hp' hp
    obtain ⟨hmem, hp'⟩ := Option.ite_none_right_eq_some.mp hp'
    cases hp'
    exact keepsAddress_castPrim_iff (List.mem_append_left _ hmem) hp rfl
  · intro hl' hl
    obtain ⟨hmem, hl'⟩ := Option.ite_none_right_eq_some.mp hl'
    cases hl'
    exact keepsAddress_castPrim_iff (List.mem_append_right _ hmem) hl rfl
  · intro hU hp hdyn
    exact castDynamic_keeps_iff hU hp hdyn rfl rfl rfl
  · intro hU hl hdyn
    exact castDynamic_keeps_iff hU hl hdyn rfl rfl rfl

/-- Two objects of 16 bytes whose first 8 bytes are an object of the base class: `dynamic_cast`
to the base class gives the same address. -/
theorem dynamicCast_twoObjects :
    DynamicCast (fun a => a) 16 8 ⟨0x1000, 32⟩ ⟨0x1000, 0, 2⟩ := by
  constructor
  · intro k _
    exact (if_neg (by decide)).symm
  · intro _ k hk
    have hlt : k.toNat < 2 := hk
    have hcases : k = 0 ∨ k = 1 := by
      rcases Nat.eq_zero_or_pos k.toNat with h | h
      · exact .inl (BitVec.eq_of_toNat_eq h)
      · exact .inr (BitVec.eq_of_toNat_eq (show k.toNat = 1 by omega))
    rcases hcases with rfl | rfl
    · exact ⟨by decide, (Region.subset_iff (by decide)).mpr (.inr (by decide))⟩
    · exact ⟨by decide, (Region.subset_iff (by decide)).mpr (.inr (by decide))⟩

theorem casts_keep_iff_two :
    (KeepsAddress Prim.int.sizeof Prim.char.sizeof ⟨0x1000, 2, 4⟩ ⟨0x1000, 2, 16⟩ ↔
      (2 : Word) = 0 ∨ Prim.int.sizeof = Prim.char.sizeof) ∧
    (KeepsAddress Prim.long.sizeof Prim.unsignedChar.sizeof ⟨0x1000, 1, 4⟩ ⟨0x1000, 1, 32⟩ ↔
      (1 : Word) = 0 ∨ Prim.long.sizeof = Prim.unsignedChar.sizeof) ∧
    (KeepsPosition (fun a => a) 16 8 ⟨0x1000, 32⟩ ⟨0x1000, 0, 2⟩ ⟨0x1000, 0, 2⟩ ↔
      CastsInPlace (fun a => a) 16 8 ⟨0x1000, 0, 2⟩) ∧
    (KeepsPosition (fun a => a) 16 8 ⟨0x1000, 32⟩ ⟨0x1000, 0, 2⟩ ⟨0x1000, 0, 2⟩ ↔
      CastsInPlace (fun a => a) 16 8 ⟨0x1000, 0, 2⟩) :=
  have haptr := casts_keep_iff 0x5000 0x6000 .int .char ⟨0x1000, 2, 4⟩ ⟨0x1000, 2, 16⟩
    ⟨0x1000, 1, 4, 0x5000⟩ ⟨0x1000, 1, 32, 0x5000⟩ (fun a => a) 16 8 ⟨0x1000, 32⟩
  have hlaptr := casts_keep_iff 0x5000 0x6000 .long .unsignedChar ⟨0x1000, 2, 4⟩ ⟨0x1000, 2, 16⟩
    ⟨0x1000, 1, 4, 0x5000⟩ ⟨0x1000, 1, 32, 0x5000⟩ (fun a => a) 16 8 ⟨0x1000, 32⟩
  have hclass := casts_keep_iff 0x5000 0x6000 .int .char ⟨0x1000, 0, 2⟩ ⟨0x1000, 0, 8⟩
    ⟨0x1000, 0, 2, 0x5000⟩ ⟨0x1000, 0, 8, 0x5000⟩ (fun a => a) 16 8 ⟨0x1000, 32⟩
  ⟨haptr.1 rfl ⟨by decide, by decide, by decide⟩,
    hlaptr.2.1 rfl ⟨by decide, by decide, by decide⟩,
    hclass.2.2.1 (by decide) ⟨by decide, by decide, by decide⟩ dynamicCast_twoObjects,
    hclass.2.2.2 (by decide) ⟨by decide, by decide, by decide⟩ dynamicCast_twoObjects⟩

/-- `aptr<int> p = new_array<int>(4); p += 2;` denotes byte 8 of the array, and `cast<char>(p)`
byte 2. -/
theorem castPrim_moves :
    ¬∀ (T U : Prim) (p q : Aptr), p.castPrim T U = some q → InRange T.sizeof p.place →
      KeepsAddress T.sizeof U.sizeof p.place q.place := by
  intro h
  have hkept := h .int .char ⟨0x1000, 2, 4⟩ ⟨0x1000, 2, 16⟩ rfl ⟨by decide, by decide, by decide⟩
  exact absurd hkept (by unfold KeepsAddress; decide)

end Ironclad.Pointers
