import Ironclad.CLib.Memory
import Ironclad.Pointers.Aptr
import Mathlib.Data.List.Forall2

/-!
# `spatialCheck` and the memory wrappers that rely on it

`spatialCheck(numBytes)` divides the number of bytes by `sizeof(T)` and asks whether the index
moved by the quotient is between zero and the size. It never refuses a range that lies in the
allocation, and it accepts some that do not: the remainder of the division is not looked at,
neither is the index itself, and the sum wraps around.

`safe_memset`, `safe_memcpy`, `safe_memmove` and `safe_memcmp` assert this check and pass the
raw pointers on to the C library.
-/

namespace Ironclad.Pointers

open Ironclad.Logic Ironclad.CLib

/-! ## Raw pointers and allocations -/

/-- `convert_to_raw()` and `convert_to_void()`: `data + index`. -/
def Aptr.convert_to_raw (sizeofT : Word) (p : Aptr) : Word := element sizeofT p.data p.index

/-- `convert_to_raw()` and `convert_to_void()`: `data + index`. -/
def Laptr.convert_to_raw (sizeofT : Word) (p : Laptr) : Word := element sizeofT p.data p.index

/-- The `size * sizeof(T)` bytes at `data`; a null pointer has none. -/
def block (sizeofT data size : Word) : Region 64 :=
  if data = 0 then ⟨0, 0⟩ else ⟨data, size.toNat * sizeofT.toNat⟩

/-- The bytes of the allocation that the pointer was made for. -/
def Aptr.allocation (sizeofT : Word) (p : Aptr) : Region 64 := block sizeofT p.data p.size

/-- The bytes of the allocation that the pointer was made for. -/
def Laptr.allocation (sizeofT : Word) (p : Laptr) : Region 64 := block sizeofT p.data p.size

end Ironclad.Pointers

namespace Ironclad.Wrappers

open Ironclad.Logic Ironclad.CLib Ironclad.Pointers

/-! ## The wrappers -/

/-- `safe_memset(p, value, size)`. -/
def safe_memset (sizeofT : Word) (p : Aptr) (value : BitVec 32) (size : Word) : Prog 64 Aptr := do
  Prog.assert (p.spatialCheck sizeofT size)
  memset (p.convert_to_raw sizeofT) (value.setWidth 8) size.toNat
  pure p

/-- `safe_memcpy(dest, src, size)`. -/
def safe_memcpy (sizeofT : Word) (dest src : Aptr) (size : Word) : Prog 64 Aptr := do
  Prog.assert (src.spatialCheck sizeofT size)
  Prog.assert (dest.spatialCheck sizeofT size)
  memcpy (dest.convert_to_raw sizeofT) (src.convert_to_raw sizeofT) size.toNat
  pure dest

/-- `safe_memmove(dest, src, size)`. -/
def safe_memmove (sizeofT : Word) (dest src : Aptr) (size : Word) : Prog 64 Aptr := do
  Prog.assert (src.spatialCheck sizeofT size)
  Prog.assert (dest.spatialCheck sizeofT size)
  memmove (dest.convert_to_raw sizeofT) (src.convert_to_raw sizeofT) size.toNat
  pure dest

/-- `safe_memcmp(ptr1, ptr2, size)`. -/
def safe_memcmp (sizeofT : Word) (ptr1 ptr2 : Aptr) (size : Word) : Prog 64 Ordering := do
  Prog.assert (ptr1.spatialCheck sizeofT size)
  Prog.assert (ptr2.spatialCheck sizeofT size)
  memcmp (ptr1.convert_to_raw sizeofT) (ptr2.convert_to_raw sizeofT) size.toNat

/-! ## What the check computes -/

/-- The `numBytes` bytes that start at element `index` lie in the `size * sizeof(T)` bytes of
the allocation. -/
def Inside (sizeofT index size numBytes : Word) : Prop :=
  0 ≤ index.toInt ∧
    index.toInt * sizeofT.toNat + numBytes.toNat ≤ size.toInt * sizeofT.toNat

/-- `numBytes / sizeof(T)`. -/
def wholeElements (sizeofT numBytes : Word) : Nat := numBytes.toNat / sizeofT.toNat

/-- The index moved by the number of whole elements, as a 64-bit sum, is at most the size. -/
def InReach (sizeofT index size numBytes : Word) : Prop :=
  (index.toNat + wholeElements sizeofT numBytes) % 2 ^ 64 ≤ size.toNat

/-- None of the three ways in which a range outside the allocation passes: a negative index
that the number of elements makes up for, a sum that wraps around, and a rest of the division
behind the last element. -/
def SoundRange (sizeofT index size numBytes : Word) : Prop :=
  if index.toInt < 0 then
    index.toInt + wholeElements sizeofT numBytes < 0 ∨
      size.toInt < index.toInt + wholeElements sizeofT numBytes
  else if 2 ^ 64 ≤ index.toInt + wholeElements sizeofT numBytes then
    size.toInt < index.toInt + wholeElements sizeofT numBytes - 2 ^ 64
  else
    index.toInt + wholeElements sizeofT numBytes = size.toInt → sizeofT.toNat ∣ numBytes.toNat

instance (sizeofT index size numBytes : Word) :
    Decidable (Inside sizeofT index size numBytes) := by
  unfold Inside
  infer_instance

/-- The sizes that the allocator hands out: not negative, and the bytes fit in 63 bits. -/
structure Fits (sizeofT size : Word) : Prop where
  sizeof_pos : 1 ≤ sizeofT.toNat
  bytes_lt : size.toNat * sizeofT.toNat < 2 ^ 63

theorem Fits.size_lt {sizeofT size : Word} (h : Fits sizeofT size) : size.toNat < 2 ^ 63 :=
  Nat.lt_of_le_of_lt (Nat.le_mul_of_pos_right _ h.sizeof_pos) h.bytes_lt

theorem Fits.size_toInt {sizeofT size : Word} (h : Fits sizeofT size) :
    size.toInt = size.toNat := toInt_of_lt h.size_lt

theorem toNat_lt_of_toInt {x : Word} (h : 0 ≤ x.toInt) : x.toNat < 2 ^ 63 := by
  have hlt := BitVec.toInt_lt (x := x)
  rw [toInt_eq_toNat h] at hlt
  omega

/-- An `int` that is not negative, as a `size_t`. -/
theorem ofInt_toNat {num : BitVec 32} (h : 0 ≤ num.toInt) :
    ((ofInt num).toNat : Int) = num.toInt := by
  have hext : (ofInt num).toInt = num.toInt := BitVec.toInt_signExtend_of_le (by decide)
  rw [← hext, toInt_eq_toNat (hext.symm ▸ h)]

/-- A counter that is an `int`, as an index. -/
theorem ofInt_ofNat {k : Nat} (h : k < 2 ^ 31) :
    ofInt (BitVec.ofNat 32 k) = BitVec.ofNat 64 k := by
  have hint : (BitVec.ofNat 32 k).toInt = k := by
    rw [BitVec.toInt_eq_toNat_cond, BitVec.toNat_ofNat, Nat.mod_eq_of_lt (by omega),
      if_pos (by omega)]
  apply BitVec.eq_of_toNat_eq
  have hnat := ofInt_toNat (hint ▸ Int.natCast_nonneg k)
  rw [Region.toNat_ofNat_of_lt (by omega)]
  omega

theorem wholeElements_lt (sizeofT numBytes : Word) : wholeElements sizeofT numBytes < 2 ^ 64 :=
  Nat.lt_of_le_of_lt (Nat.div_le_self _ _) numBytes.isLt

theorem moved_toNat (sizeofT index numBytes : Word) :
    (index + numBytes / sizeofT).toNat =
      (index.toNat + wholeElements sizeofT numBytes) % 2 ^ 64 := by
  rw [BitVec.toNat_add, BitVec.toNat_udiv, wholeElements]

theorem spatialCheck_eq_true {sizeofT : Word} {p : Aptr} {numBytes : Word} :
    p.spatialCheck sizeofT numBytes = true ↔
      0 ≤ (p.index + numBytes / sizeofT).toInt ∧ InReach sizeofT p.index p.size numBytes := by
  unfold InReach
  rw [← moved_toNat, Aptr.spatialCheck, Bool.and_eq_true, decide_eq_true_eq, BitVec.le_def,
    BitVec.sle_iff_toInt_le, BitVec.toInt_zero]

/-- Behind the comparison with the size the comparison with zero is idle. -/
theorem spatialCheck_iff {sizeofT : Word} {p : Aptr} {numBytes : Word}
    (hsize : p.size.toNat < 2 ^ 63) :
    p.spatialCheck sizeofT numBytes = true ↔ InReach sizeofT p.index p.size numBytes := by
  rw [spatialCheck_eq_true]
  refine and_iff_right_of_imp fun h => ?_
  unfold InReach at h
  rw [← moved_toNat] at h
  rw [toInt_of_lt (by omega)]
  omega

theorem laptr_spatialCheck_iff {sizeofT : Word} {p : Laptr} {numBytes : Word} :
    p.spatialCheck sizeofT numBytes = true ↔ InReach sizeofT p.index p.size numBytes := by
  unfold InReach
  rw [← moved_toNat, Laptr.spatialCheck, Bool.and_eq_true, decide_eq_true_eq, decide_eq_true_eq,
    BitVec.le_def, BitVec.le_def]
  exact and_iff_right (Nat.zero_le _)

/-- A number of elements and a rest against a number of elements. -/
theorem mul_add_le_mul_iff {a s r b : Nat} (hr : r < s) :
    a * s + r ≤ b * s ↔ a < b ∨ a = b ∧ r = 0 := by
  rcases Nat.lt_trichotomy a b with h | h | h
  · have hmul : (a + 1) * s ≤ b * s := Nat.mul_le_mul_right s h
    rw [Nat.succ_mul] at hmul
    omega
  · subst h
    omega
  · have hmul : (b + 1) * s ≤ a * s := Nat.mul_le_mul_right s h
    rw [Nat.succ_mul] at hmul
    omega

theorem inside_iff {sizeofT index size numBytes : Word} (hfit : Fits sizeofT size) :
    Inside sizeofT index size numBytes ↔ 0 ≤ index.toInt ∧
      index.toNat * sizeofT.toNat + numBytes.toNat ≤ size.toNat * sizeofT.toNat := by
  unfold Inside
  rw [hfit.size_toInt]
  refine and_congr_right fun h0 => ?_
  rw [toInt_eq_toNat h0]
  norm_cast

/-- **The check against the range.** It agrees with what it stands for exactly in a sound
range. -/
theorem inReach_iff_inside_iff {sizeofT index size numBytes : Word} (hfit : Fits sizeofT size) :
    (InReach sizeofT index size numBytes ↔ Inside sizeofT index size numBytes) ↔
      SoundRange sizeofT index size numBytes := by
  rw [inside_iff hfit]
  unfold InReach SoundRange
  have hpos := hfit.sizeof_pos
  have hsize := hfit.size_lt
  have hindex := index.isLt
  have hk : wholeElements sizeofT numBytes < 2 ^ 64 := wholeElements_lt sizeofT numBytes
  have hr : numBytes.toNat % sizeofT.toNat < sizeofT.toNat := Nat.mod_lt _ hpos
  have hn : index.toNat * sizeofT.toNat + numBytes.toNat =
      (index.toNat + wholeElements sizeofT numBytes) * sizeofT.toNat +
        numBytes.toNat % sizeofT.toNat := by
    rw [wholeElements, Nat.add_mul, Nat.add_assoc, Nat.div_add_mod']
  rw [hn, mul_add_le_mul_iff hr, hfit.size_toInt, Nat.dvd_iff_mod_eq_zero,
    BitVec.toInt_eq_toNat_cond]
  generalize wholeElements sizeofT numBytes = k at hk ⊢
  generalize numBytes.toNat % sizeofT.toNat = r
  split_ifs <;> omega

/-! ## What an accepted call touches -/

theorem element_sub (sizeofT data index : Word) :
    (element sizeofT data index - data).toNat = index.toNat * sizeofT.toNat % 2 ^ 64 := by
  rw [element_sub_data, BitVec.toNat_mul]

/-- A range that is in reach lies in the allocation exactly when it is a sound one. -/
theorem accessed_subset_iff {sizeofT data index size numBytes : Word} (hfit : Fits sizeofT size)
    (hreach : InReach sizeofT index size numBytes) :
    (⟨element sizeofT data index, numBytes.toNat⟩ : Region 64) ⊆ block sizeofT data size ↔
      numBytes.toNat = 0 ∨ data ≠ 0 ∧ SoundRange sizeofT index size numBytes := by
  have hbytes := hfit.bytes_lt
  by_cases hdata : data = 0
  · rw [block, if_pos hdata, Region.subset_iff (Nat.two_pow_pos 64)]
    simp only [hdata, ne_eq, not_true_eq_false, false_and, or_false]
    omega
  rw [block, if_neg hdata, Region.subset_iff (by show size.toNat * sizeofT.toNat < 2 ^ 64; omega)]
  show numBytes.toNat = 0 ∨ (element sizeofT data index - data).toNat + numBytes.toNat ≤
    size.toNat * sizeofT.toNat ↔ _
  rw [element_sub, and_iff_right hdata, ← inReach_iff_inside_iff hfit, iff_true_left hreach,
    inside_iff hfit]
  refine or_congr_right ?_
  unfold InReach at hreach
  have hpos := hfit.sizeof_pos
  have hsize := hfit.size_lt
  have hwhole : wholeElements sizeofT numBytes * sizeofT.toNat ≤ numBytes.toNat :=
    Nat.div_mul_le_self _ _
  have hindex := index.isLt
  constructor
  · intro hle
    by_cases hneg : index.toInt < 0
    · -- the elements in front of the allocation count for at least 2 ^ 64 bytes
      exfalso
      rw [BitVec.toInt_eq_toNat_cond] at hneg
      have hk := wholeElements_lt sizeofT numBytes
      have hback : (2 ^ 64 - index.toNat) * sizeofT.toNat ≤
          wholeElements sizeofT numBytes * sizeofT.toNat := by
        apply Nat.mul_le_mul_right
        split_ifs at hneg <;> omega
      have hpos' : 0 < (2 ^ 64 - index.toNat) * sizeofT.toNat := Nat.mul_pos (by omega) hpos
      have hsum : index.toNat * sizeofT.toNat + (2 ^ 64 - index.toNat) * sizeofT.toNat =
          2 ^ 64 * sizeofT.toNat := by
        rw [← Nat.add_mul]
        congr 1
        omega
      omega
    · refine ⟨by omega, ?_⟩
      have hlt : wholeElements sizeofT numBytes < 2 ^ 63 := by
        have := Nat.le_mul_of_pos_right (wholeElements sizeofT numBytes) hpos
        omega
      rw [BitVec.toInt_eq_toNat_cond] at hneg
      have hin : index.toNat ≤ size.toNat := by
        split_ifs at hneg <;> omega
      have hmul := Nat.mul_le_mul_right sizeofT.toNat hin
      omega
  · rintro ⟨-, hle⟩
    omega

/-- A call of one of the four wrappers. -/
inductive MemCall where
  | memset (p : Aptr) (value : BitVec 32)
  | memcpy (dest src : Aptr)
  | memmove (dest src : Aptr)
  | memcmp (ptr1 ptr2 : Aptr)

namespace MemCall

def run (sizeofT size : Word) (m : Memory 64) : MemCall → Outcome 64 Unit
  | .memset p value => (safe_memset sizeofT p value size m).discard
  | .memcpy dest src => (safe_memcpy sizeofT dest src size m).discard
  | .memmove dest src => (safe_memmove sizeofT dest src size m).discard
  | .memcmp ptr1 ptr2 => (safe_memcmp sizeofT ptr1 ptr2 size m).discard

/-- The arguments that are read through. -/
def readFrom : MemCall → List Aptr
  | .memset _ _ => []
  | .memcpy _ src => [src]
  | .memmove _ src => [src]
  | .memcmp ptr1 ptr2 => [ptr1, ptr2]

/-- The arguments that are written through. -/
def writtenTo : MemCall → List Aptr
  | .memset p _ => [p]
  | .memcpy dest _ => [dest]
  | .memmove dest _ => [dest]
  | .memcmp _ _ => []

def pointers (c : MemCall) : List Aptr := c.readFrom ++ c.writtenTo

/-- If the call is accepted, what it reads and writes through an argument lies in the
allocation of that argument. -/
def Confined (sizeofT size : Word) (m : Memory 64) (c : MemCall) : Prop :=
  (c.run sizeofT size m).ending ≠ .fails →
    List.Forall₂ (· ⊆ ·) (c.run sizeofT size m).reads
        (c.readFrom.map (Aptr.allocation sizeofT)) ∧
      List.Forall₂ (· ⊆ ·) (c.run sizeofT size m).writes
        (c.writtenTo.map (Aptr.allocation sizeofT))

/-- The call is refused, is about no bytes, or has non-null arguments and sound ranges. -/
def Sound (sizeofT size : Word) (c : MemCall) : Prop :=
  (∀ p ∈ c.pointers, InReach sizeofT p.index p.size size) →
    ∀ p ∈ c.pointers,
      size.toNat = 0 ∨ p.data ≠ 0 ∧ SoundRange sizeofT p.index p.size size

/-- A call whose checks pass makes its accesses, whether they overlap or not. -/
theorem run_of_checked {sizeofT size : Word} {c : MemCall} (m : Memory 64)
    (h : ∀ p ∈ c.pointers, p.spatialCheck sizeofT size = true) :
    (c.run sizeofT size m).ending ≠ .fails ∧
      (c.run sizeofT size m).reads =
        c.readFrom.map (fun p => ⟨p.convert_to_raw sizeofT, size.toNat⟩) ∧
      (c.run sizeofT size m).writes =
        c.writtenTo.map (fun p => ⟨p.convert_to_raw sizeofT, size.toNat⟩) := by
  cases c with
  | memset p value =>
      have hp : p.spatialCheck sizeofT size = true := h p (by simp [pointers, writtenTo])
      simp [run, Outcome.discard_fails, safe_memset, Prog.assert_true_bind hp, readFrom,
        writtenTo]
  | memcpy dest src =>
      have hs : src.spatialCheck sizeofT size = true := h src (by simp [pointers, readFrom])
      have hd : dest.spatialCheck sizeofT size = true := h dest (by simp [pointers, writtenTo])
      by_cases hapart : (⟨dest.convert_to_raw sizeofT, size.toNat⟩ : Region 64).Apart
          ⟨src.convert_to_raw sizeofT, size.toNat⟩
      · simp [run, Outcome.discard_fails, safe_memcpy, Prog.assert_true_bind hs,
          Prog.assert_true_bind hd, CLib.memcpy_bind hapart, readFrom, writtenTo]
      · simp [run, Outcome.discard_fails, safe_memcpy, Prog.assert_true_bind hs,
          Prog.assert_true_bind hd, CLib.memcpy_bind_of_overlap hapart, readFrom, writtenTo]
  | memmove dest src =>
      have hs : src.spatialCheck sizeofT size = true := h src (by simp [pointers, readFrom])
      have hd : dest.spatialCheck sizeofT size = true := h dest (by simp [pointers, writtenTo])
      simp [run, Outcome.discard_fails, safe_memmove, Prog.assert_true_bind hs,
        Prog.assert_true_bind hd, readFrom, writtenTo]
  | memcmp ptr1 ptr2 =>
      have h1 : ptr1.spatialCheck sizeofT size = true := h ptr1 (by simp [pointers, readFrom])
      have h2 : ptr2.spatialCheck sizeofT size = true := h ptr2 (by simp [pointers, readFrom])
      simp [run, Outcome.discard_fails, safe_memcmp, Prog.assert_true_bind h1,
        Prog.assert_true_bind h2, CLib.memcmp, readFrom, writtenTo]

/-- A call whose checks do not all pass stops at an assertion. -/
theorem run_fails {sizeofT size : Word} {c : MemCall} {m : Memory 64}
    (h : (c.run sizeofT size m).ending ≠ .fails) :
    ∀ p ∈ c.pointers, p.spatialCheck sizeofT size = true := by
  cases c with
  | memset p value =>
      simp only [pointers, readFrom, writtenTo, List.nil_append, List.forall_mem_singleton]
      rw [run, ne_eq, Outcome.discard_fails, safe_memset] at h
      exact (Prog.assert_bind_ne_fails h).1
  | memcpy dest src =>
      rw [pointers, readFrom, writtenTo, List.singleton_append, List.forall_mem_cons,
        List.forall_mem_singleton]
      rw [run, ne_eq, Outcome.discard_fails, safe_memcpy] at h
      exact Prog.two_asserts h
  | memmove dest src =>
      rw [pointers, readFrom, writtenTo, List.singleton_append, List.forall_mem_cons,
        List.forall_mem_singleton]
      rw [run, ne_eq, Outcome.discard_fails, safe_memmove] at h
      exact Prog.two_asserts h
  | memcmp ptr1 ptr2 =>
      rw [pointers, readFrom, writtenTo, List.append_nil, List.forall_mem_cons,
        List.forall_mem_singleton]
      rw [run, ne_eq, Outcome.discard_fails, safe_memcmp] at h
      exact Prog.two_asserts h

theorem spatialCheck_pointers_iff {sizeofT size : Word} {c : MemCall}
    (hfit : ∀ p ∈ c.pointers, Fits sizeofT p.size) :
    (∀ p ∈ c.pointers, p.spatialCheck sizeofT size = true) ↔
      ∀ p ∈ c.pointers, InReach sizeofT p.index p.size size :=
  forall₂_congr fun p hp => spatialCheck_iff (hfit p hp).size_lt

/-- **Accepted calls.** What a call touches stays in its arguments' allocations exactly when
it is sound. -/
theorem confined_iff {sizeofT size : Word} {c : MemCall}
    (hfit : ∀ p ∈ c.pointers, Fits sizeofT p.size) (m : Memory 64) :
    c.Confined sizeofT size m ↔ c.Sound sizeofT size := by
  unfold Confined Sound
  rw [← spatialCheck_pointers_iff hfit]
  constructor
  · intro h hcheck
    obtain ⟨hend, hreads, hwrites⟩ := run_of_checked m hcheck
    obtain ⟨hr, hw⟩ := h hend
    rw [hreads, List.forall₂_map_left_iff, List.forall₂_map_right_iff,
      List.forall₂_same] at hr
    rw [hwrites, List.forall₂_map_left_iff, List.forall₂_map_right_iff,
      List.forall₂_same] at hw
    have hreach := (spatialCheck_pointers_iff hfit).mp hcheck
    intro p hp
    rw [← accessed_subset_iff (hfit p hp) (hreach p hp)]
    rcases List.mem_append.mp hp with h' | h'
    · exact hr p h'
    · exact hw p h'
  · intro h hend
    have hcheck := run_fails hend
    obtain ⟨-, hreads, hwrites⟩ := run_of_checked m hcheck
    have hreach := (spatialCheck_pointers_iff hfit).mp hcheck
    have hin : ∀ p ∈ c.pointers, (⟨p.convert_to_raw sizeofT, size.toNat⟩ : Region 64) ⊆
        p.allocation sizeofT :=
      fun p hp => (accessed_subset_iff (hfit p hp) (hreach p hp)).mpr (h hcheck p hp)
    rw [hreads, hwrites, List.forall₂_map_left_iff, List.forall₂_map_right_iff,
      List.forall₂_same, List.forall₂_map_left_iff, List.forall₂_map_right_iff,
      List.forall₂_same]
    exact ⟨fun p hp => hin p (List.mem_append_left _ hp),
      fun p hp => hin p (List.mem_append_right _ hp)⟩

end MemCall

/-- **The byte-range check.** For `aptr` and for `laptr`, `spatialCheck` is exact in the sound
ranges and only there, and a call that relies on it stays in its arguments' allocations exactly
when it is sound. -/
theorem spatialCheck_exact_iff {sizeofT : Word} {p : Aptr} {q : Laptr} {c : MemCall}
    (hp : Fits sizeofT p.size) (hq : Fits sizeofT q.size)
    (hc : ∀ r ∈ c.pointers, Fits sizeofT r.size) (numBytes : Word) (m : Memory 64) :
    ((p.spatialCheck sizeofT numBytes = true ↔ Inside sizeofT p.index p.size numBytes) ↔
        SoundRange sizeofT p.index p.size numBytes) ∧
      ((q.spatialCheck sizeofT numBytes = true ↔ Inside sizeofT q.index q.size numBytes) ↔
        SoundRange sizeofT q.index q.size numBytes) ∧
      (c.Confined sizeofT numBytes m ↔ c.Sound sizeofT numBytes) := by
  refine ⟨?_, ?_, MemCall.confined_iff hc m⟩
  · rw [spatialCheck_iff hp.size_lt]
    exact inReach_iff_inside_iff hp
  · rw [laptr_spatialCheck_iff]
    exact inReach_iff_inside_iff hq

/-- At an `aptr<int>` with two elements and index 0, and an `laptr<int>` with index -1. -/
theorem spatialCheck_exact_iff_two :
    (((Aptr.mk 0x1000 0 2).spatialCheck 4 8 = true ↔ Inside 4 0 2 8) ↔ SoundRange 4 0 2 8) ∧
      (((Laptr.mk 0x1000 (-1) 2 0).spatialCheck 4 8 = true ↔ Inside 4 (-1) 2 8) ↔
        SoundRange 4 (-1) 2 8) ∧
      ((MemCall.memset ⟨0x1000, 0, 2⟩ 0).Confined 4 8 (fun _ => 0) ↔
        (MemCall.memset ⟨0x1000, 0, 2⟩ 0).Sound 4 8) := by
  have hfit : Fits 4 2 := ⟨by decide, by decide⟩
  apply spatialCheck_exact_iff (p := ⟨0x1000, 0, 2⟩) (q := ⟨0x1000, -1, 2, 0⟩) hfit hfit
  intro r hr
  rw [List.mem_singleton.mp hr]
  exact hfit

/-- Eleven bytes from the start of two `int`s are accepted: the quotient is two, and the rest
of three bytes lies behind the allocation, where `safe_memset` writes. -/
theorem spatialCheck_not_exact :
    Fits 4 2 ∧ (Aptr.mk 0x1000 0 2).spatialCheck 4 11 = true ∧ ¬Inside 4 0 2 11 ∧
      ¬(MemCall.memset ⟨0x1000, 0, 2⟩ 0).Confined 4 11 fun _ => 0 := by
  refine ⟨⟨by decide, by decide⟩, by decide, by decide, fun h => ?_⟩
  have hw := (h (by decide)).2
  have hin : (⟨0x1000, 11⟩ : Region 64) ⊆ (Aptr.mk 0x1000 0 2).allocation 4 := by
    cases hw with
    | cons hr _ => exact hr
  have hmem : (0x1008 : Word) ∈ (Aptr.mk 0x1000 0 2).allocation 4 := hin _ (by decide)
  revert hmem
  decide

end Ironclad.Wrappers
