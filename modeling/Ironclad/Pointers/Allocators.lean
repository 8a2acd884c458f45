import Ironclad.Pointers.Aptr

/-!
# The allocators and the bounds they hand out

An allocator computes two things from its arguments: how many bytes to ask for and how many
elements the result may index. The first is a product of `size_t`s, which wraps; the second
is the argument itself, or the byte length in `safe_mmap`. `Call.contained_iff` says exactly
when the elements that the result gives access to lie in the bytes that were asked for.
-/

namespace Ironclad.Pointers

open Ironclad.Logic

/-- What the underlying allocator returned for a request: a block of exactly these bytes. -/
structure Block (bytes : Word) where
  base : Word
  base_ne_zero : base ≠ 0
  fits : base.toNat + bytes.toNat ≤ 2 ^ 64

/-- `IC_MALLOC`, `PIC_MALLOC`, `operator new[]` or `mmap`. -/
abbrev Malloc : Type := (bytes : Word) → Block bytes

structure Matrix where
  data : Word
  x_size : Word
  y_size : Word
  deriving DecidableEq, Repr

/-- `matrix::operator()`: the address accessed, `none` when the assertion fails. -/
def Matrix.call (sizeofT : Word) (m : Matrix) (x y : Word) : Option Word :=
  if x < m.x_size ∧ y < m.y_size then some (element sizeofT m.data (y * m.x_size + x)) else none

inductive Object where
  | array (p : Aptr)
  | matrix (m : Matrix)
  deriving DecidableEq, Repr

/-- The address is one that the checks of the object accept, at some index. -/
def Object.Accepts (sizeofT a : Word) : Object → Prop
  | .array p => ∃ index, { p with index := index }.deref sizeofT = some a ∨
      ∃ _index, { p with index := index }.subscript sizeofT _index = some a
  | .matrix m => ∃ x y, m.call sizeofT x y = some a

/-- An object and the block that it was placed in. -/
structure Allocation where
  bytes : Word
  block : Block bytes
  object : Object

/-- The `sizeof(T)` bytes at the address lie in the block. -/
def Block.Holds {bytes : Word} (b : Block bytes) (sizeofT a : Word) : Prop :=
  b.base.toNat ≤ a.toNat ∧ a.toNat + sizeofT.toNat ≤ b.base.toNat + bytes.toNat

/-- The whole accessible region of the object lies in the bytes requested. -/
def Allocation.Contained (sizeofT : Word) (al : Allocation) : Prop :=
  ∀ a, al.object.Accepts sizeofT a → al.block.Holds sizeofT a

/-! ## The allocators -/

/-- `new (buffer) T[size]`: it throws when the array would exceed the limit that the
implementation has on the size of an object. -/
def placeArray (limit : Nat) (sizeofT buffer size : Word) : Option Word :=
  if size.toNat * sizeofT.toNat ≤ limit then some buffer else none

/-- `while((size_t)buffer % align != 0) buffer++;` -/
def alignBuffer (align buffer : Word) : Word :=
  if buffer % align = 0 then buffer else alignBuffer align (buffer + 1)
termination_by (-buffer).toNat
decreasing_by
  rename_i h
  have hne : buffer ≠ 0 := by
    rintro rfl
    exact h BitVec.zero_umod
  have hpos : buffer.toNat ≠ 0 := fun h0 => hne (BitVec.eq_of_toNat_eq h0)
  have hlt := buffer.isLt
  have hone : (1 : Word).toNat = 1 := rfl
  simp only [BitVec.toNat_neg, BitVec.toNat_add]
  omega

section

variable (malloc : Malloc) (limit : Nat) (sizeofT : Word)

/-- `allocator<0,T>::new_array`. -/
def new_array (size : Word) : Option Allocation :=
  let buffer := malloc (size * sizeofT)
  (placeArray limit sizeofT buffer.base size).map fun data =>
    ⟨_, buffer, .array (.new_array data size)⟩

/-- `allocator<1,T>::new_array`: the elements follow a `tagged_array_allocation<T>`. -/
def new_precise_array (header size : Word) : Option Allocation :=
  let buffer := malloc (size * sizeofT + header)
  let objbuffer := buffer.base + header
  (placeArray limit sizeofT objbuffer size).map fun data =>
    ⟨_, buffer, .array (.new_array data size)⟩

def new_matrix (x_size y_size : Word) : Option Allocation :=
  if 0 < x_size ∧ 0 < y_size then
    let buffer := malloc (sizeofT * x_size * y_size)
    (placeArray limit sizeofT buffer.base (x_size * y_size)).map fun data =>
      ⟨_, buffer, .matrix ⟨data, x_size, y_size⟩⟩
  else none

/-- `new_aligned_array`: the remainder by zero traps. -/
def new_aligned_array (size align : Word) : Option Allocation :=
  let buffer := malloc (size * sizeofT + align)
  if align = 0 then none
  else (placeArray limit sizeofT (alignBuffer align buffer.base) size).map fun data =>
    ⟨_, buffer, .array (.ofData data size)⟩

/-- `safe_calloc`: `new char[num * sizeof(T)]`, and the array placed in it. -/
def safe_calloc (num _osize : Word) : Option Allocation :=
  let buffer := malloc (num * sizeofT)
  (placeArray limit 1 buffer.base (num * sizeofT)).bind fun chars =>
    (placeArray limit sizeofT chars num).map fun data => ⟨_, buffer, .array (.ofData data num)⟩

/-- `safe_mmap`: no element is constructed, and the bound is the length in bytes. -/
def safe_mmap (len : Word) : Option Allocation :=
  let buf := malloc len
  if len = 0 then some ⟨_, buf, .array .null⟩ else some ⟨_, buf, .array (.ofData buf.base len)⟩

end

/-- The calls. -/
inductive Call where
  | new_array (size : Word)
  | new_precise_array (header size : Word)
  | new_matrix (x_size y_size : Word)
  | new_aligned_array (size align : Word)
  | safe_calloc (num osize : Word)
  | safe_mmap (len : Word)
  deriving DecidableEq, Repr

def Call.run (malloc : Malloc) (limit : Nat) (sizeofT : Word) : Call → Option Allocation
  | .new_array size => Pointers.new_array malloc limit sizeofT size
  | .new_precise_array header size => Pointers.new_precise_array malloc limit sizeofT header size
  | .new_matrix x_size y_size => Pointers.new_matrix malloc limit sizeofT x_size y_size
  | .new_aligned_array size align => Pointers.new_aligned_array malloc limit sizeofT size align
  | .safe_calloc num osize => Pointers.safe_calloc malloc limit sizeofT num osize
  | .safe_mmap len => Pointers.safe_mmap malloc len

/-- The call fails before it returns anything, its bound is empty as a `long`, or the bytes
that it means to ask for are a `size_t`. A mapping has no more elements than bytes only if
an element is one byte. -/
def Call.Exact (limit : Nat) (sizeofT : Word) : Call → Prop
  | .new_array size =>
      limit < size.toNat * sizeofT.toNat ∨ size.toInt ≤ 0 ∨ size.toNat * sizeofT.toNat < 2 ^ 64
  | .new_precise_array header size =>
      limit < size.toNat * sizeofT.toNat ∨ size.toInt ≤ 0 ∨
        size.toNat * sizeofT.toNat + header.toNat < 2 ^ 64
  | .new_matrix x_size y_size =>
      x_size = 0 ∨ y_size = 0 ∨ limit < (x_size * y_size).toNat * sizeofT.toNat ∨
        x_size.toNat * y_size.toNat * sizeofT.toNat < 2 ^ 64
  | .new_aligned_array size align =>
      align = 0 ∨ limit < size.toNat * sizeofT.toNat ∨ size.toInt ≤ 0 ∨
        size.toNat * sizeofT.toNat + align.toNat < 2 ^ 64
  | .safe_calloc num _ =>
      limit < num.toNat * sizeofT.toNat ∨ num.toInt ≤ 0 ∨ num.toNat * sizeofT.toNat < 2 ^ 64
  | .safe_mmap len => len.toInt ≤ 0 ∨ sizeofT.toNat ≤ 1

/-! ## Elements that lie in a block -/

section

variable {bytes : Word} {b : Block bytes} {sizeofT data : Word} {n : Nat}

/-- The elements below `n`. -/
def HoldsElements (b : Block bytes) (sizeofT data : Word) (n : Nat) : Prop :=
  ∀ k < n, b.Holds sizeofT (element sizeofT data (BitVec.ofNat 64 k))

theorem element_toNat (k : Nat) :
    (element sizeofT data (BitVec.ofNat 64 k)).toNat =
      (data.toNat + k * sizeofT.toNat) % 2 ^ 64 := by
  unfold element
  simp only [BitVec.toNat_add, BitVec.toNat_mul, BitVec.toNat_ofNat]
  rw [Nat.mod_mul_mod, Nat.add_mod_mod]

/-- Elements that all lie in the block do not wrap around the address space. -/
theorem HoldsElements.no_wrap (h : HoldsElements b sizeofT data n) :
    ∀ k < n, data.toNat + (k + 1) * sizeofT.toNat ≤ b.base.toNat + bytes.toNat := by
  intro k hk
  have hfits := b.fits
  have hbase := toNat_pos b.base_ne_zero
  obtain ⟨hlo, hhi⟩ := h k hk
  rw [element_toNat] at hlo hhi
  rw [Nat.add_mul]
  induction k with
  | zero =>
      -- the first element begins at `data`, which is a word
      rw [Nat.zero_mul, Nat.add_zero, Nat.mod_eq_of_lt data.isLt] at hhi
      omega
  | succ k ih =>
      obtain ⟨hlo', hhi'⟩ := h k (by omega)
      rw [element_toNat] at hlo' hhi'
      have hprev := ih (by omega) hlo' hhi'
      -- the address after the previous element is at most 2 ^ 64, and 0 is not in the block
      have hne : data.toNat + (k + 1) * sizeofT.toNat ≠ 2 ^ 64 := by
        intro heq
        rw [heq, Nat.mod_self] at hlo
        omega
      rw [Nat.mod_eq_of_lt (by rw [Nat.add_mul] at hne ⊢; omega)] at hhi
      omega

/-- **A block that holds `n` elements has the bytes of `n` elements.** -/
theorem HoldsElements.size_le (h : HoldsElements b sizeofT data n) :
    n * sizeofT.toNat ≤ bytes.toNat := by
  cases n with
  | zero => omega
  | succ n =>
      have hfirst := (h 0 (by omega)).1
      rw [element_toNat, Nat.zero_mul, Nat.add_zero, Nat.mod_eq_of_lt data.isLt] at hfirst
      have hlast := h.no_wrap n (by omega)
      omega

theorem holdsElements_of_le (hlo : b.base.toNat ≤ data.toNat)
    (hhi : data.toNat + n * sizeofT.toNat ≤ b.base.toNat + bytes.toNat) :
    HoldsElements b sizeofT data n := by
  intro k hk
  have hfits := b.fits
  have hle : (k + 1) * sizeofT.toNat ≤ n * sizeofT.toNat := Nat.mul_le_mul_right _ hk
  rw [Nat.add_mul] at hle
  have hdata := data.isLt
  have hlt : data.toNat + k * sizeofT.toNat < 2 ^ 64 := by
    cases hs : sizeofT.toNat with
    | zero => omega
    | succ s =>
        rw [hs] at hle hhi
        omega
  unfold Block.Holds
  rw [element_toNat, Nat.mod_eq_of_lt hlt]
  omega

/-- An array placed at the first byte of its block is held if the block has the bytes. -/
theorem holdsElements_base : HoldsElements b sizeofT b.base n ↔ n * sizeofT.toNat ≤ bytes.toNat :=
  ⟨HoldsElements.size_le, fun h => holdsElements_of_le le_rfl (by omega)⟩

end

/-! ## What the checks accept -/

/-- The number of elements that an `aptr` of this size gives access to. -/
def elementCount (size : Word) : Nat := size.toInt.toNat

theorem accepts_array_iff {sizeofT a data size : Word} :
    (Object.array (.ofData data size)).Accepts sizeofT a ↔
      ∃ k < elementCount size, a = element sizeofT data (BitVec.ofNat 64 k) := by
  constructor
  · -- a dereference and a subscript test the same index and go to the same element
    have key : ∀ i : Word, BOUNDS_CHECK i size = true → a = element sizeofT data i →
        ∃ k < elementCount size, a = element sizeofT data (BitVec.ofNat 64 k) := by
      intro i hi ha
      obtain ⟨h0, hlt⟩ := boundsCheck_iff.mp hi
      refine ⟨i.toNat, ?_, ?_⟩
      · rw [toInt_eq_toNat h0] at hlt
        unfold elementCount
        omega
      · rw [BitVec.ofNat_toNat, BitVec.setWidth_eq]
        exact ha
    rintro ⟨i, h | ⟨j, h⟩⟩
    · obtain ⟨hi, ha⟩ := access_eq_some.mp h
      exact key i hi ha
    · obtain ⟨hi, ha⟩ := access_eq_some.mp h
      exact key _ hi ha
  · rintro ⟨k, hk, rfl⟩
    have hsize := size.toInt_lt
    unfold elementCount at hk
    have hk64 : (BitVec.ofNat 64 k).toNat = k := by
      rw [BitVec.toNat_ofNat]
      omega
    have hint : (BitVec.ofNat 64 k).toInt = k := by
      rw [toInt_of_lt (by omega), hk64]
    refine ⟨BitVec.ofNat 64 k, .inl (access_eq_some.mpr ⟨?_, rfl⟩)⟩
    show BOUNDS_CHECK _ size = true
    rw [boundsCheck_iff, hint]
    omega

theorem accepts_matrix_iff {sizeofT a data x_size y_size : Word} :
    (Object.matrix ⟨data, x_size, y_size⟩).Accepts sizeofT a ↔
      ∃ k < x_size.toNat * y_size.toNat, a = element sizeofT data (BitVec.ofNat 64 k) := by
  constructor
  · rintro ⟨x, y, h⟩
    obtain ⟨⟨hx, hy⟩, ha⟩ := Option.ite_none_right_eq_some.mp h
    replace hx : x.toNat < x_size.toNat := hx
    replace hy : y.toNat < y_size.toNat := hy
    refine ⟨y.toNat * x_size.toNat + x.toNat, ?_, ?_⟩
    · calc y.toNat * x_size.toNat + x.toNat < (y.toNat + 1) * x_size.toNat := by
            rw [Nat.add_mul]
            omega
        _ ≤ y_size.toNat * x_size.toNat := Nat.mul_le_mul_right _ hy
        _ = x_size.toNat * y_size.toNat := Nat.mul_comm ..
    · rw [← Option.some.inj ha]
      congr 1
      apply BitVec.eq_of_toNat_eq
      simp only [BitVec.toNat_add, BitVec.toNat_mul, BitVec.toNat_ofNat, Nat.mod_add_mod]
  · rintro ⟨k, hk, rfl⟩
    have hx : 0 < x_size.toNat := by
      apply Nat.pos_of_ne_zero
      intro h0
      rw [h0, Nat.zero_mul] at hk
      omega
    -- element `k` is in row `k / x_size` and column `k % x_size`
    have hrow : k / x_size.toNat < y_size.toNat := Nat.div_lt_of_lt_mul hk
    have hcol : k % x_size.toNat < x_size.toNat := Nat.mod_lt _ hx
    have hxlt := x_size.isLt
    have hylt := y_size.isLt
    refine ⟨BitVec.ofNat 64 (k % x_size.toNat), BitVec.ofNat 64 (k / x_size.toNat), ?_⟩
    refine Option.ite_none_right_eq_some.mpr ⟨⟨?_, ?_⟩, ?_⟩
    · rw [BitVec.lt_def, BitVec.toNat_ofNat, Nat.mod_eq_of_lt (by omega)]
      exact hcol
    · rw [BitVec.lt_def, BitVec.toNat_ofNat, Nat.mod_eq_of_lt (by omega)]
      exact hrow
    · congr 2
      apply BitVec.eq_of_toNat_eq
      simp only [BitVec.toNat_add, BitVec.toNat_mul, BitVec.toNat_ofNat, Nat.mod_mul_mod,
        Nat.mod_add_mod, Nat.add_mod_mod]
      rw [Nat.mul_comm, Nat.div_add_mod]

/-- The elements that the checks accept lie in the block iff they all do. -/
theorem contained_array_iff {bytes sizeofT data size : Word} {b : Block bytes} :
    Allocation.Contained sizeofT ⟨bytes, b, .array (.ofData data size)⟩ ↔
      HoldsElements b sizeofT data (elementCount size) := by
  constructor
  · intro h k hk
    exact h _ (accepts_array_iff.mpr ⟨k, hk, rfl⟩)
  · intro h a ha
    obtain ⟨k, hk, rfl⟩ := accepts_array_iff.mp ha
    exact h k hk

theorem contained_matrix_iff {bytes sizeofT data x_size y_size : Word} {b : Block bytes} :
    Allocation.Contained sizeofT ⟨bytes, b, .matrix ⟨data, x_size, y_size⟩⟩ ↔
      HoldsElements b sizeofT data (x_size.toNat * y_size.toNat) := by
  constructor
  · intro h k hk
    exact h _ (accepts_matrix_iff.mpr ⟨k, hk, rfl⟩)
  · intro h a ha
    obtain ⟨k, hk, rfl⟩ := accepts_matrix_iff.mp ha
    exact h k hk

/-! ## Each allocator -/

/-- The call fails, or what it returns gives access to requested bytes only. -/
def FailsOrContained (sizeofT : Word) (result : Option Allocation) : Prop :=
  ∀ al, result = some al → al.Contained sizeofT

theorem failsOrContained_none (sizeofT : Word) : FailsOrContained sizeofT none :=
  fun _ h => nomatch h

theorem failsOrContained_some {sizeofT : Word} {al : Allocation} :
    FailsOrContained sizeofT (some al) ↔ al.Contained sizeofT :=
  ⟨fun h => h al rfl, fun h _ hal => Option.some.inj hal ▸ h⟩

/-- An array that is placed in a block: the construction throws or the elements are held. -/
theorem failsOrContained_place_iff {bytes sizeofT data size : Word} {b : Block bytes}
    {limit : Nat} {object : Word → Object} :
    FailsOrContained sizeofT
        ((placeArray limit sizeofT data size).map fun data => ⟨bytes, b, object data⟩) ↔
      limit < size.toNat * sizeofT.toNat ∨
        Allocation.Contained sizeofT ⟨bytes, b, object data⟩ := by
  unfold placeArray
  by_cases hle : size.toNat * sizeofT.toNat ≤ limit
  · rw [if_pos hle, Option.map_some, failsOrContained_some]
    exact ⟨.inr, fun h => h.resolve_left (by omega)⟩
  · rw [if_neg hle]
    exact ⟨fun _ => .inl (by omega), fun _ => failsOrContained_none sizeofT⟩

theorem elementCount_of_pos {size : Word} (h : 0 < size.toInt) :
    elementCount size = size.toNat := by
  unfold elementCount
  rw [toInt_eq_toNat (by omega)]
  rfl

/-- **An array with `extra` bytes in front of it**, or less, in a block that was asked for
with these bytes: the elements are held iff the request did not wrap. -/
theorem holdsElements_request_iff {bytes sizeofT data size : Word} {b : Block bytes} {extra : Nat}
    (hextra : extra < 2 ^ 64)
    (hbytes : bytes.toNat = (size.toNat * sizeofT.toNat + extra) % 2 ^ 64)
    (hdata : 0 < size.toNat → size.toNat * sizeofT.toNat + extra < 2 ^ 64 →
      b.base.toNat ≤ data.toNat ∧ data.toNat ≤ b.base.toNat + extra) :
    HoldsElements b sizeofT data (elementCount size) ↔
      size.toInt ≤ 0 ∨ size.toNat * sizeofT.toNat + extra < 2 ^ 64 := by
  rcases lt_or_ge 0 size.toInt with hpos | hneg
  · rw [elementCount_of_pos hpos]
    constructor
    · intro h
      -- what wrapped is less than the elements need
      have hle := h.size_le
      omega
    · intro h
      have hlt := h.resolve_left (by omega)
      rw [Nat.mod_eq_of_lt hlt] at hbytes
      have hnat := toInt_eq_toNat hpos.le
      obtain ⟨hlo, hhi⟩ := hdata (by omega) hlt
      exact holdsElements_of_le hlo (by omega)
  · refine ⟨fun _ => .inl hneg, fun _ k hk => ?_⟩
    unfold elementCount at hk
    omega

/-- The alignment loop stops at or before every aligned address from the buffer on. -/
theorem alignBuffer_le {align : Word} {m : Nat} (hm : align.toNat ∣ m) (hm64 : m < 2 ^ 64)
    (buffer : Word) (hle : buffer.toNat ≤ m) :
    buffer.toNat ≤ (alignBuffer align buffer).toNat ∧ (alignBuffer align buffer).toNat ≤ m := by
  induction buffer using alignBuffer.induct align with
  | case1 buffer h =>
      rw [alignBuffer, if_pos h]
      exact ⟨le_rfl, hle⟩
  | case2 buffer h ih =>
      rw [alignBuffer, if_neg h]
      have hone : (1 : Word).toNat = 1 := rfl
      -- the loop would have stopped at `m`
      have hne : buffer.toNat ≠ m := by
        rintro rfl
        apply h
        apply BitVec.eq_of_toNat_eq
        rw [BitVec.toNat_umod]
        exact Nat.mod_eq_zero_of_dvd hm
      have hnext : (buffer + 1).toNat = buffer.toNat + 1 := by
        rw [BitVec.toNat_add, hone]
        omega
      have := ih (by omega)
      omega

/-- With room for `align` bytes the loop moves the buffer by less than that. -/
theorem alignBuffer_bounds {align : Word} (buffer : Word) (halign : align ≠ 0)
    (hfits : buffer.toNat + align.toNat ≤ 2 ^ 64) :
    buffer.toNat ≤ (alignBuffer align buffer).toNat ∧
      (alignBuffer align buffer).toNat < buffer.toNat + align.toNat := by
  have hpos := toNat_pos halign
  -- the next multiple of `align` from the buffer on
  have hdiv := Nat.div_add_mod (buffer.toNat + (align.toNat - 1)) align.toNat
  have hmod := Nat.mod_lt (buffer.toNat + (align.toNat - 1)) hpos
  have h := alignBuffer_le (Nat.dvd_mul_right align.toNat
    ((buffer.toNat + (align.toNat - 1)) / align.toNat)) (by omega) buffer (by omega)
  omega

section

variable (malloc : Malloc) (limit : Nat) (sizeofT : Word)

theorem new_array_iff (size : Word) :
    FailsOrContained sizeofT (new_array malloc limit sizeofT size) ↔
      (Call.new_array size).Exact limit sizeofT := by
  refine failsOrContained_place_iff.trans (or_congr_right (contained_array_iff.trans ?_))
  apply holdsElements_request_iff (Nat.two_pow_pos 64)
  · exact BitVec.toNat_mul size sizeofT
  · omega

theorem new_precise_array_iff (hT : sizeofT ≠ 0) (header size : Word) :
    FailsOrContained sizeofT (new_precise_array malloc limit sizeofT header size) ↔
      (Call.new_precise_array header size).Exact limit sizeofT := by
  refine failsOrContained_place_iff.trans (or_congr_right (contained_array_iff.trans ?_))
  have hbytes : (size * sizeofT + header).toNat =
      (size.toNat * sizeofT.toNat + header.toNat) % 2 ^ 64 := by
    rw [BitVec.toNat_add, BitVec.toNat_mul, Nat.mod_add_mod]
  apply holdsElements_request_iff header.isLt hbytes
  intro hsize hlt
  have hT0 := toNat_pos hT
  have hprod := Nat.mul_pos hsize hT0
  have hfits := (malloc (size * sizeofT + header)).fits
  rw [hbytes, Nat.mod_eq_of_lt hlt] at hfits
  rw [BitVec.toNat_add]
  omega

theorem new_aligned_array_iff (size align : Word) :
    FailsOrContained sizeofT (new_aligned_array malloc limit sizeofT size align) ↔
      (Call.new_aligned_array size align).Exact limit sizeofT := by
  unfold new_aligned_array
  by_cases halign : align = 0
  · rw [if_pos halign]
    exact ⟨fun _ => .inl halign, fun _ => failsOrContained_none sizeofT⟩
  · rw [if_neg halign]
    refine Iff.trans ?_ (or_iff_right halign).symm
    refine failsOrContained_place_iff.trans (or_congr_right (contained_array_iff.trans ?_))
    have hbytes : (size * sizeofT + align).toNat =
        (size.toNat * sizeofT.toNat + align.toNat) % 2 ^ 64 := by
      rw [BitVec.toNat_add, BitVec.toNat_mul, Nat.mod_add_mod]
    apply holdsElements_request_iff align.isLt hbytes
    intro _ hlt
    have hfits := (malloc (size * sizeofT + align)).fits
    rw [hbytes, Nat.mod_eq_of_lt hlt] at hfits
    have := alignBuffer_bounds (malloc (size * sizeofT + align)).base halign (by omega)
    omega

theorem new_matrix_iff (x_size y_size : Word) :
    FailsOrContained sizeofT (new_matrix malloc limit sizeofT x_size y_size) ↔
      (Call.new_matrix x_size y_size).Exact limit sizeofT := by
  have hpos : ∀ {x : Word}, ¬0 < x ↔ x = 0 := by
    intro x
    exact BitVec.not_lt.trans BitVec.le_zero_iff
  unfold new_matrix
  by_cases hx : 0 < x_size
  · by_cases hy : 0 < y_size
    · rw [if_pos ⟨hx, hy⟩]
      refine Iff.trans ?_ ((or_iff_right fun h0 => hpos.mpr h0 hx).trans
        (or_iff_right fun h0 => hpos.mpr h0 hy)).symm
      refine failsOrContained_place_iff.trans (or_congr_right ?_)
      refine contained_matrix_iff.trans (holdsElements_base.trans ?_)
      have hbytes : (sizeofT * x_size * y_size).toNat =
          x_size.toNat * y_size.toNat * sizeofT.toNat % 2 ^ 64 := by
        rw [BitVec.toNat_mul, BitVec.toNat_mul, Nat.mod_mul_mod, Nat.mul_assoc, Nat.mul_comm]
      rw [hbytes]
      omega
    · rw [if_neg fun h => hy h.2]
      exact ⟨fun _ => .inr (.inl (hpos.mp hy)), fun _ => failsOrContained_none sizeofT⟩
  · rw [if_neg fun h => hx h.1]
    exact ⟨fun _ => .inl (hpos.mp hx), fun _ => failsOrContained_none sizeofT⟩

theorem safe_calloc_iff (num osize : Word) :
    FailsOrContained sizeofT (safe_calloc malloc limit sizeofT num osize) ↔
      (Call.safe_calloc num osize).Exact limit sizeofT := by
  have hbytes : (num * sizeofT).toNat = num.toNat * sizeofT.toNat % 2 ^ 64 := BitVec.toNat_mul ..
  have hone : (1 : Word).toNat = 1 := rfl
  unfold safe_calloc
  dsimp only
  by_cases hchars : (num * sizeofT).toNat * (1 : Word).toNat ≤ limit
  · have hplace : placeArray limit 1 (malloc (num * sizeofT)).base (num * sizeofT) =
        some (malloc (num * sizeofT)).base := if_pos hchars
    rw [hplace, Option.bind_some]
    refine failsOrContained_place_iff.trans (or_congr_right (contained_array_iff.trans ?_))
    apply holdsElements_request_iff (Nat.two_pow_pos 64) hbytes
    omega
  · have hplace : placeArray limit 1 (malloc (num * sizeofT)).base (num * sizeofT) = none :=
      if_neg hchars
    rw [hplace, Option.bind_none]
    refine ⟨fun _ => .inl ?_, fun _ => failsOrContained_none sizeofT⟩
    have hle := Nat.mod_le (num.toNat * sizeofT.toNat) (2 ^ 64)
    rw [hbytes, hone, Nat.mul_one] at hchars
    omega

theorem safe_mmap_iff (len : Word) :
    FailsOrContained sizeofT (safe_mmap malloc len) ↔
      (Call.safe_mmap len).Exact limit sizeofT := by
  unfold safe_mmap
  by_cases hlen : len = 0
  · subst hlen
    rw [if_pos rfl, failsOrContained_some]
    refine ⟨fun _ => .inl le_rfl, fun _ => contained_array_iff.mpr fun k hk => ?_⟩
    exact absurd hk (Nat.not_lt_zero k)
  · rw [if_neg hlen, failsOrContained_some, contained_array_iff, holdsElements_base]
    show _ ↔ len.toInt ≤ 0 ∨ sizeofT.toNat ≤ 1
    rcases lt_or_ge 0 len.toInt with hpos | hneg
    · have hnat := toInt_eq_toNat hpos.le
      rw [elementCount_of_pos hpos, or_iff_right (by omega)]
      constructor
      · intro hle
        exact Nat.le_of_mul_le_mul_left (hle.trans_eq (Nat.mul_one _).symm) (by omega)
      · intro hle
        exact (Nat.mul_le_mul_left _ hle).trans_eq (Nat.mul_one _)
    · unfold elementCount
      rw [Int.toNat_of_nonpos hneg, Nat.zero_mul]
      exact ⟨fun _ => .inl hneg, fun _ => Nat.zero_le _⟩

end

/-- **When an allocator claims no more than it obtained.** The call fails or gives access to
requested bytes only iff no size that it computes wraps, and a mapping is one of bytes. -/
theorem Call.contained_iff (malloc : Malloc) (limit : Nat) (sizeofT : Word) (hT : sizeofT ≠ 0)
    (c : Call) : FailsOrContained sizeofT (c.run malloc limit sizeofT) ↔ c.Exact limit sizeofT := by
  cases c with
  | new_array size => exact new_array_iff malloc limit sizeofT size
  | new_precise_array header size => exact new_precise_array_iff malloc limit sizeofT hT header size
  | new_matrix x_size y_size => exact new_matrix_iff malloc limit sizeofT x_size y_size
  | new_aligned_array size align => exact new_aligned_array_iff malloc limit sizeofT size align
  | safe_calloc num osize => exact safe_calloc_iff malloc limit sizeofT num osize
  | safe_mmap len => exact safe_mmap_iff malloc limit sizeofT len

/-- A block at the lowest address, for the requests that follow. -/
def lowBlock : Malloc := fun bytes => ⟨1, by decide, by
  have hlt := bytes.isLt
  have hone : (1 : Word).toNat = 1 := rfl
  omega⟩

/-- An array of four `int`s is exact. -/
theorem Call.contained_iff_array :
    FailsOrContained 4 (Call.run lowBlock (2 ^ 63 - 1) 4 (.new_array 4)) ↔
      (Call.new_array 4).Exact (2 ^ 63 - 1) 4 :=
  Call.contained_iff lowBlock (2 ^ 63 - 1) 4 (by decide) (.new_array 4)

/-- A mapping of 4096 bytes as `int`s gives access to 4096 of them. -/
theorem Call.mmap_overclaims :
    ¬∀ (malloc : Malloc) (limit : Nat) (sizeofT : Word), 1 ≤ sizeofT → ∀ c : Call,
      FailsOrContained sizeofT (c.run malloc limit sizeofT) := by
  intro h
  have hmap := h lowBlock 0 4 (by decide) (.safe_mmap 4096) _ rfl
  have hlast := hmap _ (accepts_array_iff.mpr ⟨1024, by decide, rfl⟩)
  exact absurd hlast.2 (by decide)

end Ironclad.Pointers
