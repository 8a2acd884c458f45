import Ironclad.Logic.Releases
import Ironclad.Pointers.Allocators
import Ironclad.Wrappers.Elements

/-!
# `safe_realloc`

`safe_realloc` frees the old array first, and `free()` makes the address null. The copy into the
new array then starts from the null pointer and not from the old array, and it is as long as the
new size in bytes says.
-/

namespace Ironclad.Wrappers

open Ironclad.Logic Ironclad.CLib Ironclad.Pointers

/-! ## The function -/

/-- What is below the wrapper: the build, `operator new[]`, which gives a block or throws, and
what freed memory and new elements hold. -/
structure Runtime where
  _HAVE_BDW_GC : Bool
  malloc : (bytes : Word) → Option (Block bytes)
  scrap : Nat → BitVec 8
  initial : Nat → BitVec 8

/-- `oldPtr.free()`: the pointer is null afterwards; with the collector nothing is given back. -/
def free (rt : Runtime) (sizeofT : Word) (p : Aptr) : Releasing 64 Aptr :=
  if rt._HAVE_BDW_GC then pure p.free
  else do
    Releasing.release (p.allocation sizeofT) rt.scrap
    pure p.free

/-- `new T[newSize]`: an exception ends the program as a failed assertion does. -/
def newElements (rt : Runtime) (sizeofT newSize : Word) : Releasing 64 Word :=
  match rt.malloc (newSize * sizeofT) with
  | some buffer => do
      Releasing.ofProg (store buffer.base (newSize * sizeofT).toNat rt.initial)
      pure buffer.base
  | none => Releasing.ofProg do
      Prog.assert false
      pure 0

/-- `safe_realloc(oldPtr, size)`. -/
def safe_realloc (rt : Runtime) (sizeofT : Word) (oldPtr : Aptr) (size : Word) :
    Releasing 64 Aptr := do
  Releasing.ofProg (Prog.assert (0 < size))
  let oldPtr ← free rt sizeofT oldPtr
  let newSize := size / sizeofT
  let data ← newElements rt sizeofT newSize
  let newPtr := Aptr.ofData data newSize
  Releasing.ofProg
    (memcpy (newPtr.convert_to_raw sizeofT) (oldPtr.convert_to_raw sizeofT) size.toNat)
  pure newPtr

/-! ## What it should do -/

/-- An array of `size / sizeof(T)` elements is returned that begins with the old elements, as many
of them as there is room for; it is the only memory written, only the old array is read, and
that before it is released. -/
structure Reallocates (sizeofT : Word) (p : Aptr) (size : Word) (m : Memory 64)
    (c : Course 64 Aptr) : Prop where
  returns : ∃ q, c.ending = .returns q ∧ q.index = 0 ∧ q.size = size / sizeofT ∧
    c.WritesIn (q.allocation sizeofT) ∧
    ∀ i : Nat, i < p.size.toNat → i < (size / sizeofT).toNat →
      value c.mem sizeofT q.data i = value m sizeofT p.data i
  reads : c.ReadsIn (p.allocation sizeofT)
  released : c.ReadsOnlyBefore

/-! ## What it does -/

section

variable {rt : Runtime} {sizeofT size : Word} {p q : Aptr} {m : Memory 64}

/-- The pointer is null from then on. -/
theorem free_returns (h : (free rt sizeofT p m).ending = .returns q) : q = p.free := by
  unfold free at h
  by_cases hgc : rt._HAVE_BDW_GC = true
  · rw [if_pos hgc] at h
    exact (Ending.returns.inj h).symm
  · rw [if_neg hgc] at h
    exact (Ending.returns.inj h).symm

/-- **The copy starts at address 0**, if the function returns at all. -/
theorem safe_realloc_reads_null (hindex : p.index = 0)
    (h : (safe_realloc rt sizeofT p size m).ending = .returns q) :
    .read ⟨0, size.toNat⟩ ∈ (safe_realloc rt sizeofT p size m).accesses := by
  unfold safe_realloc at h ⊢
  obtain ⟨_, -, hfree, has⟩ := Releasing.returns_of_bind h
  rw [has]
  apply List.mem_append_right
  obtain ⟨p', hp', hnew, has⟩ := Releasing.returns_of_bind hfree
  obtain rfl := free_returns hp'
  rw [has]
  apply List.mem_append_right
  obtain ⟨data, -, hcopy, has⟩ := Releasing.returns_of_bind hnew
  rw [has]
  apply List.mem_append_right
  obtain ⟨_, -, -, has⟩ := Releasing.returns_of_bind hcopy
  rw [has]
  apply List.mem_append_left
  apply Releasing.read_ofProg
  -- the pointer that is copied from is the one that was freed
  have hnull : p.free.convert_to_raw sizeofT = 0 := by
    show element sizeofT 0 p.index = 0
    rw [hindex, element_zero]
  rw [hnull, memcpy]
  split_ifs
  · exact List.mem_singleton_self _
  · exact List.mem_singleton_self _

/-- An array does not contain address 0. -/
theorem zero_not_mem_allocation
    (hfits : p.data.toNat + p.size.toNat * sizeofT.toNat ≤ 2 ^ 64) :
    (0 : Word) ∉ p.allocation sizeofT := by
  unfold Aptr.allocation block
  by_cases hdata : p.data = 0
  · rw [if_pos hdata]
    exact Region.not_mem_of_len rfl
  · rw [if_neg hdata, Region.mem_mk, zero_sub, BitVec.toNat_neg]
    have hpos := toNat_pos hdata
    omega

/-- **`safe_realloc` never preserves the contents**: whatever it is called with, it does not
return, or it reads outside the old array. -/
theorem safe_realloc_never (rt : Runtime) (m : Memory 64) (hindex : p.index = 0)
    (hsize : sizeofT ≠ 0) (hs : sizeofT ≤ size)
    (hfits : p.data.toNat + p.size.toNat * sizeofT.toNat ≤ 2 ^ 64) :
    ¬Reallocates sizeofT p size m (safe_realloc rt sizeofT p size m) := by
  intro h
  obtain ⟨q, hq, -⟩ := h.returns
  have hsub := h.reads _ (safe_realloc_reads_null hindex hq)
  have hpos : 0 < size.toNat := by
    have hT := toNat_pos hsize
    have hle := BitVec.le_def.mp hs
    omega
  have hmem : (0 : Word) ∈ (⟨0, size.toNat⟩ : Region 64) := by
    rw [Region.mem_mk, sub_self]
    exact hpos
  exact zero_not_mem_allocation hfits (hsub 0 hmem)

end

/-- Memory at 0x2000 for requests of up to 4096 bytes. -/
def smallHeap : Runtime where
  _HAVE_BDW_GC := false
  malloc bytes :=
    if h : bytes.toNat ≤ 4096 then
      some ⟨0x2000, by decide, by show 0x2000 + bytes.toNat ≤ 2 ^ 64; omega⟩
    else none
  scrap _ := 0xdd
  initial _ := 0

/-- Two `int`s at 0x1000, and the 12 bytes of three. -/
theorem safe_realloc_never_two :
    ¬Reallocates 4 ⟨0x1000, 0, 2⟩ 12 (fun _ => 7)
      (safe_realloc smallHeap 4 ⟨0x1000, 0, 2⟩ 12 fun _ => 7) :=
  safe_realloc_never smallHeap _ rfl (by decide) (by decide) (by decide)

/-- `safe_realloc(p, 12)` for two `int`s at 0x1000 returns an array of three, and copies from
address 0. -/
theorem realloc_copies_null :
    (safe_realloc smallHeap 4 ⟨0x1000, 0, 2⟩ 12 fun _ => 7).ending =
        .returns ⟨0x2000, 0, 3⟩ ∧
      ¬∀ (p : Aptr) (size : Word) (m : Memory 64), p.index = 0 →
        p.data.toNat + p.size.toNat * 4 ≤ 2 ^ 64 → 4 ≤ size →
        Reallocates 4 p size m (safe_realloc smallHeap 4 p size m) := by
  have hend : (safe_realloc smallHeap 4 ⟨0x1000, 0, 2⟩ 12 fun _ => 7).ending =
      .returns ⟨0x2000, 0, 3⟩ := rfl
  refine ⟨hend, ?_⟩
  intro h
  have hreads := (h ⟨0x1000, 0, 2⟩ 12 (fun _ => 7) rfl (by decide) (by decide)).reads
  have hsub := hreads _ (safe_realloc_reads_null rfl hend)
  exact absurd (hsub 0 (by decide)) (by decide)

end Ironclad.Wrappers
