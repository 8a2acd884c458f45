import Mathlib.Logic.Function.Iterate
import Ironclad.Pointers.Allocators

/-!
# Aligned arrays

`new_aligned_array` asks for `align` bytes more than the array needs and steps the address up,
byte by byte, until it is a multiple of `align`. The loop has no bound of its own:
`alignBuffer_ends` says that it needs fewer than `align` steps, for every alignment and every
address with that much room behind it.
-/

namespace Ironclad.Pointers

open Ironclad.Logic

/-- The loop leaves off after `k` rounds at the address `stop`. -/
structure LoopEnds (align buffer : Word) (k : Nat) (stop : Word) : Prop where
  rounds : (fun b : Word => b + 1)^[k] buffer = stop
  goes_on : ∀ j < k, (fun b : Word => b + 1)^[j] buffer % align ≠ 0
  ends : stop % align = 0

/-- An array of `size` elements, placed behind `buffer`: the loop that starts there ends after
fewer than `align` steps at a multiple of `align`, and the array from there on ends inside the
block. -/
structure AlignedIn {bytes : Word} (b : Block bytes) (sizeofT size align buffer data : Word) :
    Prop where
  ends : ∃ k < align.toNat, LoopEnds align buffer k data
  aligned : align.toNat ∣ data.toNat
  starts_in : b.base.toNat ≤ buffer.toNat ∧ buffer.toNat ≤ data.toNat
  ends_in : data.toNat + size.toNat * sizeofT.toNat ≤ b.base.toNat + bytes.toNat

/-- `new_aligned_array_impl`: the loop starts behind a `tagged_array_allocation<T>`. -/
def new_aligned_array_impl (malloc : Malloc) (limit : Nat) (sizeofT header size align : Word) :
    Option Allocation :=
  let buffer := malloc (size * sizeofT + align + header)
  let objbuffer := buffer.base + header
  if align = 0 then none
  else (placeArray limit sizeofT (alignBuffer align objbuffer) size).map fun data =>
    ⟨_, buffer, .array (.ofData data size)⟩

/-! ## The loop -/

theorem add_one_iterate (buffer : Word) (k : Nat) :
    (fun b : Word => b + 1)^[k] buffer = buffer + BitVec.ofNat 64 k := by
  induction k with
  | zero => exact (add_zero buffer).symm
  | succ k ih =>
      rw [Function.iterate_succ_apply', ih, BitVec.ofNat_add, ← add_assoc]
      rfl

theorem umod_eq_zero_iff {a align : Word} : a % align = 0 ↔ align.toNat ∣ a.toNat := by
  rw [← BitVec.toNat_inj, BitVec.toNat_umod]
  exact (Nat.dvd_iff_mod_eq_zero ..).symm

/-- `alignBuffer` is the loop: it leaves off at some round. -/
theorem exists_loopEnds (align buffer : Word) :
    ∃ k, LoopEnds align buffer k (alignBuffer align buffer) := by
  induction buffer using alignBuffer.induct align with
  | case1 buffer h =>
      rw [alignBuffer, if_pos h]
      exact ⟨0, rfl, fun j hj => absurd hj (Nat.not_lt_zero j), h⟩
  | case2 buffer h ih =>
      rw [alignBuffer, if_neg h]
      obtain ⟨k, hk⟩ := ih
      refine ⟨k + 1, ?_, ?_, hk.ends⟩
      · rw [Function.iterate_succ_apply]
        exact hk.rounds
      · intro j hj
        cases j with
        | zero => exact h
        | succ j =>
            rw [Function.iterate_succ_apply]
            exact hk.goes_on j (by omega)

/-- The distance to the next multiple. -/
theorem exists_next_multiple (n : Nat) {d : Nat} (hd : 0 < d) : ∃ j < d, d ∣ n + j := by
  have hlt := Nat.mod_lt n hd
  have hsplit := Nat.div_add_mod n d
  rcases Nat.eq_zero_or_pos (n % d) with h0 | hpos
  · exact ⟨0, hd, Nat.dvd_of_mod_eq_zero h0⟩
  · refine ⟨d - n % d, by omega, n / d + 1, ?_⟩
    rw [Nat.mul_add, Nat.mul_one]
    omega

/-- **The loop takes fewer than `align` steps**, as the next multiple is no further away. -/
theorem LoopEnds.lt {align buffer stop : Word} {k : Nat} (h : LoopEnds align buffer k stop)
    (halign : 1 ≤ align) (hfits : buffer.toNat + align.toNat ≤ 2 ^ 64) : k < align.toNat := by
  replace halign : 1 ≤ align.toNat := halign
  obtain ⟨j, hj, hdvd⟩ := exists_next_multiple buffer.toNat (show 0 < align.toNat by omega)
  by_contra hk
  apply h.goes_on j (by omega)
  rw [add_one_iterate, umod_eq_zero_iff, BitVec.toNat_add, BitVec.toNat_ofNat,
    Nat.add_mod_mod, Nat.mod_eq_of_lt (by omega)]
  exact hdvd

theorem alignBuffer_ends {align buffer : Word} (halign : 1 ≤ align)
    (hfits : buffer.toNat + align.toNat ≤ 2 ^ 64) :
    ∃ k < align.toNat, LoopEnds align buffer k (alignBuffer align buffer) ∧
      (alignBuffer align buffer).toNat = buffer.toNat + k := by
  obtain ⟨k, hk⟩ := exists_loopEnds align buffer
  have hlt := hk.lt halign hfits
  refine ⟨k, hlt, hk, ?_⟩
  rw [← hk.rounds, add_one_iterate, BitVec.toNat_add, BitVec.toNat_ofNat, Nat.add_mod_mod]
  exact Nat.mod_eq_of_lt (by omega)

/-! ## The array -/

/-- An array behind `extra` bytes of a block that was asked for with the bytes of the elements,
`align` and these. -/
theorem alignedIn_alignBuffer {bytes sizeofT size align extra : Word} (b : Block bytes)
    (halign : 1 ≤ align)
    (hbytes : bytes.toNat = size.toNat * sizeofT.toNat + align.toNat + extra.toNat) :
    AlignedIn b sizeofT size align (b.base + extra) (alignBuffer align (b.base + extra)) := by
  have hfits := b.fits
  have hpos : 1 ≤ align.toNat := halign
  have hbase : (b.base + extra).toNat = b.base.toNat + extra.toNat := by
    rw [BitVec.toNat_add]
    exact Nat.mod_eq_of_lt (by omega)
  obtain ⟨k, hk, hends, hdata⟩ := @alignBuffer_ends align (b.base + extra) halign (by omega)
  refine ⟨⟨k, hk, hends⟩, umod_eq_zero_iff.mp hends.ends, ?_, ?_⟩
  · omega
  · omega

/-- An array that is placed is placed at the address given. -/
theorem eq_of_place {bytes sizeofT data size : Word} {b : Block bytes} {limit : Nat}
    {al : Allocation}
    (h : ((placeArray limit sizeofT data size).map fun data =>
      (⟨bytes, b, .array (.ofData data size)⟩ : Allocation)) = some al) :
    al = ⟨bytes, b, .array (.ofData data size)⟩ := by
  obtain ⟨data', hdata, rfl⟩ := Option.map_eq_some_iff.mp h
  obtain ⟨-, h'⟩ := Option.ite_none_right_eq_some.mp hdata
  rw [Option.some.inj h']

end Ironclad.Pointers
