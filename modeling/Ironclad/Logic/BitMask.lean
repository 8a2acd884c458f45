import Mathlib.Data.BitVec

/-!
# Testing a word against a mask

A word has some of its low bits set, or some bit above them: what such tests say about
the word as a number.
-/

namespace Ironclad.Logic.BitMask

variable {w j k : Nat}

/-- The word whose low `k` bits are set. -/
def lowMask (w k : Nat) : BitVec w := BitVec.ofNat w (2 ^ k - 1)

theorem toNat_lowMask (hk : k ≤ w) : (lowMask w k).toNat = 2 ^ k - 1 := by
  have hpow : 2 ^ k ≤ 2 ^ w := Nat.pow_le_pow_right (by omega) hk
  have hpos : 0 < 2 ^ k := Nat.two_pow_pos k
  rw [lowMask, BitVec.toNat_ofNat, Nat.mod_eq_of_lt (by omega)]

/-- The low `k` bits of a word. -/
theorem toNat_and_lowMask (hk : k ≤ w) (x : BitVec w) :
    (x &&& lowMask w k).toNat = x.toNat % 2 ^ k := by
  rw [BitVec.toNat_and, toNat_lowMask hk, Nat.and_two_pow_sub_one_eq_mod]

theorem and_lowMask_eq_zero_iff (hk : k ≤ w) (x : BitVec w) :
    x &&& lowMask w k = 0#w ↔ x.toNat % 2 ^ k = 0 := by
  rw [← toNat_and_lowMask hk, ← BitVec.toNat_inj]
  simp

theorem and_not_eq_zero_iff (x m : BitVec w) : x &&& ~~~m = 0#w ↔ x &&& m = x := by
  constructor
  · intro h
    ext i hi
    have hbit := congrArg (fun y => y[i]) h
    simp only [BitVec.getElem_and, BitVec.getElem_not, BitVec.getElem_zero] at hbit ⊢
    cases hx : x[i] <;> cases hm : m[i] <;> simp_all
  · intro h
    rw [← h, BitVec.and_assoc, BitVec.and_not_self]
    simp

/-- No bit above the low `k` bits is set. -/
theorem and_not_lowMask_eq_zero_iff (hk : k ≤ w) (x : BitVec w) :
    x &&& ~~~lowMask w k = 0#w ↔ x.toNat < 2 ^ k := by
  rw [and_not_eq_zero_iff, ← BitVec.toNat_inj, toNat_and_lowMask hk]
  constructor
  · intro h
    have hlt := Nat.mod_lt x.toNat (Nat.two_pow_pos k)
    omega
  · exact Nat.mod_eq_of_lt

/-- The word is less than `2 ^ k` and its low `j` bits are clear. -/
theorem and_mask_eq_zero_iff (hk : k ≤ w) (hj : j ≤ w) (x : BitVec w) :
    x &&& (~~~lowMask w k ||| lowMask w j) = 0#w ↔ x.toNat < 2 ^ k ∧ x.toNat % 2 ^ j = 0 := by
  -- the two masks are tested apart
  have hdistrib : x &&& (~~~lowMask w k ||| lowMask w j) =
      (x &&& ~~~lowMask w k) ||| (x &&& lowMask w j) := by
    ext i hi
    simp only [BitVec.getElem_and, BitVec.getElem_or]
    cases x[i] <;> simp
  rw [hdistrib, BitVec.or_eq_zero_iff, and_not_lowMask_eq_zero_iff hk,
    and_lowMask_eq_zero_iff hj]

end Ironclad.Logic.BitMask
