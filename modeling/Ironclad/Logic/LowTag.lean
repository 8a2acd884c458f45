import Mathlib.Data.BitVec

/-!
# A flag in the low bit of a word

An aligned address leaves its low bit free, and a flag can be kept there. The
word then reads as a base (`untag`) and a flag (`tagged`); the lemmas say what
the usual bit operations with `1` do to the two, and turn them into facts about
`toNat` that `omega` can use.
-/

namespace Ironclad.Logic.LowTag

variable {w : Nat}

/-- The flag: `x & 1`. -/
def tagged (x : BitVec w) : Bool := (x &&& 1#w) != 0#w

/-- The base: `x` with the flag cleared. -/
def untag (x : BitVec w) : BitVec w := x &&& ~~~1#w

private theorem toNat_one (hw : 0 < w) : (1#w).toNat = 1 :=
  BitVec.toNat_one hw

theorem tagged_eq_decide (hw : 0 < w) (x : BitVec w) :
    tagged x = decide (x.toNat % 2 = 1) := by
  unfold tagged
  have h : (x &&& 1#w).toNat = x.toNat % 2 := by
    rw [BitVec.toNat_and, toNat_one hw, Nat.and_one_is_mod]
  rcases Nat.mod_two_eq_zero_or_one x.toNat with h0 | h1
  · have hz : x &&& 1#w = 0#w := BitVec.eq_of_toNat_eq (by rw [h, h0]; simp)
    simp [hz, h0]
  · have hz : x &&& 1#w ≠ 0#w := by
      intro hc
      rw [hc, h1] at h
      simp at h
    simp [hz, h1]

theorem tagged_iff (hw : 0 < w) (x : BitVec w) : tagged x = true ↔ x.toNat % 2 = 1 := by
  rw [tagged_eq_decide hw, decide_eq_true_iff]

theorem not_tagged_iff (hw : 0 < w) (x : BitVec w) : tagged x = false ↔ x.toNat % 2 = 0 := by
  rw [tagged_eq_decide hw, decide_eq_false_iff_not]
  omega

private theorem getLsbD_one (hw : 0 < w) (i : Nat) : (1#w).getLsbD i = decide (i = 0) := by
  rw [BitVec.getLsbD_one]
  simp [hw]

/-- Setting the flag keeps the base. -/
@[simp] theorem untag_or_one (x : BitVec w) : untag (x ||| 1#w) = untag x := by
  unfold untag
  ext i hi
  simp only [BitVec.getElem_and, BitVec.getElem_or, BitVec.getElem_not]
  cases x[i] <;> cases (1#w)[i] <;> rfl

/-- Flipping the flag keeps the base. -/
@[simp] theorem untag_xor_one (x : BitVec w) : untag (x ^^^ 1#w) = untag x := by
  unfold untag
  ext i hi
  simp only [BitVec.getElem_and, BitVec.getElem_xor, BitVec.getElem_not]
  cases x[i] <;> cases (1#w)[i] <;> rfl

theorem toNat_or_one (hw : 0 < w) (x : BitVec w) :
    (x ||| 1#w).toNat = 2 * (x.toNat / 2) + 1 := by
  rw [BitVec.toNat_or, toNat_one hw]
  have hdiv : (x.toNat ||| 1) / 2 = x.toNat / 2 := by
    rw [Nat.or_div_two]
    simp
  have hmod : (x.toNat ||| 1) % 2 = 1 := by
    rw [Nat.or_mod_two_eq_one]
    simp
  omega

theorem toNat_xor_one (hw : 0 < w) (x : BitVec w) :
    (x ^^^ 1#w).toNat = 2 * (x.toNat / 2) + (1 - x.toNat % 2) := by
  rw [BitVec.toNat_xor, toNat_one hw]
  have hdiv : (x.toNat ^^^ 1) / 2 = x.toNat / 2 := by
    rw [Nat.xor_div_two]
    simp
  have hmod : (x.toNat ^^^ 1) % 2 = 1 ↔ ¬(x.toNat % 2 = 1 ↔ 1 % 2 = 1) := Nat.xor_mod_two_eq_one
  omega

/-- The base of a word, as a number. -/
theorem toNat_untag (hw : 0 < w) (x : BitVec w) : (untag x).toNat = 2 * (x.toNat / 2) := by
  -- the base and the flag are the two parts of the word
  have hsplit : untag x ||| 1#w = x ||| 1#w := by
    unfold untag
    ext i hi
    simp only [BitVec.getElem_and, BitVec.getElem_or, BitVec.getElem_not]
    cases x[i] <;> cases (1#w)[i] <;> rfl
  have hlow : tagged (untag x) = false := by
    have : (untag x &&& 1#w) = 0#w := by
      unfold untag
      ext i hi
      simp only [BitVec.getElem_and, BitVec.getElem_not, BitVec.getElem_zero]
      cases x[i] <;> cases (1#w)[i] <;> rfl
    simp [tagged, this]
  have h := congrArg BitVec.toNat hsplit
  rw [toNat_or_one hw, toNat_or_one hw] at h
  have := (not_tagged_iff hw _).mp hlow
  omega

@[simp] theorem tagged_or_one (hw : 0 < w) (x : BitVec w) : tagged (x ||| 1#w) = true := by
  rw [tagged_iff hw, toNat_or_one hw]
  omega

/-- The base never exceeds the word with its flag flipped. -/
theorem untag_le_xor_one (hw : 0 < w) (x : BitVec w) : untag x ≤ x ^^^ 1#w := by
  rw [BitVec.le_def, toNat_untag hw, toNat_xor_one hw]
  omega

/-- Flipping a clear flag sets it. -/
theorem xor_one_of_not_tagged (hw : 0 < w) {x : BitVec w} (h : tagged x = false) :
    x ^^^ 1#w = x ||| 1#w := by
  apply BitVec.eq_of_toNat_eq
  rw [toNat_or_one hw, toNat_xor_one hw, (not_tagged_iff hw x).mp h]

/-- `x ^ 1` is zero only for the word that is nothing but its flag. -/
theorem xor_one_ne_zero_of_not_tagged (hw : 0 < w) {x : BitVec w} (h : tagged x = false) :
    x ^^^ 1#w ≠ 0#w := by
  intro hc
  have := congrArg BitVec.toNat hc
  rw [xor_one_of_not_tagged hw h, toNat_or_one hw] at this
  simp at this

end Ironclad.Logic.LowTag
