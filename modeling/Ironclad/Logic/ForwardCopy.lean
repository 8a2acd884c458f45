import Mathlib.Logic.Function.Basic
import Mathlib.Data.Nat.Basic

/-!
# Copying cell by cell, forward

The loop `for (i = 0; i < n; ++i) a[d + i] = a[s + i];` over a sequence of cells, where source
and destination may overlap. A copy to lower positions reads every cell before it is written. A
copy to higher positions reads, from the cell `d` on, what it has written itself, so the first
`d - s` cells of the source repeat.
-/

namespace Ironclad.Logic

variable {α : Type*}

/-- The cells after `n` rounds. -/
def forwardCopy (a : Nat → α) (d s : Nat) : Nat → Nat → α
  | 0 => a
  | n + 1 => Function.update (forwardCopy a d s n) (d + n) (forwardCopy a d s n (s + n))

variable {a : Nat → α} {d s n i k : Nat}

@[simp] theorem forwardCopy_zero : forwardCopy a d s 0 = a := rfl

theorem forwardCopy_succ_self :
    forwardCopy a d s (n + 1) (d + n) = forwardCopy a d s n (s + n) :=
  Function.update_self _ _ _

theorem forwardCopy_succ_of_ne (h : k ≠ d + n) :
    forwardCopy a d s (n + 1) k = forwardCopy a d s n k :=
  Function.update_of_ne h _ _

/-- The frame: what is not in the destination stays. -/
theorem forwardCopy_outside (h : k < d ∨ d + n ≤ k) : forwardCopy a d s n k = a k := by
  induction n with
  | zero => rfl
  | succ n ih =>
      rw [forwardCopy_succ_of_ne (by omega)]
      exact ih (by omega)

/-- A cell of the destination keeps what its round has put there. -/
theorem forwardCopy_round (h : i < n) :
    forwardCopy a d s n (d + i) = forwardCopy a d s i (s + i) := by
  induction n with
  | zero => omega
  | succ n ih =>
      rcases Nat.lt_succ_iff_lt_or_eq.mp h with hlt | rfl
      · rw [forwardCopy_succ_of_ne (by omega)]
        exact ih hlt
      · exact forwardCopy_succ_self

/-- **To lower positions, or from cells in front of the destination**, every cell read is an
original one. -/
theorem forwardCopy_of_le (h : d ≤ s ∨ s + n ≤ d) (hi : i < n) :
    forwardCopy a d s n (d + i) = a (s + i) := by
  rw [forwardCopy_round hi]
  exact forwardCopy_outside (by omega)

/-- **To higher positions** the first `d - s` cells of the source repeat. The induction is on the
position: `d - s` cells further on the loop reads what it wrote `d - s` rounds before. -/
theorem forwardCopy_of_lt (h : s < d) (hi : i < n) :
    forwardCopy a d s n (d + i) = a (s + i % (d - s)) := by
  rw [forwardCopy_round hi]
  induction i using Nat.strong_induction_on with
  | _ i ih =>
      rcases Nat.lt_or_ge i (d - s) with hlt | hge
      · rw [Nat.mod_eq_of_lt hlt]
        exact forwardCopy_outside (by omega)
      · have hback : s + i = d + (i - (d - s)) := by omega
        rw [hback, forwardCopy_round (by omega), ih (i - (d - s)) (by omega) (by omega),
          ← Nat.mod_eq_sub_mod hge]

end Ironclad.Logic
