import Mathlib.Data.BitVec
import Mathlib.Data.List.Range

/-!
# Going over the bits of a word

A loop that shifts a word until it is zero goes over the places of the bits that are set, from
the highest one when it shifts to the left and from the lowest one when it shifts to the right.
The places are lists; `highBits_step` and `lowBits_step` are what one turn of such a loop does.
-/

namespace Ironclad.Logic.BitScan

variable {w : Nat}

/-- The places of the bits that are set, counted from the highest bit. -/
def highBits (x : BitVec w) : List Nat := (List.range w).filter fun i => x.getMsbD i

/-- The places of the bits that are set, counted from the lowest bit. -/
def lowBits (x : BitVec w) : List Nat := (List.range w).filter fun i => x.getLsbD i

theorem mem_highBits {x : BitVec w} {i : Nat} : i ∈ highBits x ↔ x.getMsbD i = true := by
  rw [highBits, List.mem_filter, List.mem_range]
  constructor
  · exact fun h => h.2
  · exact fun h => ⟨BitVec.lt_of_getMsbD h, h⟩

theorem mem_lowBits {x : BitVec w} {i : Nat} : i ∈ lowBits x ↔ x.getLsbD i = true := by
  rw [lowBits, List.mem_filter, List.mem_range]
  constructor
  · exact fun h => h.2
  · exact fun h => ⟨BitVec.lt_of_getLsbD h, h⟩

@[simp] theorem highBits_zero : highBits (0#w) = [] := by
  simp [highBits]

@[simp] theorem lowBits_zero : lowBits (0#w) = [] := by
  simp [lowBits]

/-- A filter of the numbers below a bound, when a step takes it to the next number. -/
theorem filter_range_step {p q : Nat → Bool} (hstep : ∀ i, i + 1 < w → q i = p (i + 1))
    (hlast : ∀ i, i + 1 = w → q i = false) :
    (List.range w).filter p =
      (if 0 < w ∧ p 0 then [0] else []) ++ ((List.range w).filter q).map (· + 1) := by
  cases w with
  | zero => rfl
  | succ n =>
      have hq : (List.range (n + 1)).filter q = (List.range n).filter fun i => p (i + 1) := by
        rw [List.range_succ, List.filter_append]
        simp only [List.filter_cons, hlast n rfl, List.filter_nil, Bool.false_eq_true, if_false,
          List.append_nil]
        apply List.filter_congr
        intro i hi
        exact hstep i (by simpa using hi)
      have hp : ((List.range n).filter fun i => p (i + 1)).map (· + 1) =
          (((List.range n).map (· + 1)).filter p) := by
        rw [List.filter_map]
        rfl
      rw [hq, hp, List.range_succ_eq_map, List.filter_cons]
      by_cases h0 : p 0 = true
      · simp [h0]
      · simp [h0]

/-- One turn to the left. -/
theorem highBits_step (x : BitVec w) :
    highBits x = (if x.msb then [0] else []) ++ (highBits (x <<< 1)).map (· + 1) := by
  have hstep := filter_range_step (w := w) (p := fun i => x.getMsbD i)
    (q := fun i => (x <<< 1).getMsbD i)
    (fun i _ => BitVec.getMsbD_shiftLeft x 1)
    (fun i hi => (BitVec.getMsbD_shiftLeft x 1).trans (BitVec.getMsbD_of_ge x (i + 1) hi.ge))
  rw [highBits, hstep]
  congr 1
  cases w with
  | zero => simp [BitVec.eq_nil x]
  | succ n => simp [BitVec.msb]

/-- One turn to the right. -/
theorem lowBits_step (x : BitVec w) :
    lowBits x = (if x.getLsbD 0 then [0] else []) ++ (lowBits (x >>> 1)).map (· + 1) := by
  have hstep := filter_range_step (w := w) (p := fun i => x.getLsbD i)
    (q := fun i => (x >>> 1).getLsbD i)
    (fun i _ => by rw [BitVec.getLsbD_ushiftRight, Nat.add_comm])
    (fun i hi => by rw [BitVec.getLsbD_ushiftRight]; exact BitVec.getLsbD_of_ge x _ (by omega))
  rw [lowBits, hstep]
  congr 1
  cases w with
  | zero => simp [BitVec.eq_nil x]
  | succ n => simp

/-- A loop to the right ends. -/
theorem shiftRight_lt {x : BitVec w} (h : x ≠ 0) : (x >>> 1).toNat < x.toNat := by
  have hpos : 0 < x.toNat := by
    rw [Nat.pos_iff_ne_zero]
    exact fun h0 => h (BitVec.eq_of_toNat_eq (by simpa using h0))
  rw [BitVec.toNat_ushiftRight, Nat.shiftRight_eq_div_pow]
  omega

/-- A loop to the left ends. -/
theorem reverse_shiftLeft_lt {x : BitVec w} (h : x ≠ 0) :
    (x <<< 1).reverse.toNat < x.reverse.toNat := by
  have hshift : (x <<< 1).reverse = x.reverse >>> 1 := by
    apply BitVec.eq_of_getLsbD_eq
    intro i hi
    rw [BitVec.getLsbD_reverse, BitVec.getMsbD_shiftLeft, BitVec.getLsbD_ushiftRight,
      BitVec.getLsbD_reverse, Nat.add_comm]
  have hne : x.reverse ≠ 0 := by
    intro h0
    apply h
    apply BitVec.eq_of_getMsbD_eq
    intro i hi
    rw [← BitVec.getLsbD_reverse, h0]
    simp
  rw [hshift]
  exact shiftRight_lt hne

end Ironclad.Logic.BitScan
