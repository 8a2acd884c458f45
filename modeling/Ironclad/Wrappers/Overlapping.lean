import Ironclad.Logic.ForwardCopy
import Ironclad.Wrappers.Elements

/-!
# `copy<T>` between overlapping ranges of one array

The loop of `copy<T>` goes forward and checks both subscripts in every round. Within one
allocation it is `forwardCopy` on the elements: see `copyLoop_forward`, where the induction is on
the rounds. From the first round on in which a subscript is out of bounds nothing is done any
more (`copyLoop_fails`).
-/

namespace Ironclad.Wrappers

open Ironclad.Logic Ironclad.CLib Ironclad.Pointers

/-- `copy<T>(aptr<T> dest, laptr<T> src, size)`. -/
def mixed_copy (sizeofT : Word) (dest : Aptr) (src : Laptr) (size : Word) : Prog 64 Unit :=
  copyLoop sizeofT (aptrElement sizeofT dest) (laptrElement sizeofT src) size.toNat

/-- Both pointers are into one array in memory. -/
structure OneArray (sizeofT : Word) (dest src : Position) : Prop where
  data_eq : src.data = dest.data
  size_eq : src.size = dest.size
  data_ne : dest.data ≠ 0
  fitting : Fitting sizeofT dest.size

theorem OneArray.src_ne {sizeofT : Word} {dest src : Position} (h : OneArray sizeofT dest src) :
    src.data ≠ 0 := by
  rw [h.data_eq]
  exact h.data_ne

/-- The elements that round `i` assigns from and to are in the array. -/
def InBoth (dest src : Position) (i : Nat) : Prop :=
  (0 ≤ dest.index.toInt + i ∧ dest.index.toInt + i < dest.size.toInt) ∧
    0 ≤ src.index.toInt + i ∧ src.index.toInt + i < src.size.toInt

/-- What a copy of `count` elements from `src` to `dest` does, whatever the memory holds. -/
structure CopiesForward (sizeofT : Word) (copy : Word → Prog 64 Unit) (dest src : Position)
    (count : Word) (m : Memory 64) : Prop where
  returns : (∀ i < count.toNat, InBoth dest src i) → (copy count m).ending = .returns ()
  original : (∀ i < count.toNat, InBoth dest src i) →
    dest.index.toInt ≤ src.index.toInt ∨ src.index.toInt + count.toNat ≤ dest.index.toInt →
    ∀ i < count.toNat, value (copy count m).mem sizeofT dest.data (dest.index.toInt + i) =
      value m sizeofT dest.data (src.index.toInt + i)
  periodic : (∀ i < count.toNat, InBoth dest src i) →
    src.index.toInt < dest.index.toInt → dest.index.toInt < src.index.toInt + count.toNat →
    ∀ i < count.toNat, value (copy count m).mem sizeofT dest.data (dest.index.toInt + i) =
      value m sizeofT dest.data (src.index.toInt + i % (dest.index.toInt - src.index.toInt))
  unchanged : (∀ i < count.toNat, InBoth dest src i) → ∀ k, 0 ≤ k → k < dest.size.toInt →
    k < dest.index.toInt ∨ dest.index.toInt + count.toNat ≤ k →
    value (copy count m).mem sizeofT dest.data k = value m sizeofT dest.data k
  outside : (∀ i < count.toNat, InBoth dest src i) →
    ∀ a, a ∉ (⟨dest.data, dest.size.toNat * sizeofT.toNat⟩ : Region 64) →
      (copy count m).mem a = m a
  fails : ∀ i < count.toNat, ¬InBoth dest src i → (∀ j < i, InBoth dest src j) →
    (copy (BitVec.ofNat 64 i) m).ending = .returns () ∧
      copy count m = ⟨.fails, (copy (BitVec.ofNat 64 i) m).mem,
        (copy (BitVec.ofNat 64 i) m).reads, (copy (BitVec.ofNat 64 i) m).writes⟩

/-! ## The loop -/

section

variable {sizeofT : Word} {conv conv' : Word → Word} {dest src : Position}
  {destE srcE : Word → Prog 64 Word} {m : Memory 64} {n i : Nat}

/-- **The loop is a forward copy of the elements** as long as its subscripts are in bounds. -/
theorem copyLoop_forward (hd : ElementOf sizeofT conv dest destE)
    (hs : ElementOf sizeofT conv' src srcE) (harray : OneArray sizeofT dest src) (hn : n ≤ 2 ^ 31)
    (hconv : ∀ i < n, conv (BitVec.ofNat 64 i) = BitVec.ofNat 64 i)
    (hconv' : ∀ i < n, conv' (BitVec.ofNat 64 i) = BitVec.ofNat 64 i)
    (hin : ∀ i < n, InBoth dest src i) :
    (copyLoop sizeofT destE srcE n m).ending = .returns () ∧
      (∀ l < dest.size.toNat,
        (copyLoop sizeofT destE srcE n m).mem.cell dest.data sizeofT.toNat l =
          forwardCopy (m.cell dest.data sizeofT.toNat) dest.index.toInt.toNat
            src.index.toInt.toNat n l) ∧
      ∀ a, a ∉ (⟨dest.data, dest.size.toNat * sizeofT.toNat⟩ : Region 64) →
        (copyLoop sizeofT destE srcE n m).mem a = m a := by
  induction n with
  | zero => exact ⟨rfl, fun _ _ => rfl, fun _ _ => rfl⟩
  | succ n ih =>
      obtain ⟨hloop, hcells, hout⟩ := ih (by omega) (fun i hi => hconv i (by omega))
        (fun i hi => hconv' i (by omega)) (fun i hi => hin i (by omega))
      obtain ⟨⟨hd0, hdlt⟩, hs0, hslt⟩ := hin n (Nat.lt_succ_self n)
      obtain ⟨⟨hd0', -⟩, hs0', -⟩ := hin 0 (Nat.succ_pos n)
      have hsize : dest.size.toInt = dest.size.toNat := toInt_of_lt harray.fitting.count_lt
      have hbytes := harray.fitting.bytes_lt
      rw [harray.size_eq] at hslt
      have hdn : (dest.index.toInt + n).toNat = dest.index.toInt.toNat + n := by omega
      have hsn : (src.index.toInt + n).toNat = src.index.toInt.toNat + n := by omega
      -- the two subscripts of the round
      have hdest := hd.returns (BitVec.ofNat 64 n)
      rw [hconv n (Nat.lt_succ_self n), element_moved_eq hd0, hdn] at hdest
      have hsrc := hs.returns (BitVec.ofNat 64 n)
      rw [hconv' n (Nat.lt_succ_self n), element_moved_eq hs0, harray.data_eq, harray.size_eq,
        hsn] at hsrc
      have hdcheck : BOUNDS_CHECK (dest.index + BitVec.ofNat 64 n) dest.size = true :=
        (forward_check_iff (by omega)).mpr ⟨hd0, hdlt⟩
      have hscheck : BOUNDS_CHECK (src.index + BitVec.ofNat 64 n) dest.size = true :=
        (forward_check_iff (by omega)).mpr ⟨hs0, hslt⟩
      rw [copyLoop, Prog.bind_of_ending hloop, Prog.bind_of_returns (hsrc _ hscheck),
        Prog.bind_of_returns (hdest _ hdcheck)]
      refine ⟨rfl, ?_, ?_⟩
      · intro l hl
        show (Memory.write _ _ _ _).cell _ _ l = _
        rw [Memory.cell_copy (Nat.le_of_lt hbytes) (by omega) hl]
        show Function.update _ _ _ l = Function.update _ _ _ l
        by_cases hln : l = dest.index.toInt.toNat + n
        · rw [hln, Function.update_self, Function.update_self]
          exact hcells _ (by omega)
        · rw [Function.update_of_ne hln, Function.update_of_ne hln]
          exact hcells l hl
      · intro a ha
        show Memory.write _ _ _ _ a = _
        rw [Memory.write_cell_outside hbytes (by omega) ha]
        exact hout a ha

/-- **The failing round**: the loop stops in the first round that has a subscript out of bounds,
after what the earlier rounds did. -/
theorem copyLoop_fails (hd : ElementOf sizeofT conv dest destE)
    (hs : ElementOf sizeofT conv' src srcE) (hi : i < 2 ^ 31)
    (hconv : conv (BitVec.ofNat 64 i) = BitVec.ofNat 64 i)
    (hconv' : conv' (BitVec.ofNat 64 i) = BitVec.ofNat 64 i) (hout : ¬InBoth dest src i)
    (hloop : (copyLoop sizeofT destE srcE i m).ending = .returns ()) (hlt : i < n) :
    copyLoop sizeofT destE srcE n m = ⟨.fails, (copyLoop sizeofT destE srcE i m).mem,
      (copyLoop sizeofT destE srcE i m).reads, (copyLoop sizeofT destE srcE i m).writes⟩ := by
  induction n with
  | zero => omega
  | succ n ih =>
      rcases Nat.lt_succ_iff_lt_or_eq.mp hlt with hlt | rfl
      · rw [copyLoop, Prog.bind_of_fails (ih hlt)]
      · have hdest := hd.fails (BitVec.ofNat 64 i)
        have hdest' := hd.returns (BitVec.ofNat 64 i)
        have hsrc := hs.fails (BitVec.ofNat 64 i)
        have hsrc' := hs.returns (BitVec.ofNat 64 i)
        rw [hconv] at hdest hdest'
        rw [hconv'] at hsrc hsrc'
        rw [copyLoop, Prog.bind_of_ending hloop]
        cases hcs : BOUNDS_CHECK (src.index + BitVec.ofNat 64 i) src.size with
        | false =>
            rw [Prog.bind_of_fails (hsrc _ hcs)]
            simp [Outcome.after]
        | true =>
            cases hcd : BOUNDS_CHECK (dest.index + BitVec.ofNat 64 i) dest.size with
            | false =>
                rw [Prog.bind_of_returns (hsrc' _ hcs), Prog.bind_of_fails (hdest _ hcd)]
                simp [Outcome.after]
            | true =>
                exact absurd ⟨(forward_check_iff (by omega)).mp hcd,
                  (forward_check_iff (by omega)).mp hcs⟩ hout

/-- What a round leaves in its element at the end, as the forward copy has it. -/
theorem copyLoop_value (hd : ElementOf sizeofT conv dest destE)
    (hs : ElementOf sizeofT conv' src srcE) (harray : OneArray sizeofT dest src) (hn : n ≤ 2 ^ 31)
    (hconv : ∀ i < n, conv (BitVec.ofNat 64 i) = BitVec.ofNat 64 i)
    (hconv' : ∀ i < n, conv' (BitVec.ofNat 64 i) = BitVec.ofNat 64 i)
    (hin : ∀ i < n, InBoth dest src i) (hi : i < n) :
    value (copyLoop sizeofT destE srcE n m).mem sizeofT dest.data (dest.index.toInt + i) =
      forwardCopy (m.cell dest.data sizeofT.toNat) dest.index.toInt.toNat src.index.toInt.toNat n
        (dest.index.toInt.toNat + i) := by
  obtain ⟨-, hcells, -⟩ := copyLoop_forward (m := m) hd hs harray hn hconv hconv' hin
  have hsize : dest.size.toInt = dest.size.toNat := toInt_of_lt harray.fitting.count_lt
  obtain ⟨⟨hd0, -⟩, -⟩ := hin 0 (by omega)
  obtain ⟨⟨hdi, hdlt⟩, -⟩ := hin i hi
  rw [value_eq_cell hdi, hcells _ (by omega),
    show (dest.index.toInt + i).toNat = dest.index.toInt.toNat + i by omega]

/-- What the loop does, put in terms of the elements. -/
theorem copiesForward_of (hd : ElementOf sizeofT conv dest destE)
    (hs : ElementOf sizeofT conv' src srcE) (harray : OneArray sizeofT dest src)
    (hconv : ∀ i < 2 ^ 31, conv (BitVec.ofNat 64 i) = BitVec.ofNat 64 i)
    (hconv' : ∀ i < 2 ^ 31, conv' (BitVec.ofNat 64 i) = BitVec.ofNat 64 i) {count : Word}
    (hcount : count.toNat ≤ 2 ^ 31) :
    CopiesForward sizeofT (fun c => copyLoop sizeofT destE srcE c.toNat) dest src count m := by
  have hsize : dest.size.toInt = dest.size.toNat := toInt_of_lt harray.fitting.count_lt
  have hrun := fun (n : Nat) (hn : n ≤ 2 ^ 31) (hin : ∀ i < n, InBoth dest src i) =>
    copyLoop_forward (m := m) hd hs harray hn (fun i hi => hconv i (by omega))
      (fun i hi => hconv' i (by omega)) hin
  have hvalue := fun (hin : ∀ i < count.toNat, InBoth dest src i) (i : Nat)
      (hi : i < count.toNat) =>
    copyLoop_value (m := m) hd hs harray hcount (fun j hj => hconv j (by omega))
      (fun j hj => hconv' j (by omega)) hin hi
  refine ⟨?_, ?_, ?_, ?_, ?_, ?_⟩
  · intro hin
    exact (hrun count.toNat hcount hin).1
  · intro hin hpos i hi
    obtain ⟨⟨hd0, -⟩, hs0, -⟩ := hin 0 (by omega)
    refine (hvalue hin i hi).trans ?_
    rw [value_eq_cell (by omega), forwardCopy_of_le (by omega) hi]
    congr 1
    omega
  · intro hin hlt hover i hi
    obtain ⟨⟨hd0, -⟩, hs0, -⟩ := hin 0 (by omega)
    refine (hvalue hin i hi).trans ?_
    have hmod := Int.emod_nonneg (i : Int)
      (show dest.index.toInt - src.index.toInt ≠ 0 by omega)
    rw [value_eq_cell (by omega), forwardCopy_of_lt (by omega) hi]
    -- the period as a number
    have hperiod : dest.index.toInt - src.index.toInt =
        (dest.index.toInt.toNat - src.index.toInt.toNat : Nat) := by omega
    congr 1
    rw [hperiod, ← Int.natCast_emod]
    omega
  · intro hin k hk hksize hout
    obtain ⟨-, hcells, -⟩ := hrun count.toNat hcount hin
    rw [value_eq_cell hk, value_eq_cell hk, hcells _ (by omega)]
    apply forwardCopy_outside
    rcases Nat.eq_zero_or_pos count.toNat with hzero | hpos
    · omega
    · have h0 := (hin 0 hpos).1.1
      omega
  · intro hin a ha
    exact (hrun count.toNat hcount hin).2.2 a ha
  · intro i hi hout hbefore
    have hnat : (BitVec.ofNat 64 i).toNat = i := Region.toNat_ofNat_of_lt (by omega)
    show (copyLoop sizeofT destE srcE (BitVec.ofNat 64 i).toNat m).ending = _ ∧
      copyLoop sizeofT destE srcE count.toNat m = _
    rw [hnat]
    have hloop := (hrun i (by omega) hbefore).1
    exact ⟨hloop, copyLoop_fails hd hs (by omega) (hconv i (by omega)) (hconv' i (by omega)) hout
      hloop hi⟩

end

/-- **Copying within one array**, by each of the three overloads of `copy<T>`. -/
theorem copy_forward (sizeofT : Word) {count : Word} (hcount : count.toNat ≤ 2 ^ 31)
    (m : Memory 64) :
    (∀ dest src : Aptr, OneArray sizeofT dest.place src.place →
      CopiesForward sizeofT (aptr_copy sizeofT dest src) dest.place src.place count m) ∧
    (∀ (dest : Aptr) (src : Laptr), OneArray sizeofT dest.place src.place →
      CopiesForward sizeofT (mixed_copy sizeofT dest src) dest.place src.place count m) ∧
    ∀ dest src : Laptr, OneArray sizeofT dest.place src.place →
      CopiesForward sizeofT (laptr_copy sizeofT dest src) dest.place src.place count m := by
  have hint : ∀ i < 2 ^ 31, asInt (BitVec.ofNat 64 i) = BitVec.ofNat 64 i :=
    fun i hi => asInt_of_lt hi
  have hunsigned : ∀ i < 2 ^ 31, asUnsigned (BitVec.ofNat 64 i) = BitVec.ofNat 64 i :=
    fun i hi => asUnsigned_of_lt (by omega)
  refine ⟨?_, ?_, ?_⟩
  · intro dest src harray
    have hsrc : src.data ≠ 0 := harray.src_ne
    exact copiesForward_of (aptr_elementOf harray.data_ne) (aptr_elementOf hsrc) harray hint hint
      hcount
  · intro dest src harray
    have hsrc : src.data ≠ 0 := harray.src_ne
    exact copiesForward_of (aptr_elementOf harray.data_ne) (laptr_elementOf hsrc) harray hint
      hunsigned hcount
  · intro dest src harray
    have hsrc : src.data ≠ 0 := harray.src_ne
    exact copiesForward_of (laptr_elementOf harray.data_ne) (laptr_elementOf hsrc) harray
      hunsigned hunsigned hcount

/-- Three of five `int`s copied one place up, in a memory that holds 7 everywhere. -/
theorem copy_forward_three :
    CopiesForward 4 (aptr_copy 4 ⟨0x1000, 1, 5⟩ ⟨0x1000, 0, 5⟩) ⟨0x1000, 1, 5⟩ ⟨0x1000, 0, 5⟩ 3
        (fun _ => 7) ∧
      CopiesForward 4 (mixed_copy 4 ⟨0x1000, 1, 5⟩ ⟨0x1000, 0, 5, 0⟩) ⟨0x1000, 1, 5⟩
        ⟨0x1000, 0, 5⟩ 3 (fun _ => 7) ∧
      CopiesForward 4 (laptr_copy 4 ⟨0x1000, 1, 5, 0⟩ ⟨0x1000, 0, 5, 0⟩) ⟨0x1000, 1, 5⟩
        ⟨0x1000, 0, 5⟩ 3 (fun _ => 7) := by
  have harray : OneArray 4 ⟨0x1000, 1, 5⟩ ⟨0x1000, 0, 5⟩ :=
    ⟨rfl, rfl, by decide, ⟨by decide, by decide, by decide⟩⟩
  have hcopies := copy_forward 4 (show (3 : Word).toNat ≤ 2 ^ 31 by decide) (fun _ => 7)
  exact ⟨hcopies.1 _ _ harray, hcopies.2.1 _ _ harray, hcopies.2.2 _ _ harray⟩

end Ironclad.Wrappers
