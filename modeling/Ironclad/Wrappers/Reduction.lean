import Ironclad.Wrappers.Elements
import Ironclad.Pointers.Narrowing

/-!
# The reduction over two arrays

`reduce2` goes through two arrays with raw pointers and asserts four checks first: both bounds of
the loop, for both arrays. The checks take a number of bytes, and `reduce2` passes the bound times
the size of another element type: `sizeof(T2)` for the `T1` array, `sizeof(T3)` for the `T2`
array. A bound below zero is a huge number of bytes. `reduce2_covered_iff` says for which arguments
the checks cover the loop nevertheless.
-/

namespace Ironclad.Wrappers

open Ironclad.Logic Ironclad.Pointers

/-! ## The loop -/

/-- Read `n` bytes. -/
def fetch (a : Word) (n : Nat) : Prog 64 (Fin n → BitVec 8) := fun m =>
  ⟨.returns fun j => m.byte a j, m, [⟨a, n⟩], []⟩

section

variable {T3 : Type} (sizeofT1 sizeofT2 : Word) (addAssign : T3 → T3 → T3)
  (f : (Fin sizeofT1.toNat → BitVec 8) → (Fin sizeofT2.toNat → BitVec 8) → T3)

/-- The last `n` rounds of `for(int i = start; i < end; ++i){ value += f(i1[i],i2[i]); }`. -/
def reduceLoop (i1 i2 : Word) : Nat → BitVec 32 → T3 → Prog 64 T3
  | 0, _, value => pure value
  | n + 1, i, value => do
      let x ← fetch (element sizeofT1 i1 (ofInt i)) sizeofT1.toNat
      let y ← fetch (element sizeofT2 i2 (ofInt i)) sizeofT2.toNat
      reduceLoop i1 i2 n (i + 1) (addAssign value (f x y))

/-- The number of rounds. -/
def roundCount (start stop : BitVec 32) : Nat := (stop.toInt - start.toInt).toNat

/-- `reduce2(input1, input2, start, end, init, f)`; `addAssign` is `+=` of `T3`. -/
def reduce2 (sizeofT3 : Word) (input1 input2 : Aptr) (start stop : BitVec 32) (init : T3) :
    Prog 64 T3 := do
  Prog.assert (input1.spatialCheck sizeofT1 (ofInt start * sizeofT2))
  Prog.assert (input1.spatialCheck sizeofT1 (ofInt stop * sizeofT2))
  Prog.assert (input2.spatialCheck sizeofT2 (ofInt start * sizeofT3))
  Prog.assert (input2.spatialCheck sizeofT2 (ofInt stop * sizeofT3))
  reduceLoop sizeofT1 sizeofT2 addAssign f (input1.convert_to_raw sizeofT1)
    (input2.convert_to_raw sizeofT2) (roundCount start stop) start init

/-! ## What it should do -/

/-- The integers `i, i + 1, …`, `n` of them. -/
def countersFrom (i : Int) : Nat → List Int
  | 0 => []
  | n + 1 => i :: countersFrom (i + 1) n

/-- The counters of the loop, from `start` up to `stop`. -/
def counters (start stop : BitVec 32) : List Int :=
  countersFrom start.toInt (roundCount start stop)

/-- The bytes of `p[i]`. -/
def elementAt (sizeofT : Word) (p : Aptr) (i : Int) : Region 64 :=
  ⟨element sizeofT p.data (p.index + BitVec.ofInt 64 i), sizeofT.toNat⟩

/-- If the assertions pass, the elements from `start` to `stop` of both arrays, which are what is
read, lie in the allocations, and the result is the sum over them. -/
structure ReducesInside (input1 input2 : Aptr) (start stop : BitVec 32) (init : T3)
    (m : Memory 64) (o : Outcome 64 T3) : Prop where
  inside : o.ending ≠ .fails → ∀ i : Int, start.toInt ≤ i → i < stop.toInt →
    elementAt sizeofT1 input1 i ⊆ input1.allocation sizeofT1 ∧
      elementAt sizeofT2 input2 i ⊆ input2.allocation sizeofT2
  reads : o.ending ≠ .fails → o.reads = (counters start stop).flatMap fun i =>
    [elementAt sizeofT1 input1 i, elementAt sizeofT2 input2 i]
  result : o.ending ≠ .fails →
    o.ending = .returns ((counters start stop).foldl (fun sum i => addAssign sum
      (f (value m sizeofT1 input1.data (input1.index.toInt + i))
        (value m sizeofT2 input2.data (input2.index.toInt + i)))) init)
  unchanged : o.mem = m ∧ o.writes = []

end

/-! ## When the checks cover the loop -/

/-- Where `spatialCheck` moves the index to for `n` elements of `unit` bytes. -/
def movedIndex (sizeofT unit index : Word) (n : BitVec 32) : Nat :=
  (index.toNat + (ofInt n * unit).toNat / sizeofT.toNat) % 2 ^ 64

/-- One of the two checks refuses: it moves the index behind the size, or below zero. -/
def ChecksRefuse (sizeofT unit : Word) (p : Aptr) (start stop : BitVec 32) : Prop :=
  min p.size.toNat (2 ^ 63 - 1) < movedIndex sizeofT unit p.index start ∨
    min p.size.toNat (2 ^ 63 - 1) < movedIndex sizeofT unit p.index stop

/-- The elements from `start` to `stop` end inside the array. The offset of the first is a
`size_t`. -/
def RangeInArray (sizeofT : Word) (p : Aptr) (start stop : BitVec 32) : Prop :=
  p.data ≠ 0 ∧ ((p.index + ofInt start) * sizeofT).toNat +
    roundCount start stop * sizeofT.toNat ≤ p.size.toNat * sizeofT.toNat

/-- The loop has no round, a check refuses, or both ranges are in their arrays. -/
def ReduceFits (sizeofT1 sizeofT2 sizeofT3 : Word) (input1 input2 : Aptr)
    (start stop : BitVec 32) : Prop :=
  stop.toInt ≤ start.toInt ∨
    ChecksRefuse sizeofT1 sizeofT2 input1 start stop ∨
    ChecksRefuse sizeofT2 sizeofT3 input2 start stop ∨
    (RangeInArray sizeofT1 input1 start stop ∧ RangeInArray sizeofT2 input2 start stop)

instance (sizeofT1 sizeofT2 sizeofT3 : Word) (input1 input2 : Aptr) (start stop : BitVec 32) :
    Decidable (ReduceFits sizeofT1 sizeofT2 sizeofT3 input1 input2 start stop) := by
  unfold ReduceFits ChecksRefuse RangeInArray
  infer_instance

/-! ## The rounds -/

section

variable {T3 : Type} {sizeofT1 sizeofT2 : Word} {addAssign : T3 → T3 → T3}
  {f : (Fin sizeofT1.toNat → BitVec 8) → (Fin sizeofT2.toNat → BitVec 8) → T3}

theorem ofInt_eq (i : BitVec 32) : ofInt i = BitVec.ofInt 64 i.toInt := rfl

/-- The next `int`, below the greatest. -/
theorem toInt_succ {i : BitVec 32} (h : i.toInt + 1 < 2 ^ 31) : (i + 1).toInt = i.toInt + 1 := by
  have hlo := BitVec.le_toInt i
  have hone : (1 : BitVec 32).toInt = 1 := rfl
  rw [BitVec.toInt_add, hone, Int.bmod_eq_of_le (by omega) (by omega)]

/-- **The loop**, by induction on the rounds that are left. The memory stays, so every element is
read as it was at the start. -/
theorem reduceLoop_run (i1 i2 : Word) (m : Memory 64) (n : Nat) (i : BitVec 32) (init : T3)
    (h : i.toInt + n < 2 ^ 31) :
    reduceLoop sizeofT1 sizeofT2 addAssign f i1 i2 n i init m =
      ⟨.returns ((countersFrom i.toInt n).foldl (fun sum k => addAssign sum
        (f (value m sizeofT1 i1 k) (value m sizeofT2 i2 k))) init), m,
        (countersFrom i.toInt n).flatMap fun k =>
          [⟨element sizeofT1 i1 (BitVec.ofInt 64 k), sizeofT1.toNat⟩,
            ⟨element sizeofT2 i2 (BitVec.ofInt 64 k), sizeofT2.toNat⟩], []⟩ := by
  induction n generalizing i init with
  | zero => rfl
  | succ n ih =>
      push_cast at h
      have hnext := toInt_succ (i := i) (by omega)
      have hrest := fun sum => ih (i + 1) sum (by omega)
      show ((reduceLoop sizeofT1 sizeofT2 addAssign f i1 i2 n (i + 1) _ m).after _ []).after _ [] =
        _
      rw [hrest, countersFrom, ← hnext]
      rfl

/-- The elements of a pointer, seen from the raw pointer. -/
theorem element_convert_to_raw (sizeofT : Word) (p : Aptr) (k : Int) :
    element sizeofT (p.convert_to_raw sizeofT) (BitVec.ofInt 64 k) =
      element sizeofT p.data (p.index + BitVec.ofInt 64 k) := by
  unfold Aptr.convert_to_raw element
  rw [add_assoc, ← BitVec.add_mul]

theorem value_convert_to_raw (m : Memory 64) (sizeofT : Word) (p : Aptr) (k : Int) :
    value m sizeofT (p.convert_to_raw sizeofT) k =
      value m sizeofT p.data (p.index.toInt + k) := by
  unfold value
  rw [element_convert_to_raw, BitVec.ofInt_add, BitVec.ofInt_toInt]

end

/-! ## The checks -/

theorem spatialCheck_iff_movedIndex {sizeofT unit : Word} {p : Aptr} {n : BitVec 32} :
    p.spatialCheck sizeofT (ofInt n * unit) = true ↔
      movedIndex sizeofT unit p.index n ≤ min p.size.toNat (2 ^ 63 - 1) := by
  have hmoved := moved_toNat sizeofT p.index (ofInt n * unit)
  rw [spatialCheck_eq_true, InReach, movedIndex, ← wholeElements, ← hmoved, le_min_iff]
  rw [BitVec.toInt_eq_toNat_cond]
  have hlt := (p.index + ofInt n * unit / sizeofT).isLt
  split <;> omega

theorem checksRefuse_iff {sizeofT unit : Word} {p : Aptr} {start stop : BitVec 32} :
    ChecksRefuse sizeofT unit p start stop ↔
      p.spatialCheck sizeofT (ofInt start * unit) = false ∨
        p.spatialCheck sizeofT (ofInt stop * unit) = false := by
  rw [← Bool.not_eq_true, ← Bool.not_eq_true, spatialCheck_iff_movedIndex,
    spatialCheck_iff_movedIndex, ChecksRefuse, not_le, not_le]

/-! ## The range -/

/-- The offset of an element, `j` elements behind `start`. -/
theorem offset_toNat_add (sizeofT : Word) (p : Aptr) (start : BitVec 32) (j : Nat) :
    ((elementAt sizeofT p (start.toInt + j)).start - p.data).toNat =
      (((p.index + ofInt start) * sizeofT).toNat + j * sizeofT.toNat) % 2 ^ 64 := by
  have hindex : p.index + BitVec.ofInt 64 (start.toInt + j) =
      p.index + ofInt start + BitVec.ofNat 64 j := by
    rw [BitVec.ofInt_add, ← ofInt_eq, BitVec.ofInt_natCast, add_assoc]
  show (element sizeofT p.data (p.index + BitVec.ofInt 64 (start.toInt + j)) - p.data).toNat = _
  rw [element_sub_data, hindex, BitVec.add_mul, BitVec.toNat_add, BitVec.toNat_mul _ sizeofT,
    BitVec.toNat_mul _ sizeofT, BitVec.toNat_ofNat, Nat.mod_mul_mod, Nat.add_mod_mod]

/-- One element lies in the array iff it ends there. -/
theorem elementAt_subset_iff {sizeofT : Word} {p : Aptr} (hfit : Fitting sizeofT p.size)
    (hdata : p.data ≠ 0) (k : Int) :
    elementAt sizeofT p k ⊆ p.allocation sizeofT ↔
      ((elementAt sizeofT p k).start - p.data).toNat + sizeofT.toNat ≤
        p.size.toNat * sizeofT.toNat := by
  unfold Aptr.allocation block
  rw [if_neg hdata, Region.subset_iff hfit.bytes_lt]
  exact or_iff_right (Nat.ne_of_gt hfit.sizeof_pos)

/-- Nothing that has bytes lies in the allocation of a null pointer. -/
theorem not_elementAt_subset_null {sizeofT : Word} {p : Aptr} (hT : sizeofT ≠ 0)
    (hdata : p.data = 0) (k : Int) : ¬elementAt sizeofT p k ⊆ p.allocation sizeofT := by
  unfold Aptr.allocation block
  rw [if_pos hdata, Region.subset_iff (Nat.two_pow_pos 64)]
  have hpos := toNat_pos hT
  intro h
  rcases h with h | h
  · exact absurd h (Nat.ne_of_gt hpos)
  · change _ + sizeofT.toNat ≤ 0 at h
    omega

/-- **A range of elements lies in the array** iff its first byte and its length say so: inside the
array nothing wraps, so the offsets of the elements follow from the first. -/
theorem range_inside_iff {sizeofT : Word} {p : Aptr} {start stop : BitVec 32}
    (hT : sizeofT ≠ 0) (hfit : p.data ≠ 0 → Fitting sizeofT p.size)
    (hlt : start.toInt < stop.toInt) :
    (∀ i : Int, start.toInt ≤ i → i < stop.toInt →
        elementAt sizeofT p i ⊆ p.allocation sizeofT) ↔ RangeInArray sizeofT p start stop := by
  by_cases hdata : p.data = 0
  · apply iff_of_false
    · intro h
      exact not_elementAt_subset_null hT hdata _ (h start.toInt le_rfl hlt)
    · intro h
      exact h.1 hdata
  · have hfit := hfit hdata
    have hbytes := hfit.bytes_lt
    have hpos := hfit.sizeof_pos
    have hoff := fun j => offset_toNat_add sizeofT p start j
    unfold RangeInArray
    rw [and_iff_right hdata]
    obtain ⟨n, hn⟩ : ∃ n, roundCount start stop = n + 1 := by
      refine ⟨roundCount start stop - 1, ?_⟩
      unfold roundCount
      omega
    have hstop : stop.toInt = start.toInt + n + 1 := by
      unfold roundCount at hn
      omega
    have ho := ((p.index + ofInt start) * sizeofT).isLt
    -- the elements of the range, by their place behind `start`
    have hplace : (∀ i : Int, start.toInt ≤ i → i < stop.toInt →
        elementAt sizeofT p i ⊆ p.allocation sizeofT) ↔
        ∀ j ≤ n, (((p.index + ofInt start) * sizeofT).toNat + j * sizeofT.toNat) % 2 ^ 64 +
          sizeofT.toNat ≤ p.size.toNat * sizeofT.toNat := by
      constructor
      · intro h j hj
        rw [← offset_toNat_add, ← elementAt_subset_iff hfit hdata]
        exact h _ (by omega) (by omega)
      · intro h i hi hi'
        obtain ⟨j, rfl⟩ := Int.le.dest hi
        rw [elementAt_subset_iff hfit hdata, offset_toNat_add]
        exact h j (by omega)
    rw [hplace, hn]
    generalize ((p.index + ofInt start) * sizeofT).toNat = o at ho ⊢
    constructor
    · intro h
      have hall : ∀ j ≤ n, o + (j + 1) * sizeofT.toNat ≤ p.size.toNat * sizeofT.toNat := by
        intro j hj
        have hin := h j hj
        induction j with
        | zero =>
            rw [Nat.zero_mul, Nat.add_zero, Nat.mod_eq_of_lt ho] at hin
            omega
        | succ j ih =>
            have hprev := ih (by omega) (h j (by omega))
            rw [Nat.mod_eq_of_lt (by omega)] at hin
            rw [Nat.add_mul _ 1]
            omega
      exact hall n le_rfl
    · intro h j hj
      have hle : (j + 1) * sizeofT.toNat ≤ (n + 1) * sizeofT.toNat :=
        Nat.mul_le_mul_right _ (by omega)
      rw [Nat.add_mul, Nat.one_mul] at hle
      rw [Nat.mod_eq_of_lt (by omega)]
      omega

/-! ## The reduction -/

section

variable {T3 : Type} {sizeofT1 sizeofT2 sizeofT3 : Word} {addAssign : T3 → T3 → T3}
  {f : (Fin sizeofT1.toNat → BitVec 8) → (Fin sizeofT2.toNat → BitVec 8) → T3}
  {input1 input2 : Aptr} {start stop : BitVec 32} {init : T3} {m : Memory 64}

/-- A call that passes its assertions reads the elements and adds them up. -/
theorem reduce2_of_passes
    (hpass : ¬ChecksRefuse sizeofT1 sizeofT2 input1 start stop ∧
      ¬ChecksRefuse sizeofT2 sizeofT3 input2 start stop) :
    reduce2 sizeofT1 sizeofT2 addAssign f sizeofT3 input1 input2 start stop init m =
      ⟨.returns ((counters start stop).foldl (fun sum i => addAssign sum
        (f (value m sizeofT1 input1.data (input1.index.toInt + i))
          (value m sizeofT2 input2.data (input2.index.toInt + i)))) init), m,
        (counters start stop).flatMap fun i =>
          [elementAt sizeofT1 input1 i, elementAt sizeofT2 input2 i], []⟩ := by
  rw [checksRefuse_iff, checksRefuse_iff, not_or, not_or, Bool.not_eq_false, Bool.not_eq_false,
    Bool.not_eq_false, Bool.not_eq_false] at hpass
  have hrounds : start.toInt + roundCount start stop < 2 ^ 31 := by
    have h1 := BitVec.toInt_lt (x := start)
    have h2 := BitVec.toInt_lt (x := stop)
    unfold roundCount
    omega
  rw [reduce2, Prog.assert_true_bind hpass.1.1, Prog.assert_true_bind hpass.1.2,
    Prog.assert_true_bind hpass.2.1, Prog.assert_true_bind hpass.2.2, reduceLoop_run _ _ _ _ _ _
      hrounds]
  simp only [value_convert_to_raw, element_convert_to_raw]
  rfl

theorem reduce2_of_refuse
    (h : ChecksRefuse sizeofT1 sizeofT2 input1 start stop ∨
      ChecksRefuse sizeofT2 sizeofT3 input2 start stop) :
    reduce2 sizeofT1 sizeofT2 addAssign f sizeofT3 input1 input2 start stop init m =
      ⟨.fails, m, [], []⟩ := by
  rw [checksRefuse_iff, checksRefuse_iff] at h
  unfold reduce2
  -- the first check that refuses ends the call
  cases h1 : input1.spatialCheck sizeofT1 (ofInt start * sizeofT2) with
  | false => exact Prog.assert_false_bind rfl
  | true =>
      rw [Prog.assert_true_bind rfl]
      cases h2 : input1.spatialCheck sizeofT1 (ofInt stop * sizeofT2) with
      | false => exact Prog.assert_false_bind rfl
      | true =>
          rw [Prog.assert_true_bind rfl]
          cases h3 : input2.spatialCheck sizeofT2 (ofInt start * sizeofT3) with
          | false => exact Prog.assert_false_bind rfl
          | true =>
              rw [Prog.assert_true_bind rfl]
              cases h4 : input2.spatialCheck sizeofT2 (ofInt stop * sizeofT3) with
              | false => exact Prog.assert_false_bind rfl
              | true =>
                  rw [h1, h2, h3, h4] at h
                  simp at h

/-- **One call**: what passes is the sum, and its reads are inside exactly if the ranges are. -/
theorem reducesInside_iff (hT1 : sizeofT1 ≠ 0) (hT2 : sizeofT2 ≠ 0)
    (hfit1 : input1.data ≠ 0 → Fitting sizeofT1 input1.size)
    (hfit2 : input2.data ≠ 0 → Fitting sizeofT2 input2.size) :
    ReducesInside sizeofT1 sizeofT2 addAssign f input1 input2 start stop init m
        (reduce2 sizeofT1 sizeofT2 addAssign f sizeofT3 input1 input2 start stop init m) ↔
      ReduceFits sizeofT1 sizeofT2 sizeofT3 input1 input2 start stop := by
  unfold ReduceFits
  by_cases hrefuse : ChecksRefuse sizeofT1 sizeofT2 input1 start stop ∨
      ChecksRefuse sizeofT2 sizeofT3 input2 start stop
  · rw [reduce2_of_refuse hrefuse]
    apply iff_of_true
    · exact ⟨fun h => absurd rfl h, fun h => absurd rfl h, fun h => absurd rfl h, rfl, rfl⟩
    · rcases hrefuse with h | h
      · exact .inr (.inl h)
      · exact .inr (.inr (.inl h))
  · obtain ⟨h1, h2⟩ := not_or.mp hrefuse
    rw [reduce2_of_passes ⟨h1, h2⟩, or_iff_right h1, or_iff_right h2]
    rcases lt_or_ge start.toInt stop.toInt with hlt | hge
    · rw [or_iff_right (by omega), ← range_inside_iff hT1 hfit1 hlt,
        ← range_inside_iff hT2 hfit2 hlt]
      constructor
      · intro h
        have hin := h.inside nofun
        exact ⟨fun i hi hi' => (hin i hi hi').1, fun i hi hi' => (hin i hi hi').2⟩
      · intro h
        refine ⟨?_, fun _ => rfl, fun _ => rfl, rfl, rfl⟩
        exact fun _ i hi hi' => ⟨h.1 i hi hi', h.2 i hi hi'⟩
    · apply iff_of_true
      · refine ⟨?_, fun _ => rfl, fun _ => rfl, rfl, rfl⟩
        intro _ i hi hi'
        omega
      · exact .inl hge

end

/-- **When the checks of `reduce2` cover its loop**: in every state that a run reaches, for every
two array pointers, all element types and all loop bounds. -/
theorem reduce2_covered_iff (acts : List NarrowOp) : narrowMachine.Visits acts fun s =>
    ∀ v ∈ s.aptrs, ∀ w ∈ s.aptrs, v.ty.sizeof ≠ 0 → w.ty.sizeof ≠ 0 →
    ∀ (T3 : Type) (sizeofT3 : Word) (addAssign : T3 → T3 → T3)
      (f : (Fin v.ty.sizeof.toNat → BitVec 8) → (Fin w.ty.sizeof.toNat → BitVec 8) → T3)
      (start stop : BitVec 32) (init : T3) (m : Memory 64),
      ReducesInside v.ty.sizeof w.ty.sizeof addAssign f v.ptr w.ptr start stop init m
          (reduce2 v.ty.sizeof w.ty.sizeof addAssign f sizeofT3 v.ptr w.ptr start stop init m) ↔
        ReduceFits v.ty.sizeof w.ty.sizeof sizeofT3 v.ptr w.ptr start stop := by
  refine (narrowMachine_grounded acts).mono ?_
  intro s ⟨haptrs, _⟩ v hv w hw hsize hsize' T3 sizeofT3 addAssign f start stop init m
  exact reducesInside_iff hsize hsize' (fun hdata => (haptrs v hv).fitting hdata hsize)
    (fun hdata => (haptrs w hw).fitting hdata hsize')

/-- With one element size a check moves the index by the bound itself. -/
theorem movedIndex_of_same_size {sizeofT index : Word} {n : BitVec 32} (hT : sizeofT ≠ 0)
    (hindex : 0 ≤ index.toInt) (hn : 0 ≤ n.toInt) (hsmall : sizeofT.toNat < 2 ^ 32) :
    movedIndex sizeofT sizeofT index n = index.toNat + n.toInt.toNat := by
  have hpos := toNat_pos hT
  have hindex' := toNat_lt_of_toInt hindex
  have hword := ofInt_toNat hn
  have hlt := BitVec.toInt_lt (x := n)
  have hmul : (ofInt n).toNat * sizeofT.toNat < 2 ^ 31 * 2 ^ 32 :=
    Nat.mul_lt_mul'' (by omega) hsmall
  have hdiv : (ofInt n * sizeofT).toNat / sizeofT.toNat = (ofInt n).toNat := by
    rw [BitVec.toNat_mul, Nat.mod_eq_of_lt (by omega), Nat.mul_div_cancel _ hpos]
  unfold movedIndex
  rw [hdiv, Nat.mod_eq_of_lt (by omega)]
  omega

theorem rangeInArray_of_same_size {sizeofT : Word} {p : Aptr} {start stop : BitVec 32}
    (hdata : p.data ≠ 0) (hfit : Fitting sizeofT p.size) (hindex : 0 ≤ p.index.toInt)
    (hstart : 0 ≤ start.toInt) (hlt : start.toInt < stop.toInt) (hsmall : sizeofT.toNat < 2 ^ 32)
    (hpass : ¬ChecksRefuse sizeofT sizeofT p start stop) : RangeInArray sizeofT p start stop := by
  have hT := hfit.sizeof_ne_zero
  have hbytes := hfit.bytes_lt
  obtain ⟨-, hend⟩ := not_or.mp hpass
  rw [movedIndex_of_same_size hT hindex (by omega) hsmall] at hend
  have hword := ofInt_toNat hstart
  have hindex' := toNat_lt_of_toInt hindex
  have hlt' := BitVec.toInt_lt (x := stop)
  -- the last element ends in the array, so the first one starts in it
  have hstop : p.index.toNat + stop.toInt.toNat ≤ p.size.toNat := by omega
  have hle : (p.index.toNat + stop.toInt.toNat) * sizeofT.toNat ≤
      p.size.toNat * sizeofT.toNat := Nat.mul_le_mul_right _ hstop
  have hsplit : p.index.toNat + stop.toInt.toNat =
      p.index.toNat + (ofInt start).toNat + roundCount start stop := by
    unfold roundCount
    omega
  rw [hsplit, Nat.add_mul] at hle
  refine ⟨hdata, ?_⟩
  have hsum : (p.index + ofInt start).toNat = p.index.toNat + (ofInt start).toNat := by
    rw [BitVec.toNat_add]
    exact Nat.mod_eq_of_lt (by omega)
  rw [BitVec.toNat_mul, hsum, Nat.mod_eq_of_lt (by omega)]
  exact hle

/-- Checked and read with one element size, and with nothing negative, the loop is covered. -/
theorem reduceFits_of_same_size {sizeofT : Word} {input1 input2 : Aptr} {start stop : BitVec 32}
    (hdata1 : input1.data ≠ 0) (hdata2 : input2.data ≠ 0)
    (hfit1 : Fitting sizeofT input1.size) (hfit2 : Fitting sizeofT input2.size)
    (hindex1 : 0 ≤ input1.index.toInt) (hindex2 : 0 ≤ input2.index.toInt)
    (hstart : 0 ≤ start.toInt) (hsmall : sizeofT.toNat < 2 ^ 32) :
    ReduceFits sizeofT sizeofT sizeofT input1 input2 start stop := by
  rcases lt_or_ge start.toInt stop.toInt with hlt | hge
  · by_cases h1 : ChecksRefuse sizeofT sizeofT input1 start stop
    · exact .inr (.inl h1)
    by_cases h2 : ChecksRefuse sizeofT sizeofT input2 start stop
    · exact .inr (.inr (.inl h2))
    exact .inr (.inr (.inr ⟨
      rangeInArray_of_same_size hdata1 hfit1 hindex1 hstart hlt hsmall h1,
      rangeInArray_of_same_size hdata2 hfit2 hindex2 hstart hlt hsmall h2⟩))
  · exact .inl hge

/-- Two `int`s and eight `char`s: the bound 8 of the `int` array is checked as 8 `char`s. -/
theorem reduce2_overruns :
    ¬∀ acts, narrowMachine.Visits acts fun s =>
    ∀ v ∈ s.aptrs, ∀ w ∈ s.aptrs, v.ty.sizeof ≠ 0 → w.ty.sizeof ≠ 0 →
    ∀ (T3 : Type) (sizeofT3 : Word) (addAssign : T3 → T3 → T3)
      (f : (Fin v.ty.sizeof.toNat → BitVec 8) → (Fin w.ty.sizeof.toNat → BitVec 8) → T3)
      (start stop : BitVec 32) (init : T3) (m : Memory 64),
      ReducesInside v.ty.sizeof w.ty.sizeof addAssign f v.ptr w.ptr start stop init m
        (reduce2 v.ty.sizeof w.ty.sizeof addAssign f sizeofT3 v.ptr w.ptr start stop init m) := by
  intro h
  have hf := h [.array (.newArray ⟨.prim .int, 0x1000, 2, by decide, by decide, by decide⟩),
      .array (.newArray ⟨.prim .char, 0x2000, 8, by decide, by decide, by decide⟩)] _
    (List.prefix_refl _) _ rfl ⟨.prim .int, ⟨0x1000, 0, 2⟩⟩ (by decide)
    ⟨.prim .char, ⟨0x2000, 0, 8⟩⟩ (by decide) (by decide) (by decide) Unit 1 (fun _ _ => ())
    (fun _ _ => ()) 0 8 () (fun _ => 0)
  have hint : Fitting 4 2 := ⟨by decide, by decide, by decide⟩
  have hchar : Fitting 1 8 := ⟨by decide, by decide, by decide⟩
  have hfits := (reducesInside_iff (by decide) (by decide) (fun _ => hint) fun _ => hchar).mp hf
  exact absurd hfits (by decide)

end Ironclad.Wrappers
