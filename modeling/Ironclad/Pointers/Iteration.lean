import Ironclad.Pointers.Displacement
import Ironclad.Pointers.SpatialSafety

/-!
# Iterating over an array pointer

`begin()` and `end()` are the raw pointers `data + index` and `data + size`, and neither looks at
the other. The loop from one to the other stops on equality only. It goes over the elements from
the index on when the index is in `[0, size]`; from any other index it has to meet the address
where it should start or stop by wrapping around (`iteration_safe_iff`).
-/

namespace Ironclad.Pointers

open Ironclad.Logic

/-- `for (T * it = …; it != stop; ++it)` over at most `fuel` elements: the addresses that `*it`
has, `none` when the loop is not at `stop` after as many. -/
def iterate (sizeofT stop : Word) : Nat → Word → Option (List Word)
  | 0, it => if it = stop then some [] else none
  | fuel + 1, it =>
      if it = stop then some []
      else (iterate sizeofT stop fuel (it + sizeofT)).map fun l => it :: l

namespace Aptr

/-- `begin()`. -/
def begin (sizeofT : Word) (p : Aptr) : Word := element sizeofT p.data p.index

/-- `end()`. -/
def «end» (sizeofT : Word) (p : Aptr) : Word := element sizeofT p.data p.size

/-- The addresses of the elements `k` with `max(index, 0) <= k < size`, in order. -/
def remaining (sizeofT : Word) (p : Aptr) : List Word :=
  (List.range' p.index.toInt.toNat (p.size.toNat - p.index.toInt.toNat)).map fun k =>
    element sizeofT p.data (BitVec.ofNat 64 k)

/-- The range-based loop visits exactly the remaining elements, in at most `size` steps, and all
it touches lies in the allocation. -/
structure IterationSafe (sizeofT : Word) (p : Aptr) : Prop where
  visits : iterate sizeofT (p.end sizeofT) p.size.toNat (p.begin sizeofT) =
    some (p.remaining sizeofT)
  inside : ∀ a ∈ p.remaining sizeofT, (⟨a, sizeofT.toNat⟩ : Region 64) ⊆
    ⟨p.data, p.size.toNat * sizeofT.toNat⟩

/-- The index is in `[0, size]`; or it is negative and `begin()` is the first element all the
same; or it is behind the end and `begin()` is `end()` all the same. -/
def StartsInside (sizeofT : Word) (p : Aptr) : Prop :=
  (0 ≤ p.index.toInt ∧ p.index.toInt ≤ p.size.toInt) ∨
    (p.index.toInt < 0 ∧ p.index * sizeofT = 0) ∨
    (p.size.toInt < p.index.toInt ∧ p.index * sizeofT = p.size * sizeofT)

end Aptr

/-! ## The loop -/

section

variable {sizeofT stop it a : Word} {fuel : Nat} {l : List Word}

/-- A loop that is at its end visits nothing. -/
theorem iterate_eq_nil_iff : iterate sizeofT stop fuel it = some [] ↔ it = stop := by
  cases fuel with
  | zero =>
      rw [iterate, Option.ite_none_right_eq_some]
      exact and_iff_left rfl
  | succ fuel =>
      rw [iterate]
      split
      · rename_i h
        exact iff_of_true rfl h
      · rename_i h
        refine iff_of_false ?_ h
        intro hc
        obtain ⟨l, -, hl⟩ := Option.map_eq_some_iff.mp hc
        cases hl

/-- What it visits first is where it starts. -/
theorem eq_of_iterate_eq_cons (h : iterate sizeofT stop fuel it = some (a :: l)) : it = a := by
  cases fuel with
  | zero =>
      rw [iterate, Option.ite_none_right_eq_some] at h
      cases h.2
  | succ fuel =>
      rw [iterate] at h
      split at h
      · cases h
      · obtain ⟨l', -, hl⟩ := Option.map_eq_some_iff.mp h
        exact (List.cons.inj hl).1

variable {data size : Word}

theorem element_succ (sizeofT data : Word) (k : Nat) :
    element sizeofT data (BitVec.ofNat 64 (k + 1)) =
      element sizeofT data (BitVec.ofNat 64 k) + sizeofT := by
  unfold element
  rw [BitVec.ofNat_add, add_mul, add_assoc, show BitVec.ofNat 64 1 = (1 : Word) from rfl, one_mul]

/-- No element of the array is at the address behind it. -/
theorem Fitting.ofNat_ne_end (h : Fitting sizeofT size) {k : Nat} (hk : k < size.toNat) :
    element sizeofT data (BitVec.ofNat 64 k) ≠ element sizeofT data size := by
  have hsize := h.count_lt
  have hk64 : (BitVec.ofNat 64 k).toNat = k := Region.toNat_ofNat_of_lt (by omega)
  intro heq
  have hindex := h.element_inj (by omega) (Nat.le_refl _) heq
  rw [← hindex] at hk
  omega

/-- **The loop from an element of the array goes over the elements from there to the end**, with
fuel to spare or not. -/
theorem Fitting.iterate_element (h : Fitting sizeofT size) (n k : Nat) (hk : k + n = size.toNat)
    (hfuel : n ≤ fuel) :
    iterate sizeofT (element sizeofT data size) fuel (element sizeofT data (BitVec.ofNat 64 k)) =
      some ((List.range' k n).map fun j => element sizeofT data (BitVec.ofNat 64 j)) := by
  induction n generalizing k fuel with
  | zero =>
      have hsize : BitVec.ofNat 64 k = size := by
        rw [show k = size.toNat by omega, BitVec.ofNat_toNat, BitVec.setWidth_eq]
      rw [hsize]
      exact iterate_eq_nil_iff.mpr rfl
  | succ n ih =>
      obtain ⟨fuel, rfl⟩ : ∃ f, fuel = f + 1 := ⟨fuel - 1, by omega⟩
      rw [iterate, if_neg (h.ofNat_ne_end (by omega)), ← element_succ,
        ih (k + 1) (by omega) (by omega)]
      rfl

/-! ## One pointer -/

/-- A loop over the elements from the index on starts inside. -/
theorem startsInside_of_visits {p : Aptr}
    (hv : iterate sizeofT (p.end sizeofT) p.size.toNat (p.begin sizeofT) =
      some (p.remaining sizeofT)) (hcount : p.size.toInt = p.size.toNat) :
    p.StartsInside sizeofT := by
  have hbegin : p.begin sizeofT = p.data + p.index * sizeofT := rfl
  have hend : p.end sizeofT = p.data + p.size * sizeofT := rfl
  unfold Aptr.remaining at hv
  rcases Int.lt_or_le p.index.toInt 0 with hneg | hnonneg
  · -- a negative index: the loop visits the whole array
    refine .inr (.inl ⟨hneg, ?_⟩)
    rw [show p.index.toInt.toNat = 0 by omega] at hv
    cases hn : p.size.toNat with
    | zero =>
        rw [hn] at hv
        have heq : p.begin sizeofT = p.end sizeofT := iterate_eq_nil_iff.mp hv
        have hsize : p.size = 0 := BitVec.eq_of_toNat_eq hn
        rw [hbegin, hend, hsize, zero_mul] at heq
        exact add_left_cancel heq
    | succ n =>
        rw [hn] at hv
        have heq : p.begin sizeofT = p.data + 0 * sizeofT := eq_of_iterate_eq_cons hv
        rw [hbegin, zero_mul] at heq
        exact add_left_cancel heq
  · rcases Int.lt_or_le p.size.toInt p.index.toInt with hgt | hle
    · -- an index behind the end: the loop visits nothing
      refine .inr (.inr ⟨hgt, ?_⟩)
      rw [show p.size.toNat - p.index.toInt.toNat = 0 by omega] at hv
      exact add_left_cancel (iterate_eq_nil_iff.mp hv)
    · exact .inl ⟨hnonneg, hle⟩

/-- And a loop that starts inside goes over the elements from the index on. -/
theorem Fitting.visits_of_startsInside {p : Aptr} (h : Fitting sizeofT p.size)
    (hs : p.StartsInside sizeofT) :
    iterate sizeofT (p.end sizeofT) p.size.toNat (p.begin sizeofT) =
      some (p.remaining sizeofT) := by
  have hcount := toInt_of_lt h.count_lt
  have hbegin : p.begin sizeofT = p.data + p.index * sizeofT := rfl
  have hend : p.end sizeofT = p.data + p.size * sizeofT := rfl
  rcases hs with ⟨hnonneg, hle⟩ | ⟨hneg, hzero⟩ | ⟨hgt, heq⟩
  · have hidx := toInt_eq_toNat hnonneg
    have hstart : p.begin sizeofT =
        element sizeofT p.data (BitVec.ofNat 64 p.index.toInt.toNat) := by
      rw [hidx, Int.toNat_natCast, BitVec.ofNat_toNat, BitVec.setWidth_eq]
      rfl
    rw [hstart]
    exact h.iterate_element _ _ (by omega) (by omega)
  · have hstart : p.begin sizeofT = element sizeofT p.data (BitVec.ofNat 64 0) := by
      rw [hbegin, hzero, add_zero]
      exact (element_zero sizeofT p.data).symm
    unfold Aptr.remaining
    rw [hstart, show p.index.toInt.toNat = 0 by omega]
    exact h.iterate_element _ _ (by omega) (by omega)
  · unfold Aptr.remaining
    rw [show p.size.toNat - p.index.toInt.toNat = 0 by omega]
    exact iterate_eq_nil_iff.mpr (by rw [hbegin, hend, heq])

/-- **When the iteration over an array is safe.** -/
theorem Fitting.iterationSafe_iff {p : Aptr} (h : Fitting sizeofT p.size) :
    p.IterationSafe sizeofT ↔ p.StartsInside sizeofT := by
  have hcount := toInt_of_lt h.count_lt
  constructor
  · intro hs
    exact startsInside_of_visits hs.visits hcount
  · intro hs
    refine ⟨h.visits_of_startsInside hs, ?_⟩
    intro a ha
    obtain ⟨k, hk, rfl⟩ := List.mem_map.mp ha
    obtain ⟨hge, hlt⟩ := List.mem_range'_1.mp hk
    exact h.inside p.data (by omega)

end

/-! ## Whole runs -/

/-- **When range-based iteration is safe**: after any run the loop over a pointer visits exactly
the elements from its index on iff the pointer starts inside. -/
theorem iteration_safe_iff (acts : List ArrayOp) :
    arrayMachine.Visits acts fun s => ∀ v ∈ s.aptrs, v.ty.sizeof ≠ 0 →
      (v.ptr.IterationSafe v.ty.sizeof ↔ v.ptr.StartsInside v.ty.sizeof) := by
  have hbacked : arrayMachine.Visits acts Backed := by
    refine Machine.visits_of_invariant Backed ?_ (fun _ _ _ hs h => arrayStep_backed h hs) acts
    exact ⟨fun _ hv => absurd hv List.not_mem_nil, fun _ hv => absurd hv List.not_mem_nil⟩
  refine hbacked.mono ?_
  intro s hs v hv hsize
  exact Fitting.iterationSafe_iff ((hs.aptrs v hv).fitting hsize)

/-- `aptr<int> p = new_array<int>(5); --p;` and a range-based loop over `p` starts in front of
the array. -/
theorem iteration_starts_before :
    ¬∀ acts, arrayMachine.Visits acts fun s => ∀ v ∈ s.aptrs, v.ty.sizeof ≠ 0 →
      v.ptr.IterationSafe v.ty.sizeof := by
  intro h
  have hsafe := h [.newArray ⟨.prim .int, 0x1000, 5, by decide, by decide, by decide⟩,
    .aptrMove 0 .preDec] _ (List.prefix_refl _) _ rfl ⟨.prim .int, ⟨0x1000, -1, 5⟩⟩
    List.mem_cons_self (by decide)
  have hstart := eq_of_iterate_eq_cons hsafe.visits
  exact absurd hstart (by decide)

end Ironclad.Pointers
