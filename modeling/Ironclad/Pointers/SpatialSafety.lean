import Ironclad.Logic.Machine
import Ironclad.Logic.Region
import Ironclad.Pointers.ArrayVars

/-!
# Spatial safety over whole runs

The invariant is `Backed`: every variable's address and size are exactly those
of one root allocation, or null and zero. Index arithmetic wraps and is never
checked; a bounds check that passes against the size of a root picks an element
of that root.
-/

namespace Ironclad.Pointers

open Ironclad.Logic

/-- Programs without `free` and casts. -/
def arrayMachine : Machine Vars ArrayOp := ⟨.empty, arrayStep⟩

/-- Every variable's extent is fresh: null and empty, or a whole root. -/
structure Backed (s : Vars) : Prop where
  aptrs : ∀ v ∈ s.aptrs, Fresh s.roots (aptrExtent v)
  laptrs : ∀ v ∈ s.laptrs, Fresh s.roots (laptrExtent v)

/-- One attempt to access memory through a pointer of extent `e` with the wrapped
index `index`; `result` is the address, `none` when the assertion fails. -/
structure AccessSafe (roots : List Root) (e : Extent) (index : Word) (result : Option Word) :
    Prop where
  touches : ∀ a, result = some a → ∃ r ∈ roots, r.extent = e ∧ ∃ k : Nat,
    index.toInt = k ∧ k < r.count.toNat ∧ a.toNat = r.base.toNat + k * r.ty.sizeof.toNat
  rejects : ¬(0 ≤ index.toInt ∧ index.toInt < e.size.toInt) → result = none

/-- Spatial safety of a state: what every variable points to, and what every
dereference and subscript that can be attempted does. -/
structure SpatiallySafe (s : Vars) : Prop where
  backed : Backed s
  aptr_deref : ∀ v ∈ s.aptrs,
    AccessSafe s.roots (aptrExtent v) v.ptr.index (v.ptr.deref v.ty.sizeof)
  aptr_subscript : ∀ v ∈ s.aptrs, ∀ i : BitVec 32,
    AccessSafe s.roots (aptrExtent v) (v.ptr.index + ofInt i) (v.ptr.subscript v.ty.sizeof i)
  laptr_deref : ∀ v ∈ s.laptrs,
    AccessSafe s.roots (laptrExtent v) v.ptr.index (v.ptr.deref v.ty.sizeof)
  laptr_subscript : ∀ v ∈ s.laptrs, ∀ i : BitVec 32,
    AccessSafe s.roots (laptrExtent v) (v.ptr.index + ofUnsigned i)
      (v.ptr.subscript v.ty.sizeof i)

theorem Fresh.mono {roots roots' : List Root} (hsub : roots ⊆ roots') {e : Extent}
    (h : Fresh roots e) : Fresh roots' e := by
  rcases h with hnull | ⟨r, hr, he⟩
  · exact .inl hnull
  · exact .inr ⟨r, hsub hr, he⟩

/-- One operation keeps every variable backed. -/
theorem arrayStep_backed {s t : Vars} {op : ArrayOp} (h : arrayStep s op = some t)
    (hs : Backed s) : Backed t := by
  have heff := arrayStep_effect h
  have hold : ∀ e, OfAptr s e ∨ OfLaptr s e → Fresh t.roots e := by
    rintro e (⟨u, hu, rfl⟩ | ⟨u, hu, rfl⟩)
    · exact (hs.aptrs u hu).mono heff.roots
    · exact (hs.laptrs u hu).mono heff.roots
  constructor
  · intro v hv
    rcases heff.aptrs v hv with h | h | ⟨i, j, u, -, hj, hu⟩
    · exact hold _ (.inl h)
    · exact h
    · exact hold _ (.inr ⟨u, List.mem_of_getElem? hj, hu⟩)
  · intro v hv
    rcases heff.laptrs v hv with h | h | h
    · exact hold _ (.inl h)
    · exact hold _ (.inr h)
    · exact h

/-- An element of a root lies in the address space, so its address does not wrap. -/
theorem Root.element_toNat (r : Root) {index : Word} (h : index.toNat < r.count.toNat) :
    (element r.ty.sizeof r.base index).toNat =
      r.base.toNat + index.toNat * r.ty.sizeof.toNat := by
  have hfits := r.fits
  have hbase := r.base.isLt
  have hmul : (index.toNat + 1) * r.ty.sizeof.toNat ≤ r.count.toNat * r.ty.sizeof.toNat :=
    Nat.mul_le_mul_right _ h
  rw [Nat.add_mul, Nat.one_mul] at hmul
  -- a class of size 0 is the only way to have no room behind the element
  have hlt : r.base.toNat + index.toNat * r.ty.sizeof.toNat < 2 ^ 64 := by
    rcases Nat.eq_zero_or_pos r.ty.sizeof.toNat with hz | hpos
    · rw [hz, Nat.mul_zero]
      omega
    · omega
  unfold element
  rw [BitVec.toNat_add, BitVec.toNat_mul, Nat.add_mod_mod, Nat.mod_eq_of_lt hlt]

/-- An array in memory: its elements have a size, and it does not fill the address space. -/
structure Fitting (sizeofT size : Word) : Prop where
  sizeof_ne_zero : sizeofT ≠ 0
  count_lt : size.toNat < 2 ^ 63
  bytes_lt : size.toNat * sizeofT.toNat < 2 ^ 64

theorem Fitting.sizeof_pos {sizeofT size : Word} (h : Fitting sizeofT size) :
    0 < sizeofT.toNat := toNat_pos h.sizeof_ne_zero

/-- The elements of an array and the address behind it are at different addresses. -/
theorem Fitting.element_inj {sizeofT size data i j : Word} (h : Fitting sizeofT size)
    (hi : i.toNat ≤ size.toNat) (hj : j.toNat ≤ size.toNat)
    (heq : element sizeofT data i = element sizeofT data j) : i = j := by
  have hbytes := h.bytes_lt
  have hi' : i.toNat * sizeofT.toNat ≤ size.toNat * sizeofT.toNat := Nat.mul_le_mul_right _ hi
  have hj' : j.toNat * sizeofT.toNat ≤ size.toNat * sizeofT.toNat := Nat.mul_le_mul_right _ hj
  have hmul : i * sizeofT = j * sizeofT := by
    unfold element at heq
    exact (BitVec.add_right_inj data).mp heq
  have hnat := congrArg BitVec.toNat hmul
  rw [BitVec.toNat_mul, BitVec.toNat_mul, Nat.mod_eq_of_lt (by omega),
    Nat.mod_eq_of_lt (by omega)] at hnat
  exact BitVec.eq_of_toNat_eq (Nat.eq_of_mul_eq_mul_right h.sizeof_pos hnat)

/-- The elements lie in the allocation. -/
theorem Fitting.inside {sizeofT size : Word} (h : Fitting sizeofT size) (data : Word) {k : Nat}
    (hk : k < size.toNat) :
    (⟨element sizeofT data (BitVec.ofNat 64 k), sizeofT.toNat⟩ : Region 64) ⊆
      ⟨data, size.toNat * sizeofT.toNat⟩ := by
  have hbytes := h.bytes_lt
  have hcount := h.count_lt
  have hle : (k + 1) * sizeofT.toNat ≤ size.toNat * sizeofT.toNat := Nat.mul_le_mul_right _ hk
  rw [Nat.add_mul, Nat.one_mul] at hle
  rw [Region.subset_iff hbytes]
  right
  show (element sizeofT data (BitVec.ofNat 64 k) - data).toNat + _ ≤ _
  have hk64 : (BitVec.ofNat 64 k).toNat = k := Region.toNat_ofNat_of_lt (by omega)
  rw [element_sub_data, BitVec.toNat_mul, hk64, Nat.mod_eq_of_lt (by omega)]
  exact hle

/-- The element behind the last one does not. -/
theorem Fitting.not_inside_end {sizeofT size : Word} (h : Fitting sizeofT size) (data : Word) :
    ¬(⟨element sizeofT data size, sizeofT.toNat⟩ : Region 64) ⊆
      ⟨data, size.toNat * sizeofT.toNat⟩ := by
  have hpos := h.sizeof_pos
  intro hin
  rw [Region.subset_iff h.bytes_lt] at hin
  have hoff : (element sizeofT data size - data).toNat = size.toNat * sizeofT.toNat := by
    rw [element_sub_data, BitVec.toNat_mul, Nat.mod_eq_of_lt h.bytes_lt]
  rcases hin with hzero | hle
  · exact absurd hzero (Nat.ne_of_gt hpos)
  · change (element sizeofT data size - data).toNat + sizeofT.toNat ≤
      size.toNat * sizeofT.toNat at hle
    rw [hoff] at hle
    omega

/-- A whole root is an array in memory. -/
theorem Root.fitting (r : Root) (hsize : r.ty.sizeof ≠ 0) : Fitting r.ty.sizeof r.count := by
  refine ⟨hsize, r.count_lt, ?_⟩
  have hbase := toNat_pos r.base_ne_zero
  have hfits := r.fits
  omega

theorem Fresh.fitting {roots : List Root} {e : Extent} (h : Fresh roots e)
    (hsize : e.ty.sizeof ≠ 0) : Fitting e.ty.sizeof e.size := by
  rcases h with ⟨-, hzero⟩ | ⟨r, -, rfl⟩
  · refine ⟨hsize, ?_, ?_⟩ <;> rw [hzero]
    · decide
    · simp
  · exact r.fitting hsize

/-- The access rule: an access that asserts at least the bounds check, through a
pointer with a fresh extent. -/
theorem access_safe {roots : List Root} {e : Extent} (he : Fresh roots e) {index : Word}
    {check : Bool} (hcheck : check = true → BOUNDS_CHECK index e.size = true) :
    AccessSafe roots e index (access check e.ty.sizeof e.data index) := by
  constructor
  · intro a ha
    obtain ⟨hc, rfl⟩ := access_eq_some.mp ha
    have hb := hcheck hc
    rcases he with ⟨-, hsize⟩ | ⟨r, hr, rfl⟩
    · rw [hsize, boundsCheck_zero] at hb
      contradiction
    · have hlt := boundsCheck_toNat hb
      exact ⟨r, hr, rfl, index.toNat, toInt_eq_toNat (boundsCheck_iff.mp hb).1, hlt,
        r.element_toNat hlt⟩
  · intro hout
    apply access_eq_none
    cases hc : check with
    | false => rfl
    | true => exact absurd (boundsCheck_iff.mp (hcheck hc)) hout

/-- Backed variables are spatially safe. -/
theorem Backed.spatiallySafe {s : Vars} (hs : Backed s) : SpatiallySafe s where
  backed := hs
  aptr_deref v hv := access_safe (hs.aptrs v hv) id
  aptr_subscript v hv _ := access_safe (hs.aptrs v hv) id
  laptr_deref v hv := access_safe (hs.laptrs v hv) id
  laptr_subscript v hv _ :=
    access_safe (hs.laptrs v hv) fun h => (Bool.and_eq_true _ _ ▸ h).2

theorem arrayMachine_backed (acts : List ArrayOp) : arrayMachine.Visits acts Backed :=
  Machine.visits_of_invariant Backed
    ⟨fun _ h => absurd h List.not_mem_nil, fun _ h => absurd h List.not_mem_nil⟩
    (fun _ _ _ hs h => arrayStep_backed h hs) acts

/-- **Spatial safety.** Every state that a run of array-pointer operations visits
is spatially safe. -/
theorem arrayMachine_spatially_safe (acts : List ArrayOp) :
    arrayMachine.Visits acts SpatiallySafe :=
  (arrayMachine_backed acts).mono fun _ => Backed.spatiallySafe

end Ironclad.Pointers
