import Ironclad.CLib.Streams
import Ironclad.Wrappers.SpatialCheck

/-!
# `safe_fread` and `safe_fwrite`

Both take a number of items and check it with `spatialCheck`, which takes a number of bytes and
divides it by `sizeof(T)` once more: of `count` items the check covers `count / sizeof(T)`.

There are four functions, one of each kind for `aptr` and for `laptr`. They make the same
checks and one transfer from or to the raw pointer, so one lemma (`transferSafe_iff`) is about
all of them.
-/

namespace Ironclad.Wrappers

open Ironclad.Logic Ironclad.CLib Ironclad.Pointers

/-! ## The wrappers -/

/-- `safe_fread(aptr<T> ptr, size, count, stream)`. -/
def aptr_safe_fread (sizeofT : Word) (ptr : Aptr) (size count : Word)
    (input : List (BitVec 8)) : Prog 64 Nat := do
  Prog.assert (size == sizeofT)
  Prog.assert (ptr.spatialCheck sizeofT count)
  fread (ptr.convert_to_raw sizeofT) size.toNat count.toNat input

/-- `safe_fread(laptr<T> ptr, size, count, stream)`. -/
def laptr_safe_fread (sizeofT : Word) (ptr : Laptr) (size count : Word)
    (input : List (BitVec 8)) : Prog 64 Nat := do
  Prog.assert (size == sizeofT)
  Prog.assert (ptr.spatialCheck sizeofT count)
  fread (ptr.convert_to_raw sizeofT) size.toNat count.toNat input

/-- `safe_fwrite(aptr<T> ptr, size, count, stream)`. -/
def aptr_safe_fwrite (sizeofT : Word) (ptr : Aptr) (size count : Word) (room : Nat) :
    Prog 64 Nat := do
  Prog.assert (size == sizeofT)
  Prog.assert (ptr.spatialCheck sizeofT count)
  fwrite (ptr.convert_to_raw sizeofT) sizeofT.toNat count.toNat room

/-- `safe_fwrite(laptr<T> ptr, size, count, stream)`. -/
def laptr_safe_fwrite (sizeofT : Word) (ptr : Laptr) (size count : Word) (room : Nat) :
    Prog 64 Nat := do
  Prog.assert (size == sizeofT)
  Prog.assert (ptr.spatialCheck sizeofT count)
  fwrite (ptr.convert_to_raw sizeofT) sizeofT.toNat count.toNat room

/-! ## Transfers in bounds -/

/-- The bytes of element `j`. -/
def elementBytes (sizeofT data : Word) (j : Int) : Region 64 :=
  ⟨data + BitVec.ofInt 64 j * sizeofT, sizeofT.toNat⟩

/-- If the call passes its assertions, it touches only bytes of the elements `index` to
`index + count - 1`, and these have numbers from zero to the size. -/
def TransferSafe (sizeofT data index size count : Word) (o : Outcome 64 Nat) : Prop :=
  o.Passes →
    (∀ r ∈ o.reads ++ o.writes, ∀ a ∈ r, ∃ j : Int,
      index.toInt ≤ j ∧ j < index.toInt + count.toNat ∧ a ∈ elementBytes sizeofT data j) ∧
    ∀ j : Int, index.toInt ≤ j → j < index.toInt + count.toNat → 0 ≤ j ∧ j < size.toInt

/-- No item, or all the items between zero and the size. -/
def ItemsFit (index size count : Word) : Prop :=
  count = 0 ∨ 0 ≤ index.toInt ∧ index.toInt + count.toNat ≤ size.toInt

instance (index size count : Word) : Decidable (ItemsFit index size count) := by
  unfold ItemsFit
  infer_instance

theorem items_between_iff {index size count : Word} :
    (∀ j : Int, index.toInt ≤ j → j < index.toInt + count.toNat → 0 ≤ j ∧ j < size.toInt) ↔
      ItemsFit index size count := by
  unfold ItemsFit
  rw [← BitVec.toNat_inj]
  show _ ↔ count.toNat = 0 ∨ _
  constructor
  · intro h
    by_cases hc : count.toNat = 0
    · exact .inl hc
    · have hfirst := h index.toInt (by omega) (by omega)
      have hlast := h (index.toInt + count.toNat - 1) (by omega) (by omega)
      omega
  · intro h j hj hlt
    omega

/-- A transfer of at most `count` items touches bytes of these items only. -/
theorem transferred_mem {sizeofT data index count : Word} {moved : Nat}
    (hmoved : moved ≤ sizeofT.toNat * count.toNat) {a : Word}
    (ha : a ∈ (⟨element sizeofT data index, moved⟩ : Region 64)) :
    ∃ j : Int, index.toInt ≤ j ∧ j < index.toInt + count.toNat ∧
      a ∈ elementBytes sizeofT data j := by
  rw [Region.mem_mk] at ha
  have hpos : 0 < sizeofT.toNat := by
    rcases Nat.eq_zero_or_pos sizeofT.toNat with h | h
    · rw [h] at hmoved
      omega
    · exact h
  generalize ho : (a - element sizeofT data index).toNat = o at ha
  have hlt : o / sizeofT.toNat < count.toNat := by
    rw [Nat.div_lt_iff_lt_mul hpos, Nat.mul_comm]
    omega
  have hdiv : o / sizeofT.toNat * sizeofT.toNat + o % sizeofT.toNat = o := Nat.div_add_mod' o _
  generalize o / sizeofT.toNat = t at hlt hdiv
  refine ⟨index.toInt + t, by omega, by omega, ?_⟩
  -- the distance from element `t` of the transfer is the rest of the division
  have ha' : a = element sizeofT data index + BitVec.ofNat 64 o := by
    rw [← ho, BitVec.ofNat_toNat, BitVec.setWidth_eq, add_sub_cancel]
  have hsplit : BitVec.ofNat 64 o =
      BitVec.ofNat 64 t * sizeofT + BitVec.ofNat 64 (o % sizeofT.toNat) := by
    conv_lhs => rw [← hdiv]
    rw [BitVec.ofNat_add, BitVec.ofNat_mul, BitVec.ofNat_toNat, BitVec.setWidth_eq]
  have hrest : a - (data + BitVec.ofInt 64 (index.toInt + t) * sizeofT) =
      BitVec.ofNat 64 (o % sizeofT.toNat) := by
    rw [ha', hsplit, element, BitVec.ofInt_add, BitVec.ofInt_toInt, BitVec.ofInt_natCast, add_mul,
      ← add_assoc, add_assoc data, add_sub_cancel_left]
  rw [elementBytes, Region.mem_mk, hrest, BitVec.toNat_ofNat]
  exact Nat.lt_of_le_of_lt (Nat.mod_le _ _) (Nat.mod_lt _ hpos)

/-- **Checked transfers.** Two assertions and then one transfer of at most `count` items from or
to the raw pointer: the transfer is safe exactly when the assertions let only items through
that fit. -/
theorem transferSafe_iff {sizeofT data index size count : Word} {b c : Bool}
    {call : Prog 64 Nat} {m : Memory 64} {n moved : Nat} {rs ws : List (Region 64)}
    {m' : Memory 64} (hcall : call m = ⟨.returns n, m', rs, ws⟩)
    (haccess : rs ++ ws = [⟨element sizeofT data index, moved⟩])
    (hmoved : b = true → moved ≤ sizeofT.toNat * count.toNat) :
    TransferSafe sizeofT data index size count
        (((Prog.assert b : Prog 64 Unit) >>= fun _ => Prog.assert c >>= fun _ => call) m) ↔
      (b = true → c = true → ItemsFit index size count) := by
  unfold TransferSafe
  rw [Prog.assert_bind_passes, Prog.assert_bind_passes, items_between_iff]
  have hpass : (call m).Passes := ⟨n, by rw [hcall]⟩
  constructor
  · intro h hb hc
    exact (h ⟨hb, hc, hpass⟩).2
  · rintro h ⟨hb, hc, -⟩
    rw [Prog.assert_true_bind hb, Prog.assert_true_bind hc, hcall, haccess]
    refine ⟨?_, h hb hc⟩
    intro r hr a ha
    rw [List.mem_singleton.mp hr] at ha
    exact transferred_mem (hmoved hb) ha

/-- The check of an `aptr`: the sum is not negative as a `long`, and as a `size_t` at most the
size. -/
def InSignedReach (sizeofT index size numBytes : Word) : Prop :=
  0 ≤ (index + numBytes / sizeofT).toInt ∧ InReach sizeofT index size numBytes

/-- **Checked stream I/O.** A call of one of the four functions is safe exactly when `size` is
not `sizeof(T)`, the check of `count` bytes refuses, or all the items fit. -/
theorem streamIO_safe_iff (p : Aptr) (q : Laptr) (sizeofT size count : Word)
    (input : List (BitVec 8)) (room : Nat) (m : Memory 64) :
    (TransferSafe sizeofT p.data p.index p.size count
        (aptr_safe_fread sizeofT p size count input m) ↔
      (size = sizeofT → InSignedReach sizeofT p.index p.size count →
        ItemsFit p.index p.size count)) ∧
    (TransferSafe sizeofT q.data q.index q.size count
        (laptr_safe_fread sizeofT q size count input m) ↔
      (size = sizeofT → InReach sizeofT q.index q.size count → ItemsFit q.index q.size count)) ∧
    (TransferSafe sizeofT p.data p.index p.size count
        (aptr_safe_fwrite sizeofT p size count room m) ↔
      (size = sizeofT → InSignedReach sizeofT p.index p.size count →
        ItemsFit p.index p.size count)) ∧
    (TransferSafe sizeofT q.data q.index q.size count
        (laptr_safe_fwrite sizeofT q size count room m) ↔
      (size = sizeofT → InReach sizeofT q.index q.size count →
        ItemsFit q.index q.size count)) := by
  have hread : (size == sizeofT) = true →
      min input.length (size.toNat * count.toNat) ≤ sizeofT.toNat * count.toNat := by
    intro h
    rw [eq_of_beq h]
    exact Nat.min_le_right _ _
  unfold InSignedReach
  refine ⟨?_, ?_, ?_, ?_⟩
  · rw [aptr_safe_fread, transferSafe_iff rfl rfl hread, spatialCheck_eq_true, beq_iff_eq]
  · rw [laptr_safe_fread, transferSafe_iff rfl rfl hread, laptr_spatialCheck_iff, beq_iff_eq]
  · rw [aptr_safe_fwrite, transferSafe_iff rfl rfl fun _ => Nat.min_le_right _ _,
      spatialCheck_eq_true, beq_iff_eq]
  · rw [laptr_safe_fwrite, transferSafe_iff rfl rfl fun _ => Nat.min_le_right _ _,
      laptr_spatialCheck_iff, beq_iff_eq]

/-- Sixteen items of four bytes pass the check against four elements. -/
theorem streamIO_not_safe :
    ¬TransferSafe 4 0x1000 0 4 16 (aptr_safe_fwrite 4 ⟨0x1000, 0, 4⟩ 4 16 64 fun _ => 0) := by
  intro h
  have hfit := (h ⟨16, by decide⟩).2 4 (by decide) (by decide)
  revert hfit
  decide

end Ironclad.Wrappers
