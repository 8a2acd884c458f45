import Mathlib.Data.Set.Card
import Mathlib.Order.Interval.Finset.Nat
import Ironclad.Logic.Machine
import Ironclad.Logic.Region
import Ironclad.Pointers.Casts
import Ironclad.Pointers.Displacement

/-!
# Chains of casts

The specialised casts keep the address of a pointer and recompute its size with a truncating
division. What a pointer can reach is the set of bytes that its checked operators access after
any further index arithmetic; for an address `data` and a size that fits it is the region of
`size * sizeof(T)` bytes at `data` (`reach_iff`), so a cast cuts off the remainder of a division
by `sizeof(U)` and nothing else.
-/

namespace Ironclad.Pointers

open Ironclad.Logic

/-- A pointer to primitive elements, of one of the two classes. -/
inductive PrimPtr where
  | aptr (T : Prim) (p : Aptr)
  | laptr (T : Prim) (p : Laptr)
  deriving DecidableEq, Repr

/-- A cast, an operator that moves the pointer, or a conversion between the classes. Where a
`laptr` is made, its address and the stack pointer are the environment's choice. -/
inductive ChainOp where
  | cast (U : Prim) (sp this : Word)
  | move (m : Move) (sp this : Word)
  | toLaptr (sp this : Word)
  | from_laptr

namespace PrimPtr

def type : PrimPtr → Prim
  | .aptr T _ => T
  | .laptr T _ => T

def data : PrimPtr → Word
  | .aptr _ p => p.data
  | .laptr _ p => p.data

def size : PrimPtr → Word
  | .aptr _ p => p.size
  | .laptr _ p => p.size

/-- One step of index arithmetic. -/
def move (x : PrimPtr) (m : Move) (sp this : Word) : PrimPtr :=
  match x with
  | .aptr T p => .aptr T (p.moved m)
  | .laptr T p => .laptr T (p.moved sp this m)

/-- Some index arithmetic leads to a checked access of an element with the byte `b`. -/
def Reach (x : PrimPtr) (b : Word) : Prop :=
  match x with
  | .aptr T p => ∃ a, p.Reaches T.sizeof a ∧ b ∈ (⟨a, T.sizeof.toNat⟩ : Region 64)
  | .laptr T p => ∃ a, p.Reaches T.sizeof a ∧ b ∈ (⟨a, T.sizeof.toNat⟩ : Region 64)

end PrimPtr

/-- One step of a chain; `none` is a cast that the class does not have, a conversion that it does
not have, or one that fails its check. -/
def chainStep : PrimPtr → ChainOp → Option PrimPtr
  | .aptr T p, .cast U _ _ => (p.castPrim T U).map (.aptr U)
  | .laptr T p, .cast U sp this => (p.castPrim sp this T U).map (.laptr U)
  | x, .move m sp this => some (x.move m sp this)
  | .aptr T p, .toLaptr sp this => some (.laptr T (p.toLaptr sp this))
  | .laptr T p, .from_laptr => (Aptr.null.from_laptr p).map (.aptr T)
  | .aptr _ _, .from_laptr => none
  | .laptr _ _, .toLaptr _ _ => none

def chainMachine (start : PrimPtr) : Machine PrimPtr ChainOp := ⟨start, chainStep⟩

theorem Prim.sizeof_pos (T : Prim) : 0 < T.sizeof.toNat := by
  cases T <;> decide

/-! ## What a pointer reaches -/

namespace PrimPtr

variable {x y : PrimPtr} {b : Word}

/-- Index arithmetic keeps the type, the address and the size. -/
theorem move_eq (x : PrimPtr) (m : Move) (sp this : Word) :
    (x.move m sp this).type = x.type ∧ (x.move m sp this).data = x.data ∧
      (x.move m sp this).size = x.size := by
  cases x with
  | aptr T p =>
      have h := p.moved_place m
      exact ⟨rfl, congrArg Position.data h, congrArg Position.size h⟩
  | laptr T p =>
      have h := p.moved_place sp this m
      exact ⟨rfl, congrArg Position.data h, congrArg Position.size h⟩

/-- What is reached lies in an element whose index passes the bounds check. -/
theorem reach_iff_element : x.Reach b ↔ ∃ k, BOUNDS_CHECK k x.size = true ∧
    b ∈ (⟨element x.type.sizeof x.data k, x.type.sizeof.toNat⟩ : Region 64) := by
  cases x with
  | aptr T p =>
      constructor
      · intro ⟨a, ha, hb⟩
        obtain ⟨k, hk, rfl⟩ := Aptr.reaches_iff.mp ha
        exact ⟨k, hk, hb⟩
      · intro ⟨k, hk, hb⟩
        exact ⟨_, Aptr.reaches_iff.mpr ⟨k, hk, rfl⟩, hb⟩
  | laptr T p =>
      constructor
      · intro ⟨a, ha, hb⟩
        obtain ⟨k, hk, rfl⟩ := Laptr.reaches_iff.mp ha
        exact ⟨k, hk, hb⟩
      · intro ⟨k, hk, hb⟩
        exact ⟨_, Laptr.reaches_iff.mpr ⟨k, hk, rfl⟩, hb⟩

/-- The bytes of the array fit in 63 bits. -/
def Fits63 (x : PrimPtr) : Prop := x.size.toNat * x.type.sizeof.toNat < 2 ^ 63

theorem Fits63.size_lt (h : x.Fits63) : x.size.toNat < 2 ^ 63 :=
  Nat.lt_of_le_of_lt (Nat.le_mul_of_pos_right _ (Prim.sizeof_pos x.type)) h

/-- Where the element `k` lies in the bytes of the array. -/
theorem Fits63.element_sub (h : x.Fits63) {k : Word} (hk : k.toNat < x.size.toNat) :
    (element x.type.sizeof x.data k - x.data).toNat = k.toNat * x.type.sizeof.toNat ∧
      k.toNat * x.type.sizeof.toNat + x.type.sizeof.toNat ≤
        x.size.toNat * x.type.sizeof.toNat := by
  have hfit : x.size.toNat * x.type.sizeof.toNat < 2 ^ 63 := h
  have hle : (k.toNat + 1) * x.type.sizeof.toNat ≤ x.size.toNat * x.type.sizeof.toNat :=
    Nat.mul_le_mul_right _ hk
  rw [Nat.add_mul, Nat.one_mul] at hle
  refine ⟨?_, hle⟩
  rw [element_sub_data, BitVec.toNat_mul, Nat.mod_eq_of_lt (by omega)]

/-- **A pointer reaches the bytes of its array.** -/
theorem reach_iff (h : x.Fits63) :
    x.Reach b ↔ b ∈ (⟨x.data, x.size.toNat * x.type.sizeof.toNat⟩ : Region 64) := by
  have hfit : x.size.toNat * x.type.sizeof.toNat < 2 ^ 63 := h
  rw [reach_iff_element]
  constructor
  · intro ⟨k, hk, hb⟩
    obtain ⟨hoff, hle⟩ := h.element_sub (boundsCheck_toNat hk)
    rw [Region.mem_mk] at hb ⊢
    rw [Region.distance_add (b := element x.type.sizeof x.data k)] <;> omega
  · intro hb
    rw [Region.mem_mk] at hb
    -- the element that the byte lies in
    have hlt : (b - x.data).toNat / x.type.sizeof.toNat < x.size.toNat :=
      Nat.div_lt_of_lt_mul (Nat.mul_comm _ _ ▸ hb)
    have hsize := h.size_lt
    obtain ⟨k, hk⟩ : ∃ k : Word, k.toNat = (b - x.data).toNat / x.type.sizeof.toNat :=
      ⟨BitVec.ofNat 64 ((b - x.data).toNat / x.type.sizeof.toNat),
        Region.toNat_ofNat_of_lt (by omega)⟩
    have hdiv := Nat.div_add_mod (b - x.data).toNat x.type.sizeof.toNat
    have hmod := Nat.mod_lt (b - x.data).toNat (Prim.sizeof_pos x.type)
    rw [Nat.mul_comm, ← hk] at hdiv
    obtain ⟨hoff, hle⟩ := h.element_sub (k := k) (by rw [hk]; exact hlt)
    refine ⟨k, ?_, ?_⟩
    · rw [boundsCheck_iff, toInt_of_lt (by omega), toInt_of_lt hsize]
      omega
    · -- the byte is not before its element
      have hsub : b - element x.type.sizeof x.data k =
          (b - x.data) - (element x.type.sizeof x.data k - x.data) := by
        rw [sub_sub_sub_cancel_right]
      rw [Region.mem_mk, hsub, BitVec.toNat_sub_of_le (by rw [BitVec.le_def]; omega)]
      omega

end PrimPtr

/-! ## One cast -/

/-- The size after a cast, when the bytes of the array fit. -/
theorem castSize_toNat {T U : Prim} {size : Word}
    (h : size.toNat * T.sizeof.toNat < 2 ^ 63) :
    (castSize T U size).toNat = size.toNat * T.sizeof.toNat / U.sizeof.toNat := by
  unfold castSize
  rw [BitVec.toNat_udiv, BitVec.toNat_mul, Nat.mod_eq_of_lt (by omega)]

/-- A cast loses fewer bytes than an element has. -/
theorem castSize_bytes {T U : Prim} {size : Word} (h : size.toNat * T.sizeof.toNat < 2 ^ 63) :
    (castSize T U size).toNat * U.sizeof.toNat ≤ size.toNat * T.sizeof.toNat ∧
      size.toNat * T.sizeof.toNat <
        (castSize T U size).toNat * U.sizeof.toNat + U.sizeof.toNat := by
  rw [castSize_toNat h]
  refine ⟨Nat.div_mul_le_self _ _, ?_⟩
  have hdiv := Nat.div_add_mod (size.toNat * T.sizeof.toNat) U.sizeof.toNat
  have hmod := Nat.mod_lt (size.toNat * T.sizeof.toNat) (Prim.sizeof_pos U)
  rw [Nat.mul_comm] at hdiv
  omega

/-- The bytes that a region has beyond a shorter one from the same start. -/
theorem ncard_beyond_le (d : Word) (m n : Nat) :
    {b : Word | b ∈ (⟨d, n⟩ : Region 64) ∧ b ∉ (⟨d, m⟩ : Region 64)}.ncard ≤ n - m := by
  have hinj : Set.InjOn (fun b : Word => (b - d).toNat)
      {b : Word | b ∈ (⟨d, n⟩ : Region 64) ∧ b ∉ (⟨d, m⟩ : Region 64)} := by
    intro b _ c _ h
    exact sub_left_injective (BitVec.eq_of_toNat_eq h)
  have hmaps : ∀ b ∈ {b : Word | b ∈ (⟨d, n⟩ : Region 64) ∧ b ∉ (⟨d, m⟩ : Region 64)},
      (b - d).toNat ∈ (Finset.Ico m n : Set Nat) := by
    intro b hb
    obtain ⟨hn, hm⟩ := hb
    rw [Region.mem_mk] at hn hm
    rw [Finset.coe_Ico, Set.mem_Ico]
    omega
  have hle := Set.ncard_le_ncard_of_injOn _ hmaps hinj (Finset.finite_toSet _)
  rwa [Set.ncard_coe_finset, Nat.card_Ico] at hle

namespace PrimPtr

variable {x y : PrimPtr}

/-- The number of bytes of the array. -/
def bytes (x : PrimPtr) : Nat := x.size.toNat * x.type.sizeof.toNat

/-- What a step can do: the address stays; the type and the size stay or are those of a cast,
which loses the remainder of the bytes. -/
theorem chainStep_effect {op : ChainOp} (h : chainStep x op = some y) (hx : x.Fits63) :
    y.data = x.data ∧ y.bytes ≤ x.bytes ∧
      ∀ U sp this, op = .cast U sp this → y.type = U ∧ x.bytes < y.bytes + U.sizeof.toNat := by
  cases op with
  | cast U sp this =>
      cases x with
      | aptr T p =>
          obtain ⟨q, hq, rfl⟩ := Option.map_eq_some_iff.mp h
          obtain ⟨-, hq⟩ := Option.ite_none_right_eq_some.mp hq
          cases hq
          obtain ⟨hle, hlt⟩ := castSize_bytes (U := U) hx
          refine ⟨rfl, hle, ?_⟩
          intro U' _ _ hU
          cases hU
          exact ⟨rfl, hlt⟩
      | laptr T p =>
          obtain ⟨q, hq, rfl⟩ := Option.map_eq_some_iff.mp h
          obtain ⟨-, hq⟩ := Option.ite_none_right_eq_some.mp hq
          cases hq
          obtain ⟨hle, hlt⟩ := castSize_bytes (U := U) hx
          refine ⟨rfl, hle, ?_⟩
          intro U' _ _ hU
          cases hU
          exact ⟨rfl, hlt⟩
  | move m sp this =>
      have hy : y = x.move m sp this := by
        cases x <;> exact (Option.some.inj h).symm
      obtain ⟨ht, hd, hs⟩ := x.move_eq m sp this
      refine ⟨hy ▸ hd, ?_, fun _ _ _ hU => by cases hU⟩
      unfold bytes
      rw [hy, ht, hs]
  | toLaptr sp this =>
      cases x with
      | aptr T p =>
          cases h
          exact ⟨rfl, Nat.le_refl _, fun _ _ _ hU => by cases hU⟩
      | laptr T p => cases h
  | from_laptr =>
      cases x with
      | aptr T p => cases h
      | laptr T p =>
          obtain ⟨q, hq, rfl⟩ := Option.map_eq_some_iff.mp h
          rw [(Aptr.from_laptr_eq_some.mp hq).2]
          exact ⟨rfl, Nat.le_refl _, fun _ _ _ hU => by cases hU⟩

end PrimPtr

/-! ## Whole chains -/

/-- A pointer to a whole allocation of `n` elements of type `T` at `base`: what `new_array`
gives, and what a `safe::array` converts to. -/
inductive Whole (T : Prim) (base n : Word) : PrimPtr → Prop
  | new_array : Whole T base n (.aptr T (.new_array base n))
  | toLaptr (sp this : Word) : Whole T base n (.laptr T (SafeArray.toLaptr sp this ⟨base, n⟩))

/-- **Casts never widen access.** Along every chain that starts at a whole allocation the pointer
reaches bytes of that allocation only; and a cast reaches bytes that were reached before, all but
fewer than `sizeof(U)` of them. -/
theorem castChain_within {T : Prim} {base n : Word} {start : PrimPtr}
    (hfit : n.toNat * T.sizeof.toNat < 2 ^ 63) (hstart : Whole T base n start)
    (ops : List ChainOp) :
    (chainMachine start).Visits ops (fun x => ∀ b, x.Reach b →
      b ∈ (⟨base, n.toNat * T.sizeof.toNat⟩ : Region 64)) ∧
    ∀ os U sp this, os ++ [.cast U sp this] <+: ops → ∀ x y,
      (chainMachine start).run os = some x → chainStep x (.cast U sp this) = some y →
        (∀ b, y.Reach b → x.Reach b) ∧
          {b | x.Reach b ∧ ¬y.Reach b}.ncard < U.sizeof.toNat := by
  -- the address never changes and the number of bytes never grows
  have hinv : (chainMachine start).Visits ops
      (fun x => x.data = base ∧ x.bytes ≤ n.toNat * T.sizeof.toNat) := by
    refine Machine.visits_of_invariant _ ?_ ?_ ops
    · cases hstart with
      | new_array => exact ⟨rfl, Nat.le_refl _⟩
      | toLaptr sp this =>
          refine ⟨SafeArray.toLaptr_data sp this _, Nat.le_of_eq ?_⟩
          show (SafeArray.toLaptr sp this ⟨base, n⟩).size.toNat * _ = _
          rw [SafeArray.toLaptr_size]
          rfl
    · intro x op y ⟨hd, hb⟩ h
      obtain ⟨hd', hb', -⟩ := PrimPtr.chainStep_effect h
        (show x.bytes < 2 ^ 63 from Nat.lt_of_le_of_lt hb hfit)
      exact ⟨hd'.trans hd, Nat.le_trans hb' hb⟩
  constructor
  · intro os hos x hx b hreach
    obtain ⟨hd, hb⟩ := hinv os hos x hx
    have hmem := (PrimPtr.reach_iff (Nat.lt_of_le_of_lt hb hfit)).mp hreach
    rw [Region.mem_mk] at hmem ⊢
    rw [hd] at hmem
    exact Nat.lt_of_lt_of_le hmem hb
  · intro os U sp this hos x y hx hy
    obtain ⟨hd, hb⟩ := hinv os ((List.prefix_append os _).trans hos) x hx
    have hfitx : x.Fits63 := Nat.lt_of_le_of_lt hb hfit
    obtain ⟨hdy, hby, hcast⟩ := PrimPtr.chainStep_effect hy hfitx
    have hfity : y.Fits63 := Nat.lt_of_le_of_lt hby hfitx
    obtain ⟨-, hlost⟩ := hcast U sp this rfl
    have hx_iff : ∀ b, x.Reach b ↔ b ∈ (⟨x.data, x.bytes⟩ : Region 64) :=
      fun b => PrimPtr.reach_iff hfitx
    have hy_iff : ∀ b, y.Reach b ↔ b ∈ (⟨x.data, y.bytes⟩ : Region 64) :=
      fun b => hdy ▸ PrimPtr.reach_iff hfity
    constructor
    · intro b hreach
      rw [hx_iff]
      rw [hy_iff] at hreach
      rw [Region.mem_mk] at hreach ⊢
      omega
    · have hset : {b | x.Reach b ∧ ¬y.Reach b} =
          {b | b ∈ (⟨x.data, x.bytes⟩ : Region 64) ∧ b ∉ (⟨x.data, y.bytes⟩ : Region 64)} := by
        ext b
        show x.Reach b ∧ ¬y.Reach b ↔ _
        rw [hx_iff, hy_iff]
        rfl
      rw [hset]
      refine Nat.lt_of_le_of_lt (ncard_beyond_le x.data y.bytes x.bytes) ?_
      omega

/-- Five `unsigned int`s, seen as `unsigned char`s, as `unsigned short`s and moved. -/
theorem castChain_within_five :
    (chainMachine (.aptr .unsignedInt (.new_array 0x1000 5))).Visits
      [.cast .unsignedChar 0 0, .move .preInc 0 0, .cast .unsignedShort 0 0]
      (fun x => ∀ b, x.Reach b →
        b ∈ (⟨0x1000, (5 : Word).toNat * Prim.unsignedInt.sizeof.toNat⟩ : Region 64)) :=
  (castChain_within (by decide) .new_array _).1

end Ironclad.Pointers
