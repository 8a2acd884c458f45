import Mathlib.Algebra.Group.Action.Basic
import Mathlib.Data.BitVec
import Ironclad.Pointers.ArrayVars

/-!
# Pointer movement

An array pointer denotes a position: an address, an index and a size. The words act on the
positions by adding to the index, and every operator that moves a pointer is this action by
some word (`Aptr.moved_place`, `Laptr.moved_place`). What differs is the parameter that the
displacement has to pass through: a `size_t` or a `long` keeps it, the `int` of `+=` and `-=`
does not.
-/

namespace Ironclad.Pointers

/-! ## Positions -/

/-- What an array pointer denotes. -/
structure Position where
  data : Word
  index : Word
  size : Word
  deriving DecidableEq, Repr

/-- A displacement moves the index; the index is a `long` and wraps. -/
instance : AddAction Word Position where
  vadd n p := { p with index := p.index + n }
  zero_vadd p := by
    show ({ p with index := p.index + 0 } : Position) = p
    rw [add_zero]
  add_vadd m n p := by
    show ({ p with index := p.index + (m + n) } : Position) = { p with index := p.index + n + m }
    rw [add_assoc, add_comm n m]

namespace Position

@[simp] theorem vadd_data (n : Word) (p : Position) : (n +ᵥ p).data = p.data := rfl

@[simp] theorem vadd_size (n : Word) (p : Position) : (n +ᵥ p).size = p.size := rfl

@[simp] theorem vadd_index (n : Word) (p : Position) : (n +ᵥ p).index = p.index + n := rfl

/-- Different displacements lead to different positions. -/
@[simp] theorem vadd_eq_vadd_iff {m n : Word} {p : Position} : m +ᵥ p = n +ᵥ p ↔ m = n := by
  constructor
  · intro h
    have hindex := congrArg Position.index h
    rw [vadd_index, vadd_index] at hindex
    exact add_left_cancel hindex
  · intro h
    rw [h]

end Position

/-! ## The operators -/

/-- How far an operator moves the pointer. -/
def Move.displacement : Move → Word
  | .preInc => 1
  | .postInc => 1
  | .preDec => -1
  | .postDec => -1
  | .addAssign op => ofInt op
  | .subAssign op => -ofInt op
  | .sub diff => -diff
  | .add diff => diff
  | .offset index => ofUnsigned index

/-- The operators that move the pointer they are applied to. The others return a moved one. -/
def Move.inPosition : Move → Bool
  | .sub _ => false
  | .add _ => false
  | .offset _ => false
  | _ => true

/-- Subtraction of a `T *` from another one, as a `ptrdiff_t`. -/
def ptrDiff (sizeofT a b : Word) : Word := BitVec.ofInt 64 ((a - b).toInt.tdiv sizeofT.toNat)

namespace Aptr

def place (p : Aptr) : Position := ⟨p.data, p.index, p.size⟩

/-- The pointer that the operator has moved. -/
def moved (p : Aptr) (m : Move) : Aptr := if m.inPosition then (p.move m).1 else (p.move m).2

/-- `operator-(aptr<T> const & other)`. -/
def diff (sizeofT : Word) (p other : Aptr) : Word :=
  ptrDiff sizeofT (element sizeofT p.data p.index) (element sizeofT other.data other.index)

theorem moved_place (p : Aptr) (m : Move) : (p.moved m).place = m.displacement +ᵥ p.place := by
  cases m with
  | preDec => exact congrArg (Position.mk p.data · p.size) (sub_eq_add_neg _ _)
  | postDec => exact congrArg (Position.mk p.data · p.size) (sub_eq_add_neg _ _)
  | subAssign op => exact congrArg (Position.mk p.data · p.size) (sub_eq_add_neg _ _)
  | sub diff => exact congrArg (Position.mk p.data · p.size) (sub_eq_add_neg _ _)
  | _ => rfl

end Aptr

namespace Laptr

def place (p : Laptr) : Position := ⟨p.data, p.index, p.size⟩

/-- The pointer that the operator has moved. -/
def moved (sp this : Word) (p : Laptr) (m : Move) : Laptr :=
  if m.inPosition then (p.move sp this m).1 else (p.move sp this m).2

/-- `operator-(laptr<T> const & other)`. -/
def diff (sizeofT : Word) (p other : Laptr) : Word :=
  ptrDiff sizeofT (element sizeofT p.data p.index) (element sizeofT other.data other.index)

theorem moved_place (sp this : Word) (p : Laptr) (m : Move) :
    (p.moved sp this m).place = m.displacement +ᵥ p.place := by
  cases m with
  | preDec => exact congrArg (Position.mk p.data · p.size) (sub_eq_add_neg _ _)
  | postDec => exact congrArg (Position.mk p.data · p.size) (sub_eq_add_neg _ _)
  | subAssign op => exact congrArg (Position.mk p.data · p.size) (sub_eq_add_neg _ _)
  | sub diff => exact congrArg (Position.mk p.data · p.size) (sub_eq_add_neg _ _)
  | _ => rfl

end Laptr

/-- The laws of moving a pointer `p` of a class by `n`, a `long`. An argument converts to the
parameter's type: to `int` for `+=` and `-=`, to `size_t` for `+` and `-`, to `unsigned int` for
`offset`. -/
structure MovesAgree {P : Type} (place : P → Position) (moved : P → Move → P)
    (diff : P → P → Word) (sizeofT : Word) (p : P) (n : Word) : Prop where
  add : place (moved p (.add n)) = n +ᵥ place p
  addAssign : place (moved p (.addAssign (n.setWidth 32))) = n +ᵥ place p
  sub : place (moved p (.sub (-n))) = n +ᵥ place p
  subAssign : place (moved p (.subAssign ((-n).setWidth 32))) = n +ᵥ place p
  inc : 0 ≤ n.toInt → ∀ m, m = .preInc ∨ m = .postInc →
    place ((moved · m)^[n.toInt.toNat] p) = n +ᵥ place p
  dec : n.toInt ≤ 0 → ∀ m, m = .preDec ∨ m = .postDec →
    place ((moved · m)^[(-n.toInt).toNat] p) = n +ᵥ place p
  offset : n.toNat < 2 ^ 32 → place (moved p (.offset (n.setWidth 32))) = n +ᵥ place p
  compose : ∀ m, place (moved (moved p (.add m)) (.add n)) = place (moved p (.add (m + n)))
  diff : -2 ^ 63 ≤ n.toInt * sizeofT.toNat → n.toInt * sizeofT.toNat < 2 ^ 63 →
    diff (moved p (.add n)) p = n

/-! ## Conversions of a displacement -/

/-- A `long` that is passed as an `int` arrives unchanged iff it is in the range of `int`. -/
theorem ofInt_setWidth_iff {n : Word} :
    ofInt (n.setWidth 32) = n ↔ -2 ^ 31 ≤ n.toInt ∧ n.toInt < 2 ^ 31 := by
  unfold ofInt
  rw [← BitVec.toInt_inj, BitVec.toInt_signExtend, BitVec.toInt_setWidth,
    BitVec.toInt_eq_toNat_cond]
  have := n.isLt
  split <;> simp [Int.bmod] <;> omega

/-- The same for the negated displacement, where `-2^31` is lost as well. -/
theorem neg_ofInt_setWidth_iff {n : Word} :
    -ofInt ((-n).setWidth 32) = n ↔ -2 ^ 31 < n.toInt ∧ n.toInt ≤ 2 ^ 31 := by
  rw [neg_eq_iff_eq_neg, ofInt_setWidth_iff]
  have := n.isLt
  rw [BitVec.toInt_eq_toNat_cond, BitVec.toInt_eq_toNat_cond, BitVec.toNat_neg]
  split <;> split <;> omega

theorem ofUnsigned_setWidth {n : Word} (h : n.toNat < 2 ^ 32) :
    ofUnsigned (n.setWidth 32) = n := by
  apply BitVec.eq_of_toNat_eq
  unfold ofUnsigned
  rw [BitVec.toNat_setWidth, BitVec.toNat_setWidth]
  omega

theorem nsmul_one_toNat {n : Word} (h : 0 ≤ n.toInt) : n.toInt.toNat • (1 : Word) = n := by
  rw [toInt_eq_toNat h, Int.toNat_natCast, nsmul_one]
  apply BitVec.eq_of_toNat_eq
  simp

theorem nsmul_neg_one_toNat {n : Word} (h : n.toInt ≤ 0) :
    (-n.toInt).toNat • (-1 : Word) = n := by
  rw [neg_nsmul, nsmul_one, neg_eq_iff_eq_neg]
  apply BitVec.eq_of_toNat_eq
  simp
  have := n.isLt
  rw [BitVec.toInt_eq_toNat_cond] at h ⊢
  split at h <;> omega

/-- The difference of two elements of one array, in elements. -/
theorem ptrDiff_element {sizeofT data index n : Word} (hsize : sizeofT ≠ 0)
    (hlo : -2 ^ 63 ≤ n.toInt * sizeofT.toNat) (hhi : n.toInt * sizeofT.toNat < 2 ^ 63) :
    ptrDiff sizeofT (element sizeofT data (index + n)) (element sizeofT data index) = n := by
  have hpos : (sizeofT.toNat : Int) ≠ 0 := by
    intro h
    exact hsize (BitVec.eq_of_toNat_eq (Int.ofNat_eq_zero.mp h))
  have hbytes : element sizeofT data (index + n) - element sizeofT data index = n * sizeofT := by
    unfold element
    rw [add_mul, add_sub_add_left_eq_sub, add_sub_cancel_left]
  have hcast : n * sizeofT = BitVec.ofInt 64 (n.toInt * sizeofT.toNat) := by
    rw [BitVec.ofInt_mul, BitVec.ofInt_toInt, BitVec.ofInt_natCast, BitVec.ofNat_toNat,
      BitVec.setWidth_eq]
  unfold ptrDiff
  rw [hbytes, hcast, BitVec.toInt_ofInt_eq_self (by decide) hlo hhi, Int.mul_tdiv_cancel _ hpos,
    BitVec.ofInt_toInt]

/-! ## The laws -/

section

variable {P : Type} {place : P → Position} {moved : P → Move → P}

/-- Applying an operator again and again. -/
theorem place_iterate (hmoved : ∀ p m, place (moved p m) = m.displacement +ᵥ place p) (m : Move)
    (k : Nat) (p : P) :
    place ((moved · m)^[k] p) = (k • m.displacement) +ᵥ place p := by
  have h : Function.Semiconj place (moved · m) (m.displacement +ᵥ ·) := fun q => hmoved q m
  rw [(h.iterate_right k).eq, vadd_iterate_apply]

/-- **When the moves by `n` agree**, for any class whose operators act on positions. -/
theorem movesAgree_iff (hmoved : ∀ p m, place (moved p m) = m.displacement +ᵥ place p)
    {diff : P → P → Word} {sizeofT : Word} (hsize : sizeofT ≠ 0)
    (hdiff : ∀ p q, diff p q = ptrDiff sizeofT
      (element sizeofT (place p).data (place p).index)
      (element sizeofT (place q).data (place q).index)) (p : P) (n : Word) :
    MovesAgree place moved diff sizeofT p n ↔ -2 ^ 31 < n.toInt ∧ n.toInt < 2 ^ 31 := by
  have hadd : place (moved p (.addAssign (n.setWidth 32))) = n +ᵥ place p ↔
      -2 ^ 31 ≤ n.toInt ∧ n.toInt < 2 ^ 31 := by
    rw [hmoved, Position.vadd_eq_vadd_iff]
    exact ofInt_setWidth_iff
  have hsub : place (moved p (.subAssign ((-n).setWidth 32))) = n +ᵥ place p ↔
      -2 ^ 31 < n.toInt ∧ n.toInt ≤ 2 ^ 31 := by
    rw [hmoved, Position.vadd_eq_vadd_iff]
    exact neg_ofInt_setWidth_iff
  constructor
  · intro h
    exact ⟨(hsub.mp h.subAssign).1, (hadd.mp h.addAssign).2⟩
  · intro ⟨hlo, hhi⟩
    refine ⟨hmoved p _, hadd.mpr ⟨by omega, hhi⟩, ?_, hsub.mpr ⟨hlo, by omega⟩, ?_, ?_, ?_, ?_,
      ?_⟩
    · rw [hmoved]
      show - -n +ᵥ place p = n +ᵥ place p
      rw [neg_neg]
    · intro hn m hm
      rw [place_iterate hmoved]
      have hone : m.displacement = 1 := by rcases hm with rfl | rfl <;> rfl
      rw [hone, nsmul_one_toNat hn]
    · intro hn m hm
      rw [place_iterate hmoved]
      have hone : m.displacement = -1 := by rcases hm with rfl | rfl <;> rfl
      rw [hone, nsmul_neg_one_toNat hn]
    · intro hn
      rw [hmoved]
      show ofUnsigned (n.setWidth 32) +ᵥ place p = n +ᵥ place p
      rw [ofUnsigned_setWidth hn]
    · intro m
      rw [hmoved, hmoved, hmoved]
      show n +ᵥ (m +ᵥ place p) = (m + n) +ᵥ place p
      rw [vadd_vadd, add_comm]
    · intro hlo' hhi'
      rw [hdiff, hmoved]
      exact ptrDiff_element hsize hlo' hhi'

end

/-- **Moving by `n` is one thing exactly when `n` and `-n` are `int`s**, for every array pointer
of both classes. -/
theorem moves_agree_iff {sizeofT : Word} (hsize : sizeofT ≠ 0) (n : Word) :
    (∀ p : Aptr, MovesAgree Aptr.place Aptr.moved (Aptr.diff sizeofT) sizeofT p n ↔
      -2 ^ 31 < n.toInt ∧ n.toInt < 2 ^ 31) ∧
    ∀ (sp this : Word) (p : Laptr),
      MovesAgree Laptr.place (Laptr.moved sp this) (Laptr.diff sizeofT) sizeofT p n ↔
        -2 ^ 31 < n.toInt ∧ n.toInt < 2 ^ 31 := by
  constructor
  · intro p
    exact movesAgree_iff Aptr.moved_place hsize (fun _ _ => rfl) p n
  · intro sp this p
    exact movesAgree_iff (Laptr.moved_place sp this) hsize (fun _ _ => rfl) p n

/-- Arrays of `int`, moved by 2^31. -/
theorem moves_agree_iff_int :
    (∀ p : Aptr, MovesAgree Aptr.place Aptr.moved (Aptr.diff 4) 4 p 0x80000000 ↔
      -2 ^ 31 < (0x80000000 : Word).toInt ∧ (0x80000000 : Word).toInt < 2 ^ 31) ∧
    ∀ (sp this : Word) (p : Laptr),
      MovesAgree Laptr.place (Laptr.moved sp this) (Laptr.diff 4) 4 p 0x80000000 ↔
        -2 ^ 31 < (0x80000000 : Word).toInt ∧ (0x80000000 : Word).toInt < 2 ^ 31 :=
  moves_agree_iff (by decide) 0x80000000

/-- `p += 0x80000000L` moves the pointer back by 2^31 elements: the `int` is `-2^31`. -/
theorem addAssign_moves_back :
    ¬∀ n : Word, MovesAgree Aptr.place Aptr.moved (Aptr.diff 4) 4 (.new_array 0x1000 5) n := by
  intro h
  have hadd := congrArg Position.index (h 0x80000000).addAssign
  exact absurd hadd (by decide)

/-! ## What a pointer reaches -/

theorem boundsCheck_of_lt {k size : Word} (h : k.toNat < size.toNat)
    (hsize : size.toNat < 2 ^ 63) : BOUNDS_CHECK k size = true := by
  rw [boundsCheck_iff, toInt_of_lt (Nat.lt_trans h hsize), toInt_of_lt hsize]
  omega

/-- Some moves lead to an access at the address. -/
def ReachedBy {P M : Type} (move : P → M → P) (accesses : P → Word → Prop) (p : P) (a : Word) :
    Prop := ∃ ms : List M, accesses (ms.foldl move p) a

/-- Moves that keep the address and the size, and lead to every index, reach the elements whose
index passes the bounds check. -/
theorem reachedBy_iff {P M : Type} {move : P → M → P} {accesses : P → Word → Prop}
    {sizeofT : Word} (place : P → Position)
    (hmove : ∀ p m, ∃ n : Word, place (move p m) = n +ᵥ place p)
    (hadd : ∀ p (n : Word), ∃ m, place (move p m) = n +ᵥ place p)
    (hchecked : ∀ p a, accesses p a → ∃ k, BOUNDS_CHECK k (place p).size = true ∧
      a = element sizeofT (place p).data k)
    (hderef : ∀ p, BOUNDS_CHECK (place p).index (place p).size = true →
      accesses p (element sizeofT (place p).data (place p).index)) (p : P) (a : Word) :
    ReachedBy move accesses p a ↔
      ∃ k, BOUNDS_CHECK k (place p).size = true ∧ a = element sizeofT (place p).data k := by
  constructor
  · intro ⟨ms, ha⟩
    induction ms generalizing p with
    | nil => exact hchecked p a ha
    | cons m ms ih =>
        obtain ⟨n, hn⟩ := hmove p m
        have h := ih (move p m) ha
        simpa only [hn, Position.vadd_size, Position.vadd_data] using h
  · intro ⟨k, hk, ha⟩
    obtain ⟨m, hm⟩ := hadd p (k - (place p).index)
    have hindex : (place (move p m)).index = k := by
      rw [hm, Position.vadd_index]
      exact add_sub_cancel _ k
    have h := hderef (move p m)
    rw [hindex, hm, Position.vadd_size, Position.vadd_data] at h
    exact ⟨[m], ha ▸ h hk⟩

namespace Aptr

/-- `*`, `->` or `[]` passes its check and accesses the element at `a`. -/
def Accesses (sizeofT : Word) (p : Aptr) (a : Word) : Prop :=
  p.deref sizeofT = some a ∨ ∃ i, p.subscript sizeofT i = some a

/-- The checked operators access the element at `a` after some index arithmetic. -/
def Reaches (sizeofT : Word) : Aptr → Word → Prop := ReachedBy moved (Accesses sizeofT)

theorem reaches_iff {sizeofT : Word} {p : Aptr} {a : Word} : p.Reaches sizeofT a ↔
    ∃ k, BOUNDS_CHECK k p.size = true ∧ a = element sizeofT p.data k := by
  refine reachedBy_iff place ?_ ?_ ?_ ?_ p a
  · intro p m
    exact ⟨_, p.moved_place m⟩
  · intro p n
    exact ⟨.add n, p.moved_place (.add n)⟩
  · intro p a ha
    rcases ha with h | ⟨i, h⟩
    · obtain ⟨hc, ha⟩ := access_eq_some.mp h
      exact ⟨_, hc, ha⟩
    · obtain ⟨hc, ha⟩ := access_eq_some.mp h
      exact ⟨_, hc, ha⟩
  · intro p hc
    exact .inl (access_eq_some.mpr ⟨hc, rfl⟩)

end Aptr

namespace Laptr

/-- `*`, `->` or `[]` passes its checks and accesses the element at `a`. -/
def Accesses (sizeofT : Word) (p : Laptr) (a : Word) : Prop :=
  p.deref sizeofT = some a ∨ ∃ i, p.subscript sizeofT i = some a

/-- The checked operators access the element at `a` after some index arithmetic; where a new
pointer is made, the stack pointer and its address come with the move. -/
def Reaches (sizeofT : Word) : Laptr → Word → Prop :=
  ReachedBy (fun p (m : Move × Word × Word) => p.moved m.2.1 m.2.2 m.1) (Accesses sizeofT)

theorem reaches_iff {sizeofT : Word} {p : Laptr} {a : Word} : p.Reaches sizeofT a ↔
    ∃ k, BOUNDS_CHECK k p.size = true ∧ a = element sizeofT p.data k := by
  refine reachedBy_iff place ?_ ?_ ?_ ?_ p a
  · intro p m
    exact ⟨_, p.moved_place m.2.1 m.2.2 m.1⟩
  · intro p n
    exact ⟨(.add n, 0, 0), p.moved_place 0 0 (.add n)⟩
  · intro p a ha
    rcases ha with h | ⟨i, h⟩
    · obtain ⟨hc, ha⟩ := access_eq_some.mp h
      exact ⟨_, hc, ha⟩
    · obtain ⟨hc, ha⟩ := access_eq_some.mp h
      exact ⟨_, ((Bool.and_eq_true _ _).mp hc).2, ha⟩
  · intro p hc
    exact .inl (access_eq_some.mpr ⟨hc, rfl⟩)

end Laptr

end Ironclad.Pointers
