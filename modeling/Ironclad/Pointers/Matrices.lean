import Mathlib.Data.Set.Function
import Ironclad.Logic.Cells
import Ironclad.Pointers.Allocators

/-!
# Matrices

A `matrix<T>` is one array, and `operator()` checks each coordinate on its own before it goes to
element `y * x_size + x`. When the bytes of the matrix are a `size_t`, the pairs that pass the
checks are exactly the elements, each element once (`new_matrix_oneToOne`): a quotient and a
remainder by `x_size`.
-/

namespace Ironclad.Pointers

open Ironclad.Logic

namespace Matrix

/-- What is read through `operator()`. -/
def read (sizeofT : Word) (m : Matrix) (mem : Memory 64) (x y : Word) :
    Option (Fin sizeofT.toNat → BitVec 8) :=
  (m.call sizeofT x y).map fun a j => mem.byte a j

/-- The memory after an assignment of the bytes `v` through `operator()`. -/
def write (sizeofT : Word) (m : Matrix) (mem : Memory 64) (x y : Word) (v : Nat → BitVec 8) :
    Option (Memory 64) :=
  (m.call sizeofT x y).map fun a => mem.write a sizeofT.toNat v

/-- The pairs of 64-bit values that `operator()` accepts. -/
def accepted (sizeofT : Word) (m : Matrix) : Set (Word × Word) :=
  {p | (m.call sizeofT p.1 p.2).isSome = true}

/-- The element that a pair stands for. -/
def position (m : Matrix) (p : Word × Word) : Nat := p.2.toNat * m.x_size.toNat + p.1.toNat

/-- The accepted pairs are the `x_size * y_size` elements from `base` on, which lie in the block
and share no byte, and a write through one pair is read back through that pair only. -/
structure OneToOne {bytes : Word} (b : Block bytes) (sizeofT : Word) (m : Matrix) : Prop where
  bijOn : Set.BijOn m.position (m.accepted sizeofT) (Set.Iio (m.x_size.toNat * m.y_size.toNat))
  call_eq : ∀ p ∈ m.accepted sizeofT,
    m.call sizeofT p.1 p.2 = some (element sizeofT b.base (BitVec.ofNat 64 (m.position p)))
  inside : ∀ x y a, m.call sizeofT x y = some a → b.Holds sizeofT a
  apart : ∀ x y x' y' a a', (x, y) ≠ (x', y') → m.call sizeofT x y = some a →
    m.call sizeofT x' y' = some a' →
    (⟨a, sizeofT.toNat⟩ : Region 64).Apart ⟨a', sizeofT.toNat⟩
  read_written : ∀ mem mem' x y v, m.write sizeofT mem x y v = some mem' →
    m.read sizeofT mem' x y = some fun j : Fin sizeofT.toNat => v j
  read_others : ∀ mem mem' x y v, m.write sizeofT mem x y v = some mem' →
    ∀ x' y', (x', y') ≠ (x, y) → m.read sizeofT mem' x' y' = m.read sizeofT mem x' y'

variable {sizeofT : Word} {m : Matrix}

/-! ## Pairs and positions -/

theorem mem_accepted {p : Word × Word} :
    p ∈ m.accepted sizeofT ↔ p.1.toNat < m.x_size.toNat ∧ p.2.toNat < m.y_size.toNat := by
  show (m.call sizeofT p.1 p.2).isSome = true ↔ p.1 < m.x_size ∧ p.2 < m.y_size
  unfold call
  split
  · exact iff_of_true rfl ‹_›
  · exact iff_of_false Bool.false_ne_true ‹_›

/-- Two numbers below `w` and a multiple of `w` each: the quotient and the remainder are
unique. -/
theorem rowMajor_inj {w x y x' y' : Nat} (hx : x < w) (hx' : x' < w)
    (h : y * w + x = y' * w + x') : x = x' ∧ y = y' := by
  have hmod := congrArg (· % w) h
  have hdiv := congrArg (· / w) h
  simp only [Nat.mul_add_mod_self_right, Nat.mod_eq_of_lt hx, Nat.mod_eq_of_lt hx'] at hmod
  have hw : 0 < w := by omega
  simp only [Nat.mul_comm _ w, Nat.mul_add_div hw, Nat.div_eq_of_lt hx, Nat.div_eq_of_lt hx',
    Nat.add_zero] at hdiv
  exact ⟨hmod, hdiv⟩

theorem position_lt {p : Word × Word} (hp : p ∈ m.accepted sizeofT) :
    m.position p < m.x_size.toNat * m.y_size.toNat := by
  obtain ⟨hx, hy⟩ := mem_accepted.mp hp
  calc p.2.toNat * m.x_size.toNat + p.1.toNat < (p.2.toNat + 1) * m.x_size.toNat := by
        rw [Nat.add_mul]
        omega
    _ ≤ m.y_size.toNat * m.x_size.toNat := Nat.mul_le_mul_right _ hy
    _ = m.x_size.toNat * m.y_size.toNat := Nat.mul_comm ..

theorem position_injOn : Set.InjOn m.position (m.accepted sizeofT) := by
  intro p hp q hq h
  obtain ⟨hx, hy⟩ := rowMajor_inj (mem_accepted.mp hp).1 (mem_accepted.mp hq).1 h
  exact Prod.ext (BitVec.eq_of_toNat_eq hx) (BitVec.eq_of_toNat_eq hy)

theorem position_surjOn : Set.SurjOn m.position (m.accepted sizeofT)
    (Set.Iio (m.x_size.toNat * m.y_size.toNat)) := by
  intro k hk
  replace hk : k < m.x_size.toNat * m.y_size.toNat := hk
  have hpos : 0 < m.x_size.toNat := by
    apply Nat.pos_of_ne_zero
    intro h0
    rw [h0, Nat.zero_mul] at hk
    omega
  -- column and row of the element
  have hcol : k % m.x_size.toNat < m.x_size.toNat := Nat.mod_lt _ hpos
  have hrow : k / m.x_size.toNat < m.y_size.toNat := Nat.div_lt_of_lt_mul hk
  have hx := m.x_size.isLt
  have hy := m.y_size.isLt
  have hcol' := Region.toNat_ofNat_of_lt (w := 64) (show k % m.x_size.toNat < 2 ^ 64 by omega)
  have hrow' := Region.toNat_ofNat_of_lt (w := 64) (show k / m.x_size.toNat < 2 ^ 64 by omega)
  refine ⟨(BitVec.ofNat 64 (k % m.x_size.toNat), BitVec.ofNat 64 (k / m.x_size.toNat)), ?_, ?_⟩
  · rw [mem_accepted]
    exact ⟨by rw [hcol']; exact hcol, by rw [hrow']; exact hrow⟩
  · unfold position
    rw [hcol', hrow', Nat.mul_comm, Nat.div_add_mod]

theorem position_bijOn : Set.BijOn m.position (m.accepted sizeofT)
    (Set.Iio (m.x_size.toNat * m.y_size.toNat)) :=
  ⟨fun _ hp => position_lt hp, position_injOn, position_surjOn⟩

/-! ## Positions and memory -/

/-- The address that the code computes is that of the element at the position. -/
theorem call_of_accepted {x y : Word} (h : (x, y) ∈ m.accepted sizeofT) :
    m.call sizeofT x y = some (element sizeofT m.data (BitVec.ofNat 64 (m.position (x, y)))) := by
  have hxy : x < m.x_size ∧ y < m.y_size := mem_accepted.mp h
  rw [call, if_pos hxy]
  congr 2
  apply BitVec.eq_of_toNat_eq
  rw [BitVec.toNat_add, BitVec.toNat_mul, BitVec.toNat_ofNat, Nat.mod_add_mod]
  rfl

theorem accepted_of_call {x y a : Word} (h : m.call sizeofT x y = some a) :
    (x, y) ∈ m.accepted sizeofT ∧
      a = m.data + BitVec.ofNat 64 (m.position (x, y) * sizeofT.toNat) := by
  have hacc : (x, y) ∈ m.accepted sizeofT := by
    show (m.call sizeofT x y).isSome = true
    rw [h]
    rfl
  rw [call_of_accepted hacc] at h
  refine ⟨hacc, (Option.some.inj h).symm.trans ?_⟩
  unfold element
  congr 1
  apply BitVec.eq_of_toNat_eq
  rw [BitVec.toNat_mul, BitVec.toNat_ofNat, BitVec.toNat_ofNat, Nat.mod_mul_mod]

/-- The elements are the cells of the array. -/
theorem read_eq_cell {mem : Memory 64} {x y : Word} (h : (x, y) ∈ m.accepted sizeofT) :
    m.read sizeofT mem x y = some (mem.cell m.data sizeofT.toNat (m.position (x, y))) := by
  have hcall := call_of_accepted h
  obtain ⟨-, ha⟩ := accepted_of_call hcall
  rw [read, hcall, Option.map_some, ha]
  congr 1
  funext j
  exact Memory.byte_add mem m.data _ _

section

variable {bytes : Word} {b : Block bytes} {x_size y_size : Word}

/-- **A matrix that starts with its block and whose elements fit in it.** -/
theorem oneToOne_of_fits (hN : x_size.toNat * y_size.toNat * sizeofT.toNat ≤ bytes.toNat) :
    OneToOne b sizeofT ⟨b.base, x_size, y_size⟩ := by
  have hbytes := bytes.isLt
  have hlt : x_size.toNat * y_size.toNat * sizeofT.toNat ≤ 2 ^ 64 := by omega
  refine ⟨position_bijOn, fun p hp => call_of_accepted hp, ?_, ?_, ?_, ?_⟩
  · intro x y a hcall
    obtain ⟨hacc, -⟩ := accepted_of_call hcall
    rw [call_of_accepted hacc] at hcall
    rw [← Option.some.inj hcall]
    exact holdsElements_base.mpr hN _ (position_lt hacc)
  · intro x y x' y' a a' hne hcall hcall'
    obtain ⟨hacc, rfl⟩ := accepted_of_call hcall
    obtain ⟨hacc', rfl⟩ := accepted_of_call hcall'
    apply Memory.cells_apart hlt (position_lt hacc) (position_lt hacc')
    intro heq
    exact hne (position_injOn hacc hacc' heq)
  · intro mem mem' x y v hwrite
    obtain ⟨a, hcall, rfl⟩ := Option.map_eq_some_iff.mp hwrite
    obtain ⟨hacc, rfl⟩ := accepted_of_call hcall
    rw [read_eq_cell hacc, Memory.cell_write hlt (position_lt hacc) (position_lt hacc),
      Function.update_self]
  · intro mem mem' x y v hwrite x' y' hne
    obtain ⟨a, hcall, rfl⟩ := Option.map_eq_some_iff.mp hwrite
    obtain ⟨hacc, rfl⟩ := accepted_of_call hcall
    cases hcall' : call sizeofT ⟨b.base, x_size, y_size⟩ x' y' with
    | none => rw [read, read, hcall', Option.map_none, Option.map_none]
    | some a' =>
        obtain ⟨hacc', -⟩ := accepted_of_call hcall'
        rw [read_eq_cell hacc', read_eq_cell hacc',
          Memory.cell_write hlt (position_lt hacc) (position_lt hacc'), Function.update_of_ne]
        intro heq
        exact hne (position_injOn hacc' hacc heq)

end

/-- **Matrix indexing is one-to-one**, for every matrix whose bytes are a `size_t`. -/
theorem new_matrix_oneToOne {malloc : Malloc} {limit : Nat} {x_size y_size : Word}
    (hlt : x_size.toNat * y_size.toNat * sizeofT.toNat < 2 ^ 64) {al : Allocation}
    (hal : new_matrix malloc limit sizeofT x_size y_size = some al) :
    ∃ m, al.object = .matrix m ∧ m.x_size = x_size ∧ m.y_size = y_size ∧
      OneToOne al.block sizeofT m := by
  obtain ⟨-, hplace⟩ := Option.ite_none_right_eq_some.mp hal
  obtain ⟨data, hdata, rfl⟩ := Option.map_eq_some_iff.mp hplace
  obtain ⟨-, h⟩ := Option.ite_none_right_eq_some.mp hdata
  obtain rfl := Option.some.inj h
  refine ⟨_, rfl, rfl, rfl, oneToOne_of_fits ?_⟩
  -- the request does not wrap
  have hbytes : (sizeofT * x_size * y_size).toNat =
      x_size.toNat * y_size.toNat * sizeofT.toNat % 2 ^ 64 := by
    rw [BitVec.toNat_mul, BitVec.toNat_mul, Nat.mod_mul_mod, Nat.mul_assoc, Nat.mul_comm]
  rw [hbytes, Nat.mod_eq_of_lt hlt]

/-- A matrix of three times two `int`s. -/
theorem new_matrix_oneToOne_three :
    ∃ m, Object.matrix ⟨1, 3, 2⟩ = .matrix m ∧ m.x_size = 3 ∧ m.y_size = 2 ∧
      OneToOne (lowBlock (4 * 3 * 2)) 4 m := by
  have hal : new_matrix lowBlock (2 ^ 63 - 1) 4 3 2 =
      some ⟨_, lowBlock (4 * 3 * 2), .matrix ⟨1, 3, 2⟩⟩ := rfl
  exact new_matrix_oneToOne (by decide) hal

end Matrix

end Ironclad.Pointers
