import Mathlib.Logic.Function.Basic
import Ironclad.Logic.Region

/-!
# Memory as a sequence of cells

From an address on, a memory is a sequence of cells of `n` bytes each. Writing one cell changes
this cell and no other, as long as the cells do not reach around the address space.
-/

namespace Ironclad.Logic.Memory

variable {w n : Nat} {m : Memory w} {p a : BitVec w} {f : Nat → BitVec 8} {N k l : Nat}

/-- The `k`-th cell of `n` bytes from `p` on. -/
def cell (m : Memory w) (p : BitVec w) (n k : Nat) : Fin n → BitVec 8 :=
  fun j => m.byte p (k * n + j)

theorem byte_add (m : Memory w) (p : BitVec w) (b i : Nat) :
    m.byte (p + BitVec.ofNat w b) i = m.byte p (b + i) := by
  rw [byte, byte, BitVec.ofNat_add, add_assoc]

/-- What is written in front of a byte leaves it alone. -/
theorem byte_write_of_ge {b i : Nat} (hi : b + n ≤ i) (hw : i < 2 ^ w) :
    (m.write (p + BitVec.ofNat w b) n f).byte p i = m.byte p i := by
  apply write_of_not_mem
  intro hmem
  rw [Region.mem_mk, add_sub_add_left_eq_sub, BitVec.toNat_sub_of_le, BitVec.toNat_ofNat,
    BitVec.toNat_ofNat, Nat.mod_eq_of_lt hw, Nat.mod_eq_of_lt (by omega)] at hmem
  · omega
  · rw [BitVec.le_def, BitVec.toNat_ofNat, BitVec.toNat_ofNat, Nat.mod_eq_of_lt hw,
      Nat.mod_eq_of_lt (by omega)]
    omega

/-- A byte after a write, by its distance from `p`. -/
theorem byte_write {b i : Nat} (hb : b + n ≤ 2 ^ w) (hi : i < 2 ^ w) :
    (m.write (p + BitVec.ofNat w b) n f).byte p i =
      if b ≤ i ∧ i < b + n then f (i - b) else m.byte p i := by
  rcases Nat.lt_or_ge i b with hlt | hge
  · rw [if_neg (by omega)]
    exact byte_write_of_lt hlt hb
  · rcases Nat.lt_or_ge i (b + n) with hlt' | hge'
    · rw [if_pos ⟨hge, hlt'⟩]
      obtain ⟨j, rfl⟩ : ∃ j, i = b + j := ⟨i - b, by omega⟩
      rw [Nat.add_sub_cancel_left]
      exact byte_write_add (by omega) (by omega)
    · rw [if_neg (by omega)]
      exact byte_write_of_ge hge' hi

/-- **Writing one cell.** -/
theorem cell_write (hN : N * n ≤ 2 ^ w) (hk : k < N) (hl : l < N) :
    (m.write (p + BitVec.ofNat w (k * n)) n f).cell p n l =
      Function.update (m.cell p n) k (fun j => f j) l := by
  have hend : ∀ c < N, c * n + n ≤ N * n := by
    intro c hc
    have hle : (c + 1) * n ≤ N * n := Nat.mul_le_mul_right n hc
    rw [Nat.add_mul, Nat.one_mul] at hle
    exact hle
  have hkN := hend k hk
  have hlN := hend l hl
  funext j
  have hj := j.isLt
  rcases Nat.lt_trichotomy l k with hlt | rfl | hgt
  · rw [Function.update_of_ne (by omega)]
    have hle : (l + 1) * n ≤ k * n := Nat.mul_le_mul_right n hlt
    rw [Nat.add_mul, Nat.one_mul] at hle
    exact byte_write_of_lt (by omega) (by omega)
  · rw [Function.update_self]
    exact byte_write_add hj (by omega)
  · rw [Function.update_of_ne (by omega)]
    have hle : (k + 1) * n ≤ l * n := Nat.mul_le_mul_right n hgt
    rw [Nat.add_mul, Nat.one_mul] at hle
    exact byte_write_of_ge (by omega) (by omega)

/-- The distance from the first cell tells which cell an address lies in. -/
theorem mem_cell_distance (hN : N * n ≤ 2 ^ w) (hk : k < N)
    (ha : a ∈ (⟨p + BitVec.ofNat w (k * n), n⟩ : Region w)) :
    k * n ≤ (a - p).toNat ∧ (a - p).toNat < (k + 1) * n := by
  have hle : (k + 1) * n ≤ N * n := Nat.mul_le_mul_right n hk
  rw [Region.mem_mk] at ha
  rw [Nat.add_mul, Nat.one_mul] at hle ⊢
  have hoff : (p + BitVec.ofNat w (k * n) - p).toNat = k * n := Region.offset_toNat (by omega)
  rw [Region.distance_add (b := p + BitVec.ofNat w (k * n)) (by omega), hoff]
  omega

/-- Two cells share no byte. -/
theorem cells_apart (hN : N * n ≤ 2 ^ w) (hk : k < N) (hl : l < N) (hkl : k ≠ l) :
    (⟨p + BitVec.ofNat w (k * n), n⟩ : Region w).Apart ⟨p + BitVec.ofNat w (l * n), n⟩ := by
  intro a hak hal
  obtain ⟨hk1, hk2⟩ := mem_cell_distance hN hk hak
  obtain ⟨hl1, hl2⟩ := mem_cell_distance hN hl hal
  rcases Nat.lt_or_gt_of_ne hkl with hlt | hgt
  · have hle : (k + 1) * n ≤ l * n := Nat.mul_le_mul_right n hlt
    omega
  · have hle : (l + 1) * n ≤ k * n := Nat.mul_le_mul_right n hgt
    omega

/-- Writing one cell with the bytes of another one. -/
theorem cell_copy {j : Nat} (hN : N * n ≤ 2 ^ w) (hk : k < N) (hl : l < N) :
    (m.write (p + BitVec.ofNat w (k * n)) n (m.byte (p + BitVec.ofNat w (j * n)))).cell p n l =
      Function.update (m.cell p n) k (m.cell p n j) l := by
  rw [cell_write hN hk hl]
  congr 1
  funext i
  exact byte_add m p (j * n) i

/-- The frame: what lies outside all cells stays. -/
theorem write_cell_outside (hN : N * n < 2 ^ w) (hk : k < N)
    (ha : a ∉ (⟨p, N * n⟩ : Region w)) :
    m.write (p + BitVec.ofNat w (k * n)) n f a = m a := by
  apply write_of_not_mem
  intro hmem
  apply ha
  have hle : (k + 1) * n ≤ N * n := Nat.mul_le_mul_right n hk
  rw [Nat.add_mul, Nat.one_mul] at hle
  refine (Region.subset_iff hN).mpr (.inr ?_) a hmem
  show (p + BitVec.ofNat w (k * n) - p).toNat + n ≤ N * n
  rcases Nat.eq_zero_or_pos n with rfl | hn
  · simp
  · rw [Region.offset_toNat (by omega)]
    exact hle

/-- The cells from `k` on written one after the other. -/
def writeCells (m : Memory w) (p : BitVec w) (n : Nat) : Nat → List (Nat → BitVec 8) → Memory w
  | _, [] => m
  | k, v :: vs => writeCells (m.write (p + BitVec.ofNat w (k * n)) n v) p n (k + 1) vs

/-- The frame: the cells in front and behind stay. -/
theorem cell_writeCells_of_not {vs : List (Nat → BitVec 8)} (hN : N * n ≤ 2 ^ w)
    (hvs : k + vs.length ≤ N) (hl : l < N) (h : l < k ∨ k + vs.length ≤ l) :
    (m.writeCells p n k vs).cell p n l = m.cell p n l := by
  induction vs generalizing m k with
  | nil => rfl
  | cons v vs ih =>
      rw [List.length_cons] at hvs h
      rw [writeCells, ih (by omega) (by omega), cell_write hN (by omega) hl,
        Function.update_of_ne (by omega)]

/-- A cell that is written holds what its place in the list says. -/
theorem cell_writeCells {vs : List (Nat → BitVec 8)} {v : Nat → BitVec 8} {i : Nat}
    (hN : N * n ≤ 2 ^ w) (hvs : k + vs.length ≤ N) (hv : vs[i]? = some v) :
    (m.writeCells p n k vs).cell p n (k + i) = fun j : Fin n => v j := by
  induction vs generalizing m k i with
  | nil => cases hv
  | cons u us ih =>
      rw [List.length_cons] at hvs
      cases i with
      | zero =>
          -- the later cells are not this one
          obtain rfl : u = v := Option.some.inj hv
          rw [writeCells, Nat.add_zero k,
            cell_writeCells_of_not hN (by omega) (by omega) (.inl (by omega)),
            cell_write hN (by omega) (by omega), Function.update_self]
      | succ i =>
          rw [writeCells, show k + (i + 1) = k + 1 + i by omega]
          exact ih (by omega) hv

end Ironclad.Logic.Memory
