import Mathlib.Data.BitVec

/-!
# Regions of an address space

A region is a start address and a number of bytes. Addresses are words and wrap around, so a
region is an arc of the address space: an address lies in it when its distance from the start
is below the length.

The two questions that accesses raise are answered by arithmetic: when one region lies in
another (`subset_iff`) and when two regions are apart (`apart_iff`). A memory that results from
copying is described by the offsets copied (`Memory.CopiedAt`), so that two ways to copy can be
compared by their offsets.
-/

namespace Ironclad.Logic

/-- The bytes `start, start + 1, …`, `len` of them. -/
structure Region (w : Nat) where
  start : BitVec w
  len : Nat
  deriving DecidableEq, Repr

namespace Region

variable {w : Nat} {r q : Region w} {a : BitVec w}

instance : Membership (BitVec w) (Region w) := ⟨fun r a => (a - r.start).toNat < r.len⟩

instance (a : BitVec w) (r : Region w) : Decidable (a ∈ r) :=
  inferInstanceAs (Decidable ((a - r.start).toNat < r.len))

instance : HasSubset (Region w) := ⟨fun r q => ∀ a, a ∈ r → a ∈ q⟩

theorem mem_iff : a ∈ r ↔ (a - r.start).toNat < r.len := Iff.rfl

theorem mem_mk {p : BitVec w} {n : Nat} : a ∈ (⟨p, n⟩ : Region w) ↔ (a - p).toNat < n := Iff.rfl

theorem subset_def : r ⊆ q ↔ ∀ a, a ∈ r → a ∈ q := Iff.rfl

/-- Nothing lies in an empty region. -/
theorem not_mem_of_len (h : r.len = 0) : a ∉ r := by
  rw [mem_iff, h]
  omega

theorem subset_of_len (h : r.len = 0) : r ⊆ q := fun _ ha => absurd ha (not_mem_of_len h)

theorem toNat_ofNat_of_lt {i : Nat} (h : i < 2 ^ w) : (BitVec.ofNat w i).toNat = i := by
  rw [BitVec.toNat_ofNat, Nat.mod_eq_of_lt h]

/-- The offset of an address that lies a number of bytes behind the start. -/
theorem offset_toNat {p : BitVec w} {i : Nat} (h : i < 2 ^ w) :
    (p + BitVec.ofNat w i - p).toNat = i := by
  rw [add_sub_cancel_left, toNat_ofNat_of_lt h]

theorem add_mem_mk {p : BitVec w} {i n : Nat} (hi : i < n) (hw : i < 2 ^ w) :
    p + BitVec.ofNat w i ∈ (⟨p, n⟩ : Region w) := by
  rw [mem_mk, offset_toNat hw]
  exact hi

/-- Distances along the same arc add up. -/
theorem distance_add {b c : BitVec w} (h : (a - b).toNat + (b - c).toNat < 2 ^ w) :
    (a - c).toNat = (a - b).toNat + (b - c).toNat := by
  rw [← sub_add_sub_cancel a b c, BitVec.toNat_add_of_lt h]

/-- A region lies in another one that is not the whole address space exactly when it is empty
or starts inside and ends no later. -/
theorem subset_iff (hq : q.len < 2 ^ w) :
    r ⊆ q ↔ r.len = 0 ∨ (r.start - q.start).toNat + r.len ≤ q.len := by
  constructor
  · intro h
    by_cases hlen : r.len = 0
    · exact .inl hlen
    · right
      have hpos : 0 < 2 ^ w := Nat.two_pow_pos w
      have hstart : (r.start - q.start).toNat < q.len := by
        apply h
        rw [mem_iff, sub_self]
        show (0#w).toNat < r.len
        rw [BitVec.toNat_zero]
        omega
      -- otherwise the first byte behind `q` would lie in `r`
      by_contra hgt
      have hmem : r.start + BitVec.ofNat w (q.len - (r.start - q.start).toNat) ∈ q := by
        apply h
        apply add_mem_mk
        · omega
        · omega
      rw [mem_iff, distance_add (b := r.start), offset_toNat (by omega)] at hmem
      · omega
      · rw [offset_toNat (by omega)]
        omega
  · intro h a ha
    rw [mem_iff] at ha
    rcases h with h | h
    · omega
    · rw [mem_iff, distance_add (b := r.start)] <;> omega

/-! ## Regions that are apart -/

/-- No address lies in both regions. -/
def Apart (r q : Region w) : Prop := ∀ a, a ∈ r → a ∉ q

theorem Apart.mono {r' q' : Region w} (h : r.Apart q) (hr : r' ⊆ r) (hq : q' ⊆ q) :
    r'.Apart q' := fun a ha hb => h a (hr a ha) (hq a hb)

/-- Two arcs meet exactly when one of them starts in the other. -/
theorem apart_iff :
    r.Apart q ↔ r.len = 0 ∨ q.len = 0 ∨ (r.start ∉ q ∧ q.start ∉ r) := by
  constructor
  · intro h
    by_cases hr : r.len = 0
    · exact .inl hr
    by_cases hq : q.len = 0
    · exact .inr (.inl hq)
    have hself : ∀ s : Region w, s.len ≠ 0 → s.start ∈ s := by
      intro s hs
      rw [mem_iff, sub_self]
      show (0#w).toNat < s.len
      rw [BitVec.toNat_zero]
      omega
    exact .inr (.inr ⟨h _ (hself r hr), fun hm => h _ hm (hself q hq)⟩)
  · intro h a har haq
    rcases h with h | h | ⟨hr, hq⟩
    · exact not_mem_of_len h har
    · exact not_mem_of_len h haq
    · rw [mem_iff] at har haq hr hq
      -- the one that `a` is nearer to starts in the other
      rcases Nat.le_total (a - r.start).toNat (a - q.start).toNat with hle | hle
      · apply hr
        have hsub : r.start - q.start = (a - q.start) - (a - r.start) := by
          rw [sub_sub_sub_cancel_left]
        rw [hsub, BitVec.toNat_sub_of_le (by rw [BitVec.le_def]; exact hle)]
        omega
      · apply hq
        have hsub : q.start - r.start = (a - r.start) - (a - q.start) := by
          rw [sub_sub_sub_cancel_left]
        rw [hsub, BitVec.toNat_sub_of_le (by rw [BitVec.le_def]; exact hle)]
        omega

instance (r q : Region w) : Decidable (r.Apart q) := decidable_of_iff _ apart_iff.symm

end Region

/-! ## Memory -/

/-- What every address holds. -/
def Memory (w : Nat) := BitVec w → BitVec 8

namespace Memory

variable {w : Nat} {m : Memory w} {p a : BitVec w} {n : Nat} {f : Nat → BitVec 8}

/-- The memory with the `n` bytes from `p` on replaced. -/
def write (m : Memory w) (p : BitVec w) (n : Nat) (f : Nat → BitVec 8) : Memory w :=
  fun a => if a ∈ (⟨p, n⟩ : Region w) then f (a - p).toNat else m a

/-- The byte `i` places behind `p`. -/
def byte (m : Memory w) (p : BitVec w) (i : Nat) : BitVec 8 := m (p + BitVec.ofNat w i)

theorem write_of_mem (h : a ∈ (⟨p, n⟩ : Region w)) : m.write p n f a = f (a - p).toNat := if_pos h

/-- The frame: what lies outside the bytes written stays. -/
theorem write_of_not_mem (h : a ∉ (⟨p, n⟩ : Region w)) : m.write p n f a = m a := if_neg h

/-- What is written behind a byte leaves it alone. -/
theorem byte_write_of_lt {i b : Nat} (hi : i < b) (hw : b + n ≤ 2 ^ w) :
    (m.write (p + BitVec.ofNat w b) n f).byte p i = m.byte p i := by
  apply write_of_not_mem
  intro hmem
  rw [Region.mem_mk] at hmem
  -- the distance back to the bytes written is longer than they are
  have hback : (p + BitVec.ofNat w b - (p + BitVec.ofNat w i)).toNat = b - i := by
    rw [add_sub_add_left_eq_sub, BitVec.toNat_sub_of_le, BitVec.toNat_ofNat, BitVec.toNat_ofNat,
      Nat.mod_eq_of_lt (by omega), Nat.mod_eq_of_lt (by omega)]
    rw [BitVec.le_def, BitVec.toNat_ofNat, BitVec.toNat_ofNat, Nat.mod_eq_of_lt (by omega),
      Nat.mod_eq_of_lt (by omega)]
    omega
  have hsum := Region.distance_add (a := p + BitVec.ofNat w i) (b := p + BitVec.ofNat w b)
    (c := p + BitVec.ofNat w i) (by omega)
  rw [sub_self, hback] at hsum
  have hzero : (0 : BitVec w).toNat = 0 := BitVec.toNat_zero
  omega

theorem byte_write_add {i b : Nat} (hi : i < n) (hw : i < 2 ^ w) :
    (m.write (p + BitVec.ofNat w b) n f).byte p (b + i) = f i := by
  rw [byte, BitVec.ofNat_add, ← add_assoc, write_of_mem (Region.add_mem_mk hi hw),
    Region.offset_toNat hw]

/-! ### Copies -/

/-- `m'` is `m` with the bytes at the offsets `O` from `s` copied to the same offsets from
`d`. -/
structure CopiedAt (m m' : Memory w) (d s : BitVec w) (O : BitVec w → Prop) : Prop where
  inside : ∀ o, O o → m' (d + o) = m (s + o)
  outside : ∀ o, ¬O o → m' (d + o) = m (d + o)

section

variable {m' m₁ m₂ : Memory w} {d s : BitVec w} {O O₁ O₂ : BitVec w → Prop}

theorem copiedAt_nothing (h : ∀ o, ¬O o) : CopiedAt m m d s O :=
  ⟨fun o ho => absurd ho (h o), fun _ _ => rfl⟩

theorem CopiedAt.congr (h : CopiedAt m m' d s O) (hO : ∀ o, O₁ o ↔ O o) : CopiedAt m m' d s O₁ :=
  ⟨fun o ho => h.inside o ((hO o).mp ho), fun o ho => h.outside o ((hO o).not.mp ho)⟩

/-- Two copies have one result exactly when source and destination agree already where only one
of them copies. -/
theorem CopiedAt.eq_iff (h₁ : CopiedAt m m₁ d s O₁) (h₂ : CopiedAt m m₂ d s O₂) :
    m₁ = m₂ ↔ ∀ o, ¬(O₁ o ↔ O₂ o) → m (s + o) = m (d + o) := by
  constructor
  · intro heq o hone
    have hat : m₁ (d + o) = m₂ (d + o) := by rw [heq]
    by_cases ho : O₁ o
    · rw [h₁.inside o ho, h₂.outside o (by tauto)] at hat
      exact hat
    · rw [h₁.outside o ho, h₂.inside o (by tauto)] at hat
      exact hat.symm
  · intro hagree
    funext a
    obtain ⟨o, rfl⟩ : ∃ o, a = d + o := ⟨a - d, (add_sub_cancel d a).symm⟩
    by_cases ho₁ : O₁ o <;> by_cases ho₂ : O₂ o
    · rw [h₁.inside o ho₁, h₂.inside o ho₂]
    · rw [h₁.inside o ho₁, h₂.outside o ho₂, hagree o (by tauto)]
    · rw [h₁.outside o ho₁, h₂.inside o ho₂, hagree o (by tauto)]
    · rw [h₁.outside o ho₁, h₂.outside o ho₂]

/-- One more block is copied, from bytes that the copy has not reached. -/
theorem CopiedAt.write_block {x : BitVec w} (h : CopiedAt m m' d s O)
    (hfresh : ∀ o, O o → d + o ∉ (⟨s + x, n⟩ : Region w)) :
    CopiedAt m (m'.write (d + x) n (m'.byte (s + x))) d s
      (fun o => O o ∨ (o - x).toNat < n) := by
  have hmem : ∀ o, d + o ∈ (⟨d + x, n⟩ : Region w) ↔ (o - x).toNat < n := by
    intro o
    rw [Region.mem_mk, add_sub_add_left_eq_sub]
  have hblock : ∀ o, (o - x).toNat < n →
      m'.write (d + x) n (m'.byte (s + x)) (d + o) = m (s + o) := by
    intro o ho
    have hsource : s + x + BitVec.ofNat w (d + o - (d + x)).toNat = s + o := by
      rw [BitVec.ofNat_toNat, BitVec.setWidth_eq, add_sub_add_left_eq_sub, add_assoc,
        add_sub_cancel]
    -- the byte read is as it was: it is no byte that has been copied to
    have hread : m' (s + o) = m (s + o) := by
      have hd : s + o = d + (s + o - d) := (add_sub_cancel d (s + o)).symm
      rw [hd]
      apply h.outside
      intro hO
      apply hfresh _ hO
      rw [← hd, Region.mem_mk, add_sub_add_left_eq_sub]
      exact ho
    rw [write_of_mem ((hmem o).mpr ho), byte, hsource, hread]
  constructor
  · intro o ho
    by_cases hx : (o - x).toNat < n
    · exact hblock o hx
    · rw [write_of_not_mem ((hmem o).not.mpr hx)]
      exact h.inside o (ho.resolve_right hx)
  · intro o ho
    rw [write_of_not_mem ((hmem o).not.mpr fun hx => ho (.inr hx))]
    exact h.outside o fun hO => ho (.inl hO)

/-- A block copied at once. -/
theorem copiedAt_write (m : Memory w) (d s : BitVec w) (n : Nat) :
    CopiedAt m (m.write d n (m.byte s)) d s (fun o => o.toNat < n) := by
  have hnone : CopiedAt m m d s fun _ => False := copiedAt_nothing fun _ h => h
  have hblock := hnone.write_block (x := 0) (n := n) fun _ h => h.elim
  rw [add_zero, add_zero] at hblock
  apply hblock.congr
  intro o
  rw [false_or, sub_zero]

end

end Memory

end Ironclad.Logic
