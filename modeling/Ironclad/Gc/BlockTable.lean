import Ironclad.Gc.HeaderIndex

/-!
# Blocks in the index

What the index looks like where it describes the heap: a block has its header on the first page,
and behind it counts if it is in use, nothing if it is free. Blocks do not overlap, because the
body of one is no header of another. `TableOk.splice` is how the index changes: between two pages
that no block crosses, some whole blocks take the place of others.
-/

namespace Ironclad.Gc

open Hblks

/-- The number of pages of the block. -/
def Hblkhdr.pages (hhdr : Hblkhdr) : Nat :=
  if hhdr.free_blk then divHBLKSZ hhdr.hb_sz else Hblks.OBJ_SZ_TO_BLOCKS hhdr.hb_sz

/-- What the index has for the page `i` of a block, behind the first. -/
def Hblkhdr.body (hhdr : Hblkhdr) (i : Nat) : IndexEntry :=
  if hhdr.free_blk then .nil else .count (min i MAX_JUMP)

theorem Hblkhdr.body_ne_hdr (hhdr hhdr' : Hblkhdr) (i : Nat) : hhdr.body i ≠ .hdr hhdr' := by
  unfold Hblkhdr.body
  split <;> exact nofun

namespace Hblks

/-- The first page that the mutator can have, and the end of its half of the address space. -/
def firstPage : Nat := 2
def lastPage : Nat := 2 ^ 51

variable {T T' : Nat → IndexEntry} {a b p q : Nat} {hhdr : Hblkhdr}

/-- The header at `p` is that of a block that is all there. -/
structure BlockAt (T : Nat → IndexEntry) (p : Nat) (hhdr : Hblkhdr) : Prop where
  hdr : T p = .hdr hhdr
  pos : 0 < hhdr.pages
  body : ∀ i, 0 < i → i < hhdr.pages → T (p + i) = hhdr.body i
  whole : hhdr.free_blk = true → hhdr.hb_sz = hhdr.pages * HBLKSIZE

/-- The page `q` belongs to the block that starts at `p`. -/
def Covers (T : Nat → IndexEntry) (p q : Nat) : Prop :=
  ∃ hhdr, T p = .hdr hhdr ∧ p ≤ q ∧ q < p + hhdr.pages

def Owned (T : Nat → IndexEntry) (q : Nat) : Prop := ∃ p, Covers T p q

/-- Every header is that of a block, and every count is in one. -/
structure TableOk (T : Nat → IndexEntry) : Prop where
  block : ∀ p hhdr, T p = .hdr hhdr → BlockAt T p hhdr
  counts : ∀ q n, T q = .count n → Owned T q
  bounds : ∀ p hhdr, T p = .hdr hhdr → firstPage ≤ p ∧ p + hhdr.pages ≤ lastPage

/-- From `a` to `b` there is one whole block after the other. -/
inductive Tiled (T : Nat → IndexEntry) : Nat → Nat → Prop
  | nil (a : Nat) : Tiled T a a
  | cons {a b : Nat} {hhdr : Hblkhdr} :
      BlockAt T a hhdr → Tiled T (a + hhdr.pages) b → Tiled T a b

/-- No block crosses `a` or `b`. -/
def Separate (T : Nat → IndexEntry) (a b : Nat) : Prop :=
  ∀ p hhdr, T p = .hdr hhdr →
    p + hhdr.pages ≤ a ∨ b ≤ p ∨ a ≤ p ∧ p + hhdr.pages ≤ b

theorem Tiled.le (h : Tiled T a b) : a ≤ b := by
  induction h with
  | nil => exact le_rfl
  | cons _ _ ih => omega

/-- One block. -/
theorem BlockAt.tiled (h : BlockAt T p hhdr) (hb : p + hhdr.pages = b) : Tiled T p b :=
  .cons h (hb ▸ .nil _)

/-- A tile that does not read beyond its end. -/
theorem BlockAt.congr (h : BlockAt T p hhdr)
    (hT : ∀ q, p ≤ q → q < p + hhdr.pages → T' q = T q) : BlockAt T' p hhdr where
  hdr := (hT p le_rfl (by have := h.pos; omega)).trans h.hdr
  pos := h.pos
  body i hi hlt := (hT (p + i) (by omega) (by omega)).trans (h.body i hi hlt)
  whole := h.whole

/-- The headers and counts between the ends of a tiling are those of its blocks. -/
theorem Tiled.inside (h : Tiled T a b) (haq : a ≤ q) (hqb : q < b) :
    ∃ p hhdr, BlockAt T p hhdr ∧ a ≤ p ∧ p ≤ q ∧ q < p + hhdr.pages ∧ p + hhdr.pages ≤ b := by
  induction h with
  | nil => omega
  | @cons a b hhdr hblock hrest ih =>
      have hle := hrest.le
      by_cases hq : q < a + hhdr.pages
      · exact ⟨a, hhdr, hblock, le_rfl, haq, hq, hle⟩
      · obtain ⟨p, hhdr', hb, hap, hpq, hqp, hpb⟩ := ih (by omega) hqb
        exact ⟨p, hhdr', hb, by omega, hpq, hqp, hpb⟩

/-- A page in the body of a block has no header. -/
theorem BlockAt.eq_of_covers (h : BlockAt T p hhdr) {q : Nat} {hhdr' : Hblkhdr}
    (hq : T q = .hdr hhdr') (hpq : p ≤ q) (hlt : q < p + hhdr.pages) : q = p := by
  by_contra hne
  have hbody := h.body (q - p) (by omega) (by omega)
  rw [Nat.add_sub_cancel' hpq, hq] at hbody
  exact hhdr.body_ne_hdr hhdr' _ hbody.symm

/-- A header between the ends of a tiling is that of a tile. -/
theorem Tiled.block_of_hdr (ht : Tiled T a b) (hp : T p = .hdr hhdr) (hap : a ≤ p)
    (hpb : p < b) : BlockAt T p hhdr ∧ p + hhdr.pages ≤ b := by
  obtain ⟨p', hhdr', hblock, -, hpp, hlt, hend⟩ := ht.inside hap hpb
  have heq := hblock.eq_of_covers hp hpp hlt
  subst heq
  have hsame := hblock.hdr
  rw [hp] at hsame
  cases hsame
  exact ⟨hblock, hend⟩

/-- **A page belongs to one block.** -/
theorem TableOk.covers_unique (h : TableOk T) {p p' : Nat} (hp : Covers T p q)
    (hp' : Covers T p' q) : p = p' := by
  obtain ⟨hhdr, hT, hpq, hlt⟩ := hp
  obtain ⟨hhdr', hT', hpq', hlt'⟩ := hp'
  rcases Nat.le_total p p' with hle | hle
  · exact ((h.block p hhdr hT).eq_of_covers hT' hle (by omega)).symm
  · exact (h.block p' hhdr' hT').eq_of_covers hT hle (by omega)

/-- A tiling is not crossed at its ends. -/
theorem TableOk.separate (h : TableOk T) (ht : Tiled T a b) (hab : a < b) : Separate T a b := by
  intro p hhdr hp
  by_contra hcross
  have hblock := h.block p hhdr hp
  have hpos := hblock.pos
  simp only [not_or, not_and, Nat.not_le] at hcross
  obtain ⟨ha, hb, hcross⟩ := hcross
  -- the block shares a page with a tile, so it is the tile
  obtain ⟨p', hhdr', ht', hap', hp'q, hq, hp'b⟩ :=
    ht.inside (q := max a p) (le_max_left a p) (by omega)
  have heq : p' = p := h.covers_unique ⟨hhdr', ht'.hdr, hp'q, hq⟩
    ⟨hhdr, hp, le_max_right a p, by omega⟩
  subst heq
  have hend := (ht.block_of_hdr hp hap' (by omega)).2
  have := hcross hap'
  omega

/-- Pages that no block has are not crossed. -/
theorem TableOk.separate_of_not_owned (h : TableOk T)
    (hfree : ∀ q, a ≤ q → q < b → ¬Owned T q) (hab : a < b) : Separate T a b := by
  intro p hhdr hp
  have hpos := (h.block p hhdr hp).pos
  by_contra hcross
  simp only [not_or, not_and, Nat.not_le] at hcross
  exact hfree (max a p) (le_max_left a p) (by omega)
    ⟨p, hhdr, hp, le_max_right a p, by omega⟩

/-! ## Replacing blocks -/

/-- Between `a` and `b`, which no block crossed, there are whole blocks now. -/
structure Replaced (T T' : Nat → IndexEntry) (a b : Nat) : Prop where
  separate : Separate T a b
  tiled : Tiled T' a b
  outside : ∀ q, q < a ∨ b ≤ q → T' q = T q
  first : firstPage ≤ a
  last : b ≤ lastPage

/-- A header of the new index is in a new block, or it is an old one that is not concerned. -/
theorem Replaced.hdr_cases (h : TableOk T) (r : Replaced T T' a b) (hp : T' p = .hdr hhdr) :
    BlockAt T' p hhdr ∧ a ≤ p ∧ p + hhdr.pages ≤ b ∨
      T p = .hdr hhdr ∧ (p + hhdr.pages ≤ a ∨ b ≤ p) := by
  by_cases hin : a ≤ p ∧ p < b
  · obtain ⟨hblock, hpb⟩ := r.tiled.block_of_hdr hp hin.1 hin.2
    exact .inl ⟨hblock, hin.1, hpb⟩
  · rw [r.outside p (by omega)] at hp
    refine .inr ⟨hp, ?_⟩
    rcases r.separate p hhdr hp with hle | hle | ⟨hap, hpb⟩
    · exact .inl hle
    · exact .inr hle
    · have := (h.block p hhdr hp).pos
      omega

/-- **Whole blocks take the place of others.** -/
theorem TableOk.replace (h : TableOk T) (r : Replaced T T' a b) : TableOk T' := by
  refine ⟨fun p hhdr hp => ?_, fun q n hq => ?_, fun p hhdr hp => ?_⟩
  · rcases r.hdr_cases h hp with ⟨hblock, -, -⟩ | ⟨hold, hside⟩
    · exact hblock
    · exact (h.block p hhdr hold).congr fun q hpq hlt => r.outside q (by omega)
  · by_cases hin : a ≤ q ∧ q < b
    · obtain ⟨p, hhdr, hblock, -, hpq, hlt, -⟩ := r.tiled.inside hin.1 hin.2
      exact ⟨p, hhdr, hblock.hdr, hpq, hlt⟩
    · rw [r.outside q (by omega)] at hq
      obtain ⟨p, hhdr, hp, hpq, hlt⟩ := h.counts q n hq
      refine ⟨p, hhdr, ?_, hpq, hlt⟩
      have hside := r.separate p hhdr hp
      rw [r.outside p (by omega)]
      exact hp
  · rcases r.hdr_cases h hp with ⟨-, hap, hpb⟩ | ⟨hold, -⟩
    · have := r.first
      have := r.last
      omega
    · exact h.bounds p hhdr hold

/-- The pages that belong to a block afterwards. -/
theorem Replaced.owned_iff (r : Replaced T T' a b) :
    Owned T' q ↔ a ≤ q ∧ q < b ∨ Owned T q := by
  constructor
  · rintro ⟨p, hhdr, hp, hpq, hlt⟩
    by_cases hin : a ≤ q ∧ q < b
    · exact .inl hin
    · right
      by_cases hpin : a ≤ p ∧ p < b
      · have hend := (r.tiled.block_of_hdr hp hpin.1 hpin.2).2
        omega
      · rw [r.outside p (by omega)] at hp
        exact ⟨p, hhdr, hp, hpq, hlt⟩
  · rintro (⟨haq, hqb⟩ | ⟨p, hhdr, hp, hpq, hlt⟩)
    · obtain ⟨p, hhdr, hblock, -, hpq, hlt, -⟩ := r.tiled.inside haq hqb
      exact ⟨p, hhdr, hblock.hdr, hpq, hlt⟩
    · by_cases hin : a ≤ q ∧ q < b
      · obtain ⟨p, hhdr, hblock, -, hpq, hlt, -⟩ := r.tiled.inside hin.1 hin.2
        exact ⟨p, hhdr, hblock.hdr, hpq, hlt⟩
      · have hside := r.separate p hhdr hp
        exact ⟨p, hhdr, by rw [r.outside p (by omega)]; exact hp, hpq, hlt⟩

/-! ## Free neighbours -/

/-- A free block starts at the page. -/
def FreeAt (T : Nat → IndexEntry) (p : Nat) : Prop :=
  ∃ hhdr, T p = .hdr hhdr ∧ hhdr.free_blk = true

/-- The block is in use. -/
def UsedAt (T : Nat → IndexEntry) (p : Nat) (hhdr : Hblkhdr) : Prop :=
  T p = .hdr hhdr ∧ hhdr.free_blk = false

theorem FreeAt.not_usedAt (h : FreeAt T p) : ¬UsedAt T p hhdr := by
  rintro ⟨hp, hused⟩
  obtain ⟨hhdr', hp', hfree⟩ := h
  rw [hp] at hp'
  cases hp'
  rw [hfree] at hused
  cases hused

/-- Where a free block follows a free block, they are related by `R`. -/
def Neighbours (T : Nat → IndexEntry) (R : Nat → Nat → Prop) : Prop :=
  ∀ p hhdr, T p = .hdr hhdr → hhdr.free_blk = true → FreeAt T (p + hhdr.pages) →
    R p (p + hhdr.pages)

/-- No two free blocks are next to each other. -/
def Coalesced (T : Nat → IndexEntry) : Prop := Neighbours T fun _ _ => False

/-- The new blocks, and the one in front of them, have to be looked at. -/
theorem Neighbours.replace {R R' : Nat → Nat → Prop} (hR : Neighbours T R) (h : TableOk T)
    (r : Replaced T T' a b)
    (hin : ∀ p hhdr, T' p = .hdr hhdr → hhdr.free_blk = true → a ≤ p → p + hhdr.pages ≤ b →
      FreeAt T' (p + hhdr.pages) → R' p (p + hhdr.pages))
    (hfront : ∀ p hhdr, T p = .hdr hhdr → hhdr.free_blk = true → p + hhdr.pages = a →
      FreeAt T' a → R' p a)
    (hrest : ∀ p q, R p q → p < a ∨ b ≤ p → q < a ∨ b ≤ q → R' p q) : Neighbours T' R' := by
  intro p hhdr hp hfree hnext
  rcases r.hdr_cases h hp with ⟨-, hap, hpb⟩ | ⟨hold, hside⟩
  · exact hin p hhdr hp hfree hap hpb hnext
  · have hpos := (h.block p hhdr hold).pos
    by_cases hpa : p + hhdr.pages = a
    · rw [hpa] at hnext ⊢
      exact hfront p hhdr hold hfree hpa hnext
    · have hnext' : FreeAt T (p + hhdr.pages) := by
        obtain ⟨hhdr', hT, hfree'⟩ := hnext
        rw [r.outside _ (by omega)] at hT
        exact ⟨hhdr', hT, hfree'⟩
      exact hrest _ _ (hR p hhdr hold hfree hnext') (by omega) (by omega)

end Hblks

end Ironclad.Gc
