import Ironclad.Gc.IndexSteps

/-!
# The heap in order

`InOrder` is what holds between the operations of the block allocator: the index describes blocks
that fill the sections of the heap, exactly the free blocks are on the free lists, each on that of
its size, and no two free blocks are next to each other. Inside an operation one block is an
exception to the last two, which `Books` leaves open: it says which blocks are on which list, and
which free blocks may be neighbours.
-/

namespace Ironclad.Gc

namespace Hblks

variable {s s' : Hblks} {a b p q n i : Nat} {hhdr : Hblkhdr}

/-- The pages of a section. -/
def InSection (s : Hblks) (q : Nat) : Prop :=
  ∃ sect ∈ s.GC_heap_sects, sect.1 ≤ q ∧ q < sect.1 + divHBLKSZ sect.2

/-- The pages of the blocks are those of the sections, which do not overlap. -/
structure Sections (s : Hblks) : Prop where
  owned : ∀ q, Owned s.HDR q ↔ s.InSection q
  whole : ∀ sect ∈ s.GC_heap_sects,
    0 < divHBLKSZ sect.2 ∧ sect.2 = divHBLKSZ sect.2 * HBLKSIZE
  apart : s.GC_heap_sects.Pairwise fun sect sect' =>
    sect.1 + divHBLKSZ sect.2 ≤ sect'.1 ∨ sect'.1 + divHBLKSZ sect'.2 ≤ sect.1

/-- The collector knows the size of the heap. -/
def Sized (s : Hblks) : Prop := s.GC_heapsize = (s.GC_heap_sects.map Prod.snd).sum

/-- The index, the lists with the members `M`, and the relation `R` between free neighbours. -/
structure Books (s : Hblks) (M R : Nat → Nat → Prop) : Prop where
  table : TableOk s.HDR
  index : Indexed s
  sections : Sections s
  lists : OnLists s M
  neighbours : Neighbours s.HDR R

/-- The free block is on the list of its size. -/
def Listed (s : Hblks) (i p : Nat) : Prop := FreeAt s.HDR p ∧ s.flOf p = i

/-- **The heap is in order.** -/
structure InOrder (s : Hblks) : Prop extends Books s s.Listed (fun _ _ => False) where
  counted : s.GC_large_free_bytes = s.totalFree

theorem InSection.congr (h : SameRest s s') : s'.InSection q ↔ s.InSection q := by
  unfold InSection
  rw [h.sects]

theorem Sections.congr (h : Sections s) (hsame : SameRest s s')
    (howned : ∀ q, Owned s'.HDR q ↔ Owned s.HDR q) : Sections s' where
  owned q := (howned q).trans ((h.owned q).trans (InSection.congr hsame).symm)
  whole := by
    rw [hsame.sects]
    exact h.whole
  apart := by
    rw [hsame.sects]
    exact h.apart

theorem Sized.congr (h : Sized s) (hsame : SameRest s s') : Sized s' := by
  unfold Sized
  rw [hsame.sects, hsame.heapsize]
  exact h

/-- Blocks have been replaced by others with the same pages. -/
theorem Sections.replace (h : Sections s) (hsame : SameRest s s')
    (r : Replaced s.HDR s'.HDR a b) (hold : ∀ q, a ≤ q → q < b → Owned s.HDR q) :
    Sections s' := by
  refine h.congr hsame fun q => ?_
  rw [r.owned_iff]
  exact ⟨fun hq => hq.elim (fun hq => hold q hq.1 hq.2) id, .inr⟩

/-! ## Blocks -/

theorem FreeAt.of_hdr (h : FreeAt s.HDR p) : ∃ hhdr, s.HDR p = .hdr hhdr ∧
    hhdr.free_blk = true := h

theorem FreeAt.congr {T T' : Nat → IndexEntry} (h : T' p = T p) : FreeAt T' p ↔ FreeAt T p := by
  unfold FreeAt
  rw [h]

theorem freeAt_iff {T : Nat → IndexEntry} (h : T p = .hdr hhdr) :
    FreeAt T p ↔ hhdr.free_blk = true := by
  unfold FreeAt
  simp [h]

theorem not_freeAt_nil {T : Nat → IndexEntry} (h : T p = .nil) : ¬FreeAt T p := by
  unfold FreeAt
  simp [h]

theorem not_freeAt_count {T : Nat → IndexEntry} (h : T p = .count n) : ¬FreeAt T p := by
  unfold FreeAt
  simp [h]

theorem flOf_congr (h : s'.HDR p = s.HDR p) : s'.flOf p = s.flOf p := by
  unfold flOf
  rw [hb_sz_congr h]

theorem flOf_of_free (h : s.HDR p = .hdr hhdr) (hfree : hhdr.free_blk = true) :
    s.flOf p = GC_hblk_fl_from_blocks hhdr.pages := by
  unfold flOf
  rw [hb_sz_of_hdr h, pages_of_free hfree]

theorem flOf_le (s : Hblks) (p : Nat) : s.flOf p ≤ N_HBLK_FLS := GC_hblk_fl_from_blocks_le _

/-- The pages of a block belong to it. -/
theorem BlockAt.owned {T : Nat → IndexEntry} (h : BlockAt T p hhdr) (hpq : p ≤ q)
    (hlt : q < p + hhdr.pages) : Owned T q := ⟨p, hhdr, h.hdr, hpq, hlt⟩

/-- A free block of `n` pages. -/
theorem blockAt_free {T : Nat → IndexEntry} (hp : T p = .hdr hhdr) (hfree : hhdr.free_blk = true)
    (hsz : hhdr.hb_sz = n * HBLKSIZE) (hn : 0 < n)
    (hnil : ∀ q, p < q → q < p + n → T q = .nil) : BlockAt T p hhdr ∧ hhdr.pages = n := by
  have hpages : hhdr.pages = n := by rw [pages_of_free hfree, hsz, divHBLKSZ_mul]
  refine ⟨⟨hp, by omega, fun i hi hlt => ?_, fun _ => by rw [hpages, hsz]⟩, hpages⟩
  unfold Hblkhdr.body
  rw [if_pos hfree]
  exact hnil (p + i) (by omega) (by omega)

/-- A block of `n` pages in use. -/
theorem blockAt_used {T : Nat → IndexEntry} (hp : T p = .hdr hhdr)
    (hused : hhdr.free_blk = false) (hsz : OBJ_SZ_TO_BLOCKS hhdr.hb_sz = n) (hn : 0 < n)
    (hcount : ∀ q, p < q → q < p + n → T q = .count (min (q - p) MAX_JUMP)) :
    BlockAt T p hhdr ∧ hhdr.pages = n := by
  have hpages : hhdr.pages = n := (pages_of_used hused).trans hsz
  refine ⟨⟨hp, by omega, fun i hi hlt => ?_, fun hfree => ?_⟩, hpages⟩
  · unfold Hblkhdr.body
    rw [hused, if_neg Bool.false_ne_true, hcount (p + i) (by omega) (by omega),
      Nat.add_sub_cancel_left]
  · rw [hused] at hfree
    cases hfree

/-- Whole blocks fit between `a` and `b`, so no block crosses them. -/
theorem TableOk.separate_block (h : TableOk s.HDR) (hp : s.HDR p = .hdr hhdr) :
    Separate s.HDR p (p + hhdr.pages) := by
  have hblock := h.block p hhdr hp
  exact h.separate (hblock.tiled rfl) (by have := hblock.pos; omega)

end Hblks

end Ironclad.Gc
