import Ironclad.Gc.BlockRuns
import Ironclad.Gc.BlockTraversal

/-!
# The accounts of the heap

The blocks in use and those on the free lists together make up the heap: each page of a section is
in exactly one of them. So the bytes that are free and those of the blocks in use add up to the
size of the heap, and a run of free pages is never cut into several blocks.
-/

namespace Ironclad.Gc

namespace Hblks

open Ironclad.Logic

variable {s : Hblks} {a b p q : Nat} {hhdr : Hblkhdr}

/-! ## The pages of the blocks -/

/-- The number of pages of the block at `p`. -/
def pagesAt (s : Hblks) (p : Nat) : Nat :=
  match s.HDR p with
  | .hdr hhdr => hhdr.pages
  | _ => 0

theorem pagesAt_of_hdr (h : s.HDR p = .hdr hhdr) : s.pagesAt p = hhdr.pages := by
  rw [pagesAt, h]

def pagesOf (s : Hblks) (l : List Nat) : List Nat :=
  l.flatMap fun p => List.range' p (s.pagesAt p)

theorem mem_pagesOf {l : List Nat} (hl : ∀ p ∈ l, ∃ hhdr, s.HDR p = .hdr hhdr) :
    q ∈ s.pagesOf l ↔ ∃ p ∈ l, Covers s.HDR p q := by
  unfold pagesOf
  rw [List.mem_flatMap]
  refine exists_congr fun p => and_congr_right fun hp => ?_
  obtain ⟨hhdr, hhdrp⟩ := hl p hp
  rw [pagesAt_of_hdr hhdrp, List.mem_range'_1]
  unfold Covers
  simp [hhdrp]

/-- Different blocks have no page in common. -/
theorem TableOk.nodup_pagesOf (h : TableOk s.HDR) {l : List Nat}
    (hl : ∀ p ∈ l, ∃ hhdr, s.HDR p = .hdr hhdr) (hnodup : l.Nodup) : (s.pagesOf l).Nodup := by
  refine List.nodup_flatMap.mpr ⟨fun p _ => List.nodup_range', ?_⟩
  refine hnodup.imp_of_mem fun {p p'} hp hp' hne => ?_
  obtain ⟨hhdr, hhdrp⟩ := hl p hp
  obtain ⟨hhdr', hhdrp'⟩ := hl p' hp'
  intro q hq hq'
  simp only [pagesAt_of_hdr hhdrp, List.mem_range'_1] at hq
  simp only [pagesAt_of_hdr hhdrp', List.mem_range'_1] at hq'
  exact hne (h.covers_unique ⟨hhdr, hhdrp, hq⟩ ⟨hhdr', hhdrp', hq'⟩)

theorem length_pagesOf (s : Hblks) (l : List Nat) :
    (s.pagesOf l).length = (l.map s.pagesAt).sum := by
  unfold pagesOf
  rw [List.length_flatMap]
  simp only [List.length_range']

/-- The sections, page by page. -/
def sectionPages (s : Hblks) : List Nat :=
  s.GC_heap_sects.flatMap fun sect => List.range' sect.1 (divHBLKSZ sect.2)

theorem mem_sectionPages : q ∈ s.sectionPages ↔ s.InSection q := by
  unfold sectionPages InSection
  simp only [List.mem_flatMap, List.mem_range'_1]

theorem length_sectionPages (s : Hblks) : s.sectionPages.length = s.heapPages := by
  unfold sectionPages heapPages
  rw [List.length_flatMap]
  simp only [List.length_range']

theorem Sections.nodup_sectionPages (h : Sections s) : s.sectionPages.Nodup := by
  refine List.nodup_flatMap.mpr ⟨fun sect _ => List.nodup_range', ?_⟩
  refine h.apart.imp fun {sect sect'} hapart q hq hq' => ?_
  rw [List.mem_range'_1] at hq hq'
  omega

/-! ## All blocks -/

/-- The blocks in use, and those on the lists. -/
def allBlocks (s : Hblks) (L : Nat → List Nat) : List Nat :=
  s.GC_apply_to_all_blocks ++ (List.range (N_HBLK_FLS + 1)).flatMap L

/-- The lists, one after the other. -/
theorem nodup_flatMap_lists {L : Nat → List Nat} (hL : Threaded s L) (n : Nat) :
    ((List.range n).flatMap L).Nodup := by
  refine List.nodup_flatMap.mpr ⟨fun i _ => hL.lists.nodup i, ?_⟩
  refine List.nodup_range.imp fun {i j} hne p hi hj => ?_
  exact hne (hL.lists.apart i j p hi hj)

theorem mem_freeLists {L : Nat → List Nat}
    (hmem : ∀ i p, p ∈ L i ↔ s.Listed i p) :
    p ∈ (List.range (N_HBLK_FLS + 1)).flatMap L ↔ FreeAt s.HDR p := by
  simp only [List.mem_flatMap, List.mem_range, hmem, Listed]
  constructor
  · rintro ⟨i, -, hp, -⟩
    exact hp
  · intro hp
    exact ⟨s.flOf p, Nat.lt_succ_of_le (flOf_le s p), hp, rfl⟩

/-- **The heap is made up of the blocks in use and the blocks on the lists.** -/
theorem InOrder.pages_perm (h : InOrder s) {L : Nat → List Nat} (hL : Threaded s L)
    (hmem : ∀ i p, p ∈ L i ↔ s.Listed i p) :
    (s.pagesOf (s.allBlocks L)).Perm s.sectionPages := by
  obtain ⟨hused, hnodup⟩ := GC_apply_to_all_blocks_spec h.table h.index
  have hall : ∀ p, p ∈ s.allBlocks L ↔ ∃ hhdr, s.HDR p = .hdr hhdr := by
    intro p
    rw [allBlocks, List.mem_append, hused, mem_freeLists hmem]
    constructor
    · rintro (⟨hhdr, hp, -⟩ | ⟨hhdr, hp, -⟩) <;> exact ⟨hhdr, hp⟩
    · rintro ⟨hhdr, hp⟩
      cases hfree : hhdr.free_blk with
      | false => exact .inl ⟨hhdr, hp, hfree⟩
      | true => exact .inr ⟨hhdr, hp, hfree⟩
  have hblocks : (s.allBlocks L).Nodup := by
    refine List.nodup_append.mpr ⟨hnodup, nodup_flatMap_lists hL _, ?_⟩
    rintro p hp q hq rfl
    obtain ⟨hhdr, hp⟩ := (hused p).mp hp
    exact ((mem_freeLists hmem).mp hq).not_usedAt hp
  refine (List.perm_ext_iff_of_nodup (h.table.nodup_pagesOf (fun p hp => (hall p).mp hp) hblocks)
    h.sections.nodup_sectionPages).mpr fun q => ?_
  rw [mem_pagesOf fun p hp => (hall p).mp hp, mem_sectionPages, ← h.sections.owned]
  constructor
  · rintro ⟨p, -, hq⟩
    exact ⟨p, hq⟩
  · rintro ⟨p, hhdr, hp, hq⟩
    exact ⟨p, (hall p).mpr ⟨hhdr, hp⟩, hhdr, hp, hq⟩

/-- The sizes of the blocks on the lists. -/
theorem InOrder.sum_freeLists (h : InOrder s) {L : Nat → List Nat} (hL : Threaded s L)
    (hmem : ∀ i p, p ∈ L i ↔ s.Listed i p) (n : Nat) :
    (((List.range n).flatMap L).map s.pagesAt).sum * HBLKSIZE =
      ∑ i ∈ Finset.range n, s.GC_free_bytes i := by
  have hone : ∀ l : List Nat, (∀ p ∈ l, FreeAt s.HDR p) →
      (l.map s.pagesAt).sum * HBLKSIZE = (l.map s.hb_sz).sum := by
    intro l
    induction l with
    | nil => exact fun _ => Nat.zero_mul _
    | cons p l ih =>
        intro hl
        rw [List.forall_mem_cons] at hl
        obtain ⟨⟨hhdr, hp, hfree⟩, hl⟩ := hl
        rw [List.map_cons, List.map_cons, List.sum_cons, List.sum_cons, Nat.add_mul, ih hl,
          pagesAt_of_hdr hp, hb_sz_of_hdr hp, ← (h.table.block p hhdr hp).whole hfree]
  induction n with
  | zero => exact Nat.zero_mul _
  | succ n ih =>
      rw [List.range_succ, List.flatMap_append, List.map_append, List.sum_append, Nat.add_mul, ih,
        Finset.sum_range_succ, hL.bytes n, List.flatMap_singleton,
        hone (L n) fun p hp => ((hmem n p).mp hp).1]

/-- **No byte of the heap is lost or counted twice.** -/
theorem InOrder.conserved (h : InOrder s) (hsized : Sized s) :
    s.GC_large_free_bytes + (s.GC_apply_to_all_blocks.map s.pagesAt).sum * HBLKSIZE =
      s.GC_heapsize := by
  obtain ⟨L, hL, hmem⟩ := h.lists
  have hlen := (h.pages_perm hL hmem).length_eq
  rw [length_pagesOf, length_sectionPages, allBlocks, List.map_append, List.sum_append] at hlen
  have hsum : s.GC_heapsize = s.heapPages * HBLKSIZE := by
    rw [hsized, heapPages, ← List.sum_map_mul_right]
    exact congrArg List.sum (List.map_congr_left fun sect hsect => (h.sections.whole sect hsect).2)
  rw [hsum, ← hlen, Nat.add_mul, h.sum_freeLists hL hmem, h.counted, totalFree, Nat.add_comm]

/-! ## Runs of free pages -/

/-- The page is in a free block. -/
def FreePage (s : Hblks) (q : Nat) : Prop := ∃ p, FreeAt s.HDR p ∧ Covers s.HDR p q

/-- The free pages are those of the sections that are in no block in use. -/
theorem InOrder.freePage_iff (h : InOrder s) : s.FreePage q ↔
    s.InSection q ∧ ∀ p hhdr, UsedAt s.HDR p hhdr → ¬(p ≤ q ∧ q < p + hhdr.pages) := by
  rw [← h.sections.owned]
  constructor
  · rintro ⟨p, hp, hcovers⟩
    refine ⟨⟨p, hcovers⟩, fun p' hhdr' hused hin => ?_⟩
    rw [h.table.covers_unique hcovers ⟨hhdr', hused.1, hin⟩] at hp
    exact hp.not_usedAt hused
  · rintro ⟨⟨p, hhdr, hp, hin⟩, hnot⟩
    refine ⟨p, ⟨hhdr, hp, ?_⟩, hhdr, hp, hin⟩
    rw [← Bool.not_eq_false]
    exact fun hused => hnot p hhdr ⟨hp, hused⟩ hin

/-- The block that has been freed. -/
theorem InOrder.freePage_of_freed {s' : Hblks} {x : Nat} (h : InOrder s) (h' : InOrder s')
    (hrest : SameRest s s') (hx : UsedAt s.HDR x hhdr)
    (hused : ∀ p phdr, UsedAt s'.HDR p phdr ↔ p ≠ x ∧ UsedAt s.HDR p phdr) :
    s'.FreePage q ↔ s.FreePage q ∨ x ≤ q ∧ q < x + hhdr.pages := by
  rw [h.freePage_iff, h'.freePage_iff, InSection.congr hrest]
  constructor
  · rintro ⟨hin, hnot⟩
    by_cases hq : x ≤ q ∧ q < x + hhdr.pages
    · exact .inr hq
    · refine .inl ⟨hin, fun p phdr hp hpq => ?_⟩
      by_cases hpx : p = x
      · subst hpx
        cases hx.1.symm.trans hp.1
        exact hq hpq
      · exact hnot p phdr ((hused p phdr).mpr ⟨hpx, hp⟩) hpq
  · rintro (⟨hin, hnot⟩ | hq)
    · exact ⟨hin, fun p phdr hp => hnot p phdr ((hused p phdr).mp hp).2⟩
    · refine ⟨(h.sections.owned q).mp ⟨x, hhdr, hx.1, hq⟩, fun p phdr hp hpq => ?_⟩
      obtain ⟨hne, hp⟩ := (hused p phdr).mp hp
      exact hne (h.table.covers_unique ⟨phdr, hp.1, hpq⟩ ⟨hhdr, hx.1, hq⟩)

/-- The block that has been allocated: its pages were free. -/
theorem InOrder.freePage_of_allocated {s' : Hblks} {x : Nat} (h : InOrder s) (h' : InOrder s')
    (hrest : SameRest s s') (hx : UsedAt s'.HDR x hhdr) (hfresh : ∀ phdr, ¬UsedAt s.HDR x phdr)
    (hkept : ∀ p phdr, UsedAt s.HDR p phdr → UsedAt s'.HDR p phdr) (hxq : x ≤ q)
    (hlt : q < x + hhdr.pages) : s.FreePage q := by
  rw [h.freePage_iff]
  refine ⟨?_, fun p phdr hp hpq => ?_⟩
  · rw [← InSection.congr hrest, ← h'.sections.owned]
    exact ⟨x, hhdr, hx.1, hxq, hlt⟩
  · have hsame := h'.table.covers_unique ⟨phdr, (hkept p phdr hp).1, hpq⟩ ⟨hhdr, hx.1, hxq, hlt⟩
    subst hsame
    exact hfresh phdr hp

/-- **Free pages in a row are in one block.** -/
theorem InOrder.free_run (h : InOrder s) (hab : a < b)
    (hfree : ∀ q, a ≤ q → q < b → s.FreePage q) :
    ∃ p hhdr, s.HDR p = .hdr hhdr ∧ hhdr.free_blk = true ∧ p ≤ a ∧ b ≤ p + hhdr.pages := by
  induction b, hab using Nat.le_induction with
  | base =>
      obtain ⟨p, ⟨hhdr, hp, hpfree⟩, hhdr', hp', hle, hlt⟩ := hfree a le_rfl (Nat.lt_succ_self a)
      cases hp.symm.trans hp'
      exact ⟨p, hhdr, hp, hpfree, hle, hlt⟩
  | succ b hab ih =>
      obtain ⟨p, hhdr, hp, hpfree, hle, hend⟩ := ih fun q haq hqb => hfree q haq (by omega)
      obtain ⟨p', hpfree', hhdr', hp', hle', hlt'⟩ := hfree b (by omega) (Nat.lt_succ_self b)
      by_cases hb : b < p + hhdr.pages
      · exact ⟨p, hhdr, hp, hpfree, hle, hb⟩
      -- the block ends here, and the one of the next page would be its neighbour
      rcases hle'.eq_or_lt with heq | hlt
      · refine (h.neighbours p hhdr hp hpfree ?_).elim
        rwa [show p + hhdr.pages = p' by omega]
      · have hsame := h.table.covers_unique (q := b - 1)
          ⟨hhdr, hp, by omega, by omega⟩ ⟨hhdr', hp', by omega, by omega⟩
        subst hsame
        cases hp.symm.trans hp'
        omega

end Hblks

end Ironclad.Gc
