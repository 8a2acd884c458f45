import Ironclad.Gc.BlockAllocation
import Ironclad.Logic.Machine

/-!
# Runs of the block allocator

The block allocator with everything that acts on it: the operating system that gives it memory,
the collector that allocates and frees blocks and rounds up the size of a large object, and the
black lists that are filled and promoted at any time. Whatever the order of the steps, the heap is
in order in between, and no step runs out of fuel or aborts.
-/

namespace Ironclad.Gc

namespace Hblks

open Ironclad.Logic

variable {s s' : Hblks} {x : Nat} {hhdr : Hblkhdr}

/-- What `GC_init_headers` and the initial values of the variables give. -/
def initial (scratch : Nat → Bool) : Hblks where
  HDR _ := .nil
  bottom_indices := []
  hb_next _ := none
  hb_prev _ := none
  GC_hblkfreelist _ := none
  GC_free_bytes _ := 0
  GC_large_free_bytes := 0
  GC_bytes_dropped := 0
  GC_heapsize := 0
  GC_heap_sects := []
  GC_old_stack_bl _ := 0
  GC_incomplete_stack_bl _ := 0
  GC_black_list_spacing := MINHINCR * HBLKSIZE
  hdr_free_list := 0
  GC_obj_map _ := false
  blacklisted_count := 0
  scratch := scratch

def MAXOBJBYTES : Nat := HBLKSIZE / 2

/-- What `GC_realloc` does to the header of a large object: its size becomes that of the block. -/
def roundUp (s : Hblks) (x : Nat) : Hblks :=
  if MAXOBJBYTES < s.hb_sz x then
    s.mapHdr x fun hhdr => { hhdr with hb_sz := OBJ_SZ_TO_BLOCKS hhdr.hb_sz * HBLKSIZE }
  else s

/-- The block is in use. -/
def isUsed (s : Hblks) (x : Nat) : Bool :=
  match s.HDR x with
  | .hdr hhdr => !hhdr.free_blk
  | _ => false

/-- The page belongs to a section. -/
def inSection (s : Hblks) (q : Nat) : Bool :=
  s.GC_heap_sects.any fun sect => sect.1 ≤ q && q < sect.1 + divHBLKSZ sect.2

inductive BlockAction where
  /-- The operating system gives `k` pages from `p` on. -/
  | addToHeap (p k : Nat)
  | allochblk (e : Heuristics) (sz kind : Nat) (flags : Bool)
  | freehblk (x : Nat)
  | roundUp (x : Nat)
  | addToBlackList (page : Nat)
  | promoteBlackLists
  | unpromoteBlackLists

/-- A step. New memory is not in the heap already, and only blocks in use are freed; an allocation
has as many rounds for a list as the heap has pages, and one more. -/
def blockStep (s : Hblks) : BlockAction → Option Hblks
  | .addToHeap p k =>
      if 0 < k ∧ p + k ≤ lastPage ∧ ∀ i < k, s.inSection (p + i) = false then
        s.GC_add_to_heap p (k * HBLKSIZE)
      else none
  | .allochblk e sz kind flags =>
      if 0 < OBJ_SZ_TO_BLOCKS sz then
        (s.GC_allochblk e (s.heapPages + 1) sz kind flags).map Prod.snd
      else none
  | .freehblk x => if s.isUsed x then s.GC_freehblk x else none
  | .roundUp x => if s.isUsed x then some (s.roundUp x) else none
  | .addToBlackList page => some (s.GC_add_to_black_list_stack page)
  | .promoteBlackLists => some s.GC_promote_black_lists
  | .unpromoteBlackLists => some s.GC_unpromote_black_lists

/-- The block allocator; `scratch` says which of its requests for memory are granted. -/
def blocks (scratch : Nat → Bool) : Machine Hblks BlockAction := ⟨initial scratch, blockStep⟩

theorem isUsed_iff : s.isUsed x = true ↔ ∃ hhdr, UsedAt s.HDR x hhdr := by
  unfold isUsed UsedAt
  cases s.HDR x <;> simp

theorem inSection_iff {q : Nat} : s.inSection q = true ↔ s.InSection q := by
  unfold inSection InSection
  simp

/-- The pages that a section is added for are in no section. -/
theorem not_inSection_of_fresh {p k : Nat} (hfresh : ∀ i < k, s.inSection (p + i) = false)
    (q : Nat) (hpq : p ≤ q) (hq : q < p + k) : ¬s.InSection q := by
  have hnot := hfresh (q - p) (by omega)
  rw [Nat.add_sub_cancel' hpq] at hnot
  rw [← inSection_iff, hnot]
  exact Bool.false_ne_true

/-! ## What holds initially -/

theorem initial_inOrder (scratch : Nat → Bool) : InOrder (initial scratch) where
  table := ⟨fun _ _ h => (by cases h), fun _ _ h => (by cases h), fun _ _ h => (by cases h)⟩
  index := ⟨List.Pairwise.nil, fun _ h => absurd rfl h⟩
  sections := by
    refine ⟨fun q => iff_of_false ?_ ?_, fun sect h => absurd h List.not_mem_nil,
      List.Pairwise.nil⟩
    · rintro ⟨p, hhdr, h, -⟩
      cases h
    · rintro ⟨sect, h, -⟩
      exact absurd h List.not_mem_nil
  lists := by
    refine ⟨fun _ => [], ⟨⟨fun _ => rfl, fun _ => trivial, fun _ => List.nodup_nil,
      fun _ _ _ h => absurd h List.not_mem_nil⟩, fun _ => rfl⟩,
      fun i p => iff_of_false List.not_mem_nil ?_⟩
    rintro ⟨⟨hhdr, h, -⟩, -⟩
    cases h
  neighbours _ _ h := by cases h
  counted := by
    show 0 = ∑ _ ∈ Finset.range (N_HBLK_FLS + 1), 0
    simp

/-! ## Changes that concern no block -/

/-- The index, the lists and the sections are the same. -/
theorem InOrder.congr (h : InOrder s) (hHDR : s'.HDR = s.HDR)
    (htables : s'.bottom_indices = s.bottom_indices) (hlists : SameLists s s')
    (hsects : s'.GC_heap_sects = s.GC_heap_sects) : InOrder s' where
  table := by
    rw [hHDR]
    exact h.table
  index := h.index.congr htables fun q => by rw [hHDR]; exact id
  sections := by
    have hin : ∀ q, s'.InSection q ↔ s.InSection q := fun q => by
      unfold InSection
      rw [hsects]
    refine ⟨fun q => ?_, ?_, ?_⟩
    · rw [hHDR, hin, h.sections.owned]
    · rw [hsects]
      exact h.sections.whole
    · rw [hsects]
      exact h.sections.apart
  lists := by
    refine (h.lists.of_same hlists fun i p _ => hb_sz_congr (by rw [hHDR])).imp fun i p => ?_
    rw [Listed, Listed, hHDR, flOf_congr (p := p) (congrFun hHDR p)]
  neighbours := by
    rw [hHDR]
    exact h.neighbours
  counted := by rw [hlists.large, hlists.totalFree, h.counted]

/-- **The size of a large object is rounded up.** -/
theorem InOrder.roundUp (h : InOrder s) (hx : UsedAt s.HDR x hhdr) :
    InOrder (s.roundUp x) ∧ SameRest s (s.roundUp x) := by
  obtain ⟨hx, hused⟩ := hx
  unfold Hblks.roundUp
  split
  · have hblock := h.table.block x hhdr hx
    have hpages := pages_of_used hused
    have hbounds := h.table.bounds x hhdr hx
    have hrest := mapHdr_sameRest s x fun hhdr =>
      { hhdr with hb_sz := OBJ_SZ_TO_BLOCKS hhdr.hb_sz * HBLKSIZE }
    have hlists := mapHdr_sameLists s x fun hhdr =>
      { hhdr with hb_sz := OBJ_SZ_TO_BLOCKS hhdr.hb_sz * HBLKSIZE }
    have hindex := h.index.mapHdr x fun hhdr =>
      { hhdr with hb_sz := OBJ_SZ_TO_BLOCKS hhdr.hb_sz * HBLKSIZE }
    have hxs := HDR_mapHdr_self hx fun hhdr =>
      { hhdr with hb_sz := OBJ_SZ_TO_BLOCKS hhdr.hb_sz * HBLKSIZE }
    have hout := fun q (hq : q ≠ x) => HDR_mapHdr_of_ne (s := s) hq fun hhdr =>
      { hhdr with hb_sz := OBJ_SZ_TO_BLOCKS hhdr.hb_sz * HBLKSIZE }
    generalize s.mapHdr x _ = s₁ at *
    have hnot : ¬FreeAt s.HDR x := by
      rw [freeAt_iff hx, hused]
      exact Bool.false_ne_true
    have hnot₁ : ¬FreeAt s₁.HDR x := by
      rw [freeAt_iff hxs, hused]
      exact Bool.false_ne_true
    have hfree : ∀ p, FreeAt s₁.HDR p ↔ FreeAt s.HDR p := fun p => by
      by_cases hp : p = x
      · rw [hp]
        exact iff_of_false hnot₁ hnot
      · exact FreeAt.congr (hout p hp)
    obtain ⟨hblock₁, hpages₁⟩ := blockAt_used hxs hused
      (by
        show OBJ_SZ_TO_BLOCKS (OBJ_SZ_TO_BLOCKS hhdr.hb_sz * HBLKSIZE) = hhdr.pages
        rw [← hpages, OBJ_SZ_TO_BLOCKS_pages]
        unfold firstPage at hbounds
        omega)
      hblock.pos fun q hxq hq => (hout q (by omega)).trans (hblock.count_of_used hused hxq hq)
    have hr : Replaced s.HDR s₁.HDR x (x + hhdr.pages) :=
      ⟨h.table.separate_block hx, hblock₁.tiled (by rw [hpages₁]),
        fun q hq => hout q (by have := hblock.pos; omega), hbounds.1, hbounds.2⟩
    refine ⟨?_, hrest⟩
    exact {
      table := h.table.replace hr
      index := hindex
      sections := h.sections.replace hrest hr fun q hxq hq => hblock.owned hxq hq
      lists := by
        refine (h.lists.of_same hlists fun i p hp => hb_sz_congr (hout p ?_)).imp fun i p => ?_
        · rintro rfl
          exact hnot hp.1
        · rw [Listed, Listed, hfree]
          refine and_congr_right fun hp => ?_
          rw [flOf_congr (hout p _)]
          rintro rfl
          exact hnot hp
      neighbours := fun p hhdr' hp hfree' hnext => by
        have hpx : p ≠ x := by
          rintro rfl
          exact hnot₁ ⟨hhdr', hp, hfree'⟩
        rw [hout p hpx] at hp
        exact h.neighbours p hhdr' hp hfree' ((hfree _).mp hnext)
      counted := by rw [hlists.large, hlists.totalFree, h.counted] }
  · exact ⟨h, .refl s⟩

/-! ## Runs -/

/-- What holds between the steps while no request for memory is refused. -/
structure HeapInv (s : Hblks) : Prop where
  inOrder : InOrder s
  sized : Sized s
  granted : s.Granted

theorem HeapInv.of_rest (h : HeapInv s) (horder : InOrder s') (hrest : SameRest s s') :
    HeapInv s' :=
  ⟨horder, h.sized.congr hrest, hrest.granted h.granted⟩

/-- The black lists are filled and promoted. -/
theorem HeapInv.of_lists (h : HeapInv s) (hHDR : s'.HDR = s.HDR)
    (htables : s'.bottom_indices = s.bottom_indices) (hlists : SameLists s s')
    (hsects : s'.GC_heap_sects = s.GC_heap_sects) (hsize : s'.GC_heapsize = s.GC_heapsize)
    (hscratch : s'.scratch = s.scratch) : HeapInv s' where
  inOrder := h.inOrder.congr hHDR htables hlists hsects
  sized := by
    unfold Sized
    rw [hsects, hsize]
    exact h.sized
  granted := by
    unfold Granted
    rw [hscratch]
    exact h.granted

theorem GC_add_to_black_list_stack_inv (h : HeapInv s) (page : Nat) :
    HeapInv (s.GC_add_to_black_list_stack page) := by
  unfold GC_add_to_black_list_stack
  simp only
  split
  · refine h.of_lists rfl rfl ?_ rfl rfl rfl
    exact ⟨rfl, rfl, rfl, rfl, rfl⟩
  · exact h

/-- A step keeps the heap in order. -/
theorem blockStep_inv {a : BlockAction} (h : HeapInv s) (hstep : blockStep s a = some s') :
    HeapInv s' := by
  cases a with
  | addToHeap p k =>
      rw [blockStep] at hstep
      split at hstep
      · rename_i hcond
        obtain ⟨hk, hlast, hfresh⟩ := hcond
        by_cases hsects : s.GC_heap_sects.length < MAX_HEAP_SECTS
        · obtain ⟨s₁, hadd, hgrown⟩ := h.inOrder.add_to_heap h.sized h.granted hsects hk hlast
            (not_inSection_of_fresh hfresh)
          rw [hadd] at hstep
          cases hstep
          exact ⟨hgrown.inOrder, hgrown.sized, hgrown.granted⟩
        · rw [GC_add_to_heap, if_pos (not_lt.mp hsects)] at hstep
          cases hstep
      · cases hstep
  | allochblk e sz kind flags =>
      rw [blockStep] at hstep
      split at hstep
      · rename_i hm
        obtain ⟨⟨r, s₁⟩, halloc, hr⟩ := h.inOrder.allochblk h.granted (Nat.lt_succ_self _) hm e kind
          flags
        rw [halloc] at hstep
        cases hstep
        cases r with
        | none => exact h.of_rest hr.1 hr.2.rest
        | some x => exact h.of_rest hr.1 hr.2.1
      · cases hstep
  | freehblk x =>
      rw [blockStep] at hstep
      split at hstep
      · rename_i hx
        obtain ⟨hhdr, hx⟩ := isUsed_iff.mp hx
        obtain ⟨s₁, hfree, horder, hrest, -⟩ := h.inOrder.freehblk hx
        rw [hfree] at hstep
        cases hstep
        exact h.of_rest horder hrest
      · cases hstep
  | roundUp x =>
      rw [blockStep] at hstep
      split at hstep
      · rename_i hx
        obtain ⟨hhdr, hx⟩ := isUsed_iff.mp hx
        obtain ⟨horder, hrest⟩ := h.inOrder.roundUp hx
        cases hstep
        exact h.of_rest horder hrest
      · cases hstep
  | addToBlackList page =>
      cases hstep
      exact GC_add_to_black_list_stack_inv h page
  | promoteBlackLists =>
      cases hstep
      exact h.of_lists rfl rfl ⟨rfl, rfl, rfl, rfl, rfl⟩ rfl rfl rfl
  | unpromoteBlackLists =>
      cases hstep
      exact h.of_lists rfl rfl ⟨rfl, rfl, rfl, rfl, rfl⟩ rfl rfl rfl

/-- **In every run** the invariant holds between the steps. -/
theorem visits_heapInv {scratch : Nat → Bool} (hg : ∀ n, scratch n = true)
    (acts : List BlockAction) : (blocks scratch).Visits acts HeapInv :=
  Machine.visits_of_invariant (M := blocks scratch) HeapInv
    ⟨initial_inOrder scratch, rfl, hg⟩ (fun _ _ _ h hstep => blockStep_inv h hstep) acts

end Hblks

end Ironclad.Gc
