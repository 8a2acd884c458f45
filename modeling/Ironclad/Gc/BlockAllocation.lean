import Ironclad.Gc.BlockFreeing
import Ironclad.Gc.BlockSearch

/-!
# Allocating a block

`GC_allochblk` over all the free lists, and `GC_add_to_heap`. Both keep the heap in order, whatever
they find or are given; a search needs no more rounds than the heap has pages.
-/

namespace Ironclad.Gc

namespace Hblks

variable {s s' : Hblks} {e : Heuristics} {x p m n sz kind fuel : Nat} {flags may_split : Bool}
  {hhdr : Hblkhdr}

/-! ## The number of rounds -/

/-- The number of pages in the heap. -/
def heapPages (s : Hblks) : Nat := (s.GC_heap_sects.map fun sect => divHBLKSZ sect.2).sum

theorem SameRest.heapPages (h : SameRest s s') : s'.heapPages = s.heapPages := by
  unfold Hblks.heapPages
  rw [h.sects]

/-- Distinct pages of the sections are no more than there are. -/
theorem length_le_heapPages {l : List Nat} (hnodup : l.Nodup) (hl : ∀ q ∈ l, s.InSection q) :
    l.length ≤ s.heapPages := by
  have hsub : l ⊆ s.GC_heap_sects.flatMap fun sect => List.range' sect.1 (divHBLKSZ sect.2) := by
    intro q hq
    obtain ⟨sect, hsect, hle, hlt⟩ := hl q hq
    exact List.mem_flatMap.mpr ⟨sect, hsect, List.mem_range'_1.mpr ⟨hle, hlt⟩⟩
  have hlen := (List.subperm_of_subset hnodup hsub).length_le
  rw [List.length_flatMap] at hlen
  simp only [List.length_range'] at hlen
  exact hlen

/-- A free list is no longer than the heap. -/
theorem InOrder.length_le (h : InOrder s) {pos : Option Nat} {suf : List Nat}
    (hat : At s n pos suf) : suf.length ≤ s.heapPages := by
  have hlisted := fun q hq => hat.listed (x := q) hq
  obtain ⟨L, xs, hL, -, heq, -⟩ := hat
  have hnodup := hL.lists.nodup n
  rw [heq] at hnodup
  refine length_le_heapPages (List.nodup_append.mp hnodup).2.1 fun q hq => ?_
  obtain ⟨hhdr, hq, -⟩ := (hlisted q hq).1
  have hblock := h.table.block q hhdr hq
  exact (h.sections.owned q).mp (hblock.owned le_rfl (by have := hblock.pos; omega))

/-! ## One list -/

/-- What an allocation leaves behind: nothing has been found, or the block is in use now, and the
others are as they were. -/
def Allocated (s : Hblks) (hhdr : Hblkhdr) : Option Nat × Hblks → Prop
  | (none, s') => InOrder s' ∧ Dropped s s'
  | (some x, s') => InOrder s' ∧ SameRest s s' ∧ UsedAt s'.HDR x hhdr ∧
      s.Avoids (HBLKSIZE * OBJ_SZ_TO_BLOCKS hhdr.hb_sz) hhdr.hb_obj_kind hhdr.ignore_off_page x ∧
      (∀ hhdr', ¬UsedAt s.HDR x hhdr') ∧
      (∀ p hhdr', UsedAt s.HDR p hhdr' → UsedAt s'.HDR p hhdr') ∧
      ∀ p hhdr', UsedAt s'.HDR p hhdr' →
        UsedAt s.HDR p hhdr' ∨ hhdr' = droppedHdr ∨ p = x ∧ hhdr' = hhdr

theorem Allocated.of_dropped {r : Option Nat × Hblks} (hd : Dropped s s')
    (h : Allocated s' hhdr r) : Allocated s hhdr r := by
  obtain ⟨_ | x, s₂⟩ := r
  · exact ⟨h.1, hd.trans h.2⟩
  · obtain ⟨horder, hrest, hx, havoids, hfresh, hkept, hnew⟩ := h
    refine ⟨horder, hd.rest.trans hrest, hx, havoids.of_rest hd.rest,
      fun hhdr' hp => hfresh hhdr' (hd.kept x hhdr' hp),
      fun p hhdr' hp => hkept p hhdr' (hd.kept p hhdr' hp), fun p hhdr' hp => ?_⟩
    rcases hnew p hhdr' hp with hp | hp
    · exact (hd.new p hhdr' hp).imp_right .inl
    · exact .inr hp

/-- The block that is found is set up. -/
theorem GC_allochblk_nth_of_search {r : Option Nat × Hblks} (hg : s.Granted)
    (hm : 0 < OBJ_SZ_TO_BLOCKS sz)
    (hsearch : searchList e (HBLKSIZE * OBJ_SZ_TO_BLOCKS sz) kind flags n may_split fuel s
      (s.GC_hblkfreelist n) = some r)
    (hr : Searched s (OBJ_SZ_TO_BLOCKS sz) kind flags n r) :
    ∃ s', s.GC_allochblk_nth e fuel sz kind flags n may_split = some (r.1, s') ∧
      Allocated s ⟨sz, kind, flags, false⟩ (r.1, s') := by
  unfold GC_allochblk_nth
  simp only [hsearch]
  obtain ⟨_ | x, s'⟩ := r
  · exact ⟨s', rfl, hr⟩
  · obtain ⟨s₁, hhdr, hready, hdrop, hx, hle, havoids, hfirst⟩ := hr
    obtain ⟨s₂, s₃, s₄, hfirst', hcounts, hsetup, horder, hrest, hreplaced, hused⟩ :=
      hready.take (hdrop.rest.granted hg) hx hm hle rfl kind flags
    rw [hfirst] at hfirst'
    obtain rfl : s' = s₂ := congrArg Prod.snd hfirst'
    have hdiv : divHBLKSZ (HBLKSIZE * OBJ_SZ_TO_BLOCKS sz) = OBJ_SZ_TO_BLOCKS sz := by
      rw [Nat.mul_comm, divHBLKSZ_mul]
    simp only [hdiv, hcounts, hsetup]
    refine ⟨_, rfl, horder, ?_, (hused x _).mpr (.inr ⟨rfl, rfl⟩), havoids, fun hhdr' hp => ?_,
      fun p hhdr' hp => (hused p hhdr').mpr (.inl (hdrop.kept p hhdr' hp)),
      fun p hhdr' hp => ?_⟩
    · exact SameRest.trans (hdrop.rest.trans hrest)
        (by exact ⟨rfl, rfl, rfl, rfl, rfl, id⟩)
    · exact hready.free.not_usedAt (hdrop.kept x hhdr' hp)
    · rcases (hused p hhdr').mp hp with hp | hp
      · exact (hdrop.new p hhdr' hp).imp_right .inl
      · exact .inr (.inr hp)

/-- **`GC_allochblk_nth`.** -/
theorem InOrder.allochblk_nth (h : InOrder s) (hg : s.Granted) (hfuel : s.heapPages < fuel)
    (hm : 0 < OBJ_SZ_TO_BLOCKS sz) (e : Heuristics) (kind : Nat) (flags : Bool) (n : Nat)
    (may_split : Bool) : ∃ r, s.GC_allochblk_nth e fuel sz kind flags n may_split = some r ∧
      Allocated s ⟨sz, kind, flags, false⟩ r := by
  obtain ⟨suf, hat⟩ := h.at_start n
  obtain ⟨r, hr, hsearched⟩ := searchList_eq e kind flags may_split hm
    (lt_of_le_of_lt (h.length_le hat) hfuel) h hg hat
  obtain ⟨s', hnth, halloc⟩ := GC_allochblk_nth_of_search hg hm hr hsearched
  exact ⟨_, hnth, halloc⟩

/-! ## All lists -/

theorem InOrder.tryLists (h : InOrder s) (hg : s.Granted) (hfuel : s.heapPages < fuel)
    (hm : 0 < OBJ_SZ_TO_BLOCKS sz) (e : Heuristics) (kind : Nat) (flags : Bool) (l : List Nat) :
    ∃ r, Hblks.tryLists e fuel sz kind flags l s = some r ∧
      Allocated s ⟨sz, kind, flags, false⟩ r := by
  induction l generalizing s with
  | nil => exact ⟨_, rfl, h, .refl s⟩
  | cons i l ih =>
      obtain ⟨⟨_ | x, s₁⟩, hnth, halloc⟩ := h.allochblk_nth hg hfuel hm e kind flags i true
      · obtain ⟨r, hr, hr'⟩ := ih halloc.1 (halloc.2.rest.granted hg)
          (halloc.2.rest.heapPages ▸ hfuel)
        refine ⟨r, ?_, hr'.of_dropped halloc.2⟩
        rw [Hblks.tryLists, hnth]
        exact hr
      · refine ⟨_, ?_, halloc⟩
        rw [Hblks.tryLists, hnth]

/-- **`GC_allochblk`.** -/
theorem InOrder.allochblk (h : InOrder s) (hg : s.Granted) (hfuel : s.heapPages < fuel)
    (hm : 0 < OBJ_SZ_TO_BLOCKS sz) (e : Heuristics) (kind : Nat) (flags : Bool) :
    ∃ r, s.GC_allochblk e fuel sz kind flags = some r ∧
      Allocated s ⟨sz, kind, flags, false⟩ r := by
  unfold GC_allochblk
  simp only
  split
  · exact ⟨_, rfl, h, .refl s⟩
  · obtain ⟨⟨_ | x, s₁⟩, hnth, halloc⟩ := h.allochblk_nth hg hfuel hm e kind flags
      (GC_hblk_fl_from_blocks (OBJ_SZ_TO_BLOCKS sz)) false
    · simp only [hnth]
      obtain ⟨r, hr, hr'⟩ := halloc.1.tryLists (halloc.2.rest.granted hg)
        (halloc.2.rest.heapPages ▸ hfuel) hm e kind flags _
      exact ⟨r, hr, hr'.of_dropped halloc.2⟩
    · simp only [hnth]
      exact ⟨_, rfl, halloc⟩

/-! ## A larger heap -/

/-- Pages that are in no section have no entry. -/
theorem InOrder.nil_of_not_inSection (h : InOrder s) (hp : ¬s.InSection p) : s.HDR p = .nil := by
  cases hT : s.HDR p with
  | nil => rfl
  | count n => exact absurd ((h.sections.owned p).mp (h.table.counts p n hT)) hp
  | hdr hhdr =>
      have hblock := h.table.block p hhdr hT
      exact absurd ((h.sections.owned p).mp
        (hblock.owned le_rfl (by have := hblock.pos; omega))) hp

theorem OBJ_SZ_TO_BLOCKS_pages {k : Nat} (hk : k < lastPage) :
    OBJ_SZ_TO_BLOCKS (k * HBLKSIZE) = k := by
  unfold OBJ_SZ_TO_BLOCKS HBLKSIZE lastPage at *
  omega

/-- The heap has got `k` pages from `p` on, except the first two pages of the address space. -/
structure Grown (s : Hblks) (p k : Nat) (s' : Hblks) : Prop where
  inOrder : InOrder s'
  sized : Sized s'
  granted : s'.Granted
  old : s'.GC_old_stack_bl = s.GC_old_stack_bl
  incomplete : s'.GC_incomplete_stack_bl = s.GC_incomplete_stack_bl
  inSection : ∀ q, s'.InSection q ↔ s.InSection q ∨ firstPage ≤ q ∧ p ≤ q ∧ q < p + k
  used : ∀ q hhdr, UsedAt s'.HDR q hhdr ↔ UsedAt s.HDR q hhdr

/-- **`GC_add_to_heap`**, for pages that are in no section. -/
theorem InOrder.add_to_heap {k : Nat} (h : InOrder s) (hsized : Sized s) (hg : s.Granted)
    (hsects : s.GC_heap_sects.length < MAX_HEAP_SECTS) (hk : 0 < k) (hlast : p + k ≤ lastPage)
    (hfresh : ∀ q, p ≤ q → q < p + k → ¬s.InSection q) :
    ∃ s', s.GC_add_to_heap p (k * HBLKSIZE) = some s' ∧ Grown s p k s' := by
  have hsz : 0 < HBLKSIZE := by decide
  unfold GC_add_to_heap
  rw [if_neg (by omega)]
  simp only
  by_cases hskip : k * HBLKSIZE ≤ (2 - p) * HBLKSIZE ∧ 0 < 2 - p
  · rw [if_pos hskip]
    have hk2 : k ≤ 2 - p := Nat.le_of_mul_le_mul_right hskip.1 hsz
    refine ⟨s, rfl, h, hsized, hg, rfl, rfl, fun q => ⟨.inl, fun hq => hq.elim id fun hq => ?_⟩,
      fun _ _ => Iff.rfl⟩
    unfold firstPage at hq
    omega
  · rw [if_neg hskip]
    have hk2 : 2 - p < k := by
      by_contra hle
      refine hskip ⟨Nat.mul_le_mul_right _ (by omega), by omega⟩
    rw [← Nat.sub_mul]
    generalize hk' : k - (2 - p) = k'
    generalize hp' : p + (2 - p) = p'
    have hkpos : 0 < k' := by omega
    have hfirst' : firstPage ≤ p' := by unfold firstPage; omega
    have hlast' : p' + k' ≤ lastPage := by omega
    have hfresh' : ∀ q, p' ≤ q → q < p' + k' → ¬s.InSection q := fun q hpq hq =>
      hfresh q (by omega) (by omega)
    have hpages : ∀ q, firstPage ≤ q ∧ p ≤ q ∧ q < p + k ↔ p' ≤ q ∧ q < p' + k' := by
      intro q
      unfold firstPage
      omega
    have hwrap : ¬2 ^ 64 ≤ p' * HBLKSIZE + k' * HBLKSIZE := by
      rw [← Nat.add_mul]
      unfold HBLKSIZE lastPage at *
      omega
    rw [if_neg fun hw => hwrap hw.1, if_neg hwrap]
    obtain ⟨s₁, hinstall, hHDR, hi₁, hlists₁, hrest₁⟩ := GC_install_header_eq hg h.index p'
    simp only [hinstall]
    have hblocks : OBJ_SZ_TO_BLOCKS (k' * HBLKSIZE) = k' :=
      OBJ_SZ_TO_BLOCKS_pages (by unfold firstPage at hfirst'; omega)
    set sₐ : Hblks := { s₁ with GC_heap_sects := s₁.GC_heap_sects ++ [(p', k' * HBLKSIZE)] }
      with hsₐ
    set s₂ := sₐ.mapHdr p' fun phdr => { phdr with
      hb_sz := k' * HBLKSIZE, ignore_off_page := false, free_blk := false } with hs₂
    have hp₁ : sₐ.HDR p' = .hdr Hblkhdr.uninitialized := by
      show s₁.HDR p' = _
      rw [hHDR, Function.update_self]
    have hp₂ : s₂.HDR p' = .hdr ⟨k' * HBLKSIZE, 0, false, false⟩ := HDR_mapHdr_self hp₁ _
    have hout : ∀ q, q ≠ p' → s₂.HDR q = s.HDR q := fun q hq => by
      rw [hs₂, HDR_mapHdr_of_ne hq]
      show s₁.HDR q = _
      rw [hHDR, Function.update_of_ne hq]
    have hlists₂ : SameLists s s₂ := by
      refine SameLists.trans ?_ (mapHdr_sameLists _ _ _)
      exact ⟨hlists₁.head, hlists₁.next, hlists₁.prev, hlists₁.bytes, hlists₁.large⟩
    have hsect₂ : s₂.GC_heap_sects = s.GC_heap_sects ++ [(p', k' * HBLKSIZE)] := by
      rw [hs₂, mapHdr_GC_heap_sects, ← hrest₁.sects]
    have hheap₂ : s₂.GC_heapsize = s.GC_heapsize := by
      rw [hs₂, mapHdr_GC_heapsize]
      exact hrest₁.heapsize
    have hin₂ : ∀ s' : Hblks, s'.GC_heap_sects = s₂.GC_heap_sects → ∀ q,
        s'.InSection q ↔ s.InSection q ∨ p' ≤ q ∧ q < p' + k' := by
      intro s' hs' q
      unfold InSection
      rw [hs', hsect₂]
      simp only [List.mem_append, List.mem_singleton, or_and_right, exists_or, exists_eq_left,
        divHBLKSZ_mul]
    have hsep : Separate s.HDR p' (p' + k') := h.table.separate_of_not_owned
      (fun q hpq hq howned => hfresh' q hpq hq ((h.sections.owned q).mp howned)) (by omega)
    obtain ⟨s₃, hfree, horder, hrest₃, hused⟩ := GC_freehblk_of h hlists₂
      (by exact Indexed.mapHdr (by exact ⟨hi₁.sorted, hi₁.mem⟩) _ _) hp₂ rfl hblocks hkpos hfirst'
      hlast' hsep (fun q hq => hout q (by omega))
      (fun q hpq hq => not_freeAt_nil (h.nil_of_not_inSection (hfresh' q hpq hq)))
      fun s₁ hrest howned => {
        owned := fun q => by
          rw [howned, hin₂ s₁ hrest.sects, h.sections.owned]
          exact or_comm
        whole := by
          rw [hrest.sects, hsect₂]
          intro sect hsect
          rcases List.mem_append.mp hsect with hsect | hsect
          · exact h.sections.whole sect hsect
          · rw [List.mem_singleton.mp hsect, divHBLKSZ_mul]
            exact ⟨hkpos, rfl⟩
        apart := by
          rw [hrest.sects, hsect₂, List.pairwise_append]
          refine ⟨h.sections.apart, List.pairwise_singleton _ _, fun sect hsect sect' hsect' => ?_⟩
          rw [List.mem_singleton.mp hsect', divHBLKSZ_mul]
          have hpos := (h.sections.whole sect hsect).1
          by_contra hover
          -- a page of both sections
          exact hfresh' (max sect.1 p') (le_max_right _ _) (by omega)
            ⟨sect, hsect, le_max_left _ _, by omega⟩ }
    rw [hfree]
    have hrest₂ := mapHdr_sameRest sₐ p' fun phdr => { phdr with
      hb_sz := k' * HBLKSIZE, ignore_off_page := false, free_blk := false }
    refine ⟨_, rfl, ?_, ?_, ?_, ?_, ?_, fun q => ?_, fun q hhdr => ?_⟩
    · exact {
        table := horder.table
        index := ⟨horder.index.sorted, horder.index.mem⟩
        sections := ⟨horder.sections.owned, horder.sections.whole, horder.sections.apart⟩
        lists := horder.lists.congr rfl rfl rfl rfl fun _ _ _ => rfl
        neighbours := horder.neighbours
        counted := horder.counted }
    · show s₃.GC_heapsize + k' * HBLKSIZE = (s₃.GC_heap_sects.map Prod.snd).sum
      rw [hrest₃.heapsize, hheap₂, hrest₃.sects, hsect₂, hsized]
      simp
    · exact hrest₃.granted (hrest₂.granted (by exact hrest₁.granted hg))
    · exact (hrest₃.old.trans hrest₂.old).trans hrest₁.old
    · exact (hrest₃.incomplete.trans hrest₂.incomplete).trans hrest₁.incomplete
    · exact (hin₂ _ hrest₃.sects q).trans (or_congr_right (hpages q).symm)
    · show UsedAt s₃.HDR q hhdr ↔ _
      rw [hused]
      refine ⟨And.right, fun hq => ⟨?_, hq⟩⟩
      by_contra hin
      have hnil := h.nil_of_not_inSection (hfresh' q (by omega) (by omega))
      rw [UsedAt, hnil] at hq
      cases hq.1

end Hblks

end Ironclad.Gc
