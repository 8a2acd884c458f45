import Ironclad.Gc.BlockTaking

/-!
# Giving a block back

`GC_freehblk` marks a block as free, merges it with the free block behind it and with the one in
front of it, and puts the result on the list of its size. Until then one free block is on no list
and may have free neighbours: it is `Loose`. Merging it with a neighbour leaves one loose block.
-/

namespace Ironclad.Gc

namespace Hblks

variable {s s' : Hblks} {x y a b m size : Nat} {hhdr ahdr bhdr : Hblkhdr}

/-- The free block `x` is on no list. Of its bytes, `size` are not yet counted as free. -/
structure Loose (s : Hblks) (x size : Nat) : Prop
    extends Books s (fun i p => s.Listed i p ∧ p ≠ x) (fun p q => p = x ∨ q = x) where
  counted : s.GC_large_free_bytes + size = s.totalFree + s.hb_sz x
  free : FreeAt s.HDR x

/-- **A block is marked as free**, or a new one is put where there was none. -/
theorem InOrder.loosen (h : InOrder s) (r : Replaced s.HDR s'.HDR x (x + m))
    (hsect : Sections s') (hindex : Indexed s') (hlists : SameLists s s')
    (hx : s'.HDR x = .hdr hhdr) (hfree : hhdr.free_blk = true) (hpages : hhdr.pages = m)
    (hnofree : ∀ q, x ≤ q → q < x + m → ¬FreeAt s.HDR q) : Loose s' x (HBLKSIZE * m) where
  table := h.table.replace r
  index := hindex
  sections := hsect
  lists := by
    have hblock := (h.table.replace r).block x hhdr hx
    refine (h.lists.of_same hlists fun i p hp => hb_sz_congr (r.outside p ?_)).imp fun i p => ?_
    · by_contra hin
      exact hnofree p (by omega) (by omega) hp.1
    · by_cases hin : x ≤ p ∧ p < x + m
      · refine iff_of_false (fun hp => ?_) fun hp => hnofree p hin.1 hin.2 hp.1
        exact not_freeAt_nil (hblock.nil_of_free hfree (lt_of_le_of_ne hin.1 hp.2.symm)
          (hpages ▸ hin.2)) hp.1.1
      · rw [Listed, Listed, FreeAt.congr (r.outside p (by omega)),
          flOf_congr (r.outside p (by omega))]
        have := hblock.pos
        exact ⟨And.left, fun hp => ⟨hp, by omega⟩⟩
  neighbours := by
    have hblock := (h.table.replace r).block x hhdr hx
    refine Neighbours.replace h.neighbours h.table r (fun p hhdr' hp _ hxp hpx _ => ?_)
      (fun _ _ _ _ _ _ => .inr rfl) fun _ _ hR => hR.elim
    have hpos := ((h.table.replace r).block p hhdr' hp).pos
    exact .inl (hblock.eq_of_covers hp hxp (by omega))
  counted := by
    have hwhole := ((h.table.replace r).block x hhdr hx).whole hfree
    rw [hlists.large, hlists.totalFree, hb_sz_of_hdr hx, h.counted, hwhole, hpages,
      Nat.mul_comm]
  free := ⟨hhdr, hx, hfree⟩

/-! ## Merging -/

/-- The block `b` is merged into the block `a` in front of it; `y`, one of the two, is on a list. -/
def merged (s : Hblks) (a b y : Nat) : Hblks :=
  ((s.GC_remove_from_fl y (s.flOf y)).mapHdr a fun hhdr =>
    { hhdr with hb_sz := hhdr.hb_sz + s.hb_sz b }).GC_remove_header b

/-- **Merging a loose block with a free neighbour.** -/
theorem Loose.merge (h : Loose s x size) (ha : s.HDR a = .hdr ahdr)
    (hafree : ahdr.free_blk = true) (hb : s.HDR b = .hdr bhdr) (hbfree : bhdr.free_blk = true)
    (hab : a + ahdr.pages = b) (hxy : x = a ∧ y = b ∨ x = b ∧ y = a) :
    Loose (s.merged a b y) a size ∧ SameRest s (s.merged a b y) ∧
      (s.merged a b y).HDR a = .hdr { ahdr with hb_sz := ahdr.hb_sz + bhdr.hb_sz } ∧
      (Hblkhdr.pages { ahdr with hb_sz := ahdr.hb_sz + bhdr.hb_sz }) =
        ahdr.pages + bhdr.pages ∧
      (∀ q, q ≠ a → q ≠ b → (s.merged a b y).HDR q = s.HDR q) ∧
      (s.merged a b y).HDR b = .nil := by
  have hablock := h.table.block a ahdr ha
  have hbblock := h.table.block b bhdr hb
  have hapos := hablock.pos
  have hbpos := hbblock.pos
  have hawhole := hablock.whole hafree
  have hbwhole := hbblock.whole hbfree
  have hbsz := hb_sz_of_hdr hb
  have hyfree : FreeAt s.HDR y := by
    rcases hxy with ⟨-, rfl⟩ | ⟨-, rfl⟩
    · exact ⟨bhdr, hb, hbfree⟩
    · exact ⟨ahdr, ha, hafree⟩
  have hyx : y ≠ x := by omega
  have hoff := h.lists.remove (x := y) (i := s.flOf y) ⟨⟨hyfree, rfl⟩, hyx⟩
  have htotal := h.lists.totalFree_remove (x := y) (i := s.flOf y) ⟨⟨hyfree, rfl⟩, hyx⟩
    (s.flOf_le y)
  have hlists : SameLists (s.GC_remove_from_fl y (s.flOf y)) (s.merged a b y) :=
    (mapHdr_sameLists _ _ _).trans (GC_remove_header_same _ _).1
  have hrest : SameRest s (s.merged a b y) :=
    ((GC_remove_from_fl_sameRest s y (s.flOf y)).mapHdr _ _).trans (GC_remove_header_same _ _).2
  have hindex : Indexed (s.merged a b y) :=
    ((h.index.remove_from_fl y (s.flOf y)).mapHdr _ _).remove_header _
  have hHDR : (s.merged a b y).HDR = Function.update (Function.update s.HDR a
      (.hdr { ahdr with hb_sz := ahdr.hb_sz + bhdr.hb_sz })) b .nil := by
    unfold merged
    rw [GC_remove_header_HDR, HDR_mapHdr (by exact ha), hbsz]
    rfl
  have hlarge : (s.merged a b y).GC_large_free_bytes = s.GC_large_free_bytes := hlists.large
  generalize s.merged a b y = s₁ at *
  have has : s₁.HDR a = .hdr { ahdr with hb_sz := ahdr.hb_sz + bhdr.hb_sz } := by
    rw [hHDR, Function.update_of_ne (by omega), Function.update_self]
  have hbs : s₁.HDR b = .nil := by rw [hHDR, Function.update_self]
  have hout : ∀ q, q ≠ a → q ≠ b → s₁.HDR q = s.HDR q := fun q hqa hqb => by
    rw [hHDR, Function.update_of_ne hqb, Function.update_of_ne hqa]
  have hnil : ∀ q, a < q → q < a + (ahdr.pages + bhdr.pages) → s₁.HDR q = .nil := by
    intro q haq hq
    by_cases hqb : q = b
    · rw [hqb, hbs]
    · rw [hout q (by omega) hqb]
      rcases Nat.lt_or_gt_of_ne hqb with hlt | hgt
      · exact hablock.nil_of_free hafree haq (by omega)
      · exact hbblock.nil_of_free hbfree hgt (by omega)
  obtain ⟨hblock, hpages⟩ := blockAt_free (n := ahdr.pages + bhdr.pages) has hafree
    (by
      show ahdr.hb_sz + bhdr.hb_sz = _
      rw [hawhole, hbwhole, Nat.add_mul])
    (by omega) hnil
  have hr : Replaced s.HDR s₁.HDR a (a + (ahdr.pages + bhdr.pages)) := {
    separate := h.table.separate (.cons hablock (by
      rw [hab]
      exact hbblock.tiled (by omega))) (by omega)
    tiled := hblock.tiled (by rw [hpages])
    outside := fun q hq => hout q (by omega) (by omega)
    first := (h.table.bounds a ahdr ha).1
    last := by
      have := (h.table.bounds b bhdr hb).2
      omega }
  refine ⟨?_, hrest, has, hpages, hout, hbs⟩
  refine {
    table := h.table.replace hr
    index := hindex
    sections := h.sections.replace hrest hr fun q haq hq => ?_
    lists := ?_
    neighbours := ?_
    counted := ?_
    free := ⟨_, has, hafree⟩ }
  · rcases Nat.lt_or_ge q b with hlt | hge
    · exact hablock.owned haq (by omega)
    · exact hbblock.owned hge (by omega)
  · refine (hoff.of_same hlists fun i p hp => ?_).imp fun i p => ?_
    · exact hb_sz_congr (hout p (by omega) (by omega))
    · by_cases hin : a ≤ p ∧ p < a + (ahdr.pages + bhdr.pages)
      · refine iff_of_false (fun hp => ?_) fun hp => ?_
        · exact not_freeAt_nil (hnil p (by omega) hin.2) hp.1.1
        · have hpa : p ≠ a := by omega
          have hpb : p ≠ b := by omega
          have hpnil := hnil p (by omega) hin.2
          rw [hout p hpa hpb] at hpnil
          exact not_freeAt_nil hpnil hp.1.1.1
      · rw [Listed, Listed, FreeAt.congr (hout p (by omega) (by omega)),
          flOf_congr (hout p (by omega) (by omega))]
        exact ⟨fun hp => ⟨⟨hp.1, by omega⟩, by omega⟩, fun hp => ⟨hp.1.1, by omega⟩⟩
  · refine Neighbours.replace h.neighbours h.table hr (fun p hhdr' hp _ hap hpb _ => ?_)
      (fun _ _ _ _ _ _ => .inr rfl) fun p q hR hp hq => ?_
    · have hpos := ((h.table.replace hr).block p hhdr' hp).pos
      exact .inl (hblock.eq_of_covers hp hap (by omega))
    · omega
  · have hcounted := h.counted
    have hsz : s.hb_sz x + s.hb_sz y = ahdr.hb_sz + bhdr.hb_sz := by
      rcases hxy with ⟨rfl, rfl⟩ | ⟨rfl, rfl⟩
      · rw [hb_sz_of_hdr ha, hbsz]
      · rw [hb_sz_of_hdr ha, hbsz, Nat.add_comm]
    rw [hlarge, hlists.totalFree, hb_sz_of_hdr has]
    show _ = _ + (ahdr.hb_sz + bhdr.hb_sz)
    omega

/-- **A loose block without free neighbours is put on its list.** -/
theorem Loose.add (h : Loose s x size) (hx : s.HDR x = .hdr hhdr)
    (hbehind : ¬FreeAt s.HDR (x + hhdr.pages))
    (hfront : ∀ p phdr, s.HDR p = .hdr phdr → phdr.free_blk = true → p + phdr.pages ≠ x) :
    InOrder ({ s with GC_large_free_bytes := s.GC_large_free_bytes + size }.GC_add_to_fl x) ∧
      ({ s with GC_large_free_bytes := s.GC_large_free_bytes + size }.GC_add_to_fl x).HDR =
        s.HDR := by
  set s₁ : Hblks := { s with GC_large_free_bytes := s.GC_large_free_bytes + size } with hs₁
  have hfree : hhdr.free_blk = true := (freeAt_iff hx).mp h.free
  have hx₁ : s₁.HDR x = .hdr hhdr := hx
  have hHDR : (s₁.GC_add_to_fl x).HDR = s.HDR := by
    funext q
    by_cases hq : q = x
    · rw [hq, GC_add_to_fl_HDR_self hx₁, hx, ← hfree]
    · exact GC_add_to_fl_HDR_of_ne hq
  have hrest : SameRest s (s₁.GC_add_to_fl x) :=
    SameRest.trans (by exact ⟨rfl, rfl, rfl, rfl, rfl, id⟩) (GC_add_to_fl_sameRest s₁ x)
  have hlists₁ : OnLists s₁ fun i p => s.Listed i p ∧ p ≠ x :=
    h.lists.congr rfl rfl rfl rfl fun _ _ _ => rfl
  refine ⟨?_, hHDR⟩
  refine {
    table := by
      rw [hHDR]
      exact h.table
    index := Indexed.add_to_fl (by exact ⟨h.index.sorted, h.index.mem⟩) x
    sections := h.sections.congr hrest fun q => by rw [hHDR]
    lists := ?_
    neighbours := ?_
    counted := ?_ }
  · refine (hlists₁.add (fun j hj => hj.2 rfl) hx₁).imp fun i p => ?_
    have hfl : (s₁.GC_add_to_fl x).flOf p = s.flOf p := flOf_congr (by rw [hHDR])
    rw [Listed, hHDR, hfl]
    by_cases hp : p = x
    · rw [hp]
      simp only [h.free, true_and, ne_eq, not_true, and_false, false_or]
      exact eq_comm
    · simp [Listed, hp]
  · rw [hHDR]
    intro p phdr hp hpfree hnext
    rcases h.neighbours p phdr hp hpfree hnext with rfl | heq
    · rw [hx] at hp
      cases hp
      exact hbehind hnext
    · exact hfront p phdr hp hpfree heq
  · rw [GC_add_to_fl_GC_large_free_bytes, totalFree_add]
    exact h.counted

/-! ## The steps of `GC_freehblk` -/

/-- The block as one that is free, of `size` bytes. -/
def markFree (s : Hblks) (x size : Nat) : Hblks :=
  ((s.GC_remove_counts x (divHBLKSZ size)).mapHdr x fun hhdr =>
    { hhdr with hb_sz := size }).mapHdr x fun hhdr => { hhdr with free_blk := true }

/-- Merging with the block behind. -/
def mergeNext (s : Hblks) (x next : Nat) : Hblks :=
  if s.HBLK_IS_FREE next ∧ isPositive (s.hb_sz x + s.hb_sz next) = true then
    s.merged x next next
  else s

/-- Merging with the block in front. -/
def mergePrev (s : Hblks) (x : Nat) : Option Nat → Nat × Hblks
  | none => (x, s)
  | some prev =>
      if isPositive (s.hb_sz x + s.hb_sz prev) = true then (prev, s.merged prev x prev)
      else (x, s)

theorem GC_freehblk_eq (hx : s.HDR x = .hdr hhdr) (hused : hhdr.free_blk = false)
    (hsize : size = HBLKSIZE * OBJ_SZ_TO_BLOCKS hhdr.hb_sz) (hpos : isPositive size = true) :
    let s₂ := s.markFree x size
    let r := (s₂.mergeNext x (x + divHBLKSZ size)).mergePrev x (s₂.GC_free_block_ending_at x)
    s.GC_freehblk x = some ({ r.2 with
      GC_large_free_bytes := r.2.GC_large_free_bytes + size }.GC_add_to_fl r.1) := by
  have hx₁ : (s.GC_remove_counts x (divHBLKSZ size)).HDR x = .hdr hhdr := by
    simp only [GC_remove_counts_HDR, lt_self_iff_false, false_and, if_false, hx]
  have hnot : ((s.GC_remove_counts x (divHBLKSZ size)).mapHdr x fun hhdr =>
      { hhdr with hb_sz := size }).HBLK_IS_FREE x = false := by
    unfold HBLK_IS_FREE
    rw [HDR_mapHdr_self hx₁]
    exact hused
  unfold GC_freehblk
  rw [hx]
  simp only [← hsize, hpos, Bool.true_eq_false, if_false, hnot, Bool.false_eq_true]
  rfl

/-- A size that fits in the address space. -/
theorem isPositive_pages {n : Nat} (hn : 0 < n) (hlt : n < lastPage) :
    isPositive (n * HBLKSIZE) = true := by
  unfold isPositive HBLKSIZE lastPage at *
  simp only [Bool.and_eq_true, decide_eq_true_eq]
  omega

/-- The sizes of two blocks that are next to each other can be added. -/
theorem TableOk.isPositive_sum (h : TableOk s.HDR) (ha : s.HDR a = .hdr ahdr)
    (hafree : ahdr.free_blk = true) (hb : s.HDR b = .hdr bhdr) (hbfree : bhdr.free_blk = true)
    (hab : a + ahdr.pages = b) : isPositive (ahdr.hb_sz + bhdr.hb_sz) = true := by
  have hpos := (h.block a ahdr ha).pos
  have hfirst := (h.bounds a ahdr ha).1
  have hlast := (h.bounds b bhdr hb).2
  rw [(h.block a ahdr ha).whole hafree, (h.block b bhdr hb).whole hbfree, ← Nat.add_mul]
  unfold firstPage at hfirst
  exact isPositive_pages (by omega) (by omega)

/-- Merging changes no block in use. -/
theorem usedAt_merged {T T' : Nat → IndexEntry} (ha : FreeAt T a) (hb : FreeAt T b)
    (ha' : FreeAt T' a) (hb' : T' b = .nil) (hout : ∀ q, q ≠ a → q ≠ b → T' q = T q)
    (p : Nat) (hhdr : Hblkhdr) : UsedAt T' p hhdr ↔ UsedAt T p hhdr := by
  by_cases hpa : p = a
  · rw [hpa]
    exact iff_of_false ha'.not_usedAt ha.not_usedAt
  · by_cases hpb : p = b
    · rw [hpb]
      refine iff_of_false (fun hp => ?_) hb.not_usedAt
      rw [UsedAt, hb'] at hp
      cases hp.1
    · rw [UsedAt, UsedAt, hout p hpa hpb]

theorem Loose.mergeNext (h : Loose s x size) (hx : s.HDR x = .hdr hhdr) :
    ∃ hhdr', Loose (s.mergeNext x (x + hhdr.pages)) x size ∧
      SameRest s (s.mergeNext x (x + hhdr.pages)) ∧
      (s.mergeNext x (x + hhdr.pages)).HDR x = .hdr hhdr' ∧
      ¬FreeAt (s.mergeNext x (x + hhdr.pages)).HDR (x + hhdr'.pages) ∧
      (∀ q, q < x → (s.mergeNext x (x + hhdr.pages)).HDR q = s.HDR q) ∧
      ∀ p h, UsedAt (s.mergeNext x (x + hhdr.pages)).HDR p h ↔ UsedAt s.HDR p h := by
  have hfree : hhdr.free_blk = true := (freeAt_iff hx).mp h.free
  have hpos := (h.table.block x hhdr hx).pos
  unfold Hblks.mergeNext
  by_cases hnext : FreeAt s.HDR (x + hhdr.pages)
  · obtain ⟨nhdr, hn, hnfree⟩ := hnext
    have hsum := h.table.isPositive_sum hx hfree hn hnfree rfl
    rw [if_pos ⟨HBLK_IS_FREE_iff.mpr ⟨nhdr, hn, hnfree⟩, by
      rw [hb_sz_of_hdr hx, hb_sz_of_hdr hn, hsum]⟩]
    have hnpos := (h.table.block _ nhdr hn).pos
    obtain ⟨hloose, hrest, hxs, hpages, hout, hnil⟩ := h.merge (y := x + hhdr.pages) hx hfree hn
      hnfree rfl (.inl ⟨rfl, rfl⟩)
    refine ⟨_, hloose, hrest, hxs, fun hbehind => ?_, fun q hq => hout q (by omega) (by omega),
      usedAt_merged h.free ⟨nhdr, hn, hnfree⟩ hloose.free hnil hout⟩
    -- what follows the second block would have been its neighbour
    rw [hpages, ← Nat.add_assoc, FreeAt.congr (hout _ (by omega) (by omega))] at hbehind
    rcases h.neighbours _ nhdr hn hnfree hbehind with heq | heq <;> omega
  · rw [if_neg fun hc => hnext (HBLK_IS_FREE_iff.mp hc.1)]
    exact ⟨hhdr, h, .refl s, hx, hnext, fun _ _ => rfl, fun _ _ => Iff.rfl⟩

theorem Loose.mergePrev {prev : Option Nat} (h : Loose s x size) (hx : s.HDR x = .hdr hhdr)
    (hbehind : ¬FreeAt s.HDR (x + hhdr.pages))
    (hprev : ∀ p, prev = some p ↔
      ∃ phdr, s.HDR p = .hdr phdr ∧ phdr.free_blk = true ∧ p + phdr.pages = x) :
    ∃ y s' hhdr', s.mergePrev x prev = (y, s') ∧ Loose s' y size ∧ SameRest s s' ∧
      s'.HDR y = .hdr hhdr' ∧ ¬FreeAt s'.HDR (y + hhdr'.pages) ∧
      (∀ p phdr, s'.HDR p = .hdr phdr → phdr.free_blk = true → p + phdr.pages ≠ y) ∧
      ∀ p h, UsedAt s'.HDR p h ↔ UsedAt s.HDR p h := by
  have hfree : hhdr.free_blk = true := (freeAt_iff hx).mp h.free
  have hpos := (h.table.block x hhdr hx).pos
  cases prev with
  | none =>
      refine ⟨x, s, hhdr, rfl, h, .refl s, hx, hbehind, fun p phdr hp hpfree hend => ?_,
        fun _ _ => Iff.rfl⟩
      exact absurd ((hprev p).mpr ⟨phdr, hp, hpfree, hend⟩) nofun
  | some prev =>
      obtain ⟨phdr, hp, hpfree, hend⟩ := (hprev prev).mp rfl
      have hppos := (h.table.block _ phdr hp).pos
      have hsum := h.table.isPositive_sum hp hpfree hx hfree hend
      obtain ⟨hloose, hrest, hps, hpages, hout, hnil⟩ := h.merge (y := prev) hp hpfree hx hfree
        hend (.inr ⟨rfl, rfl⟩)
      refine ⟨prev, s.merged prev x prev, _, ?_, hloose, hrest, hps, ?_,
        fun q qhdr hq hqfree hqend => ?_,
        usedAt_merged ⟨phdr, hp, hpfree⟩ h.free hloose.free hnil hout⟩
      · rw [Hblks.mergePrev, if_pos (by
          rw [hb_sz_of_hdr hx, hb_sz_of_hdr hp, Nat.add_comm, hsum])]
      · rw [hpages, ← Nat.add_assoc, hend, FreeAt.congr (hout _ (by omega) (by omega))]
        exact hbehind
      · -- a free block in front of the first one would have been its neighbour
        have hqpos := (hloose.table.block q qhdr hq).pos
        have hqx : q ≠ x := by omega
        rw [hout q (by omega) hqx] at hq
        rcases h.neighbours q qhdr hq hqfree (hqend ▸ ⟨phdr, hp, hpfree⟩) with heq | heq
        · exact hqx heq
        · omega

/-- **`GC_freehblk`** of a block whose pages are not free in a heap in order: it does not abort,
the heap is in order, and the other blocks in use are the same. -/
theorem GC_freehblk_of {s₀ : Hblks} (h : InOrder s₀) (hlists : SameLists s₀ s)
    (hindex : Indexed s) (hx : s.HDR x = .hdr hhdr) (hused : hhdr.free_blk = false)
    (hm : OBJ_SZ_TO_BLOCKS hhdr.hb_sz = m) (hpos : 0 < m) (hfirst : firstPage ≤ x)
    (hlast : x + m ≤ lastPage) (hsep : Separate s₀.HDR x (x + m))
    (hout : ∀ q, q < x ∨ x + m ≤ q → s.HDR q = s₀.HDR q)
    (hnofree : ∀ q, x ≤ q → q < x + m → ¬FreeAt s₀.HDR q)
    (hsect : ∀ s₁ : Hblks, SameRest s s₁ →
      (∀ q, Owned s₁.HDR q ↔ x ≤ q ∧ q < x + m ∨ Owned s₀.HDR q) → Sections s₁) :
    ∃ s', s.GC_freehblk x = some s' ∧ InOrder s' ∧ SameRest s s' ∧
      ∀ p hhdr', UsedAt s'.HDR p hhdr' ↔ (p < x ∨ x + m ≤ p) ∧ UsedAt s₀.HDR p hhdr' := by
  have hdiv : divHBLKSZ (HBLKSIZE * m) = m := by rw [Nat.mul_comm, divHBLKSZ_mul]
  have hsize : isPositive (HBLKSIZE * m) = true := by
    rw [Nat.mul_comm]
    unfold firstPage at hfirst
    exact isPositive_pages hpos (by omega)
  rw [GC_freehblk_eq hx hused (show HBLKSIZE * m = _ by rw [hm]) hsize, hdiv]
  have hrest₁ : SameRest s (s.markFree x (HBLKSIZE * m)) :=
    ((GC_remove_counts_same s x _).2.1.mapHdr _ _).mapHdr _ _
  have hlists₁ : SameLists s (s.markFree x (HBLKSIZE * m)) :=
    ((GC_remove_counts_same s x _).1.trans (mapHdr_sameLists _ _ _)).trans
      (mapHdr_sameLists _ _ _)
  have hindex₁ : Indexed (s.markFree x (HBLKSIZE * m)) :=
    ((hindex.remove_counts x _).mapHdr _ _).mapHdr _ _
  have hxc : (s.GC_remove_counts x m).HDR x = .hdr hhdr := by
    simp only [GC_remove_counts_HDR, lt_self_iff_false, false_and, if_false, hx]
  have hxs : (s.markFree x (HBLKSIZE * m)).HDR x =
      .hdr { hhdr with hb_sz := HBLKSIZE * m, free_blk := true } := by
    unfold markFree
    rw [hdiv]
    exact HDR_mapHdr_self (HDR_mapHdr_self hxc _) _
  have hothers : ∀ q, q ≠ x → (s.markFree x (HBLKSIZE * m)).HDR q =
      if x < q ∧ q < x + m then .nil else s.HDR q := fun q hq => by
    unfold markFree
    rw [HDR_mapHdr_of_ne hq, HDR_mapHdr_of_ne hq, GC_remove_counts_HDR, hdiv]
  generalize s.markFree x (HBLKSIZE * m) = s₁ at *
  have hnil : ∀ q, x < q → q < x + m → s₁.HDR q = .nil := fun q hxq hq => by
    rw [hothers q (by omega), if_pos ⟨hxq, hq⟩]
  have hout₁ : ∀ q, q < x ∨ x + m ≤ q → s₁.HDR q = s₀.HDR q := fun q hq => by
    rw [hothers q (by omega), if_neg (by omega), hout q hq]
  obtain ⟨hblock, hpages⟩ := blockAt_free (n := m) hxs rfl (Nat.mul_comm _ _) hpos hnil
  have hr : Replaced s₀.HDR s₁.HDR x (x + m) :=
    ⟨hsep, hblock.tiled (by rw [hpages]), hout₁, hfirst, hlast⟩
  have hloose : Loose s₁ x (HBLKSIZE * m) :=
    h.loosen hr (hsect s₁ hrest₁ fun q => hr.owned_iff) hindex₁ (hlists.trans hlists₁) hxs rfl
      hpages hnofree
  obtain ⟨hhdr₂, hloose₂, hrest₂, hx₂, hbehind₂, hbefore₂, hused₂⟩ := hloose.mergeNext hxs
  rw [hpages] at hloose₂ hrest₂ hx₂ hbehind₂ hbefore₂ hused₂
  generalize s₁.mergeNext x (x + m) = s₂ at *
  have hprev : ∀ p, s₁.GC_free_block_ending_at x = some p ↔
      ∃ phdr, s₂.HDR p = .hdr phdr ∧ phdr.free_blk = true ∧ p + phdr.pages = x := by
    intro p
    have hstart : ∀ p, Covers s₁.HDR p x → p = x := fun p hp =>
      hloose.table.covers_unique hp ⟨_, hxs, le_rfl, by rw [hpages]; omega⟩
    rw [GC_free_block_ending_at_iff hloose.table hloose.index hstart]
    refine exists_congr fun phdr => ?_
    constructor
    · rintro ⟨hp, hpfree, hend⟩
      have := (hloose.table.block p phdr hp).pos
      exact ⟨(hbefore₂ p (by omega)).trans hp, hpfree, hend⟩
    · rintro ⟨hp, hpfree, hend⟩
      have := (hloose₂.table.block p phdr hp).pos
      exact ⟨(hbefore₂ p (by omega)).symm.trans hp, hpfree, hend⟩
  obtain ⟨y, s₃, hhdr₃, hmerge, hloose₃, hrest₃, hx₃, hbehind₃, hfront₃, hused₃⟩ :=
    hloose₂.mergePrev hx₂ hbehind₂ hprev
  obtain ⟨horder, hHDR⟩ := hloose₃.add hx₃ hbehind₃ hfront₃
  refine ⟨_, rfl, ?_, ?_, fun p hhdr' => ?_⟩
  · rw [hmerge]
    exact horder
  · rw [hmerge]
    have hlast : SameRest s₃
        ({ s₃ with GC_large_free_bytes := s₃.GC_large_free_bytes + HBLKSIZE * m }.GC_add_to_fl y) :=
      SameRest.trans (by exact ⟨rfl, rfl, rfl, rfl, rfl, id⟩) (GC_add_to_fl_sameRest _ _)
    exact ((hrest₁.trans hrest₂).trans hrest₃).trans hlast
  · rw [hmerge]
    simp only [hHDR]
    rw [hused₃, hused₂]
    by_cases hin : p < x ∨ x + m ≤ p
    · rw [UsedAt, UsedAt, hout₁ p hin]
      simp [hin]
    · refine iff_of_false (fun hp => ?_) fun hp => hin hp.1
      by_cases hpx : p = x
      · rw [UsedAt, hpx, hxs] at hp
        cases hp.1
        cases hp.2
      · rw [UsedAt, hnil p (by omega) (by omega)] at hp
        cases hp.1

/-- **`GC_freehblk`** of a block in use. -/
theorem InOrder.freehblk (h : InOrder s) (hx : UsedAt s.HDR x hhdr) :
    ∃ s', s.GC_freehblk x = some s' ∧ InOrder s' ∧ SameRest s s' ∧
      ∀ p hhdr', UsedAt s'.HDR p hhdr' ↔ p ≠ x ∧ UsedAt s.HDR p hhdr' := by
  obtain ⟨hx, hused⟩ := hx
  have hblock := h.table.block x hhdr hx
  have hpages := pages_of_used hused
  have hnofree : ∀ q, x ≤ q → q < x + hhdr.pages → ¬FreeAt s.HDR q := by
    intro q hxq hq
    rcases hxq.eq_or_lt with rfl | hxq
    · rw [freeAt_iff hx, hused]
      exact Bool.false_ne_true
    · exact not_freeAt_count (hblock.count_of_used hused hxq hq)
  obtain ⟨s', hfree, horder, hrest, hiff⟩ := GC_freehblk_of h (.refl s) h.index hx hused
    hpages.symm hblock.pos (h.table.bounds x hhdr hx).1 (h.table.bounds x hhdr hx).2
    (h.table.separate_block hx) (fun _ _ => rfl) hnofree fun s₁ hrest howned =>
      h.sections.congr hrest fun q => by
        rw [howned]
        exact ⟨fun hq => hq.elim (fun hq => hblock.owned hq.1 hq.2) id, .inr⟩
  refine ⟨s', hfree, horder, hrest, fun p hhdr' => ?_⟩
  rw [hiff]
  refine and_congr_left fun hp => ?_
  have hpos := hblock.pos
  constructor
  · omega
  · intro hpx
    by_contra hin
    exact hpx (hblock.eq_of_covers hp.1 (by omega) (by omega))

end Hblks

end Ironclad.Gc
