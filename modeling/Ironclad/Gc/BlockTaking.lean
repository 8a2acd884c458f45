import Ironclad.Gc.BlockHeap

/-!
# Taking a block off the heap

What the steps of `GC_allochblk_nth` do to a heap in order: splitting a free block, taking the
first part of one and setting up its header, and dropping a block that is black listed completely.
In between, the block that is taken is on the list that it was found on, whatever its size, and
behind a free block if it has been split off one: the heap is `Ready` for taking it.
-/

namespace Ironclad.Gc

namespace Hblks

variable {s s' : Hblks} {x t m n i : Nat} {hhdr : Hblkhdr}

/-! ## The frame -/

theorem GC_remove_from_fl_sameRest (s : Hblks) (x i : Nat) :
    SameRest s (s.GC_remove_from_fl x i) := ⟨rfl, rfl, rfl, rfl, rfl, id⟩

theorem GC_add_to_fl_sameRest (s : Hblks) (x : Nat) : SameRest s (s.GC_add_to_fl x) := by
  unfold GC_add_to_fl
  refine SameRest.mapHdr ?_ _ _
  exact ⟨rfl, rfl, rfl, rfl, rfl, id⟩

theorem GC_split_block_sameRest (s : Hblks) (x n i : Nat) :
    SameRest s (s.GC_split_block x n i) := by
  have hstart : SameRest s (s.splitHeaders x n i) := by
    refine (SameRest.mapHdr ?_ _ _).mapHdr _ _
    exact ⟨rfl, rfl, rfl, rfl, rfl, id⟩
  rw [GC_split_block_eq]
  exact (hstart.trans (GC_add_to_fl_sameRest _ _)).mapHdr _ _

theorem Indexed.remove_from_fl (h : Indexed s) (x i : Nat) : Indexed (s.GC_remove_from_fl x i) :=
  ⟨h.sorted, h.mem⟩

theorem Indexed.add_to_fl (h : Indexed s) (x : Nat) : Indexed (s.GC_add_to_fl x) := by
  unfold GC_add_to_fl
  refine Indexed.mapHdr ?_ _ _
  exact ⟨h.sorted, h.mem⟩

theorem Indexed.split_block (h : Indexed s) (x n i : Nat) : Indexed (s.GC_split_block x n i) := by
  have hstart : Indexed (s.splitHeaders x n i) := by
    refine (Indexed.mapHdr ?_ _ _).mapHdr _ _
    exact ⟨h.sorted, h.mem⟩
  rw [GC_split_block_eq]
  exact (hstart.add_to_fl x).mapHdr _ _

theorem GC_add_to_fl_GC_large_free_bytes (s : Hblks) (x : Nat) :
    (s.GC_add_to_fl x).GC_large_free_bytes = s.GC_large_free_bytes := by
  unfold GC_add_to_fl
  exact mapHdr_GC_large_free_bytes _ _ _

theorem GC_split_block_GC_large_free_bytes (s : Hblks) (x n i : Nat) :
    (s.GC_split_block x n i).GC_large_free_bytes = s.GC_large_free_bytes := by
  rw [GC_split_block_eq, mapHdr_GC_large_free_bytes, GC_add_to_fl_GC_large_free_bytes]
  unfold splitHeaders
  simp only [mapHdr_GC_large_free_bytes]

/-! ## The block to be taken -/

/-- Where the free blocks are, if `x` is on the list `n`. -/
def ListedBut (s : Hblks) (x n i p : Nat) : Prop :=
  FreeAt s.HDR p ∧ if p = x then i = n else s.flOf p = i

/-- The block `x` can be taken from the list `n`. -/
structure Ready (s : Hblks) (x n : Nat) : Prop
    extends Books s (s.ListedBut x n) (fun _ q => q = x) where
  counted : s.GC_large_free_bytes = s.totalFree
  free : FreeAt s.HDR x
  index_le : n ≤ N_HBLK_FLS

/-- A block on the list of its size. -/
theorem InOrder.ready (h : InOrder s) (hx : Listed s n x) : Ready s x n where
  table := h.table
  index := h.index
  sections := h.sections
  lists := h.lists.imp fun i p => by
    unfold ListedBut Listed
    refine and_congr_right fun _ => ?_
    split
    · rename_i hp
      rw [hp, hx.2]
      exact eq_comm
    · exact Iff.rfl
  neighbours p hhdr hp hfree hnext := (h.neighbours p hhdr hp hfree hnext).elim
  counted := h.counted
  free := hx.1
  index_le := hx.2 ▸ s.flOf_le x

/-! ## Splitting -/

/-- **Splitting a free block**, which starts with installing the header. -/
theorem InOrder.split (h : InOrder s) (hg : s.Granted) (hx : s.HDR x = .hdr hhdr)
    (hfree : hhdr.free_blk = true) (hxt : x < t) (htx : t < x + hhdr.pages) :
    ∃ s₁, s.GC_install_header t = (true, s₁) ∧ SameRest s (s₁.GC_split_block x t (s.flOf x)) ∧
      Ready (s₁.GC_split_block x t (s.flOf x)) t (s.flOf x) ∧
      Replaced s.HDR (s₁.GC_split_block x t (s.flOf x)).HDR x (x + hhdr.pages) ∧
      (∀ p hhdr', UsedAt (s₁.GC_split_block x t (s.flOf x)).HDR p hhdr' ↔
        UsedAt s.HDR p hhdr') ∧
      ∃ nhdr, (s₁.GC_split_block x t (s.flOf x)).HDR t = .hdr nhdr ∧ nhdr.free_blk = true ∧
        nhdr.pages = x + hhdr.pages - t := by
  obtain ⟨s₁, hinstall, hHDR, hi₁, hlists₁, hrest₁⟩ := GC_install_header_eq hg h.index t
  have hblock := h.table.block x hhdr hx
  have hwhole := hblock.whole hfree
  have htnil : s.HDR t = .nil := hblock.nil_of_free hfree hxt htx
  have hx₁ : s₁.HDR x = .hdr hhdr := by rw [hHDR, Function.update_of_ne hxt.ne, hx]
  have ht₁ : s₁.HDR t = .hdr Hblkhdr.uninitialized := by rw [hHDR, Function.update_self]
  have hle : (t - x) * HBLKSIZE ≤ hhdr.hb_sz := by
    rw [hwhole]
    exact Nat.mul_le_mul_right _ (by omega)
  obtain ⟨hxs, hts, hqs⟩ := GC_split_block_HDR (i := s.flOf x) hx₁ ht₁ hxt.ne'
  generalize hs₂ : s₁.GC_split_block x t (s.flOf x) = s₂ at hxs hts hqs
  have hold : ∀ q, q ≠ x → q ≠ t → s₂.HDR q = s.HDR q := by
    intro q hqx hqt
    rw [hqs q hqx hqt, hHDR, Function.update_of_ne hqt]
  have hnil : ∀ q, x < q → q < x + hhdr.pages → q ≠ t → s₂.HDR q = .nil := by
    intro q hxq hqx hqt
    rw [hold q hxq.ne' hqt]
    exact hblock.nil_of_free hfree hxq hqx
  obtain ⟨hblockx, hpagesx⟩ := blockAt_free (n := t - x) hxs rfl rfl (by omega)
    fun q hq hlt => hnil q hq (by omega) (by omega)
  obtain ⟨hblockt, hpagest⟩ := blockAt_free (n := x + hhdr.pages - t) hts rfl
    (by
      show hhdr.hb_sz - _ = _
      rw [hwhole, ← Nat.sub_mul]
      congr 1
      omega)
    (by omega) fun q hq hlt => hnil q (by omega) (by omega) (by omega)
  have hr : Replaced s.HDR s₂.HDR x (x + hhdr.pages) := {
    separate := h.table.separate_block hx
    tiled := .cons hblockx (by
      rw [hpagesx, Nat.add_sub_cancel' hxt.le]
      exact hblockt.tiled (by omega))
    outside := fun q hq => hold q (by omega) (by omega)
    first := (h.table.bounds x hhdr hx).1
    last := (h.table.bounds x hhdr hx).2 }
  have hxfree : FreeAt s.HDR x := ⟨hhdr, hx, hfree⟩
  have hM₁ : OnLists s₁ s.Listed := h.lists.of_same hlists₁ fun i p hp => hb_sz_congr (by
    rw [hHDR, Function.update_of_ne]
    rintro rfl
    exact not_freeAt_nil htnil hp.1)
  have htM : ∀ j, ¬Listed s j t := fun j hj => not_freeAt_nil htnil hj.1
  have hrest : SameRest s s₂ := hs₂ ▸ hrest₁.trans (GC_split_block_sameRest _ _ _ _)
  refine ⟨s₁, hinstall, ?_⟩
  rw [hs₂]
  refine ⟨hrest, ?_, hr, fun p hhdr' => ?_, _, hts, rfl, hpagest⟩
  rotate_left
  · by_cases hpt : p = t
    · rw [hpt, UsedAt, UsedAt, hts, htnil]
      exact iff_of_false (fun hp => by cases hp.1; cases hp.2) fun hp => nomatch hp.1
    · by_cases hpx : p = x
      · rw [hpx]
        exact iff_of_false (FreeAt.not_usedAt ⟨_, hxs, rfl⟩) (FreeAt.not_usedAt hxfree)
      · rw [UsedAt, UsedAt, hold p hpx hpt]
  refine {
    table := h.table.replace hr
    index := hs₂ ▸ hi₁.split_block _ _ _
    sections := h.sections.replace hrest hr fun q hq hlt => hblock.owned hq hlt
    lists := ?_
    neighbours := ?_
    counted := ?_
    free := ⟨_, hts, rfl⟩
    index_le := s.flOf_le x }
  · have hsplit := hM₁.split ⟨hxfree, rfl⟩ htM hx₁ ht₁ hxt.ne' hle
    rw [hs₂] at hsplit
    refine hsplit.imp fun i p => ?_
    unfold ListedBut
    by_cases hpt : p = t
    · subst hpt
      simp only [freeAt_iff hts, if_true, true_and]
      exact ⟨fun hi => .inr (.inl hi), fun hi => hi.elim (fun hl => absurd hl.1 (htM i))
        fun hi => hi.elim id fun hi => absurd hi.1 hxt.ne'⟩
    · rw [if_neg hpt]
      by_cases hpx : p = x
      · subst hpx
        rw [freeAt_iff hxs, flOf_of_free hxs rfl, hpagesx]
        simp [hpt, eq_comm]
      · rw [FreeAt.congr (hold p hpx hpt), flOf_congr (hold p hpx hpt)]
        simp [hpt, hpx, Listed]
  · refine Neighbours.replace h.neighbours h.table hr (fun p hhdr' hp hfree' hap hpb hnext => ?_)
      (fun p hhdr' hp hfree' hend _ => ?_) fun _ _ hR => hR.elim
    · have hp' := (h.table.replace hr).block p hhdr' hp
      have hpos := hp'.pos
      by_cases hpx : p = x
      · subst hpx
        rw [hxs] at hp
        cases hp
        rw [hpagesx]
        omega
      · by_cases hpt : p = t
        · subst hpt
          rw [hts] at hp
          cases hp
          rw [hpagest, Nat.add_sub_cancel' htx.le, FreeAt.congr (hold _ (by omega) (by omega))]
            at hnext
          exact (h.neighbours x hhdr hx hfree hnext).elim
        · rw [hnil p (by omega) (by omega) hpt] at hp
          cases hp
    · exact (h.neighbours p hhdr' hp hfree' (hend ▸ hxfree)).elim
  · rw [← hs₂, GC_split_block_GC_large_free_bytes, hlists₁.large, h.counted,
      hM₁.totalFree_split ⟨hxfree, rfl⟩ (s.flOf_le x) hx₁ ht₁ hxt.ne' hle, hlists₁.totalFree]

/-! ## Taking the first part -/

/-- The header of what is left of a free block behind its first `bytes`. -/
def restHdr (total bytes : Nat) : Hblkhdr := ⟨total - bytes, 0, false, true⟩

/-- **`GC_get_first_part`**: the block is off the list, the rest is on its own. -/
theorem Ready.firstPart (h : Ready s x n) (hg : s.Granted) (hx : s.HDR x = .hdr hhdr)
    (hm : 0 < m) (hle : m ≤ hhdr.pages) :
    ∃ s', s.GC_get_first_part x (HBLKSIZE * m) n = (some x, s') ∧ SameRest s s' ∧ Indexed s' ∧
      s'.HDR = (fun q => if q = x + m ∧ m < hhdr.pages then
        .hdr (restHdr hhdr.hb_sz (HBLKSIZE * m)) else s.HDR q) ∧
      OnLists s' (fun i p => s.ListedBut x n i p ∧ p ≠ x ∨
        p = x + m ∧ m < hhdr.pages ∧ i = GC_hblk_fl_from_blocks (hhdr.pages - m)) ∧
      s'.GC_large_free_bytes = s.GC_large_free_bytes ∧
      s'.totalFree + HBLKSIZE * m = s.totalFree := by
  have hfree : hhdr.free_blk = true := (freeAt_iff hx).mp h.free
  have hblock := h.table.block x hhdr hx
  have hwhole := hblock.whole hfree
  have hxM : s.ListedBut x n n x := ⟨h.free, by rw [if_pos rfl]⟩
  have hoff := h.lists.remove hxM
  have htotal := h.lists.totalFree_remove hxM h.index_le
  rw [hb_sz_of_hdr hx] at htotal
  unfold GC_get_first_part
  rw [hb_sz_of_hdr hx]
  rcases hle.eq_or_lt with heq | hlt
  · have hexact : hhdr.hb_sz = HBLKSIZE * m := by rw [hwhole, heq, Nat.mul_comm]
    rw [if_pos hexact]
    refine ⟨_, rfl, GC_remove_from_fl_sameRest s x n, h.index.remove_from_fl x n, ?_,
      hoff.imp fun i p => ?_, rfl, by rw [← hexact, htotal]⟩
    · funext q
      rw [if_neg (by omega)]
      rfl
    · simp [heq]
  · have hinexact : hhdr.hb_sz ≠ HBLKSIZE * m := by
      rw [hwhole, Nat.mul_comm]
      exact fun heq => hlt.ne' (Nat.eq_of_mul_eq_mul_left (by decide) heq)
    have hdiv : divHBLKSZ (HBLKSIZE * m) = m := by rw [Nat.mul_comm, divHBLKSZ_mul]
    have hg₁ : (s.GC_remove_from_fl x n).Granted := hg
    obtain ⟨s₁, hinstall, hHDR, hi₁, hlists₁, hrest₁⟩ :=
      GC_install_header_eq hg₁ (h.index.remove_from_fl x n) (x + m)
    have hnil : s.HDR (x + m) = .nil := hblock.nil_of_free hfree (by omega) (by omega)
    have hm₁ : s₁.HDR (x + m) = .hdr Hblkhdr.uninitialized := by
      rw [hHDR, Function.update_self]
    rw [if_neg hinexact, hdiv]
    simp only [hinstall]
    set s₂ := s₁.mapHdr (x + m) fun hdr =>
      { hdr with
        hb_sz := hhdr.hb_sz - HBLKSIZE * m, ignore_off_page := false, free_blk := false }
      with hs₂
    have hm₂ : s₂.HDR (x + m) =
        .hdr { restHdr hhdr.hb_sz (HBLKSIZE * m) with free_blk := false } :=
      HDR_mapHdr_self hm₁ _
    have hold₂ : ∀ q, q ≠ x + m → s₂.HDR q = s.HDR q := fun q hq => by
      rw [hs₂, HDR_mapHdr_of_ne hq, hHDR, Function.update_of_ne hq]
      rfl
    have hlists₂ : SameLists (s.GC_remove_from_fl x n) s₂ :=
      hlists₁.trans (mapHdr_sameLists _ _ _)
    have hoff₂ : OnLists s₂ fun i p => s.ListedBut x n i p ∧ p ≠ x := by
      refine hoff.of_same hlists₂ fun i p hp => hb_sz_congr (hold₂ p ?_)
      rintro rfl
      exact not_freeAt_nil hnil hp.1.1
    have hfl : s₂.flOf (x + m) = GC_hblk_fl_from_blocks (hhdr.pages - m) := by
      unfold flOf
      rw [hb_sz_of_hdr hm₂]
      show GC_hblk_fl_from_blocks (divHBLKSZ (hhdr.hb_sz - HBLKSIZE * m)) = _
      rw [hwhole, Nat.mul_comm HBLKSIZE, ← Nat.sub_mul, divHBLKSZ_mul]
    have hadd := hoff₂.add (x := x + m)
      (fun j hj => not_freeAt_nil hnil hj.1.1) hm₂
    refine ⟨_, rfl, ?_, ?_, ?_, hadd.imp fun i p => ?_, ?_, ?_⟩
    · exact ((GC_remove_from_fl_sameRest s x n).trans hrest₁).mapHdr _ _ |>.trans
        (GC_add_to_fl_sameRest _ _)
    · exact (hi₁.mapHdr _ _).add_to_fl _
    · funext q
      by_cases hq : q = x + m
      · subst hq
        rw [if_pos ⟨rfl, hlt⟩]
        exact GC_add_to_fl_HDR_self hm₂
      · rw [if_neg fun h => hq h.1, GC_add_to_fl_HDR_of_ne hq, hold₂ q hq]
    · rw [hfl]
      simp [hlt]
    · rw [GC_add_to_fl_GC_large_free_bytes, hlists₂.large]
      rfl
    · rw [totalFree_add, hb_sz_of_hdr hm₂, hlists₂.totalFree]
      show _ + (hhdr.hb_sz - HBLKSIZE * m) + _ = _
      have : HBLKSIZE * m ≤ hhdr.hb_sz := by
        rw [hwhole, Nat.mul_comm]
        exact Nat.mul_le_mul_right _ hle
      omega

/-- The bytes of a block that has been taken are counted as free until the end. -/
theorem Books.take_bytes {k : Nat} (h : Books s s.Listed fun _ _ => False)
    (hlarge : s.GC_large_free_bytes = s.totalFree + k) :
    InOrder { s with GC_large_free_bytes := s.GC_large_free_bytes - k } where
  table := h.table
  index := ⟨h.index.sorted, h.index.mem⟩
  sections := ⟨h.sections.owned, h.sections.whole, h.sections.apart⟩
  lists := h.lists.congr rfl rfl rfl rfl fun _ _ _ => rfl
  neighbours := h.neighbours
  counted := by
    show s.GC_large_free_bytes - k = s.totalFree
    omega

/-- **Taking a block**: the first part of a free block is a block in use, the rest is free. -/
theorem Ready.take (h : Ready s x n) (hg : s.Granted) (hx : s.HDR x = .hdr hhdr) (hm : 0 < m)
    (hle : m ≤ hhdr.pages) {sz : Nat} (hsz : OBJ_SZ_TO_BLOCKS sz = m) (kind : Nat) (flags : Bool) :
    ∃ s₁ s₂ s₃, s.GC_get_first_part x (HBLKSIZE * m) n = (some x, s₁) ∧
      s₁.GC_install_counts x m = (true, s₂) ∧ s₂.setup_header x sz kind flags = (true, s₃) ∧
      InOrder { s₃ with GC_large_free_bytes := s₃.GC_large_free_bytes - HBLKSIZE * m } ∧
      SameRest s s₃ ∧ Replaced s.HDR s₃.HDR x (x + hhdr.pages) ∧
      ∀ p hhdr', UsedAt s₃.HDR p hhdr' ↔
        UsedAt s.HDR p hhdr' ∨ p = x ∧ hhdr' = ⟨sz, kind, flags, false⟩ := by
  have hfree : hhdr.free_blk = true := (freeAt_iff hx).mp h.free
  have hblock := h.table.block x hhdr hx
  have hwhole := hblock.whole hfree
  obtain ⟨s₁, hfirst, hrest₁, hi₁, hHDR₁, hlists₁, hlarge₁, htotal₁⟩ := h.firstPart hg hx hm hle
  obtain ⟨s₂, hcounts, hHDR₂, hi₂, hlists₂, hrest₂⟩ :=
    GC_install_counts_eq (hrest₁.granted hg) hi₁ x m
  have hx₂ : s₂.HDR x = .hdr hhdr := by
    simp only [hHDR₂, hHDR₁, lt_self_iff_false, false_and, if_false]
    rw [if_neg (by omega), hx]
  obtain ⟨s₃, hsetup, hHDR₃, htables₃, hlists₃, hrest₃⟩ :=
    setup_header_eq sz kind flags (hrest₂.granted (hrest₁.granted hg)) hx₂
  have hrest : SameRest s s₃ := (hrest₁.trans hrest₂).trans hrest₃
  have hlists : SameLists s₁ s₃ := hlists₂.trans hlists₃
  -- the index afterwards: the block in use, the rest of the free one, and what was there
  have hxs : s₃.HDR x = .hdr ⟨sz, kind, flags, false⟩ := by rw [hHDR₃, Function.update_self]
  have hne : ∀ q, q ≠ x → s₃.HDR q = if x < q ∧ q < x + m then .count (min (q - x) MAX_JUMP)
      else if q = x + m ∧ m < hhdr.pages then .hdr (restHdr hhdr.hb_sz (HBLKSIZE * m))
      else s.HDR q := fun q hq => by
    rw [hHDR₃, Function.update_of_ne hq, hHDR₂, hHDR₁]
  have hcount : ∀ q, x < q → q < x + m → s₃.HDR q = .count (min (q - x) MAX_JUMP) :=
    fun q hxq hqm => by rw [hne q (by omega), if_pos ⟨hxq, hqm⟩]
  have hrestHdr : m < hhdr.pages → s₃.HDR (x + m) = .hdr (restHdr hhdr.hb_sz (HBLKSIZE * m)) :=
    fun hlt => by rw [hne _ (by omega), if_neg (by omega), if_pos ⟨rfl, hlt⟩]
  have hnil : ∀ q, x + m < q → q < x + hhdr.pages → s₃.HDR q = .nil := fun q hmq hq => by
    rw [hne q (by omega), if_neg (by omega), if_neg (by omega)]
    exact hblock.nil_of_free hfree (by omega) hq
  have hout : ∀ q, q < x ∨ x + hhdr.pages ≤ q → s₃.HDR q = s.HDR q := fun q hq => by
    rw [hne q (by omega), if_neg (by omega), if_neg (by omega)]
  -- a page of the old block, behind the first
  have hcases : ∀ q, x < q → q < x + hhdr.pages →
      q = x + m ∧ m < hhdr.pages ∨ ∀ hhdr', s₃.HDR q ≠ .hdr hhdr' := by
    intro q hxq hq
    rcases Nat.lt_trichotomy q (x + m) with hlt | heq | hgt
    · exact .inr fun hhdr' => by rw [hcount q hxq hlt]; exact nofun
    · exact .inl ⟨heq, by omega⟩
    · exact .inr fun hhdr' => by rw [hnil q hgt hq]; exact nofun
  obtain ⟨hblockx, hpagesx⟩ := blockAt_used hxs rfl hsz hm hcount
  have hrestBlock : m < hhdr.pages →
      BlockAt s₃.HDR (x + m) (restHdr hhdr.hb_sz (HBLKSIZE * m)) ∧
        (restHdr hhdr.hb_sz (HBLKSIZE * m)).pages = hhdr.pages - m := by
    intro hlt
    refine blockAt_free (hrestHdr hlt) rfl ?_ (by omega) fun q hq hqm => hnil q hq (by omega)
    show hhdr.hb_sz - HBLKSIZE * m = _
    rw [hwhole, Nat.mul_comm HBLKSIZE, ← Nat.sub_mul]
  have hr : Replaced s.HDR s₃.HDR x (x + hhdr.pages) := {
    separate := h.table.separate_block hx
    tiled := .cons hblockx (by
      rw [hpagesx]
      rcases hle.eq_or_lt with heq | hlt
      · rw [heq]
        exact .nil _
      · obtain ⟨hb, hp⟩ := hrestBlock hlt
        exact hb.tiled (by omega))
    outside := hout
    first := (h.table.bounds x hhdr hx).1
    last := (h.table.bounds x hhdr hx).2 }
  have hbooks : Books s₃ s₃.Listed fun _ _ => False := {
    table := h.table.replace hr
    index := by
      refine ⟨htables₃ ▸ hi₂.sorted, fun q hq => htables₃ ▸ hi₂.mem q fun hq₂ => hq ?_⟩
      rw [hHDR₃, Function.update_of_ne, hq₂]
      rintro rfl
      rw [hx₂] at hq₂
      cases hq₂
    sections := h.sections.replace hrest hr fun q hq hlt => hblock.owned hq hlt
    lists := by
      have hsize : ∀ i p, (s.ListedBut x n i p ∧ p ≠ x ∨
          p = x + m ∧ m < hhdr.pages ∧ i = GC_hblk_fl_from_blocks (hhdr.pages - m)) →
          s₃.hb_sz p = s₁.hb_sz p := by
        intro i p hp
        have hpx : p ≠ x := by rcases hp with hp | hp <;> omega
        have hin : ¬(x < p ∧ p < x + m) := by
          rintro ⟨hxp, hpm⟩
          rcases hp with hp | hp
          · exact not_freeAt_nil (hblock.nil_of_free hfree hxp (by omega)) hp.1.1
          · omega
        refine hb_sz_congr ?_
        rw [hne p hpx, if_neg hin, hHDR₁]
      refine (hlists₁.of_same hlists hsize).imp fun i p => ?_
      by_cases hin : x ≤ p ∧ p < x + hhdr.pages
      · by_cases hpx : p = x
        · subst hpx
          simp only [Listed, freeAt_iff hxs, Bool.false_eq_true, false_and, ne_eq, not_true,
            and_false, false_or, false_iff]
          omega
        · rw [show s.ListedBut x n i p ∧ p ≠ x ↔ False from iff_false_intro fun hp =>
            not_freeAt_nil (hblock.nil_of_free hfree (by omega) hin.2) hp.1.1, false_or]
          rcases hcases p (by omega) hin.2 with ⟨rfl, hlt⟩ | hnot
          · rw [Listed, freeAt_iff (hrestHdr hlt), flOf_of_free (hrestHdr hlt) rfl,
              (hrestBlock hlt).2]
            simp [hlt, restHdr, eq_comm]
          · refine iff_of_false (fun hp => ?_) fun hp => ?_
            · obtain ⟨hhdr', hp, -⟩ := hp.1
              exact hnot hhdr' hp
            · exact hnot _ (hp.1 ▸ hrestHdr hp.2.1)
      · have hsame := hout p (by omega)
        unfold Listed ListedBut
        rw [FreeAt.congr hsame, flOf_congr hsame, if_neg (by omega)]
        refine ⟨fun hp => .inl ⟨hp, by omega⟩, fun hp => hp.elim And.left fun hp => ?_⟩
        omega
    neighbours := by
      refine Neighbours.replace h.neighbours h.table hr (fun p hhdr' hp hfree' hap hpb hnext => ?_)
        (fun p hhdr' hp hfree' hend hx => ?_) fun p q hq _ hside => ?_
      · by_cases hpx : p = x
        · subst hpx
          rw [hxs] at hp
          cases hp
          cases hfree'
        · have hpos := ((h.table.replace hr).block p hhdr' hp).pos
          rcases hcases p (by omega) (by omega) with ⟨rfl, hlt⟩ | hnot
          · -- what follows the rest of the block followed the block
            rw [hrestHdr hlt] at hp
            cases hp
            rw [(hrestBlock hlt).2, show x + m + (hhdr.pages - m) = x + hhdr.pages by omega,
              FreeAt.congr (hout _ (by omega))] at hnext
            have := h.neighbours x hhdr hx hfree hnext
            omega
          · exact hnot hhdr' hp
      · rw [freeAt_iff hxs] at hx
        cases hx
      · have := hblock.pos
        omega }
  refine ⟨s₁, s₂, s₃, hfirst, hcounts, hsetup, hbooks.take_bytes ?_, hrest, hr, fun p hhdr' => ?_⟩
  · rw [hlists.large, hlists.totalFree, hlarge₁, h.counted, ← htotal₁]
  · unfold UsedAt
    by_cases hin : x ≤ p ∧ p < x + hhdr.pages
    · by_cases hpx : p = x
      · subst hpx
        rw [hxs, hx]
        constructor
        · rintro ⟨heq, -⟩
          cases heq
          exact .inr ⟨rfl, rfl⟩
        · rintro (⟨heq, hused⟩ | ⟨-, rfl⟩)
          · cases heq
            rw [hfree] at hused
            cases hused
          · exact ⟨rfl, rfl⟩
      · rw [hblock.nil_of_free hfree (by omega) hin.2]
        refine iff_of_false (fun hp => ?_) fun hp => hp.elim (fun hp => nomatch hp.1) fun hp =>
          hpx hp.1
        rcases hcases p (by omega) hin.2 with ⟨rfl, hlt⟩ | hnot
        · rw [hrestHdr hlt] at hp
          cases hp.1
          cases hp.2
        · exact hnot hhdr' hp.1
    · rw [hout p (by omega)]
      have := hblock.pos
      exact ⟨.inl, fun hp => hp.elim id fun hp => by omega⟩

end Hblks

end Ironclad.Gc
