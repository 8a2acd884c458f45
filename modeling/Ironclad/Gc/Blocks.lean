import Ironclad.Gc.Reach
import Ironclad.Gc.Collector

/-!
# The blocks over a run

Which blocks are in use changes in two ways only: `setup_header` adds one on free pages
and `GC_freehblk` takes one away. Everything else leaves the headers and the fixed part
of the table of kinds alone (`SameBlocks`), so that the blocks stay well formed in every
reachable state.
-/

namespace Ironclad.Gc

/-- The part of an entry that does not change once it is set. -/
def ObjKind.fixed (ok : ObjKind) : ObjKind := { ok with ok_reclaim_list := none }

/-- The same blocks with the same headers, and the same kinds. -/
structure SameBlocks (s t : Collector) : Prop where
  hblks : t.heap.hblks = s.heap.hblks
  HDR : t.heap.HDR = s.heap.HDR
  n_kinds : t.GC_n_kinds = s.GC_n_kinds
  fixed : ∀ k, (t.kinds k).fixed = (s.kinds k).fixed

variable {s t u : Collector}

theorem SameBlocks.refl (s : Collector) : SameBlocks s s := ⟨rfl, rfl, rfl, fun _ => rfl⟩

theorem SameBlocks.trans (h₁ : SameBlocks s t) (h₂ : SameBlocks t u) : SameBlocks s u :=
  ⟨h₂.hblks.trans h₁.hblks, h₂.HDR.trans h₁.HDR, h₂.n_kinds.trans h₁.n_kinds,
    fun k => (h₂.fixed k).trans (h₁.fixed k)⟩

theorem SameBlocks.ok_freelist (h : SameBlocks s t) (k : Nat) :
    (t.kinds k).ok_freelist = (s.kinds k).ok_freelist := by
  show (t.kinds k).fixed.ok_freelist = (s.kinds k).fixed.ok_freelist
  rw [h.fixed k]

/-- The header of a new block depends on the fixed part of the kind only. -/
theorem newHdr_fixed (kind sz : Nat) (ok : ObjKind) :
    newHdr kind sz ok = newHdr kind sz ok.fixed := rfl

/-! ## What leaves the blocks alone -/

theorem setFreelist_same (s : Collector) (array gran : Nat) (list : List Obj) :
    SameBlocks s (s.setFreelist array gran list) := ⟨rfl, rfl, rfl, fun _ => rfl⟩

theorem update_fixed {s : Collector} {kind : Nat} {ok : ObjKind}
    (hok : ok.fixed = (s.kinds kind).fixed) (k : Nat) :
    (Function.update s.kinds kind ok k).fixed = (s.kinds k).fixed := by
  by_cases hk : k = kind
  · subst hk
    rw [Function.update_self, hok]
  · rw [Function.update_of_ne hk]

theorem setReclaimList_same (s : Collector) (kind gran : Nat) (blocks : List Nat) :
    SameBlocks s (s.setReclaimList kind gran blocks) := ⟨rfl, rfl, rfl, update_fixed rfl⟩

theorem GC_alloc_reclaim_list_same (kind : Nat) (s : Collector) :
    SameBlocks s (GC_alloc_reclaim_list kind s) := ⟨rfl, rfl, rfl, update_fixed rfl⟩

/-- Putting objects on a list writes their contents only. -/
theorem foldl_putFree (init : Bool) (l : List Obj) (acc : Heap × List Obj) :
    (l.foldl (putFree init) acc).2 = l.reverse ++ acc.2 ∧
      (l.foldl (putFree init) acc).1.hblks = acc.1.hblks ∧
      (l.foldl (putFree init) acc).1.HDR = acc.1.HDR ∧
      (l.foldl (putFree init) acc).1.roots = acc.1.roots := by
  induction l generalizing acc with
  | nil => exact ⟨rfl, rfl, rfl, rfl⟩
  | cons x l ih =>
      obtain ⟨hlist, hblks, hHDR, hroots⟩ := ih (putFree init acc x)
      rw [List.foldl_cons]
      refine ⟨?_, hblks.trans ?_, hHDR.trans ?_, hroots.trans ?_⟩
      · rw [hlist, List.reverse_cons, List.append_assoc]
        rfl
      all_goals cases init <;> rfl

theorem GC_reclaim_generic_spec (heap : Heap) (marks : Marks) (h : Nat) (hdr : Hdr) (init : Bool)
    (list : List Obj) :
    (GC_reclaim_generic heap marks h hdr init list).1.2 =
        ((slots h hdr).filter fun x => !marks x).reverse ++ list ∧
      (GC_reclaim_generic heap marks h hdr init list).1.1.hblks = heap.hblks ∧
      (GC_reclaim_generic heap marks h hdr init list).1.1.HDR = heap.HDR := by
  have hspec : ∀ b, (reclaimSlots b heap marks h hdr list).2 =
        ((slots h hdr).filter fun x => !marks x).reverse ++ list ∧
      (reclaimSlots b heap marks h hdr list).1.hblks = heap.hblks ∧
      (reclaimSlots b heap marks h hdr list).1.HDR = heap.HDR := by
    intro b
    obtain ⟨hlist, hblks, hHDR, -⟩ :=
      foldl_putFree b ((slots h hdr).filter fun x => !marks x) (heap, list)
    exact ⟨hlist, hblks, hHDR⟩
  cases init with
  | true => exact hspec true
  | false => exact hspec false

theorem GC_reclaim_small_nonempty_block_same (h : Nat) (s : Collector) :
    SameBlocks s (GC_reclaim_small_nonempty_block h s) := by
  unfold GC_reclaim_small_nonempty_block
  split
  · exact .refl s
  · rename_i hdr _
    obtain ⟨-, hblks, hHDR⟩ := GC_reclaim_generic_spec s.heap s.marks h hdr
      (s.kinds hdr.hb_obj_kind).ok_init (s.freelist (s.kinds hdr.hb_obj_kind).ok_freelist hdr.hb_sz)
    exact ⟨hblks, hHDR, rfl, fun _ => rfl⟩

theorem continueReclaim_same (sz kind : Nat) (blocks : List Nat) (s : Collector) :
    SameBlocks s (continueReclaim sz kind blocks s) := by
  induction blocks generalizing s with
  | nil => exact .refl s
  | cons hbp rest ih =>
      have hone : SameBlocks s
          (GC_reclaim_small_nonempty_block hbp (s.setReclaimList kind sz rest)) :=
        (setReclaimList_same s kind sz rest).trans (GC_reclaim_small_nonempty_block_same hbp _)
      unfold continueReclaim
      simp only
      split
      · exact hone
      · exact hone.trans (ih _)

theorem GC_continue_reclaim_same (sz kind : Nat) (s : Collector) :
    SameBlocks s (GC_continue_reclaim sz kind s) := by
  unfold GC_continue_reclaim
  split
  · exact .refl s
  · exact continueReclaim_same sz kind _ s

theorem takeFree_same {array gran : Nat} {clearLink : Bool} {x : Obj}
    (h : takeFree array gran clearLink s = some (t, x)) : SameBlocks s t := by
  unfold takeFree at h
  split at h
  · cases h
  · simp only [Option.some.injEq, Prod.mk.injEq] at h
    obtain ⟨rfl, -⟩ := h
    split
    · exact ⟨rfl, rfl, rfl, fun _ => rfl⟩
    · exact setFreelist_same s array gran _

/-! ## Well-formed blocks -/

structure Base (s : Collector) : Prop where
  wf : s.heap.WF
  nodup : s.heap.hblks.Nodup
  n_kinds : 4 ≤ s.GC_n_kinds
  uncollectable : (s.kinds UNCOLLECTABLE).fixed = (GC_obj_kinds UNCOLLECTABLE).fixed

theorem GC_init_base (limit : Nat) : Base (GC_init limit) := by
  refine ⟨⟨?_, ?_, ?_, ?_, ?_⟩, List.nodup_nil, Nat.le_refl 4, rfl⟩
  · intro h
    constructor
    · intro hh
      exact absurd hh List.not_mem_nil
    · rintro ⟨hdr, hhdr⟩
      cases hhdr
  all_goals
    intro h hdr
    intros
    contradiction

theorem WF_congr {heap heap' : Heap} (hblks : heap'.hblks = heap.hblks)
    (hHDR : heap'.HDR = heap.HDR) (wf : heap.WF) : heap'.WF := by
  refine ⟨?_, ?_, ?_, ?_, ?_⟩
  · rw [hblks, hHDR]
    exact wf.mem_hblks
  · rw [hHDR]
    exact wf.page_pos
  · rw [hHDR]
    exact wf.hb_sz_pos
  · rw [hHDR, hblks]
    exact wf.apart
  · rw [hHDR]
    exact wf.uncollectable_descr

theorem SameBlocks.base (h : SameBlocks s t) (hs : Base s) : Base t :=
  ⟨WF_congr h.hblks h.HDR hs.wf, h.hblks ▸ hs.nodup, h.n_kinds ▸ hs.n_kinds,
    (h.fixed UNCOLLECTABLE).trans hs.uncollectable⟩

/-- The pages of a new block overlap with no block in use. -/
theorem apart_of_fits {heap : Heap} {sz h b : Nat} {hdr : Hdr} (wf : heap.WF)
    (hfits : fits heap sz h = true) (hhdr : heap.HDR b = some hdr) :
    b + OBJ_SZ_TO_BLOCKS hdr.hb_sz ≤ h ∨ h + OBJ_SZ_TO_BLOCKS sz ≤ b := by
  unfold fits at hfits
  rw [Bool.and_eq_true, List.all_eq_true] at hfits
  have hb := hfits.2 b ((wf.mem_hblks b).mpr ⟨hdr, hhdr⟩)
  simpa [hhdr] using hb

theorem HDR_of_fits {heap : Heap} {sz h : Nat} (wf : heap.WF) (hsz : 0 < sz)
    (hfits : fits heap sz h = true) : heap.HDR h = none := by
  cases hhdr : heap.HDR h with
  | none => rfl
  | some hdr =>
      have hpos := OBJ_SZ_TO_BLOCKS_pos (wf.hb_sz_pos h hdr hhdr)
      have hpos' := OBJ_SZ_TO_BLOCKS_pos hsz
      rcases apart_of_fits wf hfits hhdr with hle | hle <;> omega

theorem setup_header_HDR (h sz kind : Nat) (s : Collector) :
    (setup_header h sz kind s).heap.HDR h = some (newHdr kind sz (s.kinds kind)) :=
  Function.update_self ..

theorem setup_header_HDR_of_ne {h b : Nat} (sz kind : Nat) (s : Collector) (hne : b ≠ h) :
    (setup_header h sz kind s).heap.HDR b = s.heap.HDR b :=
  Function.update_of_ne hne ..

/-- The descriptor of an uncollectable block is its length. -/
theorem newHdr_uncollectable {sz : Nat} {ok : ObjKind}
    (hok : ok.fixed = (GC_obj_kinds UNCOLLECTABLE).fixed) :
    dsTag (newHdr UNCOLLECTABLE sz ok).hb_descr ≠ GC_DS_PRECISE := by
  rw [newHdr_fixed, hok]
  show (0 + sz * 16) % 18446744073709551616 % 8 ≠ 5
  omega

/-- A new block on free pages. -/
theorem setup_header_base {h sz kind : Nat} (hs : Base s) (hsz : 0 < sz)
    (hfits : fits s.heap sz h = true) : Base (setup_header h sz kind s) := by
  have hnone := HDR_of_fits hs.wf hsz hfits
  have hHDR : ∀ b hdr, (setup_header h sz kind s).heap.HDR b = some hdr →
      b = h ∧ hdr = newHdr kind sz (s.kinds kind) ∨ b ≠ h ∧ s.heap.HDR b = some hdr := by
    intro b hdr hhdr
    by_cases hb : b = h
    · subst hb
      rw [setup_header_HDR] at hhdr
      cases hhdr
      exact .inl ⟨rfl, rfl⟩
    · rw [setup_header_HDR_of_ne sz kind s hb] at hhdr
      exact .inr ⟨hb, hhdr⟩
  refine ⟨⟨?_, ?_, ?_, ?_, ?_⟩, ?_, hs.n_kinds, hs.uncollectable⟩
  · intro b
    show b ∈ h :: s.heap.hblks ↔ _
    rw [List.mem_cons, hs.wf.mem_hblks]
    by_cases hb : b = h
    · subst hb
      simp [setup_header_HDR]
    · simp [hb, setup_header_HDR_of_ne sz kind s hb]
  · intro b hdr hhdr
    rcases hHDR b hdr hhdr with ⟨rfl, -⟩ | ⟨-, hhdr⟩
    · have hne : b ≠ 0 := of_decide_eq_true (Bool.and_eq_true_iff.mp hfits).1
      omega
    · exact hs.wf.page_pos b hdr hhdr
  · intro b hdr hhdr
    rcases hHDR b hdr hhdr with ⟨-, rfl⟩ | ⟨-, hhdr⟩
    · exact hsz
    · exact hs.wf.hb_sz_pos b hdr hhdr
  · intro b hdr b' hhdr hb' hlt
    have hb' : b' = h ∨ b' ∈ s.heap.hblks := List.mem_cons.mp hb'
    rcases hHDR b hdr hhdr with ⟨rfl, rfl⟩ | ⟨-, hold⟩
    · -- the new block, and one behind it
      have hmem : b' ∈ s.heap.hblks := hb'.resolve_left (by omega)
      obtain ⟨hdr', hhdr'⟩ := (hs.wf.mem_hblks b').mp hmem
      rcases apart_of_fits hs.wf hfits hhdr' with hle | hle
      · omega
      · exact hle
    · rcases hb' with rfl | hmem
      · have hpos := OBJ_SZ_TO_BLOCKS_pos hsz
        rcases apart_of_fits hs.wf hfits hold with hle | hle
        · exact hle
        · omega
      · exact hs.wf.apart b hdr b' hold hmem hlt
  · intro b hdr hhdr hkind
    rcases hHDR b hdr hhdr with ⟨-, rfl⟩ | ⟨-, hhdr⟩
    · obtain rfl : kind = UNCOLLECTABLE := hkind
      exact newHdr_uncollectable hs.uncollectable
    · exact hs.wf.uncollectable_descr b hdr hhdr hkind
  · refine List.nodup_cons.mpr ⟨?_, hs.nodup⟩
    intro hmem
    obtain ⟨hdr, hhdr⟩ := (hs.wf.mem_hblks h).mp hmem
    rw [hnone] at hhdr
    cases hhdr

theorem GC_freehblk_HDR {h b : Nat} {hdr : Hdr} :
    (GC_freehblk h s).heap.HDR b = some hdr ↔ b ≠ h ∧ s.heap.HDR b = some hdr := by
  show Function.update s.heap.HDR h none b = some hdr ↔ _
  by_cases hb : b = h
  · simp [hb]
  · simp [hb, Function.update_of_ne]

theorem GC_freehblk_base (h : Nat) (hs : Base s) : Base (GC_freehblk h s) := by
  refine ⟨⟨?_, ?_, ?_, ?_, ?_⟩, hs.nodup.filter _, hs.n_kinds, hs.uncollectable⟩
  · intro b
    show b ∈ s.heap.hblks.filter (· ≠ h) ↔ _
    simp only [List.mem_filter, decide_eq_true_eq, GC_freehblk_HDR, hs.wf.mem_hblks]
    constructor
    · rintro ⟨⟨hdr, hhdr⟩, hb⟩
      exact ⟨hdr, hb, hhdr⟩
    · rintro ⟨hdr, hb, hhdr⟩
      exact ⟨⟨hdr, hhdr⟩, hb⟩
  · intro b hdr hhdr
    exact hs.wf.page_pos b hdr (GC_freehblk_HDR.mp hhdr).2
  · intro b hdr hhdr
    exact hs.wf.hb_sz_pos b hdr (GC_freehblk_HDR.mp hhdr).2
  · intro b hdr b' hhdr hb' hlt
    exact hs.wf.apart b hdr b' (GC_freehblk_HDR.mp hhdr).2 (List.mem_filter.mp hb').1 hlt
  · intro b hdr hhdr hkind
    exact hs.wf.uncollectable_descr b hdr (GC_freehblk_HDR.mp hhdr).2 hkind

end Ironclad.Gc
