import Ironclad.Gc.BlockRuns
import Ironclad.Gc.BlockTraversal
import Ironclad.Gc.Collector
import Ironclad.Logic.Machine

/-!
# The block allocator under the collector

The collector takes the pages of a new block from its environment, as long as they are free. Here
the block allocator is that environment: whatever it does, the collector's blocks are the blocks in
use, each page it finds is one that the collector accepts, and an address is in the same block for
both.
-/

namespace Ironclad.Gc

namespace Hblks

open Ironclad.Logic

variable {s s' : Hblks} {c c' : Collector} {T : Nat → IndexEntry} {U : Nat → Prop} {p h x : Nat}
  {hhdr : Hblkhdr}

/-! ## The two machines together -/

/-- The block at `p`, in use now, is one of the collector's blocks from now on, if its pages are
free there. -/
def adopt (s : Hblks) (c : Collector) (p : Nat) : Option Collector :=
  match s.HDR p with
  | .hdr hhdr =>
      if fits c.heap (hhdr.hb_sz / GRANULE_BYTES) p then
        some (Gc.setup_header p (hhdr.hb_sz / GRANULE_BYTES) hhdr.hb_obj_kind c)
      else none
  | _ => none

/-- The blocks that are in use in the second state only. -/
def newBlocks (s s' : Hblks) : List Nat :=
  s'.GC_apply_to_all_blocks.filter fun p => !s.isUsed p

def adoptAll (s : Hblks) (l : List Nat) (c : Collector) : Option Collector :=
  l.foldlM (adopt s) c

/-- A step of the block allocator and what the collector knows of it; `none` is a block whose
pages the collector has in use. -/
def sharedStep (sc : Hblks × Collector) (a : BlockAction) : Option (Hblks × Collector) :=
  match blockStep sc.1 a with
  | none => none
  | some s' =>
      match a with
      | .allochblk .. => (adoptAll s' (newBlocks sc.1 s') sc.2).map fun c => (s', c)
      | .freehblk x => some (s', Gc.GC_freehblk x sc.2)
      | _ => some (s', sc.2)

def sharedHeap (scratch : Nat → Bool) (limit : Nat) : Machine (Hblks × Collector) BlockAction :=
  ⟨(initial scratch, GC_init limit), sharedStep⟩

/-- The sizes of requests are whole granules, and can be rounded up to blocks. -/
def BlockAction.WholeGranules : BlockAction → Prop
  | .allochblk _ sz _ _ => GRANULE_BYTES ∣ sz ∧ sz + HBLKSIZE ≤ 2 ^ 64
  | _ => True

/-! ## Agreement -/

/-- The collector's blocks are those that satisfy `U`, which the index has. -/
structure AgreesOn (T : Nat → IndexEntry) (U : Nat → Prop) (c : Collector) : Prop where
  mem : ∀ h, h ∈ c.heap.hblks ↔ U h
  block : ∀ h, U h → ∃ hhdr hdr, UsedAt T h hhdr ∧ c.heap.HDR h = some hdr ∧
    hhdr.pages = Gc.OBJ_SZ_TO_BLOCKS hdr.hb_sz ∧ hdr.hb_obj_kind = hhdr.hb_obj_kind
  none : ∀ h, ¬U h → c.heap.HDR h = none

/-- **The collector's blocks are the blocks in use.** -/
def Agrees (s : Hblks) (c : Collector) : Prop := AgreesOn s.HDR (UsedStart s.HDR) c

theorem AgreesOn.congr {T' : Nat → IndexEntry} {U' : Nat → Prop} (h : AgreesOn T U c)
    (hU : ∀ p, U' p ↔ U p)
    (hT : ∀ p hhdr, U p → UsedAt T p hhdr → ∃ hhdr', UsedAt T' p hhdr' ∧
      hhdr'.pages = hhdr.pages ∧ hhdr'.hb_obj_kind = hhdr.hb_obj_kind) : AgreesOn T' U' c where
  mem p := (h.mem p).trans (hU p).symm
  block p hp := by
    obtain ⟨hhdr, hdr, hused, hHDR, hpages, hkind⟩ := h.block p ((hU p).mp hp)
    obtain ⟨hhdr', hused', hpages', hkind'⟩ := hT p hhdr ((hU p).mp hp) hused
    exact ⟨hhdr', hdr, hused', hHDR, hpages'.trans hpages, hkind.trans hkind'.symm⟩
  none p hp := h.none p fun hU' => hp ((hU p).mpr hU')

/-- The size of a block is the same in granules. -/
theorem pages_granules (hused : hhdr.free_blk = false) (hdvd : GRANULE_BYTES ∣ hhdr.hb_sz)
    (hlt : hhdr.hb_sz + HBLKSIZE ≤ 2 ^ 64) :
    hhdr.pages = Gc.OBJ_SZ_TO_BLOCKS (hhdr.hb_sz / GRANULE_BYTES) := by
  rw [pages_of_used hused]
  unfold Hblks.OBJ_SZ_TO_BLOCKS Gc.OBJ_SZ_TO_BLOCKS
  rw [Nat.div_mul_cancel hdvd, Nat.mod_eq_of_lt]
  unfold HBLKSIZE at *
  omega

/-- **The collector accepts a block in use that it does not have yet.** -/
theorem AgreesOn.adopt (hagree : AgreesOn s.HDR U c) (hT : TableOk s.HDR) (hp : ¬U p)
    (hused : UsedAt s.HDR p hhdr) (hdvd : GRANULE_BYTES ∣ hhdr.hb_sz)
    (hlt : hhdr.hb_sz + HBLKSIZE ≤ 2 ^ 64) :
    ∃ c', Hblks.adopt s c p = some c' ∧ AgreesOn s.HDR (fun h => U h ∨ h = p) c' := by
  have hpages := pages_granules hused.2 hdvd hlt
  have hblock := hT.block p hhdr hused.1
  have hfits : fits c.heap (hhdr.hb_sz / GRANULE_BYTES) p = true := by
    unfold fits
    rw [Bool.and_eq_true, List.all_eq_true]
    constructor
    · have hfirst := (hT.bounds p hhdr hused.1).1
      unfold firstPage at hfirst
      exact decide_eq_true (show p ≠ 0 by omega)
    · intro b hb
      obtain ⟨bhdr, hdr, hbused, hHDR, hbpages, -⟩ := hagree.block b ((hagree.mem b).mp hb)
      rw [hHDR]
      simp only [Bool.or_eq_true, decide_eq_true_eq]
      rw [← hbpages, ← hpages]
      have hbb := hT.block b bhdr hbused.1
      have hne : b ≠ p := by
        rintro rfl
        exact hp ((hagree.mem b).mp hb)
      -- the first page of one is not inside the other
      by_contra hover
      rcases Nat.lt_or_gt_of_ne hne with hbp | hpb
      · exact hne (hbb.eq_of_covers hused.1 hbp.le (by omega)).symm
      · exact hne (hblock.eq_of_covers hbused.1 hpb.le (by omega))
  refine ⟨Gc.setup_header p (hhdr.hb_sz / GRANULE_BYTES) hhdr.hb_obj_kind c, ?_, ?_, ?_, ?_⟩
  · unfold Hblks.adopt
    rw [hused.1]
    simp only
    rw [if_pos hfits]
  · intro h
    show h ∈ p :: c.heap.hblks ↔ _
    rw [List.mem_cons, hagree.mem, or_comm]
  · intro h hh
    by_cases hhp : h = p
    · subst hhp
      exact ⟨hhdr, _, hused, Function.update_self _ _ _, hpages, rfl⟩
    · obtain ⟨hhdr', hdr, hused', hHDR, hrest⟩ := hagree.block h (hh.resolve_right hhp)
      exact ⟨hhdr', hdr, hused', (Function.update_of_ne hhp _ _).trans hHDR, hrest⟩
  · intro h hh
    exact (Function.update_of_ne (fun heq => hh (.inr heq)) _ _).trans
      (hagree.none h fun hU => hh (.inl hU))

/-- Several new blocks. -/
theorem AgreesOn.adoptAll {l : List Nat} (hT : TableOk s.HDR) (hnodup : l.Nodup)
    (hl : ∀ p ∈ l, ∃ hhdr, UsedAt s.HDR p hhdr ∧ GRANULE_BYTES ∣ hhdr.hb_sz ∧
      hhdr.hb_sz + HBLKSIZE ≤ 2 ^ 64) :
    ∀ {U : Nat → Prop} {c : Collector}, AgreesOn s.HDR U c → (∀ p ∈ l, ¬U p) →
      ∃ c', Hblks.adoptAll s l c = some c' ∧ AgreesOn s.HDR (fun h => U h ∨ h ∈ l) c' := by
  induction l with
  | nil =>
      intro U c hagree _
      exact ⟨c, rfl, hagree.congr (fun p => by simp) fun p hhdr _ hused => ⟨hhdr, hused, rfl, rfl⟩⟩
  | cons p l ih =>
      intro U c hagree hU
      rw [List.forall_mem_cons] at hl hU
      rw [List.nodup_cons] at hnodup
      obtain ⟨⟨hhdr, hused, hdvd, hlt⟩, hl⟩ := hl
      obtain ⟨c₁, hadopt, hagree₁⟩ := hagree.adopt hT hU.1 hused hdvd hlt
      obtain ⟨c₂, hall, hagree₂⟩ := ih hnodup.2 hl hagree₁ fun q hq hqU => by
        rcases hqU with hqU | rfl
        · exact hU.2 q hq hqU
        · exact hnodup.1 hq
      refine ⟨c₂, ?_, hagree₂.congr (fun q => ?_) fun q hhdr _ hused => ⟨hhdr, hused, rfl, rfl⟩⟩
      · rw [Hblks.adoptAll, List.foldlM_cons, hadopt]
        exact hall
      · simp only [List.mem_cons, or_assoc]

/-! ## Steps -/

/-- No block in use has changed. -/
theorem Agrees.of_used (hagree : Agrees s c)
    (hused : ∀ p hhdr, UsedAt s'.HDR p hhdr ↔ UsedAt s.HDR p hhdr) : Agrees s' c :=
  AgreesOn.congr hagree (fun p => exists_congr fun hhdr => hused p hhdr)
    fun p hhdr _ hp => ⟨hhdr, (hused p hhdr).mpr hp, rfl, rfl⟩

/-- A block has been freed. -/
theorem Agrees.freehblk (hagree : Agrees s c)
    (hused : ∀ p hhdr, UsedAt s'.HDR p hhdr ↔ p ≠ x ∧ UsedAt s.HDR p hhdr) :
    Agrees s' (Gc.GC_freehblk x c) where
  mem p := by
    show p ∈ c.heap.hblks.filter (· ≠ x) ↔ _
    rw [List.mem_filter, AgreesOn.mem hagree]
    unfold UsedStart
    simp only [hused, exists_and_left, decide_eq_true_eq, ne_eq]
    exact and_comm
  block p hp := by
    obtain ⟨hhdr, hp⟩ := hp
    obtain ⟨hpx, hp'⟩ := (hused p hhdr).mp hp
    obtain ⟨hhdr', hdr, hused', hHDR, hrest⟩ := AgreesOn.block hagree p ⟨hhdr, hp'⟩
    exact ⟨hhdr', hdr, (hused p hhdr').mpr ⟨hpx, hused'⟩,
      (Function.update_of_ne hpx _ _).trans hHDR, hrest⟩
  none p hp := by
    show Function.update c.heap.HDR x none p = none
    by_cases hpx : p = x
    · rw [hpx, Function.update_self]
    · rw [Function.update_of_ne hpx]
      refine AgreesOn.none hagree p fun ⟨hhdr, hp'⟩ => hp ⟨hhdr, ?_⟩
      exact (hused p hhdr).mpr ⟨hpx, hp'⟩

/-- A block has been allocated, and others dropped. -/
theorem Agrees.allochblk {sz kind : Nat} {flags : Bool} {r : Option Nat} (hagree : Agrees s c)
    (hI : Indexed s') (hT : TableOk s'.HDR) (hdvd : GRANULE_BYTES ∣ sz)
    (hlt : sz + HBLKSIZE ≤ 2 ^ 64)
    (hkept : ∀ p hhdr, UsedAt s.HDR p hhdr → UsedAt s'.HDR p hhdr)
    (hnew : ∀ p hhdr, UsedAt s'.HDR p hhdr →
      UsedAt s.HDR p hhdr ∨ hhdr = droppedHdr ∨ r = some p ∧ hhdr = ⟨sz, kind, flags, false⟩) :
    ∃ c', adoptAll s' (newBlocks s s') c = some c' ∧ Agrees s' c' := by
  obtain ⟨hmem, hnodup⟩ := GC_apply_to_all_blocks_spec hT hI
  have hnewmem : ∀ p, p ∈ newBlocks s s' ↔ UsedStart s'.HDR p ∧ ¬UsedStart s.HDR p := by
    intro p
    rw [newBlocks, List.mem_filter, hmem, Bool.not_eq_true', Bool.eq_false_iff, ne_eq, isUsed_iff]
    rfl
  have hagree' : AgreesOn s'.HDR (UsedStart s.HDR) c :=
    AgreesOn.congr hagree (fun _ => Iff.rfl) fun p hhdr _ hp => ⟨hhdr, hkept p hhdr hp, rfl, rfl⟩
  obtain ⟨c', hall, hagree''⟩ := AgreesOn.adoptAll (l := newBlocks s s') hT
    (hnodup.sublist List.filter_sublist) (fun p hp => by
      obtain ⟨⟨hhdr, hp⟩, hnot⟩ := (hnewmem p).mp hp
      refine ⟨hhdr, hp, ?_⟩
      rcases hnew p hhdr hp with hold | rfl | ⟨-, rfl⟩
      · exact absurd ⟨hhdr, hold⟩ hnot
      · exact ⟨by decide, by decide⟩
      · exact ⟨hdvd, hlt⟩) hagree' fun p hp => ((hnewmem p).mp hp).2
  refine ⟨c', hall, hagree''.congr (fun p => ?_) fun p hhdr _ hp => ⟨hhdr, hp, rfl, rfl⟩⟩
  rw [hnewmem]
  constructor
  · intro hp
    by_cases hold : UsedStart s.HDR p
    · exact .inl hold
    · exact .inr ⟨hp, hold⟩
  · rintro (⟨hhdr, hp⟩ | hp)
    · exact ⟨hhdr, hkept p hhdr hp⟩
    · exact hp.1

/-- The size of a block has been rounded up, so that it has the same pages. -/
theorem Agrees.roundUp (hagree : Agrees s c) (hT : TableOk s.HDR) (hx : UsedAt s.HDR x hhdr) :
    Agrees (s.roundUp x) c := by
  unfold Hblks.roundUp
  split
  · have hself := HDR_mapHdr_self hx.1 fun hhdr =>
      { hhdr with hb_sz := OBJ_SZ_TO_BLOCKS hhdr.hb_sz * HBLKSIZE }
    have hout := fun q (hq : q ≠ x) => HDR_mapHdr_of_ne (s := s) hq fun hhdr =>
      { hhdr with hb_sz := OBJ_SZ_TO_BLOCKS hhdr.hb_sz * HBLKSIZE }
    generalize s.mapHdr x _ = s₁ at *
    have hx₁ : UsedAt s₁.HDR x { hhdr with hb_sz := OBJ_SZ_TO_BLOCKS hhdr.hb_sz * HBLKSIZE } :=
      ⟨hself, hx.2⟩
    refine AgreesOn.congr hagree (fun p => ?_) fun p phdr _ hp => ?_
    · by_cases hpx : p = x
      · rw [hpx]
        exact iff_of_true ⟨_, hx₁⟩ ⟨_, hx⟩
      · exact exists_congr fun phdr => by rw [UsedAt, UsedAt, hout p hpx]
    · by_cases hpx : p = x
      · subst hpx
        cases hx.1.symm.trans hp.1
        refine ⟨_, hx₁, ?_, rfl⟩
        have hbounds := hT.bounds p hhdr hx.1
        have hpages := pages_of_used hx.2
        rw [pages_of_used hx₁.2, hpages, OBJ_SZ_TO_BLOCKS_pages]
        unfold firstPage at hbounds
        omega
      · exact ⟨phdr, ⟨(hout p hpx).trans hp.1, hp.2⟩, rfl, rfl⟩
  · exact hagree

/-- **A step of the block allocator is one of the collector's environment.** -/
theorem sharedStep_of_blockStep {a : BlockAction} (hinv : HeapInv s) (hagree : Agrees s c)
    (ha : a.WholeGranules) (hstep : blockStep s a = some s') :
    ∃ c', sharedStep (s, c) a = some (s', c') ∧ Agrees s' c' := by
  unfold sharedStep
  rw [hstep]
  cases a with
  | addToHeap p k =>
      refine ⟨c, rfl, ?_⟩
      rw [blockStep] at hstep
      split at hstep
      · rename_i hcond
        obtain ⟨hk, hlast, hfresh⟩ := hcond
        by_cases hsects : s.GC_heap_sects.length < MAX_HEAP_SECTS
        · obtain ⟨s₁, hadd, hgrown⟩ := hinv.inOrder.add_to_heap hinv.sized hinv.granted hsects hk
            hlast (not_inSection_of_fresh hfresh)
          rw [hadd] at hstep
          cases hstep
          exact hagree.of_used hgrown.used
        · rw [GC_add_to_heap, if_pos (not_lt.mp hsects)] at hstep
          cases hstep
      · cases hstep
  | allochblk e sz kind flags =>
      have hinv' := blockStep_inv hinv hstep
      rw [blockStep] at hstep
      split at hstep
      · rename_i hm
        obtain ⟨⟨r, s₁⟩, halloc, hr⟩ := hinv.inOrder.allochblk hinv.granted (Nat.lt_succ_self _) hm
          e kind flags
        rw [halloc] at hstep
        cases hstep
        have hspec : (∀ p hhdr, UsedAt s.HDR p hhdr → UsedAt s₁.HDR p hhdr) ∧
            ∀ p hhdr, UsedAt s₁.HDR p hhdr → UsedAt s.HDR p hhdr ∨ hhdr = droppedHdr ∨
              r = some p ∧ hhdr = ⟨sz, kind, flags, false⟩ := by
          cases r with
          | none => exact ⟨hr.2.kept, fun p hhdr hp => (hr.2.new p hhdr hp).imp_right .inl⟩
          | some x =>
              obtain ⟨-, -, -, -, -, hkept, hnew⟩ := hr
              refine ⟨hkept, fun p hhdr hp => (hnew p hhdr hp).imp_right fun hp => ?_⟩
              exact hp.imp_right fun hp => ⟨by rw [hp.1], hp.2⟩
        obtain ⟨c', hall, hagree'⟩ := hagree.allochblk hinv'.inOrder.index hinv'.inOrder.table ha.1
          ha.2 hspec.1 hspec.2
        exact ⟨c', by simp only [hall, Option.map_some], hagree'⟩
      · cases hstep
  | freehblk x =>
      refine ⟨_, rfl, ?_⟩
      rw [blockStep] at hstep
      split at hstep
      · rename_i hx
        obtain ⟨hhdr, hx⟩ := isUsed_iff.mp hx
        obtain ⟨s₁, hfree, -, -, hused⟩ := hinv.inOrder.freehblk hx
        rw [hfree] at hstep
        cases hstep
        exact hagree.freehblk hused
      · cases hstep
  | roundUp x =>
      refine ⟨c, rfl, ?_⟩
      rw [blockStep] at hstep
      split at hstep
      · rename_i hx
        obtain ⟨hhdr, hx⟩ := isUsed_iff.mp hx
        cases hstep
        exact hagree.roundUp hinv.inOrder.table hx
      · cases hstep
  | addToBlackList page =>
      refine ⟨c, rfl, ?_⟩
      cases hstep
      refine hagree.of_used fun p hhdr => ?_
      unfold GC_add_to_black_list_stack
      simp only
      split <;> exact Iff.rfl
  | promoteBlackLists =>
      cases hstep
      exact ⟨c, rfl, hagree.of_used fun _ _ => Iff.rfl⟩
  | unpromoteBlackLists =>
      cases hstep
      exact ⟨c, rfl, hagree.of_used fun _ _ => Iff.rfl⟩

/-! ## Runs -/

theorem initial_agrees (scratch : Nat → Bool) (limit : Nat) :
    Agrees (initial scratch) (GC_init limit) where
  mem h := iff_of_false List.not_mem_nil fun ⟨_, hh, _⟩ => by cases hh
  block h hh := by
    obtain ⟨_, hh, _⟩ := hh
    cases hh
  none _ _ := rfl

/-- The collector finds the block of a page where the forwarding counts lead. -/
theorem Agrees.blockOf_iff (hagree : Agrees s c) (hT : TableOk s.HDR) (q : Nat) :
    c.heap.blockOf q = some p ↔ UsedStart s.HDR p ∧ forwardedFrom s.HDR q = some p := by
  rw [Heap.blockOf, find?_eq_some_iff_of_unique (P := fun h => forwardedFrom s.HDR q = some h),
    AgreesOn.mem hagree]
  · intro h hh
    obtain ⟨hhdr, hdr, hused, hHDR, hpages, -⟩ :=
      AgreesOn.block hagree h ((AgreesOn.mem hagree h).mp hh)
    rw [hHDR, hT.forwardedFrom_iff]
    simp only [Bool.and_eq_true, decide_eq_true_eq, ← hpages]
    constructor
    · rintro ⟨hhq, hlt⟩
      exact ⟨hhdr, hused.1, hhq, hlt, .inr hused.2⟩
    · rintro ⟨hhdr', hh', hhq, hlt, -⟩
      cases hused.1.symm.trans hh'
      exact ⟨hhq, hlt⟩
  · intro h h' hh hh'
    rw [← Option.some_inj, ← hh, hh']

/-- The two machines are together in a state that both keep. -/
def Shares (s : Hblks) (sc : Hblks × Collector) : Prop :=
  sc.1 = s ∧ HeapInv s ∧ Agrees s sc.2

/-- **The shared heap can follow every run of the block allocator.** -/
theorem sharedHeap_follows_blocks {scratch : Nat → Bool} (hg : ∀ n, scratch n = true)
    (limit : Nat) {acts : List BlockAction} (hacts : ∀ a ∈ acts, a.WholeGranules) :
    (sharedHeap scratch limit).Follows (blocks scratch) acts Shares := by
  refine Machine.follows_of_simulates
    ⟨rfl, ⟨initial_inOrder scratch, rfl, hg⟩, initial_agrees scratch limit⟩ ?_ hacts
  rintro s ⟨s₀, c⟩ a s' ⟨rfl, hinv, hagree⟩ ha hstep
  obtain ⟨c', hshared, hagree'⟩ := sharedStep_of_blockStep hinv hagree ha hstep
  exact ⟨(s', c'), hshared, rfl, blockStep_inv hinv hstep, hagree'⟩

end Hblks

end Ironclad.Gc
