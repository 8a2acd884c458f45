import Mathlib.Data.List.Nodup
import Ironclad.Gc.Accounts

/-!
# The steps of the collector keep the accounts

Taking an object off a free list, sweeping a block, setting up and freeing blocks, and
from these, by the rule for allocations, every allocator.
-/

namespace Ironclad.Gc

/-- An object that the mutator may be given: nobody has a claim on it, and no sweep will
find it unmarked. -/
structure Loose (s : Collector) (x : Obj) : Prop where
  isObj : s.heap.IsObj x
  unclaimed : s.Unclaimed x
  marked : s.Queued x.page → s.marks x = true

variable {s t : Collector} {x : Obj} {h k lg : Nat}

/-! ## Free lists -/

theorem takeFree_spec {array gran : Nat} {clearLink : Bool}
    (htake : takeFree array gran clearLink s = some (t, x)) :
    ∃ rest, s.freelist array gran = x :: rest ∧ SameBooks (s.setFreelist array gran rest) t := by
  unfold takeFree at htake
  split at htake
  · cases htake
  · rename_i op rest hlist
    simp only [Option.some.injEq, Prod.mk.injEq] at htake
    obtain ⟨rfl, rfl⟩ := htake
    refine ⟨rest, hlist, ?_⟩
    cases clearLink with
    | true => exact ⟨rfl, rfl, rfl, rfl, rfl, rfl, rfl, rfl, rfl⟩
    | false => exact .refl _

/-- Dropping the first object of a free list. -/
theorem Accounts.pop (hs : Accounts s) {array gran : Nat} {rest : List Obj}
    (hlist : s.freelist array gran = x :: rest) :
    Accounts (s.setFreelist array gran rest) ∧ Loose (s.setFreelist array gran rest) x := by
  have hmem : ∀ {a sz y}, y ∈ (s.setFreelist array gran rest).freelist a sz →
      y ∈ s.freelist a sz := by
    intro a sz y hy
    rcases mem_setFreelist.mp hy with ⟨rfl, rfl, hrest⟩ | ⟨-, hold⟩
    · rw [hlist]
      exact List.mem_cons_of_mem x hrest
    · exact hold
  have hx : x ∈ s.freelist array gran := by
    rw [hlist]
    exact List.mem_cons_self
  obtain ⟨halloc, hdr, hhdr, hslot, hsmall, hsz⟩ := hs.free_slot array gran x hx
  constructor
  · refine
      { hs with
        base := (setFreelist_same s _ _ _).base hs.base
        free_slot := fun a sz y hy => hs.free_slot a sz y (hmem hy)
        free_nodup := ?_
        free_once := fun a b sz tz y ha hb => hs.free_once a b sz tz y (hmem ha) (hmem hb)
        free_kind := ?_
        queued_slot := fun y hq hmark =>
          ⟨(hs.queued_slot y hq hmark).1,
            fun a sz hy => (hs.queued_slot y hq hmark).2 a sz (hmem hy)⟩ }
    · intro a sz
      by_cases heq : a = array ∧ sz = gran
      · obtain ⟨rfl, rfl⟩ := heq
        rw [setFreelist_freelist_self]
        have hnodup := hs.free_nodup a sz
        rw [hlist] at hnodup
        exact (List.nodup_cons.mp hnodup).2
      · rw [setFreelist_freelist_ne s _ heq]
        exact hs.free_nodup a sz
    · intro a sz hne
      refine hs.free_kind a sz fun hnil => ?_
      by_cases heq : a = array ∧ sz = gran
      · obtain ⟨rfl, rfl⟩ := heq
        rw [hlist] at hnil
        cases hnil
      · rw [setFreelist_freelist_ne s _ heq] at hne
        exact hne hnil
  · refine ⟨⟨hdr, hhdr, hslot⟩, ⟨halloc, fun a sz hy => ?_⟩, fun hq => ?_⟩
    · -- `x` was on this list only, and once
      have ha := hs.free_once a array sz gran x (hmem hy) hx
      obtain ⟨-, hdr', hhdr', -, -, hsz'⟩ := hs.free_slot a sz x (hmem hy)
      rw [hhdr] at hhdr'
      cases hhdr'
      have hsz'' : sz = gran := hsz'.symm.trans hsz
      subst ha hsz''
      rw [setFreelist_freelist_self] at hy
      have hnodup := hs.free_nodup a sz
      rw [hlist] at hnodup
      exact (List.nodup_cons.mp hnodup).1 hy
    · show s.marks x = true
      cases hm : s.marks x with
      | true => rfl
      | false => exact absurd hx ((hs.queued_slot x hq hm).2 array gran)

theorem Loose.congr (hst : SameBooks s t) (hx : Loose s x) : Loose t x := by
  refine ⟨?_, ⟨?_, ?_⟩, ?_⟩
  · obtain ⟨hdr, hhdr, hslot⟩ := hx.isObj
    exact ⟨hdr, hst.HDR ▸ hhdr, hslot⟩
  · rw [hst.allocated]
    exact hx.unclaimed.1
  · rw [hst.freelist]
    exact hx.unclaimed.2
  · unfold Collector.Queued
    rw [hst.kinds, hst.marks]
    exact hx.marked

theorem takeFree_accounts {array gran : Nat} {clearLink : Bool} (hs : Accounts s)
    (htake : takeFree array gran clearLink s = some (t, x)) : Accounts t ∧ Loose t x := by
  obtain ⟨rest, hlist, hsame⟩ := takeFree_spec htake
  obtain ⟨hacc, hloose⟩ := hs.pop hlist
  exact ⟨hsame.accounts hacc, hloose.congr hsame⟩

/-! ## Reclaim lists -/

theorem setReclaimList_lists (s : Collector) {rlist : Nat → List Nat} {kind : Nat} (gran : Nat)
    (blocks : List Nat) (hrlist : (s.kinds kind).ok_reclaim_list = some rlist) (k : Nat) :
    ((s.setReclaimList kind gran blocks).kinds k).ok_reclaim_list =
      if k = kind then some (Function.update rlist gran blocks)
      else (s.kinds k).ok_reclaim_list := by
  by_cases hk : k = kind
  · subst hk
    rw [if_pos rfl, setReclaimList_list s k gran blocks hrlist]
  · rw [if_neg hk]
    simp [Collector.setReclaimList, Function.update_of_ne hk]

theorem setReclaimList_isSome (s : Collector) {rlist : Nat → List Nat} {kind : Nat} (gran : Nat)
    (blocks : List Nat) (hrlist : (s.kinds kind).ok_reclaim_list = some rlist) (k : Nat) :
    ((s.setReclaimList kind gran blocks).kinds k).ok_reclaim_list.isSome =
      (s.kinds k).ok_reclaim_list.isSome := by
  rw [setReclaimList_lists s gran blocks hrlist]
  split
  · rename_i hk
    subst hk
    rw [hrlist]
    rfl
  · rfl

/-- The list of one size is replaced, by one with blocks that belong there. -/
theorem Accounts.setReclaimList (hs : Accounts s) {rlist : Nat → List Nat} {blocks : List Nat}
    (hrlist : (s.kinds k).ok_reclaim_list = some rlist) (hnodup : blocks.Nodup)
    (hblock : ∀ h ∈ blocks, ∃ hdr, s.heap.HDR h = some hdr ∧ hdr.isLarge = false ∧
      hdr.hb_obj_kind = k ∧ hdr.hb_sz = lg)
    (hslot : ∀ x : Obj, x.page ∈ blocks → s.marks x = false → s.Unclaimed x) :
    Accounts (s.setReclaimList k lg blocks) := by
  have hlists := setReclaimList_lists s lg blocks hrlist
  have hsome := setReclaimList_isSome s lg blocks hrlist
  have hfixed := (setReclaimList_same s k lg blocks).ok_freelist
  -- a list of the new state is the new one or one of the old state
  have hold : ∀ k' rlist' sz, ((s.setReclaimList k lg blocks).kinds k').ok_reclaim_list =
      some rlist' → k' = k ∧ sz = lg ∧ rlist' sz = blocks ∨
        ∃ rlist₀, (s.kinds k').ok_reclaim_list = some rlist₀ ∧ rlist' sz = rlist₀ sz := by
    intro k' rlist' sz hr
    rw [hlists k'] at hr
    split at hr
    · rename_i hk
      subst hk
      cases hr
      by_cases hsz : sz = lg
      · subst hsz
        exact .inl ⟨rfl, rfl, Function.update_self ..⟩
      · exact .inr ⟨rlist, hrlist, Function.update_of_ne hsz ..⟩
    · exact .inr ⟨rlist', hr, rfl⟩
  refine
    { hs with
      base := (setReclaimList_same s k lg blocks).base hs.base
      free_kind := ?_
      queued_nodup := ?_
      queued_block := ?_
      queued_slot := ?_
      block_kind := ?_ }
  · intro a sz hne
    obtain ⟨k', hk', ha, hlist'⟩ := hs.free_kind a sz hne
    exact ⟨k', hk', (hfixed k').trans ha, (hsome k').trans hlist'⟩
  · intro k' rlist' sz hr
    rcases hold k' rlist' sz hr with ⟨-, -, heq⟩ | ⟨rlist₀, hr₀, heq⟩
    · rw [heq]
      exact hnodup
    · rw [heq]
      exact hs.queued_nodup k' rlist₀ sz hr₀
  · intro k' rlist' sz b hr hb
    rcases hold k' rlist' sz hr with ⟨rfl, rfl, heq⟩ | ⟨rlist₀, hr₀, heq⟩
    · rw [heq] at hb
      exact hblock b hb
    · rw [heq] at hb
      exact hs.queued_block k' rlist₀ sz b hr₀ hb
  · rintro y ⟨k', rlist', sz, hr, hy⟩ hmark
    rcases hold k' rlist' sz hr with ⟨-, -, heq⟩ | ⟨rlist₀, hr₀, heq⟩
    · rw [heq] at hy
      exact hslot y hy hmark
    · rw [heq] at hy
      exact hs.queued_slot y ⟨k', rlist₀, sz, hr₀, hy⟩ hmark
  · intro b hdr hhdr
    obtain ⟨hlt, hlist'⟩ := hs.block_kind b hdr hhdr
    exact ⟨hlt, fun hsmall => (hsome _).trans (hlist' hsmall)⟩

/-- The first use of a kind. -/
theorem GC_alloc_reclaim_list_accounts (hs : Accounts s)
    (hnone : (s.kinds k).ok_reclaim_list = none) : Accounts (GC_alloc_reclaim_list k s) := by
  have hkinds : ∀ k', ((GC_alloc_reclaim_list k s).kinds k').ok_reclaim_list =
      if k' = k then some fun _ => [] else (s.kinds k').ok_reclaim_list := by
    intro k'
    by_cases hk : k' = k
    · subst hk
      simp [GC_alloc_reclaim_list]
    · simp [GC_alloc_reclaim_list, hk]
  have hsome : ∀ k', (s.kinds k').ok_reclaim_list.isSome = true →
      ((GC_alloc_reclaim_list k s).kinds k').ok_reclaim_list.isSome = true := by
    intro k' hk'
    rw [hkinds k']
    split
    · rfl
    · exact hk'
  have hqueue : ∀ k' rlist sz b, ((GC_alloc_reclaim_list k s).kinds k').ok_reclaim_list =
      some rlist → b ∈ rlist sz → (s.kinds k').ok_reclaim_list = some rlist := by
    intro k' rlist sz b hr hb
    rw [hkinds k'] at hr
    split at hr
    · cases hr
      cases hb
    · exact hr
  refine
    { hs with
      base := (GC_alloc_reclaim_list_same k s).base hs.base
      free_kind := ?_
      queued_nodup := ?_
      queued_block := fun k' rlist sz b hr hb =>
        hs.queued_block k' rlist sz b (hqueue k' rlist sz b hr hb) hb
      queued_slot := ?_
      block_kind := ?_ }
  · intro a sz hne
    obtain ⟨k', hk', ha, hlist⟩ := hs.free_kind a sz hne
    exact ⟨k', hk', ((GC_alloc_reclaim_list_same k s).ok_freelist k').trans ha, hsome k' hlist⟩
  · intro k' rlist sz hr
    rw [hkinds k'] at hr
    split at hr
    · cases hr
      exact List.nodup_nil
    · exact hs.queued_nodup k' rlist sz hr
  · rintro y ⟨k', rlist, sz, hr, hy⟩ hmark
    exact hs.queued_slot y ⟨k', rlist, sz, hqueue k' rlist sz y.page hr hy, hy⟩ hmark
  · intro b hdr hhdr
    obtain ⟨hlt, hlist⟩ := hs.block_kind b hdr hhdr
    exact ⟨hlt, fun hsmall => hsome _ (hlist hsmall)⟩

/-! ## Sweeping a block -/

theorem mem_slots {hdr : Hdr} : x ∈ slots h hdr ↔ x.page = h ∧ x.slot < hdr.objs := by
  simp only [slots, List.mem_map, List.mem_range]
  constructor
  · rintro ⟨i, hi, rfl⟩
    exact ⟨rfl, hi⟩
  · rintro ⟨rfl, hi⟩
    exact ⟨x.slot, hi, rfl⟩

theorem slots_nodup (h : Nat) (hdr : Hdr) : (slots h hdr).Nodup :=
  List.Nodup.map (fun _ _ heq => (Obj.mk.inj heq).2) List.nodup_range

/-- The marks that a sweep leaves. -/
def sweptMarks (h : Nat) (hdr : Hdr) (marks : Marks) : Marks :=
  if IS_UNCOLLECTABLE hdr.hb_obj_kind then GC_set_hdr_marks marks h hdr else marks

theorem sweptMarks_mono (h : Nat) (hdr : Hdr) (marks : Marks) (x : Obj) (hx : marks x = true) :
    sweptMarks h hdr marks x = true := by
  unfold sweptMarks
  split
  · exact GC_set_hdr_marks_mono marks h hdr x hx
  · exact hx

/-- What a sweep does: the unmarked slots go on the free list of the block's kind. -/
theorem GC_reclaim_small_nonempty_block_spec {hdr : Hdr} (hhdr : s.heap.HDR h = some hdr) :
    SameBooks
      ({ s with marks := sweptMarks h hdr s.marks }.setFreelist
        (s.kinds hdr.hb_obj_kind).ok_freelist hdr.hb_sz
        (((slots h hdr).filter fun x => !s.marks x).reverse ++
          s.freelist (s.kinds hdr.hb_obj_kind).ok_freelist hdr.hb_sz))
      (GC_reclaim_small_nonempty_block h s) := by
  obtain ⟨hlist, hblks, hHDR⟩ := GC_reclaim_generic_spec s.heap s.marks h hdr
    (s.kinds hdr.hb_obj_kind).ok_init (s.freelist (s.kinds hdr.hb_obj_kind).ok_freelist hdr.hb_sz)
  unfold GC_reclaim_small_nonempty_block
  simp only [hhdr]
  rw [hlist]
  exact ⟨hblks, hHDR, rfl, rfl, rfl, rfl, rfl, rfl, rfl⟩

theorem sweep_accounts (hs : Accounts s) {rlist : Nat → List Nat} {rest : List Nat}
    (hrlist : (s.kinds k).ok_reclaim_list = some rlist) (hlist : rlist lg = h :: rest) :
    Accounts (GC_reclaim_small_nonempty_block h (s.setReclaimList k lg rest)) := by
  have hnodup := hs.queued_nodup k rlist lg hrlist
  rw [hlist, List.nodup_cons] at hnodup
  have hin : ∀ b ∈ rest, b ∈ rlist lg := fun b hb => hlist ▸ List.mem_cons_of_mem h hb
  have hqh : s.Queued h := ⟨k, rlist, lg, hrlist, hlist ▸ List.mem_cons_self⟩
  obtain ⟨hdr, hhdr, hsmall, rfl, rfl⟩ :=
    hs.queued_block k rlist lg h hrlist (hlist ▸ List.mem_cons_self)
  -- the block is taken off the reclaim list
  have hu : Accounts (s.setReclaimList hdr.hb_obj_kind hdr.hb_sz rest) :=
    hs.setReclaimList hrlist hnodup.2
      (fun b hb => hs.queued_block _ rlist _ b hrlist (hin b hb))
      (fun y hy => hs.queued_slot y ⟨_, rlist, _, hrlist, hin _ hy⟩)
  have hnotq : ¬(s.setReclaimList hdr.hb_obj_kind hdr.hb_sz rest).Queued h := by
    intro hq
    obtain ⟨hdr', hhdr', -, rlist', hr, hmem⟩ := hu.queued_hdr hq
    have hhdr'' : s.heap.HDR h = some hdr' := hhdr'
    rw [hhdr] at hhdr''
    cases hhdr''
    rw [setReclaimList_list s _ _ _ hrlist] at hr
    cases hr
    rw [Function.update_self] at hmem
    exact hnodup.1 hmem
  -- and its unmarked slots are put on the free list
  obtain ⟨hkind, hsome⟩ := hu.block_kind h hdr hhdr
  refine (GC_reclaim_small_nonempty_block_spec
    (s := s.setReclaimList hdr.hb_obj_kind hdr.hb_sz rest) hhdr).accounts ?_
  refine (hu.more_marks (sweptMarks_mono h hdr _)).put ?_ hkind (hsome hsmall) ?_ ?_
  · exact List.nodup_reverse.mpr ((slots_nodup h hdr).filter _)
  · intro y hy
    obtain ⟨hy, hmark⟩ := List.mem_filter.mp (List.mem_reverse.mp hy)
    obtain ⟨hpage, hslot⟩ := mem_slots.mp hy
    subst hpage
    have hm : s.marks y = false := by simpa [Collector.setReclaimList] using hmark
    exact ⟨hs.queued_slot y hqh hm, hdr, hhdr, hslot, hsmall, rfl⟩
  · intro y hy hq
    obtain ⟨hy, -⟩ := List.mem_filter.mp (List.mem_reverse.mp hy)
    rw [(mem_slots.mp hy).1] at hq
    exact absurd hq hnotq

/-! ## Adding and freeing blocks -/

theorem SMALL_OBJ_iff {kind : Nat} {ok : ObjKind} :
    (newHdr kind lg ok).isLarge = !SMALL_OBJ lg := by
  simp only [Hdr.isLarge, newHdr, SMALL_OBJ]
  by_cases hle : lg ≤ MAXOBJGRANULES
  · simp [hle, Nat.not_lt.mpr hle]
  · simp [hle, Nat.lt_of_not_le hle]

/-- A block on free pages, of a kind in the table. -/
theorem setup_header_accounts (hs : Accounts s) (hlg : lg ≠ 0) (hfits : fits s.heap lg h = true)
    (hkind : k < s.GC_n_kinds)
    (hlist : SMALL_OBJ lg = true → (s.kinds k).ok_reclaim_list.isSome = true) :
    Accounts (setup_header h lg k s) ∧ ¬s.Queued h ∧ ∀ x : Obj, x.page = h → s.Unclaimed x := by
  have hnone := HDR_of_fits hs.base.wf (by omega) hfits
  have hne : ∀ {b hdr}, s.heap.HDR b = some hdr → b ≠ h := by
    rintro b hdr hhdr rfl
    rw [hnone] at hhdr
    cases hhdr
  have hnotq : ¬s.Queued h := by
    intro hq
    obtain ⟨hdr, hhdr, -⟩ := hs.queued_hdr hq
    exact hne hhdr rfl
  have hHDR : ∀ {b hdr}, s.heap.HDR b = some hdr →
      (setup_header h lg k s).heap.HDR b = some hdr := by
    intro b hdr hhdr
    rw [setup_header_HDR_of_ne lg k s (hne hhdr)]
    exact hhdr
  refine ⟨?_, hnotq, ?_⟩
  · refine
      { hs with
        base := setup_header_base hs.base (by omega) hfits
        free_slot := ?_
        queued_block := ?_
        queued_slot := ?_
        block_kind := ?_
        alloc_obj := ?_ }
    · intro a sz x hx
      obtain ⟨halloc, hdr, hhdr, hrest⟩ := hs.free_slot a sz x hx
      exact ⟨halloc, hdr, hHDR hhdr, hrest⟩
    · intro k' rlist sz b hr hb
      obtain ⟨hdr, hhdr, hrest⟩ := hs.queued_block k' rlist sz b hr hb
      exact ⟨hdr, hHDR hhdr, hrest⟩
    · intro x hq hmark
      have hq' : s.Queued x.page := hq
      have hpage : x.page ≠ h := fun heq => hnotq (heq ▸ hq')
      refine hs.queued_slot x hq' ?_
      have hm : GC_clear_hdr_marks s.marks h x = false := hmark
      rw [GC_clear_hdr_marks, if_neg hpage] at hm
      exact hm
    · intro b hdr hhdr
      by_cases hb : b = h
      · subst hb
        rw [setup_header_HDR] at hhdr
        cases hhdr
        refine ⟨hkind, fun hsmall => hlist ?_⟩
        rw [SMALL_OBJ_iff] at hsmall
        simpa using hsmall
      · rw [setup_header_HDR_of_ne lg k s hb] at hhdr
        exact hs.block_kind b hdr hhdr
    · intro x hx
      obtain ⟨hdr, hhdr, hslot⟩ := hs.alloc_obj x hx
      exact ⟨hdr, hHDR hhdr, hslot⟩
  · rintro x rfl
    refine ⟨?_, ?_⟩
    · cases halloc : s.allocated x with
      | false => rfl
      | true =>
          obtain ⟨hdr, hhdr, -⟩ := hs.alloc_obj x halloc
          exact absurd rfl (hne hhdr)
    · intro a sz hx
      obtain ⟨-, hdr, hhdr, -⟩ := hs.free_slot a sz x hx
      exact absurd rfl (hne hhdr)

theorem GC_new_hblk_spec (gran kind h : Nat) (s : Collector) :
    ∃ marks : Marks, (∀ x, (setup_header h gran kind s).marks x = true → marks x = true) ∧
      (IS_UNCOLLECTABLE kind = true → ∀ x ∈ slots h (newHdr kind gran (s.kinds kind)),
        marks x = true) ∧
      SameBooks
        ({ setup_header h gran kind s with marks := marks }.setFreelist
          (s.kinds kind).ok_freelist gran
          ((slots h (newHdr kind gran (s.kinds kind))).reverse ++
            s.freelist (s.kinds kind).ok_freelist gran))
        (GC_new_hblk gran kind (some h) s) := by
  obtain ⟨hlist, hblks, hHDR⟩ := GC_build_fl_spec (setup_header h gran kind s).heap h
    (newHdr kind gran (s.kinds kind)) (s.kinds kind).ok_init
    ((setup_header h gran kind s).freelist (s.kinds kind).ok_freelist gran)
  refine ⟨(GC_new_hblk gran kind (some h) s).marks, ?_, ?_, ?_⟩
  · intro x hx
    show (if _ then _ else _ : Marks) x = true
    split
    · exact GC_set_hdr_marks_mono _ _ _ x hx
    · exact hx
  · intro hunc x hx
    show (if _ then _ else _ : Marks) x = true
    rw [if_pos hunc, GC_set_hdr_marks, if_pos (mem_slots.mp hx)]
  · unfold GC_new_hblk
    simp only
    rw [hlist]
    exact ⟨hblks, hHDR, rfl, rfl, rfl, rfl, rfl, rfl, rfl⟩

theorem GC_new_hblk_accounts (hs : Accounts s) (hlg : lg ≠ 0) (hfits : fits s.heap lg h = true)
    (hkind : k < s.GC_n_kinds) (hsmall : SMALL_OBJ lg = true)
    (hlist : (s.kinds k).ok_reclaim_list.isSome = true) :
    Accounts (GC_new_hblk lg k (some h) s) := by
  obtain ⟨hu, hnotq, hunclaimed⟩ := setup_header_accounts hs hlg hfits hkind fun _ => hlist
  obtain ⟨marks, hmono, -, hsame⟩ := GC_new_hblk_spec lg k h s
  refine hsame.accounts ?_
  refine (hu.more_marks hmono).put (k := k) (List.nodup_reverse.mpr (slots_nodup _ _)) hkind
    hlist ?_ ?_
  · intro x hx
    obtain ⟨hpage, hslot⟩ := mem_slots.mp (List.mem_reverse.mp hx)
    refine ⟨hunclaimed x hpage, newHdr k lg (s.kinds k), ?_, hslot, ?_, rfl⟩
    · show (setup_header h lg k s).heap.HDR x.page = _
      rw [hpage, setup_header_HDR]
    · rw [SMALL_OBJ_iff, hsmall]
      rfl
  · intro x hx hq
    have hq' : s.Queued x.page := hq
    rw [(mem_slots.mp (List.mem_reverse.mp hx)).1] at hq'
    exact absurd hq' hnotq

theorem genericMallocLarge_books (lg k h : Nat) (s : Collector) :
    SameBooks (setup_header h lg k s) (genericMallocLarge lg k (some h) s).1 := by
  show SameBooks _ (if _ then _ else _)
  split
  · exact ⟨rfl, rfl, rfl, rfl, rfl, rfl, rfl, rfl, rfl⟩
  · exact .refl _

theorem genericMallocLarge_accounts (hs : Accounts s) (hlg : lg ≠ 0)
    (hfits : fits s.heap lg h = true) (hkind : k < s.GC_n_kinds) (hlarge : SMALL_OBJ lg = false) :
    Accounts (genericMallocLarge lg k (some h) s).1 ∧
      Loose (genericMallocLarge lg k (some h) s).1 ⟨h, 0⟩ := by
  obtain ⟨hu, hnotq, hunclaimed⟩ := setup_header_accounts hs hlg hfits hkind
    (fun hsmall => by rw [hlarge] at hsmall; cases hsmall)
  have hbooks := genericMallocLarge_books lg k h s
  refine ⟨hbooks.accounts hu, Loose.congr hbooks ⟨?_, hunclaimed _ rfl, fun hq => absurd hq hnotq⟩⟩
  refine ⟨_, setup_header_HDR h lg k s, ?_⟩
  rw [Hdr.objs, SMALL_OBJ_iff, hlarge]
  exact Nat.one_pos

/-- A block in which nobody has a claim. -/
theorem GC_freehblk_accounts (hs : Accounts s) (hnotq : ¬s.Queued h)
    (hunclaimed : ∀ x : Obj, x.page = h → s.Unclaimed x) : Accounts (GC_freehblk h s) := by
  have hHDR : ∀ {b hdr}, b ≠ h → s.heap.HDR b = some hdr →
      (GC_freehblk h s).heap.HDR b = some hdr := fun hb hhdr => GC_freehblk_HDR.mpr ⟨hb, hhdr⟩
  refine
    { hs with
      base := GC_freehblk_base h hs.base
      free_slot := ?_
      queued_block := ?_
      block_kind := fun b hdr hhdr => hs.block_kind b hdr (GC_freehblk_HDR.mp hhdr).2
      alloc_obj := ?_ }
  · intro a sz x hx
    obtain ⟨halloc, hdr, hhdr, hrest⟩ := hs.free_slot a sz x hx
    exact ⟨halloc, hdr, hHDR (fun hpage => (hunclaimed x hpage).2 a sz hx) hhdr, hrest⟩
  · intro k' rlist sz b hr hb
    obtain ⟨hdr, hhdr, hrest⟩ := hs.queued_block k' rlist sz b hr hb
    exact ⟨hdr, hHDR (fun hb' => hnotq (hb' ▸ ⟨k', rlist, sz, hr, hb⟩)) hhdr, hrest⟩
  · intro x hx
    obtain ⟨hdr, hhdr, hslot⟩ := hs.alloc_obj x hx
    refine ⟨hdr, hHDR (fun hpage => ?_) hhdr, hslot⟩
    have hx' : s.allocated x = true := hx
    rw [(hunclaimed x hpage).1] at hx'
    cases hx'

/-! ## The mutator's side -/

theorem given_accounts {a : Allocator} (hs : Accounts s) (hx : Loose s x)
    (hkind : a.kind < s.GC_n_kinds) : Accounts (s.given a x) := by
  have halloc : ∀ y, (s.given a x).allocated y = true ↔ y = x ∨ s.allocated y = true := by
    intro y
    show Function.update s.allocated x true y = true ↔ _
    by_cases hy : y = x
    · simp [hy]
    · simp [hy]
  have hother : ∀ y, y ≠ x → s.allocated y = false → (s.given a x).allocated y = false := by
    intro y hy hfalse
    show Function.update s.allocated x true y = false
    rw [Function.update_of_ne hy]
    exact hfalse
  refine
    { hs with
      base := (given_same s a x).base hs.base
      free_slot := ?_
      queued_slot := ?_
      alloc_obj := ?_
      pinned_alloc := ?_
      used_lt := ?_ }
  · intro b sz y hy
    obtain ⟨hfalse, hrest⟩ := hs.free_slot b sz y hy
    exact ⟨hother y (fun hyx => hx.unclaimed.2 b sz (hyx ▸ hy)) hfalse, hrest⟩
  · intro y hq hmark
    obtain ⟨hfalse, hfree⟩ := hs.queued_slot y hq hmark
    refine ⟨hother y (fun hyx => ?_) hfalse, hfree⟩
    subst hyx
    have hm : s.marks y = false := hmark
    rw [hx.marked hq] at hm
    cases hm
  · intro y hy
    rcases (halloc y).mp hy with rfl | hy
    · exact hx.isObj
    · exact hs.alloc_obj y hy
  · intro y hy
    have hy' : y ∈ (if a = .GC_malloc_atomic_uncollectable then x :: s.pinned else s.pinned) := hy
    rw [halloc]
    split at hy'
    · rcases List.mem_cons.mp hy' with rfl | hy'
      · exact .inl rfl
      · exact .inr (hs.pinned_alloc y hy')
    · exact .inr (hs.pinned_alloc y hy')
  · intro k hk
    rcases List.mem_cons.mp hk with rfl | hk
    · exact hkind
    · exact hs.used_lt k hk

theorem forget_accounts (hs : Accounts s) (x : Obj) : Accounts (s.forget x) := by
  have halloc : ∀ y, (s.forget x).allocated y = true ↔ y ≠ x ∧ s.allocated y = true := by
    intro y
    show Function.update s.allocated x false y = true ↔ _
    by_cases hy : y = x
    · simp [hy]
    · simp [hy]
  have hfalse : ∀ y, s.allocated y = false → (s.forget x).allocated y = false := by
    intro y hy
    cases h : (s.forget x).allocated y with
    | false => rfl
    | true =>
        rw [((halloc y).mp h).2] at hy
        cases hy
  refine
    { hs with
      base := (forget_same s x).base hs.base
      free_slot := fun b sz y hy =>
        ⟨hfalse y (hs.free_slot b sz y hy).1, (hs.free_slot b sz y hy).2⟩
      queued_slot := fun y hq hm =>
        ⟨hfalse y (hs.queued_slot y hq hm).1, (hs.queued_slot y hq hm).2⟩
      alloc_obj := fun y hy => hs.alloc_obj y ((halloc y).mp hy).2
      pinned_alloc := ?_ }
  intro y hy
  obtain ⟨hmem, hne⟩ := List.mem_filter.mp hy
  exact (halloc y).mpr ⟨by simpa using hne, hs.pinned_alloc y hmem⟩

/-- The rules for allocations, for a kind in the table. -/
theorem accounts_rules (k : Nat) {lg : Nat} (hlg : lg ≠ 0) :
    AllocRules k lg (fun s => Accounts s ∧ k < s.GC_n_kinds) Loose where
  newList := fun s hs hnone => ⟨GC_alloc_reclaim_list_accounts hs.1 hnone, hs.2⟩
  sweep := by
    intro s rlist h rest hs hrlist hlist
    refine ⟨sweep_accounts hs.1 hrlist hlist, ?_⟩
    rw [((setReclaimList_same s k lg rest).trans
      (GC_reclaim_small_nonempty_block_same h _)).n_kinds]
    exact hs.2
  newBlock := by
    intro s h hs hsmall hfits hlist
    refine ⟨GC_new_hblk_accounts hs.1 hlg hfits hs.2 hsmall hlist, ?_⟩
    rw [(GC_new_hblk_same lg k h s).n_kinds]
    exact hs.2
  take := by
    intro s array clearLink t x hs htake
    obtain ⟨hacc, hloose⟩ := takeFree_accounts hs.1 htake
    refine ⟨⟨hacc, ?_⟩, hloose⟩
    rw [(takeFree_same htake).n_kinds]
    exact hs.2
  large := by
    intro s h hs hlarge hfits
    obtain ⟨hacc, hloose⟩ := genericMallocLarge_accounts hs.1 hlg hfits hs.2 hlarge
    refine ⟨⟨hacc, ?_⟩, hloose⟩
    rw [(genericMallocLarge_same lg k h s).n_kinds]
    exact hs.2
  mark := by
    intro s x hs hx
    exact ⟨⟨hs.1.more_marks (set_mono s.marks x), hs.2⟩,
      hx.isObj, hx.unclaimed, fun hq => set_mono s.marks x x (hx.marked hq)⟩

theorem malloc_accounts {a : Allocator} {page : Option Nat} (hs : Accounts s) (hlg : lg ≠ 0)
    (hkind : a.kind < s.GC_n_kinds) (hfits : page.all (fits s.heap lg) = true) :
    Accounts (malloc a lg page s) := by
  obtain ⟨⟨hacc, hkind'⟩, hloose⟩ := a.run_rule (accounts_rules a.kind hlg) ⟨hs, hkind⟩ hfits
  unfold malloc
  split
  · rename_i heq
    rw [heq] at hacc
    exact hacc
  · rename_i t x heq
    rw [heq] at hacc hkind' hloose
    exact given_accounts hacc (hloose x rfl) hkind'

theorem free_accounts (hs : Accounts s) (hx : s.allocated x = true) :
    Accounts ((GC_free x s).forget x) := by
  have hforget := forget_accounts hs x
  obtain ⟨hdr, hhdr, hslot⟩ := hs.alloc_obj x hx
  have hfalse : (s.forget x).allocated x = false := Function.update_self ..
  have hmark : s.Queued x.page → s.marks x = true := by
    intro hq
    cases hm : s.marks x with
    | true => rfl
    | false =>
        rw [(hs.queued_slot x hq hm).1] at hx
        cases hx
  have hfree : ∀ a sz, x ∉ s.freelist a sz := by
    intro a sz hmem
    rw [(hs.free_slot a sz x hmem).1] at hx
    cases hx
  unfold GC_free
  simp only [hhdr]
  cases hlarge : hdr.isLarge with
  | true =>
      -- the only object of its block
      refine SameBooks.accounts (s := GC_freehblk x.page (s.forget x))
        ⟨rfl, rfl, rfl, rfl, rfl, rfl, rfl, rfl, rfl⟩ (GC_freehblk_accounts hforget ?_ ?_)
      · intro hq
        obtain ⟨hdr', hhdr', hsmall, -⟩ := hforget.queued_hdr hq
        have hhdr'' : s.heap.HDR x.page = some hdr' := hhdr'
        rw [hhdr] at hhdr''
        cases hhdr''
        rw [hlarge] at hsmall
        cases hsmall
      · intro y hpage
        constructor
        · cases hy : (s.forget x).allocated y with
          | false => rfl
          | true =>
              obtain ⟨hdr', hhdr', hslot'⟩ := hforget.alloc_obj y hy
              have hhdr'' : s.heap.HDR y.page = some hdr' := hhdr'
              rw [hpage, hhdr] at hhdr''
              cases hhdr''
              rw [Hdr.objs, hlarge, if_pos rfl] at hslot hslot'
              have heq : y = x := by
                obtain ⟨yp, ys⟩ := y
                obtain ⟨xp, xs⟩ := x
                simp only [Obj.mk.injEq]
                exact ⟨hpage, by simp only at hslot hslot'; omega⟩
              rw [heq, hfalse] at hy
              cases hy
        · intro a sz hmem
          obtain ⟨-, hdr', hhdr', -, hsmall, -⟩ := hs.free_slot a sz y hmem
          rw [hpage, hhdr] at hhdr'
          cases hhdr'
          rw [hlarge] at hsmall
          cases hsmall
  | false =>
      obtain ⟨hkind, hlist⟩ := hs.block_kind x.page hdr hhdr
      have hput := hforget.put (k := hdr.hb_obj_kind) (g := hdr.hb_sz) (l := [x])
        (List.nodup_singleton x) hkind (hlist hlarge)
        (by
          intro y hy
          rw [List.mem_singleton.mp hy]
          exact ⟨⟨hfalse, hfree⟩, hdr, hhdr, hslot, hlarge, rfl⟩)
        (by
          intro y hy hq
          rw [List.mem_singleton.mp hy] at hq ⊢
          exact hmark hq)
      refine SameBooks.accounts ?_ hput
      obtain ⟨-, hblks, hHDR, -⟩ := foldl_putFree (s.kinds hdr.hb_obj_kind).ok_init [x]
        (s.heap, s.freelist (s.kinds hdr.hb_obj_kind).ok_freelist hdr.hb_sz)
      exact ⟨hblks, hHDR, rfl, rfl, rfl, rfl, rfl, rfl, rfl⟩

/-- A new kind gets the first index that no block and no free list refers to. -/
theorem GC_new_kind_accounts {descr : Nat} {adjust clear : Bool} (hs : Accounts s)
    (ht : GC_new_kind descr adjust clear s = some (t, k)) : Accounts t := by
  have hbase := GC_new_kind_base hs.base ht
  unfold GC_new_kind at ht
  simp only at ht
  split at ht
  · cases ht
  rename_i hmax
  simp only [Option.some.injEq, Prod.mk.injEq] at ht
  obtain ⟨rfl, rfl⟩ := ht
  have hkinds : ∀ k < s.GC_n_kinds, Function.update s.kinds s.GC_n_kinds
      ⟨s.arrays, none, descr, adjust, clear⟩ k = s.kinds k :=
    fun k hk => Function.update_of_ne (by omega) ..
  have hold : ∀ k rlist, (Function.update s.kinds s.GC_n_kinds
      ⟨s.arrays, none, descr, adjust, clear⟩ k).ok_reclaim_list = some rlist →
      (s.kinds k).ok_reclaim_list = some rlist := by
    intro k rlist hr
    by_cases hk : k = s.GC_n_kinds
    · subst hk
      rw [Function.update_self] at hr
      cases hr
    · rw [Function.update_of_ne hk] at hr
      exact hr
  refine
    { hs with
      base := hbase
      free_kind := ?_
      queued_nodup := fun k rlist sz hr => hs.queued_nodup k rlist sz (hold k rlist hr)
      queued_block := fun k rlist sz b hr hb => hs.queued_block k rlist sz b (hold k rlist hr) hb
      queued_slot := ?_
      block_kind := ?_
      used_lt := fun k hk => Nat.lt_succ_of_lt (hs.used_lt k hk) }
  · intro a sz hne
    obtain ⟨k, hk, ha, hlist⟩ := hs.free_kind a sz hne
    refine ⟨k, Nat.lt_succ_of_lt hk, ?_, ?_⟩
    · show (Function.update s.kinds _ _ k).ok_freelist = a
      rw [hkinds k hk]
      exact ha
    · show (Function.update s.kinds _ _ k).ok_reclaim_list.isSome = true
      rw [hkinds k hk]
      exact hlist
  · rintro y ⟨k, rlist, sz, hr, hy⟩ hmark
    exact hs.queued_slot y ⟨k, rlist, sz, hold k rlist hr, hy⟩ hmark
  · intro b hdr hhdr
    obtain ⟨hlt, hlist⟩ := hs.block_kind b hdr hhdr
    refine ⟨Nat.lt_succ_of_lt hlt, fun hsmall => ?_⟩
    show (Function.update s.kinds _ _ hdr.hb_obj_kind).ok_reclaim_list.isSome = true
    rw [hkinds _ hlt]
    exact hlist hsmall

end Ironclad.Gc
