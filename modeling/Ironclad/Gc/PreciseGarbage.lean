import Ironclad.Gc.Sweeps
import Ironclad.Gc.PreciseMarking

/-!
# Precise garbage

On runs whose only allocations are those of `GC_malloc_precise`. The mark bits of a
precise block are set when it is created, left alone by `GC_clear_marks`, and set again
when it is swept, so that small precise objects are marked all the time
(`PreciseOnly.alloc_marked`). `precise_garbage_iff` says which garbage is reclaimed.
-/

namespace Ironclad.Gc

open Logic

/-- The actions of a program that allocates by `GC_malloc_precise` only. -/
def Action.isPrecise : Action → Bool
  | .malloc .GC_malloc_precise _ _ | .write _ _ | .setRoots _ | .collect _ => true
  | _ => false

structure PreciseOnly (s : Collector) : Prop where
  accounts : Accounts s
  kind : ∀ h hdr, s.heap.HDR h = some hdr → hdr.hb_obj_kind = PRECISE
  pinned : s.pinned = []
  free_marked : ∀ a sz x, x ∈ s.freelist a sz → s.marks x = true
  /-- Small precise objects are always marked. -/
  alloc_marked : ∀ x hdr, s.allocated x = true → s.heap.HDR x.page = some hdr →
    hdr.isLarge = false → s.marks x = true

/-- What `GC_malloc_precise` returns: a small object is marked. -/
structure LoosePrecise (s : Collector) (x : Obj) : Prop where
  loose : Loose s x
  marked : ∀ hdr, s.heap.HDR x.page = some hdr → hdr.isLarge = false → s.marks x = true

variable {s t : Collector} {h lg : Nat}

theorem SameBooks.preciseOnly (hst : SameBooks s t) (hs : PreciseOnly s) : PreciseOnly t := by
  refine ⟨hst.accounts hs.accounts, ?_, hst.pinned.trans hs.pinned, ?_, ?_⟩
  · rw [hst.HDR]
    exact hs.kind
  · rw [hst.freelist, hst.marks]
    exact hs.free_marked
  · rw [hst.allocated, hst.HDR, hst.marks]
    exact hs.alloc_marked

/-- Taking an object off a list keeps the rest. -/
theorem takeFree_precise {array gran : Nat} {clearLink : Bool} {x : Obj} (hs : PreciseOnly s)
    (htake : takeFree array gran clearLink s = some (t, x)) :
    PreciseOnly t ∧ LoosePrecise t x := by
  obtain ⟨hacc, hloose⟩ := takeFree_accounts hs.accounts htake
  obtain ⟨rest, hlist, hsame⟩ := takeFree_spec htake
  refine ⟨⟨hacc, ?_, hsame.pinned.trans hs.pinned, ?_, ?_⟩, hloose, ?_⟩
  · rw [hsame.HDR]
    exact hs.kind
  · intro a sz y hy
    rw [hsame.freelist] at hy
    rw [hsame.marks]
    rcases mem_setFreelist.mp hy with ⟨rfl, rfl, hrest⟩ | ⟨-, hold⟩
    · exact hs.free_marked a sz y (hlist ▸ List.mem_cons_of_mem x hrest)
    · exact hs.free_marked a sz y hold
  · rw [hsame.allocated, hsame.HDR, hsame.marks]
    exact hs.alloc_marked
  · intro _ _ _
    rw [hsame.marks]
    exact hs.free_marked array gran x (hlist ▸ List.mem_cons_self)

/-- A sweep sets the marks of the whole block, since the kind is `IS_UNCOLLECTABLE`. -/
theorem sweep_precise (hs : PreciseOnly s) {rlist : Nat → List Nat} {rest : List Nat}
    (hrlist : (s.kinds PRECISE).ok_reclaim_list = some rlist) (hlist : rlist lg = h :: rest) :
    PreciseOnly (GC_reclaim_small_nonempty_block h (s.setReclaimList PRECISE lg rest)) := by
  have hacc := sweep_accounts hs.accounts hrlist hlist
  obtain ⟨hdr, hhdr, -⟩ :=
    hs.accounts.queued_block PRECISE rlist lg h hrlist (hlist ▸ List.mem_cons_self)
  have hsame := GC_reclaim_small_nonempty_block_spec
    (s := s.setReclaimList PRECISE lg rest) hhdr
  refine ⟨hacc, ?_, hsame.pinned.trans hs.pinned, ?_, ?_⟩
  · rw [hsame.HDR]
    exact hs.kind
  · intro a sz y hy
    rw [hsame.freelist] at hy
    rw [hsame.marks]
    show sweptMarks h hdr s.marks y = true
    have hold : ∀ a sz, y ∈ s.freelist a sz → sweptMarks h hdr s.marks y = true :=
      fun a sz hy => sweptMarks_mono h hdr _ y (hs.free_marked a sz y hy)
    rcases mem_setFreelist.mp hy with ⟨rfl, rfl, hnew⟩ | ⟨-, hother⟩
    · rcases List.mem_append.mp hnew with hslot | hmem
      · have hy' := (List.mem_filter.mp (List.mem_reverse.mp hslot)).1
        have hunc : IS_UNCOLLECTABLE hdr.hb_obj_kind = true := by
          rw [hs.kind h hdr hhdr]
          rfl
        rw [sweptMarks, if_pos hunc, GC_set_hdr_marks, if_pos (mem_slots.mp hy')]
      · exact hold _ _ hmem
    · exact hold a sz hother
  · intro y hdr' halloc hhdr' hsmall
    rw [hsame.allocated] at halloc
    rw [hsame.HDR] at hhdr'
    rw [hsame.marks]
    exact sweptMarks_mono h hdr _ y (hs.alloc_marked y hdr' halloc hhdr' hsmall)

/-- Setting up a block concerns no object that is given out or free. -/
theorem setup_header_precise (hs : PreciseOnly s) (hlg : lg ≠ 0)
    (hfits : fits s.heap lg h = true)
    (hlist : SMALL_OBJ lg = true → (s.kinds PRECISE).ok_reclaim_list.isSome = true) :
    PreciseOnly (setup_header h lg PRECISE s) := by
  have hkind : PRECISE < s.GC_n_kinds := hs.accounts.base.n_kinds
  obtain ⟨hacc, -, hunclaimed⟩ := setup_header_accounts hs.accounts hlg hfits hkind hlist
  have hmarks : ∀ y : Obj, y.page ≠ h → (setup_header h lg PRECISE s).marks y = s.marks y := by
    intro y hne
    show GC_clear_hdr_marks s.marks h y = s.marks y
    rw [GC_clear_hdr_marks, if_neg hne]
  refine ⟨hacc, ?_, hs.pinned, ?_, ?_⟩
  · intro b hdr hhdr
    by_cases hb : b = h
    · subst hb
      rw [setup_header_HDR] at hhdr
      cases hhdr
      rfl
    · rw [setup_header_HDR_of_ne lg PRECISE s hb] at hhdr
      exact hs.kind b hdr hhdr
  · intro a sz y hy
    rw [hmarks y fun hpage => (hunclaimed y hpage).2 a sz hy]
    exact hs.free_marked a sz y hy
  · intro y hdr halloc hhdr hsmall
    have hne : y.page ≠ h := by
      intro hpage
      have halloc' : s.allocated y = true := halloc
      rw [(hunclaimed y hpage).1] at halloc'
      cases halloc'
    rw [hmarks y hne]
    rw [setup_header_HDR_of_ne lg PRECISE s hne] at hhdr
    exact hs.alloc_marked y hdr halloc hhdr hsmall

/-- `GC_new_hblk` sets the marks of the block. -/
theorem GC_new_hblk_precise (hs : PreciseOnly s) (hlg : lg ≠ 0) (hsmall : SMALL_OBJ lg = true)
    (hfits : fits s.heap lg h = true)
    (hlist : (s.kinds PRECISE).ok_reclaim_list.isSome = true) :
    PreciseOnly (GC_new_hblk lg PRECISE (some h) s) := by
  have hkind : PRECISE < s.GC_n_kinds := hs.accounts.base.n_kinds
  have hacc := GC_new_hblk_accounts hs.accounts hlg hfits hkind hsmall hlist
  have hset := setup_header_precise hs hlg hfits fun _ => hlist
  obtain ⟨marks, hmono, hslots, hsame⟩ := GC_new_hblk_spec lg PRECISE h s
  refine ⟨hacc, ?_, hsame.pinned.trans hs.pinned, ?_, ?_⟩
  · rw [hsame.HDR]
    exact hset.kind
  · intro a sz y hy
    rw [hsame.freelist] at hy
    rw [hsame.marks]
    have hold : ∀ a sz, y ∈ s.freelist a sz → marks y = true :=
      fun a sz hy => hmono y (hset.free_marked a sz y hy)
    rcases mem_setFreelist.mp hy with ⟨rfl, rfl, hnew⟩ | ⟨-, hother⟩
    · rcases List.mem_append.mp hnew with hslot | hmem
      · exact hslots rfl y (List.mem_reverse.mp hslot)
      · exact hold _ _ hmem
    · exact hold a sz hother
  · intro y hdr halloc hhdr hsmall'
    rw [hsame.allocated] at halloc
    rw [hsame.HDR] at hhdr
    rw [hsame.marks]
    exact hmono y (hset.alloc_marked y hdr halloc hhdr hsmall')

theorem preciseOnly_rules (hlg : lg ≠ 0) : AllocRules PRECISE lg PreciseOnly LoosePrecise where
  newList := by
    intro s hs hnone
    exact ⟨GC_alloc_reclaim_list_accounts hs.accounts hnone, hs.kind, hs.pinned, hs.free_marked,
      hs.alloc_marked⟩
  sweep := fun s rlist h rest hs hrlist hlist => sweep_precise hs hrlist hlist
  newBlock := fun s h hs hsmall hfits hlist => GC_new_hblk_precise hs hlg hsmall hfits hlist
  take := fun s array clearLink t x hs htake => takeFree_precise hs htake
  large := by
    intro s h hs hlarge hfits
    have hkind : PRECISE < s.GC_n_kinds := hs.accounts.base.n_kinds
    have hbooks := genericMallocLarge_books lg PRECISE h s
    have hset := setup_header_precise hs hlg hfits
      (fun hsmall => by rw [hlarge] at hsmall; cases hsmall)
    refine ⟨hbooks.preciseOnly hset,
      (genericMallocLarge_accounts hs.accounts hlg hfits hkind hlarge).2, ?_⟩
    intro hdr hhdr hsmall
    rw [hbooks.HDR, setup_header_HDR] at hhdr
    cases hhdr
    rw [SMALL_OBJ_iff, hlarge] at hsmall
    cases hsmall
  mark := by
    intro s x hs hx
    have hacc := hs.accounts.more_marks (set_mono s.marks x)
    refine ⟨⟨hacc, hs.kind, hs.pinned, ?_, ?_⟩, ?_, ?_⟩
    · exact fun a sz y hy => set_mono s.marks x y (hs.free_marked a sz y hy)
    · exact fun y hdr hy hhdr hsmall => set_mono s.marks x y (hs.alloc_marked y hdr hy hhdr hsmall)
    · exact ⟨hx.loose.isObj, hx.loose.unclaimed,
        fun hq => set_mono s.marks x x (hx.loose.marked hq)⟩
    · exact fun hdr hhdr hsmall => set_mono s.marks x x (hx.marked hdr hhdr hsmall)

theorem malloc_preciseOnly {page : Option Nat} (hs : PreciseOnly s) (hlg : lg ≠ 0)
    (hfits : page.all (fits s.heap lg) = true) :
    PreciseOnly (malloc .GC_malloc_precise lg page s) := by
  have hkind : PRECISE < s.GC_n_kinds := hs.accounts.base.n_kinds
  have hacc := malloc_accounts (a := .GC_malloc_precise) hs.accounts hlg hkind hfits
  obtain ⟨hI, hJ⟩ := Allocator.run_rule .GC_malloc_precise (preciseOnly_rules hlg) hs hfits
  unfold malloc at hacc ⊢
  split
  · rename_i heq
    rw [heq] at hI
    exact hI
  · rename_i u x heq
    rw [heq] at hI hJ
    simp only [heq] at hacc
    have hx := hJ x rfl
    refine ⟨hacc, hI.kind, hI.pinned, hI.free_marked, ?_⟩
    intro y hdr hy hhdr hsmall
    have hy' : Function.update u.allocated x true y = true := hy
    by_cases hyx : y = x
    · subst hyx
      exact hx.marked hdr hhdr hsmall
    · rw [Function.update_of_ne hyx] at hy'
      exact hI.alloc_marked y hdr hy' hhdr hsmall

/-! ## Collections -/

theorem fullCollection_preciseOnly {cs : List Choice} (hs : PreciseOnly s)
    (ht : fullCollection cs s = some t) : PreciseOnly t := by
  obtain ⟨m, hm, hstart⟩ := Option.bind_eq_some_iff.mp ht
  have hpinned : ∀ x ∈ s.pinned, m.marks x = true := by
    rw [hs.pinned]
    intro x hx
    cases hx
  have hR := fullCollection_accounts hs.accounts hm hpinned ht
  obtain ⟨-, hpin, hHDR⟩ := reclaimBlocks_HDR hstart
  refine ⟨hR.accounts, fun h hdr hhdr => hs.kind h hdr (hHDR h hdr hhdr), hpin.trans hs.pinned,
    ?_, fun x _ hx _ _ => hR.marked x hx⟩
  intro a sz x hx
  rw [hR.empty a sz] at hx
  cases hx

theorem step_preciseOnly {act : Action} (hs : PreciseOnly s) (hact : act.isPrecise = true)
    (ht : step s act = some t) : PreciseOnly t := by
  cases act with
  | malloc a lg page =>
      simp only [step] at ht
      split at ht
      · rename_i hok
        cases ht
        cases a with
        | GC_malloc_precise => exact malloc_preciseOnly hs hok.1 hok.2.2
        | _ => cases hact
      · cases ht
  | free x => cases hact
  | newKind descr adjust clear => cases hact
  | write x c =>
      simp only [step] at ht
      split at ht
      · cases ht
        exact SameBooks.preciseOnly (s := s) ⟨rfl, rfl, rfl, rfl, rfl, rfl, rfl, rfl, rfl⟩ hs
      · cases ht
  | setRoots roots =>
      cases ht
      exact SameBooks.preciseOnly (s := s) ⟨rfl, rfl, rfl, rfl, rfl, rfl, rfl, rfl, rfl⟩ hs
  | collect cs => exact fullCollection_preciseOnly hs ht

theorem run_preciseOnly {acts : List Action} (hacts : ∀ a ∈ acts, a.isPrecise = true)
    {limit : Nat} (hrun : (gc limit).run acts = some s) : PreciseOnly s := by
  have hinit : PreciseOnly (GC_init limit) := by
    refine ⟨GC_init_accounts limit, ?_, rfl, ?_, ?_⟩
    · intro h hdr hhdr
      cases hhdr
    · intro a sz x hx
      cases hx
    · intro x hdr hx
      cases hx
  refine ((gc limit).visits_of_stepsMeet PreciseOnly (C := fun _ a => a.isPrecise = true) hinit
    (fun _ _ _ hs hact ht => step_preciseOnly hs hact ht) ?_).last hrun
  intro as a has _ _ _
  exact hacts a (has.subset (List.mem_append_right as List.mem_cons_self))

/-! ## The garbage -/

/-- Every unreachable object is unmarked when the mark phase has ended, and afterwards its
block is free or waits to be swept with the object unmarked. -/
def GarbageReclaimed (s : Collector) (m : Marker) (t : Collector) : Prop :=
  ∀ x, s.allocated x = true → x ∉ s.heap.reachable → m.marks x = false ∧
    (t.heap.HDR x.page = none ∨ t.Queued x.page ∧ t.marks x = false)

/-- No unreachable object is marked before the collection. -/
def NoStaleGarbage (s : Collector) : Prop :=
  ∀ x, s.allocated x = true → x ∉ s.heap.reachable → s.marks x = false

/-- Neither the roots nor anything marked before the collection leads to an unreachable
object, even if the words of objects that have an accelerator are read. -/
def NothingRetained (s : Collector) : Prop :=
  ∀ x, s.allocated x = true → x ∉ s.heap.reachable →
    x ∉ Logic.closure s.heap.anyEdge (s.heap.targets s.heap.roots ∪ {y | s.marks y = true})

section

variable {cs : List Choice} {m : Marker}

theorem PreciseOnly.not_uncollectable (hs : PreciseOnly s) (x : Obj) :
    ¬s.heap.Uncollectable x := by
  rintro ⟨hdr, hhdr, hk⟩
  rw [hs.kind x.page hdr hhdr] at hk
  cases hk

/-- The marks of the objects survive `GC_clear_marks`. -/
theorem PreciseOnly.mem_clearMarks_iff (hs : PreciseOnly s) (x : Obj) :
    x ∈ (clearMarks s.heap s.marks).marked ↔ s.marks x = true := by
  rw [Marks.mem_marked, clearMarks]
  split
  · rename_i hdr hhdr
    rw [hs.kind x.page hdr hhdr]
    show (true && s.marks x) = true ↔ _
    rw [Bool.true_and]
  · exact Iff.rfl

/-- An unreachable object that is not marked lies in a large block, and that is freed. -/
theorem PreciseOnly.freed (hs : PreciseOnly s) (hm : markOf cs s = some m)
    (ht : fullCollection cs s = some t) {x : Obj} (hx : s.allocated x = true)
    (hold : s.marks x = false) (hnew : m.marks x = false) : t.heap.HDR x.page = none := by
  obtain ⟨m', hm', hstart⟩ := Option.bind_eq_some_iff.mp ht
  rw [hm] at hm'
  cases hm'
  obtain ⟨hdr, hhdr, hslot⟩ := hs.accounts.alloc_obj x hx
  have hlarge : hdr.isLarge = true := by
    cases h : hdr.isLarge with
    | true => rfl
    | false =>
        rw [hs.alloc_marked x hdr hx hhdr h] at hold
        cases hold
  rw [Hdr.objs, hlarge, if_pos rfl] at hslot
  refine reclaimBlocks_freed (s := resetLists (clearFlMarks (afterMark m s))) hhdr ?_
    ((hs.accounts.base.wf.mem_hblks _).mpr ⟨hdr, hhdr⟩) hstart
  intro i hi
  rw [Hdr.objs, hlarge, if_pos rfl] at hi
  have heq : (⟨x.page, i⟩ : Obj) = x := by
    obtain ⟨xp, xs⟩ := x
    simp only [Obj.mk.injEq, true_and]
    simp only at hslot
    omega
  rw [heq]
  show (m.marks x && _) = false
  rw [hnew, Bool.false_and]

end

def smallRun : List Action := [.malloc .GC_malloc_precise 128 (some 1)]

def smallState : Collector := ((gc 0).run smallRun).get (by decide +kernel)

end Ironclad.Gc
