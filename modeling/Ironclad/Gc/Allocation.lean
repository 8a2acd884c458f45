import Ironclad.Gc.Blocks

/-!
# The rule for allocations

An allocation is put together from a few steps: sweeping a queued block, setting up a new
one, taking an object off a free list. What each of them keeps, every allocator keeps.
-/

namespace Ironclad.Gc

/-- What the steps of an allocation of `lg` granules from the kind `k` have to keep: `I`
holds of the state throughout, and `J` of the object that is returned. -/
structure AllocRules (k lg : Nat) (I : Collector → Prop) (J : Collector → Obj → Prop) : Prop where
  newList : ∀ s, I s → (s.kinds k).ok_reclaim_list = none → I (GC_alloc_reclaim_list k s)
  sweep : ∀ s rlist h rest, I s → (s.kinds k).ok_reclaim_list = some rlist → rlist lg = h :: rest →
    I (GC_reclaim_small_nonempty_block h (s.setReclaimList k lg rest))
  newBlock : ∀ s h, I s → SMALL_OBJ lg = true → fits s.heap lg h = true →
    (s.kinds k).ok_reclaim_list.isSome = true → I (GC_new_hblk lg k (some h) s)
  take : ∀ s array clearLink t x, I s → takeFree array lg clearLink s = some (t, x) → I t ∧ J t x
  large : ∀ s h, I s → SMALL_OBJ lg = false → fits s.heap lg h = true →
    I (genericMallocLarge lg k (some h) s).1 ∧ J (genericMallocLarge lg k (some h) s).1 ⟨h, 0⟩
  mark : ∀ s x, I s → J s x → I { s with marks := s.marks.set x } ∧
    J { s with marks := s.marks.set x } x

variable {k lg : Nat} {I : Collector → Prop} {J : Collector → Obj → Prop} {s : Collector}

theorem fits_of_same {t : Collector} (h : SameBlocks s t) (sz : Nat) :
    fits t.heap sz = fits s.heap sz := by
  funext b
  rw [fits, fits, h.hblks, h.HDR]

theorem setReclaimList_list (s : Collector) {rlist : Nat → List Nat} (kind gran : Nat)
    (blocks : List Nat) (h : (s.kinds kind).ok_reclaim_list = some rlist) :
    ((s.setReclaimList kind gran blocks).kinds kind).ok_reclaim_list =
      some (Function.update rlist gran blocks) := by
  simp [Collector.setReclaimList, h]

theorem GC_reclaim_small_nonempty_block_kinds (h : Nat) (s : Collector) :
    (GC_reclaim_small_nonempty_block h s).kinds = s.kinds := by
  unfold GC_reclaim_small_nonempty_block
  split <;> rfl

/-- Sweeping the blocks of a reclaim list, up to the first that yields an object. -/
theorem continueReclaim_rule (R : AllocRules k lg I J) {blocks : List Nat}
    {rlist : Nat → List Nat} (hs : I s) (hlist : (s.kinds k).ok_reclaim_list = some rlist)
    (hblocks : rlist lg = blocks) :
    I (continueReclaim lg k blocks s) ∧
      ((continueReclaim lg k blocks s).kinds k).ok_reclaim_list.isSome = true := by
  induction blocks generalizing s rlist with
  | nil => exact ⟨hs, by rw [continueReclaim, hlist]; rfl⟩
  | cons h rest ih =>
      have hswept := R.sweep s rlist h rest hs hlist hblocks
      have hlist' : ((GC_reclaim_small_nonempty_block h
          (s.setReclaimList k lg rest)).kinds k).ok_reclaim_list =
            some (Function.update rlist lg rest) := by
        rw [GC_reclaim_small_nonempty_block_kinds]
        exact setReclaimList_list s k lg rest hlist
      unfold continueReclaim
      simp only
      split
      · exact ⟨hswept, by rw [hlist']; rfl⟩
      · exact ih hswept hlist' (Function.update_self ..)

/-- `GC_generic_malloc_inner` makes sure that there is a reclaim list first. -/
theorem ensureList_rule (R : AllocRules k lg I J) (hs : I s) {t : Collector}
    (ht : (if (s.kinds k).ok_reclaim_list.isNone then GC_alloc_reclaim_list k s else s) = t) :
    I t ∧ (t.kinds k).ok_reclaim_list.isSome = true ∧ SameBlocks s t := by
  subst ht
  split
  · rename_i hnone
    refine ⟨R.newList s hs (Option.isNone_iff_eq_none.mp hnone), ?_,
      GC_alloc_reclaim_list_same k s⟩
    simp [GC_alloc_reclaim_list]
  · rename_i hsome
    exact ⟨hs, Option.isSome_iff_ne_none.mpr (by simpa using hsome), .refl s⟩

theorem GC_allocobj_rule (R : AllocRules k lg I J) (hs : I s)
    (hlist : (s.kinds k).ok_reclaim_list.isSome = true) (hsmall : SMALL_OBJ lg = true)
    {page : Option Nat} (hfits : page.all (fits s.heap lg) = true) :
    I (GC_allocobj lg k page s) := by
  obtain ⟨rlist, hrlist⟩ := Option.isSome_iff_exists.mp hlist
  have hcont : I (GC_continue_reclaim lg k s) ∧
      ((GC_continue_reclaim lg k s).kinds k).ok_reclaim_list.isSome = true := by
    unfold GC_continue_reclaim
    rw [hrlist]
    exact continueReclaim_rule R hs hrlist rfl
  unfold GC_allocobj
  simp only
  split
  · cases page with
    | none => exact hcont.1
    | some h =>
        refine R.newBlock _ h hcont.1 hsmall ?_ hcont.2
        rw [fits_of_same (GC_continue_reclaim_same lg k s)]
        simpa using hfits
  · exact hcont.1

theorem GC_generic_malloc_rule (R : AllocRules k lg I J) (hs : I s) {page : Option Nat}
    (hfits : page.all (fits s.heap lg) = true) :
    I (GC_generic_malloc lg k page s).1 ∧
      ∀ x, (GC_generic_malloc lg k page s).2 = some x → J (GC_generic_malloc lg k page s).1 x := by
  unfold GC_generic_malloc
  cases hsmall : SMALL_OBJ lg with
  | true =>
      simp only [if_true]
      unfold GC_generic_malloc_inner
      generalize hu : (if s.flh k lg = [] then
        GC_allocobj lg k page
          (if (s.kinds k).ok_reclaim_list.isNone then GC_alloc_reclaim_list k s else s)
        else s) = u
      have hI : I u := by
        subst hu
        split
        · obtain ⟨ht, hlist, hsame⟩ := ensureList_rule R hs rfl
          refine GC_allocobj_rule R ht hlist hsmall ?_
          rw [fits_of_same hsame]
          exact hfits
        · exact hs
      simp only
      split
      · rename_i t x htake
        have hIJ := R.take u _ true t x hI htake
        refine ⟨hIJ.1, ?_⟩
        rintro y ⟨⟩
        exact hIJ.2
      · exact ⟨hI, fun x hx => by cases hx⟩
  | false =>
      simp only [Bool.false_eq_true, if_false]
      cases page with
      | none => exact ⟨hs, fun x hx => by cases hx⟩
      | some h =>
          have hIJ := R.large s h hs hsmall (by simpa using hfits)
          refine ⟨hIJ.1, ?_⟩
          rintro x ⟨⟩
          exact hIJ.2

theorem mallocFrom_rule (R : AllocRules k lg I J) (hs : I s) (array : Nat) (clearLink : Bool)
    {page : Option Nat} (hfits : page.all (fits s.heap lg) = true) :
    I (mallocFrom array k clearLink lg page s).1 ∧
      ∀ x, (mallocFrom array k clearLink lg page s).2 = some x →
        J (mallocFrom array k clearLink lg page s).1 x := by
  unfold mallocFrom
  split
  · rename_i t x htake
    have htake' : takeFree array lg clearLink s = some (t, x) := by
      split at htake
      · exact htake
      · cases htake
    have hIJ := R.take s array clearLink t x hs htake'
    refine ⟨hIJ.1, ?_⟩
    rintro y ⟨⟩
    exact hIJ.2
  · exact GC_generic_malloc_rule R hs hfits

theorem markLarge_rule (R : AllocRules k lg I J) {r : Collector × Option Obj} (hI : I r.1)
    (hJ : ∀ x, r.2 = some x → J r.1 x) :
    I (markLarge lg r).1 ∧ ∀ x, (markLarge lg r).2 = some x → J (markLarge lg r).1 x := by
  obtain ⟨t, res⟩ := r
  cases res with
  | none => exact ⟨hI, hJ⟩
  | some op =>
      unfold markLarge
      simp only
      split
      · exact ⟨hI, hJ⟩
      · have hmark := R.mark t op hI (hJ op rfl)
        refine ⟨hmark.1, ?_⟩
        rintro x ⟨⟩
        exact hmark.2

/-- **Every allocator keeps what the steps of an allocation keep.** -/
theorem Allocator.run_rule (a : Allocator) (R : AllocRules a.kind lg I J) (hs : I s)
    {page : Option Nat} (hfits : page.all (fits s.heap lg) = true) :
    I (a.run lg page s).1 ∧ ∀ x, (a.run lg page s).2 = some x → J (a.run lg page s).1 x := by
  cases a with
  | GC_malloc => exact mallocFrom_rule R hs GC_objfreelist true hfits
  | GC_malloc_atomic => exact mallocFrom_rule R hs GC_aobjfreelist false hfits
  | GC_malloc_precise => exact mallocFrom_rule R hs GC_pobjfreelist true hfits
  | GC_malloc_uncollectable =>
      obtain ⟨hI, hJ⟩ := mallocFrom_rule R hs GC_uobjfreelist true hfits
      exact markLarge_rule R hI hJ
  | GC_malloc_atomic_uncollectable =>
      obtain ⟨hI, hJ⟩ := mallocFrom_rule R hs GC_auobjfreelist true hfits
      exact markLarge_rule R hI hJ
  | GC_generic_malloc k => exact GC_generic_malloc_rule R hs hfits

/-! ## What the allocators do to the blocks -/

theorem GC_build_fl_spec (heap : Heap) (h : Nat) (hdr : Hdr) (clear : Bool) (list : List Obj) :
    (GC_build_fl heap h hdr clear list).2 = (slots h hdr).reverse ++ list ∧
      (GC_build_fl heap h hdr clear list).1.hblks = heap.hblks ∧
      (GC_build_fl heap h hdr clear list).1.HDR = heap.HDR := by
  obtain ⟨hlist, hblks, hHDR, -⟩ := foldl_putFree clear (slots h hdr) (heap, list)
  exact ⟨hlist, hblks, hHDR⟩

theorem GC_new_hblk_same (gran kind h : Nat) (s : Collector) :
    SameBlocks (setup_header h gran kind s) (GC_new_hblk gran kind (some h) s) := by
  obtain ⟨-, hblks, hHDR⟩ := GC_build_fl_spec (setup_header h gran kind s).heap h
    (newHdr kind gran (s.kinds kind)) (s.kinds kind).ok_init
    (s.freelist (s.kinds kind).ok_freelist gran)
  exact ⟨hblks, hHDR, rfl, fun _ => rfl⟩

theorem genericMallocLarge_same (lg k h : Nat) (s : Collector) :
    SameBlocks (setup_header h lg k s) (genericMallocLarge lg k (some h) s).1 := by
  show SameBlocks _ (if _ then _ else _)
  split
  · exact ⟨rfl, rfl, rfl, fun _ => rfl⟩
  · exact .refl _

theorem base_rules (k : Nat) {lg : Nat} (hlg : lg ≠ 0) :
    AllocRules k lg Base (fun _ _ => True) where
  newList := fun s hs _ => (GC_alloc_reclaim_list_same k s).base hs
  sweep := fun s _ h rest hs _ _ => ((setReclaimList_same s k lg rest).trans
    (GC_reclaim_small_nonempty_block_same h _)).base hs
  newBlock := fun s h hs _ hfits _ =>
    (GC_new_hblk_same lg k h s).base (setup_header_base hs (by omega) hfits)
  take := fun _ _ _ _ _ hs htake => ⟨(takeFree_same htake).base hs, trivial⟩
  large := fun s h hs _ hfits =>
    ⟨(genericMallocLarge_same lg k h s).base (setup_header_base hs (by omega) hfits), trivial⟩
  mark := fun _ _ hs _ => ⟨⟨hs.wf, hs.nodup, hs.n_kinds, hs.uncollectable⟩, trivial⟩

/-! ## The steps of `GC_start_reclaim` -/

theorem nMarks_eq_zero {marks : Marks} {h : Nat} {hdr : Hdr} :
    nMarks marks h hdr = 0 ↔ ∀ i < hdr.objs, marks ⟨h, i⟩ = false := by
  simp [nMarks, List.countP_eq_zero]

/-- What `GC_reclaim_block` does: a block without marks is freed, another one is queued
or left as it is. -/
theorem GC_reclaim_block_cases {h : Nat} {hdr : Hdr} {t : Collector}
    (hhdr : s.heap.HDR h = some hdr) (ht : GC_reclaim_block h s = some t) :
    (∀ i < hdr.objs, s.marks ⟨h, i⟩ = false) ∧ t = GC_freehblk h s ∨
      (∃ i < hdr.objs, s.marks ⟨h, i⟩ = true) ∧
        (t = s ∨ hdr.isLarge = false ∧ ∃ rlist, (s.kinds hdr.hb_obj_kind).ok_reclaim_list =
          some rlist ∧ t = s.setReclaimList hdr.hb_obj_kind hdr.hb_sz (h :: rlist hdr.hb_sz)) := by
  unfold GC_reclaim_block at ht
  simp only [hhdr] at ht
  cases hlarge : hdr.isLarge with
  | true =>
      have hobjs : hdr.objs = 1 := by rw [Hdr.objs, hlarge, if_pos rfl]
      rw [hobjs]
      simp only [hlarge, if_true] at ht
      split at ht
      · rename_i hmark
        cases ht
        refine .inl ⟨fun i hi => ?_, rfl⟩
        obtain rfl : i = 0 := by omega
        simpa using hmark
      · rename_i hmark
        cases ht
        exact .inr ⟨⟨0, by omega, by simpa using hmark⟩, .inl rfl⟩
  | false =>
      simp only [hlarge, Bool.false_eq_true, if_false] at ht
      split at ht
      · rename_i hzero
        cases ht
        exact .inl ⟨nMarks_eq_zero.mp hzero, rfl⟩
      · rename_i hne
        have hsome : ∃ i < hdr.objs, s.marks ⟨h, i⟩ = true := by
          by_contra hno
          refine hne (nMarks_eq_zero.mpr fun i hi => ?_)
          by_contra hmark
          exact hno ⟨i, hi, by simpa using hmark⟩
        refine .inr ⟨hsome, ?_⟩
        split at ht
        · split at ht
          · cases ht
          · rename_i rlist hrlist
            cases ht
            exact .inr ⟨rfl, rlist, hrlist, rfl⟩
        · cases ht
          exact .inl rfl

/-- What every `GC_reclaim_block` keeps holds when all blocks are done. -/
theorem reclaimBlocks_induction {K : List Nat → Collector → Prop}
    (hstep : ∀ h rest s t, K (h :: rest) s → GC_reclaim_block h s = some t → K rest t)
    {l : List Nat} {t : Collector} (hs : K l s) (ht : reclaimBlocks l s = some t) : K [] t := by
  induction l generalizing s with
  | nil =>
      cases ht
      exact hs
  | cons h rest ih =>
      obtain ⟨u, hu, hrest⟩ := Option.bind_eq_some_iff.mp ht
      exact ih (hstep h rest s u hs hu) hrest

theorem resetLists_same (s : Collector) : SameBlocks s (resetLists s) := by
  refine ⟨rfl, rfl, rfl, fun k => ?_⟩
  show (if _ then _ else _ : ObjKind).fixed = _
  split <;> rfl

theorem GC_reclaim_block_base {h : Nat} {t : Collector} (hs : Base s)
    (ht : GC_reclaim_block h s = some t) : Base t := by
  cases hhdr : s.heap.HDR h with
  | none =>
      simp only [GC_reclaim_block, hhdr] at ht
      cases ht
      exact hs
  | some hdr =>
      rcases GC_reclaim_block_cases hhdr ht with ⟨-, rfl⟩ | ⟨-, rfl | ⟨-, rlist, -, rfl⟩⟩
      · exact GC_freehblk_base h hs
      · exact hs
      · exact (setReclaimList_same s _ _ _).base hs

/-! ## The blocks in every reachable state -/

theorem given_same (s : Collector) (a : Allocator) (x : Obj) : SameBlocks s (s.given a x) :=
  ⟨rfl, rfl, rfl, fun _ => rfl⟩

theorem forget_same (s : Collector) (x : Obj) : SameBlocks s (s.forget x) :=
  ⟨rfl, rfl, rfl, fun _ => rfl⟩

theorem malloc_base {a : Allocator} {page : Option Nat} (hs : Base s) (hlg : lg ≠ 0)
    (hfits : page.all (fits s.heap lg) = true) : Base (malloc a lg page s) := by
  have hrun := (a.run_rule (base_rules a.kind hlg) hs hfits).1
  unfold malloc
  split
  · rename_i heq
    rw [heq] at hrun
    exact hrun
  · rename_i t x heq
    rw [heq] at hrun
    exact (given_same t a x).base hrun

theorem GC_free_base (x : Obj) (hs : Base s) : Base (GC_free x s) := by
  unfold GC_free
  split
  · exact hs
  · split
    · exact GC_freehblk_base x.page hs
    · refine SameBlocks.base ?_ hs
      obtain ⟨-, hblks, hHDR, -⟩ := foldl_putFree (s.kinds _).ok_init [x]
        (s.heap, s.freelist (s.kinds _).ok_freelist _)
      exact ⟨hblks, hHDR, rfl, fun _ => rfl⟩

theorem GC_new_kind_base {descr k : Nat} {adjust clear : Bool} {t : Collector} (hs : Base s)
    (ht : GC_new_kind descr adjust clear s = some (t, k)) : Base t := by
  unfold GC_new_kind at ht
  simp only at ht
  split at ht
  · cases ht
  · cases ht
    refine ⟨hs.wf, hs.nodup, Nat.le_succ_of_le hs.n_kinds, ?_⟩
    have hne : UNCOLLECTABLE ≠ s.GC_n_kinds := by
      have := hs.n_kinds
      simp only [UNCOLLECTABLE]
      omega
    show (Function.update s.kinds s.GC_n_kinds _ UNCOLLECTABLE).fixed = _
    rw [Function.update_of_ne hne]
    exact hs.uncollectable

theorem fullCollection_base {cs : List Choice} {t : Collector} (hs : Base s)
    (ht : fullCollection cs s = some t) : Base t := by
  obtain ⟨m, -, ht⟩ := Option.bind_eq_some_iff.mp ht
  have hreset : Base (resetLists (clearFlMarks (afterMark m s))) :=
    (resetLists_same _).base ⟨hs.wf, hs.nodup, hs.n_kinds, hs.uncollectable⟩
  exact reclaimBlocks_induction (K := fun _ => Base)
    (fun _ _ _ _ hs ht => GC_reclaim_block_base hs ht) hreset ht

theorem step_base {act : Action} {t : Collector} (hs : Base s) (ht : step s act = some t) :
    Base t := by
  cases act with
  | malloc a lg page =>
      simp only [step] at ht
      split at ht
      · rename_i hok
        cases ht
        exact malloc_base hs hok.1 hok.2.2
      · cases ht
  | free x =>
      simp only [step] at ht
      split at ht
      · cases ht
        exact (forget_same _ x).base (GC_free_base x hs)
      · cases ht
  | newKind descr adjust clear =>
      obtain ⟨⟨u, k⟩, hu, rfl⟩ := Option.map_eq_some_iff.mp ht
      exact GC_new_kind_base hs hu
  | write x c =>
      simp only [step] at ht
      split at ht
      · cases ht
        exact SameBlocks.base (s := s) ⟨rfl, rfl, rfl, fun _ => rfl⟩ hs
      · cases ht
  | setRoots roots =>
      cases ht
      exact SameBlocks.base (s := s) ⟨rfl, rfl, rfl, fun _ => rfl⟩ hs
  | collect cs => exact fullCollection_base hs ht

/-- In every state of every run the blocks are well formed. -/
theorem run_base {limit : Nat} {acts : List Action} {s : Collector}
    (h : (gc limit).run acts = some s) : Base s :=
  ((gc limit).visits_of_invariant Base (GC_init_base limit) (fun _ _ _ hs ht => step_base hs ht)
    acts).last h

end Ironclad.Gc
