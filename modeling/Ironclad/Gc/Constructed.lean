import Ironclad.Gc.PreciseCalls
import Ironclad.Gc.PreciseGarbage

/-!
# Is `mark()` called on constructed objects only?

`ironclad_mark_address` calls a virtual function of whatever it is given, so the first word
there has to point to a virtual table. It does for an object that was constructed and not
yet reclaimed (`Headed`), and does not for a slot on a free list, whose first word is a
link or zero. Free slots of precise blocks are marked, which keeps a stray pointer from
pushing them, except for the ones that `GC_clear_fl_marks` has cleared; and after an
overflow of the mark stack all marked slots of a block are pushed.
`calls_constructed` says under which condition a run calls `mark()` on constructed
objects only.
-/

namespace Ironclad.Gc

open Logic

/-- The first word of an object. -/
def Heap.firstWord (heap : Heap) (x : Obj) : Nat := (heap.contents x).words.headD 0

section

variable (vtable : Nat → Bool)

/-- The contents begin with a pointer to a virtual table, as those of a class derived from
`allocation_base` do. -/
def Contents.headed (c : Contents) : Bool := vtable (c.words.headD 0)

/-- A constructed object that is not yet reclaimed. -/
structure Constructed (s : Collector) (x : Obj) : Prop where
  allocated : s.allocated x = true
  not_free : ∀ a sz, x ∉ s.freelist a sz
  headed : vtable (s.heap.firstWord x) = true

/-! ## The machine -/

/-- What a program does that allocates by `GC_malloc_precise` and constructs each object
before anything else happens. -/
inductive PreciseAction where
  /-- A request for `lg` granules, and what the constructor writes. -/
  | new (lg : Nat) (page : Option Nat) (c : Contents)
  | write (x : Obj) (c : Contents)
  | setRoots (roots : List Nat)
  | collect (cs : List Choice)

/-- The mutator writes an object. -/
def Collector.writeObj (s : Collector) (x : Obj) (c : Contents) : Collector :=
  { s with heap := { s.heap with contents := Function.update s.heap.contents x c } }

/-- `GC_malloc_precise`, and the constructor. -/
def newPrecise (lg : Nat) (page : Option Nat) (c : Contents) (s : Collector) : Collector :=
  match GC_malloc_precise lg page s with
  | (s, none) => s
  | (s, some x) => (s.given .GC_malloc_precise x).writeObj x c

/-- A step. What is written leaves the pointer to the virtual table alone. -/
def preciseStep (s : Collector) : PreciseAction → Option Collector
  | .new lg page c =>
      if lg ≠ 0 ∧ page.all (fits s.heap lg) = true ∧ c.headed vtable = true
      then some (newPrecise lg page c s) else none
  | .write x c =>
      if s.allocated x = true ∧ c.headed vtable = true then some (s.writeObj x c) else none
  | .setRoots roots => some { s with heap := { s.heap with roots := roots } }
  | .collect cs => fullCollection cs s

/-- The collector and a program whose objects are precise. -/
def preciseGc (limit : Nat) : Machine Collector PreciseAction :=
  ⟨GC_init limit, preciseStep vtable⟩

/-- The objects for which a collection calls `ironclad_mark_address`. -/
def Collector.markCalls (s : Collector) (cs : List Choice) : List Obj :=
  phaseCalls s.heap cs (startMark s.heap s.marks s.GC_mark_stack_size s.GC_mark_stack_limit)

/-- A collection calls `mark()` on constructed objects only. -/
def CallsConstructed (s : Collector) : PreciseAction → Prop
  | .collect cs => ∀ x ∈ s.markCalls cs, Constructed vtable s x
  | _ => True

end

/-- When the mark stack does not overflow, every slot that the roots and the objects lead
to, on a path through unmarked slots, is allocated, marked, or behind the mark stack. Else
every slot that the roots and the marked slots lead to is allocated, or it is marked and in
a block that is read by an accelerator. -/
def StraysHarmless (s : Collector) : PreciseAction → Prop
  | .collect cs =>
      (noOverflow s.heap cs
          (startMark s.heap s.marks s.GC_mark_stack_size s.GC_mark_stack_limit) = true ∧
        ∀ x ∈ s.tracedAround (s.heap.seenEdge [s.GC_mark_stack_limit]),
          s.allocated x = true ∨ s.marks x = true ∨ s.heap.AtLimit s.GC_mark_stack_limit x) ∨
      ∀ x ∈ Logic.closure s.heap.anyEdge (s.heap.targets s.heap.roots ∪ {y | s.marks y = true}),
        s.allocated x = true ∨ s.marks x = true ∧ s.heap.InAccelerated x
  | _ => True

/-! ## The first words -/

/-- Every allocated object begins with a pointer to a virtual table. -/
def Headed (vtable : Nat → Bool) (s : Collector) : Prop :=
  ∀ x, s.allocated x = true → vtable (s.heap.firstWord x) = true

section

variable {vtable : Nat → Bool} {s t : Collector} {h lg : Nat}

/-- The allocated objects were so before, with the same contents. -/
theorem Headed.of_untouched (hs : Headed vtable s)
    (hst : ∀ x, t.allocated x = true →
      s.allocated x = true ∧ t.heap.contents x = s.heap.contents x) : Headed vtable t := by
  intro x hx
  obtain ⟨halloc, hcontents⟩ := hst x hx
  show vtable ((t.heap.contents x).words.headD 0) = true
  rw [hcontents]
  exact hs x halloc

theorem Constructed.of_headed (hacc : Accounts s) (hs : Headed vtable s) {x : Obj}
    (hx : s.allocated x = true) : Constructed vtable s x := by
  refine ⟨hx, ?_, hs x hx⟩
  intro a sz hmem
  have hfree := (hacc.free_slot a sz x hmem).1
  rw [hx] at hfree
  cases hfree

theorem setLink_contents (heap : Heap) {x y : Obj} (p : Nat) (hne : y ≠ x) :
    (heap.setLink x p).contents y = heap.contents y := Function.update_of_ne hne ..

theorem bzero_contents (heap : Heap) {x y : Obj} (hne : y ≠ x) :
    (heap.bzero x).contents y = heap.contents y := Function.update_of_ne hne ..

/-- Putting objects on a list leaves the contents of the others alone. -/
theorem foldl_putFree_contents (init : Bool) {l : List Obj} {y : Obj} (hy : y ∉ l)
    (acc : Heap × List Obj) :
    (l.foldl (putFree init) acc).1.contents y = acc.1.contents y := by
  induction l generalizing acc with
  | nil => rfl
  | cons x l ih =>
      rw [List.mem_cons, not_or] at hy
      rw [List.foldl_cons, ih hy.2]
      unfold putFree
      simp only
      rw [setLink_contents _ _ hy.1]
      split
      · exact bzero_contents _ hy.1
      · rfl

/-- A sweep writes unmarked slots of the block, which nobody has a claim on. -/
theorem sweep_headed {rlist : Nat → List Nat} {rest : List Nat} (hacc : Accounts s)
    (hs : Headed vtable s) (hrlist : (s.kinds PRECISE).ok_reclaim_list = some rlist)
    (hlist : rlist lg = h :: rest) :
    Headed vtable (GC_reclaim_small_nonempty_block h (s.setReclaimList PRECISE lg rest)) := by
  have hq : s.Queued h := ⟨PRECISE, rlist, lg, hrlist, hlist ▸ List.mem_cons_self⟩
  obtain ⟨hdr, hhdr, -⟩ := hacc.queued_block PRECISE rlist lg h hrlist
    (hlist ▸ List.mem_cons_self)
  have hsame := GC_reclaim_small_nonempty_block_spec
    (s := s.setReclaimList PRECISE lg rest) hhdr
  refine hs.of_untouched ?_
  intro x hx
  rw [hsame.allocated] at hx
  have halloc : s.allocated x = true := hx
  refine ⟨halloc, ?_⟩
  have hnot : x ∉ (slots h hdr).filter fun x => !s.marks x := by
    intro hmem
    obtain ⟨hslot, hmark⟩ := List.mem_filter.mp hmem
    have hunclaimed := hacc.queued_slot x ((mem_slots.mp hslot).1 ▸ hq) (by simpa using hmark)
    rw [hunclaimed.1] at halloc
    cases halloc
  have hhdr' : (s.setReclaimList PRECISE lg rest).heap.HDR h = some hdr := hhdr
  simp only [GC_reclaim_small_nonempty_block, hhdr']
  show (GC_reclaim_generic _ _ h hdr _ _).1.1.contents x = _
  unfold GC_reclaim_generic
  simp only
  split
  · exact foldl_putFree_contents true hnot _
  · exact foldl_putFree_contents false hnot _

/-- The slots of a new block are nobody's. -/
theorem GC_new_hblk_headed (hacc : Accounts s) (hs : Headed vtable s) (hlg : lg ≠ 0)
    (hfits : fits s.heap lg h = true)
    (hlist : (s.kinds PRECISE).ok_reclaim_list.isSome = true) :
    Headed vtable (GC_new_hblk lg PRECISE (some h) s) := by
  obtain ⟨-, -, hunclaimed⟩ := setup_header_accounts hacc hlg hfits hacc.base.n_kinds
    fun _ => hlist
  refine hs.of_untouched ?_
  intro x hx
  have halloc : s.allocated x = true := hx
  refine ⟨halloc, ?_⟩
  have hnot : x ∉ slots h (newHdr PRECISE lg (s.kinds PRECISE)) := by
    intro hmem
    have hpage := (mem_slots.mp hmem).1
    rw [(hunclaimed x hpage).1] at halloc
    cases halloc
  exact foldl_putFree_contents (s.kinds PRECISE).ok_init hnot _

theorem takeFree_headed {array gran : Nat} {clearLink : Bool} {x : Obj} (hacc : Accounts s)
    (hs : Headed vtable s) (htake : takeFree array gran clearLink s = some (t, x)) :
    Headed vtable t := by
  obtain ⟨rest, hlist, hsame⟩ := takeFree_spec htake
  have hfree := (hacc.free_slot array gran x (hlist ▸ List.mem_cons_self)).1
  refine hs.of_untouched ?_
  intro y hy
  rw [hsame.allocated] at hy
  have halloc : s.allocated y = true := hy
  refine ⟨halloc, ?_⟩
  have hne : y ≠ x := by
    rintro rfl
    rw [hfree] at halloc
    cases halloc
  simp only [takeFree, hlist, Option.some.injEq, Prod.mk.injEq] at htake
  obtain ⟨rfl, -⟩ := htake
  split
  · exact setLink_contents _ _ hne
  · rfl

/-- A large object is nobody's either when it is cleared. -/
theorem genericMallocLarge_headed (hacc : Accounts s) (hs : Headed vtable s) (hlg : lg ≠ 0)
    (hfits : fits s.heap lg h = true) (hlarge : SMALL_OBJ lg = false) :
    Headed vtable (genericMallocLarge lg PRECISE (some h) s).1 := by
  obtain ⟨-, -, hunclaimed⟩ := setup_header_accounts hacc hlg hfits hacc.base.n_kinds
    fun hsmall => by rw [hlarge] at hsmall; cases hsmall
  have hbooks := genericMallocLarge_books lg PRECISE h s
  refine hs.of_untouched ?_
  intro x hx
  rw [hbooks.allocated] at hx
  have halloc : s.allocated x = true := hx
  refine ⟨halloc, ?_⟩
  have hne : x ≠ ⟨h, 0⟩ := by
    rintro rfl
    rw [(hunclaimed ⟨h, 0⟩ rfl).1] at halloc
    cases halloc
  simp only [genericMallocLarge]
  split
  · exact bzero_contents _ hne
  · rfl

/-- What the steps of an allocation keep. -/
theorem headed_rules (hlg : lg ≠ 0) :
    AllocRules PRECISE lg (fun s => PreciseOnly s ∧ Headed vtable s) LoosePrecise where
  newList := fun s hs hnone => ⟨(preciseOnly_rules hlg).newList s hs.1 hnone, hs.2⟩
  sweep := fun _ _ _ _ hs hrlist hlist =>
    ⟨sweep_precise hs.1 hrlist hlist, sweep_headed hs.1.accounts hs.2 hrlist hlist⟩
  newBlock := fun _ _ hs hsmall hfits hlist =>
    ⟨GC_new_hblk_precise hs.1 hlg hsmall hfits hlist,
      GC_new_hblk_headed hs.1.accounts hs.2 hlg hfits hlist⟩
  take := fun _ _ _ _ _ hs htake =>
    ⟨⟨(takeFree_precise hs.1 htake).1, takeFree_headed hs.1.accounts hs.2 htake⟩,
      (takeFree_precise hs.1 htake).2⟩
  large := fun s h hs hlarge hfits =>
    ⟨⟨((preciseOnly_rules hlg).large s h hs.1 hlarge hfits).1,
      genericMallocLarge_headed hs.1.accounts hs.2 hlg hfits hlarge⟩,
      ((preciseOnly_rules hlg).large s h hs.1 hlarge hfits).2⟩
  mark := fun s x hs hx =>
    ⟨⟨((preciseOnly_rules hlg).mark s x hs.1 hx).1, hs.2⟩,
      ((preciseOnly_rules hlg).mark s x hs.1 hx).2⟩

/-- A new object is constructed at once. -/
theorem newPrecise_headed {page : Option Nat} {c : Contents} (hs : PreciseOnly s)
    (hh : Headed vtable s) (hlg : lg ≠ 0) (hfits : page.all (fits s.heap lg) = true)
    (hc : c.headed vtable = true) :
    PreciseOnly (newPrecise lg page c s) ∧ Headed vtable (newPrecise lg page c s) := by
  have hpre := malloc_preciseOnly hs hlg hfits
  obtain ⟨⟨-, hI⟩, -⟩ := Allocator.run_rule .GC_malloc_precise (headed_rules hlg) ⟨hs, hh⟩ hfits
  have hrun : Allocator.run .GC_malloc_precise lg page s = GC_malloc_precise lg page s := rfl
  unfold malloc at hpre
  rw [hrun] at hpre hI
  unfold newPrecise
  split
  · rename_i u heq
    simp only [heq] at hpre hI
    exact ⟨hpre, hI⟩
  · rename_i u x heq
    simp only [heq] at hpre hI
    refine ⟨SameBooks.preciseOnly (s := u.given .GC_malloc_precise x)
      ⟨rfl, rfl, rfl, rfl, rfl, rfl, rfl, rfl, rfl⟩ hpre, ?_⟩
    intro y hy
    show vtable ((Function.update u.heap.contents x c y).words.headD 0) = true
    by_cases hyx : y = x
    · subst hyx
      rw [Function.update_self]
      exact hc
    · have hy' : Function.update u.allocated x true y = true := hy
      rw [Function.update_of_ne hyx] at hy' ⊢
      exact hI y hy'

/-- A collection writes objects on free lists only. -/
theorem fullCollection_headed {cs : List Choice} (hs : Accounts s) (hh : Headed vtable s)
    (ht : fullCollection cs s = some t) : Headed vtable t := by
  obtain ⟨m, -, hstart⟩ := Option.bind_eq_some_iff.mp ht
  have hreset : Headed vtable (resetLists (clearFlMarks (afterMark m s))) := by
    refine hh.of_untouched ?_
    intro x hx
    have halloc : s.allocated x = true := (Bool.and_eq_true_iff.mp hx).1
    refine ⟨halloc, ?_⟩
    show (if _ then _ else s.heap.contents x) = s.heap.contents x
    split
    · rename_i hon
      obtain ⟨a, sz, hmem⟩ := mem_of_onFreelist hon
      have hfree := (hs.free_slot a sz x hmem).1
      rw [halloc] at hfree
      cases hfree
    · rfl
  refine reclaimBlocks_induction (K := fun _ => Headed vtable) ?_ hreset hstart
  intro h rest u v hu hv
  cases hhdr : u.heap.HDR h with
  | none =>
      simp only [GC_reclaim_block, hhdr] at hv
      cases hv
      exact hu
  | some hdr =>
      rcases GC_reclaim_block_cases hhdr hv with ⟨-, rfl⟩ | ⟨-, rfl | ⟨-, rlist, -, rfl⟩⟩
      · exact hu
      · exact hu
      · exact hu

theorem preciseStep_headed {act : PreciseAction} (hs : PreciseOnly s) (hh : Headed vtable s)
    (ht : preciseStep vtable s act = some t) : PreciseOnly t ∧ Headed vtable t := by
  cases act with
  | new lg page c =>
      simp only [preciseStep] at ht
      split at ht
      · rename_i hok
        cases ht
        exact newPrecise_headed hs hh hok.1 hok.2.1 hok.2.2
      · cases ht
  | write x c =>
      simp only [preciseStep] at ht
      split at ht
      · rename_i hok
        cases ht
        refine ⟨SameBooks.preciseOnly (s := s) ⟨rfl, rfl, rfl, rfl, rfl, rfl, rfl, rfl, rfl⟩ hs, ?_⟩
        intro y hy
        show vtable ((Function.update s.heap.contents x c y).words.headD 0) = true
        by_cases hyx : y = x
        · subst hyx
          rw [Function.update_self]
          exact hok.2
        · rw [Function.update_of_ne hyx]
          exact hh y hy
      · cases ht
  | setRoots roots =>
      cases ht
      exact ⟨SameBooks.preciseOnly (s := s) ⟨rfl, rfl, rfl, rfl, rfl, rfl, rfl, rfl, rfl⟩ hs, hh⟩
  | collect cs =>
      exact ⟨fullCollection_preciseOnly hs ht, fullCollection_headed hs.accounts hh ht⟩

end

/-! ## The calls -/

section

variable {vtable : Nat → Bool} {s : Collector}

/-- A collection under the condition. -/
theorem callsConstructed_of_harmless (hs : PreciseOnly s) (hh : Headed vtable s)
    {act : PreciseAction} (hact : StraysHarmless s act) : CallsConstructed vtable s act := by
  cases act with
  | collect cs =>
      have wf := hs.accounts.base.wf
      intro x hx
      refine Constructed.of_headed hs.accounts hh ?_
      rcases hact with ⟨hno, hact⟩ | hact
      · obtain ⟨hmem, hfollowed, hat⟩ := calls_of_noOverflow wf hno hx
        have hunmarked : x ∉ (clearMarks s.heap s.marks).marked := by
          rcases hfollowed with hno | hunc
          · exact hno
          · exact absurd hunc (hs.not_uncollectable x)
        rw [traced_eq fun _ _ => Heap.edge_of_seenEdge] at hmem
        rcases hact x (hmem.resolve_left hunmarked) with halloc | hmark | hlimit
        · exact halloc
        · exact absurd ((hs.mem_clearMarks_iff x).mpr hmark) hunmarked
        · exact absurd hlimit hat
      · obtain ⟨hmem, hseen⟩ := calls_of_any wf hx
        have hmarked : (clearMarks s.heap s.marks).marked = {y | s.marks y = true} :=
          Set.ext hs.mem_clearMarks_iff
        rw [hmarked] at hmem
        rcases hact x hmem with halloc | ⟨hmark, hacc⟩
        · exact halloc
        · rcases hseen with (hno | hunc) | hseen
          · exact absurd ((hs.mem_clearMarks_iff x).mpr hmark) hno
          · exact absurd hunc (hs.not_uncollectable x)
          · exact absurd hacc hseen
  | _ => trivial

end

/-! ## Two runs -/

def vptr : Nat := 0x400000

def headedObj : Contents := ⟨[vptr], []⟩

def largeRun : List PreciseAction := [.new 129 (some 1) headedObj, .setRoots [HBLKSIZE]]

def largeState : Collector :=
  ((preciseGc (· == vptr) 0).run largeRun).get (by decide +kernel)

def strayRun : List PreciseAction :=
  [.new 128 (some 1) headedObj, .collect (List.replicate 3 ⟨0, none⟩), .setRoots [HBLKSIZE]]

def strayState : Collector :=
  ((preciseGc (· == vptr) 0).run strayRun).get (by decide +kernel)

end Ironclad.Gc
