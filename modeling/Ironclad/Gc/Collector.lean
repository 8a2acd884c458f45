import Mathlib.Logic.Function.Basic
import Ironclad.Logic.Machine
import Ironclad.Gc.Mark

/-!
# Allocation, reclaiming and collections

The collector with its mutator: the allocators, `GC_free`, `GC_new_kind` and full
collections, over the blocks, the free lists and the reclaim lists.

Requests are in granules. The pages that `GC_allochblk` finds, and whether it finds any,
are choices of the environment; so is when to collect, which an allocation that fails for
lack of memory does before it tries again. The lists of the source are linked through the
objects and the headers; here they are sequences, and only the link words that the scans
may read are kept in the objects.
-/

namespace Ironclad.Gc

/-! ## The state -/

structure Collector where
  heap : Heap
  marks : Marks
  kinds : Nat → ObjKind
  GC_n_kinds : Nat
  /-- The free lists, by array and size. -/
  freelist : Nat → Nat → List Obj
  /-- The number of free list arrays there are. -/
  arrays : Nat
  GC_mark_stack_size : Nat
  GC_mark_stack_limit : Nat
  /-- History: the objects that the mutator was given, did not free, and that no
  collection has found dead. -/
  allocated : Obj → Bool
  /-- History: what `GC_malloc_atomic_uncollectable` returned and was not freed. -/
  pinned : List Obj
  /-- History: the kinds that objects have been allocated from. -/
  used : List Nat

def Heap.empty : Heap := ⟨[], fun _ => none, fun _ => ⟨[], []⟩, []⟩

/-- After `GC_init`, which puts the mark stack in front of the address `limit`. -/
def GC_init (limit : Nat) : Collector where
  heap := Heap.empty
  marks := fun _ => false
  kinds := GC_obj_kinds
  GC_n_kinds := GC_N_KINDS_INITIAL_VALUE
  freelist := fun _ _ => []
  arrays := 5
  GC_mark_stack_size := INITIAL_MARK_STACK_SIZE
  GC_mark_stack_limit := limit
  allocated := fun _ => false
  pinned := []
  used := []

namespace Collector

variable (s : Collector)

/-- The free list `flh` of a kind, for objects of size `gran`. -/
def flh (kind gran : Nat) : List Obj := s.freelist (s.kinds kind).ok_freelist gran

def setFreelist (array gran : Nat) (list : List Obj) : Collector :=
  { s with
    freelist := Function.update s.freelist array (Function.update (s.freelist array) gran list) }

def setReclaimList (kind gran : Nat) (blocks : List Nat) : Collector :=
  { s with
    kinds := Function.update s.kinds kind
      { s.kinds kind with
        ok_reclaim_list :=
          (s.kinds kind).ok_reclaim_list.map fun rlist => Function.update rlist gran blocks } }

end Collector

/-! ## Blocks -/

/-- `GC_set_hdr_marks`. -/
def GC_set_hdr_marks (marks : Marks) (h : Nat) (hdr : Hdr) : Marks := fun x =>
  if x.page = h ∧ x.slot < hdr.objs then true else marks x

/-- `GC_clear_hdr_marks`. -/
def GC_clear_hdr_marks (marks : Marks) (h : Nat) : Marks := fun x =>
  if x.page = h then false else marks x

/-- The pages from `h` on are free, for a block with objects of size `sz`. -/
def fits (heap : Heap) (sz h : Nat) : Bool :=
  h ≠ 0 && heap.hblks.all fun b =>
    match heap.HDR b with
    | some hdr => b + OBJ_SZ_TO_BLOCKS hdr.hb_sz ≤ h || h + OBJ_SZ_TO_BLOCKS sz ≤ b
    | none => true

/-- The header that `setup_header` fills in. -/
def newHdr (kind sz : Nat) (ok : ObjKind) : Hdr where
  hb_obj_kind := kind
  hb_sz := sz
  hb_descr :=
    if ok.ok_relocate_descr then (ok.ok_descriptor + sz * GRANULE_BYTES) % 2 ^ 64
    else ok.ok_descriptor

/-- `setup_header`, for a block that `GC_allochblk` has found. -/
def setup_header (h sz kind : Nat) (s : Collector) : Collector :=
  { s with
    heap :=
      { s.heap with
        hblks := h :: s.heap.hblks
        HDR := Function.update s.heap.HDR h (some (newHdr kind sz (s.kinds kind))) }
    marks := GC_clear_hdr_marks s.marks h }

/-- `GC_freehblk`. -/
def GC_freehblk (h : Nat) (s : Collector) : Collector :=
  { s with
    heap :=
      { s.heap with
        hblks := s.heap.hblks.filter (· ≠ h)
        HDR := Function.update s.heap.HDR h none } }

/-! ## Free lists -/

/-- `obj_link(x) = p`: the link is the first word of the object. -/
def Heap.setLink (heap : Heap) (x : Obj) (p : Nat) : Heap :=
  { heap with
    contents := Function.update heap.contents x
      { heap.contents x with words := p :: (heap.contents x).words.tail } }

/-- An object of zeros. -/
def Heap.bzero (heap : Heap) (x : Obj) : Heap :=
  { heap with contents := Function.update heap.contents x ⟨[], []⟩ }

/-- The address of the first object on a list. -/
def listAddr (heap : Heap) : List Obj → Nat
  | [] => 0
  | y :: _ => heap.addrOf y

/-- Put an object on a list, cleared if `init`. -/
def putFree (init : Bool) (acc : Heap × List Obj) (x : Obj) : Heap × List Obj :=
  let heap := if init then acc.1.bzero x else acc.1
  (heap.setLink x (listAddr heap acc.2), x :: acc.2)

/-- The objects of a block, by address. -/
def slots (h : Nat) (hdr : Hdr) : List Obj := (List.range hdr.objs).map (Obj.mk h)

/-- `GC_build_fl`. -/
def GC_build_fl (heap : Heap) (h : Nat) (hdr : Hdr) (clear : Bool) (list : List Obj) :
    Heap × List Obj :=
  (slots h hdr).foldl (putFree clear) (heap, list)

/-- The unmarked objects of a block go on the list. -/
def reclaimSlots (init : Bool) (heap : Heap) (marks : Marks) (h : Nat) (hdr : Hdr)
    (list : List Obj) : Heap × List Obj :=
  ((slots h hdr).filter fun x => !marks x).foldl (putFree init) (heap, list)

def GC_reclaim_clear (heap : Heap) (marks : Marks) (h : Nat) (hdr : Hdr) (list : List Obj) :
    Heap × List Obj :=
  reclaimSlots true heap marks h hdr list

def GC_reclaim_uninit (heap : Heap) (marks : Marks) (h : Nat) (hdr : Hdr) (list : List Obj) :
    Heap × List Obj :=
  reclaimSlots false heap marks h hdr list

/-- `GC_reclaim_generic`, with the marks it leaves. -/
def GC_reclaim_generic (heap : Heap) (marks : Marks) (h : Nat) (hdr : Hdr) (init : Bool)
    (list : List Obj) : (Heap × List Obj) × Marks :=
  let result :=
    if init then GC_reclaim_clear heap marks h hdr list
    else GC_reclaim_uninit heap marks h hdr list
  (result, if IS_UNCOLLECTABLE hdr.hb_obj_kind then GC_set_hdr_marks marks h hdr else marks)

/-- `GC_reclaim_small_nonempty_block`. -/
def GC_reclaim_small_nonempty_block (h : Nat) (s : Collector) : Collector :=
  match s.heap.HDR h with
  | none => s
  | some hdr =>
      let ok := s.kinds hdr.hb_obj_kind
      let result := GC_reclaim_generic s.heap s.marks h hdr ok.ok_init
        (s.freelist ok.ok_freelist hdr.hb_sz)
      { s with heap := result.1.1, marks := result.2 }.setFreelist ok.ok_freelist hdr.hb_sz
        result.1.2

/-- The loop of `GC_continue_reclaim`, over the blocks on the reclaim list. -/
def continueReclaim (sz kind : Nat) : List Nat → Collector → Collector
  | [], s => s
  | hbp :: rest, s =>
      let s := GC_reclaim_small_nonempty_block hbp (s.setReclaimList kind sz rest)
      if s.flh kind sz ≠ [] then s else continueReclaim sz kind rest s

/-- `GC_continue_reclaim`. -/
def GC_continue_reclaim (sz kind : Nat) (s : Collector) : Collector :=
  match (s.kinds kind).ok_reclaim_list with
  | none => s
  | some rlist => continueReclaim sz kind (rlist sz) s

/-! ## Allocation -/

/-- `GC_new_hblk`, on the page that `GC_allochblk` finds. -/
def GC_new_hblk (gran kind : Nat) (page : Option Nat) (s : Collector) : Collector :=
  match page with
  | none => s
  | some h =>
      let ok := s.kinds kind
      let hdr := newHdr kind gran ok
      let s := setup_header h gran kind s
      let marks := if IS_UNCOLLECTABLE kind then GC_set_hdr_marks s.marks h hdr else s.marks
      let result := GC_build_fl s.heap h hdr ok.ok_init (s.freelist ok.ok_freelist gran)
      { s with heap := result.1, marks := marks }.setFreelist ok.ok_freelist gran result.2

/-- `GC_allocobj`, once around its loop. -/
def GC_allocobj (gran kind : Nat) (page : Option Nat) (s : Collector) : Collector :=
  let s := GC_continue_reclaim gran kind s
  if s.flh kind gran = [] then GC_new_hblk gran kind page s else s

/-- `GC_alloc_reclaim_list`. -/
def GC_alloc_reclaim_list (kind : Nat) (s : Collector) : Collector :=
  { s with
    kinds := Function.update s.kinds kind
      { s.kinds kind with ok_reclaim_list := some fun _ => [] } }

/-- The first object of a free list, if there is one. -/
def takeFree (array gran : Nat) (clearLink : Bool) (s : Collector) : Option (Collector × Obj) :=
  match s.freelist array gran with
  | [] => none
  | op :: rest =>
      let s := s.setFreelist array gran rest
      some (if clearLink then { s with heap := s.heap.setLink op 0 } else s, op)

/-- `SMALL_OBJ`. -/
def SMALL_OBJ (lg : Nat) : Bool := lg ≤ MAXOBJGRANULES

/-- `GC_generic_malloc_inner`, for a small object. -/
def GC_generic_malloc_inner (lg k : Nat) (page : Option Nat) (s : Collector) :
    Collector × Option Obj :=
  let s :=
    if s.flh k lg = [] then
      GC_allocobj lg k page
        (if (s.kinds k).ok_reclaim_list.isNone then GC_alloc_reclaim_list k s else s)
    else s
  match takeFree (s.kinds k).ok_freelist lg true s with
  | some (s, op) => (s, some op)
  | none => (s, none)

/-- `GC_generic_malloc` for a large object. -/
def genericMallocLarge (lg k : Nat) (page : Option Nat) (s : Collector) :
    Collector × Option Obj :=
  match page with
  | none => (s, none)
  | some h =>
      let s := setup_header h lg k s
      (if (s.kinds k).ok_init then { s with heap := s.heap.bzero ⟨h, 0⟩ } else s, some ⟨h, 0⟩)

/-- `GC_generic_malloc`. -/
def GC_generic_malloc (lg k : Nat) (page : Option Nat) (s : Collector) :
    Collector × Option Obj :=
  if SMALL_OBJ lg then GC_generic_malloc_inner lg k page s else genericMallocLarge lg k page s

/-- The common part of the allocators: a small object comes from the allocator's own free
list array when there is one on it. -/
def mallocFrom (array k : Nat) (clearLink : Bool) (lg : Nat) (page : Option Nat) (s : Collector) :
    Collector × Option Obj :=
  match if SMALL_OBJ lg then takeFree array lg clearLink s else none with
  | some (s, op) => (s, some op)
  | none => GC_generic_malloc lg k page s

/-- `set_mark_bit_from_hdr(hhdr, 0)` for a large object. -/
def markLarge (lg : Nat) (r : Collector × Option Obj) : Collector × Option Obj :=
  match r.2 with
  | none => r
  | some op => if SMALL_OBJ lg then r else ({ r.1 with marks := r.1.marks.set op }, r.2)

def GC_malloc_atomic (lg : Nat) (page : Option Nat) (s : Collector) : Collector × Option Obj :=
  mallocFrom GC_aobjfreelist PTRFREE false lg page s

def GC_malloc (lg : Nat) (page : Option Nat) (s : Collector) : Collector × Option Obj :=
  mallocFrom GC_objfreelist NORMAL true lg page s

def GC_malloc_precise (lg : Nat) (page : Option Nat) (s : Collector) : Collector × Option Obj :=
  mallocFrom GC_pobjfreelist PRECISE true lg page s

def GC_malloc_uncollectable (lg : Nat) (page : Option Nat) (s : Collector) :
    Collector × Option Obj :=
  markLarge lg (mallocFrom GC_uobjfreelist UNCOLLECTABLE true lg page s)

def GC_malloc_atomic_uncollectable (lg : Nat) (page : Option Nat) (s : Collector) :
    Collector × Option Obj :=
  markLarge lg (mallocFrom GC_auobjfreelist AUNCOLLECTABLE true lg page s)

/-! ## `GC_free` and `GC_new_kind` -/

def GC_free (x : Obj) (s : Collector) : Collector :=
  match s.heap.HDR x.page with
  | none => s
  | some hdr =>
      if hdr.isLarge then GC_freehblk x.page s
      else
        let ok := s.kinds hdr.hb_obj_kind
        let result := putFree ok.ok_init (s.heap, s.freelist ok.ok_freelist hdr.hb_sz) x
        { s with heap := result.1 }.setFreelist ok.ok_freelist hdr.hb_sz result.2

/-- `GC_new_kind`, with a free list array from `GC_new_free_list`. -/
def GC_new_kind (descr : Nat) (adjust clear : Bool) (s : Collector) : Option (Collector × Nat) :=
  let result := s.GC_n_kinds
  if MAXOBJKINDS < result + 1 then none
  else
    some
      ({ s with
          GC_n_kinds := result + 1
          kinds := Function.update s.kinds result ⟨s.arrays, none, descr, adjust, clear⟩
          arrays := s.arrays + 1 }, result)

/-! ## Collections -/

/-- `x` is on a free list of a kind that satisfies `p`. -/
def onFreelist (s : Collector) (p : ObjKind → Bool) (x : Obj) : Bool :=
  (List.range s.GC_n_kinds).any fun kind =>
    p (s.kinds kind) &&
      (List.range (MAXOBJGRANULES + 1)).any fun sz => decide (x ∈ s.flh kind sz)

/-- `GC_clear_fl_marks`, for all free lists of the kinds in the table. -/
def clearFlMarks (s : Collector) : Collector :=
  { s with marks := fun x => s.marks x && !onFreelist s (fun _ => true) x }

/-- The first part of `GC_start_reclaim`: the free lists and reclaim lists are emptied,
for the kinds in the table that have been used. -/
def resetLists (s : Collector) : Collector :=
  let reset (ok : ObjKind) := ok.ok_reclaim_list.isSome
  { s with
    heap :=
      { s.heap with
        contents := fun x =>
          if onFreelist s (fun ok => reset ok && ok.ok_descriptor != 0) x then
            { s.heap.contents x with words := 0 :: (s.heap.contents x).words.tail }
          else s.heap.contents x }
    freelist := fun array sz =>
      if (List.range s.GC_n_kinds).any fun kind =>
          reset (s.kinds kind) && (s.kinds kind).ok_freelist == array
      then [] else s.freelist array sz
    kinds := fun kind =>
      if kind < s.GC_n_kinds && reset (s.kinds kind) then
        { s.kinds kind with ok_reclaim_list := some fun _ => [] }
      else s.kinds kind }

/-- `GC_block_nearly_full`. -/
def GC_block_nearly_full (marks : Marks) (h : Nat) (hdr : Hdr) : Bool :=
  7 * HBLK_OBJS hdr.hb_sz / 8 < nMarks marks h hdr

/-- `GC_reclaim_block`. A kind without reclaim lists would be a null pointer here. -/
def GC_reclaim_block (h : Nat) (s : Collector) : Option Collector :=
  match s.heap.HDR h with
  | none => some s
  | some hdr =>
      if hdr.isLarge then
        if !s.marks ⟨h, 0⟩ then some (GC_freehblk h s) else some s
      else if nMarks s.marks h hdr = 0 then some (GC_freehblk h s)
      else if !GC_block_nearly_full s.marks h hdr then
        match (s.kinds hdr.hb_obj_kind).ok_reclaim_list with
        | none => none
        | some rlist => some (s.setReclaimList hdr.hb_obj_kind hdr.hb_sz (h :: rlist hdr.hb_sz))
      else some s

/-- `GC_reclaim_block` for one block after the other. -/
def reclaimBlocks : List Nat → Collector → Option Collector
  | [], s => some s
  | h :: rest, s => (GC_reclaim_block h s).bind fun s => reclaimBlocks rest s

/-- `GC_start_reclaim`. -/
def GC_start_reclaim (s : Collector) : Option Collector :=
  let s := resetLists s
  reclaimBlocks s.heap.hblks s

/-- The mark phase of a full collection. -/
def markOf (cs : List Choice) (s : Collector) : Option Marker :=
  markPhase s.heap cs (startMark s.heap s.marks s.GC_mark_stack_size s.GC_mark_stack_limit)

/-- After the mark phase. What is not marked is dead. -/
def afterMark (m : Marker) (s : Collector) : Collector :=
  { s with
    marks := m.marks
    GC_mark_stack_size := m.GC_mark_stack_size
    GC_mark_stack_limit := m.GC_mark_stack_limit
    allocated := fun x => s.allocated x && m.marks x }

/-- A full collection. -/
def fullCollection (cs : List Choice) (s : Collector) : Option Collector :=
  (markOf cs s).bind fun m => GC_start_reclaim (clearFlMarks (afterMark m s))

/-! ## The machine -/

inductive Allocator where
  | GC_malloc
  | GC_malloc_atomic
  | GC_malloc_uncollectable
  | GC_malloc_precise
  | GC_malloc_atomic_uncollectable
  | GC_generic_malloc (k : Nat)
  deriving DecidableEq, Repr

def Allocator.kind : Allocator → Nat
  | .GC_malloc => NORMAL
  | .GC_malloc_atomic => PTRFREE
  | .GC_malloc_uncollectable => UNCOLLECTABLE
  | .GC_malloc_precise => PRECISE
  | .GC_malloc_atomic_uncollectable => AUNCOLLECTABLE
  | .GC_generic_malloc k => k

def Allocator.run : Allocator → Nat → Option Nat → Collector → Collector × Option Obj
  | .GC_malloc => Gc.GC_malloc
  | .GC_malloc_atomic => Gc.GC_malloc_atomic
  | .GC_malloc_uncollectable => Gc.GC_malloc_uncollectable
  | .GC_malloc_precise => Gc.GC_malloc_precise
  | .GC_malloc_atomic_uncollectable => Gc.GC_malloc_atomic_uncollectable
  | .GC_generic_malloc k => fun lg => Gc.GC_generic_malloc lg k

inductive Action where
  /-- A request for `lg` granules, with the page a new block would get. -/
  | malloc (a : Allocator) (lg : Nat) (page : Option Nat)
  | free (x : Obj)
  | newKind (descr : Nat) (adjust clear : Bool)
  /-- The mutator writes an object. -/
  | write (x : Obj) (c : Contents)
  | setRoots (roots : List Nat)
  | collect (cs : List Choice)
  deriving DecidableEq

/-- The mutator gets an object. -/
def Collector.given (s : Collector) (a : Allocator) (x : Obj) : Collector :=
  { s with
    allocated := Function.update s.allocated x true
    pinned := if a = .GC_malloc_atomic_uncollectable then x :: s.pinned else s.pinned
    used := a.kind :: s.used }

/-- The mutator gives an object back. -/
def Collector.forget (s : Collector) (x : Obj) : Collector :=
  { s with
    allocated := Function.update s.allocated x false
    pinned := s.pinned.filter (· ≠ x) }

/-- The kinds that a client may pass to `GC_generic_malloc` are those `GC_new_kind` has
returned and the predefined ones in the table. -/
def Allocator.available (s : Collector) : Allocator → Bool
  | .GC_generic_malloc k => k < s.GC_n_kinds
  | _ => true

def malloc (a : Allocator) (lg : Nat) (page : Option Nat) (s : Collector) : Collector :=
  match a.run lg page s with
  | (s, none) => s
  | (s, some x) => s.given a x

/-- A step. The mutator writes and frees only what it was given. -/
def step (s : Collector) : Action → Option Collector
  | .malloc a lg page =>
      if lg ≠ 0 ∧ a.available s = true ∧ page.all (fits s.heap lg) = true
      then some (malloc a lg page s) else none
  | .free x => if s.allocated x then some ((GC_free x s).forget x) else none
  | .newKind descr adjust clear => (GC_new_kind descr adjust clear s).map Prod.fst
  | .write x c =>
      if s.allocated x then
        some { s with heap := { s.heap with contents := Function.update s.heap.contents x c } }
      else none
  | .setRoots roots => some { s with heap := { s.heap with roots := roots } }
  | .collect cs => fullCollection cs s

/-- The collector and its mutator. -/
def gc (limit : Nat) : Logic.Machine Collector Action := ⟨GC_init limit, step⟩

end Ironclad.Gc
