import Mathlib.Algebra.Ring.Nat
import Mathlib.Data.List.MinMax

/-!
# Kinds, blocks and addresses of the collector

The object kinds and their table, the headers of the heap blocks, and how an address
is resolved to the object it points into. Sizes of objects are in granules of 16
bytes; blocks are named by the number of their first page.

The configuration is the bundled one: `ATOMIC_UNCOLLECTABLE` and
`ALL_INTERIOR_POINTERS` are defined, `PARALLEL_MARK` is not.
-/

namespace Ironclad.Gc

/-! ## Kinds -/

def PTRFREE : Nat := 0
def NORMAL : Nat := 1
def UNCOLLECTABLE : Nat := 2
def PRECISE : Nat := 3
def AUNCOLLECTABLE : Nat := 4

/-- `((k) & ~1) == UNCOLLECTABLE`. -/
def IS_UNCOLLECTABLE (k : Nat) : Bool := 2 * (k / 2) == UNCOLLECTABLE

def GC_DS_TAG_BITS : Nat := 3
def GC_DS_LENGTH : Nat := 0
def GC_DS_PRECISE : Nat := 5

/-- `descr & GC_DS_TAGS`. -/
def dsTag (descr : Nat) : Nat := descr % 2 ^ GC_DS_TAG_BITS

/-- An entry of the table of kinds. A free list array is named by a number. The array
of reclaim lists, one list of blocks for each size, is allocated on first use. -/
structure ObjKind where
  ok_freelist : Nat
  ok_reclaim_list : Option (Nat → List Nat)
  ok_descriptor : Nat
  ok_relocate_descr : Bool
  ok_init : Bool

def GC_aobjfreelist : Nat := 0
def GC_objfreelist : Nat := 1
def GC_uobjfreelist : Nat := 2
def GC_pobjfreelist : Nat := 3
def GC_auobjfreelist : Nat := 4

def ALIGNMENT : Nat := 8

/-- `GC_obj_kinds`, with the descriptor of `NORMAL` as `GC_init` adjusts it. -/
def GC_obj_kinds : Nat → ObjKind
  | 0 => ⟨GC_aobjfreelist, none, GC_DS_LENGTH, false, false⟩
  | 1 => ⟨GC_objfreelist, none, 2 ^ 64 - ALIGNMENT, true, true⟩
  | 2 => ⟨GC_uobjfreelist, none, GC_DS_LENGTH, true, true⟩
  | 3 => ⟨GC_pobjfreelist, none, GC_DS_PRECISE, false, true⟩
  | 4 => ⟨GC_auobjfreelist, none, GC_DS_LENGTH, false, false⟩
  | _ => ⟨0, none, 0, false, false⟩

def GC_N_KINDS_INITIAL_VALUE : Nat := 4

def MAXOBJKINDS : Nat := 16

/-! ## Blocks -/

def GRANULE_BYTES : Nat := 16
def HBLKSIZE : Nat := 4096
def MAXOBJGRANULES : Nat := 128

/-- The header of a block. -/
structure Hdr where
  hb_obj_kind : Nat
  hb_sz : Nat
  hb_descr : Nat
  deriving DecidableEq, Repr

/-- `HBLK_OBJS`. -/
def HBLK_OBJS (sz : Nat) : Nat := HBLKSIZE / (sz * GRANULE_BYTES)

/-- `OBJ_SZ_TO_BLOCKS`. -/
def OBJ_SZ_TO_BLOCKS (sz : Nat) : Nat := (sz * GRANULE_BYTES + HBLKSIZE - 1) / HBLKSIZE

theorem OBJ_SZ_TO_BLOCKS_pos {sz : Nat} (hsz : 0 < sz) : 0 < OBJ_SZ_TO_BLOCKS sz := by
  unfold OBJ_SZ_TO_BLOCKS GRANULE_BYTES HBLKSIZE
  omega

namespace Hdr

def isLarge (hdr : Hdr) : Bool := MAXOBJGRANULES < hdr.hb_sz

/-- The number of objects in the block. -/
def objs (hdr : Hdr) : Nat := if hdr.isLarge then 1 else HBLK_OBJS hdr.hb_sz

/-- The slot of the block `h` that an address points into. The whole first page of a large
object counts as part of it. -/
def slotAt (hdr : Hdr) (h addr : Nat) : Nat :=
  if hdr.isLarge && addr / HBLKSIZE == h then 0
  else (addr - h * HBLKSIZE) / (hdr.hb_sz * GRANULE_BYTES)

end Hdr

/-- An object: its block, and its position in the block. -/
structure Obj where
  page : Nat
  slot : Nat
  deriving DecidableEq, Repr

/-- What an object refers to: the words that the conservative scan considers, and the
addresses that the `mark()` of a precise allocation passes to
`ironclad_precise_mark`. -/
structure Contents where
  words : List Nat
  markAddrs : List Nat
  deriving DecidableEq, Repr

/-- The heap, without the mark bits. -/
structure Heap where
  /-- The first pages of the blocks in use. -/
  hblks : List Nat
  HDR : Nat → Option Hdr
  contents : Obj → Contents
  roots : List Nat

abbrev Marks := Obj → Bool

namespace Heap

variable (heap : Heap)

/-- `x` is an object slot of a block in use. -/
def IsObj (x : Obj) : Prop := ∃ hdr, heap.HDR x.page = some hdr ∧ x.slot < hdr.objs

/-- The block that the page belongs to. -/
def blockOf (page : Nat) : Option Nat :=
  heap.hblks.find? fun h =>
    match heap.HDR h with
    | some hdr => h ≤ page && page < h + OBJ_SZ_TO_BLOCKS hdr.hb_sz
    | none => false

/-- The object that an address points into, if any. -/
def base (addr : Nat) : Option Obj :=
  (heap.blockOf (addr / HBLKSIZE)).bind fun h =>
    (heap.HDR h).bind fun hdr =>
      if hdr.slotAt h addr < hdr.objs then some ⟨h, hdr.slotAt h addr⟩ else none

/-- The address of an object. -/
def addrOf (x : Obj) : Nat :=
  match heap.HDR x.page with
  | some hdr => x.page * HBLKSIZE + x.slot * (hdr.hb_sz * GRANULE_BYTES)
  | none => 0

/-- The addresses that an object with the descriptor `descr` is traced from. -/
def scan (descr : Nat) (x : Obj) : List Nat :=
  if dsTag descr = GC_DS_PRECISE then (heap.contents x).markAddrs else (heap.contents x).words

end Heap

/-- `hb_n_marks`. -/
def nMarks (marks : Marks) (h : Nat) (hdr : Hdr) : Nat :=
  (List.range hdr.objs).countP fun i => marks ⟨h, i⟩

theorem isObj_of_base {heap : Heap} {addr : Nat} {x : Obj} (h : heap.base addr = some x) :
    heap.IsObj x := by
  obtain ⟨b, -, h⟩ := Option.bind_eq_some_iff.mp h
  obtain ⟨hdr, hhdr, h⟩ := Option.bind_eq_some_iff.mp h
  split at h
  · rename_i hslot
    cases h
    exact ⟨hdr, hhdr, hslot⟩
  · contradiction

end Ironclad.Gc
