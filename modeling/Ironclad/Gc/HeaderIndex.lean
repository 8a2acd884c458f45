import Ironclad.Gc.Heap
import Mathlib.Data.List.Sort
import Mathlib.Logic.Function.Basic

/-!
# The index of block headers

The heap as the block allocator sees it: for each page a header, a forwarding count or nothing.
Pages are numbered, a block is named by its first page, and sizes are in bytes. The bottom level
of the index is a table for 1024 pages; which of them exist is a list of keys, in ascending order.

The header of a page holds the size, the kind and the flags. Its links are kept beside it, in
`hb_next` and `hb_prev`. `GC_scratch_alloc` is the environment's: `scratch` says whether each of
the requests to come is granted.
-/

namespace Ironclad.Gc

/-- A header, without its links. `hb_sz` is the size of an object if the block is in use, and of
the block if it is free. -/
structure Hblkhdr where
  hb_sz : Nat
  hb_obj_kind : Nat
  /-- `hb_flags & IGNORE_OFF_PAGE`. -/
  ignore_off_page : Bool
  /-- `hb_flags & FREE_BLK`. -/
  free_blk : Bool
  deriving DecidableEq, Repr

/-- A header that has not been filled in. -/
def Hblkhdr.uninitialized : Hblkhdr := ⟨0, 0, false, false⟩

/-- What the bottom level of the index has for a page. A count of 0 is `nil`. -/
inductive IndexEntry where
  | nil
  | count (n : Nat)
  | hdr (hhdr : Hblkhdr)
  deriving DecidableEq, Repr

/-- A table of one bit for each page, up to its hash. -/
abbrev PageHashTable := Nat → BitVec 64

structure Hblks where
  HDR : Nat → IndexEntry
  /-- The keys of `GC_all_bottom_indices`. -/
  bottom_indices : List Nat
  hb_next : Nat → Option Nat
  hb_prev : Nat → Option Nat
  GC_hblkfreelist : Nat → Option Nat
  GC_free_bytes : Nat → Nat
  GC_large_free_bytes : Nat
  GC_bytes_dropped : Nat
  GC_heapsize : Nat
  /-- First page and size of each section. -/
  GC_heap_sects : List (Nat × Nat)
  GC_old_stack_bl : PageHashTable
  GC_incomplete_stack_bl : PageHashTable
  GC_black_list_spacing : Nat
  /-- The length of the list. -/
  hdr_free_list : Nat
  /-- The sizes in granules that have a map. -/
  GC_obj_map : Nat → Bool
  /-- The counter of completely black listed blocks in `GC_allochblk_nth`. -/
  blacklisted_count : Nat
  scratch : Nat → Bool

namespace Hblks

/-- `OBJ_SZ_TO_BLOCKS`, of a size in bytes. -/
def OBJ_SZ_TO_BLOCKS (sz : Nat) : Nat := (sz + HBLKSIZE - 1) % 2 ^ 64 / HBLKSIZE

def divHBLKSZ (n : Nat) : Nat := n / HBLKSIZE

/-- `(signed_word)n > 0`. -/
def isPositive (n : Nat) : Bool := 0 < n % 2 ^ 64 && n % 2 ^ 64 < 2 ^ 63

def LOG_BOTTOM_SZ : Nat := 10
def BOTTOM_SZ : Nat := 2 ^ LOG_BOTTOM_SZ
def MAX_JUMP : Nat := HBLKSIZE - 1

/-! ## Headers -/

/-- The size in the header of the page. -/
def hb_sz (s : Hblks) (p : Nat) : Nat :=
  match s.HDR p with
  | .hdr hhdr => hhdr.hb_sz
  | _ => 0

/-- There is a header, and it says that the block is free. -/
def HBLK_IS_FREE (s : Hblks) (p : Nat) : Bool :=
  match s.HDR p with
  | .hdr hhdr => hhdr.free_blk
  | _ => false

/-- `SET_HDR`. -/
def SET_HDR (s : Hblks) (p : Nat) (e : IndexEntry) : Hblks :=
  { s with HDR := Function.update s.HDR p e }

/-- The header of the page is changed in place. -/
def mapHdr (s : Hblks) (p : Nat) (f : Hblkhdr → Hblkhdr) : Hblks :=
  match s.HDR p with
  | .hdr hhdr => s.SET_HDR p (.hdr (f hhdr))
  | _ => s

/-- The answer to the next request, and the state in which it has been made. -/
def GC_scratch_alloc (s : Hblks) : Bool × Hblks :=
  (s.scratch 0, { s with scratch := fun n => s.scratch (n + 1) })

/-- `alloc_hdr`. -/
def alloc_hdr (s : Hblks) : Bool × Hblks :=
  if s.hdr_free_list = 0 then s.GC_scratch_alloc
  else (true, { s with hdr_free_list := s.hdr_free_list - 1 })

/-- `get_index`, for the table that the page belongs to. -/
def get_index (s : Hblks) (p : Nat) : Bool × Hblks :=
  let hi := p / BOTTOM_SZ
  if hi ∈ s.bottom_indices then (true, s)
  else
    match s.GC_scratch_alloc with
    | (false, s) => (false, s)
    | (true, s) => (true, { s with bottom_indices := s.bottom_indices.orderedInsert (· ≤ ·) hi })

/-- `GC_install_header`, with whether there is one now. -/
def GC_install_header (s : Hblks) (h : Nat) : Bool × Hblks :=
  match s.get_index h with
  | (false, s) => (false, s)
  | (true, s) =>
      match s.alloc_hdr with
      | (false, s) => (false, s)
      | (true, s) => (true, s.SET_HDR h (.hdr Hblkhdr.uninitialized))

/-- The first loop of `GC_install_counts`. -/
def getIndices (s : Hblks) : List Nat → Bool × Hblks
  | [] => (true, s)
  | hbp :: rest =>
      match s.get_index hbp with
      | (false, s) => (false, s)
      | (true, s) => s.getIndices rest

/-- `GC_install_counts`, for `n` pages. -/
def GC_install_counts (s : Hblks) (h n : Nat) : Bool × Hblks :=
  let everyTable := (List.range ((n + BOTTOM_SZ - 1) / BOTTOM_SZ)).map fun i => h + BOTTOM_SZ * i
  match s.getIndices (everyTable ++ [h + n - 1]) with
  | (false, s) => (false, s)
  | (true, s) =>
      (true, (List.range' 1 (n - 1)).foldl
        (fun s i => s.SET_HDR (h + i) (.count (min i MAX_JUMP))) s)

/-- `GC_remove_header`. -/
def GC_remove_header (s : Hblks) (h : Nat) : Hblks :=
  { s with hdr_free_list := s.hdr_free_list + 1 }.SET_HDR h .nil

/-- `GC_remove_counts`, for `n` pages. -/
def GC_remove_counts (s : Hblks) (h n : Nat) : Hblks :=
  (List.range' 1 (n - 1)).foldl (fun s i => s.SET_HDR (h + i) .nil) s

/-! ## Looking for a block -/

/-- Following the forwarding counts from a page. -/
def forwardedFrom (HDR : Nat → IndexEntry) (p : Nat) : Option Nat :=
  match HDR p with
  | .nil => none
  | .hdr _ => some p
  | .count n => if 0 < n ∧ n ≤ p then forwardedFrom HDR (p - n) else none
termination_by p

/-- The inner loop of `GC_prev_block`: the table `key`, from `j` down. -/
def lastInTable (HDR : Nat → IndexEntry) (key j : Nat) : Option Nat :=
  match HDR (key * BOTTOM_SZ + j) with
  | .hdr _ => some (key * BOTTOM_SZ + j)
  | .nil => if 0 < j then lastInTable HDR key (j - 1) else none
  | .count n => if 0 < n ∧ n ≤ j then lastInTable HDR key (j - n) else none
termination_by j

/-- `GC_prev_block`: the last block that starts at `h` or in front of it. -/
def GC_prev_block (s : Hblks) (h : Nat) : Option Nat :=
  let hi := h / BOTTOM_SZ
  let below := (s.bottom_indices.filter (· < hi)).reverse
  let rest := below.findSome? fun key => lastInTable s.HDR key (BOTTOM_SZ - 1)
  if hi ∈ s.bottom_indices then (lastInTable s.HDR hi (h % BOTTOM_SZ)).or rest else rest

/-- `GC_free_block_ending_at`. -/
def GC_free_block_ending_at (s : Hblks) (h : Nat) : Option Nat :=
  match forwardedFrom s.HDR (h - 1) with
  | some p => if s.HBLK_IS_FREE p then some p else none
  | none =>
      match s.GC_prev_block (h - 1) with
      | none => none
      | some p => if s.HBLK_IS_FREE p ∧ p + divHBLKSZ (s.hb_sz p) = h then some p else none

/-! ## Going through the blocks -/

/-- The inner loop of `GC_apply_to_all_blocks`: the blocks in use in the table `key`, from `j`
down. -/
def usedInTable (HDR : Nat → IndexEntry) (key j : Nat) : List Nat :=
  match HDR (key * BOTTOM_SZ + j) with
  | .hdr hhdr =>
      (if hhdr.free_blk then [] else [key * BOTTOM_SZ + j]) ++
        if 0 < j then usedInTable HDR key (j - 1) else []
  | .nil => if 0 < j then usedInTable HDR key (j - 1) else []
  | .count n => if 0 < n ∧ n ≤ j then usedInTable HDR key (j - n) else []
termination_by j

/-- The blocks that `GC_apply_to_all_blocks` applies the function to, in this order. -/
def GC_apply_to_all_blocks (s : Hblks) : List Nat :=
  s.bottom_indices.flatMap fun key => usedInTable s.HDR key (BOTTOM_SZ - 1)

/-- The inner loop of `GC_next_used_block`: the table `key`, from `j` up. A free block of no pages
would hold it up. -/
def nextInTable (HDR : Nat → IndexEntry) (key j : Nat) : Option Nat :=
  if j < BOTTOM_SZ then
    match HDR (key * BOTTOM_SZ + j) with
    | .hdr hhdr =>
        if hhdr.free_blk then
          if 0 < divHBLKSZ hhdr.hb_sz then nextInTable HDR key (j + divHBLKSZ hhdr.hb_sz) else none
        else some (key * BOTTOM_SZ + j)
    | _ => nextInTable HDR key (j + 1)
  else none
termination_by BOTTOM_SZ - j

/-- `GC_next_used_block`: the first block in use that starts at `h` or behind it. -/
def GC_next_used_block (s : Hblks) (h : Nat) : Option Nat :=
  let hi := h / BOTTOM_SZ
  let above := s.bottom_indices.filter (hi < ·)
  let rest := above.findSome? fun key => nextInTable s.HDR key 0
  if hi ∈ s.bottom_indices then (nextInTable s.HDR hi (h % BOTTOM_SZ)).or rest else rest

end Hblks

end Ironclad.Gc
