import Ironclad.Gc.BlackList
import Ironclad.Logic.Links

/-!
# Free blocks

The free lists of whole blocks, by their number of pages, and the two ends of the life of a block:
`GC_allochblk` looks for a free block on the lists, splits it and sets up the header, and
`GC_freehblk` puts a block back and merges it with its free neighbours.

Running through a list is bounded by fuel; `none` is running out. `GC_freehblk` and
`GC_add_to_heap` may abort, which is `none` as well.
-/

namespace Ironclad.Gc

namespace Hblks

open Ironclad.Logic

def UNIQUE_THRESHOLD : Nat := 32
def HUGE_THRESHOLD : Nat := 256
def FL_COMPRESSION : Nat := 8
def N_HBLK_FLS : Nat := (HUGE_THRESHOLD - UNIQUE_THRESHOLD) / FL_COMPRESSION + UNIQUE_THRESHOLD
def MAX_BLACK_LIST_ALLOC : Nat := 2 * HBLKSIZE
def MAX_HEAP_SECTS : Nat := 1024

/-- `GC_hblk_fl_from_blocks`: the index of the list for blocks of so many pages. -/
def GC_hblk_fl_from_blocks (blocks_needed : Nat) : Nat :=
  if blocks_needed ≤ UNIQUE_THRESHOLD then blocks_needed
  else if HUGE_THRESHOLD ≤ blocks_needed then N_HBLK_FLS
  else (blocks_needed - UNIQUE_THRESHOLD) / FL_COMPRESSION + UNIQUE_THRESHOLD

/-- The list for the block's size. -/
def flOf (s : Hblks) (h : Nat) : Nat := GC_hblk_fl_from_blocks (divHBLKSZ (s.hb_sz h))

/-! ## The lists -/

/-- `GC_remove_from_fl`, from the list `index`. -/
def GC_remove_from_fl (s : Hblks) (h index : Nat) : Hblks :=
  { s with
    GC_hblkfreelist := unlinkHead s.GC_hblkfreelist s.hb_next s.hb_prev index h
    hb_next := unlinkNext s.hb_next s.hb_prev h
    hb_prev := unlinkPrev s.hb_next s.hb_prev h
    GC_free_bytes :=
      Function.update s.GC_free_bytes index (s.GC_free_bytes index - s.hb_sz h) }

/-- `GC_add_to_fl`. -/
def GC_add_to_fl (s : Hblks) (h : Nat) : Hblks :=
  let index := s.flOf h
  let second := s.GC_hblkfreelist index
  { s with
    GC_hblkfreelist := Function.update s.GC_hblkfreelist index (some h)
    GC_free_bytes :=
      Function.update s.GC_free_bytes index (s.GC_free_bytes index + s.hb_sz h)
    hb_next := Function.update s.hb_next h second
    hb_prev := pushPrev s.hb_prev h second }.mapHdr h
      fun hhdr => { hhdr with free_blk := true }

/-- `GC_get_first_part`: the first `bytes` of a free block are taken, the rest is a free block. -/
def GC_get_first_part (s : Hblks) (h bytes index : Nat) : Option Nat × Hblks :=
  let total_size := s.hb_sz h
  let s := s.GC_remove_from_fl h index
  if total_size = bytes then (some h, s)
  else
    let rest := h + divHBLKSZ bytes
    match s.GC_install_header rest with
    | (false, s) => (none, s)
    | (true, s) =>
        let s := s.mapHdr rest fun hhdr =>
          { hhdr with hb_sz := total_size - bytes, ignore_off_page := false, free_blk := false }
        (some h, s.GC_add_to_fl rest)

/-- `GC_split_block`: the free block `h` ends at `n`, which takes its place on the list. -/
def GC_split_block (s : Hblks) (h n index : Nat) : Hblks :=
  let total_size := s.hb_sz h
  let h_size := (n - h) * HBLKSIZE
  let s :=
    { s with
      GC_hblkfreelist := replaceHead s.GC_hblkfreelist s.hb_prev index h n
      hb_next := replaceNext s.hb_next s.hb_prev h n
      hb_prev := replacePrev s.hb_next s.hb_prev h n
      GC_free_bytes := Function.update s.GC_free_bytes index (s.GC_free_bytes index - h_size) }
  let s := s.mapHdr n fun nhdr =>
    { nhdr with hb_sz := total_size - h_size, ignore_off_page := false, free_blk := false }
  let s := s.mapHdr h fun hhdr => { hhdr with hb_sz := h_size }
  (s.GC_add_to_fl h).mapHdr n fun nhdr => { nhdr with free_blk := true }

/-! ## Allocation -/

/-- The settings and the state of the collector that the allocator asks for. -/
structure Heuristics where
  GC_find_leak : Bool
  /-- More of the heap should be used, even if that takes splitting. -/
  useEntireHeap : Bool
  /-- `GC_finalizer_bytes_freed > (GC_heapsize >> 4)`. -/
  finalizersFreeing : Bool
  GC_large_allocd_bytes : Nat
  GC_max_large_allocd_bytes : Nat

/-- `GC_add_map_entry`. -/
def GC_add_map_entry (s : Hblks) (granules : Nat) : Bool × Hblks :=
  let granules := if MAXOBJGRANULES < granules then 0 else granules
  if s.GC_obj_map granules then (true, s)
  else
    match s.GC_scratch_alloc with
    | (false, s) => (false, s)
    | (true, s) => (true, { s with GC_obj_map := Function.update s.GC_obj_map granules true })

/-- `setup_header`, without the descriptor. -/
def setup_header (s : Hblks) (h sz kind : Nat) (flags : Bool) : Bool × Hblks :=
  let s := s.mapHdr h fun _ => ⟨sz, kind, flags, false⟩
  match s.GC_add_map_entry (sz / GRANULE_BYTES) with
  | (true, s) => (true, s)
  | (false, s) => (false, s.mapHdr h fun hhdr => { hhdr with hb_sz := HBLKSIZE })

/-- The search in a block for a place that is not black listed: from `lasthbp` on, up to
`search_end`. -/
def skipBlackListed (s : Hblks) (eff_size_needed search_end : Nat) : Nat → Nat → Nat
  | 0, lasthbp => lasthbp
  | fuel + 1, lasthbp =>
      if lasthbp ≤ search_end then
        match s.GC_is_black_listed lasthbp eff_size_needed with
        | none => lasthbp
        | some thishbp => s.skipBlackListed eff_size_needed search_end fuel thishbp
      else lasthbp

/-- A block that is too small, or that is not to be split for this. -/
def passesOver (s : Hblks) (hbp size_needed : Nat) (may_split : Bool) : Bool :=
  let size_avail := s.hb_sz hbp
  if size_avail < size_needed then true
  else if size_avail ≠ size_needed then
    if !may_split then true
    else
      match s.hb_next hbp with
      | none => false
      | some thishbp =>
          -- the next block is obviously better
          s.hb_sz thishbp < size_avail && size_needed ≤ s.hb_sz thishbp &&
            (s.GC_is_black_listed thishbp size_needed).isNone
  else false

/-- A completely black listed block is dropped: every page becomes a block of its own in use. -/
def dropBlock (s : Hblks) (hbp n : Nat) : Hblks :=
  let total_size := s.hb_sz hbp
  let s :=
    { s with
      GC_large_free_bytes := s.GC_large_free_bytes - total_size
      GC_bytes_dropped := s.GC_bytes_dropped + total_size }.GC_remove_from_fl hbp n
  (List.range (divHBLKSZ total_size)).foldl
    (fun s i =>
      match if i = 0 then (true, s) else s.GC_install_header (hbp + i) with
      | (false, s) => s
      | (true, s) => (s.setup_header (hbp + i) HBLKSIZE PTRFREE false).2) s

/-- What becomes of a block that is not passed over. -/
inductive Choice where
  /-- Allocate from it. -/
  | take (hbp : Nat)
  /-- Go on with the next block behind it. -/
  | next (hbp : Nat)
  /-- The first block has been dropped; start again. -/
  | restart

/-- The block is considered in the light of the black list, for a request of `size_needed`. -/
def consider (s : Hblks) (e : Heuristics) (size_needed kind : Nat) (flags : Bool)
    (n hbp : Nat) : Choice × Hblks :=
  let size_avail := s.hb_sz hbp
  if IS_UNCOLLECTABLE kind = false ∧ (kind ≠ PTRFREE ∨ MAX_BLACK_LIST_ALLOC < size_needed) then
    let eff_size_needed := if flags then HBLKSIZE else size_needed
    let search_end := hbp + divHBLKSZ (size_avail - size_needed)
    let thishbp := s.skipBlackListed eff_size_needed search_end (divHBLKSZ size_avail + 1) hbp
    if thishbp ≤ search_end then
      if thishbp ≠ hbp then
        match s.GC_install_header thishbp with
        | (false, s) => (.take hbp, s)
        | (true, s) => (.take thishbp, s.GC_split_block hbp thishbp n)
      else (.take hbp, s)
    else if s.GC_black_list_spacing < size_needed
        ∧ s.GC_black_list_spacing < size_avail - size_needed then
      -- anything else risks unreasonable heap growth
      (.take hbp, s)
    else if hbp + divHBLKSZ size_avail = thishbp ∧ size_needed = HBLKSIZE
        ∧ e.GC_find_leak = false then
      let s := { s with blacklisted_count := s.blacklisted_count + 1 }
      if s.blacklisted_count % 4 = 0 then
        let prev := s.hb_prev hbp
        let s := s.dropBlock hbp n
        match prev with
        | none => (.restart, s)
        | some hbp => (.next hbp, s)
      else (.next hbp, s)
    else (.next hbp, s)
  else (.take hbp, s)

/-- The search of `GC_allochblk_nth`, from `hbp` on. -/
def searchList (e : Heuristics) (size_needed kind : Nat) (flags : Bool) (n : Nat)
    (may_split : Bool) : Nat → Hblks → Option Nat → Option (Option Nat × Hblks)
  | 0, _, _ => none
  | _ + 1, s, none => some (none, s)
  | fuel + 1, s, some hbp =>
      if s.passesOver hbp size_needed may_split then
        searchList e size_needed kind flags n may_split fuel s (s.hb_next hbp)
      else
        match s.consider e size_needed kind flags n hbp with
        | (.take hbp, s) => some (s.GC_get_first_part hbp size_needed n)
        | (.next hbp, s) =>
            searchList e size_needed kind flags n may_split fuel s (s.hb_next hbp)
        | (.restart, s) =>
            searchList e size_needed kind flags n may_split fuel s (s.GC_hblkfreelist n)

/-- `GC_allochblk_nth`. -/
def GC_allochblk_nth (e : Heuristics) (fuel : Nat) (s : Hblks) (sz kind : Nat) (flags : Bool)
    (n : Nat) (may_split : Bool) : Option (Option Nat × Hblks) :=
  let size_needed := HBLKSIZE * OBJ_SZ_TO_BLOCKS sz
  match searchList e size_needed kind flags n may_split fuel s (s.GC_hblkfreelist n) with
  | none => none
  | some (none, s) => some (none, s)
  | some (some hbp, s) =>
      match s.GC_install_counts hbp (divHBLKSZ size_needed) with
      | (false, s) => some (none, s)
      | (true, s) =>
          match s.setup_header hbp sz kind flags with
          | (false, s) => some (none, s.GC_remove_counts hbp (divHBLKSZ size_needed))
          | (true, s) =>
              some (some hbp,
                { s with GC_large_free_bytes := s.GC_large_free_bytes - size_needed })

/-- The loop of `GC_enough_large_bytes_left`. -/
def enoughFrom (s : Hblks) (max : Nat) : Nat → Nat → Nat
  | 0, _ => 0
  | n + 1, bytes =>
      let bytes := bytes + s.GC_free_bytes n
      if max ≤ bytes then n else s.enoughFrom max n bytes

/-- `GC_enough_large_bytes_left`. -/
def GC_enough_large_bytes_left (s : Hblks) (e : Heuristics) : Nat :=
  s.enoughFrom e.GC_max_large_allocd_bytes (N_HBLK_FLS + 1) e.GC_large_allocd_bytes

/-- The last list whose blocks may be split. -/
def splitLimit (s : Hblks) (e : Heuristics) : Nat :=
  if e.useEntireHeap then N_HBLK_FLS
  else if e.finalizersFreeing then 0
  else s.GC_enough_large_bytes_left e

/-- The loop of `GC_allochblk` over the lists. -/
def tryLists (e : Heuristics) (fuel sz kind : Nat) (flags : Bool) :
    List Nat → Hblks → Option (Option Nat × Hblks)
  | [], s => some (none, s)
  | i :: rest, s =>
      match s.GC_allochblk_nth e fuel sz kind flags i true with
      | none => none
      | some (some h, s) => some (some h, s)
      | some (none, s) => tryLists e fuel sz kind flags rest s

/-- `GC_allochblk`, for a size that is a multiple of a granule. -/
def GC_allochblk (e : Heuristics) (fuel : Nat) (s : Hblks) (sz kind : Nat) (flags : Bool) :
    Option (Option Nat × Hblks) :=
  let blocks := OBJ_SZ_TO_BLOCKS sz
  if 2 ^ 63 ≤ blocks * HBLKSIZE then some (none, s)
  else
    let start_list := GC_hblk_fl_from_blocks blocks
    match s.GC_allochblk_nth e fuel sz kind flags start_list false with
    | none => none
    | some (some h, s) => some (some h, s)
    | some (none, s) =>
        let start_list := if start_list < UNIQUE_THRESHOLD then start_list + 1 else start_list
        tryLists e fuel sz kind flags
          (List.range' start_list (s.splitLimit e + 1 - start_list)) s

/-! ## Freeing -/

/-- `GC_freehblk`. -/
def GC_freehblk (s : Hblks) (hbp : Nat) : Option Hblks :=
  match s.HDR hbp with
  | .hdr hhdr =>
      let size := HBLKSIZE * OBJ_SZ_TO_BLOCKS hhdr.hb_sz
      if isPositive size = false then none
      else
        let s := s.GC_remove_counts hbp (divHBLKSZ size)
        let s := s.mapHdr hbp fun hhdr => { hhdr with hb_sz := size }
        if s.HBLK_IS_FREE hbp then none
        else
          let s := s.mapHdr hbp fun hhdr => { hhdr with free_blk := true }
          let next := hbp + divHBLKSZ size
          let prev := s.GC_free_block_ending_at hbp
          let s :=
            if s.HBLK_IS_FREE next ∧ isPositive (s.hb_sz hbp + s.hb_sz next) = true then
              let nextSize := s.hb_sz next
              ((s.GC_remove_from_fl next (s.flOf next)).mapHdr hbp fun hhdr =>
                { hhdr with hb_sz := hhdr.hb_sz + nextSize }).GC_remove_header next
            else s
          let merge (prev : Nat) : Hblks :=
            let hbpSize := s.hb_sz hbp
            ((s.GC_remove_from_fl prev (s.flOf prev)).mapHdr prev fun prevhdr =>
              { prevhdr with hb_sz := prevhdr.hb_sz + hbpSize }).GC_remove_header hbp
          let r :=
            match prev with
            | none => (hbp, s)
            | some prev =>
                if isPositive (s.hb_sz hbp + s.hb_sz prev) = true then (prev, merge prev)
                else (hbp, s)
          some ({ r.2 with
            GC_large_free_bytes := r.2.GC_large_free_bytes + size }.GC_add_to_fl r.1)
  | _ => none

/-- `GC_add_to_heap`. -/
def GC_add_to_heap (s : Hblks) (p bytes : Nat) : Option Hblks :=
  if MAX_HEAP_SECTS ≤ s.GC_heap_sects.length then none
  else
    -- memory near address zero cannot be handled
    let skipped := 2 - p
    if bytes ≤ skipped * HBLKSIZE ∧ 0 < skipped then some s
    else
      let p := p + skipped
      let bytes := bytes - skipped * HBLKSIZE
      let wrapped := 2 ^ 64 ≤ p * HBLKSIZE + bytes
      if wrapped ∧ bytes = HBLKSIZE then some s
      else
        let bytes := if wrapped then bytes - HBLKSIZE else bytes
        match s.GC_install_header p with
        | (false, s) => some s
        | (true, s) =>
            let s := { s with GC_heap_sects := s.GC_heap_sects ++ [(p, bytes)] }.mapHdr p
              fun phdr => { phdr with hb_sz := bytes, ignore_off_page := false, free_blk := false }
            (s.GC_freehblk p).map fun s => { s with GC_heapsize := s.GC_heapsize + bytes }

end Hblks

end Ironclad.Gc
