import Ironclad.Gc.HeaderIndex

/-!
# Black lists

Addresses that look like pointers but point into no object are put on a black list, and the block
allocator keeps away from the pages they are in. There is one list of what was seen before the
last collection ended, and one of what has been seen since; both are hashed by the page.

Interior pointers are recognised everywhere in this configuration, so only the lists for pointers
from the stack are in use.
-/

namespace Ironclad.Gc

namespace Hblks

def LOG_PHT_ENTRIES : Nat := 18
def PHT_ENTRIES : Nat := 2 ^ LOG_PHT_ENTRIES
def WORDSZ : Nat := 64
def MINHINCR : Nat := 16
def MAXHINCR : Nat := 2048

/-- `PHT_HASH`, of a page. -/
def PHT_HASH (page : Nat) : Nat := page % PHT_ENTRIES

def get_pht_entry_from_index (bl : PageHashTable) (index : Nat) : Bool :=
  (bl (index / WORDSZ)).getLsbD (index % WORDSZ)

def set_pht_entry_from_index (bl : PageHashTable) (index : Nat) : PageHashTable :=
  Function.update bl (index / WORDSZ)
    (bl (index / WORDSZ) ||| BitVec.twoPow 64 (index % WORDSZ))

/-- `GC_add_to_black_list_stack`, for an address in the page. -/
def GC_add_to_black_list_stack (s : Hblks) (page : Nat) : Hblks :=
  let index := PHT_HASH page
  if s.HDR page = .nil ∨ get_pht_entry_from_index s.GC_old_stack_bl index = true then
    { s with
      GC_incomplete_stack_bl := set_pht_entry_from_index s.GC_incomplete_stack_bl index }
  else s

/-- The loop of `GC_is_black_listed`, from the page `h + i`. -/
def blackListedFrom (old incomplete : PageHashTable) (h nblocks i : Nat) : Option Nat :=
  let index := PHT_HASH (h + i)
  if old (index / WORDSZ) = 0 ∧ incomplete (index / WORDSZ) = 0 then
    -- an easy case: nothing in the rest of the word
    if i + (WORDSZ - index % WORDSZ) < nblocks then
      blackListedFrom old incomplete h nblocks (i + (WORDSZ - index % WORDSZ))
    else none
  else if get_pht_entry_from_index old index || get_pht_entry_from_index incomplete index then
    some (h + i + 1)
  else if i + 1 < nblocks then blackListedFrom old incomplete h nblocks (i + 1)
  else none
termination_by nblocks - i
decreasing_by
  · have hmod := Nat.mod_lt (PHT_HASH (h + i)) (show 0 < WORDSZ by decide)
    omega
  · omega

/-- `GC_is_black_listed`: the page behind the first one that is black listed, if there is one. -/
def GC_is_black_listed (s : Hblks) (h len : Nat) : Option Nat :=
  blackListedFrom s.GC_old_stack_bl s.GC_incomplete_stack_bl h (divHBLKSZ len) 0

/-- `GC_number_stack_black_listed`. -/
def GC_number_stack_black_listed (old : PageHashTable) (start n : Nat) : Nat :=
  (List.range n).countP fun i => get_pht_entry_from_index old (PHT_HASH (start + i))

/-- `total_stack_black_listed`. -/
def total_stack_black_listed (s : Hblks) : Nat :=
  (s.GC_heap_sects.map fun sect =>
    GC_number_stack_black_listed s.GC_old_stack_bl sect.1 (divHBLKSZ sect.2)).sum * HBLKSIZE

/-- `GC_promote_black_lists`: what has been seen becomes old, what was old is forgotten. -/
def GC_promote_black_lists (s : Hblks) : Hblks :=
  let s :=
    { s with
      GC_old_stack_bl := s.GC_incomplete_stack_bl
      GC_incomplete_stack_bl := fun _ => 0 }
  let total := s.total_stack_black_listed
  let spacing := if total ≠ 0 then HBLKSIZE * (s.GC_heapsize / total) else s.GC_black_list_spacing
  { s with GC_black_list_spacing := min (max spacing (3 * HBLKSIZE)) (MAXHINCR * HBLKSIZE) }

/-- `GC_unpromote_black_lists`. -/
def GC_unpromote_black_lists (s : Hblks) : Hblks :=
  { s with GC_incomplete_stack_bl := s.GC_old_stack_bl }

end Hblks

end Ironclad.Gc
