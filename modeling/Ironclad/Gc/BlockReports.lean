import Ironclad.Gc.BlockAccounting

/-!
# The reports of the block allocator

`GC_print_hblkfreelist` and `GC_dump_regions` print the free lists and the blocks, and complain
about what is inconsistent. Over a heap that is in order the first never complains. The second
complains exactly about the pages of blocks that come into a region from the one in front of it,
which happens when a section is added below one that the heap has already.
-/

namespace Ironclad.Gc

namespace Hblks

open Ironclad.Logic

variable {s : Hblks} {a b e i p q fuel : Nat} {hhdr : Hblkhdr}

/-! ## The free lists -/

/-- `start`, `partially` or `not` black listed. -/
inductive BlackListing where
  | start
  | partially
  | not
  deriving DecidableEq, Repr

/-- What `GC_print_hblkfreelist` prints. -/
inductive FreeListLine where
  | freeList (i total : Nat)
  | block (h sz : Nat) (listing : BlackListing)
  | inconsistent (bytes : Nat)
  | total (bytes : Nat)
  deriving DecidableEq, Repr

def blackListing (s : Hblks) (h : Nat) : BlackListing :=
  if (s.GC_is_black_listed h HBLKSIZE).isSome then .start
  else if (s.GC_is_black_listed h (s.hb_sz h)).isSome then .partially
  else .not

/-- One list, and the sum of the sizes on it. -/
def printList (s : Hblks) : Nat → Option Nat → Option (List FreeListLine × Nat)
  | 0, _ => none
  | _ + 1, none => some ([], 0)
  | fuel + 1, some h =>
      (s.printList fuel (s.hb_next h)).map fun r =>
        (.block h (s.hb_sz h) (s.blackListing h) :: r.1, s.hb_sz h + r.2)

def printLists (s : Hblks) (fuel : Nat) : List Nat → Option (List FreeListLine × Nat)
  | [] => some ([], 0)
  | i :: rest =>
      match s.printList fuel (s.GC_hblkfreelist i) with
      | none => none
      | some (lines, n) =>
          (s.printLists fuel rest).map fun r =>
            ((if (s.GC_hblkfreelist i).isSome then [.freeList i (s.GC_free_bytes i)] else []) ++
              lines ++ r.1, n + r.2)

/-- `GC_print_hblkfreelist`. -/
def GC_print_hblkfreelist (s : Hblks) (fuel : Nat) : Option (List FreeListLine) :=
  (s.printLists fuel (List.range (N_HBLK_FLS + 1))).map fun r =>
    r.1 ++ (if r.2 ≠ s.GC_large_free_bytes then [.inconsistent s.GC_large_free_bytes] else []) ++
      [.total r.2]

/-! ## The regions -/

/-- What `GC_dump_regions` prints. -/
inductive RegionLine where
  | region (start last : Nat)
  | missingHeader (p : Nat)
  | free (p sz : Nat)
  | notOnList (correct_index : Nat)
  | wrongList (actual_index correct_index : Nat)
  | used (p sz : Nat)
  deriving DecidableEq, Repr

/-- The inner loop of `free_list_index_of`. -/
def onListFrom (s : Hblks) (wanted : Nat) : Nat → Option Nat → Option Bool
  | 0, _ => none
  | _ + 1, none => some false
  | fuel + 1, some h =>
      if h = wanted then some true else s.onListFrom wanted fuel (s.hb_next h)

def firstListFrom (s : Hblks) (fuel wanted : Nat) : List Nat → Option (Option Nat)
  | [] => some none
  | i :: rest =>
      match s.onListFrom wanted fuel (s.GC_hblkfreelist i) with
      | none => none
      | some true => some (some i)
      | some false => s.firstListFrom fuel wanted rest

/-- `free_list_index_of`, for the header of the block `wanted`. -/
def free_list_index_of (s : Hblks) (fuel wanted : Nat) : Option (Option Nat) :=
  s.firstListFrom fuel wanted (List.range (N_HBLK_FLS + 1))

/-- The region that has started, and the rest: sections that begin where it ends belong to it. -/
def regionsFrom (start last : Nat) : List (Nat × Nat) → List (Nat × Nat)
  | [] => [(start, last)]
  | sect :: rest =>
      if sect.1 = last then regionsFrom start (sect.1 + divHBLKSZ sect.2) rest
      else (start, last) :: regionsFrom sect.1 (sect.1 + divHBLKSZ sect.2) rest

/-- The first page of each region, and the one behind it. -/
def regions : List (Nat × Nat) → List (Nat × Nat)
  | [] => []
  | sect :: rest => regionsFrom sect.1 (sect.1 + divHBLKSZ sect.2) rest

/-- The line about a free block, and the complaints about its list. -/
def freeLines (p : Nat) (hhdr : Hblkhdr) (actual_index : Option Nat) : List RegionLine :=
  let correct_index := GC_hblk_fl_from_blocks (divHBLKSZ hhdr.hb_sz)
  .free p hhdr.hb_sz ::
    match actual_index with
    | none => [.notOnList correct_index]
    | some i => if correct_index ≠ i then [.wrongList i correct_index] else []

/-- The loop over the blocks of a region, from `p` on. -/
def dumpFrom (s : Hblks) (fuel last : Nat) : Nat → Nat → Option (List RegionLine)
  | 0, _ => none
  | n + 1, p =>
      if p < last then
        match s.HDR p with
        | .hdr hhdr =>
            if hhdr.free_blk then
              match s.free_list_index_of fuel p with
              | none => none
              | some actual_index =>
                  (s.dumpFrom fuel last n (p + divHBLKSZ hhdr.hb_sz)).map
                    (freeLines p hhdr actual_index ++ ·)
            else
              (s.dumpFrom fuel last n (p + OBJ_SZ_TO_BLOCKS hhdr.hb_sz)).map
                (.used p hhdr.hb_sz :: ·)
        | _ => (s.dumpFrom fuel last n (p + 1)).map (.missingHeader p :: ·)
      else some []

def dumpRegions (s : Hblks) (fuel : Nat) : List (Nat × Nat) → Option (List RegionLine)
  | [] => some []
  | r :: rest =>
      match s.dumpFrom fuel r.2 (r.2 - r.1 + 1) r.1 with
      | none => none
      | some lines => (s.dumpRegions fuel rest).map (.region r.1 r.2 :: lines ++ ·)

/-- `GC_dump_regions`. -/
def GC_dump_regions (s : Hblks) (fuel : Nat) : Option (List RegionLine) :=
  s.dumpRegions fuel (regions s.GC_heap_sects)

/-! ## What is printed of the free lists -/

theorem printList_eq {L : List Nat} {prev : Option Nat} {pos : Option Nat}
    (hL : Linked s.hb_next s.hb_prev prev L none) (hpos : pos = L.head?) (hfuel : L.length < fuel) :
    s.printList fuel pos =
      some (L.map fun h => .block h (s.hb_sz h) (s.blackListing h), (L.map s.hb_sz).sum) := by
  induction L generalizing fuel pos prev with
  | nil =>
      obtain ⟨fuel, rfl⟩ := Nat.exists_eq_add_of_lt hfuel
      subst hpos
      rfl
  | cons h L ih =>
      obtain ⟨fuel, rfl⟩ := Nat.exists_eq_add_of_lt hfuel
      subst hpos
      obtain ⟨-, hnext, hL⟩ := hL
      rw [List.length_cons, List.head?_cons, printList, ih hL (by simpa using hnext) (by omega)]
      rfl

/-- What is printed of one list. -/
def listLines (s : Hblks) (L : Nat → List Nat) (i : Nat) : List FreeListLine :=
  (if (s.GC_hblkfreelist i).isSome then [.freeList i (s.GC_free_bytes i)] else []) ++
    (L i).map fun h => .block h (s.hb_sz h) (s.blackListing h)

theorem printLists_eq {L : Nat → List Nat} (hL : Threaded s L)
    (hfuel : ∀ i, (L i).length < fuel) (l : List Nat) :
    s.printLists fuel l = some (l.flatMap (s.listLines L), (l.map s.GC_free_bytes).sum) := by
  induction l with
  | nil => rfl
  | cons i l ih =>
      rw [printLists, printList_eq (hL.lists.linked i) (hL.lists.head_eq i) (hfuel i), ih]
      simp only [Option.map_some, List.flatMap_cons, List.map_cons, List.sum_cons, hL.bytes i,
        listLines]

/-- The lists are no longer than the heap. -/
theorem InOrder.length_list_le (h : InOrder s) {L : Nat → List Nat} (hL : Threaded s L)
    (hmem : ∀ i p, p ∈ L i ↔ s.Listed i p) (i : Nat) : (L i).length ≤ s.heapPages :=
  h.length_le ⟨L, [], hL, hmem, rfl, hL.lists.head_eq i⟩

/-- The free blocks of the lines, in the order in which they are printed. -/
def FreeListLine.block? : FreeListLine → Option (Nat × Nat)
  | .block h sz _ => some (h, sz)
  | _ => none

theorem filterMap_listLines (s : Hblks) (L : Nat → List Nat) (i : Nat) :
    (s.listLines L i).filterMap FreeListLine.block? = (L i).map fun h => (h, s.hb_sz h) := by
  unfold listLines
  rw [List.filterMap_append, List.filterMap_map]
  have hhead : (if (s.GC_hblkfreelist i).isSome then
      [FreeListLine.freeList i (s.GC_free_bytes i)] else []).filterMap FreeListLine.block? =
        [] := by
    split <;> rfl
  rw [hhead, List.nil_append, ← List.filterMap_eq_map]
  rfl

/-- **`GC_print_hblkfreelist` prints each free block once**, with its size, and never that the
counts are inconsistent. -/
theorem InOrder.print_hblkfreelist (h : InOrder s) (hfuel : s.heapPages < fuel) :
    ∃ lines, s.GC_print_hblkfreelist fuel = some lines ∧
      (∀ bytes, .inconsistent bytes ∉ lines) ∧
      (lines.filterMap FreeListLine.block?).Nodup ∧
      ∀ p sz, (p, sz) ∈ lines.filterMap FreeListLine.block? ↔
        ∃ hhdr, s.HDR p = .hdr hhdr ∧ hhdr.free_blk = true ∧ sz = hhdr.hb_sz := by
  obtain ⟨L, hL, hmem⟩ := h.lists
  have htotal : ((List.range (N_HBLK_FLS + 1)).map s.GC_free_bytes).sum =
      s.GC_large_free_bytes := by
    rw [h.counted, totalFree]
    rfl
  have hlen := fun i => lt_of_le_of_lt (h.length_list_le hL hmem i) hfuel
  have hblocks : ((List.range (N_HBLK_FLS + 1)).flatMap (s.listLines L)).filterMap
      FreeListLine.block? =
        ((List.range (N_HBLK_FLS + 1)).flatMap L).map fun p => (p, s.hb_sz p) := by
    rw [List.filterMap_flatMap, List.map_flatMap]
    simp only [filterMap_listLines]
  unfold GC_print_hblkfreelist
  rw [printLists_eq hL hlen]
  simp only [Option.map_some, htotal, ne_eq, not_true_eq_false, if_false, List.append_nil]
  refine ⟨_, rfl, fun bytes hin => ?_, ?_, fun p sz => ?_⟩
  · rw [List.mem_append, List.mem_flatMap] at hin
    rcases hin with ⟨i, -, hin⟩ | hin
    · unfold listLines at hin
      split at hin <;> simp at hin
    · simp at hin
  · rw [List.filterMap_append, hblocks]
    refine (List.append_nil _).symm ▸ List.Nodup.map ?_ (nodup_flatMap_lists hL _)
    exact fun p q hpq => congrArg Prod.fst hpq
  · rw [List.filterMap_append, hblocks]
    show (p, sz) ∈ List.map _ _ ++ [] ↔ _
    rw [List.append_nil, List.mem_map]
    constructor
    · rintro ⟨q, hq, heq⟩
      cases heq
      obtain ⟨hhdr, hp, hfree⟩ := (mem_freeLists hmem).mp hq
      exact ⟨hhdr, hp, hfree, hb_sz_of_hdr hp⟩
    · rintro ⟨hhdr, hp, hfree, rfl⟩
      exact ⟨p, (mem_freeLists hmem).mpr ⟨hhdr, hp, hfree⟩, by rw [hb_sz_of_hdr hp]⟩

/-! ## What is printed of the regions -/

theorem onListFrom_eq {L : List Nat} {prev pos : Option Nat}
    (hL : Linked s.hb_next s.hb_prev prev L none) (hpos : pos = L.head?) (hfuel : L.length < fuel) :
    s.onListFrom p fuel pos = some (decide (p ∈ L)) := by
  induction L generalizing fuel pos prev with
  | nil =>
      obtain ⟨fuel, rfl⟩ := Nat.exists_eq_add_of_lt hfuel
      subst hpos
      rfl
  | cons h L ih =>
      obtain ⟨fuel, rfl⟩ := Nat.exists_eq_add_of_lt hfuel
      subst hpos
      obtain ⟨-, hnext, hL⟩ := hL
      rw [List.length_cons, List.head?_cons, onListFrom, ih hL (by simpa using hnext) (by omega)]
      by_cases hp : h = p
      · simp [hp]
      · rw [if_neg hp]
        simp [Ne.symm hp]

theorem firstListFrom_eq {L : Nat → List Nat} (hL : Threaded s L)
    (hfuel : ∀ i, (L i).length < fuel) (l : List Nat) :
    s.firstListFrom fuel p l = some (l.find? fun i => decide (p ∈ L i)) := by
  induction l with
  | nil => rfl
  | cons i l ih =>
      rw [firstListFrom, onListFrom_eq (hL.lists.linked i) (hL.lists.head_eq i) (hfuel i),
        List.find?_cons]
      by_cases hp : p ∈ L i
      · simp [hp]
      · simp [hp, ih]

/-- **A free block is found on the list of its size.** -/
theorem InOrder.free_list_index_of (h : InOrder s) (hfuel : s.heapPages < fuel)
    (hp : FreeAt s.HDR p) : s.free_list_index_of fuel p = some (some (s.flOf p)) := by
  obtain ⟨L, hL, hmem⟩ := h.lists
  have hlen := fun i => lt_of_le_of_lt (h.length_list_le hL hmem i) hfuel
  rw [Hblks.free_list_index_of, firstListFrom_eq hL hlen]
  refine congrArg some ((find?_eq_some_iff_of_unique (P := fun i => s.flOf p = i)
    (fun i _ => ?_) fun i j hi hj => hi.symm.trans hj).mpr ⟨?_, rfl⟩)
  · rw [decide_eq_true_eq, hmem, Listed]
    exact and_iff_right hp
  · exact List.mem_range.mpr (Nat.lt_succ_of_le (flOf_le s p))

/-- The blocks of the lines, with their sizes, and whether they are free. -/
def RegionLine.block? : RegionLine → Option (Nat × Nat × Bool)
  | .free p sz => some (p, sz, true)
  | .used p sz => some (p, sz, false)
  | _ => none

/-- The header of the page says so. -/
def IsBlock (s : Hblks) (b : Nat × Nat × Bool) : Prop :=
  ∃ hhdr, s.HDR b.1 = .hdr hhdr ∧ b.2.1 = hhdr.hb_sz ∧ b.2.2 = hhdr.free_blk

/-- What has been printed of the pages from `p` to `last`, in a region that starts at `a`. -/
structure Walked (s : Hblks) (a last p : Nat) (lines : List RegionLine) : Prop where
  missing : ∀ q, .missingHeader q ∈ lines ↔
    p ≤ q ∧ q < last ∧ ∃ b, b < a ∧ Covers s.HDR b q
  blocks : ∀ b, b ∈ lines.filterMap RegionLine.block? ↔ p ≤ b.1 ∧ b.1 < last ∧ s.IsBlock b
  sorted : (lines.filterMap RegionLine.block?).Pairwise fun b b' => b.1 < b'.1
  clean : ∀ i j, .notOnList j ∉ lines ∧ .wrongList i j ∉ lines

/-- The page is in a block that starts here, or in front of the region. -/
def Entered (s : Hblks) (a p : Nat) : Prop := ∀ b, Covers s.HDR b p → b = p ∨ b < a

/-- Behind a block is another one. -/
theorem TableOk.entered_next (h : TableOk s.HDR) (hp : s.HDR p = .hdr hhdr) :
    s.Entered a (p + hhdr.pages) := by
  have hpos := (h.block p hhdr hp).pos
  rintro b ⟨bhdr, hb, hle, hlt⟩
  by_contra hne
  have hsame : b = p := by
    rcases Nat.le_total p b with hpb | hbp
    · exact (h.block p hhdr hp).eq_of_covers hb hpb (by omega)
    · exact h.covers_unique (q := p) ⟨bhdr, hb, hbp, by omega⟩ ⟨hhdr, hp, le_rfl, by omega⟩
  subst hsame
  cases hp.symm.trans hb
  omega

/-- A block has been printed. -/
theorem Walked.block {last : Nat} {lines : List RegionLine} {line : RegionLine}
    (h : TableOk s.HDR) (hap : a ≤ p) (hlast : p < last) (hp : s.HDR p = .hdr hhdr)
    (hline : line.block? = some (p, hhdr.hb_sz, hhdr.free_blk))
    (hw : s.Walked a last (p + hhdr.pages) lines) : s.Walked a last p (line :: lines) := by
  have hpos := (h.block p hhdr hp).pos
  have hcons : (line :: lines).filterMap RegionLine.block? =
      (p, hhdr.hb_sz, hhdr.free_blk) :: lines.filterMap RegionLine.block? := by
    rw [List.filterMap_cons, hline]
  -- a line that is about no block is not this one
  have hnot : ∀ l : RegionLine, l.block? = none → (l ∈ line :: lines ↔ l ∈ lines) := by
    intro l hl
    rw [List.mem_cons, or_iff_right]
    rintro rfl
    rw [hl] at hline
    cases hline
  refine ⟨fun q => ?_, fun b => ?_, ?_, fun i j => ?_⟩
  · rw [hnot _ rfl, hw.missing]
    constructor
    · rintro ⟨hq, hrest⟩
      exact ⟨by omega, hrest⟩
    · rintro ⟨hpq, hql, b, hba, bhdr, hb, hle, hlt⟩
      refine ⟨?_, hql, b, hba, bhdr, hb, hle, hlt⟩
      by_contra hq
      have hsame := h.covers_unique (q := p) ⟨bhdr, hb, by omega, by omega⟩
        ⟨hhdr, hp, le_rfl, by omega⟩
      omega
  · rw [hcons, List.mem_cons, hw.blocks]
    constructor
    · rintro (rfl | ⟨hle, hrest⟩)
      · exact ⟨le_rfl, hlast, hhdr, hp, rfl, rfl⟩
      · exact ⟨by omega, hrest⟩
    · rintro ⟨hle, hlt, bhdr, hb, hsz, hfree⟩
      by_cases hin : b.1 < p + hhdr.pages
      · have hbp := (h.block p hhdr hp).eq_of_covers hb hle hin
        rw [hbp] at hb
        cases hp.symm.trans hb
        exact .inl (Prod.ext hbp (Prod.ext hsz hfree))
      · exact .inr ⟨by omega, hlt, bhdr, hb, hsz, hfree⟩
  · rw [hcons, List.pairwise_cons]
    refine ⟨fun b hb => ?_, hw.sorted⟩
    have hle := ((hw.blocks b).mp hb).1
    show p < b.1
    omega
  · rw [hnot _ rfl, hnot _ rfl]
    exact hw.clean i j

/-- A page without a header has been printed. -/
theorem Walked.missing_cons {last : Nat} {lines : List RegionLine} (hlast : p < last)
    (hp : ∀ hhdr, s.HDR p ≠ .hdr hhdr) (hb : b < a) (hcovers : Covers s.HDR b p)
    (hw : s.Walked a last (p + 1) lines) : s.Walked a last p (.missingHeader p :: lines) := by
  have hcons : (.missingHeader p :: lines).filterMap RegionLine.block? =
      lines.filterMap RegionLine.block? := rfl
  refine ⟨fun q => ?_, fun b => ?_, hcons ▸ hw.sorted, fun i j => ?_⟩
  · rw [List.mem_cons, hw.missing]
    constructor
    · rintro (heq | ⟨hle, hrest⟩)
      · cases heq
        exact ⟨le_rfl, hlast, b, hb, hcovers⟩
      · exact ⟨by omega, hrest⟩
    · rintro ⟨hpq, hrest⟩
      rcases hpq.eq_or_lt with rfl | hlt
      · exact .inl rfl
      · exact .inr ⟨hlt, hrest⟩
  · rw [hcons, hw.blocks]
    refine ⟨fun hb => ⟨by omega, hb.2⟩, fun ⟨hle, hlt, hblock⟩ => ⟨?_, hlt, hblock⟩⟩
    obtain ⟨bhdr, hb, -⟩ := hblock
    refine lt_of_le_of_ne hle fun heq => hp bhdr ?_
    rw [heq]
    exact hb
  · simpa using hw.clean i j

/-- **The loop over a region.** -/
theorem InOrder.dumpFrom (h : InOrder s) (hfuel : s.heapPages < fuel) {last n : Nat} (hap : a ≤ p)
    (howned : ∀ q, p ≤ q → q < last → Owned s.HDR q) (hat : p < last → s.Entered a p)
    (hn : last - p < n) :
    ∃ lines, s.dumpFrom fuel last n p = some lines ∧ s.Walked a last p lines := by
  induction n generalizing p with
  | zero => omega
  | succ n ih =>
      rw [Hblks.dumpFrom]
      by_cases hlast : p < last
      · rw [if_pos hlast]
        have hmissing : (∀ hhdr, s.HDR p ≠ .hdr hhdr) → ∃ lines,
            (s.dumpFrom fuel last n (p + 1)).map (.missingHeader p :: ·) = some lines ∧
              s.Walked a last p lines := by
          intro hp
          obtain ⟨b, hcovers⟩ := howned p le_rfl hlast
          have hb : b < a := by
            refine (hat hlast b hcovers).resolve_left ?_
            rintro rfl
            obtain ⟨bhdr, hb, -⟩ := hcovers
            exact hp bhdr hb
          have hnext : s.Entered a (p + 1) := by
            rintro b' ⟨bhdr, hb', hle, hlt⟩
            rcases hle.eq_or_lt with heq | hle
            · exact .inl heq
            · rw [h.table.covers_unique (q := p) ⟨bhdr, hb', by omega, by omega⟩ hcovers]
              exact .inr hb
          obtain ⟨lines, hlines, hw⟩ := ih (p := p + 1) (by omega)
            (fun q hpq => howned q (by omega)) (fun _ => hnext) (by omega)
          exact ⟨_, by rw [hlines]; rfl, hw.missing_cons hlast hp hb hcovers⟩
        cases hp : s.HDR p with
        | nil => exact hmissing fun hhdr => hp ▸ nofun
        | count k => exact hmissing fun hhdr => hp ▸ nofun
        | hdr hhdr =>
            have hpos := (h.table.block p hhdr hp).pos
            obtain ⟨lines, hlines, hw⟩ := ih (p := p + hhdr.pages) (by omega)
              (fun q hpq => howned q (by omega)) (fun _ => h.table.entered_next hp) (by omega)
            simp only
            cases hfree : hhdr.free_blk with
            | true =>
                rw [if_pos rfl, h.free_list_index_of hfuel ⟨hhdr, hp, hfree⟩]
                rw [pages_of_free hfree] at hlines
                have hlist : freeLines p hhdr (some (s.flOf p)) = [.free p hhdr.hb_sz] := by
                  unfold freeLines
                  simp only
                  rw [if_neg]
                  rw [flOf, hb_sz_of_hdr hp]
                  exact not_not.mpr rfl
                refine ⟨.free p hhdr.hb_sz :: lines, by simp only [hlist, hlines]; rfl, ?_⟩
                exact hw.block h.table hap hlast hp (by rw [hfree]; rfl)
            | false =>
                rw [if_neg Bool.false_ne_true]
                rw [pages_of_used hfree] at hlines
                refine ⟨.used p hhdr.hb_sz :: lines, by rw [hlines]; rfl, ?_⟩
                exact hw.block h.table hap hlast hp (by rw [hfree]; rfl)
      · rw [if_neg hlast]
        refine ⟨[], rfl, fun q => iff_of_false List.not_mem_nil fun hq => by omega,
          fun b => iff_of_false List.not_mem_nil fun hb => by omega, .nil,
          fun i j => ⟨List.not_mem_nil, List.not_mem_nil⟩⟩

/-! ## All regions -/

/-- The page is in the region or the section. -/
def Within (r : Nat × Nat) (q : Nat) : Prop := r.1 ≤ q ∧ q < r.2

def sectionRegion (sect : Nat × Nat) : Nat × Nat := (sect.1, sect.1 + divHBLKSZ sect.2)

theorem mem_regionsFrom {start last : Nat} (hle : start ≤ last) (sects : List (Nat × Nat)) :
    (∃ r ∈ regionsFrom start last sects, Within r q) ↔
      Within (start, last) q ∨ ∃ sect ∈ sects, Within (sectionRegion sect) q := by
  induction sects generalizing start last with
  | nil => simp [regionsFrom]
  | cons sect sects ih =>
      rw [regionsFrom]
      split
      · rename_i heq
        rw [ih (by omega), List.exists_mem_cons_iff, ← or_assoc]
        refine or_congr_left ?_
        unfold Within sectionRegion
        simp only
        omega
      · rw [List.exists_mem_cons_iff, ih (by omega), List.exists_mem_cons_iff]
        rfl

theorem mem_regions (sects : List (Nat × Nat)) :
    (∃ r ∈ regions sects, Within r q) ↔ ∃ sect ∈ sects, Within (sectionRegion sect) q := by
  cases sects with
  | nil => simp [regions]
  | cons sect sects =>
      rw [regions, mem_regionsFrom (Nat.le_add_right _ _), List.exists_mem_cons_iff]
      rfl

/-- Two regions have no page in common. -/
def Apart (r r' : Nat × Nat) : Prop := ∀ q, Within r q → ¬Within r' q

theorem pairwise_regionsFrom {start last : Nat} (hle : start ≤ last) {sects : List (Nat × Nat)}
    (hstart : ∀ sect ∈ sects, Apart (start, last) (sectionRegion sect))
    (hsects : sects.Pairwise fun sect sect' => Apart (sectionRegion sect) (sectionRegion sect')) :
    (regionsFrom start last sects).Pairwise Apart := by
  induction sects generalizing start last with
  | nil => exact List.pairwise_singleton _ _
  | cons sect sects ih =>
      rw [List.pairwise_cons] at hsects
      rw [List.forall_mem_cons] at hstart
      rw [regionsFrom]
      split
      · rename_i heq
        refine ih (by omega) (fun sect' hsect' q hq hq' => ?_) hsects.2
        -- a page of the two parts together is in one of them
        by_cases hlast : q < last
        · exact hstart.2 sect' hsect' q ⟨hq.1, hlast⟩ hq'
        · exact hsects.1 sect' hsect' q ⟨heq ▸ not_lt.mp hlast, hq.2⟩ hq'
      · refine List.pairwise_cons.mpr ⟨fun r hr q hq hq' => ?_, ih (Nat.le_add_right _ _)
          hsects.1 hsects.2⟩
        rcases (mem_regionsFrom (Nat.le_add_right _ _) sects).mp ⟨r, hr, hq'⟩ with
          hsect | ⟨sect', hsect', hin⟩
        · exact hstart.1 q hq hsect
        · exact hstart.2 sect' hsect' q hq hin

theorem Sections.pairwise_regions (h : Sections s) : (regions s.GC_heap_sects).Pairwise Apart := by
  have hsects : s.GC_heap_sects.Pairwise fun sect sect' =>
      Apart (sectionRegion sect) (sectionRegion sect') := by
    refine h.apart.imp fun {sect sect'} hapart q hq hq' => ?_
    unfold Within sectionRegion at hq hq'
    simp only at hq hq'
    omega
  cases hs : s.GC_heap_sects with
  | nil => exact .nil
  | cons sect sects =>
      rw [hs, List.pairwise_cons] at hsects
      exact pairwise_regionsFrom (Nat.le_add_right _ _) hsects.1 hsects.2

theorem InOrder.dumpRegions (h : InOrder s) (hfuel : s.heapPages < fuel) {l : List (Nat × Nat)}
    (hl : ∀ r ∈ l, ∀ q, Within r q → Owned s.HDR q) (hapart : l.Pairwise Apart) :
    ∃ lines, s.dumpRegions fuel l = some lines ∧
      (∀ q, .missingHeader q ∈ lines ↔ ∃ r ∈ l, Within r q ∧ ∃ b, b < r.1 ∧ Covers s.HDR b q) ∧
      (∀ b, b ∈ lines.filterMap RegionLine.block? ↔ (∃ r ∈ l, Within r b.1) ∧ s.IsBlock b) ∧
      (lines.filterMap RegionLine.block?).Nodup ∧
      ∀ i j, .notOnList j ∉ lines ∧ .wrongList i j ∉ lines := by
  induction l with
  | nil =>
      refine ⟨[], rfl, fun q => ?_, fun b => ?_, .nil,
        fun i j => ⟨List.not_mem_nil, List.not_mem_nil⟩⟩ <;> simp
  | cons r l ih =>
      rw [List.forall_mem_cons] at hl
      rw [List.pairwise_cons] at hapart
      obtain ⟨rest, hrest, hmissing, hblocks, hnodup, hclean⟩ := ih hl.2 hapart.2
      obtain ⟨lines, hlines, hw⟩ := h.dumpFrom (a := r.1) (p := r.1) hfuel le_rfl
        (fun q hq hlt => hl.1 q ⟨hq, hlt⟩) (fun _ b hb => by
          obtain ⟨bhdr, hb, hle, -⟩ := hb
          exact hle.eq_or_lt) (Nat.lt_succ_self (r.2 - r.1))
      have hfilter : (.region r.1 r.2 :: lines ++ rest).filterMap RegionLine.block? =
          lines.filterMap RegionLine.block? ++ rest.filterMap RegionLine.block? := by
        rw [List.cons_append, List.filterMap_cons]
        exact List.filterMap_append
      refine ⟨.region r.1 r.2 :: lines ++ rest, ?_, fun q => ?_, fun b => ?_, ?_, fun i j => ?_⟩
      · rw [Hblks.dumpRegions, hlines, hrest]
        rfl
      · rw [List.exists_mem_cons_iff, ← hmissing, Within, and_assoc, ← hw.missing]
        simp
      · rw [hfilter, List.mem_append, hw.blocks, hblocks, List.exists_mem_cons_iff, or_and_right,
          Within, and_assoc]
      · rw [hfilter, List.nodup_append]
        refine ⟨hw.sorted.imp fun {b b'} hlt heq => ?_, hnodup, ?_⟩
        · exact absurd (heq ▸ hlt) (lt_irrefl _)
        · rintro b hb b' hb' rfl
          obtain ⟨hle, hlt, -⟩ := (hw.blocks b).mp hb
          obtain ⟨⟨r', hr', hin⟩, -⟩ := (hblocks b).mp hb'
          exact hapart.1 r' hr' b.1 ⟨hle, hlt⟩ hin
      · have hfirst := hw.clean i j
        have hsecond := hclean i j
        simp [hfirst, hsecond]

/-- **`GC_dump_regions` prints each block once**, and complains only about the pages of a block
that comes into a region from the pages in front of it. -/
theorem InOrder.dump_regions (h : InOrder s) (hfuel : s.heapPages < fuel) :
    ∃ lines, s.GC_dump_regions fuel = some lines ∧
      (∀ q, .missingHeader q ∈ lines ↔
        ∃ r ∈ regions s.GC_heap_sects, Within r q ∧ ∃ b, b < r.1 ∧ Covers s.HDR b q) ∧
      (∀ i j, .notOnList j ∉ lines ∧ .wrongList i j ∉ lines) ∧
      (lines.filterMap RegionLine.block?).Nodup ∧
      ∀ b, b ∈ lines.filterMap RegionLine.block? ↔ s.IsBlock b := by
  have hin : ∀ q, (∃ r ∈ regions s.GC_heap_sects, Within r q) ↔ Owned s.HDR q := by
    intro q
    rw [mem_regions, h.sections.owned]
    rfl
  obtain ⟨lines, hlines, hmissing, hblocks, hnodup, hclean⟩ := h.dumpRegions hfuel
    (fun r hr q hq => (hin q).mp ⟨r, hr, hq⟩) h.sections.pairwise_regions
  refine ⟨lines, hlines, hmissing, hclean, hnodup, fun b => ?_⟩
  rw [hblocks, hin]
  refine and_iff_right_of_imp fun hb => ?_
  obtain ⟨bhdr, hb, -⟩ := hb
  exact (h.table.block b.1 bhdr hb).owned le_rfl
    (Nat.lt_add_of_pos_right (h.table.block b.1 bhdr hb).pos)

end Hblks

end Ironclad.Gc
