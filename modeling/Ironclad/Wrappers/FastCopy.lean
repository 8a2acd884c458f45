import Ironclad.Wrappers.SpatialCheck

/-!
# `copy<T>` and its specialisation `copy<int>`

`copy<T>` assigns element by element, and every subscript is checked. `copy<int>` calls
`spatialCheck` for both pointers, does nothing with the results, and hands the bytes to `memcpy`:
it never stops at an assertion.

The two agree when the elements lie in both allocations. There is one more difference: a
subscript takes a 32-bit number, so the counter of the loop is cut to an `int` (for `aptr`) or an
`unsigned int` (for `laptr`) on the way, and the number of bytes for `memcpy` is a `size_t` that
wraps around. For counts that large the two copy different elements, and agree when that does
not show.
-/

namespace Ironclad.Wrappers

open Ironclad.Logic Ironclad.CLib Ironclad.Pointers

/-! ## The copies -/

/-- `p[c]` as a reference: a null pointer is not followed. -/
def aptrElement (sizeofT : Word) (p : Aptr) (c : Word) : Prog 64 Word :=
  match p.subscript sizeofT (c.setWidth 32) with
  | some a => if p.data = 0 then Prog.undefined else pure a
  | none => do
      Prog.assert false
      pure 0

/-- `p[c]` as a reference. -/
def laptrElement (sizeofT : Word) (p : Laptr) (c : Word) : Prog 64 Word :=
  match p.subscript sizeofT (c.setWidth 32) with
  | some a => pure a
  | none => do
      Prog.assert false
      pure 0

/-- The first `n` rounds of `for(size_t c = 0; c < size; ++c) dest[c] = src[c];`. -/
def copyLoop (sizeofT : Word) (dest src : Word → Prog 64 Word) : Nat → Prog 64 Unit
  | 0 => pure ()
  | n + 1 => do
      copyLoop sizeofT dest src n
      let s ← src (BitVec.ofNat 64 n)
      let d ← dest (BitVec.ofNat 64 n)
      memmove d s sizeofT.toNat

/-- `copy<T>(aptr<T> dest, aptr<T> src, size)`. -/
def aptr_copy (sizeofT : Word) (dest src : Aptr) (size : Word) : Prog 64 Unit :=
  copyLoop sizeofT (aptrElement sizeofT dest) (aptrElement sizeofT src) size.toNat

/-- `copy<T>(laptr<T> dest, laptr<T> src, size)`. -/
def laptr_copy (sizeofT : Word) (dest src : Laptr) (size : Word) : Prog 64 Unit :=
  copyLoop sizeofT (laptrElement sizeofT dest) (laptrElement sizeofT src) size.toNat

/-- `copy<int>(aptr<int> dest, aptr<int> src, size)`. The results of the checks are not used. -/
def aptr_copy_int (dest src : Aptr) (size : Word) : Prog 64 Unit := do
  let _ := dest.spatialCheck 4 (size * 4)
  let _ := src.spatialCheck 4 (size * 4)
  memcpy (dest.convert_to_raw 4) (src.convert_to_raw 4) (size * 4).toNat

/-- `copy<int>(laptr<int> dest, laptr<int> src, size)`. The results of the checks are not
used. -/
def laptr_copy_int (dest src : Laptr) (size : Word) : Prog 64 Unit := do
  let _ := dest.spatialCheck 4 (size * 4)
  let _ := src.spatialCheck 4 (size * 4)
  memcpy (dest.convert_to_raw 4) (src.convert_to_raw 4) (size * 4).toNat

/-! ## Agreement -/

/-- Both stop at an assertion, or both finish with the same memory; and the first one reads and
writes only the two allocations. -/
structure Agree (fast generic : Outcome 64 Unit) (destBytes srcBytes : Region 64) : Prop where
  same : fast.ending = .fails ∧ generic.ending = .fails ∨
    fast.ending = .returns () ∧ generic.ending = .returns () ∧ fast.mem = generic.mem
  reads : fast.ReadsIn srcBytes
  writes : fast.WritesIn destBytes

/-- The part of an `laptr` that an access looks at. -/
def fields (p : Laptr) : Aptr := ⟨p.data, p.index, p.size⟩

theorem fields_allocation (sizeofT : Word) (p : Laptr) :
    (fields p).allocation sizeofT = p.allocation sizeofT := rfl

theorem laptr_copy_int_eq (dest src : Laptr) (size : Word) :
    laptr_copy_int dest src size = aptr_copy_int (fields dest) (fields src) size := rfl

/-- The counter as the argument of `aptr`'s subscript. -/
def asInt (c : Word) : Word := ofInt (c.setWidth 32)

/-- The counter as the argument of `laptr`'s subscript. -/
def asUnsigned (c : Word) : Word := ofUnsigned (c.setWidth 32)

/-- The offsets from the current position of the bytes that `memcpy` is asked for. -/
def FastBytes (count o : Word) : Prop := o.toNat < (count * 4).toNat

/-- The offsets from the current position of the bytes of the elements that the loop goes
through, the counter converted by `conv`. -/
def LoopBytes (conv : Word → Word) (count o : Word) : Prop :=
  ∃ c, c < count ∧ (o - conv c * 4).toNat < 4

/-- The number of bytes wraps around. -/
theorem bytes_toNat (count : Word) : (count * 4).toNat = count.toNat % 2 ^ 62 * 4 := by
  rw [BitVec.toNat_mul]
  show count.toNat * 4 % 2 ^ 64 = _
  omega

/-- The bytes of the allocation that one of the two copies is about. -/
def Touched (conv : Word → Word) (count : Word) (p : Aptr) (a : Word) : Prop :=
  a ∈ p.allocation 4 ∧
    (FastBytes count (a - p.convert_to_raw 4) ∨ LoopBytes conv count (a - p.convert_to_raw 4))

/-- The two ranges are disjoint. -/
def DisjointRanges (conv : Word → Word) (count : Word) (dest src : Aptr) : Prop :=
  ∀ a, Touched conv count dest a → ¬Touched conv count src a

/-- The elements from `index - low` to `index + high - 1`, and those that `memcpy` is asked for,
lie in the allocation. -/
structure Spans (low high : Int) (count : Word) (p : Aptr) : Prop where
  data_ne : p.data ≠ 0
  low_le : low ≤ p.index.toInt
  high_le : p.index.toInt + high ≤ p.size.toInt
  fast_le : p.index.toInt + (count.toNat % 2 ^ 62 : Nat) ≤ p.size.toInt ∨ 2 ^ 62 ≤ p.size.toInt

/-- There is nothing to copy; or both pointers have the elements, and source and destination
agree already where only one of the two copies. -/
def FastCopyFits (low high : Int) (conv : Word → Word) (count : Word) (dest src : Aptr)
    (m : Memory 64) : Prop :=
  count = 0 ∨ Spans low high count dest ∧ Spans low high count src ∧
    ∀ o, ¬(FastBytes count o ↔ LoopBytes conv count o) →
      m (src.convert_to_raw 4 + o) = m (dest.convert_to_raw 4 + o)

/-! ## One subscript -/

/-- The subscript moved by `k` is accepted and the pointer is not null. -/
def Accepts (p : Aptr) (k : Word) : Prop :=
  p.data ≠ 0 ∧ BOUNDS_CHECK (p.index + k) p.size = true

/-- `element` is the checked subscript of `p`. -/
structure Subscripts (elementOf : Word → Prog 64 Word) (conv : Word → Word) (p : Aptr) : Prop where
  returns : ∀ c m, Accepts p (conv c) →
    elementOf c m = ⟨.returns (p.convert_to_raw 4 + conv c * 4), m, [], []⟩
  accepts : ∀ c m a, (elementOf c m).ending = .returns a → Accepts p (conv c)

theorem element_moved (p : Aptr) (k : Word) :
    element 4 p.data (p.index + k) = p.convert_to_raw 4 + k * 4 := by
  rw [element, Aptr.convert_to_raw, element, add_mul, add_assoc]

theorem aptr_subscripts (p : Aptr) : Subscripts (aptrElement 4 p) asInt p := by
  constructor
  · rintro c m ⟨hdata, hcheck⟩
    have hsub : p.subscript 4 (c.setWidth 32) = some (p.convert_to_raw 4 + asInt c * 4) := by
      rw [Aptr.subscript, boundsCheckIndex_eq, access, ← element_moved]
      exact if_pos hcheck
    rw [aptrElement, hsub]
    show (if p.data = 0 then (Prog.undefined : Prog 64 Word) else pure _) m = _
    rw [if_neg hdata]
    rfl
  · intro c m a hreturns
    rw [aptrElement, Aptr.subscript, boundsCheckIndex_eq, access] at hreturns
    by_cases hcheck : BOUNDS_CHECK (p.index + asInt c) p.size = true
    · refine ⟨fun hdata => ?_, hcheck⟩
      change BOUNDS_CHECK (p.index + ofInt (c.setWidth 32)) p.size = true at hcheck
      rw [if_pos hcheck] at hreturns
      change ((if p.data = 0 then (Prog.undefined : Prog 64 Word) else pure _) m).ending = _
        at hreturns
      rw [if_pos hdata] at hreturns
      cases hreturns
    · change ¬BOUNDS_CHECK (p.index + ofInt (c.setWidth 32)) p.size = true at hcheck
      rw [if_neg hcheck] at hreturns
      cases hreturns

theorem laptr_subscripts (p : Laptr) : Subscripts (laptrElement 4 p) asUnsigned (fields p) := by
  have hcheck : ∀ c, (p.data != 0 && BOUNDS_CHECK_INDEX p.index p.size (asUnsigned c)) = true ↔
      Accepts (fields p) (asUnsigned c) := by
    intro c
    rw [Bool.and_eq_true, bne_iff_ne, boundsCheckIndex_eq]
    rfl
  constructor
  · intro c m hacc
    have hsub : p.subscript 4 (c.setWidth 32) =
        some ((fields p).convert_to_raw 4 + asUnsigned c * 4) := by
      rw [Laptr.subscript, access, ← element_moved]
      exact if_pos ((hcheck c).mpr hacc)
    rw [laptrElement, hsub]
    rfl
  · intro c m a hreturns
    by_contra hacc
    have hsub : p.subscript 4 (c.setWidth 32) = none := by
      rw [Laptr.subscript, access]
      exact if_neg ((hcheck c).not.mpr hacc)
    rw [laptrElement, hsub] at hreturns
    cases hreturns

/-- An accepted element lies in the allocation. -/
theorem Accepts.mem_allocation {p : Aptr} {k o : Word} (h : Accepts p k)
    (ho : (o - k * 4).toNat < 4) : p.convert_to_raw 4 + o ∈ p.allocation 4 := by
  obtain ⟨hdata, hcheck⟩ := h
  have hindex := boundsCheck_toNat hcheck
  have hoffset : p.convert_to_raw 4 + o - p.data = (p.index + k) * 4 + (o - k * 4) := by
    rw [Aptr.convert_to_raw, element, add_assoc, add_sub_cancel_left, add_mul, add_assoc,
      add_sub_cancel]
  rw [Aptr.allocation, block, if_neg hdata, Region.mem_mk, hoffset, BitVec.toNat_add,
    BitVec.toNat_mul]
  show ((p.index + k).toNat * 4 % 2 ^ 64 + (o - k * 4).toNat) % 2 ^ 64 < p.size.toNat * 4
  omega

/-! ## The loop -/

section

variable {destE srcE : Word → Prog 64 Word} {conv : Word → Word} {dest src : Aptr}
  {count : Word} {m : Memory 64} {n : Nat}

/-- Offsets from the current position of the bytes of the first `n` elements. -/
def RoundBytes (conv : Word → Word) (n : Nat) (o : Word) : Prop :=
  ∃ c < n, (o - conv (BitVec.ofNat 64 c) * 4).toNat < 4

theorem loopBytes_iff (conv : Word → Word) (count o : Word) :
    LoopBytes conv count o ↔ RoundBytes conv count.toNat o := by
  constructor
  · rintro ⟨c, hc, ho⟩
    refine ⟨c.toNat, hc, ?_⟩
    rw [BitVec.ofNat_toNat, BitVec.setWidth_eq]
    exact ho
  · rintro ⟨c, hc, ho⟩
    refine ⟨BitVec.ofNat 64 c, ?_, ho⟩
    rw [BitVec.lt_def, BitVec.toNat_ofNat, Nat.mod_eq_of_lt (by omega)]
    exact hc

theorem roundBytes_succ (conv : Word → Word) (n : Nat) (o : Word) :
    RoundBytes conv (n + 1) o ↔
      RoundBytes conv n o ∨ (o - conv (BitVec.ofNat 64 n) * 4).toNat < 4 := by
  constructor
  · rintro ⟨c, hc, ho⟩
    rcases Nat.lt_succ_iff_lt_or_eq.mp hc with hlt | rfl
    · exact .inl ⟨c, hlt, ho⟩
    · exact .inr ho
  · rintro (⟨c, hc, ho⟩ | ho)
    · exact ⟨c, Nat.lt_succ_of_lt hc, ho⟩
    · exact ⟨n, Nat.lt_succ_self n, ho⟩

/-- A loop that gets through had all its subscripts accepted. -/
theorem copyLoop_accepts (hd : Subscripts destE conv dest) (hs : Subscripts srcE conv src)
    (h : (copyLoop 4 destE srcE n m).ending = .returns ()) :
    ∀ c < n, Accepts dest (conv (BitVec.ofNat 64 c)) ∧ Accepts src (conv (BitVec.ofNat 64 c)) := by
  induction n with
  | zero =>
      intro c hc
      omega
  | succ n ih =>
      rw [copyLoop] at h
      obtain ⟨_, hloop, hround⟩ := Prog.returns_of_bind h
      obtain ⟨s, hsrc, hround⟩ := Prog.returns_of_bind hround
      obtain ⟨d, hdest, -⟩ := Prog.returns_of_bind hround
      intro c hc
      rcases Nat.lt_succ_iff_lt_or_eq.mp hc with hlt | rfl
      · exact ih hloop c hlt
      · exact ⟨hd.accepts _ _ _ hdest, hs.accepts _ _ _ hsrc⟩

/-- **The loop.** When all subscripts are accepted, the bytes of all elements are copied. The
induction is on the rounds; that the ranges are disjoint keeps the source as it was. -/
theorem copyLoop_run (hd : Subscripts destE conv dest) (hs : Subscripts srcE conv src)
    (hdisjoint : DisjointRanges conv count dest src) (hn : n ≤ count.toNat)
    (hacc : ∀ c < n, Accepts dest (conv (BitVec.ofNat 64 c)) ∧
      Accepts src (conv (BitVec.ofNat 64 c))) :
    (copyLoop 4 destE srcE n m).ending = .returns () ∧
      Memory.CopiedAt m (copyLoop 4 destE srcE n m).mem (dest.convert_to_raw 4)
        (src.convert_to_raw 4) (RoundBytes conv n) := by
  induction n with
  | zero =>
      refine ⟨rfl, Memory.copiedAt_nothing ?_⟩
      rintro o ⟨c, hc, -⟩
      omega
  | succ n ih =>
      obtain ⟨hloop, hcopied⟩ := ih (by omega) fun c hc => hacc c (Nat.lt_succ_of_lt hc)
      obtain ⟨haccd, haccs⟩ := hacc n (Nat.lt_succ_self n)
      rw [copyLoop, Prog.bind_of_ending hloop, Prog.bind_of_returns (hs.returns _ _ haccs),
        Prog.bind_of_returns (hd.returns _ _ haccd)]
      refine ⟨rfl, (hcopied.write_block ?_).congr (roundBytes_succ conv n)⟩
      rintro o ⟨c, hc, ho⟩ hmem
      rw [Region.mem_mk, ← sub_sub] at hmem
      -- a byte of an earlier element of the destination in this element of the source
      have hdest : Touched conv count dest (dest.convert_to_raw 4 + o) := by
        refine ⟨(hacc c (by omega)).1.mem_allocation ho, .inr ?_⟩
        rw [add_sub_cancel_left, loopBytes_iff]
        exact ⟨c, by omega, ho⟩
      apply hdisjoint _ hdest
      refine ⟨?_, .inr ?_⟩
      · rw [← add_sub_cancel (src.convert_to_raw 4) (dest.convert_to_raw 4 + o)]
        exact haccs.mem_allocation hmem
      · rw [loopBytes_iff]
        exact ⟨n, hn, hmem⟩

/-! ## Fast and generic -/

/-- The block of `memcpy`. -/
def fastBlock (count : Word) (p : Aptr) : Region 64 := ⟨p.convert_to_raw 4, (count * 4).toNat⟩

theorem fast_accesses (dest src : Aptr) (count : Word) (m : Memory 64) :
    (aptr_copy_int dest src count m).ending ≠ .fails ∧
      (aptr_copy_int dest src count m).reads = [fastBlock count src] ∧
      (aptr_copy_int dest src count m).writes = [fastBlock count dest] := by
  show (memcpy (dest.convert_to_raw 4) (src.convert_to_raw 4) (count * 4).toNat m).ending ≠ _ ∧
    (memcpy _ _ _ m).reads = _ ∧ (memcpy _ _ _ m).writes = _
  unfold memcpy
  split
  · exact ⟨nofun, rfl, rfl⟩
  · exact ⟨nofun, rfl, rfl⟩

/-- Blocks in the two allocations do not overlap. -/
theorem fast_run (hdisjoint : DisjointRanges conv count dest src)
    (hdest : fastBlock count dest ⊆ dest.allocation 4)
    (hsrc : fastBlock count src ⊆ src.allocation 4) :
    (aptr_copy_int dest src count m).ending = .returns () ∧
      Memory.CopiedAt m (aptr_copy_int dest src count m).mem (dest.convert_to_raw 4)
        (src.convert_to_raw 4) (FastBytes count) := by
  have hapart : (fastBlock count dest).Apart (fastBlock count src) := by
    intro a had has
    exact hdisjoint a ⟨hdest a had, .inl had⟩ ⟨hsrc a has, .inl has⟩
  have hrun : aptr_copy_int dest src count m = ⟨.returns (), m.write (dest.convert_to_raw 4)
      (count * 4).toNat (m.byte (src.convert_to_raw 4)), [fastBlock count src],
      [fastBlock count dest]⟩ := if_pos hapart
  rw [hrun]
  exact ⟨rfl, Memory.copiedAt_write ..⟩

/-- What agreement comes to: every subscript is accepted, the blocks of `memcpy` lie in the
allocations, and it does not show where only one of the two copies. -/
theorem agree_iff_accepts (hd : Subscripts destE conv dest) (hs : Subscripts srcE conv src)
    (hdisjoint : DisjointRanges conv count dest src) :
    Agree (aptr_copy_int dest src count m) (copyLoop 4 destE srcE count.toNat m)
        (dest.allocation 4) (src.allocation 4) ↔
      (∀ c < count.toNat, Accepts dest (conv (BitVec.ofNat 64 c)) ∧
        Accepts src (conv (BitVec.ofNat 64 c))) ∧
      fastBlock count dest ⊆ dest.allocation 4 ∧ fastBlock count src ⊆ src.allocation 4 ∧
      ∀ o, ¬(FastBytes count o ↔ LoopBytes conv count o) →
        m (src.convert_to_raw 4 + o) = m (dest.convert_to_raw 4 + o) := by
  obtain ⟨hnever, hreads, hwrites⟩ := fast_accesses dest src count m
  have hresults : ∀ {m₁ m₂ : Memory 64},
      Memory.CopiedAt m m₁ (dest.convert_to_raw 4) (src.convert_to_raw 4) (FastBytes count) →
      Memory.CopiedAt m m₂ (dest.convert_to_raw 4) (src.convert_to_raw 4)
        (RoundBytes conv count.toNat) →
      (m₁ = m₂ ↔ ∀ o, ¬(FastBytes count o ↔ LoopBytes conv count o) →
        m (src.convert_to_raw 4 + o) = m (dest.convert_to_raw 4 + o)) :=
    fun h₁ h₂ => h₁.eq_iff (h₂.congr (loopBytes_iff conv count))
  constructor
  · intro hagree
    have hdest : fastBlock count dest ⊆ dest.allocation 4 := by
      apply hagree.writes
      rw [hwrites]
      exact List.mem_singleton_self _
    have hsrc : fastBlock count src ⊆ src.allocation 4 := by
      apply hagree.reads
      rw [hreads]
      exact List.mem_singleton_self _
    obtain ⟨-, hgeneric, hmem⟩ := hagree.same.resolve_left fun h => hnever h.1
    have hacc := copyLoop_accepts hd hs hgeneric
    have hloop := (copyLoop_run (m := m) hd hs hdisjoint (Nat.le_refl _) hacc).2
    exact ⟨hacc, hdest, hsrc, (hresults (fast_run hdisjoint hdest hsrc).2 hloop).mp hmem⟩
  · rintro ⟨hacc, hdest, hsrc, hsettled⟩
    obtain ⟨hgeneric, hloop⟩ := copyLoop_run (m := m) hd hs hdisjoint (Nat.le_refl _) hacc
    obtain ⟨hfast, hblock⟩ := fast_run (m := m) hdisjoint hdest hsrc
    refine ⟨.inr ⟨hfast, hgeneric, (hresults hblock hloop).mpr hsettled⟩, ?_, ?_⟩
    · intro r hr
      rw [hreads, List.mem_singleton] at hr
      rw [hr]
      exact hsrc
    · intro r hr
      rw [hwrites, List.mem_singleton] at hr
      rw [hr]
      exact hdest

end

/-! ## The elements in numbers -/

/-- The counter, converted, runs from `-low` to `high - 1`, by way of 0. -/
structure Sweeps (conv : Word → Word) (count : Word) (low high : Int) : Prop where
  bound : low ≤ 2 ^ 62 ∧ high ≤ 2 ^ 62
  pos : 1 ≤ high
  first : conv 0 = 0
  between : ∀ c < count.toNat, -low ≤ (conv (BitVec.ofNat 64 c)).toInt ∧
    (conv (BitVec.ofNat 64 c)).toInt < high
  least : ∃ c < count.toNat, (conv (BitVec.ofNat 64 c)).toInt = -low
  last : ∃ c < count.toNat, (conv (BitVec.ofNat 64 c)).toInt = high - 1

section

variable {index size k count : Word} {p : Aptr} {conv : Word → Word} {low high : Int}

/-- From an index that is not negative a short way leads to a sum that may overflow, and then it
is out of bounds too. -/
theorem moved_check_iff (h0 : 0 ≤ index.toInt) (hk : -2 ^ 62 ≤ k.toInt ∧ k.toInt ≤ 2 ^ 62) :
    BOUNDS_CHECK (index + k) size = true ↔
      0 ≤ index.toInt + k.toInt ∧ index.toInt + k.toInt < size.toInt := by
  have hindex := BitVec.toInt_lt (x := index)
  have hsize := BitVec.toInt_lt (x := size)
  rw [boundsCheck_iff, BitVec.toInt_add, Int.bmod_def]
  split_ifs <;> omega

theorem Sweeps.low_nonneg (h : Sweeps conv count low high) : 0 ≤ low := by
  obtain ⟨c, hc, -⟩ := h.last
  have hzero := (h.between 0 (by omega)).1
  rw [show BitVec.ofNat 64 0 = 0 from rfl, h.first] at hzero
  change -low ≤ 0 at hzero
  omega

theorem Sweeps.accepts_iff (h : Sweeps conv count low high) :
    (∀ c < count.toNat, Accepts p (conv (BitVec.ofNat 64 c))) ↔
      p.data ≠ 0 ∧ low ≤ p.index.toInt ∧ p.index.toInt + high ≤ p.size.toInt := by
  obtain ⟨hlow, hhigh⟩ := h.bound
  have hpos := h.pos
  obtain ⟨cl, hcl, hleast⟩ := h.least
  obtain ⟨ch, hch, hlast⟩ := h.last
  have hlow0 := h.low_nonneg
  constructor
  · intro hacc
    obtain ⟨hdata, hzero⟩ := hacc 0 (by omega)
    rw [show BitVec.ofNat 64 0 = 0 from rfl, h.first, add_zero, boundsCheck_iff] at hzero
    have hl := (moved_check_iff hzero.1 (by omega)).mp (hacc cl hcl).2
    have hh := (moved_check_iff hzero.1 (by omega)).mp (hacc ch hch).2
    exact ⟨hdata, by omega, by omega⟩
  · rintro ⟨hdata, hl, hh⟩ c hc
    obtain ⟨h1, h2⟩ := h.between c hc
    exact ⟨hdata, (moved_check_iff (by omega) (by omega)).mpr (by omega)⟩

/-- The block of `memcpy` from an element of the allocation on. -/
theorem fastBlock_subset_iff (hdata : p.data ≠ 0) (h0 : 0 ≤ p.index.toInt)
    (hlt : p.index.toInt < p.size.toInt) :
    fastBlock count p ⊆ p.allocation 4 ↔
      p.index.toInt + (count.toNat % 2 ^ 62 : Nat) ≤ p.size.toInt ∨ 2 ^ 62 ≤ p.size.toInt := by
  have hindex := toInt_eq_toNat h0
  have hsize := toInt_eq_toNat (x := p.size) (by omega)
  rw [Aptr.allocation, block, if_neg hdata]
  show _ ⊆ (⟨p.data, p.size.toNat * 4⟩ : Region 64) ↔ _
  by_cases hfull : 2 ^ 64 ≤ p.size.toNat * 4
  · -- the allocation is the whole address space
    refine iff_of_true (fun a _ => ?_) (.inr (by omega))
    have := (a - p.data).isLt
    rw [Region.mem_mk]
    omega
  · rw [Region.subset_iff (by show p.size.toNat * 4 < 2 ^ 64; omega)]
    show (count * 4).toNat = 0 ∨
      (element 4 p.data p.index - p.data).toNat + (count * 4).toNat ≤ p.size.toNat * 4 ↔ _
    rw [element_sub, bytes_toNat]
    show _ ∨ p.index.toNat * 4 % 2 ^ 64 + _ ≤ _ ↔ _
    omega

theorem Sweeps.spans_iff (h : Sweeps conv count low high) :
    (∀ c < count.toNat, Accepts p (conv (BitVec.ofNat 64 c))) ∧
        fastBlock count p ⊆ p.allocation 4 ↔
      Spans low high count p := by
  have hpos := h.pos
  have hlow0 := h.low_nonneg
  rw [h.accepts_iff]
  constructor
  · rintro ⟨⟨hdata, hl, hh⟩, hblock⟩
    have h0 : 0 ≤ p.index.toInt := by omega
    exact ⟨hdata, hl, hh, (fastBlock_subset_iff hdata h0 (by omega)).mp hblock⟩
  · rintro ⟨hdata, hl, hh, hfast⟩
    have h0 : 0 ≤ p.index.toInt := by omega
    exact ⟨⟨hdata, hl, hh⟩, (fastBlock_subset_iff hdata h0 (by omega)).mpr hfast⟩

end

/-- How far the counter goes down as an `int`: it turns negative at `2 ^ 31`. -/
def intLow (count : Word) : Int := if count.toNat ≤ 2 ^ 31 then 0 else 2 ^ 31

def intHigh (count : Word) : Int := min count.toNat (2 ^ 31)

def unsignedHigh (count : Word) : Int := min count.toNat (2 ^ 32)

theorem asInt_toInt {c : Nat} (h : c < 2 ^ 64) : (asInt (BitVec.ofNat 64 c)).toInt =
    if c % 2 ^ 32 < 2 ^ 31 then ((c % 2 ^ 32 : Nat) : Int) else (c % 2 ^ 32 : Nat) - 2 ^ 32 := by
  rw [asInt, ofInt, BitVec.toInt_signExtend_of_le (by omega), BitVec.toInt_eq_toNat_cond,
    BitVec.toNat_setWidth, BitVec.toNat_ofNat, Nat.mod_eq_of_lt h]
  split_ifs <;> omega

theorem asUnsigned_toInt {c : Nat} (h : c < 2 ^ 64) :
    (asUnsigned (BitVec.ofNat 64 c)).toInt = (c % 2 ^ 32 : Nat) := by
  have hnat : (asUnsigned (BitVec.ofNat 64 c)).toNat = c % 2 ^ 32 := by
    rw [asUnsigned, ofUnsigned, BitVec.toNat_setWidth, BitVec.toNat_setWidth, BitVec.toNat_ofNat,
      Nat.mod_eq_of_lt h]
    omega
  rw [toInt_of_lt (by omega), hnat]

/-- A counter in the range of `int` is converted to itself. -/
theorem asInt_of_lt {i : Nat} (h : i < 2 ^ 31) : asInt (BitVec.ofNat 64 i) = BitVec.ofNat 64 i := by
  have hnat : (BitVec.ofNat 64 i).toNat = i := Region.toNat_ofNat_of_lt (by omega)
  apply BitVec.eq_of_toInt_eq
  rw [asInt_toInt (by omega), if_pos (by omega), toInt_of_lt (by omega), hnat,
    Nat.mod_eq_of_lt (by omega)]

/-- A counter in the range of `unsigned int` is converted to itself. -/
theorem asUnsigned_of_lt {i : Nat} (h : i < 2 ^ 32) :
    asUnsigned (BitVec.ofNat 64 i) = BitVec.ofNat 64 i := by
  have hnat : (BitVec.ofNat 64 i).toNat = i := Region.toNat_ofNat_of_lt (by omega)
  apply BitVec.eq_of_toInt_eq
  rw [asUnsigned_toInt (by omega), toInt_of_lt (by omega), hnat, Nat.mod_eq_of_lt (by omega)]

theorem sweeps_asInt {count : Word} (h : count ≠ 0) :
    Sweeps asInt count (intLow count) (intHigh count) := by
  have hcount := count.isLt
  have hpos := toNat_pos h
  unfold intLow intHigh
  refine ⟨by split_ifs <;> omega, by omega, rfl, ?_, ?_, ?_⟩
  · intro c hc
    rw [asInt_toInt (by omega)]
    split_ifs <;> omega
  · by_cases hle : count.toNat ≤ 2 ^ 31
    · exact ⟨0, hpos, by rw [if_pos hle]; rfl⟩
    · refine ⟨2 ^ 31, by omega, ?_⟩
      rw [if_neg hle]
      rfl
  · refine ⟨min count.toNat (2 ^ 31) - 1, by omega, ?_⟩
    rw [asInt_toInt (by omega)]
    split_ifs <;> omega

theorem sweeps_asUnsigned {count : Word} (h : count ≠ 0) :
    Sweeps asUnsigned count 0 (unsignedHigh count) := by
  have hcount := count.isLt
  have hpos := toNat_pos h
  unfold unsignedHigh
  refine ⟨by omega, by omega, rfl, ?_, ⟨0, hpos, rfl⟩, ?_⟩
  · intro c hc
    rw [asUnsigned_toInt (by omega)]
    omega
  · refine ⟨min count.toNat (2 ^ 32) - 1, by omega, ?_⟩
    rw [asUnsigned_toInt (by omega)]
    omega

section

variable {destE srcE : Word → Prog 64 Word} {conv : Word → Word} {dest src : Aptr}
  {count : Word} {m : Memory 64} {low high : Int}

theorem agree_iff_fits (hd : Subscripts destE conv dest) (hs : Subscripts srcE conv src)
    (hsweeps : count ≠ 0 → Sweeps conv count low high)
    (hdisjoint : DisjointRanges conv count dest src) :
    Agree (aptr_copy_int dest src count m) (copyLoop 4 destE srcE count.toNat m)
        (dest.allocation 4) (src.allocation 4) ↔
      FastCopyFits low high conv count dest src m := by
  rw [agree_iff_accepts hd hs hdisjoint]
  unfold FastCopyFits
  by_cases hcount : count = 0
  · subst hcount
    have hnone : ∀ o, FastBytes 0 o ↔ LoopBytes conv 0 o := by
      intro o
      rw [loopBytes_iff]
      refine iff_of_false (Nat.not_lt_zero _) ?_
      rintro ⟨c, hc, -⟩
      exact Nat.not_lt_zero c hc
    refine iff_of_true ⟨?_, ?_, ?_, fun o hone => absurd (hnone o) hone⟩ (.inl rfl)
    · intro c hc
      exact absurd hc (Nat.not_lt_zero c)
    · exact Region.subset_of_len rfl
    · exact Region.subset_of_len rfl
  · rw [or_iff_right hcount, ← (hsweeps hcount).spans_iff, ← (hsweeps hcount).spans_iff]
    constructor
    · rintro ⟨hacc, hdest, hsrc, hsettled⟩
      exact ⟨⟨fun c hc => (hacc c hc).1, hdest⟩, ⟨fun c hc => (hacc c hc).2, hsrc⟩, hsettled⟩
    · rintro ⟨⟨haccd, hdest⟩, ⟨haccs, hsrc⟩, hsettled⟩
      exact ⟨fun c hc => ⟨haccd c hc, haccs c hc⟩, hdest, hsrc, hsettled⟩

end

/-- Pointers into allocations that are apart have disjoint ranges. -/
theorem disjointRanges_of_apart {conv : Word → Word} {count : Word} {dest src : Aptr}
    (h : (dest.allocation 4).Apart (src.allocation 4)) : DisjointRanges conv count dest src :=
  fun a hdest hsrc => h a hdest.1 hsrc.1

/-! ### Counts that a subscript can take -/

/-- There are `count` elements from the current position on. -/
def HasElements (count : Word) (p : Aptr) : Prop :=
  p.data ≠ 0 ∧ 0 ≤ p.index.toInt ∧ p.index.toInt + count.toNat ≤ p.size.toInt

/-- Where the conversion changes nothing the two copy the same bytes. -/
theorem fastBytes_iff_loopBytes {conv : Word → Word} {count : Word} (hcount : count.toNat < 2 ^ 62)
    (hconv : ∀ c < count.toNat, conv (BitVec.ofNat 64 c) = BitVec.ofNat 64 c) (o : Word) :
    FastBytes count o ↔ LoopBytes conv count o := by
  have helement : ∀ c < count.toNat, (BitVec.ofNat 64 c * 4).toNat = c * 4 := by
    intro c hc
    rw [BitVec.toNat_mul, BitVec.toNat_ofNat]
    show c % 2 ^ 64 * 4 % 2 ^ 64 = _
    omega
  rw [loopBytes_iff]
  unfold FastBytes
  rw [bytes_toNat, Nat.mod_eq_of_lt hcount]
  constructor
  · intro ho
    refine ⟨o.toNat / 4, by omega, ?_⟩
    have hc := helement (o.toNat / 4) (by omega)
    rw [hconv _ (by omega), BitVec.toNat_sub_of_le (by rw [BitVec.le_def, hc]; omega), hc]
    omega
  · rintro ⟨c, hc, ho⟩
    rw [hconv c hc] at ho
    have hsum := BitVec.toNat_add (o - BitVec.ofNat 64 c * 4) (BitVec.ofNat 64 c * 4)
    rw [sub_add_cancel, helement c hc] at hsum
    omega

theorem fastCopyFits_iff_elements {conv : Word → Word} {count : Word} {high : Int} {dest src : Aptr}
    {m : Memory 64} (hhigh : high = count.toNat) (hcount : count.toNat < 2 ^ 62)
    (hconv : ∀ c < count.toNat, conv (BitVec.ofNat 64 c) = BitVec.ofNat 64 c) :
    FastCopyFits 0 high conv count dest src m ↔
      count = 0 ∨ HasElements count dest ∧ HasElements count src := by
  have hspans : ∀ p : Aptr, Spans 0 high count p ↔ HasElements count p := by
    intro p
    subst hhigh
    constructor
    · intro h
      exact ⟨h.data_ne, h.low_le, h.high_le⟩
    · rintro ⟨hdata, hlow, hle⟩
      exact ⟨hdata, hlow, hle, .inl (by rw [Nat.mod_eq_of_lt hcount]; exact hle)⟩
  unfold FastCopyFits
  rw [hspans, hspans, and_iff_left (fun o hone => absurd (fastBytes_iff_loopBytes hcount hconv o)
    hone)]

/-- Up to `2 ^ 31` elements for `aptr`, and up to `2 ^ 32` for `laptr`, the copy fits when there
are so many in both. -/
theorem fastCopyFits_small {count : Word} (dest src : Aptr) (m : Memory 64) :
    (count.toNat ≤ 2 ^ 31 →
      (FastCopyFits (intLow count) (intHigh count) asInt count dest src m ↔
        count = 0 ∨ HasElements count dest ∧ HasElements count src)) ∧
    (count.toNat ≤ 2 ^ 32 →
      (FastCopyFits 0 (unsignedHigh count) asUnsigned count dest src m ↔
        count = 0 ∨ HasElements count dest ∧ HasElements count src)) := by
  constructor
  · intro hle
    rw [intLow, if_pos hle]
    apply fastCopyFits_iff_elements
    · rw [intHigh]
      omega
    · omega
    · intro c hc
      exact asInt_of_lt (by omega)
  · intro hle
    apply fastCopyFits_iff_elements
    · rw [unsignedHigh]
      omega
    · omega
    · intro c hc
      exact asUnsigned_of_lt (by omega)

/-- **The fast copy.** `copy<int>` over disjoint ranges agrees with the generic copy, and stays
in the two allocations, exactly when the copy fits. -/
theorem fast_copy_agrees_iff {dest src : Aptr} {dest' src' : Laptr} {count : Word}
    (h : DisjointRanges asInt count dest src)
    (h' : DisjointRanges asUnsigned count (fields dest') (fields src')) (m : Memory 64) :
    (Agree (aptr_copy_int dest src count m) (aptr_copy 4 dest src count m)
        (dest.allocation 4) (src.allocation 4) ↔
      FastCopyFits (intLow count) (intHigh count) asInt count dest src m) ∧
    (Agree (laptr_copy_int dest' src' count m) (laptr_copy 4 dest' src' count m)
        (dest'.allocation 4) (src'.allocation 4) ↔
      FastCopyFits 0 (unsignedHigh count) asUnsigned count (fields dest') (fields src') m) := by
  constructor
  · rw [aptr_copy]
    exact agree_iff_fits (aptr_subscripts dest) (aptr_subscripts src) sweeps_asInt h
  · rw [laptr_copy, laptr_copy_int_eq, ← fields_allocation, ← fields_allocation]
    exact agree_iff_fits (laptr_subscripts dest') (laptr_subscripts src') sweeps_asUnsigned h'

/-- Two elements, between two arrays of two. -/
theorem fast_copy_agrees_iff_two :
    (Agree (aptr_copy_int ⟨0x1000, 0, 2⟩ ⟨0x2000, 0, 2⟩ 2 fun _ => 0)
        (aptr_copy 4 ⟨0x1000, 0, 2⟩ ⟨0x2000, 0, 2⟩ 2 fun _ => 0) ⟨0x1000, 8⟩ ⟨0x2000, 8⟩ ↔
      FastCopyFits (intLow 2) (intHigh 2) asInt 2 ⟨0x1000, 0, 2⟩ ⟨0x2000, 0, 2⟩ fun _ => 0) ∧
    (Agree (laptr_copy_int ⟨0x1000, 0, 2, 0⟩ ⟨0x2000, 0, 2, 0⟩ 2 fun _ => 0)
        (laptr_copy 4 ⟨0x1000, 0, 2, 0⟩ ⟨0x2000, 0, 2, 0⟩ 2 fun _ => 0) ⟨0x1000, 8⟩
        ⟨0x2000, 8⟩ ↔
      FastCopyFits 0 (unsignedHigh 2) asUnsigned 2 ⟨0x1000, 0, 2⟩ ⟨0x2000, 0, 2⟩ fun _ => 0) :=
  fast_copy_agrees_iff (disjointRanges_of_apart (by decide))
    (show DisjointRanges asUnsigned 2 (fields ⟨0x1000, 0, 2, 0⟩) (fields ⟨0x2000, 0, 2, 0⟩) from
      disjointRanges_of_apart (by decide)) _

/-- Four elements between two arrays of two: the loop stops at the third, and `copy<int>` copies
all four. -/
theorem fast_copy_overruns :
    DisjointRanges asInt 4 ⟨0x1000, 0, 2⟩ ⟨0x2000, 0, 2⟩ ∧
      (aptr_copy 4 ⟨0x1000, 0, 2⟩ ⟨0x2000, 0, 2⟩ 4 fun _ => 0).ending = .fails ∧
      (aptr_copy_int ⟨0x1000, 0, 2⟩ ⟨0x2000, 0, 2⟩ 4 fun _ => 0).ending = .returns () ∧
      ¬Agree (aptr_copy_int ⟨0x1000, 0, 2⟩ ⟨0x2000, 0, 2⟩ 4 fun _ => 0)
        (aptr_copy 4 ⟨0x1000, 0, 2⟩ ⟨0x2000, 0, 2⟩ 4 fun _ => 0) ⟨0x1000, 8⟩ ⟨0x2000, 8⟩ := by
  refine ⟨disjointRanges_of_apart (by decide), by decide, by decide, fun h => ?_⟩
  have hin : (⟨0x1000, 16⟩ : Region 64) ⊆ ⟨0x1000, 8⟩ := h.writes _ (by decide)
  have hmem : (0x1008 : Word) ∈ (⟨0x1000, 8⟩ : Region 64) := hin _ (by decide)
  revert hmem
  decide

end Ironclad.Wrappers
