import Ironclad.Logic.Machine
import Ironclad.Gc.TypedDescriptors

/-!
# The table of extended descriptors

`GC_add_ext_descriptor` appends the parts of a bitmap to a table that all threads share. The
table is enlarged by a copy; the lock is given up for the allocation, so other threads may add
descriptors or enlarge the table in the meantime, and the loop looks at everything again. A step
of the machine is what a thread does while it holds the lock.

What was appended once is never moved: the invariant says where the row of each descriptor is,
and a copy or another row leaves it alone. So in every state of every interleaving each
descriptor still stands for the words of its bitmap.
-/

namespace Ironclad.Gc.Typed

open Logic BitScan RangeSplit

/-! ## Rows -/

/-- The number of parts, `nwords`. -/
def nwords (nbits : Nat) : Nat := (nbits + 64 - 1) / 64

/-- The parts that are continued. -/
def fillParts (bm : Nat → BitVec 64) (result : Nat) : Nat → List ext_descr → List ext_descr
  | 0, table => table
  | i + 1, table => (fillParts bm result i table).set (result + i) ⟨bm i, true⟩

/-- The last part, without the irrelevant bits. -/
def lastPart (bm : Nat → BitVec 64) (nbits : Nat) : BitVec 64 :=
  let extra_bits := nwords nbits * 64 - nbits
  (bm (nwords nbits - 1) <<< extra_bits) >>> extra_bits

/-- The table with the bitmap at `result`. -/
def putRow (bm : Nat → BitVec 64) (nbits result : Nat) (table : List ext_descr) :
    List ext_descr :=
  (fillParts bm result (nwords nbits - 1) table).set (result + (nwords nbits - 1))
    ⟨lastPart bm nbits, false⟩

/-! ## Threads -/

def MAX_ENV : Nat := 2 ^ (64 - GC_DS_TAG_BITS - GC_LOG_MAX_MARK_PROCS) - 1

def ED_INITIAL_SIZE : Nat := 100

/-- A call that has given up the lock to allocate: the size of the table it has seen, and how
many blocks it has got so far. -/
structure Pending where
  bm : GC_bitmap
  nbits : Nat
  ed_size : Nat
  blocks : Nat

/-- How a descriptor came about. -/
inductive Outcome where
  | simple
  | added (index : Nat)
  | failed
  deriving DecidableEq, Repr

/-- A descriptor that `GC_make_descriptor` has returned. -/
structure Made where
  bm : GC_bitmap
  outcome : Outcome
  descr : GC_descr

/-- The table, of which `GC_ed_size` is the length, and the calls of the threads. -/
structure TypedState where
  GC_ext_descriptors : List ext_descr
  GC_avail_descr : Nat
  GC_push_typed_structures : Bool
  pending : Nat → Option Pending
  made : List Made

def TypedState.GC_ed_size (s : TypedState) : Nat := s.GC_ext_descriptors.length

/-- The size that is asked for. -/
def newSize (ed_size : Nat) : Nat := if ed_size = 0 then ED_INITIAL_SIZE else 2 * ed_size

section

variable (procs : MarkProcs)

/-- The call of a thread returns. -/
def finish (t : Nat) (m : Made) (s : TypedState) : TypedState :=
  { s with pending := Function.update s.pending t none, made := s.made ++ [m] }

/-- `GC_add_ext_descriptor` has returned -1: a conservative approximation. -/
def fail (t : Nat) (p : Pending) (s : TypedState) : TypedState :=
  finish t ⟨p.bm, .failed, lengthDescr p.nbits⟩ s

/-- The lock is given up for an allocation. -/
def wait (t : Nat) (p : Pending) (s : TypedState) : TypedState :=
  { s with pending := Function.update s.pending t (some { p with ed_size := s.GC_ed_size }) }

/-- From the test of the loop on, with the lock held, until the lock is given up. -/
def addLocked (t : Nat) (p : Pending) (s : TypedState) : TypedState :=
  if s.GC_ed_size ≤ s.GC_avail_descr + nwords p.nbits then
    if s.GC_ed_size = 0 then wait t p { s with GC_push_typed_structures := true }
    else if MAX_ENV < 2 * s.GC_ed_size then fail t p s
    else wait t p s
  else
    finish t ⟨p.bm, .added s.GC_avail_descr, GC_MAKE_PROC procs.GC_typed_mark_proc_index
        (BitVec.ofNat 64 s.GC_avail_descr)⟩
      { s with
        GC_ext_descriptors := putRow p.bm.word p.nbits s.GC_avail_descr s.GC_ext_descriptors
        GC_avail_descr := s.GC_avail_descr + nwords p.nbits }

/-- The new block takes the place of the table, unless another thread has resized it. -/
def install (p : Pending) (new : List ext_descr) (s : TypedState) : TypedState :=
  if p.ed_size = s.GC_ed_size then
    { s with GC_ext_descriptors :=
        if s.GC_avail_descr ≠ 0 then
          s.GC_ext_descriptors.take s.GC_avail_descr ++ new.drop s.GC_avail_descr
        else new }
  else s

/-- A thread calls `GC_make_descriptor`, or goes on with what `GC_malloc_atomic` has returned. -/
inductive TypedAct where
  | make (t : Nat) (bm : GC_bitmap)
  | allocated (t : Nat) (new : Option (List ext_descr))

/-- One step; a thread is in one call at a time, and a block has the size asked for. -/
def typedStep (s : TypedState) : TypedAct → Option TypedState
  | .make t bm =>
      if (s.pending t).isSome then none
      else
        match GC_make_descriptor bm with
        | .simple d => some (finish t ⟨bm, .simple, d⟩ s)
        | .extended nbits => some (addLocked procs t ⟨bm, nbits, 0, 0⟩ s)
  | .allocated t new =>
      (s.pending t).bind fun p =>
        match new with
        | none => some (fail t p s)
        | some block =>
            if block.length = newSize p.ed_size then
              some (addLocked procs t { p with blocks := p.blocks + 1 } (install p block s))
            else none

/-- Threads that make descriptors. -/
def typedMachine : Machine TypedState TypedAct :=
  ⟨⟨[], 0, false, fun _ => none, []⟩, typedStep procs⟩

end

/-! ## What a row is -/

section

variable {bm : Nat → BitVec 64} {nbits result n : Nat} {table : List ext_descr}

/-- The parts of a bitmap. -/
def rowPart (bm : Nat → BitVec 64) (nbits k : Nat) : BitVec 64 :=
  if k + 1 < nwords nbits then bm k else lastPart bm nbits

theorem length_fillParts : (fillParts bm result n table).length = table.length := by
  induction n with
  | zero => rfl
  | succ n ih => rw [fillParts, List.length_set, ih]

theorem length_putRow : (putRow bm nbits result table).length = table.length := by
  rw [putRow, List.length_set, length_fillParts]

theorem getElem?_fillParts (h : result + n ≤ table.length) (j : Nat) :
    (fillParts bm result n table)[j]? =
      if result ≤ j ∧ j < result + n then some ⟨bm (j - result), true⟩ else table[j]? := by
  induction n with
  | zero => rw [if_neg (by omega), fillParts]
  | succ n ih =>
      rw [fillParts]
      by_cases hj : j = result + n
      · subst hj
        rw [List.getElem?_set_self (by rw [length_fillParts]; omega), if_pos (by omega),
          Nat.add_sub_cancel_left]
      · rw [List.getElem?_set_ne (by omega), ih (by omega)]
        by_cases hin : result ≤ j ∧ j < result + n
        · rw [if_pos hin, if_pos (by omega)]
        · rw [if_neg hin, if_neg (by omega)]

theorem nwords_pos (h : 0 < nbits) : 0 < nwords nbits := by
  unfold nwords
  omega

/-- What stands in front of a row stays. -/
theorem getElem?_putRow_of_lt (hpos : 0 < nbits) (h : result + nwords nbits ≤ table.length)
    {j : Nat} (hj : j < result) : (putRow bm nbits result table)[j]? = table[j]? := by
  have hn := nwords_pos hpos
  rw [putRow, List.getElem?_set_ne (by omega), getElem?_fillParts (by omega), if_neg (by omega)]

/-- The row is there. -/
theorem hasRow_putRow (hpos : 0 < nbits) (h : result + nwords nbits ≤ table.length) :
    HasRow (putRow bm nbits result table) result (rowPart bm nbits) (nwords nbits) := by
  have hn := nwords_pos hpos
  intro k hk
  rw [putRow, rowPart]
  by_cases hlast : k + 1 < nwords nbits
  · rw [List.getElem?_set_ne (by omega), getElem?_fillParts (by omega), if_pos (by omega),
      if_pos hlast, Nat.add_sub_cancel_left, decide_eq_true hlast]
  · rw [show k = nwords nbits - 1 by omega,
      List.getElem?_set_self (by rw [length_fillParts]; omega), if_neg (by omega),
      decide_eq_false (by omega)]

/-- The parts have the bits of the bitmap and no others. -/
theorem partsBit_rowPart {bm : GC_bitmap} (hpos : 0 < nbits) {i : Nat}
    (hi : i < nwords nbits * 64) :
    partsBit (rowPart bm.word nbits) i = (decide (i < nbits) && bm.bit i) := by
  unfold partsBit rowPart
  by_cases hlast : i / 64 + 1 < nwords nbits
  · have hlt : i < nbits := by
      unfold nwords at hlast
      omega
    rw [if_pos hlast, decide_eq_true hlt]
    rfl
  · have hword : i / 64 = nwords nbits - 1 := by omega
    rw [if_neg hlast, lastPart, BitVec.getLsbD_ushiftRight, BitVec.getLsbD_shiftLeft,
      Nat.add_sub_cancel_left, ← hword]
    have hkept : decide (nwords nbits * 64 - nbits + i % 64 < 64) = decide (i < nbits) := by
      apply decide_eq_decide.mpr
      unfold nwords at hi hword ⊢
      omega
    have hin : decide (nwords nbits * 64 - nbits + i % 64 < nwords nbits * 64 - nbits) = false :=
      decide_eq_false (by omega)
    rw [hkept, hin]
    simp [GC_bitmap.bit]

end

/-! ## The invariant -/

section

variable {procs : MarkProcs} {table table' : List ext_descr} {avail avail' : Nat} {m : Made}
  {p : Pending} {s : TypedState} {t : Nat}

/-- Where a descriptor that has been returned came from, and where its row is. -/
def MadeAt (procs : MarkProcs) (table : List ext_descr) (avail : Nat) (m : Made) : Prop :=
  match m.outcome with
  | .simple => GC_make_descriptor m.bm = .simple m.descr
  | .failed => ∃ nbits, GC_make_descriptor m.bm = .extended nbits ∧ m.descr = lengthDescr nbits
  | .added index => ∃ nbits, GC_make_descriptor m.bm = .extended nbits ∧
      m.descr = GC_MAKE_PROC procs.GC_typed_mark_proc_index (BitVec.ofNat 64 index) ∧
      index + nwords nbits ≤ avail ∧
      HasRow table index (rowPart m.bm.word nbits) (nwords nbits)

/-- The sizes that a table can have. -/
def IsSize (n : Nat) : Prop := n = 0 ∨ ∃ k, n = ED_INITIAL_SIZE * 2 ^ k

/-- What holds of a call while it waits for a block: it has seen a size the table has had, and
with each block that it got the table had grown again. -/
structure PendingAt (size : Nat) (p : Pending) : Prop where
  extended : GC_make_descriptor p.bm = .extended p.nbits
  seen_le : p.ed_size ≤ size
  isSize : IsSize p.ed_size
  fits : 2 * p.ed_size ≤ MAX_ENV
  grown : p.blocks ≠ 0 → ED_INITIAL_SIZE * 2 ^ (p.blocks - 1) ≤ p.ed_size

/-- The invariant. -/
structure TableInv (procs : MarkProcs) (s : TypedState) : Prop where
  avail_le : s.GC_avail_descr ≤ s.GC_ed_size
  isSize : IsSize s.GC_ed_size
  bound : s.GC_ed_size ≤ MAX_ENV
  rooted : s.GC_ed_size ≠ 0 → s.GC_push_typed_structures = true
  made : ∀ m ∈ s.made, MadeAt procs s.GC_ext_descriptors s.GC_avail_descr m
  pending : ∀ t p, s.pending t = some p →
    PendingAt s.GC_ed_size p ∧ s.GC_push_typed_structures = true

/-- Rows stay when what is in use of the table does. -/
theorem MadeAt.mono (h : MadeAt procs table avail m) (havail : avail ≤ avail')
    (htable : ∀ j < avail, table'[j]? = table[j]?) : MadeAt procs table' avail' m := by
  unfold MadeAt at h ⊢
  cases hout : m.outcome with
  | simple =>
      rw [hout] at h
      exact h
  | failed =>
      rw [hout] at h
      exact h
  | added index =>
      rw [hout] at h
      obtain ⟨nbits, hext, hdescr, hle, hrow⟩ := h
      refine ⟨nbits, hext, hdescr, Nat.le_trans hle havail, ?_⟩
      intro k hk
      rw [htable _ (by omega)]
      exact hrow k hk

/-- One size is at least twice a smaller one. -/
theorem IsSize.double {n k : Nat} (hn : IsSize n) (hk : IsSize k) (h0 : k ≠ 0) (hlt : k < n) :
    2 * k ≤ n := by
  rcases hn with rfl | ⟨i, rfl⟩
  · omega
  · rcases hk with rfl | ⟨j, rfl⟩
    · exact absurd rfl h0
    · have hji : j < i := (Nat.pow_lt_pow_iff_right (by omega)).mp
        (Nat.lt_of_mul_lt_mul_left hlt)
      calc 2 * (ED_INITIAL_SIZE * 2 ^ j) = ED_INITIAL_SIZE * 2 ^ (j + 1) := by
            rw [Nat.pow_succ, ← Nat.mul_assoc ED_INITIAL_SIZE, Nat.mul_comm 2]
        _ ≤ ED_INITIAL_SIZE * 2 ^ i :=
            Nat.mul_le_mul_left _ (Nat.pow_le_pow_right (by omega) hji)

theorem IsSize.initial_le {n : Nat} (hn : IsSize n) (h0 : n ≠ 0) : ED_INITIAL_SIZE ≤ n := by
  rcases hn with rfl | ⟨k, rfl⟩
  · exact absurd rfl h0
  · exact Nat.le_mul_of_pos_right _ (Nat.two_pow_pos k)

theorem IsSize.newSize {n : Nat} (hn : IsSize n) : IsSize (newSize n) := by
  unfold Typed.newSize
  split
  · exact .inr ⟨0, rfl⟩
  · rcases hn with rfl | ⟨k, rfl⟩
    · contradiction
    · refine .inr ⟨k + 1, ?_⟩
      rw [Nat.pow_succ, ← Nat.mul_assoc ED_INITIAL_SIZE, Nat.mul_comm 2]

/-- The call of a thread returns. -/
theorem TableInv.finish (h : TableInv procs s) (t : Nat) {m : Made}
    (hm : MadeAt procs s.GC_ext_descriptors s.GC_avail_descr m) :
    TableInv procs (finish t m s) := by
  refine ⟨h.avail_le, h.isSize, h.bound, h.rooted, ?_, ?_⟩
  · intro m' hm'
    rcases List.mem_append.mp hm' with hmem | hmem
    · exact h.made m' hmem
    · rw [List.mem_singleton.mp hmem]
      exact hm
  · intro u p hp
    change Function.update s.pending t none u = some p at hp
    by_cases hu : u = t
    · rw [hu, Function.update_self] at hp
      cases hp
    · rw [Function.update_of_ne hu] at hp
      exact h.pending u p hp

/-- A call gives the lock up. -/
theorem TableInv.wait (h : TableInv procs s) (t : Nat)
    (hext : GC_make_descriptor p.bm = .extended p.nbits) (hfits : 2 * s.GC_ed_size ≤ MAX_ENV)
    (hgrown : p.blocks ≠ 0 → ED_INITIAL_SIZE * 2 ^ (p.blocks - 1) ≤ s.GC_ed_size)
    (hpush : s.GC_push_typed_structures = true) : TableInv procs (wait t p s) := by
  refine ⟨h.avail_le, h.isSize, h.bound, h.rooted, h.made, ?_⟩
  intro u q hq
  change Function.update s.pending t _ u = some q at hq
  by_cases hu : u = t
  · rw [hu, Function.update_self] at hq
    obtain rfl := Option.some.inj hq
    exact ⟨⟨hext, Nat.le_refl _, h.isSize, hfits, hgrown⟩, hpush⟩
  · rw [Function.update_of_ne hu] at hq
    exact h.pending u q hq

theorem extended_pos {bm : GC_bitmap} {nbits : Nat}
    (h : GC_make_descriptor bm = .extended nbits) :
    0 < nbits ∧ nbits < 2 ^ 60 ∧ lastSetBit bm.bit bm.len = some (nbits - 1) := by
  unfold GC_make_descriptor at h
  have hlt := bm.len_lt
  cases hlast : lastSetBit bm.bit bm.len with
  | none =>
      rw [hlast] at h
      cases h
  | some last =>
      rw [hlast] at h
      simp only at h
      have hle := (lastSetBit_some hlast).1
      split at h
      · cases h
      · split at h
        · cases h
        · cases h
          refine ⟨by omega, by omega, ?_⟩
          rw [Nat.add_sub_cancel]

/-- A thread goes on with the lock held. -/
theorem TableInv.addLocked (h : TableInv procs s) (t : Nat)
    (hext : GC_make_descriptor p.bm = .extended p.nbits)
    (hgrown : p.blocks ≠ 0 → ED_INITIAL_SIZE * 2 ^ (p.blocks - 1) ≤ s.GC_ed_size) :
    TableInv procs (addLocked procs t p s) := by
  obtain ⟨hpos, -, -⟩ := extended_pos hext
  unfold Typed.addLocked
  split
  · split
    · rename_i h0
      have hinv : TableInv procs { s with GC_push_typed_structures := true } :=
        ⟨h.avail_le, h.isSize, h.bound, fun _ => rfl, h.made,
          fun u q hq => ⟨(h.pending u q hq).1, rfl⟩⟩
      have hzero : (2 : Nat) * s.GC_ed_size ≤ MAX_ENV := by
        rw [h0]
        exact Nat.zero_le MAX_ENV
      exact hinv.wait t hext hzero hgrown rfl
    · rename_i h0
      split
      · exact h.finish t ⟨p.nbits, hext, rfl⟩
      · rename_i hfits
        exact h.wait t hext (Nat.le_of_not_lt hfits) hgrown (h.rooted h0)
  · rename_i hroom
    have hfits : s.GC_avail_descr + nwords p.nbits ≤ s.GC_ext_descriptors.length := by
      change ¬s.GC_ext_descriptors.length ≤ _ at hroom
      omega
    have hlen : (putRow p.bm.word p.nbits s.GC_avail_descr s.GC_ext_descriptors).length =
        s.GC_ed_size := length_putRow
    -- the table with the row, before the call returns
    have hinv : TableInv procs { s with
        GC_ext_descriptors := putRow p.bm.word p.nbits s.GC_avail_descr s.GC_ext_descriptors
        GC_avail_descr := s.GC_avail_descr + nwords p.nbits } := by
      refine ⟨?_, ?_, ?_, ?_, ?_, ?_⟩
      · exact Nat.le_trans hfits (Nat.le_of_eq hlen.symm)
      · show IsSize (putRow _ _ _ _).length
        rw [hlen]
        exact h.isSize
      · show (putRow _ _ _ _).length ≤ MAX_ENV
        rw [hlen]
        exact h.bound
      · show (putRow _ _ _ _).length ≠ 0 → _
        rw [hlen]
        exact h.rooted
      · intro m hm
        exact (h.made m hm).mono (Nat.le_add_right _ _) fun j hj =>
          getElem?_putRow_of_lt hpos hfits hj
      · intro u q hq
        show PendingAt (putRow _ _ _ _).length q ∧ _
        rw [hlen]
        exact h.pending u q hq
    exact hinv.finish t ⟨p.nbits, hext, rfl, Nat.le_refl _, hasRow_putRow hpos hfits⟩

/-- The table after a block has come: what is in use is as it was, and it is larger than the one
the call had seen. -/
theorem TableInv.install (h : TableInv procs s) (hp : PendingAt s.GC_ed_size p)
    (hpush : s.GC_push_typed_structures = true) {block : List ext_descr}
    (hblock : block.length = newSize p.ed_size) :
    TableInv procs (install p block s) ∧ newSize p.ed_size ≤ (install p block s).GC_ed_size := by
  have hnew : p.ed_size ≤ newSize p.ed_size ∧ newSize p.ed_size ≤ MAX_ENV := by
    unfold newSize
    split
    · exact ⟨by omega, by decide⟩
    · exact ⟨by omega, hp.fits⟩
  unfold Typed.install
  split
  · rename_i hsame
    have havail := h.avail_le
    rw [← hsame] at havail
    generalize htable : (if s.GC_avail_descr ≠ 0 then
      s.GC_ext_descriptors.take s.GC_avail_descr ++ block.drop s.GC_avail_descr else block) = table
    have hseen : p.ed_size = s.GC_ext_descriptors.length := hsame
    have hlen : table.length = newSize p.ed_size := by
      rw [← htable]
      split
      · rw [List.length_append, List.length_take, List.length_drop, hblock]
        omega
      · exact hblock
    have hkept : ∀ j < s.GC_avail_descr, table[j]? = s.GC_ext_descriptors[j]? := by
      intro j hj
      rw [← htable, if_pos (by omega), List.getElem?_append_left, List.getElem?_take_of_lt hj]
      rw [List.length_take]
      omega
    refine ⟨⟨?_, ?_, ?_, fun _ => hpush, ?_, ?_⟩, Nat.le_of_eq hlen.symm⟩
    · show s.GC_avail_descr ≤ table.length
      omega
    · show IsSize table.length
      rw [hlen]
      exact hp.isSize.newSize
    · show table.length ≤ MAX_ENV
      omega
    · exact fun m hm => (h.made m hm).mono (Nat.le_refl _) hkept
    · intro u q hq
      obtain ⟨hq, -⟩ := h.pending u q hq
      have hle := hq.seen_le
      refine ⟨⟨hq.extended, ?_, hq.isSize, hq.fits, hq.grown⟩, hpush⟩
      show q.ed_size ≤ table.length
      omega
  · rename_i hother
    refine ⟨h, ?_⟩
    -- another thread has made it larger, to one of the sizes
    have hlt : p.ed_size < s.GC_ed_size := lt_of_le_of_ne hp.seen_le hother
    unfold newSize
    split
    · exact h.isSize.initial_le (by omega)
    · rename_i h0
      exact h.isSize.double hp.isSize h0 hlt

/-- One step keeps the invariant. -/
theorem typedStep_inv {a : TypedAct} {s' : TypedState} (h : TableInv procs s)
    (hstep : typedStep procs s a = some s') : TableInv procs s' := by
  cases a with
  | make t bm =>
      rw [typedStep] at hstep
      split at hstep
      · cases hstep
      · cases hmake : GC_make_descriptor bm with
        | simple d =>
            rw [hmake] at hstep
            cases hstep
            exact h.finish t hmake
        | extended nbits =>
            rw [hmake] at hstep
            cases hstep
            exact h.addLocked t hmake fun h0 => absurd rfl h0
  | allocated t new =>
      obtain ⟨p, hp, hstep⟩ := Option.bind_eq_some_iff.mp hstep
      obtain ⟨hpend, hpush⟩ := h.pending t p hp
      cases new with
      | none =>
          cases hstep
          exact h.finish t ⟨p.nbits, hpend.extended, rfl⟩
      | some block =>
          obtain ⟨hlen, hstep⟩ := Option.ite_none_right_eq_some.mp hstep
          cases hstep
          obtain ⟨hinv, hsize⟩ := h.install hpend hpush hlen
          refine hinv.addLocked t hpend.extended fun _ => ?_
          -- with each block the table has doubled
          refine Nat.le_trans ?_ hsize
          show ED_INITIAL_SIZE * 2 ^ p.blocks ≤ newSize p.ed_size
          unfold newSize
          by_cases h0 : p.blocks = 0
          · rw [h0]
            split
            · exact Nat.le_refl _
            · rename_i hne
              have := hpend.isSize.initial_le hne
              omega
          · have hgrown := hpend.grown h0
            have hpow : 2 ^ p.blocks = 2 * 2 ^ (p.blocks - 1) := by
              rw [← Nat.pow_succ', Nat.succ_eq_add_one, Nat.sub_add_cancel (by omega)]
            have hpos := Nat.two_pow_pos (p.blocks - 1)
            rw [if_neg (by unfold ED_INITIAL_SIZE at hgrown; omega), hpow]
            unfold ED_INITIAL_SIZE at hgrown ⊢
            omega

theorem typedMachine_inv (procs : MarkProcs) (acts : List TypedAct) :
    (typedMachine procs).Visits acts (TableInv procs) := by
  apply Machine.visits_of_invariant (TableInv procs)
  · refine ⟨Nat.le_refl 0, .inl rfl, Nat.zero_le _, fun h => absurd rfl h, ?_, ?_⟩
    · intro m hm
      cases hm
    · intro t p hp
      cases hp
  · exact fun s a s' h hstep => typedStep_inv h hstep

end

/-! ## Descriptors keep their meaning -/

/-- The marker that finds the table of the state. -/
def World.withTable (w : World) (procs : MarkProcs) (s : TypedState) : World :=
  { w with procs := procs, GC_ext_descriptors := s.GC_ext_descriptors }

/-- What a descriptor stands for: the words of the bitmap, or all words up to the last of them
when there was no memory for an extended descriptor. -/
def Made.words (m : Made) : Set Nat :=
  if m.outcome = .failed then {i | ∃ j ∈ m.bm.words, i ≤ j} else m.bm.words

/-- The descriptors that need no table. -/
theorem marksAs_simple (w : World) {bm : GC_bitmap} {d : GC_descr}
    (h : GC_make_descriptor bm = .simple d) : MarksAs w d bm.words := by
  unfold GC_make_descriptor at h
  have hlt := bm.len_lt
  cases hlast : lastSetBit bm.bit bm.len with
  | none =>
      rw [hlast] at h
      cases h
      have hnone : bm.words = ∅ := by
        apply Set.eq_empty_of_forall_notMem
        intro i ⟨hi, hbit⟩
        rw [lastSetBit_none hlast i hi] at hbit
        cases hbit
      rw [hnone]
      exact marksAs_zero w
  | some last =>
      rw [hlast] at h
      simp only at h
      obtain ⟨hle, hset, -⟩ := lastSetBit_some hlast
      split at h
      · -- the pointers come first
        rename_i hall
        cases h
        have hwords : bm.words = {i | i < last + 1} := by
          ext i
          rw [GC_bitmap.mem_words_iff hlast]
          constructor
          · exact fun hi => Nat.lt_succ_of_le hi.1
          · intro hi
            refine ⟨Nat.le_of_lt_succ hi, ?_⟩
            rcases Nat.lt_succ_iff_lt_or_eq.mp hi with hlt | rfl
            · exact List.all_eq_true.mp hall i (List.mem_range.mpr hlt)
            · exact hset
        rw [hwords]
        apply (describes_lengthDescr w (Nat.succ_pos last) (by omega)).marksAs
        intro h0
        have hnat := toNat_lengthDescr (n := last + 1) (by omega)
        rw [h0] at hnat
        simp at hnat
      · split at h
        · rename_i hfits
          cases h
          have hwords : bm.words = {i | i ≤ last ∧ bm.bit i = true} := by
            ext i
            exact GC_bitmap.mem_words_iff hlast
          rw [hwords]
          apply (describes_reversed w hset hfits).marksAs
          intro h0
          have hbit := congrArg (fun x : BitVec 64 => x.getLsbD 0) h0
          simp [GC_DS_BITMAP] at hbit
        · cases h

/-- The descriptors of a state that meets the invariant. -/
theorem TableInv.marksAs {procs : MarkProcs} {s : TypedState} (h : TableInv procs s) (w : World)
    {m : Made} (hm : m ∈ s.made) : MarksAs (w.withTable procs s) m.descr m.words := by
  have hmade := h.made m hm
  unfold MadeAt at hmade
  unfold Made.words
  cases hout : m.outcome with
  | simple =>
      rw [hout] at hmade
      exact marksAs_simple _ hmade
  | failed =>
      rw [hout] at hmade
      obtain ⟨nbits, hext, hdescr⟩ := hmade
      obtain ⟨hpos, hlt, hlast⟩ := extended_pos hext
      have hwords : {i | ∃ j ∈ m.bm.words, i ≤ j} = {i | i < nbits} := by
        ext i
        constructor
        · intro ⟨j, hj, hij⟩
          have hle := ((GC_bitmap.mem_words_iff hlast).mp hj).1
          show i < nbits
          omega
        · intro hi
          change i < nbits at hi
          obtain ⟨-, hset, -⟩ := lastSetBit_some hlast
          exact ⟨nbits - 1, (GC_bitmap.mem_words_iff hlast).mpr ⟨Nat.le_refl _, hset⟩, by omega⟩
      rw [if_pos rfl, hwords, hdescr]
      apply (describes_lengthDescr _ hpos (by omega)).marksAs
      intro h0
      have hnat := toNat_lengthDescr (n := nbits) (by omega)
      rw [h0] at hnat
      simp at hnat
      omega
  | added index =>
      rw [hout] at hmade
      obtain ⟨nbits, hext, hdescr, hle, hrow⟩ := hmade
      obtain ⟨hpos, hlt, hlast⟩ := extended_pos hext
      have hbound : index + nwords nbits ≤ 2 ^ 55 := by
        have havail := h.avail_le
        have hmax : s.GC_ed_size ≤ 2 ^ 55 - 1 := h.bound
        omega
      have hdescribes := describes_row (w.withTable procs s) (nwords_pos hpos) hbound hrow
      have hwords : {i | i < nwords nbits * 64 ∧ partsBit (rowPart m.bm.word nbits) i = true} =
          m.bm.words := by
        ext i
        rw [GC_bitmap.mem_words_iff hlast]
        constructor
        · intro ⟨hi, hbit⟩
          rw [partsBit_rowPart hpos hi, Bool.and_eq_true, decide_eq_true_eq] at hbit
          exact ⟨by omega, hbit.2⟩
        · intro ⟨hi, hbit⟩
          have hin : i < nwords nbits * 64 := by
            unfold nwords
            omega
          refine ⟨hin, ?_⟩
          rw [partsBit_rowPart hpos hin, decide_eq_true (by omega), hbit]
          rfl
      rw [hwords] at hdescribes
      rw [if_neg (by simp), hdescr]
      apply hdescribes.marksAs
      intro h0
      have hparts := nwords_pos hpos
      have henv : (BitVec.ofNat 64 index).toNat < 2 ^ 55 := by
        rw [BitVec.toNat_ofNat]
        omega
      have hnat := toNat_GC_MAKE_PROC procs.typed_lt henv
      rw [show GC_MAKE_PROC procs.GC_typed_mark_proc_index (BitVec.ofNat 64 index) = 0 from h0]
        at hnat
      simp at hnat

/-- **Typed objects are marked as their bitmaps say.** However threads make descriptors, and
wherever they are stopped, each descriptor that `GC_make_descriptor` has returned makes the
marker look at exactly the words of its bitmap, in every object that has it. When there was no
memory for an extended descriptor these are all words up to the last one of the bitmap. -/
theorem made_descriptors_mark_bitmaps (procs : MarkProcs) (acts : List TypedAct) :
    (typedMachine procs).Visits acts fun s => ∀ m ∈ s.made, ∀ w : World,
      MarksAs (w.withTable procs s) m.descr m.words :=
  (typedMachine_inv procs acts).mono fun _ h _ hm w => h.marksAs w hm

/-- **Making a descriptor ends.** However other threads enlarge the table in between, a call is
done at the latest when it has asked for its 49th block; and a table that exists is a root. -/
theorem add_ext_descriptor_ends (procs : MarkProcs) (acts : List TypedAct) :
    (typedMachine procs).Visits acts fun s =>
      (∀ t p, s.pending t = some p → p.blocks < 49) ∧
        (s.GC_ed_size ≠ 0 → s.GC_push_typed_structures = true) := by
  refine (typedMachine_inv procs acts).mono ?_
  intro s h
  refine ⟨?_, h.rooted⟩
  intro t p hp
  obtain ⟨hpend, -⟩ := h.pending t p hp
  by_contra hge
  have hgrown := hpend.grown (by omega)
  have hpow : 2 ^ 48 ≤ 2 ^ (p.blocks - 1) := Nat.pow_le_pow_right (by omega) (by omega)
  have hfits : 2 * p.ed_size ≤ 2 ^ 55 - 1 := hpend.fits
  unfold ED_INITIAL_SIZE at hgrown
  omega

end Ironclad.Gc.Typed
