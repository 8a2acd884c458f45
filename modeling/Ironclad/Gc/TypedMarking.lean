import Ironclad.Logic.BitScan
import Ironclad.Gc.RangeSplit

/-!
# Marking objects with descriptors

What `GC_mark_from` does with the entries of typed objects on the 64-bit target: a length, a
bitmap, a mark procedure, or a descriptor that is found in the object. An entry is replaced by
others until it is done with; the words looked at on the way are what the descriptor describes.

What other objects push is put on top and taken off first, so the entries of one object can be
followed alone. `Describes` is the meaning of a descriptor: the words that marking looks at.
-/

namespace Ironclad.Gc.Typed

open Logic BitScan RangeSplit

/-! ## Descriptors -/

abbrev GC_descr := BitVec 64

/-- Words of 8 bytes, at whole words only. -/
def config : Config := ⟨.eight, 8, ⟨1, rfl⟩⟩

abbrev MsEntry := RangeSplit.Mse config.wordSize

def entry (mse_start : Int) (mse_descr : GC_descr) : MsEntry := ⟨mse_start, mse_descr⟩

/-- `GC_DS_TAGS`, for these words. -/
def DS_TAGS : GC_descr := GC_DS_TAGS .eight

/-- The tag of a descriptor. -/
def tag (descr : GC_descr) : Nat := @tagOf .eight descr

def GC_LOG_MAX_MARK_PROCS : Nat := 6
def GC_MAX_MARK_PROCS : Nat := 1 <<< GC_LOG_MAX_MARK_PROCS

def GC_MAKE_PROC (proc_index env : BitVec 64) : GC_descr :=
  ((env <<< GC_LOG_MAX_MARK_PROCS ||| proc_index) <<< GC_DS_TAG_BITS) ||| BitVec.ofNat 64 GC_DS_PROC

/-- The index in `PROC`. -/
def PROC_INDEX (descr : GC_descr) : BitVec 64 :=
  (descr >>> GC_DS_TAG_BITS) &&& BitVec.ofNat 64 (GC_MAX_MARK_PROCS - 1)

def ENV (descr : GC_descr) : BitVec 64 := descr >>> (GC_DS_TAG_BITS + GC_LOG_MAX_MARK_PROCS)

def GC_INDIR_PER_OBJ_BIAS : BitVec 64 := 0x10

/-- A part of an extended descriptor. -/
structure ext_descr where
  ed_bitmap : BitVec 64
  ed_continued : Bool
  deriving DecidableEq, Repr

structure LeafDescriptor where
  ld_size : BitVec 64
  ld_nelements : BitVec 64
  ld_descriptor : GC_descr
  deriving DecidableEq, Repr

inductive complex_descriptor where
  | ld (leaf : LeafDescriptor)
  | ad (ad_nelements : BitVec 64) (ad_element_descr : complex_descriptor)
  | sd (sd_first sd_second : complex_descriptor)

/-- The indices of the two mark procedures. -/
structure MarkProcs where
  GC_typed_mark_proc_index : BitVec 64
  GC_array_mark_proc_index : BitVec 64
  typed_lt : GC_typed_mark_proc_index.toNat < GC_MAX_MARK_PROCS
  array_lt : GC_array_mark_proc_index.toNat < GC_MAX_MARK_PROCS
  differ : GC_typed_mark_proc_index ≠ GC_array_mark_proc_index

/-- What the marker finds: the words of the memory, the bounds of the heap, the extended
descriptors, the sizes of the objects, the complex descriptors at their addresses, and how many
entries fit on the mark stack. -/
structure World where
  memory : Int → BitVec 64
  GC_least_plausible_heap_addr : BitVec 64
  GC_greatest_plausible_heap_addr : BitVec 64
  GC_ext_descriptors : List ext_descr
  procs : MarkProcs
  hb_sz : Int → Nat
  complexAt : BitVec 64 → Option complex_descriptor
  room : Nat

namespace World

variable (w : World)

/-- The word at the address may be a pointer. -/
def inHeap (a : Int) : Bool :=
  w.GC_least_plausible_heap_addr ≤ w.memory a && w.memory a < w.GC_greatest_plausible_heap_addr

/-- The same test with the upper bound included, as `GC_typed_mark_proc` makes it. -/
def inHeapIncl (a : Int) : Bool :=
  w.GC_least_plausible_heap_addr ≤ w.memory a && w.memory a ≤ w.GC_greatest_plausible_heap_addr

end World

/-! ## One entry -/

/-- What is done with an entry: the addresses of the words read, of those pushed, and the entries
that take its place, the next one first. -/
structure Turn where
  reads : List Int
  pushes : List Int
  entries : List MsEntry

/-- The words of a bitmap descriptor without its tag. -/
def scanBitmap (descr : GC_descr) (current_p : Int) : List Int :=
  if descr = 0 then []
  else (if descr.slt 0 then [current_p] else []) ++ scanBitmap (descr <<< 1) (current_p + 8)
  termination_by descr.reverse.toNat
  decreasing_by exact reverse_shiftLeft_lt ‹_›

/-- The words of a part of an extended descriptor. -/
def scanExtBitmap (bm : BitVec 64) (current_p : Int) : List Int :=
  if bm = 0 then []
  else (if bm &&& 1 ≠ 0 then [current_p] else []) ++ scanExtBitmap (bm >>> 1) (current_p + 8)
  termination_by bm.toNat
  decreasing_by exact shiftRight_lt ‹_›

/-- `GC_descr_obj_size`. -/
def GC_descr_obj_size : complex_descriptor → BitVec 64
  | .ld leaf => leaf.ld_nelements * leaf.ld_size
  | .ad nelements element_descr => nelements * GC_descr_obj_size element_descr
  | .sd first second => GC_descr_obj_size first + GC_descr_obj_size second

/-- The entries pushed for `nelements` elements one behind the other, the last one pushed first
in the list; `none` when they do not fit. -/
def pushElements (push : Int → Nat → Option (List MsEntry)) (sz : Nat) :
    Nat → Int → Nat → Option (List MsEntry)
  | 0, _, _ => some []
  | n + 1, current, room =>
      (push current room).bind fun es =>
        (pushElements push sz n (current + sz) (room - es.length)).map (· ++ es)

/-- `GC_push_complex_descriptor`: the entries pushed, the last one first, when less than `room`
entries are enough. -/
def GC_push_complex_descriptor : complex_descriptor → Int → Nat → Option (List MsEntry)
  | .ld leaf, addr, room =>
      if room ≤ leaf.ld_nelements.toNat then none
      else
        some ((List.range leaf.ld_nelements.toNat).map fun i : Nat =>
          entry (addr + leaf.ld_size.toNat * i) leaf.ld_descriptor).reverse
  | .ad nelements element_descr, addr, room =>
      pushElements (GC_push_complex_descriptor element_descr)
        (GC_descr_obj_size element_descr).toNat nelements.toNat addr room
  | .sd first second, addr, room =>
      (GC_push_complex_descriptor first addr room).bind fun es =>
        (GC_push_complex_descriptor second (addr + (GC_descr_obj_size first).toNat)
          (room - es.length)).map (· ++ es)

section

variable (w : World)

/-- `GC_typed_mark_proc`. -/
def GC_typed_mark_proc (addr : Int) (env : BitVec 64) : Option Turn :=
  w.GC_ext_descriptors[env.toNat]?.map fun d =>
    ⟨scanExtBitmap d.ed_bitmap addr, (scanExtBitmap d.ed_bitmap addr).filter w.inHeapIncl,
      if d.ed_continued then
        [entry (addr + 64 * 8) (GC_MAKE_PROC w.procs.GC_typed_mark_proc_index (env + 1))]
      else []⟩

/-- `GC_array_mark_proc`. -/
def GC_array_mark_proc (addr : Int) : Option Turn :=
  let sz := w.hb_sz addr
  let nwords := sz / 8
  let descr := w.memory (addr + (nwords - 1 : Nat) * 8)
  if descr = 0 then some ⟨[], [], []⟩
  else
    (w.complexAt descr).map fun d =>
      match GC_push_complex_descriptor d addr w.room with
      | none => ⟨[], [], [entry addr (BitVec.ofNat 64 sz)]⟩
      | some es => ⟨[], [], entry (addr + (nwords - 1 : Nat) * 8) 8 :: es⟩

/-- The cases of `GC_mark_from` for a bitmap, a procedure and a descriptor in the object, with
which the entry is taken up again. `none` for other tags, and for procedures and addresses that
are no descriptors. -/
def turnTagged (current_p : Int) (descr : GC_descr) : Option Turn :=
  if tag descr = GC_DS_BITMAP then
    let words := scanBitmap (descr &&& ~~~DS_TAGS) current_p
    some ⟨words, words.filter w.inHeap, []⟩
  else if tag descr = GC_DS_PROC then
    if PROC_INDEX descr = w.procs.GC_typed_mark_proc_index then
      GC_typed_mark_proc w current_p (ENV descr)
    else if PROC_INDEX descr = w.procs.GC_array_mark_proc_index then GC_array_mark_proc w current_p
    else none
  else if tag descr = GC_DS_PER_OBJECT then
    if 0 ≤ descr.toInt then
      let found := w.memory (current_p + (descr.toNat - GC_DS_PER_OBJECT : Nat))
      some ⟨[], [], if found = 0 then [] else [entry current_p found]⟩
    else
      let type_descr := w.memory current_p
      if type_descr = 0 then some ⟨[], [], []⟩
      else
        let found := w.memory (type_descr -
          (descr + (GC_INDIR_PER_OBJ_BIAS - BitVec.ofNat 64 GC_DS_PER_OBJECT))).toNat
        some ⟨[], [], if found = 0 then [] else [entry current_p found]⟩
  else none

/-- What `GC_mark_from` does with an entry. -/
def turn (e : MsEntry) : Option Turn :=
  match nextRange config e with
  | some (limit, back) =>
      let scan := scanRange config w.inHeap e.mse_start limit
      some ⟨scan.1, scan.2, back.toList⟩
  | none => turnTagged w e.mse_start e.mse_descr

/-- What becomes of entries in `n` turns: the words read, those pushed, and the entries left. -/
structure Scan where
  reads : List Int
  pushes : List Int
  rest : List MsEntry

def markEntries : Nat → List MsEntry → Scan
  | 0, es => ⟨[], [], es⟩
  | _ + 1, [] => ⟨[], [], []⟩
  | n + 1, e :: es =>
      match turn w e with
      | none => ⟨[], [], e :: es⟩
      | some t =>
          let m := markEntries n (t.entries ++ es)
          ⟨t.reads ++ m.reads, t.pushes ++ m.pushes, m.rest⟩

/-- The entries are done with after some turns, and the words read are those of `L`. The words
that may be pointers are pushed and no others. -/
def Covers (es : List MsEntry) (L : Set Int) : Prop :=
  ∃ n, (markEntries w n es).rest = [] ∧ (∀ a, a ∈ (markEntries w n es).reads ↔ a ∈ L) ∧
    (∀ a ∈ L, w.inHeap a = true → a ∈ (markEntries w n es).pushes) ∧
    ∀ a ∈ (markEntries w n es).pushes, a ∈ L ∧ w.inHeapIncl a = true

/-- The addresses of the words `L` of an object. -/
def wordsAt (p : Int) (L : Set Nat) : Set Int := {a | ∃ i ∈ L, a = p + 8 * i}

/-- The descriptor stands for the words `L` of an object, wherever the object is. -/
def Describes (d : GC_descr) (L : Set Nat) : Prop := ∀ p, Covers w [entry p d] (wordsAt p L)

end

/-! ## Following entries -/

section

variable {w : World} {e : MsEntry} {es es' : List MsEntry} {L L' : Set Int} {t : Turn}

/-- A turn reads the words of `L` and pushes those of them that may be pointers. -/
structure Turn.LooksAt (w : World) (t : Turn) (L : Set Int) : Prop where
  reads : ∀ a, a ∈ t.reads ↔ a ∈ L
  pushes : ∀ a ∈ L, w.inHeap a = true → a ∈ t.pushes
  only : ∀ a ∈ t.pushes, a ∈ L ∧ w.inHeapIncl a = true

theorem inHeap_inHeapIncl {a : Int} (h : w.inHeap a = true) : w.inHeapIncl a = true := by
  unfold World.inHeap at h
  unfold World.inHeapIncl
  simp only [Bool.and_eq_true, decide_eq_true_eq] at h ⊢
  exact ⟨h.1, BitVec.le_of_lt h.2⟩

/-- The entries on top are done with before those below are taken up. -/
theorem markEntries_append (n : Nat) (hdone : (markEntries w n es).rest = []) :
    ∃ m, ∀ k es', markEntries w (m + k) (es ++ es') =
      ⟨(markEntries w n es).reads ++ (markEntries w k es').reads,
        (markEntries w n es).pushes ++ (markEntries w k es').pushes,
        (markEntries w k es').rest⟩ := by
  induction n generalizing es with
  | zero =>
      obtain rfl : es = [] := hdone
      refine ⟨0, fun k es' => ?_⟩
      rw [Nat.zero_add]
      rfl
  | succ n ih =>
      cases es with
      | nil =>
          refine ⟨0, fun k es' => ?_⟩
          rw [Nat.zero_add]
          rfl
      | cons e es =>
          cases hturn : turn w e with
          | none =>
              rw [markEntries, hturn] at hdone
              cases hdone
          | some t =>
              rw [markEntries, hturn] at hdone
              obtain ⟨m, hm⟩ := ih hdone
              refine ⟨m + 1, fun k es' => ?_⟩
              rw [Nat.add_right_comm, List.cons_append, markEntries, markEntries, hturn]
              simp only
              rw [← List.append_assoc, hm k es', List.append_assoc, List.append_assoc]

theorem Covers.nil : Covers w [] ∅ :=
  ⟨0, rfl, fun a => by simp [markEntries], fun a ha => ha.elim, fun a ha => by cases ha⟩

theorem Covers.append (h : Covers w es L) (h' : Covers w es' L') :
    Covers w (es ++ es') (L ∪ L') := by
  obtain ⟨n, hdone, hreads, hpush, honly⟩ := h
  obtain ⟨k, hdone', hreads', hpush', honly'⟩ := h'
  obtain ⟨m, hm⟩ := markEntries_append n hdone
  refine ⟨m + k, ?_, ?_, ?_, ?_⟩ <;> rw [hm k es']
  · exact hdone'
  · intro a
    rw [List.mem_append, hreads, hreads']
    rfl
  · intro a ha hin
    rcases ha with ha | ha
    · exact List.mem_append_left _ (hpush a ha hin)
    · exact List.mem_append_right _ (hpush' a ha hin)
  · intro a ha
    rcases List.mem_append.mp ha with ha | ha
    · exact ⟨.inl (honly a ha).1, (honly a ha).2⟩
    · exact ⟨.inr (honly' a ha).1, (honly' a ha).2⟩

/-- One turn and what becomes of the entries that it leaves. -/
theorem Covers.of_turn (hturn : turn w e = some t) (hlook : t.LooksAt w L)
    (hrest : Covers w t.entries L') : Covers w [e] (L ∪ L') := by
  obtain ⟨n, hdone, hreads, hpush, honly⟩ := hrest
  refine ⟨n + 1, ?_, ?_, ?_, ?_⟩ <;> rw [markEntries, hturn] <;>
    simp only [List.append_nil]
  · exact hdone
  · intro a
    rw [List.mem_append, hlook.reads, hreads]
    rfl
  · intro a ha hin
    rcases ha with ha | ha
    · exact List.mem_append_left _ (hlook.pushes a ha hin)
    · exact List.mem_append_right _ (hpush a ha hin)
  · intro a ha
    rcases List.mem_append.mp ha with ha | ha
    · exact ⟨.inl (hlook.only a ha).1, (hlook.only a ha).2⟩
    · exact ⟨.inr (honly a ha).1, (honly a ha).2⟩

theorem Covers.congr (h : Covers w es L) (heq : ∀ a, a ∈ L ↔ a ∈ L') : Covers w es L' := by
  rw [Set.ext heq] at h
  exact h

/-- A turn that only puts entries in the place of one. -/
theorem Covers.of_entries (hturn : turn w e = some ⟨[], [], es⟩) (h : Covers w es L) :
    Covers w [e] L := by
  have hlook : Turn.LooksAt w ⟨[], [], es⟩ ∅ :=
    ⟨fun a => by simp, fun a ha => ha.elim, fun a ha => by cases ha⟩
  exact (Covers.of_turn hturn hlook h).congr fun a => by simp

/-- A turn that reads words and pushes those that may be pointers. -/
theorem looksAt_filter {reads : List Int} {test : Int → Bool} {es : List MsEntry}
    (hin : ∀ a, w.inHeap a = true → test a = true)
    (hincl : ∀ a, test a = true → w.inHeapIncl a = true) (hL : ∀ a, a ∈ reads ↔ a ∈ L) :
    Turn.LooksAt w ⟨reads, reads.filter test, es⟩ L := by
  refine ⟨hL, ?_, ?_⟩
  · intro a ha htest
    exact List.mem_filter.mpr ⟨(hL a).mpr ha, hin a htest⟩
  · intro a ha
    obtain ⟨hmem, htest⟩ := List.mem_filter.mp ha
    exact ⟨(hL a).mp hmem, hincl a htest⟩

end

/-! ## Bitmaps -/

theorem scanBitmap_eq (descr : GC_descr) (p : Int) :
    scanBitmap descr p = (highBits descr).map fun i : Nat => p + 8 * (i : Int) := by
  fun_induction scanBitmap descr p with
  | case1 p => simp
  | case2 descr p hne ih =>
      rw [ih, highBits_step descr, List.map_append, List.map_map]
      have hsign : descr.slt 0 = descr.msb := BitVec.slt_zero_eq_msb
      congr 1
      · rw [hsign]
        split <;> simp
      · apply List.map_congr_left
        intro i _
        simp only [Function.comp_apply]
        push_cast
        ring

theorem scanExtBitmap_eq (bm : BitVec 64) (p : Int) :
    scanExtBitmap bm p = (lowBits bm).map fun i : Nat => p + 8 * (i : Int) := by
  fun_induction scanExtBitmap bm p with
  | case1 p => simp
  | case2 bm p hne ih =>
      rw [ih, lowBits_step bm, List.map_append, List.map_map]
      have hlow : bm &&& 1 ≠ 0 ↔ bm.getLsbD 0 = true := by
        rw [show bm &&& 1 = (BitVec.ofBool (bm.getLsbD 0)).setWidth 64 from
          BitVec.and_one_eq_setWidth_ofBool_getLsbD]
        cases bm.getLsbD 0 <;> simp
      congr 1
      · by_cases h0 : bm.getLsbD 0 = true
        · rw [if_pos (hlow.mpr h0), if_pos h0]
          simp
        · rw [if_neg (hlow.not.mpr h0), if_neg h0]
          rfl
      · apply List.map_congr_left
        intro i _
        simp only [Function.comp_apply]
        push_cast
        ring

/-! ## What the tags say -/

section

variable {w : World} {d : GC_descr} {L : Set Nat}

theorem tag_eq (d : GC_descr) : tag d = d.toNat % 8 := tagOf_eq _

/-- Other descriptors than lengths are not taken for ranges. -/
theorem turn_eq_turnTagged (w : World) (p : Int) (htag : tag d = 1 ∨ tag d = 2 ∨ tag d = 3) :
    turn w (entry p d) = turnTagged w p d := by
  have hmask := (mask_eq_zero_iff (entry p d).mse_descr).not.mpr fun h => by
    have hzero : d.toNat % 8 = 0 := h.2
    rw [tag_eq] at htag
    omega
  have hnone : nextRange config (entry p d) = none := by
    unfold nextRange
    simp only
    rw [if_pos hmask, show tagOf (entry p d).mse_descr = tag d from rfl,
      if_neg (by unfold GC_DS_LENGTH; omega), if_pos]
    unfold GC_DS_BITMAP GC_DS_PROC GC_DS_PER_OBJECT
    omega
  rw [turn, hnone]
  rfl

/-- A bitmap stands for the words of its bits. -/
theorem describes_bitmap (w : World) (htag : tag d = GC_DS_BITMAP) :
    Describes w d {i | (d &&& ~~~DS_TAGS).getMsbD i = true} := by
  intro p
  have hlook : Turn.LooksAt w ⟨scanBitmap (d &&& ~~~DS_TAGS) p,
      (scanBitmap (d &&& ~~~DS_TAGS) p).filter w.inHeap, []⟩
      (wordsAt p {i | (d &&& ~~~DS_TAGS).getMsbD i = true}) := by
    apply looksAt_filter (fun _ h => h) (fun _ h => inHeap_inHeapIncl h)
    intro a
    rw [scanBitmap_eq, List.mem_map]
    constructor
    · intro ⟨i, hi, ha⟩
      exact ⟨i, mem_highBits.mp hi, ha.symm⟩
    · intro ⟨i, hi, ha⟩
      exact ⟨i, mem_highBits.mpr hi, ha.symm⟩
  have hturn : turn w (entry p d) = some _ :=
    (turn_eq_turnTagged w p (.inl htag)).trans (if_pos htag)
  exact (Covers.of_turn hturn hlook Covers.nil).congr fun a => by simp

/-- The scan of a range looks at its words. -/
theorem looksAt_range (w : World) (p : Int) (es : List MsEntry) {n : Nat} (hn : 0 < n)
    {limit : Int} (hlimit : limit = p + 8 * (n : Int)) :
    Turn.LooksAt w ⟨(scanRange config w.inHeap p limit).1, (scanRange config w.inHeap p limit).2,
      es⟩ (wordsAt p {i | i < n}) := by
  have hpos : Position config p (limit - config.wordSize.sizeof) := by
    refine ⟨n - 1, ?_⟩
    show limit - 8 = p + ((n - 1 : Nat) : Int) * 8
    omega
  have hwords : ∀ a, (Position config p a ∧ a + config.wordSize.sizeof ≤ limit) ↔
      a ∈ wordsAt p {i | i < n} := by
    intro a
    constructor
    · intro ⟨⟨k, hk⟩, hle⟩
      change a = p + (k : Int) * 8 at hk
      change a + 8 ≤ limit at hle
      exact ⟨k, by show k < n; omega, by omega⟩
    · intro ⟨i, hi, ha⟩
      change i < n at hi
      refine ⟨⟨i, ?_⟩, ?_⟩
      · show a = p + (i : Int) * 8
        omega
      · show a + 8 ≤ limit
        omega
  refine ⟨?_, ?_, ?_⟩
  · intro a
    rw [(scanRange_spec w.inHeap hpos a).1]
    exact hwords a
  · intro a ha hin
    exact ((scanRange_spec w.inHeap hpos a).2).mpr ⟨(hwords a).mpr ha, hin⟩
  · intro a ha
    obtain ⟨hmem, hin⟩ := ((scanRange_spec w.inHeap hpos a).2).mp ha
    exact ⟨(hwords a).mp hmem, inHeap_inHeapIncl hin⟩

/-- A length stands for the words up to it, however often the range is split. -/
theorem describes_length (w : World) (hpos : 0 < d.toNat) (htag : tag d = GC_DS_LENGTH) :
    Describes w d {i | i < d.toNat / 8} := by
  replace htag : d.toNat % 8 = 0 := (tag_eq d).symm.trans htag
  -- by induction on the length: the words of the first part, and of the rest
  induction hlen : d.toNat using Nat.strong_induction_on generalizing d with
  | _ len ih =>
      subst hlen
      intro p
      by_cases hlt : d.toNat < 1024
      · have hnext : nextRange config (entry p d) = some (p + d.toNat, none) :=
          nextRange_short hlt htag
        have hturn : turn w (entry p d) = some ⟨(scanRange config w.inHeap p (p + d.toNat)).1,
            (scanRange config w.inHeap p (p + d.toNat)).2, []⟩ := by
          rw [turn, hnext]
          rfl
        have hlimit : p + d.toNat = p + 8 * ((d.toNat / 8 : Nat) : Int) := by omega
        have hlook := looksAt_range w p [] (by omega) hlimit
        exact (Covers.of_turn hturn hlook Covers.nil).congr fun a => by simp
      · have hrestNat : (d - 1016#64).toNat = d.toNat - 1016 := by
          rw [BitVec.toNat_sub_of_le (by rw [BitVec.le_def]; simp; omega)]
          rfl
        have hnext : nextRange config (entry p d) =
            some (p + 1016 + 0, some (entry (p + 1016) (d - 1016#64))) :=
          nextRange_long (by show 1024 ≤ d.toNat; omega) htag
        have hturn : turn w (entry p d) =
            some ⟨(scanRange config w.inHeap p (p + 1016 + 0)).1,
              (scanRange config w.inHeap p (p + 1016 + 0)).2,
              [entry (p + 1016) (d - 1016#64)]⟩ := by
          rw [turn, hnext]
          rfl
        have hlimit : p + 1016 + 0 = p + 8 * ((127 : Nat) : Int) := by omega
        have hlook := looksAt_range w p [entry (p + 1016) (d - 1016#64)] (by omega) hlimit
        have hrest := ih _ (by omega) (d := d - 1016#64) (by omega) (by omega) rfl (p + 1016)
        apply (Covers.of_turn hturn hlook hrest).congr
        intro a
        constructor
        · intro ha
          rcases ha with ⟨i, hi, ha⟩ | ⟨i, hi, ha⟩
          · change i < 127 at hi
            exact ⟨i, by show i < d.toNat / 8; omega, ha⟩
          · change i < (d - 1016#64).toNat / 8 at hi
            exact ⟨i + 127, by show i + 127 < d.toNat / 8; omega, by push_cast; omega⟩
        · intro ⟨i, hi, ha⟩
          change i < d.toNat / 8 at hi
          by_cases hi' : i < 127
          · exact .inl ⟨i, hi', ha⟩
          · exact .inr ⟨i - 127, by show i - 127 < (d - 1016#64).toNat / 8; omega, by omega⟩

end

end Ironclad.Gc.Typed
