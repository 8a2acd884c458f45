import Mathlib.Logic.Function.Basic
import Ironclad.Gc.Reach

/-!
# The mark stack in memory

The mark stack as an array with a pointer to its top, the mark bits by granules, and what
a precise object's `mark()` reaches through `ironclad_precise_mark`: `GC_mark_and_push` as
the source computes it, with the block header found from the page, from a forwarding
address, or not at all. `GC_mark_and_push_eq` says what it does in terms of objects.

A pointer into the mark stack is the index of the entry; that of an empty stack is -1.
-/

namespace Ironclad.Gc.MarkStack

/-- `struct GC_ms_entry`. -/
structure GC_ms_entry where
  mse_start : Nat
  mse_descr : Nat
  deriving DecidableEq, Repr

/-- `sizeof(mse)`. -/
def MSE_BYTES : Nat := 16

/-- The memory of a mark stack. It never shrinks below the size that it starts with. -/
structure Area where
  start : Nat
  size : Nat
  size_ge : INITIAL_MARK_STACK_SIZE ≤ size

/-- `mark_stack_limit`, as an address. -/
def Area.mark_stack_limit (area : Area) : Nat := area.start + area.size * MSE_BYTES

/-! ## Mark bits -/

def MARK_BITS_PER_HBLK : Nat := HBLKSIZE / GRANULE_BYTES

/-- `FINAL_MARK_BIT`, the position of the bit that is always set. -/
def FINAL_MARK_BIT (hdr : Hdr) : Nat :=
  if hdr.isLarge then MARK_BITS_PER_HBLK else hdr.hb_sz * HBLK_OBJS hdr.hb_sz

/-- `hb_marks` of the blocks in use, by the granule at which an object begins. -/
structure HbMarks (heap : Heap) where
  bit : Nat → Nat → Bool
  final : ∀ h hdr, heap.HDR h = some hdr → bit h (FINAL_MARK_BIT hdr) = true

/-- The entry of `hb_map` for a granule of the block. -/
def hb_map (hdr : Hdr) (gran_displ : Nat) : Nat :=
  if hdr.isLarge then 1 else gran_displ % hdr.hb_sz

namespace HbMarks

variable {heap : Heap}

/-- `SET_MARK_BIT_EXIT_IF_SET`, where it does not exit. -/
def set (hb_marks : HbMarks heap) (h gran : Nat) : HbMarks heap where
  bit := fun b g => if b = h ∧ g = gran then true else hb_marks.bit b g
  final := by
    intro b hdr hhdr
    rw [hb_marks.final b hdr hhdr]
    exact ite_self true

/-- The mark of an object. -/
def marks (hb_marks : HbMarks heap) : Marks := fun x =>
  match heap.HDR x.page with
  | some hdr => hb_marks.bit x.page (x.slot * hdr.hb_sz)
  | none => false

end HbMarks

/-! ## `GC_mark_and_push` -/

/-- The variables of the marker that a `mark()` changes. -/
structure State (heap : Heap) where
  hb_marks : HbMarks heap
  GC_mark_state : MarkState
  GC_mark_stack_too_small : Bool
  GC_mark_stack : Nat → GC_ms_entry
  ironclad_mark_stack_top : Int

section

variable {heap : Heap} (area : Area)

/-- `GC_signal_mark_stack_overflow`. -/
def GC_signal_mark_stack_overflow (s : State heap) : State heap :=
  { s with
    GC_mark_state := .MS_INVALID
    GC_mark_stack_too_small := true
    ironclad_mark_stack_top := s.ironclad_mark_stack_top - GC_MARK_STACK_DISCARDS }

/-- `PUSH_OBJ`. -/
def PUSH_OBJ (obj : Nat) (hdr : Hdr) (s : State heap) : State heap :=
  if hdr.hb_descr ≠ 0 then
    let s := { s with ironclad_mark_stack_top := s.ironclad_mark_stack_top + 1 }
    let s :=
      if (area.size : Int) ≤ s.ironclad_mark_stack_top then GC_signal_mark_stack_overflow s else s
    { s with
      GC_mark_stack :=
        Function.update s.GC_mark_stack s.ironclad_mark_stack_top.toNat ⟨obj, hdr.hb_descr⟩ }
  else s

/-- The values of `base` and `gran_displ` in `PUSH_CONTENTS_HDR` when the mark bit is set.
All offsets are valid, since interior pointers are recognised. -/
def baseAndGranule (current h : Nat) (hdr : Hdr) : Nat × Nat :=
  let displ := current % HBLKSIZE
  let gran_displ := displ / GRANULE_BYTES
  let gran_offset := hb_map hdr gran_displ
  let byte_offset := displ % GRANULE_BYTES
  if gran_offset ≠ 0 ∨ byte_offset ≠ 0 then
    if hdr.isLarge then (h * HBLKSIZE, 0)
    else (current - (gran_offset * GRANULE_BYTES + byte_offset), gran_displ - gran_offset)
  else (current, gran_displ)

/-- `PUSH_CONTENTS_HDR`, for the block `h` with the header `hdr`. -/
def PUSH_CONTENTS_HDR (current h : Nat) (hdr : Hdr) (s : State heap) : State heap :=
  let (base, gran_displ) := baseAndGranule current h hdr
  if s.hb_marks.bit h gran_displ then s
  else PUSH_OBJ area base hdr { s with hb_marks := s.hb_marks.set h gran_displ }

/-- `GC_base`. -/
def GC_base (heap : Heap) (p : Nat) : Option Nat :=
  (heap.blockOf (p / HBLKSIZE)).bind fun h =>
    (heap.HDR h).bind fun hdr =>
      let r := if p / HBLKSIZE = h then p else h * HBLKSIZE
      let r := r - r % 8
      let sz := hdr.hb_sz * GRANULE_BYTES
      let r := r - r % HBLKSIZE % sz
      let limit := r + sz
      if (h + 1) * HBLKSIZE < limit ∧ sz ≤ HBLKSIZE then none
      else if limit ≤ p then none
      else some r

/-- `GC_mark_and_push`. A page without a header is free, or a later page of a large object. -/
def GC_mark_and_push (obj : Nat) (s : State heap) : State heap :=
  match heap.HDR (obj / HBLKSIZE) with
  | some hdr => PUSH_CONTENTS_HDR area obj (obj / HBLKSIZE) hdr s
  | none =>
      match GC_base heap obj with
      | none => s
      | some base =>
          match heap.HDR (base / HBLKSIZE) with
          | none => s
          | some hdr => PUSH_CONTENTS_HDR area obj (base / HBLKSIZE) hdr s

/-- `ironclad_precise_mark`. -/
def ironclad_precise_mark (s : State heap) (current : Nat) : State heap :=
  GC_mark_and_push area current s

/-- `ironclad_mark_address`, for an allocation whose `mark()` passes on the addresses
`addrs`. -/
def ironclad_mark_address (addrs : List Nat) (address : Nat) (s : State heap) : State heap :=
  if 1000 < address then addrs.foldl (ironclad_precise_mark area) s else s

/-- The case `GC_DS_PRECISE` of `GC_mark_from`, with the value that `mark_stack_top` has
afterwards. -/
def markPrecise (addrs : List Nat) (mark_stack_top : Int) (s : State heap) : Int × State heap :=
  let current_p := (s.GC_mark_stack mark_stack_top.toNat).mse_start
  let mark_stack_top := mark_stack_top - 1
  if current_p = area.mark_stack_limit then (mark_stack_top, s)
  else
    let s := { s with ironclad_mark_stack_top := mark_stack_top }
    let s := ironclad_mark_address area addrs current_p s
    (s.ironclad_mark_stack_top, s)

end

/-! ## In terms of objects -/

section

variable {heap : Heap} {area : Area} {s : State heap} {h current : Nat} {hdr : Hdr}

/-- Setting the bit at which the object begins marks this object. -/
theorem HbMarks.marks_set (wf : heap.WF) {x : Obj} (hhdr : heap.HDR x.page = some hdr)
    (hb_marks : HbMarks heap) :
    (hb_marks.set x.page (x.slot * hdr.hb_sz)).marks = hb_marks.marks.set x := by
  have hpos := wf.hb_sz_pos x.page hdr hhdr
  funext y
  by_cases hpage : y.page = x.page
  · have hiff : y = x ↔ y.slot * hdr.hb_sz = x.slot * hdr.hb_sz := by
      obtain ⟨yp, ys⟩ := y
      obtain ⟨xp, xs⟩ := x
      simp only at hpage hpos
      subst hpage
      simp only [Obj.mk.injEq, true_and]
      exact (Nat.mul_left_inj hpos.ne').symm
    simp only [HbMarks.marks, HbMarks.set, Marks.set, hpage, hhdr, true_and, hiff]
  · have hne : y ≠ x := fun heq => hpage (heq ▸ rfl)
    simp only [HbMarks.marks, HbMarks.set, Marks.set, hpage, hne, false_and, if_false]

theorem baseAndGranule_large (hlarge : hdr.isLarge = true) (current h : Nat) :
    baseAndGranule current h hdr = (h * HBLKSIZE, 0) := by
  simp [baseAndGranule, hb_map, hlarge]

/-- In a block of small objects the object begins a whole number of objects after the
beginning of the block. -/
theorem baseAndGranule_small (hsmall : hdr.isLarge = false) (hpage : current / HBLKSIZE = h) :
    baseAndGranule current h hdr =
      (h * HBLKSIZE + hdr.slotAt h current * (hdr.hb_sz * GRANULE_BYTES),
        hdr.slotAt h current * hdr.hb_sz) := by
  have hslot : hdr.slotAt h current = current % HBLKSIZE / GRANULE_BYTES / hdr.hb_sz := by
    have hdispl : current - h * HBLKSIZE = current % HBLKSIZE := by
      subst hpage
      have := Nat.div_add_mod current HBLKSIZE
      rw [Nat.mul_comm] at this
      omega
    rw [Hdr.slotAt, hsmall, Bool.false_and, if_neg Bool.false_ne_true, hdispl,
      Nat.div_div_eq_div_mul, Nat.mul_comm GRANULE_BYTES]
  have hcur : h * HBLKSIZE + current % HBLKSIZE = current := by
    subst hpage
    rw [Nat.mul_comm]
    exact Nat.div_add_mod current HBLKSIZE
  rw [hslot]
  generalize hd : current % HBLKSIZE = displ at hcur
  have hgran := Nat.div_add_mod displ GRANULE_BYTES
  have hobj := Nat.div_add_mod (displ / GRANULE_BYTES) hdr.hb_sz
  have hbytes : displ / GRANULE_BYTES / hdr.hb_sz * (hdr.hb_sz * GRANULE_BYTES) =
      GRANULE_BYTES * (hdr.hb_sz * (displ / GRANULE_BYTES / hdr.hb_sz)) := by
    rw [← Nat.mul_assoc, Nat.mul_comm _ GRANULE_BYTES, Nat.mul_comm hdr.hb_sz]
  have hcomm := Nat.mul_comm hdr.hb_sz (displ / GRANULE_BYTES / hdr.hb_sz)
  have heq : baseAndGranule current h hdr =
      (current - (displ / GRANULE_BYTES % hdr.hb_sz * GRANULE_BYTES + displ % GRANULE_BYTES),
        displ / GRANULE_BYTES - displ / GRANULE_BYTES % hdr.hb_sz) := by
    simp only [baseAndGranule, hd, hb_map, hsmall, Bool.false_eq_true, if_false]
    split
    · rfl
    · rename_i hzero
      obtain ⟨h₁, h₂⟩ := not_or.mp hzero
      rw [not_not.mp h₁, not_not.mp h₂]
      simp
  rw [heq]
  simp only [GRANULE_BYTES] at *
  refine Prod.ext_iff.mpr ⟨?_, ?_⟩
  · simp only
    omega
  · simp only
    omega

variable (area s) in
/-- In the block that `current` points into, `PUSH_CONTENTS_HDR` finds the object: one that
is marked already, the end of the block, where the bit is always set, or one to push. -/
theorem PUSH_CONTENTS_HDR_cases (hhdr : heap.HDR h = some hdr)
    (hfirst : hdr.isLarge = false → current / HBLKSIZE = h) (hslot : hdr.isLarge = true →
      hdr.slotAt h current = 0) :
    (PUSH_CONTENTS_HDR area current h hdr s = s ∧
        (hdr.slotAt h current < hdr.objs → s.hb_marks.marks ⟨h, hdr.slotAt h current⟩ = true)) ∨
      hdr.slotAt h current < hdr.objs ∧ s.hb_marks.marks ⟨h, hdr.slotAt h current⟩ = false ∧
        PUSH_CONTENTS_HDR area current h hdr s =
          PUSH_OBJ area (heap.addrOf ⟨h, hdr.slotAt h current⟩) hdr
            { s with hb_marks := s.hb_marks.set h (hdr.slotAt h current * hdr.hb_sz) } := by
  have heq : baseAndGranule current h hdr = (h * HBLKSIZE + hdr.slotAt h current *
      (hdr.hb_sz * GRANULE_BYTES), hdr.slotAt h current * hdr.hb_sz) := by
    cases hlarge : hdr.isLarge with
    | true =>
        rw [baseAndGranule_large hlarge, hslot hlarge]
        simp
    | false => exact baseAndGranule_small hlarge (hfirst hlarge)
  have haddr : heap.addrOf ⟨h, hdr.slotAt h current⟩ =
      h * HBLKSIZE + hdr.slotAt h current * (hdr.hb_sz * GRANULE_BYTES) := by
    simp only [Heap.addrOf, hhdr]
  have hmark : s.hb_marks.marks ⟨h, hdr.slotAt h current⟩ =
      s.hb_marks.bit h (hdr.slotAt h current * hdr.hb_sz) := by
    simp only [HbMarks.marks, hhdr]
  unfold PUSH_CONTENTS_HDR
  rw [heq, haddr, hmark]
  simp only
  by_cases hin : hdr.slotAt h current < hdr.objs
  · cases hbit : s.hb_marks.bit h (hdr.slotAt h current * hdr.hb_sz) with
    | true => simp
    | false =>
        right
        exact ⟨hin, rfl, by simp⟩
  · -- behind the last object
    left
    have hsmall : hdr.isLarge = false := by
      cases hlarge : hdr.isLarge with
      | false => rfl
      | true => exact absurd (by rw [hslot hlarge, Hdr.objs, hlarge]; simp) hin
    have hend : hdr.slotAt h current = HBLK_OBJS hdr.hb_sz := by
      rw [Hdr.objs, hsmall, if_neg Bool.false_ne_true] at hin
      refine Nat.le_antisymm ?_ (Nat.le_of_not_lt hin)
      rw [Hdr.slotAt, hsmall, Bool.false_and, if_neg Bool.false_ne_true]
      refine Nat.div_le_div_right ?_
      have := hfirst hsmall
      simp only [HBLKSIZE] at this ⊢
      omega
    have hfinal := s.hb_marks.final h hdr hhdr
    rw [FINAL_MARK_BIT, hsmall, if_neg Bool.false_ne_true, ← hend, Nat.mul_comm] at hfinal
    rw [hfinal]
    exact ⟨by simp, fun hlt => absurd hlt hin⟩

theorem base_of_blockOf (hblock : heap.blockOf (current / HBLKSIZE) = some h)
    (hhdr : heap.HDR h = some hdr) :
    heap.base current =
      if hdr.slotAt h current < hdr.objs then some ⟨h, hdr.slotAt h current⟩ else none := by
  rw [Heap.base, hblock, Option.bind_some, hhdr, Option.bind_some]

/-- A block of more than one page holds a large object. -/
theorem isLarge_of_lt (hlt : 1 < OBJ_SZ_TO_BLOCKS hdr.hb_sz) : hdr.isLarge = true := by
  simp only [OBJ_SZ_TO_BLOCKS, GRANULE_BYTES, HBLKSIZE] at hlt
  refine decide_eq_true ?_
  show 128 < hdr.hb_sz
  omega

/-- `GC_base` of an address in a later page of a large object. -/
theorem GC_base_later (wf : heap.WF) (hblock : heap.blockOf (current / HBLKSIZE) = some h)
    (hhdr : heap.HDR h = some hdr) (hlater : current / HBLKSIZE ≠ h) :
    hdr.isLarge = true ∧
      ((hdr.slotAt h current = 0 ∧ GC_base heap current = some (h * HBLKSIZE)) ∨
        hdr.slotAt h current ≠ 0 ∧ GC_base heap current = none) := by
  obtain ⟨hdr', hhdr', hle, hlt⟩ := Heap.blockOf_some hblock
  rw [hhdr] at hhdr'
  cases hhdr'
  have hpos := wf.hb_sz_pos h hdr hhdr
  have hlarge : hdr.isLarge = true := isLarge_of_lt (by omega)
  have hslot : hdr.slotAt h current = (current - h * HBLKSIZE) / (hdr.hb_sz * GRANULE_BYTES) := by
    rw [Hdr.slotAt, hlarge, Bool.true_and, if_neg]
    simp [hlater]
  have hcur : h * HBLKSIZE ≤ current := by
    simp only [HBLKSIZE] at hle ⊢
    omega
  have hbase : GC_base heap current =
      if h * HBLKSIZE + hdr.hb_sz * GRANULE_BYTES ≤ current then none
      else some (h * HBLKSIZE) := by
    rw [GC_base, hblock, Option.bind_some, hhdr, Option.bind_some]
    simp only [if_neg hlater]
    have h8 : h * HBLKSIZE % 8 = 0 := by
      simp only [HBLKSIZE]
      omega
    have hmod : h * HBLKSIZE % HBLKSIZE = 0 := Nat.mul_mod_left h HBLKSIZE
    have hno : ¬((h + 1) * HBLKSIZE < h * HBLKSIZE + hdr.hb_sz * GRANULE_BYTES ∧
        hdr.hb_sz * GRANULE_BYTES ≤ HBLKSIZE) := by
      rw [Nat.add_mul]
      omega
    rw [h8, Nat.sub_zero, hmod, Nat.zero_mod, Nat.sub_zero, if_neg hno]
  refine ⟨hlarge, ?_⟩
  rw [hslot, hbase]
  have hsz : hdr.hb_sz * GRANULE_BYTES ≠ 0 := by
    simp only [GRANULE_BYTES]
    omega
  by_cases hin : h * HBLKSIZE + hdr.hb_sz * GRANULE_BYTES ≤ current
  · right
    rw [if_pos hin]
    refine ⟨fun hzero => ?_, rfl⟩
    rcases Nat.div_eq_zero_iff.mp hzero with h0 | hlt'
    · exact hsz h0
    · omega
  · left
    rw [if_neg hin]
    exact ⟨Nat.div_eq_of_lt (by omega), rfl⟩

variable (area s) in
/-- Both ways to a header end in `PUSH_CONTENTS_HDR` for the block that is pointed into. -/
theorem PUSH_CONTENTS_HDR_base {obj : Nat} (hblock : heap.blockOf (obj / HBLKSIZE) = some h)
    (hhdr : heap.HDR h = some hdr) (hfirst : hdr.isLarge = false → obj / HBLKSIZE = h)
    (hslot : hdr.isLarge = true → hdr.slotAt h obj = 0) :
    (PUSH_CONTENTS_HDR area obj h hdr s = s ∧
        ∀ x, heap.base obj = some x → s.hb_marks.marks x = true) ∨
      ∃ x hdr', heap.base obj = some x ∧ heap.HDR x.page = some hdr' ∧
        s.hb_marks.marks x = false ∧
        PUSH_CONTENTS_HDR area obj h hdr s = PUSH_OBJ area (heap.addrOf x) hdr'
          { s with hb_marks := s.hb_marks.set x.page (x.slot * hdr'.hb_sz) } := by
  rw [base_of_blockOf hblock hhdr]
  rcases PUSH_CONTENTS_HDR_cases area s hhdr hfirst hslot with
    ⟨hsame, hmark⟩ | ⟨hin, hmark, hpush⟩
  · refine .inl ⟨hsame, fun x hx => ?_⟩
    split at hx
    · rename_i hin
      cases hx
      exact hmark hin
    · cases hx
  · right
    rw [if_pos hin]
    exact ⟨_, hdr, rfl, hhdr, hmark, hpush⟩

variable (area) in
/-- **What `GC_mark_and_push` does.** The object that the address points into is marked
already, if there is one, or it is marked and pushed. -/
theorem GC_mark_and_push_cases (wf : heap.WF) (obj : Nat) (s : State heap) :
    (GC_mark_and_push area obj s = s ∧ ∀ x, heap.base obj = some x → s.hb_marks.marks x = true) ∨
      ∃ x hdr, heap.base obj = some x ∧ heap.HDR x.page = some hdr ∧ s.hb_marks.marks x = false ∧
        GC_mark_and_push area obj s = PUSH_OBJ area (heap.addrOf x) hdr
          { s with hb_marks := s.hb_marks.set x.page (x.slot * hdr.hb_sz) } := by
  cases hpage : heap.HDR (obj / HBLKSIZE) with
  | some hdr =>
      have hlt : obj / HBLKSIZE < obj / HBLKSIZE + OBJ_SZ_TO_BLOCKS hdr.hb_sz := by
        have := OBJ_SZ_TO_BLOCKS_pos (wf.hb_sz_pos _ hdr hpage)
        omega
      have hslot : hdr.isLarge = true → hdr.slotAt (obj / HBLKSIZE) obj = 0 := by
        intro hlarge
        simp [Hdr.slotAt, hlarge]
      rw [GC_mark_and_push, hpage]
      exact PUSH_CONTENTS_HDR_base area s (wf.blockOf_eq hpage le_rfl hlt) hpage (fun _ => rfl)
        hslot
  | none =>
      cases hblock : heap.blockOf (obj / HBLKSIZE) with
      | none =>
          -- no block in use is pointed into
          left
          have hbase : heap.base obj = none := by rw [Heap.base, hblock, Option.bind_none]
          refine ⟨?_, fun x hx => ?_⟩
          · rw [GC_mark_and_push, hpage]
            simp only [GC_base, hblock, Option.bind_none]
          · rw [hbase] at hx
            cases hx
      | some h =>
          obtain ⟨hdr, hhdr, -⟩ := Heap.blockOf_some hblock
          have hlater : obj / HBLKSIZE ≠ h := by
            rintro rfl
            rw [hpage] at hhdr
            cases hhdr
          obtain ⟨hlarge, ⟨hslot, hbase⟩ | ⟨hslot, hbase⟩⟩ := GC_base_later wf hblock hhdr hlater
          · have hfind : h * HBLKSIZE / HBLKSIZE = h := Nat.mul_div_cancel h (by decide)
            have heq : GC_mark_and_push area obj s = PUSH_CONTENTS_HDR area obj h hdr s := by
              simp only [GC_mark_and_push, hpage, hbase, hfind, hhdr]
            rw [heq]
            refine PUSH_CONTENTS_HDR_base area s hblock hhdr (fun hsmall => ?_) fun _ => hslot
            rw [hlarge] at hsmall
            cases hsmall
          · -- behind the end of the large object, in its last page
            left
            have hnone : heap.base obj = none := by
              have hobjs : hdr.objs = 1 := by rw [Hdr.objs, hlarge, if_pos rfl]
              rw [base_of_blockOf hblock hhdr, hobjs, if_neg (by omega)]
            refine ⟨?_, fun x hx => ?_⟩
            · simp only [GC_mark_and_push, hpage, hbase]
            · rw [hnone] at hx
              cases hx

end

end Ironclad.Gc.MarkStack
