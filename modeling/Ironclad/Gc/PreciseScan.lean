import Ironclad.Gc.Marking
import Ironclad.Gc.Allocation
import Ironclad.Gc.MarkStack

/-!
# Scanning one precise object

What the case `GC_DS_PRECISE` of `GC_mark_from` does to the mark bits and to the mark stack,
while the top of the stack is passed through a global and pushed to by the object's
`mark()`. `scanned_iff` says exactly when it does its work: unless the object begins where
the mark stack ends. `markPrecise_refines` connects it with the iterations of the marker.
-/

namespace Ironclad.Gc.MarkStack

variable {heap : Heap} {area : Area} {s s' : State heap} {hdr : Hdr} {addrs : List Nat}
  {old : List GC_ms_entry} {top : Int} {pushed : List Obj}

/-! ## One push -/

/-- The entries of the mark stack up to the index `top`, from the bottom. -/
def State.entriesTo (s : State heap) (top : Int) : List GC_ms_entry :=
  (List.range (top + 1).toNat).map s.GC_mark_stack

/-- The entries that are on the mark stack. -/
def State.stack (s : State heap) : List GC_ms_entry := s.entriesTo s.ironclad_mark_stack_top

/-- The top lies within the mark stack, or right below an empty one. -/
structure State.InStack (area : Area) (s : State heap) : Prop where
  low : -1 ≤ s.ironclad_mark_stack_top
  high : s.ironclad_mark_stack_top < area.size

theorem State.InStack.length (hs : s.InStack area) :
    (s.stack.length : Int) = s.ironclad_mark_stack_top + 1 := by
  have := hs.low
  simp only [State.stack, State.entriesTo, List.length_map, List.length_range]
  omega

/-- Writing the entry behind the top and moving the top there. -/
theorem map_range_update (f : Nat → GC_ms_entry) (n : Nat) (e : GC_ms_entry) :
    (List.range (n + 1)).map (Function.update f n e) = (List.range n).map f ++ [e] := by
  rw [List.range_succ, List.map_append, List.map_singleton, Function.update_self]
  congr 1
  refine List.map_congr_left fun i hi => ?_
  exact Function.update_of_ne (List.mem_range.mp hi).ne e f

@[simp] theorem PUSH_OBJ_hb_marks {obj : Nat} :
    (PUSH_OBJ area obj hdr s).hb_marks = s.hb_marks := by
  unfold PUSH_OBJ GC_signal_mark_stack_overflow
  simp only
  repeat' split
  all_goals rfl

theorem PUSH_OBJ_nothing {obj : Nat} (hdescr : hdr.hb_descr = 0) : PUSH_OBJ area obj hdr s = s := by
  rw [PUSH_OBJ, if_neg (not_not.mpr hdescr)]

/-- The object goes on top when there is room. -/
theorem PUSH_OBJ_room (obj : Nat) (hs : s.InStack area) (hdescr : hdr.hb_descr ≠ 0)
    (hroom : s.ironclad_mark_stack_top + 1 < area.size) :
    (PUSH_OBJ area obj hdr s).stack = s.stack ++ [⟨obj, hdr.hb_descr⟩] ∧
      (PUSH_OBJ area obj hdr s).GC_mark_state = s.GC_mark_state ∧
      (PUSH_OBJ area obj hdr s).GC_mark_stack_too_small = s.GC_mark_stack_too_small ∧
      (PUSH_OBJ area obj hdr s).InStack area := by
  have hlow := hs.low
  have heq : PUSH_OBJ area obj hdr s =
      { s with
        ironclad_mark_stack_top := s.ironclad_mark_stack_top + 1
        GC_mark_stack := Function.update s.GC_mark_stack (s.ironclad_mark_stack_top + 1).toNat
          ⟨obj, hdr.hb_descr⟩ } := by
    simp only [PUSH_OBJ, if_pos hdescr, if_neg (Int.not_le.mpr hroom)]
  rw [heq]
  refine ⟨?_, rfl, rfl, ⟨?_, hroom⟩⟩
  · show (List.range (s.ironclad_mark_stack_top + 1 + 1).toNat).map
      (Function.update s.GC_mark_stack _ _) = (List.range _).map _ ++ _
    have hnat : (s.ironclad_mark_stack_top + 1 + 1).toNat =
        (s.ironclad_mark_stack_top + 1).toNat + 1 := by omega
    rw [hnat, map_range_update]
  · show -1 ≤ s.ironclad_mark_stack_top + 1
    omega

/-- When there is none, the topmost entries are given up. -/
theorem PUSH_OBJ_overflow (obj : Nat) (hs : s.InStack area) (hdescr : hdr.hb_descr ≠ 0)
    (hfull : s.ironclad_mark_stack_top + 1 = area.size) :
    (PUSH_OBJ area obj hdr s).stack =
        s.stack.take (area.size - GC_MARK_STACK_DISCARDS) ++ [⟨obj, hdr.hb_descr⟩] ∧
      (PUSH_OBJ area obj hdr s).GC_mark_state = .MS_INVALID ∧
      (PUSH_OBJ area obj hdr s).GC_mark_stack_too_small = true ∧
      0 ≤ (PUSH_OBJ area obj hdr s).ironclad_mark_stack_top ∧
      (PUSH_OBJ area obj hdr s).ironclad_mark_stack_top < area.size := by
  have hlow := hs.low
  have hsize : 4096 ≤ area.size := area.size_ge
  have hdisc : GC_MARK_STACK_DISCARDS = 512 := rfl
  have heq : PUSH_OBJ area obj hdr s =
      { s with
        GC_mark_state := .MS_INVALID
        GC_mark_stack_too_small := true
        ironclad_mark_stack_top := s.ironclad_mark_stack_top + 1 - GC_MARK_STACK_DISCARDS
        GC_mark_stack := Function.update s.GC_mark_stack
          (s.ironclad_mark_stack_top + 1 - GC_MARK_STACK_DISCARDS).toNat
          ⟨obj, hdr.hb_descr⟩ } := by
    simp only [PUSH_OBJ, if_pos hdescr, if_pos (Int.le_of_eq hfull.symm),
      GC_signal_mark_stack_overflow]
  rw [heq]
  refine ⟨?_, rfl, rfl, ?_, ?_⟩
  · show (List.range (s.ironclad_mark_stack_top + 1 - GC_MARK_STACK_DISCARDS + 1).toNat).map
      (Function.update s.GC_mark_stack _ _) = ((List.range _).map _).take _ ++ _
    have hnat : (s.ironclad_mark_stack_top + 1 - GC_MARK_STACK_DISCARDS + 1).toNat =
        (s.ironclad_mark_stack_top + 1 - GC_MARK_STACK_DISCARDS).toNat + 1 := by omega
    have htake : min (area.size - GC_MARK_STACK_DISCARDS) (s.ironclad_mark_stack_top + 1).toNat =
        (s.ironclad_mark_stack_top + 1 - GC_MARK_STACK_DISCARDS).toNat := by omega
    rw [hnat, map_range_update, ← List.map_take, List.take_range, htake]
  · show 0 ≤ s.ironclad_mark_stack_top + 1 - GC_MARK_STACK_DISCARDS
    omega
  · show s.ironclad_mark_stack_top + 1 - GC_MARK_STACK_DISCARDS < (area.size : Int)
    omega

/-! ## All that a `mark()` passes on -/

/-- The descriptor in the header of the object's block. -/
def descrOf (heap : Heap) (x : Obj) : Nat :=
  match heap.HDR x.page with
  | some hdr => hdr.hb_descr
  | none => 0

/-- The mark stack entry of an object. -/
def entryOf (heap : Heap) (x : Obj) : GC_ms_entry := ⟨heap.addrOf x, descrOf heap x⟩

/-- What has to happen when the addresses `addrs` are passed on while the entries `old` are
on the mark stack: everything they point into is marked, each object that was not marked
and has a descriptor is pushed once, and the old entries stay; or the mark stack overflows,
the mark state tells so, and the top lies within the stack. -/
structure Scanned (area : Area) (addrs : List Nat) (old : List GC_ms_entry) (s s' : State heap)
    (top : Int) (pushed : List Obj) : Prop where
  marked : s'.hb_marks.marks.marked = s.hb_marks.marks.marked ∪ heap.targets addrs
  nodup : pushed.Nodup
  mem_pushed : ∀ x, x ∈ pushed ↔
    x ∈ heap.targets addrs ∧ x ∉ s.hb_marks.marks.marked ∧ descrOf heap x ≠ 0
  pushes : old.length + pushed.length ≤ area.size →
    s'.entriesTo top = old ++ pushed.map (entryOf heap) ∧
      top + 1 = old.length + pushed.length ∧ s'.GC_mark_state = s.GC_mark_state
  overflows : area.size < old.length + pushed.length →
    s'.GC_mark_state = .MS_INVALID ∧ 0 ≤ top ∧ top < area.size

theorem Scanned.state (h : Scanned area addrs old s s' top pushed) :
    s'.GC_mark_state = .MS_INVALID ∨ s'.GC_mark_state = s.GC_mark_state := by
  rcases Nat.lt_or_ge area.size (old.length + pushed.length) with hlt | hle
  · exact .inl (h.overflows hlt).1
  · exact .inr (h.pushes hle).2.2

theorem Scanned.inStack (h : Scanned area addrs old s s' s'.ironclad_mark_stack_top pushed) :
    s'.InStack area := by
  rcases Nat.lt_or_ge area.size (old.length + pushed.length) with hlt | hle
  · obtain ⟨-, hlow, hhigh⟩ := h.overflows hlt
    exact ⟨by omega, hhigh⟩
  · obtain ⟨-, htop, -⟩ := h.pushes hle
    exact ⟨by omega, by omega⟩

theorem mem_targets_append {xs ys : List Nat} {x : Obj} :
    x ∈ heap.targets (xs ++ ys) ↔ x ∈ heap.targets xs ∨ x ∈ heap.targets ys := by
  constructor
  · rintro ⟨addr, haddr, hx⟩
    rcases List.mem_append.mp haddr with h | h
    · exact .inl ⟨addr, h, hx⟩
    · exact .inr ⟨addr, h, hx⟩
  · rintro (⟨addr, h, hx⟩ | ⟨addr, h, hx⟩)
    · exact ⟨addr, List.mem_append_left ys h, hx⟩
    · exact ⟨addr, List.mem_append_right xs h, hx⟩

theorem mem_targets_singleton {addr : Nat} {x : Obj} :
    x ∈ heap.targets [addr] ↔ heap.base addr = some x := by
  rw [Heap.mem_targets_cons]
  constructor
  · rintro (h | ⟨a, ha, -⟩)
    · exact h
    · cases ha
  · exact Or.inl

/-- Passing on some addresses, and then some more. -/
theorem Scanned.trans {xs ys : List Nat} {s₁ s₂ : State heap} {p₁ p₂ : List Obj}
    (h₁ : Scanned area xs s.stack s s₁ s₁.ironclad_mark_stack_top p₁)
    (h₂ : Scanned area ys s₁.stack s₁ s₂ s₂.ironclad_mark_stack_top p₂) :
    Scanned area (xs ++ ys) s.stack s s₂ s₂.ironclad_mark_stack_top (p₁ ++ p₂) := by
  have hmarked : ∀ x, x ∈ s₁.hb_marks.marks.marked ↔
      x ∈ s.hb_marks.marks.marked ∨ x ∈ heap.targets xs := by
    intro x
    rw [h₁.marked]
    exact Iff.rfl
  have hlen := h₁.inStack.length
  refine ⟨?_, ?_, ?_, ?_, ?_⟩
  · ext x
    rw [h₂.marked, Set.mem_union, Set.mem_union, hmarked, mem_targets_append, or_assoc]
  · -- what was pushed first is marked when the rest is passed on
    refine List.nodup_append.mpr ⟨h₁.nodup, h₂.nodup, ?_⟩
    rintro x hx₁ _ hx₂ rfl
    have hx := ((h₁.mem_pushed x).mp hx₁).1
    exact ((h₂.mem_pushed x).mp hx₂).2.1 ((hmarked x).mpr (.inr hx))
  · intro x
    rw [List.mem_append, h₁.mem_pushed, h₂.mem_pushed, mem_targets_append, hmarked]
    tauto
  · intro hfits
    rw [List.length_append] at hfits
    obtain ⟨hstack, -, hstate⟩ := h₁.pushes (by omega)
    have hstack : s₁.stack = s.stack ++ p₁.map (entryOf heap) := hstack
    have hl : s₁.stack.length = s.stack.length + p₁.length := by
      rw [hstack, List.length_append, List.length_map]
    obtain ⟨hstack₂, htop₂, hstate₂⟩ := h₂.pushes (by omega)
    refine ⟨?_, ?_, hstate₂.trans hstate⟩
    · rw [hstack₂, hstack, List.map_append, List.append_assoc]
    · rw [htop₂, List.length_append, hl]
      push_cast
      omega
  · intro hover
    rw [List.length_append] at hover
    rcases Nat.lt_or_ge area.size (s.stack.length + p₁.length) with hlt | hle
    · -- the stack overflowed on the way, and that stays known
      obtain ⟨hinv, hlow, -⟩ := h₁.overflows hlt
      refine ⟨?_, ?_, h₂.inStack.high⟩
      · rcases h₂.state with h | h
        · exact h
        · exact h.trans hinv
      · rcases Nat.lt_or_ge area.size (s₁.stack.length + p₂.length) with hlt' | hle'
        · exact (h₂.overflows hlt').2.1
        · have := (h₂.pushes hle').2.1
          omega
    · obtain ⟨hstack, -, -⟩ := h₁.pushes hle
      have hstack : s₁.stack = s.stack ++ p₁.map (entryOf heap) := hstack
      refine h₂.overflows ?_
      rw [hstack, List.length_append, List.length_map]
      omega

/-- When everything is marked already nothing has to happen. -/
theorem Scanned.nothing (addrs : List Nat) (hs : s.InStack area)
    (hin : heap.targets addrs ⊆ s.hb_marks.marks.marked) :
    Scanned area addrs s.stack s s s.ironclad_mark_stack_top [] := by
  have hlen := hs.length
  have hhigh := hs.high
  refine ⟨(Set.union_eq_self_of_subset_right hin).symm, List.nodup_nil, ?_, ?_, ?_⟩
  · intro x
    simp only [List.not_mem_nil, false_iff]
    exact fun h => h.2.1 (hin h.1)
  · intro _
    refine ⟨by simp [State.stack], ?_, rfl⟩
    rw [hlen]
    simp
  · intro hover
    simp only [List.length_nil] at hover
    omega

theorem targets_nil : heap.targets [] = ∅ := by
  ext x
  simp [Heap.targets]

/-- One address is passed on. -/
theorem ironclad_precise_mark_scanned (wf : heap.WF) (hs : s.InStack area) (addr : Nat) :
    ∃ pushed, Scanned area [addr] s.stack s (ironclad_precise_mark area s addr)
      (ironclad_precise_mark area s addr).ironclad_mark_stack_top pushed := by
  have hlen := hs.length
  have hhigh := hs.high
  rcases GC_mark_and_push_cases area wf addr s with
    ⟨hsame, hmark⟩ | ⟨x, hdr, hbase, hhdr, hmark, hpush⟩
  · -- nothing is pointed into, or it is marked already
    have hsame : ironclad_precise_mark area s addr = s := hsame
    rw [hsame]
    exact ⟨[], Scanned.nothing _ hs fun x hx => hmark x (mem_targets_singleton.mp hx)⟩
  · have hpush : ironclad_precise_mark area s addr = PUSH_OBJ area (heap.addrOf x) hdr
        { s with hb_marks := s.hb_marks.set x.page (x.slot * hdr.hb_sz) } := hpush
    set s₁ : State heap := { s with hb_marks := s.hb_marks.set x.page (x.slot * hdr.hb_sz) }
    have hs₁ : s₁.InStack area := ⟨hs.low, hs.high⟩
    have htargets : heap.targets [addr] = {x} := by
      ext y
      rw [mem_targets_singleton, hbase, Option.some_inj, Set.mem_singleton_iff]
      exact eq_comm
    have hdescr : descrOf heap x = hdr.hb_descr := by rw [descrOf, hhdr]
    have hnot : x ∉ s.hb_marks.marks.marked := by
      rw [Marks.mem_marked, hmark]
      exact Bool.false_ne_true
    have hmarked : (ironclad_precise_mark area s addr).hb_marks.marks.marked =
        s.hb_marks.marks.marked ∪ heap.targets [addr] := by
      rw [hpush, PUSH_OBJ_hb_marks, HbMarks.marks_set wf hhdr, Marks.marked_set, htargets,
        Set.union_singleton]
    by_cases hzero : hdr.hb_descr = 0
    · -- marked, but there is nothing to scan in it
      have hnone := Scanned.nothing [] hs₁ (targets_nil ▸ Set.empty_subset _)
      have heq : ironclad_precise_mark area s addr = s₁ := by rw [hpush, PUSH_OBJ_nothing hzero]
      refine ⟨[], hmarked, List.nodup_nil, ?_, ?_, ?_⟩
      · intro y
        simp only [List.not_mem_nil, false_iff, htargets]
        rintro ⟨rfl, -, hne⟩
        exact hne (hdescr.trans hzero)
      · rw [heq]
        exact hnone.pushes
      · rw [heq]
        exact hnone.overflows
    · refine ⟨[x], hmarked, by simp, ?_, ?_, ?_⟩
      · intro y
        rw [List.mem_singleton, htargets]
        constructor
        · rintro rfl
          exact ⟨rfl, hnot, hdescr ▸ hzero⟩
        · exact fun h => h.1
      · intro hfits
        rw [List.length_singleton] at hfits
        obtain ⟨hstack, hstate, -, hin⟩ := PUSH_OBJ_room (heap.addrOf x) hs₁ hzero
          (show s.ironclad_mark_stack_top + 1 < (area.size : Int) by omega)
        rw [hpush]
        refine ⟨?_, ?_, hstate⟩
        · show (PUSH_OBJ area (heap.addrOf x) hdr s₁).stack = _
          rw [hstack, List.map_singleton, entryOf, hdescr]
          rfl
        · rw [← hin.length, hstack, List.length_append]
          rfl
      · intro hover
        rw [List.length_singleton] at hover
        obtain ⟨-, hstate, -, hlow, hhigh'⟩ := PUSH_OBJ_overflow (heap.addrOf x) hs₁ hzero
          (show s.ironclad_mark_stack_top + 1 = (area.size : Int) by omega)
        rw [hpush]
        exact ⟨hstate, hlow, hhigh'⟩

/-- **All the addresses that a `mark()` passes on**, one after the other. -/
theorem precise_marks_scanned (wf : heap.WF) (hs : s.InStack area) (addrs : List Nat) :
    ∃ pushed, Scanned area addrs s.stack s (addrs.foldl (ironclad_precise_mark area) s)
      (addrs.foldl (ironclad_precise_mark area) s).ironclad_mark_stack_top pushed := by
  induction addrs generalizing s with
  | nil => exact ⟨[], Scanned.nothing _ hs (targets_nil ▸ Set.empty_subset _)⟩
  | cons addr addrs ih =>
      obtain ⟨p₁, h₁⟩ := ironclad_precise_mark_scanned wf hs addr
      obtain ⟨p₂, h₂⟩ := ih h₁.inStack
      exact ⟨p₁ ++ p₂, h₁.trans h₂⟩

/-- The address of an object is not one that `ironclad_mark_address` rejects. -/
theorem lt_addrOf (wf : heap.WF) {x : Obj} (hx : heap.IsObj x) : 1000 < heap.addrOf x := by
  obtain ⟨hdr, hhdr, -⟩ := hx
  have hpos := wf.page_pos x.page hdr hhdr
  simp only [Heap.addrOf, hhdr, HBLKSIZE]
  omega

/-- **When the scan of a precise object does its work.** For every content of the mark stack
and of the mark bits, and whatever addresses the object's `mark()` passes on: exactly if the
object does not begin at the limit of the mark stack, or there is nothing to mark. -/
theorem scanned_iff (wf : heap.WF) {x : Obj} (hx : heap.IsObj x) {mark_stack_top : Int}
    (hlow : 0 ≤ mark_stack_top) (hhigh : mark_stack_top < area.size)
    (hentry : s.GC_mark_stack mark_stack_top.toNat = ⟨heap.addrOf x, GC_DS_PRECISE⟩)
    (addrs : List Nat) :
    (∃ pushed, Scanned area addrs (s.entriesTo (mark_stack_top - 1)) s
        (markPrecise area addrs mark_stack_top s).2
        (markPrecise area addrs mark_stack_top s).1 pushed) ↔
      heap.addrOf x ≠ area.mark_stack_limit ∨
        heap.targets addrs ⊆ s.hb_marks.marks.marked := by
  -- the state in which the object is popped
  set s₀ : State heap := { s with ironclad_mark_stack_top := mark_stack_top - 1 }
  have hs₀ : s₀.InStack area := ⟨by show -1 ≤ mark_stack_top - 1; omega,
    by show mark_stack_top - 1 < (area.size : Int); omega⟩
  by_cases hat : heap.addrOf x = area.mark_stack_limit
  · -- `mark()` is not called
    have heq : markPrecise area addrs mark_stack_top s = (mark_stack_top - 1, s) := by
      simp only [markPrecise, hentry, if_pos hat]
    rw [heq]
    constructor
    · rintro ⟨pushed, h⟩
      refine .inr ?_
      have hmarked : s.hb_marks.marks.marked = _ := h.marked
      rw [hmarked]
      exact Set.subset_union_right
    · rintro (hne | hin)
      · exact absurd hat hne
      · obtain ⟨h₁, h₂, h₃, h₄, h₅⟩ := Scanned.nothing _ hs₀ hin
        exact ⟨[], h₁, h₂, h₃, h₄, h₅⟩
  · have heq : markPrecise area addrs mark_stack_top s =
        ((addrs.foldl (ironclad_precise_mark area) s₀).ironclad_mark_stack_top,
          addrs.foldl (ironclad_precise_mark area) s₀) := by
      simp only [markPrecise, hentry, if_neg hat, ironclad_mark_address,
        if_pos (lt_addrOf wf hx)]
      rfl
    rw [heq]
    refine ⟨fun _ => .inl hat, fun _ => ?_⟩
    obtain ⟨pushed, h₁, h₂, h₃, h₄, h₅⟩ := precise_marks_scanned wf hs₀ addrs
    exact ⟨pushed, h₁, h₂, h₃, h₄, h₅⟩

/-! ## The marker on the stack in memory -/

/-- A mark stack entry of the marker, in memory. -/
def mseOf (heap : Heap) (e : Mse) : GC_ms_entry := ⟨heap.addrOf e.mse_start, e.mse_descr⟩

/-- The memory holds the marker's state, with `top` as the top of the mark stack. -/
structure Refines (area : Area) (s : State heap) (top : Int) (m : Marker) : Prop where
  low : -1 ≤ top
  high : top < area.size
  marks : ∀ x, heap.IsObj x → s.hb_marks.marks x = m.marks x
  state : s.GC_mark_state = m.GC_mark_state
  too_small : s.GC_mark_stack_too_small = m.GC_mark_stack_too_small
  size : m.GC_mark_stack_size = area.size
  limit : m.GC_mark_stack_limit = area.mark_stack_limit
  stack : s.entriesTo top = (m.GC_mark_stack.map (mseOf heap)).reverse

section

variable {m : Marker} {x : Obj}

theorem Refines.length (h : Refines area s top m) : top + 1 = m.GC_mark_stack.length := by
  have hlen := congrArg List.length h.stack
  have hlow := h.low
  simp only [State.entriesTo, List.length_map, List.length_range, List.length_reverse] at hlen
  omega

theorem PUSH_OBJ_refines (hdr : Hdr) (h : Refines area s s.ironclad_mark_stack_top m) :
    Refines area (PUSH_OBJ area (heap.addrOf x) hdr s)
      (PUSH_OBJ area (heap.addrOf x) hdr s).ironclad_mark_stack_top (Gc.PUSH_OBJ x hdr m) := by
  have hlen := h.length
  have hsize := h.size
  have hhigh := h.high
  have hs : s.InStack area := ⟨h.low, h.high⟩
  by_cases hdescr : hdr.hb_descr = 0
  · rw [PUSH_OBJ_nothing hdescr, Gc.PUSH_OBJ, if_neg (not_not.mpr hdescr)]
    exact h
  by_cases hroom : s.ironclad_mark_stack_top + 1 < area.size
  · obtain ⟨hstack, hstate, hsmall, hin⟩ := PUSH_OBJ_room (heap.addrOf x) hs hdescr hroom
    have heq : Gc.PUSH_OBJ x hdr m =
        { m with GC_mark_stack := ⟨x, hdr.hb_descr⟩ :: m.GC_mark_stack } := by
      rw [Gc.PUSH_OBJ, if_pos hdescr, if_pos (by omega)]
    rw [heq]
    refine ⟨hin.low, hin.high, ?_, hstate.trans h.state, hsmall.trans h.too_small, h.size,
      h.limit, ?_⟩
    · rw [PUSH_OBJ_hb_marks]
      exact h.marks
    · show State.stack _ = _
      rw [hstack, State.stack, h.stack, List.map_cons, List.reverse_cons]
      rfl
  · obtain ⟨hstack, hstate, hsmall, hlow', hhigh'⟩ :=
      PUSH_OBJ_overflow (heap.addrOf x) hs hdescr (by omega)
    have heq : Gc.PUSH_OBJ x hdr m =
        { Gc.GC_signal_mark_stack_overflow m with
          GC_mark_stack :=
            ⟨x, hdr.hb_descr⟩ :: (Gc.GC_signal_mark_stack_overflow m).GC_mark_stack } := by
      rw [Gc.PUSH_OBJ, if_pos hdescr, if_neg (by omega)]
    rw [heq]
    refine ⟨by omega, hhigh', ?_, hstate, hsmall, h.size, h.limit, ?_⟩
    · rw [PUSH_OBJ_hb_marks]
      exact h.marks
    · -- the same entries are given up
      have hdrop : area.size - GC_MARK_STACK_DISCARDS =
          (m.GC_mark_stack.map (mseOf heap)).length - GC_MARK_STACK_DISCARDS := by
        rw [List.length_map]
        omega
      show State.stack _ = _
      rw [hstack, State.stack, h.stack, List.map_cons, List.reverse_cons, hdrop,
        ← List.reverse_drop]
      show _ ++ [mseOf heap ⟨x, hdr.hb_descr⟩] = ((m.GC_mark_stack.drop _).map _).reverse ++ _
      rw [List.map_drop]

theorem GC_mark_and_push_refines (wf : heap.WF) (addr : Nat)
    (h : Refines area s s.ironclad_mark_stack_top m) :
    Refines area (GC_mark_and_push area addr s)
      (GC_mark_and_push area addr s).ironclad_mark_stack_top (PUSH_CONTENTS heap m addr) := by
  rcases GC_mark_and_push_cases area wf addr s with
    ⟨hsame, hmark⟩ | ⟨x, hdr, hbase, hhdr, hmark, hpush⟩
  · have heq : PUSH_CONTENTS heap m addr = m := by
      unfold PUSH_CONTENTS
      cases hbase : heap.base addr with
      | none => rfl
      | some x =>
          have hx := hmark x hbase
          rw [h.marks x (isObj_of_base hbase)] at hx
          simp only [hx, if_true]
    rw [hsame, heq]
    exact h
  · have hobj := isObj_of_base hbase
    have heq : PUSH_CONTENTS heap m addr = Gc.PUSH_OBJ x hdr { m with marks := m.marks.set x } := by
      rw [h.marks x hobj] at hmark
      simp only [PUSH_CONTENTS, hbase, hmark, hhdr, Bool.false_eq_true, if_false]
    rw [hpush, heq]
    refine PUSH_OBJ_refines hdr ⟨h.low, h.high, ?_, h.state, h.too_small, h.size, h.limit, h.stack⟩
    intro y hy
    show (s.hb_marks.set x.page (x.slot * hdr.hb_sz)).marks y = m.marks.set x y
    rw [HbMarks.marks_set wf hhdr, Marks.set, Marks.set, h.marks y hy]

theorem precise_marks_refine (wf : heap.WF) (addrs : List Nat)
    (h : Refines area s s.ironclad_mark_stack_top m) :
    Refines area (addrs.foldl (ironclad_precise_mark area) s)
      (addrs.foldl (ironclad_precise_mark area) s).ironclad_mark_stack_top
      (pushAll heap addrs m) := by
  induction addrs generalizing s m with
  | nil => exact h
  | cons addr addrs ih => exact ih (GC_mark_and_push_refines wf addr h)

/-- **An iteration of the marker for a precise entry** is what the case `GC_DS_PRECISE` does
in memory. -/
theorem markPrecise_refines (wf : heap.WF) {e : Mse} {rest : List Mse}
    (he : heap.IsObj e.mse_start) (htag : dsTag e.mse_descr = GC_DS_PRECISE)
    (hstack : m.GC_mark_stack = e :: rest) (h : Refines area s top m) :
    Refines area (markPrecise area (heap.scan e.mse_descr e.mse_start) top s).2
      (markPrecise area (heap.scan e.mse_descr e.mse_start) top s).1 (markEntry heap e rest m) := by
  have hlen := h.length
  rw [hstack, List.length_cons] at hlen
  have hhigh := h.high
  -- the entry at the top, and those below it
  have hentries : s.entriesTo (top - 1) ++ [s.GC_mark_stack top.toNat] =
      (rest.map (mseOf heap)).reverse ++ [mseOf heap e] := by
    have hall := h.stack
    have hnat : (top + 1).toNat = (top - 1 + 1).toNat + 1 := by omega
    have htop : (top - 1 + 1).toNat = top.toNat := by omega
    rw [hstack, List.map_cons, List.reverse_cons, State.entriesTo, hnat, List.range_succ,
      List.map_append, List.map_singleton, htop] at hall
    rw [State.entriesTo, htop]
    exact hall
  obtain ⟨hbelow, hentry⟩ := List.append_inj' hentries rfl
  have hentry : s.GC_mark_stack top.toNat = mseOf heap e := List.head_eq_of_cons_eq hentry
  set s₀ : State heap := { s with ironclad_mark_stack_top := top - 1 }
  have h₀ : Refines area s₀ (top - 1)
      { m with GC_mark_stack := rest, GC_objects_are_marked := true } :=
    ⟨by omega, by omega, h.marks, h.state, h.too_small, h.size, h.limit, hbelow⟩
  unfold markEntry scanEntry
  by_cases hat : heap.addrOf e.mse_start = area.mark_stack_limit
  · have heq : markPrecise area (heap.scan e.mse_descr e.mse_start) top s = (top - 1, s) := by
      simp only [markPrecise, hentry, mseOf, if_pos hat]
    rw [heq, if_pos ⟨htag, hat.trans h.limit.symm⟩]
    exact ⟨h₀.low, h₀.high, h₀.marks, h₀.state, h₀.too_small, h₀.size, h₀.limit, h₀.stack⟩
  · have heq : markPrecise area (heap.scan e.mse_descr e.mse_start) top s =
        (((heap.scan e.mse_descr e.mse_start).foldl
            (ironclad_precise_mark area) s₀).ironclad_mark_stack_top,
          (heap.scan e.mse_descr e.mse_start).foldl (ironclad_precise_mark area) s₀) := by
      simp only [markPrecise, hentry, mseOf, if_neg hat, ironclad_mark_address,
        if_pos (lt_addrOf wf he)]
      rfl
    rw [heq, if_neg fun hskip => hat (hskip.2.trans h.limit)]
    exact precise_marks_refine wf _ h₀

end

/-! ### An object behind the mark stack -/

/-- `GC_clear_hdr_marks`, for all blocks. -/
def HbMarks.clear (heap : Heap) : HbMarks heap where
  bit := fun h gran =>
    match heap.HDR h with
    | some hdr => gran == FINAL_MARK_BIT hdr
    | none => false
  final := by
    intro h hdr hhdr
    simp only [hhdr, beq_self_eq_true]

/-- A large precise object in the block behind the mark stack, and an object from
`GC_malloc`. -/
def behindRun : List Action :=
  [.malloc .GC_malloc_precise 129 (some 17), .malloc .GC_malloc 128 (some 18)]

def behindHeap : Heap := (((gc (17 * HBLKSIZE)).run behindRun).get (by decide +kernel)).heap

theorem behindHeap_wf : behindHeap.WF := (run_base (Option.some_get _).symm).wf

/-- The precise object has been pushed on an empty mark stack. -/
def behindState : State behindHeap where
  hb_marks := .clear behindHeap
  GC_mark_state := .MS_ROOTS_PUSHED
  GC_mark_stack_too_small := false
  GC_mark_stack := fun _ => ⟨17 * HBLKSIZE, GC_DS_PRECISE⟩
  ironclad_mark_stack_top := 0

theorem behindHeap_isObj : behindHeap.IsObj ⟨17, 0⟩ :=
  ⟨⟨PRECISE, 129, GC_DS_PRECISE⟩, by decide +kernel, by decide +kernel⟩

theorem behindState_entry :
    behindState.GC_mark_stack 0 = ⟨behindHeap.addrOf ⟨17, 0⟩, GC_DS_PRECISE⟩ := by decide +kernel

/-- With the mark stack elsewhere the object is scanned. -/
def apartArea : Area := ⟨100 * HBLKSIZE, INITIAL_MARK_STACK_SIZE, le_rfl⟩

theorem scanned_iff_apart :
    ∃ pushed, Scanned apartArea [18 * HBLKSIZE + 2048] (behindState.entriesTo (0 - 1)) behindState
      (markPrecise apartArea [18 * HBLKSIZE + 2048] 0 behindState).2
      (markPrecise apartArea [18 * HBLKSIZE + 2048] 0 behindState).1 pushed :=
  (scanned_iff behindHeap_wf behindHeap_isObj (by decide) (by decide) behindState_entry _).mpr
    (.inl (by decide +kernel))

/-- The mark stack ends where the object begins. -/
def behindArea : Area := ⟨HBLKSIZE, INITIAL_MARK_STACK_SIZE, le_rfl⟩

/-- The object's `mark()` is not called, and the object that it would pass on stays unmarked
although there is room for it. -/
theorem precise_object_passed_over :
    behindHeap.IsObj ⟨17, 0⟩ ∧
      behindState.GC_mark_stack 0 = ⟨behindHeap.addrOf ⟨17, 0⟩, GC_DS_PRECISE⟩ ∧
      behindHeap.base (18 * HBLKSIZE + 2048) = some ⟨18, 1⟩ ∧
      (markPrecise behindArea [18 * HBLKSIZE + 2048] 0 behindState).2.hb_marks.marks ⟨18, 1⟩ =
        false ∧
      ¬∃ pushed, Scanned behindArea [18 * HBLKSIZE + 2048] (behindState.entriesTo (0 - 1))
        behindState (markPrecise behindArea [18 * HBLKSIZE + 2048] 0 behindState).2
        (markPrecise behindArea [18 * HBLKSIZE + 2048] 0 behindState).1 pushed := by
  have hbase : behindHeap.base (18 * HBLKSIZE + 2048) = some ⟨18, 1⟩ := by decide +kernel
  have hmark : (markPrecise behindArea [18 * HBLKSIZE + 2048] 0 behindState).2.hb_marks.marks
      ⟨18, 1⟩ = false := by decide +kernel
  refine ⟨behindHeap_isObj, behindState_entry, hbase, hmark, ?_⟩
  rintro ⟨pushed, h⟩
  have hin : (⟨18, 1⟩ : Obj) ∈
      (markPrecise behindArea [18 * HBLKSIZE + 2048] 0 behindState).2.hb_marks.marks.marked := by
    rw [h.marked]
    exact .inr (mem_targets_singleton.mpr hbase)
  rw [Marks.mem_marked, hmark] at hin
  cases hin

end Ironclad.Gc.MarkStack
