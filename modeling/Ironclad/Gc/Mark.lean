import Ironclad.Gc.Heap

/-!
# The mark phase

`GC_mark_some` and what it calls, for one marker in a stopped world. The state
`MS_PUSH_RESCUERS` belongs to incremental collections and does not occur: a full
collection begins with `GC_clear_marks`, which leaves `MS_INVALID`.

How many entries a call of `GC_mark_from` takes off the mark stack before it returns,
and where a larger mark stack is allocated if it can be, are choices of the environment.
The scan of an object's words and of the roots is taken as a sequence of addresses.
-/

namespace Ironclad.Gc

inductive MarkState where
  | MS_NONE
  | MS_PUSH_UNCOLLECTABLE
  | MS_ROOTS_PUSHED
  | MS_PARTIALLY_INVALID
  | MS_INVALID
  deriving DecidableEq, Repr

/-- A mark stack entry. -/
structure Mse where
  mse_start : Obj
  mse_descr : Nat
  deriving DecidableEq, Repr

/-- The variables of the marker, with the top of the mark stack first. -/
structure Marker where
  marks : Marks
  GC_mark_state : MarkState
  GC_mark_stack : List Mse
  GC_mark_stack_size : Nat
  /-- The address behind the last entry that the mark stack has room for. -/
  GC_mark_stack_limit : Nat
  GC_mark_stack_too_small : Bool
  GC_objects_are_marked : Bool
  scan_ptr : Nat

def INITIAL_MARK_STACK_SIZE : Nat := HBLKSIZE

def GC_MARK_STACK_DISCARDS : Nat := INITIAL_MARK_STACK_SIZE / 8

/-- Setting the mark bit of `x`. -/
def Marks.set (marks : Marks) (x : Obj) : Marks := fun y => if y = x then true else marks y

/-- `GC_signal_mark_stack_overflow`, on the stack below the entry that did not fit. -/
def GC_signal_mark_stack_overflow (m : Marker) : Marker :=
  { m with
    GC_mark_state := .MS_INVALID
    GC_mark_stack_too_small := true
    GC_mark_stack := m.GC_mark_stack.drop GC_MARK_STACK_DISCARDS }

/-- `PUSH_OBJ`. -/
def PUSH_OBJ (x : Obj) (hdr : Hdr) (m : Marker) : Marker :=
  if hdr.hb_descr ≠ 0 then
    let m := if m.GC_mark_stack.length < m.GC_mark_stack_size then m
      else GC_signal_mark_stack_overflow m
    { m with GC_mark_stack := ⟨x, hdr.hb_descr⟩ :: m.GC_mark_stack }
  else m

/-- The loop of `GC_push_marked` for the sizes that have no accelerator. -/
def pushMarkedSlots (h : Nat) (hdr : Hdr) (m : Marker) : Marker :=
  (List.range hdr.objs).foldl (fun m i => if m.marks ⟨h, i⟩ then PUSH_OBJ ⟨h, i⟩ hdr m else m) m

section

variable (heap : Heap)

/-- `PUSH_CONTENTS`, and `GC_mark_and_push`. -/
def PUSH_CONTENTS (m : Marker) (current : Nat) : Marker :=
  match heap.base current with
  | none => m
  | some x =>
      if m.marks x then m
      else match heap.HDR x.page with
        | none => m
        | some hdr => PUSH_OBJ x hdr { m with marks := m.marks.set x }

def pushAll (addrs : List Nat) (m : Marker) : Marker := addrs.foldl (PUSH_CONTENTS heap) m

/-- What `GC_mark_from` pushes for an entry. It passes over a precise object whose address
is that of the limit of the mark stack. -/
def scanEntry (limit : Nat) (e : Mse) : List Nat :=
  if dsTag e.mse_descr = GC_DS_PRECISE ∧ heap.addrOf e.mse_start = limit then []
  else heap.scan e.mse_descr e.mse_start

/-- The loop of `GC_mark_from`, for at most `n` entries. -/
def GC_mark_from : Nat → Marker → Marker
  | 0, m => m
  | n + 1, m =>
      match m.GC_mark_stack with
      | [] => m
      | e :: rest =>
          GC_mark_from n
            (pushAll heap (scanEntry heap m.GC_mark_stack_limit e)
              { m with GC_mark_stack := rest, GC_objects_are_marked := true })

/-- The objects of the `c`-th word of mark bits of a block with objects of size `sz`. -/
def markWord (h sz c : Nat) : List Obj :=
  (List.range (64 / sz)).map fun i => ⟨h, c * (64 / sz) + i⟩

/-- `GC_push_marked1`, `GC_push_marked2` and `GC_push_marked4`, for the size `sz`: a
word of mark bits is read, and the words of the objects marked in it are pushed. -/
def pushMarkedGranules (sz h : Nat) (m : Marker) : Marker :=
  (List.range 4).foldl (fun m c =>
    ((markWord h sz c).filter m.marks).foldl
      (fun m x => pushAll heap (heap.contents x).words m) m) m

def GC_push_marked1 (h : Nat) (m : Marker) : Marker := pushMarkedGranules heap 1 h m
def GC_push_marked2 (h : Nat) (m : Marker) : Marker := pushMarkedGranules heap 2 h m
def GC_push_marked4 (h : Nat) (m : Marker) : Marker := pushMarkedGranules heap 4 h m

/-- `GC_push_marked`. -/
def GC_push_marked (h : Nat) (hdr : Hdr) (m : Marker) : Marker :=
  if hdr.hb_descr = 0 then m
  else if nMarks m.marks h hdr = 0 then m
  else
    let m := { m with GC_objects_are_marked := true }
    match hdr.hb_sz with
    | 1 => GC_push_marked1 heap h m
    | 2 => GC_push_marked2 heap h m
    | 4 => GC_push_marked4 heap h m
    | _ => pushMarkedSlots h hdr m

/-- The first block from the page `h` on whose header satisfies `p`. -/
def nextBlock (p : Hdr → Bool) (h : Nat) : Option Nat :=
  (heap.hblks.filter fun b => h ≤ b && (heap.HDR b).any p).min?

/-- `GC_push_marked` for a block found from `scan_ptr` on, which moves behind it; 0
when there is none. -/
def pushBlock (found : Option Nat) (m : Marker) : Marker :=
  match found with
  | none => { m with scan_ptr := 0 }
  | some h =>
      match heap.HDR h with
      | none => { m with scan_ptr := 0 }
      | some hdr =>
          { GC_push_marked heap h hdr m with scan_ptr := h + OBJ_SZ_TO_BLOCKS hdr.hb_sz }

/-- `GC_push_next_marked`. -/
def GC_push_next_marked (m : Marker) : Marker :=
  pushBlock heap (nextBlock heap (fun _ => true) m.scan_ptr) m

/-- `GC_push_next_marked_uncollectable`. -/
def GC_push_next_marked_uncollectable (m : Marker) : Marker :=
  pushBlock heap (nextBlock heap (fun hdr => hdr.hb_obj_kind == UNCOLLECTABLE) m.scan_ptr) m

/-- `GC_push_roots`, and what `GC_mark_some` does after it. -/
def pushRoots (m : Marker) : Marker :=
  let m := { pushAll heap heap.roots m with GC_objects_are_marked := true }
  if m.GC_mark_state ≠ .MS_INVALID then { m with GC_mark_state := .MS_ROOTS_PUSHED } else m

end

/-- What the environment chooses in one call of `GC_mark_some`: the entries that
`GC_mark_from` processes after the first one, and the limit of a larger mark stack if
there is memory for it. -/
structure Choice where
  credit : Nat
  grow : Option Nat
  deriving DecidableEq, Repr

/-- `alloc_mark_stack(2*GC_mark_stack_size)`, when the stack was found too small. -/
def growMarkStack (c : Choice) (m : Marker) : Marker :=
  if m.GC_mark_stack_too_small then
    { m with
      GC_mark_stack_too_small := false
      GC_mark_stack_size :=
        if c.grow.isSome then 2 * m.GC_mark_stack_size else m.GC_mark_stack_size
      GC_mark_stack_limit := c.grow.getD m.GC_mark_stack_limit
      GC_mark_stack := [] }
  else m

/-- `GC_mark_some`, with the value it returns. -/
def GC_mark_some (heap : Heap) (c : Choice) (m : Marker) : Marker × Bool :=
  match m.GC_mark_state with
  | .MS_NONE => (m, false)
  | .MS_PUSH_UNCOLLECTABLE =>
      if m.GC_mark_stack_size / 4 < m.GC_mark_stack.length then
        (GC_mark_from heap (c.credit + 1) m, false)
      else
        let m := GC_push_next_marked_uncollectable heap m
        (if m.scan_ptr = 0 then pushRoots heap m else m, false)
  | .MS_ROOTS_PUSHED =>
      if m.GC_mark_stack ≠ [] then (GC_mark_from heap (c.credit + 1) m, false)
      else (growMarkStack c { m with GC_mark_state := .MS_NONE }, true)
  | _ =>
      if ¬m.GC_objects_are_marked then
        ({ m with GC_mark_state := .MS_PUSH_UNCOLLECTABLE }, false)
      else if m.GC_mark_stack ≠ [] then (GC_mark_from heap (c.credit + 1) m, false)
      else
        let m :=
          if m.scan_ptr = 0 ∧ m.GC_mark_state = .MS_INVALID then
            { growMarkStack c m with GC_mark_state := .MS_PARTIALLY_INVALID }
          else m
        let m := GC_push_next_marked heap m
        (if m.scan_ptr = 0 ∧ m.GC_mark_state = .MS_PARTIALLY_INVALID then pushRoots heap m else m,
          false)

/-- The calls of `GC_mark_some` up to the one that returns `TRUE`. -/
def markPhase (heap : Heap) : List Choice → Marker → Option Marker
  | [], _ => none
  | c :: cs, m =>
      match GC_mark_some heap c m with
      | (m, true) => if cs = [] then some m else none
      | (m, false) => markPhase heap cs m

/-- No call of `GC_mark_some` finds the mark stack too small. -/
def noOverflow (heap : Heap) : List Choice → Marker → Bool
  | [], _ => true
  | c :: cs, m =>
      match GC_mark_some heap c m with
      | (_, true) => true
      | (m, false) => m.GC_mark_state ≠ .MS_INVALID && noOverflow heap cs m

/-- `GC_clear_marks`, on the mark bits. -/
def clearMarks (heap : Heap) (marks : Marks) : Marks := fun x =>
  match heap.HDR x.page with
  | some hdr => IS_UNCOLLECTABLE hdr.hb_obj_kind && marks x
  | none => marks x

/-- The marker when `GC_stopped_mark` starts: after `GC_invalidate_mark_state`,
`GC_clear_marks` and `GC_initiate_gc`. -/
def startMark (heap : Heap) (marks : Marks) (size limit : Nat) : Marker where
  marks := clearMarks heap marks
  GC_mark_state := .MS_INVALID
  GC_mark_stack := []
  GC_mark_stack_size := size
  GC_mark_stack_limit := limit
  GC_mark_stack_too_small := false
  GC_objects_are_marked := false
  scan_ptr := 0

end Ironclad.Gc
