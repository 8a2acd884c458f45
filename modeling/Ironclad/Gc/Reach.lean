import Ironclad.Logic.Tracing
import Ironclad.Gc.Mark

/-!
# References between objects

The edges of the heap graph as the collector follows them, what the roots reach along
them, and what a mark phase traces: it does not follow the edges of an object that was
marked before it began, unless the object is of the kind `UNCOLLECTABLE`.
-/

namespace Ironclad.Gc

open Logic

/-- The marked objects. -/
def Marks.marked (marks : Marks) : Set Obj := {x | marks x = true}

theorem Marks.mem_marked {marks : Marks} {x : Obj} : x ∈ marks.marked ↔ marks x = true := Iff.rfl

theorem Marks.marked_set (marks : Marks) (x : Obj) :
    (marks.set x).marked = insert x marks.marked := by
  ext y
  by_cases hyx : y = x
  · simp [Marks.mem_marked, Marks.set, hyx]
  · simp [Marks.mem_marked, Marks.set, hyx]

/-- The sizes for which `GC_push_marked` has an accelerator. -/
def Hdr.Accelerated (hdr : Hdr) : Prop := hdr.hb_sz = 1 ∨ hdr.hb_sz = 2 ∨ hdr.hb_sz = 4

namespace Heap

variable (heap : Heap)

/-- The objects that the addresses point into. -/
def targets (addrs : List Nat) : Set Obj := {x | ∃ addr ∈ addrs, heap.base addr = some x}

/-- `x` is an object that the collector looks for references in. -/
def Scannable (x : Obj) (hdr : Hdr) : Prop :=
  heap.HDR x.page = some hdr ∧ x.slot < hdr.objs ∧ hdr.hb_descr ≠ 0

/-- `x` refers to `y`. The out-edges of a precise object are the addresses that its
`mark()` passes on, those of other objects are its words. -/
def edge (x y : Obj) : Prop :=
  ∃ hdr, heap.Scannable x hdr ∧ y ∈ heap.targets (heap.scan hdr.hb_descr x)

/-- A precise object that `GC_mark_from` passes over when the mark stack ends at `limit`. -/
def AtLimit (limit : Nat) (x : Obj) : Prop :=
  ∃ hdr, heap.HDR x.page = some hdr ∧ dsTag hdr.hb_descr = GC_DS_PRECISE ∧ heap.addrOf x = limit

/-- The edges that `GC_mark_from` sees, whichever of the limits the mark stack has. -/
def seenEdge (limits : List Nat) (x y : Obj) : Prop :=
  heap.edge x y ∧ ∀ limit ∈ limits, ¬heap.AtLimit limit x

/-- The edges that the accelerators see too: they read words, whatever the kind. -/
def robustEdge (limits : List Nat) (x y : Obj) : Prop :=
  heap.seenEdge limits x y ∧
    ∀ hdr, heap.HDR x.page = some hdr → hdr.Accelerated → y ∈ heap.targets (heap.contents x).words

/-- The edges that a mark phase may follow, with and without an accelerator. -/
def anyEdge (x y : Obj) : Prop :=
  heap.edge x y ∨
    ∃ hdr, heap.Scannable x hdr ∧ hdr.Accelerated ∧ y ∈ heap.targets (heap.contents x).words

/-- What the roots reach. -/
def reachable : Set Obj := Logic.closure heap.edge (heap.targets heap.roots)

/-- The object lies in a block of the kind `UNCOLLECTABLE`. -/
def Uncollectable (x : Obj) : Prop :=
  ∃ hdr, heap.HDR x.page = some hdr ∧ hdr.hb_obj_kind = UNCOLLECTABLE

/-- The objects whose edges a mark phase follows when the marks `marks₀` are set at its
start. -/
def followed (marks₀ : Set Obj) : Set Obj := {x | x ∉ marks₀ ∨ heap.Uncollectable x}

/-- What is traced along `R` when the marks `marks₀` are set at the start. -/
def traced (R : Obj → Obj → Prop) (marks₀ : Set Obj) : Set Obj :=
  Logic.closure (fun x y => x ∈ heap.followed marks₀ ∧ R x y)
    (heap.targets heap.roots ∪ {x | x ∈ marks₀ ∧ heap.Uncollectable x})

/-- The blocks in use are those with a header, they do not overlap, and none of them
begins at the address 0. -/
structure WF : Prop where
  mem_hblks : ∀ h, h ∈ heap.hblks ↔ ∃ hdr, heap.HDR h = some hdr
  page_pos : ∀ h hdr, heap.HDR h = some hdr → 0 < h
  hb_sz_pos : ∀ h hdr, heap.HDR h = some hdr → 0 < hdr.hb_sz
  apart : ∀ h hdr h', heap.HDR h = some hdr → h' ∈ heap.hblks → h < h' →
    h + OBJ_SZ_TO_BLOCKS hdr.hb_sz ≤ h'
  uncollectable_descr : ∀ h hdr, heap.HDR h = some hdr → hdr.hb_obj_kind = UNCOLLECTABLE →
    dsTag hdr.hb_descr ≠ GC_DS_PRECISE

variable {heap}

theorem blockOf_some {page h : Nat} (hblock : heap.blockOf page = some h) :
    ∃ hdr, heap.HDR h = some hdr ∧ h ≤ page ∧ page < h + OBJ_SZ_TO_BLOCKS hdr.hb_sz := by
  have hfound := List.find?_some hblock
  cases hhdr : heap.HDR h with
  | none =>
      rw [hhdr] at hfound
      cases hfound
  | some hdr =>
      rw [hhdr, Bool.and_eq_true, decide_eq_true_eq, decide_eq_true_eq] at hfound
      exact ⟨hdr, rfl, hfound⟩

/-- A page belongs to one block only. -/
theorem WF.blockOf_eq (wf : heap.WF) {page h : Nat} {hdr : Hdr} (hhdr : heap.HDR h = some hdr)
    (hle : h ≤ page) (hlt : page < h + OBJ_SZ_TO_BLOCKS hdr.hb_sz) :
    heap.blockOf page = some h := by
  have hmem := (wf.mem_hblks h).mpr ⟨hdr, hhdr⟩
  cases hblock : heap.blockOf page with
  | none =>
      have hno := List.find?_eq_none.mp hblock h hmem
      exact absurd (by simp [hhdr, hle, hlt]) hno
  | some b =>
      obtain ⟨hdr', hhdr', hle', hlt'⟩ := blockOf_some hblock
      have hmem' := (wf.mem_hblks b).mpr ⟨hdr', hhdr'⟩
      rcases Nat.lt_trichotomy b h with hbh | rfl | hbh
      · have := wf.apart b hdr' h hhdr' hmem hbh
        omega
      · rfl
      · have := wf.apart h hdr b hhdr hmem' hbh
        omega

theorem mem_targets_cons {addr : Nat} {addrs : List Nat} {x : Obj} :
    x ∈ heap.targets (addr :: addrs) ↔ heap.base addr = some x ∨ x ∈ heap.targets addrs := by
  constructor
  · rintro ⟨a, ha, hx⟩
    rcases List.mem_cons.mp ha with rfl | ha
    · exact .inl hx
    · exact .inr ⟨a, ha, hx⟩
  · rintro (hx | ⟨a, ha, hx⟩)
    · exact ⟨addr, List.mem_cons_self, hx⟩
    · exact ⟨a, List.mem_cons_of_mem _ ha, hx⟩

theorem edge_of_seenEdge {limits : List Nat} {x y : Obj} (h : heap.seenEdge limits x y) :
    heap.edge x y := h.1

theorem edge_of_robustEdge {limits : List Nat} {x y : Obj} (h : heap.robustEdge limits x y) :
    heap.edge x y := h.1.1

/-- An object without a descriptor has no edges. -/
theorem not_edge {x y : Obj} {hdr : Hdr} (hhdr : heap.HDR x.page = some hdr)
    (hdescr : hdr.hb_descr = 0) : ¬heap.edge x y := by
  rintro ⟨hdr', ⟨hhdr', -, hne⟩, -⟩
  rw [hhdr] at hhdr'
  cases hhdr'
  exact hne hdescr

theorem scan_of_edge {x y : Obj} {hdr : Hdr} (hhdr : heap.HDR x.page = some hdr)
    (h : heap.edge x y) : y ∈ heap.targets (heap.scan hdr.hb_descr x) := by
  obtain ⟨hdr', ⟨hhdr', -⟩, hy⟩ := h
  rw [hhdr] at hhdr'
  cases hhdr'
  exact hy

end Heap

end Ironclad.Gc
