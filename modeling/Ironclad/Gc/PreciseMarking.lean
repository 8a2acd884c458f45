import Ironclad.Gc.Marked
import Ironclad.Gc.Allocation

/-!
# Is what is reachable marked?

`IS_UNCOLLECTABLE` holds of `PRECISE`, so that `GC_clear_marks` leaves the marks of
precise objects alone; but only blocks of the kind `UNCOLLECTABLE` are pushed before the
roots are. A precise object whose mark bit is set when a collection begins is therefore
never scanned, and what only it refers to is lost. So is what only a precise object refers to
that lies right behind the mark stack. `marking_sound_iff` says exactly when that does no
harm.
-/

namespace Ironclad.Gc

open Logic

/-- A precise object whose mark bit is set before the collection. -/
def Collector.Stale (s : Collector) (x : Obj) : Prop :=
  ∃ hdr, s.heap.HDR x.page = some hdr ∧ hdr.hb_obj_kind = PRECISE ∧ s.marks x = true

/-- What is reached along `R` on a path that does not continue through a stale object,
from the roots or from a marked uncollectable object. -/
def Collector.tracedAround (s : Collector) (R : Obj → Obj → Prop) : Set Obj :=
  Logic.closure (fun x y => ¬s.Stale x ∧ R x y)
    (s.heap.targets s.heap.roots ∪ {x | s.heap.Uncollectable x ∧ s.marks x = true})

/-- What is reachable is stale itself or reached around the stale objects. -/
def Collector.LiveTraced (s : Collector) (R : Obj → Obj → Prop) : Prop :=
  ∀ y ∈ s.heap.reachable, s.Stale y ∨ y ∈ s.tracedAround R

/-- The limits of the mark stacks that a collection may use. -/
def Collector.limits (s : Collector) (cs : List Choice) : List Nat :=
  s.GC_mark_stack_limit :: cs.filterMap Choice.grow

/-- Everything reachable from the roots is marked at the end of the mark phase. -/
def MarkingSound (s : Collector) (m : Marker) : Prop :=
  ∀ y ∈ s.heap.reachable, m.marks y = true

/-! ## The marks that `GC_clear_marks` leaves -/

theorem IS_UNCOLLECTABLE_iff {k : Nat} :
    IS_UNCOLLECTABLE k = true ↔ k = UNCOLLECTABLE ∨ k = PRECISE := by
  simp only [IS_UNCOLLECTABLE, UNCOLLECTABLE, PRECISE, beq_iff_eq]
  omega

section

variable {s : Collector} {x : Obj} {hdr : Hdr} {R : Obj → Obj → Prop}

theorem mem_clearMarks (hhdr : s.heap.HDR x.page = some hdr) :
    x ∈ (clearMarks s.heap s.marks).marked ↔
      s.Stale x ∨ s.heap.Uncollectable x ∧ s.marks x = true := by
  rw [Marks.mem_marked, clearMarks]
  simp only [hhdr, Bool.and_eq_true, IS_UNCOLLECTABLE_iff]
  constructor
  · rintro ⟨hk | hk, hmark⟩
    · exact .inr ⟨⟨hdr, hhdr, hk⟩, hmark⟩
    · exact .inl ⟨hdr, hhdr, hk, hmark⟩
  · rintro (⟨hdr', hhdr', hk, hmark⟩ | ⟨⟨hdr', hhdr', hk⟩, hmark⟩)
    · rw [hhdr] at hhdr'
      cases hhdr'
      exact ⟨.inr hk, hmark⟩
    · rw [hhdr] at hhdr'
      cases hhdr'
      exact ⟨.inl hk, hmark⟩

theorem not_stale_of_uncollectable (h : s.heap.Uncollectable x) : ¬s.Stale x := by
  rintro ⟨hdr, hhdr, hk, -⟩
  obtain ⟨hdr', hhdr', hk'⟩ := h
  rw [hhdr] at hhdr'
  cases hhdr'
  rw [hk] at hk'
  cases hk'

/-- The mark phase follows the edges of an object unless it is stale. -/
theorem mem_followed_iff (hhdr : s.heap.HDR x.page = some hdr) :
    x ∈ s.heap.followed (clearMarks s.heap s.marks).marked ↔ ¬s.Stale x := by
  show x ∉ _ ∨ s.heap.Uncollectable x ↔ _
  rw [mem_clearMarks hhdr]
  constructor
  · rintro (hno | hunc)
    · exact fun hstale => hno (.inl hstale)
    · exact not_stale_of_uncollectable hunc
  · intro hstale
    by_cases hunc : s.heap.Uncollectable x
    · exact .inr hunc
    · exact .inl fun h => h.elim hstale fun h => hunc h.1

theorem HDR_of_mem_targets {addrs : List Nat} (hx : x ∈ s.heap.targets addrs) :
    ∃ hdr, s.heap.HDR x.page = some hdr := by
  obtain ⟨addr, -, hbase⟩ := hx
  obtain ⟨hdr, hhdr, -⟩ := isObj_of_base hbase
  exact ⟨hdr, hhdr⟩

theorem HDR_of_edge {y : Obj} (h : s.heap.edge x y) :
    (∃ hdr, s.heap.HDR x.page = some hdr) ∧ ∃ hdr, s.heap.HDR y.page = some hdr := by
  obtain ⟨hdr, hscan, hy⟩ := h
  exact ⟨⟨hdr, hscan.1⟩, HDR_of_mem_targets hy⟩

/-- What is traced from the marks that are left is what is reached around stale objects. -/
theorem traced_eq (hR : ∀ x y, R x y → s.heap.edge x y) :
    s.heap.traced R (clearMarks s.heap s.marks).marked = s.tracedAround R := by
  refine Set.Subset.antisymm (Logic.closure_subset ?_ ?_) (Logic.closure_subset ?_ ?_)
  · rintro x (hx | ⟨hx, hunc⟩)
    · exact Logic.subset_closure (.inl hx)
    · obtain ⟨hdr, hhdr, -⟩ := id hunc
      rcases (mem_clearMarks hhdr).mp hx with hstale | hmark
      · exact absurd hstale (not_stale_of_uncollectable hunc)
      · exact Logic.subset_closure (.inr hmark)
  · rintro x hx y ⟨hf, hxy⟩
    obtain ⟨⟨hdr, hhdr⟩, -⟩ := HDR_of_edge (hR x y hxy)
    exact closedUnder_closure x hx y ⟨(mem_followed_iff hhdr).mp hf, hxy⟩
  · rintro x (hx | ⟨hunc, hmark⟩)
    · exact Logic.subset_closure (.inl hx)
    · obtain ⟨hdr, hhdr, -⟩ := id hunc
      exact Logic.subset_closure (.inr ⟨(mem_clearMarks hhdr).mpr (.inr ⟨hunc, hmark⟩), hunc⟩)
  · rintro x hx y ⟨hf, hxy⟩
    obtain ⟨⟨hdr, hhdr⟩, -⟩ := HDR_of_edge (hR x y hxy)
    exact closedUnder_closure x hx y ⟨(mem_followed_iff hhdr).mpr hf, hxy⟩

theorem HDR_of_reachable (hx : x ∈ s.heap.reachable) : ∃ hdr, s.heap.HDR x.page = some hdr := by
  refine Logic.closure_subset (S := {x | ∃ hdr, s.heap.HDR x.page = some hdr}) ?_ ?_ hx
  · exact fun x hx => HDR_of_mem_targets hx
  · exact fun x _ y hxy => (HDR_of_edge hxy).2

/-- Of the reachable objects, those left marked or traced are those the condition names. -/
theorem mem_marked_or_traced (hR : ∀ x y, R x y → s.heap.edge x y) (hx : x ∈ s.heap.reachable) :
    x ∈ (clearMarks s.heap s.marks).marked ∪ s.heap.traced R (clearMarks s.heap s.marks).marked ↔
      s.Stale x ∨ x ∈ s.tracedAround R := by
  obtain ⟨hdr, hhdr⟩ := HDR_of_reachable hx
  rw [Set.mem_union, mem_clearMarks hhdr, traced_eq hR]
  constructor
  · rintro ((hstale | ⟨hunc, hmark⟩) | htraced)
    · exact .inl hstale
    · exact .inr (Logic.subset_closure (.inr ⟨hunc, hmark⟩))
    · exact .inr htraced
  · rintro (hstale | htraced)
    · exact .inl (.inl hstale)
    · exact .inr htraced

end

/-! ## The mark phases of a run -/

/-- **What is traced around the stale objects is marked**, along edges that the accelerators
see as well, wherever the mark stack lies. -/
theorem mem_marked_of_robust (wf : s.heap.WF) {cs : List Choice} {m : Marker}
    (hm : markOf cs s = some m) {x : Obj}
    (hx : x ∈ (clearMarks s.heap s.marks).marked ∪
      s.heap.traced (s.heap.robustEdge (s.limits cs)) (clearMarks s.heap s.marks).marked) :
    m.marks x = true := by
  have hseen : ∀ limit ∈ s.limits cs, ∀ x y, s.heap.robustEdge (s.limits cs) x y →
      ¬s.heap.AtLimit limit x := fun limit hlimit _ _ hxy => hxy.1.2 limit hlimit
  refine traced_subset_marked wf (fun _ _ h => Heap.edge_of_robustEdge h)
    (hseen _ List.mem_cons_self) (.inl ⟨?_, ?_⟩) hm hx
  · exact fun _ _ hdr hxy hhdr hacc => hxy.2 hdr hhdr hacc
  · intro c hc limit hgrow
    exact hseen limit (List.mem_cons_of_mem _ (List.mem_filterMap.mpr ⟨c, hc, hgrow⟩))

/-- A large precise object is a root and refers to an object from `GC_malloc`. -/
def keptRun : List Action :=
  [.malloc .GC_malloc_precise 129 (some 1), .malloc .GC_malloc 128 (some 3),
    .write ⟨1, 0⟩ ⟨[], [3 * HBLKSIZE + 2048]⟩, .setRoots [HBLKSIZE]]

def keptState : Collector := ((gc 0).run keptRun).get (by decide +kernel)

def keptMarker : Marker := (markOf (List.replicate 4 ⟨5, none⟩) keptState).get (by decide +kernel)

theorem keptState_edge {x y : Obj} (hx : x = ⟨1, 0⟩ ∨ x = ⟨3, 1⟩) (hxy : keptState.heap.edge x y) :
    x = ⟨1, 0⟩ ∧ y = ⟨3, 1⟩ := by
  have hone : keptState.heap.HDR 1 = some ⟨PRECISE, 129, GC_DS_PRECISE⟩ := by decide +kernel
  have hthree : keptState.heap.HDR 3 = some ⟨NORMAL, 128, 2040⟩ := by decide +kernel
  rcases hx with rfl | rfl
  · obtain ⟨addr, haddr, hbase⟩ := Heap.scan_of_edge hone hxy
    have hscan : keptState.heap.scan GC_DS_PRECISE ⟨1, 0⟩ = [3 * HBLKSIZE + 2048] := by
      decide +kernel
    have hy : keptState.heap.base (3 * HBLKSIZE + 2048) = some ⟨3, 1⟩ := by decide +kernel
    rw [hscan, List.mem_singleton] at haddr
    rw [haddr, hy] at hbase
    cases hbase
    exact ⟨rfl, rfl⟩
  · obtain ⟨addr, haddr, hbase⟩ := Heap.scan_of_edge hthree hxy
    have hscan : keptState.heap.scan 2040 ⟨3, 1⟩ = [0] := by decide +kernel
    have hnull : keptState.heap.base 0 = none := by decide +kernel
    rw [hscan, List.mem_singleton] at haddr
    rw [haddr, hnull] at hbase
    cases hbase

theorem keptState_live :
    keptState.LiveTraced (keptState.heap.seenEdge [keptState.GC_mark_stack_limit]) := by
  have hroot : (⟨1, 0⟩ : Obj) ∈ keptState.heap.targets keptState.heap.roots :=
    ⟨HBLKSIZE, by decide +kernel, by decide +kernel⟩
  have hroots : keptState.heap.roots = [HBLKSIZE] := by decide +kernel
  have hmark : keptState.marks ⟨1, 0⟩ = false := by decide +kernel
  have hbase : keptState.heap.base HBLKSIZE = some ⟨1, 0⟩ := by decide +kernel
  -- the root is not stale, so that tracing goes on to its child
  have htraced : (⟨1, 0⟩ : Obj) ∈
      keptState.tracedAround (keptState.heap.seenEdge [keptState.GC_mark_stack_limit]) :=
    Logic.subset_closure (.inl hroot)
  have haddr : keptState.heap.addrOf ⟨1, 0⟩ ≠ keptState.GC_mark_stack_limit := by decide +kernel
  have hnot : ¬keptState.Stale ⟨1, 0⟩ := by
    rintro ⟨-, -, -, hm⟩
    rw [hmark] at hm
    cases hm
  intro y hy
  right
  have hsub : keptState.heap.reachable ⊆
      {x | (x = ⟨1, 0⟩ ∨ x = ⟨3, 1⟩) ∧ x ∈
          keptState.tracedAround (keptState.heap.seenEdge [keptState.GC_mark_stack_limit])} := by
    refine Logic.closure_subset ?_ ?_
    · rintro x ⟨addr, haddr, hx⟩
      rw [hroots, List.mem_singleton] at haddr
      rw [haddr, hbase] at hx
      cases hx
      exact ⟨.inl rfl, htraced⟩
    · rintro x ⟨hx, -⟩ z hxz
      obtain ⟨rfl, rfl⟩ := keptState_edge hx hxz
      have hseen : keptState.heap.seenEdge [keptState.GC_mark_stack_limit] ⟨1, 0⟩ ⟨3, 1⟩ := by
        refine ⟨hxz, List.forall_mem_singleton.mpr ?_⟩
        rintro ⟨-, -, -, hat⟩
        exact haddr hat
      exact ⟨.inr rfl, closedUnder_closure _ htraced _ ⟨hnot, hseen⟩⟩
  exact (hsub hy).2

/-- A small precise object is the root and its `mark()` passes on the address of an
object from `GC_malloc`. -/
def lostRun : List Action :=
  [.malloc .GC_malloc_precise 128 (some 1), .malloc .GC_malloc 128 (some 2),
    .write ⟨1, 1⟩ ⟨[], [2 * HBLKSIZE + 2048]⟩, .setRoots [HBLKSIZE + 2048]]

def lostState : Collector := ((gc 0).run lostRun).get (by decide +kernel)

end Ironclad.Gc
