import Ironclad.Gc.Pushes

/-!
# Pushing the marked objects of blocks

`GC_push_marked` and the walks over the blocks that call it. Afterwards the marked
objects of the block wait or are expanded, along edges that an accelerator sees as well.
-/

namespace Ironclad.Gc

open Logic

variable {heap : Heap} {T P B : Set Obj} {m m₁ : Marker}

/-- Pushes that only mark objects of `B` stay within `B`. -/
theorem Pushed.within (h : Pushed heap B P m m₁) (hm : m.marks.marked ⊆ B) :
    m₁.marks.marked ⊆ B := by
  intro x hx
  rcases h.new_mem x hx with hx | hx
  · exact hm hx
  · exact hx

/-- `B` contains what the objects of the block `h` refer to, however they are read. -/
def Heap.ClosedAt (heap : Heap) (B : Set Obj) (h : Nat) : Prop :=
  ∀ x ∈ B, x.page = h → ∀ y, heap.anyEdge x y → y ∈ B

section

variable {h : Nat} {hdr : Hdr}

/-! ## The accelerators -/

/-- The slots of the words of mark bits are the object slots of the block. -/
theorem mem_markWord {sz : Nat} (hsz : sz = 1 ∨ sz = 2 ∨ sz = 4) (hhdr : hdr.hb_sz = sz) (i : Nat) :
    (∃ c ∈ List.range 4, (⟨h, i⟩ : Obj) ∈ markWord h sz c) ↔ i < hdr.objs := by
  have hobjs : hdr.objs = 4 * (64 / sz) := by
    rcases hsz with rfl | rfl | rfl <;>
      simp [Hdr.objs, Hdr.isLarge, hhdr, HBLK_OBJS, HBLKSIZE, GRANULE_BYTES, MAXOBJGRANULES]
  have hpos : 0 < 64 / sz := by
    rcases hsz with rfl | rfl | rfl <;> omega
  rw [hobjs]
  simp only [markWord, List.mem_map, List.mem_range, Obj.mk.injEq, true_and]
  generalize 64 / sz = k at hpos
  constructor
  · rintro ⟨c, hc, j, hj, rfl⟩
    have : c * k ≤ 3 * k := Nat.mul_le_mul_right k (by omega)
    omega
  · intro hi
    refine ⟨i / k, ?_, i % k, Nat.mod_lt i hpos, ?_⟩
    · exact Nat.div_lt_of_lt_mul (by rw [Nat.mul_comm]; exact hi)
    · rw [Nat.mul_comm]
      exact Nat.div_add_mod i k

theorem page_of_mem_markWord {sz c : Nat} {x : Obj} (hx : x ∈ markWord h sz c) : x.page = h := by
  obtain ⟨i, -, rfl⟩ := List.mem_map.mp hx
  rfl

/-- Scanning the objects of one word of mark bits. -/
theorem pushWord_pushed (hhdr : heap.HDR h = some hdr) (hdescr : hdr.hb_descr ≠ 0) {sz : Nat}
    (hsz : sz = 1 ∨ sz = 2 ∨ sz = 4) (hhsz : hdr.hb_sz = sz) (hB : heap.ClosedAt B h) {c : Nat}
    (hc : c ∈ List.range 4) (hm : m.marks.marked ⊆ B) :
    Pushed heap B P m (((markWord h sz c).filter m.marks).foldl
      (fun m x => pushAll heap (heap.contents x).words m) m) := by
  refine Pushed.foldl (fun _ => True) (fun _ _ _ _ => trivial) (fun x hx m' _ => ?_) trivial
  obtain ⟨hx, hmark⟩ := List.mem_filter.mp hx
  obtain rfl := page_of_mem_markWord hx
  have hslot : x.slot < hdr.objs := (mem_markWord (h := x.page) hsz hhsz x.slot).mp ⟨c, hc, hx⟩
  refine (pushAll_pushed heap P _ m').weaken (fun y hy => ?_) Set.Subset.rfl
  have hacc : hdr.Accelerated := by
    rw [Hdr.Accelerated, hhsz]
    exact hsz
  exact hB x (hm hmark) rfl y (.inr ⟨hdr, ⟨hhdr, hslot, hdescr⟩, hacc, hy⟩)

theorem pushMarkedGranules_pushed (hhdr : heap.HDR h = some hdr) (hdescr : hdr.hb_descr ≠ 0)
    {sz : Nat} (hsz : sz = 1 ∨ sz = 2 ∨ sz = 4) (hhsz : hdr.hb_sz = sz) (hB : heap.ClosedAt B h)
    (hm : m.marks.marked ⊆ B) : Pushed heap B P m (pushMarkedGranules heap sz h m) :=
  Pushed.foldl (fun m => m.marks.marked ⊆ B) (fun _ _ hm hp => hp.within hm)
    (fun _ hc _ hm => pushWord_pushed hhdr hdescr hsz hhsz hB hc hm) hm

/-- The words of the objects that were marked have been pushed. -/
theorem pushMarkedGranules_words (hhdr : heap.HDR h = some hdr) (hdescr : hdr.hb_descr ≠ 0)
    {sz : Nat} (hsz : sz = 1 ∨ sz = 2 ∨ sz = 4) (hhsz : hdr.hb_sz = sz) {x : Obj}
    (hx : x ∈ m.marks.marked) (hpage : x.page = h) (hslot : x.slot < hdr.objs) :
    heap.targets (heap.contents x).words ⊆ (pushMarkedGranules heap sz h m).marks.marked := by
  have hclosed : heap.ClosedAt Set.univ h := fun _ _ _ _ _ => Set.mem_univ _
  obtain ⟨c, hc, hxc⟩ := (mem_markWord (h := h) hsz hhsz x.slot).mpr hslot
  have hxc' : x ∈ markWord h sz c := by
    subst hpage
    exact hxc
  -- the word of mark bits that has the bit of `x`
  obtain ⟨m₁, -, hbefore, hafter⟩ :=
    Pushed.foldl_split (T := Set.univ) (P := ∅) (m := m)
      (f := fun m c => ((markWord h sz c).filter m.marks).foldl
        (fun m x => pushAll heap (heap.contents x).words m) m)
      (fun _ => True) (fun _ _ _ _ => trivial)
      (fun c hc m _ => pushWord_pushed hhdr hdescr hsz hhsz hclosed hc (Set.subset_univ _))
      trivial hc
  have hmem : x ∈ (markWord h sz c).filter m₁.marks :=
    List.mem_filter.mpr ⟨hxc', hbefore.mono hx⟩
  -- and in it the scan of `x`
  obtain ⟨m₂, -, -, hrest⟩ :=
    Pushed.foldl_split (T := Set.univ) (P := ∅) (m := m₁)
      (f := fun m x => pushAll heap (heap.contents x).words m)
      (fun _ => True) (fun _ _ _ _ => trivial)
      (fun y _ m _ => (pushAll_pushed heap ∅ _ m).weaken (Set.subset_univ _) Set.Subset.rfl)
      trivial hmem
  exact (pushAll_marks heap _ m₂).trans (hrest.mono.trans hafter.mono)

/-! ## `GC_push_marked` -/

theorem pushSlot_pushed (hhdr : heap.HDR h = some hdr) {i : Nat} (hi : i ∈ List.range hdr.objs)
    (m : Marker) :
    Pushed heap T {x | x.page = h} m (if m.marks ⟨h, i⟩ then PUSH_OBJ ⟨h, i⟩ hdr m else m) := by
  split
  · rename_i hmark
    exact PUSH_OBJ_pushed hhdr (List.mem_range.mp hi) hmark rfl
  · exact .refl m

theorem pushMarkedSlots_pushed (hhdr : heap.HDR h = some hdr) (m : Marker) :
    Pushed heap T {x | x.page = h} m (pushMarkedSlots h hdr m) :=
  Pushed.foldl (fun _ => True) (fun _ _ _ _ => trivial)
    (fun _ hi m _ => pushSlot_pushed hhdr hi m) trivial

/-- The objects that were marked wait, unless the mark stack has overflowed. -/
theorem pushMarkedSlots_waiting (hhdr : heap.HDR h = some hdr) (hdescr : hdr.hb_descr ≠ 0)
    (hinv : (pushMarkedSlots h hdr m).GC_mark_state ≠ .MS_INVALID) {x : Obj}
    (hx : x ∈ m.marks.marked) (hpage : x.page = h) (hslot : x.slot < hdr.objs) :
    x ∈ (pushMarkedSlots h hdr m).waiting := by
  subst hpage
  obtain ⟨m₁, -, hbefore, hafter⟩ :=
    Pushed.foldl_split (T := ∅) (m := m) (fun _ => True) (fun _ _ _ _ => trivial)
      (fun _ hi m _ => pushSlot_pushed hhdr hi m) trivial (List.mem_range.mpr hslot)
  refine hafter.waiting_mono hinv ?_
  have hx₁ : m₁.marks ⟨x.page, x.slot⟩ = true := hbefore.mono hx
  rw [if_pos hx₁]
  exact PUSH_OBJ_waiting hdescr

/-- What `GC_push_marked` may mark and push. The accelerators push no marked objects. -/
theorem GC_push_marked_pushed (hhdr : heap.HDR h = some hdr) (hB : heap.ClosedAt B h)
    (hm : m.marks.marked ⊆ B) :
    GC_push_marked heap h hdr m = m ∨
      Pushed heap B {x | x.page = h ∧ ¬hdr.Accelerated} { m with GC_objects_are_marked := true }
        (GC_push_marked heap h hdr m) := by
  unfold GC_push_marked
  split
  · exact .inl rfl
  rename_i hdescr
  split
  · exact .inl rfl
  right
  have hacc : ∀ sz, sz = 1 ∨ sz = 2 ∨ sz = 4 → hdr.hb_sz = sz →
      Pushed heap B {x | x.page = h ∧ ¬hdr.Accelerated} { m with GC_objects_are_marked := true }
        (pushMarkedGranules heap sz h { m with GC_objects_are_marked := true }) :=
    fun sz hsz hhsz => pushMarkedGranules_pushed hhdr hdescr hsz hhsz hB hm
  split
  · exact hacc 1 (by simp) ‹_›
  · exact hacc 2 (by simp) ‹_›
  · exact hacc 4 (by simp) ‹_›
  · rename_i h1 h2 h4
    have hno : ¬hdr.Accelerated := by
      rintro (h | h | h)
      · exact h1 h
      · exact h2 h
      · exact h4 h
    exact (pushMarkedSlots_pushed hhdr _).weaken Set.Subset.rfl fun x hx => ⟨hx, hno⟩

/-- The objects of the block that were marked wait afterwards or are expanded. -/
theorem GC_push_marked_old (hhdr : heap.HDR h = some hdr) {R : Obj → Obj → Prop}
    (hR : ∀ x y, x.page = h → R x y →
      heap.edge x y ∧ (hdr.Accelerated → y ∈ heap.targets (heap.contents x).words))
    (hdescr : hdr.hb_descr ≠ 0) (hinv : (GC_push_marked heap h hdr m).GC_mark_state ≠ .MS_INVALID)
    {x : Obj} (hx : x ∈ m.marks.marked) (hpage : x.page = h) (hslot : x.slot < hdr.objs) :
    x ∈ (GC_push_marked heap h hdr m).waiting ∨
      Expanded R (GC_push_marked heap h hdr m).marks.marked x := by
  have hmarks : nMarks m.marks h hdr ≠ 0 := by
    intro hzero
    have hnone := List.countP_eq_zero.mp hzero x.slot (List.mem_range.mpr hslot)
    subst hpage
    exact hnone hx
  unfold GC_push_marked at hinv ⊢
  simp only [if_neg hdescr, if_neg hmarks] at hinv ⊢
  have hacc : ∀ sz, sz = 1 ∨ sz = 2 ∨ sz = 4 → hdr.hb_sz = sz → Expanded R
      (pushMarkedGranules heap sz h { m with GC_objects_are_marked := true }).marks.marked x := by
    intro sz hsz hhsz y hxy
    have hwords := (hR x y hpage hxy).2 (by rw [Hdr.Accelerated, hhsz]; exact hsz)
    exact pushMarkedGranules_words (m := { m with GC_objects_are_marked := true })
      hhdr hdescr hsz hhsz hx hpage hslot hwords
  split
  · exact .inr (hacc 1 (by simp) ‹_›)
  · exact .inr (hacc 2 (by simp) ‹_›)
  · exact .inr (hacc 4 (by simp) ‹_›)
  · rename_i h1 h2 h4
    refine .inl (pushMarkedSlots_waiting (m := { m with GC_objects_are_marked := true })
      hhdr hdescr ?_ hx hpage hslot)
    simpa only [h1, h2, h4] using hinv

/-- **After `GC_push_marked` the marked objects of the block wait or are expanded**, along
the edges that the accelerators see too. -/
theorem GC_push_marked_covers (hhdr : heap.HDR h = some hdr) {R : Obj → Obj → Prop}
    (hR : ∀ x y, x.page = h → R x y →
      heap.edge x y ∧ (hdr.Accelerated → y ∈ heap.targets (heap.contents x).words))
    (hinv : (GC_push_marked heap h hdr m).GC_mark_state ≠ .MS_INVALID) {x : Obj}
    (hx : x ∈ (GC_push_marked heap h hdr m).marks.marked) (hpage : x.page = h) :
    x ∈ (GC_push_marked heap h hdr m).waiting ∨
      Expanded R (GC_push_marked heap h hdr m).marks.marked x := by
  by_cases hscan : heap.Scannable x hdr
  · obtain ⟨-, hslot, hdescr⟩ := hscan
    by_cases hold : x ∈ m.marks.marked
    · exact GC_push_marked_old hhdr hR hdescr hinv hold hpage hslot
    -- what was marked on the way waits, or has nothing to scan
    have hclosed : heap.ClosedAt Set.univ h := fun _ _ _ _ _ => Set.mem_univ _
    rcases GC_push_marked_pushed (m := m) hhdr hclosed (Set.subset_univ _) with heq | hpushed
    · rw [heq] at hx
      exact absurd hx hold
    · rcases hpushed.covers with habs | ⟨-, -, hnew⟩
      · exact absurd habs hinv
      · rcases hnew x hx hold with hw | hno
        · exact .inl hw
        · exact .inr fun y hxy => absurd (hR x y hpage hxy).1 (hno y)
  · refine .inr fun y hxy => ?_
    obtain ⟨⟨hdr', hscan', -⟩, -⟩ := hR x y hpage hxy
    have hhdr' := hscan'.1
    rw [hpage, hhdr] at hhdr'
    cases hhdr'
    exact absurd hscan' hscan

end

/-! ## The walk over the blocks -/

/-- The objects of the blocks whose header satisfies `p`. -/
def Heap.inBlocks (heap : Heap) (p : Hdr → Bool) : Set Obj :=
  {x | ∃ hdr, heap.HDR x.page = some hdr ∧ p hdr = true}

variable {p : Hdr → Bool} {n : Nat}

theorem nextBlock_none (wf : heap.WF) (hnext : nextBlock heap p n = none) {x : Obj}
    (hx : x ∈ heap.inBlocks p) : x.page < n := by
  obtain ⟨hdr, hhdr, hp⟩ := hx
  rw [nextBlock, List.min?_eq_none_iff, List.filter_eq_nil_iff] at hnext
  have hno := hnext x.page ((wf.mem_hblks _).mpr ⟨hdr, hhdr⟩)
  by_contra hle
  exact hno (by simp [hhdr, hp]; omega)

theorem nextBlock_some (wf : heap.WF) {h : Nat} (hnext : nextBlock heap p n = some h) :
    (∃ hdr, heap.HDR h = some hdr ∧ p hdr = true) ∧ n ≤ h ∧
      ∀ x ∈ heap.inBlocks p, x.page < h → x.page < n := by
  obtain ⟨hmem, hmin⟩ := List.min?_eq_some_iff.mp hnext
  obtain ⟨hblk, hcond⟩ := List.mem_filter.mp hmem
  obtain ⟨hdr, hhdr⟩ := (wf.mem_hblks h).mp hblk
  rw [hhdr, Option.any_some, Bool.and_eq_true, decide_eq_true_eq] at hcond
  refine ⟨⟨hdr, hhdr, hcond.2⟩, hcond.1, ?_⟩
  rintro x ⟨hdr', hhdr', hp'⟩ hlt
  by_contra hle
  have hin : x.page ∈ heap.hblks.filter fun b => n ≤ b && (heap.HDR b).any p := by
    refine List.mem_filter.mpr ⟨(wf.mem_hblks _).mpr ⟨hdr', hhdr'⟩, ?_⟩
    rw [hhdr', Option.any_some, hp', Bool.and_true, decide_eq_true_eq]
    omega
  have := hmin x.page hin
  omega

/-- One step of a walk: no block is left, or the next one is pushed and the walk is
behind it. -/
theorem pushBlock_cases (wf : heap.WF) (p : Hdr → Bool) (m : Marker) :
    (pushBlock heap (nextBlock heap p m.scan_ptr) m = { m with scan_ptr := 0 } ∧
      ∀ x ∈ heap.inBlocks p, x.page < m.scan_ptr) ∨
    ∃ h hdr, heap.HDR h = some hdr ∧ p hdr = true ∧ 0 < h + OBJ_SZ_TO_BLOCKS hdr.hb_sz ∧
      pushBlock heap (nextBlock heap p m.scan_ptr) m =
        { GC_push_marked heap h hdr m with scan_ptr := h + OBJ_SZ_TO_BLOCKS hdr.hb_sz } ∧
      ∀ x ∈ heap.inBlocks p, x.page < h + OBJ_SZ_TO_BLOCKS hdr.hb_sz →
        x.page < m.scan_ptr ∨ x.page = h := by
  cases hnext : nextBlock heap p m.scan_ptr with
  | none => exact .inl ⟨rfl, fun x hx => nextBlock_none wf hnext hx⟩
  | some h =>
      obtain ⟨⟨hdr, hhdr, hp⟩, hle, hfirst⟩ := nextBlock_some wf hnext
      have hpos := OBJ_SZ_TO_BLOCKS_pos (wf.hb_sz_pos h hdr hhdr)
      refine .inr ⟨h, hdr, hhdr, hp, by omega, ?_, ?_⟩
      · simp only [pushBlock, hhdr]
      · intro x hx hlt
        have hblk : x.page ∈ heap.hblks := by
          obtain ⟨hdr', hhdr', -⟩ := hx
          exact (wf.mem_hblks _).mpr ⟨hdr', hhdr'⟩
        -- no block begins within the block `h`
        rcases Nat.lt_trichotomy x.page h with hx₁ | hx₁ | hx₁
        · exact .inl (hfirst x hx hx₁)
        · exact .inr hx₁
        · have := wf.apart h hdr x.page hhdr hblk hx₁
          omega

end Ironclad.Gc
