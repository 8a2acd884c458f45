import Ironclad.Gc.Marking

/-!
# The marks at the end of the mark phase

From below: all that was marked and all that is traced from the roots. From above: what
the edges of the objects that may have been scanned lead to. Without an overflow the two
bounds meet.
-/

namespace Ironclad.Gc

open Logic

variable {heap : Heap} {R E : Obj → Obj → Prop} {marks₀ S B T P : Set Obj} {m m₁ : Marker}

/-! ## An upper bound -/

/-- The marked objects lie in `B`, of these only objects in `S` get scanned, and what is
not passed over in the scan are edges of `E`. -/
structure Bounded (heap : Heap) (E : Obj → Obj → Prop) (marks₀ S B : Set Obj) (m : Marker) :
    Prop where
  kept : marks₀ ⊆ m.marks.marked
  within : m.marks.marked ⊆ B
  entries : ∀ e ∈ m.GC_mark_stack, heap.IsEntry e ∧ e.mse_start ∈ B ∧ e.mse_start ∈ S
  seen : ∀ x y, heap.edge x y → ¬heap.AtLimit m.GC_mark_stack_limit x → E x y

/-- Newly marked objects were not marked at the start; so they may be scanned. -/
theorem Pushed.bounded (h : Pushed heap T P m m₁) (hT : T ⊆ B) (hP : P ⊆ S)
    (hS : ∀ x, x ∉ marks₀ → x ∈ S) (hm : Bounded heap E marks₀ S B m) :
    Bounded heap E marks₀ S B m₁ := by
  have hwithin : m₁.marks.marked ⊆ B := by
    intro x hx
    rcases h.new_mem x hx with hx | hx
    · exact hm.within hx
    · exact hT hx
  refine ⟨hm.kept.trans h.mono, hwithin, fun e he => ?_, h.limit_eq ▸ hm.seen⟩
  rcases h.stack_mem e he with he | ⟨hent, hmark, hor⟩
  · exact hm.entries e he
  · refine ⟨hent, hwithin hmark, ?_⟩
    rcases hor with hnot | hP'
    · exact hS _ fun hmem => hnot (hm.kept hmem)
    · exact hP hP'

theorem markEntry_bounded (hS : ∀ x, x ∉ marks₀ → x ∈ S)
    (hB : ∀ x ∈ B, x ∈ S → ∀ y, E x y → y ∈ B) {e : Mse} {rest : List Mse}
    (hm : Bounded heap E marks₀ S B m) (hstack : m.GC_mark_stack = e :: rest) :
    Bounded heap E marks₀ S B (markEntry heap e rest m) := by
  obtain ⟨⟨hdr, hscan, hdescr⟩, heB, heS⟩ := hm.entries e (hstack ▸ List.mem_cons_self)
  have hm' : Bounded heap E marks₀ S B
      { m with GC_mark_stack := rest, GC_objects_are_marked := true } :=
    ⟨hm.kept, hm.within, fun e' he' => hm.entries e' (hstack ▸ List.mem_cons_of_mem e he'),
      hm.seen⟩
  refine (markEntry_pushed heap e rest m).bounded (fun y hy => ?_) (Set.empty_subset _) hS hm'
  unfold scanEntry at hy
  split at hy
  · -- nothing is pushed for an entry that is passed over
    obtain ⟨addr, haddr, -⟩ := hy
    cases haddr
  · rename_i hseen
    rw [hdescr] at hy hseen
    refine hB e.mse_start heB heS y (hm.seen _ y ⟨hdr, hscan, hy⟩ ?_)
    rintro ⟨hdr', hhdr', htag, haddr⟩
    rw [hscan.1] at hhdr'
    cases hhdr'
    exact hseen ⟨htag, haddr⟩

/-- A step of a walk over blocks whose objects may be scanned. -/
theorem walk_bounded (wf : heap.WF) {p : Hdr → Bool} (hS : ∀ x, x ∉ marks₀ → x ∈ S)
    (hp : ∀ x hdr, heap.HDR x.page = some hdr → p hdr = true → ¬hdr.Accelerated → x ∈ S)
    (hB : ∀ x ∈ B, x ∈ heap.inBlocks p → ∀ y, heap.anyEdge x y → y ∈ B)
    (hm : Bounded heap E marks₀ S B m) :
    Bounded heap E marks₀ S B (pushBlock heap (nextBlock heap p m.scan_ptr) m) := by
  rcases pushBlock_cases wf p m with ⟨heq, -⟩ | ⟨h, hdr, hhdr, hpdr, -, heq, -⟩
  · rw [heq]
    exact ⟨hm.kept, hm.within, hm.entries, hm.seen⟩
  · have hin : ∀ x : Obj, x.page = h → x ∈ heap.inBlocks p := by
      rintro x rfl
      exact ⟨hdr, hhdr, hpdr⟩
    have hclosed : heap.ClosedAt B h := fun x hx hpage y hxy => hB x hx (hin x hpage) y hxy
    have hpushed : Bounded heap E marks₀ S B (GC_push_marked heap h hdr m) := by
      rcases GC_push_marked_pushed hhdr hclosed hm.within with hsame | hpush
      · rw [hsame]
        exact hm
      · refine hpush.bounded Set.Subset.rfl ?_ hS ⟨hm.kept, hm.within, hm.entries, hm.seen⟩
        rintro x ⟨rfl, hno⟩
        exact hp x hdr hhdr hpdr hno
    rw [heq]
    exact ⟨hpushed.kept, hpushed.within, hpushed.entries, hpushed.seen⟩

theorem pushRoots_bounded (hS : ∀ x, x ∉ marks₀ → x ∈ S) (hroots : heap.targets heap.roots ⊆ B)
    (hm : Bounded heap E marks₀ S B m) : Bounded heap E marks₀ S B (pushRoots heap m) := by
  have hpush := (pushAll_pushed heap ∅ heap.roots m).bounded hroots (Set.empty_subset _) hS hm
  unfold pushRoots
  simp only
  split
  · exact ⟨hpush.kept, hpush.within, hpush.entries, hpush.seen⟩
  · exact ⟨hpush.kept, hpush.within, hpush.entries, hpush.seen⟩

theorem growMarkStack_bounded (hm : Bounded heap E marks₀ S B m) (c : Choice)
    (hE : (∀ x y, heap.edge x y → E x y) ∨ m.GC_mark_stack_too_small = false)
    (hnil : m.GC_mark_stack = []) : Bounded heap E marks₀ S B (growMarkStack c m) := by
  obtain ⟨hmarks, hstack, -⟩ := growMarkStack_frame c m hnil
  refine ⟨?_, ?_, ?_, ?_⟩
  · rw [hmarks]
    exact hm.kept
  · rw [hmarks]
    exact hm.within
  · rw [hstack]
    intro e he
    cases he
  · intro x y hxy hseen
    rcases hE with hE | hsmall
    · exact hE x y hxy
    · rw [growMarkStack, hsmall] at hseen
      exact hm.seen x y hxy hseen

/-- Every call of `GC_mark_some` stays within the bound. The walk over all blocks pushes
whatever is marked and read by no accelerator, so that all of this has to be in `S` unless
the phase is intact. -/
theorem GC_mark_some_bounded (wf : heap.WF) (hS : ∀ x, x ∈ heap.followed marks₀ → x ∈ S)
    (hroots : heap.targets heap.roots ⊆ B)
    (hB : ∀ x ∈ B, x ∈ S → ∀ y, E x y → y ∈ B)
    (hsafe : (∀ x hdr, heap.HDR x.page = some hdr → ¬hdr.Accelerated → x ∈ S) ∧
      (∀ x y, heap.edge x y → E x y) ∧ (∀ x ∈ B, ∀ y, heap.anyEdge x y → y ∈ B) ∨ m.Intact)
    (hinv : MarkInv heap R marks₀ m) (hm : Bounded heap E marks₀ S B m) (c : Choice) :
    Bounded heap E marks₀ S B (GC_mark_some heap c m).1 := by
  have hnew : ∀ x, x ∉ marks₀ → x ∈ S := fun x hx => hS x (.inl hx)
  have hfrom : ∀ n, Bounded heap E marks₀ S B (GC_mark_from heap n m) := fun n =>
    GC_mark_from_induction (fun _ _ _ hstack hm => markEntry_bounded hnew hB hm hstack) n hm
  -- the walk over all blocks
  have hall : ∀ m', Bounded heap E marks₀ S B m' → ¬m.Intact →
      Bounded heap E marks₀ S B (GC_push_next_marked heap m') := by
    intro m' hm' hno
    obtain ⟨hSall, -, hBall⟩ := hsafe.resolve_right hno
    exact walk_bounded wf hnew (fun x hdr hhdr _ hno => hSall x hdr hhdr hno)
      (fun x hx _ => hBall x hx) hm'
  cases hst : m.GC_mark_state with
  | MS_NONE =>
      simp only [GC_mark_some, hst]
      exact hm
  | MS_ROOTS_PUSHED =>
      simp only [GC_mark_some, hst]
      split
      · exact hfrom _
      · rename_i hnil
        exact growMarkStack_bounded (m := { m with GC_mark_state := .MS_NONE })
          ⟨hm.kept, hm.within, hm.entries, hm.seen⟩ c
          (hsafe.imp (fun h => h.2.1) fun hint => hint.large_enough) (not_not.mp hnil)
  | MS_PUSH_UNCOLLECTABLE =>
      simp only [GC_mark_some, hst]
      split
      · exact hfrom _
      have hunc : heap.inBlocks isUncollectable ⊆ S :=
        fun x hx => hS x (Heap.mem_followed.mpr (.inr hx))
      have hwalk : Bounded heap E marks₀ S B (GC_push_next_marked_uncollectable heap m) := by
        refine walk_bounded wf hnew (fun x hdr hhdr hp _ => hunc ⟨hdr, hhdr, hp⟩)
          (fun x hx hblk y hxy => ?_) hm
        refine hB x hx (hunc hblk) y (hm.seen x y ?_ ?_)
        -- in these blocks an accelerator reads what the scan reads
        · rcases hxy with hxy | ⟨hdr, hscan, -, hy⟩
          · exact hxy
          · obtain ⟨hdr', hhdr', hk⟩ := hblk
            rw [hscan.1] at hhdr'
            cases hhdr'
            have htag := wf.uncollectable_descr x.page hdr hscan.1 (beq_iff_eq.mp hk)
            refine ⟨hdr, hscan, ?_⟩
            rw [Heap.scan, if_neg htag]
            exact hy
        -- and nothing is passed over
        · rintro ⟨hdr, hhdr, htag, -⟩
          obtain ⟨hdr', hhdr', hk⟩ := hblk
          rw [hhdr] at hhdr'
          cases hhdr'
          exact wf.uncollectable_descr x.page hdr hhdr (beq_iff_eq.mp hk) htag
      simp only
      split
      · exact pushRoots_bounded hnew hroots hwalk
      · exact hwalk
  | MS_PARTIALLY_INVALID =>
      have hflag := hinv.flag hst
      have hno : ¬m.Intact := by
        intro hint
        rw [hint.unmarked (.inr hst)] at hflag
        cases hflag
      simp only [GC_mark_some, hst, hflag]
      split
      · rename_i habs
        exact absurd trivial habs
      split
      · exact hfrom _
      simp only [reduceCtorEq, and_false, if_false]
      split
      · exact pushRoots_bounded hnew hroots (hall m hm hno)
      · exact hall m hm hno
  | MS_INVALID =>
      simp only [GC_mark_some, hst]
      split
      · exact ⟨hm.kept, hm.within, hm.entries, hm.seen⟩
      rename_i hflag
      have hno : ¬m.Intact := fun hint => hflag (by simp [hint.unmarked (.inl hst)])
      split
      · exact hfrom _
      rename_i hnil
      rw [not_not] at hnil
      have hgrow := growMarkStack_bounded hm c (.inl (hsafe.resolve_right hno).2.1) hnil
      by_cases hscan : m.scan_ptr = 0
      · simp only [hscan, and_self, if_true]
        have hstart : Bounded heap E marks₀ S B
            { growMarkStack c m with GC_mark_state := .MS_PARTIALLY_INVALID } :=
          ⟨hgrow.kept, hgrow.within, hgrow.entries, hgrow.seen⟩
        split
        · exact pushRoots_bounded hnew hroots (hall _ hstart hno)
        · exact hall _ hstart hno
      · simp only [hscan, false_and, if_false]
        split
        · exact pushRoots_bounded hnew hroots (hall m hm hno)
        · exact hall m hm hno

/-! ## The end of the phase -/

section

variable {marks : Marks} {size limit : Nat} {cs : List Choice}

theorem startMark_inv (hseen : ∀ x y, R x y → ¬heap.AtLimit limit x) (marks : Marks) (size : Nat) :
    MarkInv heap R (clearMarks heap marks).marked (startMark heap marks size limit) where
  kept := Set.Subset.rfl
  entries := fun _ he => absurd he List.not_mem_nil
  seen := hseen
  covered := covered_empty
  roots := by rintro (h | h) <;> cases h
  fresh := fun _ _ => ⟨rfl, rfl, rfl⟩
  flag := fun h => by cases h
  done := fun h => by cases h

theorem startMark_intact (heap : Heap) (marks : Marks) (size limit : Nat) :
    (startMark heap marks size limit).Intact := ⟨rfl, fun _ => rfl⟩

/-- **What is traced is marked.** Along all edges that are not passed over if the mark stack
does not overflow, along the edges that the accelerators see in any case. -/
theorem traced_subset_marked (wf : heap.WF) (hR : ∀ x y, R x y → heap.edge x y)
    (hseen : ∀ x y, R x y → ¬heap.AtLimit limit x)
    (hsafe : (heap.Robust R ∧ ∀ c ∈ cs, heap.Clear R c) ∨
      noOverflow heap cs (startMark heap marks size limit) = true)
    (h : markPhase heap cs (startMark heap marks size limit) = some m) :
    (clearMarks heap marks).marked ∪ heap.traced R (clearMarks heap marks).marked ⊆
      m.marks.marked := by
  obtain ⟨hinv, hnone⟩ := markPhase_induction (Q := fun c => heap.Robust R ∧ heap.Clear R c)
    (fun c m hm hs => GC_mark_some_inv wf hR hm hs)
    (fun c m hm hint hne => GC_mark_some_intact wf hm hint c hne)
    (startMark_inv hseen marks size)
    (hsafe.imp (fun hs c hc => ⟨hs.1, hs.2 c hc⟩)
      fun hno => ⟨startMark_intact heap marks size limit, hno⟩) h
  refine Set.union_subset hinv.kept ?_
  have hcov := hinv.covered
  rw [Marker.region, hnone, Marker.waiting, hinv.done hnone] at hcov
  refine hcov.closure_subset (Set.union_subset (hinv.roots (.inr hnone)) ?_)
  exact fun x hx => hinv.kept hx.1

/-- Whatever happens, only objects are marked to which the roots or marked slots lead. -/
theorem marked_subset_anyEdge (wf : heap.WF)
    (h : markPhase heap cs (startMark heap marks size limit) = some m) :
    m.marks.marked ⊆ Logic.closure heap.anyEdge
      (heap.targets heap.roots ∪ (clearMarks heap marks).marked) := by
  set B := Logic.closure heap.anyEdge (heap.targets heap.roots ∪ (clearMarks heap marks).marked)
  have hclosed : ∀ x ∈ B, ∀ y, heap.anyEdge x y → y ∈ B := closedUnder_closure
  obtain ⟨⟨-, hb⟩, -⟩ := markPhase_induction (Q := fun _ => True)
    (I := fun m => MarkInv heap (fun _ _ => False) (clearMarks heap marks).marked m ∧
      Bounded heap heap.edge (clearMarks heap marks).marked Set.univ B m)
    (fun c m hm _ => ⟨GC_mark_some_inv wf (fun _ _ h => h.elim) hm.1
        (.inl ⟨fun _ _ _ h => h.elim, fun _ _ _ _ h => h.elim⟩),
      GC_mark_some_bounded wf (fun _ _ => Set.mem_univ _)
        (Set.subset_union_left.trans Logic.subset_closure)
        (fun x hx _ y hxy => hclosed x hx y (.inl hxy))
        (.inl ⟨fun _ _ _ _ => Set.mem_univ _, fun _ _ h => h, hclosed⟩) hm.1 hm.2 c⟩)
    (fun c m hm hint hne => GC_mark_some_intact wf hm.1 hint c hne)
    ⟨startMark_inv (fun _ _ h => h.elim) marks size, Set.Subset.rfl,
      Set.subset_union_right.trans subset_closure, fun _ he => absurd he List.not_mem_nil,
      fun _ _ h _ => h⟩ (.inl fun _ _ => trivial) h
  exact hb.within

/-- What was marked and what is traced is closed under the edges that are followed. -/
theorem followed_closed {M : Set Obj} : ∀ x ∈ M ∪ heap.traced R M, x ∈ heap.followed M →
    ∀ y, R x y → y ∈ M ∪ heap.traced R M := by
  intro x hx hf y hxy
  right
  have htraced : x ∈ heap.traced R M := by
    rcases hx with hx | hx
    · exact Logic.subset_closure (.inr ⟨hx, hf.resolve_left (not_not.mpr hx)⟩)
    · exact hx
  exact closedUnder_closure x htraced y ⟨hf, hxy⟩

theorem startMark_bounded :
    MarkInv heap (heap.seenEdge [limit]) (clearMarks heap marks).marked
        (startMark heap marks size limit) ∧
      Bounded heap (heap.seenEdge [limit]) (clearMarks heap marks).marked
        (heap.followed (clearMarks heap marks).marked)
        ((clearMarks heap marks).marked ∪
          heap.traced (heap.seenEdge [limit]) (clearMarks heap marks).marked)
        (startMark heap marks size limit) := by
  refine ⟨startMark_inv (fun x y hxy => hxy.2 limit (List.mem_singleton.mpr rfl)) marks size,
    Set.Subset.rfl, Set.subset_union_left, fun _ he => absurd he List.not_mem_nil, ?_⟩
  exact fun x y hxy hnot => ⟨hxy, List.forall_mem_singleton.mpr hnot⟩

/-- **Without an overflow exactly what was marked and what is traced ends up marked.** -/
theorem marked_eq (wf : heap.WF)
    (hno : noOverflow heap cs (startMark heap marks size limit) = true)
    (h : markPhase heap cs (startMark heap marks size limit) = some m) :
    m.marks.marked = (clearMarks heap marks).marked ∪
      heap.traced (heap.seenEdge [limit]) (clearMarks heap marks).marked := by
  have hR : ∀ x y, heap.seenEdge [limit] x y → heap.edge x y :=
    fun _ _ => Heap.edge_of_seenEdge
  have hseen : ∀ x y, heap.seenEdge [limit] x y → ¬heap.AtLimit limit x :=
    fun x y hxy => hxy.2 limit (List.mem_singleton.mpr rfl)
  refine Set.Subset.antisymm ?_ (traced_subset_marked wf hR hseen (.inr hno) h)
  set M := (clearMarks heap marks).marked
  set R := heap.seenEdge [limit]
  obtain ⟨⟨-, hb⟩, -⟩ := markPhase_induction (Q := fun _ => False)
    (I := fun m => MarkInv heap R M m ∧
      Bounded heap R M (heap.followed M) (M ∪ heap.traced R M) m)
    (fun c m hm hs => ⟨GC_mark_some_inv wf hR hm.1 (hs.elim False.elim .inr),
      GC_mark_some_bounded wf (fun _ hx => hx)
        ((Set.subset_union_left.trans Logic.subset_closure).trans Set.subset_union_right)
        followed_closed (hs.elim False.elim .inr) hm.1 hm.2 c⟩)
    (fun c m hm hint hne => GC_mark_some_intact wf hm.1 hint c hne)
    startMark_bounded (.inr ⟨startMark_intact heap marks size limit, hno⟩) h
  exact hb.within

end

end Ironclad.Gc
