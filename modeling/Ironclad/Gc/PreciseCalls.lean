import Ironclad.Gc.Marked

/-!
# The calls of `ironclad_mark_address`

For which objects a mark phase calls `mark()`. Such an object was on the mark stack: it was
pushed when it was newly marked, or, after an overflow, because it was marked already.
-/

namespace Ironclad.Gc

open Logic

section

variable (heap : Heap)

/-- The objects for which `GC_mark_from` calls `ironclad_mark_address`, within `n` entries. -/
def markFromCalls : Nat → Marker → List Obj
  | 0, _ => []
  | n + 1, m =>
      match m.GC_mark_stack with
      | [] => []
      | e :: rest =>
          (if dsTag e.mse_descr = GC_DS_PRECISE ∧ heap.addrOf e.mse_start ≠ m.GC_mark_stack_limit
            then [e.mse_start] else []) ++ markFromCalls n (markEntry heap e rest m)

/-- The call of `GC_mark_some` is one that takes entries off the mark stack. -/
def Marker.marksFrom (m : Marker) : Bool :=
  match m.GC_mark_state with
  | .MS_NONE => false
  | .MS_PUSH_UNCOLLECTABLE => m.GC_mark_stack_size / 4 < m.GC_mark_stack.length
  | .MS_ROOTS_PUSHED => !m.GC_mark_stack.isEmpty
  | _ => m.GC_objects_are_marked && !m.GC_mark_stack.isEmpty

/-- The objects for which the calls of `GC_mark_some` call `ironclad_mark_address`. -/
def phaseCalls : List Choice → Marker → List Obj
  | [], _ => []
  | c :: cs, m =>
      (if m.marksFrom then markFromCalls heap (c.credit + 1) m else []) ++
        match GC_mark_some heap c m with
        | (_, true) => []
        | (m, false) => phaseCalls cs m

end

section

variable {heap : Heap} {m : Marker} {c : Choice} {cs : List Choice} {I : Marker → Prop}
  {G : Obj → Prop} {Q : Choice → Prop}

/-- What holds of every entry that is popped holds of every call. -/
theorem markFromCalls_induction
    (hstep : ∀ e rest m, m.GC_mark_stack = e :: rest → I m → I (markEntry heap e rest m))
    (hcall : ∀ e rest m, m.GC_mark_stack = e :: rest → I m → dsTag e.mse_descr = GC_DS_PRECISE →
      heap.addrOf e.mse_start ≠ m.GC_mark_stack_limit → G e.mse_start)
    (n : Nat) (hm : I m) : ∀ x ∈ markFromCalls heap n m, G x := by
  induction n generalizing m with
  | zero =>
      intro x hx
      cases hx
  | succ n ih =>
      intro x hx
      unfold markFromCalls at hx
      cases hstack : m.GC_mark_stack with
      | nil =>
          rw [hstack] at hx
          cases hx
      | cons e rest =>
          simp only [hstack] at hx
          rcases List.mem_append.mp hx with hx | hx
          · -- the call for the popped entry
            split at hx
            · rename_i hprec
              rw [List.mem_singleton.mp hx]
              exact hcall e rest m hstack hm hprec.1 hprec.2
            · cases hx
          · exact ih (hstep e rest m hstack hm) x hx

/-- The calls of a whole phase. -/
theorem phaseCalls_induction
    (hstep : ∀ c m, I m → Q c ∨ m.Intact → I (GC_mark_some heap c m).1)
    (hintact : ∀ c m, I m → m.Intact →
      (GC_mark_some heap c m).1.GC_mark_state ≠ .MS_INVALID → (GC_mark_some heap c m).1.Intact)
    (hcalls : ∀ n m, I m → ∀ x ∈ markFromCalls heap n m, G x) (hm : I m)
    (hsafe : (∀ c ∈ cs, Q c) ∨ m.Intact ∧ noOverflow heap cs m = true) :
    ∀ x ∈ phaseCalls heap cs m, G x := by
  induction cs generalizing m with
  | nil =>
      intro x hx
      cases hx
  | cons c cs ih =>
      intro x hx
      unfold phaseCalls at hx
      rcases List.mem_append.mp hx with hx | hx
      · split at hx
        · exact hcalls _ m hm x hx
        · cases hx
      have hI := hstep c m hm (hsafe.imp (fun hQ => hQ c List.mem_cons_self) And.left)
      cases hres : GC_mark_some heap c m with
      | mk m₁ b =>
          rw [hres] at hx hI
          cases b with
          | true => cases hx
          | false =>
              refine ih hI ?_ x hx
              -- without an overflow the marker stays intact until the end
              rcases hsafe with hsafe | ⟨hint, hno⟩
              · exact .inl fun c' hc' => hsafe c' (List.mem_cons_of_mem c hc')
              · unfold noOverflow at hno
                rw [hres, Bool.and_eq_true, decide_eq_true_eq] at hno
                have := hintact c m hm hint (by rw [hres]; exact hno.1)
                rw [hres] at this
                exact .inr ⟨this, hno.2⟩

end

/-! ## Where the calls go -/

section

variable {heap : Heap} {R : Obj → Obj → Prop} {marks₀ : Set Obj} {m : Marker}

theorem GC_mark_from_limit (heap : Heap) (n : Nat) (m : Marker) :
    (GC_mark_from heap n m).GC_mark_stack_limit = m.GC_mark_stack_limit :=
  GC_mark_from_induction (I := fun m' => m'.GC_mark_stack_limit = m.GC_mark_stack_limit)
    (fun e rest m' _ hm' => (markEntry_pushed heap e rest m').limit_eq.trans hm') n rfl

theorem pushRoots_limit (heap : Heap) (m : Marker) :
    (pushRoots heap m).GC_mark_stack_limit = m.GC_mark_stack_limit := by
  have hpush := (pushAll_pushed heap ∅ heap.roots m).limit_eq
  unfold pushRoots
  simp only
  split <;> exact hpush

/-- The mark stack stays where it is until it overflows. -/
theorem GC_mark_some_limit (wf : heap.WF) (hm : MarkInv heap R marks₀ m) (hint : m.Intact)
    (c : Choice) : (GC_mark_some heap c m).1.GC_mark_stack_limit = m.GC_mark_stack_limit := by
  cases hst : m.GC_mark_state with
  | MS_NONE => simp [GC_mark_some, hst]
  | MS_ROOTS_PUSHED =>
      simp only [GC_mark_some, hst]
      split
      · exact GC_mark_from_limit heap _ m
      · simp [growMarkStack, hint.large_enough]
  | MS_PUSH_UNCOLLECTABLE =>
      simp only [GC_mark_some, hst]
      split
      · exact GC_mark_from_limit heap _ m
      obtain ⟨-, -, -, -, hlimit⟩ :=
        walk_frame wf (Eq.refl (GC_push_next_marked_uncollectable heap m)) hm.entries
      simp only
      split
      · exact (pushRoots_limit heap _).trans hlimit
      · exact hlimit
  | MS_PARTIALLY_INVALID =>
      -- an intact marker is not in this state
      have hflag := hint.unmarked (.inr hst)
      rw [hm.flag hst] at hflag
      cases hflag
  | MS_INVALID =>
      have hflag := hint.unmarked (.inl hst)
      simp [GC_mark_some, hst, hflag]

end

section

variable {heap : Heap} {marks : Marks} {size limit : Nat} {cs : List Choice} {E : Obj → Obj → Prop}
  {marks₀ S B : Set Obj} {m : Marker} {x : Obj}

/-- The object of a call was on the mark stack, and it is not at its limit. -/
theorem markFromCalls_bounded (hS : ∀ x, x ∉ marks₀ → x ∈ S)
    (hB : ∀ x ∈ B, x ∈ S → ∀ y, E x y → y ∈ B) (n : Nat) (hm : Bounded heap E marks₀ S B m) :
    ∀ x ∈ markFromCalls heap n m, x ∈ B ∧ x ∈ S ∧ ¬heap.AtLimit m.GC_mark_stack_limit x := by
  refine markFromCalls_induction (I := fun m' => Bounded heap E marks₀ S B m' ∧
    m'.GC_mark_stack_limit = m.GC_mark_stack_limit) ?_ ?_ n ⟨hm, rfl⟩
  · rintro e rest m' hstack ⟨hm', hlimit⟩
    exact ⟨markEntry_bounded hS hB hm' hstack,
      (markEntry_pushed heap e rest m').limit_eq.trans hlimit⟩
  · rintro e rest m' hstack ⟨hm', hlimit⟩ - hat
    obtain ⟨-, heB, heS⟩ := hm'.entries e (hstack ▸ List.mem_cons_self)
    refine ⟨heB, heS, ?_⟩
    rintro ⟨-, -, -, haddr⟩
    exact hat (haddr.trans hlimit.symm)

/-- **Without an overflow the calls go to objects that are newly marked**, and traced. -/
theorem calls_of_noOverflow (wf : heap.WF)
    (hno : noOverflow heap cs (startMark heap marks size limit) = true)
    (hx : x ∈ phaseCalls heap cs (startMark heap marks size limit)) :
    x ∈ (clearMarks heap marks).marked ∪
        heap.traced (heap.seenEdge [limit]) (clearMarks heap marks).marked ∧
      x ∈ heap.followed (clearMarks heap marks).marked ∧ ¬heap.AtLimit limit x := by
  set M := (clearMarks heap marks).marked
  set R := heap.seenEdge [limit]
  have hR : ∀ x y, R x y → heap.edge x y := fun _ _ => Heap.edge_of_seenEdge
  have hS : ∀ x, x ∉ M → x ∈ heap.followed M := fun _ hx => .inl hx
  have hclosed := @followed_closed heap R M
  refine phaseCalls_induction (Q := fun _ => False)
    (G := fun x => x ∈ M ∪ heap.traced R M ∧ x ∈ heap.followed M ∧ ¬heap.AtLimit limit x)
    (I := fun m => (MarkInv heap R M m ∧ Bounded heap R M (heap.followed M)
      (M ∪ heap.traced R M) m) ∧ m.GC_mark_stack_limit = limit) ?_ ?_ ?_ ⟨startMark_bounded, rfl⟩
    (.inr ⟨startMark_intact heap marks size limit, hno⟩) x hx
  · rintro c m ⟨⟨hinv, hb⟩, hlimit⟩ hs
    have hint := hs.elim False.elim fun h => h
    refine ⟨⟨GC_mark_some_inv wf hR hinv (.inr hint), ?_⟩,
      (GC_mark_some_limit wf hinv hint c).trans hlimit⟩
    exact GC_mark_some_bounded wf (fun _ hx => hx)
      ((Set.subset_union_left.trans Logic.subset_closure).trans Set.subset_union_right) hclosed
      (.inr hint) hinv hb c
  · exact fun c m hm hint hne => GC_mark_some_intact wf hm.1.1 hint c hne
  · rintro n m ⟨⟨-, hb⟩, rfl⟩ y hy
    exact markFromCalls_bounded hS hclosed n hb y hy

/-- The object lies in a block that `GC_push_marked` reads by an accelerator. -/
def Heap.InAccelerated (heap : Heap) (x : Obj) : Prop :=
  ∃ hdr, heap.HDR x.page = some hdr ∧ hdr.Accelerated

/-- **In any case the calls go to objects to which the roots or marked slots lead**, by
whatever edges; one that was marked already is in no block that has an accelerator. -/
theorem calls_of_any (wf : heap.WF)
    (hx : x ∈ phaseCalls heap cs (startMark heap marks size limit)) :
    x ∈ Logic.closure heap.anyEdge (heap.targets heap.roots ∪ (clearMarks heap marks).marked) ∧
      (x ∈ heap.followed (clearMarks heap marks).marked ∨ ¬heap.InAccelerated x) := by
  set M := (clearMarks heap marks).marked
  set B := Logic.closure heap.anyEdge (heap.targets heap.roots ∪ M)
  set S : Set Obj := {x | x ∈ heap.followed M ∨ ¬heap.InAccelerated x}
  have hclosed : ∀ x ∈ B, ∀ y, heap.anyEdge x y → y ∈ B := closedUnder_closure
  have hS : ∀ x, x ∉ M → x ∈ S := fun _ hx => .inl (.inl hx)
  have hB : ∀ x ∈ B, x ∈ S → ∀ y, heap.edge x y → y ∈ B :=
    fun x hx _ y hxy => hclosed x hx y (.inl hxy)
  have hcov : ∀ c m, MarkInv heap (fun _ _ => False) M m → MarkInv heap (fun _ _ => False) M
      (GC_mark_some heap c m).1 := fun c m hinv =>
    GC_mark_some_inv wf (fun _ _ h => h.elim) hinv
      (.inl ⟨fun _ _ _ h => h.elim, fun _ _ _ _ h => h.elim⟩)
  refine phaseCalls_induction (Q := fun _ => True) (G := fun x => x ∈ B ∧ x ∈ S)
    (I := fun m => MarkInv heap (fun _ _ => False) M m ∧ Bounded heap heap.edge M S B m)
    ?_ ?_ ?_ ?_ (.inl fun _ _ => trivial) x hx
  · rintro c m ⟨hinv, hb⟩ -
    refine ⟨hcov c m hinv, GC_mark_some_bounded wf (fun _ hx => .inl hx)
      (Set.subset_union_left.trans Logic.subset_closure) hB (.inl ⟨?_, fun _ _ h => h, hclosed⟩)
      hinv hb c⟩
    rintro x hdr hhdr hno
    refine .inr fun hacc => hno ?_
    obtain ⟨hdr', hhdr', hacc⟩ := hacc
    rw [hhdr] at hhdr'
    cases hhdr'
    exact hacc
  · exact fun c m hm hint hne => GC_mark_some_intact wf hm.1 hint c hne
  · rintro n m ⟨-, hb⟩ y hy
    obtain ⟨hyB, hyS, -⟩ := markFromCalls_bounded hS hB n hb y hy
    exact ⟨hyB, hyS⟩
  · exact ⟨startMark_inv (fun _ _ h => h.elim) marks size, Set.Subset.rfl,
      Set.subset_union_right.trans Logic.subset_closure,
      fun _ he => absurd he List.not_mem_nil, fun _ _ h _ => h⟩

end

end Ironclad.Gc
