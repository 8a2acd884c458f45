import Ironclad.Gc.Reach

/-!
# What pushing does to the marker

`Pushed T P` says what any sequence of pushes does: it newly marks objects of `T` only,
pushes only what it newly marks or objects of `P`, and leaves no newly marked object
behind unless it ends in `MS_INVALID`, when the mark stack has overflowed.
-/

namespace Ironclad.Gc

open Logic

/-- The objects that wait on the mark stack. -/
def Marker.waiting (m : Marker) : List Obj := m.GC_mark_stack.map Mse.mse_start

/-- The entry describes an object that has to be scanned. -/
def Heap.IsEntry (heap : Heap) (e : Mse) : Prop :=
  ∃ hdr, heap.Scannable e.mse_start hdr ∧ e.mse_descr = hdr.hb_descr

structure Pushed (heap : Heap) (T P : Set Obj) (m m' : Marker) : Prop where
  mono : m.marks.marked ⊆ m'.marks.marked
  new_mem : ∀ x ∈ m'.marks.marked, x ∈ m.marks.marked ∨ x ∈ T
  stack_mem : ∀ e ∈ m'.GC_mark_stack, e ∈ m.GC_mark_stack ∨
    heap.IsEntry e ∧ e.mse_start ∈ m'.marks.marked ∧
      (e.mse_start ∉ m.marks.marked ∨ e.mse_start ∈ P)
  scan_ptr_eq : m'.scan_ptr = m.scan_ptr
  flag_eq : m'.GC_objects_are_marked = m.GC_objects_are_marked
  limit_eq : m'.GC_mark_stack_limit = m.GC_mark_stack_limit
  small_eq : m'.GC_mark_state = .MS_INVALID ∨
    m'.GC_mark_stack_too_small = m.GC_mark_stack_too_small
  covers : m'.GC_mark_state = .MS_INVALID ∨
    m'.GC_mark_state = m.GC_mark_state ∧ m.GC_mark_stack ⊆ m'.GC_mark_stack ∧
      ∀ x ∈ m'.marks.marked, x ∉ m.marks.marked → x ∈ m'.waiting ∨ ∀ y, ¬heap.edge x y

variable {heap : Heap} {T P T' P' : Set Obj} {m m₁ m₂ : Marker}

theorem Pushed.refl (m : Marker) : Pushed heap T P m m where
  mono := Set.Subset.rfl
  new_mem := fun _ hx => .inl hx
  stack_mem := fun _ he => .inl he
  scan_ptr_eq := rfl
  flag_eq := rfl
  limit_eq := rfl
  small_eq := .inr rfl
  covers := .inr ⟨rfl, List.Subset.refl _, fun _ hx hnot => absurd hx hnot⟩

theorem Pushed.weaken (h : Pushed heap T P m m₁) (hT : T ⊆ T') (hP : P ⊆ P') :
    Pushed heap T' P' m m₁ :=
  { h with
    new_mem := fun x hx => (h.new_mem x hx).imp_right fun hxT => hT hxT
    stack_mem := fun e he => (h.stack_mem e he).imp_right fun ⟨hent, hm, hor⟩ =>
      ⟨hent, hm, hor.imp_right fun heP => hP heP⟩ }

/-- What waits keeps waiting when the stack only grows. -/
theorem waiting_subset (h : m.GC_mark_stack ⊆ m₁.GC_mark_stack) : m.waiting ⊆ m₁.waiting :=
  List.map_subset _ h

theorem Pushed.trans (h₁ : Pushed heap T P m m₁) (h₂ : Pushed heap T P m₁ m₂) :
    Pushed heap T P m m₂ where
  mono := h₁.mono.trans h₂.mono
  new_mem := by
    intro x hx
    rcases h₂.new_mem x hx with hx | hx
    · exact h₁.new_mem x hx
    · exact .inr hx
  stack_mem := by
    intro e he
    rcases h₂.stack_mem e he with he | ⟨hent, hm, hor⟩
    · rcases h₁.stack_mem e he with he | ⟨hent, hm, hor⟩
      · exact .inl he
      · exact .inr ⟨hent, h₂.mono hm, hor⟩
    · exact .inr ⟨hent, hm, hor.imp_left fun hnot hmark => hnot (h₁.mono hmark)⟩
  scan_ptr_eq := h₂.scan_ptr_eq.trans h₁.scan_ptr_eq
  flag_eq := h₂.flag_eq.trans h₁.flag_eq
  limit_eq := h₂.limit_eq.trans h₁.limit_eq
  small_eq := by
    rcases h₂.small_eq with hinv | heq₂
    · exact .inl hinv
    rcases h₂.covers with hinv | ⟨hst, -⟩
    · exact .inl hinv
    rcases h₁.small_eq with hinv | heq₁
    · exact .inl (hst.trans hinv)
    · exact .inr (heq₂.trans heq₁)
  covers := by
    rcases h₂.covers with hinv | ⟨hst₂, hsub₂, hnew₂⟩
    · exact .inl hinv
    rcases h₁.covers with hinv | ⟨hst₁, hsub₁, hnew₁⟩
    · exact .inl (hst₂.trans hinv)
    refine .inr ⟨hst₂.trans hst₁, List.Subset.trans hsub₁ hsub₂, fun x hx hnot => ?_⟩
    by_cases hx₁ : x ∈ m₁.marks.marked
    · exact (hnew₁ x hx₁ hnot).imp_left fun hw => waiting_subset hsub₂ hw
    · exact hnew₂ x hx hx₁

section Foldl

variable {β : Type*} {f : Marker → β → Marker} {l : List β} (Inv : Marker → Prop)

/-- Pushes one after the other, each from a marker that satisfies `Inv`. -/
theorem Pushed.foldl (hInv : ∀ m m', Inv m → Pushed heap T P m m' → Inv m')
    (hf : ∀ b ∈ l, ∀ m, Inv m → Pushed heap T P m (f m b)) (hm : Inv m) :
    Pushed heap T P m (l.foldl f m) := by
  induction l generalizing m with
  | nil => exact .refl m
  | cons b l ih =>
      have hb := hf b List.mem_cons_self m hm
      exact hb.trans (ih (fun c hc => hf c (List.mem_cons_of_mem _ hc)) (hInv m _ hm hb))

/-- One of these pushes, with what goes before it and what comes after it. -/
theorem Pushed.foldl_split (hInv : ∀ m m', Inv m → Pushed heap T P m m' → Inv m')
    (hf : ∀ b ∈ l, ∀ m, Inv m → Pushed heap T P m (f m b)) (hm : Inv m) {b : β} (hb : b ∈ l) :
    ∃ m₁, Inv m₁ ∧ Pushed heap T P m m₁ ∧ Pushed heap T P (f m₁ b) (l.foldl f m) := by
  induction l generalizing m with
  | nil => exact absurd hb List.not_mem_nil
  | cons c l ih =>
      have hc := hf c List.mem_cons_self m hm
      have hrest : ∀ b ∈ l, ∀ m, Inv m → Pushed heap T P m (f m b) :=
        fun b hb => hf b (List.mem_cons_of_mem _ hb)
      rcases List.mem_cons.mp hb with rfl | hb
      · exact ⟨m, hm, .refl m, .foldl Inv hInv hrest (hInv m _ hm hc)⟩
      · obtain ⟨m₁, hm₁, hbefore, hafter⟩ := ih hrest (hInv m _ hm hc) hb
        exact ⟨m₁, hm₁, hc.trans hbefore, hafter⟩

end Foldl

/-- What waited still waits, unless the mark stack has overflowed. -/
theorem Pushed.waiting_mono (h : Pushed heap T P m m₁) (hinv : m₁.GC_mark_state ≠ .MS_INVALID) :
    m.waiting ⊆ m₁.waiting := by
  rcases h.covers with habs | ⟨-, hsub, -⟩
  · exact absurd habs hinv
  · exact waiting_subset hsub

/-- The mark stack is found too small only when it overflows. -/
theorem Pushed.too_small (h : Pushed heap T P m m₁) (hinv : m₁.GC_mark_state ≠ .MS_INVALID) :
    m₁.GC_mark_stack_too_small = m.GC_mark_stack_too_small := by
  rcases h.small_eq with habs | heq
  · exact absurd habs hinv
  · exact heq

theorem Pushed.state_eq (h : Pushed heap T P m m₁) (hinv : m₁.GC_mark_state ≠ .MS_INVALID) :
    m₁.GC_mark_state = m.GC_mark_state := by
  rcases h.covers with habs | ⟨hst, -⟩
  · exact absurd habs hinv
  · exact hst

/-! ## One push -/

section PushObj

variable {x : Obj} {hdr : Hdr}

@[simp] theorem PUSH_OBJ_marks : (PUSH_OBJ x hdr m).marks = m.marks := by
  unfold PUSH_OBJ GC_signal_mark_stack_overflow
  repeat' split
  all_goals rfl

/-- The object waits afterwards, unless it has no descriptor. -/
theorem PUSH_OBJ_waiting (hdescr : hdr.hb_descr ≠ 0) : x ∈ (PUSH_OBJ x hdr m).waiting := by
  unfold PUSH_OBJ
  rw [if_pos hdescr]
  exact List.mem_cons_self

/-- `PUSH_OBJ` of a marked object that is in `P`. -/
theorem PUSH_OBJ_pushed (hhdr : heap.HDR x.page = some hdr) (hslot : x.slot < hdr.objs)
    (hx : x ∈ m.marks.marked) (hP : x ∈ P) : Pushed heap T P m (PUSH_OBJ x hdr m) := by
  by_cases hdescr : hdr.hb_descr = 0
  · have heq : PUSH_OBJ x hdr m = m := by
      unfold PUSH_OBJ
      rw [if_neg (not_not.mpr hdescr)]
    rw [heq]
    exact .refl m
  have hentry : heap.IsEntry ⟨x, hdr.hb_descr⟩ := ⟨hdr, ⟨hhdr, hslot, hdescr⟩, rfl⟩
  by_cases hfull : m.GC_mark_stack.length < m.GC_mark_stack_size
  · have heq : PUSH_OBJ x hdr m =
        { m with GC_mark_stack := ⟨x, hdr.hb_descr⟩ :: m.GC_mark_stack } := by
      unfold PUSH_OBJ
      rw [if_pos hdescr, if_pos hfull]
    rw [heq]
    refine ⟨Set.Subset.rfl, fun _ hy => .inl hy, ?_, rfl, rfl, rfl, .inr rfl, .inr ⟨rfl, ?_, ?_⟩⟩
    · intro e he
      rcases List.mem_cons.mp he with rfl | he
      · exact .inr ⟨hentry, hx, .inr hP⟩
      · exact .inl he
    · exact List.subset_cons_self _ _
    · intro y hy hnot
      exact absurd hy hnot
  · have heq : PUSH_OBJ x hdr m =
        { GC_signal_mark_stack_overflow m with
          GC_mark_stack :=
            ⟨x, hdr.hb_descr⟩ :: (GC_signal_mark_stack_overflow m).GC_mark_stack } := by
      unfold PUSH_OBJ
      rw [if_pos hdescr, if_neg hfull]
    rw [heq]
    refine ⟨Set.Subset.rfl, fun _ hy => .inl hy, ?_, rfl, rfl, rfl, .inl rfl, .inl rfl⟩
    intro e he
    rcases List.mem_cons.mp he with rfl | he
    · exact .inr ⟨hentry, hx, .inr hP⟩
    · exact .inl (List.mem_of_mem_drop he)

end PushObj

/-! ## The contents of addresses -/

/-- `PUSH_CONTENTS` marks what the address points into and pushes it if it was not. -/
theorem PUSH_CONTENTS_pushed (heap : Heap) (P : Set Obj) (current : Nat) (m : Marker) :
    Pushed heap (heap.targets [current]) P m (PUSH_CONTENTS heap m current) := by
  unfold PUSH_CONTENTS
  split
  · exact .refl m
  rename_i x hbase
  split
  · exact .refl m
  rename_i hunmarked
  split
  · exact .refl m
  rename_i hdr hhdr
  have hslot : x.slot < hdr.objs := by
    obtain ⟨hdr', hhdr', hslot⟩ := isObj_of_base hbase
    rw [hhdr] at hhdr'
    cases hhdr'
    exact hslot
  have hnot : x ∉ m.marks.marked := hunmarked
  have htarget : x ∈ heap.targets [current] := ⟨current, List.mem_singleton.mpr rfl, hbase⟩
  have hset := Marks.marked_set m.marks x
  have hmem : x ∈ (m.marks.set x).marked := hset ▸ Set.mem_insert x _
  -- first the mark bit, then the push of an object that is now marked
  have hpush : Pushed heap (heap.targets [current]) {x} { m with marks := m.marks.set x }
      (PUSH_OBJ x hdr { m with marks := m.marks.set x }) :=
    PUSH_OBJ_pushed hhdr hslot hmem rfl
  have hmarks : (PUSH_OBJ x hdr { m with marks := m.marks.set x }).marks.marked =
      insert x m.marks.marked := by
    rw [PUSH_OBJ_marks]
    exact hset
  have hnew : ∀ y, y ∈ (PUSH_OBJ x hdr { m with marks := m.marks.set x }).marks.marked →
      y ∈ m.marks.marked ∨ y = x := by
    intro y hy
    rw [hmarks] at hy
    exact hy.symm
  refine ⟨?_, ?_, ?_, hpush.scan_ptr_eq, hpush.flag_eq, hpush.limit_eq, hpush.small_eq, ?_⟩
  · rw [hmarks]
    exact Set.subset_insert x _
  · intro y hy
    rcases hnew y hy with hold | rfl
    · exact .inl hold
    · exact .inr htarget
  · intro e he
    rcases hpush.stack_mem e he with he | ⟨hent, hm, hor⟩
    · exact .inl he
    · refine .inr ⟨hent, hm, .inl ?_⟩
      rcases hor with hnotm | hex
      · intro habs
        exact hnotm (hset ▸ Set.mem_insert_of_mem x habs)
      · rw [Set.mem_singleton_iff.mp hex]
        exact hnot
  · rcases hpush.covers with hinv | ⟨hst, hsub, -⟩
    · exact .inl hinv
    · refine .inr ⟨hst, hsub, fun y hy hnoty => ?_⟩
      obtain rfl := (hnew y hy).resolve_left hnoty
      by_cases hdescr : hdr.hb_descr = 0
      · exact .inr fun z => Heap.not_edge hhdr hdescr
      · exact .inl (PUSH_OBJ_waiting hdescr)

theorem PUSH_CONTENTS_marks {current : Nat} {x : Obj} (hbase : heap.base current = some x) :
    x ∈ (PUSH_CONTENTS heap m current).marks.marked := by
  unfold PUSH_CONTENTS
  rw [hbase]
  obtain ⟨hdr, hhdr, -⟩ := isObj_of_base hbase
  by_cases hm : m.marks x = true
  · simp only [hm, if_true]
    exact hm
  · simp only [hm, hhdr]
    show (PUSH_OBJ x hdr { m with marks := m.marks.set x }).marks x = true
    simp [Marks.set]

theorem pushAll_pushed (heap : Heap) (P : Set Obj) (addrs : List Nat) (m : Marker) :
    Pushed heap (heap.targets addrs) P m (pushAll heap addrs m) := by
  refine Pushed.foldl (fun _ => True) (fun _ _ _ _ => trivial) (fun addr haddr m _ => ?_) trivial
  refine (PUSH_CONTENTS_pushed heap P addr m).weaken ?_ Set.Subset.rfl
  rintro x ⟨a, ha, hx⟩
  exact ⟨a, List.mem_singleton.mp ha ▸ haddr, hx⟩

/-- All that the addresses point into is marked afterwards. -/
theorem pushAll_marks (heap : Heap) (addrs : List Nat) (m : Marker) :
    heap.targets addrs ⊆ (pushAll heap addrs m).marks.marked := by
  induction addrs generalizing m with
  | nil =>
      rintro x ⟨a, ha, -⟩
      exact absurd ha List.not_mem_nil
  | cons addr addrs ih =>
      intro x hx
      show x ∈ (pushAll heap addrs (PUSH_CONTENTS heap m addr)).marks.marked
      rcases Heap.mem_targets_cons.mp hx with hbase | hx
      · exact (pushAll_pushed heap ∅ addrs _).mono (PUSH_CONTENTS_marks hbase)
      · exact ih _ hx

end Ironclad.Gc
