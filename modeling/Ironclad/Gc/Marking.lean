import Ironclad.Gc.PushBlocks

/-!
# What the mark phase marks

The invariant of `GC_mark_some`: in each state some part of the marked objects, its
`region`, waits on the mark stack or is expanded. After an overflow nothing is known, and
the walk over the blocks builds the region up again. When the phase ends all that is
traced from the roots is marked, without an overflow exactly that and what was marked at
the start.
-/

namespace Ironclad.Gc

open Logic

/-- The objects in the blocks with `p` that a walk has passed. -/
def Heap.walked (heap : Heap) (p : Hdr → Bool) (n : Nat) : Set Obj :=
  {x | x ∈ heap.inBlocks p ∧ x.page < n}

def isUncollectable (hdr : Hdr) : Bool := hdr.hb_obj_kind == UNCOLLECTABLE

theorem Heap.mem_followed {heap : Heap} {marks₀ : Set Obj} {x : Obj} :
    x ∈ heap.followed marks₀ ↔ x ∉ marks₀ ∨ x ∈ heap.inBlocks isUncollectable := by
  simp [Heap.followed, Heap.Uncollectable, Heap.inBlocks, isUncollectable]

/-- The marked objects that wait or are expanded, in each state of the marker. -/
def Marker.region (heap : Heap) (marks₀ : Set Obj) (m : Marker) : Set Obj :=
  match m.GC_mark_state with
  | .MS_NONE | .MS_ROOTS_PUSHED => heap.followed marks₀
  | .MS_PUSH_UNCOLLECTABLE => {x | x ∉ marks₀} ∪ heap.walked isUncollectable m.scan_ptr
  | .MS_PARTIALLY_INVALID => heap.walked (fun _ => true) m.scan_ptr
  | .MS_INVALID => ∅

/-- The mark phase has begun anew from the marks `marks₀`. -/
def Marker.Fresh (marks₀ : Set Obj) (m : Marker) : Prop :=
  m.marks.marked = marks₀ ∧ m.GC_mark_stack = [] ∧ m.scan_ptr = 0

structure MarkInv (heap : Heap) (R : Obj → Obj → Prop) (marks₀ : Set Obj) (m : Marker) : Prop where
  kept : marks₀ ⊆ m.marks.marked
  entries : ∀ e ∈ m.GC_mark_stack, heap.IsEntry e
  seen : ∀ x y, R x y → ¬heap.AtLimit m.GC_mark_stack_limit x
  covered : Covered R (m.region heap marks₀) m.marks.marked m.waiting
  roots : m.GC_mark_state = .MS_ROOTS_PUSHED ∨ m.GC_mark_state = .MS_NONE →
    heap.targets heap.roots ⊆ m.marks.marked
  fresh : m.GC_mark_state = .MS_INVALID → m.GC_objects_are_marked = false → m.Fresh marks₀
  flag : m.GC_mark_state = .MS_PARTIALLY_INVALID → m.GC_objects_are_marked = true
  done : m.GC_mark_state = .MS_NONE → m.GC_mark_stack = []

/-- The accelerators see all edges of `R`. -/
def Heap.Robust (heap : Heap) (R : Obj → Obj → Prop) : Prop :=
  ∀ x y hdr, R x y → heap.HDR x.page = some hdr → hdr.Accelerated →
    y ∈ heap.targets (heap.contents x).words

/-- If the mark stack grows here, the objects that `R` leaves are not passed over. -/
def Heap.Clear (heap : Heap) (R : Obj → Obj → Prop) (c : Choice) : Prop :=
  ∀ limit, c.grow = some limit → ∀ x y, R x y → ¬heap.AtLimit limit x

/-- The mark stack has not overflowed since the mark phase began. -/
structure Marker.Intact (m : Marker) : Prop where
  large_enough : m.GC_mark_stack_too_small = false
  unmarked : m.GC_mark_state = .MS_INVALID ∨ m.GC_mark_state = .MS_PARTIALLY_INVALID →
    m.GC_objects_are_marked = false

section

variable {heap : Heap} {R : Obj → Obj → Prop} {marks₀ A T P : Set Obj} {m m₁ : Marker}

theorem covered_empty {marked : Set Obj} {stack : List Obj} : Covered R ∅ marked stack :=
  fun _ _ hx => absurd hx (Set.notMem_empty _)

/-- Pushing keeps what is covered. -/
theorem Pushed.covered (h : Pushed heap T P m m₁) (hR : ∀ x y, R x y → heap.edge x y)
    (hcov : Covered R A m.marks.marked m.waiting) (hinv : m₁.GC_mark_state ≠ .MS_INVALID) :
    Covered R A m₁.marks.marked m₁.waiting := by
  refine hcov.grow h.mono (h.waiting_mono hinv) fun x hx hnot => ?_
  rcases h.covers with habs | ⟨-, -, hnew⟩
  · exact absurd habs hinv
  · rcases hnew x hx hnot with hw | hno
    · exact .inl hw
    · exact .inr fun y hxy => absurd (hR x y hxy) (hno y)

theorem Pushed.entries (h : Pushed heap T P m m₁) (hm : ∀ e ∈ m.GC_mark_stack, heap.IsEntry e) :
    ∀ e ∈ m₁.GC_mark_stack, heap.IsEntry e := by
  intro e he
  rcases h.stack_mem e he with he | ⟨hent, -⟩
  · exact hm e he
  · exact hent

/-! ## `GC_mark_from` -/

/-- One iteration: the top entry is popped and what it refers to is pushed. -/
def markEntry (heap : Heap) (e : Mse) (rest : List Mse) (m : Marker) : Marker :=
  pushAll heap (scanEntry heap m.GC_mark_stack_limit e)
    { m with GC_mark_stack := rest, GC_objects_are_marked := true }

theorem markEntry_pushed (heap : Heap) (e : Mse) (rest : List Mse) (m : Marker) :
    Pushed heap (heap.targets (scanEntry heap m.GC_mark_stack_limit e)) ∅
      { m with GC_mark_stack := rest, GC_objects_are_marked := true } (markEntry heap e rest m) :=
  pushAll_pushed heap ∅ _ _

/-- The popped object is expanded. -/
theorem markEntry_expanded {e : Mse} (he : heap.IsEntry e) (hR : ∀ x y, R x y → heap.edge x y)
    (hseen : ∀ x y, R x y → ¬heap.AtLimit m.GC_mark_stack_limit x) (rest : List Mse) :
    Expanded R (markEntry heap e rest m).marks.marked e.mse_start := by
  obtain ⟨hdr, ⟨hhdr, -⟩, hdescr⟩ := he
  intro y hy
  refine pushAll_marks heap _ _ ?_
  have hnot : ¬(dsTag e.mse_descr = GC_DS_PRECISE ∧
      heap.addrOf e.mse_start = m.GC_mark_stack_limit) := by
    rintro ⟨htag, haddr⟩
    exact hseen _ y hy ⟨hdr, hhdr, hdescr ▸ htag, haddr⟩
  rw [scanEntry, if_neg hnot, hdescr]
  exact Heap.scan_of_edge hhdr (hR _ y hy)

theorem markEntry_inv {e : Mse} {rest : List Mse} (hR : ∀ x y, R x y → heap.edge x y)
    (hm : MarkInv heap R marks₀ m) (hstack : m.GC_mark_stack = e :: rest) :
    MarkInv heap R marks₀ (markEntry heap e rest m) := by
  have hpush := markEntry_pushed heap e rest m
  have hwait : m.waiting = e.mse_start :: rest.map Mse.mse_start := by
    rw [Marker.waiting, hstack, List.map_cons]
  have hentries : ∀ e' ∈ rest, heap.IsEntry e' :=
    fun e' he' => hm.entries e' (hstack ▸ List.mem_cons_of_mem e he')
  have hflag : (markEntry heap e rest m).GC_objects_are_marked = true := hpush.flag_eq
  have hstate : (markEntry heap e rest m).GC_mark_state ≠ .MS_INVALID →
      (markEntry heap e rest m).GC_mark_state = m.GC_mark_state := fun h => hpush.state_eq h
  have hlimit : (markEntry heap e rest m).GC_mark_stack_limit = m.GC_mark_stack_limit :=
    hpush.limit_eq
  refine ⟨hm.kept.trans hpush.mono, hpush.entries hentries, hlimit ▸ hm.seen, ?_, ?_, ?_,
    fun _ => hflag, ?_⟩
  · by_cases hinv : (markEntry heap e rest m).GC_mark_state = .MS_INVALID
    · rw [Marker.region, hinv]
      exact covered_empty
    have hregion : (markEntry heap e rest m).region heap marks₀ = m.region heap marks₀ := by
      rw [Marker.region, Marker.region, hstate hinv, hpush.scan_ptr_eq]
    rw [hregion]
    -- the popped object may have been counted as waiting; it is expanded now
    have hcov := hm.covered
    rw [hwait] at hcov
    refine Covered.pop (hcov.grow hpush.mono ?_ ?_)
      (markEntry_expanded (hm.entries e (hstack ▸ List.mem_cons_self)) hR hm.seen rest)
    · exact List.cons_subset_cons _ (hpush.waiting_mono hinv)
    · intro x hx hnot
      rcases hpush.covers with habs | ⟨-, -, hnew⟩
      · exact absurd habs hinv
      · rcases hnew x hx hnot with hw | hno
        · exact .inl (List.mem_cons_of_mem _ hw)
        · exact .inr fun y hxy => absurd (hR x y hxy) (hno y)
  · intro hst
    have hinv : (markEntry heap e rest m).GC_mark_state ≠ .MS_INVALID := by
      rcases hst with hst | hst <;> simp [hst]
    rw [hstate hinv] at hst
    exact (hm.roots hst).trans hpush.mono
  · intro _ hno
    rw [hflag] at hno
    cases hno
  · intro hst
    have hm' := hstate (by simp [hst])
    have hnil := hm.done (hm'.symm.trans hst)
    rw [hstack] at hnil
    cases hnil

theorem GC_mark_from_nil {n : Nat} (hstack : m.GC_mark_stack = []) :
    GC_mark_from heap n m = m := by
  cases n with
  | zero => rfl
  | succ n => rw [GC_mark_from, hstack]

theorem GC_mark_from_cons {n : Nat} {e : Mse} {rest : List Mse}
    (hstack : m.GC_mark_stack = e :: rest) :
    GC_mark_from heap (n + 1) m = GC_mark_from heap n (markEntry heap e rest m) := by
  rw [GC_mark_from, hstack]
  rfl

/-- What every iteration keeps, `GC_mark_from` keeps. -/
theorem GC_mark_from_induction {I : Marker → Prop}
    (hstep : ∀ e rest m, m.GC_mark_stack = e :: rest → I m → I (markEntry heap e rest m))
    (n : Nat) (hm : I m) : I (GC_mark_from heap n m) := by
  induction n generalizing m with
  | zero => exact hm
  | succ n ih =>
      cases hstack : m.GC_mark_stack with
      | nil =>
          rw [GC_mark_from_nil hstack]
          exact hm
      | cons e rest =>
          rw [GC_mark_from_cons hstack]
          exact ih (hstep e rest m hstack hm)

theorem GC_mark_from_inv (hR : ∀ x y, R x y → heap.edge x y) (n : Nat)
    (hm : MarkInv heap R marks₀ m) : MarkInv heap R marks₀ (GC_mark_from heap n m) :=
  GC_mark_from_induction (fun _ _ _ hstack hm => markEntry_inv hR hm hstack) n hm

/-! ## The walks over the blocks -/

/-- What one step of a walk covers. -/
theorem walk_covered (wf : heap.WF) {p : Hdr → Bool} (hR : ∀ x y, R x y → heap.edge x y)
    (hacc : ∀ x y hdr, R x y → heap.HDR x.page = some hdr → p hdr = true → hdr.Accelerated →
      y ∈ heap.targets (heap.contents x).words)
    (hcov : Covered R (A ∪ heap.walked p m.scan_ptr) m.marks.marked m.waiting)
    (hm₁ : pushBlock heap (nextBlock heap p m.scan_ptr) m = m₁)
    (hinv : m₁.GC_mark_state ≠ .MS_INVALID) :
    (m₁.scan_ptr = 0 → Covered R (A ∪ heap.inBlocks p) m₁.marks.marked m₁.waiting) ∧
      (m₁.scan_ptr ≠ 0 →
        Covered R (A ∪ heap.walked p m₁.scan_ptr) m₁.marks.marked m₁.waiting) := by
  subst hm₁
  rcases pushBlock_cases wf p m with ⟨heq, hall⟩ | ⟨h, hdr, hhdr, hp, hpos, heq, hnext⟩
  · rw [heq]
    refine ⟨fun _ => ?_, fun hno => absurd rfl hno⟩
    refine hcov.subset (Set.union_subset_union_right A fun x hx => ?_)
    exact ⟨hx, hall x hx⟩
  · rw [heq] at hinv ⊢
    refine ⟨fun h0 => absurd h0 (by simpa using hpos.ne'), fun _ => ?_⟩
    show Covered R (A ∪ heap.walked p (h + OBJ_SZ_TO_BLOCKS hdr.hb_sz))
      (GC_push_marked heap h hdr m).marks.marked (GC_push_marked heap h hdr m).waiting
    -- what was covered stays covered
    have hold : Covered R (A ∪ heap.walked p m.scan_ptr) (GC_push_marked heap h hdr m).marks.marked
        (GC_push_marked heap h hdr m).waiting := by
      have hclosed : heap.ClosedAt Set.univ h := fun _ _ _ _ _ => Set.mem_univ _
      rcases GC_push_marked_pushed (m := m) hhdr hclosed (Set.subset_univ _) with hm | hpush
      · rw [hm]
        exact hcov
      · exact hpush.covered hR hcov hinv
    intro x hx hmem
    rcases hmem with hA | ⟨hblk, hlt⟩
    · exact hold x hx (.inl hA)
    rcases hnext x hblk hlt with hbefore | hpage
    · exact hold x hx (.inr ⟨hblk, hbefore⟩)
    · refine GC_push_marked_covers hhdr (fun y z hy hyz => ⟨hR y z hyz, ?_⟩) hinv hx hpage
      intro hac
      exact hacc y z hdr hyz (hy ▸ hhdr) hp hac

/-- What a step of a walk leaves alone. -/
theorem walk_frame (wf : heap.WF) {p : Hdr → Bool}
    (hm₁ : pushBlock heap (nextBlock heap p m.scan_ptr) m = m₁)
    (hentries : ∀ e ∈ m.GC_mark_stack, heap.IsEntry e) :
    m.marks.marked ⊆ m₁.marks.marked ∧ (∀ e ∈ m₁.GC_mark_stack, heap.IsEntry e) ∧
      (m.GC_objects_are_marked = true → m₁.GC_objects_are_marked = true) ∧
      (m₁.GC_mark_state = m.GC_mark_state ∧
          m₁.GC_mark_stack_too_small = m.GC_mark_stack_too_small ∨
        m₁.GC_mark_state = .MS_INVALID ∧ m₁.GC_objects_are_marked = true) ∧
      m₁.GC_mark_stack_limit = m.GC_mark_stack_limit := by
  subst hm₁
  rcases pushBlock_cases wf p m with ⟨heq, -⟩ | ⟨h, hdr, hhdr, -, -, heq, -⟩
  · rw [heq]
    exact ⟨Set.Subset.rfl, hentries, fun hf => hf, .inl ⟨rfl, rfl⟩, rfl⟩
  · rw [heq]
    show m.marks.marked ⊆ (GC_push_marked heap h hdr m).marks.marked ∧
      (∀ e ∈ (GC_push_marked heap h hdr m).GC_mark_stack, heap.IsEntry e) ∧
      (m.GC_objects_are_marked = true →
        (GC_push_marked heap h hdr m).GC_objects_are_marked = true) ∧
      ((GC_push_marked heap h hdr m).GC_mark_state = m.GC_mark_state ∧
          (GC_push_marked heap h hdr m).GC_mark_stack_too_small = m.GC_mark_stack_too_small ∨
        (GC_push_marked heap h hdr m).GC_mark_state = .MS_INVALID ∧
          (GC_push_marked heap h hdr m).GC_objects_are_marked = true) ∧
      (GC_push_marked heap h hdr m).GC_mark_stack_limit = m.GC_mark_stack_limit
    have hclosed : heap.ClosedAt Set.univ h := fun _ _ _ _ _ => Set.mem_univ _
    rcases GC_push_marked_pushed (m := m) hhdr hclosed (Set.subset_univ _) with hm | hpush
    · rw [hm]
      exact ⟨Set.Subset.rfl, hentries, fun hf => hf, .inl ⟨rfl, rfl⟩, rfl⟩
    · refine ⟨hpush.mono, hpush.entries hentries, fun _ => hpush.flag_eq, ?_, hpush.limit_eq⟩
      rcases hpush.covers with hinv | ⟨hst, -⟩
      · exact .inr ⟨hinv, hpush.flag_eq⟩
      rcases hpush.small_eq with hinv | hsmall
      · exact .inr ⟨hinv, hpush.flag_eq⟩
      · exact .inl ⟨hst, hsmall⟩

/-! ## `GC_mark_some` -/

/-- Pushing the roots completes the region, unless the mark stack overflows. -/
theorem pushRoots_inv (hR : ∀ x y, R x y → heap.edge x y) (hkept : marks₀ ⊆ m.marks.marked)
    (hentries : ∀ e ∈ m.GC_mark_stack, heap.IsEntry e)
    (hseen : ∀ x y, R x y → ¬heap.AtLimit m.GC_mark_stack_limit x)
    (hcov : m.GC_mark_state ≠ .MS_INVALID →
      Covered R (heap.followed marks₀) m.marks.marked m.waiting) :
    MarkInv heap R marks₀ (pushRoots heap m) := by
  have hpush := pushAll_pushed heap ∅ heap.roots m
  have hroots := pushAll_marks heap heap.roots m
  have hseen' : ∀ x y, R x y →
      ¬heap.AtLimit (pushAll heap heap.roots m).GC_mark_stack_limit x := by
    rw [hpush.limit_eq]
    exact hseen
  unfold pushRoots
  simp only
  split
  · rename_i hinv
    refine ⟨hkept.trans hpush.mono, hpush.entries hentries, hseen', ?_, fun _ => hroots, ?_, ?_, ?_⟩
    · refine hpush.covered hR (hcov ?_) hinv
      rw [← hpush.state_eq hinv]
      exact hinv
    all_goals
      intro hst
      cases hst
  · rename_i hinv
    rw [not_not] at hinv
    refine ⟨hkept.trans hpush.mono, hpush.entries hentries, hseen', ?_, fun _ => hroots, ?_,
      fun _ => rfl, ?_⟩
    · show Covered R (Marker.region heap marks₀ { pushAll heap heap.roots m with
        GC_objects_are_marked := true }) _ _
      rw [Marker.region]
      simp only [hinv]
      exact covered_empty
    · intro _ hno
      cases hno
    · intro hst
      have : (pushAll heap heap.roots m).GC_mark_state = .MS_NONE := hst
      rw [hinv] at this
      cases this

/-- The walk over the uncollectable blocks, while there are more. -/
theorem pushUncollectable_inv (wf : heap.WF) (hR : ∀ x y, R x y → heap.edge x y)
    (hm : MarkInv heap R marks₀ m) (hst : m.GC_mark_state = .MS_PUSH_UNCOLLECTABLE)
    (hm₁ : GC_push_next_marked_uncollectable heap m = m₁) :
    MarkInv heap R marks₀ (if m₁.scan_ptr = 0 then pushRoots heap m₁ else m₁) := by
  obtain ⟨hmono, hentries, -, hstate, hlimit⟩ := walk_frame wf hm₁ hm.entries
  have hseen : ∀ x y, R x y → ¬heap.AtLimit m₁.GC_mark_stack_limit x := hlimit ▸ hm.seen
  -- the objects of uncollectable blocks are scanned by their words anyway
  have hacc : ∀ x y hdr, R x y → heap.HDR x.page = some hdr → isUncollectable hdr = true →
      hdr.Accelerated → y ∈ heap.targets (heap.contents x).words := by
    intro x y hdr hxy hhdr hunc _
    have hscan := Heap.scan_of_edge hhdr (hR x y hxy)
    have htag := wf.uncollectable_descr x.page hdr hhdr (beq_iff_eq.mp hunc)
    rw [Heap.scan, if_neg htag] at hscan
    exact hscan
  have hcov : Covered R ({x | x ∉ marks₀} ∪ heap.walked isUncollectable m.scan_ptr)
      m.marks.marked m.waiting := by
    have := hm.covered
    rw [Marker.region, hst] at this
    exact this
  have hwalk := walk_covered (A := {x | x ∉ marks₀}) wf hR hacc hcov hm₁
  have hfollowed : {x | x ∉ marks₀} ∪ heap.inBlocks isUncollectable = heap.followed marks₀ := by
    ext x
    exact Heap.mem_followed.symm
  split
  · rename_i hend
    refine pushRoots_inv hR (hm.kept.trans hmono) hentries hseen fun hinv => ?_
    rw [← hfollowed]
    exact (hwalk hinv).1 hend
  · rename_i hmore
    rcases hstate with ⟨heq, -⟩ | ⟨hinv, hflag⟩
    · rw [hst] at heq
      refine ⟨hm.kept.trans hmono, hentries, hseen, ?_, ?_, ?_, ?_, ?_⟩
      · rw [Marker.region, heq]
        exact (hwalk (by simp [heq])).2 hmore
      all_goals simp [heq]
    · refine ⟨hm.kept.trans hmono, hentries, hseen, ?_, ?_, ?_, ?_, ?_⟩
      · rw [Marker.region, hinv]
        exact covered_empty
      all_goals simp [hinv, hflag]

/-- The walk over all blocks after an overflow. -/
theorem pushNext_inv (wf : heap.WF) (hR : ∀ x y, R x y → heap.edge x y) (hrob : heap.Robust R)
    (hm : MarkInv heap R marks₀ m)
    (hst : m.GC_mark_state = .MS_INVALID ∨ m.GC_mark_state = .MS_PARTIALLY_INVALID)
    (hflag : m.GC_objects_are_marked = true) (hm₁ : GC_push_next_marked heap m = m₁) :
    MarkInv heap R marks₀
      (if m₁.scan_ptr = 0 ∧ m₁.GC_mark_state = .MS_PARTIALLY_INVALID then pushRoots heap m₁
        else m₁) := by
  obtain ⟨hmono, hentries, hflag', hstate, hlimit⟩ := walk_frame wf hm₁ hm.entries
  have hseen : ∀ x y, R x y → ¬heap.AtLimit m₁.GC_mark_stack_limit x := hlimit ▸ hm.seen
  have hwalk := fun hcov => walk_covered (A := ∅) wf hR
    (fun x y hdr hxy hhdr _ hacc => hrob x y hdr hxy hhdr hacc) hcov hm₁
  have hpart : m₁.GC_mark_state = .MS_PARTIALLY_INVALID →
      Covered R (∅ ∪ heap.walked (fun _ => true) m.scan_ptr) m.marks.marked m.waiting := by
    intro hp
    have hmp : m.GC_mark_state = .MS_PARTIALLY_INVALID := by
      rcases hstate with ⟨heq, -⟩ | ⟨hinv, -⟩
      · exact heq ▸ hp
      · rw [hinv] at hp
        cases hp
    have := hm.covered
    rw [Marker.region, hmp] at this
    rw [Set.empty_union]
    exact this
  split
  · rename_i hend
    refine pushRoots_inv hR (hm.kept.trans hmono) hentries hseen fun hinv => ?_
    have hcov := (hwalk (hpart hend.2) hinv).1 hend.1
    -- every object with an edge lies in some block
    intro x hx _
    by_cases hblk : ∃ hdr, heap.HDR x.page = some hdr
    · obtain ⟨hdr, hhdr⟩ := hblk
      exact hcov x hx (.inr ⟨hdr, hhdr, rfl⟩)
    · refine .inr fun y hxy => ?_
      obtain ⟨hdr, ⟨hhdr, -⟩, -⟩ := hR x y hxy
      exact absurd ⟨hdr, hhdr⟩ hblk
  · rename_i hmore
    have hst₁ : m₁.GC_mark_state = .MS_INVALID ∨ m₁.GC_mark_state = .MS_PARTIALLY_INVALID := by
      rcases hstate with ⟨heq, -⟩ | ⟨hinv, -⟩
      · exact heq ▸ hst
      · exact .inl hinv
    refine ⟨hm.kept.trans hmono, hentries, hseen, ?_, ?_, ?_, fun _ => hflag' hflag, ?_⟩
    · rcases hst₁ with hinv | hp
      · rw [Marker.region, hinv]
        exact covered_empty
      · have hcov := (hwalk (hpart hp) (by simp [hp])).2 fun h0 => hmore ⟨h0, hp⟩
        rw [Set.empty_union] at hcov
        rw [Marker.region, hp]
        exact hcov
    · rintro (h | h) <;> rcases hst₁ with h' | h' <;> simp [h'] at h
    · intro _ hno
      rw [hflag' hflag] at hno
      cases hno
    · intro h
      rcases hst₁ with h' | h' <;> simp [h'] at h

/-- A larger mark stack lies elsewhere, but nothing else changes. -/
theorem growMarkStack_frame (c : Choice) (m : Marker) (hnil : m.GC_mark_stack = []) :
    (growMarkStack c m).marks = m.marks ∧ (growMarkStack c m).GC_mark_stack = [] ∧
      (growMarkStack c m).GC_mark_state = m.GC_mark_state ∧
      (growMarkStack c m).GC_objects_are_marked = m.GC_objects_are_marked ∧
      (growMarkStack c m).scan_ptr = m.scan_ptr := by
  unfold growMarkStack
  split
  · exact ⟨rfl, rfl, rfl, rfl, rfl⟩
  · exact ⟨rfl, hnil, rfl, rfl, rfl⟩

/-- Nothing that `R` leaves is passed over because the mark stack has grown. -/
theorem growMarkStack_seen {c : Choice}
    (hseen : ∀ x y, R x y → ¬heap.AtLimit m.GC_mark_stack_limit x)
    (hclear : heap.Clear R c ∨ m.GC_mark_stack_too_small = false) :
    ∀ x y, R x y → ¬heap.AtLimit (growMarkStack c m).GC_mark_stack_limit x := by
  unfold growMarkStack
  split
  · rename_i hsmall
    have hclear : heap.Clear R c := hclear.resolve_right (by simp [hsmall])
    show ∀ x y, R x y → ¬heap.AtLimit (c.grow.getD m.GC_mark_stack_limit) x
    cases hgrow : c.grow with
    | none => exact hseen
    | some limit => exact hclear limit hgrow
  · exact hseen

/-- About to begin the walk over all blocks. -/
theorem startWalk_inv (hm : MarkInv heap R marks₀ m) {c : Choice} (hclear : heap.Clear R c)
    (hnil : m.GC_mark_stack = []) (hflag : m.GC_objects_are_marked = true)
    (hscan : m.scan_ptr = 0) :
    MarkInv heap R marks₀ { growMarkStack c m with GC_mark_state := .MS_PARTIALLY_INVALID } := by
  obtain ⟨hmarks, hstack, -, hflag', hscan'⟩ := growMarkStack_frame c m hnil
  refine ⟨?_, ?_, growMarkStack_seen hm.seen (.inl hclear), ?_, ?_, ?_,
    fun _ => hflag'.trans hflag, ?_⟩
  · show marks₀ ⊆ (growMarkStack c m).marks.marked
    rw [hmarks]
    exact hm.kept
  · show ∀ e ∈ (growMarkStack c m).GC_mark_stack, heap.IsEntry e
    rw [hstack]
    intro e he
    cases he
  · intro x _ hwalked
    have hlt : x.page < (growMarkStack c m).scan_ptr := hwalked.2
    rw [hscan', hscan] at hlt
    exact absurd hlt (Nat.not_lt_zero _)
  · rintro (h | h) <;> cases h
  · intro h
    cases h
  · intro h
    cases h

/-- **Every call of `GC_mark_some` keeps the invariant.** After an overflow the edges in
question have to be such that the accelerators see them, wherever the mark stack is. -/
theorem GC_mark_some_inv (wf : heap.WF) (hR : ∀ x y, R x y → heap.edge x y)
    (hm : MarkInv heap R marks₀ m) {c : Choice}
    (hsafe : heap.Robust R ∧ heap.Clear R c ∨ m.Intact) :
    MarkInv heap R marks₀ (GC_mark_some heap c m).1 := by
  cases hst : m.GC_mark_state with
  | MS_NONE =>
      simp only [GC_mark_some, hst]
      exact hm
  | MS_PUSH_UNCOLLECTABLE =>
      simp only [GC_mark_some, hst]
      split
      · exact GC_mark_from_inv hR _ hm
      · exact pushUncollectable_inv wf hR hm hst rfl
  | MS_ROOTS_PUSHED =>
      simp only [GC_mark_some, hst]
      split
      · exact GC_mark_from_inv hR _ hm
      · rename_i hnil
        rw [not_not] at hnil
        obtain ⟨hmarks, hstack, hstate, -, -⟩ :=
          growMarkStack_frame c { m with GC_mark_state := .MS_NONE } hnil
        have hcov := hm.covered
        rw [Marker.region, hst] at hcov
        have hseen := growMarkStack_seen (m := { m with GC_mark_state := .MS_NONE }) hm.seen
          (hsafe.imp And.right fun hint => hint.large_enough)
        refine ⟨?_, ?_, hseen, ?_, ?_, ?_, ?_, fun _ => hstack⟩
        · rw [hmarks]
          exact hm.kept
        · rw [hstack]
          intro e he
          cases he
        · rw [Marker.region, hstate, hmarks, Marker.waiting, hstack]
          rw [Marker.waiting, hnil] at hcov
          exact hcov
        · intro _
          rw [hmarks]
          exact hm.roots (.inl hst)
        all_goals
          intro h
          rw [hstate] at h
          cases h
  | MS_PARTIALLY_INVALID =>
      have hflag := hm.flag hst
      have hrob : heap.Robust R := by
        rcases hsafe with ⟨hrob, -⟩ | hint
        · exact hrob
        · rw [hint.unmarked (.inr hst)] at hflag
          cases hflag
      simp only [GC_mark_some, hst, hflag]
      split
      · rename_i hno
        exact absurd trivial hno
      split
      · exact GC_mark_from_inv hR _ hm
      · simp only [reduceCtorEq, and_false, if_false]
        exact pushNext_inv wf hR hrob hm (.inr hst) hflag rfl
  | MS_INVALID =>
      simp only [GC_mark_some, hst]
      split
      · -- nothing has been marked yet: the first walk begins
        rename_i hno
        obtain ⟨hmarks, hstack, hscan⟩ := hm.fresh hst (by simpa using hno)
        refine ⟨hm.kept, hm.entries, hm.seen, ?_, ?_, ?_, ?_, ?_⟩
        · intro x hx hreg
          rcases hreg with hnot | hwalked
          · have hx' : x ∈ m.marks.marked := hx
            rw [hmarks] at hx'
            exact absurd hx' hnot
          · have hlt : x.page < m.scan_ptr := hwalked.2
            rw [hscan] at hlt
            exact absurd hlt (Nat.not_lt_zero _)
        · rintro (h | h) <;> cases h
        all_goals
          intro h
          cases h
      rename_i hflag
      have hflag : m.GC_objects_are_marked = true := by simpa using hflag
      obtain ⟨hrob, hclear⟩ : heap.Robust R ∧ heap.Clear R c := by
        rcases hsafe with hsafe | hint
        · exact hsafe
        · rw [hint.unmarked (.inl hst)] at hflag
          cases hflag
      split
      · exact GC_mark_from_inv hR _ hm
      rename_i hnil
      rw [not_not] at hnil
      by_cases hscan : m.scan_ptr = 0
      · simp only [hscan, and_self, if_true]
        exact pushNext_inv wf hR hrob (startWalk_inv hm hclear hnil hflag hscan) (.inr rfl)
          ((growMarkStack_frame c m hnil).2.2.2.1.trans hflag) rfl
      · simp only [hscan, false_and, if_false]
        exact pushNext_inv wf hR hrob hm (.inl hst) hflag rfl

/-! ## No overflow so far -/

theorem GC_mark_from_state (heap : Heap) (n : Nat) (m : Marker) :
    (GC_mark_from heap n m).GC_mark_state = m.GC_mark_state ∧
        (GC_mark_from heap n m).GC_mark_stack_too_small = m.GC_mark_stack_too_small ∨
      (GC_mark_from heap n m).GC_mark_state = .MS_INVALID := by
  refine GC_mark_from_induction (m := m) (I := fun m₁ => m₁.GC_mark_state = m.GC_mark_state ∧
    m₁.GC_mark_stack_too_small = m.GC_mark_stack_too_small ∨ m₁.GC_mark_state = .MS_INVALID)
    (fun e rest m₁ _ hm₁ => ?_) n (.inl ⟨rfl, rfl⟩)
  have hpush := markEntry_pushed heap e rest m₁
  by_cases hinv : (markEntry heap e rest m₁).GC_mark_state = .MS_INVALID
  · exact .inr hinv
  · rw [hpush.state_eq hinv, hpush.too_small hinv]
    exact hm₁

theorem pushRoots_state (heap : Heap) (m : Marker) :
    (pushRoots heap m).GC_mark_state = .MS_ROOTS_PUSHED ∧ m.GC_mark_state ≠ .MS_INVALID ∧
        (pushRoots heap m).GC_mark_stack_too_small = m.GC_mark_stack_too_small ∨
      (pushRoots heap m).GC_mark_state = .MS_INVALID := by
  have hpush := pushAll_pushed heap ∅ heap.roots m
  unfold pushRoots
  simp only
  split
  · rename_i hinv
    exact .inl ⟨rfl, hpush.state_eq hinv ▸ hinv, hpush.too_small hinv⟩
  · rename_i hinv
    exact .inr (not_not.mp hinv)

/-- A call that does not end in `MS_INVALID` leaves an intact mark phase intact. -/
theorem GC_mark_some_intact (wf : heap.WF) (hm : MarkInv heap R marks₀ m) (hint : m.Intact)
    (c : Choice) (hinv : (GC_mark_some heap c m).1.GC_mark_state ≠ .MS_INVALID) :
    (GC_mark_some heap c m).1.Intact := by
  suffices hno : (GC_mark_some heap c m).1.GC_mark_state ≠ .MS_PARTIALLY_INVALID ∧
      (GC_mark_some heap c m).1.GC_mark_stack_too_small = false by
    refine ⟨hno.2, ?_⟩
    rintro (h | h)
    · exact absurd h hinv
    · exact absurd h hno.1
  have hlarge := hint.large_enough
  have hfrom : ∀ n, m.GC_mark_state ≠ .MS_PARTIALLY_INVALID →
      (GC_mark_from heap n m).GC_mark_state ≠ .MS_INVALID →
      (GC_mark_from heap n m).GC_mark_state ≠ .MS_PARTIALLY_INVALID ∧
        (GC_mark_from heap n m).GC_mark_stack_too_small = false := by
    intro n hst hne
    rcases GC_mark_from_state heap n m with ⟨h, hsmall⟩ | h
    · rw [h, hsmall]
      exact ⟨hst, hlarge⟩
    · exact absurd h hne
  cases hst : m.GC_mark_state with
  | MS_NONE =>
      simp only [GC_mark_some, hst]
      exact ⟨by simp, hlarge⟩
  | MS_ROOTS_PUSHED =>
      simp only [GC_mark_some, hst] at hinv ⊢
      split
      · rename_i hne
        rw [if_pos hne] at hinv
        exact hfrom _ (by simp [hst]) hinv
      · simp [growMarkStack, hlarge]
  | MS_PUSH_UNCOLLECTABLE =>
      simp only [GC_mark_some, hst] at hinv ⊢
      split
      · rename_i hlt
        rw [if_pos hlt] at hinv
        exact hfrom _ (by simp [hst]) hinv
      rename_i hlt
      rw [if_neg hlt] at hinv
      simp only at hinv ⊢
      obtain ⟨-, -, -, hstate, -⟩ :=
        walk_frame wf (Eq.refl (GC_push_next_marked_uncollectable heap m)) hm.entries
      split
      · rename_i hend
        rw [if_pos hend] at hinv
        rcases pushRoots_state heap (GC_push_next_marked_uncollectable heap m) with
          ⟨h, hne, hsmall⟩ | h
        · rcases hstate with ⟨-, hsame⟩ | ⟨h', -⟩
          · rw [h, hsmall, hsame]
            exact ⟨by simp, hlarge⟩
          · exact absurd h' hne
        · exact absurd h hinv
      · rename_i hmore
        rw [if_neg hmore] at hinv
        rcases hstate with ⟨h, hsmall⟩ | ⟨h, -⟩
        · rw [h, hsmall, hst]
          exact ⟨by simp, hlarge⟩
        · exact absurd h hinv
  | MS_PARTIALLY_INVALID =>
      have hflag := hint.unmarked (.inr hst)
      rw [hm.flag hst] at hflag
      cases hflag
  | MS_INVALID =>
      have hflag := hint.unmarked (.inl hst)
      simp [GC_mark_some, hst, hflag, hlarge]

/-! ## The whole phase -/

theorem GC_mark_some_true {c : Choice} (h : (GC_mark_some heap c m).2 = true) :
    (GC_mark_some heap c m).1.GC_mark_state = .MS_NONE := by
  cases hst : m.GC_mark_state with
  | MS_ROOTS_PUSHED =>
      simp only [GC_mark_some, hst] at h ⊢
      split at h
      · cases h
      · rename_i hnil
        rw [if_neg hnil]
        rw [not_not] at hnil
        exact (growMarkStack_frame c { m with GC_mark_state := .MS_NONE } hnil).2.2.1
  | _ =>
      simp only [GC_mark_some, hst] at h
      repeat' split at h
      all_goals cases h

/-- An invariant that the calls of `GC_mark_some` keep holds when the phase ends. -/
theorem markPhase_induction {I : Marker → Prop} {Q : Choice → Prop}
    (hstep : ∀ c m, I m → Q c ∨ m.Intact → I (GC_mark_some heap c m).1)
    (hintact : ∀ c m, I m → m.Intact →
      (GC_mark_some heap c m).1.GC_mark_state ≠ .MS_INVALID → (GC_mark_some heap c m).1.Intact)
    {cs : List Choice} {m m' : Marker} (hm : I m)
    (hsafe : (∀ c ∈ cs, Q c) ∨ m.Intact ∧ noOverflow heap cs m = true)
    (h : markPhase heap cs m = some m') : I m' ∧ m'.GC_mark_state = .MS_NONE := by
  induction cs generalizing m with
  | nil => cases h
  | cons c cs ih =>
      have hI := hstep c m hm (hsafe.imp (fun hQ => hQ c List.mem_cons_self) And.left)
      unfold markPhase at h
      cases hres : GC_mark_some heap c m with
      | mk m₁ b =>
          rw [hres] at h hI
          cases b with
          | true =>
              simp only at h
              split at h
              · have hnone := GC_mark_some_true (c := c) (m := m) (by rw [hres])
                rw [hres] at hnone
                cases h
                exact ⟨hI, hnone⟩
              · cases h
          | false =>
              refine ih hI ?_ h
              rcases hsafe with hsafe | ⟨hint, hno⟩
              · exact .inl fun c' hc' => hsafe c' (List.mem_cons_of_mem c hc')
              · unfold noOverflow at hno
                rw [hres, Bool.and_eq_true, decide_eq_true_eq] at hno
                have := hintact c m hm hint (by rw [hres]; exact hno.1)
                rw [hres] at this
                exact .inr ⟨this, hno.2⟩

end

end Ironclad.Gc
