import Ironclad.Gc.Allocation

/-!
# Every slot is accounted for once

A slot of a small block is with the mutator, on one free list, or waits unmarked in a
queued block. `Accounts` says that these exclude each other and that the lists belong to
kinds in the table; every step of an allocation and of a sweep keeps it.
-/

namespace Ironclad.Gc

/-- `h` waits on a reclaim list. -/
def Collector.Queued (s : Collector) (h : Nat) : Prop :=
  ∃ k rlist sz, (s.kinds k).ok_reclaim_list = some rlist ∧ h ∈ rlist sz

/-- The slot is with nobody: not given out and on no free list. -/
def Collector.Unclaimed (s : Collector) (x : Obj) : Prop :=
  s.allocated x = false ∧ ∀ a sz, x ∉ s.freelist a sz

structure Accounts (s : Collector) : Prop where
  base : Base s
  free_slot : ∀ a sz x, x ∈ s.freelist a sz → s.allocated x = false ∧
    ∃ hdr, s.heap.HDR x.page = some hdr ∧ x.slot < hdr.objs ∧ hdr.isLarge = false ∧ hdr.hb_sz = sz
  free_nodup : ∀ a sz, (s.freelist a sz).Nodup
  free_once : ∀ a b sz tz x, x ∈ s.freelist a sz → x ∈ s.freelist b tz → a = b
  free_kind : ∀ a sz, s.freelist a sz ≠ [] → ∃ k < s.GC_n_kinds,
    (s.kinds k).ok_freelist = a ∧ (s.kinds k).ok_reclaim_list.isSome = true
  queued_nodup : ∀ k rlist sz, (s.kinds k).ok_reclaim_list = some rlist → (rlist sz).Nodup
  queued_block : ∀ k rlist sz h, (s.kinds k).ok_reclaim_list = some rlist → h ∈ rlist sz →
    ∃ hdr, s.heap.HDR h = some hdr ∧ hdr.isLarge = false ∧ hdr.hb_obj_kind = k ∧ hdr.hb_sz = sz
  queued_slot : ∀ x : Obj, s.Queued x.page → s.marks x = false → s.Unclaimed x
  block_kind : ∀ h hdr, s.heap.HDR h = some hdr → hdr.hb_obj_kind < s.GC_n_kinds ∧
    (hdr.isLarge = false → (s.kinds hdr.hb_obj_kind).ok_reclaim_list.isSome = true)
  alloc_obj : ∀ x, s.allocated x = true → s.heap.IsObj x
  pinned_alloc : ∀ x ∈ s.pinned, s.allocated x = true
  used_lt : ∀ k ∈ s.used, k < s.GC_n_kinds

/-- The states differ in the contents of the heap and its roots at most. -/
structure SameBooks (s t : Collector) : Prop where
  hblks : t.heap.hblks = s.heap.hblks
  HDR : t.heap.HDR = s.heap.HDR
  marks : t.marks = s.marks
  kinds : t.kinds = s.kinds
  n_kinds : t.GC_n_kinds = s.GC_n_kinds
  freelist : t.freelist = s.freelist
  allocated : t.allocated = s.allocated
  pinned : t.pinned = s.pinned
  used : t.used = s.used

section

variable {s t : Collector} {x : Obj} {h : Nat}

theorem SameBooks.refl (s : Collector) : SameBooks s s :=
  ⟨rfl, rfl, rfl, rfl, rfl, rfl, rfl, rfl, rfl⟩

theorem SameBooks.accounts (hst : SameBooks s t) (hs : Accounts s) : Accounts t := by
  obtain ⟨⟨hblks, HDR, contents, roots⟩, marks, kinds, n, fl, arrays, size, al, pi, us⟩ := t
  obtain ⟨h1, h2, h3, h4, h5, h6, h7, h8, h9⟩ := hst
  simp only at h1 h2 h3 h4 h5 h6 h7 h8 h9
  subst h1 h2 h3 h4 h5 h6 h7 h8 h9
  exact
    { hs with
      base := SameBlocks.base (s := s) ⟨rfl, rfl, rfl, fun _ => rfl⟩ hs.base }

theorem GC_init_accounts (limit : Nat) : Accounts (GC_init limit) := by
  have hlist : ∀ k, (((GC_init limit).kinds k).ok_reclaim_list) = none := by
    intro k
    show (GC_obj_kinds k).ok_reclaim_list = none
    unfold GC_obj_kinds
    split <;> rfl
  refine ⟨GC_init_base limit, ?_, fun _ _ => List.nodup_nil, ?_, ?_, ?_, ?_, ?_, ?_, ?_, ?_, ?_⟩
  · intro a sz x hx
    cases hx
  · intro a b sz tz x hx
    cases hx
  · intro a sz hne
    exact absurd rfl hne
  · intro k rlist sz hrlist
    rw [hlist k] at hrlist
    cases hrlist
  · intro k rlist sz h hrlist
    rw [hlist k] at hrlist
    cases hrlist
  · rintro x ⟨k, rlist, sz, hrlist, -⟩
    rw [hlist k] at hrlist
    cases hrlist
  · intro h hdr hhdr
    cases hhdr
  · intro x hx
    cases hx
  · intro x hx
    cases hx
  · intro k hk
    cases hk

/-- A queued block is queued once, on the list of its kind and size. -/
theorem Accounts.queued_hdr (hs : Accounts s) (hq : s.Queued h) :
    ∃ hdr, s.heap.HDR h = some hdr ∧ hdr.isLarge = false ∧
      ∃ rlist, (s.kinds hdr.hb_obj_kind).ok_reclaim_list = some rlist ∧ h ∈ rlist hdr.hb_sz := by
  obtain ⟨k, rlist, sz, hrlist, hmem⟩ := hq
  obtain ⟨hdr, hhdr, hsmall, hk, hsz⟩ := hs.queued_block k rlist sz h hrlist hmem
  refine ⟨hdr, hhdr, hsmall, rlist, ?_, ?_⟩
  · rw [hk]
    exact hrlist
  · rw [hsz]
    exact hmem

/-! ## Marks -/

/-- More marks do no harm. -/
theorem Accounts.more_marks (hs : Accounts s) {marks : Marks}
    (hmore : ∀ x, s.marks x = true → marks x = true) : Accounts { s with marks := marks } :=
  { hs with
    base := SameBlocks.base (s := s) ⟨rfl, rfl, rfl, fun _ => rfl⟩ hs.base
    queued_slot := by
      intro x hq hmark
      refine hs.queued_slot x hq ?_
      cases hx : s.marks x with
      | false => rfl
      | true =>
          have hm : marks x = false := hmark
          rw [hmore x hx] at hm
          cases hm }

theorem GC_set_hdr_marks_mono (marks : Marks) (h : Nat) (hdr : Hdr) (x : Obj)
    (hx : marks x = true) : GC_set_hdr_marks marks h hdr x = true := by
  unfold GC_set_hdr_marks
  split
  · rfl
  · exact hx

theorem set_mono (marks : Marks) (y x : Obj) (hx : marks x = true) :
    (marks.set y) x = true := by
  unfold Marks.set
  split
  · rfl
  · exact hx

/-! ## Free lists -/

theorem mem_setFreelist {array gran : Nat} {list : List Obj} {a sz : Nat} :
    x ∈ (s.setFreelist array gran list).freelist a sz ↔
      (a = array ∧ sz = gran ∧ x ∈ list) ∨ (¬(a = array ∧ sz = gran) ∧ x ∈ s.freelist a sz) := by
  unfold Collector.setFreelist
  by_cases ha : a = array
  · subst ha
    by_cases hsz : sz = gran
    · subst hsz
      simp
    · simp [hsz, Function.update_of_ne]
  · simp [ha, Function.update_of_ne]

theorem setFreelist_freelist_self (s : Collector) (array gran : Nat) (list : List Obj) :
    (s.setFreelist array gran list).freelist array gran = list := by
  simp [Collector.setFreelist]

theorem setFreelist_freelist_ne (s : Collector) {array gran a sz : Nat} (list : List Obj)
    (hne : ¬(a = array ∧ sz = gran)) :
    (s.setFreelist array gran list).freelist a sz = s.freelist a sz := by
  unfold Collector.setFreelist
  by_cases ha : a = array
  · subst ha
    have hsz : sz ≠ gran := fun h => hne ⟨rfl, h⟩
    simp [Function.update_of_ne hsz]
  · simp [Function.update_of_ne ha]

/-- Slots that nobody has a claim on go on the free list of their kind. -/
theorem Accounts.put (hs : Accounts s) {k g : Nat} {l : List Obj} (hl : l.Nodup)
    (hkind : k < s.GC_n_kinds) (hlist : (s.kinds k).ok_reclaim_list.isSome = true)
    (hslot : ∀ x ∈ l, s.Unclaimed x ∧ ∃ hdr, s.heap.HDR x.page = some hdr ∧ x.slot < hdr.objs ∧
      hdr.isLarge = false ∧ hdr.hb_sz = g)
    (hq : ∀ x ∈ l, s.Queued x.page → s.marks x = true) :
    Accounts (s.setFreelist (s.kinds k).ok_freelist g
      (l ++ s.freelist (s.kinds k).ok_freelist g)) := by
  have hmem : ∀ {a sz x}, x ∈ (s.setFreelist (s.kinds k).ok_freelist g
      (l ++ s.freelist (s.kinds k).ok_freelist g)).freelist a sz →
      a = (s.kinds k).ok_freelist ∧ sz = g ∧ x ∈ l ∨ x ∈ s.freelist a sz := by
    intro a sz x hx
    rcases mem_setFreelist.mp hx with ⟨rfl, rfl, hx⟩ | ⟨-, hx⟩
    · rcases List.mem_append.mp hx with hx | hx
      · exact .inl ⟨rfl, rfl, hx⟩
      · exact .inr hx
    · exact .inr hx
  refine
    { hs with
      base := (setFreelist_same s _ _ _).base hs.base
      free_slot := ?_
      free_nodup := ?_
      free_once := ?_
      free_kind := ?_
      queued_slot := ?_ }
  · intro a sz x hx
    rcases hmem hx with ⟨-, rfl, hnew⟩ | hold
    · exact ⟨(hslot x hnew).1.1, (hslot x hnew).2⟩
    · exact hs.free_slot a sz x hold
  · intro a sz
    by_cases heq : a = (s.kinds k).ok_freelist ∧ sz = g
    · obtain ⟨rfl, rfl⟩ := heq
      rw [setFreelist_freelist_self]
      refine List.nodup_append.mpr ⟨hl, hs.free_nodup _ _, ?_⟩
      rintro x hx y hy rfl
      exact (hslot x hx).1.2 _ _ hy
    · rw [setFreelist_freelist_ne s _ heq]
      exact hs.free_nodup a sz
  · intro a b sz tz x hxa hxb
    rcases hmem hxa with ⟨ha, -, hnew⟩ | hold
    · rcases hmem hxb with ⟨hb, -⟩ | hold
      · exact ha.trans hb.symm
      · exact absurd hold ((hslot x hnew).1.2 b tz)
    · rcases hmem hxb with ⟨-, -, hnew⟩ | hold'
      · exact absurd hold ((hslot x hnew).1.2 a sz)
      · exact hs.free_once a b sz tz x hold hold'
  · intro a sz hne
    by_cases heq : a = (s.kinds k).ok_freelist ∧ sz = g
    · exact ⟨k, hkind, heq.1.symm, hlist⟩
    · rw [setFreelist_freelist_ne s _ heq] at hne
      exact hs.free_kind a sz hne
  · intro x hqx hmark
    obtain ⟨halloc, hfree⟩ := hs.queued_slot x hqx hmark
    refine ⟨halloc, fun a sz hx => ?_⟩
    rcases hmem hx with ⟨-, -, hx⟩ | hx
    · have hm : s.marks x = false := hmark
      rw [hq x hx hqx] at hm
      cases hm
    · exact hfree a sz hx

end

end Ironclad.Gc
