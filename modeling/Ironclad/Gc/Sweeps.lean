import Ironclad.Gc.AccountSteps

/-!
# Full collections keep the accounts

`GC_start_reclaim` empties all lists and then takes the blocks one by one. In between
nothing is on a list and what the mutator still has is marked (`Reclaiming`), so that a
block that is freed or queued is one in which nobody has a claim on the unmarked slots.
-/

namespace Ironclad.Gc

variable {s t : Collector} {x : Obj}

theorem mem_of_onFreelist {p : ObjKind → Bool} (h : onFreelist s p x = true) :
    ∃ a sz, x ∈ s.freelist a sz := by
  unfold onFreelist at h
  obtain ⟨kind, -, hkind⟩ := List.any_eq_true.mp h
  obtain ⟨sz, -, hmem⟩ := List.any_eq_true.mp (Bool.and_eq_true_iff.mp hkind).2
  exact ⟨_, sz, of_decide_eq_true hmem⟩

/-- While `GC_start_reclaim` has still to visit the blocks `l`. -/
structure Reclaiming (l : List Nat) (s : Collector) : Prop where
  accounts : Accounts s
  empty : ∀ a sz, s.freelist a sz = []
  marked : ∀ x, s.allocated x = true → s.marks x = true
  nodup : l.Nodup
  waiting : ∀ h ∈ l, ¬s.Queued h

/-- The free lists of the kinds in the table are emptied. -/
theorem resetLists_freelist (hfree : ∀ a sz, s.freelist a sz ≠ [] → ∃ k < s.GC_n_kinds,
      (s.kinds k).ok_freelist = a ∧ (s.kinds k).ok_reclaim_list.isSome = true) (a sz : Nat) :
    (resetLists s).freelist a sz = [] := by
  show (if _ then [] else s.freelist a sz) = []
  split
  · rfl
  · rename_i hno
    by_contra hne
    obtain ⟨k, hk, ha, hlist⟩ := hfree a sz hne
    refine hno (List.any_eq_true.mpr ⟨k, List.mem_range.mpr hk, ?_⟩)
    show ((s.kinds k).ok_reclaim_list.isSome && ((s.kinds k).ok_freelist == a)) = true
    rw [hlist, ha]
    simp

theorem resetLists_kinds (s : Collector) (k : Nat) :
    ((resetLists s).kinds k).ok_reclaim_list =
      if k < s.GC_n_kinds && (s.kinds k).ok_reclaim_list.isSome then some fun _ => []
      else (s.kinds k).ok_reclaim_list := by
  show (if _ then _ else _ : ObjKind).ok_reclaim_list = _
  split <;> rfl

/-- So are their reclaim lists. -/
theorem resetLists_queue (hqueued : ∀ k rlist sz h, (s.kinds k).ok_reclaim_list = some rlist →
      h ∈ rlist sz → k < s.GC_n_kinds) {k sz : Nat} {rlist : Nat → List Nat}
    (hr : ((resetLists s).kinds k).ok_reclaim_list = some rlist) : rlist sz = [] := by
  rw [resetLists_kinds s k] at hr
  split at hr
  · cases hr
    rfl
  · rename_i hno
    rw [Bool.and_eq_true, decide_eq_true_eq, hr] at hno
    by_contra hne
    obtain ⟨h, hh⟩ := List.exists_mem_of_ne_nil _ hne
    exact hno ⟨hqueued k rlist sz h hr hh, rfl⟩

/-- Only kinds in the table have anything queued. -/
theorem Accounts.queued_lt (hs : Accounts s) {k sz h : Nat} {rlist : Nat → List Nat}
    (hr : (s.kinds k).ok_reclaim_list = some rlist) (hh : h ∈ rlist sz) : k < s.GC_n_kinds := by
  obtain ⟨hdr, hhdr, -, rfl, -⟩ := hs.queued_block k rlist sz h hr hh
  exact (hs.block_kind h hdr hhdr).1

/-- The lists are empty when the blocks are about to be visited. -/
theorem resetLists_reclaiming (hs : Accounts s) (m : Marker)
    (hpinned : ∀ x ∈ s.pinned, m.marks x = true) :
    Reclaiming s.heap.hblks (resetLists (clearFlMarks (afterMark m s))) := by
  set u := resetLists (clearFlMarks (afterMark m s))
  have hempty : ∀ a sz, u.freelist a sz = [] :=
    resetLists_freelist (s := clearFlMarks (afterMark m s)) hs.free_kind
  have hqueue : ∀ k rlist sz, (u.kinds k).ok_reclaim_list = some rlist → rlist sz = [] :=
    fun k rlist sz hr => resetLists_queue (s := clearFlMarks (afterMark m s))
      (fun k rlist sz h hr hh => hs.queued_lt hr hh) hr
  have hnotq : ∀ h, ¬u.Queued h := by
    rintro h ⟨k, rlist, sz, hr, hh⟩
    rw [hqueue k rlist sz hr] at hh
    cases hh
  have halloc : ∀ x, u.allocated x = true → s.allocated x = true ∧ m.marks x = true := by
    intro x hx
    exact Bool.and_eq_true_iff.mp hx
  have hsame : SameBlocks s u :=
    SameBlocks.trans (t := clearFlMarks (afterMark m s)) ⟨rfl, rfl, rfl, fun _ => rfl⟩
      (resetLists_same _)
  refine ⟨?_, hempty, ?_, hs.base.nodup, fun h _ => hnotq h⟩
  · refine ⟨hsame.base hs.base, ?_, ?_, ?_, ?_, ?_, ?_, ?_, ?_, ?_, ?_, hs.used_lt⟩
    · intro a sz x hx
      rw [hempty a sz] at hx
      cases hx
    · intro a sz
      rw [hempty a sz]
      exact List.nodup_nil
    · intro a b sz tz x hx
      rw [hempty a sz] at hx
      cases hx
    · intro a sz hne
      exact absurd (hempty a sz) hne
    · intro k rlist sz hr
      rw [hqueue k rlist sz hr]
      exact List.nodup_nil
    · intro k rlist sz h hr hh
      rw [hqueue k rlist sz hr] at hh
      cases hh
    · intro x hq
      exact absurd hq (hnotq x.page)
    · intro h hdr hhdr
      obtain ⟨hlt, hlist⟩ := hs.block_kind h hdr hhdr
      refine ⟨hlt, fun hsmall => ?_⟩
      rw [resetLists_kinds]
      split
      · rfl
      · exact hlist hsmall
    · exact fun x hx => hs.alloc_obj x (halloc x hx).1
    · intro x hx
      show (s.allocated x && m.marks x) = true
      rw [hs.pinned_alloc x hx, hpinned x hx]
      rfl
  · intro x hx
    obtain ⟨hax, hmx⟩ := halloc x hx
    show (m.marks x && !onFreelist (afterMark m s) (fun _ => true) x) = true
    cases hon : onFreelist (afterMark m s) (fun _ => true) x with
    | false => simp [hmx]
    | true =>
        obtain ⟨a, sz, hmem⟩ := mem_of_onFreelist hon
        rw [(hs.free_slot a sz x hmem).1] at hax
        cases hax

/-- A block is visited. -/
theorem GC_reclaim_block_reclaiming {h : Nat} {rest : List Nat} (hs : Reclaiming (h :: rest) s)
    (ht : GC_reclaim_block h s = some t) : Reclaiming rest t := by
  obtain ⟨hacc, hempty, hmarked, hnodup, hwaiting⟩ := hs
  obtain ⟨hh, hnodup⟩ := List.nodup_cons.mp hnodup
  have hrest : ∀ b ∈ rest, ¬s.Queued b := fun b hb => hwaiting b (List.mem_cons_of_mem h hb)
  have hunclaimed : ∀ y : Obj, s.marks y = false → s.Unclaimed y := by
    intro y hy
    refine ⟨?_, fun a sz hmem => ?_⟩
    · cases hay : s.allocated y with
      | false => rfl
      | true =>
          rw [hmarked y hay] at hy
          cases hy
    · rw [hempty a sz] at hmem
      cases hmem
  cases hhdr : s.heap.HDR h with
  | none =>
      simp only [GC_reclaim_block, hhdr] at ht
      cases ht
      exact ⟨hacc, hempty, hmarked, hnodup, hrest⟩
  | some hdr =>
      rcases GC_reclaim_block_cases hhdr ht with ⟨hdead, rfl⟩ | ⟨-, rfl | ⟨hsmall, rlist, hr, rfl⟩⟩
      · refine ⟨GC_freehblk_accounts hacc (hwaiting h List.mem_cons_self) ?_, hempty, hmarked,
          hnodup, hrest⟩
        intro y hpage
        refine ⟨?_, fun a sz hmem => ?_⟩
        · cases hay : s.allocated y with
          | false => rfl
          | true =>
              obtain ⟨hdr', hhdr', hslot⟩ := hacc.alloc_obj y hay
              rw [hpage, hhdr] at hhdr'
              cases hhdr'
              have hm := hdead y.slot hslot
              rw [← hpage, hmarked y hay] at hm
              cases hm
        · rw [hempty a sz] at hmem
          cases hmem
      · exact ⟨hacc, hempty, hmarked, hnodup, hrest⟩
      · have hnotin : h ∉ rlist hdr.hb_sz := fun hmem =>
          hwaiting h List.mem_cons_self ⟨_, rlist, _, hr, hmem⟩
        refine ⟨hacc.setReclaimList hr (List.nodup_cons.mpr
          ⟨hnotin, hacc.queued_nodup _ rlist _ hr⟩) ?_ ?_, hempty, hmarked, hnodup, ?_⟩
        · intro b hb
          rcases List.mem_cons.mp hb with rfl | hb
          · exact ⟨hdr, hhdr, hsmall, rfl, rfl⟩
          · exact hacc.queued_block _ rlist _ b hr hb
        · exact fun y _ hmark => hunclaimed y hmark
        · rintro b hb ⟨k, rlist', sz, hr', hmem⟩
          have hbh : b ≠ h := fun heq => hh (heq ▸ hb)
          rw [setReclaimList_lists s _ _ hr] at hr'
          split at hr'
          · cases hr'
            by_cases hsz : sz = hdr.hb_sz
            · subst hsz
              rw [Function.update_self] at hmem
              exact hrest b hb ⟨_, rlist, _, hr, (List.mem_cons.mp hmem).resolve_left hbh⟩
            · rw [Function.update_of_ne hsz] at hmem
              exact hrest b hb ⟨_, rlist, sz, hr, hmem⟩
          · exact hrest b hb ⟨k, rlist', sz, hr', hmem⟩

/-- **A full collection keeps the accounts** when it marks what is pinned. -/
theorem fullCollection_accounts (hs : Accounts s) {cs : List Choice} {m : Marker}
    (hm : markOf cs s = some m) (hpinned : ∀ x ∈ s.pinned, m.marks x = true)
    (ht : fullCollection cs s = some t) : Reclaiming [] t := by
  obtain ⟨m', hm', ht⟩ := Option.bind_eq_some_iff.mp ht
  rw [hm] at hm'
  cases hm'
  exact reclaimBlocks_induction (K := Reclaiming)
    (fun _ _ _ _ hs ht => GC_reclaim_block_reclaiming hs ht)
    (resetLists_reclaiming hs m hpinned) ht

/-! ## What becomes of the blocks -/

/-- Visiting a block changes no other header and adds none. -/
theorem GC_reclaim_block_HDR {h b : Nat} (ht : GC_reclaim_block h s = some t) :
    t.marks = s.marks ∧ t.pinned = s.pinned ∧ (t.heap.HDR b = s.heap.HDR b ∨
      b = h ∧ t.heap.HDR b = none) := by
  cases hhdr : s.heap.HDR h with
  | none =>
      simp only [GC_reclaim_block, hhdr] at ht
      cases ht
      exact ⟨rfl, rfl, .inl rfl⟩
  | some hdr =>
      rcases GC_reclaim_block_cases hhdr ht with ⟨-, rfl⟩ | ⟨-, rfl | ⟨-, rlist, -, rfl⟩⟩
      · refine ⟨rfl, rfl, ?_⟩
        by_cases hb : b = h
        · subst hb
          exact .inr ⟨rfl, Function.update_self ..⟩
        · exact .inl (Function.update_of_ne hb ..)
      · exact ⟨rfl, rfl, .inl rfl⟩
      · exact ⟨rfl, rfl, .inl rfl⟩

theorem reclaimBlocks_HDR {l : List Nat} (ht : reclaimBlocks l s = some t) :
    t.marks = s.marks ∧ t.pinned = s.pinned ∧
      ∀ b hdr, t.heap.HDR b = some hdr → s.heap.HDR b = some hdr := by
  refine reclaimBlocks_induction (K := fun _ u => u.marks = s.marks ∧ u.pinned = s.pinned ∧
    ∀ b hdr, u.heap.HDR b = some hdr → s.heap.HDR b = some hdr) ?_ ⟨rfl, rfl, fun _ _ h => h⟩ ht
  rintro h rest u v ⟨hmarks, hpinned, hu⟩ hv
  refine ⟨(GC_reclaim_block_HDR (b := h) hv).1.trans hmarks,
    (GC_reclaim_block_HDR (b := h) hv).2.1.trans hpinned, fun b hdr hb => hu b hdr ?_⟩
  rcases (GC_reclaim_block_HDR (b := b) hv).2.2 with heq | ⟨-, hnone⟩
  · rw [← heq]
    exact hb
  · rw [hnone] at hb
    cases hb

/-- A block without marks is freed. -/
theorem reclaimBlocks_freed {l : List Nat} {h : Nat} {hdr : Hdr} (hhdr : s.heap.HDR h = some hdr)
    (hdead : ∀ i < hdr.objs, s.marks ⟨h, i⟩ = false) (hmem : h ∈ l)
    (ht : reclaimBlocks l s = some t) : t.heap.HDR h = none := by
  have hK := reclaimBlocks_induction (K := fun l u => u.marks = s.marks ∧
    (u.heap.HDR h = none ∨ u.heap.HDR h = some hdr ∧ h ∈ l)) ?_ ⟨rfl, .inr ⟨hhdr, hmem⟩⟩ ht
  · rcases hK.2 with hnone | ⟨-, habs⟩
    · exact hnone
    · cases habs
  rintro b rest u v ⟨hmarks, hu⟩ hv
  obtain ⟨hmarks', -, hHDR⟩ := GC_reclaim_block_HDR (b := h) hv
  refine ⟨hmarks'.trans hmarks, ?_⟩
  rcases hHDR with heq | ⟨-, hnone⟩
  · rcases hu with hnone | ⟨hsome, hin⟩
    · exact .inl (heq.trans hnone)
    · rcases List.mem_cons.mp hin with rfl | hin
      · -- the block itself is visited
        rcases GC_reclaim_block_cases hsome hv with ⟨-, rfl⟩ | ⟨⟨i, hi, hmark⟩, -⟩
        · exact .inl (Function.update_self ..)
        · rw [hmarks, hdead i hi] at hmark
          cases hmark
      · exact .inr ⟨heq.trans hsome, hin⟩
  · exact .inl hnone

/-- No block is without reclaim lists. -/
theorem GC_reclaim_block_total {l : List Nat} {h : Nat} (hs : Reclaiming (h :: l) s) :
    ∃ t, GC_reclaim_block h s = some t := by
  unfold GC_reclaim_block
  split
  · exact ⟨s, rfl⟩
  rename_i hdr hhdr
  split
  · split
    · exact ⟨_, rfl⟩
    · exact ⟨_, rfl⟩
  rename_i hsmall
  split
  · exact ⟨_, rfl⟩
  split
  · have hlist := (hs.accounts.block_kind h hdr hhdr).2 (by simpa using hsmall)
    obtain ⟨rlist, hr⟩ := Option.isSome_iff_exists.mp hlist
    rw [hr]
    exact ⟨_, rfl⟩
  · exact ⟨_, rfl⟩

theorem reclaimBlocks_total {l : List Nat} (hs : Reclaiming l s) :
    ∃ t, reclaimBlocks l s = some t := by
  induction l generalizing s with
  | nil => exact ⟨s, rfl⟩
  | cons h rest ih =>
      obtain ⟨u, hu⟩ := GC_reclaim_block_total hs
      obtain ⟨t, ht⟩ := ih (GC_reclaim_block_reclaiming hs hu)
      exact ⟨t, by rw [reclaimBlocks, hu]; exact ht⟩

/-- A collection whose mark phase ends gets through. -/
theorem fullCollection_total (hs : Accounts s) {cs : List Choice} {m : Marker}
    (hm : markOf cs s = some m) (hpinned : ∀ x ∈ s.pinned, m.marks x = true) :
    ∃ t, fullCollection cs s = some t := by
  obtain ⟨t, ht⟩ := reclaimBlocks_total (resetLists_reclaiming hs m hpinned)
  exact ⟨t, by rw [fullCollection, hm]; exact ht⟩

end Ironclad.Gc
