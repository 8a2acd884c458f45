import Ironclad.Gc.BlackListing
import Ironclad.Gc.BlockDropping

/-!
# Searching a free list

`GC_allochblk_nth` runs through a free list that it may change on the way: a block that is black
listed completely can be dropped. The search goes on with the blocks that were behind it, so it
ends after one round for each block on the list, and in each round the heap is in order.
-/

namespace Ironclad.Gc

namespace Hblks

open Ironclad.Logic

variable {s s' s'' : Hblks} {e : Heuristics} {x y m n kind : Nat} {flags may_split : Bool}
  {hhdr : Hblkhdr}

/-! ## What the search may change -/

/-- Blocks have been dropped, or none. -/
structure Dropped (s s' : Hblks) : Prop where
  rest : SameRest s s'
  kept : ∀ p hhdr, UsedAt s.HDR p hhdr → UsedAt s'.HDR p hhdr
  new : ∀ p hhdr, UsedAt s'.HDR p hhdr → UsedAt s.HDR p hhdr ∨ hhdr = droppedHdr

theorem Dropped.of_same (hrest : SameRest s s')
    (hused : ∀ p hhdr, UsedAt s'.HDR p hhdr ↔ UsedAt s.HDR p hhdr) : Dropped s s' :=
  ⟨hrest, fun p h => (hused p h).mpr, fun p h hp => .inl ((hused p h).mp hp)⟩

theorem Dropped.refl (s : Hblks) : Dropped s s := .of_same (.refl s) fun _ _ => Iff.rfl

theorem Dropped.trans (h : Dropped s s') (h' : Dropped s' s'') : Dropped s s'' where
  rest := h.rest.trans h'.rest
  kept p hhdr hp := h'.kept p hhdr (h.kept p hhdr hp)
  new p hhdr hp := (h'.new p hhdr hp).elim (h.new p hhdr) .inr

theorem SameRest.blackListed (h : SameRest s s') (p : Nat) :
    s'.BlackListed p ↔ s.BlackListed p := by
  unfold BlackListed
  rw [h.old, h.incomplete]

/-- The counter of blocks that were found to be black listed. -/
theorem InOrder.count (h : InOrder s) (c : Nat) : InOrder { s with blacklisted_count := c } where
  table := h.table
  index := ⟨h.index.sorted, h.index.mem⟩
  sections := ⟨h.sections.owned, h.sections.whole, h.sections.apart⟩
  lists := h.lists.congr rfl rfl rfl rfl fun _ _ _ => rfl
  neighbours := h.neighbours
  counted := h.counted

/-! ## A block that is considered -/

theorem le_skipBlackListed (s : Hblks) (eff search_end fuel last : Nat) :
    last ≤ s.skipBlackListed eff search_end fuel last := by
  induction fuel generalizing last with
  | zero => exact le_rfl
  | succ fuel ih =>
      rw [skipBlackListed]
      split
      · split
        · exact le_rfl
        · rename_i t ht
          exact (GC_is_black_listed_eq_some ht).1.le.trans (ih t)
      · exact le_rfl

/-- The place that is found is not black listed, unless there is none. -/
theorem skipBlackListed_eq_none {eff search_end fuel last : Nat}
    (hfuel : search_end < last + fuel)
    (hle : s.skipBlackListed eff search_end fuel last ≤ search_end) :
    s.GC_is_black_listed (s.skipBlackListed eff search_end fuel last) eff = none := by
  induction fuel generalizing last with
  | zero =>
      rw [skipBlackListed] at hle
      omega
  | succ fuel ih =>
      rw [skipBlackListed] at hle ⊢
      by_cases hlast : last ≤ search_end
      · rw [if_pos hlast] at hle ⊢
        cases ht : s.GC_is_black_listed last eff with
        | none => simp only [ht]
        | some t =>
            simp only [ht] at hle ⊢
            exact ih (by have := (GC_is_black_listed_eq_some ht).1; omega) hle
      · rw [if_neg hlast] at hle
        omega

/-- A block of this kind keeps away from the black lists, unless it is larger than what is free
between black listed pages on the average: none of the pages that are looked at is listed. -/
def Avoids (s : Hblks) (size_needed kind : Nat) (flags : Bool) (t : Nat) : Prop :=
  IS_UNCOLLECTABLE kind = false → kind ≠ PTRFREE ∨ MAX_BLACK_LIST_ALLOC < size_needed →
    size_needed ≤ s.GC_black_list_spacing →
    ∀ q, t ≤ q → q < t + divHBLKSZ (if flags then HBLKSIZE else size_needed) → ¬s.BlackListed q

theorem Avoids.of_rest {size_needed t : Nat} (h : s'.Avoids size_needed kind flags t)
    (hrest : SameRest s s') : s.Avoids size_needed kind flags t := by
  unfold Avoids at *
  simp only [hrest.spacing, hrest.blackListed] at h
  exact h

/-- What the choice leaves behind. -/
def Considered (s : Hblks) (m kind : Nat) (flags : Bool) (n x : Nat) : Choice × Hblks → Prop
  | (.take t, s') => ∃ thdr, Ready s' t n ∧ Dropped s s' ∧ s'.HDR t = .hdr thdr ∧
      m ≤ thdr.pages ∧ s.Avoids (HBLKSIZE * m) kind flags t
  | (.next y, s') => ∃ c,
      y = x ∧ s' = { s with blacklisted_count := c } ∨
        s.hb_prev x = some y ∧ s' = dropBlock { s with blacklisted_count := c } x n
  | (.restart, s') => ∃ c,
      s.hb_prev x = none ∧ s' = dropBlock { s with blacklisted_count := c } x n

/-- **A block is considered.** -/
theorem InOrder.consider (h : InOrder s) (hg : s.Granted) (e : Heuristics) (kind : Nat)
    (flags : Bool) (hx : s.HDR x = .hdr hhdr) (hlisted : Listed s n x) (hm : 0 < m)
    (hle : m ≤ hhdr.pages) :
    Considered s m kind flags n x (s.consider e (HBLKSIZE * m) kind flags n x) := by
  have hfree : hhdr.free_blk = true := (freeAt_iff hx).mp hlisted.1
  have hwhole := (h.table.block x hhdr hx).whole hfree
  have htake : s.Avoids (HBLKSIZE * m) kind flags x → Considered s m kind flags n x (.take x, s) :=
    fun hav => ⟨hhdr, h.ready hlisted, .refl s, hx, hle, hav⟩
  have hend : divHBLKSZ (hhdr.hb_sz - HBLKSIZE * m) = hhdr.pages - m := by
    rw [hwhole, Nat.mul_comm HBLKSIZE, ← Nat.sub_mul, divHBLKSZ_mul]
  have hnext : Considered s m kind flags n x (.next x, s) :=
    ⟨s.blacklisted_count, .inl ⟨rfl, rfl⟩⟩
  unfold Hblks.consider
  simp only
  rw [hb_sz_of_hdr hx, hend]
  split
  · generalize ht : s.skipBlackListed _ (x + (hhdr.pages - m)) _ x = t
    have hxt : x ≤ t := ht ▸ le_skipBlackListed s _ _ _ x
    split
    · rename_i htle
      have hclear : s.Avoids (HBLKSIZE * m) kind flags t := by
        intro _ _ _ q htq hq
        rw [← ht] at htle
        have hnone := skipBlackListed_eq_none (by rw [← pages_of_free hfree]; omega) htle
        rw [ht] at hnone
        exact GC_is_black_listed_eq_none hnone htq (.inl hq)
      split
      · rename_i hne
        -- the front of the block is split off
        obtain ⟨s₁, hinstall, hrest, hready, -, hused, nhdr, hn, -, hpages⟩ :=
          h.split hg hx hfree (lt_of_le_of_ne hxt (Ne.symm hne)) (by omega)
        rw [hinstall, ← hlisted.2]
        exact ⟨nhdr, hready, .of_same hrest hused, hn, by omega, hclear⟩
      · rename_i heq
        exact htake (not_not.mp heq ▸ hclear)
    · split
      · rename_i hlarge
        exact htake fun _ _ hspacing => absurd hlarge.1 (not_lt.mpr hspacing)
      · split
        · split
          · cases hprev : s.hb_prev x with
            | none => exact ⟨_, hprev, rfl⟩
            | some y => exact ⟨_, .inr ⟨hprev, rfl⟩⟩
          · exact ⟨_, .inl ⟨rfl, rfl⟩⟩
        · exact hnext
  · rename_i hexempt
    exact htake fun hkind hsize => absurd ⟨hkind, hsize⟩ hexempt

/-! ## The position in the list -/

/-- The search is at `pos`, with the blocks `suf` of the list `n` still to come. -/
def At (s : Hblks) (n : Nat) (pos : Option Nat) (suf : List Nat) : Prop :=
  ∃ L xs, Threaded s L ∧ (∀ i p, p ∈ L i ↔ Listed s i p) ∧ L n = xs ++ suf ∧ pos = suf.head?

/-- The search starts with the whole list. -/
theorem InOrder.at_start (h : InOrder s) (n : Nat) :
    ∃ suf, At s n (s.GC_hblkfreelist n) suf := by
  obtain ⟨L, hL, hmem⟩ := h.lists
  exact ⟨L n, L, [], hL, hmem, rfl, hL.lists.head_eq n⟩

theorem At.listed {pos : Option Nat} {suf : List Nat} (h : At s n pos suf) (hx : x ∈ suf) :
    Listed s n x := by
  obtain ⟨L, xs, -, hmem, hL, -⟩ := h
  exact (hmem n x).mp (hL ▸ List.mem_append_right xs hx)

/-- The next block. -/
theorem At.next {pos : Option Nat} {suf : List Nat} (h : At s n pos (x :: suf)) :
    At s n (s.hb_next x) suf := by
  obtain ⟨L, xs, hL, hmem, heq, -⟩ := h
  refine ⟨L, xs ++ [x], hL, hmem, ?_, (hL.lists.neighbours heq).2⟩
  rw [heq, List.append_assoc, List.singleton_append]

theorem At.count {pos : Option Nat} {suf : List Nat} (h : At s n pos suf) (c : Nat) :
    At { s with blacklisted_count := c } n pos suf := by
  obtain ⟨L, xs, hL, hmem, heq, hpos⟩ := h
  exact ⟨L, xs, ⟨hL.lists, hL.bytes⟩, hmem, heq, hpos⟩

/-- The next block when the first one has been dropped: behind the one in front of it, or at the
start of the list. -/
theorem At.drop {pos : Option Nat} {suf : List Nat} (hat : At s n pos (x :: suf))
    (h : InOrder s) (hg : s.Granted) (hx : s.HDR x = .hdr hhdr) (hfree : hhdr.free_blk = true)
    (hn : s.flOf x = n) :
    (∀ y, s.hb_prev x = some y →
        At (s.dropBlock x n) n ((s.dropBlock x n).hb_next y) suf) ∧
      (s.hb_prev x = none → At (s.dropBlock x n) n ((s.dropBlock x n).GC_hblkfreelist n) suf) := by
  obtain ⟨horder, -, hsame, -, -⟩ := h.drop hg hn hx hfree
  obtain ⟨L, xs, hL, hmem, heq, -⟩ := hat
  have hremoved := hL.remove heq
  obtain ⟨L', hL', hmem'⟩ := horder.lists
  have hthread : Lists (s.dropBlock x n).GC_hblkfreelist (s.dropBlock x n).hb_next
      (s.dropBlock x n).hb_prev (Function.update L n (xs ++ suf)) := by
    rw [hsame.head, hsame.next, hsame.prev]
    exact hremoved.lists
  have hLn : L' n = xs ++ suf := by
    rw [← hthread.unique hL'.lists n, Function.update_self]
  obtain ⟨hprev, -⟩ := hL.lists.neighbours heq
  constructor
  · intro y hy
    rw [hprev] at hy
    obtain ⟨ys, hys⟩ := List.getLast?_eq_some_iff.mp hy
    have hy : L' n = ys ++ y :: suf := by
      rw [hLn, hys, List.append_assoc, List.singleton_append]
    exact ⟨L', xs, hL', hmem', hLn, (hL'.lists.neighbours hy).2⟩
  · intro hnone
    rw [hprev, List.getLast?_eq_none_iff] at hnone
    subst hnone
    exact ⟨L', [], hL', hmem', hLn, by rw [hL'.lists.head_eq n, hLn]; rfl⟩

/-! ## The search -/

/-- What the search finds for `m` pages: nothing, or the first part of a free block. -/
def Searched (s : Hblks) (m kind : Nat) (flags : Bool) (n : Nat) : Option Nat × Hblks → Prop
  | (none, s') => InOrder s' ∧ Dropped s s'
  | (some x, s') => ∃ s₁ hhdr, Ready s₁ x n ∧ Dropped s s₁ ∧ s₁.HDR x = .hdr hhdr ∧
      m ≤ hhdr.pages ∧ s.Avoids (HBLKSIZE * m) kind flags x ∧
      s₁.GC_get_first_part x (HBLKSIZE * m) n = (some x, s')

theorem Searched.of_dropped (hd : Dropped s s') {r : Option Nat × Hblks}
    (h : Searched s' m kind flags n r) : Searched s m kind flags n r := by
  obtain ⟨_ | x, s₂⟩ := r
  · exact ⟨h.1, hd.trans h.2⟩
  · obtain ⟨s₁, hhdr, hready, hdrop, hx, hle, havoids, hfirst⟩ := h
    exact ⟨s₁, hhdr, hready, hd.trans hdrop, hx, hle, havoids.of_rest hd.rest, hfirst⟩

/-- **The search ends** after one round for each block that is still to come, and with a heap in
order. -/
theorem searchList_eq (e : Heuristics) (kind : Nat) (flags may_split : Bool) (hm : 0 < m)
    {suf : List Nat} : ∀ {fuel : Nat} {s : Hblks} {pos : Option Nat}, suf.length < fuel →
      InOrder s → s.Granted → At s n pos suf →
      ∃ r, searchList e (HBLKSIZE * m) kind flags n may_split fuel s pos = some r ∧
        Searched s m kind flags n r := by
  induction suf with
  | nil =>
      intro fuel s pos hfuel h hg hat
      obtain ⟨fuel, rfl⟩ := Nat.exists_eq_add_of_lt hfuel
      obtain ⟨-, -, -, -, -, rfl⟩ := hat
      exact ⟨(none, s), rfl, h, .refl s⟩
  | cons x suf ih =>
      intro fuel s pos hfuel h hg hat
      obtain ⟨fuel, rfl⟩ := Nat.exists_eq_add_of_lt hfuel
      have hlisted := hat.listed List.mem_cons_self
      obtain ⟨hhdr, hx, hfree⟩ := hlisted.1
      have hpos : pos = some x := by
        obtain ⟨-, -, -, -, -, hpos⟩ := hat
        exact hpos
      subst hpos
      rw [searchList]
      by_cases hpass : s.passesOver x (HBLKSIZE * m) may_split = true
      · rw [if_pos hpass]
        exact ih (by simp only [List.length_cons]; omega) h hg hat.next
      · rw [if_neg hpass]
        have hle : m ≤ hhdr.pages := by
          by_contra hlt
          refine hpass ?_
          unfold passesOver
          simp only
          rw [if_pos]
          rw [hb_sz_of_hdr hx, (h.table.block x hhdr hx).whole hfree, Nat.mul_comm HBLKSIZE]
          exact Nat.mul_lt_mul_of_pos_right (not_le.mp hlt) (by decide)
        have hlen : suf.length < suf.length + 1 + fuel := by omega
        have hcons := h.consider hg e kind flags hx hlisted hm hle
        have hdropped : ∀ c, InOrder (dropBlock { s with blacklisted_count := c } x n) ∧
            Dropped s (dropBlock { s with blacklisted_count := c } x n) := by
          intro c
          obtain ⟨horder, hrest, -, -, hused⟩ := (h.count c).drop hg hlisted.2 hx hfree
          refine ⟨horder, SameRest.trans (by exact ⟨rfl, rfl, rfl, rfl, rfl, id⟩) hrest,
            fun p h hp => (hused p h).mpr (.inl hp), fun p h hp => ?_⟩
          exact ((hused p h).mp hp).imp_right And.right
        generalize s.consider e (HBLKSIZE * m) kind flags n x = choice at hcons
        obtain ⟨t | y | _, s₁⟩ := choice
        · obtain ⟨thdr, hready, hdrop, ht, htle, havoids⟩ := hcons
          obtain ⟨s₂, hfirst, -⟩ := hready.firstPart (hdrop.rest.granted hg) ht hm htle
          exact ⟨(some t, s₂), congrArg some hfirst, s₁, thdr, hready, hdrop, ht, htle, havoids,
            hfirst⟩
        · obtain ⟨c, ⟨rfl, rfl⟩ | ⟨hprev, rfl⟩⟩ := hcons
          · obtain ⟨r, hr, hs⟩ := ih hlen (h.count c) hg (hat.count c).next
            refine ⟨r, ?_, Searched.of_dropped ?_ hs⟩
            rotate_left
            · exact ⟨⟨rfl, rfl, rfl, rfl, rfl, id⟩, fun _ _ => id, fun _ _ => .inl⟩
            simpa only [List.length_cons, Nat.add_assoc, Nat.add_comm, Nat.add_left_comm] using hr
          · obtain ⟨horder, hdrop⟩ := hdropped c
            obtain ⟨r, hr, hs⟩ := ih hlen horder (hdrop.rest.granted hg)
              (((hat.count c).drop (h.count c) hg hx hfree hlisted.2).1 y hprev)
            refine ⟨r, ?_, hs.of_dropped hdrop⟩
            simpa only [List.length_cons, Nat.add_assoc, Nat.add_comm, Nat.add_left_comm] using hr
        · obtain ⟨c, hprev, rfl⟩ := hcons
          obtain ⟨horder, hdrop⟩ := hdropped c
          obtain ⟨r, hr, hs⟩ := ih hlen horder (hdrop.rest.granted hg)
            (((hat.count c).drop (h.count c) hg hx hfree hlisted.2).2 hprev)
          refine ⟨r, ?_, hs.of_dropped hdrop⟩
          simpa only [List.length_cons, Nat.add_assoc, Nat.add_comm, Nat.add_left_comm] using hr

end Hblks

end Ironclad.Gc
