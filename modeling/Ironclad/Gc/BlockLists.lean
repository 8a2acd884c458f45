import Ironclad.Gc.BlockLookup
import Ironclad.Gc.FreeBlocks
import Mathlib.Algebra.BigOperators.Fin
import Mathlib.Algebra.Order.BigOperators.Group.Finset

/-!
# The lists of free blocks

`OnLists` says which blocks are on which list: the links are those of doubly linked lists, and
`GC_free_bytes` is the size of each. One lemma for each operation on the lists says how that
changes, and what becomes of the headers.
-/

namespace Ironclad.Gc

namespace Hblks

open Ironclad.Logic

variable {s : Hblks} {p x n i : Nat} {hhdr nhdr : Hblkhdr}

/-! ## Headers -/

theorem mapHdr_of_hdr (h : s.HDR p = .hdr hhdr) (f : Hblkhdr → Hblkhdr) :
    s.mapHdr p f = s.SET_HDR p (.hdr (f hhdr)) := by
  unfold mapHdr
  rw [h]

theorem HDR_mapHdr_self (h : s.HDR p = .hdr hhdr) (f : Hblkhdr → Hblkhdr) :
    (s.mapHdr p f).HDR p = .hdr (f hhdr) := by
  rw [mapHdr_of_hdr h]
  exact Function.update_self _ _ _

theorem HDR_mapHdr_of_ne {q : Nat} (h : q ≠ p) (f : Hblkhdr → Hblkhdr) :
    (s.mapHdr p f).HDR q = s.HDR q := by
  unfold mapHdr
  split
  · exact Function.update_of_ne h _ _
  · rfl

theorem hb_sz_congr {s' : Hblks} {q : Nat} (h : s'.HDR q = s.HDR q) : s'.hb_sz q = s.hb_sz q := by
  unfold hb_sz
  rw [h]

section

variable (s : Hblks) (p : Nat) (f : Hblkhdr → Hblkhdr)

@[simp] theorem mapHdr_GC_hblkfreelist : (s.mapHdr p f).GC_hblkfreelist = s.GC_hblkfreelist := by
  unfold mapHdr; split <;> rfl

@[simp] theorem mapHdr_hb_next : (s.mapHdr p f).hb_next = s.hb_next := by
  unfold mapHdr; split <;> rfl

@[simp] theorem mapHdr_hb_prev : (s.mapHdr p f).hb_prev = s.hb_prev := by
  unfold mapHdr; split <;> rfl

@[simp] theorem mapHdr_GC_free_bytes : (s.mapHdr p f).GC_free_bytes = s.GC_free_bytes := by
  unfold mapHdr; split <;> rfl

@[simp] theorem mapHdr_bottom_indices : (s.mapHdr p f).bottom_indices = s.bottom_indices := by
  unfold mapHdr; split <;> rfl

@[simp] theorem mapHdr_GC_large_free_bytes :
    (s.mapHdr p f).GC_large_free_bytes = s.GC_large_free_bytes := by
  unfold mapHdr; split <;> rfl

@[simp] theorem mapHdr_GC_heapsize : (s.mapHdr p f).GC_heapsize = s.GC_heapsize := by
  unfold mapHdr; split <;> rfl

@[simp] theorem mapHdr_GC_heap_sects : (s.mapHdr p f).GC_heap_sects = s.GC_heap_sects := by
  unfold mapHdr; split <;> rfl

@[simp] theorem mapHdr_scratch : (s.mapHdr p f).scratch = s.scratch := by
  unfold mapHdr; split <;> rfl

end

/-! ## Who is on which list -/

/-- The links are those of the lists `L`, and the sizes have been counted. -/
structure Threaded (s : Hblks) (L : Nat → List Nat) : Prop where
  lists : Lists s.GC_hblkfreelist s.hb_next s.hb_prev L
  bytes : ∀ i, s.GC_free_bytes i = ((L i).map s.hb_sz).sum

/-- The members of the lists, in some order. -/
def OnLists (s : Hblks) (M : Nat → Nat → Prop) : Prop :=
  ∃ L, Threaded s L ∧ ∀ i p, p ∈ L i ↔ M i p

/-- The sum of the lengths of the lists. -/
def totalFree (s : Hblks) : Nat := ∑ i ∈ Finset.range (N_HBLK_FLS + 1), s.GC_free_bytes i

theorem Threaded.congr {s' : Hblks} {L : Nat → List Nat} (h : Threaded s L)
    (hlist : s'.GC_hblkfreelist = s.GC_hblkfreelist) (hnext : s'.hb_next = s.hb_next)
    (hprev : s'.hb_prev = s.hb_prev) (hbytes : s'.GC_free_bytes = s.GC_free_bytes)
    (hsz : ∀ i, ∀ p ∈ L i, s'.hb_sz p = s.hb_sz p) : Threaded s' L where
  lists := by
    rw [hlist, hnext, hprev]
    exact h.lists
  bytes i := by
    rw [hbytes, h.bytes, List.map_congr_left (hsz i)]

/-- Changes to headers that are on no list. -/
theorem OnLists.congr {s' : Hblks} {M : Nat → Nat → Prop} (h : OnLists s M)
    (hlist : s'.GC_hblkfreelist = s.GC_hblkfreelist) (hnext : s'.hb_next = s.hb_next)
    (hprev : s'.hb_prev = s.hb_prev) (hbytes : s'.GC_free_bytes = s.GC_free_bytes)
    (hsz : ∀ i p, M i p → s'.hb_sz p = s.hb_sz p) : OnLists s' M := by
  obtain ⟨L, hL, hM⟩ := h
  exact ⟨L, hL.congr hlist hnext hprev hbytes fun i p hp => hsz i p ((hM i p).mp hp), hM⟩

theorem OnLists.imp {M M' : Nat → Nat → Prop} (h : OnLists s M)
    (hM : ∀ i p, M' i p ↔ M i p) : OnLists s M' := by
  obtain ⟨L, hL, hmem⟩ := h
  exact ⟨L, hL, fun i p => (hmem i p).trans (hM i p).symm⟩

theorem GC_hblk_fl_from_blocks_le (n : Nat) : GC_hblk_fl_from_blocks n ≤ N_HBLK_FLS := by
  unfold GC_hblk_fl_from_blocks N_HBLK_FLS UNIQUE_THRESHOLD HUGE_THRESHOLD FL_COMPRESSION
  split
  · omega
  · split <;> omega

/-! ## Taking off -/

theorem Threaded.remove {L : Nat → List Nat} {xs ys : List Nat} (h : Threaded s L)
    (hL : L i = xs ++ x :: ys) :
    Threaded (s.GC_remove_from_fl x i) (Function.update L i (xs ++ ys)) where
  lists := h.lists.unlink hL
  bytes j := by
    show Function.update s.GC_free_bytes i (s.GC_free_bytes i - s.hb_sz x) j =
      ((Function.update L i (xs ++ ys) j).map s.hb_sz).sum
    by_cases hj : j = i
    · subst hj
      rw [Function.update_self, Function.update_self, h.bytes, hL]
      simp only [List.map_append, List.map_cons, List.sum_append, List.sum_cons]
      omega
    · rw [Function.update_of_ne hj, Function.update_of_ne hj, h.bytes]

/-- A member of a list is not longer than the list. -/
theorem OnLists.hb_sz_le {M : Nat → Nat → Prop} (h : OnLists s M) (hx : M i x) :
    s.hb_sz x ≤ s.GC_free_bytes i := by
  obtain ⟨L, hL, hM⟩ := h
  rw [hL.bytes]
  exact List.single_le_sum (fun _ _ => Nat.zero_le _) _
    (List.mem_map_of_mem ((hM i x).mpr hx))

theorem OnLists.remove {M : Nat → Nat → Prop} (h : OnLists s M) (hx : M i x) :
    OnLists (s.GC_remove_from_fl x i) fun j p => M j p ∧ p ≠ x := by
  obtain ⟨L, hL, hM⟩ := h
  obtain ⟨xs, ys, heq⟩ := List.append_of_mem ((hM i x).mpr hx)
  refine ⟨_, hL.remove heq, fun j p => ?_⟩
  show _ ↔ M j p ∧ p ≠ x
  have hnodup := hL.lists.nodup i
  rw [heq] at hnodup
  by_cases hj : j = i
  · subst hj
    rw [Function.update_self, ← hM, heq]
    have hxs : x ∉ xs := fun hmem =>
      (List.nodup_append.mp hnodup).2.2 x hmem x List.mem_cons_self rfl
    have hys : x ∉ ys := (List.nodup_cons.mp (List.nodup_append.mp hnodup).2.1).1
    simp only [List.mem_append, List.mem_cons]
    constructor
    · rintro (hp | hp)
      · exact ⟨.inl hp, ne_of_mem_of_not_mem hp hxs⟩
      · exact ⟨.inr (.inr hp), ne_of_mem_of_not_mem hp hys⟩
    · rintro ⟨hp | rfl | hp, hne⟩
      · exact .inl hp
      · exact absurd rfl hne
      · exact .inr hp
  · rw [Function.update_of_ne hj, ← hM]
    refine ⟨fun hp => ⟨hp, fun heqp => hj ?_⟩, And.left⟩
    exact hL.lists.apart j i x (heqp ▸ hp) ((hM i x).mpr hx)

/-- Changing one summand. -/
theorem sum_update {f : Nat → Nat} {v : Nat} (hi : i ≤ N_HBLK_FLS) :
    ∑ j ∈ Finset.range (N_HBLK_FLS + 1), Function.update f i v j + f i =
      ∑ j ∈ Finset.range (N_HBLK_FLS + 1), f j + v := by
  have hmem : i ∈ Finset.range (N_HBLK_FLS + 1) := Finset.mem_range.mpr (by omega)
  rw [Finset.sum_update_of_mem hmem, ← Finset.add_sum_erase _ f hmem,
    Finset.sdiff_singleton_eq_erase]
  omega

theorem OnLists.totalFree_remove {M : Nat → Nat → Prop} (h : OnLists s M) (hx : M i x)
    (hi : i ≤ N_HBLK_FLS) : (s.GC_remove_from_fl x i).totalFree + s.hb_sz x = s.totalFree := by
  have hle := h.hb_sz_le hx
  have hsum := sum_update (f := s.GC_free_bytes) (v := s.GC_free_bytes i - s.hb_sz x) hi
  show ∑ j ∈ _, Function.update s.GC_free_bytes i (s.GC_free_bytes i - s.hb_sz x) j + _ = _
  unfold totalFree
  omega

/-! ## Putting on -/

theorem GC_add_to_fl_HDR_self (h : s.HDR x = .hdr hhdr) :
    (s.GC_add_to_fl x).HDR x = .hdr { hhdr with free_blk := true } := by
  dsimp only [GC_add_to_fl]
  exact HDR_mapHdr_self (by exact h) _

theorem GC_add_to_fl_HDR_of_ne {q : Nat} (h : q ≠ x) : (s.GC_add_to_fl x).HDR q = s.HDR q := by
  dsimp only [GC_add_to_fl]
  exact HDR_mapHdr_of_ne h _

theorem GC_add_to_fl_hb_sz (h : s.HDR x = .hdr hhdr) (q : Nat) :
    (s.GC_add_to_fl x).hb_sz q = s.hb_sz q := by
  by_cases hq : q = x
  · subst hq
    rw [hb_sz_of_hdr h, hb_sz_of_hdr (GC_add_to_fl_HDR_self h)]
  · exact hb_sz_congr (GC_add_to_fl_HDR_of_ne hq)

theorem GC_add_to_fl_GC_free_bytes (s : Hblks) (x : Nat) :
    (s.GC_add_to_fl x).GC_free_bytes =
      Function.update s.GC_free_bytes (s.flOf x) (s.GC_free_bytes (s.flOf x) + s.hb_sz x) := by
  unfold GC_add_to_fl
  simp only [mapHdr_GC_free_bytes]

theorem Threaded.add {L : Nat → List Nat} (h : Threaded s L) (hx : ∀ j, x ∉ L j)
    (hhdr : s.HDR x = .hdr hhdr) :
    Threaded (s.GC_add_to_fl x) (Function.update L (s.flOf x) (x :: L (s.flOf x))) where
  lists := by
    unfold GC_add_to_fl
    simp only [mapHdr_GC_hblkfreelist, mapHdr_hb_next, mapHdr_hb_prev]
    exact h.lists.push hx (s.flOf x)
  bytes j := by
    rw [GC_add_to_fl_GC_free_bytes, funext (GC_add_to_fl_hb_sz hhdr)]
    by_cases hj : j = s.flOf x
    · subst hj
      rw [Function.update_self, Function.update_self, List.map_cons, List.sum_cons, h.bytes,
        Nat.add_comm]
    · rw [Function.update_of_ne hj, Function.update_of_ne hj, h.bytes]

theorem OnLists.add {M : Nat → Nat → Prop} (h : OnLists s M) (hx : ∀ j, ¬M j x)
    (hhdr : s.HDR x = .hdr hhdr) :
    OnLists (s.GC_add_to_fl x) fun j p => M j p ∨ p = x ∧ j = s.flOf x := by
  obtain ⟨L, hL, hM⟩ := h
  refine ⟨_, hL.add (fun j hmem => hx j ((hM j x).mp hmem)) hhdr, fun j p => ?_⟩
  show _ ↔ M j p ∨ p = x ∧ j = s.flOf x
  rw [← hM]
  by_cases hj : j = s.flOf x
  · subst hj
    rw [Function.update_self, List.mem_cons]
    simp only [and_true]
    exact or_comm
  · rw [Function.update_of_ne hj]
    simp [hj]

theorem totalFree_add (s : Hblks) (x : Nat) :
    (s.GC_add_to_fl x).totalFree = s.totalFree + s.hb_sz x := by
  have hsum := sum_update (f := s.GC_free_bytes)
    (v := s.GC_free_bytes (s.flOf x) + s.hb_sz x)
    (GC_hblk_fl_from_blocks_le (divHBLKSZ (s.hb_sz x)))
  unfold totalFree
  rw [GC_add_to_fl_GC_free_bytes]
  unfold flOf at *
  omega

/-! ## Splitting -/

section

variable {M : Nat → Nat → Prop}

/-- The state of `GC_split_block` before `h` is put on its list. -/
def splitHeaders (s : Hblks) (x n i : Nat) : Hblks :=
  let h_size := (n - x) * HBLKSIZE
  ({ s with
      GC_hblkfreelist := replaceHead s.GC_hblkfreelist s.hb_prev i x n
      hb_next := replaceNext s.hb_next s.hb_prev x n
      hb_prev := replacePrev s.hb_next s.hb_prev x n
      GC_free_bytes :=
        Function.update s.GC_free_bytes i (s.GC_free_bytes i - h_size) }.mapHdr n fun nhdr =>
    { nhdr with
      hb_sz := s.hb_sz x - h_size, ignore_off_page := false, free_blk := false }).mapHdr x
    fun hhdr => { hhdr with hb_sz := h_size }

theorem GC_split_block_eq (s : Hblks) (x n i : Nat) :
    s.GC_split_block x n i = ((s.splitHeaders x n i).GC_add_to_fl x).mapHdr n
      fun nhdr => { nhdr with free_blk := true } := rfl

theorem splitHeaders_HDR (hx : s.HDR x = .hdr hhdr) (hn : s.HDR n = .hdr nhdr) (hne : n ≠ x) :
    (s.splitHeaders x n i).HDR x = .hdr { hhdr with hb_sz := (n - x) * HBLKSIZE } ∧
      (s.splitHeaders x n i).HDR n = .hdr
        { nhdr with
          hb_sz := hhdr.hb_sz - (n - x) * HBLKSIZE
          ignore_off_page := false
          free_blk := false } ∧
      ∀ q, q ≠ x → q ≠ n → (s.splitHeaders x n i).HDR q = s.HDR q := by
  dsimp only [splitHeaders]
  refine ⟨?_, ?_, fun q hqx hqn => ?_⟩
  · refine @HDR_mapHdr_self _ _ hhdr ?_ _
    rw [HDR_mapHdr_of_ne hne.symm]
    exact hx
  · rw [HDR_mapHdr_of_ne hne, ← hb_sz_of_hdr hx]
    exact HDR_mapHdr_self (by exact hn) _
  · rw [HDR_mapHdr_of_ne hqx, HDR_mapHdr_of_ne hqn]

theorem GC_split_block_HDR (hx : s.HDR x = .hdr hhdr) (hn : s.HDR n = .hdr nhdr) (hne : n ≠ x) :
    (s.GC_split_block x n i).HDR x =
        .hdr { hhdr with hb_sz := (n - x) * HBLKSIZE, free_blk := true } ∧
      (s.GC_split_block x n i).HDR n = .hdr
        { nhdr with
          hb_sz := hhdr.hb_sz - (n - x) * HBLKSIZE
          ignore_off_page := false
          free_blk := true } ∧
      ∀ q, q ≠ x → q ≠ n → (s.GC_split_block x n i).HDR q = s.HDR q := by
  obtain ⟨hhx, hhn, hrest⟩ := splitHeaders_HDR (i := i) hx hn hne
  rw [GC_split_block_eq]
  refine ⟨?_, ?_, fun q hqx hqn => ?_⟩
  · rw [HDR_mapHdr_of_ne hne.symm, GC_add_to_fl_HDR_self hhx]
  · exact HDR_mapHdr_self ((GC_add_to_fl_HDR_of_ne hne).trans hhn) _
  · rw [HDR_mapHdr_of_ne hqn, GC_add_to_fl_HDR_of_ne hqx, hrest q hqx hqn]

/-- The block `n` has taken the place of `x`. -/
theorem OnLists.splitHeaders (h : OnLists s M) (hM : M i x) (hnM : ∀ j, ¬M j n)
    (hx : s.HDR x = .hdr hhdr) (hn : s.HDR n = .hdr nhdr) (hne : n ≠ x)
    (hle : (n - x) * HBLKSIZE ≤ hhdr.hb_sz) :
    OnLists (s.splitHeaders x n i) fun j p => M j p ∧ p ≠ x ∨ p = n ∧ j = i := by
  obtain ⟨L, hL, hmem⟩ := h
  obtain ⟨xs, ys, heq⟩ := List.append_of_mem ((hmem i x).mpr hM)
  obtain ⟨hhx, hhn, hrest⟩ := splitHeaders_HDR (i := i) hx hn hne
  have hnL : ∀ j, n ∉ L j := fun j hn => hnM j ((hmem j n).mp hn)
  have hnodup := hL.lists.nodup i
  rw [heq] at hnodup
  have hxs : x ∉ xs := fun hmem =>
    (List.nodup_append.mp hnodup).2.2 x hmem x List.mem_cons_self rfl
  have hys : x ∉ ys := (List.nodup_cons.mp (List.nodup_append.mp hnodup).2.1).1
  have hsize : ∀ j, ∀ p ∈ L j, p ≠ x → (s.splitHeaders x n i).hb_sz p = s.hb_sz p :=
    fun j p hp hpx => hb_sz_congr (hrest p hpx (ne_of_mem_of_not_mem hp (hnL j)))
  have hfields : (s.splitHeaders x n i).GC_hblkfreelist =
        replaceHead s.GC_hblkfreelist s.hb_prev i x n ∧
      (s.splitHeaders x n i).hb_next = replaceNext s.hb_next s.hb_prev x n ∧
      (s.splitHeaders x n i).hb_prev = replacePrev s.hb_next s.hb_prev x n ∧
      (s.splitHeaders x n i).GC_free_bytes =
        Function.update s.GC_free_bytes i (s.GC_free_bytes i - (n - x) * HBLKSIZE) := by
    unfold Hblks.splitHeaders
    simp only [mapHdr_GC_hblkfreelist, mapHdr_hb_next, mapHdr_hb_prev, mapHdr_GC_free_bytes,
      and_self]
  obtain ⟨hhead, hnext, hprev, hbytes⟩ := hfields
  refine ⟨Function.update L i (xs ++ n :: ys), ⟨?_, fun j => ?_⟩, fun j p => ?_⟩
  · rw [hhead, hnext, hprev]
    exact hL.lists.replace heq hnL
  · rw [hbytes]
    by_cases hj : j = i
    · subst hj
      have hxsz : ∀ zs : List Nat, (∀ z ∈ zs, z ∈ L j ∧ z ≠ x) →
          zs.map (s.splitHeaders x n j).hb_sz = zs.map s.hb_sz :=
        fun zs hzs => List.map_congr_left fun z hz => hsize j z (hzs z hz).1 (hzs z hz).2
      rw [Function.update_self, Function.update_self, hL.bytes, heq]
      simp only [List.map_append, List.map_cons, List.sum_append, List.sum_cons]
      rw [hxsz xs fun z hz => ⟨heq ▸ List.mem_append_left _ hz, ne_of_mem_of_not_mem hz hxs⟩,
        hxsz ys fun z hz => ⟨heq ▸ List.mem_append_right _ (List.mem_cons_of_mem _ hz),
          ne_of_mem_of_not_mem hz hys⟩, hb_sz_of_hdr hx, hb_sz_of_hdr hhn]
      show _ = _ + (hhdr.hb_sz - _ + _)
      omega
    · rw [Function.update_of_ne hj, Function.update_of_ne hj, hL.bytes]
      congr 1
      refine (List.map_congr_left fun z hz => hsize j z hz fun hzx => hj ?_).symm
      exact hL.lists.apart j i x (hzx ▸ hz) ((hmem i x).mpr hM)
  · show _ ↔ M j p ∧ p ≠ x ∨ p = n ∧ j = i
    rw [← hmem]
    by_cases hj : j = i
    · subst hj
      rw [Function.update_self, heq]
      simp only [List.mem_append, List.mem_cons, and_true]
      constructor
      · rintro (hp | hp | hp)
        · exact .inl ⟨.inl hp, ne_of_mem_of_not_mem hp hxs⟩
        · exact .inr hp
        · exact .inl ⟨.inr (.inr hp), ne_of_mem_of_not_mem hp hys⟩
      · rintro (⟨hp | rfl | hp, hpx⟩ | hp)
        · exact .inl hp
        · exact absurd rfl hpx
        · exact .inr (.inr hp)
        · exact .inr (.inl hp)
    · rw [Function.update_of_ne hj]
      refine ⟨fun hp => .inl ⟨hp, fun hpx => hj ?_⟩, fun hp => hp.elim And.left fun h => ?_⟩
      · exact hL.lists.apart j i x (hpx ▸ hp) ((hmem i x).mpr hM)
      · exact absurd h.2 hj

/-- **Splitting a free block.** -/
theorem OnLists.split (h : OnLists s M) (hM : M i x) (hnM : ∀ j, ¬M j n)
    (hx : s.HDR x = .hdr hhdr) (hn : s.HDR n = .hdr nhdr) (hne : n ≠ x)
    (hle : (n - x) * HBLKSIZE ≤ hhdr.hb_sz) :
    OnLists (s.GC_split_block x n i) fun j p =>
      M j p ∧ p ≠ x ∨ p = n ∧ j = i ∨ p = x ∧ j = GC_hblk_fl_from_blocks (n - x) := by
  obtain ⟨hhx, hhn, -⟩ := splitHeaders_HDR (i := i) hx hn hne
  have hadd := (h.splitHeaders hM hnM hx hn hne hle).add (x := x)
    (fun j hj => hj.elim (fun hj => hj.2 rfl) fun hj => hne hj.1.symm) hhx
  have hfl : (s.splitHeaders x n i).flOf x = GC_hblk_fl_from_blocks (n - x) := by
    unfold flOf
    rw [hb_sz_of_hdr hhx]
    show GC_hblk_fl_from_blocks (divHBLKSZ ((n - x) * HBLKSIZE)) = _
    rw [divHBLKSZ_mul]
  rw [GC_split_block_eq]
  refine (hadd.congr (mapHdr_GC_hblkfreelist ..) (mapHdr_hb_next ..) (mapHdr_hb_prev ..)
    (mapHdr_GC_free_bytes ..) fun j p _ => ?_).imp fun j p => ?_
  · by_cases hp : p = n
    · subst hp
      have hnow := (GC_add_to_fl_HDR_of_ne hne).trans hhn
      rw [hb_sz_of_hdr hnow, hb_sz_of_hdr (HDR_mapHdr_self hnow _)]
    · exact hb_sz_congr (HDR_mapHdr_of_ne hp _)
  · show M j p ∧ p ≠ x ∨ p = n ∧ j = i ∨ p = x ∧ j = _ ↔
      (M j p ∧ p ≠ x ∨ p = n ∧ j = i) ∨ p = x ∧ j = (s.splitHeaders x n i).flOf x
    rw [hfl, or_assoc]

theorem OnLists.totalFree_split (h : OnLists s M) (hM : M i x) (hi : i ≤ N_HBLK_FLS)
    (hx : s.HDR x = .hdr hhdr) (hn : s.HDR n = .hdr nhdr) (hne : n ≠ x)
    (hle : (n - x) * HBLKSIZE ≤ hhdr.hb_sz) :
    (s.GC_split_block x n i).totalFree = s.totalFree := by
  obtain ⟨hhx, -, -⟩ := splitHeaders_HDR (i := i) hx hn hne
  have hsz := h.hb_sz_le hM
  rw [hb_sz_of_hdr hx] at hsz
  have hsum := sum_update (f := s.GC_free_bytes)
    (v := s.GC_free_bytes i - (n - x) * HBLKSIZE) hi
  have hbytes : (s.splitHeaders x n i).GC_free_bytes =
      Function.update s.GC_free_bytes i (s.GC_free_bytes i - (n - x) * HBLKSIZE) := by
    unfold Hblks.splitHeaders
    simp only [mapHdr_GC_free_bytes]
  have htotal : (s.GC_split_block x n i).totalFree =
      ((s.splitHeaders x n i).GC_add_to_fl x).totalFree := by
    unfold totalFree
    rw [GC_split_block_eq, mapHdr_GC_free_bytes]
  rw [htotal, totalFree_add, hb_sz_of_hdr hhx]
  unfold totalFree
  rw [hbytes]
  show _ + (n - x) * HBLKSIZE = _
  omega

end

end Hblks

end Ironclad.Gc
