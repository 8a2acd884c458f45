import Ironclad.Gc.BlockLists

/-!
# Changing the index

What the functions that install and remove headers do to the index, while no request for memory is
refused. `SameLists` and `SameRest` say what they leave alone.
-/

namespace Ironclad.Gc

namespace Hblks

variable {s s' s'' : Hblks} {p q h n i : Nat} {e : IndexEntry} {hhdr : Hblkhdr}

/-- Every request for memory for a header, a table or a map is granted. -/
def Granted (s : Hblks) : Prop := ∀ n, s.scratch n = true

/-- The free lists are the same. -/
structure SameLists (s s' : Hblks) : Prop where
  head : s'.GC_hblkfreelist = s.GC_hblkfreelist
  next : s'.hb_next = s.hb_next
  prev : s'.hb_prev = s.hb_prev
  bytes : s'.GC_free_bytes = s.GC_free_bytes
  large : s'.GC_large_free_bytes = s.GC_large_free_bytes

/-- What neither the index nor the free lists are about is the same. -/
structure SameRest (s s' : Hblks) : Prop where
  sects : s'.GC_heap_sects = s.GC_heap_sects
  heapsize : s'.GC_heapsize = s.GC_heapsize
  old : s'.GC_old_stack_bl = s.GC_old_stack_bl
  incomplete : s'.GC_incomplete_stack_bl = s.GC_incomplete_stack_bl
  spacing : s'.GC_black_list_spacing = s.GC_black_list_spacing
  granted : s.Granted → s'.Granted

theorem SameLists.refl (s : Hblks) : SameLists s s := ⟨rfl, rfl, rfl, rfl, rfl⟩

theorem SameLists.trans (h : SameLists s s') (h' : SameLists s' s'') : SameLists s s'' :=
  ⟨h'.head.trans h.head, h'.next.trans h.next, h'.prev.trans h.prev, h'.bytes.trans h.bytes,
    h'.large.trans h.large⟩

theorem SameLists.totalFree (h : SameLists s s') : s'.totalFree = s.totalFree := by
  unfold Hblks.totalFree
  rw [h.bytes]

theorem SameRest.refl (s : Hblks) : SameRest s s := ⟨rfl, rfl, rfl, rfl, rfl, id⟩

theorem SameRest.trans (h : SameRest s s') (h' : SameRest s' s'') : SameRest s s'' :=
  ⟨h'.sects.trans h.sects, h'.heapsize.trans h.heapsize, h'.old.trans h.old,
    h'.incomplete.trans h.incomplete, h'.spacing.trans h.spacing, h'.granted ∘ h.granted⟩

theorem OnLists.of_same {M : Nat → Nat → Prop} (h : OnLists s M) (hsame : SameLists s s')
    (hsz : ∀ i p, M i p → s'.hb_sz p = s.hb_sz p) : OnLists s' M :=
  h.congr hsame.head hsame.next hsame.prev hsame.bytes hsz

/-- The tables still have an entry for every page. -/
theorem Indexed.congr (h : Indexed s) (htables : s'.bottom_indices = s.bottom_indices)
    (hHDR : ∀ q, s'.HDR q ≠ .nil → s.HDR q ≠ .nil) : Indexed s' where
  sorted := by
    rw [htables]
    exact h.sorted
  mem q hq := by
    rw [htables]
    exact h.mem q (hHDR q hq)

/-! ## Entries -/

theorem HDR_SET_HDR (s : Hblks) (p : Nat) (e : IndexEntry) :
    (s.SET_HDR p e).HDR = Function.update s.HDR p e := rfl

theorem SET_HDR_sameLists (s : Hblks) (p : Nat) (e : IndexEntry) : SameLists s (s.SET_HDR p e) :=
  ⟨rfl, rfl, rfl, rfl, rfl⟩

theorem SET_HDR_sameRest (s : Hblks) (p : Nat) (e : IndexEntry) : SameRest s (s.SET_HDR p e) :=
  ⟨rfl, rfl, rfl, rfl, rfl, id⟩

theorem mapHdr_sameLists (s : Hblks) (p : Nat) (f : Hblkhdr → Hblkhdr) :
    SameLists s (s.mapHdr p f) := by
  unfold mapHdr
  split
  · exact SET_HDR_sameLists s p _
  · exact .refl s

theorem mapHdr_sameRest (s : Hblks) (p : Nat) (f : Hblkhdr → Hblkhdr) :
    SameRest s (s.mapHdr p f) := by
  unfold mapHdr
  split
  · exact SET_HDR_sameRest s p _
  · exact .refl s

theorem SameRest.mapHdr (h : SameRest s s') (p : Nat) (f : Hblkhdr → Hblkhdr) :
    SameRest s (s'.mapHdr p f) := h.trans (mapHdr_sameRest s' p f)

theorem HDR_mapHdr (h : s.HDR p = .hdr hhdr) (f : Hblkhdr → Hblkhdr) :
    (s.mapHdr p f).HDR = Function.update s.HDR p (.hdr (f hhdr)) := by
  rw [mapHdr_of_hdr h]
  rfl

theorem Indexed.mapHdr (h : Indexed s) (p : Nat) (f : Hblkhdr → Hblkhdr) :
    Indexed (s.mapHdr p f) := by
  refine h.congr (mapHdr_bottom_indices s p f) fun q hq => ?_
  unfold Hblks.mapHdr at hq
  split at hq
  · rename_i hhdr hp
    by_cases heq : q = p
    · rw [heq, hp]
      intro hnil
      cases hnil
    · rwa [HDR_SET_HDR, Function.update_of_ne heq] at hq
  · exact hq

/-- The entries of the pages that `idx` names are set one after the other. -/
theorem foldl_SET_HDR (f : Nat → IndexEntry) (idx : List Nat) (s : Hblks) :
    (idx.foldl (fun s i => s.SET_HDR (h + i) (f i)) s).HDR =
        (fun q => if h ≤ q ∧ q - h ∈ idx then f (q - h) else s.HDR q) ∧
      SameLists s (idx.foldl (fun s i => s.SET_HDR (h + i) (f i)) s) ∧
      SameRest s (idx.foldl (fun s i => s.SET_HDR (h + i) (f i)) s) ∧
      (idx.foldl (fun s i => s.SET_HDR (h + i) (f i)) s).bottom_indices = s.bottom_indices := by
  induction idx generalizing s with
  | nil => exact ⟨by simp, .refl s, .refl s, rfl⟩
  | cons i idx ih =>
      obtain ⟨hHDR, hlists, hrest, htables⟩ := ih (s.SET_HDR (h + i) (f i))
      rw [List.foldl_cons]
      refine ⟨?_, (SET_HDR_sameLists s _ _).trans hlists, (SET_HDR_sameRest s _ _).trans hrest,
        htables⟩
      rw [hHDR]
      funext q
      simp only [List.mem_cons, SET_HDR]
      by_cases hq : q = h + i
      · subst hq
        simp
      · rw [Function.update_of_ne hq]
        have hne : h ≤ q → q - h ≠ i := by omega
        by_cases hle : h ≤ q
        · simp [hle, hne hle]
        · simp [hle]

/-- Behind the first of `n` pages. -/
theorem foldl_range'_SET_HDR (f : Nat → IndexEntry) (s : Hblks) (h n : Nat) :
    ((List.range' 1 (n - 1)).foldl (fun s i => s.SET_HDR (h + i) (f i)) s).HDR =
      fun q => if h < q ∧ q < h + n then f (q - h) else s.HDR q := by
  rw [(foldl_SET_HDR f _ s).1]
  funext q
  have hiff : (h ≤ q ∧ q - h ∈ List.range' 1 (n - 1)) ↔ (h < q ∧ q < h + n) := by
    rw [List.mem_range'_1]
    omega
  simp only [hiff]

/-- **`GC_remove_counts`.** -/
theorem GC_remove_counts_HDR (s : Hblks) (h n : Nat) :
    (s.GC_remove_counts h n).HDR = fun q => if h < q ∧ q < h + n then .nil else s.HDR q :=
  foldl_range'_SET_HDR (fun _ => .nil) s h n

theorem GC_remove_counts_same (s : Hblks) (h n : Nat) :
    SameLists s (s.GC_remove_counts h n) ∧ SameRest s (s.GC_remove_counts h n) ∧
      (s.GC_remove_counts h n).bottom_indices = s.bottom_indices :=
  (foldl_SET_HDR (fun _ => .nil) _ s).2

/-! ## Tables and headers -/

theorem GC_scratch_alloc_eq (hs : s.Granted) :
    s.GC_scratch_alloc = (true, { s with scratch := fun n => s.scratch (n + 1) }) := by
  unfold GC_scratch_alloc
  rw [hs 0]

/-- A new table. -/
theorem Indexed.insert (hs : Indexed s) (hnew : p ∉ s.bottom_indices)
    (htables : s'.bottom_indices = s.bottom_indices.orderedInsert (· ≤ ·) p)
    (hHDR : s'.HDR = s.HDR) : Indexed s' := by
  have hperm := List.perm_orderedInsert (· ≤ ·) p s.bottom_indices
  constructor
  · rw [htables]
    have hle : (s.bottom_indices.orderedInsert (· ≤ ·) p).Pairwise (· ≤ ·) :=
      List.Pairwise.orderedInsert p _ (hs.sorted.imp Nat.le_of_lt)
    have hnodup : (s.bottom_indices.orderedInsert (· ≤ ·) p).Nodup :=
      hperm.nodup_iff.mpr (List.nodup_cons.mpr ⟨hnew, hs.sorted.imp Nat.ne_of_lt⟩)
    exact (hle.and hnodup).imp fun hab => lt_of_le_of_ne hab.1 hab.2
  · intro q hq
    rw [hHDR] at hq
    rw [htables, hperm.mem_iff]
    exact List.mem_cons_of_mem _ (hs.mem q hq)

/-- **`get_index`.** -/
theorem get_index_eq (hs : s.Granted) (hi : Indexed s) (p : Nat) :
    ∃ s', s.get_index p = (true, s') ∧ s'.HDR = s.HDR ∧ Indexed s' ∧
      p / BOTTOM_SZ ∈ s'.bottom_indices ∧ s.bottom_indices ⊆ s'.bottom_indices ∧
      SameLists s s' ∧ SameRest s s' := by
  unfold get_index
  by_cases hmem : p / BOTTOM_SZ ∈ s.bottom_indices
  · simp only [if_pos hmem]
    exact ⟨s, rfl, rfl, hi, hmem, fun _ => id, .refl s, .refl s⟩
  · simp only [if_neg hmem, GC_scratch_alloc_eq hs]
    have hperm := List.perm_orderedInsert (· ≤ ·) (p / BOTTOM_SZ) s.bottom_indices
    refine ⟨_, rfl, rfl, hi.insert hmem rfl rfl, hperm.mem_iff.mpr List.mem_cons_self,
      fun k hk => hperm.mem_iff.mpr (List.mem_cons_of_mem _ hk), ⟨rfl, rfl, rfl, rfl, rfl⟩,
      ⟨rfl, rfl, rfl, rfl, rfl, fun h n => h (n + 1)⟩⟩

/-- **`GC_install_header`.** -/
theorem GC_install_header_eq (hs : s.Granted) (hi : Indexed s) (h : Nat) :
    ∃ s', s.GC_install_header h = (true, s') ∧
      s'.HDR = Function.update s.HDR h (.hdr Hblkhdr.uninitialized) ∧ Indexed s' ∧
      SameLists s s' ∧ SameRest s s' := by
  obtain ⟨s₁, hget, hHDR, hi₁, hmem, -, hlists, hrest⟩ := get_index_eq hs hi h
  have halloc : ∃ s₂, s₁.alloc_hdr = (true, s₂) ∧ s₂.HDR = s₁.HDR ∧
      s₂.bottom_indices = s₁.bottom_indices ∧ SameLists s₁ s₂ ∧ SameRest s₁ s₂ := by
    unfold alloc_hdr
    split
    · rw [GC_scratch_alloc_eq (hrest.granted hs)]
      exact ⟨_, rfl, rfl, rfl, ⟨rfl, rfl, rfl, rfl, rfl⟩,
        ⟨rfl, rfl, rfl, rfl, rfl, fun h n => h (n + 1)⟩⟩
    · exact ⟨_, rfl, rfl, rfl, ⟨rfl, rfl, rfl, rfl, rfl⟩, ⟨rfl, rfl, rfl, rfl, rfl, id⟩⟩
  obtain ⟨s₂, halloc, hHDR₂, htables, hlists₂, hrest₂⟩ := halloc
  unfold GC_install_header
  rw [hget]
  simp only [halloc]
  refine ⟨_, rfl, ?_, ⟨?_, fun q hq => ?_⟩,
    (hlists.trans hlists₂).trans (SET_HDR_sameLists _ _ _),
    (hrest.trans hrest₂).trans (SET_HDR_sameRest _ _ _)⟩
  · rw [SET_HDR, hHDR₂, hHDR]
  · show s₂.bottom_indices.Pairwise (· < ·)
    rw [htables]
    exact hi₁.sorted
  · show q / BOTTOM_SZ ∈ s₂.bottom_indices
    rw [htables]
    by_cases hqh : q = h
    · rw [hqh]
      exact hmem
    · rw [HDR_SET_HDR, Function.update_of_ne hqh, hHDR₂] at hq
      exact hi₁.mem q hq

/-- **`GC_install_counts`**: the first loop. -/
theorem getIndices_eq (hs : s.Granted) (hi : Indexed s) (l : List Nat) :
    ∃ s', s.getIndices l = (true, s') ∧ s'.HDR = s.HDR ∧ Indexed s' ∧
      (∀ p ∈ l, p / BOTTOM_SZ ∈ s'.bottom_indices) ∧ s.bottom_indices ⊆ s'.bottom_indices ∧
      SameLists s s' ∧ SameRest s s' := by
  induction l generalizing s with
  | nil =>
      exact ⟨s, rfl, rfl, hi, fun _ hp => absurd hp List.not_mem_nil, fun _ => id, .refl s,
        .refl s⟩
  | cons p l ih =>
      obtain ⟨s₁, hget, hHDR₁, hi₁, hmem₁, hsub₁, hlists₁, hrest₁⟩ := get_index_eq hs hi p
      obtain ⟨s₂, hall, hHDR₂, hi₂, hmem₂, hsub₂, hlists₂, hrest₂⟩ := ih (hrest₁.granted hs) hi₁
      refine ⟨s₂, ?_, hHDR₂.trans hHDR₁, hi₂, fun q hq => ?_, fun k hk => hsub₂ (hsub₁ hk),
        hlists₁.trans hlists₂, hrest₁.trans hrest₂⟩
      · rw [getIndices, hget]
        exact hall
      · rcases List.mem_cons.mp hq with rfl | hq
        · exact hsub₂ hmem₁
        · exact hmem₂ q hq

/-- A step of the size of a table from the first page on, and the last page, miss no table. -/
theorem table_of_pages {q : Nat} (hq : h ≤ q) (hqn : q < h + n) :
    (∃ i < (n + BOTTOM_SZ - 1) / BOTTOM_SZ, q / BOTTOM_SZ = (h + BOTTOM_SZ * i) / BOTTOM_SZ) ∨
      q / BOTTOM_SZ = (h + n - 1) / BOTTOM_SZ := by
  have hstep : ∀ i, (h + BOTTOM_SZ * i) / BOTTOM_SZ = h / BOTTOM_SZ + i := fun i =>
    Nat.add_mul_div_left h i BOTTOM_SZ_pos
  simp only [hstep]
  unfold BOTTOM_SZ LOG_BOTTOM_SZ
  by_cases hlast : q / 2 ^ 10 = (h + n - 1) / 2 ^ 10
  · exact .inr hlast
  · exact .inl ⟨q / 2 ^ 10 - h / 2 ^ 10, by omega, by omega⟩

/-- **`GC_install_counts`.** -/
theorem GC_install_counts_eq (hs : s.Granted) (hi : Indexed s) (h n : Nat) :
    ∃ s', s.GC_install_counts h n = (true, s') ∧
      s'.HDR = (fun q => if h < q ∧ q < h + n then .count (min (q - h) MAX_JUMP)
        else s.HDR q) ∧
      Indexed s' ∧ SameLists s s' ∧ SameRest s s' := by
  obtain ⟨s₁, hall, hHDR, hi₁, hmem, -, hlists, hrest⟩ := getIndices_eq hs hi
    (((List.range ((n + BOTTOM_SZ - 1) / BOTTOM_SZ)).map fun i => h + BOTTOM_SZ * i) ++
      [h + n - 1])
  obtain ⟨-, hlists₂, hrest₂, htables⟩ :=
    foldl_SET_HDR (h := h) (fun i => .count (min i MAX_JUMP)) (List.range' 1 (n - 1)) s₁
  have hHDR₂ := foldl_range'_SET_HDR (fun i => .count (min i MAX_JUMP)) s₁ h n
  unfold GC_install_counts
  simp only [hall]
  refine ⟨_, rfl, ?_, ⟨?_, fun q hq => ?_⟩, hlists.trans hlists₂, hrest.trans hrest₂⟩
  · rw [hHDR₂, hHDR]
  · rw [htables]
    exact hi₁.sorted
  · rw [htables]
    rw [hHDR₂] at hq
    by_cases hin : h < q ∧ q < h + n
    · rcases table_of_pages hin.1.le hin.2 with ⟨i, hi, heq⟩ | heq
      · rw [heq]
        exact hmem _ (List.mem_append_left _
          (List.mem_map_of_mem (List.mem_range.mpr hi)))
      · rw [heq]
        exact hmem _ (List.mem_append_right _ (List.mem_singleton_self _))
    · simp only [if_neg hin] at hq
      exact hi₁.mem q hq

/-- **`GC_remove_header`.** -/
theorem GC_remove_header_HDR (s : Hblks) (h : Nat) :
    (s.GC_remove_header h).HDR = Function.update s.HDR h .nil := rfl

theorem GC_remove_header_same (s : Hblks) (h : Nat) :
    SameLists s (s.GC_remove_header h) ∧ SameRest s (s.GC_remove_header h) :=
  ⟨⟨rfl, rfl, rfl, rfl, rfl⟩, ⟨rfl, rfl, rfl, rfl, rfl, id⟩⟩

theorem Indexed.remove_header (hi : Indexed s) (h : Nat) : Indexed (s.GC_remove_header h) := by
  refine hi.congr rfl fun q hq hnil => hq ?_
  rw [GC_remove_header_HDR]
  by_cases hqh : q = h
  · rw [hqh, Function.update_self]
  · rw [Function.update_of_ne hqh, hnil]

theorem Indexed.remove_counts (hi : Indexed s) (h n : Nat) :
    Indexed (s.GC_remove_counts h n) := by
  refine hi.congr (GC_remove_counts_same s h n).2.2 fun q hq hnil => hq ?_
  simp only [GC_remove_counts_HDR, hnil, ite_self]

/-- **`setup_header`.** -/
theorem setup_header_eq (sz kind : Nat) (flags : Bool) (hs : s.Granted)
    (hh : s.HDR h = .hdr hhdr) :
    ∃ s', s.setup_header h sz kind flags = (true, s') ∧
      s'.HDR = Function.update s.HDR h (.hdr ⟨sz, kind, flags, false⟩) ∧
      s'.bottom_indices = s.bottom_indices ∧ SameLists s s' ∧ SameRest s s' := by
  have hs₁ : (s.mapHdr h fun _ => ⟨sz, kind, flags, false⟩).Granted :=
    (mapHdr_sameRest s h _).granted hs
  have hmap : ∀ s₁ : Hblks, s₁.Granted → ∀ granules, ∃ s₂,
      s₁.GC_add_map_entry granules = (true, s₂) ∧ s₂.HDR = s₁.HDR ∧
        s₂.bottom_indices = s₁.bottom_indices ∧ SameLists s₁ s₂ ∧ SameRest s₁ s₂ := by
    intro s₁ hs₁ granules
    unfold GC_add_map_entry
    generalize (if MAXOBJGRANULES < granules then 0 else granules) = entry
    simp only
    split
    · exact ⟨_, rfl, rfl, rfl, .refl s₁, .refl s₁⟩
    · rw [GC_scratch_alloc_eq hs₁]
      exact ⟨_, rfl, rfl, rfl, ⟨rfl, rfl, rfl, rfl, rfl⟩,
        ⟨rfl, rfl, rfl, rfl, rfl, fun h n => h (n + 1)⟩⟩
  obtain ⟨s₂, hadd, hHDR, htables, hlists, hrest⟩ := hmap _ hs₁ (sz / GRANULE_BYTES)
  unfold setup_header
  simp only [hadd]
  exact ⟨s₂, rfl, hHDR.trans (HDR_mapHdr hh _), htables.trans (mapHdr_bottom_indices s h _),
    (mapHdr_sameLists s h _).trans hlists, (mapHdr_sameRest s h _).trans hrest⟩

end Hblks

end Ironclad.Gc
