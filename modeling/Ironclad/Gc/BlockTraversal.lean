import Ironclad.Gc.BlockLookup

/-!
# Going through the blocks in use

`GC_apply_to_all_blocks` runs through each table downwards and jumps over the pages of a block by
the forwarding counts; `GC_next_used_block` goes upwards and jumps over free blocks by their size.
Neither jump passes over the header of a block in use.
-/

namespace Ironclad.Gc

namespace Hblks

variable {s : Hblks} {T : Nat → IndexEntry} {key j p q h : Nat} {hhdr : Hblkhdr}

/-- A search for the one element with a property. -/
theorem find?_eq_some_iff_of_unique {α : Type*} {l : List α} {f : α → Bool} {P : α → Prop} {a : α}
    (hf : ∀ b ∈ l, f b = true ↔ P b) (hP : ∀ b b', P b → P b' → b = b') :
    l.find? f = some a ↔ a ∈ l ∧ P a := by
  constructor
  · intro h
    have hmem := List.mem_of_find?_eq_some h
    exact ⟨hmem, (hf a hmem).mp (List.find?_some h)⟩
  · rintro ⟨hmem, ha⟩
    cases hfind : l.find? f with
    | none => exact absurd ((hf a hmem).mpr ha) (List.find?_eq_none.mp hfind a hmem)
    | some b =>
        have hb := (hf b (List.mem_of_find?_eq_some hfind)).mp (List.find?_some hfind)
        rw [hP b a hb ha]

/-- A block in use starts at the page. -/
def UsedStart (T : Nat → IndexEntry) (p : Nat) : Prop := ∃ hhdr, UsedAt T p hhdr

theorem usedStart_iff (hT : T p = .hdr hhdr) : UsedStart T p ↔ hhdr.free_blk = false := by
  unfold UsedStart UsedAt
  simp [hT]

theorem not_usedStart_nil (hT : T p = .nil) : ¬UsedStart T p := by
  unfold UsedStart UsedAt
  simp [hT]

theorem not_usedStart_count {n : Nat} (hT : T p = .count n) : ¬UsedStart T p := by
  unfold UsedStart UsedAt
  simp [hT]

/-- No block starts between a page and the one that its count leads to. -/
theorem TableOk.between_count {n : Nat} (h : TableOk T) (hq : T q = .count n) :
    0 < n ∧ n ≤ q ∧ ∀ p, q - n < p → p ≤ q → ¬UsedStart T p := by
  obtain ⟨b, hhdr, hb, hbq, hlt⟩ := h.counts q n hq
  have hblock := h.block b hhdr hb
  have hne : b ≠ q := by
    rintro rfl
    rw [hb] at hq
    cases hq
  have hused : hhdr.free_blk = false := by
    rw [Bool.eq_false_iff]
    intro hfree
    rw [hblock.nil_of_free hfree (by omega) hlt] at hq
    cases hq
  have hcount := hblock.count_of_used hused (show b < q by omega) hlt
  rw [hq] at hcount
  cases hcount
  have hjump : 0 < MAX_JUMP := by decide
  refine ⟨by omega, by omega, fun p hpn hpq => ?_⟩
  exact not_usedStart_count (hblock.count_of_used hused (by omega) (by omega))

/-! ## Downwards -/

/-- **The loop of `GC_apply_to_all_blocks`** finds the blocks in use in the table, from the last. -/
theorem TableOk.usedInTable_spec (h : TableOk T) (key j : Nat) :
    (∀ p, p ∈ usedInTable T key j ↔
        key * BOTTOM_SZ ≤ p ∧ p ≤ key * BOTTOM_SZ + j ∧ UsedStart T p) ∧
      (usedInTable T key j).Pairwise (· > ·) := by
  induction j using Nat.strong_induction_on with
  | _ j ih =>
      -- the rest of the table, when the page itself is done with
      have hrest : ∀ l, (l = if 0 < j then usedInTable T key (j - 1) else []) →
          (∀ p, p ∈ l ↔ key * BOTTOM_SZ ≤ p ∧ p < key * BOTTOM_SZ + j ∧ UsedStart T p) ∧
            l.Pairwise (· > ·) := by
        rintro l rfl
        by_cases hj : 0 < j
        · rw [if_pos hj]
          refine ⟨fun p => ?_, (ih (j - 1) (by omega)).2⟩
          rw [(ih (j - 1) (by omega)).1]
          refine and_congr_right fun _ => and_congr_left fun _ => ?_
          omega
        · rw [if_neg hj]
          refine ⟨fun p => iff_of_false List.not_mem_nil fun hp => ?_, .nil⟩
          omega
      rw [usedInTable]
      cases hT : T (key * BOTTOM_SZ + j) with
      | nil =>
          obtain ⟨hmem, hsorted⟩ := hrest _ rfl
          refine ⟨fun p => (hmem p).trans (and_congr_right fun _ => ?_), hsorted⟩
          constructor
          · rintro ⟨hlt, hused⟩
            exact ⟨hlt.le, hused⟩
          · rintro ⟨hle, hused⟩
            refine ⟨lt_of_le_of_ne hle ?_, hused⟩
            rintro rfl
            exact not_usedStart_nil hT hused
      | hdr hhdr =>
          obtain ⟨hmem, hsorted⟩ := hrest _ rfl
          simp only
          by_cases hfree : hhdr.free_blk = true
          · rw [if_pos hfree, List.nil_append]
            refine ⟨fun p => (hmem p).trans (and_congr_right fun _ => ?_), hsorted⟩
            constructor
            · rintro ⟨hlt, hused⟩
              exact ⟨hlt.le, hused⟩
            · rintro ⟨hle, hused⟩
              refine ⟨lt_of_le_of_ne hle ?_, hused⟩
              rintro rfl
              rw [usedStart_iff hT, hfree] at hused
              cases hused
          · rw [if_neg hfree, List.singleton_append]
            constructor
            · intro p
              rw [List.mem_cons, hmem]
              constructor
              · rintro (rfl | ⟨hle, hlt, hused⟩)
                · exact ⟨Nat.le_add_right _ _, le_rfl,
                    (usedStart_iff hT).mpr (Bool.eq_false_iff.mpr hfree)⟩
                · exact ⟨hle, hlt.le, hused⟩
              · rintro ⟨hle, hlt, hused⟩
                rcases hlt.eq_or_lt with rfl | hlt
                · exact .inl rfl
                · exact .inr ⟨hle, hlt, hused⟩
            · exact List.pairwise_cons.mpr ⟨fun p hp => ((hmem p).mp hp).2.1, hsorted⟩
      | count n =>
          obtain ⟨hn, hnq, hnone⟩ := h.between_count hT
          simp only
          by_cases hj : 0 < n ∧ n ≤ j
          · rw [if_pos hj]
            obtain ⟨hmem, hsorted⟩ := ih (j - n) (by omega)
            refine ⟨fun p => (hmem p).trans (and_congr_right fun hle => ?_), hsorted⟩
            refine and_congr_left fun hused => ⟨by omega, fun hle' => ?_⟩
            by_contra hgt
            exact hnone p (by omega) hle' hused
          · rw [if_neg hj]
            refine ⟨fun p => iff_of_false List.not_mem_nil ?_, .nil⟩
            rintro ⟨hle, hle', hused⟩
            exact hnone p (by omega) hle' hused

/-- The pages of a table. -/
theorem page_in_table : key * BOTTOM_SZ ≤ p ∧ p ≤ key * BOTTOM_SZ + (BOTTOM_SZ - 1) ↔
    p / BOTTOM_SZ = key := by
  unfold BOTTOM_SZ LOG_BOTTOM_SZ
  omega

/-- **`GC_apply_to_all_blocks` comes to every block in use, once, and to nothing else.** -/
theorem GC_apply_to_all_blocks_spec (hT : TableOk s.HDR) (hs : Indexed s) :
    (∀ p, p ∈ s.GC_apply_to_all_blocks ↔ UsedStart s.HDR p) ∧ s.GC_apply_to_all_blocks.Nodup := by
  have htable : ∀ key p, p ∈ usedInTable s.HDR key (BOTTOM_SZ - 1) ↔
      p / BOTTOM_SZ = key ∧ UsedStart s.HDR p := fun key p => by
    rw [(hT.usedInTable_spec key _).1, ← and_assoc, page_in_table]
  unfold GC_apply_to_all_blocks
  constructor
  · intro p
    rw [List.mem_flatMap]
    constructor
    · rintro ⟨key, -, hp⟩
      exact ((htable key p).mp hp).2
    · rintro ⟨hhdr, hp⟩
      refine ⟨p / BOTTOM_SZ, hs.mem p (by rw [hp.1]; exact nofun), (htable _ p).mpr
        ⟨rfl, hhdr, hp⟩⟩
  · rw [List.nodup_flatMap]
    refine ⟨fun key _ => (hT.usedInTable_spec key _).2.imp fun hab => Nat.ne_of_gt hab,
      hs.sorted.imp fun hlt => ?_⟩
    intro p hp hp'
    have hkey := ((htable _ p).mp hp).1
    have hkey' := ((htable _ p).mp hp').1
    omega

/-! ## Upwards -/

/-- The first block in use from `a` on, in front of `b`. -/
def FirstUsed (T : Nat → IndexEntry) (a b : Nat) : Option Nat → Prop
  | none => ∀ q, a ≤ q → q < b → ¬UsedStart T q
  | some p => a ≤ p ∧ p < b ∧ UsedStart T p ∧ ∀ q, a ≤ q → q < p → ¬UsedStart T q

/-- Pages in front that are no start of a block in use. -/
theorem FirstUsed.of_skip {a a' b : Nat} {r : Option Nat} (h : FirstUsed T a' b r) (haa : a ≤ a')
    (hskip : ∀ q, a ≤ q → q < a' → q < b → ¬UsedStart T q) : FirstUsed T a b r := by
  cases r with
  | none =>
      intro q haq hq
      by_cases hqa : q < a'
      · exact hskip q haq hqa hq
      · exact h q (not_lt.mp hqa) hq
  | some p =>
      obtain ⟨hap, hpb, hused, hfirst⟩ := h
      refine ⟨haa.trans hap, hpb, hused, fun q haq hq => ?_⟩
      by_cases hqa : q < a'
      · exact hskip q haq hqa (hq.trans hpb)
      · exact hfirst q (not_lt.mp hqa) hq

/-- **The loop of `GC_next_used_block`.** -/
theorem TableOk.nextInTable_spec (h : TableOk T) (key j : Nat) (hj : j ≤ BOTTOM_SZ) :
    FirstUsed T (key * BOTTOM_SZ + j) (key * BOTTOM_SZ + BOTTOM_SZ) (nextInTable T key j) := by
  induction hn : BOTTOM_SZ - j using Nat.strong_induction_on generalizing j with
  | _ n ih =>
      -- going on behind some pages
      have hnext : ∀ k, 0 < k → (∀ q, key * BOTTOM_SZ + j ≤ q → q < key * BOTTOM_SZ + (j + k) →
          ¬UsedStart T q) → j < BOTTOM_SZ →
          FirstUsed T (key * BOTTOM_SZ + j) (key * BOTTOM_SZ + BOTTOM_SZ)
            (nextInTable T key (j + k)) := by
        intro k hk hskip hlt
        by_cases hjk : j + k ≤ BOTTOM_SZ
        · exact (ih _ (by omega) (j + k) hjk rfl).of_skip (by omega) fun q hq hqk _ =>
            hskip q hq hqk
        · rw [nextInTable, if_neg (by omega)]
          exact fun q hq hqb => hskip q hq (by omega)
      rw [nextInTable]
      by_cases hlt : j < BOTTOM_SZ
      · rw [if_pos hlt]
        cases hT : T (key * BOTTOM_SZ + j) with
        | hdr hhdr =>
            simp only
            have hblock := h.block _ hhdr hT
            by_cases hfree : hhdr.free_blk = true
            · have hpos := hblock.pos
              rw [pages_of_free hfree] at hpos
              rw [if_pos hfree, if_pos hpos]
              refine hnext _ hpos (fun q hq hqk => ?_) hlt
              rcases hq.eq_or_lt with rfl | hq
              · rw [usedStart_iff hT, hfree]
                exact nofun
              · refine not_usedStart_nil (hblock.nil_of_free hfree hq ?_)
                rw [pages_of_free hfree]
                omega
            · rw [if_neg hfree]
              exact ⟨le_rfl, by omega, (usedStart_iff hT).mpr (Bool.eq_false_iff.mpr hfree),
                fun q hq hqj => by omega⟩
        | nil =>
            refine hnext 1 one_pos (fun q hq hqk => ?_) hlt
            obtain rfl : q = key * BOTTOM_SZ + j := by omega
            exact not_usedStart_nil hT
        | count n =>
            refine hnext 1 one_pos (fun q hq hqk => ?_) hlt
            obtain rfl : q = key * BOTTOM_SZ + j := by omega
            exact not_usedStart_count hT
      · rw [if_neg hlt]
        intro q hq hqb
        omega

/-- The first block in use from `a` on. -/
def FirstFrom (T : Nat → IndexEntry) (a : Nat) : Option Nat → Prop
  | none => ∀ q, a ≤ q → ¬UsedStart T q
  | some p => a ≤ p ∧ UsedStart T p ∧ ∀ q, a ≤ q → q < p → ¬UsedStart T q

/-- Looking in front of `b` first. -/
theorem FirstUsed.or {a b : Nat} {r r' : Option Nat} (h : FirstUsed T a b r) (hab : a ≤ b)
    (h' : FirstFrom T b r') : FirstFrom T a (r.or r') := by
  cases r with
  | some p =>
      obtain ⟨hap, -, hused, hfirst⟩ := h
      exact ⟨hap, hused, hfirst⟩
  | none =>
      cases r' with
      | none =>
          intro q haq
          by_cases hqb : q < b
          · exact h q haq hqb
          · exact h' q (not_lt.mp hqb)
      | some p =>
          obtain ⟨hbp, hused, hfirst⟩ := h'
          refine ⟨hab.trans hbp, hused, fun q haq hqp => ?_⟩
          by_cases hqb : q < b
          · exact h q haq hqb
          · exact hfirst q (not_lt.mp hqb) hqp

/-- The first block in use in the tables that follow. -/
theorem findSome?_nextInTable (hT : TableOk T) {keys : List Nat} {lo : Nat}
    (hsorted : keys.Pairwise (· < ·)) (hlo : ∀ key ∈ keys, lo ≤ key * BOTTOM_SZ)
    (hmem : ∀ q, lo ≤ q → UsedStart T q → q / BOTTOM_SZ ∈ keys) :
    FirstFrom T lo (keys.findSome? fun key => nextInTable T key 0) := by
  induction keys generalizing lo with
  | nil =>
      intro q hq hused
      exact absurd (hmem q hq hused) List.not_mem_nil
  | cons key keys ih =>
      rw [List.pairwise_cons] at hsorted
      have hkey := hlo key List.mem_cons_self
      -- no block in use in front of the first table
      have hfront : ∀ q, lo ≤ q → q < key * BOTTOM_SZ → ¬UsedStart T q := by
        intro q hq hlt hused
        have hdiv : q / BOTTOM_SZ < key := Nat.div_lt_of_lt_mul (by rwa [Nat.mul_comm])
        rcases List.mem_cons.mp (hmem q hq hused) with heq | hin
        · omega
        · have := hsorted.1 _ hin
          omega
      have htable := hT.nextInTable_spec key 0 (Nat.zero_le _)
      rw [Nat.add_zero] at htable
      have htable := htable.of_skip hkey fun q hq hlt _ => hfront q hq hlt
      have hlo' : ∀ key' ∈ keys, key * BOTTOM_SZ + BOTTOM_SZ ≤ key' * BOTTOM_SZ := by
        intro key' hin
        calc key * BOTTOM_SZ + BOTTOM_SZ = (key + 1) * BOTTOM_SZ := (Nat.succ_mul _ _).symm
          _ ≤ key' * BOTTOM_SZ := Nat.mul_le_mul_right _ (hsorted.1 key' hin)
      have hrest := ih hsorted.2 hlo' fun q hq hused => by
          refine (List.mem_cons.mp (hmem q (by omega) hused)).resolve_left fun heq => ?_
          have hin := page_in_table.mpr heq
          have hpos := BOTTOM_SZ_pos
          omega
      have hor : (key :: keys).findSome? (fun key => nextInTable T key 0) =
          (nextInTable T key 0).or (keys.findSome? fun key => nextInTable T key 0) := by
        rw [List.findSome?_cons]
        cases nextInTable T key 0 <;> rfl
      rw [hor]
      exact htable.or (by omega) hrest

/-- **`GC_next_used_block` finds the first block in use from `h` on**, if there is one. -/
theorem GC_next_used_block_spec (hT : TableOk s.HDR) (hs : Indexed s) (h : Nat) :
    FirstFrom s.HDR h (s.GC_next_used_block h) := by
  have hdiv := Nat.div_add_mod' h BOTTOM_SZ
  have hmod := Nat.mod_lt h BOTTOM_SZ_pos
  have hused : ∀ q, UsedStart s.HDR q → q / BOTTOM_SZ ∈ s.bottom_indices := by
    rintro q ⟨hhdr, hq⟩
    exact hs.mem q (by rw [hq.1]; exact nofun)
  have hhere := hT.nextInTable_spec (h / BOTTOM_SZ) (h % BOTTOM_SZ) hmod.le
  rw [hdiv] at hhere
  have hlo : ∀ key ∈ s.bottom_indices.filter (h / BOTTOM_SZ < ·),
      h / BOTTOM_SZ * BOTTOM_SZ + BOTTOM_SZ ≤ key * BOTTOM_SZ := by
    intro key hkey
    have hlt : h / BOTTOM_SZ < key := by simpa using (List.mem_filter.mp hkey).2
    calc h / BOTTOM_SZ * BOTTOM_SZ + BOTTOM_SZ = (h / BOTTOM_SZ + 1) * BOTTOM_SZ :=
          (Nat.succ_mul _ _).symm
      _ ≤ key * BOTTOM_SZ := Nat.mul_le_mul_right _ hlt
  have habove := findSome?_nextInTable hT (hs.sorted.sublist List.filter_sublist) hlo
    fun q hq hqused => by
      refine List.mem_filter.mpr ⟨hused q hqused, ?_⟩
      have hlt : h / BOTTOM_SZ < q / BOTTOM_SZ := by
        rw [← Nat.succ_le_iff, Nat.le_div_iff_mul_le BOTTOM_SZ_pos, Nat.succ_mul]
        exact hq
      simpa using hlt
  unfold GC_next_used_block
  simp only
  split
  · exact hhere.or (by omega) habove
  · rename_i hnot
    -- there is no table for the page, so there is no block in use
    refine FirstUsed.or (r := none) (b := h / BOTTOM_SZ * BOTTOM_SZ + BOTTOM_SZ)
      (fun q hq hlt hqused => hnot ?_) (by omega) habove
    have hkey : q / BOTTOM_SZ = h / BOTTOM_SZ := page_in_table.mp ⟨by omega, by omega⟩
    exact hkey ▸ hused q hqused

end Hblks

end Ironclad.Gc
