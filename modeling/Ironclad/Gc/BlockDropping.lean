import Ironclad.Gc.BlockTaking

/-!
# Dropping a block

A free block that is black listed completely is dropped: each of its pages becomes a block of its
own in use, which the next collection will find unmarked.
-/

namespace Ironclad.Gc

namespace Hblks

variable {s s' : Hblks} {x n k : Nat} {hhdr : Hblkhdr}

/-- The header of a page of a dropped block. -/
def droppedHdr : Hblkhdr := ⟨HBLKSIZE, PTRFREE, false, false⟩

/-- The loop of `dropBlock`, as far as the page `x + i`. -/
def dropPage (x : Nat) (s : Hblks) (i : Nat) : Hblks :=
  match if i = 0 then (true, s) else s.GC_install_header (x + i) with
  | (false, s) => s
  | (true, s) => (s.setup_header (x + i) HBLKSIZE PTRFREE false).2

/-- The state of `dropBlock` in front of the loop. -/
def takenOff (s : Hblks) (x n : Nat) : Hblks :=
  { s with
    GC_large_free_bytes := s.GC_large_free_bytes - s.hb_sz x
    GC_bytes_dropped := s.GC_bytes_dropped + s.hb_sz x }.GC_remove_from_fl x n

theorem dropBlock_eq (s : Hblks) (x n : Nat) :
    s.dropBlock x n =
      (List.range (divHBLKSZ (s.hb_sz x))).foldl (dropPage x) (s.takenOff x n) := rfl

theorem dropPage_eq {i : Nat} (hg : s.Granted) (hi : Indexed s) (hx : s.HDR x = .hdr hhdr) :
    (dropPage x s i).HDR = Function.update s.HDR (x + i) (.hdr droppedHdr) ∧
      Indexed (dropPage x s i) ∧ SameLists s (dropPage x s i) ∧ SameRest s (dropPage x s i) := by
  have hheader : ∃ s₁ hhdr₁,
      (if i = 0 then (true, s) else s.GC_install_header (x + i)) = (true, s₁) ∧
      s₁.HDR = Function.update s.HDR (x + i) (.hdr hhdr₁) ∧ Indexed s₁ ∧ SameLists s s₁ ∧
      SameRest s s₁ := by
    by_cases hi₀ : i = 0
    · rw [if_pos hi₀]
      refine ⟨s, hhdr, rfl, ?_, hi, .refl s, .refl s⟩
      rw [hi₀, Nat.add_zero, ← hx, Function.update_eq_self]
    · rw [if_neg hi₀]
      obtain ⟨s₁, hinstall, hHDR, hi₁, hlists, hrest⟩ := GC_install_header_eq hg hi (x + i)
      exact ⟨s₁, _, hinstall, hHDR, hi₁, hlists, hrest⟩
  obtain ⟨s₁, hhdr₁, hinstall, hHDR₁, hi₁, hlists₁, hrest₁⟩ := hheader
  have hx₁ : s₁.HDR (x + i) = .hdr hhdr₁ := by rw [hHDR₁, Function.update_self]
  obtain ⟨s₂, hsetup, hHDR₂, htables₂, hlists₂, hrest₂⟩ :=
    setup_header_eq HBLKSIZE PTRFREE false (hrest₁.granted hg) hx₁
  have hdrop : dropPage x s i = s₂ := by
    unfold dropPage
    rw [hinstall]
    simp only [hsetup]
  rw [hdrop]
  refine ⟨?_, hi₁.congr htables₂ fun q hq hnil => ?_, hlists₁.trans hlists₂,
    hrest₁.trans hrest₂⟩
  · rw [hHDR₂, hHDR₁, Function.update_idem]
    rfl
  · rw [hHDR₂] at hq
    by_cases hqx : q = x + i
    · rw [hqx, hx₁] at hnil
      cases hnil
    · rw [Function.update_of_ne hqx] at hq
      exact hq hnil

/-- The loop of `dropBlock`, over `k` pages. -/
theorem foldl_dropPage (hg : s.Granted) (hi : Indexed s) (hx : s.HDR x = .hdr hhdr) (k : Nat) :
    ((List.range k).foldl (dropPage x) s).HDR =
        (fun q => if x ≤ q ∧ q < x + k then .hdr droppedHdr else s.HDR q) ∧
      Indexed ((List.range k).foldl (dropPage x) s) ∧
      SameLists s ((List.range k).foldl (dropPage x) s) ∧
      SameRest s ((List.range k).foldl (dropPage x) s) := by
  induction k with
  | zero =>
      refine ⟨?_, hi, .refl s, .refl s⟩
      funext q
      rw [if_neg (by omega)]
      rfl
  | succ k ih =>
      obtain ⟨hHDR, hi₁, hlists, hrest⟩ := ih
      rw [List.range_succ, List.foldl_append]
      generalize (List.range k).foldl (dropPage x) s = s₁ at *
      have hx₁ : ∃ hhdr₁, s₁.HDR x = .hdr hhdr₁ := by
        rw [hHDR]
        simp only
        split
        · exact ⟨_, rfl⟩
        · exact ⟨_, hx⟩
      obtain ⟨hhdr₁, hx₁⟩ := hx₁
      obtain ⟨hHDR₂, hi₂, hlists₂, hrest₂⟩ := dropPage_eq (i := k) (hrest.granted hg) hi₁ hx₁
      refine ⟨?_, hi₂, hlists.trans hlists₂, hrest.trans hrest₂⟩
      show (dropPage x s₁ k).HDR = _
      rw [hHDR₂, hHDR]
      funext q
      by_cases hq : q = x + k
      · subst hq
        rw [Function.update_self, if_pos ⟨Nat.le_add_right _ _, by omega⟩]
      · rw [Function.update_of_ne hq]
        have hiff : x ≤ q ∧ q < x + k ↔ x ≤ q ∧ q < x + (k + 1) := by omega
        simp only [hiff]

/-- Pages in use, each a block of its own. -/
theorem tiled_dropped {T : Nat → IndexEntry} {b : Nat} (k : Nat) (hb : b = x + k)
    (hT : ∀ q, x ≤ q → q < b → T q = .hdr droppedHdr) : Tiled T x b := by
  induction k generalizing x with
  | zero =>
      obtain rfl : b = x := hb
      exact .nil _
  | succ k ih =>
      obtain ⟨hblock, hpages⟩ := blockAt_used (n := 1) (hT x le_rfl (by omega)) rfl (by decide)
        (by decide) fun q hxq hq => by omega
      refine .cons hblock ?_
      rw [hpages]
      exact ih (by omega) fun q hxq hq => hT q (by omega) hq

/-- **Dropping a block.** -/
theorem InOrder.drop (h : InOrder s) (hg : s.Granted) (hn : s.flOf x = n)
    (hx : s.HDR x = .hdr hhdr) (hfree : hhdr.free_blk = true) :
    InOrder (s.dropBlock x n) ∧ SameRest s (s.dropBlock x n) ∧
      SameLists (s.takenOff x n) (s.dropBlock x n) ∧
      Replaced s.HDR (s.dropBlock x n).HDR x (x + hhdr.pages) ∧
      ∀ p hhdr', UsedAt (s.dropBlock x n).HDR p hhdr' ↔
        UsedAt s.HDR p hhdr' ∨ (x ≤ p ∧ p < x + hhdr.pages) ∧ hhdr' = droppedHdr := by
  have hblock := h.table.block x hhdr hx
  have hpages : divHBLKSZ (s.hb_sz x) = hhdr.pages := by rw [hb_sz_of_hdr hx, pages_of_free hfree]
  have hlisted : Listed s n x := ⟨⟨hhdr, hx, hfree⟩, hn⟩
  have hoff : OnLists (s.takenOff x n) fun i p => s.Listed i p ∧ p ≠ x :=
    (h.lists.remove hlisted).congr rfl rfl rfl rfl fun _ _ _ => rfl
  have htotal := h.lists.totalFree_remove hlisted (hn ▸ s.flOf_le x)
  obtain ⟨hHDR, hi, hlists, hrest⟩ := @foldl_dropPage (s.takenOff x n) x hhdr hg
    ⟨h.index.sorted, h.index.mem⟩ hx (divHBLKSZ (s.hb_sz x))
  rw [← dropBlock_eq, hpages] at *
  generalize s.dropBlock x n = s₁ at *
  have hrest₁ : SameRest s s₁ := SameRest.trans (by exact ⟨rfl, rfl, rfl, rfl, rfl, id⟩) hrest
  have hin : ∀ q, x ≤ q → q < x + hhdr.pages → s₁.HDR q = .hdr droppedHdr := fun q hxq hq => by
    simp only [hHDR, if_pos (And.intro hxq hq)]
  have hout : ∀ q, ¬(x ≤ q ∧ q < x + hhdr.pages) → s₁.HDR q = s.HDR q := fun q hq => by
    simp only [hHDR, if_neg hq]
    rfl
  have hr : Replaced s.HDR s₁.HDR x (x + hhdr.pages) := {
    separate := h.table.separate_block hx
    tiled := tiled_dropped hhdr.pages rfl hin
    outside := fun q hq => hout q (by omega)
    first := (h.table.bounds x hhdr hx).1
    last := (h.table.bounds x hhdr hx).2 }
  refine ⟨?_, hrest₁, hlists, hr, fun p hhdr' => ?_⟩
  · refine {
      table := h.table.replace hr
      index := hi
      sections := h.sections.replace hrest₁ hr fun q hxq hq => hblock.owned hxq hq
      lists := ?_
      neighbours := ?_
      counted := ?_ }
    · refine (hoff.of_same hlists fun i p hp => hb_sz_congr (hout p ?_)).imp fun i p => ?_
      · rintro ⟨hxp, hpx⟩
        exact not_freeAt_nil
          (hblock.nil_of_free hfree (lt_of_le_of_ne hxp hp.2.symm) hpx) hp.1.1
      · by_cases hp : x ≤ p ∧ p < x + hhdr.pages
        · simp only [Listed, freeAt_iff (hin p hp.1 hp.2), droppedHdr, Bool.false_eq_true,
            false_and, false_iff, not_and, not_not, and_imp]
          intro hfreep _
          by_contra hpx
          exact not_freeAt_nil (hblock.nil_of_free hfree (by omega) hp.2) hfreep
        · rw [Listed, Listed, FreeAt.congr (hout p hp), flOf_congr (hout p hp)]
          have := hblock.pos
          exact ⟨fun hl => ⟨hl, by omega⟩, And.left⟩
    · refine Neighbours.replace h.neighbours h.table hr (fun p hhdr' hp hfree' hxp hpx _ => ?_)
        (fun p hhdr' hp hfree' hend hnext => ?_) fun _ _ hR => hR.elim
      · have hpos := ((h.table.replace hr).block p hhdr' hp).pos
        rw [hin p hxp (by omega)] at hp
        cases hp
        cases hfree'
      · rw [freeAt_iff (hin x le_rfl (by have := hblock.pos; omega))] at hnext
        cases hnext
    · rw [hlists.large, hlists.totalFree]
      show s.GC_large_free_bytes - s.hb_sz x = (s.GC_remove_from_fl x n).totalFree
      rw [h.counted]
      omega
  · unfold UsedAt
    by_cases hp : x ≤ p ∧ p < x + hhdr.pages
    · rw [hin p hp.1 hp.2]
      have hold : ¬(s.HDR p = .hdr hhdr' ∧ hhdr'.free_blk = false) := by
        rintro ⟨hT, hused⟩
        by_cases hpx : p = x
        · rw [hpx, hx] at hT
          cases hT
          rw [hfree] at hused
          cases hused
        · rw [hblock.nil_of_free hfree (by omega) hp.2] at hT
          cases hT
      constructor
      · rintro ⟨heq, -⟩
        cases heq
        exact .inr ⟨hp, rfl⟩
      · rintro (hT | ⟨-, rfl⟩)
        · exact absurd hT hold
        · exact ⟨rfl, rfl⟩
    · rw [hout p hp]
      simp only [hp, false_and, or_false]

end Hblks

end Ironclad.Gc
