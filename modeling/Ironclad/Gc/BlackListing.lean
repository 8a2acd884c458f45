import Ironclad.Gc.BlackList

/-!
# Pages on the black lists

`GC_is_black_listed` passes over whole words of the two tables that are zero. It still finds the
first page that is on one of the lists.
-/

namespace Ironclad.Gc

namespace Hblks

variable {old incomplete : PageHashTable} {s : Hblks} {h p nblocks i j : Nat}

/-- A page with this hash is on the list. -/
def onList (bl : PageHashTable) (p : Nat) : Bool := get_pht_entry_from_index bl (PHT_HASH p)

/-- The page is on one of the two lists. -/
def BlackListed (s : Hblks) (p : Nat) : Prop :=
  onList s.GC_old_stack_bl p = true ∨ onList s.GC_incomplete_stack_bl p = true

/-- The pages whose entries are in the same word, from this one on. -/
theorem PHT_HASH_add (p : Nat) {k : Nat} (hk : k < WORDSZ - PHT_HASH p % WORDSZ) :
    PHT_HASH (p + k) / WORDSZ = PHT_HASH p / WORDSZ := by
  unfold PHT_HASH PHT_ENTRIES LOG_PHT_ENTRIES WORDSZ at *
  omega

theorem onList_of_word (bl : PageHashTable) (p : Nat) {k : Nat}
    (hk : k < WORDSZ - PHT_HASH p % WORDSZ) (hword : bl (PHT_HASH p / WORDSZ) = 0) :
    onList bl (p + k) = false := by
  unfold onList get_pht_entry_from_index
  rw [PHT_HASH_add p hk, hword]
  exact BitVec.getLsbD_zero

/-- The pages that the loop looks at: this one, and those up to the end. -/
def Looked (nblocks i j : Nat) : Prop := i ≤ j ∧ (j < nblocks ∨ j = i)

/-- **The loop of `GC_is_black_listed`** stops behind the first page on one of the lists. -/
theorem blackListedFrom_eq (old incomplete : PageHashTable) (h nblocks i : Nat) :
    (blackListedFrom old incomplete h nblocks i = none ∧ ∀ j, Looked nblocks i j →
        onList old (h + j) = false ∧ onList incomplete (h + j) = false) ∨
      ∃ j, blackListedFrom old incomplete h nblocks i = some (h + j + 1) ∧ Looked nblocks i j ∧
        (onList old (h + j) = true ∨ onList incomplete (h + j) = true) ∧
        ∀ j', i ≤ j' → j' < j →
          onList old (h + j') = false ∧ onList incomplete (h + j') = false := by
  induction i using blackListedFrom.induct old incomplete h nblocks with
  | case1 i index hword hlt ih =>
      -- nothing in this word: the rest of it is passed over
      rw [blackListedFrom]
      simp only [index] at hword hlt ih
      rw [if_pos hword, if_pos hlt]
      have hskip : ∀ j, i ≤ j → j < i + (WORDSZ - PHT_HASH (h + i) % WORDSZ) →
          onList old (h + j) = false ∧ onList incomplete (h + j) = false := by
        intro j hij hj
        rw [show h + j = h + i + (j - i) by omega]
        exact ⟨onList_of_word _ _ (by omega) hword.1, onList_of_word _ _ (by omega) hword.2⟩
      have hmod := Nat.mod_lt (PHT_HASH (h + i)) (show 0 < WORDSZ by decide)
      rcases ih with ⟨hnone, hall⟩ | ⟨j, hsome, hlook, hlisted, hfirst⟩
      · refine .inl ⟨hnone, fun j hj => ?_⟩
        by_cases hjw : j < i + (WORDSZ - PHT_HASH (h + i) % WORDSZ)
        · exact hskip j hj.1 hjw
        · refine hall j ⟨by omega, ?_⟩
          unfold Looked at hj
          omega
      · refine .inr ⟨j, hsome, ?_, hlisted, fun j' hij hj' => ?_⟩
        · unfold Looked at hlook ⊢
          omega
        · by_cases hjw : j' < i + (WORDSZ - PHT_HASH (h + i) % WORDSZ)
          · exact hskip j' hij hjw
          · exact hfirst j' (by omega) hj'
  | case2 i index hword hlt =>
      rw [blackListedFrom]
      simp only [index] at hword hlt
      rw [if_pos hword, if_neg hlt]
      refine .inl ⟨rfl, fun j hj => ?_⟩
      have hmod := Nat.mod_lt (PHT_HASH (h + i)) (show 0 < WORDSZ by decide)
      unfold Looked at hj
      rw [show h + j = h + i + (j - i) by omega]
      exact ⟨onList_of_word _ _ (by omega) hword.1, onList_of_word _ _ (by omega) hword.2⟩
  | case3 i index hword hlisted =>
      rw [blackListedFrom]
      simp only [index] at hword hlisted
      rw [if_neg hword, if_pos hlisted]
      refine .inr ⟨i, rfl, ⟨le_rfl, .inr rfl⟩, ?_, fun j' _ _ => by omega⟩
      simpa [onList] using hlisted
  | case4 i index hword hlisted hlt ih =>
      rw [blackListedFrom]
      simp only [index] at hword hlisted
      rw [if_neg hword, if_neg hlisted, if_pos hlt]
      have hi : onList old (h + i) = false ∧ onList incomplete (h + i) = false := by
        simpa [onList] using hlisted
      rcases ih with ⟨hnone, hall⟩ | ⟨j, hsome, hlook, hlisted, hfirst⟩
      · refine .inl ⟨hnone, fun j hj => ?_⟩
        rcases hj.1.eq_or_lt with rfl | hij
        · exact hi
        · exact hall j ⟨hij, by unfold Looked at hj; omega⟩
      · refine .inr ⟨j, hsome, ?_, hlisted, fun j' hij hj' => ?_⟩
        · unfold Looked at hlook ⊢
          omega
        · rcases hij.eq_or_lt with rfl | hij
          · exact hi
          · exact hfirst j' hij hj'
  | case5 i index hword hlisted hlt =>
      rw [blackListedFrom]
      simp only [index] at hword hlisted
      rw [if_neg hword, if_neg hlisted, if_neg hlt]
      refine .inl ⟨rfl, fun j hj => ?_⟩
      have hji : j = i := by unfold Looked at hj; omega
      rw [hji]
      simpa [onList] using hlisted

/-- The pages of `len` bytes, and the first one in any case. -/
theorem GC_is_black_listed_eq_none {len : Nat} (hnone : s.GC_is_black_listed h len = none)
    (hp : h ≤ p) (hlt : p < h + divHBLKSZ len ∨ p = h) : ¬s.BlackListed p := by
  rcases blackListedFrom_eq s.GC_old_stack_bl s.GC_incomplete_stack_bl h (divHBLKSZ len) 0 with
    ⟨-, hall⟩ | ⟨j, hsome, -⟩
  · obtain ⟨hold, hincomplete⟩ := hall (p - h) ⟨Nat.zero_le _, by omega⟩
    rw [Nat.add_sub_cancel' hp] at hold hincomplete
    unfold BlackListed
    simp [hold, hincomplete]
  · unfold GC_is_black_listed at hnone
    rw [hnone] at hsome
    cases hsome

theorem GC_is_black_listed_eq_some {len t : Nat} (hsome : s.GC_is_black_listed h len = some t) :
    h < t ∧ s.BlackListed (t - 1) := by
  rcases blackListedFrom_eq s.GC_old_stack_bl s.GC_incomplete_stack_bl h (divHBLKSZ len) 0 with
    ⟨hnone, -⟩ | ⟨j, hj, -, hlisted, -⟩
  · unfold GC_is_black_listed at hsome
    rw [hsome] at hnone
    cases hnone
  · unfold GC_is_black_listed at hsome
    rw [hsome] at hj
    cases hj
    exact ⟨by omega, by simpa [BlackListed] using hlisted⟩

/-- **`GC_is_black_listed` finds the first page that is on one of the lists**, though it passes
over whole words of the tables. -/
theorem GC_is_black_listed_exact (s : Hblks) (h len : Nat) :
    match s.GC_is_black_listed h len with
    | none => ∀ p, h ≤ p → p < h + divHBLKSZ len ∨ p = h → ¬s.BlackListed p
    | some t => ∃ p, t = p + 1 ∧ h ≤ p ∧ (p < h + divHBLKSZ len ∨ p = h) ∧ s.BlackListed p ∧
        ∀ q, h ≤ q → q < p → ¬s.BlackListed q := by
  rcases blackListedFrom_eq s.GC_old_stack_bl s.GC_incomplete_stack_bl h (divHBLKSZ len) 0 with
    ⟨hnone, -⟩ | ⟨j, hsome, hlook, hlisted, hfirst⟩
  · have hnone : s.GC_is_black_listed h len = none := hnone
    rw [hnone]
    exact fun p hp hlt => GC_is_black_listed_eq_none hnone hp hlt
  · have hsome : s.GC_is_black_listed h len = some (h + j + 1) := hsome
    rw [hsome]
    unfold Looked at hlook
    refine ⟨h + j, rfl, by omega, by omega, hlisted, fun q hq hlt => ?_⟩
    obtain ⟨hold, hincomplete⟩ := hfirst (q - h) (by omega) (by omega)
    rw [Nat.add_sub_cancel' hq] at hold hincomplete
    unfold BlackListed
    simp [hold, hincomplete]

end Hblks

end Ironclad.Gc
