import Ironclad.Gc.BlackListing
import Ironclad.Gc.BlockRuns

/-!
# What is on the black lists

The two black lists are bit tables that blocks are allocated by. Here the pages are remembered as
well, and in every run the tables say exactly that: a page is on a list if one with the same hash
has been put there. What is seen is kept until the second promotion after it.
-/

namespace Ironclad.Gc

namespace Hblks

open Ironclad.Logic

variable {s s' : Hblks} {scratch : Nat → Bool}

/-- The pages that have been put on the lists, before and after the last promotion. -/
structure Remembered where
  old : List Nat
  incomplete : List Nat

/-- The page is put on the list. -/
def noted (s : Hblks) (page : Nat) : Bool :=
  s.HDR page = .nil || onList s.GC_old_stack_bl page

def remember (s : Hblks) (r : Remembered) : BlockAction → Remembered
  | .addToBlackList page =>
      if s.noted page then { r with incomplete := page :: r.incomplete } else r
  | .promoteBlackLists => ⟨r.incomplete, []⟩
  | .unpromoteBlackLists => ⟨r.old, r.old⟩
  | _ => r

/-- The block allocator, with the pages remembered. -/
def remembering (scratch : Nat → Bool) : Machine (Hblks × Remembered) BlockAction where
  init := (initial scratch, ⟨[], []⟩)
  step sr a := (blockStep sr.1 a).map fun s => (s, remember sr.1 sr.2 a)

/-- The table is that of these pages. -/
def Tells (bl : PageHashTable) (l : List Nat) : Prop :=
  ∀ q, onList bl q = true ↔ ∃ page ∈ l, PHT_HASH page = PHT_HASH q

/-- One bit is set, and no other changes. -/
theorem get_set_pht_entry (bl : PageHashTable) (i j : Nat) :
    get_pht_entry_from_index (set_pht_entry_from_index bl i) j =
      (decide (i = j) || get_pht_entry_from_index bl j) := by
  unfold get_pht_entry_from_index set_pht_entry_from_index
  by_cases hword : j / WORDSZ = i / WORDSZ
  · have hbit : i % WORDSZ = j % WORDSZ ↔ i = j := by
      constructor
      · intro hmod
        rw [← Nat.div_add_mod i WORDSZ, ← hword, hmod, Nat.div_add_mod]
      · rintro rfl
        rfl
    have hlt : i % WORDSZ < 64 := Nat.mod_lt i (by decide)
    rw [hword, Function.update_self, BitVec.getLsbD_or, BitVec.getLsbD_twoPow, Bool.or_comm]
    simp [hbit, hlt]
  · rw [Function.update_of_ne hword]
    have hne : i ≠ j := by
      rintro rfl
      exact hword rfl
    simp [hne]

theorem Tells.empty : Tells (fun _ => 0) [] := fun q => by
  unfold onList get_pht_entry_from_index
  simp

/-- A page is put on the list. -/
theorem Tells.set {bl : PageHashTable} {l : List Nat} (h : Tells bl l) (page : Nat) :
    Tells (set_pht_entry_from_index bl (PHT_HASH page)) (page :: l) := by
  intro q
  rw [onList, get_set_pht_entry, Bool.or_eq_true, decide_eq_true_eq, List.exists_mem_cons_iff]
  exact or_congr_right (h q)

/-- The lists, and what is remembered. -/
structure Remembers (s : Hblks) (r : Remembered) : Prop where
  old : Tells s.GC_old_stack_bl r.old
  incomplete : Tells s.GC_incomplete_stack_bl r.incomplete

theorem Remembers.congr {r : Remembered} (h : Remembers s r)
    (hold : s'.GC_old_stack_bl = s.GC_old_stack_bl)
    (hincomplete : s'.GC_incomplete_stack_bl = s.GC_incomplete_stack_bl) : Remembers s' r :=
  ⟨hold ▸ h.old, hincomplete ▸ h.incomplete⟩

/-- **A step does to the tables what it does to the pages.** -/
theorem blockStep_remembers {a : BlockAction} {r : Remembered} (hinv : HeapInv s)
    (h : Remembers s r) (hstep : blockStep s a = some s') : Remembers s' (remember s r a) := by
  cases a with
  | addToHeap p k =>
      rw [blockStep] at hstep
      split at hstep
      · rename_i hcond
        obtain ⟨hk, hlast, hfresh⟩ := hcond
        by_cases hsects : s.GC_heap_sects.length < MAX_HEAP_SECTS
        · obtain ⟨s₁, hadd, hgrown⟩ := hinv.inOrder.add_to_heap hinv.sized hinv.granted hsects hk
            hlast (not_inSection_of_fresh hfresh)
          rw [hadd] at hstep
          cases hstep
          exact h.congr hgrown.old hgrown.incomplete
        · rw [GC_add_to_heap, if_pos (not_lt.mp hsects)] at hstep
          cases hstep
      · cases hstep
  | allochblk e sz kind flags =>
      rw [blockStep] at hstep
      split at hstep
      · rename_i hm
        obtain ⟨⟨x, s₁⟩, halloc, hr⟩ := hinv.inOrder.allochblk hinv.granted (Nat.lt_succ_self _) hm
          e kind flags
        rw [halloc] at hstep
        cases hstep
        have hrest : SameRest s s₁ := by
          cases x with
          | none => exact hr.2.rest
          | some x => exact hr.2.1
        exact h.congr hrest.old hrest.incomplete
      · cases hstep
  | freehblk x =>
      rw [blockStep] at hstep
      split at hstep
      · rename_i hx
        obtain ⟨hhdr, hx⟩ := isUsed_iff.mp hx
        obtain ⟨s₁, hfree, -, hrest, -⟩ := hinv.inOrder.freehblk hx
        rw [hfree] at hstep
        cases hstep
        exact h.congr hrest.old hrest.incomplete
      · cases hstep
  | roundUp x =>
      rw [blockStep] at hstep
      split at hstep
      · rename_i hx
        obtain ⟨hhdr, hx⟩ := isUsed_iff.mp hx
        obtain ⟨-, hrest⟩ := hinv.inOrder.roundUp hx
        cases hstep
        exact h.congr hrest.old hrest.incomplete
      · cases hstep
  | addToBlackList page =>
      cases hstep
      unfold GC_add_to_black_list_stack remember noted onList
      simp only [Bool.or_eq_true, decide_eq_true_eq]
      split
      · exact ⟨h.old, h.incomplete.set page⟩
      · exact h
  | promoteBlackLists =>
      cases hstep
      exact ⟨h.incomplete, .empty⟩
  | unpromoteBlackLists =>
      cases hstep
      exact ⟨h.old, h.old⟩

/-- **In every run** the tables are those of the pages that were put on the lists: a page is avoided
if one with its hash was seen after the last promotion but one. -/
theorem visits_remembers (hg : ∀ n, scratch n = true) (acts : List BlockAction) :
    (remembering scratch).Visits acts fun sr =>
      ∀ q, sr.1.BlackListed q ↔
        ∃ page ∈ sr.2.old ++ sr.2.incomplete, PHT_HASH page = PHT_HASH q := by
  refine (Machine.visits_of_invariant (M := remembering scratch)
    (fun sr => HeapInv sr.1 ∧ Remembers sr.1 sr.2)
    ⟨⟨initial_inOrder scratch, rfl, hg⟩, .empty, .empty⟩ ?_ acts).mono ?_
  · rintro ⟨s, r⟩ a sr' ⟨hinv, h⟩ hstep
    obtain ⟨s', hs', rfl⟩ := Option.map_eq_some_iff.mp hstep
    exact ⟨blockStep_inv hinv hs', blockStep_remembers hinv h hs'⟩
  · rintro ⟨s, r⟩ ⟨-, h⟩ q
    simp only [BlackListed, h.old q, h.incomplete q, List.mem_append, or_and_right, exists_or]

/-- As long as nothing is put on the lists, nothing is on them. -/
theorem visits_nothingListed (hg : ∀ n, scratch n = true) {acts : List BlockAction}
    (hacts : ∀ page, .addToBlackList page ∉ acts) :
    (blocks scratch).Visits acts fun s => ∀ q, ¬s.BlackListed q := by
  refine (Machine.visits_of_stepsMeet (M := blocks scratch)
    (fun s => HeapInv s ∧ Remembers s ⟨[], []⟩) (C := fun _ a => ∀ page, a ≠ .addToBlackList page)
    ⟨⟨initial_inOrder scratch, rfl, hg⟩, .empty, .empty⟩ ?_ ?_).mono ?_
  · rintro s a s' ⟨hinv, h⟩ ha hstep
    have h' := blockStep_remembers hinv h hstep
    refine ⟨blockStep_inv hinv hstep, ?_⟩
    cases a with
    | addToBlackList page => exact absurd rfl (ha page)
    | _ => exact h'
  · rintro as a has s - - page rfl
    exact hacts page (has.subset (by simp))
  · rintro s ⟨-, h⟩ q hq
    simp [BlackListed, h.old q, h.incomplete q] at hq

end Hblks

end Ironclad.Gc
