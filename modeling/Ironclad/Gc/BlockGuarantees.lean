import Ironclad.Gc.BlackListRuns
import Ironclad.Gc.BlockChoice
import Ironclad.Gc.BlockRefinement
import Ironclad.Gc.BlockReports

/-!
# What the block allocator guarantees

Everything here holds in every state of every run, whatever memory the operating system gives, in
whatever order blocks are allocated, freed and rounded up, and whatever gets on the black lists.
-/

namespace Ironclad.Gc

namespace Hblks

open Ironclad.Logic

variable {s s' : Hblks} {e : Heuristics} {a b p q x m fuel : Nat} {hhdr : Hblkhdr}
  {scratch : Nat → Bool}

/-- A section is added below another one, a block is placed behind a black listed page, rounded
up and freed, and another one is allocated. -/
def someActs : List BlockAction :=
  [.addToHeap 1024 32, .addToHeap 992 32, .addToBlackList 993, .promoteBlackLists,
    .allochblk ⟨false, true, false, 0, 0⟩ 20000 NORMAL false, .roundUp 994,
    .allochblk ⟨false, true, false, 0, 0⟩ 64 PTRFREE false, .freehblk 994]

theorem someActs_reaches : ∃ s, (blocks fun _ => true).run someActs = some s :=
  Option.isSome_iff_exists.mp (by decide +kernel)

/-- The same, with nothing on the black lists. -/
def quietActs : List BlockAction :=
  [.addToHeap 1024 32, .addToHeap 992 32,
    .allochblk ⟨false, true, false, 0, 0⟩ 20000 NORMAL false, .roundUp 992,
    .allochblk ⟨false, true, false, 0, 0⟩ 64 PTRFREE false, .freehblk 992]

theorem quietActs_reaches :
    ∃ s, (blocks fun _ => true).run quietActs = some s ∧ s.NothingListed := by
  obtain ⟨s, hs⟩ := Option.isSome_iff_exists.mp
    (show ((blocks fun _ => true).run quietActs).isSome = true by decide +kernel)
  refine ⟨s, hs, (visits_nothingListed (fun _ => rfl) fun page hpage => ?_).last hs⟩
  simp [quietActs] at hpage

/-! ## The heap is in order -/

/-- What an allocation of `sz` bytes may do: the block that it finds was free, and the others that
are in use are the old ones and those that have been dropped for the black lists. -/
structure Hands (s : Hblks) (sz kind : Nat) (flags : Bool) (r : Option Nat × Hblks) : Prop where
  found : ∀ x, r.1 = some x → UsedAt r.2.HDR x ⟨sz, kind, flags, false⟩ ∧
    ∀ q, x ≤ q → q < x + OBJ_SZ_TO_BLOCKS sz → s.FreePage q
  kept : ∀ p hhdr, UsedAt s.HDR p hhdr → UsedAt r.2.HDR p hhdr
  new : ∀ p hhdr, UsedAt r.2.HDR p hhdr → UsedAt s.HDR p hhdr ∨
    hhdr = ⟨HBLKSIZE, PTRFREE, false, false⟩ ∨ r.1 = some p ∧ hhdr = ⟨sz, kind, flags, false⟩

theorem InOrder.hands {sz kind : Nat} {flags : Bool} {r : Option Nat × Hblks} (h : InOrder s)
    (hr : Allocated s ⟨sz, kind, flags, false⟩ r) : s.Hands sz kind flags r := by
  obtain ⟨_ | x, s'⟩ := r
  · exact ⟨nofun, hr.2.kept, fun p hhdr hp => (hr.2.new p hhdr hp).imp_right .inl⟩
  · obtain ⟨horder, hrest, hx, -, hfresh, hkept, hnew⟩ := hr
    refine ⟨fun y hy => ?_, hkept, fun p hhdr hp => (hnew p hhdr hp).imp_right fun hp => ?_⟩
    · cases hy
      exact ⟨hx, fun q hxq hq => h.freePage_of_allocated horder hrest hx hfresh hkept hxq hq⟩
    · exact hp.imp_right fun hp => ⟨by rw [hp.1], hp.2⟩

/-- A larger list may always be split. -/
theorem InOrder.canMeet_of_run (h : InOrder s) (he : e.useEntireHeap = true) (hm : 0 < m)
    (hrun : ∀ q, a ≤ q → q < a + m → s.FreePage q) : s.CanMeet e m := by
  obtain ⟨p, hhdr, hp, hfree, hle, hend⟩ := h.free_run (b := a + m) (by omega) hrun
  refine ⟨p, hhdr, hp, hfree, ?_⟩
  by_cases hpages : hhdr.pages = m
  · exact .inl hpages
  · refine .inr ⟨by omega, ?_⟩
    rw [splitLimit, if_pos he]
    exact GC_hblk_fl_from_blocks_le _

end Hblks

end Ironclad.Gc
