import Ironclad.Gc.BlockAllocation

/-!
# Which requests are met

Without black lists in the way, `GC_allochblk` finds a block if and only if there is one of exactly
the size on some list, or a larger one on a list whose blocks may be split. Passing over a block
for a smaller one behind it loses nothing.
-/

namespace Ironclad.Gc

namespace Hblks

variable {s s' : Hblks} {e : Heuristics} {x p m n sz kind fuel : Nat} {flags may_split : Bool}
  {hhdr : Hblkhdr}

/-- No page is on a black list. -/
def NothingListed (s : Hblks) : Prop := ∀ q, ¬s.BlackListed q

/-- The block is large enough, and exactly so if it is not to be split. -/
def Suits (s : Hblks) (size_needed : Nat) (may_split : Bool) (y : Nat) : Prop :=
  s.hb_sz y = size_needed ∨ may_split = true ∧ size_needed < s.hb_sz y

theorem GC_is_black_listed_of_nothing (h : s.NothingListed) (x len : Nat) :
    s.GC_is_black_listed x len = none := by
  cases hq : s.GC_is_black_listed x len with
  | none => rfl
  | some q => exact absurd (GC_is_black_listed_eq_some hq).2 (h _)

/-- Every block that is considered is taken. -/
theorem consider_of_nothing (h : s.NothingListed) (e : Heuristics) (size_needed kind : Nat)
    (flags : Bool) (n x : Nat) :
    s.consider e size_needed kind flags n x = (.take x, s) := by
  have hskip : ∀ eff k fuel, s.skipBlackListed eff (x + k) (fuel + 1) x = x := by
    intro eff k fuel
    rw [skipBlackListed, if_pos (Nat.le_add_right _ _), GC_is_black_listed_of_nothing h]
  unfold consider
  simp only [hskip, Nat.le_add_right, if_true, ne_eq, not_true, if_false, ite_self]

/-- A block that suits is passed over for the next one only, which suits as well. -/
theorem Suits.next {size_needed : Nat} (h : s.Suits size_needed may_split x)
    (hpass : s.passesOver x size_needed may_split = true) :
    ∃ y, s.hb_next x = some y ∧ s.Suits size_needed may_split y := by
  unfold passesOver at hpass
  simp only at hpass
  rcases h with heq | ⟨hsplit, hlt⟩
  · rw [heq, if_neg (lt_irrefl _), if_neg (not_not.mpr rfl)] at hpass
    cases hpass
  · rw [if_neg (not_lt.mpr hlt.le), if_pos hlt.ne', hsplit, if_neg (by decide)] at hpass
    cases hnext : s.hb_next x with
    | none =>
        rw [hnext] at hpass
        cases hpass
    | some y =>
        simp only [hnext, Bool.and_eq_true, decide_eq_true_eq] at hpass
        refine ⟨y, rfl, ?_⟩
        rcases hpass.1.2.eq_or_lt with heq | hgt
        · exact .inl heq.symm
        · exact .inr ⟨hsplit, hgt⟩

/-- A block that does not suit is passed over. -/
theorem passesOver_of_not_suits {size_needed : Nat} (h : ¬s.Suits size_needed may_split x) :
    s.passesOver x size_needed may_split = true := by
  unfold passesOver Suits at *
  simp only
  by_cases hlt : s.hb_sz x < size_needed
  · rw [if_pos hlt]
  · have hne : s.hb_sz x ≠ size_needed := fun heq => h (.inl heq)
    have hsplit : may_split = false := by
      rw [Bool.eq_false_iff]
      exact fun hsplit => h (.inr ⟨hsplit, by omega⟩)
    rw [if_neg hlt, if_pos hne, hsplit]
    rfl

/-- **One list**: the search finds a block that suits, or there is none and nothing changes. -/
theorem InOrder.searchList_of_nothing (ho : InOrder s) (hg : s.Granted) (h : s.NothingListed)
    (hm : 0 < m) (e : Heuristics) (kind : Nat) (flags may_split : Bool) {suf : List Nat} :
    ∀ {fuel : Nat} {pos : Option Nat}, suf.length < fuel → At s n pos suf →
      (∃ x ∈ suf, s.Suits (HBLKSIZE * m) may_split x ∧ ∃ s',
          searchList e (HBLKSIZE * m) kind flags n may_split fuel s pos = some (some x, s')) ∨
        (∀ y ∈ suf, ¬s.Suits (HBLKSIZE * m) may_split y) ∧
          searchList e (HBLKSIZE * m) kind flags n may_split fuel s pos = some (none, s) := by
  induction suf with
  | nil =>
      intro fuel pos hfuel hat
      obtain ⟨fuel, rfl⟩ := Nat.exists_eq_add_of_lt hfuel
      obtain ⟨-, -, -, -, -, rfl⟩ := hat
      exact .inr ⟨fun y hy => absurd hy List.not_mem_nil, rfl⟩
  | cons x suf ih =>
      intro fuel pos hfuel hat
      obtain ⟨fuel, rfl⟩ := Nat.exists_eq_add_of_lt hfuel
      have hlisted := hat.listed List.mem_cons_self
      obtain ⟨hhdr, hx, hfree⟩ := hlisted.1
      have hpos : pos = some x := by
        obtain ⟨-, -, -, -, -, hpos⟩ := hat
        exact hpos
      subst hpos
      rw [searchList]
      by_cases hpass : s.passesOver x (HBLKSIZE * m) may_split = true
      · rw [if_pos hpass]
        have hlen : suf.length < (x :: suf).length + fuel := by
          simp only [List.length_cons]
          omega
        rcases ih hlen hat.next with ⟨y, hy, hfound⟩ | ⟨hnone, hfails⟩
        · exact .inl ⟨y, List.mem_cons_of_mem _ hy, hfound⟩
        · refine .inr ⟨fun y hy hsuits => ?_, hfails⟩
          rcases List.mem_cons.mp hy with rfl | hy
          · -- the block behind it suits as well
            obtain ⟨z, hz, hzsuits⟩ := hsuits.next hpass
            obtain ⟨-, -, -, -, -, hhead⟩ := hat.next
            rw [hz] at hhead
            exact hnone z (List.mem_of_mem_head? hhead.symm) hzsuits
          · exact hnone y hy hsuits
      · rw [if_neg hpass, consider_of_nothing h]
        have hsuits : s.Suits (HBLKSIZE * m) may_split x := by
          by_contra hnot
          exact hpass (passesOver_of_not_suits hnot)
        have hle : m ≤ hhdr.pages := by
          have hsz : HBLKSIZE * m ≤ s.hb_sz x := hsuits.elim Eq.ge fun hlt => hlt.2.le
          rw [hb_sz_of_hdr hx, (ho.table.block x hhdr hx).whole hfree, Nat.mul_comm] at hsz
          exact Nat.le_of_mul_le_mul_right hsz (by decide)
        obtain ⟨s', hfirst, -⟩ := (ho.ready hlisted).firstPart hg hx hm hle
        exact .inl ⟨x, List.mem_cons_self, hsuits, s', congrArg some hfirst⟩

/-- The block is on the list, and suits. -/
def Offers (s : Hblks) (size_needed n : Nat) (may_split : Bool) (y : Nat) : Prop :=
  Listed s n y ∧ s.Suits size_needed may_split y

theorem InOrder.allochblk_nth_of_nothing (ho : InOrder s) (hg : s.Granted) (h : s.NothingListed)
    (hfuel : s.heapPages < fuel) (hm : 0 < OBJ_SZ_TO_BLOCKS sz) (e : Heuristics) (kind : Nat)
    (flags : Bool) (n : Nat) (may_split : Bool) :
    (∃ x, s.Offers (HBLKSIZE * OBJ_SZ_TO_BLOCKS sz) n may_split x ∧ ∃ s',
        s.GC_allochblk_nth e fuel sz kind flags n may_split = some (some x, s')) ∨
      (∀ y, ¬s.Offers (HBLKSIZE * OBJ_SZ_TO_BLOCKS sz) n may_split y) ∧
        s.GC_allochblk_nth e fuel sz kind flags n may_split = some (none, s) := by
  obtain ⟨L, hL, hmem⟩ := ho.lists
  have hat : At s n (s.GC_hblkfreelist n) (L n) := ⟨L, [], hL, hmem, rfl, hL.lists.head_eq n⟩
  have hlen := lt_of_le_of_lt (ho.length_le hat) hfuel
  rcases ho.searchList_of_nothing hg h hm e kind flags may_split hlen hat with
    ⟨x, hx, hsuits, s', hfound⟩ | ⟨hnone, hfails⟩
  · obtain ⟨r, hr, hsearched⟩ := searchList_eq e kind flags may_split hm hlen ho hg hat
    obtain ⟨s'', hnth, -⟩ := GC_allochblk_nth_of_search hg hm hr hsearched
    obtain rfl : (some x, s') = r := Option.some.inj (hfound.symm.trans hr)
    exact .inl ⟨x, ⟨(hmem n x).mp hx, hsuits⟩, s'', hnth⟩
  · refine .inr ⟨fun y hy => hnone y ((hmem n y).mpr hy.1) hy.2, ?_⟩
    unfold GC_allochblk_nth
    simp only [hfails]

/-- **All lists**: the block is on the first one that has a block that suits. -/
theorem InOrder.tryLists_of_nothing (ho : InOrder s) (hg : s.Granted) (h : s.NothingListed)
    (hfuel : s.heapPages < fuel) (hm : 0 < OBJ_SZ_TO_BLOCKS sz) (e : Heuristics) (kind : Nat)
    (flags : Bool) {l : List Nat} (hl : l.Pairwise (· < ·)) :
    (∃ n ∈ l, ∃ x, s.Offers (HBLKSIZE * OBJ_SZ_TO_BLOCKS sz) n true x ∧
        (∀ i ∈ l, ∀ y, s.Offers (HBLKSIZE * OBJ_SZ_TO_BLOCKS sz) i true y → n ≤ i) ∧ ∃ s',
          Hblks.tryLists e fuel sz kind flags l s = some (some x, s')) ∨
      (∀ n ∈ l, ∀ y, ¬s.Offers (HBLKSIZE * OBJ_SZ_TO_BLOCKS sz) n true y) ∧
        Hblks.tryLists e fuel sz kind flags l s = some (none, s) := by
  induction l with
  | nil => exact .inr ⟨fun n hn => absurd hn List.not_mem_nil, rfl⟩
  | cons n l ih =>
      rw [List.pairwise_cons] at hl
      rw [Hblks.tryLists]
      rcases ho.allochblk_nth_of_nothing hg h hfuel hm e kind flags n true with
        ⟨x, hoff, s', hfound⟩ | ⟨hnot, hfails⟩
      · rw [hfound]
        refine .inl ⟨n, List.mem_cons_self, x, hoff, fun i hi _ _ => ?_, s', rfl⟩
        rcases List.mem_cons.mp hi with rfl | hi
        · exact le_rfl
        · exact (hl.1 i hi).le
      · rw [hfails]
        rcases ih hl.2 with ⟨i, hi, x, hoff, hfirst, hfound⟩ | ⟨hnone, hfails⟩
        · refine .inl ⟨i, List.mem_cons_of_mem _ hi, x, hoff, fun k hk y hy => ?_, hfound⟩
          rcases List.mem_cons.mp hk with rfl | hk
          · exact absurd hy (hnot y)
          · exact hfirst k hk y hy
        · refine .inr ⟨fun i hi => ?_, hfails⟩
          rcases List.mem_cons.mp hi with rfl | hi
          · exact hnot
          · exact hnone i hi

/-! ## The lists of the blocks that suit -/

theorem GC_hblk_fl_from_blocks_mono {k : Nat} (h : m ≤ k) :
    GC_hblk_fl_from_blocks m ≤ GC_hblk_fl_from_blocks k := by
  unfold GC_hblk_fl_from_blocks N_HBLK_FLS UNIQUE_THRESHOLD HUGE_THRESHOLD FL_COMPRESSION
  split_ifs <;> omega

/-- A larger block is on a list that `GC_allochblk` tries. -/
theorem start_list_le {k : Nat} (h : m < k) :
    (if GC_hblk_fl_from_blocks m < UNIQUE_THRESHOLD then GC_hblk_fl_from_blocks m + 1
      else GC_hblk_fl_from_blocks m) ≤ GC_hblk_fl_from_blocks k := by
  by_cases hlt : GC_hblk_fl_from_blocks m < UNIQUE_THRESHOLD
  · rw [if_pos hlt]
    unfold GC_hblk_fl_from_blocks N_HBLK_FLS UNIQUE_THRESHOLD HUGE_THRESHOLD FL_COMPRESSION at *
    split_ifs at hlt ⊢ <;> omega
  · rw [if_neg hlt]
    exact GC_hblk_fl_from_blocks_mono h.le

/-- A free block of exactly `m` pages, or a larger one on a list whose blocks may be split. -/
def CanMeet (s : Hblks) (e : Heuristics) (m : Nat) : Prop :=
  ∃ p hhdr, s.HDR p = .hdr hhdr ∧ hhdr.free_blk = true ∧
    (hhdr.pages = m ∨ m < hhdr.pages ∧ GC_hblk_fl_from_blocks hhdr.pages ≤ s.splitLimit e)

theorem suits_iff (ho : InOrder s) (hp : s.HDR p = .hdr hhdr) (hfree : hhdr.free_blk = true) :
    s.Suits (HBLKSIZE * m) may_split p ↔
      hhdr.pages = m ∨ may_split = true ∧ m < hhdr.pages := by
  have hpos : 0 < HBLKSIZE := by decide
  unfold Suits
  rw [hb_sz_of_hdr hp, (ho.table.block p hhdr hp).whole hfree, Nat.mul_comm HBLKSIZE,
    Nat.mul_left_inj hpos.ne', Nat.mul_lt_mul_right hpos]

/-- The block is one of exactly `m` pages; or there is none, and it is a larger one on the first
list that has one. -/
def BestFit (s : Hblks) (m x : Nat) : Prop :=
  ∃ hhdr, s.HDR x = .hdr hhdr ∧ hhdr.free_blk = true ∧
    (hhdr.pages = m ∨ m < hhdr.pages ∧ ∀ p phdr, s.HDR p = .hdr phdr → phdr.free_blk = true →
      phdr.pages ≠ m ∧
        (m < phdr.pages → GC_hblk_fl_from_blocks hhdr.pages ≤ GC_hblk_fl_from_blocks phdr.pages))

/-- **`GC_allochblk` finds a block exactly when it can be met**, the best fit, and otherwise
changes nothing. -/
theorem InOrder.allochblk_of_nothing (ho : InOrder s) (hg : s.Granted) (h : s.NothingListed)
    (hfuel : s.heapPages < fuel) (hm : 0 < OBJ_SZ_TO_BLOCKS sz) (e : Heuristics) (kind : Nat)
    (flags : Bool) :
    s.CanMeet e (OBJ_SZ_TO_BLOCKS sz) ∧ (∃ x s', s.BestFit (OBJ_SZ_TO_BLOCKS sz) x ∧
        s.GC_allochblk e fuel sz kind flags = some (some x, s')) ∨
      ¬s.CanMeet e (OBJ_SZ_TO_BLOCKS sz) ∧
        s.GC_allochblk e fuel sz kind flags = some (none, s) := by
  generalize hmdef : OBJ_SZ_TO_BLOCKS sz = m at hm ⊢
  have hm' : 0 < OBJ_SZ_TO_BLOCKS sz := hmdef ▸ hm
  set start := GC_hblk_fl_from_blocks m with hstart
  set start' := if start < UNIQUE_THRESHOLD then start + 1 else start with hstart'
  unfold GC_allochblk
  simp only [hmdef]
  by_cases hbig : 2 ^ 63 ≤ m * HBLKSIZE
  · rw [if_pos hbig]
    refine .inr ⟨?_, rfl⟩
    rintro ⟨p, hhdr, hp, -, hpages⟩
    have hlast := (ho.table.bounds p hhdr hp).2
    have hfirst := (ho.table.bounds p hhdr hp).1
    unfold HBLKSIZE lastPage firstPage at *
    omega
  rw [if_neg hbig]
  rcases ho.allochblk_nth_of_nothing hg h hfuel hm' e kind flags start false with
    ⟨x, ⟨⟨⟨hhdr, hx, hfree⟩, -⟩, hsuits⟩, s', hfound⟩ | ⟨hnot, hfails⟩
  · -- a block of exactly the size
    rw [hfound]
    rw [hmdef, suits_iff ho hx hfree] at hsuits
    have hpages : hhdr.pages = m := hsuits.resolve_right fun hs => nomatch hs.1
    exact .inl ⟨⟨x, hhdr, hx, hfree, .inl hpages⟩, x, s', ⟨hhdr, hx, hfree, .inl hpages⟩, rfl⟩
  rw [hfails]
  have hexact : ∀ p phdr, s.HDR p = .hdr phdr → phdr.free_blk = true → phdr.pages ≠ m := by
    intro p phdr hp hfree hpages
    refine hnot p ⟨⟨⟨phdr, hp, hfree⟩, by rw [flOf_of_free hp hfree, hpages]⟩, ?_⟩
    rw [hmdef, suits_iff ho hp hfree]
    exact .inl hpages
  -- a larger block on a list that may be split
  have hlarger : ∀ p phdr, s.HDR p = .hdr phdr → phdr.free_blk = true → m < phdr.pages →
      s.Offers (HBLKSIZE * m) (GC_hblk_fl_from_blocks phdr.pages) true p ∧
        start' ≤ GC_hblk_fl_from_blocks phdr.pages := by
    intro p phdr hp hfree hlt
    exact ⟨⟨⟨⟨phdr, hp, hfree⟩, flOf_of_free hp hfree⟩,
      (suits_iff ho hp hfree).mpr (.inr ⟨rfl, hlt⟩)⟩, start_list_le hlt⟩
  rcases ho.tryLists_of_nothing hg h hfuel hm' e kind flags
    (List.pairwise_lt_range' (s := start') (n := s.splitLimit e + 1 - start')) with
    ⟨n, hn, x, ⟨⟨⟨hhdr, hx, hfree⟩, hfl⟩, hsuits⟩, hfirst, s', hfound⟩ | ⟨hnone, hfails⟩
  · rw [hmdef, suits_iff ho hx hfree] at hsuits
    rw [flOf_of_free hx hfree] at hfl
    rw [hmdef] at hfirst
    have hlt : m < hhdr.pages := (hsuits.resolve_left (hexact x hhdr hx hfree)).2
    rw [List.mem_range'_1] at hn
    refine .inl ⟨⟨x, hhdr, hx, hfree, .inr ⟨hlt, by omega⟩⟩, x, s', ⟨hhdr, hx, hfree,
      .inr ⟨hlt, fun p phdr hp hpfree => ⟨hexact p phdr hp hpfree, fun hplt => ?_⟩⟩⟩, hfound⟩
    obtain ⟨hoff, hle⟩ := hlarger p phdr hp hpfree hplt
    by_cases hlimit : GC_hblk_fl_from_blocks phdr.pages ≤ s.splitLimit e
    · have := hfirst _ (List.mem_range'_1.mpr ⟨hle, by omega⟩) p hoff
      omega
    · omega
  · refine .inr ⟨?_, hfails⟩
    rintro ⟨p, phdr, hp, hpfree, hpages | ⟨hlt, hlimit⟩⟩
    · exact hexact p phdr hp hpfree hpages
    · obtain ⟨hoff, hle⟩ := hlarger p phdr hp hpfree hlt
      exact hnone _ (List.mem_range'_1.mpr ⟨hle, by omega⟩) p (hmdef ▸ hoff)

end Hblks

end Ironclad.Gc
