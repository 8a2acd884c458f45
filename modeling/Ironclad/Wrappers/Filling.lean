import Ironclad.Pointers.Narrowing
import Ironclad.Wrappers.Elements

/-!
# `zero` and `fill`

Both are a loop over `p[c]` with a 64-bit counter. The subscript takes an `int` (`aptr`) or an
`unsigned int` (`laptr`), so from `2^31`, respectively `2^32`, rounds on the loop goes back to
elements that it has filled, or to elements in front of the pointer. Which elements it fills and
when it fails is therefore a matter of the converted counter (`fillLoop_run`), and
`fill_covers_iff` says when that is what was asked for.
-/

namespace Ironclad.Wrappers

open Ironclad.Logic Ironclad.CLib Ironclad.Pointers

/-! ## The loops -/

/-- The first `n` rounds of `for(size_t c = 0; c < size; ++c)` with an assignment to `p[c]`. -/
def fillLoop (sizeofT : Word) (v : Nat → BitVec 8) (elementOf : Word → Prog 64 Word) :
    Nat → Prog 64 Unit
  | 0 => pure ()
  | n + 1 => do
      fillLoop sizeofT v elementOf n
      let a ← elementOf (BitVec.ofNat 64 n)
      store a sizeofT.toNat v

/-- `zero(aptr<T> p, size)`. The bytes that `zero_helper<T>::zero` gives an element, 0 for a
number and what its own `zero()` leaves for a class, are `zeros`. -/
def aptr_zero (sizeofT : Word) (zeros : Nat → BitVec 8) (p : Aptr) (size : Word) : Prog 64 Unit :=
  fillLoop sizeofT zeros (aptrElement sizeofT p) size.toNat

/-- `zero(laptr<T> p, size)`. -/
def laptr_zero (sizeofT : Word) (zeros : Nat → BitVec 8) (p : Laptr) (size : Word) :
    Prog 64 Unit :=
  fillLoop sizeofT zeros (laptrElement sizeofT p) size.toNat

/-- `fill(aptr<T> p, value, size)`. -/
def fill (sizeofT : Word) (p : Aptr) (value : Nat → BitVec 8) (size : Word) : Prog 64 Aptr := do
  fillLoop sizeofT value (aptrElement sizeofT p) size.toNat
  pure p

/-! ## What is asked for -/

/-- The element `k` is one of the `count` from the pointer's index on. -/
def Asked (p : Position) (count : Word) (k : Int) : Prop :=
  p.index.toInt ≤ k ∧ k < p.index.toInt + count.toNat

/-- The element `k` is one of the array. -/
def IndexInside (p : Position) (k : Int) : Prop := 0 ≤ k ∧ k < p.size.toInt

/-- The outcome `o` of filling `count` elements with `v`: it fails exactly when one of them is out
of bounds; else it returns, they hold `v`, and the rest is as it was. -/
structure FillsRange (sizeofT : Word) (v : Nat → BitVec 8) (p : Position) (count : Word)
    (m : Memory 64) (o : Outcome 64 Unit) : Prop where
  fails_iff : o.ending = .fails ↔ ∃ k, Asked p count k ∧ ¬IndexInside p k
  returns : o.ending ≠ .fails → o.ending = .returns ()
  filled : o.ending = .returns () → ∀ k, Asked p count k → IndexInside p k →
    value o.mem sizeofT p.data k = asElement sizeofT v
  unchanged : o.ending = .returns () → ∀ k, ¬Asked p count k → IndexInside p k →
    value o.mem sizeofT p.data k = value m sizeofT p.data k
  outside : o.ending = .returns () →
    ∀ a, a ∉ (⟨p.data, p.size.toNat * sizeofT.toNat⟩ : Region 64) → o.mem a = m a

/-! ## What the loop does -/

/-- One of the first `n` rounds, its counter converted, is about the element `k`. -/
def Reached (conv : Word → Word) (p : Position) (n : Nat) (k : Int) : Prop :=
  ∃ c < n, k = p.index.toInt + (conv (BitVec.ofNat 64 c)).toInt

section

variable {sizeofT count : Word} {v : Nat → BitVec 8} {conv : Word → Word} {p : Position}
  {elementOf : Word → Prog 64 Word} {m : Memory 64} {n : Nat} {low high : Int}

/-- The loop returns or fails. -/
theorem fillLoop_ending (he : ElementOf sizeofT conv p elementOf) :
    (fillLoop sizeofT v elementOf n m).ending = .returns () ∨
      (fillLoop sizeofT v elementOf n m).ending = .fails := by
  induction n with
  | zero => exact .inl rfl
  | succ n ih =>
      rw [fillLoop]
      rcases ih with hloop | hloop
      · rw [Prog.bind_of_ending hloop]
        cases hc : BOUNDS_CHECK (p.index + conv (BitVec.ofNat 64 n)) p.size with
        | true =>
            rw [Prog.bind_of_returns (he.returns _ _ hc)]
            exact .inl rfl
        | false =>
            rw [Prog.bind_of_fails (he.fails _ _ hc)]
            exact .inr rfl
      · right
        rw [Prog.bind_of_ending_fails hloop]

/-- A loop that gets through had all its subscripts accepted. -/
theorem fillLoop_accepts (he : ElementOf sizeofT conv p elementOf)
    (h : (fillLoop sizeofT v elementOf n m).ending = .returns ()) :
    ∀ c < n, BOUNDS_CHECK (p.index + conv (BitVec.ofNat 64 c)) p.size = true := by
  induction n with
  | zero =>
      intro c hc
      omega
  | succ n ih =>
      rw [fillLoop] at h
      obtain ⟨_, hloop, hround⟩ := Prog.returns_of_bind h
      intro c hc
      rcases Nat.lt_succ_iff_lt_or_eq.mp hc with hlt | rfl
      · exact ih hloop c hlt
      · cases hcheck : BOUNDS_CHECK (p.index + conv (BitVec.ofNat 64 c)) p.size with
        | true => rfl
        | false =>
            rw [Prog.bind_of_fails (he.fails _ _ hcheck)] at hround
            cases hround

/-- **The loop**, when all its subscripts are accepted, fills the elements that its rounds are
about and nothing else. The induction is on the rounds. -/
theorem fillLoop_run (he : ElementOf sizeofT conv p elementOf) (hfit : Fitting sizeofT p.size)
    (hacc : ∀ c < n, BOUNDS_CHECK (p.index + conv (BitVec.ofNat 64 c)) p.size = true ∧
      IndexInside p (p.index.toInt + (conv (BitVec.ofNat 64 c)).toInt)) :
    (fillLoop sizeofT v elementOf n m).ending = .returns () ∧
      (∀ k, IndexInside p k → Reached conv p n k →
        value (fillLoop sizeofT v elementOf n m).mem sizeofT p.data k = asElement sizeofT v) ∧
      (∀ k, IndexInside p k → ¬Reached conv p n k →
        value (fillLoop sizeofT v elementOf n m).mem sizeofT p.data k =
          value m sizeofT p.data k) ∧
      ∀ a, a ∉ (⟨p.data, p.size.toNat * sizeofT.toNat⟩ : Region 64) →
        (fillLoop sizeofT v elementOf n m).mem a = m a := by
  induction n with
  | zero =>
      refine ⟨rfl, ?_, fun _ _ _ => rfl, fun _ _ => rfl⟩
      intro k _ ⟨c, hc, _⟩
      omega
  | succ n ih =>
      obtain ⟨hloop, hfilled, hkept, hout⟩ := ih fun c hc => hacc c (Nat.lt_succ_of_lt hc)
      obtain ⟨hcheck, hin0, hinlt⟩ := hacc n (Nat.lt_succ_self n)
      have hsize : p.size.toInt = p.size.toNat := toInt_of_lt hfit.count_lt
      have hbytes := hfit.bytes_lt
      have haddr : element sizeofT p.data (p.index + conv (BitVec.ofNat 64 n)) =
          p.data + BitVec.ofNat 64
            ((p.index.toInt + (conv (BitVec.ofNat 64 n)).toInt).toNat * sizeofT.toNat) := by
        rw [← element_ofInt hin0, BitVec.ofInt_add, BitVec.ofInt_toInt, BitVec.ofInt_toInt]
      have helement := he.returns (BitVec.ofNat 64 n) (fillLoop sizeofT v elementOf n m).mem hcheck
      rw [haddr] at helement
      rw [fillLoop, Prog.bind_of_ending hloop, Prog.bind_of_returns helement]
      generalize hkn : p.index.toInt + (conv (BitVec.ofNat 64 n)).toInt = kn at hin0 hinlt
      refine ⟨rfl, ?_, ?_, ?_⟩
      · intro k hk hreached
        refine (value_write hfit hin0 hinlt hk.1 hk.2).trans ?_
        by_cases hkeq : k = kn
        · exact if_pos hkeq
        · rw [if_neg hkeq]
          apply hfilled k hk
          obtain ⟨c, hc, hkc⟩ := hreached
          rcases Nat.lt_succ_iff_lt_or_eq.mp hc with hlt | rfl
          · exact ⟨c, hlt, hkc⟩
          · exact absurd (hkc.trans hkn) hkeq
      · intro k hk hreached
        refine (value_write hfit hin0 hinlt hk.1 hk.2).trans ?_
        have hkeq : k ≠ kn := by
          intro hkeq
          exact hreached ⟨n, Nat.lt_succ_self n, hkeq.trans hkn.symm⟩
        rw [if_neg hkeq]
        apply hkept k hk
        intro ⟨c, hc, hkc⟩
        exact hreached ⟨c, Nat.lt_succ_of_lt hc, hkc⟩
      · intro a ha
        show Memory.write _ _ _ _ a = _
        rw [Memory.write_cell_outside hbytes (by omega) ha]
        exact hout a ha

/-- A loop whose first subscript fails stops there. -/
theorem fillLoop_of_fails (sizeofT : Word) (v : Nat → BitVec 8) (n : Nat)
    (h : (elementOf 0 m).ending = .fails) :
    (fillLoop sizeofT v elementOf (n + 1) m).ending = .fails := by
  induction n with
  | zero =>
      show (Outcome.after [] [] ((elementOf 0 >>= fun a => store a sizeofT.toNat v) m)).ending = _
      rw [Outcome.after_ending, Prog.bind_of_ending_fails h]
  | succ n ih => rw [fillLoop, Prog.bind_of_ending_fails ih]

/-- So does one whose first subscript is undefined. -/
theorem fillLoop_of_undefined (sizeofT : Word) (v : Nat → BitVec 8) (n : Nat)
    (h : (elementOf 0 m).ending = .undefined) :
    (fillLoop sizeofT v elementOf (n + 1) m).ending = .undefined := by
  induction n with
  | zero =>
      show (Outcome.after [] [] ((elementOf 0 >>= fun a => store a sizeofT.toNat v) m)).ending = _
      rw [Outcome.after_ending, Prog.bind_ending_of_undefined h]
  | succ n ih =>
      rw [fillLoop]
      exact Prog.bind_ending_of_undefined ih

/-! ## When that is what was asked for -/

/-- All elements asked for are in the array. -/
def AskedIn (p : Position) (count : Word) : Prop :=
  0 ≤ p.index.toInt ∧ p.index.toInt + count.toNat ≤ p.size.toInt

/-- The elements that the loop goes through, from `index - low` to `index + high - 1`, are in the
array iff those asked for are, and then the elements that are only one of the two hold the value
already. -/
structure FillFits (sizeofT : Word) (v : Nat → BitVec 8) (conv : Word → Word) (low high : Int)
    (p : Position) (count : Word) (m : Memory 64) : Prop where
  same : AskedIn p count ↔ low ≤ p.index.toInt ∧ p.index.toInt + high ≤ p.size.toInt
  settled : AskedIn p count → ∀ k, IndexInside p k →
    ¬(Asked p count k ↔ Reached conv p count.toNat k) →
    value m sizeofT p.data k = asElement sizeofT v

theorem asked_out_iff (hcount : count ≠ 0) :
    (∃ k, Asked p count k ∧ ¬IndexInside p k) ↔ ¬AskedIn p count := by
  have hpos := toNat_pos hcount
  constructor
  · intro ⟨k, ⟨hlo, hhi⟩, hk⟩ ⟨h0, hend⟩
    exact hk ⟨by omega, by omega⟩
  · intro h
    by_cases h0 : 0 ≤ p.index.toInt
    · -- the last one is out of bounds
      refine ⟨p.index.toInt + count.toNat - 1, ⟨by omega, by omega⟩, ?_⟩
      intro ⟨_, hlt⟩
      exact h ⟨h0, by omega⟩
    · refine ⟨p.index.toInt, ⟨by omega, by omega⟩, ?_⟩
      intro ⟨hk, _⟩
      exact h0 hk

theorem fillsRange_of_fails {o : Outcome 64 Unit} (h : o.ending = .fails) :
    FillsRange sizeofT v p count m o ↔ ∃ k, Asked p count k ∧ ¬IndexInside p k := by
  constructor
  · intro hf
    exact hf.fails_iff.mp h
  · intro hout
    have hne : o.ending ≠ .returns () := by
      intro hc
      rw [h] at hc
      cases hc
    exact ⟨iff_of_true h hout, fun hc => absurd h hc, fun hc => absurd hc hne,
      fun hc => absurd hc hne, fun hc => absurd hc hne⟩

/-- Nothing is asked for and nothing is done. -/
theorem fillsRange_zero (hcount : count = 0) :
    FillsRange sizeofT v p count m (fillLoop sizeofT v elementOf count.toNat m) := by
  subst hcount
  refine ⟨?_, fun _ => rfl, ?_, fun _ _ _ _ => rfl, fun _ _ _ => rfl⟩
  · refine iff_of_false (fun h => by cases h) ?_
    intro ⟨k, ⟨hlo, hhi⟩, _⟩
    rw [show (0 : Word).toNat = 0 from rfl] at hhi
    omega
  · intro _ k ⟨hlo, hhi⟩
    rw [show (0 : Word).toNat = 0 from rfl] at hhi
    omega

/-- Which subscripts are accepted, in numbers; what they refer to is in the array. -/
theorem Sweeps.checks_iff (h : Sweeps conv count low high) (hdata : p.data ≠ 0) :
    (∀ c < count.toNat, BOUNDS_CHECK (p.index + conv (BitVec.ofNat 64 c)) p.size = true) ↔
      low ≤ p.index.toInt ∧ p.index.toInt + high ≤ p.size.toInt := by
  have hacc := h.accepts_iff (p := ⟨p.data, p.index, p.size⟩)
  rw [and_iff_right hdata] at hacc
  rw [← hacc]
  exact forall₂_congr fun c _ => (and_iff_right hdata).symm

theorem Sweeps.inArray (h : Sweeps conv count low high) (hlow : low ≤ p.index.toInt)
    (hhigh : p.index.toInt + high ≤ p.size.toInt) {c : Nat} (hc : c < count.toNat) :
    IndexInside p (p.index.toInt + (conv (BitVec.ofNat 64 c)).toInt) := by
  obtain ⟨h1, h2⟩ := h.between c hc
  exact ⟨by omega, by omega⟩

/-- **When the loop fills what was asked for**, for a pointer that is not null. -/
theorem fillsRange_iff_fits (he : ElementOf sizeofT conv p elementOf)
    (hfit : Fitting sizeofT p.size) (hdata : p.data ≠ 0) (hcount : count ≠ 0)
    (hsweeps : Sweeps conv count low high) :
    FillsRange sizeofT v p count m (fillLoop sizeofT v elementOf count.toNat m) ↔
      FillFits sizeofT v conv low high p count m := by
  have hchecks := hsweeps.checks_iff (p := p) hdata
  rcases fillLoop_ending (v := v) (m := m) (n := count.toNat) he with hend | hend
  · -- the loop gets through
    have hloop := hchecks.mp (fillLoop_accepts he hend)
    obtain ⟨-, hfilled, hkept, hout⟩ := fillLoop_run (v := v) (m := m) he hfit fun c hc =>
      ⟨hchecks.mpr hloop c hc, hsweeps.inArray hloop.1 hloop.2 hc⟩
    have hnot : (fillLoop sizeofT v elementOf count.toNat m).ending ≠ .fails := by
      rw [hend]
      intro hc
      cases hc
    constructor
    · intro hf
      have hin : AskedIn p count := by
        by_contra hc
        exact hnot (hf.fails_iff.mpr ((asked_out_iff hcount).mpr hc))
      refine ⟨iff_of_true hin hloop, ?_⟩
      intro _ k hk hone
      by_cases hasked : Asked p count k
      · rw [← hkept k hk fun hr => hone (iff_of_true hasked hr)]
        exact hf.filled hend k hasked hk
      · have hr : Reached conv p count.toNat k := by
          by_contra hr
          exact hone (iff_of_false hasked hr)
        rw [← hf.unchanged hend k hasked hk]
        exact hfilled k hk hr
    · intro hf
      have hin : AskedIn p count := hf.same.mpr hloop
      refine ⟨iff_of_false hnot ((asked_out_iff hcount).not.mpr (not_not_intro hin)),
        fun _ => hend, ?_, ?_, fun _ => hout⟩
      · intro _ k hasked hk
        by_cases hr : Reached conv p count.toNat k
        · exact hfilled k hk hr
        · rw [hkept k hk hr]
          exact hf.settled hin k hk fun hiff => hr (hiff.mp hasked)
      · intro _ k hasked hk
        by_cases hr : Reached conv p count.toNat k
        · rw [hfilled k hk hr]
          exact (hf.settled hin k hk fun hiff => hasked (hiff.mpr hr)).symm
        · exact hkept k hk hr
  · -- the loop fails
    have hloop : ¬(low ≤ p.index.toInt ∧ p.index.toInt + high ≤ p.size.toInt) := by
      intro hin
      have hrun := fillLoop_run (v := v) (m := m) he hfit fun c hc =>
        ⟨hchecks.mpr hin c hc, hsweeps.inArray hin.1 hin.2 hc⟩
      rw [hend] at hrun
      cases hrun.1
    rw [fillsRange_of_fails hend, asked_out_iff hcount]
    constructor
    · intro hout
      exact ⟨iff_of_false hout hloop, fun hin => absurd hin hout⟩
    · intro hf hin
      exact hloop (hf.same.mp hin)

/-- Where the conversion changes nothing the loop goes through what was asked for. -/
theorem fillFits_of_exact (hlow : low = 0) (hhigh : high = count.toNat)
    (hconv : ∀ c < count.toNat, (conv (BitVec.ofNat 64 c)).toInt = c) :
    FillFits sizeofT v conv low high p count m := by
  subst hlow hhigh
  refine ⟨Iff.rfl, ?_⟩
  intro _ k _ hone
  apply absurd _ hone
  constructor
  · intro ⟨hlo, hhi⟩
    refine ⟨(k - p.index.toInt).toNat, by omega, ?_⟩
    rw [hconv _ (by omega)]
    omega
  · intro ⟨c, hc, hk⟩
    rw [hconv c hc] at hk
    exact ⟨by omega, by omega⟩

end

/-! ## The two classes -/

/-- Nothing is asked for; or the pointer is null and not at an element; or the `int`s that the
counter becomes fit. -/
def AptrFillFits (sizeofT : Word) (v : Nat → BitVec 8) (p : Position) (count : Word)
    (m : Memory 64) : Prop :=
  count = 0 ∨ p.data = 0 ∧ ¬IndexInside p p.index.toInt ∨
    p.data ≠ 0 ∧ FillFits sizeofT v asInt (intLow count) (intHigh count) p count m

/-- Nothing is asked for; or the pointer is null and there are not enough elements; or the
`unsigned int`s that the counter becomes fit. -/
def LaptrFillFits (sizeofT : Word) (v : Nat → BitVec 8) (p : Position) (count : Word)
    (m : Memory 64) : Prop :=
  count = 0 ∨ p.data = 0 ∧ ¬AskedIn p count ∨
    p.data ≠ 0 ∧ FillFits sizeofT v asUnsigned 0 (unsignedHigh count) p count m

section

variable {sizeofT count : Word} {v : Nat → BitVec 8} {m : Memory 64}

theorem aptr_fillsRange_iff {p : Aptr} (hfit : p.data ≠ 0 → Fitting sizeofT p.size) :
    FillsRange sizeofT v p.place count m
        (fillLoop sizeofT v (aptrElement sizeofT p) count.toNat m) ↔
      AptrFillFits sizeofT v p.place count m := by
  unfold AptrFillFits
  by_cases hcount : count = 0
  · exact iff_of_true (fillsRange_zero hcount) (.inl hcount)
  rw [or_iff_right hcount]
  by_cases hdata : p.data = 0
  · rw [and_iff_right (show p.place.data = 0 from hdata),
      or_iff_left (fun h => h.1 (show p.place.data = 0 from hdata))]
    obtain ⟨n, hn⟩ := Nat.exists_eq_succ_of_ne_zero (Nat.ne_of_gt (toNat_pos hcount))
    rw [hn]
    have helement := aptrElement_null sizeofT hdata 0 m
    rw [show asInt 0 = 0 from rfl, add_zero] at helement
    by_cases hin : BOUNDS_CHECK p.index p.size = true
    · -- the first subscript is accepted and a null pointer is followed
      rw [if_pos hin] at helement
      have hend := fillLoop_of_undefined sizeofT v n (congrArg Outcome.ending helement)
      refine iff_of_false ?_ (not_not_intro (boundsCheck_iff.mp hin))
      intro hf
      have hreturns := hf.returns (by
        rw [hend]
        intro hc
        cases hc)
      rw [hend] at hreturns
      cases hreturns
    · rw [if_neg hin] at helement
      have hend := fillLoop_of_fails sizeofT v n (congrArg Outcome.ending helement)
      have hout : ¬IndexInside p.place p.index.toInt := fun hc => hin (boundsCheck_iff.mpr hc)
      have hpos := toNat_pos hcount
      rw [fillsRange_of_fails hend]
      refine iff_of_true ⟨p.index.toInt, ⟨Int.le_refl _, ?_⟩, hout⟩ hout
      show p.index.toInt < p.index.toInt + count.toNat
      omega
  · rw [or_iff_right (fun h => hdata h.1), and_iff_right (show p.place.data ≠ 0 from hdata)]
    exact fillsRange_iff_fits (aptr_elementOf hdata) (hfit hdata) hdata hcount
      (sweeps_asInt hcount)

theorem laptr_fillsRange_iff {p : Laptr} (hfit : p.data ≠ 0 → Fitting sizeofT p.size) :
    FillsRange sizeofT v p.place count m
        (fillLoop sizeofT v (laptrElement sizeofT p) count.toNat m) ↔
      LaptrFillFits sizeofT v p.place count m := by
  unfold LaptrFillFits
  by_cases hcount : count = 0
  · exact iff_of_true (fillsRange_zero hcount) (.inl hcount)
  rw [or_iff_right hcount]
  by_cases hdata : p.data = 0
  · rw [and_iff_right (show p.place.data = 0 from hdata),
      or_iff_left (fun h => h.1 (show p.place.data = 0 from hdata))]
    obtain ⟨n, hn⟩ := Nat.exists_eq_succ_of_ne_zero (Nat.ne_of_gt (toNat_pos hcount))
    have helement := laptrElement_null sizeofT hdata 0 m
    have hend := fillLoop_of_fails sizeofT v n (congrArg Outcome.ending helement)
    rw [hn, fillsRange_of_fails hend]
    exact asked_out_iff hcount
  · rw [or_iff_right (fun h => hdata h.1), and_iff_right (show p.place.data ≠ 0 from hdata)]
    exact fillsRange_iff_fits (laptr_elementOf hdata) (hfit hdata) hdata hcount
      (sweeps_asUnsigned hcount)

end

/-- Up to `2^31` elements for `aptr`, and up to `2^32` for `laptr`, any pointer that is not null
is filled as asked for. -/
theorem fillFits_small (sizeofT : Word) (v : Nat → BitVec 8) (p : Position) (count : Word)
    (m : Memory 64) (hdata : p.data ≠ 0) :
    (count.toNat ≤ 2 ^ 31 → AptrFillFits sizeofT v p count m) ∧
      (count.toNat ≤ 2 ^ 32 → LaptrFillFits sizeofT v p count m) := by
  constructor
  · intro hle
    refine .inr (.inr ⟨hdata, fillFits_of_exact ?_ ?_ ?_⟩)
    · exact if_pos hle
    · unfold intHigh
      omega
    · intro c hc
      rw [asInt_toInt (by omega), if_pos (by omega), Nat.mod_eq_of_lt (by omega)]
  · intro hle
    refine .inr (.inr ⟨hdata, fillFits_of_exact rfl ?_ ?_⟩)
    · unfold unsignedHigh
      omega
    · intro c hc
      rw [asUnsigned_toInt (by omega), Nat.mod_eq_of_lt (by omega)]

/-- **When `zero` and `fill` cover what was asked for**: in every state that a run reaches, for
every pointer, every count and every memory. -/
theorem fill_covers_iff (acts : List NarrowOp) : narrowMachine.Visits acts fun s =>
    (∀ p ∈ s.aptrs, p.ty.sizeof ≠ 0 → ∀ v count m,
      (FillsRange p.ty.sizeof v p.ptr.place count m (aptr_zero p.ty.sizeof v p.ptr count m) ↔
        AptrFillFits p.ty.sizeof v p.ptr.place count m) ∧
      (FillsRange p.ty.sizeof v p.ptr.place count m (fill p.ty.sizeof p.ptr v count m).discard ↔
        AptrFillFits p.ty.sizeof v p.ptr.place count m)) ∧
    ∀ p ∈ s.laptrs, p.ty.sizeof ≠ 0 → ∀ v count m,
      (FillsRange p.ty.sizeof v p.ptr.place count m (laptr_zero p.ty.sizeof v p.ptr count m) ↔
        LaptrFillFits p.ty.sizeof v p.ptr.place count m) := by
  refine (narrowMachine_grounded acts).mono ?_
  intro s ⟨haptrs, hlaptrs⟩
  constructor
  · intro p hp hsize v count m
    have hfit : p.ptr.data ≠ 0 → Fitting p.ty.sizeof p.ptr.size :=
      fun hdata => (haptrs p hp).fitting hdata hsize
    constructor
    · exact aptr_fillsRange_iff hfit
    · unfold fill
      rw [Prog.bind_pure_discard]
      exact aptr_fillsRange_iff hfit
  · intro p hp hsize v count m
    exact laptr_fillsRange_iff fun hdata => (hlaptrs p hp).fitting hdata hsize

/-- `aptr<char> p = new_array<char>(0x80000001); zero(p, 0x80000001);` stops in the last round:
the counter `2^31` is the `int` `-2^31`. -/
theorem zero_all_fails :
    ¬∀ acts, narrowMachine.Visits acts fun s => ∀ p ∈ s.aptrs, p.ty.sizeof ≠ 0 → ∀ v count m,
      FillsRange p.ty.sizeof v p.ptr.place count m (aptr_zero p.ty.sizeof v p.ptr count m) := by
  intro h
  have hf := h [.array (.newArray ⟨.prim .char, 0x100000000, 0x80000001, by decide, by decide,
      by decide⟩)] _ (List.prefix_refl _) _ rfl
    ⟨.prim .char, ⟨0x100000000, 0, 0x80000001⟩⟩ List.mem_cons_self (by decide) (fun _ => 0)
    0x80000001 (fun _ => 1)
  have hin : AskedIn ⟨0x100000000, 0, 0x80000001⟩ 0x80000001 := ⟨by decide, by decide⟩
  have hend := hf.returns fun hc => (asked_out_iff (by decide)).mp (hf.fails_iff.mp hc) hin
  have hcheck := fillLoop_accepts (aptr_elementOf (by decide)) hend (2 ^ 31) (by decide)
  exact absurd hcheck (by decide)

end Ironclad.Wrappers
