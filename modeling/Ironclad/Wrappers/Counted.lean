import Ironclad.Wrappers.Copying
import Mathlib.Data.List.Forall2

/-!
# `safe_strncpy`, `safe_strncmp` and `safe_strcmp`

Each of the three guards its accesses in its own way. `safe_strncpy` compares the count with the
sizes and forgets the indices; `safe_strncmp` calls `spatialCheck` and discards the results;
`safe_strcmp` has the terminator check, which looks at `size` characters from the index on. So
each is right exactly under a condition on the bytes that the C function looks at.
-/

namespace Ironclad.Wrappers

open Ironclad.Logic Ironclad.CLib Ironclad.Pointers

/-! ## The wrappers -/

/-- `safe_strncpy(str1, str2, num)`. The comparison of a `long` with a `size_t` is unsigned. -/
def safe_strncpy (str1 str2 : Aptr) (num : Word) : Prog 64 Aptr := do
  Prog.assert (num ≤ str1.size)
  Prog.assert (num ≤ str2.size)
  strncpy (str1.convert_to_raw 1) (str2.convert_to_raw 1) num.toNat
  pure str1.copy

/-- `safe_strcmp(str1, str2)`. -/
def safe_strcmp (str1 str2 : Aptr) : Prog 64 Ordering := do
  NULL_TERM_CHECK str1
  NULL_TERM_CHECK str2
  strcmp (str1.convert_to_raw 1) (str2.convert_to_raw 1)

/-- `safe_strncmp(str1, str2, num)`: the results of the two checks are not used. -/
def safe_strncmp (str1 str2 : Aptr) (num : Word) : Prog 64 Ordering := do
  let _ := str1.spatialCheck 1 num
  let _ := str2.spatialCheck 1 num
  strncmp (str1.convert_to_raw 1) (str2.convert_to_raw 1) num.toNat

/-! ## Characters in the allocation -/

/-- There are `n` characters from the index to the end of the allocation. -/
def CharsIn (p : Aptr) (n : Nat) : Prop :=
  n = 0 ∨ p.data ≠ 0 ∧ p.index.toNat + n ≤ p.size.toNat

instance (p : Aptr) (n : Nat) : Decidable (CharsIn p n) := by
  unfold CharsIn
  infer_instance

theorem charsIn_iff {p : Aptr} {n : Nat} :
    (⟨p.convert_to_raw 1, n⟩ : Region 64) ⊆ p.allocation 1 ↔ CharsIn p n := by
  unfold CharsIn Aptr.allocation block
  have hsize := p.size.isLt
  by_cases hdata : p.data = 0
  · rw [if_pos hdata, Region.subset_iff (Nat.two_pow_pos 64)]
    show n = 0 ∨ _ + n ≤ 0 ↔ _
    simp only [hdata, ne_eq, not_true_eq_false, false_and, or_false]
    omega
  · have hlen : p.size.toNat * (1 : Word).toNat = p.size.toNat := Nat.mul_one _
    rw [if_neg hdata, hlen, Region.subset_iff (by show p.size.toNat < 2 ^ 64; omega),
      and_iff_right hdata]
    show n = 0 ∨ (p.convert_to_raw 1 - p.data).toNat + n ≤ p.size.toNat ↔ _
    rw [raw_eq, Region.offset_toNat p.index.isLt]

theorem CharsIn.mono {p : Aptr} {k n : Nat} (h : CharsIn p n) (hle : k ≤ n) : CharsIn p k := by
  rcases h with h | ⟨hdata, h⟩
  · exact .inl (by omega)
  · exact .inr ⟨hdata, by omega⟩

/-! ## The counted copy -/

/-- If the call passes its assertions, it writes only the destination's allocation and reads
only the source's. -/
def CopyConfined (dst src : Aptr) (o : Outcome 64 Aptr) : Prop :=
  o.ending ≠ .fails → o.WritesIn (dst.allocation 1) ∧ o.ReadsIn (src.allocation 1)

/-- How many bytes of the source `strncpy` reads: up to the terminator, at most `num`. -/
def copyReads (m : Memory 64) (src : Aptr) (num : Word) : Nat :=
  min (strnlen m (src.convert_to_raw 1) num.toNat + 1) num.toNat

theorem safe_strncpy_refused {m : Memory 64} {dst src : Aptr} {num : Word}
    (h : ¬(num ≤ dst.size ∧ num ≤ src.size)) : (safe_strncpy dst src num m).ending = .fails := by
  by_contra hpass
  rw [safe_strncpy] at hpass
  obtain ⟨hd, hs⟩ := Prog.two_asserts hpass
  exact h ⟨of_decide_eq_true hd, of_decide_eq_true hs⟩

/-- The accesses of a call that passes, whether they overlap or not. -/
theorem safe_strncpy_accesses {m : Memory 64} {dst src : Aptr} {num : Word}
    (hd : num ≤ dst.size) (hs : num ≤ src.size) :
    (safe_strncpy dst src num m).ending ≠ .fails ∧
      (safe_strncpy dst src num m).reads = [⟨src.convert_to_raw 1, copyReads m src num⟩] ∧
      (safe_strncpy dst src num m).writes = [⟨dst.convert_to_raw 1, num.toNat⟩] := by
  rw [safe_strncpy, Prog.assert_true_bind (decide_eq_true hd),
    Prog.assert_true_bind (decide_eq_true hs)]
  by_cases hapart : (⟨dst.convert_to_raw 1, num.toNat⟩ : Region 64).Apart
      ⟨src.convert_to_raw 1, copyReads m src num⟩
  · rw [Prog.bind_of_returns (if_pos hapart)]
    simp [copyReads]
  · rw [Prog.bind_of_undefined (if_neg hapart)]
    simp [copyReads]

theorem copyConfined_iff (m : Memory 64) (dst src : Aptr) (num : Word) :
    CopyConfined dst src (safe_strncpy dst src num m) ↔
      (num ≤ dst.size → num ≤ src.size →
        CharsIn dst num.toNat ∧ CharsIn src (copyReads m src num)) := by
  unfold CopyConfined
  by_cases hcheck : num ≤ dst.size ∧ num ≤ src.size
  · obtain ⟨hd, hs⟩ := hcheck
    obtain ⟨hend, hreads, hwrites⟩ := safe_strncpy_accesses (m := m) hd hs
    unfold Outcome.WritesIn Outcome.ReadsIn
    simp only [hend, hreads, hwrites, hd, hs, List.forall_mem_singleton, charsIn_iff, ne_eq,
      not_false_eq_true, forall_const]
  · refine iff_of_true (fun h => absurd (safe_strncpy_refused hcheck) h) fun hd hs => ?_
    exact absurd ⟨hd, hs⟩ hcheck

/-! ## The comparisons -/

/-- If the call returns, each argument was read only in its own allocation, and the result is
the order of the two texts of at most `n` characters. -/
def ComparesRight (m : Memory 64) (n : Nat) (readFrom : List Aptr) (p q : Aptr)
    (o : Outcome 64 Ordering) : Prop :=
  ∀ r, o.ending = .returns r →
    List.Forall₂ (· ⊆ ·) o.reads (readFrom.map (Aptr.allocation 1)) ∧ o.writes = [] ∧
      r = compareText m (p.convert_to_raw 1) (q.convert_to_raw 1) n

/-- How many characters of each text `strncmp` looks at. -/
def compareReads (m : Memory 64) (p q : Aptr) (num : Word) : Nat :=
  match differAt m (p.convert_to_raw 1) (q.convert_to_raw 1) num.toNat with
  | some k => k + 1
  | none => num.toNat

theorem safe_strncmp_run (m : Memory 64) (p q : Aptr) (num : Word) :
    safe_strncmp p q num m =
      ⟨.returns (compareText m (p.convert_to_raw 1) (q.convert_to_raw 1) num.toNat), m,
        [⟨p.convert_to_raw 1, compareReads m p q num⟩,
          ⟨q.convert_to_raw 1, compareReads m p q num⟩], []⟩ := by
  rw [← compareAt_differAt, compareReads]
  show strncmp _ _ _ m = _
  rw [strncmp]
  cases differAt m (p.convert_to_raw 1) (q.convert_to_raw 1) num.toNat <;> rfl

theorem strncmp_right_iff (m : Memory 64) (p q : Aptr) (num : Word) :
    ComparesRight m num.toNat [p, q] p q (safe_strncmp p q num m) ↔
      CharsIn p (compareReads m p q num) ∧ CharsIn q (compareReads m p q num) := by
  rw [safe_strncmp_run, ← charsIn_iff, ← charsIn_iff]
  constructor
  · intro h
    obtain ⟨hreads, -⟩ := h _ rfl
    cases hreads with
    | cons hp hrest =>
        cases hrest with
        | cons hq _ => exact ⟨hp, hq⟩
  · rintro ⟨hp, hq⟩ r hr
    exact ⟨.cons hp (.cons hq .nil), rfl, (Ending.returns.inj hr).symm⟩

/-- The comparison of two strings looks no further than the terminator of either. -/
theorem differAt_of_lengths {m : Memory 64} {p q : Word} {j k : Nat}
    (hj : length m p = some j) (hk : length m q = some k) :
    ∃ i, differAt m p q (2 ^ 64) = some i ∧ i ≤ j ∧ i ≤ k := by
  obtain ⟨hjlt, hjz, hjmin⟩ := length_eq_some.mp hj
  obtain ⟨-, hkz, hkmin⟩ := length_eq_some.mp hk
  cases hd : differAt m p q (2 ^ 64) with
  | none =>
      have := first_eq_none.mp hd j hjlt
      rw [hjz] at this
      simp at this
  | some i =>
      obtain ⟨-, -, hmin⟩ := first_eq_some.mp hd
      refine ⟨i, rfl, ?_, ?_⟩
      · by_contra hgt
        have := hmin j (by omega)
        rw [hjz] at this
        simp at this
      · by_contra hgt
        have := hmin k (by omega)
        rw [Bool.or_eq_false_iff, bne_eq_false_iff_eq, hkz, beq_eq_false_iff_ne] at this
        exact this.2 this.1

/-- A call whose two checks pass. -/
theorem safe_strcmp_run {m : Memory 64} {p q : Aptr} {j k : Nat} (hj : scanned m p = some j)
    (hk : scanned m q = some k) :
    ∃ i ≤ min j k, safe_strcmp p q m =
      ⟨.returns (compareText m (p.convert_to_raw 1) (q.convert_to_raw 1) (2 ^ 64)), m,
        [⟨p.convert_to_raw 1, j + 1⟩, ⟨q.convert_to_raw 1, k + 1⟩,
          ⟨p.convert_to_raw 1, i + 1⟩, ⟨q.convert_to_raw 1, i + 1⟩], []⟩ := by
  obtain ⟨i, hi, hij, hik⟩ :=
    differAt_of_lengths (length_of_scanned hj) (length_of_scanned hk)
  refine ⟨i, by omega, ?_⟩
  rw [safe_strcmp, null_term_check_bind hj, null_term_check_bind hk, strcmp, hi,
    ← compareAt_differAt, hi]
  rfl

theorem safe_strcmp_returns {m : Memory 64} {p q : Aptr} {r : Ordering}
    (h : (safe_strcmp p q m).ending = .returns r) :
    ∃ j k, scanned m p = some j ∧ scanned m q = some k := by
  rw [safe_strcmp] at h
  obtain ⟨j, hj, hrest⟩ := null_term_check_returns h
  obtain ⟨k, hk, -⟩ := null_term_check_returns hrest
  exact ⟨j, k, hj, hk⟩

theorem strcmp_right_iff (m : Memory 64) (p q : Aptr) :
    ComparesRight m (2 ^ 64) [p, q, p, q] p q (safe_strcmp p q m) ↔
      ∀ j k, scanned m p = some j → scanned m q = some k →
        CharsIn p (j + 1) ∧ CharsIn q (k + 1) := by
  constructor
  · intro h j k hj hk
    obtain ⟨i, -, hrun⟩ := safe_strcmp_run hj hk
    rw [hrun] at h
    obtain ⟨hreads, -⟩ := h _ rfl
    rw [← charsIn_iff, ← charsIn_iff]
    cases hreads with
    | cons hp hrest =>
        cases hrest with
        | cons hq _ => exact ⟨hp, hq⟩
  · intro h r hr
    obtain ⟨j, k, hj, hk⟩ := safe_strcmp_returns hr
    obtain ⟨i, hi, hrun⟩ := safe_strcmp_run hj hk
    obtain ⟨hp, hq⟩ := h j k hj hk
    rw [hrun] at hr ⊢
    have hp' : CharsIn p (i + 1) := hp.mono (by omega)
    have hq' : CharsIn q (i + 1) := hq.mono (by omega)
    rw [← charsIn_iff] at hp hq hp' hq'
    exact ⟨.cons hp (.cons hq (.cons hp' (.cons hq' .nil))), rfl, (Ending.returns.inj hr).symm⟩

/-- **Counted string operations.** For every two pointers and every memory: the copy is
confined exactly when the count is larger than one of the sizes, or the bytes written and read
are in the allocations; the comparisons are right exactly when the characters they look at
are. -/
theorem counted_right_iff (m : Memory 64) (a b : Aptr) (num : Word) :
    (CopyConfined a b (safe_strncpy a b num m) ↔
      (num ≤ a.size → num ≤ b.size → CharsIn a num.toNat ∧ CharsIn b (copyReads m b num))) ∧
    (ComparesRight m num.toNat [a, b] a b (safe_strncmp a b num m) ↔
      CharsIn a (compareReads m a b num) ∧ CharsIn b (compareReads m a b num)) ∧
    (ComparesRight m (2 ^ 64) [a, b, a, b] a b (safe_strcmp a b m) ↔
      ∀ j k, scanned m a = some j → scanned m b = some k →
        CharsIn a (j + 1) ∧ CharsIn b (k + 1)) :=
  ⟨copyConfined_iff m a b num, strncmp_right_iff m a b num, strcmp_right_iff m a b⟩

/-- Four characters to index 2 of a buffer of four: the size is not less than the count, and two
bytes are written behind the buffer. -/
theorem strncpy_not_confined :
    ¬CopyConfined ⟨0x1000, 2, 4⟩ ⟨0x2000, 0, 4⟩
      (safe_strncpy ⟨0x1000, 2, 4⟩ ⟨0x2000, 0, 4⟩ 4 (holding 0x2000 [65, 66, 67, 68])) := by
  intro h
  have hw := (h (by decide +kernel)).1 ⟨0x1002, 4⟩ (by decide +kernel)
  have hmem : (0x1004 : Word) ∈ (Aptr.mk 0x1000 2 4).allocation 1 := hw _ (by decide)
  revert hmem
  decide

end Ironclad.Wrappers
