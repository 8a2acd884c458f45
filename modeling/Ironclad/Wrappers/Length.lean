import Ironclad.CLib.Memory
import Ironclad.Wrappers.SpatialCheck

/-!
# `NULL_TERM_CHECK` and `safe_strlen`

Both look for a terminator from `data + index` on, and both take the size of the whole buffer
for the number of characters to look at. With an index behind the start and no terminator in
the rest of the buffer they go on behind its end.

The terminator of the string at a pointer is `TermAt`: its distance from the current position,
inside the buffer. That is what the results of the wrappers are compared with.
-/

namespace Ironclad.Wrappers

open Ironclad.Logic Ironclad.CLib Ironclad.Pointers

/-! ## The wrappers -/

/-- `NULL_TERM_CHECK(s)`: `assert(memchr(s.convert_to_void(),'\0',s.getSize()) != NULL)`. -/
def NULL_TERM_CHECK (s : Aptr) : Prog 64 Unit := do
  let found ← memchr (s.convert_to_raw 1) 0 s.size.toNat
  Prog.assert found.isSome

/-- The loop of `safe_strlen` from `c` on, with `n` more values of `c` below `getSize()`. Behind
the loop is `assert(false)`. -/
def strlenLoop (raw_str c : Word) : Nat → Prog 64 Word
  | 0 => do
      Prog.assert false
      pure 0
  | n + 1 => do
      let ch ← Prog.load (raw_str + c)
      if ch == 0 then pure c else strlenLoop raw_str (c + 1) n

/-- `safe_strlen(str)`. -/
def safe_strlen (str : Aptr) : Prog 64 Word :=
  strlenLoop (str.convert_to_raw 1) 0 str.size.toNat

/-! ## Strings in a buffer -/

/-- The buffer of an `aptr<char>`. -/
def buffer (p : Aptr) : Region 64 := ⟨p.data, p.size.toNat⟩

/-- The index is between zero and the size. -/
structure Placed (p : Aptr) : Prop where
  index_nonneg : 0 ≤ p.index.toInt
  index_le : p.index.toInt ≤ p.size.toInt

/-- The first terminator at or behind the current position is `n` characters away, inside the
buffer. -/
def TermAt (m : Memory 64) (p : Aptr) (n : Nat) : Prop :=
  p.index.toNat + n < p.size.toNat ∧ m.byte p.data (p.index.toNat + n) = 0 ∧
    ∀ j < n, m.byte p.data (p.index.toNat + j) ≠ 0

/-- There is a terminator between the current position and the end of the buffer. -/
def Terminated (m : Memory 64) (p : Aptr) : Prop := ∃ n, TermAt m p n

theorem Placed.size_lt {p : Aptr} (h : Placed p) : p.size.toNat < 2 ^ 63 :=
  toNat_lt_of_toInt (h.index_nonneg.trans h.index_le)

theorem Placed.index_le_size {p : Aptr} (h : Placed p) : p.index.toNat ≤ p.size.toNat := by
  have hle := h.index_le
  rw [toInt_eq_toNat h.index_nonneg, toInt_eq_toNat (h.index_nonneg.trans h.index_le)] at hle
  omega

theorem TermAt.unique {m : Memory 64} {p : Aptr} {n n' : Nat} (h : TermAt m p n)
    (h' : TermAt m p n') : n = n' :=
  least_unique h.2.1 h.2.2 h'.2.1 h'.2.2

theorem raw_eq (p : Aptr) : p.convert_to_raw 1 = p.data + BitVec.ofNat 64 p.index.toNat := by
  rw [Aptr.convert_to_raw, element, BitVec.ofNat_toNat, BitVec.setWidth_eq, mul_one]

/-- The characters from the raw pointer on. -/
theorem byte_raw (m : Memory 64) (p : Aptr) (i : Nat) :
    m.byte (p.convert_to_raw 1) i = m.byte p.data (p.index.toNat + i) := by
  rw [Memory.byte, Memory.byte, raw_eq, BitVec.ofNat_add, add_assoc]

/-- What both functions look for: the first terminator among `size` characters. -/
def scanned (m : Memory 64) (p : Aptr) : Option Nat :=
  first (fun i => m.byte (p.convert_to_raw 1) i == 0) p.size.toNat

/-- How many characters they look at. -/
def looked (m : Memory 64) (p : Aptr) : Nat :=
  match scanned m p with
  | some k => k + 1
  | none => p.size.toNat

theorem looked_of_some {m : Memory 64} {p : Aptr} {k : Nat} (h : scanned m p = some k) :
    looked m p = k + 1 := by
  rw [looked, h]

theorem looked_of_none {m : Memory 64} {p : Aptr} (h : scanned m p = none) :
    looked m p = p.size.toNat := by
  rw [looked, h]

theorem scanned_eq_some {m : Memory 64} {p : Aptr} {k : Nat} :
    scanned m p = some k ↔ k < p.size.toNat ∧ m.byte p.data (p.index.toNat + k) = 0 ∧
      ∀ j < k, m.byte p.data (p.index.toNat + j) ≠ 0 := by
  simp only [scanned, first_eq_some, byte_raw, beq_iff_eq, beq_eq_false_iff_ne]

/-- A terminator in the buffer is found. -/
theorem TermAt.scanned {m : Memory 64} {p : Aptr} {n : Nat} (h : TermAt m p n) :
    scanned m p = some n := by
  rw [scanned_eq_some]
  exact ⟨by have := h.1; omega, h.2⟩

/-- The characters looked at are all in the buffer exactly when the last one is. -/
theorem looked_subset_iff {p : Aptr} (hp : Placed p) {n : Nat} :
    (⟨p.convert_to_raw 1, n⟩ : Region 64) ⊆ buffer p ↔
      n = 0 ∨ p.index.toNat + n ≤ p.size.toNat := by
  have hsize := hp.size_lt
  rw [Region.subset_iff (by show p.size.toNat < 2 ^ 64; omega)]
  show n = 0 ∨ (p.convert_to_raw 1 - p.data).toNat + n ≤ p.size.toNat ↔ _
  rw [raw_eq, Region.offset_toNat p.index.isLt]

/-- **The scan is right.** It finds something only in a terminated buffer, and does not leave
the buffer, exactly when it begins at the start or the string is terminated. -/
theorem scan_right_iff {m : Memory 64} {p : Aptr} (hp : Placed p) :
    (((scanned m p).isSome = true → Terminated m p) ∧
        (⟨p.convert_to_raw 1, looked m p⟩ : Region 64) ⊆ buffer p) ↔
      p.index = 0 ∨ Terminated m p := by
  rw [looked_subset_iff hp]
  by_cases hterm : Terminated m p
  · obtain ⟨n, hn⟩ := hterm
    have := hn.1
    rw [looked_of_some hn.scanned]
    exact iff_of_true ⟨fun _ => ⟨n, hn⟩, .inr (by omega)⟩ (.inr ⟨n, hn⟩)
  rw [or_iff_left hterm]
  cases hs : scanned m p with
  | some k =>
      -- found behind the end of the buffer
      obtain ⟨hlt, hz⟩ := scanned_eq_some.mp hs
      refine iff_of_false (fun h => hterm (h.1 rfl)) fun hzero => hterm ⟨k, ?_, hz⟩
      rw [hzero]
      show 0 + k < p.size.toNat
      omega
  | none =>
      have hle := hp.index_le_size
      have hzero : p.index = 0 ↔ p.index.toNat = 0 := BitVec.toNat_inj.symm
      rw [looked_of_none hs, hzero]
      simp only [Option.isSome_none, Bool.false_eq_true, false_implies, true_and]
      omega

/-! ## The runs of the two functions -/

/-- The `n` bytes from `c` on, read one by one. -/
def oneByOne (raw : Word) (c n : Nat) : List (Region 64) :=
  (List.range' c n).map fun i => ⟨raw + BitVec.ofNat 64 i, 1⟩

theorem oneByOne_subset_iff {raw : Word} {n : Nat} (hn : n ≤ 2 ^ 64) {q : Region 64} :
    (∀ r ∈ oneByOne raw 0 n, r ⊆ q) ↔ (⟨raw, n⟩ : Region 64) ⊆ q := by
  simp only [oneByOne, List.forall_mem_map, List.mem_range'_1, Nat.zero_le, true_and,
    Nat.zero_add]
  constructor
  · intro h a ha
    rw [Region.mem_mk] at ha
    apply h _ ha
    rw [BitVec.ofNat_toNat, BitVec.setWidth_eq, add_sub_cancel, Region.mem_mk, sub_self]
    exact Nat.one_pos
  · intro h i hi a ha
    apply h
    -- the one address in the region of a byte
    have hzero : a - (raw + BitVec.ofNat 64 i) = 0#64 := by
      apply BitVec.eq_of_toNat_eq
      rw [Region.mem_mk] at ha
      rw [BitVec.toNat_zero]
      omega
    have ha' : a = raw + BitVec.ofNat 64 i := sub_eq_zero.mp hzero
    rw [ha']
    exact Region.add_mem_mk hi (by omega)

theorem strlenLoop_run (raw : Word) (c n : Nat) (m : Memory 64) :
    strlenLoop raw (BitVec.ofNat 64 c) n m =
      match first (fun i => m.byte raw (c + i) == 0) n with
      | some k => ⟨.returns (BitVec.ofNat 64 (c + k)), m, oneByOne raw c (k + 1), []⟩
      | none => ⟨.fails, m, oneByOne raw c n, []⟩ := by
  induction n generalizing c with
  | zero => rfl
  | succ n ih =>
      have hnext : BitVec.ofNat 64 c + 1 = BitVec.ofNat 64 (c + 1) := (BitVec.ofNat_add ..).symm
      have hshift : (fun i => m.byte raw (c + (i + 1)) == 0) =
          fun i => m.byte raw (c + 1 + i) == 0 := by
        funext i
        rw [Nat.add_assoc, Nat.add_comm 1]
      rw [strlenLoop, Prog.load_bind, first]
      show ((if m.byte raw c == 0 then _ else _ : Prog 64 Word) m).after _ _ = _
      cases hb : m.byte raw c == 0 with
      | true =>
          rw [if_pos rfl, if_pos rfl]
          rfl
      | false =>
          rw [if_neg Bool.false_ne_true, if_neg Bool.false_ne_true, hnext, ih, hshift]
          cases first (fun i => m.byte raw (c + 1 + i) == 0) n with
          | none => simp [Outcome.after, oneByOne, List.range'_succ]
          | some k =>
              have hk : c + 1 + k = c + (k + 1) := by omega
              simp [Outcome.after, oneByOne, List.range'_succ, hk]

theorem safe_strlen_run (p : Aptr) (m : Memory 64) :
    safe_strlen p m =
      ⟨match scanned m p with
        | some k => .returns (BitVec.ofNat 64 k)
        | none => .fails, m, oneByOne (p.convert_to_raw 1) 0 (looked m p), []⟩ := by
  have h := strlenLoop_run (p.convert_to_raw 1) 0 p.size.toNat m
  simp only [Nat.zero_add] at h
  rw [safe_strlen]
  show strlenLoop (p.convert_to_raw 1) (BitVec.ofNat 64 0) p.size.toNat m = _
  rw [h, looked, scanned]
  cases first (fun i => m.byte (p.convert_to_raw 1) i == 0) p.size.toNat <;> rfl

theorem null_term_check_run (p : Aptr) (m : Memory 64) :
    NULL_TERM_CHECK p m =
      ⟨if (scanned m p).isSome then .returns () else .fails, m,
        [⟨p.convert_to_raw 1, looked m p⟩], []⟩ := by
  cases hs : scanned m p with
  | some k =>
      have hrun : memchr (p.convert_to_raw 1) 0 p.size.toNat m =
          ⟨.returns (some (p.convert_to_raw 1 + BitVec.ofNat 64 k)), m,
            [⟨p.convert_to_raw 1, k + 1⟩], []⟩ := by
        rw [scanned] at hs
        rw [memchr, hs]
      rw [NULL_TERM_CHECK, Prog.bind_of_returns hrun, looked_of_some hs]
      rfl
  | none =>
      have hrun : memchr (p.convert_to_raw 1) 0 p.size.toNat m =
          ⟨.returns none, m, [⟨p.convert_to_raw 1, p.size.toNat⟩], []⟩ := by
        rw [scanned] at hs
        rw [memchr, hs]
      rw [NULL_TERM_CHECK, Prog.bind_of_returns hrun, looked_of_none hs]
      rfl

section

variable {p : Aptr} {m : Memory 64} {k : Nat} {α : Type} {f : Unit → Prog 64 α}

theorem null_term_check_bind (h : scanned m p = some k) :
    (NULL_TERM_CHECK p >>= f) m = (f () m).after [⟨p.convert_to_raw 1, k + 1⟩] [] := by
  apply Prog.bind_of_returns
  rw [null_term_check_run, looked_of_some h, h]
  rfl

theorem null_term_check_bind_fails (h : scanned m p = none) :
    (NULL_TERM_CHECK p >>= f) m =
      ⟨.fails, m, [⟨p.convert_to_raw 1, p.size.toNat⟩], []⟩ := by
  apply Prog.bind_of_fails
  rw [null_term_check_run, looked_of_none h, h]
  rfl

/-- What does not end in a failure has passed the check in front. -/
theorem null_term_check_passed (h : ((NULL_TERM_CHECK p >>= f) m).ending ≠ .fails) :
    ∃ k, scanned m p = some k ∧ (f () m).ending ≠ .fails := by
  cases hs : scanned m p with
  | none =>
      rw [null_term_check_bind_fails hs] at h
      exact absurd rfl h
  | some k =>
      rw [null_term_check_bind hs] at h
      exact ⟨k, rfl, h⟩

theorem null_term_check_returns {r : α} (h : ((NULL_TERM_CHECK p >>= f) m).ending = .returns r) :
    ∃ k, scanned m p = some k ∧ (f () m).ending = .returns r := by
  obtain ⟨k, hs, -⟩ := null_term_check_passed (by rw [h]; nofun)
  rw [null_term_check_bind hs] at h
  exact ⟨k, hs, h⟩

end

/-! ## Exactness -/

/-- The length is returned that the terminator in the buffer gives, the assertion fails when
there is none, and only the buffer is read. -/
structure LengthExact (m : Memory 64) (p : Aptr) (o : Outcome 64 Word) : Prop where
  returns_iff : ∀ n : Word, o.ending = .returns n ↔ TermAt m p n.toNat
  fails : ¬Terminated m p → o.ending = .fails
  reads : o.ReadsIn (buffer p)

/-- The check passes when there is a terminator in the buffer, fails when there is none, and
reads only the buffer. -/
structure CheckExact (m : Memory 64) (p : Aptr) (o : Outcome 64 Unit) : Prop where
  passes_iff : o.ending = .returns () ↔ Terminated m p
  fails : ¬Terminated m p → o.ending = .fails
  reads : o.ReadsIn (buffer p)

theorem looked_le {m : Memory 64} {p : Aptr} : looked m p ≤ 2 ^ 64 := by
  have hsize := p.size.isLt
  cases hs : scanned m p with
  | some k =>
      have := first_lt hs
      rw [looked_of_some hs]
      omega
  | none =>
      rw [looked_of_none hs]
      omega

theorem lengthExact_iff {m : Memory 64} {p : Aptr} (hp : Placed p) :
    LengthExact m p (safe_strlen p m) ↔ p.index = 0 ∨ Terminated m p := by
  rw [← scan_right_iff hp, safe_strlen_run, ← oneByOne_subset_iff looked_le]
  constructor
  · intro h
    refine ⟨fun hsome => ?_, h.reads⟩
    obtain ⟨k, hk⟩ := Option.isSome_iff_exists.mp hsome
    exact ⟨_, (h.returns_iff (BitVec.ofNat 64 k)).mp (by simp only [hk])⟩
  · rintro ⟨hterm, hreads⟩
    refine ⟨fun n => ⟨fun h => ?_, fun h => ?_⟩, fun h => ?_, hreads⟩
    · cases hs : scanned m p with
      | none =>
          simp only [hs] at h
          cases h
      | some k =>
          simp only [hs, Ending.returns.injEq] at h
          obtain ⟨n', hn'⟩ := hterm (by rw [hs]; rfl)
          have hk : k = n' := Option.some.inj (hs.symm.trans hn'.scanned)
          have hlt := p.size.isLt
          have hn := hn'.1
          rw [← h, BitVec.toNat_ofNat, Nat.mod_eq_of_lt (by omega), hk]
          exact hn'
    · simp only [h.scanned, BitVec.ofNat_toNat, BitVec.setWidth_eq]
    · cases hs : scanned m p with
      | none => rfl
      | some k => exact absurd (hterm (by rw [hs]; rfl)) h

theorem checkExact_iff {m : Memory 64} {p : Aptr} (hp : Placed p) :
    CheckExact m p (NULL_TERM_CHECK p m) ↔ p.index = 0 ∨ Terminated m p := by
  rw [← scan_right_iff hp, null_term_check_run]
  constructor
  · intro h
    refine ⟨fun hsome => h.passes_iff.mp (if_pos hsome), ?_⟩
    exact h.reads _ (List.mem_singleton_self _)
  · rintro ⟨hterm, hreads⟩
    have hiff : (scanned m p).isSome = true ↔ Terminated m p := by
      refine ⟨hterm, fun h => ?_⟩
      obtain ⟨n, hn⟩ := h
      rw [hn.scanned]
      rfl
    refine ⟨?_, fun h => if_neg (hiff.not.mpr h), ?_⟩
    · rw [← hiff]
      by_cases h : (scanned m p).isSome = true <;> simp [h]
    · intro r hr
      rw [List.mem_singleton.mp hr]
      exact hreads

/-- **String length and the terminator check.** Both are exact, and stay in the buffer, exactly
when the index is zero or the rest of the buffer has a terminator. -/
theorem length_exact_iff {p : Aptr} (hp : Placed p) (m : Memory 64) :
    (LengthExact m p (safe_strlen p m) ∧ CheckExact m p (NULL_TERM_CHECK p m)) ↔
      p.index = 0 ∨ Terminated m p := by
  rw [lengthExact_iff hp, checkExact_iff hp, and_self]

/-- From the second character of a buffer of two, with nothing terminated. -/
theorem length_exact_iff_second :
    (LengthExact (fun _ => 65) ⟨0x1000, 1, 2⟩ (safe_strlen ⟨0x1000, 1, 2⟩ fun _ => 65) ∧
        CheckExact (fun _ => 65) ⟨0x1000, 1, 2⟩ (NULL_TERM_CHECK ⟨0x1000, 1, 2⟩ fun _ => 65)) ↔
      (1 : Word) = 0 ∨ Terminated (fun _ => 65) ⟨0x1000, 1, 2⟩ :=
  length_exact_iff (p := ⟨0x1000, 1, 2⟩) ⟨by decide, by decide⟩ fun _ => 65

/-- The buffer holds `AB` without a terminator and index 1 is the current position: the byte
behind the buffer is read, and when it happens to be zero the length is 1. -/
theorem length_not_exact :
    Placed ⟨0x1000, 1, 2⟩ ∧
      ¬LengthExact (fun a => if a = 0x1002 then 0 else 65) ⟨0x1000, 1, 2⟩
        (safe_strlen ⟨0x1000, 1, 2⟩ fun a => if a = 0x1002 then 0 else 65) := by
  refine ⟨⟨by decide, by decide⟩, fun h => ?_⟩
  have hlt := ((h.returns_iff 1).mp (by decide)).1
  revert hlt
  decide

end Ironclad.Wrappers
