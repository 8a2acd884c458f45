import Ironclad.CLib.Strings
import Ironclad.Wrappers.Length

/-!
# `safe_strcpy`

`safe_strcpy` checks the length of the source against the room in the destination, where
`strcpy` writes one byte more, the terminator. So a string that fills the destination to its
last byte passes, and its terminator lands behind the buffer.
-/

namespace Ironclad.Wrappers

open Ironclad.Logic Ironclad.CLib Ironclad.Pointers

/-- `safe_strcpy(str1, str2)`. -/
def safe_strcpy (str1 str2 : Aptr) : Prog 64 Aptr := do
  NULL_TERM_CHECK str2
  let len ← strlen (str2.convert_to_raw 1)
  Prog.assert (str1.spatialCheck 1 len)
  strcpy (str1.convert_to_raw 1) (str2.convert_to_raw 1)
  pure str1.copy

/-- The string of `len` characters at the source, terminated in its buffer, fits with its
terminator between the index and the end of the destination. -/
def CopyFits (m : Memory 64) (dst src : Aptr) (len : Nat) : Prop :=
  TermAt m src len ∧ dst.index.toNat + (len + 1) ≤ dst.size.toNat

/-- A call that passes its assertions copies a string that fits: exactly its bytes are written,
they equal the source, and the rest of memory stays. A string that fits passes. -/
structure CopiesExactly (m : Memory 64) (dst src : Aptr) (o : Outcome 64 Aptr) : Prop where
  copied : o.ending ≠ .fails → ∃ len, CopyFits m dst src len ∧ o.ending = .returns dst ∧
    o.writes = [⟨dst.convert_to_raw 1, len + 1⟩] ∧
    (∀ i < len + 1, o.mem.byte (dst.convert_to_raw 1) i = m.byte (src.convert_to_raw 1) i) ∧
    ∀ a, a ∉ (⟨dst.convert_to_raw 1, len + 1⟩ : Region 64) → o.mem a = m a
  accepts : (∃ len, CopyFits m dst src len) → o.ending ≠ .fails

/-- A source that is terminated in its buffer does not fill the destination to the last byte,
and one that is not terminated there is refused: no terminator follows within `size` bytes, or
it is too far away for the destination. -/
def Copyable (m : Memory 64) (dst src : Aptr) : Prop :=
  (∀ len, TermAt m src len → dst.index.toNat + len ≠ dst.size.toNat) ∧
    (¬Terminated m src → ∀ len, scanned m src = some len →
      dst.size.toNat < dst.index.toNat + len)

/-- What the check finds is the length of the string in memory. -/
theorem length_of_scanned {m : Memory 64} {p : Aptr} {k : Nat} (h : scanned m p = some k) :
    length m (p.convert_to_raw 1) = some k := by
  have hlt := p.size.isLt
  have hk := first_lt h
  exact first_of_lt h (by omega)

/-- The check of a number of characters, for an index inside the buffer. -/
theorem spatialCheck_chars {p : Aptr} (hp : Placed p) {n : Nat} (hn : n < 2 ^ 63) :
    p.spatialCheck 1 (BitVec.ofNat 64 n) = true ↔ p.index.toNat + n ≤ p.size.toNat := by
  have hsize := hp.size_lt
  have hle := hp.index_le_size
  rw [spatialCheck_iff hsize, InReach, wholeElements]
  show (p.index.toNat + (BitVec.ofNat 64 n).toNat / 1) % 2 ^ 64 ≤ p.size.toNat ↔ _
  rw [Nat.div_one, BitVec.toNat_ofNat, Nat.mod_eq_of_lt (a := n) (by omega),
    Nat.mod_eq_of_lt (by omega)]

section

variable {m : Memory 64} {dst src : Aptr} {len : Nat}

theorem safe_strcpy_none (h : scanned m src = none) :
    (safe_strcpy dst src m).ending = .fails := by
  rw [safe_strcpy, null_term_check_bind_fails h]

/-- A call whose source has a terminator within `size` bytes. -/
theorem safe_strcpy_some (hdst : Placed dst) (hsrc : Placed src)
    (h : scanned m src = some len) :
    safe_strcpy dst src m =
      if dst.index.toNat + len ≤ dst.size.toNat then
        ((putText (dst.convert_to_raw 1) (src.convert_to_raw 1) len (len + 1) >>= fun _ =>
          pure dst) m).after
          [⟨src.convert_to_raw 1, len + 1⟩, ⟨src.convert_to_raw 1, len + 1⟩] []
      else
        ⟨.fails, m, [⟨src.convert_to_raw 1, len + 1⟩, ⟨src.convert_to_raw 1, len + 1⟩], []⟩ := by
  have hlen : len < 2 ^ 63 := (first_lt h).trans hsrc.size_lt
  have hcheck := spatialCheck_chars hdst hlen
  rw [safe_strcpy, null_term_check_bind h, strlen_bind (length_of_scanned h)]
  by_cases hfit : dst.index.toNat + len ≤ dst.size.toNat
  · rw [if_pos hfit, Prog.assert_true_bind (hcheck.mpr hfit), strcpy_bind (length_of_scanned h)]
    rfl
  · rw [if_neg hfit, Prog.assert_false_bind (Bool.eq_false_iff.mpr (hcheck.not.mpr hfit))]
    rfl

/-- A call that finds a terminator within `size` bytes and room for the characters passes. -/
theorem safe_strcpy_accepts (hdst : Placed dst) (hsrc : Placed src)
    (h : scanned m src = some len) (hfit : dst.index.toNat + len ≤ dst.size.toNat) :
    (safe_strcpy dst src m).ending ≠ .fails := by
  rw [safe_strcpy_some hdst hsrc h, if_pos hfit, Outcome.after_ending]
  by_cases hapart : (⟨dst.convert_to_raw 1, len + 1⟩ : Region 64).Apart
      ⟨src.convert_to_raw 1, len + 1⟩
  · rw [putText_bind hapart]
    exact nofun
  · rw [putText_bind_of_overlap hapart]
    exact nofun

/-- What a call that passes has found. -/
theorem safe_strcpy_accepted (hdst : Placed dst) (hsrc : Placed src)
    (h : (safe_strcpy dst src m).ending ≠ .fails) :
    ∃ len, scanned m src = some len ∧ dst.index.toNat + len ≤ dst.size.toNat := by
  cases hs : scanned m src with
  | none => exact absurd (safe_strcpy_none hs) h
  | some len =>
      refine ⟨len, rfl, ?_⟩
      by_contra hfit
      apply h
      rw [safe_strcpy_some hdst hsrc hs, if_neg hfit]

/-- A string that fits is copied. -/
theorem CopyFits.copied (hdst : Placed dst) (hsrc : Placed src)
    (hapart : (buffer dst).Apart (buffer src)) (h : CopyFits m dst src len) :
    (safe_strcpy dst src m).ending = .returns dst ∧
      (safe_strcpy dst src m).writes = [⟨dst.convert_to_raw 1, len + 1⟩] ∧
      (safe_strcpy dst src m).mem = m.write (dst.convert_to_raw 1) (len + 1)
        (fun i => if i < len then m.byte (src.convert_to_raw 1) i else 0) := by
  obtain ⟨hterm, hroom⟩ := h
  have hin : (⟨dst.convert_to_raw 1, len + 1⟩ : Region 64).Apart
      ⟨src.convert_to_raw 1, len + 1⟩ := by
    apply hapart.mono
    · exact (looked_subset_iff hdst).mpr (.inr hroom)
    · have := hterm.1
      exact (looked_subset_iff hsrc).mpr (.inr (by omega))
  rw [safe_strcpy_some hdst hsrc hterm.scanned, if_pos (by omega), putText_bind hin]
  simp

end

/-- **Checked copies.** `safe_strcpy` copies exactly, and accepts every string that fits,
exactly when the source is copyable. -/
theorem copiesExactly_iff {m : Memory 64} {dst src : Aptr} (hdst : Placed dst)
    (hsrc : Placed src) (hapart : (buffer dst).Apart (buffer src)) :
    CopiesExactly m dst src (safe_strcpy dst src m) ↔ Copyable m dst src := by
  constructor
  · intro h
    -- whatever passes fits
    have hpass : ∀ len, scanned m src = some len → dst.index.toNat + len ≤ dst.size.toNat →
        CopyFits m dst src len := by
      intro len hs hle
      obtain ⟨len', hfits, -⟩ := h.copied (safe_strcpy_accepts hdst hsrc hs hle)
      have hlen : len' = len := Option.some.inj (hfits.1.scanned.symm.trans hs)
      exact hlen ▸ hfits
    constructor
    · intro len hterm hfull
      have := (hpass len hterm.scanned (by omega)).2
      omega
    · intro hterm len hs
      by_contra hle
      exact hterm ⟨len, (hpass len hs (by omega)).1⟩
  · rintro ⟨hlast, hover⟩
    constructor
    · intro hpass
      obtain ⟨len, hs, hle⟩ := safe_strcpy_accepted hdst hsrc hpass
      have hterm : TermAt m src len := by
        by_cases ht : Terminated m src
        · obtain ⟨len', hlen'⟩ := ht
          have heq : len' = len := Option.some.inj (hlen'.scanned.symm.trans hs)
          exact heq ▸ hlen'
        · have := hover ht len hs
          omega
      have hfits : CopyFits m dst src len := ⟨hterm, by have := hlast len hterm; omega⟩
      obtain ⟨hend, hwrites, hmem⟩ := hfits.copied hdst hsrc hapart
      refine ⟨len, hfits, hend, hwrites, ?_, ?_⟩
      · intro i hi
        have hlt := hfits.1.1
        have hsize := hsrc.size_lt
        rw [hmem, Memory.byte, Memory.write_of_mem (Region.add_mem_mk hi (by omega)),
          Region.offset_toNat (by omega)]
        by_cases hlen : i < len
        · rw [if_pos hlen]
        · have hi' : i = len := by omega
          rw [if_neg hlen, hi', byte_raw, hterm.2.1]
      · intro a ha
        rw [hmem, Memory.write_of_not_mem ha]
    · rintro ⟨len, hterm, hroom⟩
      exact safe_strcpy_accepts hdst hsrc hterm.scanned (by omega)

/-- A memory with the characters of a list from an address on. -/
def holding (p : Word) (chars : List (BitVec 8)) : Memory 64 :=
  fun a => chars.getD (a - p).toNat 0

/-- The string `AB` at 0x2000 into three characters at 0x1000. -/
theorem copiesExactly_iff_three :
    CopiesExactly (holding 0x2000 [65, 66]) ⟨0x1000, 0, 3⟩ ⟨0x2000, 0, 3⟩
        (safe_strcpy ⟨0x1000, 0, 3⟩ ⟨0x2000, 0, 3⟩ (holding 0x2000 [65, 66])) ↔
      Copyable (holding 0x2000 [65, 66]) ⟨0x1000, 0, 3⟩ ⟨0x2000, 0, 3⟩ :=
  copiesExactly_iff (show Placed ⟨0x1000, 0, 3⟩ from ⟨by decide, by decide⟩)
    (show Placed ⟨0x2000, 0, 3⟩ from ⟨by decide, by decide⟩) (by decide)

/-- The string `AB` fills a destination of two characters: the call passes and the terminator
is written behind the buffer. -/
theorem full_destination_overrun :
    Placed ⟨0x1000, 0, 2⟩ ∧ Placed ⟨0x2000, 0, 3⟩ ∧
      (buffer ⟨0x1000, 0, 2⟩).Apart (buffer ⟨0x2000, 0, 3⟩) ∧
      ¬CopiesExactly (holding 0x2000 [65, 66]) ⟨0x1000, 0, 2⟩ ⟨0x2000, 0, 3⟩
        (safe_strcpy ⟨0x1000, 0, 2⟩ ⟨0x2000, 0, 3⟩ (holding 0x2000 [65, 66])) := by
  refine ⟨⟨by decide, by decide⟩, ⟨by decide, by decide⟩, by decide, fun h => ?_⟩
  obtain ⟨len, ⟨hterm, hroom⟩, -⟩ := h.copied (by decide +kernel)
  have hlen : len = 2 := hterm.unique ⟨by decide, by decide, by decide⟩
  rw [hlen] at hroom
  revert hroom
  decide

end Ironclad.Wrappers
