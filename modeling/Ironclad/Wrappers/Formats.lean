import Ironclad.CLib.Format
import Ironclad.Wrappers.Copying

/-!
# `safe_printf` and `safe_fprintf`

Both count the percent signs of the format and ask for as many arguments. A `%%` has two percent
signs and consumes nothing, and a `*` consumes an argument and has none; so the count is right
for the formats in which neither occurs, and otherwise when the number of arguments is on the
same side of both numbers.

The counter of the loop is an `int`, and the number of arguments a `size_t`.
-/

namespace Ironclad.Wrappers

open Ironclad.Logic Ironclad.CLib Ironclad.Pointers

/-! ## The wrappers -/

/-- `format[c]`. -/
def charAt (format : Aptr) (c : BitVec 32) : Prog 64 (BitVec 8) :=
  match format.subscript 1 c with
  | some a => Prog.load a
  | none => do
      Prog.assert false
      pure 0

/-- The loop of `safe_printf` from `c` on, where `++c` is possible `n` more times: an `int` that
overflows is undefined. -/
def countLoop (format : Aptr) (c total_args : BitVec 32) : Nat → Prog 64 (BitVec 32)
  | 0 => Prog.undefined
  | n + 1 => do
      let len ← safe_strlen format
      if ofInt c < len then do
        let ch ← charAt format c
        countLoop format (c + 1) (if ch = Format.code '%' then total_args + 1 else total_args) n
      else pure total_args

/-- `safe_printf(format, args...)`, up to the call of `printf`. -/
def safe_printf (format : Aptr) (args : Word) : Prog 64 Unit := do
  let total_args ← countLoop format 0 0 (2 ^ 31)
  Prog.assert (ofInt total_args ≤ args)

/-- `safe_fprintf(stream, format, args...)`, up to the call of `fprintf`. -/
def safe_fprintf (_stream : Word) (format : Aptr) (args : Word) : Prog 64 Unit := do
  let total_args ← countLoop format 0 0 (2 ^ 31)
  Prog.assert (ofInt total_args ≤ args)

/-! ## The count -/

theorem ofInt_ofNat_toNat {c : Nat} (h : c < 2 ^ 31) : (ofInt (BitVec.ofNat 32 c)).toNat = c := by
  rw [ofInt_ofNat h, Region.toNat_ofNat_of_lt (by omega)]

section

variable {m : Memory 64} {format : Aptr} {n c : Nat}

/-- Every character of the string passes the bounds check. -/
theorem charAt_run (hformat : Placed format) (hterm : TermAt m format n) (hc : c < n)
    (hint : c < 2 ^ 31) :
    (charAt format (BitVec.ofNat 32 c) m).ending =
        .returns (m.byte (format.convert_to_raw 1) c) ∧
      (charAt format (BitVec.ofNat 32 c) m).mem = m := by
  have hsize := hformat.size_lt
  have hlt := hterm.1
  have hsum : (format.index + ofInt (BitVec.ofNat 32 c)).toNat = format.index.toNat + c := by
    rw [BitVec.toNat_add, ofInt_ofNat_toNat hint, Nat.mod_eq_of_lt (by omega)]
  have hcheck : BOUNDS_CHECK_INDEX format.index format.size (ofInt (BitVec.ofNat 32 c)) = true := by
    rw [boundsCheckIndex_eq, boundsCheck_iff, toInt_of_lt (by omega), toInt_of_lt hsize, hsum]
    omega
  have haddr : element 1 format.data (format.index + ofInt (BitVec.ofNat 32 c)) =
      format.data + BitVec.ofNat 64 (format.index.toNat + c) := by
    rw [element, mul_one, ← hsum, BitVec.ofNat_toNat, BitVec.setWidth_eq]
  rw [charAt, Aptr.subscript, hcheck, access, if_pos rfl, haddr, byte_raw]
  exact ⟨rfl, rfl⟩

/-- **The loop.** It adds the percent signs from `c` on, unless the counter overflows first. -/
theorem countLoop_run (hformat : Placed format) (hterm : TermAt m format n) (k t : Nat)
    (hc : c ≤ n) (hk : c + k = 2 ^ 31) :
    (countLoop format (BitVec.ofNat 32 c) (BitVec.ofNat 32 t) k m).ending =
      if n < 2 ^ 31 then
        .returns (BitVec.ofNat 32 (t +
          ((List.range' c (n - c)).map (m.byte (format.convert_to_raw 1))).count
            (Format.code '%')))
      else .undefined := by
  have hn : n < 2 ^ 63 := by
    have := hterm.1
    have := hformat.size_lt
    omega
  induction k generalizing c t with
  | zero =>
      rw [if_neg (by omega)]
      rfl
  | succ k ih =>
      have hstrlen : (safe_strlen format m).ending = .returns (BitVec.ofNat 64 n) := by
        rw [safe_strlen_run]
        simp only [hterm.scanned]
      have hmem : (safe_strlen format m).mem = m := by
        rw [safe_strlen_run]
      have hcmp : ofInt (BitVec.ofNat 32 c) < BitVec.ofNat 64 n ↔ c < n := by
        rw [BitVec.lt_def, ofInt_ofNat_toNat (by omega), BitVec.toNat_ofNat,
          Nat.mod_eq_of_lt (by omega)]
      rw [countLoop, Prog.bind_of_ending hstrlen, Outcome.after_ending, hmem]
      by_cases hlt : c < n
      · obtain ⟨hend, hmem'⟩ := charAt_run hformat hterm hlt (by omega)
        have hnext : BitVec.ofNat 32 c + 1 = BitVec.ofNat 32 (c + 1) :=
          (BitVec.ofNat_add ..).symm
        have htotal : (if m.byte (format.convert_to_raw 1) c = Format.code '%' then
            BitVec.ofNat 32 t + 1 else BitVec.ofNat 32 t) =
            BitVec.ofNat 32 (t +
              if m.byte (format.convert_to_raw 1) c = Format.code '%' then 1 else 0) := by
          split_ifs
          · exact (BitVec.ofNat_add ..).symm
          · rfl
        have hrange : List.range' c (n - c) = c :: List.range' (c + 1) (n - (c + 1)) := by
          rw [← List.range'_succ]
          congr 1
          omega
        rw [if_pos (hcmp.mpr hlt), Prog.bind_of_ending hend, Outcome.after_ending, hmem', hnext,
          htotal, ih _ (by omega) (by omega), hrange, List.map_cons, List.count_cons]
        simp only [beq_iff_eq]
        rw [Nat.add_assoc, Nat.add_comm (List.count _ _)]
      · have hcn : c = n := by omega
        rw [if_neg (hcmp.not.mpr hlt), if_pos (by omega), hcn, Nat.sub_self]
        rfl

/-! ## The assertion -/

/-- The format is a terminated string of `n` characters, those of the items. -/
structure FormatAt (m : Memory 64) (format : Aptr) (n : Nat) (items : List Format.Item) :
    Prop extends Placed format where
  terminated : TermAt m format n
  text_eq : text m (format.convert_to_raw 1) n = Format.render items

/-- The assertion passes when at least the arguments consumed are supplied, and fails when
not. -/
structure ArgumentsChecked (items : List Format.Item) (args : Word) (o : Outcome 64 Unit) :
    Prop where
  accepts : Format.consumed items ≤ args.toNat → o.ending = .returns ()
  rejects : args.toNat < Format.consumed items → o.ending = .fails

/-- The characters of the string, one by one. -/
theorem FormatAt.chars {items : List Format.Item} (h : FormatAt m format n items) :
    (List.range n).map (m.byte (format.convert_to_raw 1)) = Format.render items := by
  have hlen : strnlen m (format.convert_to_raw 1) n = n := by
    apply strnlen_eq (Nat.le_refl n)
    · intro j hj
      rw [byte_raw]
      exact h.terminated.2.2 j hj
    · intro hlt
      omega
  rw [← h.text_eq, text, hlen]

/-- The arguments that a format in memory consumes do not depend on how it is taken apart. -/
theorem FormatAt.consumed_eq {items items' : List Format.Item} {n' : Nat}
    (h : FormatAt m format n items) (h' : FormatAt m format n' items') :
    Format.consumed items = Format.consumed items' := by
  have hn : n = n' := h.terminated.unique h'.terminated
  subst hn
  exact Format.consumed_unique (h.text_eq.symm.trans h'.text_eq)

theorem FormatAt.percents_le {items : List Format.Item} (h : FormatAt m format n items) :
    Format.percents items ≤ n := by
  have hle := List.count_le_length (a := Format.code '%') (l := Format.render items)
  rw [Format.count_percent, ← h.chars, List.length_map, List.length_range] at hle
  exact hle

theorem safe_printf_ending {items : List Format.Item} (h : FormatAt m format n items)
    (args : Word) :
    (safe_printf format args m).ending =
      if n < 2 ^ 31 then
        if Format.percents items ≤ args.toNat then .returns () else .fails
      else .undefined := by
  have hrun := countLoop_run h.toPlaced h.terminated (2 ^ 31) 0 (Nat.zero_le n) (Nat.zero_add _)
  rw [Nat.sub_zero, ← List.range_eq_range', h.chars, Format.count_percent, Nat.zero_add] at hrun
  change (countLoop format 0 0 (2 ^ 31) m).ending = _ at hrun
  rw [safe_printf]
  by_cases hn : n < 2 ^ 31
  · rw [if_pos hn] at hrun ⊢
    have hle := h.percents_le
    have hcmp : ofInt (BitVec.ofNat 32 (Format.percents items)) ≤ args ↔
        Format.percents items ≤ args.toNat := by
      rw [BitVec.le_def, ofInt_ofNat_toNat (by omega)]
    rw [Prog.bind_of_ending hrun, Outcome.after_ending]
    by_cases hargs : Format.percents items ≤ args.toNat
    · rw [if_pos hargs, Prog.assert_run, if_pos (decide_eq_true (hcmp.mpr hargs))]
    · rw [if_neg hargs, Prog.assert_run, if_neg (by rw [decide_eq_true_eq, hcmp]; exact hargs)]
  · rw [if_neg hn] at hrun ⊢
    exact Prog.bind_ending_of_undefined hrun

theorem argumentsChecked_iff {items : List Format.Item} (h : FormatAt m format n items)
    (args : Word) :
    ArgumentsChecked items args (safe_printf format args m) ↔
      n < 2 ^ 31 ∧ (Format.percents items ≤ args.toNat ↔ Format.consumed items ≤ args.toNat) := by
  have hend := safe_printf_ending h args
  constructor
  · intro hchecked
    by_cases hn : n < 2 ^ 31
    · refine ⟨hn, ?_⟩
      rw [if_pos hn] at hend
      constructor
      · intro hargs
        by_contra hmissing
        rw [hchecked.rejects (by omega), if_pos hargs] at hend
        cases hend
      · intro hargs
        by_contra hmissing
        rw [hchecked.accepts hargs, if_neg hmissing] at hend
        cases hend
    · exfalso
      rw [if_neg hn] at hend
      rcases Nat.lt_or_ge args.toNat (Format.consumed items) with hargs | hargs
      · rw [hchecked.rejects hargs] at hend
        cases hend
      · rw [hchecked.accepts hargs] at hend
        cases hend
  · rintro ⟨hn, hiff⟩
    rw [if_pos hn] at hend
    constructor
    · intro hargs
      rw [hend, if_pos (hiff.mpr hargs)]
    · intro hargs
      rw [hend, if_neg]
      rw [hiff]
      omega

end

/-- **Formatted output.** The assertion of `safe_printf` and of `safe_fprintf` rejects exactly
the calls with missing arguments when the format has fewer than `2 ^ 31` characters and the
number of arguments reaches the number of percent signs if and only if it reaches the number of
arguments consumed; and otherwise not. -/
theorem formats_checked_iff {m : Memory 64} {format : Aptr} {n : Nat}
    {items : List Format.Item} (h : FormatAt m format n items) (stream args : Word) :
    (ArgumentsChecked items args (safe_printf format args m) ↔
      n < 2 ^ 31 ∧ (Format.percents items ≤ args.toNat ↔ Format.consumed items ≤ args.toNat)) ∧
    (ArgumentsChecked items args (safe_fprintf stream format args m) ↔
      n < 2 ^ 31 ∧ (Format.percents items ≤ args.toNat ↔ Format.consumed items ≤ args.toNat)) :=
  ⟨argumentsChecked_iff h args, argumentsChecked_iff h args⟩

/-- The format `%*d`. -/
def starFormat : List Format.Item := [.conversion ⟨[], .star, .absent, .absent, .d⟩]

/-- `%*d` with two arguments. -/
theorem formats_checked_iff_star :
    (ArgumentsChecked starFormat 2
        (safe_printf ⟨0x1000, 0, 4⟩ 2 (holding 0x1000 [37, 42, 100])) ↔
      3 < 2 ^ 31 ∧ (Format.percents starFormat ≤ (2 : Word).toNat ↔
        Format.consumed starFormat ≤ (2 : Word).toNat)) ∧
    (ArgumentsChecked starFormat 2
        (safe_fprintf 0x9000 ⟨0x1000, 0, 4⟩ 2 (holding 0x1000 [37, 42, 100])) ↔
      3 < 2 ^ 31 ∧ (Format.percents starFormat ≤ (2 : Word).toNat ↔
        Format.consumed starFormat ≤ (2 : Word).toNat)) :=
  formats_checked_iff (show FormatAt _ ⟨0x1000, 0, 4⟩ 3 starFormat from
    ⟨⟨by decide, by decide⟩, ⟨by decide, by decide, by decide⟩, by decide⟩) 0x9000 2

/-- `%*d` with one argument is accepted, and consumes two. -/
theorem star_argument_missed :
    FormatAt (holding 0x1000 [37, 42, 100]) ⟨0x1000, 0, 4⟩ 3 starFormat ∧
      ¬ArgumentsChecked starFormat 1
        (safe_printf ⟨0x1000, 0, 4⟩ 1 (holding 0x1000 [37, 42, 100])) := by
  refine ⟨⟨⟨by decide, by decide⟩, ⟨by decide, by decide, by decide⟩, by decide⟩, fun h => ?_⟩
  have hfails := h.rejects (by decide)
  revert hfails
  decide +kernel

end Ironclad.Wrappers
