import Ironclad.CLib.Memory

/-!
# The string functions of the C library

Strings are terminated by a zero character. `strlen`, `strcpy`, `strncpy`, `strcat`, `strncat`,
`strcmp`, `strncmp` and `strchr` as the C standard describes them, over the whole address space:
a string without a terminator anywhere, and a copy between ranges that overlap, are undefined.

The contents of a string are a list (`text`), so that what the functions do can be stated with
the operations of lists.
-/

namespace Ironclad.CLib

open Ironclad.Logic

variable {w : Nat} {m : Memory w} {p : BitVec w} {n k : Nat}

/-! ## Lengths and contents -/

/-- The number of characters in front of the first terminator. -/
def length (m : Memory w) (p : BitVec w) : Option Nat := first (fun i => m.byte p i == 0) (2 ^ w)

/-- The number of characters in front of the first terminator, at most `n`. -/
def strnlen (m : Memory w) (p : BitVec w) (n : Nat) : Nat :=
  (first (fun i => m.byte p i == 0) n).getD n

/-- The characters in front of the first terminator, at most `n`. -/
def text (m : Memory w) (p : BitVec w) (n : Nat) : List (BitVec 8) :=
  (List.range (strnlen m p n)).map (m.byte p)

theorem length_eq_some :
    length m p = some k ↔ k < 2 ^ w ∧ m.byte p k = 0 ∧ ∀ j < k, m.byte p j ≠ 0 := by
  simp only [length, first_eq_some, beq_iff_eq, beq_eq_false_iff_ne]

theorem strnlen_le : strnlen m p n ≤ n := by
  unfold strnlen
  cases h : first (fun i => m.byte p i == 0) n with
  | none => exact Nat.le_refl n
  | some k => exact (first_lt h).le

/-- In front of the end of the text no character is a terminator. -/
theorem byte_ne_zero_of_lt (h : k < strnlen m p n) : m.byte p k ≠ 0 := by
  unfold strnlen at h
  cases hf : first (fun i => m.byte p i == 0) n with
  | none =>
      rw [hf] at h
      exact beq_eq_false_iff_ne.mp (first_eq_none.mp hf k h)
  | some j =>
      rw [hf] at h
      exact beq_eq_false_iff_ne.mp ((first_eq_some.mp hf).2.2 k h)

/-- A text that ends in front of the bound ends at a terminator. -/
theorem byte_strnlen (h : strnlen m p n < n) : m.byte p (strnlen m p n) = 0 := by
  unfold strnlen at h ⊢
  cases hf : first (fun i => m.byte p i == 0) n with
  | none =>
      rw [hf, Option.getD_none] at h
      omega
  | some j => exact beq_iff_eq.mp (first_eq_some.mp hf).2.1

/-- The end of a text is given by its characters. -/
theorem strnlen_eq (hk : k ≤ n) (hchars : ∀ j < k, m.byte p j ≠ 0)
    (hend : k < n → m.byte p k = 0) : strnlen m p n = k := by
  rcases Nat.lt_trichotomy (strnlen m p n) k with h | h | h
  · exact absurd (byte_strnlen (by omega)) (hchars _ h)
  · exact h
  · exact absurd (hend (by have := strnlen_le (m := m) (p := p) (n := n); omega))
      (byte_ne_zero_of_lt h)

theorem strnlen_of_length (h : length m p = some k) : strnlen m p n = min k n := by
  obtain ⟨-, hz, hlt⟩ := length_eq_some.mp h
  apply strnlen_eq (Nat.min_le_right k n)
  · intro j hj
    exact hlt j (by omega)
  · intro hmin
    rw [Nat.min_eq_left (by omega)]
    exact hz

/-- A text depends on the bytes below the bound only. -/
theorem text_congr {m' : Memory w} (h : ∀ i < n, m'.byte p i = m.byte p i) :
    text m' p n = text m p n := by
  have hlen : strnlen m' p n = strnlen m p n := by
    apply strnlen_eq strnlen_le
    · intro j hj
      have := strnlen_le (m := m) (p := p) (n := n)
      rw [h j (by omega)]
      exact byte_ne_zero_of_lt hj
    · intro hlt
      rw [h _ hlt]
      exact byte_strnlen hlt
  rw [text, text, hlen]
  apply List.map_congr_left
  intro i hi
  have := strnlen_le (m := m) (p := p) (n := n)
  have := List.mem_range.mp hi
  exact h i (by omega)

@[simp] theorem text_length : (text m p n).length = strnlen m p n := by
  rw [text, List.length_map, List.length_range]

theorem byte_zero (m : Memory w) (p : BitVec w) : m.byte p 0 = m p := by
  rw [Memory.byte]
  show m (p + 0#w) = m p
  rw [BitVec.add_zero]

theorem byte_succ (m : Memory w) (p : BitVec w) (i : Nat) :
    m.byte p (i + 1) = m.byte (p + 1#w) i := by
  rw [Memory.byte, Memory.byte, Nat.add_comm, BitVec.ofNat_add, ← BitVec.add_assoc]

/-- A text by its first character. -/
theorem strnlen_succ (m : Memory w) (p : BitVec w) (n : Nat) :
    strnlen m p (n + 1) = if m p = 0 then 0 else strnlen m (p + 1#w) n + 1 := by
  unfold strnlen
  rw [first]
  simp only [byte_zero, byte_succ, beq_iff_eq]
  by_cases hz : m p = 0
  · rw [if_pos hz, if_pos hz]
    rfl
  · rw [if_neg hz, if_neg hz]
    cases first (fun i => m.byte (p + 1#w) i == 0) n <;> rfl

theorem text_succ (m : Memory w) (p : BitVec w) (n : Nat) :
    text m p (n + 1) = if m p = 0 then [] else m p :: text m (p + 1#w) n := by
  rw [text, strnlen_succ]
  by_cases hz : m p = 0
  · rw [if_pos hz, if_pos hz]
    rfl
  · rw [if_neg hz, if_neg hz, List.range_succ_eq_map, List.map_cons, List.map_map, byte_zero]
    congr 1
    apply List.map_congr_left
    intro i _
    exact byte_succ m p i

/-! ## The functions -/

/-- `strlen(p)`. -/
def strlen (p : BitVec w) : Prog w (BitVec w) := fun m =>
  match length m p with
  | some k => ⟨.returns (BitVec.ofNat w k), m, [⟨p, k + 1⟩], []⟩
  | none => ⟨.undefined, m, [⟨p, 2 ^ w⟩], []⟩

/-- The `k` characters of a text and a terminator are written at `d`, after `n` bytes of the
text have been read at `s`. -/
def putText (d s : BitVec w) (k n : Nat) : Prog w Unit := fun m =>
  let m' := m.write d (k + 1) fun i => if i < k then m.byte s i else 0
  if (⟨d, k + 1⟩ : Region w).Apart ⟨s, n⟩ then ⟨.returns (), m', [⟨s, n⟩], [⟨d, k + 1⟩]⟩
  else ⟨.undefined, m, [⟨s, n⟩], [⟨d, k + 1⟩]⟩

/-- `strcpy(d, s)`. -/
def strcpy (d s : BitVec w) : Prog w Unit := fun m =>
  match length m s with
  | some k => putText d s k (k + 1) m
  | none => ⟨.undefined, m, [⟨s, 2 ^ w⟩], []⟩

/-- `strncpy(d, s, n)`: the text, padded with zeros to `n` bytes. -/
def strncpy (d s : BitVec w) (n : Nat) : Prog w Unit := fun m =>
  let k := strnlen m s n
  let m' := m.write d n fun i => if i < k then m.byte s i else 0
  if (⟨d, n⟩ : Region w).Apart ⟨s, min (k + 1) n⟩ then
    ⟨.returns (), m', [⟨s, min (k + 1) n⟩], [⟨d, n⟩]⟩
  else ⟨.undefined, m, [⟨s, min (k + 1) n⟩], [⟨d, n⟩]⟩

/-- `strcat(d, s)`. -/
def strcat (d s : BitVec w) : Prog w Unit := fun m =>
  match length m d, length m s with
  | some a, some k => (putText (d + BitVec.ofNat w a) s k (k + 1) m).after [⟨d, a + 1⟩] []
  | _, _ => ⟨.undefined, m, [], []⟩

/-- `strncat(d, s, n)`: at most `n` characters and a terminator. -/
def strncat (d s : BitVec w) (n : Nat) : Prog w Unit := fun m =>
  match length m d with
  | some a =>
      let k := strnlen m s n
      (putText (d + BitVec.ofNat w a) s k (min (k + 1) n) m).after [⟨d, a + 1⟩] []
  | none => ⟨.undefined, m, [], []⟩

/-- The first position below `n` where two texts differ or both end. -/
def differAt (m : Memory w) (p q : BitVec w) (n : Nat) : Option Nat :=
  first (fun i => m.byte p i != m.byte q i || m.byte p i == 0) n

/-- `strncmp(p, q, n)`: the sign of the result. -/
def strncmp (p q : BitVec w) (n : Nat) : Prog w Ordering := fun m =>
  match differAt m p q n with
  | some k => ⟨.returns (compareAt m p q (some k)), m, [⟨p, k + 1⟩, ⟨q, k + 1⟩], []⟩
  | none => ⟨.returns .eq, m, [⟨p, n⟩, ⟨q, n⟩], []⟩

/-- `strcmp(p, q)`: the sign of the result. -/
def strcmp (p q : BitVec w) : Prog w Ordering := fun m =>
  match differAt m p q (2 ^ w) with
  | some k => ⟨.returns (compareAt m p q (some k)), m, [⟨p, k + 1⟩, ⟨q, k + 1⟩], []⟩
  | none => ⟨.undefined, m, [⟨p, 2 ^ w⟩, ⟨q, 2 ^ w⟩], []⟩

/-- `strchr(p, c)`: the first `c` up to and including the terminator. -/
def strchr (p : BitVec w) (c : BitVec 8) : Prog w (Option (BitVec w)) := fun m =>
  match first (fun i => m.byte p i == c || m.byte p i == 0) (2 ^ w) with
  | some k =>
      ⟨.returns (if m.byte p k = c then some (p + BitVec.ofNat w k) else none), m,
        [⟨p, k + 1⟩], []⟩
  | none => ⟨.undefined, m, [⟨p, 2 ^ w⟩], []⟩

/-! ## The order of two texts -/

/-- The texts at two addresses, of at most `n` characters, compared as lists of
`unsigned char`s. -/
def compareText (m : Memory w) (p q : BitVec w) (n : Nat) : Ordering :=
  compare ((text m p n).map BitVec.toNat) ((text m q n).map BitVec.toNat)

theorem differAt_succ (m : Memory w) (p q : BitVec w) (n : Nat) :
    differAt m p q (n + 1) =
      if m p != m q || m p == 0 then some 0
      else (differAt m (p + 1#w) (q + 1#w) n).map (· + 1) := by
  rw [differAt, first]
  simp only [byte_zero, byte_succ]
  rfl

/-- **The sign of a comparison.** The characters at the first position where two texts differ or
both end are in the order of the texts. -/
theorem compareAt_differAt (m : Memory w) (p q : BitVec w) (n : Nat) :
    compareAt m p q (differAt m p q n) = compareText m p q n := by
  induction n generalizing p q with
  | zero => rfl
  | succ n ih =>
      rw [differAt_succ, compareText, text_succ, text_succ]
      by_cases heq : m p = m q
      · rw [heq]
        by_cases hz : m q = 0
        · -- both end here
          simp [hz, compareAt, byte_zero, heq]
        · have hshift : compareAt m p q ((differAt m (p + 1#w) (q + 1#w) n).map (· + 1)) =
              compareAt m (p + 1#w) (q + 1#w) (differAt m (p + 1#w) (q + 1#w) n) := by
            cases differAt m (p + 1#w) (q + 1#w) n with
            | none => rfl
            | some k =>
                rw [Option.map_some, compareAt, compareAt, byte_succ, byte_succ]
          have hself : compare (m q).toNat (m q).toNat = .eq := Nat.compare_eq_eq.mpr rfl
          simp only [bne_self_eq_false, beq_eq_false_iff_ne.mpr hz, Bool.or_self,
            Bool.false_eq_true, if_false, hz, List.map_cons, List.compare_cons_cons, hself,
            hshift, ih]
          rfl
      · have hne : (m p != m q || m p == 0) = true := by
          rw [bne_iff_ne.mpr heq, Bool.true_or]
        rw [if_pos hne, compareAt, byte_zero, byte_zero]
        -- the first characters decide, an end of text being the smaller one
        have hlt : (m p).toNat ≠ (m q).toNat := fun h => heq (BitVec.eq_of_toNat_eq h)
        by_cases hp : m p = 0
        · have hq : m q ≠ 0 := fun h => heq (hp.trans h.symm)
          rw [if_pos hp, if_neg hq]
          show _ = Ordering.lt
          apply Nat.compare_eq_lt.mpr
          have hzero : (m p).toNat = 0 := by
            rw [hp]
            rfl
          omega
        · rw [if_neg hp]
          by_cases hq : m q = 0
          · rw [if_pos hq]
            show _ = Ordering.gt
            apply Nat.compare_eq_gt.mpr
            have hzero : (m q).toNat = 0 := by
              rw [hq]
              rfl
            omega
          · rw [if_neg hq, List.map_cons, List.map_cons, List.compare_cons_cons]
            cases hc : compare (m p).toNat (m q).toNat with
            | eq => exact absurd (Nat.compare_eq_eq.mp hc) hlt
            | lt => rfl
            | gt => rfl

/-! ## What they do to a terminated string -/

section

variable {α : Type} {d s : BitVec w}

theorem strlen_bind {f : BitVec w → Prog w α} (h : length m p = some k) :
    (strlen p >>= f) m = (f (BitVec.ofNat w k) m).after [⟨p, k + 1⟩] [] := by
  apply Prog.bind_of_returns
  rw [strlen, h]

theorem putText_of_apart (h : (⟨d, k + 1⟩ : Region w).Apart ⟨s, n⟩) :
    putText d s k n m =
      ⟨.returns (), m.write d (k + 1) fun i => if i < k then m.byte s i else 0, [⟨s, n⟩],
        [⟨d, k + 1⟩]⟩ := if_pos h

theorem putText_of_overlap (h : ¬(⟨d, k + 1⟩ : Region w).Apart ⟨s, n⟩) :
    putText d s k n m = ⟨.undefined, m, [⟨s, n⟩], [⟨d, k + 1⟩]⟩ := if_neg h

theorem putText_bind {f : Unit → Prog w α} (h : (⟨d, k + 1⟩ : Region w).Apart ⟨s, n⟩) :
    (putText d s k n >>= f) m =
      (f () (m.write d (k + 1) fun i => if i < k then m.byte s i else 0)).after [⟨s, n⟩]
        [⟨d, k + 1⟩] :=
  Prog.bind_of_returns (putText_of_apart h)

theorem putText_bind_of_overlap {f : Unit → Prog w α}
    (h : ¬(⟨d, k + 1⟩ : Region w).Apart ⟨s, n⟩) :
    (putText d s k n >>= f) m = ⟨.undefined, m, [⟨s, n⟩], [⟨d, k + 1⟩]⟩ :=
  Prog.bind_of_undefined (putText_of_overlap h)

/-- `strcpy` of a string of `k` characters. -/
theorem strcpy_bind {f : Unit → Prog w α} (h : length m s = some k) :
    (strcpy d s >>= f) m = (putText d s k (k + 1) >>= f) m := by
  have hrun : strcpy d s m = putText d s k (k + 1) m := by rw [strcpy, h]
  show Prog.bind _ _ m = Prog.bind _ _ m
  rw [Prog.bind, hrun]
  rfl

/-- `strcat` is `strncat` without a bound. -/
theorem strcat_eq_strncat {a : Nat} (hd : length m d = some a) (hs : length m s = some k) :
    strcat d s m = strncat d s (2 ^ w) m := by
  have hk := (length_eq_some.mp hs).1
  rw [strcat, strncat, hd, hs]
  show Outcome.after _ _ _ = Outcome.after _ _ _
  rw [strnlen_of_length hs, Nat.min_eq_left (by omega), Nat.min_eq_left (by omega)]

end

/-! ## Appending a text -/

section

variable {d s : BitVec w} {a size : Nat} {f : Nat → BitVec 8}

/-- **Appending.** Characters written over the terminator of a text, with a new terminator
behind them, are appended to the text. -/
theorem text_append (hlen : strnlen m d size = a) (hroom : a + (k + 1) ≤ size)
    (hw : size ≤ 2 ^ w) (hchars : ∀ i < k, f i ≠ 0) (hend : f k = 0) :
    text (m.write (d + BitVec.ofNat w a) (k + 1) f) d size =
      text m d size ++ (List.range k).map f := by
  have hbefore : ∀ i < a, (m.write (d + BitVec.ofNat w a) (k + 1) f).byte d i = m.byte d i :=
    fun i hi => Memory.byte_write_of_lt hi (by omega)
  have hbehind : ∀ i < k + 1, (m.write (d + BitVec.ofNat w a) (k + 1) f).byte d (a + i) = f i :=
    fun i hi => Memory.byte_write_add hi (by omega)
  have hnew : strnlen (m.write (d + BitVec.ofNat w a) (k + 1) f) d size = a + k := by
    apply strnlen_eq (by omega)
    · intro j hj
      rcases Nat.lt_or_ge j a with h | h
      · rw [hbefore j h]
        exact byte_ne_zero_of_lt (n := size) (by omega)
      · obtain ⟨i, rfl⟩ := Nat.exists_eq_add_of_le h
        rw [hbehind i (by omega)]
        exact hchars i (by omega)
    · intro _
      rw [hbehind k (by omega)]
      exact hend
  rw [text, text, hnew, hlen, List.range_add, List.map_append, List.map_map]
  congr 1
  · apply List.map_congr_left
    intro i hi
    exact hbefore i (List.mem_range.mp hi)
  · apply List.map_congr_left
    intro i hi
    exact hbehind i (by have := List.mem_range.mp hi; omega)

end

end Ironclad.CLib
