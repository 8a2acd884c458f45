import Ironclad.Logic.Effects

/-!
# The memory functions of the C library

`memchr`, `memset`, `memcpy`, `memmove` and `memcmp` as the C standard describes them: what they
return, what they leave in memory, and which bytes they read and write. `memcpy` between ranges
that overlap is undefined.

A search reads the characters one after the other and stops at the first match, so the search
for the least position with a property (`first`) comes first.
-/

namespace Ironclad.CLib

open Ironclad.Logic

/-- There is one least position with a property. -/
theorem least_unique {P : Nat → Prop} {k k' : Nat} (hk : P k) (hmin : ∀ j < k, ¬P j) (hk' : P k')
    (hmin' : ∀ j < k', ¬P j) : k = k' := by
  rcases Nat.lt_trichotomy k k' with hlt | heq | hlt
  · exact absurd hk (hmin' k hlt)
  · exact heq
  · exact absurd hk' (hmin k' hlt)

/-- The least position below `n` with the property. -/
def first (p : Nat → Bool) : Nat → Option Nat
  | 0 => none
  | n + 1 => if p 0 then some 0 else (first (fun i => p (i + 1)) n).map (· + 1)

theorem first_eq_some {p : Nat → Bool} {n k : Nat} :
    first p n = some k ↔ k < n ∧ p k = true ∧ ∀ j < k, p j = false := by
  induction n generalizing p k with
  | zero => simp [first]
  | succ n ih =>
      rw [first]
      cases hp : p 0 with
      | true =>
          simp only [if_true, Option.some.injEq]
          constructor
          · rintro rfl
            exact ⟨by omega, hp, by omega⟩
          · rintro ⟨-, -, hlt⟩
            by_contra hne
            have := hlt 0 (by omega)
            rw [hp] at this
            cases this
      | false =>
          simp only [Bool.false_eq_true, if_false, Option.map_eq_some_iff, ih]
          constructor
          · rintro ⟨j, ⟨hj, hpj, hlt⟩, rfl⟩
            refine ⟨by omega, hpj, fun i hi => ?_⟩
            cases i with
            | zero => exact hp
            | succ i => exact hlt i (by omega)
          · rintro ⟨hk, hpk, hlt⟩
            cases k with
            | zero => rw [hp] at hpk; cases hpk
            | succ k => exact ⟨k, ⟨by omega, hpk, fun j hj => hlt (j + 1) (by omega)⟩, rfl⟩

theorem first_eq_none {p : Nat → Bool} {n : Nat} :
    first p n = none ↔ ∀ j < n, p j = false := by
  induction n generalizing p with
  | zero => simp [first]
  | succ n ih =>
      rw [first]
      cases hp : p 0 with
      | true =>
          simp only [if_true, reduceCtorEq, false_iff]
          intro h
          have := h 0 (by omega)
          rw [hp] at this
          cases this
      | false =>
          simp only [Bool.false_eq_true, if_false, Option.map_eq_none_iff, ih]
          constructor
          · intro h j hj
            cases j with
            | zero => exact hp
            | succ j => exact h j (by omega)
          · intro h j hj
            exact h (j + 1) (by omega)

theorem first_lt {p : Nat → Bool} {n k : Nat} (h : first p n = some k) : k < n :=
  (first_eq_some.mp h).1

/-- What is found within a bound is found within any other bound behind it. -/
theorem first_of_lt {p : Nat → Bool} {n n' k : Nat} (h : first p n = some k) (hk : k < n') :
    first p n' = some k :=
  first_eq_some.mpr ⟨hk, (first_eq_some.mp h).2⟩

section

variable {w : Nat}

/-- `memchr(p, c, n)`: the position of the first `c` among the `n` characters at `p`; the
search stops there. -/
def memchr (p : BitVec w) (c : BitVec 8) (n : Nat) : Prog w (Option (BitVec w)) := fun m =>
  match first (fun i => m.byte p i == c) n with
  | some k => ⟨.returns (some (p + BitVec.ofNat w k)), m, [⟨p, k + 1⟩], []⟩
  | none => ⟨.returns none, m, [⟨p, n⟩], []⟩

/-- `memset(p, c, n)`. -/
def memset (p : BitVec w) (c : BitVec 8) (n : Nat) : Prog w Unit := fun m =>
  ⟨.returns (), m.write p n fun _ => c, [], [⟨p, n⟩]⟩

@[simp] theorem memset_bind {p : BitVec w} {c : BitVec 8} {n : Nat} {α : Type}
    {f : Unit → Prog w α} {m : Memory w} :
    (memset p c n >>= f) m = (f () (m.write p n fun _ => c)).after [] [⟨p, n⟩] := rfl

/-- `memcpy(d, s, n)`: undefined when the two ranges overlap. -/
def memcpy (d s : BitVec w) (n : Nat) : Prog w Unit := fun m =>
  if (⟨d, n⟩ : Region w).Apart ⟨s, n⟩ then
    ⟨.returns (), m.write d n (m.byte s), [⟨s, n⟩], [⟨d, n⟩]⟩
  else ⟨.undefined, m, [⟨s, n⟩], [⟨d, n⟩]⟩

section

variable {d s : BitVec w} {n : Nat} {m : Memory w} {α : Type} {f : Unit → Prog w α}

theorem memcpy_bind (h : (⟨d, n⟩ : Region w).Apart ⟨s, n⟩) :
    (memcpy d s n >>= f) m = (f () (m.write d n (m.byte s))).after [⟨s, n⟩] [⟨d, n⟩] :=
  Prog.bind_of_returns (if_pos h)

theorem memcpy_bind_of_overlap (h : ¬(⟨d, n⟩ : Region w).Apart ⟨s, n⟩) :
    (memcpy d s n >>= f) m = ⟨.undefined, m, [⟨s, n⟩], [⟨d, n⟩]⟩ :=
  Prog.bind_of_undefined (if_neg h)

end

/-- `memmove(d, s, n)`: as if by way of a temporary array. -/
def memmove (d s : BitVec w) (n : Nat) : Prog w Unit := fun m =>
  ⟨.returns (), m.write d n (m.byte s), [⟨s, n⟩], [⟨d, n⟩]⟩

@[simp] theorem memmove_bind {d s : BitVec w} {n : Nat} {α : Type} {f : Unit → Prog w α}
    {m : Memory w} :
    (memmove d s n >>= f) m = (f () (m.write d n (m.byte s))).after [⟨s, n⟩] [⟨d, n⟩] := rfl

/-- The characters at the first position where the two ranges differ, compared as
`unsigned char`. -/
def compareAt (m : Memory w) (p q : BitVec w) : Option Nat → Ordering
  | none => .eq
  | some k => compare (m.byte p k).toNat (m.byte q k).toNat

/-- `memcmp(p, q, n)`: the sign of the result. -/
def memcmp (p q : BitVec w) (n : Nat) : Prog w Ordering := fun m =>
  ⟨.returns (compareAt m p q (first (fun i => m.byte p i != m.byte q i) n)), m,
    [⟨p, n⟩, ⟨q, n⟩], []⟩

end

end Ironclad.CLib
