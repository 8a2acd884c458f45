import Ironclad.CLib.Strings

/-!
# `strtok`

`strtok` takes a string apart in steps. It keeps the place where the next step begins in a
variable of its own (`saved`), which a call with a null pointer goes on from. A step skips the
delimiters, and what follows up to the next delimiter or the terminator is the token; the
delimiter behind it is overwritten by a terminator.
-/

namespace Ironclad.CLib

open Ironclad.Logic

variable {w : Nat}

/-- The character is one of the delimiters. -/
def isDelim (m : Memory w) (del : BitVec w) (c : BitVec 8) : Bool :=
  (text m del (2 ^ w)).contains c

/-- The first character that is not a delimiter. -/
def tokenStart (m : Memory w) (p del : BitVec w) : Option Nat :=
  first (fun i => !isDelim m del (m.byte p i)) (2 ^ w)

/-- The first terminator or delimiter from `i` on. -/
def tokenEnd (m : Memory w) (p del : BitVec w) (i : Nat) : Option Nat :=
  first (fun j => decide (i ≤ j) && (m.byte p j == 0 || isDelim m del (m.byte p j))) (2 ^ w)

/-- `strtok(s, del)`: the token, and the place where the next step begins. -/
def strtok (saved s del : BitVec w) : Prog w (Option (BitVec w) × BitVec w) := fun m =>
  let p := if s = 0 then saved else s
  let delims : Region w := ⟨del, strnlen m del (2 ^ w) + 1⟩
  match tokenStart m p del with
  | none => ⟨.undefined, m, [delims], []⟩
  | some i =>
      if m.byte p i = 0 then
        ⟨.returns (none, p + BitVec.ofNat w i), m, [delims, ⟨p, i + 1⟩], []⟩
      else
        match tokenEnd m p del i with
        | none => ⟨.undefined, m, [delims], []⟩
        | some j =>
            if m.byte p j = 0 then
              ⟨.returns (some (p + BitVec.ofNat w i), p + BitVec.ofNat w j), m,
                [delims, ⟨p, j + 1⟩], []⟩
            else
              ⟨.returns (some (p + BitVec.ofNat w i), p + BitVec.ofNat w (j + 1)),
                m.write (p + BitVec.ofNat w j) 1 fun _ => 0, [delims, ⟨p, j + 1⟩],
                [⟨p + BitVec.ofNat w j, 1⟩]⟩

/-- The string has a character that is not a delimiter. -/
def HasToken (m : Memory w) (p del : BitVec w) : Prop :=
  ∃ i, tokenStart m p del = some i ∧ m.byte p i ≠ 0

instance (m : Memory w) (p del : BitVec w) : Decidable (HasToken m p del) :=
  decidable_of_iff ((tokenStart m p del).any fun i => m.byte p i != 0) (by
    simp only [HasToken, Option.any_eq_true, bne_iff_ne])

/-- What one step does to a string whose terminator is at most `t` characters away: `token` and
`next` are distances from where the step begins. -/
structure TokenStep (m : Memory w) (p del : BitVec w) (t : Nat)
    (o : Outcome w (Option (BitVec w) × BitVec w)) (token : Option Nat) (next : Nat) : Prop where
  returned : o.ending =
    .returns (token.map fun i => p + BitVec.ofNat w i, p + BitVec.ofNat w next)
  token_iff : token.isSome = true ↔ HasToken m p del
  token_le : ∀ i, token = some i → i ≤ t
  next_le : next ≤ t
  terminated : o.mem.byte p t = 0
  written : ∀ r ∈ o.writes, r ⊆ ⟨p, t⟩
  frame : ∀ a, a ∉ (⟨p, t⟩ : Region w) → o.mem a = m a

section

variable {m : Memory w} {p s saved del : BitVec w} {t : Nat}

theorem isDelim_zero : isDelim m del 0 = false := by
  rw [isDelim, List.contains_eq_mem, decide_eq_false_iff_not]
  intro h
  obtain ⟨i, hi, hz⟩ := List.mem_map.mp h
  exact byte_ne_zero_of_lt (List.mem_range.mp hi) hz

/-- A terminator stops the search for the start of a token. -/
theorem tokenStart_le (ht : t < 2 ^ w) (hz : m.byte p t = 0) :
    ∃ i ≤ t, tokenStart m p del = some i := by
  cases h : tokenStart m p del with
  | none =>
      have := first_eq_none.mp h t ht
      rw [hz, isDelim_zero] at this
      cases this
  | some i =>
      refine ⟨i, ?_, rfl⟩
      by_contra hgt
      have := (first_eq_some.mp h).2.2 t (by omega)
      rw [hz, isDelim_zero] at this
      cases this

/-- A terminator stops the search for the end of a token. -/
theorem tokenEnd_le {i : Nat} (ht : t < 2 ^ w) (hz : m.byte p t = 0) (hi : i ≤ t) :
    ∃ j ≤ t, tokenEnd m p del i = some j := by
  have hstop : (decide (i ≤ t) && (m.byte p t == 0 || isDelim m del (m.byte p t))) = true := by
    simp [hi, hz]
  cases h : tokenEnd m p del i with
  | none =>
      rw [first_eq_none.mp h t ht] at hstop
      cases hstop
  | some j =>
      refine ⟨j, ?_, rfl⟩
      by_contra hgt
      rw [(first_eq_some.mp h).2.2 t (by omega)] at hstop
      cases hstop

/-- **One step.** On a terminated string `strtok` is defined, and stays in front of the
terminator. -/
theorem strtok_step (hp : (if s = 0 then saved else s) = p) (ht : t < 2 ^ w)
    (hz : m.byte p t = 0) :
    ∃ token next, TokenStep m p del t (strtok saved s del m) token next := by
  obtain ⟨i, hi, hstart⟩ : ∃ i ≤ t, tokenStart m p del = some i := tokenStart_le ht hz
  rw [strtok, hp]
  simp only [hstart]
  by_cases hend : m.byte p i = 0
  · -- only delimiters are left
    rw [if_pos hend]
    refine ⟨none, i, rfl, ?_, nofun, hi, hz, nofun, fun _ _ => rfl⟩
    refine iff_of_false nofun ?_
    rintro ⟨i', hi', hne⟩
    rw [hstart, Option.some.injEq] at hi'
    exact hne (hi' ▸ hend)
  · rw [if_neg hend]
    have htoken : HasToken m p del := ⟨i, hstart, hend⟩
    obtain ⟨j, hj, hstop⟩ : ∃ j ≤ t, tokenEnd m p del i = some j := tokenEnd_le ht hz hi
    simp only [hstop]
    by_cases hlast : m.byte p j = 0
    · -- the last token ends at the terminator
      rw [if_pos hlast]
      refine ⟨some i, j, rfl, iff_of_true rfl htoken, ?_, hj, hz, nofun, fun _ _ => rfl⟩
      intro i' hi'
      exact Option.some.inj hi' ▸ hi
    · rw [if_neg hlast]
      have hlt : j < t := by
        have hne : j ≠ t := fun h => hlast (h ▸ hz)
        omega
      have hin : (⟨p + BitVec.ofNat w j, 1⟩ : Region w) ⊆ ⟨p, t⟩ := by
        rw [Region.subset_iff (by show t < 2 ^ w; exact ht)]
        right
        show (p + BitVec.ofNat w j - p).toNat + 1 ≤ t
        rw [Region.offset_toNat (by omega)]
        omega
      refine ⟨some i, j + 1, rfl, iff_of_true rfl htoken, ?_, hlt, ?_, ?_, ?_⟩
      · intro i' hi'
        exact Option.some.inj hi' ▸ hi
      · show (m.write (p + BitVec.ofNat w j) 1 fun _ => 0).byte p t = 0
        by_cases hmem : p + BitVec.ofNat w t ∈ (⟨p + BitVec.ofNat w j, 1⟩ : Region w)
        · exact Memory.write_of_mem hmem
        · exact (Memory.write_of_not_mem hmem).trans hz
      · intro r hr
        rw [List.mem_singleton.mp hr]
        exact hin
      · intro a ha
        show m.write (p + BitVec.ofNat w j) 1 (fun _ => 0) a = m a
        exact Memory.write_of_not_mem fun h => ha (hin a h)

end

end Ironclad.CLib
