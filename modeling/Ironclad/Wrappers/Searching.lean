import Ironclad.Pointers.Allocators
import Ironclad.Wrappers.Copying

/-!
# `safe_strchr`

`strchr` returns a raw pointer, and the wrapper makes an `aptr` of it: a base, a size and an
index. It takes the raw pointer itself for the base, keeps the size of the whole buffer, and
puts the number of characters in front of the match in the index on top of it. So the match is
counted twice, and the bounds of the result are those of the buffer only for a match at its
first byte.
-/

namespace Ironclad.Wrappers

open Ironclad.Logic Ironclad.CLib Ironclad.Pointers

/-- `safe_strchr(str, character)`. -/
def safe_strchr (str : Aptr) (character : BitVec 32) : Prog 64 Aptr := do
  NULL_TERM_CHECK str
  let result ← strchr (str.convert_to_raw 1) (character.setWidth 8)
  match result with
  | some result => pure (.ofDataIndex result str.size (result - str.convert_to_raw 1))
  | none => pure .null

/-! ## What an `aptr<char>` gives access to -/

/-- The addresses that the checked operators accept, with the index moved at will. -/
def Reaches (p : Aptr) (a : Word) : Prop := (Object.array p).Accepts 1 a

theorem reaches_iff {p : Aptr} (hsize : p.size.toNat < 2 ^ 63) {a : Word} :
    Reaches p a ↔ a ∈ buffer p := by
  have hcount : elementCount p.size = p.size.toNat := by
    rw [elementCount, toInt_of_lt hsize]
    rfl
  show (Object.array (.ofData p.data p.size)).Accepts 1 a ↔ (a - p.data).toNat < p.size.toNat
  rw [accepts_array_iff, hcount]
  constructor
  · rintro ⟨k, hk, rfl⟩
    rw [element, mul_one, Region.offset_toNat (by omega)]
    exact hk
  · intro h
    refine ⟨_, h, ?_⟩
    rw [element, mul_one, BitVec.ofNat_toNat, BitVec.setWidth_eq, add_sub_cancel]

/-- A buffer in memory that the pointer points into. -/
structure InArray (p : Aptr) : Prop extends Placed p where
  data_ne_zero : p.data ≠ 0
  fits : p.data.toNat + p.size.toNat ≤ 2 ^ 64
  index_lt : p.index.toNat < p.size.toNat

/-- No byte of a buffer is at address zero. -/
theorem InArray.address_ne_zero {p : Aptr} (hp : InArray p) {i : Nat} (hi : i < p.size.toNat) :
    p.data + BitVec.ofNat 64 i ≠ 0 := by
  have hsize := hp.size_lt
  have hfits := hp.fits
  have hdata := toNat_pos hp.data_ne_zero
  intro h
  have hnat := congrArg BitVec.toNat h
  rw [BitVec.toNat_add, BitVec.toNat_ofNat, Nat.mod_eq_of_lt (a := i) (by omega),
    Nat.mod_eq_of_lt (by omega)] at hnat
  have hzero : p.data.toNat + i = 0 := hnat
  omega

/-- A region of the size of the buffer, `i` bytes behind its start, is in it only for `i = 0`. -/
theorem shifted_subset_iff {p : Aptr} (hsize : p.size.toNat < 2 ^ 63) {i : Nat}
    (hi : i < p.size.toNat) :
    (⟨p.data + BitVec.ofNat 64 i, p.size.toNat⟩ : Region 64) ⊆ buffer p ↔ i = 0 := by
  rw [Region.subset_iff (by show p.size.toNat < 2 ^ 64; omega)]
  show p.size.toNat = 0 ∨
    (p.data + BitVec.ofNat 64 i - p.data).toNat + p.size.toNat ≤ p.size.toNat ↔ _
  rw [Region.offset_toNat (by omega)]
  omega

/-! ## The search -/

/-- The character occurs first `k` places behind the current position, not behind the
terminator. -/
def FirstAt (m : Memory 64) (p : Aptr) (n : Nat) (c : BitVec 8) (k : Nat) : Prop :=
  k ≤ n ∧ m.byte p.data (p.index.toNat + k) = c ∧
    ∀ j < k, m.byte p.data (p.index.toNat + j) ≠ c

/-- `operator-` between two `aptr<char>`. -/
def distance (p other : Aptr) : Int := (p.convert_to_raw 1 - other.convert_to_raw 1).toInt

/-- The result is null when the character does not occur; otherwise it denotes the first
occurrence, its distance is the number of characters in front of it, and it gives access to the
array of the argument. -/
structure SearchesRight (m : Memory 64) (str : Aptr) (n : Nat) (c : BitVec 8)
    (o : Outcome 64 Aptr) (q : Aptr) : Prop where
  returned : o.ending = .returns q
  null_iff : q.data = 0 ↔ ∀ k, ¬FirstAt m str n c k
  denotes : ∀ k, FirstAt m str n c k →
    q.convert_to_raw 1 = str.data + BitVec.ofNat 64 (str.index.toNat + k)
  distance_eq : ∀ k, FirstAt m str n c k → distance q str = k
  bounds : q.data ≠ 0 → ∀ a, Reaches q a ↔ Reaches str a

theorem FirstAt.unique {m : Memory 64} {p : Aptr} {n : Nat} {c : BitVec 8} {k k' : Nat}
    (h : FirstAt m p n c k) (h' : FirstAt m p n c k') : k = k' :=
  least_unique h.2.1 h.2.2 h'.2.1 h'.2.2

/-- What `strchr` finds in a terminated string. -/
theorem strchr_found {m : Memory 64} {p : Aptr} {n : Nat} (hp : TermAt m p n) (c : BitVec 8) :
    ∃ k ≤ n, first (fun i => m.byte (p.convert_to_raw 1) i == c ||
        m.byte (p.convert_to_raw 1) i == 0) (2 ^ 64) = some k ∧
      (m.byte (p.convert_to_raw 1) k = c → FirstAt m p n c k) ∧
      (m.byte (p.convert_to_raw 1) k ≠ c → ∀ j, ¬FirstAt m p n c j) := by
  obtain ⟨hlt, hz, hchars⟩ := hp
  have hsize := p.size.isLt
  cases hf : first (fun i => m.byte (p.convert_to_raw 1) i == c ||
      m.byte (p.convert_to_raw 1) i == 0) (2 ^ 64) with
  | none =>
      have := first_eq_none.mp hf n (by omega)
      rw [byte_raw, hz] at this
      simp at this
  | some k =>
      obtain ⟨-, hk, hbefore⟩ := first_eq_some.mp hf
      simp only [byte_raw, Bool.or_eq_true, Bool.or_eq_false_iff, beq_iff_eq,
        beq_eq_false_iff_ne] at hk hbefore
      have hkn : k ≤ n := by
        by_contra hgt
        exact (hbefore n (by omega)).2 hz
      refine ⟨k, hkn, rfl, ?_, ?_⟩
      · intro hc
        rw [byte_raw] at hc
        exact ⟨hkn, hc, fun j hj => (hbefore j hj).1⟩
      · intro hc j hj
        rw [byte_raw] at hc
        have hk0 := hk.resolve_left hc
        -- the search stopped at the terminator
        have hkeq : k = n := by
          by_contra hne
          exact hchars k (by omega) hk0
        rcases Nat.lt_or_ge j k with hjk | hjk
        · exact (hbefore j hjk).1 hj.2.1
        · have : j = k := by have := hj.1; omega
          exact hc (this ▸ hj.2.1)

/-- A call on a terminated string: the pointer made of a match, or null. -/
theorem safe_strchr_run {m : Memory 64} {str : Aptr} {n : Nat} (hterm : TermAt m str n)
    (character : BitVec 32) :
    (∃ k, FirstAt m str n (character.setWidth 8) k ∧ (safe_strchr str character m).ending =
        .returns ⟨str.convert_to_raw 1 + BitVec.ofNat 64 k, BitVec.ofNat 64 k, str.size⟩) ∨
      (∀ k, ¬FirstAt m str n (character.setWidth 8) k) ∧
        (safe_strchr str character m).ending = .returns .null := by
  obtain ⟨k, -, hfirst, hsome, hnone⟩ := strchr_found hterm (character.setWidth 8)
  rw [safe_strchr, null_term_check_bind hterm.scanned, Outcome.after_ending]
  by_cases hc : m.byte (str.convert_to_raw 1) k = character.setWidth 8
  · left
    refine ⟨k, hsome hc, ?_⟩
    have hrun : strchr (str.convert_to_raw 1) (character.setWidth 8) m =
        ⟨.returns (some (str.convert_to_raw 1 + BitVec.ofNat 64 k)), m,
          [⟨str.convert_to_raw 1, k + 1⟩], []⟩ := by
      rw [strchr, hfirst]
      show (⟨.returns (if _ then _ else _), _, _, _⟩ : Outcome 64 (Option Word)) = _
      rw [if_pos hc]
    rw [Prog.bind_of_returns hrun, Outcome.after_ending]
    show Ending.returns (Aptr.ofDataIndex _ _ _) = _
    rw [add_sub_cancel_left]
    rfl
  · right
    refine ⟨hnone hc, ?_⟩
    have hrun : strchr (str.convert_to_raw 1) (character.setWidth 8) m =
        ⟨.returns none, m, [⟨str.convert_to_raw 1, k + 1⟩], []⟩ := by
      rw [strchr, hfirst]
      show (⟨.returns (if _ then _ else _), _, _, _⟩ : Outcome 64 (Option Word)) = _
      rw [if_neg hc]
    rw [Prog.bind_of_returns hrun]
    rfl

theorem raw_add (p : Aptr) (k : Nat) :
    p.convert_to_raw 1 + BitVec.ofNat 64 k = p.data + BitVec.ofNat 64 (p.index.toNat + k) := by
  rw [raw_eq, BitVec.ofNat_add, add_assoc]

section

variable {m : Memory 64} {str : Aptr} {n k : Nat} {c : BitVec 8} {o : Outcome 64 Aptr}

/-- The bounds of a match that is made a pointer lie in the buffer for a match at its first byte
only. -/
theorem SearchesRight.at_start {q : Aptr} (h : SearchesRight m str n c o q) (hstr : InArray str)
    (hlt : str.index.toNat + k < str.size.toNat)
    (hend : o.ending =
      .returns ⟨str.convert_to_raw 1 + BitVec.ofNat 64 k, BitVec.ofNat 64 k, str.size⟩) :
    str.index.toNat + k = 0 := by
  have hsize := hstr.size_lt
  have hdata := hstr.address_ne_zero hlt
  have hqe := Ending.returns.inj (h.returned.symm.trans hend)
  subst hqe
  rw [← raw_add] at hdata
  have hsub : buffer ⟨str.convert_to_raw 1 + BitVec.ofNat 64 k, BitVec.ofNat 64 k, str.size⟩ ⊆
      buffer str := by
    intro a ha
    apply (reaches_iff hsize).mp
    apply (h.bounds hdata a).mp
    exact Iff.mpr (reaches_iff (p := ⟨str.convert_to_raw 1 + BitVec.ofNat 64 k,
      BitVec.ofNat 64 k, str.size⟩) hsize) ha
  rw [raw_add] at hsub
  exact (shifted_subset_iff hsize hlt).mp hsub

/-- At the first byte the pointer made of the match is the argument. -/
theorem searchesRight_at_start (hstr : InArray str) (hindex : str.index = 0)
    (hfirst : FirstAt m str n c 0) (hend : o.ending =
      .returns ⟨str.convert_to_raw 1 + BitVec.ofNat 64 0, BitVec.ofNat 64 0, str.size⟩) :
    ∃ q, SearchesRight m str n c o q := by
  have hraw : str.convert_to_raw 1 + BitVec.ofNat 64 0 = str.data := by
    rw [raw_add, hindex]
    exact BitVec.add_zero _
  rw [hraw] at hend
  have hstart : (Aptr.mk str.data (BitVec.ofNat 64 0) str.size).convert_to_raw 1 =
      str.convert_to_raw 1 := by
    rw [Aptr.convert_to_raw, Aptr.convert_to_raw, hindex]
    rfl
  refine ⟨_, hend, ?_, ?_, ?_, ?_⟩
  · exact iff_of_false hstr.data_ne_zero fun hno => hno 0 hfirst
  · intro j hj
    rw [hj.unique hfirst, hstart, raw_eq]
    rfl
  · intro j hj
    rw [hj.unique hfirst, distance, hstart, sub_self]
    rfl
  · intro _ a
    exact Iff.rfl

theorem searchesRight_null (hnone : ∀ j, ¬FirstAt m str n c j) (hend : o.ending = .returns .null) :
    ∃ q, SearchesRight m str n c o q := by
  refine ⟨.null, hend, ?_, ?_, ?_, ?_⟩
  · exact iff_of_true rfl hnone
  · exact fun j hj => absurd hj (hnone j)
  · exact fun j hj => absurd hj (hnone j)
  · exact fun h => absurd rfl h

end

/-- **Searches.** `safe_strchr` is right exactly when the character does not occur, or occurs
first at the first byte of the buffer. -/
theorem searchesRight_iff {m : Memory 64} {str : Aptr} {n : Nat} (hstr : InArray str)
    (hterm : TermAt m str n) (character : BitVec 32) :
    (∃ q, SearchesRight m str n (character.setWidth 8) (safe_strchr str character m) q) ↔
      ∀ k, FirstAt m str n (character.setWidth 8) k → str.index = 0 ∧ k = 0 := by
  rcases safe_strchr_run hterm character with ⟨k, hk, hend⟩ | ⟨hnone, hend⟩
  · constructor
    · rintro ⟨q, hq⟩ j hj
      have hlt : str.index.toNat + k < str.size.toNat := by
        have := hterm.1
        have := hk.1
        omega
      have hzero := hq.at_start hstr hlt hend
      rw [hj.unique hk]
      exact ⟨BitVec.eq_of_toNat_eq (by show str.index.toNat = 0; omega), by omega⟩
    · intro h
      obtain ⟨hindex, rfl⟩ := h k hk
      exact searchesRight_at_start hstr hindex hk hend
  · exact iff_of_true (searchesRight_null hnone hend) fun k hk => absurd hk (hnone k)

/-- The character `A` at the start of the string `AB`. -/
theorem searchesRight_iff_start :
    (∃ q, SearchesRight (holding 0x1000 [65, 66]) ⟨0x1000, 0, 3⟩ 2 (BitVec.setWidth 8 65#32)
        (safe_strchr ⟨0x1000, 0, 3⟩ 65 (holding 0x1000 [65, 66])) q) ↔
      ∀ k, FirstAt (holding 0x1000 [65, 66]) ⟨0x1000, 0, 3⟩ 2 (BitVec.setWidth 8 65#32) k →
        (0 : Word) = 0 ∧ k = 0 :=
  searchesRight_iff
    (show InArray ⟨0x1000, 0, 3⟩ from ⟨⟨by decide, by decide⟩, by decide, by decide, by decide⟩)
    ⟨by decide, by decide, by decide⟩ 65

/-- The character `B` of the string `AB`: the result denotes the terminator, and its distance
is two. -/
theorem second_character_missed :
    InArray ⟨0x1000, 0, 3⟩ ∧ TermAt (holding 0x1000 [65, 66]) ⟨0x1000, 0, 3⟩ 2 ∧
      ¬∃ q, SearchesRight (holding 0x1000 [65, 66]) ⟨0x1000, 0, 3⟩ 2 (BitVec.setWidth 8 66#32)
        (safe_strchr ⟨0x1000, 0, 3⟩ 66 (holding 0x1000 [65, 66])) q := by
  refine ⟨⟨⟨by decide, by decide⟩, by decide, by decide, by decide⟩,
    ⟨by decide, by decide, by decide⟩, ?_⟩
  rintro ⟨q, hq⟩
  have hfirst : FirstAt (holding 0x1000 [65, 66]) ⟨0x1000, 0, 3⟩ 2 (BitVec.setWidth 8 66#32) 1 :=
    ⟨by decide, by decide, by decide⟩
  have hend : (safe_strchr ⟨0x1000, 0, 3⟩ 66 (holding 0x1000 [65, 66])).ending =
      .returns ⟨0x1001, 1, 3⟩ := by decide +kernel
  have hqe : q = ⟨0x1001, 1, 3⟩ := Ending.returns.inj (hq.returned.symm.trans hend)
  have hdenotes := hq.denotes 1 hfirst
  rw [hqe] at hdenotes
  revert hdenotes
  decide

end Ironclad.Wrappers
