import Ironclad.Pointers.Common

/-!
# `lptr`: local pointers

`lptr<T>` may hold the address of a local variable. Its `tb` packs two things
into one word: the *temporal bound*, the stack pointer read by the constructor,
and in the low bit the *not on stack* flag, set when the address held came from
the heap or the globals. The stack pointer that `GETSP` reads is an argument of
the constructors (`sp`).
-/

namespace Ironclad.Pointers

open Ironclad.Logic.LowTag

structure Lptr where
  data : Word
  tb : Word
  deriving DecidableEq, Repr

/-- The assertion of `operator=`, the same text in `lptr` and `laptr`:
`other.data == NULL || (other.tb & 1) || (tb ^ 1) <= (size_t)other.data`. -/
def assignCheck (tb otherData otherTb : Word) : Bool :=
  otherData == 0 || tagged otherTb || decide (tb ^^^ 1#64 ≤ otherData)

/-- The update of `tb` in `operator=`, the same text in `lptr` and `laptr`:
`if(other.tb ^ 1){ tb |= 1; }else{ tb = (tb & 1) ? (tb ^ 1) : (tb | 1); }`. -/
def assignTb (tb otherTb : Word) : Word :=
  if otherTb ^^^ 1#64 ≠ 0#64 then tb ||| 1#64
  else if tagged tb then tb ^^^ 1#64 else tb ||| 1#64

/-- Whatever the source, the update keeps the temporal bound. -/
@[simp] theorem untag_assignTb (tb otherTb : Word) :
    untag (assignTb tb otherTb) = untag tb := by
  unfold assignTb
  split
  · exact untag_or_one tb
  · split
    · exact untag_xor_one tb
    · exact untag_or_one tb

/-- The flag is set by every source whose own flag is clear, so also by a source
that holds the address of a local variable. -/
theorem tagged_assignTb {tb otherTb : Word} (h : tagged otherTb = false) :
    tagged (assignTb tb otherTb) = true := by
  unfold assignTb
  rw [if_pos (xor_one_ne_zero_of_not_tagged (by omega) h)]
  exact tagged_or_one (by omega) tb

/-- What a passing assertion gives: the address held by the source is null,
flagged as not on the stack, or not below the temporal bound. -/
theorem assignCheck_cases {tb otherData otherTb : Word}
    (h : assignCheck tb otherData otherTb = true) :
    otherData = 0 ∨ tagged otherTb = true ∨ untag tb ≤ otherData := by
  simp only [assignCheck, Bool.or_eq_true, beq_iff_eq, decide_eq_true_eq] at h
  rcases h with (h | h) | h
  · exact .inl h
  · exact .inr (.inl h)
  · refine .inr (.inr ?_)
    have := untag_le_xor_one (by omega) tb
    bv_omega

namespace Lptr

/-- `lptr()`. -/
def null (sp : Word) : Lptr := ⟨0, sp⟩

/-- `lptr(T * new_data)`: an address below the stack pointer is heap or global. -/
def ofData (sp new_data : Word) : Lptr :=
  ⟨new_data, if new_data < sp then sp ||| 1#64 else sp⟩

/-- `lptr(lptr const & other)`. -/
def copy (sp : Word) (other : Lptr) : Lptr :=
  ⟨other.data, if other.data < sp then sp ||| 1#64 else sp⟩

def notOnStack (p : Lptr) : Bool := tagged p.tb

/-- `operator=`. -/
def assign (p other : Lptr) : Option Lptr :=
  if assignCheck p.tb other.data other.tb then some ⟨other.data, assignTb p.tb other.tb⟩
  else none

/-- `can_accept(T * addr)`. -/
def can_accept (p : Lptr) (addr : Word) : Bool :=
  addr == 0 || decide (p.tb ^^^ 1#64 ≤ addr)

/-- The temporal bound: `tb` without the flag. -/
def bound (p : Lptr) : Word := untag p.tb

@[simp] theorem ofData_bound (sp a : Word) : (ofData sp a).bound = untag sp := by
  unfold bound ofData
  split
  · exact untag_or_one sp
  · rfl

/-- An aligned stack pointer leaves the flag clear unless the address is below it. -/
theorem ofData_notOnStack {sp a : Word} (hsp : tagged sp = false)
    (h : (ofData sp a).notOnStack = true) : a < sp := by
  unfold ofData notOnStack at h
  split at h
  · assumption
  · rw [hsp] at h
    contradiction

/-- The result of an assignment that passes. -/
theorem assign_eq_some {p other q : Lptr} :
    p.assign other = some q ↔ assignCheck p.tb other.data other.tb = true ∧
      q = ⟨other.data, assignTb p.tb other.tb⟩ := by
  rw [assign, Option.ite_none_right_eq_some, Option.some.injEq]
  exact and_congr_right' eq_comm

end Lptr

end Ironclad.Pointers
