import Ironclad.Logic.Machine
import Ironclad.Pointers.Lptr

/-!
# The rule of the `lptr` assignment

The comment over `lptr::operator=` promises that an address is accepted when it is null, when
its source is flagged as not on the stack, or when it is *greater than or equal to* the temporal
bound. The assertion compares against `tb ^ 1`, which is the bound only while the receiver's
own flag is set: with a clear flag it is one more, and the address that equals the bound is
refused. `can_accept` has the same comparison and no clause for the source's flag.
`receiver_assignmentRule_iff` says for every receiver and every history which assignments follow
the rule.
-/

namespace Ironclad.Pointers

open Ironclad.Logic Ironclad.Logic.LowTag

/-- What `GETSP` reads: the stack pointer is word aligned. -/
structure AlignedSP where
  addr : Word
  aligned : addr.toNat % 8 = 0

namespace Lptr

/-- The constructors of `lptr`. The converting ones are `copy` too: they differ in the element
type of the source only. -/
inductive Construction where
  | null
  | ofData (new_data : Word)
  | copy (other : Lptr)

/-- The constructor, called with the stack pointer `b`. -/
def Construction.build (b : AlignedSP) : Construction → Lptr
  | .null => Lptr.null b.addr
  | .ofData new_data => Lptr.ofData b.addr new_data
  | .copy other => Lptr.copy b.addr other

/-- The assertion of `operator=` holds. -/
def passes (p other : Lptr) : Prop := (p.assign other).isSome = true

/-- A receiver and the assignments to it; a refused assignment ends the program. -/
def receiverMachine (start : Lptr) : Machine Lptr Lptr := ⟨start, assign⟩

/-- What is promised of a receiver `r` that was constructed as `start` with the stack pointer
`b`, for a source `o` and for an address given to `can_accept`, or to the constructor at the
stack pointer `sp`. -/
structure AssignmentRule (b : AlignedSP) (start r o : Lptr) (sp : AlignedSP)
    (addr : Word) : Prop where
  passes_iff : r.passes o ↔ o.data = 0 ∨ o.notOnStack = true ∨ b.addr ≤ o.data
  bound_kept : r.bound = b.addr
  same_decision : r.passes o ↔ start.passes o
  can_accept_iff : r.can_accept addr = true ↔ r.passes (ofData sp.addr addr)

/-- The source and the address are not where the comparison with `tb ^ 1` goes wrong.
`source`: the bound itself is accepted from an unflagged source only while the receiver's flag
is set. `heap`: an address below the stack pointer is flagged when it is put into an `lptr`, so
`can_accept` has to accept it by its comparison. -/
structure AwayFromBound (b : AlignedSP) (start r o : Lptr) (sp : AlignedSP)
    (addr : Word) : Prop where
  source : o.data = b.addr →
    b.addr = 0 ∨ o.notOnStack = true ∨ (r.notOnStack = true ∧ start.notOnStack = true)
  heap : addr < sp.addr →
    addr = 0 ∨ b.addr < addr ∨ (addr = b.addr ∧ r.notOnStack = true)

/-! ## The comparison -/

theorem passes_iff_check {p o : Lptr} : p.passes o ↔ assignCheck p.tb o.data o.tb = true := by
  unfold passes assign
  split
  · rename_i h
    simp [h]
  · rename_i h
    simp [h]

/-- **What the comparison with `tb ^ 1` accepts.** The bound itself only with the flag set. -/
theorem xor_one_le_iff {b : AlignedSP} {r : Lptr} (hr : r.bound = b.addr) (a : Word) :
    r.tb ^^^ 1#64 ≤ a ↔ b.addr < a ∨ (a = b.addr ∧ r.notOnStack = true) := by
  have hbound := congrArg BitVec.toNat hr
  rw [show r.bound = untag r.tb from rfl, toNat_untag (by omega)] at hbound
  have htag : r.notOnStack = true ↔ r.tb.toNat % 2 = 1 := tagged_iff (by omega) r.tb
  have heq : a = b.addr ↔ a.toNat = b.addr.toNat := BitVec.toNat_inj.symm
  rw [BitVec.le_def, BitVec.lt_def, toNat_xor_one (by omega), htag, heq]
  omega

theorem can_accept_iff {b : AlignedSP} {r : Lptr} (hr : r.bound = b.addr) (a : Word) :
    r.can_accept a = true ↔ a = 0 ∨ b.addr < a ∨ (a = b.addr ∧ r.notOnStack = true) := by
  unfold can_accept
  rw [Bool.or_eq_true, beq_iff_eq, decide_eq_true_eq, xor_one_le_iff hr]

/-- An assignment passes for a flagged source, and else when `can_accept` accepts the address. -/
theorem passes_iff_can_accept {r o : Lptr} :
    r.passes o ↔ o.notOnStack = true ∨ r.can_accept o.data = true := by
  rw [passes_iff_check]
  unfold assignCheck can_accept notOnStack
  simp only [Bool.or_eq_true]
  rw [or_left_comm, or_assoc]

theorem ofData_notOnStack_iff (sp : AlignedSP) (a : Word) :
    (ofData sp.addr a).notOnStack = true ↔ a < sp.addr := by
  have hsp : tagged sp.addr = false := by
    rw [not_tagged_iff (by omega)]
    have := sp.aligned
    omega
  constructor
  · exact ofData_notOnStack hsp
  · intro h
    unfold ofData notOnStack
    rw [if_pos h]
    exact tagged_or_one (by omega) _

/-! ## The bound along a history -/

theorem bound_build (b : AlignedSP) (k : Construction) : (k.build b).bound = b.addr := by
  have huntag : untag b.addr = b.addr := by
    apply BitVec.eq_of_toNat_eq
    rw [toNat_untag (by omega)]
    have := b.aligned
    omega
  cases k with
  | null => exact huntag
  | ofData new_data => exact (ofData_bound b.addr new_data).trans huntag
  | copy other => exact (ofData_bound b.addr other.data).trans huntag

theorem bound_assign {p o q : Lptr} (h : p.assign o = some q) : q.bound = p.bound := by
  obtain ⟨_, rfl⟩ := assign_eq_some.mp h
  exact untag_assignTb p.tb o.tb

/-- **The bound is never lost**, however many assignments there are. -/
theorem receiver_bound (b : AlignedSP) (k : Construction) (os : List Lptr) :
    (receiverMachine (k.build b)).Visits os fun r => r.bound = b.addr := by
  apply Machine.visits_of_invariant
  · exact bound_build b k
  · intro r o q hr hstep
    exact (bound_assign hstep).trans hr

/-! ## The rule -/

/-- The documented rule against the code, for a receiver that has kept its bound. -/
theorem passes_documented_iff {b : AlignedSP} {r o : Lptr} (hr : r.bound = b.addr) :
    (r.passes o ↔ o.data = 0 ∨ o.notOnStack = true ∨ b.addr ≤ o.data) ↔
      (o.data = b.addr → b.addr = 0 ∨ o.notOnStack = true ∨ r.notOnStack = true) := by
  rw [passes_iff_can_accept, can_accept_iff hr]
  have hle : b.addr ≤ o.data ↔ b.addr < o.data ∨ o.data = b.addr := by bv_omega
  have hirrefl : o.data = b.addr → ¬ b.addr < o.data := by bv_omega
  rw [hle]
  by_cases heq : o.data = b.addr
  · -- both sides are about the bound itself: only null and the two flags are left
    have hlt := hirrefl heq
    rw [heq] at hlt ⊢
    simp only [hlt, true_and, or_true, iff_true, true_implies, false_or]
    exact or_left_comm
  · simp only [heq, false_and, or_false, false_implies, iff_true]
    exact or_left_comm

/-- `can_accept` against the assignment of a fresh `lptr`, for a receiver that has kept its
bound. -/
theorem can_accept_agrees_iff {b : AlignedSP} {r : Lptr} (hr : r.bound = b.addr)
    (sp : AlignedSP) (addr : Word) :
    (r.can_accept addr = true ↔ r.passes (ofData sp.addr addr)) ↔
      (addr < sp.addr → addr = 0 ∨ b.addr < addr ∨ (addr = b.addr ∧ r.notOnStack = true)) := by
  rw [passes_iff_can_accept, ofData_notOnStack_iff]
  show (_ ↔ _ ∨ r.can_accept addr = true) ↔ _
  rw [can_accept_iff hr, or_comm (a := addr < sp.addr)]
  exact iff_self_or

/-- **The assignment rule holds exactly away from the bound**, in every state that any history
of assignments leads to. -/
theorem receiver_assignmentRule_iff (b : AlignedSP) (k : Construction) (os : List Lptr) :
    (receiverMachine (k.build b)).Visits os fun r => ∀ o sp addr,
      AssignmentRule b (k.build b) r o sp addr ↔ AwayFromBound b (k.build b) r o sp addr := by
  intro as has r hrun o sp addr
  have hr : r.bound = b.addr := receiver_bound b k os as has r hrun
  have hpass := passes_documented_iff (o := o) hr
  have hstart := passes_documented_iff (o := o) (bound_build b k)
  have hcan := can_accept_agrees_iff hr sp addr
  constructor
  · intro h
    refine ⟨?_, hcan.mp h.can_accept_iff⟩
    intro hb
    rcases hpass.mp h.passes_iff hb with h0 | ho | hflag
    · exact .inl h0
    · exact .inr (.inl ho)
    · -- the start decides the same, so its flag has to be set as well
      rcases hstart.mp (h.same_decision.symm.trans h.passes_iff) hb with h0 | ho | hflag'
      · exact .inl h0
      · exact .inr (.inl ho)
      · exact .inr (.inr ⟨hflag, hflag'⟩)
  · intro h
    have hdoc := hpass.mpr fun hb => (h.source hb).imp_right (.imp_right And.left)
    have hdoc' := hstart.mpr fun hb => (h.source hb).imp_right (.imp_right And.right)
    exact ⟨hdoc, hr, hdoc.trans hdoc'.symm, hcan.mpr h.heap⟩

/-- A default-constructed receiver refuses the address that equals its bound. -/
theorem not_receiver_assignmentRule : ¬ ∀ (b : AlignedSP) (k : Construction) (os : List Lptr),
    (receiverMachine (k.build b)).Visits os fun r => ∀ o sp addr,
      AssignmentRule b (k.build b) r o sp addr := by
  intro h
  let b : AlignedSP := ⟨0x7ff0, rfl⟩
  have hrule := h b .null [] [] (List.prefix_refl []) _ rfl (ofData 0x7ff0 0x7ff0) b 0
  have : ((Construction.null.build b).assign (ofData 0x7ff0 0x7ff0)).isSome = true :=
    hrule.passes_iff.mpr (.inr (.inr (by decide)))
  revert this
  decide

end Lptr

end Ironclad.Pointers
