import Ironclad.Pointers.ArrayVars
import Ironclad.Pointers.Stack

/-!
# Heap array pointers passed through local ones

An `aptr` converts to an `laptr`, which may be copied, assigned and moved, and `from_laptr`
takes the address back if the `laptr` that arrives has its *not on stack* flag. The
conversion sets the flag and an assignment sets it; but a constructor sets it only when the
`laptr` itself lies below the stack pointer, since `checkStackBoundGlobal` looks at `this`
and not at the address held. `roundTrip_iff` says exactly which sequences of operations
bring the pointer back.
-/

namespace Ironclad.Pointers

open Ironclad.Logic.LowTag

/-- What `GETSP` reads: a word-aligned address in the stack. -/
structure StackPointer (limit : Word) where
  sp : Word
  aligned : sp.toNat % 8 = 0
  ne_zero : sp ≠ 0
  le : limit ≤ sp

/-- A local variable that is assigned to: its `tb` was made by a constructor. -/
structure Receiver (limit : Word) where
  ptr : Laptr
  sp : StackPointer limit
  bound : ptr.bound = sp.sp

/-- An operation on the way, and what goes on: the new object, the variable assigned to, the
pointer that an operator was applied to, or the operator's result. -/
inductive Pass (limit : Word) where
  | copy (sp : StackPointer limit) (this : Word)
  | assign (r : Receiver limit)
  | moved (m : Move) (sp : StackPointer limit) (this : Word)
  | result (m : Move) (sp : StackPointer limit) (this : Word)

section

variable {limit : Word}

def Pass.run : Pass limit → Laptr → Option Laptr
  | .copy sp this, q => some (.copy sp.sp this q)
  | .assign r, q => r.ptr.assign q
  | .moved m sp this, q => some (q.move sp.sp this m).1
  | .result m sp this, q => some (q.move sp.sp this m).2

/-- The `laptr` that arrives, if all assertions pass. -/
def passAll : List (Pass limit) → Laptr → Option Laptr
  | [], q => some q
  | op :: ops, q => (op.run q).bind (passAll ops)

/-- From an `aptr` through local pointers into the `aptr` `r`. -/
def roundTrip (sp : StackPointer limit) (this : Word) (ops : List (Pass limit)) (p r : Aptr) :
    Option Aptr :=
  (passAll ops (p.toLaptr sp.sp this)).bind r.from_laptr

/-! ## What is expected -/

/-- The displacement of the pointer that an operator is applied to, and of its result. -/
def Move.shift : Move → Word × Word
  | .preInc => (1, 1)
  | .postInc => (1, 0)
  | .preDec => (-1, -1)
  | .postDec => (-1, 0)
  | .addAssign op => (ofInt op, ofInt op)
  | .subAssign op => (-ofInt op, -ofInt op)
  | .sub diff => (0, -diff)
  | .add diff => (0, diff)
  | .offset index => (0, ofUnsigned index)

def Pass.shift : Pass limit → Word
  | .copy _ _ => 0
  | .assign _ => 0
  | .moved m _ _ => m.shift.1
  | .result m _ _ => m.shift.2

/-- The total displacement. -/
def displacement (ops : List (Pass limit)) : Word := (ops.map Pass.shift).sum

/-! ## What becomes of the flag -/

/-- The operators whose result is a new object. -/
def Move.byValue : Move → Bool
  | .postInc | .postDec | .sub _ | .add _ | .offset _ => true
  | _ => false

/-- The flag after an operation: a new object has it if it lies below the stack pointer. -/
def Pass.flag (flag : Bool) : Pass limit → Bool
  | .copy sp this => decide (this < sp.sp)
  | .assign _ => true
  | .moved _ _ _ => flag
  | .result m sp this => if m.byValue then decide (this < sp.sp) else flag

/-- An assignment accepts only null and flagged pointers. -/
def Pass.accepts (null flag : Bool) : Pass limit → Bool
  | .assign _ => null || flag
  | _ => true

/-- The flag is there whenever it is looked at. -/
def survives (null : Bool) : Bool → List (Pass limit) → Bool
  | flag, [] => flag
  | flag, op :: ops => op.accepts null flag && survives null (op.flag flag) ops

/-! ## One operation -/

theorem StackPointer.not_tagged (sp : StackPointer limit) : tagged sp.sp = false := by
  rw [not_tagged_iff (by omega)]
  have := sp.aligned
  omega

theorem StackPointer.untag (sp : StackPointer limit) : untag sp.sp = sp.sp := by
  apply BitVec.eq_of_toNat_eq
  rw [toNat_untag (by omega)]
  have := sp.aligned
  omega

/-- The `laptr` on the way: the extent stays that of the `aptr`, and `tb` holds a stack
pointer and the flag. -/
structure OnTheWay (p : Aptr) (shift : Word) (flag : Bool) (limit : Word) (q : Laptr) : Prop where
  data : q.data = p.data
  size : q.size = p.size
  index : q.index = p.index + shift
  flag : q.notOnStack = flag
  bound : ∃ sp : StackPointer limit, q.bound = sp.sp

theorem checkStackBoundGlobal_tagged (sp : StackPointer limit) (this : Word) :
    tagged (Laptr.checkStackBoundGlobal sp.sp this) = decide (this < sp.sp) := by
  unfold Laptr.checkStackBoundGlobal
  split
  · rename_i hlt
    rw [tagged_or_one (by omega), decide_eq_true hlt]
  · rename_i hge
    rw [sp.not_tagged, decide_eq_false hge]

theorem checkStackBoundGlobal_bound (sp : StackPointer limit) (this : Word) :
    untag (Laptr.checkStackBoundGlobal sp.sp this) = sp.sp := by
  rw [Laptr.untag_checkStackBoundGlobal, sp.untag]

variable {p : Aptr} {q : Laptr} {shift : Word} {flag : Bool}

/-- The conversion sets the flag. -/
theorem onTheWay_toLaptr (p : Aptr) (sp : StackPointer limit) (this : Word) :
    OnTheWay p 0 true limit (p.toLaptr sp.sp this) := by
  refine ⟨rfl, rfl, ?_, tagged_or_one (by omega) _, sp, ?_⟩
  · exact (add_zero p.index).symm
  · rw [Aptr.toLaptr_bound, sp.untag]

/-- A new object at `this`. -/
theorem OnTheWay.fresh (hq : OnTheWay p shift flag limit q) (sp : StackPointer limit)
    (this d : Word) :
    OnTheWay p (shift + d) (decide (this < sp.sp)) limit
      ⟨q.data, q.index + d, q.size, Laptr.checkStackBoundGlobal sp.sp this⟩ := by
  refine ⟨hq.data, hq.size, ?_, checkStackBoundGlobal_tagged sp this, sp,
    checkStackBoundGlobal_bound sp this⟩
  show q.index + d = p.index + (shift + d)
  rw [hq.index, add_assoc]

/-- A moved pointer. -/
theorem OnTheWay.index_add (hq : OnTheWay p shift flag limit q) (d : Word) :
    OnTheWay p (shift + d) flag limit { q with index := q.index + d } := by
  refine ⟨hq.data, hq.size, ?_, hq.flag, hq.bound⟩
  show q.index + d = p.index + (shift + d)
  rw [hq.index, add_assoc]

theorem OnTheWay.index_sub (hq : OnTheWay p shift flag limit q) (d : Word) :
    OnTheWay p (shift + -d) flag limit { q with index := q.index - d } := by
  rw [sub_eq_add_neg]
  exact hq.index_add (-d)

/-- The pointer that an operator leaves, and the one it returns. -/
theorem OnTheWay.move (hq : OnTheWay p shift flag limit q) (m : Move) (sp : StackPointer limit)
    (this : Word) :
    OnTheWay p (shift + m.shift.1) flag limit (q.move sp.sp this m).1 ∧
      OnTheWay p (shift + m.shift.2) (if m.byValue then decide (this < sp.sp) else flag) limit
        (q.move sp.sp this m).2 := by
  have hstay : OnTheWay p (shift + 0) flag limit q := by
    rw [add_zero]
    exact hq
  have hcopy : OnTheWay p (shift + 0) (decide (this < sp.sp)) limit
      (Laptr.copy sp.sp this q) := by
    have h := hq.fresh sp this 0
    rw [add_zero q.index] at h
    exact h
  -- the operators that return `*this` keep the flag, the others return a new object
  cases m with
  | preInc => exact ⟨hq.index_add 1, hq.index_add 1⟩
  | postInc => exact ⟨hq.index_add 1, hcopy⟩
  | preDec =>
      have h := hq.index_sub 1
      exact ⟨h, h⟩
  | postDec => exact ⟨hq.index_sub 1, hcopy⟩
  | addAssign op => exact ⟨hq.index_add (ofInt op), hq.index_add (ofInt op)⟩
  | subAssign op =>
      have h := hq.index_sub (ofInt op)
      exact ⟨h, h⟩
  | sub diff =>
      have h := hq.fresh sp this (-diff)
      rw [← sub_eq_add_neg q.index] at h
      exact ⟨hstay, h⟩
  | add diff => exact ⟨hstay, hq.fresh sp this diff⟩
  | offset index => exact ⟨hstay, hq.fresh sp this (ofUnsigned index)⟩

/-- The `tb` of a pointer on the way is not the bare flag, so that an assignment sets it. -/
theorem OnTheWay.assign_flag (hq : OnTheWay p shift flag limit q) (tb : Word) :
    tagged (assignTb tb q.tb) = true := by
  obtain ⟨sp, hsp⟩ := hq.bound
  have hne : q.tb ^^^ 1#64 ≠ 0#64 := by
    intro hzero
    have htb : q.tb = 1#64 := BitVec.xor_eq_zero_iff.mp hzero
    have hbound : q.bound = 0#64 := by
      rw [Laptr.bound, htb]
      decide
    exact sp.ne_zero (hsp.symm.trans hbound)
  rw [assignTb, if_pos hne]
  exact tagged_or_one (by omega) tb

/-- A heap or global address other than null is below every stack pointer, so that an
assignment asks for the flag. -/
theorem OnTheWay.assignCheck (hp : heapOrGlobal limit p.data = true)
    (hq : OnTheWay p shift flag limit q) (r : Receiver limit) :
    assignCheck r.ptr.tb q.data q.tb = (decide (p.data = 0) || flag) := by
  have hflag : tagged q.tb = flag := hq.flag
  have hcheck : Pointers.assignCheck r.ptr.tb q.data q.tb =
      (p.data == 0 || flag || decide (r.ptr.tb ^^^ 1#64 ≤ p.data)) := by
    rw [Pointers.assignCheck, hq.data, hflag]
  rw [hcheck]
  by_cases hnull : p.data = 0
  · simp [hnull]
  · -- the comparison with the bound of the variable fails
    have hbeq : (p.data == 0) = false := beq_eq_false_iff_ne.mpr hnull
    have hlt : p.data < limit := by
      rw [heapOrGlobal, hbeq, Bool.false_or, decide_eq_true_eq] at hp
      exact hp
    have hbound : untag r.ptr.tb = r.sp.sp := r.bound
    have hle := untag_le_xor_one (by omega) r.ptr.tb
    have hsp := r.sp.le
    have hno : ¬r.ptr.tb ^^^ 1#64 ≤ p.data := by
      rw [hbound] at hle
      bv_omega
    rw [hbeq, decide_eq_false hnull, decide_eq_false hno, Bool.or_false]

/-- **What one operation does**: it refuses an unflagged pointer, or moves it on. -/
theorem OnTheWay.run (hp : heapOrGlobal limit p.data = true)
    (hq : OnTheWay p shift flag limit q) (op : Pass limit) :
    if op.accepts (decide (p.data = 0)) flag then
      ∃ q', op.run q = some q' ∧ OnTheWay p (shift + op.shift) (op.flag flag) limit q'
    else op.run q = none := by
  cases op with
  | copy sp this =>
      have h := hq.fresh sp this 0
      rw [add_zero q.index] at h
      exact ⟨_, rfl, h⟩
  | moved m sp this => exact ⟨_, rfl, (hq.move m sp this).1⟩
  | result m sp this => exact ⟨_, rfl, (hq.move m sp this).2⟩
  | assign r =>
      have hcheck := hq.assignCheck hp r
      show if (decide (p.data = 0) || flag) = true then _ else r.ptr.assign q = none
      split
      · rename_i hacc
        refine ⟨_, Laptr.assign_eq_some.mpr ⟨hcheck.trans hacc, rfl⟩, hq.data, hq.size, ?_,
          hq.assign_flag r.ptr.tb, r.sp, ?_⟩
        · show q.index = p.index + (shift + 0)
          rw [hq.index, add_zero]
        · show untag (assignTb r.ptr.tb q.tb) = r.sp.sp
          rw [untag_assignTb]
          exact r.bound
      · rename_i hacc
        rw [Laptr.assign, if_neg]
        rw [hcheck]
        exact hacc

/-- All operations. -/
theorem OnTheWay.passAll (hp : heapOrGlobal limit p.data = true) (ops : List (Pass limit))
    (hq : OnTheWay p shift flag limit q) (r : Aptr) :
    (Pointers.passAll ops q).bind r.from_laptr =
      if survives (decide (p.data = 0)) flag ops then
        some ⟨p.data, p.index + (shift + displacement ops), p.size⟩
      else none := by
  induction ops generalizing q shift flag with
  | nil =>
      -- `from_laptr` looks at the flag
      have hflag : q.notOnStack = flag := hq.flag
      show r.from_laptr q = if flag then _ else none
      rw [Aptr.from_laptr, hflag, hq.data, hq.index, hq.size]
      show _ = if flag then some (⟨p.data, p.index + (shift + 0), p.size⟩ : Aptr) else none
      rw [add_zero]
  | cons op ops ih =>
      have hrun := hq.run hp op
      unfold survives Pointers.passAll
      cases hacc : op.accepts (decide (p.data = 0)) flag with
      | false =>
          rw [hacc, if_neg Bool.false_ne_true] at hrun
          rw [hrun]
          rfl
      | true =>
          rw [hacc, if_pos rfl] at hrun
          obtain ⟨q', hq', hway⟩ := hrun
          rw [hq', Option.bind_some, ih hway, Bool.true_and]
          have hsum : shift + op.shift + displacement ops = shift + displacement (op :: ops) := by
            show _ = shift + (op.shift + displacement ops)
            rw [add_assoc]
          rw [hsum]

/-- **When the round trip succeeds.** An `aptr` to the heap or the globals, or null, comes
back at the expected index exactly if the flag is there whenever it is looked at. -/
theorem roundTrip_iff (sp : StackPointer limit) (this : Word) (ops : List (Pass limit))
    (p r : Aptr) (hp : heapOrGlobal limit p.data = true) :
    roundTrip sp this ops p r = some ⟨p.data, p.index + displacement ops, p.size⟩ ↔
      survives (decide (p.data = 0)) true ops = true := by
  have h := (onTheWay_toLaptr p sp this).passAll hp ops r
  rw [zero_add] at h
  rw [roundTrip, h]
  cases survives (decide (p.data = 0)) true ops with
  | true => simp
  | false => simp

end

/-- The stack pointer in the examples. -/
def exampleSp : StackPointer 0x8000 := ⟨0x9000, by decide, by decide, by decide⟩

/-- `++` and an assignment bring the pointer back. -/
theorem roundTrip_iff_assigned :
    roundTrip exampleSp 0x9010
        [.moved .preInc exampleSp 0x9010, .assign ⟨.null 0x9000, exampleSp, by decide⟩]
        ⟨0x1000, 2, 5⟩ .null = some ⟨0x1000, 3, 5⟩ :=
  (roundTrip_iff exampleSp 0x9010
    [.moved .preInc exampleSp 0x9010, .assign ⟨.null 0x9000, exampleSp, by decide⟩]
    ⟨0x1000, 2, 5⟩ .null (by decide)).mpr rfl

/-- A copy on the stack does not: `laptr<int> l = a; laptr<int> m(l); b.from_laptr(m);`. -/
theorem roundTrip_copied :
    roundTrip exampleSp 0x9010 [.copy exampleSp 0x9030] ⟨0x1000, 0, 5⟩ .null = none ∧
      ¬∀ ops : List (Pass 0x8000), roundTrip exampleSp 0x9010 ops ⟨0x1000, 0, 5⟩ .null =
        some ⟨0x1000, 0 + displacement ops, 5⟩ := by
  have hnone : roundTrip exampleSp 0x9010 [.copy exampleSp 0x9030] ⟨0x1000, 0, 5⟩ .null = none := by
    decide
  refine ⟨hnone, ?_⟩
  intro h
  rw [h] at hnone
  cases hnone

end Ironclad.Pointers
