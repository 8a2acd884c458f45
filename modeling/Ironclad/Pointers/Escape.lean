import Ironclad.Pointers.Array
import Ironclad.Pointers.Dangling

/-!
# Escaping stack addresses

`ptr` and `aptr` outlive every frame, so no stack address may get into one. The
only ways in are the conversions from local pointers, which check the flag, and
`getAptr`/`offsetAptr`, which compare the array's address with the stack pointer.
Both checks can pass for a stack address: an assignment sets the flag of its
receiver for every source, and `dataNotOnStack` compares with `<=`, so an array
that starts exactly at the stack pointer counts as not on the stack.
`escapeMachine_noEscape_iff` is the exact condition on the steps of a run.
-/

namespace Ironclad.Pointers

open Ironclad.Logic Ironclad.Logic.LowTag

/-- The stack with its local pointers, and the pointers to the heap and the globals. -/
structure EscapeState where
  stack : StackState
  ptrs : List Ptr
  aptrs : List Aptr

inductive EscapeOp where
  | stack (op : LocalOp)
  | newPtr (a : Word)
  | newArray (a size : Word)
  | ptrToLptr (sp : Word) (i : Nat)
  | aptrToLaptr (sp this : Word) (i : Nat)
  | arrayToLaptr (sp this : Word) (arr : SafeArray)
  | ptrOfLptr (i : Nat)
  | from_laptr (i j : Nat)
  | getAptr (sp : Word) (arr : SafeArray)
  | offsetAptr (sp : Word) (arr : SafeArray) (index : BitVec 32)

def EscapeState.empty : EscapeState := ⟨.empty, [], []⟩

/-- One operation. The object of a `safe::array` exists: in the heap, the globals or
a live frame. -/
def escapeStep (limit : Word) (s : EscapeState) : EscapeOp → Option EscapeState
  | .stack op => (localStep limit s.stack op).bind fun t => some { s with stack := t }
  | .newPtr a =>
      if heapOrGlobal limit a then some { s with ptrs := s.ptrs ++ [.ofData a] } else none
  | .newArray a size =>
      if heapOrGlobal limit a then some { s with aptrs := s.aptrs ++ [.new_array a size] }
      else none
  | .ptrToLptr sp i =>
      s.ptrs[i]?.bind fun p =>
        (GETSP sp s.stack.frames).bind fun fs =>
          some { s with stack := s.stack.newLptr fs (p.toLptr sp) }
  | .aptrToLaptr sp this i =>
      s.aptrs[i]?.bind fun p =>
        if inTop this s.stack.frames then
          (GETSP sp s.stack.frames).bind fun fs =>
            some { s with stack := s.stack.newLaptr fs (p.toLaptr sp this) }
        else none
  | .arrayToLaptr sp this arr =>
      if validAddr limit s.stack.frames arr.data ∧ inTop this s.stack.frames then
        (GETSP sp s.stack.frames).bind fun fs =>
          some { s with stack := s.stack.newLaptr fs (arr.toLaptr sp this) }
      else none
  | .ptrOfLptr i =>
      s.stack.lptrs[i]?.bind fun v =>
        (Ptr.ofLptr v.ptr).bind fun p => some { s with ptrs := s.ptrs ++ [p] }
  | .from_laptr i j =>
      s.aptrs[i]?.bind fun p => s.stack.laptrs[j]?.bind fun v =>
        (p.from_laptr v.ptr).bind fun q => some { s with aptrs := s.aptrs.set i q }
  | .getAptr sp arr =>
      if validAddr limit s.stack.frames arr.data then
        (GETSP sp s.stack.frames).bind fun fs =>
          (arr.getAptr sp).bind fun p =>
            some { s with stack := { s.stack with frames := fs }, aptrs := s.aptrs ++ [p] }
      else none
  | .offsetAptr sp arr index =>
      if validAddr limit s.stack.frames arr.data then
        (GETSP sp s.stack.frames).bind fun fs =>
          (arr.offsetAptr sp index).bind fun p =>
            some { s with stack := { s.stack with frames := fs }, aptrs := s.aptrs ++ [p] }
      else none

def escapeMachine (limit : Word) : Machine EscapeState EscapeOp := ⟨.empty, escapeStep limit⟩

/-- The flag of a local pointer is right, and `ptr`s and `aptr`s hold null or a heap
or global address, so no address inside a live frame. -/
structure NoEscape (limit : Word) (s : EscapeState) : Prop where
  flagged : ∀ h ∈ s.stack.locals, tagged h.tb = true → heapOrGlobal limit h.data = true
  ptrs : ∀ p ∈ s.ptrs, heapOrGlobal limit p.data = true
  aptrs : ∀ p ∈ s.aptrs, heapOrGlobal limit p.data = true
  ptrs_off_stack : ∀ p ∈ s.ptrs, p.data ≠ 0 → ∀ f ∈ s.stack.frames, f.contains p.data = false
  aptrs_off_stack : ∀ p ∈ s.aptrs, p.data ≠ 0 → ∀ f ∈ s.stack.frames,
    f.contains p.data = false

/-- The steps that let nothing escape: only null, heap and global addresses are
assigned between local pointers, and no array that starts exactly at the stack
pointer is converted. -/
def KeepsInside (limit : Word) (s : EscapeState) : EscapeOp → Prop
  | .stack op => ∀ h o, assigned s.stack op = some (h, o) → heapOrGlobal limit o.data = true
  | .arrayToLaptr sp _ arr => heapOrGlobal limit arr.data = true ∨ arr.data ≠ sp
  | .getAptr sp arr => heapOrGlobal limit arr.data = true ∨ arr.data ≠ sp
  | .offsetAptr sp arr _ => heapOrGlobal limit arr.data = true ∨ arr.data ≠ sp
  | _ => True

/-- The invariant: the frames, the local pointers and the three kinds of addresses. -/
structure EscapeInv (limit : Word) (s : EscapeState) : Prop where
  stack : StackInv limit s.stack
  noDangling : NoDangling limit s.stack
  flagged : ∀ h ∈ s.stack.locals, tagged h.tb = true → heapOrGlobal limit h.data = true
  ptrs : ∀ p ∈ s.ptrs, heapOrGlobal limit p.data = true
  aptrs : ∀ p ∈ s.aptrs, heapOrGlobal limit p.data = true

/-- The heap and the globals lie outside every frame. -/
theorem WellNested.not_contains {limit : Word} {fs : List Frame} (hn : WellNested limit fs)
    {a : Word} (ha : heapOrGlobal limit a = true) (h0 : a ≠ 0) {f : Frame} (hf : f ∈ fs) :
    f.contains a = false := by
  obtain ⟨d, hd⟩ := exists_frameAt_of_mem hf
  obtain ⟨hlo, -, -⟩ := hn.frame d f hd
  simp only [heapOrGlobal, Bool.or_eq_true, beq_iff_eq, decide_eq_true_eq] at ha
  rcases ha with ha | ha
  · exact absurd ha h0
  · cases hc : f.contains a with
    | false => rfl
    | true =>
        have := (Frame.contains_iff.mp hc).1
        exact absurd (BitVec.le_trans hlo this) (BitVec.not_le.mpr ha)

theorem EscapeInv.noEscape {limit : Word} {s : EscapeState} (hs : EscapeInv limit s) :
    NoEscape limit s where
  flagged := hs.flagged
  ptrs := hs.ptrs
  aptrs := hs.aptrs
  ptrs_off_stack p hp h0 _ hf := hs.stack.nested.not_contains (hs.ptrs p hp) h0 hf
  aptrs_off_stack p hp h0 _ hf := hs.stack.nested.not_contains (hs.aptrs p hp) h0 hf

/-- A valid address that is not above the stack pointer, and not equal to it unless
it is off the stack, is off the stack. -/
theorem heapOrGlobal_of_le {limit sp a : Word} {fs fs' : List Frame}
    (hn : WellNested limit fs) (hsp : GETSP sp fs = some fs')
    (hv : validAddr limit fs a = true) (hle : a ≤ sp)
    (hne : heapOrGlobal limit a = true ∨ a ≠ sp) : heapOrGlobal limit a = true := by
  rcases hne with hg | hne
  · exact hg
  · simp only [validAddr, Bool.or_eq_true, List.any_eq_true] at hv
    rcases hv with hg | ⟨f, hf, hc⟩
    · exact hg
    · -- every frame lies above the stack pointer of the current one
      obtain ⟨g, rest, m, rfl, -, hlo, -, -⟩ := GETSP_eq_some hsp
      obtain ⟨d, hd⟩ := exists_frameAt_of_mem hf
      have hd' := frameAt_lt hd
      rw [List.length_cons] at hd'
      have h1 := hn.lo_le (Nat.le_of_lt_succ hd') hd (frameAt_cons_length g rest)
      have h2 := (Frame.contains_iff.mp hc).1
      exact absurd (BitVec.eq_of_toNat_eq (by bv_omega)) hne

/-- The flag of a new pointer is right. -/
theorem NewLocal.flagged {limit sp : Word} {s t : StackState} {h : Held}
    (hn : NewLocal limit s t sp h) (hs : StackInv limit s) (hd : NoDangling limit s)
    (hf : ∀ k ∈ s.locals, tagged k.tb = true → heapOrGlobal limit k.data = true) :
    ∀ k ∈ t.locals, tagged k.tb = true → heapOrGlobal limit k.data = true := by
  intro k hk htag
  rcases hn.locals k hk with hk | rfl
  · exact hf k hk htag
  · rcases hn.flag htag with hlt | hg
    · exact heapOrGlobal_of_le hs.nested hn.frames (hn.data_valid hd) (BitVec.le_of_lt hlt)
        (.inr (BitVec.ne_of_lt hlt))
    · exact hg

/-- A step of the stack that assigns only what is off the stack keeps the flags right. -/
theorem localStep_flagged {limit : Word} {s t : StackState} {op : LocalOp}
    (hs : StackInv limit s) (hd : NoDangling limit s)
    (hf : ∀ k ∈ s.locals, tagged k.tb = true → heapOrGlobal limit k.data = true)
    (hC : ∀ h o, assigned s op = some (h, o) → heapOrGlobal limit o.data = true)
    (h : localStep limit s op = some t) :
    ∀ k ∈ t.locals, tagged k.tb = true → heapOrGlobal limit k.data = true := by
  cases localStep_effect h with
  | call lo hi ops above range below frames locals => exact fun k hk => hf k (locals ▸ hk)
  | ret g ops frames locals => exact fun k hk => hf k (locals k hk).1
  | new sp g ops new => exact new.flagged hs hd hf
  | assign r o ops receiver source check frames locals result =>
      intro k hk htag
      rcases locals k hk with hk | rfl
      · exact hf k hk htag
      · exact hC r o ops

/-- A new local pointer keeps the invariant. -/
theorem EscapeInv.new {limit sp : Word} {s : EscapeState} {t : StackState} {h : Held}
    (hs : EscapeInv limit s) (hn : NewLocal limit s.stack t sp h) :
    EscapeInv limit { s with stack := t } :=
  ⟨hn.stackInv hs.stack, hn.noDangling hs.noDangling,
    hn.flagged hs.stack hs.noDangling hs.flagged, hs.ptrs, hs.aptrs⟩

/-- Reading the stack pointer alone keeps the invariant. -/
theorem EscapeInv.getSP {limit sp : Word} {s : EscapeState} {fs : List Frame}
    (hs : EscapeInv limit s) (h : GETSP sp s.stack.frames = some fs) :
    EscapeInv limit { s with stack := { s.stack with frames := fs } } :=
  ⟨⟨hs.stack.nested.getSP h, fun k hk => (hs.stack.owned k hk).getSP h⟩,
    fun k hk => (hs.noDangling k hk).getSP h, hs.flagged, hs.ptrs, hs.aptrs⟩

/-- A new `aptr` that is off the stack keeps the invariant. -/
theorem EscapeInv.pushAptr {limit : Word} {s : EscapeState} {p : Aptr} (hs : EscapeInv limit s)
    (hp : heapOrGlobal limit p.data = true) :
    EscapeInv limit { s with aptrs := s.aptrs ++ [p] } :=
  ⟨hs.stack, hs.noDangling, hs.flagged, hs.ptrs, fun q hq => by
    rcases List.mem_append.mp hq with hq | hq
    · exact hs.aptrs q hq
    · exact List.mem_singleton.mp hq ▸ hp⟩

/-- A new `ptr` that is off the stack keeps the invariant. -/
theorem EscapeInv.pushPtr {limit : Word} {s : EscapeState} {p : Ptr} (hs : EscapeInv limit s)
    (hp : heapOrGlobal limit p.data = true) :
    EscapeInv limit { s with ptrs := s.ptrs ++ [p] } :=
  ⟨hs.stack, hs.noDangling, hs.flagged, fun q hq => by
    rcases List.mem_append.mp hq with hq | hq
    · exact hs.ptrs q hq
    · exact List.mem_singleton.mp hq ▸ hp, hs.aptrs⟩

theorem validAddr_of_heapOrGlobal {limit a : Word} (h : heapOrGlobal limit a = true)
    (fs : List Frame) : validAddr limit fs a = true := by
  simp [validAddr, h]

/-- A `ptr` converted to `lptr`: flagged, and rightly so. -/
theorem NewLocal.of_ptr {limit sp : Word} {s : StackState} {fs : List Frame}
    (hfs : GETSP sp s.frames = some fs) {p : Ptr} (hp : heapOrGlobal limit p.data = true) :
    NewLocal limit s (s.newLptr fs (p.toLptr sp)) sp
      ⟨fs.length - 1, p.data, (p.toLptr sp).tb⟩ where
  frames := hfs
  owner := rfl
  bound := Ptr.toLptr_bound sp p
  data := .inl (validAddr_of_heapOrGlobal hp _)
  flag _ := .inr hp
  locals _ hk := StackState.mem_locals_newLptr hk

/-- An `aptr` converted to `laptr`. -/
theorem NewLocal.of_aptr {limit sp : Word} {s : StackState} {fs : List Frame}
    (hfs : GETSP sp s.frames = some fs) {p : Aptr} (hp : heapOrGlobal limit p.data = true)
    (this : Word) :
    NewLocal limit s (s.newLaptr fs (p.toLaptr sp this)) sp
      ⟨fs.length - 1, p.data, (p.toLaptr sp this).tb⟩ where
  frames := hfs
  owner := rfl
  bound := Aptr.toLaptr_bound sp this p
  data := .inl (validAddr_of_heapOrGlobal hp _)
  flag _ := .inr hp
  locals _ hk := StackState.mem_locals_newLaptr hk

/-- A `safe::array` converted to `laptr`, when it does not start at the stack pointer. -/
theorem NewLocal.of_array {limit sp this : Word} {s : StackState} {fs : List Frame}
    (hn : WellNested limit s.frames) (hfs : GETSP sp s.frames = some fs)
    (hthis : inTop this s.frames = true) {arr : SafeArray}
    (hv : validAddr limit s.frames arr.data = true)
    (hne : heapOrGlobal limit arr.data = true ∨ arr.data ≠ sp) :
    NewLocal limit s (s.newLaptr fs (arr.toLaptr sp this)) sp
      ⟨fs.length - 1, arr.data, (arr.toLaptr sp this).tb⟩ where
  frames := hfs
  owner := rfl
  bound := SafeArray.toLaptr_bound sp this arr
  data := .inl hv
  flag h := by
    have hflag := SafeArray.toLaptr_notOnStack (GETSP_le_of_inTop hfs hthis)
      (GETSP_not_tagged hfs) arr
    rw [Laptr.notOnStack, h] at hflag
    exact .inr (heapOrGlobal_of_le hn hfs hv (of_decide_eq_true hflag.symm) hne)
  locals k hk := by
    rw [← SafeArray.toLaptr_data sp this arr]
    exact StackState.mem_locals_newLaptr hk

/-- A step that meets the condition keeps the invariant. -/
theorem escapeStep_inv {limit : Word} {s t : EscapeState} {op : EscapeOp}
    (hs : EscapeInv limit s) (hC : KeepsInside limit s op) (h : escapeStep limit s op = some t) :
    EscapeInv limit t := by
  cases op with
  | stack op =>
      obtain ⟨u, hu, ht⟩ := Option.bind_eq_some_iff.mp h
      cases ht
      refine ⟨localStep_stackInv hs.stack hu, localStep_noDangling hs.stack hs.noDangling ?_ hu,
        localStep_flagged hs.stack hs.noDangling hs.flagged hC hu, hs.ptrs, hs.aptrs⟩
      exact fun r o hro => .inl (hC r o hro)
  | newPtr a =>
      obtain ⟨ha, ht⟩ := Option.ite_none_right_eq_some.mp h
      cases ht
      exact hs.pushPtr ha
  | newArray a size =>
      obtain ⟨ha, ht⟩ := Option.ite_none_right_eq_some.mp h
      cases ht
      exact hs.pushAptr ha
  | ptrToLptr sp i =>
      obtain ⟨p, hi, h⟩ := Option.bind_eq_some_iff.mp h
      obtain ⟨fs, hfs, ht⟩ := Option.bind_eq_some_iff.mp h
      cases ht
      exact hs.new (.of_ptr hfs (hs.ptrs p (List.mem_of_getElem? hi)))
  | aptrToLaptr sp this i =>
      obtain ⟨p, hi, h⟩ := Option.bind_eq_some_iff.mp h
      obtain ⟨-, h⟩ := Option.ite_none_right_eq_some.mp h
      obtain ⟨fs, hfs, ht⟩ := Option.bind_eq_some_iff.mp h
      cases ht
      exact hs.new (.of_aptr hfs (hs.aptrs p (List.mem_of_getElem? hi)) this)
  | arrayToLaptr sp this arr =>
      obtain ⟨⟨hv, hthis⟩, h⟩ := Option.ite_none_right_eq_some.mp h
      obtain ⟨fs, hfs, ht⟩ := Option.bind_eq_some_iff.mp h
      cases ht
      exact hs.new (.of_array hs.stack.nested hfs hthis hv hC)
  | ptrOfLptr i =>
      obtain ⟨v, hi, h⟩ := Option.bind_eq_some_iff.mp h
      obtain ⟨p, hp, ht⟩ := Option.bind_eq_some_iff.mp h
      cases ht
      obtain ⟨hflag, rfl⟩ := Ptr.ofLptr_eq_some.mp hp
      exact hs.pushPtr (hs.flagged _ (StackState.heldLptr_mem hi) hflag)
  | from_laptr i j =>
      obtain ⟨p, hi, h⟩ := Option.bind_eq_some_iff.mp h
      obtain ⟨v, hj, h⟩ := Option.bind_eq_some_iff.mp h
      obtain ⟨q, hq, ht⟩ := Option.bind_eq_some_iff.mp h
      cases ht
      obtain ⟨hflag, rfl⟩ := Aptr.from_laptr_eq_some.mp hq
      refine ⟨hs.stack, hs.noDangling, hs.flagged, hs.ptrs, fun r hr => ?_⟩
      rcases List.mem_or_eq_of_mem_set hr with hr | rfl
      · exact hs.aptrs r hr
      · exact hs.flagged _ (StackState.heldLaptr_mem hj) hflag
  | getAptr sp arr =>
      obtain ⟨hv, h⟩ := Option.ite_none_right_eq_some.mp h
      obtain ⟨fs, hfs, h⟩ := Option.bind_eq_some_iff.mp h
      obtain ⟨p, hp, ht⟩ := Option.bind_eq_some_iff.mp h
      cases ht
      obtain ⟨hle, rfl⟩ := SafeArray.getAptr_eq_some.mp hp
      exact (hs.getSP hfs).pushAptr (heapOrGlobal_of_le hs.stack.nested hfs hv hle hC)
  | offsetAptr sp arr index =>
      obtain ⟨hv, h⟩ := Option.ite_none_right_eq_some.mp h
      obtain ⟨fs, hfs, h⟩ := Option.bind_eq_some_iff.mp h
      obtain ⟨p, hp, ht⟩ := Option.bind_eq_some_iff.mp h
      cases ht
      obtain ⟨-, hle, rfl⟩ := SafeArray.offsetAptr_eq_some.mp hp
      exact (hs.getSP hfs).pushAptr (heapOrGlobal_of_le hs.stack.nested hfs hv hle hC)

theorem mem_newLaptr {s : StackState} {fs : List Frame} {p : Laptr} :
    ⟨fs.length - 1, p.data, p.tb⟩ ∈ (s.newLaptr fs p).locals :=
  StackState.mem_locals.mpr
    (.inr ⟨⟨fs.length - 1, p⟩, List.mem_append_right _ List.mem_cons_self, rfl⟩)

/-- A step to a state without escapes meets the condition. -/
theorem keepsInside_of_step {limit : Word} {s t : EscapeState} {op : EscapeOp}
    (hs : EscapeInv limit s) (h : escapeStep limit s op = some t) (ht : NoEscape limit t) :
    KeepsInside limit s op := by
  cases op with
  | stack op =>
      intro r o hro
      obtain ⟨u, hu, hst⟩ := Option.bind_eq_some_iff.mp h
      cases hst
      cases localStep_effect hu with
      | call lo hi ops above range below frames locals => simp [ops] at hro
      | ret g ops frames locals => simp [ops] at hro
      | new sp g ops new => simp [ops] at hro
      | assign r' o' ops receiver source check frames locals result =>
          obtain ⟨rfl, rfl⟩ := Prod.mk.inj (Option.some.inj (ops.symm.trans hro))
          -- a source whose flag is clear sets the flag of the receiver
          cases htag : tagged o'.tb with
          | true => exact hs.flagged o' source htag
          | false => exact ht.flagged (r'.assign o') result (tagged_assignTb htag)
  | arrayToLaptr sp this arr =>
      obtain ⟨⟨hv, hthis⟩, h⟩ := Option.ite_none_right_eq_some.mp h
      obtain ⟨fs, hfs, hst⟩ := Option.bind_eq_some_iff.mp h
      cases hst
      by_cases hne : arr.data = sp
      · refine .inl ?_
        rw [← SafeArray.toLaptr_data sp this arr]
        refine ht.flagged _ mem_newLaptr ?_
        have hflag := SafeArray.toLaptr_notOnStack (GETSP_le_of_inTop hfs hthis)
          (GETSP_not_tagged hfs) arr
        rw [decide_eq_true (hne ▸ BitVec.le_refl _)] at hflag
        exact hflag
      · exact .inr hne
  | getAptr sp arr =>
      obtain ⟨hv, h⟩ := Option.ite_none_right_eq_some.mp h
      obtain ⟨fs, hfs, h⟩ := Option.bind_eq_some_iff.mp h
      obtain ⟨p, hp, hst⟩ := Option.bind_eq_some_iff.mp h
      cases hst
      obtain ⟨-, rfl⟩ := SafeArray.getAptr_eq_some.mp hp
      exact .inl (ht.aptrs _ (List.mem_append_right _ List.mem_cons_self))
  | offsetAptr sp arr index =>
      obtain ⟨hv, h⟩ := Option.ite_none_right_eq_some.mp h
      obtain ⟨fs, hfs, h⟩ := Option.bind_eq_some_iff.mp h
      obtain ⟨p, hp, hst⟩ := Option.bind_eq_some_iff.mp h
      cases hst
      obtain ⟨-, -, rfl⟩ := SafeArray.offsetAptr_eq_some.mp hp
      exact .inl (ht.aptrs _ (List.mem_append_right _ List.mem_cons_self))
  | _ => exact trivial

/-- **When no stack address escapes.** A run lets no stack address into a flagged
local pointer, a `ptr` or an `aptr` iff every step of it meets `KeepsInside`. -/
theorem escapeMachine_noEscape_iff (limit : Word) (acts : List EscapeOp) :
    (escapeMachine limit).Visits acts (NoEscape limit) ↔
      (escapeMachine limit).StepsMeet acts (KeepsInside limit) := by
  have hinit : EscapeInv limit .empty :=
    ⟨stackInv_empty limit, fun _ h => absurd h List.not_mem_nil,
      fun _ h => absurd h List.not_mem_nil, fun _ h => absurd h List.not_mem_nil,
      fun _ h => absurd h List.not_mem_nil⟩
  exact Machine.visits_iff_stepsMeet (EscapeInv limit) hinit (fun _ => EscapeInv.noEscape)
    (fun _ _ _ hs hC h => escapeStep_inv hs hC h)
    (fun _ _ _ hs h ht => keepsInside_of_step hs h ht) acts

/-- `lptr<T> q; q = lptr<T>(&x); ptr<T> g(q);`: the assignment sets the flag of `q`,
and the check of the conversion passes with the address of a local. -/
theorem escapeMachine_escape :
    ¬ ∀ limit acts, (escapeMachine limit).Visits acts (NoEscape limit) := by
  intro h
  have hrun := h 0x1000
    [.stack (.call 0x9000 0x9fff), .stack (.lptrNull 0x9000), .stack (.lptrOfData 0x9000 0x9010),
      .stack (.lptrAssign 0 1), .ptrOfLptr 0]
    _ (List.prefix_refl _) _ rfl
  exact absurd (hrun.ptrs ⟨0x9010⟩ List.mem_cons_self) (by decide)

end Ironclad.Pointers
