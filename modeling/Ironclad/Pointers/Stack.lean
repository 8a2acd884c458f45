import Ironclad.Pointers.Laptr

/-!
# Local pointers on a stack of frames

The stack grows downwards; the heap and the globals lie below an address `limit`
that every frame lies above. A program calls, returns, and makes, copies and
assigns `lptr`s and `laptr`s, each owned by the frame that constructs it and gone
when that frame returns. `GETSP` reads a word-aligned address that is not above
any address of the current frame and above every frame called later: a frame
remembers the lowest value read so far (`spMin`), and a callee is laid out below
it.

For the invariants the two pointer classes are the same thing: an owner, an
address and a `tb` (`Held`). `localStep_effect` says what a step can do to the
frames and the held addresses.
-/

namespace Ironclad.Pointers

open Ironclad.Logic.LowTag

/-- The addresses `lo..hi` of a live call, and the lowest stack pointer read in it. -/
structure Frame where
  lo : Word
  hi : Word
  spMin : Word
  deriving DecidableEq, Repr

def Frame.contains (f : Frame) (a : Word) : Bool := decide (f.lo ≤ a) && decide (a ≤ f.hi)

theorem Frame.contains_iff {f : Frame} {a : Word} :
    f.contains a = true ↔ f.lo ≤ a ∧ a ≤ f.hi := by
  simp [Frame.contains]

/-! ## Frames

The newest frame comes first. A frame is named by its depth, the number of its
callers, which does not change while it is live. -/

def frameAt : List Frame → Nat → Option Frame
  | [], _ => none
  | f :: fs, d => if d = fs.length then some f else frameAt fs d

@[simp] theorem frameAt_cons_length (f : Frame) (fs : List Frame) :
    frameAt (f :: fs) fs.length = some f := by
  simp [frameAt]

theorem frameAt_lt {fs : List Frame} {d : Nat} {f : Frame} (h : frameAt fs d = some f) :
    d < fs.length := by
  induction fs with
  | nil => simp [frameAt] at h
  | cons g gs ih =>
      rw [frameAt] at h
      split at h
      · rw [List.length_cons]
        omega
      · have := ih h
        rw [List.length_cons]
        omega

theorem frameAt_cons_of_lt {f : Frame} {fs : List Frame} {d : Nat} (h : d < fs.length) :
    frameAt (f :: fs) d = frameAt fs d := by
  rw [frameAt, if_neg (by omega)]

/-- The two ways to be a frame: the current one, or one of its callers. -/
theorem frameAt_cons_eq_some {f g : Frame} {fs : List Frame} {d : Nat} :
    frameAt (f :: fs) d = some g ↔ (d = fs.length ∧ f = g) ∨ frameAt fs d = some g := by
  rw [frameAt]
  split
  · rename_i h
    constructor
    · intro hfg
      exact .inl ⟨h, Option.some.inj hfg⟩
    · rintro (⟨-, rfl⟩ | hg)
      · rfl
      · exact absurd (frameAt_lt hg) (by omega)
  · rename_i h
    simp [h]

theorem mem_of_frameAt {fs : List Frame} {d : Nat} {f : Frame} (h : frameAt fs d = some f) :
    f ∈ fs := by
  induction fs with
  | nil => simp [frameAt] at h
  | cons g gs ih =>
      rcases frameAt_cons_eq_some.mp h with ⟨-, rfl⟩ | h
      · exact List.mem_cons_self
      · exact List.mem_cons_of_mem _ (ih h)

theorem exists_frameAt_of_mem {fs : List Frame} {f : Frame} (h : f ∈ fs) :
    ∃ d, frameAt fs d = some f := by
  induction fs with
  | nil => exact absurd h List.not_mem_nil
  | cons g gs ih =>
      rcases List.mem_cons.mp h with rfl | h
      · exact ⟨gs.length, frameAt_cons_length f gs⟩
      · obtain ⟨d, hd⟩ := ih h
        exact ⟨d, frameAt_cons_eq_some.mpr (.inr hd)⟩

/-- `GETSP` in the current frame, reading `sp`; it leaves the frames with the
lowest value updated. -/
def GETSP (sp : Word) : List Frame → Option (List Frame)
  | [] => none
  | f :: fs =>
      if sp.toNat % 8 = 0 ∧ sp ≤ f.lo then
        some ({ f with spMin := if sp < f.spMin then sp else f.spMin } :: fs)
      else none

/-- An address that is null, in the heap or in the globals. -/
def heapOrGlobal (limit a : Word) : Bool := a == 0 || decide (a < limit)

/-- An address a program can hold: null, heap, global, or in a live frame. -/
def validAddr (limit : Word) (fs : List Frame) (a : Word) : Bool :=
  heapOrGlobal limit a || fs.any fun f => f.contains a

/-- `hi` lies below everything the current frame has seen of the stack pointer. -/
def belowTop (hi : Word) : List Frame → Bool
  | [] => true
  | f :: _ => decide (hi < f.spMin)

/-- The pointer itself lies in the current frame. -/
def inTop (this : Word) : List Frame → Bool
  | [] => false
  | f :: _ => f.contains this

/-! ## States and operations -/

/-- A pointer object in the frame of depth `owner`. -/
structure Local (P : Type) where
  owner : Nat
  ptr : P
  deriving DecidableEq, Repr

structure StackState where
  frames : List Frame
  lptrs : List (Local Lptr)
  laptrs : List (Local Laptr)
  deriving DecidableEq, Repr

inductive LocalOp where
  | call (lo hi : Word)
  | ret
  | lptrNull (sp : Word)
  | lptrOfData (sp a : Word)
  | lptrCopy (sp : Word) (i : Nat)
  | lptrAssign (i j : Nat)
  | laptrNull (sp : Word)
  | laptrOfData (sp this a size index : Word)
  | laptrCopy (sp this : Word) (i : Nat)
  | laptrAssign (i j : Nat)
  deriving DecidableEq, Repr

namespace StackState

def empty : StackState := ⟨[], [], []⟩

/-- A new `lptr` of the current frame, after the stack pointer was read. -/
def newLptr (s : StackState) (frames : List Frame) (p : Lptr) : StackState :=
  { s with frames := frames, lptrs := s.lptrs ++ [⟨frames.length - 1, p⟩] }

/-- A new `laptr` of the current frame, after the stack pointer was read. -/
def newLaptr (s : StackState) (frames : List Frame) (p : Laptr) : StackState :=
  { s with frames := frames, laptrs := s.laptrs ++ [⟨frames.length - 1, p⟩] }

end StackState

/-- One operation. `none` is a failed assertion, or an operation that is not
possible in the state. -/
def localStep (limit : Word) (s : StackState) : LocalOp → Option StackState
  | .call lo hi =>
      if limit ≤ lo ∧ lo ≤ hi ∧ belowTop hi s.frames then
        some { s with frames := ⟨lo, hi, lo⟩ :: s.frames }
      else none
  | .ret =>
      match s.frames with
      | [] => none
      | _ :: fs =>
          some ⟨fs, s.lptrs.filter (·.owner < fs.length), s.laptrs.filter (·.owner < fs.length)⟩
  | .lptrNull sp => (GETSP sp s.frames).bind fun fs => some (s.newLptr fs (.null sp))
  | .lptrOfData sp a =>
      if validAddr limit s.frames a then
        (GETSP sp s.frames).bind fun fs => some (s.newLptr fs (.ofData sp a))
      else none
  | .lptrCopy sp i =>
      s.lptrs[i]?.bind fun v =>
        (GETSP sp s.frames).bind fun fs => some (s.newLptr fs (.copy sp v.ptr))
  | .lptrAssign i j =>
      s.lptrs[i]?.bind fun v => s.lptrs[j]?.bind fun u =>
        (v.ptr.assign u.ptr).bind fun q =>
          some { s with lptrs := s.lptrs.set i ⟨v.owner, q⟩ }
  | .laptrNull sp => (GETSP sp s.frames).bind fun fs => some (s.newLaptr fs (.null sp))
  | .laptrOfData sp this a size index =>
      if validAddr limit s.frames a ∧ inTop this s.frames then
        (GETSP sp s.frames).bind fun fs =>
          some (s.newLaptr fs (.ofDataIndex sp this a size index))
      else none
  | .laptrCopy sp this i =>
      s.laptrs[i]?.bind fun v =>
        if inTop this s.frames then
          (GETSP sp s.frames).bind fun fs => some (s.newLaptr fs (.copy sp this v.ptr))
        else none
  | .laptrAssign i j =>
      s.laptrs[i]?.bind fun v => s.laptrs[j]?.bind fun u =>
        (v.ptr.assign u.ptr).bind fun q =>
          some { s with laptrs := s.laptrs.set i ⟨v.owner, q⟩ }

/-! ## The two classes as one -/

/-- What the two classes have in common: owner, address and `tb`. -/
structure Held where
  owner : Nat
  data : Word
  tb : Word
  deriving DecidableEq, Repr

def heldLptr (v : Local Lptr) : Held := ⟨v.owner, v.ptr.data, v.ptr.tb⟩

def heldLaptr (v : Local Laptr) : Held := ⟨v.owner, v.ptr.data, v.ptr.tb⟩

namespace StackState

/-- All live local pointers. -/
def locals (s : StackState) : List Held := s.lptrs.map heldLptr ++ s.laptrs.map heldLaptr

theorem mem_locals {s : StackState} {h : Held} :
    h ∈ s.locals ↔ (∃ v ∈ s.lptrs, heldLptr v = h) ∨ ∃ v ∈ s.laptrs, heldLaptr v = h := by
  simp [locals]

theorem heldLptr_mem {s : StackState} {i : Nat} {v : Local Lptr} (h : s.lptrs[i]? = some v) :
    heldLptr v ∈ s.locals :=
  mem_locals.mpr (.inl ⟨v, List.mem_of_getElem? h, rfl⟩)

theorem heldLaptr_mem {s : StackState} {i : Nat} {v : Local Laptr}
    (h : s.laptrs[i]? = some v) : heldLaptr v ∈ s.locals :=
  mem_locals.mpr (.inr ⟨v, List.mem_of_getElem? h, rfl⟩)

end StackState

/-- The receiver and the source of an assignment. -/
def assigned (s : StackState) : LocalOp → Option (Held × Held)
  | .lptrAssign i j =>
      s.lptrs[i]?.bind fun v => s.lptrs[j]?.bind fun u => some (heldLptr v, heldLptr u)
  | .laptrAssign i j =>
      s.laptrs[i]?.bind fun v => s.laptrs[j]?.bind fun u => some (heldLaptr v, heldLaptr u)
  | _ => none

/-- The receiver `h` after an assignment from `o`. -/
def Held.assign (h o : Held) : Held := ⟨h.owner, o.data, assignTb h.tb o.tb⟩

/-- A new pointer `h` of the current frame: its bound is the stack pointer `sp`, its
address is valid or that of another live pointer, and its flag is set only for an
address below the stack pointer or known not to be on the stack. -/
structure NewLocal (limit : Word) (s t : StackState) (sp : Word) (h : Held) : Prop where
  frames : GETSP sp s.frames = some t.frames
  owner : h.owner = t.frames.length - 1
  bound : untag h.tb = untag sp
  data : validAddr limit s.frames h.data = true ∨ ∃ o ∈ s.locals, o.data = h.data
  flag : tagged h.tb = true → h.data < sp ∨ heapOrGlobal limit h.data = true
  locals : ∀ k ∈ t.locals, k ∈ s.locals ∨ k = h

/-- Everything a step can do. -/
inductive LocalEffect (limit : Word) (s : StackState) (op : LocalOp) (t : StackState) : Prop
  | call (lo hi : Word) (ops : assigned s op = none) (above : limit ≤ lo) (range : lo ≤ hi)
      (below : belowTop hi s.frames)
      (frames : t.frames = ⟨lo, hi, lo⟩ :: s.frames) (locals : t.locals = s.locals)
  | ret (f : Frame) (ops : assigned s op = none) (frames : s.frames = f :: t.frames)
      (locals : ∀ h ∈ t.locals, h ∈ s.locals ∧ h.owner < t.frames.length)
  | new (sp : Word) (h : Held) (ops : assigned s op = none) (new : NewLocal limit s t sp h)
  | assign (h o : Held) (ops : assigned s op = some (h, o)) (receiver : h ∈ s.locals)
      (source : o ∈ s.locals) (check : assignCheck h.tb o.data o.tb = true)
      (frames : t.frames = s.frames)
      (locals : ∀ k ∈ t.locals, k ∈ s.locals ∨ k = h.assign o) (result : h.assign o ∈ t.locals)

namespace StackState

variable {s : StackState} {fs : List Frame}

theorem mem_locals_newLptr {p : Lptr} {k : Held} (h : k ∈ (s.newLptr fs p).locals) :
    k ∈ s.locals ∨ k = ⟨fs.length - 1, p.data, p.tb⟩ := by
  rcases mem_locals.mp h with ⟨v, hv, rfl⟩ | ⟨v, hv, rfl⟩
  · rcases List.mem_append.mp hv with hv | hv
    · exact .inl (mem_locals.mpr (.inl ⟨v, hv, rfl⟩))
    · rw [List.mem_singleton.mp hv]
      exact .inr rfl
  · exact .inl (mem_locals.mpr (.inr ⟨v, hv, rfl⟩))

theorem mem_locals_newLaptr {p : Laptr} {k : Held} (h : k ∈ (s.newLaptr fs p).locals) :
    k ∈ s.locals ∨ k = ⟨fs.length - 1, p.data, p.tb⟩ := by
  rcases mem_locals.mp h with ⟨v, hv, rfl⟩ | ⟨v, hv, rfl⟩
  · exact .inl (mem_locals.mpr (.inl ⟨v, hv, rfl⟩))
  · rcases List.mem_append.mp hv with hv | hv
    · exact .inl (mem_locals.mpr (.inr ⟨v, hv, rfl⟩))
    · rw [List.mem_singleton.mp hv]
      exact .inr rfl

end StackState

/-- A stack pointer that `GETSP` read is word-aligned, so its low bit is clear. -/
theorem GETSP_not_tagged {sp : Word} {fs fs' : List Frame} (h : GETSP sp fs = some fs') :
    tagged sp = false := by
  cases fs with
  | nil => contradiction
  | cons f fs =>
      obtain ⟨⟨hal, -⟩, -⟩ := Option.ite_none_right_eq_some.mp h
      rw [not_tagged_iff (by omega)]
      omega

/-- A `laptr` in the current frame lies above the stack pointer, so its constructors
leave the flag clear. -/
theorem GETSP_le_of_inTop {sp this : Word} {fs fs' : List Frame} (h : GETSP sp fs = some fs')
    (hthis : inTop this fs = true) : sp ≤ this := by
  cases fs with
  | nil => contradiction
  | cons f fs =>
      obtain ⟨⟨-, hlo⟩, -⟩ := Option.ite_none_right_eq_some.mp h
      exact BitVec.le_trans hlo (Frame.contains_iff.mp hthis).1

/-- A constructor of `lptr` that looks at the address. -/
theorem NewLocal.of_newLptr {limit sp : Word} {s : StackState} {fs : List Frame}
    (hfs : GETSP sp s.frames = some fs) (a : Word)
    (hdata : validAddr limit s.frames a = true ∨ ∃ o ∈ s.locals, o.data = a) :
    NewLocal limit s (s.newLptr fs (.ofData sp a)) sp
      ⟨fs.length - 1, a, (Lptr.ofData sp a).tb⟩ where
  frames := hfs
  owner := rfl
  bound := Lptr.ofData_bound sp a
  data := hdata
  flag h := .inl (Lptr.ofData_notOnStack (GETSP_not_tagged hfs) h)
  locals _ hk := StackState.mem_locals_newLptr hk

/-- A constructor of `laptr`, for a `laptr` in the current frame. -/
theorem NewLocal.of_newLaptr {limit sp this : Word} {s : StackState} {fs : List Frame}
    (hfs : GETSP sp s.frames = some fs) (hthis : inTop this s.frames = true)
    (a size index : Word)
    (hdata : validAddr limit s.frames a = true ∨ ∃ o ∈ s.locals, o.data = a) :
    NewLocal limit s (s.newLaptr fs (.ofDataIndex sp this a size index)) sp
      ⟨fs.length - 1, a, Laptr.checkStackBoundGlobal sp this⟩ where
  frames := hfs
  owner := rfl
  bound := Laptr.untag_checkStackBoundGlobal sp this
  data := hdata
  flag h := by
    rw [Laptr.checkStackBoundGlobal_of_le (GETSP_le_of_inTop hfs hthis),
      GETSP_not_tagged hfs] at h
    contradiction
  locals _ hk := StackState.mem_locals_newLaptr hk

/-- Default construction, the same in both classes: null, and `tb` just the stack
pointer. -/
theorem NewLocal.of_null {limit sp : Word} {s t : StackState}
    (hfs : GETSP sp s.frames = some t.frames)
    (hlocals : ∀ k ∈ t.locals, k ∈ s.locals ∨ k = ⟨t.frames.length - 1, 0, sp⟩) :
    NewLocal limit s t sp ⟨t.frames.length - 1, 0, sp⟩ where
  frames := hfs
  owner := rfl
  bound := rfl
  data := .inl (by simp [validAddr, heapOrGlobal])
  flag _ := .inr (by simp [heapOrGlobal])
  locals := hlocals

/-- What one operation does. -/
theorem localStep_effect {limit : Word} {s t : StackState} {op : LocalOp}
    (h : localStep limit s op = some t) : LocalEffect limit s op t := by
  cases op with
  | call lo hi =>
      obtain ⟨⟨habove, hrange, hbelow⟩, ht⟩ := Option.ite_none_right_eq_some.mp h
      cases ht
      exact .call lo hi rfl habove hrange hbelow rfl rfl
  | ret =>
      obtain ⟨frames, lptrs, laptrs⟩ := s
      cases frames with
      | nil => contradiction
      | cons f fs =>
          cases h
          refine .ret f rfl rfl fun k hk => ?_
          rcases StackState.mem_locals.mp hk with ⟨v, hv, rfl⟩ | ⟨v, hv, rfl⟩
          · obtain ⟨hv, hlt⟩ := List.mem_filter.mp hv
            exact ⟨StackState.mem_locals.mpr (.inl ⟨v, hv, rfl⟩), of_decide_eq_true hlt⟩
          · obtain ⟨hv, hlt⟩ := List.mem_filter.mp hv
            exact ⟨StackState.mem_locals.mpr (.inr ⟨v, hv, rfl⟩), of_decide_eq_true hlt⟩
  | lptrNull sp =>
      obtain ⟨fs, hfs, ht⟩ := Option.bind_eq_some_iff.mp h
      cases ht
      exact .new sp _ rfl (.of_null hfs fun _ hk => StackState.mem_locals_newLptr hk)
  | lptrOfData sp a =>
      obtain ⟨ha, h⟩ := Option.ite_none_right_eq_some.mp h
      obtain ⟨fs, hfs, ht⟩ := Option.bind_eq_some_iff.mp h
      cases ht
      exact .new sp _ rfl (.of_newLptr hfs a (.inl ha))
  | lptrCopy sp i =>
      obtain ⟨v, hi, h⟩ := Option.bind_eq_some_iff.mp h
      obtain ⟨fs, hfs, ht⟩ := Option.bind_eq_some_iff.mp h
      cases ht
      exact .new sp _ rfl
        (.of_newLptr hfs v.ptr.data (.inr ⟨_, StackState.heldLptr_mem hi, rfl⟩))
  | lptrAssign i j =>
      obtain ⟨v, hi, h⟩ := Option.bind_eq_some_iff.mp h
      obtain ⟨u, hj, h⟩ := Option.bind_eq_some_iff.mp h
      obtain ⟨q, hq, ht⟩ := Option.bind_eq_some_iff.mp h
      cases ht
      obtain ⟨hcheck, rfl⟩ := Lptr.assign_eq_some.mp hq
      refine .assign (heldLptr v) (heldLptr u) (by simp [assigned, hi, hj])
        (StackState.heldLptr_mem hi) (StackState.heldLptr_mem hj) hcheck rfl ?_ ?_
      · intro k hk
        rcases StackState.mem_locals.mp hk with ⟨w, hw, rfl⟩ | ⟨w, hw, rfl⟩
        · rcases List.mem_or_eq_of_mem_set hw with hw | rfl
          · exact .inl (StackState.mem_locals.mpr (.inl ⟨w, hw, rfl⟩))
          · exact .inr rfl
        · exact .inl (StackState.mem_locals.mpr (.inr ⟨w, hw, rfl⟩))
      · obtain ⟨hlt, -⟩ := List.getElem?_eq_some_iff.mp hi
        exact StackState.mem_locals.mpr (.inl ⟨_, List.mem_set hlt _, rfl⟩)
  | laptrNull sp =>
      obtain ⟨fs, hfs, ht⟩ := Option.bind_eq_some_iff.mp h
      cases ht
      exact .new sp _ rfl (.of_null hfs fun _ hk => StackState.mem_locals_newLaptr hk)
  | laptrOfData sp this a size index =>
      obtain ⟨⟨ha, hthis⟩, h⟩ := Option.ite_none_right_eq_some.mp h
      obtain ⟨fs, hfs, ht⟩ := Option.bind_eq_some_iff.mp h
      cases ht
      exact .new sp _ rfl (.of_newLaptr hfs hthis a size index (.inl ha))
  | laptrCopy sp this i =>
      obtain ⟨v, hi, h⟩ := Option.bind_eq_some_iff.mp h
      obtain ⟨hthis, h⟩ := Option.ite_none_right_eq_some.mp h
      obtain ⟨fs, hfs, ht⟩ := Option.bind_eq_some_iff.mp h
      cases ht
      exact .new sp _ rfl (.of_newLaptr hfs hthis v.ptr.data v.ptr.size v.ptr.index
        (.inr ⟨_, StackState.heldLaptr_mem hi, rfl⟩))
  | laptrAssign i j =>
      obtain ⟨v, hi, h⟩ := Option.bind_eq_some_iff.mp h
      obtain ⟨u, hj, h⟩ := Option.bind_eq_some_iff.mp h
      obtain ⟨q, hq, ht⟩ := Option.bind_eq_some_iff.mp h
      cases ht
      obtain ⟨hcheck, rfl⟩ := Laptr.assign_eq_some.mp hq
      refine .assign (heldLaptr v) (heldLaptr u) (by simp [assigned, hi, hj])
        (StackState.heldLaptr_mem hi) (StackState.heldLaptr_mem hj) hcheck rfl ?_ ?_
      · intro k hk
        rcases StackState.mem_locals.mp hk with ⟨w, hw, rfl⟩ | ⟨w, hw, rfl⟩
        · exact .inl (StackState.mem_locals.mpr (.inl ⟨w, hw, rfl⟩))
        · rcases List.mem_or_eq_of_mem_set hw with hw | rfl
          · exact .inl (StackState.mem_locals.mpr (.inr ⟨w, hw, rfl⟩))
          · exact .inr rfl
      · obtain ⟨hlt, -⟩ := List.getElem?_eq_some_iff.mp hi
        exact StackState.mem_locals.mpr (.inr ⟨_, List.mem_set hlt _, rfl⟩)

end Ironclad.Pointers
