import Ironclad.Pointers.Array

/-!
# Programs over array pointers

A program state is the array-pointer variables it has made, with the root
allocations they came from. A root is what `new_array` and a `safe::array` give:
a block of `count` elements that exists in memory. One operation changes a
variable or makes a new one; operations that return a pointer by value append it
as a new variable. The stack pointer and the address of a new `laptr`, which only
its `tb` depends on, are the environment's choice.

What matters about a variable is its *extent*: element type, address and size.
`arrayStep_aptrs` and `arrayStep_laptrs` say where the extent of every variable
after a step comes from; the invariants are derived from them.
-/

namespace Ironclad.Pointers

/-- A root allocation: `count` elements of type `ty` at `base`, all of them in
the address space. -/
structure Root where
  ty : CType
  base : Word
  count : Word
  base_ne_zero : base ≠ 0
  count_lt : count.toNat < 2 ^ 63
  fits : base.toNat + count.toNat * ty.sizeof.toNat ≤ 2 ^ 64

/-- A variable of a pointer class over an element type. -/
structure Typed (P : Type) where
  ty : CType
  ptr : P
  deriving DecidableEq, Repr

/-- Element type, address and size. -/
structure Extent where
  ty : CType
  data : Word
  size : Word
  deriving DecidableEq, Repr

def Root.extent (r : Root) : Extent := ⟨r.ty, r.base, r.count⟩

def aptrExtent (v : Typed Aptr) : Extent := ⟨v.ty, v.ptr.data, v.ptr.size⟩

def laptrExtent (v : Typed Laptr) : Extent := ⟨v.ty, v.ptr.data, v.ptr.size⟩

structure Vars where
  roots : List Root
  aptrs : List (Typed Aptr)
  laptrs : List (Typed Laptr)

/-! ## Index arithmetic, the same operators in both classes -/

/-- The operators that change an index or make a pointer with another index. -/
inductive Move where
  | preInc | postInc | preDec | postDec
  | addAssign (op : BitVec 32)
  | subAssign (op : BitVec 32)
  | sub (diff : Word)
  | add (diff : Word)
  | offset (index : BitVec 32)
  deriving DecidableEq, Repr

/-- The pointer after the operator, and the operator's result. -/
def Aptr.move (p : Aptr) : Move → Aptr × Aptr
  | .preInc => (p.preInc, p.preInc)
  | .postInc => p.postInc
  | .preDec => (p.preDec, p.preDec)
  | .postDec => p.postDec
  | .addAssign op => (p.addAssign op, p.addAssign op)
  | .subAssign op => (p.subAssign op, p.subAssign op)
  | .sub diff => (p, p.sub diff)
  | .add diff => (p, p.add diff)
  | .offset index => (p, p.offset index)

/-- The pointer after the operator, and the operator's result. -/
def Laptr.move (sp this : Word) (p : Laptr) : Move → Laptr × Laptr
  | .preInc => (p.preInc, p.preInc)
  | .postInc => p.postInc sp this
  | .preDec => (p.preDec, p.preDec)
  | .postDec => p.postDec sp this
  | .addAssign op => (p.addAssign op, p.addAssign op)
  | .subAssign op => (p.subAssign op, p.subAssign op)
  | .sub diff => (p, p.sub sp this diff)
  | .add diff => (p, p.add sp this diff)
  | .offset index => (p, p.offset sp this index)

/-- No operator changes the address or the size, of the pointer or of its result. -/
theorem Aptr.move_extent (ty : CType) (p : Aptr) (m : Move) :
    aptrExtent ⟨ty, (p.move m).1⟩ = aptrExtent ⟨ty, p⟩ ∧
      aptrExtent ⟨ty, (p.move m).2⟩ = aptrExtent ⟨ty, p⟩ := by
  cases m <;> exact ⟨rfl, rfl⟩

theorem Laptr.move_extent (sp this : Word) (ty : CType) (p : Laptr) (m : Move) :
    laptrExtent ⟨ty, (p.move sp this m).1⟩ = laptrExtent ⟨ty, p⟩ ∧
      laptrExtent ⟨ty, (p.move sp this m).2⟩ = laptrExtent ⟨ty, p⟩ := by
  cases m <;> exact ⟨rfl, rfl⟩

/-! ## Operations -/

inductive ArrayOp where
  | aptrNull (ty : CType)
  | laptrNull (ty : CType) (sp : Word)
  | newArray (r : Root)
  | arrayToLaptr (r : Root) (sp this : Word)
  | aptrCopy (i : Nat)
  | laptrCopy (i : Nat) (sp this : Word)
  | aptrAssign (i j : Nat)
  | laptrAssign (i j : Nat)
  | aptrMove (i : Nat) (m : Move)
  | laptrMove (i : Nat) (m : Move) (sp this : Word)
  | toLaptr (i : Nat) (sp this : Word)
  | from_laptr (i j : Nat)

namespace Vars

def empty : Vars := ⟨[], [], []⟩

def pushAptr (s : Vars) (ty : CType) (p : Aptr) : Vars :=
  { s with aptrs := s.aptrs ++ [⟨ty, p⟩] }

def pushLaptr (s : Vars) (ty : CType) (p : Laptr) : Vars :=
  { s with laptrs := s.laptrs ++ [⟨ty, p⟩] }

def setAptr (s : Vars) (i : Nat) (ty : CType) (p : Aptr) : Vars :=
  { s with aptrs := s.aptrs.set i ⟨ty, p⟩ }

def setLaptr (s : Vars) (i : Nat) (ty : CType) (p : Laptr) : Vars :=
  { s with laptrs := s.laptrs.set i ⟨ty, p⟩ }

def addRoot (s : Vars) (r : Root) : Vars := { s with roots := r :: s.roots }

end Vars

/-- One operation. `none` is a failed assertion, or an operation on variables that
do not exist or have different element types. -/
def arrayStep (s : Vars) : ArrayOp → Option Vars
  | .aptrNull ty => some (s.pushAptr ty .null)
  | .laptrNull ty sp => some (s.pushLaptr ty (.null sp))
  | .newArray r => some ((s.addRoot r).pushAptr r.ty (.new_array r.base r.count))
  | .arrayToLaptr r sp this =>
      some ((s.addRoot r).pushLaptr r.ty (SafeArray.toLaptr sp this ⟨r.base, r.count⟩))
  | .aptrCopy i => s.aptrs[i]?.bind fun v => some (s.pushAptr v.ty (.copy v.ptr))
  | .laptrCopy i sp this =>
      s.laptrs[i]?.bind fun v => some (s.pushLaptr v.ty (.copy sp this v.ptr))
  | .aptrAssign i j =>
      s.aptrs[i]?.bind fun v => s.aptrs[j]?.bind fun u =>
        if u.ty = v.ty then some (s.setAptr i v.ty (v.ptr.assign u.ptr)) else none
  | .laptrAssign i j =>
      s.laptrs[i]?.bind fun v => s.laptrs[j]?.bind fun u =>
        if u.ty = v.ty then (v.ptr.assign u.ptr).bind fun q => some (s.setLaptr i v.ty q)
        else none
  | .aptrMove i m =>
      s.aptrs[i]?.bind fun v =>
        some ((s.setAptr i v.ty (v.ptr.move m).1).pushAptr v.ty (v.ptr.move m).2)
  | .laptrMove i m sp this =>
      s.laptrs[i]?.bind fun v =>
        some ((s.setLaptr i v.ty (v.ptr.move sp this m).1).pushLaptr v.ty
          (v.ptr.move sp this m).2)
  | .toLaptr i sp this =>
      s.aptrs[i]?.bind fun v => some (s.pushLaptr v.ty (v.ptr.toLaptr sp this))
  | .from_laptr i j =>
      s.aptrs[i]?.bind fun v => s.laptrs[j]?.bind fun u =>
        if u.ty = v.ty then (v.ptr.from_laptr u.ptr).bind fun q => some (s.setAptr i v.ty q)
        else none

/-! ## Where the extents come from -/

/-- The extent of a fresh pointer: null and empty, or a whole root. -/
def Fresh (roots : List Root) (e : Extent) : Prop :=
  (e.data = 0 ∧ e.size = 0) ∨ ∃ r ∈ roots, r.extent = e

def OfAptr (s : Vars) (e : Extent) : Prop := ∃ u ∈ s.aptrs, aptrExtent u = e

def OfLaptr (s : Vars) (e : Extent) : Prop := ∃ u ∈ s.laptrs, laptrExtent u = e

/-- Everything a step can do to the extents. -/
structure Effect (s : Vars) (op : ArrayOp) (t : Vars) : Prop where
  roots : s.roots ⊆ t.roots
  aptrs : ∀ v ∈ t.aptrs, OfAptr s (aptrExtent v) ∨ Fresh t.roots (aptrExtent v) ∨
    ∃ i j u, op = .from_laptr i j ∧ s.laptrs[j]? = some u ∧ laptrExtent u = aptrExtent v
  laptrs : ∀ v ∈ t.laptrs,
    OfAptr s (laptrExtent v) ∨ OfLaptr s (laptrExtent v) ∨ Fresh t.roots (laptrExtent v)

namespace Vars

variable {s : Vars} {i : Nat} {ty : CType}

theorem mem_pushAptr {p : Aptr} {v : Typed Aptr} (h : v ∈ (s.pushAptr ty p).aptrs) :
    v ∈ s.aptrs ∨ v = ⟨ty, p⟩ := by
  simpa [pushAptr] using h

theorem mem_pushLaptr {p : Laptr} {v : Typed Laptr} (h : v ∈ (s.pushLaptr ty p).laptrs) :
    v ∈ s.laptrs ∨ v = ⟨ty, p⟩ := by
  simpa [pushLaptr] using h

theorem mem_setAptr {p : Aptr} {v : Typed Aptr} (h : v ∈ (s.setAptr i ty p).aptrs) :
    v ∈ s.aptrs ∨ v = ⟨ty, p⟩ :=
  List.mem_or_eq_of_mem_set h

theorem mem_setLaptr {p : Laptr} {v : Typed Laptr} (h : v ∈ (s.setLaptr i ty p).laptrs) :
    v ∈ s.laptrs ∨ v = ⟨ty, p⟩ :=
  List.mem_or_eq_of_mem_set h

theorem mem_setAptr_self {v : Typed Aptr} (hi : s.aptrs[i]? = some v) (ty : CType) (p : Aptr) :
    (⟨ty, p⟩ : Typed Aptr) ∈ (s.setAptr i ty p).aptrs := by
  obtain ⟨hlt, -⟩ := List.getElem?_eq_some_iff.mp hi
  exact List.mem_set hlt _

theorem mem_setLaptr_self {v : Typed Laptr} (hi : s.laptrs[i]? = some v) (ty : CType)
    (p : Laptr) : (⟨ty, p⟩ : Typed Laptr) ∈ (s.setLaptr i ty p).laptrs := by
  obtain ⟨hlt, -⟩ := List.getElem?_eq_some_iff.mp hi
  exact List.mem_set hlt _

end Vars

/-- A step that makes or changes `aptr`s of one extent `e` only. -/
theorem Effect.of_aptr {s t : Vars} {op : ArrayOp} {e : Extent} (hroots : s.roots ⊆ t.roots)
    (hlaptrs : t.laptrs = s.laptrs)
    (hmem : ∀ v ∈ t.aptrs, v ∈ s.aptrs ∨ aptrExtent v = e)
    (he : OfAptr s e ∨ Fresh t.roots e ∨
      ∃ i j u, op = .from_laptr i j ∧ s.laptrs[j]? = some u ∧ laptrExtent u = e) :
    Effect s op t where
  roots := hroots
  aptrs v hv := by
    rcases hmem v hv with hs | rfl
    · exact .inl ⟨v, hs, rfl⟩
    · exact he
  laptrs v hv := .inr (.inl ⟨v, hlaptrs ▸ hv, rfl⟩)

/-- A step that makes or changes `laptr`s of one extent `e` only. -/
theorem Effect.of_laptr {s t : Vars} {op : ArrayOp} {e : Extent} (hroots : s.roots ⊆ t.roots)
    (haptrs : t.aptrs = s.aptrs)
    (hmem : ∀ v ∈ t.laptrs, v ∈ s.laptrs ∨ laptrExtent v = e)
    (he : OfAptr s e ∨ OfLaptr s e ∨ Fresh t.roots e) : Effect s op t where
  roots := hroots
  aptrs v hv := .inl ⟨v, haptrs ▸ hv, rfl⟩
  laptrs v hv := by
    rcases hmem v hv with hs | rfl
    · exact .inr (.inl ⟨v, hs, rfl⟩)
    · exact he

/-- **What one operation can do**: the roots only grow, and every extent is an old
one, a fresh one, or taken over from a `laptr` by `from_laptr`. -/
theorem arrayStep_effect {s t : Vars} {op : ArrayOp} (h : arrayStep s op = some t) :
    Effect s op t := by
  cases op with
  | aptrNull ty =>
      cases h
      exact .of_aptr (List.Subset.refl _) rfl
        (fun v hv => (Vars.mem_pushAptr hv).imp_right (congrArg aptrExtent))
        (.inr (.inl (.inl ⟨rfl, rfl⟩)))
  | laptrNull ty sp =>
      cases h
      exact .of_laptr (List.Subset.refl _) rfl
        (fun v hv => (Vars.mem_pushLaptr hv).imp_right (congrArg laptrExtent))
        (.inr (.inr (.inl ⟨rfl, rfl⟩)))
  | newArray r =>
      cases h
      exact .of_aptr (List.subset_cons_self r s.roots) rfl
        (fun v hv => (Vars.mem_pushAptr hv).imp_right (congrArg aptrExtent))
        (.inr (.inl (.inr ⟨r, List.mem_cons_self, rfl⟩)))
  | arrayToLaptr r sp this =>
      cases h
      refine .of_laptr (List.subset_cons_self r s.roots) rfl
        (fun v hv => (Vars.mem_pushLaptr hv).imp_right (congrArg laptrExtent))
        (.inr (.inr (.inr ⟨r, List.mem_cons_self, ?_⟩)))
      rw [laptrExtent, SafeArray.toLaptr_data, SafeArray.toLaptr_size, Root.extent]
  | aptrCopy i =>
      obtain ⟨v, hi, hv⟩ := Option.bind_eq_some_iff.mp h
      cases hv
      exact .of_aptr (List.Subset.refl _) rfl
        (fun w hw => (Vars.mem_pushAptr hw).imp_right (congrArg aptrExtent))
        (.inl ⟨v, List.mem_of_getElem? hi, rfl⟩)
  | laptrCopy i sp this =>
      obtain ⟨v, hi, hv⟩ := Option.bind_eq_some_iff.mp h
      cases hv
      exact .of_laptr (List.Subset.refl _) rfl
        (fun w hw => (Vars.mem_pushLaptr hw).imp_right (congrArg laptrExtent))
        (.inr (.inl ⟨v, List.mem_of_getElem? hi, rfl⟩))
  | aptrAssign i j =>
      obtain ⟨v, hi, hv⟩ := Option.bind_eq_some_iff.mp h
      obtain ⟨u, hj, hu⟩ := Option.bind_eq_some_iff.mp hv
      obtain ⟨hty, hu⟩ := Option.ite_none_right_eq_some.mp hu
      cases hu
      refine .of_aptr (List.Subset.refl _) rfl
        (fun w hw => (Vars.mem_setAptr hw).imp_right (congrArg aptrExtent))
        (.inl ⟨u, List.mem_of_getElem? hj, ?_⟩)
      rw [aptrExtent, hty]
      rfl
  | laptrAssign i j =>
      obtain ⟨v, hi, hv⟩ := Option.bind_eq_some_iff.mp h
      obtain ⟨u, hj, hu⟩ := Option.bind_eq_some_iff.mp hv
      obtain ⟨hty, hu⟩ := Option.ite_none_right_eq_some.mp hu
      obtain ⟨q, hq, hs⟩ := Option.bind_eq_some_iff.mp hu
      cases hs
      refine .of_laptr (List.Subset.refl _) rfl
        (fun w hw => (Vars.mem_setLaptr hw).imp_right (congrArg laptrExtent))
        (.inr (.inl ⟨u, List.mem_of_getElem? hj, ?_⟩))
      rw [(Laptr.assign_eq_some.mp hq).2, laptrExtent, hty]
      rfl
  | aptrMove i m =>
      obtain ⟨v, hi, hv⟩ := Option.bind_eq_some_iff.mp h
      cases hv
      obtain ⟨h1, h2⟩ := Aptr.move_extent v.ty v.ptr m
      refine .of_aptr (e := aptrExtent v) (List.Subset.refl _) rfl (fun w hw => ?_)
        (.inl ⟨v, List.mem_of_getElem? hi, rfl⟩)
      rcases Vars.mem_pushAptr hw with hw | rfl
      · exact (Vars.mem_setAptr hw).imp_right fun h => (congrArg aptrExtent h).trans h1
      · exact .inr h2
  | laptrMove i m sp this =>
      obtain ⟨v, hi, hv⟩ := Option.bind_eq_some_iff.mp h
      cases hv
      obtain ⟨h1, h2⟩ := Laptr.move_extent sp this v.ty v.ptr m
      refine .of_laptr (e := laptrExtent v) (List.Subset.refl _) rfl (fun w hw => ?_)
        (.inr (.inl ⟨v, List.mem_of_getElem? hi, rfl⟩))
      rcases Vars.mem_pushLaptr hw with hw | rfl
      · exact (Vars.mem_setLaptr hw).imp_right fun h => (congrArg laptrExtent h).trans h1
      · exact .inr h2
  | toLaptr i sp this =>
      obtain ⟨v, hi, hv⟩ := Option.bind_eq_some_iff.mp h
      cases hv
      exact .of_laptr (List.Subset.refl _) rfl
        (fun w hw => (Vars.mem_pushLaptr hw).imp_right (congrArg laptrExtent))
        (.inl ⟨v, List.mem_of_getElem? hi, rfl⟩)
  | from_laptr i j =>
      obtain ⟨v, hi, hv⟩ := Option.bind_eq_some_iff.mp h
      obtain ⟨u, hj, hu⟩ := Option.bind_eq_some_iff.mp hv
      obtain ⟨hty, hu⟩ := Option.ite_none_right_eq_some.mp hu
      obtain ⟨q, hq, hs⟩ := Option.bind_eq_some_iff.mp hu
      cases hs
      refine .of_aptr (List.Subset.refl _) rfl
        (fun w hw => (Vars.mem_setAptr hw).imp_right (congrArg aptrExtent))
        (.inr (.inr ⟨i, j, u, rfl, hj, ?_⟩))
      rw [(Aptr.from_laptr_eq_some.mp hq).2, laptrExtent, hty]
      rfl

end Ironclad.Pointers
