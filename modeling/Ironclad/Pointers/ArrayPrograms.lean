import Ironclad.Logic.Cells
import Ironclad.Logic.Related
import Ironclad.Pointers.Displacement
import Ironclad.Pointers.SpatialSafety

/-!
# Programs that load and store through array pointers

A program makes `aptr`s, copies, assigns and moves them, and loads and stores elements through
`*` and `[]`. It runs on the memory: a pointer is an address, an index and a size, and an element
is the bytes at an address.

The same program can be read without addresses. There an array is a sequence of elements of its
own, a pointer names an array and a place in it, and an access to a place that the array does not
have stops the program. This module has both readings; that they agree is shown in the next one.
-/

namespace Ironclad.Pointers

open Ironclad.Logic

/-! ## The operations -/

/-- What a program does. The block of an allocation, the elements it is made with and the element
stored are the environment's choice. `none` stands for `*`, `some k` for `[k]`. -/
inductive AptrAction where
  | null (ty : CType)
  | new_array (r : Root) (init : Nat → Nat → BitVec 8)
  | copy (i : Nat)
  | assign (i j : Nat)
  | move (i : Nat) (m : Move)
  | load (i : Nat) (k : Option (BitVec 32))
  | store (i : Nat) (k : Option (BitVec 32)) (x : Nat → BitVec 8)

/-! ## On the memory -/

/-- The bytes of a block. -/
def Root.region (r : Root) : Region 64 := ⟨r.base, r.count.toNat * r.ty.sizeof.toNat⟩

/-- The bytes of the elements one after the other. -/
def Root.bytes (r : Root) (init : Nat → Nat → BitVec 8) (i : Nat) : BitVec 8 :=
  init (i / r.ty.sizeof.toNat) (i % r.ty.sizeof.toNat)

/-- The blocks that exist, the variables, the memory and the elements loaded so far. -/
structure AptrState where
  roots : List Root
  aptrs : List (Typed Aptr)
  memory : Memory 64
  loaded : List (List (BitVec 8))

/-- The address that `*p` or `p[k]` gives, `none` when the assertion fails. -/
def Aptr.accessed (sizeofT : Word) (p : Aptr) : Option (BitVec 32) → Option Word
  | none => p.deref sizeofT
  | some k => p.subscript sizeofT k

/-- One operation; `none` is a failed assertion, or an operation on variables that do not exist or
have different element types. -/
def aptrStateStep (s : AptrState) : AptrAction → Option AptrState
  | .null ty => some { s with aptrs := s.aptrs ++ [⟨ty, .null⟩] }
  | .new_array r init =>
      some { s with
        roots := s.roots ++ [r]
        aptrs := s.aptrs ++ [⟨r.ty, .new_array r.base r.count⟩]
        memory := s.memory.write r.base (r.count.toNat * r.ty.sizeof.toNat) (r.bytes init) }
  | .copy i => s.aptrs[i]?.bind fun v => some { s with aptrs := s.aptrs ++ [⟨v.ty, .copy v.ptr⟩] }
  | .assign i j =>
      s.aptrs[i]?.bind fun v => s.aptrs[j]?.bind fun u =>
        if u.ty = v.ty then some { s with aptrs := s.aptrs.set i ⟨v.ty, v.ptr.assign u.ptr⟩ }
        else none
  | .move i m =>
      s.aptrs[i]?.bind fun v =>
        some { s with
          aptrs := s.aptrs.set i ⟨v.ty, (v.ptr.move m).1⟩ ++ [⟨v.ty, (v.ptr.move m).2⟩] }
  | .load i k =>
      s.aptrs[i]?.bind fun v => (v.ptr.accessed v.ty.sizeof k).bind fun a =>
        some { s with
          loaded := s.loaded ++ [List.ofFn fun j : Fin v.ty.sizeof.toNat => s.memory.byte a j] }
  | .store i k x =>
      s.aptrs[i]?.bind fun v => (v.ptr.accessed v.ty.sizeof k).bind fun a =>
        some { s with memory := s.memory.write a v.ty.sizeof.toNat x }

/-- Programs on a memory. -/
def aptrProgram (memory : Memory 64) : Machine AptrState AptrAction :=
  ⟨⟨[], [], memory, []⟩, aptrStateStep⟩

/-- What an allocator promises: the block has room for its elements in front of the end of the
address space and shares no byte with another one, and an object has a size. -/
def FreshBlock (s : AptrState) : AptrAction → Prop
  | .new_array r _ =>
      r.ty.sizeof ≠ 0 ∧ r.base.toNat + r.count.toNat * r.ty.sizeof.toNat < 2 ^ 64 ∧
        ∀ q ∈ s.roots, r.region.Apart q.region
  | _ => True

/-! ## Without addresses -/

/-- An array: the bytes of each of its elements. -/
structure ArrayValue where
  ty : CType
  count : Nat
  elems : Nat → Nat → BitVec 8

/-- The array with another element `e`. -/
def ArrayValue.put (a : ArrayValue) (e : Nat) (x : Nat → BitVec 8) : ArrayValue :=
  { a with elems := Function.update a.elems e x }

/-- A pointer into an array, or to nothing. -/
structure Cursor where
  ty : CType
  array : Option Nat
  offset : Word

structure ArrayState where
  arrays : List ArrayValue
  cursors : List Cursor
  loaded : List (List (BitVec 8))

/-- How far an operator moves the pointer it is applied to, and how far its result lies from
where the pointer was. -/
def Move.shifts : Move → Word × Word
  | .preInc => (1, 1)
  | .postInc => (1, 0)
  | .preDec => (-1, -1)
  | .postDec => (-1, 0)
  | .addAssign op => (ofInt op, ofInt op)
  | .subAssign op => (-ofInt op, -ofInt op)
  | .sub diff => (0, -diff)
  | .add diff => (0, diff)
  | .offset index => (0, ofUnsigned index)

def Cursor.shift (c : Cursor) (n : Word) : Cursor := { c with offset := c.offset + n }

/-- Which element of which array the cursor is at, when it is moved by a subscript. -/
def Cursor.located (arrays : List ArrayValue) (c : Cursor) (k : Option (BitVec 32)) :
    Option (Nat × ArrayValue × Nat) :=
  c.array.bind fun n => arrays[n]?.bind fun a =>
    let place := (c.offset + (k.map ofInt).getD 0).toInt
    if 0 ≤ place ∧ place < a.count then some (n, a, place.toNat) else none

/-- One operation; `none` is an access to an element that does not exist, or an operation on
variables that do not exist or have different element types. -/
def arrayStateStep (s : ArrayState) : AptrAction → Option ArrayState
  | .null ty => some { s with cursors := s.cursors ++ [⟨ty, none, 0⟩] }
  | .new_array r init =>
      some { s with
        arrays := s.arrays ++ [⟨r.ty, r.count.toNat, init⟩]
        cursors := s.cursors ++ [⟨r.ty, some s.arrays.length, 0⟩] }
  | .copy i => s.cursors[i]?.bind fun c => some { s with cursors := s.cursors ++ [c] }
  | .assign i j =>
      s.cursors[i]?.bind fun c => s.cursors[j]?.bind fun d =>
        if d.ty = c.ty then some { s with cursors := s.cursors.set i d } else none
  | .move i m =>
      s.cursors[i]?.bind fun c =>
        some { s with cursors := s.cursors.set i (c.shift m.shifts.1) ++ [c.shift m.shifts.2] }
  | .load i k =>
      s.cursors[i]?.bind fun c => (c.located s.arrays k).bind fun (_, a, e) =>
        some { s with
          loaded := s.loaded ++ [List.ofFn fun j : Fin c.ty.sizeof.toNat => a.elems e j] }
  | .store i k x =>
      s.cursors[i]?.bind fun c => (c.located s.arrays k).bind fun (n, a, e) =>
        some { s with arrays := s.arrays.set n (a.put e x) }

/-- Programs on arrays. -/
def arrayProgram : Machine ArrayState AptrAction := ⟨⟨[], [], []⟩, arrayStateStep⟩

end Ironclad.Pointers
