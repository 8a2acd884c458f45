import Ironclad.Logic.Machine
import Ironclad.Pointers.ArrayVars
import Ironclad.Pointers.Casts

/-!
# Is a null array pointer empty?

`common.hpp` leaves `ARRAY_NULL_CHECK` empty because "a null aptr always has
size == 0". `free` and the generic `cast` break this: both can make the address
null and keep the size. `aptrMachine_nullEmpty_iff` says exactly which runs keep
the promise.
-/

namespace Ironclad.Pointers

open Ironclad.Logic

/-- All operations of programs over `aptr`, with `free` and the casts. -/
inductive AptrOp where
  | array (op : ArrayOp)
  | free (i : Nat)
  | castPrim (i : Nat) (U : Prim)
  | castDynamic (i : Nat) (id : Nat) (size result : Word)
  | laptrCastPrim (i : Nat) (U : Prim) (sp this : Word)
  | laptrCastDynamic (i : Nat) (id : Nat) (size result sp this : Word)

/-- What is known of `dynamic_cast`: a null address gives null. -/
def dynamicCastOk (data result : Word) : Prop := data = 0 → result = 0

instance (data result : Word) : Decidable (dynamicCastOk data result) :=
  inferInstanceAs (Decidable (_ → _))

/-- One operation. The specialised casts are those between primitive types, the
generic one is for classes. -/
def aptrStep (s : Vars) : AptrOp → Option Vars
  | .array op => arrayStep s op
  | .free i => s.aptrs[i]?.bind fun v => some (s.setAptr i v.ty v.ptr.free)
  | .castPrim i U =>
      s.aptrs[i]?.bind fun v =>
        match v.ty with
        | .prim T => (v.ptr.castPrim T U).bind fun q => some (s.pushAptr (.prim U) q)
        | .cls _ _ => none
  | .castDynamic i id size result =>
      s.aptrs[i]?.bind fun v =>
        match v.ty with
        | .prim _ => none
        | .cls _ _ =>
            if dynamicCastOk v.ptr.data result then
              some (s.pushAptr (.cls id size) (v.ptr.castDynamic result))
            else none
  | .laptrCastPrim i U sp this =>
      s.laptrs[i]?.bind fun v =>
        match v.ty with
        | .prim T => (v.ptr.castPrim sp this T U).bind fun q => some (s.pushLaptr (.prim U) q)
        | .cls _ _ => none
  | .laptrCastDynamic i id size result sp this =>
      s.laptrs[i]?.bind fun v =>
        match v.ty with
        | .prim _ => none
        | .cls _ _ =>
            if dynamicCastOk v.ptr.data result then
              some (s.pushLaptr (.cls id size) (v.ptr.castDynamic sp this result))
            else none

def aptrMachine : Machine Vars AptrOp := ⟨.empty, aptrStep⟩

/-- Null means empty, for every `aptr`; so its checks alone reject every
dereference of a null `aptr`. -/
structure NullEmpty (s : Vars) : Prop where
  size_zero : ∀ v ∈ s.aptrs, v.ptr.data = 0 → v.ptr.size = 0
  deref_rejected : ∀ v ∈ s.aptrs, v.ptr.data = 0 → v.ptr.deref v.ty.sizeof = none
  subscript_rejected : ∀ v ∈ s.aptrs, v.ptr.data = 0 →
    ∀ i : BitVec 32, v.ptr.subscript v.ty.sizeof i = none

/-- The steps that keep null empty: only an empty pointer is freed, only an empty
pointer fails its `dynamic_cast`, and `from_laptr` takes a null address only from
an empty `laptr`. -/
def KeepsNullEmpty (s : Vars) : AptrOp → Prop
  | .free i => ∀ v, s.aptrs[i]? = some v → v.ptr.size = 0
  | .castDynamic i _ _ result =>
      result = 0 → ∀ v, s.aptrs[i]? = some v → v.ptr.size = 0
  | .array (.from_laptr _ j) =>
      ∀ u, s.laptrs[j]? = some u → u.ptr.data = 0 → u.ptr.size = 0
  | _ => True

/-- A check against size zero rejects everything, so the two parts of `NullEmpty`
about dereferences follow from the first. -/
theorem nullEmpty_iff {s : Vars} :
    NullEmpty s ↔ ∀ v ∈ s.aptrs, v.ptr.data = 0 → v.ptr.size = 0 := by
  refine ⟨NullEmpty.size_zero, fun h => ⟨h, fun v hv hd => ?_, fun v hv hd i => ?_⟩⟩
  · exact access_eq_none (by rw [h v hv hd, boundsCheck_zero])
  · exact access_eq_none (by rw [h v hv hd, boundsCheckIndex_eq, boundsCheck_zero])

/-- A fresh extent is not null unless it is empty. -/
theorem Fresh.size_eq_zero {roots : List Root} {e : Extent} (h : Fresh roots e)
    (hd : e.data = 0) : e.size = 0 := by
  rcases h with ⟨-, hs⟩ | ⟨r, -, rfl⟩
  · exact hs
  · exact absurd hd r.base_ne_zero

/-- A step that makes or changes one `aptr` keeps null empty when the new one is. -/
theorem nullEmpty_of_mem {s t : Vars} {p : Aptr} (hs : NullEmpty s)
    (hmem : ∀ v ∈ t.aptrs, v ∈ s.aptrs ∨ v.ptr = p) (hp : p.data = 0 → p.size = 0) :
    NullEmpty t := by
  refine nullEmpty_iff.mpr fun v hv hd => ?_
  rcases hmem v hv with h | rfl
  · exact hs.size_zero v h hd
  · exact hp hd

/-- The operations without `free` and casts. -/
theorem arrayStep_nullEmpty {s t : Vars} {op : ArrayOp} (hs : NullEmpty s)
    (hC : KeepsNullEmpty s (.array op)) (h : arrayStep s op = some t) : NullEmpty t := by
  refine nullEmpty_iff.mpr fun v hv hd => ?_
  rcases (arrayStep_effect h).aptrs v hv with ⟨u, hu, he⟩ | hfresh | ⟨i, j, u, rfl, hj, he⟩
  · obtain ⟨-, hdata, hsize⟩ := Extent.mk.inj he
    rw [← hsize]
    exact hs.size_zero u hu (hdata.trans hd)
  · exact hfresh.size_eq_zero hd
  · obtain ⟨-, hdata, hsize⟩ := Extent.mk.inj he
    rw [← hsize]
    exact hC u hj (hdata.trans hd)

/-- A step that meets the condition keeps null empty. -/
theorem aptrStep_nullEmpty {s t : Vars} {op : AptrOp} (hs : NullEmpty s)
    (hC : KeepsNullEmpty s op) (h : aptrStep s op = some t) : NullEmpty t := by
  cases op with
  | array op => exact arrayStep_nullEmpty hs hC h
  | free i =>
      obtain ⟨v, hi, hv⟩ := Option.bind_eq_some_iff.mp h
      cases hv
      exact nullEmpty_of_mem hs
        (fun w hw => (Vars.mem_setAptr hw).imp_right (congrArg Typed.ptr)) fun _ => hC v hi
  | castPrim i U =>
      obtain ⟨v, hi, hv⟩ := Option.bind_eq_some_iff.mp h
      split at hv
      · rename_i T _
        obtain ⟨q, hq, ht⟩ := Option.bind_eq_some_iff.mp hv
        cases ht
        refine nullEmpty_of_mem hs
          (fun w hw => (Vars.mem_pushAptr hw).imp_right (congrArg Typed.ptr)) fun hd => ?_
        obtain ⟨-, hq⟩ := Option.ite_none_right_eq_some.mp hq
        cases hq
        -- the address is the old one, and an empty array stays empty
        have hsize := hs.size_zero v (List.mem_of_getElem? hi) hd
        show castSize T U v.ptr.size = 0
        rw [hsize, castSize_zero]
      · contradiction
  | castDynamic i id size result =>
      obtain ⟨v, hi, hv⟩ := Option.bind_eq_some_iff.mp h
      split at hv
      · contradiction
      · obtain ⟨-, ht⟩ := Option.ite_none_right_eq_some.mp hv
        cases ht
        exact nullEmpty_of_mem hs
          (fun w hw => (Vars.mem_pushAptr hw).imp_right (congrArg Typed.ptr))
          fun hd => hC hd v hi
  | laptrCastPrim i U sp this =>
      obtain ⟨v, hi, hv⟩ := Option.bind_eq_some_iff.mp h
      split at hv
      · obtain ⟨q, -, ht⟩ := Option.bind_eq_some_iff.mp hv
        cases ht
        exact ⟨hs.1, hs.2, hs.3⟩
      · contradiction
  | laptrCastDynamic i id size result sp this =>
      obtain ⟨v, hi, hv⟩ := Option.bind_eq_some_iff.mp h
      split at hv
      · contradiction
      · obtain ⟨-, ht⟩ := Option.ite_none_right_eq_some.mp hv
        cases ht
        exact ⟨hs.1, hs.2, hs.3⟩

/-- A step into a state where null is empty meets the condition: each of the three
kinds of step leaves the offending pointer in the state. -/
theorem keepsNullEmpty_of_step {s t : Vars} {op : AptrOp} (h : aptrStep s op = some t)
    (ht : NullEmpty t) : KeepsNullEmpty s op := by
  cases op with
  | array op =>
      cases op with
      | from_laptr i j =>
          intro u hj hd
          obtain ⟨v, hi, hv⟩ := Option.bind_eq_some_iff.mp h
          obtain ⟨u', hj', hu⟩ := Option.bind_eq_some_iff.mp hv
          obtain rfl : u = u' := Option.some.inj (hj.symm.trans hj')
          obtain ⟨-, hu⟩ := Option.ite_none_right_eq_some.mp hu
          obtain ⟨q, hq, hset⟩ := Option.bind_eq_some_iff.mp hu
          cases hset
          have hq' := (Aptr.from_laptr_eq_some.mp hq).2
          have hsize := ht.size_zero _ (Vars.mem_setAptr_self hi v.ty q)
          rw [hq'] at hsize
          exact hsize hd
      | _ => exact trivial
  | free i =>
      intro v hi
      obtain ⟨v', hi', hv⟩ := Option.bind_eq_some_iff.mp h
      obtain rfl : v = v' := Option.some.inj (hi.symm.trans hi')
      cases hv
      exact ht.size_zero ⟨v.ty, v.ptr.free⟩ (Vars.mem_setAptr_self hi v.ty v.ptr.free) rfl
  | castDynamic i id size result =>
      intro hr v hi
      obtain ⟨v', hi', hv⟩ := Option.bind_eq_some_iff.mp h
      obtain rfl : v = v' := Option.some.inj (hi.symm.trans hi')
      split at hv
      · contradiction
      · obtain ⟨-, hpush⟩ := Option.ite_none_right_eq_some.mp hv
        cases hpush
        exact ht.size_zero ⟨.cls id size, v.ptr.castDynamic result⟩
          (List.mem_append_right _ List.mem_cons_self) hr
  | _ => exact trivial

/-- **When null means empty.** A run keeps null empty in every state it visits iff
every step of it meets `KeepsNullEmpty`. -/
theorem aptrMachine_nullEmpty_iff (acts : List AptrOp) :
    aptrMachine.Visits acts NullEmpty ↔ aptrMachine.StepsMeet acts KeepsNullEmpty :=
  Machine.visits_iff_stepsMeet NullEmpty (nullEmpty_iff.mpr fun _ h => absurd h List.not_mem_nil)
    (fun _ hs => hs) (fun _ _ _ hs hC h => aptrStep_nullEmpty hs hC h)
    (fun _ _ _ _ h ht => keepsNullEmpty_of_step h ht) acts

/-- A block of five `int`s. -/
def fiveInts : Root := ⟨.prim .int, 0x1000, 5, by decide, by decide, by decide⟩

/-- `aptr<int> p = new_array<int>(5); p.free();` leaves a null pointer of size 5,
which `*p` then follows. -/
theorem aptrMachine_free_not_nullEmpty :
    ¬ ∀ acts, aptrMachine.Visits acts NullEmpty := by
  intro h
  have hrun := h [.array (.newArray fiveInts), .free 0] _ (List.prefix_refl _) _ rfl
  exact absurd (hrun.size_zero ⟨.prim .int, ⟨0, 0, 5⟩⟩ List.mem_cons_self rfl) (by decide)

end Ironclad.Pointers
