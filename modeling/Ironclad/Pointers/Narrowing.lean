import Ironclad.Logic.Machine
import Ironclad.Pointers.SpatialSafety

/-!
# Narrowing an array pointer

An array pointer converts to a singleton pointer at its current element. A singleton
pointer is checked for null only, so the conversion has to check the bounds; but it does so
for addresses other than null, and then adds the index whatever the address is. A null
array pointer whose index has moved therefore narrows to an address that is neither null
nor that of an element. `narrowMachine_safe_iff` says exactly in which runs this does not
happen.
-/

namespace Ironclad.Pointers

open Ironclad.Logic

/-- The operations without casts, and `free`. -/
inductive NarrowOp where
  | array (op : ArrayOp)
  | free (i : Nat)

def narrowStep (s : Vars) : NarrowOp → Option Vars
  | .array op => arrayStep s op
  | .free i => s.aptrs[i]?.bind fun v => some (s.setAptr i v.ty v.ptr.free)

def narrowMachine : Machine Vars NarrowOp := ⟨.empty, narrowStep⟩

/-- The address that a conversion yields, if it passes, is null or that of an element of
the allocation that the pointer is into. -/
def NarrowSafe (roots : List Root) (e : Extent) (result : Option Word) : Prop :=
  ∀ a, result = some a → a = 0 ∨ ∃ r ∈ roots, r.extent = e ∧ ∃ k : Nat,
    k < r.count.toNat ∧ a.toNat = r.base.toNat + k * r.ty.sizeof.toNat

/-- Every conversion that can be made in the state is safe. -/
structure NarrowingSafe (s : Vars) : Prop where
  aptrs : ∀ v ∈ s.aptrs,
    NarrowSafe s.roots (aptrExtent v) ((v.ptr.toPtr v.ty.sizeof).map Ptr.data)
  laptrs : ∀ v ∈ s.laptrs, ∀ sp,
    NarrowSafe s.roots (laptrExtent v) ((v.ptr.toLptr v.ty.sizeof sp).map Lptr.data)

/-- The steps that leave null pointers at their first element: an operator applied to one
moves it by no bytes, and a pointer is freed at its first element. -/
def KeepsAtZero (s : Vars) : NarrowOp → Prop
  | .array (.aptrMove i m) => ∀ v, s.aptrs[i]? = some v → v.ptr.data = 0 →
      (v.ptr.move m).1.index * v.ty.sizeof = 0 ∧ (v.ptr.move m).2.index * v.ty.sizeof = 0
  | .array (.laptrMove i m sp this) => ∀ v, s.laptrs[i]? = some v → v.ptr.data = 0 →
      (v.ptr.move sp this m).1.index * v.ty.sizeof = 0 ∧
        (v.ptr.move sp this m).2.index * v.ty.sizeof = 0
  | .free i => ∀ v, s.aptrs[i]? = some v → v.ptr.index * v.ty.sizeof = 0
  | _ => True

/-! ## The invariant -/

/-- The extent is that of a null pointer or of a root. -/
def Grounded (roots : List Root) (e : Extent) : Prop := e.data = 0 ∨ ∃ r ∈ roots, r.extent = e

/-- Every address is null or that of a root, and null pointers are at their first element. -/
structure NarrowInv (s : Vars) : Prop where
  aptrs : ∀ v ∈ s.aptrs, Grounded s.roots (aptrExtent v)
  laptrs : ∀ v ∈ s.laptrs, Grounded s.roots (laptrExtent v)
  aptrs_zero : ∀ v ∈ s.aptrs, v.ptr.data = 0 → v.ptr.index * v.ty.sizeof = 0
  laptrs_zero : ∀ v ∈ s.laptrs, v.ptr.data = 0 → v.ptr.index * v.ty.sizeof = 0

theorem Grounded.mono {roots roots' : List Root} (hsub : roots ⊆ roots') {e : Extent}
    (h : Grounded roots e) : Grounded roots' e :=
  h.imp_right fun ⟨r, hr, he⟩ => ⟨r, hsub hr, he⟩

/-- A pointer that is not null is to the elements of an array in memory. -/
theorem Grounded.fitting {roots : List Root} {e : Extent} (h : Grounded roots e)
    (hdata : e.data ≠ 0) (hsize : e.ty.sizeof ≠ 0) : Fitting e.ty.sizeof e.size := by
  rcases h with h | ⟨r, -, rfl⟩
  · exact absurd h hdata
  · exact r.fitting hsize

theorem Fresh.grounded {roots : List Root} {e : Extent} (h : Fresh roots e) : Grounded roots e :=
  h.imp_left And.left

/-! ## One conversion -/

section

variable {roots : List Root} {e : Extent} {index : Word}

/-- The address that both conversions compute. -/
def narrowed (e : Extent) (index : Word) : Option Word :=
  if e.data ≠ 0 ∧ BOUNDS_CHECK index e.size = false then none
  else some (element e.ty.sizeof e.data index)

theorem toPtr_data (v : Typed Aptr) :
    (v.ptr.toPtr v.ty.sizeof).map Ptr.data = narrowed (aptrExtent v) v.ptr.index := by
  unfold Aptr.toPtr narrowed aptrExtent
  split <;> rfl

theorem toLptr_data (v : Typed Laptr) (sp : Word) :
    (v.ptr.toLptr v.ty.sizeof sp).map Lptr.data = narrowed (laptrExtent v) v.ptr.index := by
  unfold Laptr.toLptr narrowed laptrExtent
  split <;> rfl

theorem element_null (sizeofT index : Word) : element sizeofT 0 index = index * sizeofT :=
  BitVec.zero_add _

/-- **A conversion is safe exactly if the pointer is not null or not moved.** -/
theorem narrowSafe_iff (he : Grounded roots e) :
    NarrowSafe roots e (narrowed e index) ↔ (e.data = 0 → index * e.ty.sizeof = 0) := by
  constructor
  · -- for null the bounds are not checked, so the conversion passes
    intro h hnull
    rcases h _ (if_neg fun hc => hc.1 hnull) with hzero | ⟨r, -, rfl, -⟩
    · rw [hnull, element_null] at hzero
      exact hzero
    · exact absurd hnull r.base_ne_zero
  · intro h a ha
    unfold narrowed at ha
    split at ha
    · cases ha
    · rename_i hc
      cases ha
      rcases he with hnull | ⟨r, hr, rfl⟩
      · refine .inl ?_
        rw [hnull, element_null]
        exact h hnull
      · have hcheck : BOUNDS_CHECK index r.count = true := by
          cases hb : BOUNDS_CHECK index r.count with
          | true => rfl
          | false => exact absurd ⟨r.base_ne_zero, hb⟩ hc
        have hlt := boundsCheck_toNat hcheck
        exact .inr ⟨r, hr, rfl, index.toNat, hlt, r.element_toNat hlt⟩

end

theorem NarrowInv.narrowingSafe {s : Vars} (hs : NarrowInv s) : NarrowingSafe s := by
  constructor
  · intro v hv
    rw [toPtr_data]
    exact (narrowSafe_iff (hs.aptrs v hv)).mpr (hs.aptrs_zero v hv)
  · intro v hv sp
    rw [toLptr_data]
    exact (narrowSafe_iff (hs.laptrs v hv)).mpr (hs.laptrs_zero v hv)

/-- Conversely, the conversions tell that the null pointers are at their first element. -/
theorem NarrowingSafe.zero {s : Vars} (hs : NarrowingSafe s)
    (ha : ∀ v ∈ s.aptrs, Grounded s.roots (aptrExtent v))
    (hl : ∀ v ∈ s.laptrs, Grounded s.roots (laptrExtent v)) :
    (∀ v ∈ s.aptrs, v.ptr.data = 0 → v.ptr.index * v.ty.sizeof = 0) ∧
      ∀ v ∈ s.laptrs, v.ptr.data = 0 → v.ptr.index * v.ty.sizeof = 0 := by
  constructor
  · intro v hv
    have h := hs.aptrs v hv
    rw [toPtr_data] at h
    exact (narrowSafe_iff (ha v hv)).mp h
  · intro v hv
    have h := hs.laptrs v hv 0
    rw [toLptr_data] at h
    exact (narrowSafe_iff (hl v hv)).mp h

/-! ## One step -/

section

variable {s t : Vars} {op : NarrowOp}

/-- The extents stay grounded in any step. -/
theorem narrowStep_grounded (ha : ∀ v ∈ s.aptrs, Grounded s.roots (aptrExtent v))
    (hl : ∀ v ∈ s.laptrs, Grounded s.roots (laptrExtent v)) (h : narrowStep s op = some t) :
    (∀ v ∈ t.aptrs, Grounded t.roots (aptrExtent v)) ∧
      ∀ v ∈ t.laptrs, Grounded t.roots (laptrExtent v) := by
  cases op with
  | array op =>
      have heff := arrayStep_effect h
      -- extents that come from variables of the state before
      have hold : ∀ e, OfAptr s e ∨ OfLaptr s e → Grounded t.roots e := by
        rintro e (⟨u, hu, rfl⟩ | ⟨u, hu, rfl⟩)
        · exact (ha u hu).mono heff.roots
        · exact (hl u hu).mono heff.roots
      constructor
      · intro v hv
        rcases heff.aptrs v hv with h | h | ⟨i, j, u, -, hj, hu⟩
        · exact hold _ (.inl h)
        · exact h.grounded
        · exact hold _ (.inr ⟨u, List.mem_of_getElem? hj, hu⟩)
      · intro v hv
        rcases heff.laptrs v hv with h | h | h
        · exact hold _ (.inl h)
        · exact hold _ (.inr h)
        · exact h.grounded
  | free i =>
      obtain ⟨v, hi, hv⟩ := Option.bind_eq_some_iff.mp h
      cases hv
      refine ⟨?_, hl⟩
      intro w hw
      rcases Vars.mem_setAptr hw with hw | rfl
      · exact ha w hw
      · exact .inl rfl

/-- `Q` holds of the element type, the address and the index of every variable. -/
def Each (Q : CType → Word → Word → Prop) (s : Vars) : Prop :=
  (∀ v ∈ s.aptrs, Q v.ty v.ptr.data v.ptr.index) ∧
    ∀ v ∈ s.laptrs, Q v.ty v.ptr.data v.ptr.index

/-- `Q` holds of the pointers that the step makes with an address and an index that no variable
has yet. Only the operators and `free` make any. -/
def Keeps (Q : CType → Word → Word → Prop) (s : Vars) : NarrowOp → Prop
  | .array (.aptrMove i m) => ∀ v, s.aptrs[i]? = some v →
      Q v.ty v.ptr.data (v.ptr.move m).1.index ∧ Q v.ty v.ptr.data (v.ptr.move m).2.index
  | .array (.laptrMove i m sp this) => ∀ v, s.laptrs[i]? = some v →
      Q v.ty v.ptr.data (v.ptr.move sp this m).1.index ∧
        Q v.ty v.ptr.data (v.ptr.move sp this m).2.index
  | .free i => ∀ v, s.aptrs[i]? = some v → Q v.ty 0 v.ptr.index
  | _ => True

variable {Q : CType → Word → Word → Prop}

theorem Each.pushAptr (hs : Each Q s) {ty : CType} {p : Aptr} (hp : Q ty p.data p.index) :
    Each Q (s.pushAptr ty p) := by
  refine ⟨?_, hs.2⟩
  intro v hv
  rcases Vars.mem_pushAptr hv with hv | rfl
  · exact hs.1 v hv
  · exact hp

theorem Each.setAptr (hs : Each Q s) {i : Nat} {ty : CType} {p : Aptr}
    (hp : Q ty p.data p.index) : Each Q (s.setAptr i ty p) := by
  refine ⟨?_, hs.2⟩
  intro v hv
  rcases Vars.mem_setAptr hv with hv | rfl
  · exact hs.1 v hv
  · exact hp

theorem Each.pushLaptr (hs : Each Q s) {ty : CType} {p : Laptr} (hp : Q ty p.data p.index) :
    Each Q (s.pushLaptr ty p) := by
  refine ⟨hs.1, ?_⟩
  intro v hv
  rcases Vars.mem_pushLaptr hv with hv | rfl
  · exact hs.2 v hv
  · exact hp

theorem Each.setLaptr (hs : Each Q s) {i : Nat} {ty : CType} {p : Laptr}
    (hp : Q ty p.data p.index) : Each Q (s.setLaptr i ty p) := by
  refine ⟨hs.1, ?_⟩
  intro v hv
  rcases Vars.mem_setLaptr hv with hv | rfl
  · exact hs.2 v hv
  · exact hp

@[simp] theorem Aptr.move_data (p : Aptr) (m : Move) :
    (p.move m).1.data = p.data ∧ (p.move m).2.data = p.data := by
  cases m <;> exact ⟨rfl, rfl⟩

@[simp] theorem Laptr.move_data (sp this : Word) (p : Laptr) (m : Move) :
    (p.move sp this m).1.data = p.data ∧ (p.move sp this m).2.data = p.data := by
  cases m <;> exact ⟨rfl, rfl⟩

/-- A property of null pointers and of whole roots stays one of every variable in the steps that
keep it. -/
theorem narrowStep_each (hnull : ∀ ty, Q ty 0 0) (hroot : ∀ r : Root, Q r.ty r.base 0)
    (hs : Each Q s) (hC : Keeps Q s op) (h : narrowStep s op = some t) : Each Q t := by
  cases op with
  | free i =>
      obtain ⟨v, hi, hv⟩ := Option.bind_eq_some_iff.mp h
      cases hv
      exact hs.setAptr (hC v hi)
  | array op =>
      cases op with
      | aptrNull ty =>
          cases h
          exact hs.pushAptr (hnull ty)
      | laptrNull ty sp =>
          cases h
          exact hs.pushLaptr (hnull ty)
      | newArray r =>
          cases h
          exact Each.pushAptr (s := s.addRoot r) hs (hroot r)
      | arrayToLaptr r sp this =>
          cases h
          refine Each.pushLaptr (s := s.addRoot r) hs ?_
          rw [SafeArray.toLaptr_data, SafeArray.toLaptr_index]
          exact hroot r
      | aptrCopy i =>
          obtain ⟨v, hi, hv⟩ := Option.bind_eq_some_iff.mp h
          cases hv
          exact hs.pushAptr (hs.1 v (List.mem_of_getElem? hi))
      | laptrCopy i sp this =>
          obtain ⟨v, hi, hv⟩ := Option.bind_eq_some_iff.mp h
          cases hv
          exact hs.pushLaptr (hs.2 v (List.mem_of_getElem? hi))
      | aptrAssign i j =>
          -- the variable becomes the other one, which has its element type
          obtain ⟨v, hi, hv⟩ := Option.bind_eq_some_iff.mp h
          obtain ⟨u, hj, hu⟩ := Option.bind_eq_some_iff.mp hv
          obtain ⟨hty, hu⟩ := Option.ite_none_right_eq_some.mp hu
          cases hu
          exact hs.setAptr (hty ▸ hs.1 u (List.mem_of_getElem? hj))
      | laptrAssign i j =>
          obtain ⟨v, hi, hv⟩ := Option.bind_eq_some_iff.mp h
          obtain ⟨u, hj, hu⟩ := Option.bind_eq_some_iff.mp hv
          obtain ⟨hty, hu⟩ := Option.ite_none_right_eq_some.mp hu
          obtain ⟨q, hq, ht⟩ := Option.bind_eq_some_iff.mp hu
          cases ht
          rw [(Laptr.assign_eq_some.mp hq).2]
          exact hs.setLaptr (hty ▸ hs.2 u (List.mem_of_getElem? hj))
      | aptrMove i m =>
          obtain ⟨v, hi, hv⟩ := Option.bind_eq_some_iff.mp h
          cases hv
          obtain ⟨h1, h2⟩ := v.ptr.move_data m
          refine (hs.setAptr ?_).pushAptr ?_
          · rw [h1]
            exact (hC v hi).1
          · rw [h2]
            exact (hC v hi).2
      | laptrMove i m sp this =>
          obtain ⟨v, hi, hv⟩ := Option.bind_eq_some_iff.mp h
          cases hv
          obtain ⟨h1, h2⟩ := v.ptr.move_data sp this m
          refine (hs.setLaptr ?_).pushLaptr ?_
          · rw [h1]
            exact (hC v hi).1
          · rw [h2]
            exact (hC v hi).2
      | toLaptr i sp this =>
          obtain ⟨v, hi, hv⟩ := Option.bind_eq_some_iff.mp h
          cases hv
          exact hs.pushLaptr (hs.1 v (List.mem_of_getElem? hi))
      | from_laptr i j =>
          obtain ⟨v, hi, hv⟩ := Option.bind_eq_some_iff.mp h
          obtain ⟨u, hj, hu⟩ := Option.bind_eq_some_iff.mp hv
          obtain ⟨hty, hu⟩ := Option.ite_none_right_eq_some.mp hu
          obtain ⟨q, hq, ht⟩ := Option.bind_eq_some_iff.mp hu
          cases ht
          rw [(Aptr.from_laptr_eq_some.mp hq).2]
          exact hs.setAptr (hty ▸ hs.2 u (List.mem_of_getElem? hj))

/-- Conversely a step into a state where the property holds of every variable keeps it: what the
step made or changed is in the state. -/
theorem keeps_of_narrowStep (h : narrowStep s op = some t) (ht : Each Q t) : Keeps Q s op := by
  cases op with
  | free i =>
      intro v hi
      obtain ⟨v', hi', hv⟩ := Option.bind_eq_some_iff.mp h
      obtain rfl : v = v' := Option.some.inj (hi.symm.trans hi')
      cases hv
      exact ht.1 ⟨v.ty, v.ptr.free⟩ (Vars.mem_setAptr_self hi v.ty v.ptr.free)
  | array op =>
      cases op with
      | aptrMove i m =>
          intro v hi
          obtain ⟨v', hi', hv⟩ := Option.bind_eq_some_iff.mp h
          obtain rfl : v = v' := Option.some.inj (hi.symm.trans hi')
          cases hv
          obtain ⟨h1, h2⟩ := v.ptr.move_data m
          have hfst := ht.1 ⟨v.ty, (v.ptr.move m).1⟩
            (List.mem_append_left _ (Vars.mem_setAptr_self hi v.ty _))
          have hsnd := ht.1 ⟨v.ty, (v.ptr.move m).2⟩
            (List.mem_append_right _ List.mem_cons_self)
          exact ⟨h1 ▸ hfst, h2 ▸ hsnd⟩
      | laptrMove i m sp this =>
          intro v hi
          obtain ⟨v', hi', hv⟩ := Option.bind_eq_some_iff.mp h
          obtain rfl : v = v' := Option.some.inj (hi.symm.trans hi')
          cases hv
          obtain ⟨h1, h2⟩ := v.ptr.move_data sp this m
          have hfst := ht.2 ⟨v.ty, (v.ptr.move sp this m).1⟩
            (List.mem_append_left _ (Vars.mem_setLaptr_self hi v.ty _))
          have hsnd := ht.2 ⟨v.ty, (v.ptr.move sp this m).2⟩
            (List.mem_append_right _ List.mem_cons_self)
          exact ⟨h1 ▸ hfst, h2 ▸ hsnd⟩
      | _ => exact trivial

/-- Null pointers are at their first element. -/
def AtZero (s : Vars) : Prop :=
  (∀ v ∈ s.aptrs, v.ptr.data = 0 → v.ptr.index * v.ty.sizeof = 0) ∧
    ∀ v ∈ s.laptrs, v.ptr.data = 0 → v.ptr.index * v.ty.sizeof = 0

/-- The steps that leave null pointers at their first element keep what `AtZero` says of each
variable. -/
theorem keepsAtZero_iff : KeepsAtZero s op ↔
    Keeps (fun ty data index => data = 0 → index * ty.sizeof = 0) s op := by
  cases op with
  | free i => exact ⟨fun h v hi _ => h v hi, fun h v hi => h v hi rfl⟩
  | array op =>
      cases op with
      | aptrMove i m =>
          exact forall₂_congr fun v _ => ⟨fun h => ⟨fun hd => (h hd).1, fun hd => (h hd).2⟩,
            fun h hd => ⟨h.1 hd, h.2 hd⟩⟩
      | laptrMove i m sp this =>
          exact forall₂_congr fun v _ => ⟨fun h => ⟨fun hd => (h hd).1, fun hd => (h hd).2⟩,
            fun h hd => ⟨h.1 hd, h.2 hd⟩⟩
      | _ => exact Iff.rfl

/-- A step that meets the condition leaves null pointers at their first element. -/
theorem narrowStep_atZero (hs : AtZero s) (hC : KeepsAtZero s op) (h : narrowStep s op = some t) :
    AtZero t :=
  narrowStep_each (Q := fun ty data index => data = 0 → index * ty.sizeof = 0)
    (fun _ _ => BitVec.zero_mul) (fun _ _ => BitVec.zero_mul) hs (keepsAtZero_iff.mp hC) h

/-- A step into a state in which every conversion is safe meets the condition. -/
theorem keepsAtZero_of_step (hs : NarrowInv s) (h : narrowStep s op = some t)
    (ht : NarrowingSafe t) : KeepsAtZero s op := by
  obtain ⟨ha, hl⟩ := narrowStep_grounded hs.aptrs hs.laptrs h
  exact keepsAtZero_iff.mpr (keeps_of_narrowStep h (ht.zero ha hl))

end

/-- In every state of every run the addresses are null or those of roots. -/
theorem narrowMachine_grounded (acts : List NarrowOp) : narrowMachine.Visits acts fun s =>
    (∀ v ∈ s.aptrs, Grounded s.roots (aptrExtent v)) ∧
      ∀ v ∈ s.laptrs, Grounded s.roots (laptrExtent v) := by
  refine Machine.visits_of_invariant _ ?_ ?_ acts
  · exact ⟨fun _ hv => absurd hv List.not_mem_nil, fun _ hv => absurd hv List.not_mem_nil⟩
  · intro s op t hs h
    exact narrowStep_grounded hs.1 hs.2 h

/-- **When narrowing is safe.** In every state that a run visits every conversion to a
singleton pointer is safe iff every step of the run leaves null pointers at their first
element. -/
theorem narrowMachine_safe_iff (acts : List NarrowOp) :
    narrowMachine.Visits acts NarrowingSafe ↔ narrowMachine.StepsMeet acts KeepsAtZero := by
  refine Machine.visits_iff_stepsMeet NarrowInv ?_ (fun _ => NarrowInv.narrowingSafe) ?_
    (fun _ _ _ => keepsAtZero_of_step) acts
  · refine ⟨?_, ?_, ?_, ?_⟩ <;> exact fun _ hv => absurd hv List.not_mem_nil
  · intro s op t hs hC h
    obtain ⟨ha, hl⟩ := narrowStep_grounded hs.aptrs hs.laptrs h
    obtain ⟨hza, hzl⟩ := narrowStep_atZero ⟨hs.aptrs_zero, hs.laptrs_zero⟩ hC h
    exact ⟨ha, hl, hza, hzl⟩

/-- `aptr<int> p; ++p; ptr<int> q = p;` makes `q` the address 4. -/
theorem narrowMachine_null_moved :
    ¬∀ acts, narrowMachine.Visits acts NarrowingSafe := by
  intro h
  have hrun := h [.array (.aptrNull (.prim .int)), .array (.aptrMove 0 .preInc)] _
    (List.prefix_refl _) _ rfl
  have hsafe := hrun.aptrs ⟨.prim .int, ⟨0, 1, 0⟩⟩ List.mem_cons_self 4 rfl
  rcases hsafe with hzero | ⟨r, hr, -⟩
  · cases hzero
  · cases hr

end Ironclad.Pointers
