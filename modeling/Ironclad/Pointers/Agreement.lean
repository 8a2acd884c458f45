import Ironclad.Logic.Trace
import Ironclad.Pointers.ArrayVars

/-!
# Do `aptr` and `laptr` agree?

The two classes were written separately and have most operations in common. Their index
arithmetic, dereferences, comparisons and byte-count checks come to the same; their
subscripts do not: `aptr` takes an `int`, `laptr` an `unsigned int`, and only `laptr` asserts
that the address is not null. `traces_agree_iff` says exactly which sequences of operations
show no difference.
-/

namespace Ironclad.Pointers

open Ironclad.Logic

/-- The common operations. After an operator of index arithmetic the pointer it was applied
to goes on, or its result. The other operand of a comparison points into the same array. -/
inductive CommonOp where
  | moved (m : Move) (sp this : Word)
  | result (m : Move) (sp this : Word)
  | deref
  | subscript (_index : BitVec 32)
  | spatialCheck (numBytes : Word)
  | compare (c : Comparison) (index : Word)

/-- What an operation shows, unless an assertion fails. -/
inductive Shown where
  | moved
  | element (index : Word)
  | truth (b : Bool)
  deriving DecidableEq, Repr

/-! ## The elements denoted -/

def Aptr.derefElement (p : Aptr) : Option Word :=
  if BOUNDS_CHECK p.index p.size then some p.index else none

def Aptr.subscriptElement (p : Aptr) (_index : BitVec 32) : Option Word :=
  if BOUNDS_CHECK_INDEX p.index p.size (ofInt _index) then some (p.index + ofInt _index) else none

def Laptr.derefElement (p : Laptr) : Option Word :=
  if BOUNDS_CHECK p.index p.size then some p.index else none

def Laptr.subscriptElement (p : Laptr) (_index : BitVec 32) : Option Word :=
  if p.data != 0 && BOUNDS_CHECK_INDEX p.index p.size (ofUnsigned _index) then
    some (p.index + ofUnsigned _index)
  else none

/-- An access goes to the element denoted. -/
theorem access_eq_map (check : Bool) (sizeofT data index : Word) :
    access check sizeofT data index =
      (if check then some index else none).map (element sizeofT data) := by
  cases check <;> rfl

theorem Aptr.deref_eq (sizeofT : Word) (p : Aptr) :
    p.deref sizeofT = p.derefElement.map (element sizeofT p.data) := access_eq_map ..

theorem Aptr.subscript_eq (sizeofT : Word) (p : Aptr) (i : BitVec 32) :
    p.subscript sizeofT i = (p.subscriptElement i).map (element sizeofT p.data) :=
  access_eq_map ..

theorem Laptr.deref_eq (sizeofT : Word) (p : Laptr) :
    p.deref sizeofT = p.derefElement.map (element sizeofT p.data) := access_eq_map ..

theorem Laptr.subscript_eq (sizeofT : Word) (p : Laptr) (i : BitVec 32) :
    p.subscript sizeofT i = (p.subscriptElement i).map (element sizeofT p.data) :=
  access_eq_map ..

/-! ## The two systems -/

def aptrCommon (sizeofT : Word) (p : Aptr) : CommonOp → Option (Shown × Aptr)
  | .moved m _ _ => some (.moved, (p.move m).1)
  | .result m _ _ => some (.moved, (p.move m).2)
  | .deref => p.derefElement.map fun i => (.element i, p)
  | .subscript _index => (p.subscriptElement _index).map fun i => (.element i, p)
  | .spatialCheck numBytes => some (.truth (p.spatialCheck sizeofT numBytes), p)
  | .compare c index => some (.truth (p.compare sizeofT c { p with index := index }), p)

def laptrCommon (sizeofT : Word) (p : Laptr) : CommonOp → Option (Shown × Laptr)
  | .moved m sp this => some (.moved, (p.move sp this m).1)
  | .result m sp this => some (.moved, (p.move sp this m).2)
  | .deref => p.derefElement.map fun i => (.element i, p)
  | .subscript _index => (p.subscriptElement _index).map fun i => (.element i, p)
  | .spatialCheck numBytes => some (.truth (p.spatialCheck sizeofT numBytes), p)
  | .compare c index => some (.truth (p.compare sizeofT c { p with index := index }), p)

/-- The subscripts that show no difference: with an argument that is not negative, unless the
address is null and the element in bounds; with a negative one, if both assertions fail. -/
def SubscriptsAgree (p : Aptr) : CommonOp → Prop
  | .subscript i =>
      if 0 ≤ i.toInt then p.data = 0 → BOUNDS_CHECK (p.index + ofInt i) p.size = false
      else BOUNDS_CHECK (p.index + ofInt i) p.size = false ∧
        (p.data = 0 ∨ BOUNDS_CHECK (p.index + ofUnsigned i) p.size = false)
  | _ => True

/-! ## One operation -/

/-- The same address, index and size, the size not negative. -/
structure SameArray (p : Aptr) (q : Laptr) : Prop where
  data : q.data = p.data
  index : q.index = p.index
  size : q.size = p.size
  nonneg : p.size.toNat < 2 ^ 63

theorem ofInt_eq_ofUnsigned {i : BitVec 32} (h : 0 ≤ i.toInt) : ofInt i = ofUnsigned i := by
  apply BitVec.eq_of_toInt_eq
  rw [ofInt, ofUnsigned, BitVec.toInt_signExtend_of_le (by omega)]
  have hlt := i.isLt
  rw [BitVec.toInt_eq_toNat_cond] at h ⊢
  rw [BitVec.toInt_eq_toNat_cond, BitVec.toNat_setWidth]
  split at h <;> rename_i hi
  · rw [if_pos hi, Nat.mod_eq_of_lt (by omega), if_pos (by omega)]
  · omega

/-- A negative argument is another one as an `unsigned int`. -/
theorem ofInt_ne_ofUnsigned {i : BitVec 32} (h : ¬0 ≤ i.toInt) : ofInt i ≠ ofUnsigned i := by
  intro heq
  have hint := congrArg BitVec.toInt heq
  rw [ofInt, ofUnsigned, BitVec.toInt_signExtend_of_le (by omega)] at hint
  have hlt := i.isLt
  rw [BitVec.toInt_eq_toNat_cond (BitVec.setWidth 64 i), BitVec.toNat_setWidth,
    Nat.mod_eq_of_lt (by omega), if_pos (by omega)] at hint
  omega

section

variable {p : Aptr} {q : Laptr} {i : BitVec 32}

/-- Subscripts show the same exactly under the condition. -/
theorem SameArray.subscript (hpq : SameArray p q) :
    p.subscriptElement i = q.subscriptElement i ↔ SubscriptsAgree p (.subscript i) := by
  have ha : p.subscriptElement i =
      if BOUNDS_CHECK (p.index + ofInt i) p.size then some (p.index + ofInt i) else none := rfl
  have hl : q.subscriptElement i =
      if p.data != 0 && BOUNDS_CHECK (p.index + ofUnsigned i) p.size then
        some (p.index + ofUnsigned i)
      else none := by
    rw [Laptr.subscriptElement, boundsCheckIndex_eq, hpq.data, hpq.index, hpq.size]
  rw [ha, hl]
  simp only [SubscriptsAgree]
  by_cases hpos : 0 ≤ i.toInt
  · rw [if_pos hpos, ← ofInt_eq_ofUnsigned hpos]
    by_cases hnull : p.data = 0
    · cases hb : BOUNDS_CHECK (p.index + ofInt i) p.size with
      | true => simp [hnull]
      | false => simp
    · have hne : (p.data != 0) = true := bne_iff_ne.mpr hnull
      rw [hne, Bool.true_and]
      exact ⟨fun _ h => absurd h hnull, fun _ => rfl⟩
  · -- the two classes would go to different elements, so that both have to refuse
    rw [if_neg hpos]
    have hne := ofInt_ne_ofUnsigned hpos
    cases hb : BOUNDS_CHECK (p.index + ofInt i) p.size with
    | true =>
        rw [if_pos rfl]
        constructor
        · intro h
          split at h
          · exact absurd (add_left_cancel (Option.some.inj h)) hne
          · cases h
        · intro h
          cases h.1
    | false =>
        rw [if_neg Bool.false_ne_true]
        constructor
        · intro h
          refine ⟨rfl, ?_⟩
          by_cases hnull : p.data = 0
          · exact .inl hnull
          · have hnull' : (p.data != 0) = true := bne_iff_ne.mpr hnull
            cases hb' : BOUNDS_CHECK (p.index + ofUnsigned i) p.size with
            | true =>
                rw [hnull', hb'] at h
                cases h
            | false => exact .inr rfl
        · rintro ⟨-, hnull | hb'⟩
          · simp [hnull]
          · simp [hb']

/-- A sum that is at most a size that is not negative is not negative either, so that the
first comparison of `aptr` makes no difference. -/
theorem SameArray.spatialCheck (hpq : SameArray p q) (sizeofT numBytes : Word) :
    p.spatialCheck sizeofT numBytes = q.spatialCheck sizeofT numBytes := by
  unfold Aptr.spatialCheck Laptr.spatialCheck
  rw [hpq.index, hpq.size]
  have hzero : decide (0 ≤ p.index + numBytes / sizeofT) = true := by
    rw [decide_eq_true_eq, BitVec.le_def]
    exact Nat.zero_le _
  rw [hzero, Bool.true_and]
  cases hle : decide (p.index + numBytes / sizeofT ≤ p.size) with
  | false => rw [Bool.and_false]
  | true =>
      have hle' := of_decide_eq_true hle
      have hnonneg := hpq.nonneg
      have hlt : (p.index + numBytes / sizeofT).toNat < 2 ^ 63 := by
        rw [BitVec.le_def] at hle'
        omega
      have hsle : (0#64).sle (p.index + numBytes / sizeofT) = true := by
        rw [BitVec.sle_iff_toInt_le, BitVec.toInt_zero, toInt_of_lt hlt]
        omega
      rw [hsle]
      rfl

theorem SameArray.compare (hpq : SameArray p q) (sizeofT : Word) (c : Comparison) (index : Word) :
    p.compare sizeofT c { p with index := index } =
      q.compare sizeofT c { q with index := index } := by
  unfold Aptr.compare Laptr.compare
  rw [hpq.data, hpq.index]

/-- What the operators leave and return is the same again. -/
theorem SameArray.move (hpq : SameArray p q) (m : Move) (sp this : Word) :
    SameArray (p.move m).1 (q.move sp this m).1 ∧ SameArray (p.move m).2 (q.move sp this m).2 := by
  obtain ⟨data, index, size⟩ := p
  obtain ⟨data', index', size', tb⟩ := q
  obtain ⟨hdata, hindex, hsize, hnonneg⟩ := hpq
  simp only at hdata hindex hsize hnonneg
  subst hdata hindex hsize
  cases m <;> exact ⟨⟨rfl, rfl, rfl, hnonneg⟩, ⟨rfl, rfl, rfl, hnonneg⟩⟩

/-- An operation shows the same in both classes exactly under the condition. -/
theorem SameArray.shown_iff (hpq : SameArray p q) (sizeofT : Word) (op : CommonOp) :
    (aptrCommon sizeofT p op).map Prod.fst = (laptrCommon sizeofT q op).map Prod.fst ↔
      SubscriptsAgree p op := by
  cases op with
  | moved m sp this => exact iff_of_true rfl trivial
  | result m sp this => exact iff_of_true rfl trivial
  | deref =>
      have heq : q.derefElement = p.derefElement := by
        rw [Laptr.derefElement, hpq.index, hpq.size]
        rfl
      simp only [aptrCommon, laptrCommon, heq, Option.map_map]
      exact iff_of_true rfl trivial
  | subscript i =>
      rw [← hpq.subscript]
      simp only [aptrCommon, laptrCommon, Option.map_map]
      constructor
      · intro h
        refine Option.map_injective ?_ h
        exact fun a b hab => Shown.element.inj hab
      · intro h
        rw [h]
        rfl
  | spatialCheck numBytes =>
      simp only [aptrCommon, laptrCommon, hpq.spatialCheck sizeofT numBytes, Option.map_some]
      exact iff_of_true trivial trivial
  | compare c index =>
      simp only [aptrCommon, laptrCommon, hpq.compare sizeofT c index, Option.map_some]
      exact iff_of_true trivial trivial

/-- The pointers that go on after an operation are the same array again. -/
theorem SameArray.next (hpq : SameArray p q) {sizeofT : Word} {op : CommonOp} {o o' : Shown}
    {p' : Aptr} {q' : Laptr} (hp : aptrCommon sizeofT p op = some (o, p'))
    (hq : laptrCommon sizeofT q op = some (o', q')) : SameArray p' q' := by
  cases op with
  | moved m sp this =>
      cases hp
      cases hq
      exact (hpq.move m sp this).1
  | result m sp this =>
      cases hp
      cases hq
      exact (hpq.move m sp this).2
  | deref | subscript i =>
      obtain ⟨_, -, hp⟩ := Option.map_eq_some_iff.mp hp
      obtain ⟨_, -, hq⟩ := Option.map_eq_some_iff.mp hq
      cases hp
      cases hq
      exact hpq
  | spatialCheck numBytes | compare c index =>
      cases hp
      cases hq
      exact hpq

end

/-- **When the two classes agree.** From the same address, index and size on, a sequence of
common operations shows the same exactly if at each subscript that is got to the argument is
not negative, or both assertions fail, and the address is not null or they fail. -/
theorem traces_agree_iff (sizeofT data index size tb : Word) (hsize : size.toNat < 2 ^ 63)
    (ops : List CommonOp) :
    trace (aptrCommon sizeofT) ⟨data, index, size⟩ ops =
        trace (laptrCommon sizeofT) ⟨data, index, size, tb⟩ ops ↔
      Along (aptrCommon sizeofT) SubscriptsAgree ⟨data, index, size⟩ ops := by
  have hstart : SameArray ⟨data, index, size⟩ ⟨data, index, size, tb⟩ := ⟨rfl, rfl, rfl, hsize⟩
  apply trace_eq_iff _ _ hstart ops
  · intro p q op hpq
    exact hpq.shown_iff sizeofT op
  · intro p q op o p' o' q' hpq hp hq
    exact hpq.next hp hq

/-- Stepping through an array and looking at it shows no difference. -/
theorem traces_agree_iff_walk :
    trace (aptrCommon 4) ⟨0x1000, 0, 5⟩ [.moved .preInc 0 0, .subscript 3, .spatialCheck 16] =
      trace (laptrCommon 4) ⟨0x1000, 0, 5, 0⟩
        [.moved .preInc 0 0, .subscript 3, .spatialCheck 16] := by
  refine (traces_agree_iff 4 0x1000 0 5 0 (by decide) _).mpr ?_
  refine ⟨trivial, fun _ _ _ => ⟨?_, fun _ _ _ => ⟨trivial, fun _ _ _ => trivial⟩⟩⟩
  rename_i h
  cases h
  intro hnull
  cases hnull

/-- `p[-1]` at the index 1 of an array of five. -/
theorem traces_differ_negative :
    trace (aptrCommon 4) ⟨0x1000, 1, 5⟩ [.subscript (-1)] = [some (.element 0)] ∧
      trace (laptrCommon 4) ⟨0x1000, 1, 5, 0⟩ [.subscript (-1)] = [none] ∧
      ¬∀ ops, trace (aptrCommon 4) ⟨0x1000, 1, 5⟩ ops =
        trace (laptrCommon 4) ⟨0x1000, 1, 5, 0⟩ ops := by
  have ha : trace (aptrCommon 4) ⟨0x1000, 1, 5⟩ [.subscript (-1)] = [some (.element 0)] := by decide
  have hl : trace (laptrCommon 4) ⟨0x1000, 1, 5, 0⟩ [.subscript (-1)] = [none] := by decide
  refine ⟨ha, hl, ?_⟩
  intro h
  have heq := h [.subscript (-1)]
  rw [ha, hl] at heq
  cases heq

end Ironclad.Pointers
