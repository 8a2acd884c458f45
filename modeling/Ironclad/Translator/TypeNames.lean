import Ironclad.Logic.Occurrences
import Ironclad.Translator.Builder
import Mathlib.Data.Nat.Find

/-!
# Elaborated type names

`getTypeWithoutClass` deletes `class ` from a printed type. Its loop goes on as long as there is
one in the result, but erases each time where the first one is in the old type: the second round
deletes the six characters behind the first occurrence, whatever they are. The loop always ends,
and never erases behind the end. `cleans_iff` says for which types the result is the right one.
-/

namespace Ironclad.Translator

open Ironclad.Logic

/-- `"class "`. -/
def classWord : Str := ['c', 'l', 'a', 's', 's', ' ']

/-- What `erase` throws for a position behind the end. -/
structure OutOfRange where
  deriving DecidableEq, Repr

/-- `erase(start, n)` as a call; `npos` is behind every end. -/
def eraseAt (start : Option Nat) (n : Nat) (s : Str) : Except OutOfRange Str :=
  match start with
  | some start => if start ≤ s.length then .ok (erase start n s) else .error ⟨⟩
  | none => .error ⟨⟩

/-- The loop of `getTypeWithoutClass`; `none` is running out of fuel. -/
def classLoop (oldType : Str) : Nat → Str → Option (Except OutOfRange Str)
  | 0, _ => none
  | fuel + 1, ret =>
      if (find classWord ret).isSome then
        match eraseAt (find classWord oldType) 6 ret with
        | .ok ret => classLoop oldType fuel ret
        | .error e => some (.error e)
      else some (.ok ret)

/-- `getTypeWithoutClass(oldType)`: without a declaration `cleanContext` changes nothing. -/
def runTypeWithoutClass (fuel : Nat) (oldType : Str) : Option (Except OutOfRange Str) :=
  (classLoop oldType fuel oldType).map fun ret => ret.map (cleanContext [])

/-- The call ends, with every `class ` deleted and every other character kept in order. -/
def Cleans (oldType : Str) : Prop :=
  ∃ N, ∀ fuel, N ≤ fuel →
    runTypeWithoutClass fuel oldType = some (.ok (Text.deleteAll classWord oldType))

/-- The deletion makes no new `class `, and behind the first one every character that stays is the
one that is further on by the occurrences behind it. -/
structure Undrifted (oldType : Str) : Prop where
  noneArises : ∀ i, ¬Text.OccursAt classWord (Text.deleteAll classWord oldType) i
  repeats : ∀ i < oldType.length, (∃ j < i, Text.OccursAt classWord oldType j) →
    ¬Text.Covered classWord oldType i →
      oldType[i + 6 * Text.count classWord (oldType.drop i)]? = oldType[i]?

/-! ## Finding -/

theorem simple_classWord : Text.Simple classWord := ⟨'c', _, rfl, by decide⟩

theorem find_eq {pattern : Str} (hpat : pattern ≠ []) (s : Str) :
    find pattern s = Text.find pattern.isPrefixOf s 0 := by
  induction s with
  | nil =>
      have hempty : pattern.isEmpty = false := by
        rw [List.isEmpty_eq_false_iff]
        exact hpat
      rw [find, hempty]
      rfl
  | cons c s ih =>
      rw [find]
      split
      · rename_i h
        exact (Text.find_eq_some_iff.mpr ⟨le_rfl, Nat.succ_pos _, h, fun j _ hj =>
          absurd hj (Nat.not_lt_zero j)⟩).symm
      · rename_i h
        have happ := Text.find_append pattern.isPrefixOf [c] s 0
        rw [Text.find_succ (Bool.eq_false_iff.mpr h), ih]
        refine Eq.trans ?_ happ.symm
        congr 1
        funext i
        exact Nat.add_comm i 1

theorem find_classWord_eq_some_iff {s : Str} {i : Nat} : find classWord s = some i ↔
    Text.OccursAt classWord s i ∧ ∀ j < i, ¬Text.OccursAt classWord s j := by
  rw [find_eq simple_classWord.ne_nil, Text.find_isPrefixOf_eq_some_iff simple_classWord.ne_nil]

theorem find_classWord_eq_none_iff {s : Str} :
    find classWord s = none ↔ ∀ i, ¬Text.OccursAt classWord s i := by
  rw [find_eq simple_classWord.ne_nil, Text.find_isPrefixOf_eq_none_iff simple_classWord.ne_nil]

theorem lt_length_of_find {s : Str} {p : Nat} (hp : find classWord s = some p) : p < s.length :=
  (find_classWord_eq_some_iff.mp hp).1.lt_length simple_classWord.ne_nil

/-! ## The loop -/

section

variable {oldType : Str} {p : Nat}

/-- The result after `k` rounds. -/
def afterRounds (oldType : Str) (p k : Nat) : Str := oldType.take p ++ oldType.drop (p + 6 * k)

theorem afterRounds_zero : afterRounds oldType p 0 = oldType := List.take_append_drop p oldType

theorem erase_afterRounds (hp : p ≤ oldType.length) (k : Nat) :
    erase p 6 (afterRounds oldType p k) = afterRounds oldType p (k + 1) := by
  have hlen : (oldType.take p).length = p := by
    rw [List.length_take]
    omega
  unfold erase afterRounds
  rw [List.take_left' hlen, List.drop_append, hlen, Nat.add_sub_cancel_left,
    List.drop_eq_nil_of_le (by omega), List.nil_append, List.drop_drop, Nat.mul_succ,
    Nat.add_assoc]

theorem le_length_afterRounds (hp : p ≤ oldType.length) (k : Nat) :
    p ≤ (afterRounds oldType p k).length := by
  unfold afterRounds
  rw [List.length_append, List.length_take]
  omega

/-- The loop goes on after `k` rounds. -/
def GoesOn (oldType : Str) (p k : Nat) : Prop :=
  ∃ i, Text.OccursAt classWord (afterRounds oldType p k) i

theorem find_isSome_iff {s : Str} :
    (find classWord s).isSome = true ↔ ∃ i, Text.OccursAt classWord s i := by
  rw [Option.isSome_iff_ne_none, ne_eq, find_classWord_eq_none_iff]
  exact not_forall_not

/-- An occurrence is never inside of the part that stays. -/
theorem GoesOn.lt_length (hp : find classWord oldType = some p) {k : Nat}
    (h : GoesOn oldType p k) : p < (afterRounds oldType p k).length := by
  obtain ⟨-, hfirst⟩ := find_classWord_eq_some_iff.mp hp
  have hlt := lt_length_of_find hp
  obtain ⟨i, hi⟩ := h
  have hend := hi.add_length_le (hi.lt_length simple_classWord.ne_nil).le
  have hpos : 0 < classWord.length := by decide
  by_contra hge
  -- then it is one of the old type, in front of the first
  unfold afterRounds at hi
  rw [Text.occursAt_append_iff (by rw [List.length_take]; omega)] at hi
  have hold : Text.OccursAt classWord (oldType.take p ++ oldType.drop p) i := hi.append_right
  rw [List.take_append_drop] at hold
  exact hfirst i (by omega) hold

/-- **One round**, which is never out of range. -/
theorem classLoop_round (hp : find classWord oldType = some p) {k : Nat} (h : GoesOn oldType p k)
    (fuel : Nat) : classLoop oldType (fuel + 1) (afterRounds oldType p k) =
      classLoop oldType fuel (afterRounds oldType p (k + 1)) := by
  have hle := (lt_length_of_find hp).le
  rw [classLoop, if_pos (find_isSome_iff.mpr h), hp]
  unfold eraseAt
  simp only [if_pos (le_length_afterRounds hle k), erase_afterRounds hle]

theorem classLoop_rounds (hp : find classWord oldType = some p) (k : Nat)
    (h : ∀ j < k, GoesOn oldType p j) (fuel : Nat) :
    classLoop oldType (fuel + k) oldType = classLoop oldType fuel (afterRounds oldType p k) := by
  induction k generalizing fuel with
  | zero => rw [afterRounds_zero, Nat.add_zero]
  | succ k ih =>
      rw [← Nat.add_assoc, Nat.add_right_comm, ih (fun j hj => h j (by omega)),
        classLoop_round hp (h k (Nat.lt_succ_self k))]

/-- The loop without a bound goes through the same rounds. -/
theorem eraseClass_rounds (hp : find classWord oldType = some p) (k : Nat)
    (h : ∀ j < k, GoesOn oldType p j) :
    eraseClass p oldType = eraseClass p (afterRounds oldType p k) := by
  have hle := (lt_length_of_find hp).le
  induction k with
  | zero => rw [afterRounds_zero]
  | succ k ih =>
      rw [ih fun j hj => h j (by omega), eraseClass, ← erase_afterRounds hle]
      have hk := h k (Nat.lt_succ_self k)
      exact if_pos ⟨find_isSome_iff.mpr hk, hk.lt_length hp⟩

theorem exists_not_goesOn (hp : find classWord oldType = some p) : ∃ k, ¬GoesOn oldType p k := by
  refine ⟨oldType.length, fun h => ?_⟩
  have hlt := h.lt_length hp
  unfold afterRounds at hlt
  rw [List.drop_eq_nil_of_le (by omega), List.append_nil, List.length_take] at hlt
  omega

/-- **The loop ends**, after the first round that leaves no `class `. -/
theorem classLoop_ends (hp : find classWord oldType = some p) :
    ∃ k, (∀ j < k, GoesOn oldType p j) ∧ ¬GoesOn oldType p k ∧
      eraseClass p oldType = afterRounds oldType p k ∧
      ∀ fuel, k + 1 ≤ fuel →
        classLoop oldType fuel oldType = some (.ok (afterRounds oldType p k)) := by
  classical
  have hex := exists_not_goesOn hp
  have hbefore : ∀ j < Nat.find hex, GoesOn oldType p j :=
    fun j hj => not_not.mp (Nat.find_min hex hj)
  have hstop : ¬(find classWord (afterRounds oldType p (Nat.find hex))).isSome = true :=
    fun h => Nat.find_spec hex (find_isSome_iff.mp h)
  refine ⟨Nat.find hex, hbefore, Nat.find_spec hex, ?_, fun fuel hfuel => ?_⟩
  · rw [eraseClass_rounds hp _ hbefore, eraseClass]
    exact if_neg fun h => hstop h.1
  · obtain ⟨n, rfl⟩ := Nat.exists_eq_add_of_le' hfuel
    rw [← Nat.add_assoc, Nat.add_right_comm, classLoop_rounds hp _ hbefore, classLoop,
      if_neg hstop]

end

/-- A type without `class ` is not changed. -/
theorem classLoop_none {oldType : Str} (h : find classWord oldType = none) {fuel : Nat}
    (hfuel : 1 ≤ fuel) : classLoop oldType fuel oldType = some (.ok oldType) := by
  obtain ⟨n, rfl⟩ := Nat.exists_eq_add_of_le' hfuel
  rw [classLoop, h]
  rfl

/-- **The call ends for every type, without an out-of-range erase.** -/
theorem runTypeWithoutClass_ends (oldType : Str) :
    ∃ N, ∀ fuel, N ≤ fuel →
      runTypeWithoutClass fuel oldType = some (.ok (getTypeWithoutClass oldType [])) := by
  unfold runTypeWithoutClass getTypeWithoutClass
  rw [show "class ".toList = classWord from rfl]
  cases hfind : find classWord oldType with
  | none =>
      refine ⟨1, fun fuel hfuel => ?_⟩
      rw [classLoop_none hfind hfuel, Option.getD_none, eraseClass,
        show "class ".toList = classWord from rfl, hfind]
      rfl
  | some p =>
      obtain ⟨k, -, -, heq, hrun⟩ := classLoop_ends hfind
      refine ⟨k + 1, fun fuel hfuel => ?_⟩
      rw [hrun fuel hfuel, Option.getD_some, heq]
      rfl

/-! ## The result -/

section

variable {oldType : Str} {p : Nat}

/-- Behind the first occurrence the kept characters are those of the rest. -/
theorem covered_drop_iff (hp : find classWord oldType = some p) {i : Nat} :
    Text.Covered classWord oldType (p + i) ↔ Text.Covered classWord (oldType.drop p) i := by
  obtain ⟨-, hfirst⟩ := find_classWord_eq_some_iff.mp hp
  have hlt := lt_length_of_find hp
  have hlen : (oldType.take p).length = p := by
    rw [List.length_take]
    omega
  have hapart : Text.Apart classWord (oldType.take p) (oldType.drop p) := by
    intro j hj hat
    rw [List.take_append_drop] at hat
    exact absurd hat (hfirst j (by omega))
  have hcov := hapart.covered_right (i := i)
  rw [List.take_append_drop, hlen] at hcov
  exact hcov

/-- The condition is about the rest from the first occurrence on. -/
theorem repeats_iff (hp : find classWord oldType = some p) :
    (∀ i < oldType.length, (∃ j < i, Text.OccursAt classWord oldType j) →
        ¬Text.Covered classWord oldType i →
          oldType[i + 6 * Text.count classWord (oldType.drop i)]? = oldType[i]?) ↔
      Text.Repeats classWord (oldType.drop p) := by
  obtain ⟨hocc, hfirst⟩ := find_classWord_eq_some_iff.mp hp
  constructor
  · intro h i hi hno
    rw [List.length_drop] at hi
    have hpos : 0 < i := by
      refine Nat.pos_of_ne_zero fun h0 => hno ?_
      rw [h0]
      exact ⟨0, le_rfl, hocc, by decide⟩
    have hat := h (p + i) (by omega) ⟨p, by omega, hocc⟩ fun hc => hno ((covered_drop_iff hp).mp hc)
    rw [List.drop_drop, List.getElem?_drop, List.getElem?_drop, ← Nat.add_assoc]
    exact hat
  · rintro h i hi ⟨j, hj, hat⟩ hno
    have hpj : p ≤ j := not_lt.mp fun hlt => hfirst j hlt hat
    obtain ⟨k, rfl⟩ := Nat.exists_eq_add_of_le (hpj.trans hj.le)
    have hrep := h k (by rw [List.length_drop]; omega) fun hc => hno ((covered_drop_iff hp).mpr hc)
    rw [List.drop_drop, List.getElem?_drop, List.getElem?_drop, ← Nat.add_assoc] at hrep
    exact hrep

/-- **Deleting every occurrence is deleting as much behind the first one** exactly if they
repeat. -/
theorem deleteAll_eq_afterRounds_iff (hp : find classWord oldType = some p) :
    Text.deleteAll classWord oldType =
        afterRounds oldType p (Text.count classWord oldType) ↔
      Text.Repeats classWord (oldType.drop p) := by
  obtain ⟨-, hfirst⟩ := find_classWord_eq_some_iff.mp hp
  rw [← simple_classWord.deleteAll_eq_drop_iff, Text.deleteAll_of_first hfirst,
    Text.count_of_first hfirst]
  unfold afterRounds
  rw [List.append_cancel_left_eq, List.drop_drop]
  rfl

/-- There are as many rounds as occurrences, or more. -/
theorem goesOn_of_lt_count (hp : find classWord oldType = some p) {k : Nat}
    (hk : k < Text.count classWord oldType) : GoesOn oldType p k := by
  obtain ⟨-, hfirst⟩ := find_classWord_eq_some_iff.mp hp
  have hlt := lt_length_of_find hp
  rw [Text.count_of_first hfirst] at hk
  obtain ⟨i, hi, hat⟩ := simple_classWord.exists_occursAt hk
  obtain ⟨j, rfl⟩ := Nat.exists_eq_add_of_le hi
  refine ⟨(oldType.take p).length + j, Text.occursAt_append_add.mpr ?_⟩
  rw [Text.occursAt_drop_iff] at hat ⊢
  rw [Nat.add_assoc]
  exact hat

/-- What the rounds leave is as long as what is left of the type. -/
theorem length_afterRounds (hp : find classWord oldType = some p) (k : Nat) :
    (afterRounds oldType p k).length = p + (oldType.length - (p + 6 * k)) := by
  have hlt := lt_length_of_find hp
  unfold afterRounds
  rw [List.length_append, List.length_take, List.length_drop]
  omega

theorem add_mul_count_le (hp : find classWord oldType = some p) :
    p + 6 * Text.count classWord oldType ≤ oldType.length := by
  obtain ⟨-, hfirst⟩ := find_classWord_eq_some_iff.mp hp
  have hlt := lt_length_of_find hp
  have hlen := simple_classWord.length_deleteAll (oldType.drop p)
  rw [List.length_drop, ← Text.count_of_first hfirst, show classWord.length = 6 from rfl] at hlen
  omega

end

/-- The call gives one result. -/
theorem cleans_iff_of_run {oldType ret : Str} {n : Nat}
    (hrun : ∀ fuel, n ≤ fuel → classLoop oldType fuel oldType = some (.ok ret)) :
    Cleans oldType ↔ ret = Text.deleteAll classWord oldType := by
  have hcall : ∀ fuel, n ≤ fuel → runTypeWithoutClass fuel oldType = some (.ok ret) := by
    intro fuel hfuel
    unfold runTypeWithoutClass
    rw [hrun fuel hfuel]
    rfl
  constructor
  · rintro ⟨N, hN⟩
    have heq := (hcall (max n N) (le_max_left n N)).symm.trans (hN _ (le_max_right n N))
    exact Except.ok.inj (Option.some.inj heq)
  · rintro rfl
    exact ⟨n, hcall⟩

/-- **The type is cleaned correctly exactly if the deletion does not drift.** -/
theorem cleans_iff (oldType : Str) : Cleans oldType ↔ Undrifted oldType := by
  cases hfind : find classWord oldType with
  | none =>
      have hno := find_classWord_eq_none_iff.mp hfind
      have hdelete := Text.deleteAll_of_not_occurs hno
      rw [cleans_iff_of_run fun _ => classLoop_none hfind]
      refine iff_of_true hdelete.symm ⟨?_, fun i _ hbefore => ?_⟩
      · rw [hdelete]
        exact hno
      · obtain ⟨j, -, hat⟩ := hbefore
        exact absurd hat (hno j)
  | some p =>
      obtain ⟨k, hbefore, hstop, -, hrun⟩ := classLoop_ends hfind
      have hcount : Text.count classWord oldType ≤ k :=
        not_lt.mp fun hlt => hstop (goesOn_of_lt_count hfind hlt)
      rw [cleans_iff_of_run hrun]
      constructor
      · intro h
        refine ⟨fun i hat => hstop ⟨i, h ▸ hat⟩, (repeats_iff hfind).mpr ?_⟩
        -- a round too many has found nothing left to erase
        have hsame : afterRounds oldType p k =
            afterRounds oldType p (Text.count classWord oldType) := by
          have hlen := simple_classWord.length_deleteAll oldType
          have hle := add_mul_count_le hfind
          have hrest := length_afterRounds hfind k
          rw [h] at hrest
          rw [show classWord.length = 6 from rfl] at hlen
          rcases hcount.eq_or_lt with heq | hlt
          · rw [heq]
          · unfold afterRounds
            rw [List.drop_eq_nil_of_le (by omega), List.drop_eq_nil_of_le (by omega)]
        exact (deleteAll_eq_afterRounds_iff hfind).mp (h.symm.trans hsame)
      · intro h
        have heq := (deleteAll_eq_afterRounds_iff hfind).mpr ((repeats_iff hfind).mp h.repeats)
        have hk : k = Text.count classWord oldType := by
          refine le_antisymm (not_lt.mp fun hlt => ?_) hcount
          obtain ⟨i, hat⟩ := hbefore _ hlt
          rw [← heq] at hat
          exact h.noneArises i hat
        rw [hk, heq]

/-- One occurrence is deleted correctly, if that makes no new one. -/
theorem undrifted_of_count_le_one {oldType : Str} (hone : Text.count classWord oldType ≤ 1)
    (h : ∀ i, ¬Text.OccursAt classWord (Text.deleteAll classWord oldType) i) :
    Undrifted oldType := by
  refine ⟨h, fun i _ hbefore hno => ?_⟩
  obtain ⟨j, hji, hj⟩ := hbefore
  have hrest : Text.count classWord (oldType.drop i) = 0 := by
    rw [Text.count_eq_zero_iff simple_classWord.ne_nil]
    intro m hm
    rw [Text.occursAt_drop_iff] at hm
    cases hfind : find classWord oldType with
    | none => exact find_classWord_eq_none_iff.mp hfind _ hm
    | some p =>
        obtain ⟨hocc, hfirst⟩ := find_classWord_eq_some_iff.mp hfind
        have hpj : p ≤ j := not_lt.mp fun hlt => hfirst j hlt hj
        have hpi : p + classWord.length ≤ i := not_lt.mp fun hlt => hno ⟨p, by omega, hocc, hlt⟩
        -- nothing is left behind the one occurrence
        obtain ⟨rest, htail⟩ := hocc
        have hdrop : oldType.drop (p + classWord.length) = rest := by
          rw [← List.drop_drop, ← htail, List.drop_left]
        rw [Text.count_of_first hfirst, ← htail, simple_classWord.count_append] at hone
        have hnone := (Text.count_eq_zero_iff simple_classWord.ne_nil).mp
          (show Text.count classWord rest = 0 by omega)
        obtain ⟨n, hn⟩ := Nat.exists_eq_add_of_le (hpi.trans (Nat.le_add_right i m))
        rw [hn, ← Text.occursAt_drop_iff, hdrop] at hm
        exact hnone n hm
  rw [hrest, Nat.mul_zero, Nat.add_zero]

/-! ## A template argument -/

/-- `class A<class B>`. -/
def nestedType : Str :=
  ['c', 'l', 'a', 's', 's', ' ', 'A', '<', 'c', 'l', 'a', 's', 's', ' ', 'B', '>']

/-- It becomes `s B>`, and not `A<B>`. -/
theorem nested_not_cleaned :
    runTypeWithoutClass 3 nestedType = some (.ok ['s', ' ', 'B', '>']) ∧ ¬Cleans nestedType := by
  have hrun : ∀ fuel, 3 ≤ fuel →
      classLoop nestedType fuel nestedType = some (.ok ['s', ' ', 'B', '>']) := by
    intro fuel hfuel
    obtain ⟨n, rfl⟩ := Nat.exists_eq_add_of_le' hfuel
    rfl
  refine ⟨rfl, fun h => ?_⟩
  have heq := (cleans_iff_of_run hrun).mp h
  revert heq
  decide

end Ironclad.Translator
