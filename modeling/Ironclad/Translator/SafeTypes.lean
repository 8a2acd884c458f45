import Ironclad.Translator.Builder

/-!
# The types that the builder writes

`buildType` writes a nest of safe pointers and arrays around a name. `SafeType` is that nest
as a tree, `buildType` is its text, and `safeType_eq_iff` says when two types are written the
same: they are nested alike around the same name, and the pointers in them are classified
alike.
-/

namespace Ironclad.Translator

/-- A type as it is written; a pointer is either that of a singleton or that of an array. -/
inductive SafeType where
  | named (text : Str)
  | pointer (singleton : Bool) (element : SafeType)
  | array (element : SafeType) (bound : Str)
  deriving DecidableEq, Repr

namespace SafeType

def render (builder : Builder) : SafeType → Str
  | .named text => text
  | .pointer singleton element =>
      (if singleton then builder.safePtrType else builder.safeArrayType) ++ "< ".toList ++
        element.render builder ++ " >".toList
  | .array element bound =>
      "safe::array< ".toList ++ element.render builder ++ ",".toList ++ bound ++ ">".toList

/-- The type that is `n` template arguments further in. -/
def elementAt : Nat → SafeType → Option SafeType
  | 0, t => some t
  | n + 1, .pointer _ element => element.elementAt n
  | n + 1, .array element _ => element.elementAt n
  | _ + 1, .named _ => none

end SafeType

namespace QualType

/-- The name that a type without pointers and arrays, or a typedef, is written with. The
contexts are those of the declaration that the type is written for. -/
def nameText (context : List Str) : QualType → Option Str
  | .typedef _ printed _ => some (getTypeWithoutClass printed [])
  | .other q printed isBoolean =>
      some (if isBoolean then getQualifierString q ++ "bool".toList
        else getTypeWithoutClass printed context)
  | _ => none

/-- The type that is `n` pointers and arrays further in, as far as they are written out. -/
def innerAt : Nat → QualType → Option QualType
  | 0, t => some t
  | n + 1, .pointer _ pointee => pointee.innerAt n
  | n + 1, .array _ element _ => element.innerAt n
  | _ + 1, _ => none

/-- The levels from `level` on at which `buildType` asks for the classification. -/
def consultedLevels : QualType → Nat → List Nat
  | .pointer _ pointee, level => level :: consultedLevels pointee (level + 1)
  | .array _ element _, level => consultedLevels element (level + 1)
  | _, _ => []

/-- The type as it is written, where `singleton` says which levels are singletons. -/
def safeType (singleton : Nat → Bool) (context : List Str) : QualType → Nat → SafeType
  | .pointer _ pointee, level =>
      .pointer (singleton level) (pointee.safeType singleton context (level + 1))
  | .array _ element bound, level =>
      .array (element.safeType singleton context (level + 1)) (boundText bound)
  | t, _ => .named ((t.nameText context).getD [])

/-- Nested alike, with the same bounds, around the same name. -/
def WrittenAlike (context context' : List Str) : QualType → QualType → Prop
  | .pointer _ a, .pointer _ b => WrittenAlike context context' a b
  | .array _ a bound, .array _ b bound' =>
      boundText bound = boundText bound' ∧ WrittenAlike context context' a b
  | a, b => ∃ text, a.nameText context = some text ∧ b.nameText context' = some text

end QualType

/-- **What `buildType` writes is the text of the tree.** -/
theorem Builder.buildType_eq_render (builder : Builder) (d : ValueDecl) (t : QualType)
    (level : Nat) : builder.buildType d t level =
      (t.safeType (builder.isSingleton d) d.context level).render builder := by
  induction t generalizing level with
  | typedef q printed underlying ih => exact builder.buildType_typedef d q printed underlying level
  | pointer q pointee ih => rw [builder.buildType_pointer, ih]; rfl
  | array q element bound ih => rw [builder.buildType_array, ih]; rfl
  | other q printed isBoolean => exact builder.buildType_other d q printed isBoolean level

/-! ## Levels -/

namespace QualType

theorem forall_consultedLevels_succ {P : Nat → Prop} (t : QualType) (level : Nat) :
    (∀ l ∈ t.consultedLevels (level + 1), P l) ↔ ∀ l ∈ t.consultedLevels level, P (l + 1) := by
  induction t generalizing level with
  | pointer q pointee ih =>
      rw [consultedLevels, consultedLevels, List.forall_mem_cons, List.forall_mem_cons, ih]
  | array q element bound ih =>
      rw [consultedLevels, consultedLevels]
      exact ih (level + 1)
  | _ => simp [consultedLevels]

/-- The text of a type depends on the classification at these levels only. -/
theorem safeType_congr {singleton singleton' : Nat → Bool} {context : List Str} (t : QualType)
    (level : Nat) (h : ∀ l ∈ t.consultedLevels level, singleton l = singleton' l) :
    t.safeType singleton context level = t.safeType singleton' context level := by
  induction t generalizing level with
  | pointer q pointee ih =>
      rw [consultedLevels, List.forall_mem_cons] at h
      rw [safeType, safeType, h.1, ih _ h.2]
  | array q element bound ih =>
      rw [safeType, safeType, ih _ h]
  | _ => rfl

/-- **Two types are written the same** iff they are written alike and their pointers are
classified alike. -/
theorem safeType_eq_iff {singleton singleton' : Nat → Bool} {context context' : List Str}
    (a b : QualType) (i j : Nat) :
    a.safeType singleton context i = b.safeType singleton' context' j ↔
      a.WrittenAlike context context' b ∧
        ∀ l ∈ a.consultedLevels 0, singleton (i + l) = singleton' (j + l) := by
  induction a generalizing b i j with
  | pointer q a ih =>
      cases b with
      | pointer q' b =>
          rw [safeType, safeType, SafeType.pointer.injEq, ih, WrittenAlike, consultedLevels,
            List.forall_mem_cons, forall_consultedLevels_succ]
          simp only [Nat.add_zero, Nat.add_assoc, Nat.add_comm 1]
          exact and_left_comm
      | _ => simp [safeType, WrittenAlike, nameText]
  | array q a bound ih =>
      cases b with
      | array q' b bound' =>
          rw [safeType, safeType, SafeType.array.injEq, ih, WrittenAlike, consultedLevels,
            forall_consultedLevels_succ]
          simp only [Nat.add_assoc, Nat.add_comm 1]
          exact and_comm.trans and_assoc.symm
      | _ => simp [safeType, WrittenAlike, nameText]
  | typedef q printed underlying ih =>
      cases b <;> simp [safeType, WrittenAlike, nameText, consultedLevels, eq_comm]
  | other q printed isBoolean =>
      cases b <;> simp [safeType, WrittenAlike, nameText, consultedLevels, eq_comm]

/-- The element types of a declared type are those of its tree. -/
theorem elementAt_safeType {singleton : Nat → Bool} {context : List Str} (n : Nat) (t : QualType)
    (level : Nat) : (t.safeType singleton context level).elementAt n =
      (t.innerAt n).map fun u => u.safeType singleton context (level + n) := by
  induction n generalizing t level with
  | zero => rfl
  | succ n ih =>
      cases t with
      | pointer q pointee =>
          rw [safeType, SafeType.elementAt, innerAt, ih]
          simp only [Nat.add_assoc, Nat.add_comm 1]
      | array q element bound =>
          rw [safeType, SafeType.elementAt, innerAt, ih]
          simp only [Nat.add_assoc, Nat.add_comm 1]
      | _ => rfl

end QualType

end Ironclad.Translator
