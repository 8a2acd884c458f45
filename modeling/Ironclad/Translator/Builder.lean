import Ironclad.Translator.DeclText

/-!
# The builder: types and variables as text

`Builder` writes the smart pointer type of a declaration. What clang prints (a type without
pointers, a typedef's name, an array bound, an initialiser) is part of the tree, and the
classification that the analysis made is a function of the builder.
-/

namespace Ironclad.Translator

/-- The local qualifiers of a type. -/
structure Qualifiers where
  isConst : Bool
  isRestrict : Bool
  isVolatile : Bool
  deriving DecidableEq, Repr

/-- The size of an array type; `expr` is printed from a dependent or a variable size. -/
inductive ArrayBound where
  | constant (n : Nat)
  | expr (text : Str)
  | incomplete
  deriving DecidableEq, Repr

/-- A type; `printed` is `getAsString()`. -/
inductive QualType where
  | typedef (q : Qualifiers) (printed : Str) (underlying : QualType)
  | pointer (q : Qualifiers) (pointee : QualType)
  | array (q : Qualifiers) (element : QualType) (bound : ArrayBound)
  | other (q : Qualifiers) (printed : Str) (isBoolean : Bool)
  deriving DecidableEq, Repr

def QualType.qualifiers : QualType → Qualifiers
  | .typedef q _ _ => q
  | .pointer q _ => q
  | .array q _ _ => q
  | .other q _ _ => q

/-- An initialiser: what the builder makes of it, empty if nothing, and the source text. -/
structure Init where
  expression : Str
  source : Str
  deriving DecidableEq, Repr

/-- Where a variable is stored, as far as the builder asks. -/
inductive Storage where
  | staticLocal
  | staticMember (isOutOfLine : Bool)
  | other
  deriving DecidableEq, Repr

inductive DeclKind where
  | var (storage : Storage) (isExternC : Bool) (init : Option Init)
  | parm (defaultArg : Option Init)
  | field (inClassInit : Option Str)
  deriving DecidableEq, Repr

/-- A variable, a parameter or a field. `context` holds the names of the contexts that it is
written in, innermost first, and `start` is `getLocStart()`. -/
structure ValueDecl where
  context : List Str
  name : Str
  qualifiedName : Str
  type : QualType
  start : Nat
  validRange : Bool
  kind : DeclKind
  deriving DecidableEq, Repr

/-! ## Names of types -/

/-- `find`: the position of the first occurrence. -/
def find (pattern : Str) : Str → Option Nat
  | [] => if pattern.isEmpty then some 0 else none
  | c :: s =>
      if pattern.isPrefixOf (c :: s) then some 0 else (find pattern s).map (· + 1)

/-- `erase(start, n)`. -/
def erase (start n : Nat) (s : Str) : Str := s.take start ++ s.drop (start + n)

/-- `cleanContext` for a variable: the first occurrence of each enclosing context's name,
with `::` behind it, is erased. -/
def cleanContext (context : List Str) (current : Str) : Str :=
  context.foldl (fun current parent =>
    let name := match find "class ".toList parent with
      | some start => erase start 6 parent
      | none => parent
    let token := name ++ "::".toList
    match find token current with
    | some start => erase start token.length current
    | none => current) current

/-- The loop of `getTypeWithoutClass`. It erases at the first occurrence in the old type
each time, which stays inside of the text as long as there is an occurrence. -/
def eraseClass (start : Nat) (ret : Str) : Str :=
  if (find "class ".toList ret).isSome ∧ start < ret.length then
    eraseClass start (erase start 6 ret)
  else ret
termination_by ret.length
decreasing_by
  rename_i h
  simp only [erase, List.length_append, List.length_take, List.length_drop]
  omega

/-- `getTypeWithoutClass`; without a declaration the context is empty. -/
def getTypeWithoutClass (oldType : Str) (context : List Str) : Str :=
  cleanContext context (eraseClass ((find "class ".toList oldType).getD 0) oldType)

def getQualifierString (q : Qualifiers) : Str :=
  (if q.isConst then "const ".toList else []) ++
    (if q.isRestrict then "restrict ".toList else []) ++
      (if q.isVolatile then "volatile ".toList else [])

/-! ## Types and variables -/

/-- The members of `Builder`: the types for singletons and arrays, and the analysis. -/
structure Builder where
  safePtrType : Str
  safeArrayType : Str
  isSingleton : ValueDecl → Nat → Bool

/-- The size of an array in a type. -/
def boundText : ArrayBound → Str
  | .constant n => (toString n).toList
  | .expr text => text
  | .incomplete => []

/-- `buildType`. -/
def Builder.buildType (builder : Builder) (namedDecl : ValueDecl) : QualType → Nat → Str
  | .typedef _ printed _, _ => getTypeWithoutClass printed []
  | .pointer _ pointee, level =>
      (if builder.isSingleton namedDecl level then builder.safePtrType
        else builder.safeArrayType) ++ "< ".toList ++
        builder.buildType namedDecl pointee (level + 1) ++ " >".toList
  | .array _ element bound, level =>
      "safe::array< ".toList ++ builder.buildType namedDecl element (level + 1) ++ ",".toList ++
        boundText bound ++ ">".toList
  | .other q printed isBoolean, _ =>
      if isBoolean then getQualifierString q ++ "bool".toList
      else getTypeWithoutClass printed namedDecl.context

theorem Builder.buildType_pointer (builder : Builder) (d : ValueDecl) (q : Qualifiers)
    (pointee : QualType) (level : Nat) : builder.buildType d (.pointer q pointee) level =
      (if builder.isSingleton d level then builder.safePtrType else builder.safeArrayType) ++
        "< ".toList ++ builder.buildType d pointee (level + 1) ++ " >".toList := by
  conv_lhs => unfold Builder.buildType

theorem Builder.buildType_array (builder : Builder) (d : ValueDecl) (q : Qualifiers)
    (element : QualType) (bound : ArrayBound) (level : Nat) :
    builder.buildType d (.array q element bound) level =
      "safe::array< ".toList ++ builder.buildType d element (level + 1) ++ ",".toList ++
        boundText bound ++ ">".toList := by
  conv_lhs => unfold Builder.buildType

theorem Builder.buildType_typedef (builder : Builder) (d : ValueDecl) (q : Qualifiers)
    (printed : Str) (underlying : QualType) (level : Nat) :
    builder.buildType d (.typedef q printed underlying) level = getTypeWithoutClass printed [] := by
  conv_lhs => unfold Builder.buildType

theorem Builder.buildType_other (builder : Builder) (d : ValueDecl) (q : Qualifiers)
    (printed : Str) (isBoolean : Bool) (level : Nat) :
    builder.buildType d (.other q printed isBoolean) level =
      if isBoolean then getQualifierString q ++ "bool".toList
      else getTypeWithoutClass printed d.context := by
  conv_lhs => unfold Builder.buildType

namespace ValueDecl

/-- The name that is written: qualified for a static member out of its class. -/
def writtenName (d : ValueDecl) : Str :=
  match d.kind with
  | .var (.staticMember true) _ _ => d.qualifiedName
  | _ => d.name

/-- What `buildVariable` writes in front of the qualifiers. -/
def staticText (d : ValueDecl) : Str :=
  match d.kind with
  | .var .staticLocal _ _ => "static ".toList
  | .var (.staticMember false) _ _ => "static ".toList
  | _ => []

/-- What `translatePointer` writes in front of the first variable. -/
def externText (d : ValueDecl) : Str :=
  match d.kind with
  | .var _ true _ => "extern ".toList
  | _ => []

end ValueDecl

/-- `buildVariable`. -/
def Builder.buildVariable (builder : Builder) (d : ValueDecl) : Str :=
  d.staticText ++ getQualifierString d.type.qualifiers ++ builder.buildType d d.type 0 ++
    " ".toList ++ d.writtenName

/-- The text of an initialiser: what the builder makes of it, or else the source. -/
def Init.text (init : Init) : Str :=
  if init.expression = [] then init.source else init.expression

/-- `HandleInit`: nothing is written for the initialiser of a field. -/
def HandleInit (d : ValueDecl) : Str :=
  match d.kind with
  | .parm (some init) => " = ".toList ++ init.text
  | .var _ _ (some init) =>
      if init.expression ≠ [] then " = ".toList ++ init.expression
      else if init.source ≠ [] then " = ".toList ++ init.source
      else []
  | _ => []

end Ironclad.Translator
