import Ironclad.Logic.Preorder

/-!
# The C++ syntax that the validator visits

Types with their typedefs and the smart pointers of the library, and the tree of
declarations, statements and expressions that clang's recursive visitor goes through. The
three kinds of node are one type, since the visitor treats them alike. Parameters are
variables, with the default argument as the initialiser; the fields of a record are part of
its node, with their initialisers in the class.
-/

namespace Ironclad.Validator

open Ironclad.Logic

/-- A string, as its characters. -/
abbrev Str := List Char

/-- The class templates of the library. -/
inductive SmartPointer where
  | ptr | aptr | lptr | laptr | array
  deriving DecidableEq, Repr

/-- A type; `typedef` is a typedef's name with the type that it stands for. -/
inductive QualType where
  | named (name : Str)
  | pointer (pointee : QualType)
  | array (element : QualType)
  | reference (referee : QualType)
  | function (result : QualType)
  | smart (kind : SmartPointer) (element : QualType)
  | typedef (name : Str) (underlying : QualType)
  deriving DecidableEq, Repr

namespace QualType

/-- The type without typedefs in front. -/
def canonical : QualType → QualType
  | .typedef _ t => t.canonical
  | t => t

def isPointerType (t : QualType) : Bool :=
  match t.canonical with
  | .pointer _ => true
  | _ => false

def isArrayType (t : QualType) : Bool :=
  match t.canonical with
  | .array _ => true
  | _ => false

def isReferenceType (t : QualType) : Bool :=
  match t.canonical with
  | .reference _ => true
  | _ => false

def isFunctionPointerType (t : QualType) : Bool :=
  match t.canonical with
  | .pointer p => match p.canonical with
    | .function _ => true
    | _ => false
  | _ => false

/-- The type of an expression that names a declaration of this type. -/
def nonReference (t : QualType) : QualType :=
  match t.canonical with
  | .reference r => r
  | _ => t

/-- The type of `p[i]` and `*p`. -/
def elementType (t : QualType) : QualType :=
  match t.canonical with
  | .pointer p => p
  | .array e => e
  | t => t

theorem isFunctionPointerType_isPointerType {t : QualType} (h : t.isFunctionPointerType = true) :
    t.isPointerType = true := by
  unfold isFunctionPointerType at h
  unfold isPointerType
  cases ht : t.canonical with
  | pointer p => rfl
  | _ => simp [ht] at h

end QualType

/-- A context that a declaration is written in. -/
inductive DeclContext where
  | namespaceDecl (name : Str)
  | recordDecl (name : Str)
  | functionDecl (name : Str)
  deriving DecidableEq, Repr

/-- A variable, a parameter or a field, with the contexts it is written in, innermost
first. -/
structure ValueDecl where
  context : List DeclContext
  name : Str
  type : QualType
  isParm : Bool
  deriving DecidableEq, Repr

structure FunctionDecl where
  context : List DeclContext
  name : Str
  params : List ValueDecl
  resultType : QualType
  inSystemHeader : Bool
  deriving DecidableEq, Repr

inductive NamedDecl where
  | value (d : ValueDecl)
  | function (f : FunctionDecl)
  deriving DecidableEq, Repr

namespace NamedDecl

/-- `getLexicalDeclContext()` and its parents. -/
def context : NamedDecl → List DeclContext
  | .value d => d.context
  | .function f => f.context

/-- `getType()`. -/
def type : NamedDecl → QualType
  | .value d => d.type
  | .function f => .function f.resultType

end NamedDecl

inductive UnaryOp where
  | addrOf | deref | other
  deriving DecidableEq, Repr

inductive BinaryOp where
  | assign | compoundAssign | add | sub | comma | other
  deriving DecidableEq, Repr

/-- clang's `BinaryOperator::isAssignmentOp`: `=` and the compound assignments. -/
def BinaryOp.isAssignmentOp : BinaryOp → Bool
  | .assign | .compoundAssign => true
  | _ => false

/-- The explicit casts. -/
inductive CastKind where
  | cStyle | functional | staticCast | dynamicCast | reinterpretCast | constCast
  deriving DecidableEq, Repr

inductive Node where
  -- declarations
  | varDecl (d : ValueDecl) (init : Option Node)
  | functionDecl (f : FunctionDecl) (params : List Node) (body : Option Node)
  | constructorDecl (f : FunctionDecl) (params : List Node)
      (inits : List (Option ValueDecl × Node)) (body : Option Node)
  | recordDecl (name : Str) (fields : List (ValueDecl × Option Node)) (members : List Node)
  | typedefDecl (name : Str) (underlying : QualType)
  | contextDecl (decls : List Node)
  -- statements
  | declStmt (group : List Node)
  | returnStmt (value : Option Node)
  | otherStmt (children : List Node)
  -- expressions
  | declRef (d : NamedDecl)
  | member (base : Node) (d : NamedDecl)
  | subscript (base idx : Node)
  | unary (op : UnaryOp) (sub : Node)
  | binary (op : BinaryOp) (lhs rhs : Node)
  | conditional (cond trueExpr falseExpr : Node)
  | call (isOperator : Bool) (callee : Node) (args : List Node) (type : QualType)
  | construct (type : QualType) (args : List Node)
  | bindTemporary (sub : Node)
  | materializeTemporary (sub : Node)
  | exprWithCleanups (sub : Node)
  | implicitCast (type : QualType) (sub : Node)
  | explicitCast (kind : CastKind) (type : QualType) (sub : Node)
  | paren (sub : Node)
  | thisExpr (type : QualType)
  | newExpr (allocated : QualType) (args : List Node)
  | deleteExpr (arg : Node)
  | otherExpr (type : QualType) (children : List Node)

namespace Node

/-- The child nodes, in the order of the traversal. -/
def children : Node → List Node
  | .varDecl _ init => init.toList
  | .functionDecl _ params body => params ++ body.toList
  | .constructorDecl _ params inits body => params ++ inits.map Prod.snd ++ body.toList
  | .recordDecl _ fields members => fields.filterMap Prod.snd ++ members
  | .typedefDecl _ _ => []
  | .contextDecl decls => decls
  | .declStmt group => group
  | .returnStmt value => value.toList
  | .otherStmt children => children
  | .declRef _ => []
  | .member base _ => [base]
  | .subscript base idx => [base, idx]
  | .unary _ sub => [sub]
  | .binary _ lhs rhs => [lhs, rhs]
  | .conditional cond trueExpr falseExpr => [cond, trueExpr, falseExpr]
  | .call _ callee args _ => callee :: args
  | .construct _ args => args
  | .bindTemporary sub => [sub]
  | .materializeTemporary sub => [sub]
  | .exprWithCleanups sub => [sub]
  | .implicitCast _ sub => [sub]
  | .explicitCast _ _ sub => [sub]
  | .paren sub => [sub]
  | .thisExpr _ => []
  | .newExpr _ args => args
  | .deleteExpr arg => [arg]
  | .otherExpr _ children => children

theorem sizeOf_toList {o : Option Node} {c : Node} (h : c ∈ o.toList) : sizeOf c < sizeOf o := by
  obtain rfl := Option.mem_toList.mp h
  simp only [Option.some.sizeOf_spec]
  omega

theorem sizeOf_inits {inits : List (Option ValueDecl × Node)} {c : Node}
    (h : c ∈ inits.map Prod.snd) : sizeOf c < sizeOf inits := by
  obtain ⟨⟨d, init⟩, hmem, rfl⟩ := List.mem_map.mp h
  have := List.sizeOf_lt_of_mem hmem
  simp only [Prod.mk.sizeOf_spec] at this
  show sizeOf init < _
  omega

theorem sizeOf_fields {fields : List (ValueDecl × Option Node)} {c : Node}
    (h : c ∈ fields.filterMap Prod.snd) : sizeOf c < sizeOf fields := by
  obtain ⟨⟨d, init⟩, hmem, hinit⟩ := List.mem_filterMap.mp h
  have := List.sizeOf_lt_of_mem hmem
  subst hinit
  simp only [Prod.mk.sizeOf_spec, Option.some.sizeOf_spec] at this
  omega

theorem sizeOf_child_lt {n c : Node} (h : c ∈ n.children) : sizeOf c < sizeOf n := by
  cases n with
  | functionDecl f params body =>
      simp only [functionDecl.sizeOf_spec]
      rcases List.mem_append.mp h with h | h
      · have := List.sizeOf_lt_of_mem h
        omega
      · have := sizeOf_toList h
        omega
  | constructorDecl f params inits body =>
      simp only [constructorDecl.sizeOf_spec]
      rcases List.mem_append.mp h with h | h
      · rcases List.mem_append.mp h with h | h
        · have := List.sizeOf_lt_of_mem h
          omega
        · have := sizeOf_inits h
          omega
      · have := sizeOf_toList h
        omega
  | call isOperator callee args t =>
      simp only [call.sizeOf_spec]
      rcases List.mem_cons.mp h with rfl | h
      · omega
      · have := List.sizeOf_lt_of_mem h
        omega
  | recordDecl name fields members =>
      simp only [recordDecl.sizeOf_spec]
      rcases List.mem_append.mp h with h | h
      · have := sizeOf_fields h
        omega
      · have := List.sizeOf_lt_of_mem h
        omega
  | varDecl d init | returnStmt init =>
      have := sizeOf_toList h
      simp
      omega
  | contextDecl l | declStmt l | otherStmt l | construct t l | newExpr t l
  | otherExpr t l =>
      have := List.sizeOf_lt_of_mem (show c ∈ l from h)
      simp
      omega
  | _ =>
      simp only [children, List.mem_cons, List.not_mem_nil, or_false] at h
      try contradiction
      all_goals
        rcases h with rfl | rfl | rfl <;> simp <;> omega

instance : NodeTree Node where
  children := children
  wf := Subrelation.wf sizeOf_child_lt (measure sizeOf).wf

/-- `getType()` of an expression. -/
def type : Node → QualType
  | .declRef d => d.type.nonReference
  | .member _ d => d.type.nonReference
  | .subscript base _ => base.type.elementType
  | .unary .deref sub => sub.type.elementType
  | .unary .addrOf sub => .pointer sub.type
  | .unary _ sub => sub.type
  | .binary op lhs rhs =>
      if op.isAssignmentOp then lhs.type
      else match op with
        | .add => if lhs.type.isPointerType then lhs.type else rhs.type
        | .comma => rhs.type
        | _ => lhs.type
  | .conditional _ trueExpr _ => trueExpr.type
  | .call _ _ _ t => t
  | .construct t _ => t
  | .bindTemporary sub => sub.type
  | .materializeTemporary sub => sub.type
  | .exprWithCleanups sub => sub.type
  | .implicitCast t _ => t
  | .explicitCast _ t _ => t
  | .paren sub => sub.type
  | .thisExpr t => t
  | .newExpr allocated _ => .pointer allocated
  | .otherExpr t _ => t
  | _ => .named "void".toList

/-- `IgnoreParenCasts`: parentheses, casts and materialised temporaries. -/
def IgnoreParenCasts : Node → Node
  | .paren sub => sub.IgnoreParenCasts
  | .implicitCast _ sub => sub.IgnoreParenCasts
  | .explicitCast _ _ sub => sub.IgnoreParenCasts
  | .materializeTemporary sub => sub.IgnoreParenCasts
  | n => n

/-- `IgnoreParenImpCasts`. -/
def IgnoreParenImpCasts : Node → Node
  | .paren sub => sub.IgnoreParenImpCasts
  | .implicitCast _ sub => sub.IgnoreParenImpCasts
  | .materializeTemporary sub => sub.IgnoreParenImpCasts
  | n => n

/-- `getDirectCallee()`, from the callee expression of a call. -/
def directCallee (callee : Node) : Option FunctionDecl :=
  match callee.IgnoreParenCasts with
  | .declRef (.function f) => some f
  | .member _ (.function f) => some f
  | _ => none

/-- `extractDecl`: the declaration an expression names, through parentheses, casts and
subscripts; of a conditional, the first branch that names a pointer. -/
def extractDecl : Node → Option NamedDecl
  | .paren sub => sub.extractDecl
  | .implicitCast _ sub => sub.extractDecl
  | .explicitCast _ _ sub => sub.extractDecl
  | .materializeTemporary sub => sub.extractDecl
  | .declRef d => some d
  | .call _ callee _ _ => callee.directCallee.map .function
  | .member _ d => some d
  | .subscript base _ => base.extractDecl
  | .conditional _ trueExpr falseExpr =>
      (trueExpr.extractDecl.filter fun d => d.type.isPointerType).or
        (falseExpr.extractDecl.filter fun d => d.type.isPointerType)
  | _ => none

end Node

end Ironclad.Validator
