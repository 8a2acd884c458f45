import Mathlib.Logic.Relation

/-!
# The C++ syntax the refactoring tool visits

Types, declarations, and the statements and expressions of clang's syntax tree, as
far as the analysis looks at them. As in clang an expression is a statement, and
implicit conversions are nodes of their own.
-/

namespace Ironclad.Analysis

/-- A string, as its characters. -/
abbrev Str := List Char

inductive QualType where
  | pointer (pointee : QualType)
  | array (element : QualType)
  | reference (referee : QualType)
  | function
  | other
  deriving DecidableEq, Repr

namespace QualType

def isPointerType : QualType → Bool
  | .pointer _ => true
  | _ => false

def isArrayType : QualType → Bool
  | .array _ => true
  | _ => false

def isFunctionPointerType : QualType → Bool
  | .pointer .function => true
  | _ => false

/-- The type of an expression that names a declaration of this type. -/
def nonReference : QualType → QualType
  | .reference t => t
  | t => t

/-- The type of `p[i]` and `*p`. -/
def elementType : QualType → QualType
  | .pointer t => t
  | .array t => t
  | _ => .other

end QualType

/-- A variable, a parameter or a field, with the names of the contexts it is
declared in, innermost first. -/
structure ValueDecl where
  context : List Str
  name : Str
  type : QualType
  deriving DecidableEq, Repr

structure FunctionDecl where
  context : List Str
  name : Str
  params : List ValueDecl
  resultType : QualType
  deriving DecidableEq, Repr

inductive NamedDecl where
  | value (d : ValueDecl)
  | function (f : FunctionDecl)
  deriving DecidableEq, Repr

namespace NamedDecl

def context : NamedDecl → List Str
  | .value d => d.context
  | .function f => f.context

def name : NamedDecl → Str
  | .value d => d.name
  | .function f => f.name

/-- `getType()`; a function has a function type. -/
def type : NamedDecl → QualType
  | .value d => d.type
  | .function _ => .function

end NamedDecl

inductive UnaryOp where
  | postInc | postDec | preInc | preDec | addrOf | deref | plus | minus | not | lnot
  deriving DecidableEq, Repr

/-- clang's `UnaryOperator::isArithmeticOp`: `+`, `-`, `~` and `!`. -/
def UnaryOp.isArithmeticOp : UnaryOp → Bool
  | .plus | .minus | .not | .lnot => true
  | _ => false

def UnaryOp.isIncrementDecrementOp : UnaryOp → Bool
  | .postInc | .postDec | .preInc | .preDec => true
  | _ => false

inductive BinaryOp where
  | add | sub | mul | compare | logical | comma | assign | addAssign | subAssign | otherAssign
  deriving DecidableEq, Repr

/-- clang's `BinaryOperator::isAssignmentOp`: `=` and the compound assignments. -/
def BinaryOp.isAssignmentOp : BinaryOp → Bool
  | .assign | .addAssign | .subAssign | .otherAssign => true
  | _ => false

inductive Stmt where
  | declRef (d : NamedDecl)
  | member (base : Stmt) (d : NamedDecl)
  | call (callee : Stmt) (args : List Stmt) (type : QualType)
  | subscript (base idx : Stmt)
  | unary (op : UnaryOp) (sub : Stmt)
  | binary (op : BinaryOp) (lhs rhs : Stmt)
  | conditional (cond trueExpr falseExpr : Stmt)
  | implicitCast (type : QualType) (sub : Stmt)
  | explicitCast (type : QualType) (sub : Stmt)
  | paren (sub : Stmt)
  | newExpr (isArray : Bool) (allocated : QualType) (args : List Stmt)
  | literal (type : QualType)
  | declStmt (group : List (ValueDecl × Option Stmt))
  | returnStmt (value : Option Stmt)
  | compound (body : List Stmt)

namespace Stmt

/-- The child nodes, in order. -/
def children : Stmt → List Stmt
  | .declRef _ => []
  | .member base _ => [base]
  | .call callee args _ => callee :: args
  | .subscript base idx => [base, idx]
  | .unary _ sub => [sub]
  | .binary _ lhs rhs => [lhs, rhs]
  | .conditional cond trueExpr falseExpr => [cond, trueExpr, falseExpr]
  | .implicitCast _ sub => [sub]
  | .explicitCast _ sub => [sub]
  | .paren sub => [sub]
  | .newExpr _ _ args => args
  | .literal _ => []
  | .declStmt group => group.filterMap Prod.snd
  | .returnStmt value => value.toList
  | .compound body => body

/-- `IgnoreParenCasts`. -/
def IgnoreParenCasts : Stmt → Stmt
  | .implicitCast _ sub => sub.IgnoreParenCasts
  | .explicitCast _ sub => sub.IgnoreParenCasts
  | .paren sub => sub.IgnoreParenCasts
  | s => s

/-- `getType()`. -/
def type : Stmt → QualType
  | .declRef d => d.type.nonReference
  | .member _ d => d.type.nonReference
  | .call _ _ t => t
  | .subscript base _ => base.type.elementType
  | .unary .deref sub => sub.type.elementType
  | .unary .addrOf sub => .pointer sub.type
  | .unary _ sub => sub.type
  | .binary op lhs rhs =>
      if op.isAssignmentOp then lhs.type
      else match op with
        | .add => if lhs.type.isPointerType then lhs.type else rhs.type
        | .sub => if rhs.type.isPointerType then .other else lhs.type
        | .comma => rhs.type
        | _ => .other
  | .conditional _ trueExpr _ => trueExpr.type
  | .implicitCast t _ => t
  | .explicitCast t _ => t
  | .paren sub => sub.type
  | .newExpr _ allocated _ => .pointer allocated
  | .literal t => t
  | _ => .other

/-- `getDirectCallee()`, from the callee expression of a call. -/
def directCallee (callee : Stmt) : Option FunctionDecl :=
  match callee.IgnoreParenCasts with
  | .declRef (.function f) => some f
  | .member _ (.function f) => some f
  | _ => none

/-- `extractDecl`: the declaration an expression names, through parentheses, casts and
subscripts; of a conditional, the first branch that names a pointer. -/
def extractDecl : Stmt → Option NamedDecl
  | .implicitCast _ sub => sub.extractDecl
  | .explicitCast _ sub => sub.extractDecl
  | .paren sub => sub.extractDecl
  | .declRef d => some d
  | .call callee _ _ => callee.directCallee.map .function
  | .member _ d => some d
  | .subscript base _ => base.extractDecl
  | .conditional _ trueExpr falseExpr =>
      (trueExpr.extractDecl.filter fun d => d.type.isPointerType).or
        (falseExpr.extractDecl.filter fun d => d.type.isPointerType)
  | _ => none

/-- `getSubscriptLevel`. -/
def getSubscriptLevel : Stmt → Nat
  | .implicitCast _ sub => sub.getSubscriptLevel
  | .explicitCast _ sub => sub.getSubscriptLevel
  | .paren sub => sub.getSubscriptLevel
  | .subscript base _ => 1 + base.getSubscriptLevel
  | _ => 0

/-- `isNewExpr`. -/
def isNewExpr (s : Stmt) : Bool :=
  match s.IgnoreParenCasts with
  | .newExpr _ _ _ => true
  | _ => false

/-- The `CXXNewExpr` behind parentheses and casts is an array `new`. -/
def isArrayNew (s : Stmt) : Bool :=
  match s.IgnoreParenCasts with
  | .newExpr isArray _ _ => isArray
  | _ => false

/-- `isCallExpr`. -/
def isCallExpr (s : Stmt) : Bool :=
  match s.IgnoreParenCasts with
  | .call _ _ _ => true
  | _ => false

/-- `s` contains `t`, as itself or at any depth. -/
def Contains (s t : Stmt) : Prop := Relation.ReflTransGen (fun a b => b ∈ a.children) s t

end Stmt

/-- A declaration at the top level of a translation unit. The methods of a record
are functions of their own. -/
inductive TopDecl where
  | var (d : ValueDecl) (init : Option Stmt)
  | function (f : FunctionDecl) (body : Option Stmt) (inSystemHeader : Bool)
  | record (fields : List ValueDecl)

/-- A translation unit: its top-level declarations in order. -/
abbrev TranslationUnit := List TopDecl

/-! ## Sizes -/

theorem Stmt.sizeOf_child_lt {s c : Stmt} (h : c ∈ s.children) : sizeOf c < sizeOf s := by
  cases s with
  | call callee args t =>
      rcases List.mem_cons.mp h with rfl | h
      · simp only [Stmt.call.sizeOf_spec]
        omega
      · have := List.sizeOf_lt_of_mem h
        simp only [Stmt.call.sizeOf_spec]
        omega
  | newExpr isArray t args =>
      have := List.sizeOf_lt_of_mem (show c ∈ args from h)
      simp only [Stmt.newExpr.sizeOf_spec]
      omega
  | compound body =>
      have := List.sizeOf_lt_of_mem (show c ∈ body from h)
      simp only [Stmt.compound.sizeOf_spec]
      omega
  | declStmt group =>
      obtain ⟨⟨d, init⟩, hmem, hinit⟩ := List.mem_filterMap.mp h
      have := List.sizeOf_lt_of_mem hmem
      subst hinit
      simp only [Prod.mk.sizeOf_spec, Option.some.sizeOf_spec] at this
      simp only [Stmt.declStmt.sizeOf_spec]
      omega
  | returnStmt value =>
      obtain rfl := Option.mem_toList.mp h
      simp only [Stmt.returnStmt.sizeOf_spec, Option.some.sizeOf_spec]
      omega
  | _ =>
      simp only [children, List.mem_cons, List.not_mem_nil, or_false] at h
      try contradiction
      all_goals
        rcases h with rfl | rfl | rfl <;> simp <;> omega

theorem Stmt.sizeOf_ignoreParenCasts_le (s : Stmt) : sizeOf s.IgnoreParenCasts ≤ sizeOf s := by
  induction s using Stmt.IgnoreParenCasts.induct with
  | case1 t sub ih =>
      simp only [IgnoreParenCasts, implicitCast.sizeOf_spec]
      omega
  | case2 t sub ih =>
      simp only [IgnoreParenCasts, explicitCast.sizeOf_spec]
      omega
  | case3 sub ih =>
      simp only [IgnoreParenCasts, paren.sizeOf_spec]
      omega
  | case4 s h1 h2 h3 =>
      have h : s.IgnoreParenCasts = s := by rw [IgnoreParenCasts] <;> assumption
      exact h.symm ▸ Nat.le_refl _

end Ironclad.Analysis
