import Ironclad.Analysis.Visitor

/-!
# What the analysis recognises

The array uses and the flows that the visitor records, read off the syntax, without
the pointer map and without any order: which nodes the traversal reaches (`Visited`),
and what it takes from each of them (`Recognises`). Both depend on which keys have a
record (`R`): a null record stays null once it was asked for, so it does not matter
when the question is asked.

`Detected` is the classification this amounts to: what is connected to a recognised
array use by recorded flows.
-/

namespace Ironclad.Analysis

open Ironclad.Logic

/-- What a visit can leave behind: an array use of a key, a flow into the record of
`dst` from `src`, or a null pointer dereference. -/
inductive Event where
  | use (k : Key)
  | flow (dst src : Key)
  | fail
  deriving DecidableEq, Repr

/-- The declaration that `HandleInit` takes the value from. -/
def initSource (init : Stmt) : Option NamedDecl :=
  match init.IgnoreParenCasts with
  | .declRef d => some d
  | .call callee _ _ => callee.directCallee.map .function
  | .member _ d => some d
  | _ => none

/-- The variables that get a record. -/
def ValueDecl.isPointerOrArray (d : ValueDecl) : Bool :=
  d.type.isPointerType || d.type.isArrayType

/-- The nodes without a handler of their own. -/
def Stmt.isPlain : Stmt → Bool
  | .declRef _ | .member _ _ | .conditional _ _ _ | .implicitCast _ _ | .paren _
  | .literal _ | .compound _ => true
  | _ => false

section

variable (R : Key → Prop)

/-- The assignments that `VisitBinaryOperator` looks into, with their declaration. -/
structure Assigns (op : BinaryOp) (lhs : Stmt) (d : NamedDecl) : Prop where
  isAssignment : op.isAssignmentOp = true
  isPointer : lhs.type.isPointerType = true
  extract : lhs.extractDecl = some d

/-- The arguments that `VisitCallExpr` looks into, with their parameter. -/
structure Passes (callee : Stmt) (args : List Stmt) (arg : Stmt) (param : ValueDecl) : Prop where
  mem : ∃ f, callee.directCallee = some f ∧ (arg, param) ∈ args.zip f.params
  isPointer : (arg.type.isPointerType && !arg.type.isFunctionPointerType) = true

/-- The handler of the first node visits the second. -/
inductive Next : Stmt → Stmt → Prop
  | unary {op sub t} : t ∈ sub.children → Next (.unary op sub) t
  | lhs {op lhs rhs t} : t ∈ lhs.IgnoreParenCasts.children → Next (.binary op lhs rhs) t
  | rhs {op lhs rhs t} : t ∈ rhs.IgnoreParenCasts.children → Next (.binary op lhs rhs) t
  | assignedCall {op lhs rhs d t} : Assigns op lhs d →
      R (convertToUniqueString d lhs.getSubscriptLevel) → rhs.isNewExpr = false →
      rhs.isCallExpr = true → t ∈ rhs.children → Next (.binary op lhs rhs) t
  | base {base idx t} : t ∈ base.children → Next (.subscript base idx) t
  | idx {base idx t} : t ∈ idx.children → Next (.subscript base idx) t
  | argument {callee args ty arg param t} : Passes callee args arg param →
      t ∈ arg.children → Next (.call callee args ty) t
  | explicitCast {ty sub t} : t ∈ sub.children → Next (.explicitCast ty sub) t
  | plain {s t} : s.isPlain = true → t ∈ s.children → Next s t

/-- The nodes that a visit of the first one reaches. -/
def Visited : Stmt → Stmt → Prop := Relation.ReflTransGen (Next R)

/-- What the handler of a node records, in the body of the function `cur`. -/
inductive Recognises (cur : Option FunctionDecl) : Stmt → Event → Prop
  | unary {op sub d} : op.isArithmeticOp = true → sub.type.isPointerType = true →
      sub.extractDecl = some d →
      Recognises cur (.unary op sub) (.use (convertToUniqueString d 0))
  | assignNew {op lhs rhs d} : Assigns op lhs d → rhs.isArrayNew = true →
      Recognises cur (.binary op lhs rhs)
        (.use (convertToUniqueString d lhs.getSubscriptLevel))
  | assign {op lhs rhs d s} : Assigns op lhs d → rhs.isNewExpr = false →
      rhs.isCallExpr = false → rhs.extractDecl = some s →
      Recognises cur (.binary op lhs rhs)
        (.flow (convertToUniqueString d lhs.getSubscriptLevel) (convertToUniqueString s 0))
  | assignCall {op lhs rhs d c} : Assigns op lhs d → rhs.isNewExpr = false →
      rhs.isCallExpr = true → rhs.extractDecl = some c → R (convertToUniqueString c 0) →
      Recognises cur (.binary op lhs rhs)
        (.flow (convertToUniqueString d lhs.getSubscriptLevel) (convertToUniqueString c 0))
  | assignCallBack {op lhs rhs d c} : Assigns op lhs d → rhs.isNewExpr = false →
      rhs.isCallExpr = true → rhs.extractDecl = some c →
      R (convertToUniqueString d lhs.getSubscriptLevel) →
      Recognises cur (.binary op lhs rhs)
        (.flow (convertToUniqueString c 0) (convertToUniqueString d 0))
  | subscript {base idx d} : base.type.isPointerType = true → base.extractDecl = some d →
      Recognises cur (.subscript base idx) (.use (convertToUniqueString d 0))
  | subscriptFail {base idx} : base.type.isPointerType = true → base.extractDecl = none →
      Recognises cur (.subscript base idx) .fail
  | argument {callee args ty arg param a} : Passes callee args arg param →
      arg.extractDecl = some a →
      Recognises cur (.call callee args ty)
        (.flow (convertToUniqueString (.value param) 0) (convertToUniqueString a 0))
  | argumentSelf {callee args ty arg param a} : Passes callee args arg param →
      arg.extractDecl = some a → ¬R (convertToUniqueString (.value param) 0) →
      Recognises cur (.call callee args ty)
        (.flow (convertToUniqueString a 0) (convertToUniqueString a 0))
  | initNew {group d init} : (d, some init) ∈ group → d.isPointerOrArray = true →
      init.isArrayNew = true →
      Recognises cur (.declStmt group) (.use (convertToUniqueString (.value d) 0))
  | initFrom {group d init s} : (d, some init) ∈ group → d.isPointerOrArray = true →
      initSource init = some s →
      Recognises cur (.declStmt group)
        (.flow (convertToUniqueString (.value d) 0) (convertToUniqueString s 0))
  | initFail {group d init} : (d, some init) ∈ group → d.isPointerOrArray = true →
      (init.isArrayNew = true ∨ initSource init ≠ none) →
      ¬R (convertToUniqueString (.value d) 0) → Recognises cur (.declStmt group) .fail
  | returnNew {f expr} : cur = some f → expr.isArrayNew = true →
      Recognises cur (.returnStmt (some expr)) (.use (convertToUniqueString (.function f) 0))
  | returnFrom {f expr d} : cur = some f → expr.isNewExpr = false → expr.extractDecl = some d →
      Recognises cur (.returnStmt (some expr))
        (.flow (convertToUniqueString d 0) (convertToUniqueString (.function f) 0))

/-- The nodes of a translation unit that are visited, with the function they are in.
A variable at the top level is visited like a declaration of its own. -/
inductive VisitedIn (unit : TranslationUnit) : Option FunctionDecl → Stmt → Prop
  | var {d init} : .var d init ∈ unit → VisitedIn unit none (.declStmt [(d, init)])
  | body {f body c t} : .function f (some body) false ∈ unit → c ∈ body.children →
      Visited R c t → VisitedIn unit (some f) t

/-- An event of the visits of a translation unit. -/
def Occurs (unit : TranslationUnit) (e : Event) : Prop :=
  ∃ cur t, VisitedIn R unit cur t ∧ Recognises R cur t e

/-- The keys with a record of which an array use is recognised. -/
def RecognisedUses (unit : TranslationUnit) : Set Key := {k | R k ∧ Occurs R unit (.use k)}

/-- The flows from `src` into `dst` that are recorded, between keys with a record. -/
def RecordedFlow (unit : TranslationUnit) (dst src : Key) : Prop :=
  R dst ∧ R src ∧ Occurs R unit (.flow dst src)

/-- The keys connected to a recognised array use by recorded flows. -/
def Detected (unit : TranslationUnit) : Set Key :=
  closure (RecordedFlow R unit) (RecognisedUses R unit)

end

end Ironclad.Analysis
