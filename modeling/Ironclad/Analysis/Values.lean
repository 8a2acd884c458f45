import Ironclad.Analysis.Syntax

/-!
# Pointer values in a program

What a program does with the pointers it declares, independently of the tool: which
declaration's value an expression yields and at which nesting level, which uses make
a pointer an array pointer, and where values flow directly from one declaration to
another.
-/

namespace Ironclad.Analysis

/-- The type of the values of a declaration: of a function, that of its result. -/
def NamedDecl.valueType : NamedDecl → QualType
  | .value d => d.type
  | .function f => f.resultType

/-- The type of the elements `level` levels down. -/
def QualType.atLevel : QualType → Nat → QualType
  | t, 0 => t
  | t, level + 1 => t.elementType.atLevel level

/-- The values of `d` are pointers at this nesting level. -/
def PointerAt (d : NamedDecl) (level : Nat) : Prop :=
  (d.valueType.atLevel level).isPointerType = true

/-- The expression yields the value of a variable, member or function result at a
nesting level: `p` at level 0, `p[i]` and `*p` at level 1. -/
inductive Yields : Stmt → NamedDecl → Nat → Prop
  | declRef {v} : Yields (.declRef (.value v)) (.value v) 0
  | member {base v} : Yields (.member base (.value v)) (.value v) 0
  | call {callee args ty f} : callee.directCallee = some f →
      Yields (.call callee args ty) (.function f) 0
  | subscript {base idx d l} : Yields base d l → Yields (.subscript base idx) d (l + 1)
  | deref {sub d l} : Yields sub d l → Yields (.unary .deref sub) d (l + 1)
  | implicitCast {ty sub d l} : Yields sub d l → Yields (.implicitCast ty sub) d l
  | explicitCast {ty sub d l} : Yields sub d l → Yields (.explicitCast ty sub) d l
  | paren {sub d l} : Yields sub d l → Yields (.paren sub) d l
  | trueExpr {c t f d l} : Yields t d l → Yields (.conditional c t f) d l
  | falseExpr {c t f d l} : Yields f d l → Yields (.conditional c t f) d l

/-- A node anywhere in the program, with the function it is in. The bodies in system
headers are not part of it. -/
inductive InProgram (unit : TranslationUnit) : Option FunctionDecl → Stmt → Prop
  | init {d init t} : .var d (some init) ∈ unit → init.Contains t → InProgram unit none t
  | body {f body t} : .function f (some body) false ∈ unit → body.Contains t →
      InProgram unit (some f) t

/-- The variable `d` is declared with the initialiser `init`. -/
inductive InitialisedWith (unit : TranslationUnit) (d : ValueDecl) (init : Stmt) : Prop
  | global : .var d (some init) ∈ unit → InitialisedWith unit d init
  | local {cur group} : InProgram unit cur (.declStmt group) → (d, some init) ∈ group →
      InitialisedWith unit d init

/-! ## Array uses -/

def UnaryOp.isPointerArithmetic : UnaryOp → Bool
  | .postInc | .postDec | .preInc | .preDec | .plus | .minus => true
  | _ => false

def BinaryOp.isPointerArithmetic : BinaryOp → Bool
  | .add | .sub | .addAssign | .subAssign => true
  | _ => false

/-- The program uses the value of `d` at level `l` as an array. -/
inductive UsedAsArray (unit : TranslationUnit) : NamedDecl → Nat → Prop
  | subscript {cur base idx d l} : InProgram unit cur (.subscript base idx) → Yields base d l →
      UsedAsArray unit d l
  | unary {cur op sub d l} : InProgram unit cur (.unary op sub) →
      op.isPointerArithmetic = true → Yields sub d l → UsedAsArray unit d l
  | binary {cur op lhs rhs d l} : InProgram unit cur (.binary op lhs rhs) →
      op.isPointerArithmetic = true → Yields lhs d l ∨ Yields rhs d l → UsedAsArray unit d l
  | assignNew {cur lhs rhs d l} : InProgram unit cur (.binary .assign lhs rhs) →
      Yields lhs d l → rhs.isArrayNew = true → UsedAsArray unit d l
  | initNew {v init} : InitialisedWith unit v init → init.isArrayNew = true →
      UsedAsArray unit (.value v) 0
  | returnNew {f expr} : InProgram unit (some f) (.returnStmt (some expr)) →
      expr.isArrayNew = true → UsedAsArray unit (.function f) 0

/-- An array use of a pointer. -/
def ArrayUse (unit : TranslationUnit) (d : NamedDecl) (l : Nat) : Prop :=
  PointerAt d l ∧ UsedAsArray unit d l

/-! ## Flows -/

/-- The value of `s` flows directly into `d`. -/
inductive FlowsInto (unit : TranslationUnit) : NamedDecl → NamedDecl → Prop
  | init {v init s} : InitialisedWith unit v init → Yields init s 0 →
      FlowsInto unit s (.value v)
  | assign {cur lhs rhs d s} : InProgram unit cur (.binary .assign lhs rhs) →
      Yields lhs d 0 → Yields rhs s 0 → FlowsInto unit s d
  | argument {cur callee args ty f arg param s} : InProgram unit cur (.call callee args ty) →
      callee.directCallee = some f → (arg, param) ∈ args.zip f.params → Yields arg s 0 →
      FlowsInto unit s (.value param)
  | result {f expr s} : InProgram unit (some f) (.returnStmt (some expr)) → Yields expr s 0 →
      FlowsInto unit s (.function f)

/-- A direct flow of a pointer value. -/
def PointerFlow (unit : TranslationUnit) (s d : NamedDecl) : Prop :=
  PointerAt s 0 ∧ PointerAt d 0 ∧ FlowsInto unit s d

end Ironclad.Analysis
