import Ironclad.Translator.Builder

/-!
# The visitor that rewrites a translation unit

`TranslateSafeConsumer` walks the declarations in order. It hands pointer variables and
fields to `translatePointer`, which has the builder walk the initialiser, and it has the
builder make the text of `new` expressions, with the left-hand side of the last binary
operator that it came across.

The base class of both visitors is not part of the repository: it is the parameter
`VisitStmt`, the traversal below a node. The depth of the recursion through it is bounded by
fuel; `none` is running out.
-/

namespace Ironclad.Translator

/-! ## The syntax -/

/-- A function; whether it was declared at a valid location in a system header. -/
structure FunctionDecl where
  context : List Str
  name : Str
  inSystemHeader : Bool
  deriving DecidableEq, Repr

inductive NamedDecl where
  | value (d : ValueDecl)
  | function (f : FunctionDecl)
  deriving DecidableEq, Repr

def NamedDecl.context : NamedDecl → List Str
  | .value d => d.context
  | .function f => f.context

namespace QualType

/-- `isPointerType()`. A type of function pointers is not a pointer here: the consumer
handles variables of such a type elsewhere. -/
def isPointerType : QualType → Bool
  | .typedef _ _ underlying => underlying.isPointerType
  | .pointer _ _ => true
  | _ => false

def isArrayType : QualType → Bool
  | .typedef _ _ underlying => underlying.isArrayType
  | .array _ _ _ => true
  | _ => false

end QualType

/-- A `new` expression; the array size and the arguments that are not defaults as clang
prints them. -/
structure New where
  start : Nat
  validRange : Bool
  isArray : Bool
  allocated : QualType
  arraySize : Str
  args : List Str
  deriving DecidableEq, Repr

/-- Expressions and statements; `other` is any node that neither visitor has a handler for
and `extractDecl` finds nothing in. -/
inductive Stmt where
  | declRef (d : NamedDecl)
  | member (base : Stmt) (d : NamedDecl)
  | call (callee : Stmt) (args : List Stmt) (isMemberCall : Bool)
  | subscript (base idx : Stmt)
  | unary (isDeref : Bool) (sub : Stmt)
  | binary (isAssign : Bool) (lhs rhs : Stmt)
  | conditional (cond trueExpr falseExpr : Stmt)
  | implicitCast (sub : Stmt)
  | explicitCast (toPointer : Bool) (sub : Stmt)
  | paren (sub : Stmt)
  | newExpr (n : New)
  | deleteExpr (arg : Stmt)
  | declStmt (group : List (ValueDecl × Option Stmt))
  | other (children : List Stmt)

namespace Stmt

/-- The child nodes, in order. Those of a `new` expression are never visited. -/
def children : Stmt → List Stmt
  | .declRef _ => []
  | .member base _ => [base]
  | .call callee args _ => callee :: args
  | .subscript base idx => [base, idx]
  | .unary _ sub => [sub]
  | .binary _ lhs rhs => [lhs, rhs]
  | .conditional cond trueExpr falseExpr => [cond, trueExpr, falseExpr]
  | .implicitCast sub => [sub]
  | .explicitCast _ sub => [sub]
  | .paren sub => [sub]
  | .newExpr _ => []
  | .deleteExpr arg => [arg]
  | .declStmt group => group.filterMap Prod.snd
  | .other children => children

/-- `getDirectCallee()`, from the callee expression of a call. -/
def directCallee : Stmt → Option FunctionDecl
  | .implicitCast sub => sub.directCallee
  | .explicitCast _ sub => sub.directCallee
  | .paren sub => sub.directCallee
  | .declRef (.function f) => some f
  | .member _ (.function f) => some f
  | _ => none

/-- The branch of a conditional that `extractDecl` returns: one that is a pointer variable. -/
def pointerValue : Option NamedDecl → Option NamedDecl
  | some (.value d) => if d.type.isPointerType then some (.value d) else none
  | _ => none

/-- `extractDecl`. -/
def extractDecl : Stmt → Option NamedDecl
  | .implicitCast sub => sub.extractDecl
  | .explicitCast _ sub => sub.extractDecl
  | .paren sub => sub.extractDecl
  | .declRef d => some d
  | .call callee _ _ => callee.directCallee.map .function
  | .member _ d => some d
  | .subscript base _ => base.extractDecl
  | .conditional _ trueExpr falseExpr =>
      (pointerValue trueExpr.extractDecl).or (pointerValue falseExpr.extractDecl)
  | _ => none

theorem sizeOf_child_lt {s c : Stmt} (h : c ∈ s.children) : sizeOf c < sizeOf s := by
  cases s with
  | call callee args isMemberCall =>
      rcases List.mem_cons.mp h with rfl | h
      · simp only [Stmt.call.sizeOf_spec]
        omega
      · have := List.sizeOf_lt_of_mem h
        simp only [Stmt.call.sizeOf_spec]
        omega
  | other children =>
      have := List.sizeOf_lt_of_mem (show c ∈ children from h)
      simp only [Stmt.other.sizeOf_spec]
      omega
  | declStmt group =>
      obtain ⟨⟨d, init⟩, hmem, hinit⟩ := List.mem_filterMap.mp h
      have := List.sizeOf_lt_of_mem hmem
      subst hinit
      simp only [Prod.mk.sizeOf_spec, Option.some.sizeOf_spec] at this
      simp only [Stmt.declStmt.sizeOf_spec]
      omega
  | _ =>
      simp only [children, List.mem_cons, List.not_mem_nil, or_false] at h
      try contradiction
      all_goals
        rcases h with rfl | rfl | rfl <;> simp <;> omega

end Stmt

/-- `shouldIgnoreFunctionCall`. -/
def shouldIgnoreFunctionCall (f : FunctionDecl) : Bool :=
  f.name = "free".toList || f.name = "malloc".toList || f.name = "operator<<".toList

/-- The calls that `translateSystemCall` rewrites. -/
def isSystemCall (f : FunctionDecl) : Bool := f.inSystemHeader && !shouldIgnoreFunctionCall f

/-- A declaration at the top level. The methods of a record are functions of their own. -/
inductive TopDecl where
  | var (d : ValueDecl) (init : Option Stmt)
  | function (params : List ValueDecl) (body : Option Stmt) (isMain isInstantiated : Bool)
  | record (fields : List ValueDecl)

abbrev TranslationUnit := List TopDecl

/-! ## The state -/

/-- The members that are written while the declarations are visited, as far as they have to
do with types: `currentLHS`; `lastValueDecl`, with the variable that the text of its group
begins with; and, as a log, the declarations whose text was made, each with the one whose
type that text has, and the calls of `buildCXXNewExpr`. -/
structure Consumer where
  currentLHS : Option Stmt
  group : Option (ValueDecl × ValueDecl)
  declared : List (ValueDecl × ValueDecl)
  calls : List (New × Option Stmt)

namespace Consumer

def initial : Consumer := ⟨none, none, [], []⟩

/-- The variable that begins the group which `d` is appended to, or `d` itself. -/
def firstOf (group : Option (ValueDecl × ValueDecl)) (d : ValueDecl) : ValueDecl :=
  match group with
  | some (last, first) => if last.start = d.start then first else d
  | none => d

/-- The text of a declaration is made by `translatePointer`. -/
def declare (d : ValueDecl) (c : Consumer) : Consumer :=
  { c with
    group := some (d, firstOf c.group d)
    declared := c.declared ++ [(d, firstOf c.group d)] }

/-- The text of a parameter is made by `buildParameter`. -/
def parameter (d : ValueDecl) (c : Consumer) : Consumer :=
  { c with declared := c.declared ++ [(d, d)] }

/-- `buildCXXNewExpr(n, expr)`. -/
def build (n : New) (expr : Option Stmt) (c : Consumer) : Consumer :=
  { c with calls := c.calls ++ [(n, expr)] }

end Consumer

abbrev StmtVisitor := Stmt → Consumer → Option Consumer

section

variable (VisitStmt : StmtVisitor → StmtVisitor)

/-! ## The builder -/

/-- The arguments of a call, each of them traversed twice, as in `buildSystemCall`. -/
def buildSystemCall (traverseStmt : StmtVisitor) (args : List Stmt) (c : Consumer) :
    Option Consumer :=
  args.foldlM (fun c arg => (traverseStmt arg c).bind (traverseStmt arg)) c

/-- The visits of `Builder`. It knows of no variable that a `new` expression is for. -/
def Builder.Visit : Nat → StmtVisitor
  | 0, _, _ => none
  | fuel + 1, s, c =>
      match s with
      | .implicitCast sub => Builder.Visit fuel sub c
      | .call callee args isMemberCall =>
          if callee.directCallee.isSome && !isMemberCall then
            buildSystemCall (Builder.Visit fuel) args c
          else some c
      | .newExpr n => some (c.build n none)
      | .explicitCast _ sub => Builder.Visit fuel sub c
      | s => VisitStmt (Builder.Visit fuel) s c

/-! ## The consumer -/

/-- `HandleVariable` for a pointer or an array, by `translatePointer`; the initialiser of a
field is not looked at. -/
def HandleVariable (fuel : Nat) (d : ValueDecl) (init : Option Stmt) (c : Consumer) :
    Option Consumer :=
  if d.type.isPointerType || d.type.isArrayType then
    if d.validRange then
      match init with
      | some init => Builder.Visit VisitStmt fuel init (c.declare d)
      | none => some (c.declare d)
    else some c
  else some c

/-- `translateNewExpr`. -/
def translateNewExpr (n : New) (c : Consumer) : Consumer :=
  if n.validRange then c.build n c.currentLHS else c

/-- The visits of `TranslateSafeConsumer`. -/
def Consumer.Visit : Nat → StmtVisitor
  | 0, _, _ => none
  | fuel + 1, s, c =>
      match s with
      | .declStmt group =>
          group.foldlM (fun c v => HandleVariable VisitStmt fuel v.1 v.2 c) c
      | .binary isAssign lhs rhs =>
          VisitStmt (Consumer.Visit fuel) (.binary isAssign lhs rhs)
            { c with currentLHS := some lhs }
      | .newExpr n => some (translateNewExpr n c)
      | .call callee args isMemberCall =>
          if callee.directCallee.any isSystemCall then
            if isMemberCall then some c
            else buildSystemCall (Builder.Visit VisitStmt fuel) args c
          else VisitStmt (Consumer.Visit fuel) (.call callee args isMemberCall) c
      | .explicitCast toPointer sub =>
          if toPointer then Builder.Visit VisitStmt fuel sub c else some c
      | .deleteExpr _ => some c
      | s => VisitStmt (Consumer.Visit fuel) s c

/-- `translateFunction`, as far as the types of the parameters go, and the visit of the
body. -/
def VisitFunctionDecl (fuel : Nat) (params : List ValueDecl) (body : Option Stmt)
    (isMain isInstantiated : Bool) (c : Consumer) : Option Consumer :=
  let c :=
    if !isMain && !isInstantiated then
      (params.filter fun d => d.type.isPointerType).foldl (fun c d => c.parameter d) c
    else c
  if isInstantiated then some c
  else
    match body with
    | some body => Consumer.Visit VisitStmt fuel body c
    | none => some c

/-- `HandleTopLevelSingleDecl`, for a declaration that is not in a system header. -/
def HandleTopLevelDecl (fuel : Nat) (c : Consumer) : TopDecl → Option Consumer
  | .var d init => HandleVariable VisitStmt fuel d init c
  | .function params body isMain isInstantiated =>
      VisitFunctionDecl VisitStmt fuel params body isMain isInstantiated c
  | .record fields => fields.foldlM (fun c d => HandleVariable VisitStmt fuel d none c) c

/-- The visits of a translation unit. -/
def translateUnit (fuel : Nat) (unit : TranslationUnit) : Option Consumer :=
  unit.foldlM (HandleTopLevelDecl VisitStmt fuel) .initial

end

/-- What the base class's `VisitStmt` does: it visits the children in order. -/
def VisitsChildren (VisitStmt : StmtVisitor → StmtVisitor) : Prop :=
  ∀ visit s c, VisitStmt visit s c = s.children.foldlM (fun c t => visit t c) c

end Ironclad.Translator
