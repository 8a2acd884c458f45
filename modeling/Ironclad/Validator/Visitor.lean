import Mathlib.Data.List.Infix
import Ironclad.Validator.Syntax

/-!
# The validator

`ValidateVisitor` is a recursive visitor: clang calls its `Visit` methods on every node of
a translation unit, and they add warnings. How clang prints a type is the parameter
`getAsString`. A warning is kept as its message and what it is about; the position that the
tool prints with it is left out. `none` is the dereference of a null declaration.
-/

namespace Ironclad.Validator

open Ironclad.Logic

/-- What a warning is about. -/
inductive Subject where
  | decl (name : Str)
  | stmt (s : Node)

structure Warning where
  message : String
  about : Subject

namespace NamedDecl

/-- `isSafeCPP`: some enclosing namespace is called `safe`. -/
def isSafeCPP (d : NamedDecl) : Bool :=
  d.context.any fun c => c == .namespaceDecl "safe".toList

/-- `isLocalScoped`: some enclosing context is a function. -/
def isLocalScoped (d : NamedDecl) : Bool :=
  d.context.any fun
    | .functionDecl _ => true
    | _ => false

end NamedDecl

namespace Node

/-- `stripTemporary`: the loop goes on until there is no parenthesis, cast, temporary or
constructor call with an argument left in front. -/
def stripTemporary : Node → Node
  | .paren sub => sub.stripTemporary
  | .implicitCast _ sub => sub.stripTemporary
  | .explicitCast _ _ sub => sub.stripTemporary
  | .materializeTemporary sub => sub.stripTemporary
  | .bindTemporary sub => sub.stripTemporary
  | .construct _ (arg :: _) => arg.stripTemporary
  | n => n

def isAddressOf (expr : Node) : Bool :=
  match expr.stripTemporary with
  | .unary .addrOf _ => true
  | _ => false

def extractAddressOf (expr : Node) : Option NamedDecl :=
  match expr.stripTemporary with
  | .unary .addrOf sub => sub.extractDecl
  | _ => none

def isThis (expr : Node) : Bool :=
  match expr.stripTemporary with
  | .thisExpr _ => true
  | _ => false

/-- The variables of a `DeclStmt`, with their initialisers. -/
def asVarDecl : Node → Option (ValueDecl × Option Node)
  | .varDecl d init => some (d, init)
  | _ => none

/-- `isAllowedReferenceInitializer` without the optional cases: an operator `*` or `[]` of
`ptr` or `aptr`. -/
def isSmartDereference (expr : Node) : Bool :=
  match expr.IgnoreParenImpCasts with
  | .call true callee _ _ => match callee.directCallee with
    | some f => (f.name == "operator*".toList || f.name == "operator[]".toList) &&
        (f.context.head? == some (.recordDecl "ptr".toList) ||
          f.context.head? == some (.recordDecl "aptr".toList))
    | none => false
  | _ => false

/-- `isAllowedReferenceInitializer`. The optional cases are the dereference of `this` and a
reference parameter. -/
def isAllowedReferenceInitializer (isReturn : Bool) (expr : Node) : Bool :=
  expr.isSmartDereference ||
    isReturn && match expr.IgnoreParenImpCasts with
      | .unary .deref sub => match sub.IgnoreParenImpCasts with
        | .thisExpr _ => true
        | _ => false
      | .declRef (.value d) => d.isParm && d.type.isReferenceType
      | _ => false

end Node

/-- The functions that user code may not call. -/
def notPermitted : List Str :=
  ["malloc".toList, "free".toList, "calloc".toList, "realloc".toList, "gets".toList,
    "memset".toList, "memcpy".toList, "memmove".toList]

section

variable (getAsString : QualType → Str)

/-- The printed type contains `name`. -/
def typeContains (name : String) (d : NamedDecl) : Bool :=
  decide (name.toList <:+: getAsString d.type)

/-- `isArray`. -/
def Node.isArray (expr : Node) : Bool :=
  match expr.stripTemporary with
  | .declRef d => typeContains getAsString "safe::array" d
  | _ => false

def checkLocalPointer (decl : NamedDecl) (stmt : Node) : List Warning :=
  if typeContains getAsString "lptr" decl || typeContains getAsString "laptr" decl then []
  else [⟨"Pointers initialized or assigned from an address of must be local ", .stmt stmt⟩]

def isArgv (d : ValueDecl) : Bool := d.name == "argv".toList

/-- `HandleVariable`; `init` is the initialiser if the declaration is a variable. -/
def HandleVariable (valueDecl : ValueDecl) (init : Option Node) : List Warning :=
  if valueDecl.type.isFunctionPointerType then []  -- the warning is commented out
  else if valueDecl.type.isPointerType then
    if isArgv valueDecl then []
    else [⟨"Cannot declare bare pointer ", .decl valueDecl.name⟩]
  else if valueDecl.type.isArrayType then
    [⟨"Cannot declare array ", .decl valueDecl.name⟩]
  else match init with
    | some init =>
        if init.isAddressOf && (NamedDecl.value valueDecl).isLocalScoped then
          checkLocalPointer getAsString (.value valueDecl) init
        else []
    | none => []

def VisitVarDecl (varDecl : ValueDecl) (init : Option Node) : List Warning :=
  HandleVariable getAsString varDecl init

def VisitDeclStmt (group : List Node) : List Warning :=
  (group.filterMap Node.asVarDecl).flatMap fun d => HandleVariable getAsString d.1 d.2

def VisitRecordDecl (fields : List (ValueDecl × Option Node)) : List Warning :=
  fields.flatMap fun field => HandleVariable getAsString field.1 none

/-- What `VisitCallExpr` does with an argument and its parameter. -/
def handleArgument (callExpr arg : Node) (param : ValueDecl) : List Warning :=
  if arg.isAddressOf then match arg.extractAddressOf with
    | some namedDecl =>
        if namedDecl.isLocalScoped then checkLocalPointer getAsString (.value param) callExpr
        else []
    | none => []
  else if arg.isThis || arg.isArray getAsString then
    checkLocalPointer getAsString (.value param) callExpr
  else []

/-- `VisitCallExpr`: the arguments beyond the parameters are not looked at. -/
def VisitCallExpr (callExpr callee : Node) (args : List Node) : List Warning :=
  match callee.directCallee with
  | none => []
  | some calleeDecl =>
      if (NamedDecl.function calleeDecl).isSafeCPP then []
      else
        (if notPermitted.contains calleeDecl.name && calleeDecl.inSystemHeader then
          [⟨"Use of function \"" ++ String.ofList calleeDecl.name ++ "\" is not permitted ",
            .stmt callExpr⟩] else []) ++
        (if calleeDecl.inSystemHeader then []
          else (args.zip calleeDecl.params).flatMap fun a =>
            handleArgument getAsString callExpr a.1 a.2)

def VisitTypedefNameDecl (name : Str) (underlying : QualType) : List Warning :=
  if underlying.isPointerType then [⟨"Cannot use a typedef for a bare pointer ", .decl name⟩]
  else if underlying.isArrayType then
    [⟨"Cannot use a typedef for a static sized array ", .decl name⟩]
  else []

def VisitCXXNewExpr (newExpr : Node) : List Warning :=
  [⟨"Calls to \"new\" must be replaced with \"new_obj\" or \"new_array\" ", .stmt newExpr⟩]

def VisitCXXDeleteExpr (deleteExpr : Node) : List Warning :=
  [⟨"Calls to \"delete\" must be replaced with \"ptr.destroy()\" ", .stmt deleteExpr⟩]

/-- `VisitExplicitCastExpr` prints the kind of the cast; the check is commented out. -/
def VisitExplicitCastExpr (_castExpr : Node) : List Warning := []

/-- `VisitBinaryOperator`: the declaration that the left hand side names, which may be
null, is read if the right hand side is an address. -/
def VisitBinaryOperator (binaryOp : Node) (op : BinaryOp) (lhs rhs : Node) :
    Option (List Warning) :=
  if op.isAssignmentOp && lhs.type.isPointerType && rhs.isAddressOf then
    match lhs.extractDecl with
    | some namedDecl => some (checkLocalPointer getAsString namedDecl binaryOp)
    | none => none
  else some []

def VisitCXXConstructorDecl (inits : List (Option ValueDecl × Node)) : List Warning :=
  inits.flatMap fun
    | (some field, init) =>
        if field.type.isReferenceType && !init.isAllowedReferenceInitializer false then
          [⟨"Class member reference initialization must come from the dereference of an " ++
            "aptr<T> or a ptr<T> ", .stmt init⟩]
        else []
    | (none, _) => []

def VisitReturnStmt (returnStmt : Node) (value : Option Node) : List Warning :=
  match value with
  | some value =>
      if value.type.isReferenceType && !value.isAllowedReferenceInitializer true then
        [⟨"Reference return values may only come from the dereference of an aptr<T>, the " ++
          "dereference of a ptr<T>, the dereference of the \"this\" pointer, or a reference " ++
          "parameter ", .stmt returnStmt⟩]
      else []
  | none => []

/-- The `Visit` methods that clang calls on a node. -/
def Node.visit (n : Node) : Option (List Warning) :=
  match n with
  | .varDecl d init => some (VisitVarDecl getAsString d init)
  | .recordDecl _ fields _ => some (VisitRecordDecl getAsString fields)
  | .typedefDecl name underlying => some (VisitTypedefNameDecl name underlying)
  | .constructorDecl _ _ inits _ => some (VisitCXXConstructorDecl inits)
  | .declStmt group => some (VisitDeclStmt getAsString group)
  | .returnStmt value => some (VisitReturnStmt n value)
  | .call _ callee args _ => some (VisitCallExpr getAsString n callee args)
  | .binary op lhs rhs => VisitBinaryOperator getAsString n op lhs rhs
  | .newExpr _ _ => some (VisitCXXNewExpr n)
  | .deleteExpr _ => some (VisitCXXDeleteExpr n)
  | .explicitCast _ _ _ => some (VisitExplicitCastExpr n)
  | _ => some []

/-- The warnings after `TraverseDecl`; `none` if the tool crashes. -/
def validate (tree : Node) : Option (List Warning) :=
  NodeTree.traverse (NodeTree.appending (Node.visit getAsString)) tree []

end

end Ironclad.Validator
