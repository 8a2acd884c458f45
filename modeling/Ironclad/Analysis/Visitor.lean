import Ironclad.Analysis.Finalize
import Ironclad.Analysis.Syntax

/-!
# The analysis visitor

`AnalysisVisitor` walks a translation unit, makes a record for every declared
pointer and nesting level, and marks records and adds `from` edges where it
recognises array uses and flows. Its base class is not part of the repository: it
is the parameter `VisitStmt`, the traversal that a handler calls to go on below a
node. The depth of the recursion through it is bounded by fuel; `none` is running
out.

A null pointer dereference ends the real run. Here it sets `failed`, and what
the visitor does afterwards has no meaning.
-/

namespace Ironclad.Analysis

abbrev Key := Str

/-- `"_sub"`, `level` times. -/
def subSuffix : Nat → Str
  | 0 => []
  | level + 1 => subSuffix level ++ ['_', 's', 'u', 'b']

/-- `convertToUniqueString`: the enclosing contexts and the name, joined by `::`, and
a suffix for the level. -/
def convertToUniqueString (namedDecl : NamedDecl) (level : Nat) : Key :=
  namedDecl.context.foldl (fun declString parent => parent ++ [':', ':'] ++ declString) [] ++
    namedDecl.name ++ subSuffix level

/-- `InsertSubscriptsInMap`: records for the inner levels, up to one that is there. -/
def InsertSubscriptsInMap (namedDecl : NamedDecl) :
    QualType → Nat → PointerMap Key → PointerMap Key
  | .pointer pointee, level, m =>
      let key := convertToUniqueString namedDecl level
      if key ∈ m.keys then m
      else InsertSubscriptsInMap namedDecl pointee (level + 1) (m.insert key)
  | .array element, level, m =>
      let key := convertToUniqueString namedDecl level
      if key ∈ m.keys then m
      else InsertSubscriptsInMap namedDecl element (level + 1) (m.insert key)
  | _, _, m => m

/-- `InsertInMap`. The pointer it returns is the record under the declaration's key. -/
def InsertInMap (namedDecl : NamedDecl) (m : PointerMap Key) : PointerMap Key :=
  let key := convertToUniqueString namedDecl 0
  if key ∈ m.keys then m
  else match namedDecl.type with
    | .pointer pointee => InsertSubscriptsInMap namedDecl pointee 1 (m.insert key)
    | .array element => InsertSubscriptsInMap namedDecl element 1 (m.insert key)
    | _ => m.insert key

/-- `InsertInMap(string key)`, for a key that is read from a file. -/
def InsertKeyInMap (key : Key) (m : PointerMap Key) : PointerMap Key :=
  if key ∈ m.keys then m else m.insert key

structure VisitorState where
  pointers : PointerMap Key
  currentFunction : Option FunctionDecl
  failed : Bool

namespace VisitorState

def empty : VisitorState := ⟨.empty, none, false⟩

/-- `pointers[key]`, which makes `key` a key. -/
def ask (σ : VisitorState) (key : Key) : VisitorState :=
  { σ with pointers := σ.pointers.touch key }

/-- The pointer stored under `key` is not null. -/
def hasRecord (σ : VisitorState) (key : Key) : Bool := (σ.pointers.entry key).isSome

def insertInMap (σ : VisitorState) (d : NamedDecl) : VisitorState :=
  { σ with pointers := InsertInMap d σ.pointers }

/-- `data->singleton = false`, for the record under `key`. -/
def clear (σ : VisitorState) (key : Key) : VisitorState :=
  { σ with pointers := σ.pointers.setNonSingleton key }

/-- `data->from.push_back(other)`. -/
def pushFrom (σ : VisitorState) (key other : Key) : VisitorState :=
  { σ with pointers := σ.pointers.modifyAt key fun d => { d with from_ := d.from_ ++ [other] } }

/-- `data->to.push_back(other)`. -/
def pushTo (σ : VisitorState) (key other : Key) : VisitorState :=
  { σ with pointers := σ.pointers.modifyAt key fun d => { d with to_ := d.to_ ++ [other] } }

/-- A null pointer is dereferenced. -/
def fail (σ : VisitorState) : VisitorState := { σ with failed := true }

end VisitorState

abbrev StmtVisitor := Stmt → VisitorState → Option VisitorState

/-! ## Declarations -/

/-- `HandleInit`; `key` is that of `newData`, which is not checked for null. -/
def HandleInit (key : Key) (init : Stmt) (σ : VisitorState) : VisitorState :=
  match init.IgnoreParenCasts with
  | .declRef d =>
      if σ.hasRecord key then σ.pushFrom key (convertToUniqueString d 0) else σ.fail
  | .newExpr isArray _ _ =>
      if isArray then if σ.hasRecord key then σ.clear key else σ.fail
      else σ
  | .call callee _ _ =>
      match callee.directCallee with
      | some f =>
          if σ.hasRecord key then σ.pushFrom key (convertToUniqueString (.function f) 0)
          else σ.fail
      | none => σ
  | .member _ d =>
      if σ.hasRecord key then σ.pushFrom key (convertToUniqueString d 0) else σ.fail
  | _ => σ

/-- `VisitVarDecl`. -/
def VisitVarDecl (varDecl : ValueDecl) (init : Option Stmt) (σ : VisitorState) : VisitorState :=
  if varDecl.type.isPointerType || varDecl.type.isArrayType then
    let σ := σ.insertInMap (.value varDecl)
    match init with
    | some init => HandleInit (convertToUniqueString (.value varDecl) 0) init σ
    | none => σ
  else σ

/-- `VisitDeclStmt`: every variable of the group, like `VisitVarDecl`. -/
def VisitDeclStmt (group : List (ValueDecl × Option Stmt)) (σ : VisitorState) : VisitorState :=
  group.foldl (fun σ v => VisitVarDecl v.1 v.2 σ) σ

/-- The loops of `VisitFunctionDecl` and `VisitRecordDecl` over parameters and fields. -/
def insertPointers (decls : List ValueDecl) (σ : VisitorState) : VisitorState :=
  decls.foldl (fun σ d =>
    if d.type.isPointerType || d.type.isArrayType then σ.insertInMap (.value d) else σ) σ

/-- `VisitRecordDecl`. -/
def VisitRecordDecl (fields : List ValueDecl) (σ : VisitorState) : VisitorState :=
  insertPointers fields σ

/-! ## Expressions -/

/-- `VisitUnaryOperator`. -/
def VisitUnaryOperator (visitStmt : StmtVisitor) (op : UnaryOp) (sub : Stmt)
    (σ : VisitorState) : Option VisitorState :=
  let σ :=
    if sub.type.isPointerType then
      match sub.extractDecl with
      | some namedDecl =>
          let key := convertToUniqueString namedDecl 0
          let σ := σ.ask key
          if σ.hasRecord key && op.isArithmeticOp then σ.clear key else σ
      | none => σ
    else σ
  visitStmt sub σ

/-- The assignment part of `VisitBinaryOperator`, for an assignment to a pointer. -/
def visitAssignment (visitStmt : StmtVisitor) (lhs rhs : Stmt) (σ : VisitorState) :
    Option VisitorState :=
  match lhs.extractDecl with
  | none => some σ
  | some namedDecl =>
      let key := convertToUniqueString namedDecl lhs.getSubscriptLevel
      let σ := σ.ask key
      if σ.hasRecord key then
        if rhs.isNewExpr then some (if rhs.isArrayNew then σ.clear key else σ)
        else if rhs.isCallExpr then
          let σ :=
            match rhs.extractDecl with
            | some calleeDecl =>
                let calleeKey := convertToUniqueString calleeDecl 0
                let σ := σ.ask calleeKey
                if σ.hasRecord calleeKey then
                  (σ.pushFrom calleeKey (convertToUniqueString namedDecl 0)).pushFrom key calleeKey
                else σ
            | none => σ
          visitStmt rhs σ
        else
          some (match rhs.extractDecl with
            | some assignedFromDecl => σ.pushFrom key (convertToUniqueString assignedFromDecl 0)
            | none => σ)
      else some σ

/-- `VisitBinaryOperator`. -/
def VisitBinaryOperator (visitStmt : StmtVisitor) (op : BinaryOp) (lhs rhs : Stmt)
    (σ : VisitorState) : Option VisitorState :=
  (if op.isAssignmentOp && lhs.type.isPointerType then visitAssignment visitStmt lhs rhs σ
    else some σ).bind fun σ =>
      (visitStmt lhs.IgnoreParenCasts σ).bind (visitStmt rhs.IgnoreParenCasts)

/-- `VisitArraySubscriptExpr`. The key of the base is taken without checking that
there is a declaration. -/
def VisitArraySubscriptExpr (visitStmt : StmtVisitor) (base idx : Stmt) (σ : VisitorState) :
    Option VisitorState :=
  let σ :=
    if base.type.isPointerType then
      match base.extractDecl with
      | some namedDecl =>
          let key := convertToUniqueString namedDecl 0
          let σ := σ.ask key
          if σ.hasRecord key then σ.clear key else σ
      | none => σ.fail
    else σ
  (visitStmt base σ).bind (visitStmt idx)

/-- What `VisitCallExpr` records for a pointer argument. -/
def recordArgument (arg : Stmt) (paramDecl : ValueDecl) (σ : VisitorState) : VisitorState :=
  match arg.extractDecl with
  | some argDecl =>
      let argKey := convertToUniqueString argDecl 0
      let paramKey := convertToUniqueString (.value paramDecl) 0
      let σ := (σ.ask argKey).ask paramKey
      let σ := if σ.hasRecord argKey then σ.pushTo argKey paramKey else σ
      if σ.hasRecord paramKey then σ.pushFrom paramKey argKey
      else
        let σ := σ.insertInMap argDecl
        if σ.hasRecord argKey then σ.pushFrom argKey argKey else σ
  | none => σ

/-- The loop of `VisitCallExpr` over the arguments that have a parameter. -/
def visitArguments (visitStmt : StmtVisitor) :
    List (Stmt × ValueDecl) → VisitorState → Option VisitorState
  | [], σ => some σ
  | (arg, paramDecl) :: rest, σ =>
      (if arg.type.isPointerType && !arg.type.isFunctionPointerType then
        visitStmt arg (recordArgument arg paramDecl σ)
      else some σ).bind (visitArguments visitStmt rest)

/-- `VisitCallExpr`. -/
def VisitCallExpr (visitStmt : StmtVisitor) (callee : Stmt) (args : List Stmt)
    (σ : VisitorState) : Option VisitorState :=
  match callee.directCallee with
  | some calleeDecl => visitArguments visitStmt (args.zip calleeDecl.params) σ
  | none => some σ

/-- `VisitReturnStmt`. -/
def VisitReturnStmt (value : Option Stmt) (σ : VisitorState) : VisitorState :=
  match value with
  | none => σ
  | some expr =>
      if expr.isNewExpr then
        match σ.currentFunction with
        | some f =>
            let key := convertToUniqueString (.function f) 0
            let σ := σ.ask key
            if σ.hasRecord key && expr.isArrayNew then σ.clear key else σ
        | none => σ
      else
        match expr.extractDecl with
        | some namedDecl =>
            let key := convertToUniqueString namedDecl 0
            let σ := σ.ask key
            match σ.currentFunction with
            | some f =>
                if σ.hasRecord key then σ.pushFrom key (convertToUniqueString (.function f) 0)
                else σ
            | none => σ
        | none => σ

/-! ## The traversal -/

section

variable (VisitStmt : StmtVisitor → StmtVisitor)

/-- The dispatch of a node to its handler; a node without a handler of its own goes
to `VisitStmt`. -/
def Visit : Nat → StmtVisitor
  | 0, _, _ => none
  | fuel + 1, s, σ =>
      let visitStmt := VisitStmt (Visit fuel)
      match s with
      | .declStmt group => some (VisitDeclStmt group σ)
      | .unary op sub => VisitUnaryOperator visitStmt op sub σ
      | .binary op lhs rhs => VisitBinaryOperator visitStmt op lhs rhs σ
      | .subscript base idx => VisitArraySubscriptExpr visitStmt base idx σ
      | .call callee args _ => VisitCallExpr visitStmt callee args σ
      | .returnStmt value => some (VisitReturnStmt value σ)
      | .newExpr _ _ _ => some σ
      | .explicitCast _ sub => visitStmt sub σ
      | s => visitStmt s σ

/-- `VisitFunctionDecl`. -/
def VisitFunctionDecl (fuel : Nat) (f : FunctionDecl) (body : Option Stmt)
    (inSystemHeader : Bool) (σ : VisitorState) : Option VisitorState :=
  let σ := if f.resultType.isPointerType then σ.insertInMap (.function f) else σ
  let σ := insertPointers f.params σ
  match body with
  | some body =>
      if inSystemHeader then some σ
      else VisitStmt (Visit VisitStmt fuel) body { σ with currentFunction := some f }
  | none => some σ

/-- `Analyze`, for one top-level declaration. -/
def Analyze (fuel : Nat) (σ : VisitorState) : TopDecl → Option VisitorState
  | .var d init => some (VisitVarDecl d init σ)
  | .function f body inSystemHeader => VisitFunctionDecl VisitStmt fuel f body inSystemHeader σ
  | .record fields => some (VisitRecordDecl fields σ)

/-- The visits of a whole translation unit. -/
def analyzeAll (fuel : Nat) (unit : TranslationUnit) : Option VisitorState :=
  unit.foldlM (Analyze VisitStmt fuel) .empty

/-- The analysis: all visits, then `finalizePointers`. -/
def runAnalysis (fuel : Nat) (unit : TranslationUnit) : Option VisitorState :=
  (analyzeAll VisitStmt fuel unit).bind fun σ =>
    (finalizePointers fuel σ.pointers).bind fun m => some { σ with pointers := m }

end

/-- `isSingleton`; a declaration without a record is not a singleton. -/
def isSingleton (m : PointerMap Key) (namedDecl : NamedDecl) (level : Nat) : Bool :=
  match m.entry (convertToUniqueString namedDecl level) with
  | some ptrData => ptrData.singleton
  | none => false

/-- What the base class's `VisitStmt` does: it visits the children in order. -/
def VisitsChildren (VisitStmt : StmtVisitor → StmtVisitor) : Prop :=
  ∀ visit s σ, VisitStmt visit s σ = s.children.foldlM (fun σ c => visit c σ) σ

end Ironclad.Analysis
