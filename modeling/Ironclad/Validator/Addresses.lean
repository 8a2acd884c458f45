import Ironclad.Validator.Rules

/-!
# Where the address of a local variable may go

A stack address can reach a pointer by an initialiser, by an assignment or as an argument.
`Stores` says that a node does this and that the receiver is not a local pointer. The
validator is to add a warning for every program in which that happens; `confines_iff` says
exactly for which programs it does.
-/

namespace Ironclad.Validator

open Ironclad.Logic

/-- `lptr<T>` or `laptr<T>`, or a reference to one. -/
def QualType.isLocalPointer (t : QualType) : Bool :=
  match t.nonReference.canonical with
  | .smart .lptr _ => true
  | .smart .laptr _ => true
  | _ => false

/-- `ptr<T>` or `aptr<T>`. -/
def QualType.isHeapPointer (t : QualType) : Bool :=
  match t.canonical with
  | .smart .ptr _ => true
  | .smart .aptr _ => true
  | _ => false

/-- `e` is `a` in parentheses, casts, temporaries and constructor calls. -/
inductive Wraps : Node → Node → Prop
  | refl {a} : Wraps a a
  | paren {e a} : Wraps e a → Wraps (.paren e) a
  | implicitCast {t e a} : Wraps e a → Wraps (.implicitCast t e) a
  | explicitCast {k t e a} : Wraps e a → Wraps (.explicitCast k t e) a
  | bindTemporary {e a} : Wraps e a → Wraps (.bindTemporary e) a
  | materializeTemporary {e a} : Wraps e a → Wraps (.materializeTemporary e) a
  | exprWithCleanups {e a} : Wraps e a → Wraps (.exprWithCleanups e) a
  | construct {t args e a} : e ∈ args → Wraps e a → Wraps (.construct t args) a

/-- The expression is the address of a locally scoped variable, in any wrapping. -/
def StackAddress (e : Node) : Prop :=
  ∃ sub x, Wraps e (.unary .addrOf sub) ∧ sub.IgnoreParenCasts = .declRef (.value x) ∧
    (NamedDecl.value x).isLocalScoped = true

/-- The arguments of a call that have a parameter. The first argument of an operator that
is a member is the object. -/
def passedArguments (isOperator : Bool) (f : FunctionDecl) (args : List Node) :
    List (Node × ValueDecl) :=
  match isOperator, f.context with
  | true, .recordDecl _ :: _ => args.tail.zip f.params
  | _, _ => args.zip f.params

/-- The node puts a stack address into something that is not a local pointer. -/
inductive Stores : Node → Prop
  | init {d e} : StackAddress e → d.type.isLocalPointer = false → Stores (.varDecl d (some e))
  | assign {lhs rhs} : lhs.type.isPointerType = true → StackAddress rhs →
      Stores (.binary .assign lhs rhs)
  | smartAssign {callee f lhs rhs t} : callee.directCallee = some f →
      f.name = "operator=".toList → lhs.type.isHeapPointer = true → StackAddress rhs →
      Stores (.call true callee [lhs, rhs] t)
  | argument {isOperator callee f args t arg param} : callee.directCallee = some f →
      f.inSystemHeader = false → (arg, param) ∈ passedArguments isOperator f args →
      StackAddress arg → param.type.isLocalPointer = false →
      Stores (.call isOperator callee args t)

/-- If the program stores a stack address, the validator adds a warning. -/
def Confines (getAsString : QualType → Str) (tree : Node) : Prop :=
  (∃ n, NodeTree.Below tree n ∧ Stores n) →
    ∃ w ws, validate getAsString tree = some (w :: ws)

/-! ## What is refused -/

/-- An assignment of an address to a pointer that is not named by a declaration, such as
`*p = &x`. -/
def NullAssignment : Node → Prop
  | .binary op lhs rhs => op.isAssignmentOp = true ∧ lhs.type.isPointerType = true ∧
      rhs.isAddressOf = true ∧ lhs.extractDecl = none
  | _ => False

section

variable (getAsString : QualType → Str)

/-- The name of a local pointer occurs in the type as it is printed. -/
def PrintsLocal (t : QualType) : Prop :=
  "lptr".toList <:+: getAsString t ∨ "laptr".toList <:+: getAsString t

/-- A variable that is refused: a bare pointer that is neither a function pointer nor called
`argv`, an array, or a local variable of another type that is initialised with an address
and whose printed type names no local pointer. -/
inductive RefusedVariable (d : ValueDecl) : Option Node → Prop
  | pointer {init} : d.type.isPointerType = true → d.type.isFunctionPointerType = false →
      isArgv d = false → RefusedVariable d init
  | array {init} : d.type.isArrayType = true → RefusedVariable d init
  | address {e} : d.type.isPointerType = false → d.type.isArrayType = false →
      e.isAddressOf = true → (NamedDecl.value d).isLocalScoped = true →
      ¬PrintsLocal getAsString d.type → RefusedVariable d (some e)

/-- An argument that is refused: the address of a local declaration, `this` or a
`safe::array`, for a parameter whose printed type names no local pointer. -/
inductive RefusedArgument (arg : Node) (param : ValueDecl) : Prop
  | address {d} : arg.extractAddressOf = some d → d.isLocalScoped = true →
      ¬PrintsLocal getAsString param.type → RefusedArgument arg param
  | object : arg.isAddressOf = false → arg.isThis = true ∨ arg.isArray getAsString = true →
      ¬PrintsLocal getAsString param.type → RefusedArgument arg param

/-- The forms that the validator refuses. -/
inductive Refused : Node → Prop
  | variable_ {d init} : RefusedVariable getAsString d init → Refused (.varDecl d init)
  | declStmt {group d init} : .varDecl d init ∈ group → RefusedVariable getAsString d init →
      Refused (.declStmt group)
  | field {name fields members d init} : (d, init) ∈ fields →
      RefusedVariable getAsString d none → Refused (.recordDecl name fields members)
  | typedef {name t} : t.isPointerType = true ∨ t.isArrayType = true →
      Refused (.typedefDecl name t)
  | new {t args} : Refused (.newExpr t args)
  | delete {arg} : Refused (.deleteExpr arg)
  | notPermitted {isOperator callee f args t} : callee.directCallee = some f →
      (NamedDecl.function f).isSafeCPP = false → f.name ∈ notPermitted →
      f.inSystemHeader = true → Refused (.call isOperator callee args t)
  | argument {isOperator callee f args t arg param} : callee.directCallee = some f →
      (NamedDecl.function f).isSafeCPP = false → f.inSystemHeader = false →
      (arg, param) ∈ args.zip f.params → RefusedArgument getAsString arg param →
      Refused (.call isOperator callee args t)
  | assignment {op lhs rhs d} : op.isAssignmentOp = true → lhs.type.isPointerType = true →
      rhs.isAddressOf = true → lhs.extractDecl = some d → ¬PrintsLocal getAsString d.type →
      Refused (.binary op lhs rhs)
  | referenceMember {f params inits body field init} : (some field, init) ∈ inits →
      field.type.isReferenceType = true → init.isAllowedReferenceInitializer false = false →
      Refused (.constructorDecl f params inits body)
  | referenceReturn {value} : value.type.isReferenceType = true →
      value.isAllowedReferenceInitializer true = false → Refused (.returnStmt (some value))

/-! ## The methods of the visitor -/

variable {getAsString}

theorem flatMap_ne_nil_iff {α β : Type*} {l : List α} {f : α → List β} :
    l.flatMap f ≠ [] ↔ ∃ a ∈ l, f a ≠ [] := by
  rw [Ne, List.flatMap_eq_nil_iff]
  simp only [not_forall, exists_prop]

theorem checkLocalPointer_ne_nil {d : NamedDecl} {stmt : Node} :
    checkLocalPointer getAsString d stmt ≠ [] ↔ ¬PrintsLocal getAsString d.type := by
  have hprints : (typeContains getAsString "lptr" d || typeContains getAsString "laptr" d) = true ↔
      PrintsLocal getAsString d.type := by
    unfold typeContains PrintsLocal
    rw [Bool.or_eq_true_iff, decide_eq_true_iff, decide_eq_true_iff]
  rw [← hprints]
  unfold checkLocalPointer
  split
  · rename_i h
    exact iff_of_false (fun hne => hne rfl) (not_not_intro h)
  · rename_i h
    exact iff_of_true (List.cons_ne_nil _ _) h

theorem handleVariable_ne_nil {d : ValueDecl} {init : Option Node} :
    HandleVariable getAsString d init ≠ [] ↔ RefusedVariable getAsString d init := by
  constructor
  · intro h
    unfold HandleVariable at h
    split_ifs at h with hf hp ha hr
    · exact absurd rfl h
    · exact absurd rfl h
    · exact .pointer hp (Bool.eq_false_iff.mpr hf) (Bool.eq_false_iff.mpr ha)
    · exact .array hr
    · cases init with
      | none => exact absurd rfl h
      | some e =>
          dsimp only at h
          split_ifs at h with hc
          · obtain ⟨haddr, hlocal⟩ := Bool.and_eq_true_iff.mp hc
            exact .address (Bool.eq_false_iff.mpr hp) (Bool.eq_false_iff.mpr hr)
              haddr hlocal (checkLocalPointer_ne_nil.mp h)
          · exact absurd rfl h
  · intro h
    unfold HandleVariable
    cases h with
    | pointer hp hf ha =>
        rw [hf, if_neg Bool.false_ne_true, if_pos hp, ha, if_neg Bool.false_ne_true]
        exact List.cons_ne_nil _ _
    | array hr => exact handleVariable_array getAsString hr
    | address hp hr haddr hlocal hprint =>
        have hf : d.type.isFunctionPointerType ≠ true := by
          intro hf
          rw [QualType.isFunctionPointerType_isPointerType hf] at hp
          cases hp
        rw [if_neg hf, hp, if_neg Bool.false_ne_true, hr, if_neg Bool.false_ne_true]
        dsimp only
        rw [haddr, hlocal]
        exact checkLocalPointer_ne_nil.mpr hprint

theorem handleArgument_ne_nil {callExpr arg : Node} {param : ValueDecl} :
    handleArgument getAsString callExpr arg param ≠ [] ↔ RefusedArgument getAsString arg param := by
  constructor
  · intro h
    unfold handleArgument at h
    split_ifs at h with haddr hobj
    · cases hd : arg.extractAddressOf with
      | none => simp [hd] at h
      | some d =>
          simp only [hd] at h
          split_ifs at h with hlocal
          · exact .address hd hlocal (checkLocalPointer_ne_nil.mp h)
          · exact absurd rfl h
    · exact .object (Bool.eq_false_iff.mpr haddr) (Bool.or_eq_true_iff.mp hobj)
        (checkLocalPointer_ne_nil.mp h)
    · exact absurd rfl h
  · intro h
    unfold handleArgument
    cases h with
    | address hd hlocal hprint =>
        have haddr : arg.isAddressOf = true := by
          unfold Node.extractAddressOf at hd
          unfold Node.isAddressOf
          split at hd
          · rfl
          · cases hd
        rw [if_pos haddr, hd]
        dsimp only
        rw [if_pos hlocal]
        exact checkLocalPointer_ne_nil.mpr hprint
    | object haddr hobj hprint =>
        rw [haddr, if_neg Bool.false_ne_true, if_pos (Bool.or_eq_true_iff.mpr hobj)]
        exact checkLocalPointer_ne_nil.mpr hprint

theorem visitCallExpr_ne_nil {callExpr callee : Node} {args : List Node} (isOperator : Bool)
    (t : QualType) : VisitCallExpr getAsString callExpr callee args ≠ [] ↔
      Refused getAsString (.call isOperator callee args t) := by
  constructor
  · intro h
    unfold VisitCallExpr at h
    cases hf : callee.directCallee with
    | none => simp [hf] at h
    | some f =>
        simp only [hf] at h
        split_ifs at h with hsafe hname hsys hsys
        · exact absurd rfl h
        all_goals replace hsafe := Bool.eq_false_iff.mpr hsafe
        · obtain ⟨hname, hsys⟩ := Bool.and_eq_true_iff.mp hname
          exact .notPermitted hf hsafe (List.contains_iff_mem.mp hname) hsys
        · exact absurd (Bool.and_eq_true_iff.mp hname).2 hsys
        · exact absurd rfl h
        · rw [List.nil_append, flatMap_ne_nil_iff] at h
          obtain ⟨⟨arg, param⟩, hmem, harg⟩ := h
          exact .argument hf hsafe (Bool.eq_false_iff.mpr hsys) hmem
            (handleArgument_ne_nil.mp harg)
  · intro h
    unfold VisitCallExpr
    cases h with
    | notPermitted hf hsafe hname hsys =>
        have hbanned := Bool.and_eq_true_iff.mpr ⟨List.contains_iff_mem.mpr hname, hsys⟩
        simp only [hf, hsafe, Bool.false_eq_true, if_false]
        rw [if_pos hbanned]
        exact List.cons_ne_nil _ _
    | argument hf hsafe hsys hmem harg =>
        simp only [hf, hsafe, hsys, Bool.false_eq_true, Bool.and_false, if_false, List.nil_append]
        exact flatMap_ne_nil_iff.mpr ⟨_, hmem, handleArgument_ne_nil.mpr harg⟩

theorem visit_eq_none_iff {n : Node} : n.visit getAsString = none ↔ NullAssignment n := by
  cases n with
  | binary op lhs rhs =>
      show VisitBinaryOperator getAsString _ op lhs rhs = none ↔ _
      unfold VisitBinaryOperator NullAssignment
      cases hd : lhs.extractDecl with
      | none => simp [hd, and_assoc]
      | some d => split_ifs <;> simp [hd]
  | _ => simp [Node.visit, NullAssignment]

theorem visitDeclStmt_ne_nil {group : List Node} :
    VisitDeclStmt getAsString group ≠ [] ↔ Refused getAsString (.declStmt group) := by
  unfold VisitDeclStmt
  rw [flatMap_ne_nil_iff]
  constructor
  · rintro ⟨⟨d, init⟩, hmem, h⟩
    obtain ⟨n, hn, hvar⟩ := List.mem_filterMap.mp hmem
    unfold Node.asVarDecl at hvar
    split at hvar
    · cases hvar
      exact .declStmt hn (handleVariable_ne_nil.mp h)
    · cases hvar
  · intro h
    cases h with
    | @declStmt group d init hmem h =>
        exact ⟨(d, init), List.mem_filterMap.mpr ⟨_, hmem, rfl⟩, handleVariable_ne_nil.mpr h⟩

theorem visitRecordDecl_ne_nil {name : Str} {fields : List (ValueDecl × Option Node)}
    {members : List Node} :
    VisitRecordDecl getAsString fields ≠ [] ↔
      Refused getAsString (.recordDecl name fields members) := by
  unfold VisitRecordDecl
  rw [flatMap_ne_nil_iff]
  constructor
  · rintro ⟨⟨d, init⟩, hmem, h⟩
    exact .field hmem (handleVariable_ne_nil.mp h)
  · intro h
    cases h with
    | field hmem h => exact ⟨_, hmem, handleVariable_ne_nil.mpr h⟩

theorem visitTypedefNameDecl_ne_nil {name : Str} {t : QualType} :
    VisitTypedefNameDecl name t ≠ [] ↔ Refused getAsString (.typedefDecl name t) := by
  unfold VisitTypedefNameDecl
  split_ifs with hp hr
  · exact iff_of_true (List.cons_ne_nil _ _) (.typedef (.inl hp))
  · exact iff_of_true (List.cons_ne_nil _ _) (.typedef (.inr hr))
  · refine iff_of_false (fun h => h rfl) fun h => ?_
    cases h with
    | typedef h => exact absurd h (not_or.mpr ⟨hp, hr⟩)

theorem visitCXXConstructorDecl_ne_nil {f : FunctionDecl} {params : List Node}
    {inits : List (Option ValueDecl × Node)} {body : Option Node} :
    VisitCXXConstructorDecl inits ≠ [] ↔
      Refused getAsString (.constructorDecl f params inits body) := by
  unfold VisitCXXConstructorDecl
  rw [flatMap_ne_nil_iff]
  constructor
  · rintro ⟨⟨member, init⟩, hmem, h⟩
    cases member with
    | none => exact absurd rfl h
    | some field =>
        dsimp only at h
        split_ifs at h with hc
        · obtain ⟨href, hinit⟩ := Bool.and_eq_true_iff.mp hc
          exact .referenceMember hmem href (by simpa using hinit)
        · exact absurd rfl h
  · intro h
    cases h with
    | @referenceMember _ _ _ _ field init hmem href hinit =>
        refine ⟨(some field, init), hmem, ?_⟩
        dsimp only
        rw [href, hinit]
        exact List.cons_ne_nil _ _

theorem visitReturnStmt_ne_nil {stmt : Node} {value : Option Node} :
    VisitReturnStmt stmt value ≠ [] ↔ Refused getAsString (.returnStmt value) := by
  cases value with
  | none =>
      refine iff_of_false (fun h => h rfl) fun h => ?_
      cases h
  | some value =>
      unfold VisitReturnStmt
      dsimp only
      split_ifs with hc
      · obtain ⟨href, hvalue⟩ := Bool.and_eq_true_iff.mp hc
        exact iff_of_true (List.cons_ne_nil _ _) (.referenceReturn href (by simpa using hvalue))
      · refine iff_of_false (fun h => h rfl) fun h => ?_
        cases h with
        | referenceReturn href hvalue =>
            rw [href, hvalue] at hc
            exact hc rfl

/-- A list that is not empty has a first element. -/
theorem some_eq_cons_iff {W : Type*} {l : List W} :
    (∃ w ws, some l = some (w :: ws)) ↔ l ≠ [] := by
  rw [List.ne_nil_iff_exists_cons]
  simp only [Option.some.injEq]

theorem visitBinaryOperator_eq_cons_iff {stmt lhs rhs : Node} {op : BinaryOp} :
    (∃ w ws, VisitBinaryOperator getAsString stmt op lhs rhs = some (w :: ws)) ↔
      Refused getAsString (.binary op lhs rhs) := by
  unfold VisitBinaryOperator
  split_ifs with hc
  · simp only [Bool.and_eq_true_iff] at hc
    obtain ⟨⟨hop, hlhs⟩, hrhs⟩ := hc
    cases hd : lhs.extractDecl with
    | none =>
        -- a null declaration is read, which is a crash and not a warning
        constructor
        · rintro ⟨w, ws, h⟩
          cases h
        · intro h
          cases h with
          | assignment _ _ _ hd' =>
              rw [hd] at hd'
              cases hd'
    | some d =>
        refine some_eq_cons_iff.trans (checkLocalPointer_ne_nil.trans ?_)
        refine ⟨.assignment hop hlhs hrhs hd, fun h => ?_⟩
        cases h with
        | assignment _ _ _ hd' h =>
            cases hd.symm.trans hd'
            exact h
  · refine some_eq_cons_iff.trans (iff_of_false (fun h => h rfl) fun h => ?_)
    cases h with
    | assignment hop hlhs hrhs =>
        rw [hop, hlhs, hrhs] at hc
        exact hc rfl

/-- **What is refused at a node** is what its visit adds a warning for. -/
theorem visit_eq_cons_iff {n : Node} :
    (∃ w ws, n.visit getAsString = some (w :: ws)) ↔ Refused getAsString n := by
  cases n with
  | varDecl d init =>
      refine some_eq_cons_iff.trans (handleVariable_ne_nil.trans ⟨.variable_, fun h => ?_⟩)
      cases h with
      | variable_ h => exact h
  | declStmt group => exact some_eq_cons_iff.trans visitDeclStmt_ne_nil
  | recordDecl name fields members => exact some_eq_cons_iff.trans visitRecordDecl_ne_nil
  | typedefDecl name t => exact some_eq_cons_iff.trans visitTypedefNameDecl_ne_nil
  | constructorDecl f params inits body =>
      exact some_eq_cons_iff.trans visitCXXConstructorDecl_ne_nil
  | returnStmt value => exact some_eq_cons_iff.trans visitReturnStmt_ne_nil
  | call isOperator callee args t =>
      exact some_eq_cons_iff.trans (visitCallExpr_ne_nil isOperator t)
  | binary op lhs rhs => exact visitBinaryOperator_eq_cons_iff
  | newExpr t args => exact some_eq_cons_iff.trans (iff_of_true (List.cons_ne_nil _ _) .new)
  | deleteExpr arg =>
      exact some_eq_cons_iff.trans (iff_of_true (List.cons_ne_nil _ _) .delete)
  | _ =>
      refine some_eq_cons_iff.trans (iff_of_false (fun h => h rfl) fun h => ?_)
      cases h

end

def intType : QualType := .named "int".toList

def ptrIntType : QualType := .smart .ptr intType

def inStore : List DeclContext := [.functionDecl "store".toList]

def varX : NamedDecl := .value ⟨inStore, "x".toList, intType, false⟩

/-- `ptr<int> & ptr<int>::operator=(const ptr<int> & other)`. -/
def ptrAssign : FunctionDecl :=
  ⟨[.recordDecl "ptr".toList, .namespaceDecl "safe".toList], "operator=".toList,
    [⟨[.functionDecl "operator=".toList], "other".toList, .reference ptrIntType, true⟩],
    .reference ptrIntType, false⟩

/-- `p = &x`, where the address is converted to a temporary `ptr<int>`. -/
def assignAddress : Node :=
  .call true (.declRef (.function ptrAssign))
    [.declRef (.value ⟨inStore, "p".toList, ptrIntType, false⟩),
      .materializeTemporary
        (.bindTemporary (.construct ptrIntType [.unary .addrOf (.declRef varX)]))]
    ptrIntType

/-- `void store() { int x; ptr<int> p; p = &x; }` -/
def store : Node :=
  .functionDecl ⟨[], "store".toList, [], .named "void".toList, false⟩ []
    (some (.otherStmt
      [.declStmt [.varDecl ⟨inStore, "x".toList, intType, false⟩ none],
        .declStmt [.varDecl ⟨inStore, "p".toList, ptrIntType, false⟩
          (some (.construct ptrIntType []))],
        .exprWithCleanups assignAddress]))

theorem validate_of_children {getAsString : QualType → Str} {n : Node}
    (hn : n.visit getAsString = some [])
    (hc : ∀ c ∈ n.children, validate getAsString c = some []) :
    validate getAsString n = some [] :=
  NodeTree.traverse_eq_nil_iff_children.mpr ⟨hn, hc⟩

/-- A call into the namespace `safe` is not looked at. -/
theorem visit_assignAddress (getAsString : QualType → Str) :
    assignAddress.visit getAsString = some [] := by
  have hsafe : (NamedDecl.function ptrAssign).isSafeCPP = true := by decide +kernel
  have hcallee : (Node.declRef (.function ptrAssign)).directCallee = some ptrAssign := rfl
  show some (VisitCallExpr getAsString _ (.declRef (.function ptrAssign)) _) = _
  unfold VisitCallExpr
  rw [hcallee]
  dsimp only
  rw [if_pos hsafe]

theorem validate_store (getAsString : QualType → Str) :
    validate getAsString store = some [] := by
  have hleaf : ∀ n : Node, n.visit getAsString = some [] → n.children = [] →
      validate getAsString n = some [] := by
    intro n hn hc
    exact validate_of_children hn fun c h => absurd (hc ▸ h) List.not_mem_nil
  have hargument : validate getAsString (.materializeTemporary (.bindTemporary
      (.construct ptrIntType [.unary .addrOf (.declRef varX)]))) = some [] := by
    refine validate_of_children rfl (List.forall_mem_singleton.mpr ?_)
    refine validate_of_children rfl (List.forall_mem_singleton.mpr ?_)
    refine validate_of_children rfl (List.forall_mem_singleton.mpr ?_)
    refine validate_of_children rfl (List.forall_mem_singleton.mpr ?_)
    exact hleaf _ rfl rfl
  have hassign : validate getAsString assignAddress = some [] := by
    refine validate_of_children (visit_assignAddress getAsString) ?_
    refine List.forall_mem_cons.mpr ⟨hleaf _ rfl rfl, ?_⟩
    refine List.forall_mem_cons.mpr ⟨hleaf _ rfl rfl, ?_⟩
    exact List.forall_mem_singleton.mpr hargument
  refine validate_of_children rfl (List.forall_mem_singleton.mpr ?_)
  refine validate_of_children rfl ?_
  refine List.forall_mem_cons.mpr ⟨?_, List.forall_mem_cons.mpr ⟨?_, ?_⟩⟩
  · exact validate_of_children rfl (List.forall_mem_singleton.mpr (hleaf _ rfl rfl))
  · refine validate_of_children rfl (List.forall_mem_singleton.mpr ?_)
    exact validate_of_children rfl (List.forall_mem_singleton.mpr (hleaf _ rfl rfl))
  · refine List.forall_mem_singleton.mpr (validate_of_children rfl ?_)
    exact List.forall_mem_singleton.mpr hassign

theorem stores_assignAddress : Stores assignAddress := by
  refine .smartAssign (f := ptrAssign) rfl rfl rfl ⟨.declRef varX, _, ?_, rfl, rfl⟩
  exact .materializeTemporary (.bindTemporary (.construct List.mem_cons_self .refl))

end Ironclad.Validator
