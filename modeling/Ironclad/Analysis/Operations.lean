import Ironclad.Analysis.Reading

/-!
# The visits as a sequence of operations on the map

Whatever the visitor does to its state is one of seven primitive operations, and which
of them a visit performs, in which order, can be read off the syntax once it is known
which keys have a record (`R`). `analyzeAll_eq_perform` says that the visits of a
translation unit perform exactly the operations of `unitOps`.
-/

namespace Ironclad.Analysis

/-- A primitive change of the visitor's state. -/
inductive MapOp where
  /-- `pointers[key]`. -/
  | lookUp (key : Key)
  /-- `InsertInMap(d)`. -/
  | insert (d : NamedDecl)
  | clear (key : Key)
  | pushFrom (key other : Key)
  | pushTo (key other : Key)
  /-- A null pointer is dereferenced. -/
  | fail
  /-- `currentFunction = f`. -/
  | enter (f : FunctionDecl)

def MapOp.apply : MapOp → VisitorState → VisitorState
  | .lookUp key, σ => σ.ask key
  | .insert d, σ => σ.insertInMap d
  | .clear key, σ => σ.clear key
  | .pushFrom key other, σ => σ.pushFrom key other
  | .pushTo key other, σ => σ.pushTo key other
  | .fail, σ => σ.fail
  | .enter f, σ => { σ with currentFunction := some f }

/-- The operations one after the other. -/
def perform (ops : List MapOp) (σ : VisitorState) : VisitorState :=
  ops.foldl (fun σ op => op.apply σ) σ

/-! ## The operations of each handler -/

section

variable (R : Key → Bool)

/-- `HandleInit`; without a record under `key` the change is a null dereference. -/
def initOps (key : Key) (init : Stmt) : List MapOp :=
  match init.IgnoreParenCasts with
  | .declRef d => if R key then [.pushFrom key (convertToUniqueString d 0)] else [.fail]
  | .newExpr isArray _ _ => if isArray then if R key then [.clear key] else [.fail] else []
  | .call callee _ _ =>
      match callee.directCallee with
      | some f =>
          if R key then [.pushFrom key (convertToUniqueString (.function f) 0)] else [.fail]
      | none => []
  | .member _ d => if R key then [.pushFrom key (convertToUniqueString d 0)] else [.fail]
  | _ => []

/-- `VisitVarDecl`. -/
def varOps (v : ValueDecl × Option Stmt) : List MapOp :=
  if v.1.type.isPointerType || v.1.type.isArrayType then
    .insert (.value v.1) ::
      match v.2 with
      | some init => initOps R (convertToUniqueString (.value v.1) 0) init
      | none => []
  else []

/-- The loops over parameters and fields. -/
def declareOps (decls : List ValueDecl) : List MapOp :=
  decls.flatMap fun d =>
    if d.type.isPointerType || d.type.isArrayType then [.insert (.value d)] else []

/-- `VisitUnaryOperator`, as the following ones, without the visits that it makes. -/
def unaryOps (op : UnaryOp) (sub : Stmt) : List MapOp :=
  if sub.type.isPointerType then
    match sub.extractDecl with
    | some d =>
        let key := convertToUniqueString d 0
        .lookUp key :: if R key && op.isArithmeticOp then [.clear key] else []
    | none => []
  else []

/-- The assignment part of `VisitBinaryOperator`, for a call on the right of `d`. -/
def assignCallOps (key : Key) (d : NamedDecl) (rhs : Stmt) : List MapOp :=
  match rhs.extractDecl with
  | some c =>
      let calleeKey := convertToUniqueString c 0
      .lookUp calleeKey ::
        if R calleeKey then
          [.pushFrom calleeKey (convertToUniqueString d 0), .pushFrom key calleeKey]
        else []
  | none => []

/-- The assignment part of `VisitBinaryOperator`. -/
def assignOps (lhs rhs : Stmt) : List MapOp :=
  match lhs.extractDecl with
  | none => []
  | some d =>
      let key := convertToUniqueString d lhs.getSubscriptLevel
      .lookUp key ::
        if R key then
          if rhs.isNewExpr then if rhs.isArrayNew then [.clear key] else []
          else if rhs.isCallExpr then assignCallOps R key d rhs
          else
            match rhs.extractDecl with
            | some s => [.pushFrom key (convertToUniqueString s 0)]
            | none => []
        else []

/-- The assignment part goes on to the children of the call on the right. -/
def assignedCall (lhs rhs : Stmt) : Bool :=
  match lhs.extractDecl with
  | none => false
  | some d =>
      R (convertToUniqueString d lhs.getSubscriptLevel) && !rhs.isNewExpr && rhs.isCallExpr

/-- `VisitArraySubscriptExpr`. -/
def subscriptOps (base : Stmt) : List MapOp :=
  if base.type.isPointerType then
    match base.extractDecl with
    | some d =>
        let key := convertToUniqueString d 0
        .lookUp key :: if R key then [.clear key] else []
    | none => [.fail]
  else []

/-- One pointer argument of `VisitCallExpr`. -/
def argumentOps (arg : Stmt) (param : ValueDecl) : List MapOp :=
  match arg.extractDecl with
  | some a =>
      let argKey := convertToUniqueString a 0
      let paramKey := convertToUniqueString (.value param) 0
      [.lookUp argKey, .lookUp paramKey] ++ (if R argKey then [.pushTo argKey paramKey] else []) ++
        if R paramKey then [.pushFrom paramKey argKey]
        else .insert a :: if R argKey then [.pushFrom argKey argKey] else []
  | none => []

/-- `VisitReturnStmt`, in the body of `cur`. -/
def returnOps (cur : Option FunctionDecl) (value : Option Stmt) : List MapOp :=
  match value with
  | none => []
  | some expr =>
      if expr.isNewExpr then
        match cur with
        | some f =>
            let key := convertToUniqueString (.function f) 0
            .lookUp key :: if R key && expr.isArrayNew then [.clear key] else []
        | none => []
      else
        match expr.extractDecl with
        | some d =>
            let key := convertToUniqueString d 0
            .lookUp key ::
              match cur with
              | some f =>
                  if R key then [.pushFrom key (convertToUniqueString (.function f) 0)] else []
              | none => []
        | none => []

/-- The arguments of a call, each with the visits below it. -/
def callOps (below : Stmt → List MapOp) (pairs : List (Stmt × ValueDecl)) : List MapOp :=
  pairs.flatMap fun pair =>
    if pair.1.type.isPointerType && !pair.1.type.isFunctionPointerType then
      argumentOps R pair.1 pair.2 ++ below pair.1
    else []

/-- `Visit`. -/
def stmtOps (cur : Option FunctionDecl) : Nat → Stmt → List MapOp
  | 0, _ => []
  | fuel + 1, s =>
      let below (t : Stmt) := t.children.flatMap (stmtOps cur fuel)
      match s with
      | .declStmt group => group.flatMap (varOps R)
      | .unary op sub => unaryOps R op sub ++ below sub
      | .binary op lhs rhs =>
          (if op.isAssignmentOp && lhs.type.isPointerType then
            assignOps R lhs rhs ++ if assignedCall R lhs rhs then below rhs else []
          else []) ++ (below lhs.IgnoreParenCasts ++ below rhs.IgnoreParenCasts)
      | .subscript base idx => subscriptOps R base ++ (below base ++ below idx)
      | .call callee args _ =>
          match callee.directCallee with
          | some f => callOps R below (args.zip f.params)
          | none => []
      | .returnStmt value => returnOps R cur value
      | .newExpr _ _ _ => []
      | .explicitCast _ sub => below sub
      | s => below s

/-- `Analyze`. -/
def topOps (fuel : Nat) : TopDecl → List MapOp
  | .var d init => varOps R (d, init)
  | .function f body inSystemHeader =>
      (if f.resultType.isPointerType then [.insert (.function f)] else []) ++
        (declareOps f.params ++
          match body with
          | some body =>
              if inSystemHeader then []
              else .enter f :: body.children.flatMap (stmtOps R (some f) fuel)
          | none => [])
  | .record fields => declareOps fields

/-- The operations of the visits of a translation unit, in order. -/
def unitOps (fuel : Nat) (unit : TranslationUnit) : List MapOp := unit.flatMap (topOps R fuel)

end

/-! ## Composition -/

@[simp] theorem perform_nil (σ : VisitorState) : perform [] σ = σ := rfl

@[simp] theorem perform_cons (op : MapOp) (ops : List MapOp) (σ : VisitorState) :
    perform (op :: ops) σ = perform ops (op.apply σ) := rfl

theorem perform_append (ops ops' : List MapOp) (σ : VisitorState) :
    perform (ops ++ ops') σ = perform ops' (perform ops σ) := by
  unfold perform
  exact List.foldl_append

theorem grows_apply (op : MapOp) (σ : VisitorState) :
    Grows σ.pointers (op.apply σ).pointers := by
  cases op with
  | lookUp key => exact fun k hk => ⟨keys_subset_touch σ.pointers key hk, Iff.rfl⟩
  | insert d => exact (inserts_insertInMap d σ.pointers).grows
  | clear key => exact grows_modifyAt σ.pointers key _
  | pushFrom key other => exact grows_modifyAt σ.pointers key _
  | pushTo key other => exact grows_modifyAt σ.pointers key _
  | fail => exact .refl _
  | enter f => exact .refl _

theorem grows_perform (ops : List MapOp) (σ : VisitorState) :
    Grows σ.pointers (perform ops σ).pointers := by
  induction ops generalizing σ with
  | nil => exact .refl _
  | cons op ops ih => exact (grows_apply op σ).trans (ih _)

/-- From `σ` to `σ'` the operations are performed, provided that `R` is right at the
end, and in any case within the same function. -/
structure Performs (R : Key → Bool) (σ σ' : VisitorState) (ops : List MapOp) : Prop where
  cur : σ'.currentFunction = σ.currentFunction
  eq : Settled (fun k => R k = true) σ'.pointers → σ' = perform ops σ

namespace Performs

variable {R : Key → Bool} {σ σ₁ σ' : VisitorState} {ops ops' : List MapOp}

theorem refl (σ : VisitorState) : Performs R σ σ [] := ⟨rfl, fun _ => rfl⟩

theorem grows (h : Performs R σ σ' ops) (hR : Settled (fun k => R k = true) σ'.pointers) :
    Grows σ.pointers σ'.pointers :=
  h.eq hR ▸ grows_perform ops σ

theorem trans (h : Performs R σ σ₁ ops) (h' : Performs R σ₁ σ' ops') :
    Performs R σ σ' (ops ++ ops') := by
  refine ⟨h'.cur.trans h.cur, fun hR => ?_⟩
  rw [perform_append, ← h.eq (hR.of_grows (h'.grows hR))]
  exact h'.eq hR

theorem op (op : MapOp) (σ : VisitorState)
    (hcur : (op.apply σ).currentFunction = σ.currentFunction := by rfl) :
    Performs R σ (op.apply σ) [op] :=
  ⟨hcur, fun _ => rfl⟩

/-- After an operation that is performed anyway. -/
theorem after (op : MapOp) (h : Performs R (op.apply σ) σ' ops)
    (hcur : (op.apply σ).currentFunction = σ.currentFunction := by rfl) :
    Performs R σ σ' (op :: ops) :=
  ⟨h.cur.trans hcur, h.eq⟩

/-- A check for null, of a key that is there. -/
theorem check {key : Key} (hkey : key ∈ σ.pointers.keys)
    (ht : σ.hasRecord key = true → Performs R σ σ' ops)
    (hf : ¬σ.hasRecord key = true → Performs R σ σ' ops') :
    Performs R σ σ' (if R key then ops else ops') := by
  by_cases hrecord : σ.hasRecord key = true
  · refine ⟨(ht hrecord).cur, fun hR => ?_⟩
    have hr : R key = true :=
      ((hR.of_grows ((ht hrecord).grows hR)).hasRecord_iff hkey).mp hrecord
    rw [if_pos hr]
    exact (ht hrecord).eq hR
  · refine ⟨(hf hrecord).cur, fun hR => ?_⟩
    have hr : ¬R key = true := fun h =>
      hrecord (((hR.of_grows ((hf hrecord).grows hR)).hasRecord_iff hkey).mpr h)
    rw [if_neg hr]
    exact (hf hrecord).eq hR

theorem ite {key : Key} {τ τ' : VisitorState} (hkey : key ∈ σ.pointers.keys)
    (ht : Performs R σ τ ops) (hf : Performs R σ τ' ops') :
    Performs R σ (if σ.hasRecord key then τ else τ') (if R key then ops else ops') := by
  refine check hkey (fun h => ?_) (fun h => ?_)
  · rw [if_pos h]
    exact ht
  · rw [if_neg h]
    exact hf

/-- A check for null together with a test of the syntax. -/
theorem ite_and {key : Key} {τ τ' : VisitorState} {b : Bool} (hkey : key ∈ σ.pointers.keys)
    (ht : Performs R σ τ ops) (hf : Performs R σ τ' ops') :
    Performs R σ (if σ.hasRecord key && b then τ else τ') (if R key && b then ops else ops') := by
  cases b with
  | true =>
      simp only [Bool.and_true]
      exact ite hkey ht hf
  | false =>
      simp only [Bool.and_false, Bool.false_eq_true, if_false]
      exact hf

/-- A test of the syntax. -/
theorem ite_const {b : Bool} {τ τ' : VisitorState} (ht : Performs R σ τ ops)
    (hf : Performs R σ τ' ops') :
    Performs R σ (if b then τ else τ') (if b then ops else ops') := by
  cases b with
  | true => exact ht
  | false => exact hf

end Performs

/-! ## The handlers -/

section

variable {R : Key → Bool} (σ : VisitorState)

theorem performs_handleInit {key : Key} (hkey : key ∈ σ.pointers.keys) (init : Stmt) :
    Performs R σ (HandleInit key init σ) (initOps R key init) := by
  unfold HandleInit initOps
  cases init.IgnoreParenCasts with
  | declRef d => exact .ite hkey (.op (.pushFrom key _) σ) (.op .fail σ)
  | newExpr isArray allocated args =>
      exact .ite_const (.ite hkey (.op (.clear key) σ) (.op .fail σ)) (.refl σ)
  | call callee args type =>
      simp only
      cases callee.directCallee with
      | some f => exact .ite hkey (.op (.pushFrom key _) σ) (.op .fail σ)
      | none => exact .refl σ
  | member base d => exact .ite hkey (.op (.pushFrom key _) σ) (.op .fail σ)
  | _ => exact .refl σ

theorem performs_visitVarDecl (d : ValueDecl) (init : Option Stmt) :
    Performs R σ (VisitVarDecl d init σ) (varOps R (d, init)) := by
  unfold VisitVarDecl varOps
  refine .ite_const (.after (.insert (.value d)) ?_) (.refl σ)
  cases init with
  | none => exact .refl _
  | some init => exact performs_handleInit _ (mem_insertInMap_keys (.value d) σ.pointers) init

theorem performs_visitDeclStmt (group : List (ValueDecl × Option Stmt)) :
    Performs R σ (VisitDeclStmt group σ) (group.flatMap (varOps R)) := by
  unfold VisitDeclStmt
  induction group generalizing σ with
  | nil => exact .refl σ
  | cons v group ih =>
      rw [List.foldl_cons, List.flatMap_cons]
      exact (performs_visitVarDecl σ v.1 v.2).trans (ih _)

theorem performs_insertPointers (decls : List ValueDecl) :
    Performs R σ (insertPointers decls σ) (declareOps decls) := by
  unfold insertPointers declareOps
  induction decls generalizing σ with
  | nil => exact .refl σ
  | cons d decls ih =>
      rw [List.foldl_cons, List.flatMap_cons]
      exact (Performs.ite_const (.op (.insert (.value d)) σ) (.refl σ)).trans (ih _)

theorem performs_recordArgument (arg : Stmt) (param : ValueDecl) :
    Performs R σ (recordArgument arg param σ) (argumentOps R arg param) := by
  unfold recordArgument argumentOps
  cases arg.extractDecl with
  | none => exact .refl σ
  | some a =>
      simp only
      generalize hargKey : convertToUniqueString a 0 = argKey
      generalize convertToUniqueString (.value param) 0 = paramKey
      rw [List.append_assoc]
      refine .after (.lookUp argKey) (.after (.lookUp paramKey) ?_)
      have harg : argKey ∈ ((σ.ask argKey).ask paramKey).pointers.keys :=
        keys_subset_touch _ paramKey (mem_ask_keys σ argKey)
      have hparam : paramKey ∈ ((σ.ask argKey).ask paramKey).pointers.keys :=
        mem_ask_keys (σ.ask argKey) paramKey
      show Performs R ((σ.ask argKey).ask paramKey) _ _
      generalize (σ.ask argKey).ask paramKey = τ at harg hparam ⊢
      refine (Performs.ite harg (.op (.pushTo argKey paramKey) τ) (.refl τ)).trans ?_
      have hkeys : (if τ.hasRecord argKey then τ.pushTo argKey paramKey else τ).pointers.keys =
          τ.pointers.keys := by
        split <;> rfl
      change Performs R (if τ.hasRecord argKey then τ.pushTo argKey paramKey else τ) _ _
      generalize (if τ.hasRecord argKey then τ.pushTo argKey paramKey else τ) = υ at hkeys ⊢
      rw [← hkeys] at harg hparam
      refine .ite hparam (.op (.pushFrom paramKey argKey) υ) (.after (.insert a) ?_)
      have hinserted : argKey ∈ (υ.insertInMap a).pointers.keys :=
        ((inserts_insertInMap a υ.pointers).grows _ harg).1
      exact .ite hinserted (.op (.pushFrom argKey argKey) _) (.refl _)

theorem performs_visitReturnStmt (value : Option Stmt) :
    Performs R σ (VisitReturnStmt value σ) (returnOps R σ.currentFunction value) := by
  unfold VisitReturnStmt returnOps
  cases value with
  | none => exact .refl σ
  | some expr =>
      simp only
      refine .ite_const ?_ ?_
      · cases σ.currentFunction with
        | none => exact .refl σ
        | some f =>
            exact .after (.lookUp _) (.ite_and (mem_ask_keys σ _) (.op (.clear _) _) (.refl _))
      · cases expr.extractDecl with
        | none => exact .refl σ
        | some d =>
            have hsame : ∀ key, (σ.ask key).currentFunction = σ.currentFunction := fun _ => rfl
            simp only [hsame]
            refine .after (.lookUp _) ?_
            cases σ.currentFunction with
            | none => exact .refl _
            | some f => exact .ite (mem_ask_keys σ _) (.op (.pushFrom _ _) _) (.refl _)

variable {σ} {σ' : VisitorState} {visitStmt : StmtVisitor} {below : Stmt → List MapOp}

/-- What a traversal must do for the handlers in the body of `cur`. -/
def PerformsBelow (R : Key → Bool) (cur : Option FunctionDecl) (below : Stmt → List MapOp)
    (visitStmt : StmtVisitor) : Prop :=
  ∀ s σ σ', visitStmt s σ = some σ' → σ.currentFunction = cur → Performs R σ σ' (below s)

theorem performs_visitUnaryOperator {op : UnaryOp} {sub : Stmt}
    (hvs : PerformsBelow R σ.currentFunction below visitStmt)
    (h : VisitUnaryOperator visitStmt op sub σ = some σ') :
    Performs R σ σ' (unaryOps R op sub ++ below sub) := by
  have hown : ∃ τ, Performs R σ τ (unaryOps R op sub) ∧ visitStmt sub τ = some σ' := by
    refine ⟨_, ?_, h⟩
    unfold unaryOps
    refine .ite_const ?_ (.refl σ)
    cases sub.extractDecl with
    | none => exact .refl σ
    | some d =>
        exact .after (.lookUp _) (.ite_and (mem_ask_keys σ _) (.op (.clear _) _) (.refl _))
  obtain ⟨τ, hτ, hrest⟩ := hown
  exact hτ.trans (hvs sub τ σ' hrest hτ.cur)

theorem performs_visitArraySubscriptExpr {base idx : Stmt}
    (hvs : PerformsBelow R σ.currentFunction below visitStmt)
    (h : VisitArraySubscriptExpr visitStmt base idx σ = some σ') :
    Performs R σ σ' (subscriptOps R base ++ (below base ++ below idx)) := by
  obtain ⟨σ₁, hbase, hidx⟩ := Option.bind_eq_some_iff.mp h
  have hown : ∃ τ, Performs R σ τ (subscriptOps R base) ∧ visitStmt base τ = some σ₁ := by
    refine ⟨_, ?_, hbase⟩
    unfold subscriptOps
    refine .ite_const ?_ (.refl σ)
    cases base.extractDecl with
    | none => exact .op .fail σ
    | some d =>
        exact .after (.lookUp _) (.ite (mem_ask_keys σ _) (.op (.clear _) _) (.refl _))
  obtain ⟨τ, hτ, hfirst⟩ := hown
  have hσ₁ := hvs base τ σ₁ hfirst hτ.cur
  exact hτ.trans (hσ₁.trans (hvs idx σ₁ σ' hidx (hσ₁.cur.trans hτ.cur)))

theorem performs_visitArguments (hvs : PerformsBelow R σ.currentFunction below visitStmt)
    (pairs : List (Stmt × ValueDecl)) (h : visitArguments visitStmt pairs σ = some σ') :
    Performs R σ σ' (callOps R below pairs) := by
  unfold callOps
  induction pairs generalizing σ with
  | nil =>
      cases h
      exact .refl _
  | cons pair pairs ih =>
      obtain ⟨arg, param⟩ := pair
      obtain ⟨σ₁, hfirst, hrest⟩ := Option.bind_eq_some_iff.mp h
      rw [List.flatMap_cons]
      have hone : Performs R σ σ₁
          (if arg.type.isPointerType && !arg.type.isFunctionPointerType then
            argumentOps R arg param ++ below arg else []) := by
        split at hfirst
        · rename_i hptr
          rw [if_pos hptr]
          have hrecord := performs_recordArgument (R := R) σ arg param
          exact hrecord.trans (hvs arg _ σ₁ hfirst hrecord.cur)
        · rename_i hptr
          cases hfirst
          rw [if_neg hptr]
          exact .refl _
      exact hone.trans (ih (hone.cur ▸ hvs) hrest)

/-- An assignment to `d`, whose `key` has a record. -/
theorem performs_assigned {key : Key} {d : NamedDecl} {rhs : Stmt}
    (hvs : PerformsBelow R σ.currentFunction below visitStmt)
    (h : (if rhs.isNewExpr then some (if rhs.isArrayNew then σ.clear key else σ)
      else if rhs.isCallExpr then
        visitStmt rhs
          (match rhs.extractDecl with
          | some calleeDecl =>
              let calleeKey := convertToUniqueString calleeDecl 0
              let σ := σ.ask calleeKey
              if σ.hasRecord calleeKey then
                (σ.pushFrom calleeKey (convertToUniqueString d 0)).pushFrom key calleeKey
              else σ
          | none => σ)
      else
        some (match rhs.extractDecl with
          | some assignedFromDecl => σ.pushFrom key (convertToUniqueString assignedFromDecl 0)
          | none => σ)) = some σ') :
    Performs R σ σ'
      ((if rhs.isNewExpr then if rhs.isArrayNew then [.clear key] else []
      else if rhs.isCallExpr then assignCallOps R key d rhs
      else
        match rhs.extractDecl with
        | some s => [.pushFrom key (convertToUniqueString s 0)]
        | none => []) ++ if !rhs.isNewExpr && rhs.isCallExpr then below rhs else []) := by
  cases hnew : rhs.isNewExpr with
  | true =>
      rw [hnew, if_pos rfl] at h
      cases h
      simp only [if_true, Bool.not_true, Bool.false_and, Bool.false_eq_true, if_false,
        List.append_nil]
      exact .ite_const (.op (.clear key) σ) (.refl σ)
  | false =>
      rw [hnew, if_neg Bool.false_ne_true] at h
      simp only [Bool.false_eq_true, if_false, Bool.not_false, Bool.true_and]
      cases hcall : rhs.isCallExpr with
      | true =>
          rw [hcall, if_pos rfl] at h
          simp only [if_true]
          have hown : ∃ τ, Performs R σ τ (assignCallOps R key d rhs) ∧
              visitStmt rhs τ = some σ' := by
            refine ⟨_, ?_, h⟩
            unfold assignCallOps
            cases rhs.extractDecl with
            | none => exact .refl σ
            | some c =>
                exact .after (.lookUp _) (.ite (mem_ask_keys σ _)
                  (.after (.pushFrom _ _) (.op (.pushFrom _ _) _)) (.refl _))
          obtain ⟨τ, hτ, hrest⟩ := hown
          exact hτ.trans (hvs rhs τ σ' hrest hτ.cur)
      | false =>
          rw [hcall, if_neg Bool.false_ne_true] at h
          cases h
          simp only [Bool.false_eq_true, if_false, List.append_nil]
          cases rhs.extractDecl with
          | none => exact .refl σ
          | some s => exact .op (.pushFrom key _) σ

theorem performs_visitAssignment {lhs rhs : Stmt}
    (hvs : PerformsBelow R σ.currentFunction below visitStmt)
    (h : visitAssignment visitStmt lhs rhs σ = some σ') :
    Performs R σ σ'
      (assignOps R lhs rhs ++ if assignedCall R lhs rhs then below rhs else []) := by
  unfold visitAssignment at h
  unfold assignOps
  cases hd : lhs.extractDecl with
  | none =>
      have hno : assignedCall R lhs rhs = false := by simp [assignedCall, hd]
      rw [hd] at h
      cases h
      rw [hno]
      exact .refl _
  | some d =>
      obtain ⟨key, hkey⟩ : ∃ key, convertToUniqueString d lhs.getSubscriptLevel = key := ⟨_, rfl⟩
      have hassigned : assignedCall R lhs rhs = (R key && !rhs.isNewExpr && rhs.isCallExpr) := by
        simp only [assignedCall, hd, hkey]
      rw [hd] at h
      simp only [hkey] at h ⊢
      have hops : ∀ (r n c : Bool) (own : List MapOp),
          (if r then own else []) ++ (if r && !n && c then below rhs else []) =
            if r then own ++ if !n && c then below rhs else [] else [] := by
        intro r n c own
        cases r <;> simp
      rw [hassigned, List.cons_append, hops]
      refine .after (.lookUp key) ?_
      show Performs R (σ.ask key) σ' _
      refine .check (mem_ask_keys σ key) (fun hrecord => ?_) fun hnone => ?_
      · rw [if_pos hrecord] at h
        exact performs_assigned hvs h
      · rw [if_neg hnone] at h
        cases h
        exact .refl _

theorem performs_visitBinaryOperator {op : BinaryOp} {lhs rhs : Stmt}
    (hvs : PerformsBelow R σ.currentFunction below visitStmt)
    (h : VisitBinaryOperator visitStmt op lhs rhs σ = some σ') :
    Performs R σ σ'
      ((if op.isAssignmentOp && lhs.type.isPointerType then
        assignOps R lhs rhs ++ if assignedCall R lhs rhs then below rhs else []
      else []) ++ (below lhs.IgnoreParenCasts ++ below rhs.IgnoreParenCasts)) := by
  obtain ⟨σ₁, hassign, hrest⟩ := Option.bind_eq_some_iff.mp h
  obtain ⟨σ₂, hlhs, hrhs⟩ := Option.bind_eq_some_iff.mp hrest
  have hfirst : Performs R σ σ₁ (if op.isAssignmentOp && lhs.type.isPointerType then
      assignOps R lhs rhs ++ if assignedCall R lhs rhs then below rhs else [] else []) := by
    split at hassign
    · rename_i hcond
      rw [if_pos hcond]
      exact performs_visitAssignment hvs hassign
    · rename_i hcond
      cases hassign
      rw [if_neg hcond]
      exact .refl _
  have hsecond := hvs _ σ₁ σ₂ hlhs hfirst.cur
  exact hfirst.trans (hsecond.trans (hvs _ σ₂ σ' hrhs (hsecond.cur.trans hfirst.cur)))

/-- Visiting a list of nodes one after the other. -/
theorem performs_foldlM {visit : StmtVisitor} {cur : Option FunctionDecl}
    {ops : Stmt → List MapOp} (hvisit : PerformsBelow R cur ops visit) (ss : List Stmt)
    (hcur : σ.currentFunction = cur) (h : ss.foldlM (fun σ s => visit s σ) σ = some σ') :
    Performs R σ σ' (ss.flatMap ops) := by
  induction ss generalizing σ with
  | nil =>
      cases h
      exact .refl _
  | cons s ss ih =>
      obtain ⟨σ₁, hfirst, hrest⟩ := Option.bind_eq_some_iff.mp h
      have hone := hvisit s σ σ₁ hfirst hcur
      rw [List.flatMap_cons]
      exact hone.trans (ih (hone.cur.trans hcur) hrest)

end

/-! ## The traversal -/

section

variable {VisitStmt : StmtVisitor → StmtVisitor} (hV : VisitsChildren VisitStmt)

include hV

theorem performs_visit (R : Key → Bool) (cur : Option FunctionDecl) (fuel : Nat) :
    PerformsBelow R cur (stmtOps R cur fuel) (Visit VisitStmt fuel) := by
  induction fuel with
  | zero =>
      intro s σ σ' h
      contradiction
  | succ fuel ih =>
      intro s σ σ' h hcur
      subst hcur
      have hvs : PerformsBelow R σ.currentFunction
          (fun t => t.children.flatMap (stmtOps R σ.currentFunction fuel))
          (VisitStmt (Visit VisitStmt fuel)) := by
        intro s τ τ' h hcur
        rw [hV] at h
        exact performs_foldlM ih s.children hcur h
      cases s with
      | declStmt group =>
          cases h
          exact performs_visitDeclStmt σ group
      | unary op sub => exact performs_visitUnaryOperator hvs h
      | binary op lhs rhs => exact performs_visitBinaryOperator hvs h
      | subscript base idx => exact performs_visitArraySubscriptExpr hvs h
      | call callee args ty =>
          rw [stmtOps]
          simp only [Visit, VisitCallExpr] at h
          cases hf : callee.directCallee with
          | none =>
              rw [hf] at h
              cases h
              exact .refl _
          | some f =>
              rw [hf] at h
              exact performs_visitArguments hvs _ h
      | returnStmt value =>
          cases h
          exact performs_visitReturnStmt σ value
      | newExpr isArray allocated args =>
          cases h
          exact .refl _
      | explicitCast ty sub => exact hvs sub σ σ' h rfl
      | _ => exact hvs _ σ σ' h rfl

/-- `Performs`, for steps that enter a function. -/
def PerformsTop (R : Key → Bool) (σ σ' : VisitorState) (ops : List MapOp) : Prop :=
  Settled (fun k => R k = true) σ'.pointers → σ' = perform ops σ

omit hV in
theorem PerformsTop.trans {R : Key → Bool} {σ σ₁ σ' : VisitorState} {ops ops' : List MapOp}
    (h : PerformsTop R σ σ₁ ops) (h' : PerformsTop R σ₁ σ' ops') :
    PerformsTop R σ σ' (ops ++ ops') := by
  intro hR
  have hgrows : Grows σ₁.pointers σ'.pointers := h' hR ▸ grows_perform ops' σ₁
  rw [perform_append, ← h (hR.of_grows hgrows)]
  exact h' hR

variable {R : Key → Bool} {σ σ' : VisitorState}

theorem performs_visitFunctionDecl {fuel : Nat} {f : FunctionDecl} {body : Option Stmt}
    {inSystemHeader : Bool}
    (h : VisitFunctionDecl VisitStmt fuel f body inSystemHeader σ = some σ') :
    PerformsTop R σ σ' (topOps R fuel (.function f body inSystemHeader)) := by
  have hinsert : Performs R σ
      (if f.resultType.isPointerType then σ.insertInMap (.function f) else σ)
      (if f.resultType.isPointerType then [.insert (.function f)] else []) :=
    .ite_const (.op (.insert (.function f)) σ) (.refl σ)
  have hparams := hinsert.trans (performs_insertPointers _ f.params)
  simp only [VisitFunctionDecl] at h
  simp only [topOps, ← List.append_assoc]
  generalize insertPointers f.params _ = σ₁ at h hparams
  refine PerformsTop.trans hparams.eq ?_
  cases body with
  | none =>
      cases h
      exact fun _ => rfl
  | some body =>
      cases inSystemHeader with
      | true =>
          cases h
          exact fun _ => rfl
      | false =>
          simp only [Bool.false_eq_true, if_false] at h ⊢
          rw [hV] at h
          exact (performs_foldlM (performs_visit hV R (some f) fuel) body.children rfl h).eq

theorem performs_analyze {fuel : Nat} {d : TopDecl} (h : Analyze VisitStmt fuel σ d = some σ') :
    PerformsTop R σ σ' (topOps R fuel d) := by
  cases d with
  | var d init =>
      cases h
      exact (performs_visitVarDecl σ d init).eq
  | function f body inSystemHeader => exact performs_visitFunctionDecl hV h
  | record fields =>
      cases h
      exact (performs_insertPointers σ fields).eq

theorem performs_unit {fuel : Nat} (unit : TranslationUnit)
    (h : unit.foldlM (Analyze VisitStmt fuel) σ = some σ') :
    PerformsTop R σ σ' (unitOps R fuel unit) := by
  unfold unitOps
  induction unit generalizing σ with
  | nil =>
      cases h
      exact fun _ => rfl
  | cons d unit ih =>
      obtain ⟨σ₁, hfirst, hrest⟩ := Option.bind_eq_some_iff.mp h
      rw [List.flatMap_cons]
      exact (performs_analyze hV hfirst).trans (ih hrest)

/-- **The visits of a translation unit are the operations read off its syntax**, with the
keys that have a record in the end. -/
theorem analyzeAll_eq_perform {fuel : Nat} {unit : TranslationUnit} {σ : VisitorState}
    (h : analyzeAll VisitStmt fuel unit = some σ) :
    σ = perform (unitOps σ.hasRecord fuel unit) .empty := by
  refine performs_unit hV unit h ⟨fun k hk => ?_, fun k _ hnone => ?_⟩
  · exact Option.isSome_iff_ne_none.mpr hk
  · simp [VisitorState.hasRecord, hnone]

end

end Ironclad.Analysis
