import Ironclad.Translator.Consumer

/-!
# The order of the visits

What the consumer does to its state at a node, and in which order it comes to the nodes, can
be read off the syntax. `translateUnit_eq` says that the visits of a translation unit end,
and perform exactly the turns of `unitTurns`.
-/

namespace Ironclad.Translator

/-- A step of the visits. -/
inductive Turn where
  /-- A binary operator, with its left-hand side. -/
  | binary (lhs : Stmt)
  /-- A `new` expression that the consumer comes to. -/
  | allocate (n : New)
  /-- A `new` expression that the builder comes to. -/
  | build (n : New)
  | declare (d : ValueDecl)
  | parameter (d : ValueDecl)

def Turn.apply : Turn → Consumer → Consumer
  | .binary lhs, c => { c with currentLHS := some lhs }
  | .allocate n, c => c.build n c.currentLHS
  | .build n, c => c.build n none
  | .declare d, c => c.declare d
  | .parameter d, c => c.parameter d

/-- The turns one after the other. -/
def runTurns (turns : List Turn) (c : Consumer) : Consumer :=
  turns.foldl (fun c t => t.apply c) c

/-- The `new` expressions that the builder comes to from a node. -/
def Stmt.news (s : Stmt) : List New :=
  match s with
  | .implicitCast sub => sub.news
  | .call callee args isMemberCall =>
      if callee.directCallee.isSome && !isMemberCall then
        args.flatMap fun arg => arg.news ++ arg.news
      else []
  | .newExpr n => [n]
  | .explicitCast _ sub => sub.news
  | s => s.children.attach.flatMap fun t => t.val.news
termination_by sizeOf s
decreasing_by
  · simp
  · rename_i hmem
    exact Stmt.sizeOf_child_lt (List.mem_cons_of_mem _ hmem)
  · simp
  · exact Stmt.sizeOf_child_lt t.property

/-- A variable, with the `new` expressions in its initialiser. -/
def varTurns (d : ValueDecl) (init : Option Stmt) : List Turn :=
  if (d.type.isPointerType || d.type.isArrayType) && d.validRange then
    .declare d ::
      match init with
      | some init => init.news.map .build
      | none => []
  else []

/-- The turns of the visit of a node. -/
def Stmt.turns (s : Stmt) : List Turn :=
  match s with
  | .declStmt group => group.flatMap fun v => varTurns v.1 v.2
  | .binary _ lhs rhs => .binary lhs :: (lhs.turns ++ rhs.turns)
  | .newExpr n => if n.validRange then [.allocate n] else []
  | .call callee args isMemberCall =>
      if callee.directCallee.any isSystemCall then
        if isMemberCall then []
        else args.flatMap fun arg => (arg.news ++ arg.news).map .build
      else callee.turns ++ args.flatMap fun arg => arg.turns
  | .explicitCast toPointer sub => if toPointer then sub.news.map .build else []
  | .deleteExpr _ => []
  | s => s.children.attach.flatMap fun t => t.val.turns
termination_by sizeOf s
decreasing_by
  · exact Stmt.sizeOf_child_lt (s := .binary _ lhs rhs) (by simp [Stmt.children])
  · exact Stmt.sizeOf_child_lt (s := .binary _ lhs rhs) (by simp [Stmt.children])
  · exact Stmt.sizeOf_child_lt (s := .call callee args isMemberCall) (by simp [Stmt.children])
  · rename_i hmem
    exact Stmt.sizeOf_child_lt (List.mem_cons_of_mem _ hmem)
  · exact Stmt.sizeOf_child_lt t.property

/-- The turns of a declaration at the top level. -/
def TopDecl.turns : TopDecl → List Turn
  | .var d init => varTurns d init
  | .function params body isMain isInstantiated =>
      (if !isMain && !isInstantiated then
        (params.filter fun d => d.type.isPointerType).map .parameter else []) ++
        if isInstantiated then [] else
          match body with
          | some body => body.turns
          | none => []
  | .record fields => fields.flatMap fun d => varTurns d none

/-- The turns of the visits of a translation unit, in order. -/
def unitTurns (unit : TranslationUnit) : List Turn := unit.flatMap TopDecl.turns

/-! ## The visits perform the turns -/

@[simp] theorem run_nil (c : Consumer) : runTurns [] c = c := rfl

@[simp] theorem run_cons (t : Turn) (ts : List Turn) (c : Consumer) :
    runTurns (t :: ts) c = runTurns ts (t.apply c) := rfl

theorem run_append (ts us : List Turn) (c : Consumer) :
    runTurns (ts ++ us) c = runTurns us (runTurns ts c) :=
  List.foldl_append

/-- Visits one after the other. -/
theorem foldlM_eq_run {α : Type} {visit : Consumer → α → Option Consumer} {turns : α → List Turn}
    (xs : List α) (h : ∀ x ∈ xs, ∀ c, visit c x = some (runTurns (turns x) c)) (c : Consumer) :
    xs.foldlM visit c = some (runTurns (xs.flatMap turns) c) := by
  induction xs generalizing c with
  | nil => rfl
  | cons x xs ih =>
      rw [List.forall_mem_cons] at h
      rw [List.foldlM_cons, h.1, List.flatMap_cons, run_append]
      exact ih h.2 _

theorem flatMap_attach {α β : Type} (xs : List α) (f : α → List β) :
    (xs.attach.flatMap fun x => f x.val) = xs.flatMap f := by
  simp

/-- Traversing every argument twice. -/
theorem buildSystemCall_eq_run {traverse : StmtVisitor} {args : List Stmt}
    (h : ∀ arg ∈ args, ∀ c, traverse arg c = some (runTurns (arg.news.map .build) c))
    (c : Consumer) : buildSystemCall traverse args c =
      some (runTurns (args.flatMap fun arg => (arg.news ++ arg.news).map .build) c) := by
  refine foldlM_eq_run args (fun arg harg c => ?_) c
  rw [h arg harg, Option.bind_some, h arg harg, List.map_append, run_append]

section

variable {VisitStmt : StmtVisitor → StmtVisitor} (hV : VisitsChildren VisitStmt)

include hV

theorem visitStmt_eq_run {visit : StmtVisitor} {turns : Stmt → List Turn} {s : Stmt}
    (h : ∀ t ∈ s.children, ∀ c, visit t c = some (runTurns (turns t) c)) (c : Consumer) :
    VisitStmt visit s c = some (runTurns (s.children.flatMap turns) c) := by
  rw [hV]
  exact foldlM_eq_run s.children h c

theorem builder_visit_eq_run (fuel : Nat) (s : Stmt) (hs : sizeOf s ≤ fuel) (c : Consumer) :
    Builder.Visit VisitStmt fuel s c = some (runTurns (s.news.map .build) c) := by
  induction fuel generalizing s c with
  | zero => cases s <;> simp at hs
  | succ fuel ih =>
      have hchild : ∀ t ∈ s.children, ∀ c,
          Builder.Visit VisitStmt fuel t c = some (runTurns (t.news.map .build) c) := by
        intro t ht c
        have := Stmt.sizeOf_child_lt ht
        exact ih t (by omega) c
      have hplain := visitStmt_eq_run hV hchild
      cases s with
      | implicitCast sub =>
          rw [Stmt.news]
          exact hchild sub List.mem_cons_self c
      | explicitCast toPointer sub =>
          rw [Stmt.news]
          exact hchild sub List.mem_cons_self c
      | newExpr n =>
          rw [Stmt.news]
          rfl
      | call callee args isMemberCall =>
          rw [Stmt.news, Builder.Visit]
          split
          · rw [List.map_flatMap]
            exact buildSystemCall_eq_run
              (fun arg harg => hchild arg (List.mem_cons_of_mem _ harg)) c
          · rfl
      | _ =>
          simp only [Stmt.news, flatMap_attach, List.map_flatMap]
          exact hplain c

theorem handleVariable_eq_run {fuel : Nat} {d : ValueDecl} {init : Option Stmt}
    (h : ∀ s, init = some s → sizeOf s ≤ fuel) (c : Consumer) :
    HandleVariable VisitStmt fuel d init c = some (runTurns (varTurns d init) c) := by
  unfold HandleVariable varTurns
  by_cases hptr : (d.type.isPointerType || d.type.isArrayType) = true
  · rw [if_pos hptr, hptr, Bool.true_and]
    by_cases hrange : d.validRange = true
    · rw [if_pos hrange, if_pos hrange, run_cons]
      cases init with
      | none => rfl
      | some init => exact builder_visit_eq_run hV fuel init (h init rfl) _
    · rw [if_neg hrange, if_neg hrange]
      rfl
  · rw [if_neg hptr, Bool.eq_false_iff.mpr hptr]
    rfl

theorem consumer_visit_eq_run (fuel : Nat) (s : Stmt) (hs : sizeOf s ≤ fuel) (c : Consumer) :
    Consumer.Visit VisitStmt fuel s c = some (runTurns s.turns c) := by
  induction fuel generalizing s c with
  | zero => cases s <;> simp at hs
  | succ fuel ih =>
      have hsmall : ∀ t ∈ s.children, sizeOf t ≤ fuel := by
        intro t ht
        have := Stmt.sizeOf_child_lt ht
        omega
      have hplain : ∀ c, VisitStmt (Consumer.Visit VisitStmt fuel) s c =
          some (runTurns (s.children.flatMap Stmt.turns) c) :=
        visitStmt_eq_run hV fun t ht c => ih t (hsmall t ht) c
      have hbuilder : ∀ t ∈ s.children, ∀ c,
          Builder.Visit VisitStmt fuel t c = some (runTurns (t.news.map .build) c) :=
        fun t ht c => builder_visit_eq_run hV fuel t (hsmall t ht) c
      cases s with
      | declStmt group =>
          rw [Stmt.turns]
          have hvars : ∀ v ∈ group, ∀ c, HandleVariable VisitStmt fuel v.1 v.2 c =
              some (runTurns (varTurns v.1 v.2) c) := fun v hv c =>
            handleVariable_eq_run hV
              (fun init hinit => hsmall init (List.mem_filterMap.mpr ⟨v, hv, hinit⟩)) c
          exact foldlM_eq_run group hvars c
      | binary isAssign lhs rhs =>
          rw [Stmt.turns, run_cons]
          have hturns : lhs.turns ++ rhs.turns =
              (Stmt.binary isAssign lhs rhs).children.flatMap Stmt.turns := by
            simp [Stmt.children]
          rw [hturns]
          exact hplain { c with currentLHS := some lhs }
      | newExpr n =>
          rw [Stmt.turns, Consumer.Visit, translateNewExpr]
          split <;> rfl
      | call callee args isMemberCall =>
          rw [Stmt.turns, Consumer.Visit]
          split
          · split
            · rfl
            · exact buildSystemCall_eq_run
                (fun arg harg => hbuilder arg (List.mem_cons_of_mem _ harg)) c
          · exact hplain c
      | explicitCast toPointer sub =>
          rw [Stmt.turns, Consumer.Visit]
          split
          · exact hbuilder sub List.mem_cons_self c
          · rfl
      | deleteExpr arg =>
          rw [Stmt.turns]
          rfl
      | _ =>
          simp only [Stmt.turns, flatMap_attach]
          exact hplain c

theorem handleTopLevelDecl_eq_run {fuel : Nat} {d : TopDecl} (hd : sizeOf d ≤ fuel)
    (c : Consumer) : HandleTopLevelDecl VisitStmt fuel c d = some (runTurns d.turns c) := by
  cases d with
  | var d init =>
      refine handleVariable_eq_run hV ?_ c
      intro s hs
      subst hs
      simp only [TopDecl.var.sizeOf_spec, Option.some.sizeOf_spec] at hd
      omega
  | record fields =>
      have hfields : ∀ d ∈ fields, ∀ c, HandleVariable VisitStmt fuel d none c =
          some (runTurns (varTurns d none) c) := fun d _ c =>
        handleVariable_eq_run hV (fun _ h => absurd h (by simp)) c
      exact foldlM_eq_run fields hfields c
  | function params body isMain isInstantiated =>
      have hparams : ∀ (ds : List ValueDecl) (c : Consumer),
          ds.foldl (fun c d => c.parameter d) c = runTurns (ds.map .parameter) c := by
        intro ds c
        rw [runTurns, List.foldl_map]
        rfl
      have hnoted : (if !isMain && !isInstantiated then
            (params.filter fun d => d.type.isPointerType).foldl (fun c d => c.parameter d) c
          else c) = runTurns (if !isMain && !isInstantiated then
            (params.filter fun d => d.type.isPointerType).map .parameter else []) c := by
        split
        · exact hparams _ c
        · rfl
      simp only [TopDecl.turns, run_append]
      rw [← hnoted]
      show VisitFunctionDecl VisitStmt fuel params body isMain isInstantiated c = _
      unfold VisitFunctionDecl
      simp only
      split
      · rfl
      · cases body with
        | none => rfl
        | some body =>
            refine consumer_visit_eq_run hV fuel body ?_ _
            simp only [TopDecl.function.sizeOf_spec, Option.some.sizeOf_spec] at hd
            omega

/-- **The visits of a translation unit end, after the turns that can be read off its
syntax.** -/
theorem translateUnit_eq (unit : TranslationUnit) {fuel : Nat} (hfuel : sizeOf unit ≤ fuel) :
    translateUnit VisitStmt fuel unit = some (runTurns (unitTurns unit) .initial) := by
  have hdecls : ∀ d ∈ unit, ∀ c,
      HandleTopLevelDecl VisitStmt fuel c d = some (runTurns d.turns c) := by
    intro d hd c
    have := List.sizeOf_lt_of_mem hd
    exact handleTopLevelDecl_eq_run hV (by omega) c
  exact foldlM_eq_run unit hdecls .initial

end

end Ironclad.Translator
