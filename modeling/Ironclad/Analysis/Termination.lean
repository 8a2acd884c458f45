import Ironclad.Analysis.Visitor

/-!
# The analysis ends

Every handler goes on to nodes below its own, so a visit needs no more levels than its
node is large. `Ends n f` says that the depth `n` is enough for `f`, and that more
depth gives the same result.
-/

namespace Ironclad.Analysis

def Ends (n : Nat) (f : Nat → Option VisitorState) : Prop :=
  ∃ σ', ∀ fuel, n ≤ fuel → f fuel = some σ'

theorem Ends.done {n : Nat} (σ : VisitorState) : Ends n fun _ => some σ := ⟨σ, fun _ _ => rfl⟩

theorem Ends.bind {n : Nat} {f : Nat → Option VisitorState}
    {g : Nat → VisitorState → Option VisitorState} (hf : Ends n f)
    (hg : ∀ σ, Ends n fun fuel => g fuel σ) : Ends n fun fuel => (f fuel).bind (g fuel) := by
  obtain ⟨σ₁, hσ₁⟩ := hf
  obtain ⟨σ', hσ'⟩ := hg σ₁
  refine ⟨σ', fun fuel hfuel => ?_⟩
  show (f fuel).bind (g fuel) = some σ'
  rw [hσ₁ fuel hfuel, Option.bind_some]
  exact hσ' fuel hfuel

theorem Ends.mono {n n' : Nat} {f : Nat → Option VisitorState} (h : Ends n f) (hn : n ≤ n') :
    Ends n' f := by
  obtain ⟨σ', hσ'⟩ := h
  exact ⟨σ', fun fuel hfuel => hσ' fuel (hn.trans hfuel)⟩

theorem Ends.of_succ {n : Nat} {f : Nat → Option VisitorState}
    (h : Ends n fun fuel => f (fuel + 1)) : Ends (n + 1) f := by
  obtain ⟨σ', hσ'⟩ := h
  refine ⟨σ', fun fuel hfuel => ?_⟩
  obtain ⟨k, rfl⟩ := Nat.exists_eq_add_of_le' (Nat.le_of_add_left_le hfuel)
  exact hσ' k (Nat.le_of_succ_le_succ hfuel)

theorem Ends.foldlM {α : Type} {n : Nat} {f : Nat → VisitorState → α → Option VisitorState}
    (xs : List α) (hf : ∀ x ∈ xs, ∀ σ, Ends n fun fuel => f fuel σ x) (σ : VisitorState) :
    Ends n fun fuel => xs.foldlM (f fuel) σ := by
  induction xs generalizing σ with
  | nil => exact Ends.done σ
  | cons x xs ih =>
      exact (hf x List.mem_cons_self σ).bind
        (ih fun y hy => hf y (List.mem_cons_of_mem x hy))

section

-- the traversal that a handler calls with `fuel` levels left, and a bound on the size
-- of the nodes for which `n` levels are enough
variable {visitStmt : Nat → StmtVisitor} {n : Nat}
  (hvs : ∀ s σ, (∀ c ∈ s.children, sizeOf c < n) → Ends n fun fuel => visitStmt fuel s σ)

theorem lt_of_child {s c : Stmt} (hs : sizeOf s ≤ n) (hc : c ∈ s.children) : sizeOf c < n :=
  (Stmt.sizeOf_child_lt hc).trans_le hs

include hvs

theorem visitAssignment_ends {lhs rhs : Stmt} (hrhs : sizeOf rhs ≤ n) (σ : VisitorState) :
    Ends n fun fuel => visitAssignment (visitStmt fuel) lhs rhs σ := by
  unfold visitAssignment
  split
  · exact Ends.done σ
  · simp only
    split
    · split
      · exact Ends.done _
      · split
        · exact hvs rhs _ fun c hc => lt_of_child hrhs hc
        · exact Ends.done _
    · exact Ends.done _

theorem visitBinaryOperator_ends {op : BinaryOp} {lhs rhs : Stmt} (hlhs : sizeOf lhs ≤ n)
    (hrhs : sizeOf rhs ≤ n) (σ : VisitorState) :
    Ends n fun fuel => VisitBinaryOperator (visitStmt fuel) op lhs rhs σ := by
  have hignore : ∀ s : Stmt, sizeOf s ≤ n → ∀ σ,
      Ends n fun fuel => visitStmt fuel s.IgnoreParenCasts σ := fun s hs σ =>
    hvs _ σ fun c hc => lt_of_child ((Stmt.sizeOf_ignoreParenCasts_le s).trans hs) hc
  unfold VisitBinaryOperator
  refine Ends.bind ?_ fun σ => (hignore lhs hlhs σ).bind fun σ => hignore rhs hrhs σ
  split
  · exact visitAssignment_ends hvs hrhs σ
  · exact Ends.done σ

theorem visitArguments_ends (pairs : List (Stmt × ValueDecl))
    (hpairs : ∀ p ∈ pairs, sizeOf p.1 ≤ n) (σ : VisitorState) :
    Ends n fun fuel => visitArguments (visitStmt fuel) pairs σ := by
  induction pairs generalizing σ with
  | nil => exact Ends.done σ
  | cons p pairs ih =>
      have hrest := ih fun q hq => hpairs q (List.mem_cons_of_mem p hq)
      refine Ends.bind ?_ hrest
      split
      · exact hvs p.1 _ fun c hc => lt_of_child (hpairs p List.mem_cons_self) hc
      · exact Ends.done σ

theorem visitCallExpr_ends {callee : Stmt} {args : List Stmt}
    (hargs : ∀ a ∈ args, sizeOf a ≤ n) (σ : VisitorState) :
    Ends n fun fuel => VisitCallExpr (visitStmt fuel) callee args σ := by
  unfold VisitCallExpr
  split
  · exact visitArguments_ends hvs _ (fun p hp => hargs p.1 (List.of_mem_zip hp).1) σ
  · exact Ends.done σ

end

section

variable {VisitStmt : StmtVisitor → StmtVisitor} (hV : VisitsChildren VisitStmt)

include hV

/-- As many levels as the node is large, and one more, are enough. -/
theorem visit_ends (n : Nat) (s : Stmt) (hs : sizeOf s ≤ n) (σ : VisitorState) :
    Ends (n + 1) fun fuel => Visit VisitStmt fuel s σ := by
  induction n generalizing s σ with
  | zero => cases s <;> simp at hs
  | succ n ih =>
      have hvs : ∀ s σ, (∀ c ∈ s.children, sizeOf c < n + 1) →
          Ends (n + 1) fun fuel => VisitStmt (Visit VisitStmt fuel) s σ := by
        intro s σ hs
        simp only [hV _ s σ]
        exact Ends.foldlM s.children (fun c hc => ih c (Nat.le_of_lt_succ (hs c hc))) σ
      have hself : Ends (n + 1) fun fuel => VisitStmt (Visit VisitStmt fuel) s σ :=
        hvs s σ fun c hc => lt_of_child hs hc
      have hchild : ∀ c ∈ s.children, sizeOf c ≤ n + 1 := fun c hc => (lt_of_child hs hc).le
      refine Ends.of_succ ?_
      cases s with
      | declStmt group => exact Ends.done _
      | unary op sub =>
          exact hvs sub _ fun c hc => lt_of_child (hchild sub (by simp [Stmt.children])) hc
      | binary op lhs rhs =>
          exact visitBinaryOperator_ends hvs (hchild lhs (by simp [Stmt.children]))
            (hchild rhs (by simp [Stmt.children])) σ
      | subscript base idx =>
          have hbase := hchild base (by simp [Stmt.children])
          have hidx := hchild idx (by simp [Stmt.children])
          exact (hvs base _ fun c hc => lt_of_child hbase hc).bind fun σ =>
            hvs idx σ fun c hc => lt_of_child hidx hc
      | call callee args ty =>
          exact visitCallExpr_ends hvs (fun a ha => hchild a (List.mem_cons_of_mem _ ha)) σ
      | returnStmt value => exact Ends.done _
      | newExpr isArray allocated args => exact Ends.done _
      | explicitCast ty sub =>
          exact hvs sub σ fun c hc => lt_of_child (hchild sub (by simp [Stmt.children])) hc
      | _ => exact hself

theorem analyze_ends (d : TopDecl) (σ : VisitorState) :
    Ends (sizeOf d) fun fuel => Analyze VisitStmt fuel σ d := by
  cases d with
  | var d init => exact Ends.done _
  | record fields => exact Ends.done _
  | function f body inSystemHeader =>
      cases body with
      | none => exact Ends.done _
      | some body =>
          cases inSystemHeader with
          | true => exact Ends.done _
          | false =>
              show Ends _ fun fuel => VisitStmt (Visit VisitStmt fuel) body _
              simp only [hV _ body]
              refine Ends.foldlM body.children (fun c hc σ => ?_) _
              refine (visit_ends hV (sizeOf c) c le_rfl σ).mono ?_
              have := Stmt.sizeOf_child_lt hc
              simp only [TopDecl.function.sizeOf_spec, Option.some.sizeOf_spec]
              omega

/-- **The visits of a translation unit end.** -/
theorem analyzeAll_ends (unit : TranslationUnit) :
    Ends (sizeOf unit) fun fuel => analyzeAll VisitStmt fuel unit :=
  Ends.foldlM unit (fun d hd σ =>
    (analyze_ends hV d σ).mono (List.sizeOf_lt_of_mem hd).le) .empty

end

end Ironclad.Analysis
