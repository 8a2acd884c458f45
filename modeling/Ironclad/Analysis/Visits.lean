import Ironclad.Analysis.Reading

/-!
# Every visit records what is recognised below its node

One lemma for each handler: it records what `Recognises` takes from its own node, and
goes on to the nodes that `Next` names. By induction on the depth a visit records
exactly the events of the nodes it reaches.
-/

namespace Ironclad.Analysis

open Ironclad.Logic

section

variable (R : Key → Prop) (cur : Option FunctionDecl)

/-- The events of the node itself. -/
def EventsAt (s : Stmt) : Set Event := {e | Recognises R cur s e}

/-- The events of the nodes that are visited from `s`. -/
def EventsFrom (s : Stmt) : Set Event := {e | ∃ t, Visited R s t ∧ Recognises R cur t e}

/-- The events of the nodes that are visited from the nodes of a list. -/
def EventsOf (ss : List Stmt) : Set Event := {e | ∃ s ∈ ss, e ∈ EventsFrom R cur s}

end

section

variable {R : Key → Prop} {cur : Option FunctionDecl} {e : Event}

/-- The node itself, and then the nodes that its handler visits. -/
theorem mem_eventsFrom_iff {s : Stmt} : e ∈ EventsFrom R cur s ↔
    Recognises R cur s e ∨ ∃ t, Next R s t ∧ e ∈ EventsFrom R cur t := by
  constructor
  · rintro ⟨t, hvisited, hrec⟩
    rcases Relation.ReflTransGen.cases_head hvisited with rfl | ⟨u, hnext, hrest⟩
    · exact .inl hrec
    · exact .inr ⟨u, hnext, t, hrest, hrec⟩
  · rintro (hrec | ⟨u, hnext, t, hrest, hrec⟩)
    · exact ⟨s, .refl, hrec⟩
    · exact ⟨t, .head hnext hrest, hrec⟩

theorem eventsOf_append (ss ts : List Stmt) :
    EventsOf R cur (ss ++ ts) = EventsOf R cur ss ∪ EventsOf R cur ts := by
  ext e
  simp only [EventsOf, List.mem_append, Set.mem_ofPred_eq, Set.mem_union, or_and_right, exists_or]

theorem eventsOf_cons (s : Stmt) (ss : List Stmt) :
    EventsOf R cur (s :: ss) = EventsFrom R cur s ∪ EventsOf R cur ss := by
  ext e
  simp [EventsOf]

@[simp] theorem eventsOf_nil : EventsOf R cur [] = ∅ := by
  ext e
  simp [EventsOf]

/-- A handler that visits the nodes of a list after what it records itself. -/
theorem eventsFrom_of_next {s : Stmt} {ts : List Stmt} (h : ∀ t, Next R s t ↔ t ∈ ts) :
    EventsFrom R cur s = EventsAt R cur s ∪ EventsOf R cur ts := by
  ext e
  rw [mem_eventsFrom_iff]
  simp only [h, EventsAt, EventsOf, Set.mem_union, Set.mem_ofPred_eq]

end

/-! ## What each node is recognised as -/

section

variable {R : Key → Prop} {cur : Option FunctionDecl} {e : Event}

theorem recognises_unary_iff {op : UnaryOp} {sub : Stmt} :
    e ∈ EventsAt R cur (.unary op sub) ↔ op.isArithmeticOp = true ∧
      sub.type.isPointerType = true ∧
      ∃ d, sub.extractDecl = some d ∧ e = .use (convertToUniqueString d 0) := by
  constructor
  · intro h
    cases h with
    | unary hop hty hd => exact ⟨hop, hty, _, hd, rfl⟩
  · rintro ⟨hop, hty, d, hd, rfl⟩
    exact .unary hop hty hd

theorem next_unary_iff {op : UnaryOp} {sub t : Stmt} :
    Next R (.unary op sub) t ↔ t ∈ sub.children := by
  constructor
  · intro h
    cases h with
    | unary h => exact h
    | plain h => contradiction
  · exact .unary

theorem recognises_subscript_iff {base idx : Stmt} :
    e ∈ EventsAt R cur (.subscript base idx) ↔ base.type.isPointerType = true ∧
      match base.extractDecl with
      | some d => e = .use (convertToUniqueString d 0)
      | none => e = .fail := by
  constructor
  · intro h
    cases h with
    | subscript hty hd => simp [hty, hd]
    | subscriptFail hty hd => simp [hty, hd]
  · rintro ⟨hty, h⟩
    split at h
    · rename_i d hd
      exact h ▸ .subscript hty hd
    · rename_i hd
      exact h ▸ .subscriptFail hty hd

theorem next_subscript_iff {base idx t : Stmt} :
    Next R (.subscript base idx) t ↔ t ∈ base.children ++ idx.children := by
  rw [List.mem_append]
  constructor
  · intro h
    cases h with
    | base h => exact .inl h
    | idx h => exact .inr h
    | plain h => contradiction
  · rintro (h | h)
    · exact .base h
    · exact .idx h

end

/-! ## The handlers that look at their own node -/

section

variable {R : Key → Prop}

/-- What a traversal `visitStmt` must do for the handlers: it records the events of
the visits of the children. -/
def VisitsBelow (R : Key → Prop) (visitStmt : StmtVisitor) : Prop :=
  ∀ s σ σ', visitStmt s σ = some σ' → Reading R σ σ' (EventsOf R σ.currentFunction s.children)

variable {visitStmt : StmtVisitor} {σ σ' : VisitorState}

/-- A change of the record under `key`, or the failure when there is none. -/
theorem reading_or_fail {key : Key} {σ₁ : VisitorState} {E : Set Event}
    (hk : key ∈ σ.pointers.keys) (h : Reading R σ σ₁ E) (hE : ¬R key → Reads R σ σ E) :
    Reading R σ (if σ.hasRecord key then σ₁ else σ.fail) {e | e ∈ E ∨ (¬R key ∧ e = .fail)} := by
  intro hR
  by_cases hrecord : σ.hasRecord key = true
  · rw [if_pos hrecord] at hR ⊢
    have hr : R key := ((hR.of_grows (h hR).grows).hasRecord_iff hk).mp hrecord
    refine (h hR).congr fun e => ?_
    simp [hr]
  · rw [if_neg hrecord] at hR ⊢
    have hr : ¬R key := fun hr => hrecord ((Settled.hasRecord_iff hR hk).mpr hr)
    refine ((hE hr).trans (reads_fail σ)).congr fun e => ?_
    simp [hr, or_comm]

theorem reading_pushFrom_or_fail {key : Key} (hk : key ∈ σ.pointers.keys) (other : Key) :
    Reading R σ (if σ.hasRecord key then σ.pushFrom key other else σ.fail)
      {e | e = .flow key other ∨ (¬R key ∧ e = .fail)} :=
  reading_or_fail hk (reading_pushFrom σ hk other) fun hr =>
    .of_eq fun _ he => .inr ⟨key, other, he, hr⟩

theorem reading_clear_or_fail {key : Key} (hk : key ∈ σ.pointers.keys) :
    Reading R σ (if σ.hasRecord key then σ.clear key else σ.fail)
      {e | e = .use key ∨ (¬R key ∧ e = .fail)} :=
  reading_or_fail hk (reading_clear σ hk) fun hr => .of_eq fun _ he => .inl ⟨key, he, hr⟩

/-- What `HandleInit` records for a variable with the key `key`. -/
def InitEvents (R : Key → Prop) (key : Key) (init : Stmt) : Set Event :=
  {e | (init.isArrayNew = true ∧ e = .use key) ∨
    (∃ s, initSource init = some s ∧ e = .flow key (convertToUniqueString s 0)) ∨
    ((init.isArrayNew = true ∨ initSource init ≠ none) ∧ ¬R key ∧ e = .fail)}

/-- `HandleInit` for a key that is there. -/
theorem reading_handleInit {key : Key} (hk : key ∈ σ.pointers.keys) (init : Stmt) :
    Reading R σ (HandleInit key init σ) (InitEvents R key init) := by
  unfold HandleInit
  split
  · rename_i d heq
    refine (reading_pushFrom_or_fail hk _).congr fun e => ?_
    simp [InitEvents, Stmt.isArrayNew, initSource, heq]
  · rename_i isArray _ _ heq
    split
    · rename_i harray
      refine (reading_clear_or_fail hk).congr fun e => ?_
      simp [InitEvents, Stmt.isArrayNew, initSource, heq, harray]
    · rename_i harray
      refine (Reading.refl σ).congr fun e => ?_
      simp [InitEvents, Stmt.isArrayNew, initSource, heq, harray]
  · rename_i callee _ _ heq
    split
    · rename_i f hf
      refine (reading_pushFrom_or_fail hk _).congr fun e => ?_
      simp [InitEvents, Stmt.isArrayNew, initSource, heq, hf]
    · rename_i hf
      refine (Reading.refl σ).congr fun e => ?_
      simp [InitEvents, Stmt.isArrayNew, initSource, heq, hf]
  · rename_i d heq
    refine (reading_pushFrom_or_fail hk _).congr fun e => ?_
    simp [InitEvents, Stmt.isArrayNew, initSource, heq]
  · rename_i h₁ h₂ h₃ h₄
    refine (Reading.refl σ).congr fun e => ?_
    have hnew : init.isArrayNew = false := by
      unfold Stmt.isArrayNew
      split
      · rename_i heq
        exact absurd heq (h₂ _ _ _)
      · rfl
    have hsource : initSource init = none := by
      unfold initSource
      split
      · rename_i heq
        exact absurd heq (h₁ _)
      · rename_i heq
        exact absurd heq (h₃ _ _ _)
      · rename_i heq
        exact absurd heq (h₄ _ _)
      · rfl
    simp [InitEvents, hnew, hsource]

/-- The events of one variable of a declaration. -/
def VarEvents (R : Key → Prop) (v : ValueDecl × Option Stmt) : Set Event :=
  {e | v.1.isPointerOrArray = true ∧ ∃ init, v.2 = some init ∧
    e ∈ InitEvents R (convertToUniqueString (.value v.1) 0) init}

theorem reading_visitVarDecl (d : ValueDecl) (init : Option Stmt) (σ : VisitorState) :
    Reading R σ (VisitVarDecl d init σ) (VarEvents R (d, init)) := by
  unfold VisitVarDecl
  by_cases hd : d.isPointerOrArray = true
  · have hd' := hd
    unfold ValueDecl.isPointerOrArray at hd'
    rw [if_pos hd']
    have hinsert : Reading R σ (σ.insertInMap (.value d)) ∅ :=
      fun _ => reads_insertInMap σ (.value d)
    cases init with
    | none => exact hinsert.congr (by simp [VarEvents])
    | some init =>
        have hk : convertToUniqueString (.value d) 0 ∈ (σ.insertInMap (.value d)).pointers.keys :=
          mem_insertInMap_keys (.value d) σ.pointers
        exact (hinsert.trans (reading_handleInit hk init)).congr (by simp [VarEvents, hd])
  · have hd' := hd
    unfold ValueDecl.isPointerOrArray at hd'
    rw [if_neg hd']
    exact (Reading.refl σ).congr (by simp [VarEvents, hd])

theorem reading_visitDeclStmt (group : List (ValueDecl × Option Stmt)) (σ : VisitorState) :
    Reading R σ (VisitDeclStmt group σ) {e | ∃ v ∈ group, e ∈ VarEvents R v} := by
  unfold VisitDeclStmt
  induction group generalizing σ with
  | nil => exact (Reading.refl σ).congr (by simp)
  | cons v group ih =>
      rw [List.foldl_cons]
      exact ((reading_visitVarDecl v.1 v.2 σ).trans (ih _)).congr (by simp)

theorem recognises_declStmt_iff {cur : Option FunctionDecl} {e : Event}
    {group : List (ValueDecl × Option Stmt)} :
    e ∈ EventsAt R cur (.declStmt group) ↔ ∃ v ∈ group, e ∈ VarEvents R v := by
  constructor
  · intro h
    cases h with
    | initNew hmem hd hnew => exact ⟨_, hmem, hd, _, rfl, .inl ⟨hnew, rfl⟩⟩
    | initFrom hmem hd hs => exact ⟨_, hmem, hd, _, rfl, .inr (.inl ⟨_, hs, rfl⟩)⟩
    | initFail hmem hd hor hr => exact ⟨_, hmem, hd, _, rfl, .inr (.inr ⟨hor, hr, rfl⟩)⟩
  · rintro ⟨⟨d, init⟩, hmem, hd, init, rfl, ⟨hnew, rfl⟩ | ⟨s, hs, rfl⟩ | ⟨hor, hr, rfl⟩⟩
    · exact .initNew hmem hd hnew
    · exact .initFrom hmem hd hs
    · exact .initFail hmem hd hor hr

end

/-! ## The handlers that go on to other nodes -/

section

variable {R : Key → Prop} {visitStmt : StmtVisitor} {σ σ₁ σ' : VisitorState}

/-- Visiting the children of `s` after what was recorded so far. -/
theorem Reading.then_visit {E : Set Event} {s : Stmt} (h₁ : Reading R σ σ₁ E)
    (hvs : VisitsBelow R visitStmt) (h : visitStmt s σ₁ = some σ') :
    Reading R σ σ' (E ∪ EventsOf R σ.currentFunction s.children) := by
  intro hR
  have hlater := hvs s σ₁ σ' h hR
  have hfirst := h₁ (hR.of_grows hlater.grows)
  exact hfirst.trans (hfirst.cur ▸ hlater)

theorem reading_visitUnaryOperator {op : UnaryOp} {sub : Stmt} (hvs : VisitsBelow R visitStmt)
    (h : VisitUnaryOperator visitStmt op sub σ = some σ') :
    Reading R σ σ' (EventsFrom R σ.currentFunction (.unary op sub)) := by
  rw [eventsFrom_of_next fun t => next_unary_iff]
  refine Reading.then_visit ?_ hvs h
  by_cases hty : sub.type.isPointerType = true
  · rw [if_pos hty]
    cases hd : sub.extractDecl with
    | none => exact (Reading.refl σ).congr (by simp [recognises_unary_iff, hd])
    | some d =>
        by_cases hop : op.isArithmeticOp = true
        · simp only [hop, Bool.and_true, VisitorState.ite_clear]
          refine (reading_ask_clear σ _).congr ?_
          simp [recognises_unary_iff, hd, hop, hty]
        · rw [Bool.not_eq_true] at hop
          simp only [hop, Bool.and_false, Bool.false_eq_true, if_false]
          exact Reading.congr (fun _ => reads_ask σ _) (by simp [recognises_unary_iff, hop])
  · rw [if_neg hty]
    exact (Reading.refl σ).congr (by simp [recognises_unary_iff, hty])

theorem reading_visitArraySubscriptExpr {base idx : Stmt} (hvs : VisitsBelow R visitStmt)
    (h : VisitArraySubscriptExpr visitStmt base idx σ = some σ') :
    Reading R σ σ' (EventsFrom R σ.currentFunction (.subscript base idx)) := by
  obtain ⟨σ₁, hbase, hidx⟩ := Option.bind_eq_some_iff.mp h
  rw [eventsFrom_of_next fun t => next_subscript_iff, eventsOf_append, ← Set.union_assoc]
  refine (Reading.then_visit ?_ hvs hbase).then_visit hvs hidx
  by_cases hty : base.type.isPointerType = true
  · rw [if_pos hty]
    cases hd : base.extractDecl with
    | none =>
        refine Reading.congr (fun _ => reads_fail σ) ?_
        simp [recognises_subscript_iff, hd, hty]
    | some d =>
        simp only [VisitorState.ite_clear]
        refine (reading_ask_clear σ _).congr ?_
        simp [recognises_subscript_iff, hd, hty]
  · rw [if_neg hty]
    exact (Reading.refl σ).congr (by simp [recognises_subscript_iff, hty])

/-- A branch on a key that turned out to have a record. -/
theorem Reading.of_hasRecord {key : Key} {E E' : Set Event} (hk : key ∈ σ.pointers.keys)
    (hrecord : σ.hasRecord key = true) (h : Reading R σ σ' E)
    (hE : R key → ∀ e, e ∈ E ↔ e ∈ E') : Reading R σ σ' E' := by
  intro hR
  have hr : R key := ((hR.of_grows (h hR).grows).hasRecord_iff hk).mp hrecord
  exact (h hR).congr (hE hr)

/-- A branch that does nothing, on a key that turned out to have none. -/
theorem Reading.of_not_hasRecord {key : Key} {E : Set Event} (hk : key ∈ σ.pointers.keys)
    (hrecord : ¬σ.hasRecord key = true)
    (hE : ¬R key → ∀ e ∈ E, (∃ k, e = .use k ∧ ¬R k) ∨ ∃ k s, e = .flow k s ∧ ¬R k) :
    Reading R σ σ E := by
  intro hR
  have hr : ¬R key := fun hr => hrecord ((Settled.hasRecord_iff hR hk).mpr hr)
  exact .of_eq (hE hr)

/-! ### Assignments -/

theorem not_isArrayNew {s : Stmt} (h : s.isNewExpr = false) : s.isArrayNew = false := by
  unfold Stmt.isNewExpr at h
  unfold Stmt.isArrayNew
  split
  · rename_i heq
    simp [heq] at h
  · rfl

variable {op : BinaryOp} {lhs rhs : Stmt} {cur : Option FunctionDecl}

theorem Assigns.mem_eventsAt_iff {d : NamedDecl} {e : Event} (hd : Assigns op lhs d) :
    e ∈ EventsAt R cur (.binary op lhs rhs) ↔
      (rhs.isArrayNew = true ∧ e = .use (convertToUniqueString d lhs.getSubscriptLevel)) ∨
      (rhs.isNewExpr = false ∧ rhs.isCallExpr = false ∧ ∃ s, rhs.extractDecl = some s ∧
        e = .flow (convertToUniqueString d lhs.getSubscriptLevel) (convertToUniqueString s 0)) ∨
      (rhs.isNewExpr = false ∧ rhs.isCallExpr = true ∧ ∃ c, rhs.extractDecl = some c ∧
        ((R (convertToUniqueString c 0) ∧ e = .flow
            (convertToUniqueString d lhs.getSubscriptLevel) (convertToUniqueString c 0)) ∨
          (R (convertToUniqueString d lhs.getSubscriptLevel) ∧
            e = .flow (convertToUniqueString c 0) (convertToUniqueString d 0)))) := by
  have hunique : ∀ d', Assigns op lhs d' → d' = d := fun d' h' =>
    Option.some.inj (h'.extract.symm.trans hd.extract)
  constructor
  · intro h
    cases h with
    | assignNew h' hnew =>
        obtain rfl := hunique _ h'
        exact .inl ⟨hnew, rfl⟩
    | assign h' hnew hcall hs =>
        obtain rfl := hunique _ h'
        exact .inr (.inl ⟨hnew, hcall, _, hs, rfl⟩)
    | assignCall h' hnew hcall hc hr =>
        obtain rfl := hunique _ h'
        exact .inr (.inr ⟨hnew, hcall, _, hc, .inl ⟨hr, rfl⟩⟩)
    | assignCallBack h' hnew hcall hc hr =>
        obtain rfl := hunique _ h'
        exact .inr (.inr ⟨hnew, hcall, _, hc, .inr ⟨hr, rfl⟩⟩)
  · rintro (⟨hnew, rfl⟩ | ⟨hnew, hcall, s, hs, rfl⟩ | ⟨hnew, hcall, c, hc, ⟨hr, rfl⟩ | ⟨hr, rfl⟩⟩)
    · exact .assignNew hd hnew
    · exact .assign hd hnew hcall hs
    · exact .assignCall hd hnew hcall hc hr
    · exact .assignCallBack hd hnew hcall hc hr

/-- Without an assignment that is looked into, nothing is recorded. -/
theorem eventsAt_binary_eq_empty (h : ∀ d, ¬Assigns op lhs d) :
    EventsAt R cur (.binary op lhs rhs) = ∅ := by
  ext e
  simp only [Set.mem_empty_iff_false, iff_false]
  intro he
  cases he with
  | assignNew h' => exact h _ h'
  | assign h' => exact h _ h'
  | assignCall h' => exact h _ h'
  | assignCallBack h' => exact h _ h'

/-- The call on the right hand side is visited once more. -/
def GoesIntoCall (R : Key → Prop) (op : BinaryOp) (lhs rhs : Stmt) : Prop :=
  ∃ d, Assigns op lhs d ∧ R (convertToUniqueString d lhs.getSubscriptLevel) ∧
    rhs.isNewExpr = false ∧ rhs.isCallExpr = true

/-- The events of that visit. -/
def CallEvents (R : Key → Prop) (cur : Option FunctionDecl) (op : BinaryOp) (lhs rhs : Stmt) :
    Set Event :=
  {e | GoesIntoCall R op lhs rhs ∧ e ∈ EventsOf R cur rhs.children}

theorem eventsFrom_binary : EventsFrom R cur (.binary op lhs rhs) =
    EventsAt R cur (.binary op lhs rhs) ∪ CallEvents R cur op lhs rhs ∪
      EventsOf R cur lhs.IgnoreParenCasts.children ∪
      EventsOf R cur rhs.IgnoreParenCasts.children := by
  ext e
  rw [mem_eventsFrom_iff]
  constructor
  · rintro (h | ⟨t, hnext, he⟩)
    · exact .inl (.inl (.inl h))
    · cases hnext with
      | lhs ht => exact .inl (.inr ⟨t, ht, he⟩)
      | rhs ht => exact .inr ⟨t, ht, he⟩
      | assignedCall hd hr hnew hcall ht =>
          exact .inl (.inl (.inr ⟨⟨_, hd, hr, hnew, hcall⟩, t, ht, he⟩))
      | plain h => contradiction
  · rintro (((h | ⟨⟨d, hd, hr, hnew, hcall⟩, t, ht, he⟩) | ⟨t, ht, he⟩) | ⟨t, ht, he⟩)
    · exact .inl h
    · exact .inr ⟨t, .assignedCall hd hr hnew hcall ht, he⟩
    · exact .inr ⟨t, .lhs ht, he⟩
    · exact .inr ⟨t, .rhs ht, he⟩

/-- Looking a key up records nothing. -/
theorem Reading.after_ask (key : Key) {E : Set Event} (h : Reading R (σ.ask key) σ' E) :
    Reading R σ σ' E := by
  have hask : Reading R σ (σ.ask key) ∅ := fun _ => reads_ask σ key
  exact (hask.trans h).congr (by simp)

/-- The two edges of an assigned call, when the assigned key is there. -/
theorem reading_callEdges {key calleeKey : Key} (hk : key ∈ σ.pointers.keys) (other : Key) :
    Reading R σ
      (if (σ.ask calleeKey).hasRecord calleeKey then
        ((σ.ask calleeKey).pushFrom calleeKey other).pushFrom key calleeKey
      else σ.ask calleeKey)
      {e | (R calleeKey ∧ e = .flow key calleeKey) ∨ e = .flow calleeKey other} := by
  have hc := mem_ask_keys σ calleeKey
  have hk' : key ∈ ((σ.ask calleeKey).pushFrom calleeKey other).pointers.keys :=
    keys_subset_touch σ.pointers calleeKey hk
  refine Reading.after_ask calleeKey ?_
  split
  · rename_i hrecord
    have hpush := (reading_pushFrom (R := R) _ hc other).trans (reading_pushFrom _ hk' calleeKey)
    exact hpush.of_hasRecord hc hrecord fun hr e => by simp [hr]
  · rename_i hrecord
    refine Reading.of_not_hasRecord hc hrecord fun hr e he => ?_
    rcases he with ⟨hr', -⟩ | rfl
    · exact absurd hr' hr
    · exact .inr ⟨calleeKey, other, rfl, hr⟩

theorem Assigns.goesIntoCall_iff {d : NamedDecl} (hd : Assigns op lhs d) :
    GoesIntoCall R op lhs rhs ↔ R (convertToUniqueString d lhs.getSubscriptLevel) ∧
      rhs.isNewExpr = false ∧ rhs.isCallExpr = true := by
  constructor
  · rintro ⟨d', hd', h⟩
    obtain rfl : d = d' := Option.some.inj (hd.extract.symm.trans hd'.extract)
    exact h
  · exact fun h => ⟨d, hd, h⟩

theorem reading_visitAssignment (hvs : VisitsBelow R visitStmt) (hop : op.isAssignmentOp = true)
    (hty : lhs.type.isPointerType = true) (h : visitAssignment visitStmt lhs rhs σ = some σ') :
    Reading R σ σ' (EventsAt R σ.currentFunction (.binary op lhs rhs) ∪
      CallEvents R σ.currentFunction op lhs rhs) := by
  unfold visitAssignment at h
  split at h
  · rename_i hnone
    have hno : ∀ d, ¬Assigns op lhs d := fun d hd => by simp [hd.extract] at hnone
    have hnocall : ¬GoesIntoCall R op lhs rhs := fun ⟨d, hd, _⟩ => hno d hd
    cases h
    exact (Reading.refl σ).congr (by simp [eventsAt_binary_eq_empty hno, CallEvents, hnocall])
  · rename_i d hd
    have hassign : Assigns op lhs d := ⟨hop, hty, hd⟩
    have hcall_iff : GoesIntoCall R op lhs rhs ↔ _ := hassign.goesIntoCall_iff
    have hat_iff : ∀ e, e ∈ EventsAt R σ.currentFunction (.binary op lhs rhs) ↔ _ :=
      fun _ => hassign.mem_eventsAt_iff
    have hk := mem_ask_keys σ (convertToUniqueString d lhs.getSubscriptLevel)
    simp only at h
    generalize convertToUniqueString d lhs.getSubscriptLevel = key at h hk hcall_iff hat_iff
    refine Reading.after_ask key ?_
    split at h
    · rename_i hrecord
      split at h
      · -- a `new` expression
        rename_i hnew
        have hlast : Reading R (σ.ask key) σ' {e | rhs.isArrayNew = true ∧ e = .use key} := by
          cases h
          split
          · rename_i harray
            exact (reading_clear _ hk).congr (by simp [harray])
          · rename_i harray
            exact (Reading.refl _).congr (by simp [harray])
        refine hlast.congr fun e => ?_
        simp [hat_iff, CallEvents, hcall_iff, hnew]
      · rename_i hnew
        rw [Bool.not_eq_true] at hnew
        have harray := not_isArrayNew hnew
        split at h
        · -- a call, which is visited
          rename_i hcall
          refine Reading.of_hasRecord hk hrecord (Reading.then_visit
            (E := {e | ∃ c, rhs.extractDecl = some c ∧
              ((R (convertToUniqueString c 0) ∧ e = .flow key (convertToUniqueString c 0)) ∨
                e = .flow (convertToUniqueString c 0) (convertToUniqueString d 0))})
            ?_ hvs h) fun hr e => ?_
          · cases hc : rhs.extractDecl with
            | none => exact (Reading.refl (σ.ask key)).congr (by simp)
            | some c => exact (reading_callEdges hk _).congr (by simp)
          · have hcur : (σ.ask key).currentFunction = σ.currentFunction := rfl
            simp [hat_iff, CallEvents, hcall_iff, hcall, hnew, harray, hr, hcur]
        · rename_i hcall
          rw [Bool.not_eq_true] at hcall
          cases h
          cases hs : rhs.extractDecl with
          | none =>
              refine (Reading.refl _).congr fun e => ?_
              simp [hat_iff, CallEvents, hcall_iff, hcall, harray, hs]
          | some s =>
              refine (reading_pushFrom _ hk _).congr fun e => ?_
              simp [hat_iff, CallEvents, hcall_iff, hcall, hnew, harray, hs]
    · rename_i hrecord
      cases h
      refine Reading.of_not_hasRecord hk hrecord fun hr e he => ?_
      simp only [Set.mem_union, hat_iff, CallEvents, hcall_iff, Set.mem_ofPred_eq] at he
      rcases he with
        (⟨-, rfl⟩ | ⟨-, -, s, -, rfl⟩ | ⟨-, -, c, -, ⟨-, rfl⟩ | ⟨hr', -⟩⟩) | ⟨⟨hr', -⟩, -⟩
      · exact .inl ⟨key, rfl, hr⟩
      · exact .inr ⟨key, _, rfl, hr⟩
      · exact .inr ⟨key, _, rfl, hr⟩
      · exact absurd hr' hr
      · exact absurd hr' hr

theorem reading_visitBinaryOperator (hvs : VisitsBelow R visitStmt)
    (h : VisitBinaryOperator visitStmt op lhs rhs σ = some σ') :
    Reading R σ σ' (EventsFrom R σ.currentFunction (.binary op lhs rhs)) := by
  obtain ⟨σ₁, hassign, hrest⟩ := Option.bind_eq_some_iff.mp h
  obtain ⟨σ₂, hlhs, hrhs⟩ := Option.bind_eq_some_iff.mp hrest
  rw [eventsFrom_binary]
  refine (Reading.then_visit ?_ hvs hlhs).then_visit hvs hrhs
  split at hassign
  · rename_i hcond
    obtain ⟨hop, hty⟩ := Bool.and_eq_true_iff.mp hcond
    exact reading_visitAssignment hvs hop hty hassign
  · rename_i hcond
    have hno : ∀ d, ¬Assigns op lhs d := fun d hd =>
      hcond (Bool.and_eq_true_iff.mpr ⟨hd.isAssignment, hd.isPointer⟩)
    have hnocall : ¬GoesIntoCall R op lhs rhs := fun ⟨d, hd, _⟩ => hno d hd
    cases hassign
    exact (Reading.refl σ).congr (by simp [eventsAt_binary_eq_empty hno, CallEvents, hnocall])

/-! ### Calls -/

/-- The events of one pointer argument. -/
def ArgumentEvents (R : Key → Prop) (arg : Stmt) (param : ValueDecl) : Set Event :=
  {e | ∃ a, arg.extractDecl = some a ∧
    (e = .flow (convertToUniqueString (.value param) 0) (convertToUniqueString a 0) ∨
      (¬R (convertToUniqueString (.value param) 0) ∧
        e = .flow (convertToUniqueString a 0) (convertToUniqueString a 0)))}

/-- A declaration whose key is there is not inserted again. -/
theorem insertInMap_of_mem {d : NamedDecl} (h : convertToUniqueString d 0 ∈ σ.pointers.keys) :
    σ.insertInMap d = σ := by
  unfold VisitorState.insertInMap InsertInMap
  simp only [if_pos h]

theorem reading_recordArgument (arg : Stmt) (param : ValueDecl) (σ : VisitorState) :
    Reading R σ (recordArgument arg param σ) (ArgumentEvents R arg param) := by
  unfold recordArgument
  cases ha : arg.extractDecl with
  | none => exact (Reading.refl σ).congr (by simp [ArgumentEvents, ha])
  | some a =>
      simp only [VisitorState.ite_pushTo, VisitorState.ite_pushFrom]
      generalize hkey : convertToUniqueString a 0 = argKey
      generalize hparamKey : convertToUniqueString (.value param) 0 = paramKey
      refine Reading.after_ask argKey (Reading.after_ask paramKey ?_)
      have harg : argKey ∈ (((σ.ask argKey).ask paramKey).pushTo argKey paramKey).pointers.keys :=
        keys_subset_touch _ _ (mem_ask_keys σ argKey)
      have hparam :
          paramKey ∈ (((σ.ask argKey).ask paramKey).pushTo argKey paramKey).pointers.keys :=
        mem_ask_keys (σ.ask argKey) paramKey
      have hto : Reading R ((σ.ask argKey).ask paramKey) _ ∅ :=
        fun _ => reads_pushTo _ argKey paramKey
      suffices hrest : Reading R _ _ (ArgumentEvents R arg param) from
        (hto.trans hrest).congr (by simp)
      split
      · rename_i hrecord
        refine (reading_pushFrom _ hparam argKey).of_hasRecord hparam hrecord fun hr e => ?_
        simp [ArgumentEvents, ha, hkey, hparamKey, hr]
      · rename_i hrecord
        rw [insertInMap_of_mem (hkey ▸ harg)]
        intro hR
        have hpush := reading_pushFrom _ harg argKey hR
        have hr : ¬R paramKey := fun hr =>
          hrecord (((hR.of_grows hpush.grows).hasRecord_iff hparam).mpr hr)
        -- the flow into the parameter is lost, the one into the argument's own record is not
        have hlost : Reads R (((σ.ask argKey).ask paramKey).pushTo argKey paramKey) _
            {.flow paramKey argKey} :=
          .of_eq fun e he => .inr ⟨paramKey, argKey, he, hr⟩
        refine (hlost.trans hpush).congr fun e => ?_
        simp [ArgumentEvents, ha, hkey, hparamKey, hr, or_comm]

/-- The events of the arguments, and of the visits of their children. -/
def ArgumentsEvents (R : Key → Prop) (cur : Option FunctionDecl)
    (pairs : List (Stmt × ValueDecl)) : Set Event :=
  {e | ∃ arg param, (arg, param) ∈ pairs ∧
    (arg.type.isPointerType && !arg.type.isFunctionPointerType) = true ∧
    (e ∈ ArgumentEvents R arg param ∨ e ∈ EventsOf R cur arg.children)}

theorem reading_visitArguments (hvs : VisitsBelow R visitStmt) (pairs : List (Stmt × ValueDecl))
    (σ : VisitorState) (h : visitArguments visitStmt pairs σ = some σ') :
    Reading R σ σ' (ArgumentsEvents R σ.currentFunction pairs) := by
  induction pairs generalizing σ with
  | nil =>
      cases h
      exact (Reading.refl _).congr (by simp [ArgumentsEvents])
  | cons pair pairs ih =>
      obtain ⟨arg, param⟩ := pair
      obtain ⟨σ₁, hfirst, hrest⟩ := Option.bind_eq_some_iff.mp h
      intro hR
      have hlater := ih σ₁ hrest hR
      have hone : Reading R σ σ₁ (ArgumentsEvents R σ.currentFunction [(arg, param)]) := by
        split at hfirst
        · rename_i hptr
          refine (Reading.then_visit (reading_recordArgument arg param σ) hvs hfirst).congr
            fun e => ⟨fun he => ⟨arg, param, List.mem_singleton_self _, hptr, he⟩, ?_⟩
          rintro ⟨a, p, hmem, -, he⟩
          cases List.mem_singleton.mp hmem
          exact he
        · rename_i hptr
          cases hfirst
          refine (Reading.refl _).congr fun e => ⟨fun he => absurd he (Set.notMem_empty e), ?_⟩
          rintro ⟨a, p, hmem, hp, -⟩
          cases List.mem_singleton.mp hmem
          exact absurd hp hptr
      have hearlier := hone (hR.of_grows hlater.grows)
      rw [hearlier.cur] at hlater
      refine (hearlier.trans hlater).congr fun e => ?_
      simp only [ArgumentsEvents, Set.mem_union, Set.mem_ofPred_eq, List.mem_cons,
        List.not_mem_nil, or_false, or_and_right, exists_or]

theorem reading_visitCallExpr {callee : Stmt} {args : List Stmt} {ty : QualType}
    (hvs : VisitsBelow R visitStmt) (h : VisitCallExpr visitStmt callee args σ = some σ') :
    Reading R σ σ' (EventsFrom R σ.currentFunction (.call callee args ty)) := by
  unfold VisitCallExpr at h
  split at h
  · rename_i f hf
    have hpasses : ∀ arg param, Passes callee args arg param ↔ (arg, param) ∈ args.zip f.params ∧
        (arg.type.isPointerType && !arg.type.isFunctionPointerType) = true := by
      refine fun arg param => ⟨fun ⟨⟨f', hf', hmem⟩, hptr⟩ => ?_,
        fun ⟨hmem, hptr⟩ => ⟨⟨f, hf, hmem⟩, hptr⟩⟩
      obtain rfl : f = f' := Option.some.inj (hf.symm.trans hf')
      exact ⟨hmem, hptr⟩
    refine (reading_visitArguments hvs _ σ h).congr fun e => ?_
    rw [mem_eventsFrom_iff]
    constructor
    · rintro ⟨arg, param, hmem, hptr, ⟨a, ha, rfl | ⟨hr, rfl⟩⟩ | ⟨t, ht, he⟩⟩
      · exact .inl (.argument ((hpasses arg param).mpr ⟨hmem, hptr⟩) ha)
      · exact .inl (.argumentSelf ((hpasses arg param).mpr ⟨hmem, hptr⟩) ha hr)
      · exact .inr ⟨t, .argument ((hpasses arg param).mpr ⟨hmem, hptr⟩) ht, he⟩
    · rintro (hrec | ⟨t, hnext, he⟩)
      · cases hrec with
        | argument hp ha =>
            obtain ⟨hmem, hptr⟩ := (hpasses _ _).mp hp
            exact ⟨_, _, hmem, hptr, .inl ⟨_, ha, .inl rfl⟩⟩
        | argumentSelf hp ha hr =>
            obtain ⟨hmem, hptr⟩ := (hpasses _ _).mp hp
            exact ⟨_, _, hmem, hptr, .inl ⟨_, ha, .inr ⟨hr, rfl⟩⟩⟩
      · cases hnext with
        | argument hp ht =>
            obtain ⟨hmem, hptr⟩ := (hpasses _ _).mp hp
            exact ⟨_, _, hmem, hptr, .inr ⟨t, ht, he⟩⟩
        | plain hplain => contradiction
  · rename_i hf
    have hno : ∀ arg param, ¬Passes callee args arg param :=
      fun _ _ ⟨⟨f, hf', _⟩, _⟩ => by simp [hf] at hf'
    cases h
    refine (Reading.refl _).congr fun e => ⟨fun he => absurd he (Set.notMem_empty e), fun he => ?_⟩
    rcases mem_eventsFrom_iff.mp he with hrec | ⟨t, hnext, -⟩
    · cases hrec with
      | argument hp => exact absurd hp (hno _ _)
      | argumentSelf hp => exact absurd hp (hno _ _)
    · cases hnext with
      | argument hp => exact absurd hp (hno _ _)
      | plain hplain => contradiction

/-! ### The remaining nodes -/

@[simp] theorem ask_currentFunction (σ : VisitorState) (key : Key) :
    (σ.ask key).currentFunction = σ.currentFunction := rfl

theorem recognises_returnStmt_iff {value : Option Stmt} {e : Event} :
    e ∈ EventsAt R cur (.returnStmt value) ↔ ∃ expr f, value = some expr ∧ cur = some f ∧
      ((expr.isArrayNew = true ∧ e = .use (convertToUniqueString (.function f) 0)) ∨
        (expr.isNewExpr = false ∧ ∃ d, expr.extractDecl = some d ∧
          e = .flow (convertToUniqueString d 0) (convertToUniqueString (.function f) 0))) := by
  constructor
  · intro h
    cases h with
    | returnNew hf hnew => exact ⟨_, _, rfl, hf, .inl ⟨hnew, rfl⟩⟩
    | returnFrom hf hnew hd => exact ⟨_, _, rfl, hf, .inr ⟨hnew, _, hd, rfl⟩⟩
  · rintro ⟨expr, f, rfl, hf, ⟨hnew, rfl⟩ | ⟨hnew, d, hd, rfl⟩⟩
    · exact .returnNew hf hnew
    · exact .returnFrom hf hnew hd

theorem reading_visitReturnStmt (value : Option Stmt) (σ : VisitorState) :
    Reading R σ (VisitReturnStmt value σ) (EventsAt R σ.currentFunction (.returnStmt value)) := by
  unfold VisitReturnStmt
  cases value with
  | none => exact (Reading.refl σ).congr fun e => by simp [recognises_returnStmt_iff]
  | some expr =>
      cases hcur : σ.currentFunction with
      | none =>
          have hnone : ∀ e, e ∈ (∅ : Set Event) ↔ e ∈ EventsAt R none (.returnStmt (some expr)) :=
            fun e => by simp [recognises_returnStmt_iff]
          simp only [ask_currentFunction, hcur]
          split
          · exact (Reading.refl σ).congr hnone
          · split
            · exact (Reading.after_ask _ (Reading.refl _)).congr hnone
            · exact (Reading.refl σ).congr hnone
      | some f =>
          by_cases hnew : expr.isNewExpr = true
          · simp only [hnew, if_true]
            by_cases harray : expr.isArrayNew = true
            · simp only [harray, Bool.and_true, VisitorState.ite_clear]
              refine (reading_ask_clear σ _).congr fun e => ?_
              simp [recognises_returnStmt_iff, hnew, harray]
            · rw [Bool.not_eq_true] at harray
              simp only [harray, Bool.and_false, Bool.false_eq_true, if_false]
              refine (Reading.after_ask _ (Reading.refl _)).congr fun e => ?_
              simp [recognises_returnStmt_iff, hnew, harray]
          · rw [Bool.not_eq_true] at hnew
            have harray := not_isArrayNew hnew
            simp only [hnew, Bool.false_eq_true, if_false]
            cases hd : expr.extractDecl with
            | none =>
                refine (Reading.refl σ).congr fun e => ?_
                simp [recognises_returnStmt_iff, harray, hd]
            | some d =>
                simp only [ask_currentFunction, hcur, VisitorState.ite_pushFrom]
                refine (reading_ask_pushFrom σ _ _).congr fun e => ?_
                simp [recognises_returnStmt_iff, hnew, harray, hd]

/-- Visiting a list of nodes one after the other. -/
theorem reading_foldlM {visit : StmtVisitor}
    (hvisit : ∀ s σ σ', visit s σ = some σ' → Reading R σ σ' (EventsFrom R σ.currentFunction s))
    (ss : List Stmt) (σ : VisitorState) (h : ss.foldlM (fun σ s => visit s σ) σ = some σ') :
    Reading R σ σ' (EventsOf R σ.currentFunction ss) := by
  induction ss generalizing σ with
  | nil =>
      cases h
      exact (Reading.refl _).congr (by simp)
  | cons s ss ih =>
      obtain ⟨σ₁, hfirst, hrest⟩ := Option.bind_eq_some_iff.mp h
      intro hR
      have hlater := ih σ₁ hrest hR
      have hearlier := hvisit s σ σ₁ hfirst (hR.of_grows hlater.grows)
      rw [eventsOf_cons]
      exact hearlier.trans (hearlier.cur ▸ hlater)

theorem next_explicitCast_iff {ty : QualType} {sub t : Stmt} :
    Next R (.explicitCast ty sub) t ↔ t ∈ sub.children := by
  constructor
  · intro h
    cases h with
    | explicitCast h => exact h
    | plain h => contradiction
  · exact .explicitCast

theorem next_plain_iff {s t : Stmt} (hs : s.isPlain = true) : Next R s t ↔ t ∈ s.children := by
  refine ⟨fun h => ?_, .plain hs⟩
  cases h with
  | plain _ h => exact h
  | _ => contradiction

/-- A node whose handler visits nothing. -/
def Stmt.isLeaf : Stmt → Bool
  | .declStmt _ | .returnStmt _ | .newExpr _ _ _ => true
  | _ => false

theorem next_leaf_iff {s t : Stmt} (hs : s.isLeaf = true) : Next R s t ↔ t ∈ [] := by
  refine ⟨fun h => ?_, fun h => absurd h List.not_mem_nil⟩
  cases h with
  | plain h => cases s <;> contradiction
  | _ => contradiction

/-- Without a handler of its own that records something, a node has no events. -/
theorem eventsAt_eq_empty {s : Stmt} (h : ∀ e, ¬Recognises R cur s e) :
    EventsAt R cur s = ∅ := by
  ext e
  simp only [Set.mem_empty_iff_false, iff_false]
  exact h e

theorem eventsFrom_leaf {s : Stmt} (hs : s.isLeaf = true) :
    EventsFrom R cur s = EventsAt R cur s := by
  rw [eventsFrom_of_next fun t => next_leaf_iff hs, eventsOf_nil, Set.union_empty]

/-- **A visit records exactly the events of the nodes it reaches.** -/
theorem reading_visit {VisitStmt : StmtVisitor → StmtVisitor} (hV : VisitsChildren VisitStmt)
    (fuel : Nat) (s : Stmt) (σ σ' : VisitorState) (h : Visit VisitStmt fuel s σ = some σ') :
    Reading R σ σ' (EventsFrom R σ.currentFunction s) := by
  induction fuel generalizing s σ σ' with
  | zero => contradiction
  | succ fuel ih =>
      have hvs : VisitsBelow R (VisitStmt (Visit VisitStmt fuel)) := by
        intro s σ σ' h
        rw [hV] at h
        exact reading_foldlM ih s.children σ h
      have hplain : ∀ s, s.isPlain = true → VisitStmt (Visit VisitStmt fuel) s σ = some σ' →
          Reading R σ σ' (EventsFrom R σ.currentFunction s) := by
        intro s hs h
        have hempty : EventsAt R σ.currentFunction s = ∅ := by
          refine eventsAt_eq_empty fun e he => ?_
          cases he <;> contradiction
        rw [eventsFrom_of_next fun t => next_plain_iff hs, hempty, Set.empty_union]
        exact hvs s σ σ' h
      cases s with
      | declStmt group =>
          cases h
          rw [eventsFrom_leaf rfl]
          exact (reading_visitDeclStmt group σ).congr fun e => recognises_declStmt_iff.symm
      | unary op sub => exact reading_visitUnaryOperator hvs h
      | binary op lhs rhs => exact reading_visitBinaryOperator hvs h
      | subscript base idx => exact reading_visitArraySubscriptExpr hvs h
      | call callee args ty => exact reading_visitCallExpr hvs h
      | returnStmt value =>
          cases h
          rw [eventsFrom_leaf rfl]
          exact reading_visitReturnStmt value σ
      | newExpr isArray allocated args =>
          cases h
          rw [eventsFrom_leaf rfl, eventsAt_eq_empty (fun e he => by cases he)]
          exact Reading.refl _
      | explicitCast ty sub =>
          rw [eventsFrom_of_next fun t => next_explicitCast_iff,
            eventsAt_eq_empty (fun e he => by cases he), Set.empty_union]
          exact hvs sub σ σ' h
      | declRef d => exact hplain _ rfl h
      | member base d => exact hplain _ rfl h
      | conditional cond t f => exact hplain _ rfl h
      | implicitCast ty sub => exact hplain _ rfl h
      | paren sub => exact hplain _ rfl h
      | literal ty => exact hplain _ rfl h
      | compound body => exact hplain _ rfl h

end

end Ironclad.Analysis
