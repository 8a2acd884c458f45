import Mathlib.Logic.Relation
import Ironclad.Translator.SafeTypes
import Ironclad.Translator.VisitOrder

/-!
# The types of allocations

`buildCXXNewExpr` writes the element type of a `new` expression. What the consumer comes to
below a binary operator it types for the variable on the left of the last operator that it
came across; what the builder comes to in an initialiser, below a cast or in the arguments
of a system call it types for no variable, with every pointer that of an array.
`allocations_typed_iff` says when the type is that of the variable which is initialised or
assigned to.
-/

namespace Ironclad.Translator

/-! ## The text of an allocation -/

/-- The builder, with the classification of all declarations. -/
structure NewBuilder where
  safePtrType : Str
  safeArrayType : Str
  isSingleton : NamedDecl → Nat → Bool

namespace NewBuilder

variable (b : NewBuilder)

/-- The builder of declarations. -/
def types : Builder := ⟨b.safePtrType, b.safeArrayType, fun d => b.isSingleton (.value d)⟩

/-- `namedDecl != NULL && analysis->isSingleton(namedDecl,level)`. -/
def singleton (namedDecl : Option NamedDecl) (level : Nat) : Bool :=
  namedDecl.any fun d => b.isSingleton d level

/-- The contexts that names are written for, none without a declaration. -/
def context (namedDecl : Option NamedDecl) : List Str :=
  match namedDecl with
  | some d => d.context
  | none => []

/-- `buildType`, where the declaration may be null. -/
def buildType (namedDecl : Option NamedDecl) : QualType → Nat → Str
  | .typedef _ printed _, _ => getTypeWithoutClass printed []
  | .pointer _ pointee, level =>
      (if b.singleton namedDecl level then b.safePtrType else b.safeArrayType) ++ "< ".toList ++
        buildType namedDecl pointee (level + 1) ++ " >".toList
  | .array _ element bound, level =>
      "safe::array< ".toList ++ buildType namedDecl element (level + 1) ++ ",".toList ++
        boundText bound ++ ">".toList
  | .other q printed isBoolean, _ =>
      if isBoolean then getQualifierString q ++ "bool".toList
      else getTypeWithoutClass printed (context namedDecl)

/-- The level at which the allocated type is classified. -/
def level : Option NamedDecl → Nat
  | some _ => 1
  | none => 0

/-- `buildCXXNewExpr`. -/
def buildCXXNewExpr (n : New) (expr : Option Stmt) : Str :=
  let namedDecl := expr.bind Stmt.extractDecl
  let typeString := b.buildType namedDecl n.allocated (level namedDecl)
  if n.isArray then
    "safe::new_array< ".toList ++ typeString ++ " >(".toList ++ n.arraySize ++ ")".toList
  else
    "safe::new_ptr< ".toList ++ typeString ++ " >(".toList ++ [','].intercalate n.args ++
      ")".toList

/-- The element type of an allocation, as it is written. -/
def elementType (n : New) (namedDecl : Option NamedDecl) : SafeType :=
  n.allocated.safeType (b.singleton namedDecl) (context namedDecl) (level namedDecl)

/-- The type of a declaration, as `buildVariable` and `buildParameter` write it. -/
def declaredType (d : ValueDecl) : SafeType :=
  d.type.safeType (b.singleton (some (.value d))) d.context 0

theorem buildType_eq_render (namedDecl : Option NamedDecl) (t : QualType) (level : Nat) :
    b.buildType namedDecl t level =
      (t.safeType (b.singleton namedDecl) (context namedDecl) level).render b.types := by
  induction t generalizing level with
  | typedef q printed underlying ih =>
      conv_lhs => unfold buildType
      rfl
  | pointer q pointee ih =>
      conv_lhs => unfold buildType
      rw [ih]
      rfl
  | array q element bound ih =>
      conv_lhs => unfold buildType
      rw [ih]
      rfl
  | other q printed isBoolean =>
      conv_lhs => unfold buildType
      rfl

/-- **The text of an allocation** has the element type between the angle brackets. -/
theorem buildCXXNewExpr_eq (n : New) (expr : Option Stmt) : b.buildCXXNewExpr n expr =
    (if n.isArray then "safe::new_array< ".toList else "safe::new_ptr< ".toList) ++
      (b.elementType n (expr.bind Stmt.extractDecl)).render b.types ++ " >(".toList ++
        (if n.isArray then n.arraySize else [','].intercalate n.args) ++ ")".toList := by
  unfold buildCXXNewExpr elementType
  simp only [b.buildType_eq_render]
  split <;> rfl

/-- The text of a declaration has the declared type in it. -/
theorem buildVariable_eq (d : ValueDecl) : b.types.buildVariable d =
    d.staticText ++ getQualifierString d.type.qualifiers ++ (b.declaredType d).render b.types ++
      " ".toList ++ d.writtenName := by
  rw [Builder.buildVariable, Builder.buildType_eq_render]
  rfl

end NewBuilder

/-! ## What an allocation is assigned to -/

namespace Stmt

/-- The variable or member that a left-hand side names, and how far below it the assigned
pointer is. -/
def designates : Stmt → Option (ValueDecl × Nat)
  | .declRef (.value d) => some (d, 0)
  | .member _ (.value d) => some (d, 0)
  | .subscript base _ => base.designates.map fun target => (target.1, target.2 + 1)
  | .unary true sub => sub.designates.map fun target => (target.1, target.2 + 1)
  | .paren sub => sub.designates
  | .implicitCast sub => sub.designates
  | _ => none

/-- The value of the expression is that of the `new` expression, up to casts. -/
inductive Yields : Stmt → New → Prop
  | self {n} : Yields (.newExpr n) n
  | paren {sub n} : Yields sub n → Yields (.paren sub) n
  | implicitCast {sub n} : Yields sub n → Yields (.implicitCast sub) n
  | explicitCast {toPointer sub n} : Yields sub n → Yields (.explicitCast toPointer sub) n
  | trueExpr {cond t f n} : Yields t n → Yields (.conditional cond t f) n
  | falseExpr {cond t f n} : Yields f n → Yields (.conditional cond t f) n

/-- `s` contains `t`, as itself or at any depth. -/
def Contains (s t : Stmt) : Prop := Relation.ReflTransGen (fun a b => b ∈ a.children) s t

end Stmt

/-- The nodes of a translation unit. -/
inductive InUnit (unit : TranslationUnit) : Stmt → Prop
  | init {d init s} : .var d (some init) ∈ unit → init.Contains s → InUnit unit s
  | body {params body isMain isInstantiated s} :
      .function params (some body) isMain isInstantiated ∈ unit → body.Contains s → InUnit unit s

/-- The `new` expression initialises the variable, or is assigned to the pointer that is so
far below the variable or member. -/
inductive Target (unit : TranslationUnit) (n : New) : ValueDecl → Nat → Prop
  | global {d init} : .var d (some init) ∈ unit → init.Yields n → Target unit n d 0
  | local {group d init} : InUnit unit (.declStmt group) → (d, some init) ∈ group →
      init.Yields n → Target unit n d 0
  | assigned {lhs rhs d k} : InUnit unit (.binary true lhs rhs) → lhs.designates = some (d, k) →
      rhs.Yields n → Target unit n d k

/-! ## The property -/

section

variable (b : NewBuilder) (unit : TranslationUnit)

/-- Every allocation is written with the element type of what it is assigned to, and with
the type of no variable if it is not assigned to one. The text of a declaration has the type
of the variable that its group begins with. -/
structure Typed (c : Consumer) : Prop where
  assigned : ∀ n expr, (n, expr) ∈ c.calls → ∀ d k, Target unit n d k →
    ∀ first, (d, first) ∈ c.declared → ∀ t, (b.declaredType first).elementAt (k + 1) = some t →
      b.elementType n (expr.bind Stmt.extractDecl) = t
  unassigned : ∀ n expr, (n, expr) ∈ c.calls → (∀ d k, ¬Target unit n d k) →
    b.elementType n (expr.bind Stmt.extractDecl) = b.elementType n none

/-- The state in which the visits end. -/
def Translated (VisitStmt : StmtVisitor → StmtVisitor) (c : Consumer) : Prop :=
  ∃ N, ∀ fuel, N ≤ fuel → translateUnit VisitStmt fuel unit = some c

end

/-! ## When it holds -/

/-- The left-hand side of the last binary operator. -/
def lastLHS (ts : List Turn) : Option Stmt :=
  (ts.filterMap fun t => match t with | .binary lhs => some lhs | _ => none).getLast?

/-- The variable that an allocation is typed for: none if the builder comes to it, and
otherwise the one that the last binary operator in front of it names on the left. -/
def TypedFor (ts : List Turn) (n : New) (namedDecl : Option NamedDecl) : Prop :=
  (.build n ∈ ts ∧ namedDecl = none) ∨
    ∃ before after, ts = before ++ .allocate n :: after ∧
      namedDecl = (lastLHS before).bind Stmt.extractDecl

/-- Variables in order, each with the first of those next to it that start where it does. -/
def groupFirsts (group : Option (ValueDecl × ValueDecl)) :
    List ValueDecl → List (ValueDecl × ValueDecl)
  | [] => []
  | d :: ds =>
      (d, Consumer.firstOf group d) :: groupFirsts (some (d, Consumer.firstOf group d)) ds

/-- The variables that `translatePointer` makes the text of. -/
def handed (ts : List Turn) : List ValueDecl :=
  ts.filterMap fun t => match t with | .declare d => some d | _ => none

/-- The variable whose type the text of a declaration has. -/
def DeclaredLike (ts : List Turn) (d first : ValueDecl) : Prop :=
  (.parameter d ∈ ts ∧ first = d) ∨ (d, first) ∈ groupFirsts none (handed ts)

section

variable (b : NewBuilder) (unit : TranslationUnit)

/-- The allocated type and the type that is `k + 1` pointers and arrays into `first`'s, if
it is written out that far, are written alike, and their pointers are classified alike. -/
def Agrees (n : New) (namedDecl : Option NamedDecl) (first : ValueDecl) (k : Nat) : Prop :=
  ∀ element, first.type.innerAt (k + 1) = some element →
    n.allocated.WrittenAlike (NewBuilder.context namedDecl) first.context element ∧
      ∀ l ∈ n.allocated.consultedLevels 0, b.singleton namedDecl (NewBuilder.level namedDecl + l) =
        b.isSingleton (.value first) (k + 1 + l)

/-- The variable does not show in the type: its context takes nothing from the names, and at
the pointers it is classified as an array. -/
def Neutral (n : New) (namedDecl : Option NamedDecl) : Prop :=
  n.allocated.WrittenAlike (NewBuilder.context namedDecl) [] n.allocated ∧
    ∀ l ∈ n.allocated.consultedLevels 0,
      b.singleton namedDecl (NewBuilder.level namedDecl + l) = false

structure TypesAgree : Prop where
  assigned : ∀ n namedDecl, TypedFor (unitTurns unit) n namedDecl → ∀ d k, Target unit n d k →
    ∀ first, DeclaredLike (unitTurns unit) d first → Agrees b n namedDecl first k
  unassigned : ∀ n namedDecl, TypedFor (unitTurns unit) n namedDecl →
    (∀ d k, ¬Target unit n d k) → Neutral b n namedDecl

end

/-! ## The state after the visits -/

theorem exists_split_cons {n : New} {t : Turn} {ts : List Turn} {P : List Turn → Prop} :
    (∃ before after, t :: ts = before ++ .allocate n :: after ∧ P before) ↔
      (t = .allocate n ∧ P []) ∨
        ∃ before after, ts = before ++ .allocate n :: after ∧ P (t :: before) := by
  constructor
  · rintro ⟨before, after, h, hP⟩
    cases before with
    | nil =>
        cases h
        exact .inl ⟨rfl, hP⟩
    | cons u before =>
        cases h
        exact .inr ⟨before, after, rfl, hP⟩
  · rintro (⟨rfl, hP⟩ | ⟨before, after, rfl, hP⟩)
    · exact ⟨[], ts, rfl, hP⟩
    · exact ⟨t :: before, after, rfl, hP⟩

theorem lastLHS_binary (lhs : Stmt) (ts : List Turn) :
    lastLHS (.binary lhs :: ts) = (lastLHS ts).or (some lhs) := by
  simp only [lastLHS, List.filterMap_cons]
  rw [List.getLast?_cons]
  cases (ts.filterMap _).getLast? <;> rfl

/-- Only binary operators change what the last left-hand side is. -/
theorem lastLHS_allocate (n : New) (ts : List Turn) :
    lastLHS (.allocate n :: ts) = lastLHS ts := rfl

theorem lastLHS_build (n : New) (ts : List Turn) : lastLHS (.build n :: ts) = lastLHS ts := rfl

theorem lastLHS_declare (d : ValueDecl) (ts : List Turn) :
    lastLHS (.declare d :: ts) = lastLHS ts := rfl

theorem lastLHS_parameter (d : ValueDecl) (ts : List Turn) :
    lastLHS (.parameter d :: ts) = lastLHS ts := rfl

/-- **The calls of `buildCXXNewExpr`**: without an expression from the builder, and with the
last left-hand side from the consumer. -/
theorem mem_calls_iff {n : New} {expr : Option Stmt} (ts : List Turn) (c : Consumer) :
    (n, expr) ∈ (runTurns ts c).calls ↔ (n, expr) ∈ c.calls ∨ (.build n ∈ ts ∧ expr = none) ∨
      ∃ before after, ts = before ++ .allocate n :: after ∧
        expr = (lastLHS before).or c.currentLHS := by
  induction ts generalizing c with
  | nil => simp
  | cons t ts ih =>
      rw [run_cons, ih, exists_split_cons]
      cases t with
      | binary lhs =>
          simp only [Turn.apply, lastLHS_binary, Option.or_assoc, Option.some_or]
          simp
      | allocate m =>
          have hnew : (n, expr) ∈ c.calls ++ [(m, c.currentLHS)] ↔
              (n, expr) ∈ c.calls ∨ (n = m ∧ expr = c.currentLHS) := by
            simp
          simp only [Turn.apply, Consumer.build, lastLHS_allocate, hnew, List.mem_cons,
            reduceCtorEq, false_or, Turn.allocate.injEq, eq_comm (a := m)]
          rw [show lastLHS [] = none from rfl, Option.none_or, or_assoc]
          exact or_congr_right or_left_comm
      | build m =>
          have hnew : (n, expr) ∈ c.calls ++ [(m, none)] ↔
              (n, expr) ∈ c.calls ∨ (n = m ∧ expr = none) := by
            simp
          simp only [Turn.apply, Consumer.build, lastLHS_build, hnew, List.mem_cons,
            reduceCtorEq, false_and, false_or, Turn.build.injEq, or_and_right, or_assoc]
      | declare d =>
          simp only [Turn.apply, Consumer.declare, lastLHS_declare, List.mem_cons, reduceCtorEq,
            false_and, false_or]
      | parameter d =>
          simp only [Turn.apply, Consumer.parameter, lastLHS_parameter, List.mem_cons, reduceCtorEq,
            false_and, false_or]

/-- The declarations whose text was made. -/
theorem mem_declared_iff {d first : ValueDecl} (ts : List Turn) (c : Consumer) :
    (d, first) ∈ (runTurns ts c).declared ↔ (d, first) ∈ c.declared ∨
      (.parameter d ∈ ts ∧ first = d) ∨ (d, first) ∈ groupFirsts c.group (handed ts) := by
  induction ts generalizing c with
  | nil => simp [handed, groupFirsts]
  | cons t ts ih =>
      rw [run_cons, ih]
      cases t with
      | declare e =>
          have hhanded : handed (.declare e :: ts) = e :: handed ts := rfl
          simp only [Turn.apply, Consumer.declare, hhanded, groupFirsts, List.mem_append,
            List.mem_cons, List.not_mem_nil, or_false, reduceCtorEq, false_or, or_assoc]
          exact or_congr_right or_left_comm
      | parameter e =>
          have hhanded : handed (.parameter e :: ts) = handed ts := rfl
          have hnew : (d, first) ∈ c.declared ++ [(e, e)] ↔
              (d, first) ∈ c.declared ∨ (d = e ∧ first = d) := by
            rw [List.mem_append, List.mem_singleton, Prod.mk.injEq]
            exact or_congr_right ⟨fun ⟨h, h'⟩ => ⟨h, h'.trans h.symm⟩,
              fun ⟨h, h'⟩ => ⟨h, h'.trans h⟩⟩
          simp only [Turn.apply, Consumer.parameter, hhanded, hnew, List.mem_cons,
            Turn.parameter.injEq, or_and_right, or_assoc]
      | _ => simp [Turn.apply, Consumer.build, handed]

theorem typedFor_iff {n : New} {namedDecl : Option NamedDecl} (ts : List Turn) :
    TypedFor ts n namedDecl ↔
      ∃ expr, (n, expr) ∈ (runTurns ts .initial).calls ∧
        namedDecl = expr.bind Stmt.extractDecl := by
  constructor
  · rintro (⟨hn, rfl⟩ | ⟨before, after, hts, rfl⟩)
    · exact ⟨none, (mem_calls_iff ts _).mpr (.inr (.inl ⟨hn, rfl⟩)), rfl⟩
    · exact ⟨lastLHS before,
        (mem_calls_iff ts _).mpr (.inr (.inr ⟨before, after, hts, Option.or_none.symm⟩)), rfl⟩
  · rintro ⟨expr, hcall, rfl⟩
    rcases (mem_calls_iff ts _).mp hcall with h | ⟨hn, rfl⟩ | ⟨before, after, hts, rfl⟩
    · exact absurd h List.not_mem_nil
    · exact .inl ⟨hn, rfl⟩
    · refine .inr ⟨before, after, hts, ?_⟩
      rw [show Consumer.initial.currentLHS = none from rfl, Option.or_none]

theorem declaredLike_iff {d first : ValueDecl} (ts : List Turn) :
    DeclaredLike ts d first ↔ (d, first) ∈ (runTurns ts .initial).declared := by
  rw [mem_declared_iff]
  show _ ↔ (d, first) ∈ [] ∨ _
  simp only [List.not_mem_nil, false_or]
  rfl

section

variable (b : NewBuilder)

/-- The element type is the declared one. -/
theorem agrees_iff {n : New} {namedDecl : Option NamedDecl} {first : ValueDecl} {k : Nat} :
    (∀ t, (b.declaredType first).elementAt (k + 1) = some t → b.elementType n namedDecl = t) ↔
      Agrees b n namedDecl first k := by
  unfold NewBuilder.declaredType NewBuilder.elementType Agrees
  rw [QualType.elementAt_safeType, Nat.zero_add]
  simp only [Option.map_eq_some_iff, forall_exists_index, and_imp, forall_apply_eq_imp_iff₂]
  refine forall₂_congr fun element _ => ?_
  exact QualType.safeType_eq_iff _ _ _ _

/-- An assignment that is typed for its own variable needs no classification to agree. -/
theorem agrees_self_iff {n : New} {d : ValueDecl} : Agrees b n (some (.value d)) d 0 ↔
    ∀ element, d.type.innerAt 1 = some element →
      n.allocated.WrittenAlike d.context d.context element := by
  unfold Agrees
  refine forall₂_congr fun element _ => ⟨fun h => h.1, fun h => ⟨h, fun l _ => ?_⟩⟩
  simp [NewBuilder.singleton, NewBuilder.level]

/-- The element type is the one that is written without a variable. -/
theorem neutral_iff {n : New} {namedDecl : Option NamedDecl} :
    b.elementType n namedDecl = b.elementType n none ↔ Neutral b n namedDecl :=
  QualType.safeType_eq_iff _ _ _ _

/-- **Allocations have the type of what they are assigned to iff** the variable that they are
typed for is classified like it and the types are written alike. -/
theorem allocations_typed_iff {VisitStmt : StmtVisitor → StmtVisitor}
    (hV : VisitsChildren VisitStmt) (unit : TranslationUnit) :
    ∃ c, Translated unit VisitStmt c ∧ (Typed b unit c ↔ TypesAgree b unit) := by
  refine ⟨runTurns (unitTurns unit) .initial,
    ⟨sizeOf unit, fun fuel hfuel => translateUnit_eq hV unit hfuel⟩, ?_⟩
  constructor
  · intro h
    refine ⟨fun n namedDecl hfor d k htarget first hlike => ?_, fun n namedDecl hfor hno => ?_⟩
    · obtain ⟨expr, hcall, rfl⟩ := (typedFor_iff _).mp hfor
      exact (agrees_iff b).mp
        (h.assigned n expr hcall d k htarget first ((declaredLike_iff _).mp hlike))
    · obtain ⟨expr, hcall, rfl⟩ := (typedFor_iff _).mp hfor
      exact (neutral_iff b).mp (h.unassigned n expr hcall hno)
  · intro h
    refine ⟨fun n expr hcall d k htarget first hlike => ?_, fun n expr hcall hno => ?_⟩
    · have hfor := (typedFor_iff (unitTurns unit)).mpr ⟨expr, hcall, rfl⟩
      exact (agrees_iff b).mpr
        (h.assigned n _ hfor d k htarget first ((declaredLike_iff _).mpr hlike))
    · have hfor := (typedFor_iff (unitTurns unit)).mpr ⟨expr, hcall, rfl⟩
      exact (neutral_iff b).mpr (h.unassigned n _ hfor hno)

end

/-! ## A variable with an initialiser -/

/-- A traversal that visits the children in order. -/
def visitChildren : StmtVisitor → StmtVisitor :=
  fun visit s c => s.children.foldlM (fun c t => visit t c) c

theorem visitChildren_visitsChildren : VisitsChildren visitChildren := fun _ _ _ => rfl

/-- `int *` -/
def intPointer : QualType :=
  .pointer ⟨false, false, false⟩ (.other ⟨false, false, false⟩ "int".toList false)

/-- The variable of `int **p`, in the body of `f`. -/
def initialised : ValueDecl :=
  ⟨["f".toList], "p".toList, "p".toList, .pointer ⟨false, false, false⟩ intPointer, 0, true,
    .var .other false none⟩

/-- `new int *[3]` -/
def newPointers : New := ⟨1, true, true, intPointer, "3".toList, []⟩

/-- `void f() { int **p = new int *[3]; }` -/
def initialiserUnit : TranslationUnit :=
  [.function [] (some (.other [.declStmt [(initialised, some (.newExpr newPointers))]])) false
    false]

/-- The classification of an array of singletons. -/
def arrayOfSingletons : NewBuilder :=
  ⟨"safe::ptr".toList, "safe::aptr".toList, fun _ level => level == 1⟩

/-- The variable is declared as `safe::aptr< safe::ptr< int > >`, the allocation is one of
`safe::aptr< int >`. -/
theorem initialiser_not_typed : ¬∀ VisitStmt : StmtVisitor → StmtVisitor,
    VisitsChildren VisitStmt → ∀ (b : NewBuilder) (unit : TranslationUnit) (c : Consumer),
      Translated unit VisitStmt c → Typed b unit c := by
  intro h
  have hturns : unitTurns initialiserUnit = [.declare initialised, .build newPointers] := by
    simp [unitTurns, initialiserUnit, TopDecl.turns, Stmt.turns, Stmt.children, varTurns,
      Stmt.news, initialised, QualType.isPointerType]
  have htranslated : Translated initialiserUnit visitChildren
      (runTurns (unitTurns initialiserUnit) .initial) :=
    ⟨_, fun _ hfuel => translateUnit_eq visitChildren_visitsChildren _ hfuel⟩
  have htyped := h visitChildren visitChildren_visitsChildren arrayOfSingletons _ _ htranslated
  rw [hturns] at htyped
  have htarget : Target initialiserUnit newPointers initialised 0 := by
    have hdecl : InUnit initialiserUnit (.declStmt [(initialised, some (.newExpr newPointers))]) :=
      .body List.mem_cons_self (.single List.mem_cons_self)
    exact .local hdecl List.mem_cons_self .self
  have hsame := htyped.assigned newPointers none List.mem_cons_self initialised 0 htarget
    initialised List.mem_cons_self _ rfl
  cases hsame

/-- The characterisation, at this program. -/
theorem allocations_typed_iff_initialiser :
    ∃ c, Translated initialiserUnit visitChildren c ∧
      (Typed arrayOfSingletons initialiserUnit c ↔
        TypesAgree arrayOfSingletons initialiserUnit) :=
  allocations_typed_iff arrayOfSingletons visitChildren_visitsChildren initialiserUnit

end Ironclad.Translator
