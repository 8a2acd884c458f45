import Ironclad.Analysis.ArrayUses

/-!
# Which flows the classification respects

The classification reads a missing record as an array pointer. A flow from `s` to `d`
is respected when `s` comes out as an array pointer whenever `d` does. The recorded
flows into `d` are respected; a `return` is recorded the other way round, and some
flows are not recorded at all.
-/

namespace Ironclad.Analysis

open Ironclad.Logic

section

variable {VisitStmt : StmtVisitor → StmtVisitor}

/-- The classification as an array pointer, in terms of what is recognised. -/
def ClassifiedArray (R : Key → Prop) (unit : TranslationUnit) (d : NamedDecl) : Prop :=
  R (convertToUniqueString d 0) → convertToUniqueString d 0 ∈ Detected R unit

/-- In every final state the flow from `s` to `d` is respected. -/
def FlowRespected (VisitStmt : StmtVisitor → StmtVisitor) (unit : TranslationUnit)
    (s d : NamedDecl) : Prop :=
  ∀ σ', Analyzed VisitStmt unit σ' → σ'.failed = false →
    isSingleton σ'.pointers d 0 = false → isSingleton σ'.pointers s 0 = false

theorem isSingleton_eq_false_iff {m : PointerMap Key} {d : NamedDecl} {l : Nat} :
    isSingleton m d l = false ↔ (m.entry (convertToUniqueString d l) ≠ none →
      convertToUniqueString d l ∈ nonSingletons m) := by
  unfold isSingleton nonSingletons
  cases h : m.entry (convertToUniqueString d l) with
  | none => simp
  | some data => simp [h]

/-- A recorded flow carries "not a singleton" to where the value comes from. -/
theorem detected_of_recordedFlow {R : Key → Prop} {unit : TranslationUnit} {dst src : Key}
    (h : RecordedFlow R unit dst src) (hdst : dst ∈ Detected R unit) : src ∈ Detected R unit :=
  closedUnder_closure dst hdst src h

theorem flowRespected_iff (hV : VisitsChildren VisitStmt) (unit : TranslationUnit)
    (s d : NamedDecl) : FlowRespected VisitStmt unit s d ↔
      (¬Occurs (HasRecord VisitStmt unit) unit .fail →
        ClassifiedArray (HasRecord VisitStmt unit) unit d →
        ClassifiedArray (HasRecord VisitStmt unit) unit s) := by
  obtain ⟨σ, hσ, hrecords, hfound, hfailed⟩ := analysis_finds hV unit
  have hclassified : ∀ n, isSingleton σ.pointers n 0 = false ↔
      ClassifiedArray (HasRecord VisitStmt unit) unit n := by
    intro n
    rw [isSingleton_eq_false_iff, hrecords, hfound]
    exact Iff.rfl
  have hok : σ.failed = false ↔ ¬Occurs (HasRecord VisitStmt unit) unit .fail := by
    rw [← hfailed, Bool.not_eq_true]
  constructor
  · intro h hnofail hd
    exact (hclassified s).mp (h σ hσ (hok.mpr hnofail) ((hclassified d).mpr hd))
  · intro h σ' hσ' hnofail hd
    obtain rfl := hσ.unique hσ'
    exact (hclassified s).mpr (h (hok.mp hnofail) ((hclassified d).mp hd))

end

/-! ## A flow that is not respected -/

def returned : ValueDecl := ⟨[['g']], ['s'], .pointer .other⟩

def returner : FunctionDecl := ⟨[], ['g'], [returned], .pointer .other⟩

def passed : ValueDecl := ⟨[['h']], ['q'], .pointer .other⟩

/-- Reading the value of a pointer variable. -/
def loadPointer (v : ValueDecl) : Stmt :=
  .implicitCast (.pointer .other) (.declRef (.value v))

/-- `int *g(int *s) { return s; }` and `void h(int *q) { g(q)[0]; }` -/
def returnUnit : TranslationUnit :=
  [.function returner (some (.compound [.returnStmt (some (loadPointer returned))])) false,
   .function ⟨[], ['h'], [passed], .other⟩
    (some (.compound [.subscript (.call (.declRef (.function returner)) [loadPointer passed]
      (.pointer .other)) (.literal .other)])) false]

end Ironclad.Analysis
