import Ironclad.Analysis.Detected
import Ironclad.Analysis.Values

/-!
# Which array uses are detected

An array use of a pointer makes its record non-singleton exactly when the record is
connected to a use that the visitor recognises, which need not be this one. The
increment and decrement operators, `p + i`, and most uses that are not of the
outermost level are not recognised.
-/

namespace Ironclad.Analysis

open Ironclad.Logic

section

variable {VisitStmt : StmtVisitor → StmtVisitor}

/-- There is one final state. -/
theorem Analyzed.unique {unit : TranslationUnit} {σ σ' : VisitorState}
    (h : Analyzed VisitStmt unit σ) (h' : Analyzed VisitStmt unit σ') : σ = σ' := by
  obtain ⟨N, hN⟩ := h
  obtain ⟨N', hN'⟩ := h'
  have hσ := hN (max N N') (le_max_left _ _)
  exact Option.some.inj (hσ.symm.trans (hN' (max N N') (le_max_right _ _)))

theorem Analyzed.of_run {unit : TranslationUnit} {σ : VisitorState} {n : Nat}
    (h : ∀ k, runAnalysis VisitStmt (k + n) unit = some σ) : Analyzed VisitStmt unit σ := by
  refine ⟨n, fun fuel hfuel => ?_⟩
  obtain ⟨k, rfl⟩ := Nat.exists_eq_add_of_le' hfuel
  exact h k

theorem isSingleton_of_nonSingletons {m : PointerMap Key} {d : NamedDecl} {l : Nat}
    (h : convertToUniqueString d l ∈ nonSingletons m) : isSingleton m d l = false := by
  obtain ⟨data, hdata, hflag⟩ := h
  unfold isSingleton
  rw [hdata]
  exact hflag

/-- The analysis ends with a non-singleton record for the declaration at the level. -/
def FoundArray (VisitStmt : StmtVisitor → StmtVisitor) (unit : TranslationUnit) (d : NamedDecl)
    (l : Nat) : Prop :=
  ∃ σ', Analyzed VisitStmt unit σ' ∧ σ'.failed = false ∧
    convertToUniqueString d l ∈ nonSingletons σ'.pointers

theorem foundArray_iff (hV : VisitsChildren VisitStmt) (unit : TranslationUnit) (d : NamedDecl)
    (l : Nat) : FoundArray VisitStmt unit d l ↔
      ¬Occurs (HasRecord VisitStmt unit) unit .fail ∧
        convertToUniqueString d l ∈ Detected (HasRecord VisitStmt unit) unit := by
  obtain ⟨σ, hσ, -, hfound, hfailed⟩ := analysis_finds hV unit
  constructor
  · rintro ⟨σ', hσ', hok, hmem⟩
    obtain rfl := hσ.unique hσ'
    refine ⟨fun hfail => ?_, hfound ▸ hmem⟩
    rw [hfailed.mpr hfail] at hok
    contradiction
  · rintro ⟨hok, hmem⟩
    refine ⟨σ, hσ, ?_, hfound ▸ hmem⟩
    cases hflag : σ.failed with
    | false => rfl
    | true => exact absurd (hfailed.mp hflag) hok

end

/-! ## A use that is not recognised -/

/-- A traversal that visits the children in order. -/
def visitChildren : StmtVisitor → StmtVisitor :=
  fun visit s σ => s.children.foldlM (fun σ c => visit c σ) σ

theorem visitChildren_visitsChildren : VisitsChildren visitChildren := fun _ _ _ => rfl

/-- The parameter of `void f(int *p)`. -/
def incremented : ValueDecl := ⟨[['f']], ['p'], .pointer .other⟩

/-- `void f(int *p) { ++p; }` -/
def incrementUnit : TranslationUnit :=
  [.function ⟨[], ['f'], [incremented], .other⟩
    (some (.compound [.unary .preInc (.declRef (.value incremented))])) false]

end Ironclad.Analysis
