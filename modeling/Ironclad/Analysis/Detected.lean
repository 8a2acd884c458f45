import Ironclad.Analysis.Termination
import Ironclad.Analysis.Visits

/-!
# What the analysis finds

The visits record the events of the translation unit, and `finalizePointers` closes
the array uses among them along the recorded flows. So the analysis of every
translation unit ends, and the records it leaves non-singleton are the ones that
`Detected` names.
-/

namespace Ironclad.Analysis

open Ironclad.Logic

section

variable (VisitStmt : StmtVisitor → StmtVisitor)

/-- The key has a record when the visits are done: it was inserted for a declaration
before anything looked it up. -/
def HasRecord (unit : TranslationUnit) (k : Key) : Prop :=
  ∃ N, ∀ fuel, N ≤ fuel →
    ∃ σ, analyzeAll VisitStmt fuel unit = some σ ∧ σ.pointers.entry k ≠ none

/-- The final state of the analysis. -/
def Analyzed (unit : TranslationUnit) (σ' : VisitorState) : Prop :=
  ∃ N, ∀ fuel, N ≤ fuel → runAnalysis VisitStmt fuel unit = some σ'

end

/-- The events of a declaration at the top level. -/
def TopEvents (R : Key → Prop) : TopDecl → Set Event
  | .var d init => VarEvents R (d, init)
  | .function f (some body) false => EventsOf R (some f) body.children
  | _ => ∅

theorem occurs_iff {R : Key → Prop} {unit : TranslationUnit} {e : Event} :
    Occurs R unit e ↔ ∃ d ∈ unit, e ∈ TopEvents R d := by
  constructor
  · rintro ⟨cur, t, hvisited, hrec⟩
    cases hvisited with
    | var hmem =>
        obtain ⟨v, hv, he⟩ := recognises_declStmt_iff.mp hrec
        cases List.mem_singleton.mp hv
        exact ⟨_, hmem, he⟩
    | body hmem hc ht => exact ⟨_, hmem, _, hc, t, ht, hrec⟩
  · rintro ⟨d, hmem, he⟩
    cases d with
    | var d init =>
        exact ⟨none, _, .var hmem,
          recognises_declStmt_iff.mpr ⟨(d, init), List.mem_singleton_self _, he⟩⟩
    | function f body inSystemHeader =>
        cases body with
        | none => exact absurd he (Set.notMem_empty e)
        | some body =>
            cases inSystemHeader with
            | true => exact absurd he (Set.notMem_empty e)
            | false =>
                obtain ⟨c, hc, t, ht, hrec⟩ := he
                exact ⟨some f, t, .body hmem hc ht, hrec⟩
    | record fields => exact absurd he (Set.notMem_empty e)

/-! ## The visits of a translation unit -/

section

variable {R : Key → Prop} {σ σ₁ σ' : VisitorState} {E E₁ E₂ : Set Event}

def VisitorState.within (σ : VisitorState) (cur : Option FunctionDecl) : VisitorState :=
  { σ with currentFunction := cur }

/-- `Reading`, for steps that enter a function and do not restore the current one. -/
def ReadingTop (R : Key → Prop) (σ σ' : VisitorState) (E : Set Event) : Prop :=
  Reading R (σ.within σ'.currentFunction) σ' E

theorem Reads.within (h : Reads R σ σ' E) (cur : Option FunctionDecl) :
    Reads R (σ.within cur) (σ'.within cur) E where
  cur := rfl
  grows := h.grows
  uses := h.uses
  flows := h.flows
  failed := h.failed

theorem ReadingTop.trans (h₁ : ReadingTop R σ σ₁ E₁) (h₂ : ReadingTop R σ₁ σ' E₂) :
    ReadingTop R σ σ' (E₁ ∪ E₂) := by
  intro hR
  have hlater := h₂ hR
  have hearlier := h₁ (hR.of_grows hlater.grows)
  exact (hearlier.within σ'.currentFunction).trans hlater

theorem Reading.top (h : Reading R σ σ' E) : ReadingTop R σ σ' E := by
  intro hR
  have hread := h hR
  have hsame : σ.within σ'.currentFunction = σ := by
    unfold VisitorState.within
    rw [hread.cur]
  rw [hsame]
  exact hread

theorem reading_insertPointers (decls : List ValueDecl) (σ : VisitorState) :
    Reading R σ (insertPointers decls σ) ∅ := by
  unfold insertPointers
  induction decls generalizing σ with
  | nil => exact Reading.refl σ
  | cons d decls ih =>
      rw [List.foldl_cons]
      have hone : Reading R σ
          (if d.type.isPointerType || d.type.isArrayType then σ.insertInMap (.value d) else σ)
          ∅ := by
        split
        · exact fun _ => reads_insertInMap σ (.value d)
        · exact Reading.refl σ
      exact (hone.trans (ih _)).congr (by simp)

variable {VisitStmt : StmtVisitor → StmtVisitor} (hV : VisitsChildren VisitStmt)

include hV

theorem reading_visitFunctionDecl {fuel : Nat} {f : FunctionDecl} {body : Option Stmt}
    {inSystemHeader : Bool}
    (h : VisitFunctionDecl VisitStmt fuel f body inSystemHeader σ = some σ') :
    ReadingTop R σ σ' (TopEvents R (.function f body inSystemHeader)) := by
  have hinsert : Reading R σ
      (if f.resultType.isPointerType then σ.insertInMap (.function f) else σ) ∅ := by
    split
    · exact fun _ => reads_insertInMap σ (.function f)
    · exact Reading.refl σ
  have hparams := hinsert.trans (reading_insertPointers f.params _)
  simp only [VisitFunctionDecl] at h
  generalize insertPointers f.params _ = σ₁ at h hparams
  cases body with
  | none =>
      cases h
      exact (hparams.congr fun e => by simp [TopEvents]).top
  | some body =>
      cases inSystemHeader with
      | true =>
          cases h
          exact (hparams.congr fun e => by simp [TopEvents]).top
      | false =>
          simp only [Bool.false_eq_true, if_false] at h
          rw [hV] at h
          intro hR
          have hbody := reading_foldlM (reading_visit hV fuel) body.children _ h hR
          have hbefore := hparams (hR.of_grows hbody.grows)
          have hcur : σ'.currentFunction = some f := hbody.cur
          rw [hcur]
          exact ((hbefore.within (some f)).trans hbody).congr fun e => by simp [TopEvents]

theorem reading_analyze {fuel : Nat} {d : TopDecl} (h : Analyze VisitStmt fuel σ d = some σ') :
    ReadingTop R σ σ' (TopEvents R d) := by
  cases d with
  | var d init =>
      cases h
      exact (reading_visitVarDecl d init σ).top
  | function f body inSystemHeader => exact reading_visitFunctionDecl hV h
  | record fields =>
      cases h
      exact (reading_insertPointers fields σ).top

theorem reading_analyzeAll {fuel : Nat} (unit : TranslationUnit) (σ : VisitorState)
    (h : unit.foldlM (Analyze VisitStmt fuel) σ = some σ') :
    ReadingTop R σ σ' {e | Occurs R unit e} := by
  induction unit generalizing σ with
  | nil =>
      cases h
      refine (Reading.refl _).top.congr fun e => ?_
      simp [occurs_iff]
  | cons d unit ih =>
      obtain ⟨σ₁, hfirst, hrest⟩ := Option.bind_eq_some_iff.mp h
      refine ((reading_analyze hV hfirst).trans (ih σ₁ hrest)).congr fun e => ?_
      simp [occurs_iff]

/-- What the visits leave in the map, where `R` are the keys with a record. -/
structure Collected (R : Key → Prop) (unit : TranslationUnit) (σ : VisitorState) : Prop where
  uses : nonSingletons σ.pointers = RecognisedUses R unit
  flows : ∀ dst src, FromEdge σ.pointers dst src ↔ RecordedFlow R unit dst src
  failed : σ.failed = true ↔ Occurs R unit .fail

theorem analyzeAll_collects {fuel : Nat} {unit : TranslationUnit} {σ : VisitorState}
    (h : analyzeAll VisitStmt fuel unit = some σ) :
    Collected (fun k => σ.pointers.entry k ≠ none) unit σ := by
  have hR : Settled (fun k => σ.pointers.entry k ≠ none) σ.pointers :=
    ⟨fun _ hk => hk, fun _ _ hnone hk => hk hnone⟩
  have hread := reading_analyzeAll hV unit .empty h hR
  refine ⟨?_, fun dst src => ?_, ?_⟩
  · ext k
    rw [hread.uses]
    simp [VisitorState.within, VisitorState.empty, nonSingletons, PointerMap.empty,
      RecognisedUses]
  · have hempty : ¬fromPairs (VisitorState.empty.within σ.currentFunction).pointers dst src := by
      rintro ⟨d, hd, -⟩
      cases hd
    have hflows := hread.flows dst src
    simp only [hempty, false_or] at hflows
    constructor
    · rintro ⟨d, hd, hsrc, hrecord⟩
      obtain ⟨hdst, hoccurs⟩ := hflows.mp ⟨d, hd, hsrc⟩
      exact ⟨hdst, hrecord, hoccurs⟩
    · rintro ⟨hdst, hrecord, hoccurs⟩
      obtain ⟨d, hd, hsrc⟩ := hflows.mpr ⟨hdst, hoccurs⟩
      exact ⟨d, hd, hsrc, hrecord⟩
  · rw [hread.failed]
    simp [VisitorState.within, VisitorState.empty]

/-- **The analysis ends, and finds what `Detected` names.** -/
theorem analysis_finds (unit : TranslationUnit) :
    ∃ σ', Analyzed VisitStmt unit σ' ∧
      (∀ k, σ'.pointers.entry k ≠ none ↔ HasRecord VisitStmt unit k) ∧
      nonSingletons σ'.pointers = Detected (HasRecord VisitStmt unit) unit ∧
      (σ'.failed = true ↔ Occurs (HasRecord VisitStmt unit) unit .fail) := by
  obtain ⟨σ, hvisits⟩ := analyzeAll_ends hV unit
  obtain ⟨m', hfinal⟩ := finalizePointers_terminates σ.pointers
  have hlinks := (finalizePointers_spec (hfinal _ le_rfl)).evolves.links
  have hcollects := analyzeAll_collects hV (hvisits _ le_rfl)
  have hrecords : (fun k => σ.pointers.entry k ≠ none) = HasRecord VisitStmt unit := by
    funext k
    refine propext ⟨fun hk => ⟨_, fun fuel hfuel => ⟨σ, hvisits fuel hfuel, hk⟩⟩, ?_⟩
    rintro ⟨N, hN⟩
    obtain ⟨σ₂, hσ₂, hk⟩ := hN (max N (sizeOf unit)) (le_max_left _ _)
    obtain rfl : σ = σ₂ := Option.some.inj ((hvisits _ (le_max_right _ _)).symm.trans hσ₂)
    exact hk
  rw [hrecords] at hcollects
  refine ⟨{ σ with pointers := m' }, ⟨max (sizeOf unit) (σ.pointers.keys.length + 2),
    fun fuel hfuel => ?_⟩, fun k => ?_, ?_, hcollects.failed⟩
  · have hall : analyzeAll VisitStmt fuel unit = some σ :=
      hvisits fuel ((le_max_left _ _).trans hfuel)
    unfold runAnalysis
    rw [hall, Option.bind_some,
      hfinal fuel ((le_max_right _ _).trans hfuel), Option.bind_some]
  · rw [← hrecords]
    exact not_congr (entry_eq_none_of_links (hlinks k))
  · have hedges : FromEdge σ.pointers = RecordedFlow (HasRecord VisitStmt unit) unit := by
      funext dst src
      exact propext (hcollects.flows dst src)
    rw [finalizePointers_closure (hfinal _ le_rfl), hedges, hcollects.uses]
    rfl

end

end Ironclad.Analysis
