import Mathlib.Tactic.TypeStar

/-!
# Traces of two systems

A system performs operations one after the other and shows something at each, until it
refuses one. Two systems whose states are related show the same exactly if they do at every
operation that the first one gets to.
-/

namespace Ironclad.Logic

variable {σ τ α ω : Type*}

/-- What is shown at each operation; a refusal ends the trace. -/
def trace (step : σ → α → Option (ω × σ)) : σ → List α → List (Option ω)
  | _, [] => []
  | s, a :: as =>
      match step s a with
      | none => [none]
      | some (out, t) => some out :: trace step t as

/-- `C` holds at every operation that is got to. -/
def Along (step : σ → α → Option (ω × σ)) (C : σ → α → Prop) : σ → List α → Prop
  | _, [] => True
  | s, a :: as => C s a ∧ ∀ out t, step s a = some (out, t) → Along step C t as

variable {step₁ : σ → α → Option (ω × σ)} {step₂ : τ → α → Option (ω × τ)}
  {R : σ → τ → Prop} {C : σ → α → Prop}

/-- **The trace rule.** If related states show the same at an operation exactly if `C` holds
there, and what they become is related again, the traces are the same exactly if `C` holds
all along. -/
theorem trace_eq_iff
    (hout : ∀ s t a, R s t → ((step₁ s a).map Prod.fst = (step₂ t a).map Prod.fst ↔ C s a))
    (hnext : ∀ s t a o s' o' t', R s t → step₁ s a = some (o, s') → step₂ t a = some (o', t') →
      R s' t') {s : σ} {t : τ} (hst : R s t) (as : List α) :
    trace step₁ s as = trace step₂ t as ↔ Along step₁ C s as := by
  induction as generalizing s t with
  | nil => exact ⟨fun _ => trivial, fun _ => rfl⟩
  | cons a as ih =>
      have ha := hout s t a hst
      unfold trace Along
      -- what the operation shows decides, and then the induction goes on
      cases h₁ : step₁ s a with
      | none =>
          rw [h₁] at ha
          cases h₂ : step₂ t a with
          | none =>
              rw [h₂] at ha
              exact ⟨fun _ => ⟨ha.mp rfl, fun _ _ h => by cases h⟩, fun _ => rfl⟩
          | some r =>
              rw [h₂] at ha
              constructor
              · intro h
                cases h
              · rintro ⟨hC, -⟩
                cases ha.mpr hC
      | some r =>
          obtain ⟨o, s'⟩ := r
          rw [h₁] at ha
          cases h₂ : step₂ t a with
          | none =>
              rw [h₂] at ha
              constructor
              · intro h
                cases h
              · rintro ⟨hC, -⟩
                cases ha.mpr hC
          | some r' =>
              obtain ⟨o', t'⟩ := r'
              rw [h₂] at ha
              have hrest := ih (hnext s t a o s' o' t' hst h₁ h₂)
              constructor
              · intro h
                obtain ⟨ho, htail⟩ := List.cons.inj h
                refine ⟨ha.mp (congrArg some (Option.some.inj ho)), ?_⟩
                rintro out u ⟨⟩
                exact hrest.mp htail
              · rintro ⟨hC, htail⟩
                have ho := ha.mpr hC
                simp only [Option.map_some, Option.some.injEq] at ho
                show some o :: trace step₁ s' as = some o' :: trace step₂ t' as
                rw [ho, hrest.mpr (htail o s' rfl)]

end Ironclad.Logic
