import Mathlib.Logic.Relation
import Mathlib.Order.Bounds.Basic

/-!
# Closures under a relation

The least set that contains some elements and is closed under following a
relation, as the set of what can be reached from them. An algorithm that
propagates a mark is correct when the marks it leaves are that set.
-/

namespace Ironclad.Logic

variable {α : Type*} {R : α → α → Prop} {A S : Set α}

/-- Following `R` does not lead out of `S`. -/
def ClosedUnder (R : α → α → Prop) (S : Set α) : Prop := ∀ a ∈ S, ∀ b, R a b → b ∈ S

/-- What can be reached from `A` along `R`. -/
def closure (R : α → α → Prop) (A : Set α) : Set α :=
  {b | ∃ a ∈ A, Relation.ReflTransGen R a b}

theorem subset_closure : A ⊆ closure R A := fun a ha => ⟨a, ha, .refl⟩

theorem closedUnder_closure : ClosedUnder R (closure R A) := by
  rintro b ⟨a, ha, hab⟩ c hbc
  exact ⟨a, ha, hab.tail hbc⟩

/-- Every closed set with `A` in it contains the closure: follow the path. -/
theorem closure_subset (hA : A ⊆ S) (hS : ClosedUnder R S) : closure R A ⊆ S := by
  rintro b ⟨a, ha, hab⟩
  induction hab with
  | refl => exact hA ha
  | tail _ hbc ih => exact hS _ ih _ hbc

theorem isLeast_closure : IsLeast {S | A ⊆ S ∧ ClosedUnder R S} (closure R A) :=
  ⟨⟨subset_closure, closedUnder_closure⟩, fun _ hS => closure_subset hS.1 hS.2⟩

/-- A closed set with `A` in it that stays within the closure is the closure. -/
theorem eq_closure (hA : A ⊆ S) (hS : ClosedUnder R S) (hle : S ⊆ closure R A) :
    S = closure R A :=
  Set.Subset.antisymm hle (closure_subset hA hS)

end Ironclad.Logic
