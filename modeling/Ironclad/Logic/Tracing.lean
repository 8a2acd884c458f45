import Ironclad.Logic.Closure

/-!
# Tracing with a stack

A tracing collector keeps a set of marked nodes and a stack of nodes whose edges it
has still to follow. `Covered` is the invariant of every such loop: a marked node
waits on the stack or its edges have been followed. When the stack is empty the
marked set is closed under the edges. The invariant is stated for a part `A` of the
nodes: a collector may leave out nodes that it does not expand.
-/

namespace Ironclad.Logic

section

variable {α : Type*} (R : α → α → Prop)

/-- All edges from `x` lead into `marked`. -/
def Expanded (marked : Set α) (x : α) : Prop := ∀ y, R x y → y ∈ marked

/-- The marked nodes of `A` wait on the stack or are expanded. -/
def Covered (A marked : Set α) (stack : List α) : Prop :=
  ∀ x ∈ marked, x ∈ A → x ∈ stack ∨ Expanded R marked x

end

variable {α : Type*} {R : α → α → Prop} {A B marked marked' : Set α} {stack stack' : List α}

theorem Expanded.mono {x : α} (h : Expanded R marked x) (hm : marked ⊆ marked') :
    Expanded R marked' x := fun y hy => hm (h y hy)

/-- Marking more nodes, each of which goes on the stack or has no edges. -/
theorem Covered.grow (h : Covered R A marked stack) (hm : marked ⊆ marked') (hs : stack ⊆ stack')
    (hnew : ∀ x ∈ marked', x ∉ marked → x ∈ stack' ∨ Expanded R marked' x) :
    Covered R A marked' stack' := by
  intro x hx hA
  by_cases hold : x ∈ marked
  · rcases h x hold hA with hstack | hexp
    · exact .inl (hs hstack)
    · exact .inr (hexp.mono hm)
  · exact hnew x hx hold

/-- Taking a node off the stack once it is expanded. -/
theorem Covered.pop {x : α} (h : Covered R A marked (x :: stack)) (hx : Expanded R marked x) :
    Covered R A marked stack := by
  intro y hy hA
  rcases h y hy hA with hmem | hexp
  · rcases List.mem_cons.mp hmem with rfl | hmem
    · exact .inr hx
    · exact .inl hmem
  · exact .inr hexp

theorem Covered.subset (h : Covered R A marked stack) (hB : B ⊆ A) : Covered R B marked stack :=
  fun x hx hA => h x hx (hB hA)

/-- **With an empty stack the marked set is closed** under the edges out of `A`. -/
theorem Covered.closure_subset (h : Covered R A marked []) {roots : Set α}
    (hroots : roots ⊆ marked) : closure (fun x y => x ∈ A ∧ R x y) roots ⊆ marked := by
  refine Logic.closure_subset hroots fun x hx y hxy => ?_
  rcases h x hx hxy.1 with hmem | hexp
  · exact absurd hmem List.not_mem_nil
  · exact hexp y hxy.2

end Ironclad.Logic
