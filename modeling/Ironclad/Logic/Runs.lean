import Mathlib.Algebra.Order.BigOperators.Group.List
import Mathlib.Algebra.GroupWithZero.Nat
import Mathlib.Algebra.Order.Group.Nat
import Mathlib.Data.List.SplitBy
import Mathlib.Tactic.TypeStar

/-!
# Collecting runs

A loop over a list that keeps the current run of related elements and emits something for it
when an unrelated element arrives, and for the last run at the end. `collect_eq` says that
this is to split the list into its runs and to emit for each of them.
-/

namespace Ironclad.Logic

section

variable {α β : Type*} (r : α → α → Bool) (emit : List α → List β)

/-- One turn: the current run and what was emitted. -/
def collectStep (s : List α × List β) (a : α) : List α × List β :=
  if s.1.getLast?.any (r · a) then (s.1 ++ [a], s.2) else ([a], s.2 ++ emit s.1)

def collect (l : List α) : List β :=
  let s := l.foldl (collectStep r emit) ([], [])
  s.2 ++ emit s.1

variable {r emit}

theorem collect_from {cur : List α} (hcur : cur ≠ []) (hchain : cur.IsChain fun x y => r x y)
    (l : List α) (out : List β) :
    (l.foldl (collectStep r emit) (cur, out)).2 ++
        emit (l.foldl (collectStep r emit) (cur, out)).1 =
      out ++ ((cur ++ l).splitBy r).flatMap emit := by
  induction l generalizing cur out with
  | nil =>
      rw [List.append_nil, List.splitBy_of_isChain hcur hchain]
      simp
  | cons a l ih =>
      have hlast := List.getLast?_eq_some_getLast hcur
      rw [List.foldl_cons]
      by_cases hr : r (cur.getLast hcur) a = true
      · -- the run goes on
        have hstep : collectStep r emit (cur, out) a = (cur ++ [a], out) := by
          simp [collectStep, hlast, hr]
        rw [hstep, ih (by simp) _ out, List.append_assoc]
        · rfl
        · refine hchain.append (.singleton a) ?_
          intro x hx y hy
          rw [hlast] at hx
          cases hx
          cases hy
          exact hr
      · -- the run ends before `a`
        have hstep : collectStep r emit (cur, out) a = ([a], out ++ emit cur) := by
          simp [collectStep, hlast, hr]
        have hsplit : (cur ++ a :: l).splitBy r = cur :: (a :: l).splitBy r := by
          rw [List.splitBy_append_cons, List.splitBy_of_isChain hcur hchain]
          · rfl
          · intro x hx
            rw [hlast] at hx
            cases hx
            exact Bool.eq_false_iff.mpr hr
        rw [hstep, ih (by simp) (.singleton a), hsplit, List.flatMap_cons, List.append_assoc]
        rfl

/-- **The loop emits for each run.** -/
theorem collect_eq (hemit : emit [] = []) (l : List α) :
    collect r emit l = (l.splitBy r).flatMap emit := by
  cases l with
  | nil => simp [collect, hemit]
  | cons a l =>
      have hstep : collectStep r emit ([], []) a = ([a], []) := by simp [collectStep, hemit]
      unfold collect
      rw [List.foldl_cons, hstep]
      exact collect_from (by simp) (.singleton a) l []

end

/-- What is emitted with a property that the runs have as a whole is emitted for the runs
with it. -/
theorem filter_flatMap_of {α β : Type*} {f : α → List β} {p : β → Bool} {q : α → Bool}
    {l : List α} (h : ∀ a ∈ l, ∀ b ∈ f a, p b = q a) :
    (l.flatMap f).filter p = (l.filter q).flatMap f := by
  induction l with
  | nil => rfl
  | cons a l ih =>
      rw [List.forall_mem_cons] at h
      rw [List.flatMap_cons, List.filter_append, ih h.2, List.filter_cons]
      cases hq : q a with
      | true =>
          have hall : (f a).filter p = f a :=
            List.filter_eq_self.mpr fun b hb => (h.1 b hb).trans hq
          rw [if_pos rfl, List.flatMap_cons, hall]
      | false =>
          have hnone : (f a).filter p = [] :=
            List.filter_eq_nil_iff.mpr fun b hb => by rw [h.1 b hb, hq]; exact Bool.false_ne_true
          rw [if_neg Bool.false_ne_true, hnone, List.nil_append]

/-- In a sum that is not exceeded termwise, and not as a whole, the terms are equal. -/
theorem eq_of_sum_map_le {α : Type*} {f g : α → Nat} {l : List α} (hle : ∀ a ∈ l, f a ≤ g a)
    (h : (l.map g).sum ≤ (l.map f).sum) : ∀ a ∈ l, f a = g a := by
  induction l with
  | nil => exact fun _ ha => absurd ha List.not_mem_nil
  | cons a l ih =>
      rw [List.forall_mem_cons] at hle ⊢
      have hsum := List.sum_le_sum hle.2
      rw [List.map_cons, List.map_cons, List.sum_cons, List.sum_cons] at h
      exact ⟨by omega, ih hle.2 (by omega)⟩

end Ironclad.Logic
