import Mathlib.Data.Finset.Card
import Mathlib.Data.List.Perm.Basic
import Ironclad.Logic.Closure

/-!
# The pointer map of the refactoring tool

The analysis keeps one `PointerData` record for each pointer name: where its
value comes from, where it goes, and whether it is a singleton pointer.
`finalizePointers` propagates "not a singleton" along the `from` edges, by a
recursion that has no visited set and changes flags that the enclosing calls
are still reading. The recursion is bounded here by a fuel argument; `none` is
running out of it.

Names are of any type. A key of the map may be present with a null record:
`pointers[name]` inserts one when the key is missing.
-/

namespace Ironclad.Analysis

variable {Name : Type} [DecidableEq Name]

structure PointerData (Name : Type) where
  from_ : List Name
  to_ : List Name
  singleton : Bool
  deriving DecidableEq, Repr

/-- `PointerData()`. -/
def PointerData.new : PointerData Name := ⟨[], [], true⟩

/-- The map: its keys in iteration order, and the record under each, `none` for a
null or missing one. -/
structure PointerMap (Name : Type) where
  keys : List Name
  entry : Name → Option (PointerData Name)
  mem_keys : ∀ n, entry n ≠ none → n ∈ keys

namespace PointerMap

def empty : PointerMap Name := ⟨[], fun _ => none, fun _ h => absurd rfl h⟩

/-- What `pointers[name]` does to the map: a missing key is inserted, with null. -/
def touch (m : PointerMap Name) (n : Name) : PointerMap Name where
  keys := if n ∈ m.keys then m.keys else m.keys ++ [n]
  entry := m.entry
  mem_keys k hk := by
    have := m.mem_keys k hk
    split
    · exact this
    · exact List.mem_append_left _ this

/-- `pointers[name] = new PointerData`, for a name that is not a key. -/
def insert (m : PointerMap Name) (n : Name) : PointerMap Name where
  keys := m.keys ++ [n]
  entry k := if k = n then some .new else m.entry k
  mem_keys k hk := by
    by_cases h : k = n
    · exact List.mem_append_right _ (List.mem_singleton.mpr h)
    · rw [if_neg h] at hk
      exact List.mem_append_left _ (m.mem_keys k hk)

/-- Changing the record under a name, when there is one. -/
def modifyAt (m : PointerMap Name) (n : Name) (f : PointerData Name → PointerData Name) :
    PointerMap Name where
  keys := m.keys
  entry k := if k = n then (m.entry k).map f else m.entry k
  mem_keys k hk := by
    apply m.mem_keys k
    intro hnone
    rw [hnone] at hk
    split at hk <;> exact hk rfl

/-- `otherData->singleton = false`. -/
def setNonSingleton (m : PointerMap Name) (n : Name) : PointerMap Name :=
  m.modifyAt n fun d => { d with singleton := false }

end PointerMap

open PointerMap

/-- The loop of `updateDependentPointers` over `ptrData->from`, with the recursive
call as an argument. `p` names the record `ptrData`, whose flag is read again in
every round. -/
def updateLoop (recurse : PointerMap Name → Name → Option (PointerMap Name)) (p : Name) :
    List Name → PointerMap Name → Option (PointerMap Name)
  | [], m => some m
  | pointerName :: rest, m =>
      let m := m.touch pointerName
      match m.entry p, m.entry pointerName with
      | some ptrData, some otherData =>
          if ptrData.singleton ≠ otherData.singleton then
            (recurse (m.setNonSingleton pointerName) pointerName).bind
              (updateLoop recurse p rest)
          else updateLoop recurse p rest m
      | _, _ => updateLoop recurse p rest m

/-- `updateDependentPointers`. -/
def updateDependentPointers : Nat → PointerMap Name → Name → Option (PointerMap Name)
  | 0, _, _ => none
  | fuel + 1, m, p =>
      match m.entry p with
      | none => some m
      | some ptrData => updateLoop (updateDependentPointers fuel) p ptrData.from_ m

/-- The loop of `finalizePointers`. A key that the loop inserts has a null record,
which the loop would skip. -/
def finalizeLoop (fuel : Nat) : List Name → PointerMap Name → Option (PointerMap Name)
  | [], m => some m
  | n :: rest, m =>
      match m.entry n with
      | none => finalizeLoop fuel rest m
      | some _ => (updateDependentPointers fuel m n).bind (finalizeLoop fuel rest)

/-- `finalizePointers`. -/
def finalizePointers (fuel : Nat) (m : PointerMap Name) : Option (PointerMap Name) :=
  finalizeLoop fuel m.keys m

/-! ## The sets and the edges -/

/-- The names with a non-singleton record. -/
def nonSingletons (m : PointerMap Name) : Set Name :=
  {n | ∃ d, m.entry n = some d ∧ d.singleton = false}

/-- `q` is in `p`'s `from` list and has a record. -/
def FromEdge (m : PointerMap Name) (p q : Name) : Prop :=
  ∃ d, m.entry p = some d ∧ q ∈ d.from_ ∧ m.entry q ≠ none

@[simp] theorem touch_entry (m : PointerMap Name) (n : Name) : (m.touch n).entry = m.entry := rfl

theorem keys_subset_touch (m : PointerMap Name) (n : Name) : m.keys ⊆ (m.touch n).keys := by
  intro k hk
  unfold touch
  simp only
  split
  · exact hk
  · exact List.mem_append_left _ hk

theorem mem_touch_keys (m : PointerMap Name) (n : Name) : n ∈ (m.touch n).keys := by
  unfold touch
  simp only
  split
  · assumption
  · exact List.mem_append_right _ List.mem_cons_self

/-- Touching a key that is there does nothing. -/
theorem touch_of_mem {m : PointerMap Name} {n : Name} (h : n ∈ m.keys) : m.touch n = m := by
  unfold touch
  simp only [if_pos h]

theorem setNonSingleton_entry_self {m : PointerMap Name} {n : Name} {d : PointerData Name}
    (h : m.entry n = some d) :
    (m.setNonSingleton n).entry n = some { d with singleton := false } := by
  simp [setNonSingleton, modifyAt, h]

theorem setNonSingleton_entry_of_ne {m : PointerMap Name} {n k : Name} (h : k ≠ n) :
    (m.setNonSingleton n).entry k = m.entry k := by
  simp [setNonSingleton, modifyAt, h]

/-- Clearing a flag that is clear does nothing. -/
theorem setNonSingleton_of_mem {m : PointerMap Name} {n : Name} (h : n ∈ nonSingletons m) :
    m.setNonSingleton n = m := by
  obtain ⟨d, hd, hf⟩ := h
  have hentry : (m.setNonSingleton n).entry = m.entry := by
    funext k
    by_cases hk : k = n
    · rw [hk, setNonSingleton_entry_self hd, hd, ← hf]
    · exact setNonSingleton_entry_of_ne hk
  cases m
  simp only [setNonSingleton, modifyAt, PointerMap.mk.injEq, true_and] at hentry ⊢
  exact hentry

end Ironclad.Analysis
