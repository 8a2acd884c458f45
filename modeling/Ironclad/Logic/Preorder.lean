import Mathlib.Logic.Relation
import Mathlib.Tactic.TypeStar

/-!
# Traversals in preorder

A recursive visitor calls its handler on a node and then traverses the children in order.
`traverse_eq` says that this is the handler run along the preorder list; the lemmas after
it are for handlers that append to a log and may fail.
-/

namespace Ironclad.Logic

/-- A type whose elements are trees. -/
class NodeTree (α : Type*) where
  children : α → List α
  wf : WellFounded fun c a => c ∈ children a

namespace NodeTree

variable {α β : Type*} [NodeTree α]

instance : WellFoundedRelation α := ⟨fun c a => c ∈ children a, wf⟩

/-- `b` is `a` or below it. -/
def Below (a b : α) : Prop := Relation.ReflTransGen (fun a b => b ∈ children a) a b

def preorder (a : α) : List α :=
  a :: (children a).attach.flatMap fun c => preorder c.1
termination_by a
decreasing_by exact c.2

def traverse (visit : α → β → Option β) (a : α) (s : β) : Option β :=
  (visit a s).bind fun s => (children a).attach.foldlM (fun s c => traverse visit c.1 s) s
termination_by a
decreasing_by exact c.2

theorem preorder_eq (a : α) : preorder a = a :: (children a).flatMap preorder := by
  rw [preorder, List.flatMap_subtype]
  · rw [List.unattach_attach]
  · exact fun _ _ => rfl

theorem traverse_eq_bind (visit : α → β → Option β) (a : α) (s : β) :
    traverse visit a s =
      (visit a s).bind fun s => (children a).foldlM (fun s c => traverse visit c s) s := by
  rw [traverse]
  congr 1
  funext s
  rw [List.foldlM_subtype]
  · rw [List.unattach_attach]
  · exact fun _ _ _ => rfl

theorem mem_preorder {a b : α} : b ∈ preorder a ↔ Below a b := by
  constructor
  · intro h
    induction a using preorder.induct with
    | case1 a ih =>
        rw [preorder_eq, List.mem_cons, List.mem_flatMap] at h
        rcases h with rfl | ⟨c, hc, hb⟩
        · exact .refl
        · exact .head hc (ih ⟨c, hc⟩ hb)
  · intro h
    induction h using Relation.ReflTransGen.head_induction_on with
    | refl =>
        rw [preorder_eq]
        exact List.mem_cons_self
    | head hc _ ih =>
        rw [preorder_eq]
        exact List.mem_cons_of_mem _ (List.mem_flatMap.mpr ⟨_, hc, ih⟩)

/-- The traversal is the handler run along the preorder list. -/
theorem traverse_eq (visit : α → β → Option β) (a : α) (s : β) :
    traverse visit a s = (preorder a).foldlM (fun s b => visit b s) s := by
  -- the children, one after the other
  have hforest : ∀ (l : List α), (∀ c ∈ l, ∀ s, traverse visit c s =
      (preorder c).foldlM (fun s b => visit b s) s) → ∀ s,
      l.foldlM (fun s c => traverse visit c s) s =
        (l.flatMap preorder).foldlM (fun s b => visit b s) s := by
    intro l
    induction l with
    | nil => exact fun _ _ => rfl
    | cons c l ih =>
        intro h s
        rw [List.flatMap_cons, List.foldlM_append, List.foldlM_cons, h c List.mem_cons_self]
        congr 1
        funext s
        exact ih (fun d hd => h d (List.mem_cons_of_mem _ hd)) s
  induction a using preorder.induct generalizing s with
  | case1 a ih =>
      rw [traverse_eq_bind, preorder_eq, List.foldlM_cons]
      show _ = (visit a s).bind _
      congr 1
      funext s
      exact hforest _ (fun c hc => ih ⟨c, hc⟩) s

/-! ## Handlers that append to a log -/

section

variable {W : Type*}

/-- The handler appends what a node gives rise to, and fails if that is undefined. -/
def appending (emit : α → Option (List W)) (a : α) (log : List W) : Option (List W) :=
  (emit a).map (log ++ ·)

variable {emit : α → Option (List W)}

omit [NodeTree α] in
theorem prefix_of_foldlM {l : List α} {log log' : List W}
    (h : l.foldlM (fun s b => appending emit b s) log = some log') : log <+: log' := by
  induction l generalizing log with
  | nil =>
      cases h
      exact List.prefix_refl _
  | cons b l ih =>
      obtain ⟨log₁, h1, h2⟩ := Option.bind_eq_some_iff.mp h
      obtain ⟨ws, -, rfl⟩ := Option.map_eq_some_iff.mp h1
      exact (List.prefix_append _ _).trans (ih h2)

omit [NodeTree α] in
theorem foldlM_eq_self_iff {l : List α} {log : List W} :
    l.foldlM (fun s b => appending emit b s) log = some log ↔ ∀ b ∈ l, emit b = some [] := by
  induction l with
  | nil => exact ⟨fun _ _ hb => absurd hb List.not_mem_nil, fun _ => rfl⟩
  | cons b l ih =>
      rw [List.forall_mem_cons, ← ih]
      constructor
      · intro h
        obtain ⟨log₁, h1, h2⟩ := Option.bind_eq_some_iff.mp h
        obtain ⟨ws, hws, rfl⟩ := Option.map_eq_some_iff.mp h1
        -- the log only grows, so that it came back means that nothing was appended
        have hlen := (prefix_of_foldlM h2).length_le
        rw [List.length_append] at hlen
        obtain rfl : ws = [] := List.length_eq_zero_iff.mp (by omega)
        rw [List.append_nil] at h2
        exact ⟨hws, h2⟩
      · rintro ⟨hb, hl⟩
        rw [List.foldlM_cons]
        refine Option.bind_eq_some_iff.mpr ⟨log, ?_, hl⟩
        rw [appending, hb, Option.map_some, List.append_nil]

omit [NodeTree α] in
theorem foldlM_eq_none_iff {l : List α} {log : List W} :
    l.foldlM (fun s b => appending emit b s) log = none ↔ ∃ b ∈ l, emit b = none := by
  induction l generalizing log with
  | nil => simp
  | cons b l ih =>
      rw [List.foldlM_cons]
      cases hb : emit b with
      | none => simp [appending, hb]
      | some ws =>
          have hstep : appending emit b log = some (log ++ ws) := by rw [appending, hb]; rfl
          rw [hstep]
          refine ih.trans ⟨fun ⟨c, hc, h⟩ => ⟨c, List.mem_cons_of_mem _ hc, h⟩, ?_⟩
          rintro ⟨c, hc, h⟩
          rcases List.mem_cons.mp hc with rfl | hc
          · rw [hb] at h
            cases h
          · exact ⟨c, hc, h⟩

/-- **A traversal leaves the empty log iff every node gives rise to nothing.** -/
theorem traverse_eq_nil_iff {a : α} :
    traverse (appending emit) a [] = some [] ↔ ∀ b, Below a b → emit b = some [] := by
  rw [traverse_eq, foldlM_eq_self_iff]
  exact forall_congr' fun b => by rw [mem_preorder]

/-- The same in terms of the children. -/
theorem traverse_eq_nil_iff_children {a : α} :
    traverse (appending emit) a [] = some [] ↔
      emit a = some [] ∧ ∀ c ∈ children a, traverse (appending emit) c [] = some [] := by
  simp only [traverse_eq_nil_iff]
  constructor
  · intro h
    exact ⟨h a .refl, fun c hc b hb => h b (.head hc hb)⟩
  · rintro ⟨ha, hc⟩ b hb
    rcases Relation.ReflTransGen.cases_head hb with rfl | ⟨c, hmem, hb⟩
    · exact ha
    · exact hc c hmem b hb

/-- A traversal fails iff some node does. -/
theorem traverse_eq_none_iff {a : α} :
    traverse (appending emit) a [] = none ↔ ∃ b, Below a b ∧ emit b = none := by
  rw [traverse_eq, foldlM_eq_none_iff]
  exact exists_congr fun b => by rw [mem_preorder]

/-- **A traversal leaves a log with an entry iff no node fails and some node gives rise to
one.** -/
theorem traverse_eq_cons_iff {a : α} :
    (∃ w ws, traverse (appending emit) a [] = some (w :: ws)) ↔
      (∀ b, Below a b → emit b ≠ none) ∧
        ∃ b, Below a b ∧ ∃ w ws, emit b = some (w :: ws) := by
  constructor
  · rintro ⟨w, ws, h⟩
    constructor
    · intro b hb hnone
      rw [traverse_eq_none_iff.mpr ⟨b, hb, hnone⟩] at h
      cases h
    · -- without an entry anywhere the log would have stayed empty
      refine Classical.byContradiction fun hno => ?_
      have hsilent : traverse (appending emit) a [] = some [] := by
        refine traverse_eq_nil_iff.mpr fun b hb => ?_
        cases hemit : emit b with
        | none =>
            rw [traverse_eq_none_iff.mpr ⟨b, hb, hemit⟩] at h
            cases h
        | some l => cases l with
          | nil => rfl
          | cons v vs => exact absurd ⟨b, hb, v, vs, hemit⟩ hno
      rw [hsilent] at h
      cases h
  · rintro ⟨hsome, b, hb, w, ws, hemit⟩
    cases htr : traverse (appending emit) a [] with
    | none =>
        obtain ⟨c, hc, hnone⟩ := traverse_eq_none_iff.mp htr
        exact absurd hnone (hsome c hc)
    | some l => cases l with
      | cons v vs => exact ⟨v, vs, rfl⟩
      | nil =>
          have := traverse_eq_nil_iff.mp htr b hb
          rw [hemit] at this
          cases this

end

end NodeTree

end Ironclad.Logic
