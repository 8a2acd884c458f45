import Ironclad.Analysis.Recognised

/-!
# The visits record exactly what is recognised

`Reads R σ σ' E` says that going from `σ` to `σ'` the visitor recorded the events
`E`, no more and no less. It holds of every primitive change of the map, composes
along sequences of visits, and by induction on the depth holds of every visit with
the events that `Recognises` reads off the syntax.

The set `R` of the keys with a record is the one after all visits: the status of a
key is settled when it is first asked for or inserted (`Grows`), so every state on
the way agrees with it on the keys it has (`Settled`).
-/

namespace Ironclad.Analysis

open Ironclad.Logic

/-- The status of a key never changes again. -/
def Grows (m m' : PointerMap Key) : Prop :=
  ∀ k ∈ m.keys, k ∈ m'.keys ∧ (m'.entry k = none ↔ m.entry k = none)

/-- `R` is right about the keys of the map. -/
structure Settled (R : Key → Prop) (m : PointerMap Key) : Prop where
  record : ∀ k, m.entry k ≠ none → R k
  null : ∀ k ∈ m.keys, m.entry k = none → ¬R k

/-- The pairs of a record and an element of its `from` list. -/
def fromPairs (m : PointerMap Key) (dst src : Key) : Prop :=
  ∃ d, m.entry dst = some d ∧ src ∈ d.from_

/-- From `σ` to `σ'` exactly the events `E` were recorded. -/
structure Reads (R : Key → Prop) (σ σ' : VisitorState) (E : Set Event) : Prop where
  cur : σ'.currentFunction = σ.currentFunction
  grows : Grows σ.pointers σ'.pointers
  uses : ∀ k, k ∈ nonSingletons σ'.pointers ↔
    k ∈ nonSingletons σ.pointers ∨ (R k ∧ .use k ∈ E)
  flows : ∀ dst src, fromPairs σ'.pointers dst src ↔
    fromPairs σ.pointers dst src ∨ (R dst ∧ .flow dst src ∈ E)
  failed : σ'.failed = true ↔ σ.failed = true ∨ .fail ∈ E

theorem Grows.refl (m : PointerMap Key) : Grows m m := fun _ hk => ⟨hk, Iff.rfl⟩

theorem Grows.trans {m m' m'' : PointerMap Key} (h : Grows m m') (h' : Grows m' m'') :
    Grows m m'' := by
  intro k hk
  obtain ⟨hk', hiff⟩ := h k hk
  obtain ⟨hk'', hiff'⟩ := h' k hk'
  exact ⟨hk'', hiff'.trans hiff⟩

/-- What is right at the end is right on the way. -/
theorem Settled.of_grows {R : Key → Prop} {m m' : PointerMap Key} (hR : Settled R m')
    (h : Grows m m') : Settled R m := by
  constructor
  · intro k hk
    obtain ⟨-, hiff⟩ := h k (m.mem_keys k hk)
    exact hR.record k fun hc => hk (hiff.mp hc)
  · intro k hk hnone
    obtain ⟨hk', hiff⟩ := h k hk
    exact hR.null k hk' (hiff.mpr hnone)

/-- For a key that is there, having a record is what `R` says. -/
theorem Settled.hasRecord_iff {R : Key → Prop} {σ : VisitorState} (hR : Settled R σ.pointers)
    {k : Key} (hk : k ∈ σ.pointers.keys) : σ.hasRecord k = true ↔ R k := by
  unfold VisitorState.hasRecord
  rw [Option.isSome_iff_ne_none]
  constructor
  · exact hR.record k
  · intro hr hnone
    exact hR.null k hk hnone hr

/-! ## Composition -/

namespace Reads

variable {R : Key → Prop} {σ σ₁ σ' : VisitorState} {E E₁ E₂ : Set Event}

theorem refl (σ : VisitorState) : Reads R σ σ ∅ where
  cur := rfl
  grows := .refl _
  uses k := by simp
  flows dst src := by simp
  failed := by simp

theorem trans (h₁ : Reads R σ σ₁ E₁) (h₂ : Reads R σ₁ σ' E₂) : Reads R σ σ' (E₁ ∪ E₂) where
  cur := h₂.cur.trans h₁.cur
  grows := h₁.grows.trans h₂.grows
  uses k := by
    rw [h₂.uses, h₁.uses, Set.mem_union, or_assoc, and_or_left]
  flows dst src := by
    rw [h₂.flows, h₁.flows, Set.mem_union, or_assoc, and_or_left]
  failed := by
    rw [h₂.failed, h₁.failed, Set.mem_union, or_assoc]

/-- Events that are the same. -/
theorem congr (h : Reads R σ σ' E₁) (hE : ∀ e, e ∈ E₁ ↔ e ∈ E₂) : Reads R σ σ' E₂ :=
  Set.ext hE ▸ h

/-- A flow into a key without a record, or a use of it, records nothing. -/
theorem of_eq (hE : ∀ e ∈ E, (∃ k, e = .use k ∧ ¬R k) ∨ ∃ k s, e = .flow k s ∧ ¬R k) :
    Reads R σ σ E where
  cur := rfl
  grows := .refl _
  uses k := by
    refine ⟨.inl, fun h => h.elim id fun ⟨hr, he⟩ => ?_⟩
    rcases hE _ he with ⟨k', hk, hn⟩ | ⟨_, _, hk, -⟩
    · cases hk
      exact absurd hr hn
    · cases hk
  flows dst src := by
    refine ⟨.inl, fun h => h.elim id fun ⟨hr, he⟩ => ?_⟩
    rcases hE _ he with ⟨_, hk, -⟩ | ⟨_, _, hk, hn⟩
    · cases hk
    · cases hk
      exact absurd hr hn
  failed := by
    refine ⟨.inl, fun h => h.elim id fun he => ?_⟩
    rcases hE _ he with ⟨_, hk, -⟩ | ⟨_, _, hk, -⟩ <;> cases hk

end Reads

/-! ## The primitive changes -/

section

variable {R : Key → Prop} (σ : VisitorState)

theorem reads_ask (k : Key) : Reads R σ (σ.ask k) ∅ where
  cur := rfl
  grows := fun n hn => ⟨keys_subset_touch σ.pointers k hn, Iff.rfl⟩
  uses n := by simp [VisitorState.ask, nonSingletons]
  flows dst src := by simp [VisitorState.ask, fromPairs]
  failed := by simp [VisitorState.ask]

theorem mem_ask_keys (k : Key) : k ∈ (σ.ask k).pointers.keys := mem_touch_keys σ.pointers k

theorem reads_fail : Reads R σ σ.fail {.fail} where
  cur := rfl
  grows := .refl _
  uses k := by simp [VisitorState.fail]
  flows dst src := by simp [VisitorState.fail]
  failed := by simp [VisitorState.fail]

/-- Changing a record keeps every status. -/
theorem grows_modifyAt (m : PointerMap Key) (k : Key) (f : PointerData Key → PointerData Key) :
    Grows m (m.modifyAt k f) := by
  intro n hn
  refine ⟨hn, ?_⟩
  unfold PointerMap.modifyAt
  simp only
  split
  · exact Option.map_eq_none_iff
  · exact Iff.rfl

theorem modifyAt_entry_self {m : PointerMap Key} {k : Key} {f : PointerData Key → PointerData Key} :
    (m.modifyAt k f).entry k = (m.entry k).map f := by
  simp [PointerMap.modifyAt]

theorem modifyAt_entry_of_ne {m : PointerMap Key} {k n : Key}
    {f : PointerData Key → PointerData Key} (h : n ≠ k) :
    (m.modifyAt k f).entry n = m.entry n := by
  simp [PointerMap.modifyAt, h]

/-- Clearing the flag of a key that is there. -/
theorem reads_clear {σ : VisitorState} {k : Key} (hR : Settled R σ.pointers)
    (hk : k ∈ σ.pointers.keys) : Reads R σ (σ.clear k) {.use k} where
  cur := rfl
  grows := grows_modifyAt σ.pointers k _
  uses n := by
    by_cases hn : n = k
    · subst hn
      cases hd : σ.pointers.entry n with
      | none =>
          have hnr := hR.null n hk hd
          simp [VisitorState.clear, nonSingletons, PointerMap.setNonSingleton,
            modifyAt_entry_self, hd, hnr]
      | some d =>
          have hr := hR.record n (by simp [hd])
          simp [VisitorState.clear, nonSingletons, PointerMap.setNonSingleton,
            modifyAt_entry_self, hd, hr]
    · simp [VisitorState.clear, nonSingletons, setNonSingleton_entry_of_ne hn, hn]
  flows dst src := by
    unfold fromPairs
    by_cases hn : dst = k
    · subst hn
      cases hd : σ.pointers.entry dst with
      | none => simp [VisitorState.clear, PointerMap.setNonSingleton, modifyAt_entry_self, hd]
      | some d => simp [VisitorState.clear, PointerMap.setNonSingleton, modifyAt_entry_self, hd]
    · simp [VisitorState.clear, setNonSingleton_entry_of_ne hn]
  failed := by simp [VisitorState.clear]

/-- Pushing onto the `from` list of a key that is there. -/
theorem reads_pushFrom {σ : VisitorState} {k : Key} (hR : Settled R σ.pointers)
    (hk : k ∈ σ.pointers.keys) (other : Key) :
    Reads R σ (σ.pushFrom k other) {.flow k other} where
  cur := rfl
  grows := grows_modifyAt σ.pointers k _
  uses n := by
    unfold nonSingletons
    by_cases hn : n = k
    · subst hn
      cases hd : σ.pointers.entry n with
      | none => simp [VisitorState.pushFrom, modifyAt_entry_self, hd]
      | some d => simp [VisitorState.pushFrom, modifyAt_entry_self, hd]
    · simp [VisitorState.pushFrom, modifyAt_entry_of_ne hn]
  flows dst src := by
    unfold fromPairs
    by_cases hn : dst = k
    · subst hn
      cases hd : σ.pointers.entry dst with
      | none =>
          have hnr := hR.null dst hk hd
          simp [VisitorState.pushFrom, modifyAt_entry_self, hd, hnr]
      | some d =>
          have hr := hR.record dst (by simp [hd])
          simp [VisitorState.pushFrom, modifyAt_entry_self, hd, hr]
    · simp [VisitorState.pushFrom, modifyAt_entry_of_ne hn, hn]
  failed := by simp [VisitorState.pushFrom]

/-- The `to` lists play no part. -/
theorem reads_pushTo (k other : Key) : Reads R σ (σ.pushTo k other) ∅ where
  cur := rfl
  grows := grows_modifyAt σ.pointers k _
  uses n := by
    unfold nonSingletons
    by_cases hn : n = k
    · subst hn
      cases hd : σ.pointers.entry n with
      | none => simp [VisitorState.pushTo, modifyAt_entry_self, hd]
      | some d => simp [VisitorState.pushTo, modifyAt_entry_self, hd]
    · simp [VisitorState.pushTo, modifyAt_entry_of_ne hn]
  flows dst src := by
    unfold fromPairs
    by_cases hn : dst = k
    · subst hn
      cases hd : σ.pointers.entry dst with
      | none => simp [VisitorState.pushTo, modifyAt_entry_self, hd]
      | some d => simp [VisitorState.pushTo, modifyAt_entry_self, hd]
    · simp [VisitorState.pushTo, modifyAt_entry_of_ne hn]
  failed := by simp [VisitorState.pushTo]

end

/-! ## Inserting records -/

/-- The map gains keys only, all of them with a fresh record. -/
structure Inserts (m m' : PointerMap Key) : Prop where
  grows : Grows m m'
  uses : nonSingletons m' = nonSingletons m
  flows : ∀ dst src, fromPairs m' dst src ↔ fromPairs m dst src

theorem Inserts.refl (m : PointerMap Key) : Inserts m m := ⟨.refl m, rfl, fun _ _ => Iff.rfl⟩

theorem Inserts.trans {m m' m'' : PointerMap Key} (h : Inserts m m') (h' : Inserts m' m'') :
    Inserts m m'' :=
  ⟨h.grows.trans h'.grows, h'.uses.trans h.uses, fun d s => (h'.flows d s).trans (h.flows d s)⟩

theorem inserts_insert {m : PointerMap Key} {k : Key} (hk : k ∉ m.keys) :
    Inserts m (m.insert k) := by
  have hnone : m.entry k = none := by
    by_contra hne
    exact hk (m.mem_keys k hne)
  refine ⟨fun n hn => ⟨List.mem_append_left _ hn, ?_⟩, ?_, fun dst src => ?_⟩
  · have hne : n ≠ k := fun h => hk (h ▸ hn)
    simp [PointerMap.insert, hne]
  · ext n
    by_cases hn : n = k
    · subst hn
      simp [nonSingletons, PointerMap.insert, hnone, PointerData.new]
    · simp [nonSingletons, PointerMap.insert, hn]
  · by_cases hn : dst = k
    · subst hn
      simp [fromPairs, PointerMap.insert, hnone, PointerData.new]
    · simp [fromPairs, PointerMap.insert, hn]

theorem inserts_subscripts (d : NamedDecl) (type : QualType) (level : Nat) (m : PointerMap Key) :
    Inserts m (InsertSubscriptsInMap d type level m) := by
  induction type generalizing level m with
  | pointer pointee ih =>
      rw [InsertSubscriptsInMap]
      split
      · exact .refl m
      · rename_i hk
        exact (inserts_insert hk).trans (ih (level + 1) _)
  | array element ih =>
      rw [InsertSubscriptsInMap]
      split
      · exact .refl m
      · rename_i hk
        exact (inserts_insert hk).trans (ih (level + 1) _)
  | _ => exact .refl m

theorem inserts_insertInMap (d : NamedDecl) (m : PointerMap Key) :
    Inserts m (InsertInMap d m) := by
  unfold InsertInMap
  simp only
  split
  · exact .refl m
  · rename_i hk
    split
    · exact (inserts_insert hk).trans (inserts_subscripts d _ 1 _)
    · exact (inserts_insert hk).trans (inserts_subscripts d _ 1 _)
    · exact inserts_insert hk

/-- After `InsertInMap` the declaration's key is there. -/
theorem mem_insertInMap_keys (d : NamedDecl) (m : PointerMap Key) :
    convertToUniqueString d 0 ∈ (InsertInMap d m).keys := by
  unfold InsertInMap
  simp only
  split
  · assumption
  · have hself : convertToUniqueString d 0 ∈ (m.insert (convertToUniqueString d 0)).keys :=
      List.mem_append_right _ List.mem_cons_self
    split
    · exact ((inserts_subscripts d _ 1 _).grows _ hself).1
    · exact ((inserts_subscripts d _ 1 _).grows _ hself).1
    · exact hself

theorem reads_insertInMap {R : Key → Prop} (σ : VisitorState) (d : NamedDecl) :
    Reads R σ (σ.insertInMap d) ∅ := by
  have h := inserts_insertInMap d σ.pointers
  refine ⟨rfl, h.grows, fun k => ?_, fun dst src => ?_, by simp [VisitorState.insertInMap]⟩
  · show k ∈ nonSingletons (InsertInMap d σ.pointers) ↔ _
    simp [h.uses]
  · show fromPairs (InsertInMap d σ.pointers) dst src ↔ _
    simp [h.flows]

/-! ## Working backwards

`R` is known to be right at the end of all visits, and what is right at the end is
right on the way. -/

/-- `Reads`, provided that `R` is right at the end. -/
def Reading (R : Key → Prop) (σ σ' : VisitorState) (E : Set Event) : Prop :=
  Settled R σ'.pointers → Reads R σ σ' E

namespace Reading

variable {R : Key → Prop} {σ σ₁ σ' : VisitorState} {E E₁ E₂ : Set Event}

theorem trans (h₁ : Reading R σ σ₁ E₁) (h₂ : Reading R σ₁ σ' E₂) :
    Reading R σ σ' (E₁ ∪ E₂) := by
  intro hR
  have hlater := h₂ hR
  exact (h₁ (hR.of_grows hlater.grows)).trans hlater

theorem congr (h : Reading R σ σ' E₁) (hE : ∀ e, e ∈ E₁ ↔ e ∈ E₂) : Reading R σ σ' E₂ :=
  fun hR => (h hR).congr hE

theorem refl (σ : VisitorState) : Reading R σ σ ∅ := fun _ => .refl σ

end Reading

section

variable {R : Key → Prop} (σ : VisitorState)

theorem reading_clear {k : Key} (hk : k ∈ σ.pointers.keys) :
    Reading R σ (σ.clear k) {.use k} :=
  fun hR => reads_clear (hR.of_grows (grows_modifyAt σ.pointers k _)) hk

theorem reading_pushFrom {k : Key} (hk : k ∈ σ.pointers.keys) (other : Key) :
    Reading R σ (σ.pushFrom k other) {.flow k other} :=
  fun hR => reads_pushFrom (hR.of_grows (grows_modifyAt σ.pointers k _)) hk other

/-- Looking a key up and clearing its flag. -/
theorem reading_ask_clear (k : Key) : Reading R σ ((σ.ask k).clear k) {.use k} := by
  have h := Reading.trans (fun _ => reads_ask σ k)
    (reading_clear (R := R) (σ.ask k) (mem_ask_keys σ k))
  exact h.congr (by simp)

/-- Looking a key up and pushing onto its `from` list. -/
theorem reading_ask_pushFrom (k other : Key) :
    Reading R σ ((σ.ask k).pushFrom k other) {.flow k other} := by
  have h := Reading.trans (fun _ => reads_ask σ k)
    (reading_pushFrom (R := R) (σ.ask k) (mem_ask_keys σ k) other)
  exact h.congr (by simp)

end

/-! ## The checks for null -/

theorem modifyAt_of_none {m : PointerMap Key} {k : Key} {f : PointerData Key → PointerData Key}
    (h : m.entry k = none) : m.modifyAt k f = m := by
  have hentry : (m.modifyAt k f).entry = m.entry := by
    funext n
    by_cases hn : n = k
    · rw [hn, modifyAt_entry_self, h, Option.map_none]
    · exact modifyAt_entry_of_ne hn
  cases m
  simp only [PointerMap.modifyAt, PointerMap.mk.injEq, true_and] at hentry ⊢
  exact hentry

namespace VisitorState

variable {σ : VisitorState} {k : Key}

theorem entry_of_not_hasRecord (h : ¬σ.hasRecord k = true) : σ.pointers.entry k = none := by
  simpa [hasRecord] using h

/-- Without the check the change would do nothing. -/
theorem ite_clear : (if σ.hasRecord k then σ.clear k else σ) = σ.clear k := by
  split
  · rfl
  · rename_i h
    simp only [clear, PointerMap.setNonSingleton, modifyAt_of_none (entry_of_not_hasRecord h)]

theorem ite_pushFrom (other : Key) :
    (if σ.hasRecord k then σ.pushFrom k other else σ) = σ.pushFrom k other := by
  split
  · rfl
  · rename_i h
    simp only [pushFrom, modifyAt_of_none (entry_of_not_hasRecord h)]

theorem ite_pushTo (other : Key) :
    (if σ.hasRecord k then σ.pushTo k other else σ) = σ.pushTo k other := by
  split
  · rfl
  · rename_i h
    simp only [pushTo, modifyAt_of_none (entry_of_not_hasRecord h)]

end VisitorState

end Ironclad.Analysis
