import Ironclad.Analysis.ArrayUses
import Ironclad.Analysis.Operations
import Ironclad.Logic.Machine
import Ironclad.Translator.SafeTypes

/-!
# A record for every level

`InsertInMap` makes a record for a declaration and for the pointers and arrays nested in
its type, and `buildType` asks for the classification at the pointers among these levels.
`InsertInMap` skips a key that is there, and a look-up makes the key of a name that has no
record yet, so whether the levels of a declaration have records depends on what was done
before.

The runs are sequences of operations on the map, in any order. The visits of a
translation unit are such a run (`analyzeAll_is_run`).
-/

namespace Ironclad.Analysis

open Ironclad.Logic

/-! ## The levels -/

/-- The number of pointers and arrays that are nested in a type. -/
def QualType.depth : QualType → Nat
  | .pointer t => t.depth + 1
  | .array t => t.depth + 1
  | _ => 0

/-- The written type without its typedefs is the given one: the predicates
`isPointerType()` and `isArrayType()` of clang look through typedefs. -/
def Desugars : Translator.QualType → QualType → Prop
  | .typedef _ _ underlying, t => Desugars underlying t
  | .pointer _ pointee, .pointer t => Desugars pointee t
  | .array _ element _, .array t => Desugars element t
  | .other _ _ _, t => t.depth = 0
  | _, _ => False

/-- How the types of the variables are written. -/
structure Spelling where
  written : ValueDecl → Translator.QualType
  desugars : ∀ d, Desugars (written d) d.type

/-- A type written without typedefs. -/
def QualType.spelled : QualType → Translator.QualType
  | .pointer t => .pointer ⟨false, false, false⟩ t.spelled
  | .array t => .array ⟨false, false, false⟩ t.spelled .incomplete
  | _ => .other ⟨false, false, false⟩ "int".toList false

theorem QualType.desugars_spelled (t : QualType) : Desugars t.spelled t := by
  induction t with
  | pointer t ih => exact ih
  | array t ih => exact ih
  | _ => rfl

def Spelling.plain : Spelling := ⟨fun d => d.type.spelled, fun d => d.type.desugars_spelled⟩

/-- The levels of a declaration at which `buildType` asks. -/
def Spelling.levels (sp : Spelling) : NamedDecl → List Nat
  | .value d => (sp.written d).consultedLevels 0
  | .function _ => []

theorem lt_of_mem_consultedLevels {t : Translator.QualType} {t' : QualType} {level l : Nat}
    (ht : Desugars t t') (h : l ∈ t.consultedLevels level) : l < level + t'.depth := by
  induction t generalizing t' level with
  | pointer q pointee ih =>
      cases t' with
      | pointer u =>
          rw [Translator.QualType.consultedLevels, List.mem_cons] at h
          rw [QualType.depth]
          rcases h with rfl | h
          · omega
          · have := ih (show Desugars pointee u from ht) h
            omega
      | _ => exact absurd ht id
  | array q element bound ih =>
      cases t' with
      | array u =>
          rw [Translator.QualType.consultedLevels] at h
          rw [QualType.depth]
          have := ih (show Desugars element u from ht) h
          omega
      | _ => exact absurd ht id
  | _ => exact absurd h List.not_mem_nil

/-- `InsertInMap` makes a record for the name itself in any case. -/
def NamedDecl.levelCount (d : NamedDecl) : Nat := max 1 d.type.depth

theorem Spelling.lt_levelCount (sp : Spelling) {d : NamedDecl} {l : Nat}
    (h : l ∈ 0 :: sp.levels d) : l < d.levelCount := by
  unfold NamedDecl.levelCount
  rcases List.mem_cons.mp h with rfl | h
  · omega
  · cases d with
    | value d =>
        have := lt_of_mem_consultedLevels (sp.desugars d) h
        show l < max 1 d.type.depth
        omega
    | function f => exact absurd h List.not_mem_nil

/-! ## What `InsertInMap` inserts -/

theorem length_subSuffix (level : Nat) : (subSuffix level).length = 4 * level := by
  induction level with
  | zero => rfl
  | succ level ih =>
      rw [subSuffix, List.length_append, ih]
      simp only [List.length_cons, List.length_nil]
      omega

/-- The levels of a declaration have keys of their own. -/
theorem convertToUniqueString_inj {d : NamedDecl} {i j : Nat} :
    convertToUniqueString d i = convertToUniqueString d j ↔ i = j := by
  refine ⟨fun h => ?_, fun h => h ▸ rfl⟩
  have hlength := congrArg List.length h
  simp only [convertToUniqueString, List.length_append, length_subSuffix] at hlength
  omega

theorem insert_entry (m : PointerMap Key) (k n : Key) :
    (m.insert k).entry n ≠ none ↔ m.entry n ≠ none ∨ n = k := by
  unfold PointerMap.insert
  simp only
  by_cases h : n = k
  · simp [h]
  · simp [h]

theorem mem_insert_keys {m : PointerMap Key} {k n : Key} :
    n ∈ (m.insert k).keys ↔ n ∈ m.keys ∨ n = k := by
  simp [PointerMap.insert]

/-- A key of a deeper level is not affected by the insertion of `level`. -/
theorem not_mem_insert_level {d : NamedDecl} {m : PointerMap Key} {level j : Nat}
    (h : level < j) : convertToUniqueString d j ∉ (m.insert (convertToUniqueString d level)).keys ↔
      convertToUniqueString d j ∉ m.keys := by
  rw [mem_insert_keys, convertToUniqueString_inj]
  have : j ≠ level := by omega
  simp [this]

/-- One level is inserted, if it is not there, and then the deeper ones. -/
theorem insertLevel_entry {d : NamedDecl} {level n : Nat} {m m' : PointerMap Key} {k : Key}
    (hfree : convertToUniqueString d level ∉ m.keys)
    (h : m'.entry k ≠ none ↔ (m.insert (convertToUniqueString d level)).entry k ≠ none ∨
      ∃ l, level + 1 ≤ l ∧ l < level + 1 + n ∧ k = convertToUniqueString d l ∧
        ∀ j, level + 1 ≤ j → j ≤ l →
          convertToUniqueString d j ∉ (m.insert (convertToUniqueString d level)).keys) :
    m'.entry k ≠ none ↔ m.entry k ≠ none ∨
      ∃ l, level ≤ l ∧ l < level + (n + 1) ∧ k = convertToUniqueString d l ∧
        ∀ j, level ≤ j → j ≤ l → convertToUniqueString d j ∉ m.keys := by
  rw [h, insert_entry, or_assoc]
  refine or_congr_right ⟨?_, ?_⟩
  · rintro (hk | ⟨l, hl, hlt, hk, hdeeper⟩)
    · refine ⟨level, le_rfl, by omega, hk, fun j hj hj' => ?_⟩
      rw [le_antisymm hj' hj]
      exact hfree
    · refine ⟨l, by omega, by omega, hk, fun j hj hj' => ?_⟩
      rcases hj.eq_or_lt with rfl | hlt'
      · exact hfree
      · exact (not_mem_insert_level hlt').mp (hdeeper j hlt' hj')
  · rintro ⟨l, hl, hlt, hk, hall⟩
    rcases hl.eq_or_lt with rfl | hlt'
    · exact .inl hk
    · refine .inr ⟨l, hlt', by omega, hk, fun j hj hj' => ?_⟩
      exact (not_mem_insert_level hj).mpr (hall j (by omega) hj')

/-- Without a further level to insert the map stays as it is. -/
theorem insertLevel_stop {d : NamedDecl} {level n : Nat} {m : PointerMap Key} {k : Key}
    (h : convertToUniqueString d level ∈ m.keys ∨ n = 0) : m.entry k ≠ none ↔ m.entry k ≠ none ∨
      ∃ l, level ≤ l ∧ l < level + n ∧ k = convertToUniqueString d l ∧
        ∀ j, level ≤ j → j ≤ l → convertToUniqueString d j ∉ m.keys := by
  refine ⟨.inl, fun hk => hk.elim id ?_⟩
  rintro ⟨l, hl, hlt, -, hall⟩
  rcases h with hmem | hzero
  · exact absurd hmem (hall level le_rfl hl)
  · omega

/-- Levels are inserted from `level` on, up to the first one that is there. -/
theorem insertSubscripts_entry (d : NamedDecl) (t : QualType) (level : Nat) (m : PointerMap Key)
    (k : Key) : (InsertSubscriptsInMap d t level m).entry k ≠ none ↔ m.entry k ≠ none ∨
      ∃ l, level ≤ l ∧ l < level + t.depth ∧ k = convertToUniqueString d l ∧
        ∀ j, level ≤ j → j ≤ l → convertToUniqueString d j ∉ m.keys := by
  induction t generalizing level m with
  | pointer pointee ih =>
      rw [InsertSubscriptsInMap]
      split
      · exact insertLevel_stop (.inl ‹_›)
      · exact insertLevel_entry ‹_› (ih (level + 1) _)
  | array element ih =>
      rw [InsertSubscriptsInMap]
      split
      · exact insertLevel_stop (.inl ‹_›)
      · exact insertLevel_entry ‹_› (ih (level + 1) _)
  | _ => exact insertLevel_stop (.inr rfl)

/-- **`InsertInMap` makes a record for the levels up to the first one that is there.** -/
theorem insertInMap_entry (d : NamedDecl) (m : PointerMap Key) (k : Key) :
    (InsertInMap d m).entry k ≠ none ↔ m.entry k ≠ none ∨
      ∃ l < d.levelCount, k = convertToUniqueString d l ∧
        ∀ j ≤ l, convertToUniqueString d j ∉ m.keys := by
  have hzero : (m.entry k ≠ none ∨ ∃ l < d.levelCount, k = convertToUniqueString d l ∧
      ∀ j ≤ l, convertToUniqueString d j ∉ m.keys) ↔ m.entry k ≠ none ∨
        ∃ l, 0 ≤ l ∧ l < 0 + d.levelCount ∧ k = convertToUniqueString d l ∧
          ∀ j, 0 ≤ j → j ≤ l → convertToUniqueString d j ∉ m.keys := by
    simp only [Nat.zero_le, true_and, Nat.zero_add, forall_const]
  rw [hzero]
  unfold InsertInMap NamedDecl.levelCount
  simp only
  split
  · exact insertLevel_stop (.inl ‹_›)
  · rename_i hfree
    split
    · rename_i pointee htype
      rw [htype, QualType.depth, max_eq_right (by omega)]
      exact insertLevel_entry hfree (insertSubscripts_entry d pointee 1 _ k)
    · rename_i element htype
      rw [htype, QualType.depth, max_eq_right (by omega)]
      exact insertLevel_entry hfree (insertSubscripts_entry d element 1 _ k)
    · rename_i hpointer harray
      have hdepth : d.type.depth = 0 := by
        cases htype : d.type with
        | pointer t => exact absurd htype (hpointer t)
        | array t => exact absurd htype (harray t)
        | _ => rfl
      rw [hdepth, max_eq_left (by omega)]
      exact insertLevel_entry hfree (insertLevel_stop (.inr rfl))

/-! ## Runs -/

/-- The declarations that `InsertInMap` is called for. -/
def MapOp.inserts : MapOp → List NamedDecl
  | .insert d => [d]
  | _ => []

/-- The state of the visitor, and the declarations that `InsertInMap` was called for. -/
structure Recording where
  state : VisitorState
  inserted : List NamedDecl

/-- Operations on the map, in any order. -/
def mapMachine : Machine Recording MapOp where
  init := ⟨.empty, []⟩
  step s op := some ⟨op.apply s.state, s.inserted ++ op.inserts⟩

section

variable (sp : Spelling)

/-- The record that `InsertInMap` returned, and those that `buildType` asks for, are not
null. -/
structure Usable (m : PointerMap Key) (d : NamedDecl) : Prop where
  returned : m.entry (convertToUniqueString d 0) ≠ none
  consulted : ∀ l ∈ sp.levels d, m.entry (convertToUniqueString d l) ≠ none

def AllUsable (s : Recording) : Prop := ∀ d ∈ s.inserted, Usable sp s.state.pointers d

/-- The level has a record, or neither it nor a level above it is a key. -/
def GetsRecord (m : PointerMap Key) (d : NamedDecl) (l : Nat) : Prop :=
  m.entry (convertToUniqueString d l) ≠ none ∨ ∀ j ≤ l, convertToUniqueString d j ∉ m.keys

/-- In front of `InsertInMap(d)`, every level that will be asked for, and the first,
gets a record. -/
def InsertsRecords (s : Recording) : MapOp → Prop
  | .insert d => ∀ l ∈ 0 :: sp.levels d, GetsRecord s.state.pointers d l
  | _ => True

theorem usable_iff {m : PointerMap Key} {d : NamedDecl} : Usable sp m d ↔
    ∀ l ∈ 0 :: sp.levels d, m.entry (convertToUniqueString d l) ≠ none := by
  rw [List.forall_mem_cons]
  exact ⟨fun h => ⟨h.returned, h.consulted⟩, fun h => ⟨h.1, h.2⟩⟩

/-- Records stay. -/
theorem Usable.apply {σ : VisitorState} {d : NamedDecl} (h : Usable sp σ.pointers d) (op : MapOp) :
    Usable sp (op.apply σ).pointers d := by
  rw [usable_iff] at h ⊢
  intro l hl hnone
  have hkey := σ.pointers.mem_keys _ (h l hl)
  exact h l hl ((grows_apply op σ _ hkey).2.mp hnone)

/-- **One call.** Afterwards the records are usable iff every level got one. -/
theorem usable_insertInMap_iff (m : PointerMap Key) (d : NamedDecl) :
    Usable sp (InsertInMap d m) d ↔ ∀ l ∈ 0 :: sp.levels d, GetsRecord m d l := by
  rw [usable_iff]
  refine forall₂_congr fun l hl => ?_
  rw [insertInMap_entry]
  refine or_congr_right ⟨?_, fun h => ⟨l, sp.lt_levelCount hl, rfl, h⟩⟩
  rintro ⟨i, -, hi, hall⟩
  rw [convertToUniqueString_inj.mp hi]
  exact hall

/-- **Every record is usable, in whatever order the map is used, iff at every
`InsertInMap` the levels of the declaration have a record or are new together with the
levels above them.** -/
theorem insertInMap_usable_iff (ops : List MapOp) :
    mapMachine.Visits ops (AllUsable sp) ↔ mapMachine.StepsMeet ops (InsertsRecords sp) := by
  refine Machine.visits_iff_stepsMeet (AllUsable sp) (fun d hd => absurd hd List.not_mem_nil)
    (fun _ h => h) ?_ ?_ ops
  · intro s op t hs hop hstep
    cases hstep
    intro d hd
    rcases List.mem_append.mp hd with hd | hd
    · exact (hs d hd).apply sp op
    · cases op with
      | insert d' =>
          rw [List.mem_singleton.mp hd]
          exact (usable_insertInMap_iff sp s.state.pointers d').mpr hop
      | _ => exact absurd hd List.not_mem_nil
  · intro s op t _ hstep ht
    cases hstep
    cases op with
    | insert d =>
        exact (usable_insertInMap_iff sp s.state.pointers d).mp
          (ht d (List.mem_append_right _ List.mem_cons_self))
    | _ => trivial

end

theorem exec_eq (ops : List MapOp) (s : Recording) :
    mapMachine.exec s ops =
      some ⟨perform ops s.state, s.inserted ++ ops.flatMap MapOp.inserts⟩ := by
  induction ops generalizing s with
  | nil => simp
  | cons op ops ih =>
      rw [Machine.exec_cons]
      show mapMachine.exec ⟨op.apply s.state, s.inserted ++ op.inserts⟩ ops = _
      rw [ih, perform_cons, List.flatMap_cons, List.append_assoc]

/-- **The visits of a translation unit are a run.** -/
theorem analyzeAll_is_run {VisitStmt : StmtVisitor → StmtVisitor} (hV : VisitsChildren VisitStmt)
    {fuel : Nat} {unit : TranslationUnit} {σ : VisitorState}
    (h : analyzeAll VisitStmt fuel unit = some σ) :
    mapMachine.run (unitOps σ.hasRecord fuel unit) =
      some ⟨σ, (unitOps σ.hasRecord fuel unit).flatMap MapOp.inserts⟩ := by
  rw [Machine.run, exec_eq]
  show some (Recording.mk (perform (unitOps σ.hasRecord fuel unit) .empty) _) = _
  rw [← analyzeAll_eq_perform hV h]
  rfl

/-! ## A record that is null -/

/-- The parameters of `void f(int *&r, int *q)`, and a variable in a block inside of `f`. -/
def referenceParam : ValueDecl := ⟨[['f']], ['r'], .reference (.pointer .other)⟩
def pointerParam : ValueDecl := ⟨[['f']], ['q'], .pointer .other⟩
def shadowing : ValueDecl := ⟨[['f']], ['r'], .pointer .other⟩

/-- `void f(int *&r, int *q) { *r; { int *r = q; } }` -/
def referenceUnit : TranslationUnit :=
  [.function ⟨[], ['f'], [referenceParam, pointerParam], .other⟩
    (some (.compound [.unary .deref (.declRef (.value referenceParam)),
      .compound [.declStmt [(shadowing, some (.declRef (.value pointerParam)))]]])) false]

/-- The look-up of the reference leaves a null record for the variable of the same name,
which `HandleInit` dereferences. -/
theorem reference_not_usable :
    (∃ σ, analyzeAll visitChildren 5 referenceUnit = some σ ∧ σ.failed = true) ∧
      ¬∀ (sp : Spelling) (ops : List MapOp), mapMachine.Visits ops (AllUsable sp) := by
  obtain ⟨σ, hσ⟩ : ∃ σ, analyzeAll visitChildren 5 referenceUnit = some σ := ⟨_, rfl⟩
  have hnull : σ.pointers.entry (convertToUniqueString (.value shadowing) 0) = none := by
    cases hσ
    decide
  have hfailed : σ.failed = true := by
    cases hσ
    decide
  refine ⟨⟨σ, hσ, hfailed⟩, fun hall => ?_⟩
  have husable := (hall .plain _).last (analyzeAll_is_run visitChildren_visitsChildren hσ)
  have hmem : NamedDecl.value shadowing ∈
      (unitOps σ.hasRecord 5 referenceUnit).flatMap MapOp.inserts := by
    cases hσ
    decide
  exact (husable _ hmem).returned hnull

end Ironclad.Analysis
