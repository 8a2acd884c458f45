import Ironclad.Analysis.Records

/-!
# What the keys are made of

Every key in a map that the analysis builds, and every name in a `from` list, is made by
`convertToUniqueString` from a declaration (`runAnalysis_keysDeclared`). Such a key has the
characters of the declared names, and of `::` and `_sub`. That a declared name is printed on one
line is the only thing assumed of it.
-/

namespace Ironclad.Analysis

/-- The texts that name a declaration: its own, and those of the contexts it is in. -/
def NamedDecl.names (d : NamedDecl) : List Str := d.name :: d.context

/-- The names are printed on one line. -/
def NamedDecl.OneLine (d : NamedDecl) : Prop := ∀ n ∈ d.names, '\n' ∉ n

/-- A key of a declaration at a level. -/
def IsKey (k : Key) : Prop := ∃ d : NamedDecl, d.OneLine ∧ ∃ level, k = convertToUniqueString d level

/-- The keys of the records and of the `from` lists are keys of declarations. -/
structure KeysDeclared (m : PointerMap Key) : Prop where
  records : ∀ k, m.entry k ≠ none → IsKey k
  from_ : ∀ dst src, fromPairs m dst src → IsKey src

/-- A map that the analysis can build. -/
structure AnalysisMap where
  map : PointerMap Key
  declared : KeysDeclared map

/-! ## The characters of a key -/

theorem mem_subSuffix {level : Nat} {c : Char} (h : c ∈ subSuffix level) :
    c ∈ ['_', 's', 'u', 'b'] := by
  induction level with
  | zero => cases h
  | succ level ih =>
      rw [subSuffix, List.mem_append] at h
      exact h.elim ih id

theorem mem_foldl_contexts {context : List Str} {declString : Str} {c : Char} (hc : c ≠ ':') :
    c ∈ context.foldl (fun declString parent => parent ++ [':', ':'] ++ declString) declString ↔
      (∃ n ∈ context, c ∈ n) ∨ c ∈ declString := by
  induction context generalizing declString with
  | nil => simp
  | cons parent context ih =>
      rw [List.foldl_cons, ih, List.append_assoc]
      simp only [List.mem_append, List.mem_cons, List.not_mem_nil, or_false, hc, false_or,
        exists_eq_or_imp]
      exact or_left_comm.trans or_assoc.symm

/-- Apart from `::` and `_sub` a key has the characters of the names. -/
theorem mem_convertToUniqueString_iff {d : NamedDecl} {level : Nat} {c : Char}
    (hc : c ∉ [':', '_', 's', 'u', 'b']) :
    c ∈ convertToUniqueString d level ↔ ∃ n ∈ d.names, c ∈ n := by
  rw [List.mem_cons, not_or] at hc
  have hsuffix : c ∉ subSuffix level := fun h => hc.2 (mem_subSuffix h)
  unfold convertToUniqueString NamedDecl.names
  simp only [List.mem_append, mem_foldl_contexts hc.1, List.not_mem_nil, or_false, hsuffix,
    List.mem_cons, exists_eq_or_imp]
  exact or_comm

/-- A key is printed on one line. -/
theorem IsKey.oneLine {k : Key} (h : IsKey k) : '\n' ∉ k := by
  obtain ⟨d, hd, level, rfl⟩ := h
  rw [mem_convertToUniqueString_iff (by decide)]
  rintro ⟨n, hn, hmem⟩
  exact hd n hn hmem

theorem NamedDecl.OneLine.isKey {d : NamedDecl} (h : d.OneLine) (level : Nat) :
    IsKey (convertToUniqueString d level) :=
  ⟨d, h, level, rfl⟩

/-! ## Operations on the map -/

/-- The operation puts keys of declarations into the map. -/
def MapOp.Declared : MapOp → Prop
  | .insert d => d.OneLine
  | .pushFrom _ other => IsKey other
  | _ => True

theorem fromPairs_modifyAt {m : PointerMap Key} {k dst src : Key} {others : List Key}
    {f : PointerData Key → PointerData Key} (hf : ∀ d, (f d).from_ = d.from_ ++ others)
    (h : fromPairs (m.modifyAt k f) dst src) : fromPairs m dst src ∨ src ∈ others := by
  obtain ⟨d, hd, hsrc⟩ := h
  by_cases hk : dst = k
  · rw [hk, modifyAt_entry_self, Option.map_eq_some_iff] at hd
    obtain ⟨d₀, hd₀, rfl⟩ := hd
    rw [hf, List.mem_append] at hsrc
    exact hsrc.imp_left fun hmem => ⟨d₀, hk ▸ hd₀, hmem⟩
  · rw [modifyAt_entry_of_ne hk] at hd
    exact .inl ⟨d, hd, hsrc⟩

theorem KeysDeclared.empty : KeysDeclared PointerMap.empty where
  records _ h := absurd rfl h
  from_ := by
    rintro _ _ ⟨_, hd, -⟩
    cases hd

theorem KeysDeclared.modifyAt {m : PointerMap Key} (h : KeysDeclared m) (k : Key)
    {others : List Key} {f : PointerData Key → PointerData Key}
    (hf : ∀ d, (f d).from_ = d.from_ ++ others) (hothers : ∀ o ∈ others, IsKey o) :
    KeysDeclared (m.modifyAt k f) where
  records n hn := by
    refine h.records n fun hnone => hn ?_
    by_cases hk : n = k
    · rw [hk, modifyAt_entry_self, ← hk, hnone, Option.map_none]
    · rw [modifyAt_entry_of_ne hk, hnone]
  from_ dst src hsrc := (fromPairs_modifyAt hf hsrc).elim (h.from_ dst src) (hothers src)

theorem KeysDeclared.insertInMap {m : PointerMap Key} (h : KeysDeclared m) {d : NamedDecl}
    (hd : d.OneLine) : KeysDeclared (InsertInMap d m) where
  records k hk := by
    rcases (insertInMap_entry d m k).mp hk with hold | ⟨level, -, rfl, -⟩
    · exact h.records k hold
    · exact hd.isKey level
  from_ dst src hsrc := h.from_ dst src (((inserts_insertInMap d m).flows dst src).mp hsrc)

theorem KeysDeclared.apply {σ : VisitorState} (h : KeysDeclared σ.pointers) {op : MapOp}
    (hop : op.Declared) : KeysDeclared (op.apply σ).pointers := by
  cases op with
  | lookUp key => exact ⟨h.records, h.from_⟩
  | insert d => exact h.insertInMap hop
  | clear key => exact h.modifyAt key (fun _ => (List.append_nil _).symm) (by simp)
  | pushFrom key other =>
      refine h.modifyAt key (fun _ => rfl) fun o ho => ?_
      rw [List.mem_singleton.mp ho]
      exact hop
  | pushTo key other => exact h.modifyAt key (fun _ => (List.append_nil _).symm) (by simp)
  | fail => exact h
  | enter f => exact h

/-- **Operations that put in keys of declarations, in any order.** -/
theorem KeysDeclared.perform {ops : List MapOp} {σ : VisitorState} (h : KeysDeclared σ.pointers)
    (hops : ∀ op ∈ ops, op.Declared) : KeysDeclared (perform ops σ).pointers := by
  induction ops generalizing σ with
  | nil => exact h
  | cons op ops ih =>
      rw [List.forall_mem_cons] at hops
      exact ih (h.apply hops.1) hops.2

/-- The propagation changes flags only. -/
theorem KeysDeclared.evolves {m m' : PointerMap Key} (h : KeysDeclared m) (he : Evolves m m') :
    KeysDeclared m' where
  records k hk := h.records k fun hnone => hk ((entry_eq_none_of_links (he.links k)).mpr hnone)
  from_ := by
    rintro dst src ⟨d, hd, hsrc⟩
    obtain ⟨d₀, hd₀, hfrom⟩ := from_of_links (he.links dst).symm hd
    exact h.from_ dst src ⟨d₀, hd₀, hfrom ▸ hsrc⟩

/-! ## The declarations of a translation unit -/

/-- A function is printed on one line with its parameters. -/
def NamedDecl.Printable : NamedDecl → Prop
  | .value d => (NamedDecl.value d).OneLine
  | .function f => (NamedDecl.function f).OneLine ∧ ∀ p ∈ f.params, (NamedDecl.value p).OneLine

/-- The declarations that a node names itself. -/
def Stmt.named : Stmt → List NamedDecl
  | .declRef d => [d]
  | .member _ d => [d]
  | .declStmt group => group.map fun v => .value v.1
  | _ => []

/-- Every declaration that is named in the statement is printable. -/
def Stmt.Printable (s : Stmt) : Prop := ∀ t, s.Contains t → ∀ d ∈ t.named, d.Printable

def TopDecl.Printable : TopDecl → Prop
  | .var d init => (Stmt.declStmt [(d, init)]).Printable
  | .function f body _ => (NamedDecl.function f).Printable ∧ ∀ s, body = some s → s.Printable
  | .record fields => ∀ d ∈ fields, (NamedDecl.value d).OneLine

theorem NamedDecl.Printable.oneLine {d : NamedDecl} (h : d.Printable) : d.OneLine := by
  cases d with
  | value d => exact h
  | function f => exact h.1

namespace Stmt.Printable

variable {s c : Stmt} {d : NamedDecl}

theorem self (h : s.Printable) (hd : d ∈ s.named) : d.Printable :=
  h s Relation.ReflTransGen.refl d hd

theorem child (h : s.Printable) (hc : c ∈ s.children) : c.Printable :=
  fun t ht => h t (Relation.ReflTransGen.head hc ht)

theorem ignoreParenCasts (h : s.Printable) : s.IgnoreParenCasts.Printable := by
  induction s using Stmt.IgnoreParenCasts.induct with
  | case1 t sub ih => exact ih (h.child List.mem_cons_self)
  | case2 t sub ih => exact ih (h.child List.mem_cons_self)
  | case3 sub ih => exact ih (h.child List.mem_cons_self)
  | case4 s h1 h2 h3 =>
      have heq : s.IgnoreParenCasts = s := by rw [IgnoreParenCasts] <;> assumption
      exact heq.symm ▸ h

theorem directCallee {f : FunctionDecl} (h : s.Printable) (hf : s.directCallee = some f) :
    (NamedDecl.function f).Printable := by
  have hs := h.ignoreParenCasts
  unfold Stmt.directCallee at hf
  split at hf
  · rename_i g heq
    cases hf
    rw [heq] at hs
    exact hs.self List.mem_cons_self
  · rename_i base g heq
    cases hf
    rw [heq] at hs
    exact hs.self List.mem_cons_self
  · cases hf

theorem extractDecl (h : s.Printable) (hd : s.extractDecl = some d) : d.Printable := by
  induction s using Stmt.extractDecl.induct with
  | case1 t sub ih => exact ih (h.child List.mem_cons_self) hd
  | case2 t sub ih => exact ih (h.child List.mem_cons_self) hd
  | case3 sub ih => exact ih (h.child List.mem_cons_self) hd
  | case4 d' =>
      cases hd
      exact h.self List.mem_cons_self
  | case5 callee args t =>
      obtain ⟨f, hf, rfl⟩ := Option.map_eq_some_iff.mp hd
      exact (h.child List.mem_cons_self).directCallee hf
  | case6 base d' =>
      cases hd
      exact h.self List.mem_cons_self
  | case7 base idx ih => exact ih (h.child List.mem_cons_self) hd
  | case8 cond trueExpr falseExpr ih₁ ih₂ =>
      rw [Stmt.extractDecl, Option.or_eq_some_iff] at hd
      rcases hd with hd | ⟨-, hd⟩
      · exact ih₁ (h.child (by simp [children])) (Option.filter_eq_some_iff.mp hd).1
      · exact ih₂ (h.child (by simp [children])) (Option.filter_eq_some_iff.mp hd).1
  | case9 s =>
      rw [Stmt.extractDecl] at hd <;> first | assumption | cases hd

end Stmt.Printable

/-! ## The visits put in keys of declarations -/

section

variable {R : Key → Bool} {d : NamedDecl} {s lhs rhs init arg : Stmt} {cur : Option FunctionDecl}

theorem Stmt.Printable.isKey (h : s.Printable) (hd : s.extractDecl = some d) (level : Nat) :
    IsKey (convertToUniqueString d level) :=
  (h.extractDecl hd).oneLine.isKey level

theorem declared_initOps (key : Key) (h : init.Printable) :
    ∀ op ∈ initOps R key init, op.Declared := by
  have hinit := h.ignoreParenCasts
  unfold initOps
  split
  · rename_i d heq
    rw [heq] at hinit
    have hkey := (hinit.self List.mem_cons_self).oneLine.isKey 0
    split <;> simp [MapOp.Declared, hkey]
  · split
    · split <;> simp [MapOp.Declared]
    · simp
  · rename_i callee args ty heq
    rw [heq] at hinit
    cases hf : callee.directCallee with
    | none => simp
    | some f =>
        have hkey := ((hinit.child List.mem_cons_self).directCallee hf).oneLine.isKey 0
        simp only
        split <;> simp [MapOp.Declared, hkey]
  · rename_i base d heq
    rw [heq] at hinit
    have hkey := (hinit.self List.mem_cons_self).oneLine.isKey 0
    split <;> simp [MapOp.Declared, hkey]
  · simp

theorem declared_varOps {group : List (ValueDecl × Option Stmt)} {v : ValueDecl × Option Stmt}
    (h : (Stmt.declStmt group).Printable) (hv : v ∈ group) :
    ∀ op ∈ varOps R v, op.Declared := by
  obtain ⟨d, init⟩ := v
  have hd : (NamedDecl.value d).OneLine :=
    (h.self (List.mem_map_of_mem (f := fun v => NamedDecl.value v.1) hv)).oneLine
  unfold varOps
  split
  · rw [List.forall_mem_cons]
    refine ⟨hd, ?_⟩
    cases init with
    | none => simp
    | some init =>
        have hinit : init.Printable := h.child (List.mem_filterMap.mpr ⟨(d, some init), hv, rfl⟩)
        exact declared_initOps _ hinit
  · simp

theorem declared_declareOps {decls : List ValueDecl}
    (h : ∀ d ∈ decls, (NamedDecl.value d).OneLine) : ∀ op ∈ declareOps decls, op.Declared := by
  intro op hop
  obtain ⟨d, hd, hop⟩ := List.mem_flatMap.mp hop
  split at hop
  · rw [List.mem_singleton.mp hop]
    exact h d hd
  · cases hop

theorem declared_unaryOps (op : UnaryOp) (s : Stmt) : ∀ o ∈ unaryOps R op s, o.Declared := by
  unfold unaryOps
  split
  · split
    · simp only
      split <;> simp [MapOp.Declared]
    · simp
  · simp

theorem declared_subscriptOps (base : Stmt) : ∀ op ∈ subscriptOps R base, op.Declared := by
  unfold subscriptOps
  split
  · split
    · simp only
      split <;> simp [MapOp.Declared]
    · simp [MapOp.Declared]
  · simp

theorem declared_assignCallOps (key : Key) (hd : d.OneLine) (h : rhs.Printable) :
    ∀ op ∈ assignCallOps R key d rhs, op.Declared := by
  unfold assignCallOps
  split
  · rename_i c hc
    simp only
    split <;> simp [MapOp.Declared, hd.isKey 0, h.isKey hc 0]
  · simp

theorem declared_assignOps (hlhs : lhs.Printable) (hrhs : rhs.Printable) :
    ∀ op ∈ assignOps R lhs rhs, op.Declared := by
  unfold assignOps
  split
  · simp
  · rename_i d hd
    rw [List.forall_mem_cons]
    refine ⟨trivial, ?_⟩
    split
    · split
      · split <;> simp [MapOp.Declared]
      · split
        · exact declared_assignCallOps _ (hlhs.extractDecl hd).oneLine hrhs
        · split
          · rename_i src hsrc
            simp [MapOp.Declared, hrhs.isKey hsrc 0]
          · simp
    · simp

theorem declared_argumentOps (h : arg.Printable) (param : ValueDecl) :
    ∀ op ∈ argumentOps R arg param, op.Declared := by
  unfold argumentOps
  split
  · rename_i a ha
    have hkey := h.isKey ha 0
    have hline := (h.extractDecl ha).oneLine
    simp only [List.forall_mem_append, List.forall_mem_cons]
    refine ⟨⟨⟨trivial, trivial, by simp⟩, ?_⟩, ?_⟩
    · split <;> simp [MapOp.Declared]
    · split
      · simp [MapOp.Declared, hkey]
      · rw [List.forall_mem_cons]
        refine ⟨hline, ?_⟩
        split <;> simp [MapOp.Declared, hkey]
  · simp

theorem declared_returnOps {value : Option Stmt}
    (hcur : ∀ f, cur = some f → (NamedDecl.function f).OneLine) :
    ∀ op ∈ returnOps R cur value, op.Declared := by
  unfold returnOps
  split
  · simp
  · split
    · split
      · simp only
        split <;> simp [MapOp.Declared]
      · simp
    · split
      · rw [List.forall_mem_cons]
        refine ⟨trivial, ?_⟩
        split
        · rename_i f
          split <;> simp [MapOp.Declared, (hcur f rfl).isKey 0]
        · simp
      · simp

/-- **One visit**, by induction on its depth. -/
theorem declared_stmtOps (hcur : ∀ f, cur = some f → (NamedDecl.function f).OneLine) (fuel : Nat) :
    ∀ s : Stmt, s.Printable → ∀ op ∈ stmtOps R cur fuel s, op.Declared := by
  induction fuel with
  | zero => exact fun _ _ op hop => absurd hop List.not_mem_nil
  | succ fuel ih =>
      intro s hs
      have hbelow : ∀ t : Stmt, t.Printable →
          ∀ op ∈ t.children.flatMap (stmtOps R cur fuel), op.Declared := by
        intro t ht op hop
        obtain ⟨c, hc, hop⟩ := List.mem_flatMap.mp hop
        exact ih c (ht.child hc) op hop
      have hchild : ∀ t ∈ s.children, ∀ op ∈ t.children.flatMap (stmtOps R cur fuel),
          op.Declared := fun t ht => hbelow t (hs.child ht)
      cases s with
      | declStmt group =>
          intro op hop
          obtain ⟨v, hv, hop⟩ := List.mem_flatMap.mp hop
          exact declared_varOps hs hv op hop
      | unary uop sub =>
          exact List.forall_mem_append.mpr
            ⟨declared_unaryOps uop sub, hchild sub List.mem_cons_self⟩
      | binary bop lhs rhs =>
          have hlhs : lhs.Printable := hs.child (by simp [Stmt.children])
          have hrhs : rhs.Printable := hs.child (by simp [Stmt.children])
          refine List.forall_mem_append.mpr ⟨?_, List.forall_mem_append.mpr
            ⟨hbelow _ hlhs.ignoreParenCasts, hbelow _ hrhs.ignoreParenCasts⟩⟩
          split
          · refine List.forall_mem_append.mpr ⟨declared_assignOps hlhs hrhs, ?_⟩
            split
            · exact hbelow rhs hrhs
            · simp
          · simp
      | subscript base idx =>
          exact List.forall_mem_append.mpr ⟨declared_subscriptOps base,
            List.forall_mem_append.mpr ⟨hchild base (by simp [Stmt.children]),
              hchild idx (by simp [Stmt.children])⟩⟩
      | call callee args ty =>
          rw [stmtOps]
          split
          · rename_i f hf
            intro op hop
            obtain ⟨⟨arg, param⟩, hpair, hop⟩ := List.mem_flatMap.mp hop
            have harg : arg ∈ args := (List.of_mem_zip hpair).1
            split at hop
            · rcases List.mem_append.mp hop with hop | hop
              · exact declared_argumentOps (hs.child (List.mem_cons_of_mem _ harg)) param op hop
              · exact hchild arg (List.mem_cons_of_mem _ harg) op hop
            · cases hop
          · simp
      | returnStmt value => exact declared_returnOps hcur
      | newExpr isArray ty args => exact fun op hop => absurd hop List.not_mem_nil
      | explicitCast ty sub => exact hchild sub List.mem_cons_self
      | _ => exact hbelow _ hs

theorem declared_topOps (fuel : Nat) {d : TopDecl} (h : d.Printable) :
    ∀ op ∈ topOps R fuel d, op.Declared := by
  cases d with
  | var d init => exact declared_varOps h List.mem_cons_self
  | function f body inSystemHeader =>
      obtain ⟨hf, hbody⟩ := h
      refine List.forall_mem_append.mpr ⟨?_, List.forall_mem_append.mpr
        ⟨declared_declareOps hf.2, ?_⟩⟩
      · split
        · rw [List.forall_mem_singleton]
          exact hf.1
        · simp
      · split
        · rename_i body
          split
          · simp
          · rw [List.forall_mem_cons]
            refine ⟨trivial, fun op hop => ?_⟩
            obtain ⟨c, hc, hop⟩ := List.mem_flatMap.mp hop
            refine declared_stmtOps (fun g hg => ?_) fuel c ((hbody body rfl).child hc) op hop
            cases hg
            exact hf.1
        · simp
  | record fields => exact declared_declareOps h

end

/-- **The analysis builds its map from keys of declarations.** -/
theorem runAnalysis_keysDeclared {VisitStmt : StmtVisitor → StmtVisitor}
    (hV : VisitsChildren VisitStmt) {fuel : Nat} {unit : TranslationUnit} {σ : VisitorState}
    (hunit : ∀ d ∈ unit, d.Printable) (h : runAnalysis VisitStmt fuel unit = some σ) :
    KeysDeclared σ.pointers := by
  obtain ⟨σ₀, hvisits, h⟩ := Option.bind_eq_some_iff.mp h
  obtain ⟨m, hfinal, h⟩ := Option.bind_eq_some_iff.mp h
  cases h
  have hops : ∀ op ∈ unitOps σ₀.hasRecord fuel unit, op.Declared := by
    intro op hop
    obtain ⟨d, hd, hop⟩ := List.mem_flatMap.mp hop
    exact declared_topOps fuel (hunit d hd) op hop
  have hvisited : KeysDeclared σ₀.pointers := by
    rw [analyzeAll_eq_perform hV hvisits]
    exact KeysDeclared.empty.perform hops
  exact hvisited.evolves (finalizePointers_spec hfinal).evolves

end Ironclad.Analysis
