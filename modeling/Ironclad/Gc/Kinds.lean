import Ironclad.Gc.Sweeps
import Ironclad.Gc.PreciseMarking

/-!
# The kinds behind `PRECISE` in the table

`AUNCOLLECTABLE` has become 4: it is no longer `IS_UNCOLLECTABLE`, and it is not below
`GC_N_KINDS_INITIAL_VALUE`. What `GC_malloc_atomic_uncollectable` returns is safe on runs
that never rely on either.
-/

namespace Ironclad.Gc

open Logic

structure KindsSafe (s : Collector) : Prop where
  /-- What `GC_malloc_atomic_uncollectable` returned lies in a block in use and is on no
  free list, until it is freed. -/
  kept : ∀ x ∈ s.pinned, s.heap.IsObj x ∧ ∀ a sz, x ∉ s.freelist a sz
  below : ∀ k ∈ s.used, k < s.GC_n_kinds
  /-- `GC_start_reclaim` resets the lists of the kinds that are used. -/
  reset : ∀ k ∈ s.used, ∀ sz, (resetLists s).flh k sz = [] ∧
    ∀ rlist, ((resetLists s).kinds k).ok_reclaim_list = some rlist → rlist sz = []
  fresh : ∀ descr adjust clear t k, GC_new_kind descr adjust clear s = some (t, k) → k ∉ s.used

/-- The kind `AUNCOLLECTABLE` is used once the table has grown beyond it, and a collection
begins when what is pinned is reached around the stale precise objects. -/
def KindsCondition (s : Collector) : Action → Prop
  | .malloc .GC_malloc_atomic_uncollectable _ _ => AUNCOLLECTABLE < s.GC_n_kinds
  | .collect cs => ∀ x ∈ s.pinned, x ∈ s.tracedAround (s.heap.robustEdge (s.limits cs))
  | _ => True

variable {s t : Collector}

theorem Accounts.kindsSafe (hs : Accounts s) : KindsSafe s where
  kept := by
    intro x hx
    have halloc := hs.pinned_alloc x hx
    refine ⟨hs.alloc_obj x halloc, fun a sz hmem => ?_⟩
    rw [(hs.free_slot a sz x hmem).1] at halloc
    cases halloc
  below := hs.used_lt
  reset := by
    intro k _ sz
    exact ⟨resetLists_freelist hs.free_kind _ sz,
      fun rlist hr => resetLists_queue (fun k rlist sz h hr hh => hs.queued_lt hr hh) hr⟩
  fresh := by
    intro descr adjust clear t k ht hk
    have hlt := hs.used_lt k hk
    unfold GC_new_kind at ht
    simp only at ht
    split at ht
    · cases ht
    · simp only [Option.some.injEq, Prod.mk.injEq] at ht
      omega

/-- What is reached around the stale objects is marked. -/
theorem marked_of_tracedAround (hs : Base s) {cs : List Choice} {m : Marker}
    (hm : markOf cs s = some m) {x : Obj}
    (hx : x ∈ s.tracedAround (s.heap.robustEdge (s.limits cs))) : m.marks x = true := by
  refine mem_marked_of_robust hs.wf hm (.inr ?_)
  rw [traced_eq fun _ _ h => Heap.edge_of_robustEdge h]
  exact hx

/-- **The step lemma.** -/
theorem step_accounts {act : Action} (hs : Accounts s) (hC : KindsCondition s act)
    (ht : step s act = some t) : Accounts t := by
  cases act with
  | malloc a lg page =>
      simp only [step] at ht
      split at ht
      · rename_i hok
        cases ht
        refine malloc_accounts hs hok.1 ?_ hok.2.2
        have hfour := hs.base.n_kinds
        cases a with
        | GC_malloc_atomic_uncollectable => exact hC
        | GC_generic_malloc k => exact of_decide_eq_true hok.2.1
        | GC_malloc => exact Nat.lt_of_lt_of_le (by decide : NORMAL < 4) hfour
        | GC_malloc_atomic => exact Nat.lt_of_lt_of_le (by decide : PTRFREE < 4) hfour
        | GC_malloc_uncollectable => exact Nat.lt_of_lt_of_le (by decide : UNCOLLECTABLE < 4) hfour
        | GC_malloc_precise => exact Nat.lt_of_lt_of_le (by decide : PRECISE < 4) hfour
      · cases ht
  | free x =>
      simp only [step] at ht
      split at ht
      · rename_i hx
        cases ht
        exact free_accounts hs hx
      · cases ht
  | newKind descr adjust clear =>
      obtain ⟨⟨u, k⟩, hu, rfl⟩ := Option.map_eq_some_iff.mp ht
      exact GC_new_kind_accounts hs hu
  | write x c =>
      simp only [step] at ht
      split at ht
      · cases ht
        exact SameBooks.accounts (s := s) ⟨rfl, rfl, rfl, rfl, rfl, rfl, rfl, rfl, rfl⟩ hs
      · cases ht
  | setRoots roots =>
      cases ht
      exact SameBooks.accounts (s := s) ⟨rfl, rfl, rfl, rfl, rfl, rfl, rfl, rfl, rfl⟩ hs
  | collect cs =>
      obtain ⟨m, hm, -⟩ := Option.bind_eq_some_iff.mp ht
      exact (fullCollection_accounts hs hm
        (fun x hx => marked_of_tracedAround hs.base hm (hC x hx)) ht).accounts

/-- **The kinds are safe on every run that meets the condition**: in each state it visits,
nothing pinned has been reclaimed, and the kinds in use are in the table. -/
theorem kinds_safe_of_stepsMeet {limit : Nat} {acts : List Action}
    (hC : (gc limit).StepsMeet acts KindsCondition) : (gc limit).Visits acts KindsSafe :=
  ((gc limit).visits_of_stepsMeet Accounts (GC_init_accounts limit)
    (fun _ _ _ hs hC ht => step_accounts hs hC ht) hC).mono fun _ hs => hs.kindsSafe

/-- A kind is added to the table first, and the object from
`GC_malloc_atomic_uncollectable` is a root. -/
def pinnedRun : List Action :=
  [.newKind 0 false true, .malloc .GC_malloc_atomic_uncollectable 128 (some 1),
    .setRoots [HBLKSIZE + 2048], .collect (List.replicate 3 ⟨0, none⟩)]

theorem pinnedRun_condition : (gc 0).StepsMeet pinnedRun KindsCondition := by
  have h₀ := Machine.stepsMeet_nil (M := gc 0) (C := KindsCondition)
  have h₁ := h₀.concat (a := Action.newKind 0 false true) fun _ _ => trivial
  have h₂ := h₁.concat (a := Action.malloc .GC_malloc_atomic_uncollectable 128 (some 1)) (by
    intro s hs
    show 4 < s.GC_n_kinds
    have hn : ((gc 0).run [.newKind 0 false true]).map Collector.GC_n_kinds = some 5 := by
      decide +kernel
    have hs' : (gc 0).run [.newKind 0 false true] = some s := hs
    rw [hs', Option.map_some, Option.some.injEq] at hn
    omega)
  have h₃ := h₂.concat (a := Action.setRoots [HBLKSIZE + 2048]) fun _ _ => trivial
  refine h₃.concat (a := Action.collect (List.replicate 3 ⟨0, none⟩)) ?_
  intro s hs x hx
  have hfacts : ((gc 0).run (pinnedRun.take 3)).map
      (fun s => (s.pinned, s.heap.roots, s.heap.base (HBLKSIZE + 2048))) =
        some ([⟨1, 1⟩], [HBLKSIZE + 2048], some ⟨1, 1⟩) := by decide +kernel
  have hs' : (gc 0).run (pinnedRun.take 3) = some s := hs
  rw [hs', Option.map_some, Option.some.injEq, Prod.mk.injEq, Prod.mk.injEq] at hfacts
  obtain ⟨hpinned, hroots, hbase⟩ := hfacts
  rw [hpinned, List.mem_singleton] at hx
  subst hx
  have hroot : HBLKSIZE + 2048 ∈ s.heap.roots := hroots ▸ List.mem_singleton.mpr rfl
  exact Logic.subset_closure (.inl ⟨HBLKSIZE + 2048, hroot, hbase⟩)

theorem kinds_safe_of_stepsMeet_pinned : (gc 0).Visits pinnedRun KindsSafe :=
  kinds_safe_of_stepsMeet pinnedRun_condition

/-- An object from `GC_malloc_atomic_uncollectable`, and a collection. -/
def unpinnedRun : List Action :=
  [.malloc .GC_malloc_atomic_uncollectable 128 (some 1), .collect (List.replicate 3 ⟨0, none⟩)]

/-- The object was never freed, but its block has been; and the next `GC_new_kind` returns
the index of its kind. -/
theorem pinned_block_freed :
    ∃ s, (gc 0).run unpinnedRun = some s ∧ (⟨1, 1⟩ : Obj) ∈ s.pinned ∧ s.heap.HDR 1 = none ∧
      AUNCOLLECTABLE ∈ s.used ∧ s.GC_n_kinds = AUNCOLLECTABLE ∧
      ((GC_new_kind 0 false true s).map Prod.snd) = some AUNCOLLECTABLE :=
  ⟨((gc 0).run unpinnedRun).get (by decide +kernel), (Option.some_get _).symm, by decide +kernel,
    by decide +kernel, by decide +kernel, by decide +kernel, by decide +kernel⟩

end Ironclad.Gc
