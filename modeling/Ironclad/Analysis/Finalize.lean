import Ironclad.Analysis.PointerMap

/-!
# The propagation of `finalizePointers` is exact

The flags that `finalizePointers` clears are the least set that contains the
initially clear ones and is closed under the `from` edges.

Two facts carry the recursion, which has no visited set. It ends because a call
from a record whose flag is clear only recurses into records whose flag it has
just cleared; a call from a singleton record happens only at the outermost level
(`updateDependentPointers_isSome`). It is complete because whenever a flag is
cleared, a call for that record follows, and when it returns all the record's
sources are clear (`Updated.done_new`).
-/

namespace Ironclad.Analysis

open Ironclad.Logic

variable {Name : Type}

/-- What no step changes about a record: whether it exists, and its two lists. -/
def links (m : PointerMap Name) (n : Name) : Option (List Name × List Name) :=
  (m.entry n).map fun d => (d.from_, d.to_)

/-- The same records up to their flags, more keys, and fewer singletons. -/
structure Evolves (m m' : PointerMap Name) : Prop where
  keys : m.keys ⊆ m'.keys
  links : ∀ n, links m' n = links m n
  mono : nonSingletons m ⊆ nonSingletons m'

/-- All the sources of `x` are non-singletons. -/
def Done (m : PointerMap Name) (x : Name) : Prop := ∀ q, FromEdge m x q → q ∈ nonSingletons m

/-- What a call for `p` does to the map. -/
structure Updated (m : PointerMap Name) (p : Name) (m' : PointerMap Name) : Prop where
  evolves : Evolves m m'
  sound : ∀ S, ClosedUnder (FromEdge m) S → nonSingletons m ⊆ S → nonSingletons m' ⊆ S
  done_new : ∀ x ∈ nonSingletons m', x ∉ nonSingletons m → Done m' x
  done_self : p ∈ nonSingletons m → Done m' p
  touched : ∀ d, m.entry p = some d → d.from_ ⊆ m'.keys

/-! ## Order independence -/

/-- The same records under the same names, with the keys and each `from` list in any
order. -/
structure Reordered (m m₂ : PointerMap Name) : Prop where
  keys : m.keys.Perm m₂.keys
  records : ∀ n, Option.Rel (fun d d₂ => d.from_.Perm d₂.from_ ∧ d.singleton = d₂.singleton)
    (m.entry n) (m₂.entry n)

private theorem rel_none_iff {α β : Type} {r : α → β → Prop} {a : Option α} {b : Option β}
    (h : Option.Rel r a b) : b = none ↔ a = none := by
  cases h <;> simp

theorem Reordered.nonSingletons_eq {m m₂ : PointerMap Name} (h : Reordered m m₂) :
    nonSingletons m₂ = nonSingletons m := by
  ext n
  have hn := h.records n
  unfold nonSingletons
  cases hm : m.entry n <;> cases hm₂ : m₂.entry n <;> rw [hm, hm₂] at hn <;> cases hn
  · simp [hm, hm₂]
  · rename_i d d₂ hrel
    simp [hm, hm₂, hrel.2]

theorem Reordered.fromEdge_eq {m m₂ : PointerMap Name} (h : Reordered m m₂) :
    FromEdge m₂ = FromEdge m := by
  funext p q
  apply propext
  have hp := h.records p
  have hnone := rel_none_iff (h.records q)
  unfold FromEdge
  cases hm : m.entry p <;> cases hm₂ : m₂.entry p <;> rw [hm, hm₂] at hp <;> cases hp
  · simp
  · rename_i d d₂ hrel
    simp [hrel.1.mem_iff, hnone]

/-! ## Evolution of the map -/

theorem entry_eq_none_of_links {m m' : PointerMap Name} {n : Name} (h : links m' n = links m n) :
    m'.entry n = none ↔ m.entry n = none := by
  unfold links at h
  cases h1 : m'.entry n <;> cases h2 : m.entry n <;> simp [h1, h2] at h ⊢

/-- The record under a name keeps its `from` list. -/
theorem from_of_links {m m' : PointerMap Name} {n : Name} (h : links m' n = links m n)
    {d : PointerData Name} (hd : m.entry n = some d) :
    ∃ d', m'.entry n = some d' ∧ d'.from_ = d.from_ := by
  unfold links at h
  rw [hd, Option.map_some, Option.map_eq_some_iff] at h
  obtain ⟨d', hd', heq⟩ := h
  exact ⟨d', hd', (Prod.mk.inj heq).1⟩

namespace Evolves

variable {m m' m'' : PointerMap Name}

theorem refl (m : PointerMap Name) : Evolves m m :=
  ⟨List.Subset.refl _, fun _ => rfl, Set.Subset.refl _⟩

theorem trans (h : Evolves m m') (h' : Evolves m' m'') : Evolves m m'' :=
  ⟨List.Subset.trans h.keys h'.keys, fun n => (h'.links n).trans (h.links n),
    fun _ hn => h'.mono (h.mono hn)⟩

/-- The edges stay the same. -/
theorem fromEdge (h : Evolves m m') : FromEdge m' = FromEdge m := by
  funext p q
  apply propext
  have hq := entry_eq_none_of_links (h.links q)
  constructor
  · rintro ⟨d, hd, hmem, hne⟩
    obtain ⟨d', hd', hfrom⟩ := from_of_links (h.links p).symm hd
    exact ⟨d', hd', hfrom ▸ hmem, fun hc => hne (hq.mpr hc)⟩
  · rintro ⟨d, hd, hmem, hne⟩
    obtain ⟨d', hd', hfrom⟩ := from_of_links (h.links p) hd
    exact ⟨d', hd', hfrom ▸ hmem, fun hc => hne (hq.mp hc)⟩

/-- What is done stays done. -/
theorem done (h : Evolves m m') {x : Name} (hx : Done m x) : Done m' x := by
  intro q hq
  rw [h.fromEdge] at hq
  exact h.mono (hx q hq)

variable [DecidableEq Name]

theorem touch (m : PointerMap Name) (n : Name) : Evolves m (m.touch n) :=
  ⟨keys_subset_touch m n, fun _ => rfl, Set.Subset.refl _⟩

theorem setNonSingleton (m : PointerMap Name) (n : Name) : Evolves m (m.setNonSingleton n) := by
  refine ⟨List.Subset.refl _, fun k => ?_, ?_⟩
  · unfold Analysis.links
    by_cases hk : k = n
    · subst hk
      cases hd : m.entry k with
      | none => simp [PointerMap.setNonSingleton, PointerMap.modifyAt, hd]
      | some d => rw [setNonSingleton_entry_self hd]; rfl
    · rw [setNonSingleton_entry_of_ne hk]
  · rintro k ⟨d, hd, hf⟩
    by_cases hk : k = n
    · subst hk
      exact ⟨_, setNonSingleton_entry_self hd, rfl⟩
    · exact ⟨d, (setNonSingleton_entry_of_ne hk).trans hd, hf⟩

end Evolves

variable [DecidableEq Name]

/-- The only flag that `setNonSingleton` clears is that of its argument. -/
theorem mem_nonSingletons_set {m : PointerMap Name} {n k : Name}
    (h : k ∈ nonSingletons (m.setNonSingleton n)) : k = n ∨ k ∈ nonSingletons m := by
  by_cases hk : k = n
  · exact .inl hk
  · obtain ⟨d, hd, hf⟩ := h
    rw [setNonSingleton_entry_of_ne hk] at hd
    exact .inr ⟨d, hd, hf⟩

/-! ## One call -/

/-- What the loop over the rest `qs` of the `from` list of `p` does. -/
structure LoopUpdated (m : PointerMap Name) (p : Name) (qs : List Name) (m' : PointerMap Name) :
    Prop where
  evolves : Evolves m m'
  sound : ∀ S, ClosedUnder (FromEdge m) S → nonSingletons m ⊆ S → nonSingletons m' ⊆ S
  done_new : ∀ x ∈ nonSingletons m', x ∉ nonSingletons m → Done m' x
  done_part : p ∈ nonSingletons m → ∀ q ∈ qs, m.entry q ≠ none → q ∈ nonSingletons m'
  touched : qs ⊆ m'.keys

/-- Steps that change only keys before the loop goes on. -/
theorem LoopUpdated.of_touch {m m' : PointerMap Name} {p q : Name} {qs : List Name}
    (h : LoopUpdated (m.touch q) p qs m')
    (hq : p ∈ nonSingletons m → m.entry q ≠ none → q ∈ nonSingletons m) :
    LoopUpdated m p (q :: qs) m' where
  evolves := (Evolves.touch m q).trans h.evolves
  sound S hS hm := h.sound S hS hm
  done_new x hx hnew := h.done_new x hx hnew
  done_part hp k hk hne := by
    rcases List.mem_cons.mp hk with rfl | hk
    · exact h.evolves.mono (hq hp hne)
    · exact h.done_part hp k hk hne
  touched k hk := by
    rcases List.mem_cons.mp hk with rfl | hk
    · exact h.evolves.keys (mem_touch_keys m k)
    · exact h.touched hk

/-- A round that clears the flag of `q` and calls for it, before the loop goes on. -/
theorem LoopUpdated.of_recurse {m m₂ m' : PointerMap Name} {p q : Name} {qs : List Name}
    {d : PointerData Name} (hd : m.entry q = some d)
    (hsound : q ∈ nonSingletons m ∨ (p ∈ nonSingletons m ∧ FromEdge m p q))
    (hcall : Updated ((m.touch q).setNonSingleton q) q m₂) (h : LoopUpdated m₂ p qs m') :
    LoopUpdated m p (q :: qs) m' := by
  have hset : Evolves m ((m.touch q).setNonSingleton q) :=
    (Evolves.touch m q).trans (Evolves.setNonSingleton _ q)
  have hq : q ∈ nonSingletons ((m.touch q).setNonSingleton q) :=
    ⟨_, setNonSingleton_entry_self (m := m.touch q) hd, rfl⟩
  have hm₂ : Evolves m m₂ := hset.trans hcall.evolves
  refine ⟨hm₂.trans h.evolves, fun S hS hm => ?_, fun x hx hnew => ?_, fun hp k hk hne => ?_,
    fun k hk => ?_⟩
  · -- the cleared flag is an old one, or follows from that of `p`
    have hqS : q ∈ S := by
      rcases hsound with hq | ⟨hp, hedge⟩
      · exact hm hq
      · exact hS p (hm hp) q hedge
    refine h.sound S (hm₂.fromEdge ▸ hS) (hcall.sound S (hset.fromEdge ▸ hS) fun k hk => ?_)
    rcases mem_nonSingletons_set hk with rfl | hk
    · exact hqS
    · exact hm hk
  · by_cases hx₂ : x ∈ nonSingletons m₂
    · apply h.evolves.done
      by_cases hx₁ : x ∈ nonSingletons ((m.touch q).setNonSingleton q)
      · rcases mem_nonSingletons_set hx₁ with rfl | hx₀
        · exact hcall.done_self hq
        · exact absurd hx₀ hnew
      · exact hcall.done_new x hx₂ hx₁
    · exact h.done_new x hx hx₂
  · rcases List.mem_cons.mp hk with rfl | hk
    · exact h.evolves.mono (hcall.evolves.mono hq)
    · refine h.done_part (hm₂.mono hp) k hk fun hc => hne ?_
      exact (entry_eq_none_of_links (hm₂.links k)).mp hc
  · rcases List.mem_cons.mp hk with rfl | hk
    · exact h.evolves.keys (hcall.evolves.keys (mem_touch_keys m k))
    · exact h.touched hk

/-- The loop, given what the recursive calls do. -/
theorem updateLoop_spec {recurse : PointerMap Name → Name → Option (PointerMap Name)}
    (hrec : ∀ m q m', q ∈ nonSingletons m → recurse m q = some m' → Updated m q m') {p : Name}
    (qs : List Name) (m m' : PointerMap Name)
    (hqs : ∀ q ∈ qs, ∃ d, m.entry p = some d ∧ q ∈ d.from_)
    (h : updateLoop recurse p qs m = some m') : LoopUpdated m p qs m' := by
  induction qs generalizing m with
  | nil =>
      cases h
      exact ⟨Evolves.refl m', fun _ _ hm => hm, fun x hx hnew => absurd hx hnew,
        fun _ q hq => absurd hq List.not_mem_nil, List.nil_subset _⟩
  | cons q qs ih =>
      obtain ⟨d, hd, hmem⟩ := hqs q List.mem_cons_self
      have hrest : ∀ k ∈ qs, ∃ d, m.entry p = some d ∧ k ∈ d.from_ :=
        fun k hk => hqs k (List.mem_cons_of_mem _ hk)
      simp only [updateLoop, touch_entry, hd] at h
      cases hq : m.entry q with
      | none =>
          rw [hq] at h
          exact .of_touch (ih (m.touch q) hrest h) fun _ hne => absurd hq hne
      | some e =>
          simp only [hq] at h
          split at h
          · rename_i hflag
            obtain ⟨m₂, hcall, hloop⟩ := Option.bind_eq_some_iff.mp h
            have hcall' := hrec _ q m₂
              ⟨_, setNonSingleton_entry_self (m := m.touch q) hq, rfl⟩ hcall
            have hm₂ : Evolves m m₂ := ((Evolves.touch m q).trans
              (Evolves.setNonSingleton _ q)).trans hcall'.evolves
            refine .of_recurse hq ?_ hcall' (ih m₂ (fun k hk => ?_) hloop)
            · -- the flags differ, so one of the two records is not a singleton
              cases hflag' : e.singleton with
              | false => exact .inl ⟨e, hq, hflag'⟩
              | true =>
                  rw [hflag', ne_eq, Bool.not_eq_true] at hflag
                  exact .inr ⟨⟨d, hd, hflag⟩, d, hd, hmem, by rw [hq]; simp⟩
            · obtain ⟨d₀, hd₀, hk₀⟩ := hrest k hk
              obtain ⟨d₂, hd₂, hfrom⟩ := from_of_links (hm₂.links p) hd₀
              exact ⟨d₂, hd₂, hfrom ▸ hk₀⟩
          · rename_i hflag
            refine .of_touch (ih (m.touch q) hrest h) fun ⟨d', hd', hf⟩ _ => ?_
            obtain rfl : d = d' := Option.some.inj (hd.symm.trans hd')
            exact ⟨e, hq, (not_ne_iff.mp hflag) ▸ hf⟩

/-- **One call**: what `updateDependentPointers` does when it returns. -/
theorem updateDependentPointers_spec (fuel : Nat) (m : PointerMap Name) (p : Name)
    (m' : PointerMap Name) (h : updateDependentPointers fuel m p = some m') : Updated m p m' := by
  induction fuel generalizing m p m' with
  | zero => contradiction
  | succ fuel ih =>
      rw [updateDependentPointers] at h
      split at h
      · rename_i hnone
        cases h
        exact ⟨Evolves.refl m, fun _ _ hm => hm, fun x hx hnew => absurd hx hnew,
          fun ⟨d, hd, _⟩ => by simp [hnone] at hd, fun d hd => by simp [hnone] at hd⟩
      · rename_i d hd
        have hloop := updateLoop_spec (fun m q m' _ hm => ih m q m' hm) d.from_ m m'
          (fun q hq => ⟨d, hd, hq⟩) h
        refine ⟨hloop.evolves, hloop.sound, hloop.done_new, fun hp q hq => ?_, fun d' hd' => ?_⟩
        · rw [hloop.evolves.fromEdge] at hq
          obtain ⟨d', hd', hmem, hne⟩ := hq
          obtain rfl : d = d' := Option.some.inj (hd.symm.trans hd')
          exact hloop.done_part hp q hmem hne
        · obtain rfl : d = d' := Option.some.inj (hd.symm.trans hd')
          exact hloop.touched

/-! ## Enough fuel -/

/-- The names whose record is a singleton. -/
def singletons (m : PointerMap Name) : Finset Name :=
  m.keys.toFinset.filter fun n => (m.entry n).any PointerData.singleton

theorem mem_singletons {m : PointerMap Name} {n : Name} :
    n ∈ singletons m ↔ ∃ d, m.entry n = some d ∧ d.singleton = true := by
  simp only [singletons, Finset.mem_filter, List.mem_toFinset, Option.any_eq_true]
  constructor
  · rintro ⟨-, d, hd, hs⟩
    exact ⟨d, hd, hs⟩
  · rintro ⟨d, hd, hs⟩
    exact ⟨m.mem_keys n (by simp [hd]), d, hd, hs⟩

theorem Evolves.singletons_subset {m m' : PointerMap Name} (h : Evolves m m') :
    singletons m' ⊆ singletons m := by
  intro n hn
  obtain ⟨d', hd', hs'⟩ := mem_singletons.mp hn
  obtain ⟨d, hd, -⟩ := from_of_links (h.links n).symm hd'
  refine mem_singletons.mpr ⟨d, hd, ?_⟩
  cases hs : d.singleton with
  | true => rfl
  | false =>
      -- a cleared flag would have stayed clear
      obtain ⟨e, he, hf⟩ := h.mono ⟨d, hd, hs⟩
      obtain rfl : d' = e := Option.some.inj (hd'.symm.trans he)
      exact absurd hs' (by simp [hf])

/-- Clearing a flag makes the number of singletons smaller. -/
theorem card_singletons_set_lt {m : PointerMap Name} {n : Name} (h : n ∈ singletons m) :
    (singletons (m.setNonSingleton n)).card < (singletons m).card := by
  apply Finset.card_lt_card
  refine Finset.ssubset_iff_subset_ne.mpr
    ⟨(Evolves.setNonSingleton m n).singletons_subset, fun heq => ?_⟩
  rw [← heq] at h
  obtain ⟨d, hd, hs⟩ := mem_singletons.mp h
  cases hd₀ : m.entry n with
  | none =>
      simp [PointerMap.setNonSingleton, PointerMap.modifyAt, hd₀] at hd
  | some d₀ =>
      rw [setNonSingleton_entry_self hd₀] at hd
      obtain rfl := Option.some.inj hd
      simp at hs

/-- What a call for `p` with `fuel` recursive levels below it can do: from a record
whose flag is clear, every level down clears a flag; from a singleton, one level
may clear none. -/
def Enough (fuel : Nat) (m : PointerMap Name) (p : Name) : Prop :=
  (p ∈ nonSingletons m ∧ (singletons m).card ≤ fuel) ∨ (singletons m).card < fuel

theorem Enough.evolves {fuel : Nat} {m m' : PointerMap Name} {p : Name} (h : Enough fuel m p)
    (he : Evolves m m') : Enough fuel m' p := by
  have hcard := Finset.card_le_card he.singletons_subset
  rcases h with ⟨hp, hle⟩ | hlt
  · exact .inl ⟨he.mono hp, hcard.trans hle⟩
  · exact .inr (hcard.trans_lt hlt)

/-- With the recursive calls returning, the loop returns. -/
theorem updateLoop_isSome {fuel : Nat}
    (hrec : ∀ (m : PointerMap Name) q, q ∈ nonSingletons m → (singletons m).card < fuel →
      (updateDependentPointers fuel m q).isSome) {p : Name} (qs : List Name)
    (m : PointerMap Name) (hm : Enough fuel m p) :
    (updateLoop (updateDependentPointers fuel) p qs m).isSome := by
  induction qs generalizing m with
  | nil => rfl
  | cons q qs ih =>
      have htouch : Enough fuel (m.touch q) p := hm.evolves (Evolves.touch m q)
      rw [updateLoop]
      split
      · rename_i d e hd he
        split
        · rename_i hflag
          have hlt : (singletons ((m.touch q).setNonSingleton q)).card < fuel := by
            have hcard := Finset.card_le_card
              (Evolves.setNonSingleton (m.touch q) q).singletons_subset
            rcases htouch with ⟨⟨d', hd', hf⟩, hle⟩ | hlt
            · -- `p` is not a singleton, so the flag of `q` is cleared now
              obtain rfl : d = d' := Option.some.inj (hd.symm.trans hd')
              refine (card_singletons_set_lt (mem_singletons.mpr ⟨e, he, ?_⟩)).trans_le hle
              cases hs : e.singleton with
              | true => rfl
              | false => exact absurd (hf.trans hs.symm) hflag
            · exact hcard.trans_lt hlt
          have hcall := hrec _ q ⟨_, setNonSingleton_entry_self he, rfl⟩ hlt
          obtain ⟨m₂, hm₂⟩ := Option.isSome_iff_exists.mp hcall
          rw [hm₂, Option.bind_some]
          refine ih m₂ (htouch.evolves ?_)
          exact (Evolves.setNonSingleton _ q).trans
            (updateDependentPointers_spec fuel _ q m₂ hm₂).evolves
        · exact ih _ htouch
      · exact ih _ htouch

/-- **The recursion ends**: two levels more than there are singletons are enough. -/
theorem updateDependentPointers_isSome (fuel : Nat) (m : PointerMap Name) (p : Name)
    (h : Enough fuel m p) : (updateDependentPointers (fuel + 1) m p).isSome := by
  induction fuel generalizing m p with
  | zero =>
      rw [updateDependentPointers]
      split
      · rfl
      · refine updateLoop_isSome (fun _ _ _ hlt => absurd hlt (Nat.not_lt_zero _)) _ m h
  | succ fuel ih =>
      rw [updateDependentPointers]
      split
      · rfl
      · refine updateLoop_isSome (fun m q hq hlt => ih m q (.inl ⟨hq, ?_⟩)) _ m h
        exact Nat.le_of_lt_succ hlt

theorem card_singletons_le (m : PointerMap Name) : (singletons m).card ≤ m.keys.length :=
  (Finset.card_filter_le _ _).trans (List.toFinset_card_le m.keys)

/-! ## More fuel changes nothing -/

theorem updateLoop_mono {r r' : PointerMap Name → Name → Option (PointerMap Name)}
    (hr : ∀ m q m', r m q = some m' → r' m q = some m') {p : Name} (qs : List Name)
    (m m' : PointerMap Name) (h : updateLoop r p qs m = some m') :
    updateLoop r' p qs m = some m' := by
  induction qs generalizing m with
  | nil => exact h
  | cons q qs ih =>
      rw [updateLoop] at h ⊢
      split at h
      · rename_i d e hd he
        split at h
        · rename_i hflag
          rw [if_pos hflag]
          obtain ⟨m₂, hcall, hloop⟩ := Option.bind_eq_some_iff.mp h
          rw [hr _ q m₂ hcall, Option.bind_some]
          exact ih m₂ hloop
        · rename_i hflag
          rw [if_neg hflag]
          exact ih _ h
      · exact ih _ h

theorem updateDependentPointers_succ (fuel : Nat) (m : PointerMap Name) (p : Name)
    (m' : PointerMap Name) (h : updateDependentPointers fuel m p = some m') :
    updateDependentPointers (fuel + 1) m p = some m' := by
  induction fuel generalizing m p m' with
  | zero => contradiction
  | succ fuel ih =>
      rw [updateDependentPointers] at h ⊢
      split at h
      · rename_i hd
        exact h
      · rename_i d hd
        exact updateLoop_mono (fun m q m' hm => ih m q m' hm) _ m m' h

/-! ## The whole propagation -/

/-- What the loop of `finalizePointers` over the rest `ns` of the keys does. -/
structure Finalized (m : PointerMap Name) (ns : List Name) (m' : PointerMap Name) : Prop where
  evolves : Evolves m m'
  sound : ∀ S, ClosedUnder (FromEdge m) S → nonSingletons m ⊆ S → nonSingletons m' ⊆ S
  done : ∀ x ∈ nonSingletons m', Done m' x
  touched : ∀ n ∈ ns, ∀ d, m.entry n = some d → d.from_ ⊆ m'.keys

/-- The loop, started where every non-singleton is done or still to come. -/
theorem finalizeLoop_spec (fuel : Nat) (ns : List Name) (m m' : PointerMap Name)
    (hm : ∀ x ∈ nonSingletons m, x ∈ ns ∨ Done m x) (h : finalizeLoop fuel ns m = some m') :
    Finalized m ns m' := by
  induction ns generalizing m with
  | nil =>
      cases h
      refine ⟨Evolves.refl m', fun _ _ hS => hS, fun x hx => ?_,
        fun _ hn => absurd hn List.not_mem_nil⟩
      exact (hm x hx).resolve_left List.not_mem_nil
  | cons n ns ih =>
      rw [finalizeLoop] at h
      split at h
      · rename_i hn
        have hrest := ih m (fun x hx => ?_) h
        · refine ⟨hrest.evolves, hrest.sound, hrest.done, fun k hk d hd => ?_⟩
          rcases List.mem_cons.mp hk with rfl | hk
          · simp [hn] at hd
          · exact hrest.touched k hk d hd
        · rcases hm x hx with hx' | hdone
          · rcases List.mem_cons.mp hx' with rfl | hx'
            · obtain ⟨d, hd, -⟩ := hx
              simp [hn] at hd
            · exact .inl hx'
          · exact .inr hdone
      · rename_i d hd
        obtain ⟨m₁, hcall, hloop⟩ := Option.bind_eq_some_iff.mp h
        have hup := updateDependentPointers_spec fuel m n m₁ hcall
        have hrest := ih m₁ (fun x hx => ?_) hloop
        · refine ⟨hup.evolves.trans hrest.evolves, fun S hS hm => ?_, hrest.done,
            fun k hk e he => ?_⟩
          · exact hrest.sound S (hup.evolves.fromEdge ▸ hS) (hup.sound S hS hm)
          · rcases List.mem_cons.mp hk with rfl | hk
            · exact fun q hq => hrest.evolves.keys (hup.touched e he hq)
            · obtain ⟨e', he', hfrom⟩ := from_of_links (hup.evolves.links k) he
              exact hfrom ▸ hrest.touched k hk e' he'
        · by_cases hx₀ : x ∈ nonSingletons m
          · rcases hm x hx₀ with hx' | hdone
            · rcases List.mem_cons.mp hx' with rfl | hx'
              · exact .inr (hup.done_self hx₀)
              · exact .inl hx'
            · exact .inr (hup.evolves.done hdone)
          · exact .inr (hup.done_new x hx hx₀)

theorem finalizePointers_spec {fuel : Nat} {m m' : PointerMap Name}
    (h : finalizePointers fuel m = some m') : Finalized m m.keys m' :=
  finalizeLoop_spec fuel m.keys m m'
    (fun x ⟨_, hd, _⟩ => .inl (m.mem_keys x (by simp [hd]))) h

theorem finalizeLoop_isSome {fuel : Nat} (ns : List Name) (m : PointerMap Name)
    (hm : (singletons m).card < fuel) : (finalizeLoop (fuel + 1) ns m).isSome := by
  induction ns generalizing m with
  | nil => rfl
  | cons n ns ih =>
      rw [finalizeLoop]
      split
      · exact ih m hm
      · have hcall := updateDependentPointers_isSome fuel m n (.inr hm)
        obtain ⟨m₁, hm₁⟩ := Option.isSome_iff_exists.mp hcall
        rw [hm₁, Option.bind_some]
        have hev := (updateDependentPointers_spec _ m n m₁ hm₁).evolves
        exact ih m₁ ((Finset.card_le_card hev.singletons_subset).trans_lt hm)

theorem finalizeLoop_succ (fuel : Nat) (ns : List Name) (m m' : PointerMap Name)
    (h : finalizeLoop fuel ns m = some m') : finalizeLoop (fuel + 1) ns m = some m' := by
  induction ns generalizing m with
  | nil => exact h
  | cons n ns ih =>
      rw [finalizeLoop] at h ⊢
      split at h
      · exact ih m h
      · obtain ⟨m₁, hcall, hloop⟩ := Option.bind_eq_some_iff.mp h
        rw [updateDependentPointers_succ fuel m n m₁ hcall, Option.bind_some]
        exact ih m₁ hloop

/-- More levels than there are keys, and one more, are always enough. -/
theorem finalizePointers_terminates (m : PointerMap Name) :
    ∃ m', ∀ fuel, m.keys.length + 2 ≤ fuel → finalizePointers fuel m = some m' := by
  have hlt : (singletons m).card < m.keys.length + 1 := Nat.lt_succ_of_le (card_singletons_le m)
  obtain ⟨m', hm'⟩ := Option.isSome_iff_exists.mp (finalizeLoop_isSome m.keys m hlt)
  refine ⟨m', fun fuel hfuel => ?_⟩
  induction fuel, hfuel using Nat.le_induction with
  | base => exact hm'
  | succ fuel _ ih => exact finalizeLoop_succ fuel m.keys m m' ih

/-- The clear flags afterwards are the closure of the clear flags before. -/
theorem finalizePointers_closure {fuel : Nat} {m m' : PointerMap Name}
    (h : finalizePointers fuel m = some m') :
    nonSingletons m' = closure (FromEdge m) (nonSingletons m) := by
  have hspec := finalizePointers_spec h
  refine eq_closure hspec.evolves.mono (fun x hx q hq => ?_)
    (hspec.sound _ closedUnder_closure subset_closure)
  exact hspec.done x hx q (hspec.evolves.fromEdge.symm ▸ hq)

/-! ## Nothing is left to do -/

/-- The map is closed: every non-singleton is done, and every name in a `from` list
is a key. -/
structure Stable (m : PointerMap Name) : Prop where
  done : ∀ x ∈ nonSingletons m, Done m x
  touched : ∀ n d, m.entry n = some d → d.from_ ⊆ m.keys

theorem finalizePointers_stable {fuel : Nat} {m m' : PointerMap Name}
    (h : finalizePointers fuel m = some m') : Stable m' := by
  have hspec := finalizePointers_spec h
  refine ⟨hspec.done, fun n d hd => ?_⟩
  obtain ⟨d₀, hd₀, hfrom⟩ := from_of_links (hspec.evolves.links n).symm hd
  exact hfrom ▸ hspec.touched n (m.mem_keys n (by simp [hd₀])) d₀ hd₀

/-- In a stable map the loop changes nothing, as long as the recursive calls that
it makes from a singleton change nothing. -/
theorem updateLoop_stable {recurse : PointerMap Name → Name → Option (PointerMap Name)}
    {m : PointerMap Name} (hm : Stable m) {p : Name} {d : PointerData Name}
    (hd : m.entry p = some d)
    (hrec : p ∉ nonSingletons m → ∀ q ∈ nonSingletons m, recurse m q = some m)
    (qs : List Name) (hqs : qs ⊆ d.from_) : updateLoop recurse p qs m = some m := by
  induction qs with
  | nil => rfl
  | cons q qs ih =>
      have hq : q ∈ d.from_ := hqs List.mem_cons_self
      have hrest := ih fun k hk => hqs (List.mem_cons_of_mem _ hk)
      rw [updateLoop, touch_of_mem (hm.touched p d hd hq)]
      split
      · rename_i d' e hd' he
        obtain rfl : d = d' := Option.some.inj (hd.symm.trans hd')
        split
        · rename_i hflag
          -- closed edges leave only the difference of a singleton to a non-singleton
          have hp : p ∉ nonSingletons m := by
            intro hp
            obtain ⟨e', he', hf'⟩ := hm.done p hp q ⟨d, hd, hq, by simp [he]⟩
            obtain ⟨d', hd', hf⟩ := hp
            obtain rfl : e = e' := Option.some.inj (he.symm.trans he')
            obtain rfl : d = d' := Option.some.inj (hd.symm.trans hd')
            exact hflag (hf.trans hf'.symm)
          have hqn : q ∈ nonSingletons m := by
            refine ⟨e, he, ?_⟩
            cases hs : e.singleton with
            | false => rfl
            | true =>
                rw [hs, ne_eq, Bool.not_eq_true] at hflag
                exact absurd ⟨d, hd, hflag⟩ hp
          rw [setNonSingleton_of_mem hqn, hrec hp q hqn, Option.bind_some]
          exact hrest
        · exact hrest
      · exact hrest

theorem updateDependentPointers_stable {m : PointerMap Name} (hm : Stable m) (fuel : Nat)
    (p : Name) : updateDependentPointers (fuel + 2) m p = some m := by
  rw [updateDependentPointers]
  split
  · rfl
  · rename_i d hd
    refine updateLoop_stable hm hd (fun _ q hq => ?_) d.from_ (List.Subset.refl _)
    rw [updateDependentPointers]
    split
    · rfl
    · rename_i e he
      exact updateLoop_stable hm he (fun hq' => absurd hq hq') e.from_ (List.Subset.refl _)

/-- A second run changes nothing. -/
theorem finalizePointers_of_stable {m : PointerMap Name} (hm : Stable m) (fuel : Nat) :
    finalizePointers (fuel + 2) m = some m := by
  have hloop : ∀ ns, finalizeLoop (fuel + 2) ns m = some m := by
    intro ns
    induction ns with
    | nil => rfl
    | cons n ns ih =>
        rw [finalizeLoop]
        split
        · exact ih
        · rw [updateDependentPointers_stable hm fuel n, Option.bind_some]
          exact ih
  exact hloop m.keys

/-- **The propagation is exact.** `finalizePointers` ends; it changes nothing but the
flags; the clear flags afterwards are the least set that contains the clear flags
before and is closed under the `from` edges; they do not depend on the order of the
keys or of any `from` list; and a second run changes nothing. -/
theorem finalizePointers_exact (m : PointerMap Name) :
    ∃ m', (∀ fuel, m.keys.length + 2 ≤ fuel → finalizePointers fuel m = some m') ∧
      (∀ n, links m' n = links m n) ∧
      IsLeast {S | nonSingletons m ⊆ S ∧ ClosedUnder (FromEdge m) S} (nonSingletons m') ∧
      (∀ m₂ m₂' fuel, Reordered m m₂ → finalizePointers fuel m₂ = some m₂' →
        nonSingletons m₂' = nonSingletons m') ∧
      ∀ fuel, 2 ≤ fuel → finalizePointers fuel m' = some m' := by
  obtain ⟨m', hm'⟩ := finalizePointers_terminates m
  have hrun := hm' _ le_rfl
  have hclosure := finalizePointers_closure hrun
  refine ⟨m', hm', (finalizePointers_spec hrun).evolves.links, ?_, ?_, ?_⟩
  · rw [hclosure]
    exact isLeast_closure
  · intro m₂ m₂' fuel hre hm₂
    rw [finalizePointers_closure hm₂, hclosure, hre.fromEdge_eq, hre.nonSingletons_eq]
  · intro fuel hfuel
    obtain ⟨k, rfl⟩ := Nat.exists_eq_add_of_le' hfuel
    exact finalizePointers_of_stable (finalizePointers_stable hrun) k

end Ironclad.Analysis
