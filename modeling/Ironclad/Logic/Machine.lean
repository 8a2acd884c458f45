import Mathlib.Data.List.Infix

/-!
# Machines whose steps may refuse

A machine is an initial state and a deterministic step that may refuse an
action: a failed assertion, or an action that is not possible in the state.
The environment's choices (addresses, counts, results of calls that are not
modelled) are part of the action, so a run is just a list of actions.

The rule that the developments below use is `visits_iff_stepsMeet`: when a
condition `C` on single steps is exactly what preserves an invariant, a run
keeps the property in *every* state it visits iff *every* step of it meets
`C`.
-/

namespace Ironclad.Logic

/-- An initial state and a step function; `none` ends the run. -/
structure Machine (σ α : Type*) where
  init : σ
  step : σ → α → Option σ

namespace Machine

variable {σ α : Type*}

/-- Perform the actions one after the other. -/
def exec (M : Machine σ α) : σ → List α → Option σ
  | s, [] => some s
  | s, a :: as => (M.step s a).bind fun t => M.exec t as

/-- The state after the actions, from the initial state. -/
def run (M : Machine σ α) (acts : List α) : Option σ := M.exec M.init acts

variable {M : Machine σ α}

@[simp] theorem exec_nil (s : σ) : M.exec s [] = some s := rfl

@[simp] theorem exec_cons (s : σ) (a : α) (as : List α) :
    M.exec s (a :: as) = (M.step s a).bind fun t => M.exec t as := rfl

theorem exec_append (s : σ) (as bs : List α) :
    M.exec s (as ++ bs) = (M.exec s as).bind fun t => M.exec t bs := by
  induction as generalizing s with
  | nil => rfl
  | cons a as ih =>
      simp only [List.cons_append, exec_cons]
      cases M.step s a with
      | none => rfl
      | some t => exact ih t

@[simp] theorem run_nil : M.run [] = some M.init := rfl

/-- A run of one more action. -/
theorem run_concat (as : List α) (a : α) :
    M.run (as ++ [a]) = (M.run as).bind fun s => M.step s a := by
  rw [run, exec_append]
  congr 1
  funext t
  simp

/-- The last step of a run that got through. -/
theorem run_concat_eq_some {as : List α} {a : α} {t : σ} :
    M.run (as ++ [a]) = some t ↔ ∃ s, M.run as = some s ∧ M.step s a = some t := by
  rw [run_concat, Option.bind_eq_some_iff]

/-- `P` holds in every state the run visits. A step that refuses ends the run,
so only the prefixes that got through visit a state. -/
def Visits (M : Machine σ α) (acts : List α) (P : σ → Prop) : Prop :=
  ∀ as, as <+: acts → ∀ s, M.run as = some s → P s

/-- Every step the run performs meets `C`, which may look at the state before
the step and at the action, never at the state after it. -/
def StepsMeet (M : Machine σ α) (acts : List α) (C : σ → α → Prop) : Prop :=
  ∀ as a, as ++ [a] <+: acts → ∀ s, M.run as = some s → (M.step s a).isSome → C s a

theorem stepsMeet_nil {C : σ → α → Prop} : M.StepsMeet [] C := by
  intro as a has
  obtain ⟨l, hl⟩ := has
  simp at hl

/-- The condition for a run of one more action. -/
theorem StepsMeet.concat {as : List α} {a : α} {C : σ → α → Prop} (h : M.StepsMeet as C)
    (ha : ∀ s, M.run as = some s → C s a) : M.StepsMeet (as ++ [a]) C := by
  intro bs b hbs s hs hsome
  rcases List.prefix_concat_iff.mp hbs with heq | hpre
  · obtain ⟨rfl, hb⟩ := List.append_inj' heq rfl
    rw [List.singleton_inj.mp hb]
    exact ha s hs
  · exact h bs b hpre s hs hsome

/-- The state a run ends in is one it visits. -/
theorem Visits.last {acts : List α} {P : σ → Prop} (h : M.Visits acts P) {s : σ}
    (hrun : M.run acts = some s) : P s :=
  h acts (List.prefix_refl acts) s hrun

theorem Visits.mono {acts : List α} {P Q : σ → Prop} (h : M.Visits acts P)
    (hPQ : ∀ s, P s → Q s) : M.Visits acts Q :=
  fun as has s hs => hPQ s (h as has s hs)

/-- **The run rule.** An invariant that holds initially and that every step
meeting `C` preserves holds in every state of a run all of whose steps meet
`C`. -/
theorem visits_of_stepsMeet (Inv : σ → Prop) {C : σ → α → Prop} (hinit : Inv M.init)
    (hstep : ∀ s a t, Inv s → C s a → M.step s a = some t → Inv t)
    {acts : List α} (hC : M.StepsMeet acts C) : M.Visits acts Inv := by
  intro as
  induction as using List.reverseRecOn with
  | nil =>
      intro _ s hs
      rw [run_nil, Option.some.injEq] at hs
      exact hs ▸ hinit
  | append_singleton as a ih =>
      intro has t ht
      obtain ⟨s, hs, hst⟩ := run_concat_eq_some.mp ht
      have hpre : as <+: acts := (List.prefix_append as [a]).trans has
      exact hstep s a t (ih hpre s hs) (hC as a has s hs (by rw [hst]; rfl)) hst

/-- The invariant rule: what holds initially and is preserved by every step
holds in every visited state. -/
theorem visits_of_invariant (Inv : σ → Prop) (hinit : Inv M.init)
    (hstep : ∀ s a t, Inv s → M.step s a = some t → Inv t) (acts : List α) :
    M.Visits acts Inv :=
  visits_of_stepsMeet Inv (C := fun _ _ => True) hinit (fun s a t hs _ => hstep s a t hs)
    (fun _ _ _ _ _ _ => trivial)

/-- **The exact run rule.** When the steps that meet `C` preserve the invariant,
and a step that leads from the invariant to a state with `P` meets `C`, a run
visits only `P`-states iff all its steps meet `C`. -/
theorem visits_iff_stepsMeet (Inv : σ → Prop) {P : σ → Prop} {C : σ → α → Prop}
    (hinit : Inv M.init)
    (hP : ∀ s, Inv s → P s)
    (hstep : ∀ s a t, Inv s → C s a → M.step s a = some t → Inv t)
    (hback : ∀ s a t, Inv s → M.step s a = some t → P t → C s a) (acts : List α) :
    M.Visits acts P ↔ M.StepsMeet acts C := by
  constructor
  · intro hv
    -- along a run that visits only `P`-states, the invariant itself is kept
    have hinv : ∀ as, as <+: acts → ∀ s, M.run as = some s → Inv s := by
      intro as
      induction as using List.reverseRecOn with
      | nil =>
          intro _ s hs
          rw [run_nil, Option.some.injEq] at hs
          exact hs ▸ hinit
      | append_singleton as a ih =>
          intro has t ht
          obtain ⟨s, hs, hst⟩ := run_concat_eq_some.mp ht
          have hs' : Inv s := ih ((List.prefix_append as [a]).trans has) s hs
          exact hstep s a t hs' (hback s a t hs' hst (hv _ has t ht)) hst
    intro as a has s hs hsome
    obtain ⟨t, hst⟩ := Option.isSome_iff_exists.mp hsome
    have hpre : as <+: acts := (List.prefix_append as [a]).trans has
    exact hback s a t (hinv as hpre s hs) hst
      (hv (as ++ [a]) has t (run_concat_eq_some.mpr ⟨s, hs, hst⟩))
  · intro hC
    exact (visits_of_stepsMeet Inv hinit hstep hC).mono hP

/-- Whenever the run gets to a state, another machine gets to a related one. -/
def Follows {τ : Type*} (M' : Machine τ α) (M : Machine σ α) (acts : List α)
    (R : σ → τ → Prop) : Prop :=
  ∀ as, as <+: acts → ∀ s, M.run as = some s → ∃ t, M'.run as = some t ∧ R s t

/-- **The simulation rule.** When the initial states are related, and a machine can follow each
step of another from a related state, it can follow every run. -/
theorem follows_of_simulates {τ : Type*} {M' : Machine τ α} {R : σ → τ → Prop} {C : α → Prop}
    (hinit : R M.init M'.init)
    (hstep : ∀ s t a s', R s t → C a → M.step s a = some s' →
      ∃ t', M'.step t a = some t' ∧ R s' t')
    {acts : List α} (hC : ∀ a ∈ acts, C a) : M'.Follows M acts R := by
  intro as
  induction as using List.reverseRecOn with
  | nil =>
      intro _ s hs
      rw [run_nil, Option.some.injEq] at hs
      exact ⟨M'.init, run_nil, hs ▸ hinit⟩
  | append_singleton as a ih =>
      intro has s hs
      obtain ⟨s₀, hs₀, hs⟩ := run_concat_eq_some.mp hs
      obtain ⟨t₀, ht₀, hR⟩ := ih ((List.prefix_append as [a]).trans has) s₀ hs₀
      have ha : C a := hC a (has.subset (by simp))
      obtain ⟨t, ht, hR'⟩ := hstep s₀ t₀ a s hR ha hs
      exact ⟨t, run_concat_eq_some.mpr ⟨t₀, ht₀, ht⟩, hR'⟩

/-- The whole run. -/
theorem Follows.last {τ : Type*} {M' : Machine τ α} {acts : List α} {R : σ → τ → Prop}
    (h : M'.Follows M acts R) {s : σ} (hrun : M.run acts = some s) :
    ∃ t, M'.run acts = some t ∧ R s t :=
  h acts (List.prefix_refl acts) s hrun

end Machine

end Ironclad.Logic
