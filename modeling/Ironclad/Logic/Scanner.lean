import Mathlib.Algebra.GroupWithZero.Nat
import Mathlib.Data.List.Basic
import Mathlib.Tactic.TypeStar

/-!
# Splitting a text at separators on the top level

A scanner reads a text symbol by symbol and knows whether it is on the top level. A text is
split at the separators that occur there. `split_eq_some_iff` says that this undoes joining
texts that the scanner goes through without a separator on the top level.
-/

namespace Ironclad.Logic

structure Scanner (α σ : Type*) where
  start : σ
  step : σ → α → Option σ
  isTop : σ → Bool

namespace Scanner

variable {α σ : Type*} (S : Scanner α σ) (sep : α)

/-- From the state the text is read to its end, which is on the top level, without a
separator on the top level. -/
def Closes : σ → List α → Prop
  | s, [] => S.isTop s = true
  | s, c :: cs => ¬(c = sep ∧ S.isTop s = true) ∧ ∃ s', S.step s c = some s' ∧ Closes s' cs

/-- The state after the text. -/
def read : σ → List α → Option σ
  | s, [] => some s
  | s, c :: cs => (S.step s c).bind fun s' => read s' cs

/-- The pieces between the separators on the top level. -/
def split [DecidableEq α] : σ → List α → Option (List α × List (List α))
  | s, [] => if S.isTop s then some ([], []) else none
  | s, c :: cs =>
      if c = sep ∧ S.isTop s = true then
        (split S.start cs).map fun ps => ([], ps.1 :: ps.2)
      else (S.step s c).bind fun s' => (split s' cs).map fun ps => (c :: ps.1, ps.2)

/-- The piece before the first separator on the top level, and the text after it. -/
def cut [DecidableEq α] : σ → List α → Option (List α × Option (List α))
  | s, [] => if S.isTop s then some ([], none) else none
  | s, c :: cs =>
      if c = sep ∧ S.isTop s = true then some ([], some cs)
      else (S.step s c).bind fun s' => (cut s' cs).map fun p => (c :: p.1, p.2)

/-- The pieces with a separator before each of the later ones. -/
def join (p : List α) (ps : List (List α)) : List α := p ++ ps.flatMap fun q => sep :: q

variable {S sep}

theorem join_cons (p q : List α) (ps : List (List α)) :
    join sep p (q :: ps) = p ++ sep :: join sep q ps := by
  unfold join
  rw [List.flatMap_cons, List.cons_append]

theorem length_join (p : List α) (ps : List (List α)) :
    (join sep p ps).length = p.length + (ps.map fun q => q.length + 1).sum := by
  unfold join
  rw [List.length_append, List.length_flatMap]
  rfl

/-- A text that closes is read to a state on the top level. -/
theorem Closes.read {s : σ} {p : List α} (h : S.Closes sep s p) :
    ∃ s', S.read s p = some s' ∧ S.isTop s' = true := by
  induction p generalizing s with
  | nil => exact ⟨s, rfl, h⟩
  | cons c p ih =>
      obtain ⟨-, s', hstep, hp⟩ := h
      obtain ⟨t, ht, htop⟩ := ih hp
      exact ⟨t, Option.bind_eq_some_iff.mpr ⟨s', hstep, ht⟩, htop⟩

theorem closes_cons {s s' : σ} {c : α} {cs : List α} (hc : c ≠ sep)
    (hstep : S.step s c = some s') : S.Closes sep s (c :: cs) ↔ S.Closes sep s' cs := by
  constructor
  · rintro ⟨-, t, ht, h⟩
    obtain rfl : s' = t := Option.some.inj (hstep.symm.trans ht)
    exact h
  · intro h
    exact ⟨fun hcs => hc hcs.1, s', hstep, h⟩

/-- After a text that closes, the text closes if what follows does. -/
theorem closes_append {s s' : σ} {p q : List α} (hp : S.Closes sep s p)
    (hread : S.read s p = some s') (hq : S.Closes sep s' q) : S.Closes sep s (p ++ q) := by
  induction p generalizing s with
  | nil =>
      cases hread
      exact hq
  | cons c p ih =>
      obtain ⟨hc, t, hstep, hp⟩ := hp
      obtain ⟨t', hstep', hread⟩ := Option.bind_eq_some_iff.mp hread
      obtain rfl : t = t' := Option.some.inj (hstep.symm.trans hstep')
      exact ⟨hc, t, hstep, ih hp hread⟩

/-- A prefix that ends on the top level closes, and so does what follows. -/
theorem Closes.of_append {s s' : σ} {p q : List α} (h : S.Closes sep s (p ++ q))
    (hread : S.read s p = some s') (htop : S.isTop s' = true) :
    S.Closes sep s p ∧ S.Closes sep s' q := by
  induction p generalizing s with
  | nil =>
      cases hread
      exact ⟨htop, h⟩
  | cons c p ih =>
      obtain ⟨hc, t, hstep, hp⟩ := h
      obtain ⟨t', hstep', hread⟩ := Option.bind_eq_some_iff.mp hread
      obtain rfl : t = t' := Option.some.inj (hstep.symm.trans hstep')
      obtain ⟨h1, h2⟩ := ih hp hread
      exact ⟨⟨hc, t, hstep, h1⟩, h2⟩

theorem Closes.append_left {s : σ} {p q : List α} (h : S.Closes sep s (p ++ q)) :
    ∃ s', S.read s p = some s' ∧ S.Closes sep s' q := by
  induction p generalizing s with
  | nil => exact ⟨s, rfl, h⟩
  | cons c p ih =>
      obtain ⟨-, t, hstep, hp⟩ := h
      obtain ⟨s', hread, hq⟩ := ih hp
      exact ⟨s', Option.bind_eq_some_iff.mpr ⟨t, hstep, hread⟩, hq⟩

variable [DecidableEq α]

theorem split_cons_sep {s : σ} {c : α} {cs : List α} (h : c = sep ∧ S.isTop s = true) :
    S.split sep s (c :: cs) = (S.split sep S.start cs).map fun ps => ([], ps.1 :: ps.2) := by
  rw [split, if_pos h]

theorem split_cons {s : σ} {c : α} {cs : List α} (h : ¬(c = sep ∧ S.isTop s = true)) :
    S.split sep s (c :: cs) =
      (S.step s c).bind fun s' => (S.split sep s' cs).map fun ps => (c :: ps.1, ps.2) := by
  rw [split, if_neg h]

theorem split_of_closes {s : σ} {p : List α} {ps : List (List α)} (hp : S.Closes sep s p)
    (hps : ∀ q ∈ ps, S.Closes sep S.start q) : S.split sep s (join sep p ps) = some (p, ps) := by
  -- on the pieces, and for each of them on the symbols up to the separator behind it
  induction ps generalizing s p with
  | nil =>
      induction p generalizing s with
      | nil => exact if_pos hp
      | cons c p ih =>
          obtain ⟨hc, s', hstep, hp⟩ := hp
          show S.split sep s (c :: join sep p []) = _
          rw [split_cons hc, hstep, Option.bind_some, ih hp]
          rfl
  | cons q ps ih =>
      rw [List.forall_mem_cons] at hps
      induction p generalizing s with
      | nil =>
          rw [join_cons, List.nil_append, split_cons_sep ⟨rfl, hp⟩, ih hps.1 hps.2]
          rfl
      | cons c p ihp =>
          obtain ⟨hc, s', hstep, hp⟩ := hp
          show S.split sep s (c :: join sep p (q :: ps)) = _
          rw [split_cons hc, hstep, Option.bind_some, ihp hp]
          rfl

theorem closes_of_split {s : σ} {text p : List α} {ps : List (List α)}
    (h : S.split sep s text = some (p, ps)) :
    S.Closes sep s p ∧ (∀ q ∈ ps, S.Closes sep S.start q) ∧ text = join sep p ps := by
  induction text generalizing s p ps with
  | nil =>
      obtain ⟨htop, h⟩ := Option.ite_none_right_eq_some.mp h
      cases h
      exact ⟨htop, fun _ hq => absurd hq List.not_mem_nil, rfl⟩
  | cons c cs ih =>
      by_cases hc : c = sep ∧ S.isTop s = true
      · -- the first piece ends here, and the scanner starts again
        rw [split_cons_sep hc] at h
        obtain ⟨⟨q, qs⟩, hq, h⟩ := Option.map_eq_some_iff.mp h
        cases h
        obtain ⟨hclose, hall, rfl⟩ := ih hq
        refine ⟨hc.2, List.forall_mem_cons.mpr ⟨hclose, hall⟩, ?_⟩
        rw [join_cons, hc.1]
        rfl
      · rw [split_cons hc] at h
        obtain ⟨s', hstep, h⟩ := Option.bind_eq_some_iff.mp h
        obtain ⟨⟨q, qs⟩, hq, h⟩ := Option.map_eq_some_iff.mp h
        cases h
        obtain ⟨hclose, hall, rfl⟩ := ih hq
        exact ⟨⟨hc, s', hstep, hclose⟩, hall, rfl⟩

/-- **Splitting undoes joining.** -/
theorem split_eq_some_iff {text p : List α} {ps : List (List α)} :
    S.split sep S.start text = some (p, ps) ↔
      (∀ q ∈ p :: ps, S.Closes sep S.start q) ∧ text = join sep p ps := by
  rw [List.forall_mem_cons]
  constructor
  · intro h
    obtain ⟨hp, hps, htext⟩ := closes_of_split h
    exact ⟨⟨hp, hps⟩, htext⟩
  · rintro ⟨⟨hp, hps⟩, rfl⟩
    exact split_of_closes hp hps

/-- A text without a separator on the top level is cut nowhere, and another one at the
first of them. -/
theorem cut_eq_some_iff {s : σ} {text p : List α} {rest : Option (List α)} :
    S.cut sep s text = some (p, rest) ↔
      S.Closes sep s p ∧ text = p ++ rest.elim [] fun r => sep :: r := by
  induction text generalizing s p with
  | nil =>
      rw [cut, Option.ite_none_right_eq_some]
      constructor
      · rintro ⟨htop, h⟩
        cases h
        exact ⟨htop, rfl⟩
      · rintro ⟨hp, h⟩
        obtain ⟨rfl, hrest⟩ := List.append_eq_nil_iff.mp h.symm
        cases rest with
        | none => exact ⟨hp, rfl⟩
        | some r => cases hrest
  | cons c cs ih =>
      rw [cut]
      by_cases hc : c = sep ∧ S.isTop s = true
      · -- the text that comes before the cut is empty
        rw [if_pos hc]
        constructor
        · intro h
          cases h
          exact ⟨hc.2, by rw [hc.1]; rfl⟩
        · rintro ⟨hp, h⟩
          cases p with
          | nil => cases rest with
            | none => cases h
            | some r =>
                cases h
                rfl
          | cons d p =>
              cases h
              exact absurd hc hp.1
      · rw [if_neg hc]
        constructor
        · intro h
          obtain ⟨s', hstep, h⟩ := Option.bind_eq_some_iff.mp h
          obtain ⟨⟨q, r⟩, hq, h⟩ := Option.map_eq_some_iff.mp h
          cases h
          obtain ⟨hclose, rfl⟩ := ih.mp hq
          exact ⟨⟨hc, s', hstep, hclose⟩, rfl⟩
        · rintro ⟨hp, h⟩
          cases p with
          | nil => cases rest with
            | none => cases h
            | some r =>
                cases h
                exact absurd ⟨rfl, hp⟩ hc
          | cons d p =>
              cases h
              obtain ⟨-, s', hstep, hp⟩ := hp
              rw [hstep, Option.bind_some, ih.mpr ⟨hp, rfl⟩]
              rfl

end Scanner

end Ironclad.Logic
