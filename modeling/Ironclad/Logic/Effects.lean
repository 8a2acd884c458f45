import Ironclad.Logic.Region

/-!
# Programs over a memory, with their accesses

A program takes a memory to an outcome: how it ends, the memory then, and the regions it read
and wrote. It ends by returning a value, by a failed assertion, or with undefined behaviour
(the library it calls promises nothing about what happens next).

Programs are composed by `bind`: the accesses add up, and what comes after a failure is not
performed.
-/

namespace Ironclad.Logic

/-- How a program ends. -/
inductive Ending (α : Type) where
  | returns (a : α)
  | fails
  | undefined
  deriving DecidableEq, Repr

theorem Ending.ne_undefined {α : Type} {e : Ending α} {a : α} (h : e = .returns a) :
    e ≠ .undefined := by
  rw [h]
  nofun

/-- The end of a program, the memory then, and the accesses made on the way. -/
structure Outcome (w : Nat) (α : Type) where
  ending : Ending α
  mem : Memory w
  reads : List (Region w)
  writes : List (Region w)

namespace Outcome

variable {w : Nat} {α : Type} {o : Outcome w α} {rs ws : List (Region w)} {q : Region w}

/-- The outcome with earlier accesses in front. -/
def after (rs ws : List (Region w)) (o : Outcome w α) : Outcome w α :=
  { o with reads := rs ++ o.reads, writes := ws ++ o.writes }

@[simp] theorem after_ending : (o.after rs ws).ending = o.ending := rfl
@[simp] theorem after_mem : (o.after rs ws).mem = o.mem := rfl
@[simp] theorem after_reads : (o.after rs ws).reads = rs ++ o.reads := rfl
@[simp] theorem after_writes : (o.after rs ws).writes = ws ++ o.writes := rfl

/-- The outcome without the value returned. -/
def discard (o : Outcome w α) : Outcome w Unit where
  ending :=
    match o.ending with
    | .returns _ => .returns ()
    | .fails => .fails
    | .undefined => .undefined
  mem := o.mem
  reads := o.reads
  writes := o.writes

@[simp] theorem discard_reads : o.discard.reads = o.reads := rfl
@[simp] theorem discard_writes : o.discard.writes = o.writes := rfl

@[simp] theorem discard_after : (o.after rs ws).discard = o.discard.after rs ws := rfl

theorem discard_fails : o.discard.ending = .fails ↔ o.ending = .fails := by
  obtain ⟨e, m, rs, ws⟩ := o
  cases e <;> simp [discard]

/-- The program got through: every assertion passed and every call was defined. -/
def Passes (o : Outcome w α) : Prop := ∃ a, o.ending = .returns a

/-- Everything read lies in the region. -/
def ReadsIn (o : Outcome w α) (q : Region w) : Prop := ∀ r ∈ o.reads, r ⊆ q

/-- Everything written lies in the region. -/
def WritesIn (o : Outcome w α) (q : Region w) : Prop := ∀ r ∈ o.writes, r ⊆ q

end Outcome

/-- A program over a memory. -/
def Prog (w : Nat) (α : Type) := Memory w → Outcome w α

namespace Prog

variable {w : Nat} {α β : Type} {m m' : Memory w} {a : α} {rs ws : List (Region w)}

/-- One program after the other. -/
def bind (x : Prog w α) (f : α → Prog w β) : Prog w β := fun m =>
  match x m with
  | ⟨.returns a, m', rs, ws⟩ => (f a m').after rs ws
  | ⟨.fails, m', rs, ws⟩ => ⟨.fails, m', rs, ws⟩
  | ⟨.undefined, m', rs, ws⟩ => ⟨.undefined, m', rs, ws⟩

instance : Monad (Prog w) where
  pure a := fun m => ⟨.returns a, m, [], []⟩
  bind := bind

/-- `assert(b)`. -/
def assert (b : Bool) : Prog w Unit := fun m =>
  if b then ⟨.returns (), m, [], []⟩ else ⟨.fails, m, [], []⟩

/-- Behaviour that nothing is promised about. -/
def undefined : Prog w α := fun m => ⟨.undefined, m, [], []⟩

/-- The byte at an address. -/
def load (p : BitVec w) : Prog w (BitVec 8) := fun m => ⟨.returns (m p), m, [⟨p, 1⟩], []⟩

@[simp] theorem pure_run : (pure a : Prog w α) m = ⟨.returns a, m, [], []⟩ := rfl

theorem bind_of_returns {x : Prog w α} {f : α → Prog w β}
    (h : x m = ⟨.returns a, m', rs, ws⟩) : (x >>= f) m = (f a m').after rs ws := by
  show bind x f m = _
  rw [bind, h]

theorem bind_of_ending {x : Prog w α} {f : α → Prog w β} (h : (x m).ending = .returns a) :
    (x >>= f) m = (f a (x m).mem).after (x m).reads (x m).writes :=
  bind_of_returns (by rw [← h])

theorem bind_of_fails {x : Prog w α} {f : α → Prog w β} (h : x m = ⟨.fails, m', rs, ws⟩) :
    (x >>= f) m = ⟨.fails, m', rs, ws⟩ := by
  show bind x f m = _
  rw [bind, h]

theorem bind_of_ending_fails {x : Prog w α} {f : α → Prog w β} (h : (x m).ending = .fails) :
    (x >>= f) m = ⟨.fails, (x m).mem, (x m).reads, (x m).writes⟩ :=
  bind_of_fails (by rw [← h])

theorem bind_of_undefined {x : Prog w α} {f : α → Prog w β}
    (h : x m = ⟨.undefined, m', rs, ws⟩) : (x >>= f) m = ⟨.undefined, m', rs, ws⟩ := by
  show bind x f m = _
  rw [bind, h]

theorem bind_ending_of_undefined {x : Prog w α} {f : α → Prog w β}
    (h : (x m).ending = .undefined) : ((x >>= f) m).ending = .undefined := by
  have hx : x m = ⟨.undefined, (x m).mem, (x m).reads, (x m).writes⟩ := by rw [← h]
  rw [bind_of_undefined hx]

/-- What returns has gone through its first part. -/
theorem returns_of_bind {x : Prog w α} {f : α → Prog w β} {b : β}
    (h : ((x >>= f) m).ending = .returns b) :
    ∃ a, (x m).ending = .returns a ∧ (f a (x m).mem).ending = .returns b := by
  change (bind x f m).ending = .returns b at h
  rw [bind] at h
  generalize x m = o at h ⊢
  obtain ⟨e, m', rs, ws⟩ := o
  cases e with
  | returns a => exact ⟨a, rfl, h⟩
  | fails => cases h
  | undefined => cases h

/-- Only the value returned is replaced behind the last effect. -/
theorem bind_pure_discard {x : Prog w Unit} (a : α) :
    ((x >>= fun _ => pure a) m).discard = x m := by
  show (bind x (fun _ => pure a) m).discard = x m
  unfold bind
  obtain ⟨e, m', rs, ws⟩ := x m
  cases e with
  | returns u => simp [Outcome.discard, Outcome.after]
  | fails => rfl
  | undefined => rfl

@[simp] theorem load_bind {p : BitVec w} {f : BitVec 8 → Prog w β} :
    (load p >>= f) m = (f (m p) m).after [⟨p, 1⟩] [] := rfl

theorem assert_run {b : Bool} :
    (assert b : Prog w Unit) m =
      if b then ⟨.returns (), m, [], []⟩ else ⟨.fails, m, [], []⟩ := rfl

theorem assert_true_bind {b : Bool} {f : Unit → Prog w β} (h : b = true) :
    (assert b >>= f) m = f () m := by
  subst h
  rfl

theorem assert_false_bind {b : Bool} {f : Unit → Prog w β} (h : b = false) :
    (assert b >>= f) m = ⟨.fails, m, [], []⟩ := by
  subst h
  rfl

/-- What does not end in a failure has passed the assertion in front. -/
theorem assert_bind_ne_fails {b : Bool} {f : Unit → Prog w β}
    (h : ((assert b >>= f) m).ending ≠ .fails) : b = true ∧ (f () m).ending ≠ .fails := by
  cases b with
  | false => exact absurd rfl h
  | true => exact ⟨rfl, h⟩

theorem assert_bind_returns {b : Bool} {f : Unit → Prog w β} {r : β}
    (h : ((assert b >>= f) m).ending = .returns r) : b = true ∧ (f () m).ending = .returns r := by
  cases b with
  | false => cases h
  | true => exact ⟨rfl, h⟩

/-- What does not stop at the first of two assertions has passed both. -/
theorem two_asserts {b c : Bool} {f : Prog w β}
    (h : (((assert b : Prog w Unit) >>= fun _ => assert c >>= fun _ => f) m).ending ≠ .fails) :
    b = true ∧ c = true := by
  obtain ⟨hb, hrest⟩ := assert_bind_ne_fails h
  exact ⟨hb, (assert_bind_ne_fails hrest).1⟩

/-- What got through an assertion passed it. -/
theorem assert_bind_passes {b : Bool} {f : Unit → Prog w β} :
    ((assert b >>= f) m).Passes ↔ b = true ∧ (f () m).Passes := by
  cases b with
  | true => simp [assert_true_bind]
  | false => simp [assert_false_bind, Outcome.Passes]

end Prog

end Ironclad.Logic
