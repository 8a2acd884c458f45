import Ironclad.Logic.Effects

/-!
# Programs that release memory

When memory is given back, it matters in which order the accesses come: what is read before is
read from memory that is still there, what is read behind is not. A `Releasing` program shows its
accesses and its releases in their order. A program that releases nothing is one of them
(`ofProg`); its reads come before its writes, as they do in every copy.
-/

namespace Ironclad.Logic

/-- What is done with a region. -/
inductive Access (w : Nat) where
  | read (r : Region w)
  | write (r : Region w)
  | release (r : Region w)
  deriving DecidableEq, Repr

/-- The end of a program, the memory then, and what was done on the way, in this order. -/
structure Course (w : Nat) (α : Type) where
  ending : Ending α
  mem : Memory w
  accesses : List (Access w)

namespace Course

variable {w : Nat} {α : Type}

/-- The course with earlier accesses in front. -/
def after (as : List (Access w)) (c : Course w α) : Course w α :=
  { c with accesses := as ++ c.accesses }

/-- Everything read lies in the region. -/
def ReadsIn (c : Course w α) (q : Region w) : Prop := ∀ r, .read r ∈ c.accesses → r ⊆ q

/-- Everything written lies in the region. -/
def WritesIn (c : Course w α) (q : Region w) : Prop := ∀ r, .write r ∈ c.accesses → r ⊆ q

/-- Behind a release nothing is read from the region released. -/
def ReadsOnlyBefore (c : Course w α) : Prop :=
  ∀ before r behind, c.accesses = before ++ .release r :: behind →
    ∀ q, .read q ∈ behind → q.Apart r

end Course

/-- A program over a memory that may release parts of it. -/
def Releasing (w : Nat) (α : Type) := Memory w → Course w α

namespace Releasing

variable {w : Nat} {α β : Type} {m : Memory w}

/-- One program after the other. -/
def bind (x : Releasing w α) (f : α → Releasing w β) : Releasing w β := fun m =>
  match x m with
  | ⟨.returns a, m', as⟩ => (f a m').after as
  | ⟨.fails, m', as⟩ => ⟨.fails, m', as⟩
  | ⟨.undefined, m', as⟩ => ⟨.undefined, m', as⟩

instance : Monad (Releasing w) where
  pure a := fun m => ⟨.returns a, m, []⟩
  bind := bind

/-- A program that releases nothing. -/
def ofProg (x : Prog w α) : Releasing w α := fun m =>
  ⟨(x m).ending, (x m).mem, (x m).reads.map .read ++ (x m).writes.map .write⟩

/-- Gives the region back; `scrap` is what it holds from then on. -/
def release (r : Region w) (scrap : Nat → BitVec 8) : Releasing w Unit := fun m =>
  ⟨.returns (), m.write r.start r.len scrap, [.release r]⟩

theorem read_ofProg {x : Prog w α} {r : Region w} (h : r ∈ (x m).reads) :
    .read r ∈ (ofProg x m).accesses :=
  List.mem_append_left _ (List.mem_map_of_mem h)

/-- What returns has gone through its first part, and then through the second one. -/
theorem returns_of_bind {x : Releasing w α} {f : α → Releasing w β} {b : β}
    (h : ((x >>= f) m).ending = .returns b) :
    ∃ a, (x m).ending = .returns a ∧ (f a (x m).mem).ending = .returns b ∧
      ((x >>= f) m).accesses = (x m).accesses ++ (f a (x m).mem).accesses := by
  change (bind x f m).ending = .returns b at h
  show ∃ a, _ ∧ _ ∧ (bind x f m).accesses = _
  unfold bind at h ⊢
  generalize x m = c at h ⊢
  obtain ⟨e, m', as⟩ := c
  cases e with
  | returns a => exact ⟨a, rfl, h, rfl⟩
  | fails => cases h
  | undefined => cases h

end Releasing

end Ironclad.Logic
