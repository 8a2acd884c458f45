import Ironclad.Logic.Machine
import Ironclad.Pointers.Stack

/-!
# Dangling local pointers

A local pointer accepts an address when its own temporal bound is not above it,
or when the source is flagged as not on the stack. The bound alone keeps every
local pointer within its own frame and the older ones (`StackInv`); the flag does
not, because an assignment sets the flag of its receiver for every source
(`tagged_assignTb`), so a pointer that received a stack address once passes it on
to any other. `stackMachine_noDangling_iff` is the exact condition on the
assignments of a run.
-/

namespace Ironclad.Pointers

open Ironclad.Logic Ironclad.Logic.LowTag

def stackMachine (limit : Word) : Machine StackState LocalOp := ⟨.empty, localStep limit⟩

/-- Null, a heap or global address, or an address in a live frame that is at least
as old as the owner. -/
def HoldsLive (limit : Word) (fs : List Frame) (h : Held) : Prop :=
  heapOrGlobal limit h.data = true ∨
    ∃ e f, e ≤ h.owner ∧ frameAt fs e = some f ∧ f.contains h.data = true

/-- No live `lptr` or `laptr` dangles. -/
def NoDangling (limit : Word) (s : StackState) : Prop :=
  ∀ h ∈ s.locals, HoldsLive limit s.frames h

/-- The assignments that respect the receiver's bound: the source holds null, a
heap or a global address, or its flag is clear (so the assertion compares the
address with the bound), or the address is not below the bound anyway. -/
def RespectsBound (limit : Word) (s : StackState) (op : LocalOp) : Prop :=
  ∀ h o, assigned s op = some (h, o) →
    heapOrGlobal limit o.data = true ∨ tagged o.tb = false ∨ untag h.tb ≤ o.data

/-! ## Frames -/

/-- Frames are above `limit`, and below every stack pointer read in their callers. -/
structure WellNested (limit : Word) (fs : List Frame) : Prop where
  frame : ∀ d f, frameAt fs d = some f → limit ≤ f.lo ∧ f.lo ≤ f.hi ∧ f.spMin ≤ f.lo
  nested : ∀ d e f g, d < e → frameAt fs d = some f → frameAt fs e = some g → g.hi < f.spMin

theorem wellNested_nil (limit : Word) : WellNested limit [] :=
  ⟨fun _ _ h => by simp [frameAt] at h, fun _ _ _ _ _ h => by simp [frameAt] at h⟩

/-- A frame laid out below everything its callers have read. -/
theorem WellNested.cons {limit : Word} {f : Frame} {fs : List Frame}
    (hf : limit ≤ f.lo ∧ f.lo ≤ f.hi ∧ f.spMin ≤ f.lo)
    (hbelow : ∀ d g, frameAt fs d = some g → f.hi < g.spMin) (hn : WellNested limit fs) :
    WellNested limit (f :: fs) := by
  constructor
  · intro d g hg
    rcases frameAt_cons_eq_some.mp hg with ⟨-, rfl⟩ | hg
    · exact hf
    · exact hn.frame d g hg
  · intro d e g k hde hg hk
    rcases frameAt_cons_eq_some.mp hk with ⟨rfl, rfl⟩ | hk
    · rw [frameAt_cons_of_lt hde] at hg
      exact hbelow d g hg
    · rw [frameAt_cons_of_lt (by have := frameAt_lt hk; omega)] at hg
      exact hn.nested d e g k hde hg hk

theorem WellNested.tail {limit : Word} {f : Frame} {fs : List Frame}
    (hn : WellNested limit (f :: fs)) : WellNested limit fs :=
  ⟨fun d g hg => hn.frame d g (frameAt_cons_eq_some.mpr (.inr hg)),
    fun d e g k hde hg hk => hn.nested d e g k hde (frameAt_cons_eq_some.mpr (.inr hg))
      (frameAt_cons_eq_some.mpr (.inr hk))⟩

/-- What lies below the current frame's stack pointers lies below all of them. -/
theorem WellNested.belowTop {limit hi : Word} {fs : List Frame} (hn : WellNested limit fs)
    (h : belowTop hi fs = true) {d : Nat} {g : Frame} (hg : frameAt fs d = some g) :
    hi < g.spMin := by
  cases fs with
  | nil => simp [frameAt] at hg
  | cons f fs =>
      have htop : hi < f.spMin := of_decide_eq_true h
      rcases frameAt_cons_eq_some.mp hg with ⟨-, rfl⟩ | hg'
      · exact htop
      · have hnest := hn.nested d fs.length g f (frameAt_lt hg') hg (frameAt_cons_length f fs)
        obtain ⟨-, h1, h2⟩ := hn.frame fs.length f (frameAt_cons_length f fs)
        bv_omega

/-- Of two live frames, the newer one is lower. -/
theorem WellNested.lo_le {limit : Word} {fs : List Frame} (hn : WellNested limit fs)
    {d e : Nat} {f g : Frame} (hde : d ≤ e) (hf : frameAt fs d = some f)
    (hg : frameAt fs e = some g) : g.lo ≤ f.lo := by
  rcases Nat.eq_or_lt_of_le hde with rfl | hlt
  · rw [hf] at hg
    rw [Option.some.inj hg]
    exact BitVec.le_refl _
  · have h1 := hn.nested d e f g hlt hf hg
    obtain ⟨-, h2, -⟩ := hn.frame e g hg
    obtain ⟨-, -, h3⟩ := hn.frame d f hf
    bv_omega

/-- What reading the stack pointer does to the frames: the current one remembers it. -/
theorem GETSP_eq_some {sp : Word} {fs fs' : List Frame} (h : GETSP sp fs = some fs') :
    ∃ f rest m, fs = f :: rest ∧ fs' = { f with spMin := m } :: rest ∧
      sp ≤ f.lo ∧ m ≤ sp ∧ m ≤ f.spMin := by
  cases fs with
  | nil => contradiction
  | cons f rest =>
      obtain ⟨⟨-, hlo⟩, hfs⟩ := Option.ite_none_right_eq_some.mp h
      refine ⟨f, rest, _, rfl, (Option.some.inj hfs).symm, hlo, ?_⟩
      split <;> bv_omega

/-- The frames after the stack pointer was read: each is where it was. -/
theorem frameAt_GETSP {sp : Word} {fs fs' : List Frame} (h : GETSP sp fs = some fs')
    {d : Nat} {f : Frame} (hf : frameAt fs d = some f) :
    ∃ f', frameAt fs' d = some f' ∧ f'.lo = f.lo ∧ f'.hi = f.hi ∧ f'.spMin ≤ f.spMin := by
  obtain ⟨g, rest, m, rfl, rfl, -, -, hm⟩ := GETSP_eq_some h
  rcases frameAt_cons_eq_some.mp hf with ⟨rfl, rfl⟩ | hf
  · exact ⟨_, frameAt_cons_length _ rest, rfl, rfl, hm⟩
  · exact ⟨f, frameAt_cons_eq_some.mpr (.inr hf), rfl, rfl, BitVec.le_refl _⟩

theorem WellNested.getSP {limit sp : Word} {fs fs' : List Frame} (hn : WellNested limit fs)
    (h : GETSP sp fs = some fs') : WellNested limit fs' := by
  obtain ⟨f, rest, m, rfl, rfl, hlo, hsp, hm⟩ := GETSP_eq_some h
  obtain ⟨h1, h2, h3⟩ := hn.frame rest.length f (frameAt_cons_length f rest)
  refine .cons ⟨h1, h2, BitVec.le_trans hsp hlo⟩ (fun d g hg => ?_) hn.tail
  exact hn.nested d rest.length g f (frameAt_lt hg) (frameAt_cons_eq_some.mpr (.inr hg))
    (frameAt_cons_length f rest)

/-! ## The invariant -/

/-- The owner is live, and the bound is a stack pointer that was read in it. -/
def Owned (fs : List Frame) (h : Held) : Prop :=
  ∃ f, frameAt fs h.owner = some f ∧ f.spMin ≤ untag h.tb ∧ untag h.tb ≤ f.lo

/-- The frames are nested and every local pointer is owned by one of them. -/
structure StackInv (limit : Word) (s : StackState) : Prop where
  nested : WellNested limit s.frames
  owned : ∀ h ∈ s.locals, Owned s.frames h

theorem stackInv_empty (limit : Word) : StackInv limit .empty :=
  ⟨wellNested_nil limit, fun _ h => absurd h List.not_mem_nil⟩

theorem Owned.cons {f : Frame} {fs : List Frame} {h : Held} (ho : Owned fs h) :
    Owned (f :: fs) h := by
  obtain ⟨g, hg, hb⟩ := ho
  exact ⟨g, frameAt_cons_eq_some.mpr (.inr hg), hb⟩

theorem Owned.of_cons {f : Frame} {fs : List Frame} {h : Held} (ho : Owned (f :: fs) h)
    (hlt : h.owner < fs.length) : Owned fs h := by
  obtain ⟨g, hg, hb⟩ := ho
  rw [frameAt_cons_of_lt hlt] at hg
  exact ⟨g, hg, hb⟩

theorem Owned.getSP {sp : Word} {fs fs' : List Frame} {h : Held} (ho : Owned fs h)
    (hsp : GETSP sp fs = some fs') : Owned fs' h := by
  obtain ⟨f, hf, hmin, hlo⟩ := ho
  obtain ⟨f', hf', hlo', -, hmin'⟩ := frameAt_GETSP hsp hf
  exact ⟨f', hf', BitVec.le_trans hmin' hmin, hlo' ▸ hlo⟩

/-- A new pointer of the current frame, with the stack pointer as its bound. -/
theorem Owned.new {sp : Word} {fs fs' : List Frame} (hsp : GETSP sp fs = some fs') {h : Held}
    (howner : h.owner = fs'.length - 1) (hbound : untag h.tb = untag sp) : Owned fs' h := by
  have hal := GETSP_not_tagged hsp
  obtain ⟨f, rest, m, rfl, rfl, hlo, hm, -⟩ := GETSP_eq_some hsp
  refine ⟨_, by rw [howner]; exact frameAt_cons_length _ rest, ?_⟩
  -- an aligned word is its own base
  have hbase : untag sp = sp := by
    apply BitVec.eq_of_toNat_eq
    rw [toNat_untag (by omega)]
    have := (not_tagged_iff (by omega) sp).mp hal
    omega
  rw [hbound, hbase]
  exact ⟨hm, hlo⟩

/-- A new pointer keeps the invariant. -/
theorem NewLocal.stackInv {limit sp : Word} {s t : StackState} {h : Held}
    (hn : NewLocal limit s t sp h) (hs : StackInv limit s) : StackInv limit t := by
  refine ⟨hs.nested.getSP hn.frames, fun k hk => ?_⟩
  rcases hn.locals k hk with hk | rfl
  · exact (hs.owned k hk).getSP hn.frames
  · exact .new hn.frames hn.owner hn.bound

/-- **Every step keeps the invariant**: no operation loses a bound. -/
theorem localStep_stackInv {limit : Word} {s t : StackState} {op : LocalOp}
    (hs : StackInv limit s) (h : localStep limit s op = some t) : StackInv limit t := by
  cases localStep_effect h with
  | call lo hi ops above range below frames locals =>
      constructor
      · rw [frames]
        exact .cons ⟨above, range, BitVec.le_refl _⟩
          (fun d g hg => hs.nested.belowTop below hg) hs.nested
      · intro k hk
        rw [frames]
        exact (hs.owned k (locals ▸ hk)).cons
  | ret f ops frames locals =>
      constructor
      · have hn := hs.nested
        rw [frames] at hn
        exact hn.tail
      · intro k hk
        obtain ⟨hk, hlt⟩ := locals k hk
        have ho := hs.owned k hk
        rw [frames] at ho
        exact ho.of_cons hlt
  | new sp g ops new => exact new.stackInv hs
  | assign r o ops receiver source check frames locals result =>
      refine ⟨frames ▸ hs.nested, fun k hk => ?_⟩
      rw [frames]
      rcases locals k hk with hk | rfl
      · exact hs.owned k hk
      · obtain ⟨f, hf, hb⟩ := hs.owned r receiver
        refine ⟨f, hf, ?_⟩
        rw [show untag (r.assign o).tb = untag r.tb from untag_assignTb r.tb o.tb]
        exact hb

/-! ## The addresses -/

/-- A pointer keeps holding a live address when the frames up to its owner stay
where they are. -/
theorem HoldsLive.mono {limit : Word} {fs fs' : List Frame} {h : Held}
    (hl : HoldsLive limit fs h)
    (hfs : ∀ e f, e ≤ h.owner → frameAt fs e = some f →
      ∃ f', frameAt fs' e = some f' ∧ f'.lo = f.lo ∧ f'.hi = f.hi) :
    HoldsLive limit fs' h := by
  rcases hl with hg | ⟨e, f, he, hf, hc⟩
  · exact .inl hg
  · obtain ⟨f', hf', hlo, hhi⟩ := hfs e f he hf
    refine .inr ⟨e, f', he, hf', ?_⟩
    rw [Frame.contains_iff] at hc ⊢
    rw [hlo, hhi]
    exact hc

theorem HoldsLive.getSP {limit sp : Word} {fs fs' : List Frame} {h : Held}
    (hl : HoldsLive limit fs h) (hsp : GETSP sp fs = some fs') : HoldsLive limit fs' h :=
  hl.mono fun _ _ _ hf => by
    obtain ⟨f', hf', hlo, hhi, -⟩ := frameAt_GETSP hsp hf
    exact ⟨f', hf', hlo, hhi⟩

/-- A valid address is held by anyone in the current frame. -/
theorem holdsLive_of_validAddr {limit : Word} {fs : List Frame} {h : Held}
    (hv : validAddr limit fs h.data = true) (howner : h.owner = fs.length - 1) :
    HoldsLive limit fs h := by
  simp only [validAddr, Bool.or_eq_true, List.any_eq_true] at hv
  rcases hv with hg | ⟨f, hf, hc⟩
  · exact .inl hg
  · obtain ⟨e, he⟩ := exists_frameAt_of_mem hf
    have := frameAt_lt he
    exact .inr ⟨e, f, by omega, he, hc⟩

/-- An address a live pointer holds is valid. -/
theorem HoldsLive.data_valid {limit : Word} {fs : List Frame} {h : Held}
    (hl : HoldsLive limit fs h) : validAddr limit fs h.data = true := by
  simp only [validAddr, Bool.or_eq_true, List.any_eq_true]
  rcases hl with hg | ⟨e, f, -, hf, hc⟩
  · exact .inl hg
  · exact .inr ⟨f, mem_of_frameAt hf, hc⟩

theorem NewLocal.data_valid {limit sp : Word} {s t : StackState} {h : Held}
    (hn : NewLocal limit s t sp h) (hd : NoDangling limit s) :
    validAddr limit s.frames h.data = true := by
  rcases hn.data with hv | ⟨o, ho, hdata⟩
  · exact hv
  · rw [← hdata]
    exact (hd o ho).data_valid

theorem length_GETSP {sp : Word} {fs fs' : List Frame} (h : GETSP sp fs = some fs') :
    fs'.length = fs.length := by
  obtain ⟨f, rest, m, rfl, rfl, -⟩ := GETSP_eq_some h
  rfl

/-- The bound is what protects: a live address that is not below the receiver's
bound lies in the receiver's frame or an older one. -/
theorem HoldsLive.assign {limit : Word} {s : StackState} (hs : StackInv limit s) {r o : Held}
    (hr : r ∈ s.locals) (ho : HoldsLive limit s.frames o) (hb : untag r.tb ≤ o.data) :
    HoldsLive limit s.frames (r.assign o) := by
  rcases ho with hg | ⟨e, f, -, hf, hc⟩
  · exact .inl hg
  · refine .inr ⟨e, f, ?_, hf, hc⟩
    obtain ⟨g, hg, hmin, -⟩ := hs.owned r hr
    by_contra hlt
    -- a newer frame lies below every bound of an older one
    have hnest := hs.nested.nested r.owner e g f (Nat.lt_of_not_le hlt) hg hf
    have hle := (Frame.contains_iff.mp hc).2
    bv_omega

/-- Conversely, a receiver that holds a live address of its own or an older frame
has a bound that is not above it. -/
theorem bound_le_of_holdsLive {limit : Word} {s : StackState} (hs : StackInv limit s)
    {r o : Held} (hr : r ∈ s.locals) (h : HoldsLive limit s.frames (r.assign o)) :
    heapOrGlobal limit o.data = true ∨ untag r.tb ≤ o.data := by
  rcases h with hg | ⟨e, f, he, hf, hc⟩
  · exact .inl hg
  · obtain ⟨g, hg, -, hlo⟩ := hs.owned r hr
    have h1 := hs.nested.lo_le he hf hg
    have h2 := (Frame.contains_iff.mp hc).1
    exact .inr (BitVec.le_trans hlo (BitVec.le_trans h1 h2))

/-- A new pointer does not dangle. -/
theorem NewLocal.noDangling {limit sp : Word} {s t : StackState} {h : Held}
    (hn : NewLocal limit s t sp h) (hd : NoDangling limit s) : NoDangling limit t := by
  have howner : h.owner = s.frames.length - 1 := length_GETSP hn.frames ▸ hn.owner
  intro k hk
  rcases hn.locals k hk with hk | rfl
  · exact (hd k hk).getSP hn.frames
  · exact (holdsLive_of_validAddr (hn.data_valid hd) howner).getSP hn.frames

/-- A step that respects the bounds leaves no pointer dangling. -/
theorem localStep_noDangling {limit : Word} {s t : StackState} {op : LocalOp}
    (hs : StackInv limit s) (hd : NoDangling limit s) (hC : RespectsBound limit s op)
    (h : localStep limit s op = some t) : NoDangling limit t := by
  cases localStep_effect h with
  | call lo hi ops above range below frames locals =>
      intro k hk
      rw [frames]
      exact (hd k (locals ▸ hk)).mono fun e f _ hf =>
        ⟨f, frameAt_cons_eq_some.mpr (.inr hf), rfl, rfl⟩
  | ret g ops frames locals =>
      intro k hk
      obtain ⟨hk, hlt⟩ := locals k hk
      refine (hd k hk).mono fun e f he hf => ?_
      rw [frames, frameAt_cons_of_lt (by omega)] at hf
      exact ⟨f, hf, rfl, rfl⟩
  | new sp g ops new => exact new.noDangling hd
  | assign r o ops receiver source check frames locals result =>
      intro k hk
      rw [frames]
      rcases locals k hk with hk | rfl
      · exact hd k hk
      · -- the assertion compares the address with the bound unless the flag is set
        rcases hC r o ops with hg | hflag | hb
        · exact .inl hg
        · rcases assignCheck_cases check with h0 | htag | hb
          · exact .inl (by simp [Held.assign, heapOrGlobal, h0])
          · rw [hflag] at htag
            contradiction
          · exact .assign hs receiver (hd o source) hb
        · exact .assign hs receiver (hd o source) hb

/-- A step to a state without dangling pointers respects the bounds. -/
theorem respectsBound_of_step {limit : Word} {s t : StackState} {op : LocalOp}
    (hs : StackInv limit s) (h : localStep limit s op = some t) (ht : NoDangling limit t) :
    RespectsBound limit s op := by
  intro r o hro
  cases localStep_effect h with
  | call lo hi ops above range below frames locals => simp [ops] at hro
  | ret g ops frames locals => simp [ops] at hro
  | new sp g ops new => simp [ops] at hro
  | assign r' o' ops receiver source check frames locals result =>
      obtain ⟨rfl, rfl⟩ := Prod.mk.inj (Option.some.inj (ops.symm.trans hro))
      have hl := ht _ result
      rw [frames] at hl
      exact (bound_le_of_holdsLive hs receiver hl).imp_right .inr

/-- **When no local pointer dangles.** A run leaves no live `lptr` or `laptr`
dangling in any state it visits iff every assignment in it respects the bound of
its receiver. -/
theorem stackMachine_noDangling_iff (limit : Word) (acts : List LocalOp) :
    (stackMachine limit).Visits acts (NoDangling limit) ↔
      (stackMachine limit).StepsMeet acts (RespectsBound limit) := by
  have hinit : StackInv limit .empty ∧ NoDangling limit .empty :=
    ⟨stackInv_empty limit, fun _ h => absurd h List.not_mem_nil⟩
  exact Machine.visits_iff_stepsMeet (fun s => StackInv limit s ∧ NoDangling limit s) hinit
    (fun _ hs => hs.2)
    (fun _ _ _ hs hC h => ⟨localStep_stackInv hs.1 h, localStep_noDangling hs.1 hs.2 hC h⟩)
    (fun _ _ _ hs h ht => respectsBound_of_step hs.1 h ht) acts

/-- A caller's `p` ends up with the address of a callee's local `x`: the callee
assigns `&x` to its own `q`, which sets the flag of `q`, then assigns `q` to `p`. -/
theorem stackMachine_dangling :
    ¬ ∀ limit acts, (stackMachine limit).Visits acts (NoDangling limit) := by
  intro h
  have hrun := h 0x1000
    [.call 0x9000 0x9fff, .lptrNull 0x9000, .call 0x8000 0x8f00, .lptrNull 0x8000,
      .lptrOfData 0x8000 0x8010, .lptrAssign 1 2, .lptrAssign 0 1, .ret]
    _ (List.prefix_refl _) _ rfl
  rcases hrun ⟨0, 0x8010, 0x9001⟩ (by decide) with hg | ⟨e, f, he, hf, hc⟩
  · exact absurd hg (by decide)
  · obtain rfl : e = 0 := Nat.le_zero.mp he
    obtain rfl : ⟨0x9000, 0x9fff, 0x9000⟩ = f := Option.some.inj hf
    exact absurd hc (by decide)

end Ironclad.Pointers
