import Ironclad.CLib.Streams
import Ironclad.CLib.Tokens
import Ironclad.Logic.Machine
import Ironclad.Wrappers.Searching

/-!
# `safe_strtok` and `safe_fgets`

Both make a pointer into the buffer that they were given: its base is the *current position* of
the argument and its size is the size of the whole buffer. So the bounds of the result end as
far behind the buffer as the current position is behind its start.

`safe_strtok` has a static variable of its own (`oldString`) next to the one inside `strtok`
(`saved`), and both are part of the state. The claim about all sequences of calls is settled by
`visits_iff_stepsMeet`; the invariant says that what is left of the string is terminated inside
its buffer, so that every step is defined.
-/

namespace Ironclad.Wrappers

open Ironclad.Logic Ironclad.CLib Ironclad.Pointers

/-! ## The wrappers -/

/-- `p == NULL`: `data + index` is compared. -/
def isNull (p : Aptr) : Bool := p.convert_to_raw 1 == 0

/-- `if(p != NULL){ NULL_TERM_CHECK(p); }`. -/
def checkUnlessNull (p : Aptr) : Prog 64 Unit :=
  if isNull p then pure () else NULL_TERM_CHECK p

/-- `safe_strtok(str, del)`: the pointer returned, and the two static variables. -/
def safe_strtok (saved : Word) (oldString str del : Aptr) : Prog 64 (Aptr × Word × Aptr) := do
  checkUnlessNull str
  checkUnlessNull del
  let oldString := if isNull str then oldString else str
  let (result, saved) ← strtok saved (str.convert_to_raw 1) (del.convert_to_raw 1)
  match result with
  | some result =>
      pure (.ofDataIndex (oldString.convert_to_raw 1) oldString.size
        (result - oldString.convert_to_raw 1), saved, oldString)
  | none => pure (.null, saved, oldString)

/-- `safe_fgets(str, num, stream)`. -/
def safe_fgets (str : Aptr) (num : BitVec 32) (stream : Word) (input : List (BitVec 8)) :
    Prog 64 Aptr := do
  Prog.assert (!isNull str)
  Prog.assert (stream != 0)
  Prog.assert (str.spatialCheck 1 (ofInt num))
  let ret ← fgets (str.convert_to_raw 1) num.toInt input
  let retPtr := Aptr.ofData (str.convert_to_raw 1) str.size
  pure (if ret.isNone then .null else retPtr)

/-! ## Sequences of `safe_strtok` calls -/

/-- A result, with what `strtok` returned in that step and the string last started. -/
structure TokResult where
  token : Option Word
  ret : Aptr
  source : Aptr

structure TokState where
  mem : Memory 64
  saved : Word
  oldString : Aptr
  results : List TokResult
  defined : Bool

instance (p : Aptr) : Decidable (InArray p) :=
  decidable_of_iff (0 ≤ p.index.toInt ∧ p.index.toInt ≤ p.size.toInt ∧ p.data ≠ 0 ∧
      p.data.toNat + p.size.toNat ≤ 2 ^ 64 ∧ p.index.toNat < p.size.toNat)
    ⟨fun ⟨h0, hle, hdata, hfits, hlt⟩ => ⟨⟨h0, hle⟩, hdata, hfits, hlt⟩,
      fun h => ⟨h.index_nonneg, h.index_le, h.data_ne_zero, h.fits, h.index_lt⟩⟩

theorem terminated_iff_scanned {m : Memory 64} {p : Aptr} :
    Terminated m p ↔
      (scanned m p).any (fun n => decide (p.index.toNat + n < p.size.toNat)) = true := by
  rw [Option.any_eq_true]
  constructor
  · rintro ⟨n, hn⟩
    exact ⟨n, hn.scanned, decide_eq_true hn.1⟩
  · rintro ⟨n, hn, hlt⟩
    exact ⟨n, of_decide_eq_true hlt, (scanned_eq_some.mp hn).2⟩

instance (m : Memory 64) (p : Aptr) : Decidable (Terminated m p) :=
  decidable_of_iff _ terminated_iff_scanned.symm

/-- What `strtok` itself returns in the state. -/
def tokenReturned (s : TokState) (str del : Aptr) : Option Word :=
  match (strtok s.saved (str.convert_to_raw 1) (del.convert_to_raw 1) s.mem).ending with
  | .returns (token, _) => token
  | .fails => none
  | .undefined => none

/-- One call of `safe_strtok`; `none` is a failed assertion. -/
def tokCall (s : TokState) (str del : Aptr) : Option TokState :=
  let o := safe_strtok s.saved s.oldString str del s.mem
  match o.ending with
  | .returns (ret, saved, oldString) =>
      some ⟨o.mem, saved, oldString, s.results ++ [⟨tokenReturned s str del, ret, oldString⟩],
        s.defined⟩
  | .fails => none
  | .undefined => some { s with defined := false }

/-- A step: a string is started or gone on with, or the rest of the program changes memory
outside the buffer that is being taken apart. -/
inductive TokOp where
  | start (str del : Aptr)
  | next (del : Aptr)
  | elsewhere (m : Memory 64)

/-- A string is started at any position of a terminated string; delimiters are not null, and
there is something to go on with. -/
def tokStep (s : TokState) : TokOp → Option TokState
  | .start str del =>
      if InArray str ∧ Terminated s.mem str ∧ isNull del = false then tokCall s str del else none
  | .next del =>
      if isNull s.oldString = false ∧ isNull del = false then tokCall s .null del else none
  | .elsewhere m =>
      some { s with mem := fun a => if a ∈ buffer s.oldString then s.mem a else m a }

def tokMachine (m : Memory 64) : Machine TokState TokOp :=
  ⟨⟨m, 0, .null, [], true⟩, tokStep⟩

/-- A result that is not null denotes the token of its step and gives access to the buffer of
the string only. -/
def TokResult.Good (r : TokResult) : Prop :=
  r.ret.data ≠ 0 → r.token = some (r.ret.convert_to_raw 1) ∧
    ∀ a, Reaches r.ret a → a ∈ buffer r.source

/-- Every call was defined and every result is good. -/
structure TokensGood (s : TokState) : Prop where
  defined : s.defined = true
  good : ∀ r ∈ s.results, r.Good

/-- A token is only found in a string that was started at the first byte of its buffer. -/
def TokenAtStart (s : TokState) : TokOp → Prop
  | .start str del =>
      HasToken s.mem (str.convert_to_raw 1) (del.convert_to_raw 1) → str.index = 0
  | .next del => HasToken s.mem s.saved (del.convert_to_raw 1) → s.oldString.index = 0
  | .elsewhere _ => True

/-- What is left of a string begins in its buffer and is terminated there. -/
structure Pending (m : Memory 64) (saved : Word) (p : Aptr) : Prop where
  array : InArray p
  terminated : ∃ j t, saved = p.data + BitVec.ofNat 64 j ∧ j ≤ t ∧ t < p.size.toNat ∧
    m.byte p.data t = 0

structure Tokenizing (s : TokState) : Prop extends TokensGood s where
  pending : s.oldString = .null ∨ Pending s.mem s.saved s.oldString

/-! ## One call -/

section

variable {m : Memory 64} {s u : TokState} {str del old : Aptr} {α : Type}

/-- The check fails, or changes nothing. -/
theorem checkUnlessNull_bind (p : Aptr) (f : Unit → Prog 64 α) :
    ((checkUnlessNull p >>= f) m).ending = .fails ∨
      ∃ rs, (checkUnlessNull p >>= f) m = (f () m).after rs [] := by
  unfold checkUnlessNull
  cases isNull p with
  | true => exact .inr ⟨[], rfl⟩
  | false =>
      cases hs : scanned m p with
      | none =>
          left
          show ((NULL_TERM_CHECK p >>= f) m).ending = .fails
          rw [null_term_check_bind_fails hs]
      | some k => exact .inr ⟨_, null_term_check_bind hs⟩

/-- The bytes from a position of the buffer on. -/
theorem byte_from (m : Memory 64) (p : Word) {j t : Nat} (hj : j ≤ t) :
    m.byte (p + BitVec.ofNat 64 j) (t - j) = m.byte p t := by
  rw [Memory.byte, Memory.byte, add_assoc, ← BitVec.ofNat_add, Nat.add_sub_cancel' hj]

/-- The pointer that is made of a token. -/
def retOf (old : Aptr) (p : Word) : Option Nat → Aptr
  | some i =>
      ⟨old.convert_to_raw 1, p + BitVec.ofNat 64 i - old.convert_to_raw 1, old.size⟩
  | none => .null

/-- A call whose `strtok` makes a step: a check fails, or the result is made of the token. -/
theorem safe_strtok_run {saved p : Word} (oldString : Aptr) {token : Option Nat} {next : Nat}
    {o : Outcome 64 (Option Word × Word)}
    (ho : strtok saved (str.convert_to_raw 1) (del.convert_to_raw 1) m = o)
    (hret : o.ending =
      .returns (token.map fun i => p + BitVec.ofNat 64 i, p + BitVec.ofNat 64 next)) :
    (safe_strtok saved oldString str del m).ending = .fails ∨
      (safe_strtok saved oldString str del m).ending =
          .returns (retOf (if isNull str then oldString else str) p token,
            p + BitVec.ofNat 64 next, if isNull str then oldString else str) ∧
        (safe_strtok saved oldString str del m).mem = o.mem := by
  subst ho
  rw [safe_strtok]
  rcases checkUnlessNull_bind (m := m) str _ with hf | ⟨rs, hf⟩
  · exact .inl hf
  rw [hf, Outcome.after_ending, Outcome.after_mem]
  rcases checkUnlessNull_bind (m := m) del _ with hf | ⟨rs', hf⟩
  · exact .inl hf
  right
  rw [hf, Outcome.after_ending, Outcome.after_mem, Prog.bind_of_ending hret,
    Outcome.after_ending, Outcome.after_mem]
  cases token with
  | none => exact ⟨rfl, rfl⟩
  | some i => exact ⟨rfl, rfl⟩

/-- **One call.** When the step begins at `p` in the buffer of `old`, in front of a terminator
there, the result is made from `old`, it is not null exactly when there is a token, and what is
left is terminated again. -/
theorem tokCall_effect {p : Word} (hold : (if isNull str then s.oldString else str) = old)
    (hp : (if str.convert_to_raw 1 = 0 then s.saved else str.convert_to_raw 1) = p)
    (hpend : Pending s.mem p old) (h : tokCall s str del = some u) :
    ∃ r, u.oldString = old ∧ u.results = s.results ++ [r] ∧ u.defined = s.defined ∧
      Pending u.mem u.saved old ∧ r.source = old ∧
      (r.ret.data ≠ 0 ↔ HasToken s.mem p (del.convert_to_raw 1)) ∧
      (r.ret.data ≠ 0 → r.token = some (r.ret.convert_to_raw 1) ∧
        r.ret.data = old.convert_to_raw 1 ∧ r.ret.size = old.size) := by
  obtain ⟨harray, j, t, hsaved, hjt, hts, hz⟩ := hpend
  have hsize := harray.size_lt
  have hraw : old.convert_to_raw 1 ≠ 0 := by
    rw [raw_eq]
    exact harray.address_ne_zero harray.index_lt
  have hz' : s.mem.byte p (t - j) = 0 := by
    rw [hsaved, byte_from s.mem old.data hjt]
    exact hz
  obtain ⟨token, next, hstep⟩ : ∃ token next, TokenStep s.mem p (del.convert_to_raw 1) (t - j)
      (strtok s.saved (str.convert_to_raw 1) (del.convert_to_raw 1) s.mem) token next :=
    strtok_step hp (by omega) hz'
  rw [tokCall] at h
  rcases safe_strtok_run s.oldString rfl hstep.returned with hf | ⟨hend, hmem⟩
  · simp only [hf] at h
    cases h
  · simp only [hend, hmem, hold, Option.some.injEq] at h
    subst h
    have htok : tokenReturned s str del = token.map fun i => p + BitVec.ofNat 64 i := by
      rw [tokenReturned, hstep.returned]
    refine ⟨_, rfl, rfl, rfl, ⟨harray, j + next, t, ?_, ?_, hts, ?_⟩, rfl, ?_, ?_⟩
    · rw [hsaved, BitVec.ofNat_add, add_assoc]
    · have := hstep.next_le
      omega
    · have hterm := hstep.terminated
      rw [hsaved, byte_from _ old.data hjt] at hterm
      exact hterm
    · rw [← hstep.token_iff]
      cases token with
      | none => exact iff_of_false (fun h => h rfl) nofun
      | some i => exact iff_of_true hraw rfl
    · rw [htok]
      cases token with
      | none => exact fun h => absurd rfl h
      | some i =>
          intro _
          refine ⟨?_, rfl, rfl⟩
          rw [Option.map_some, Aptr.convert_to_raw, element, mul_one]
          show some _ = some (old.convert_to_raw 1 + (_ - old.convert_to_raw 1))
          rw [add_sub_cancel]

/-! ## Steps and runs -/

/-- A result made from the current position of a string is good exactly when that is the start
of the buffer. -/
theorem good_iff {r : TokResult} (harray : InArray old) (hsource : r.source = old)
    (hret : r.ret.data ≠ 0 → r.token = some (r.ret.convert_to_raw 1) ∧
      r.ret.data = old.convert_to_raw 1 ∧ r.ret.size = old.size) :
    r.Good ↔ (r.ret.data ≠ 0 → old.index = 0) := by
  have hsize := harray.size_lt
  have hzero : old.index = 0 ↔ old.index.toNat = 0 := BitVec.toNat_inj.symm
  unfold TokResult.Good
  refine forall_congr' fun hne => ?_
  obtain ⟨htoken, hdata, hs⟩ := hret hne
  rw [and_iff_right htoken, hsource, hzero, ← shifted_subset_iff hsize harray.index_lt,
    ← raw_eq, Region.subset_def]
  refine forall_congr' fun a => ?_
  rw [reaches_iff (by rw [hs]; exact hsize), buffer, hdata, hs]

/-- What a step does, in terms of one call: the string it is about and where it begins. -/
theorem tokStep_cases {op : TokOp} (hs : Tokenizing s) (h : tokStep s op = some u) :
    (∃ m, op = .elsewhere m ∧
      u = { s with mem := fun a => if a ∈ buffer s.oldString then s.mem a else m a }) ∨
    ∃ str del old p, (if isNull str then s.oldString else str) = old ∧
      (if str.convert_to_raw 1 = 0 then s.saved else str.convert_to_raw 1) = p ∧
      Pending s.mem p old ∧ tokCall s str del = some u ∧
      (TokenAtStart s op ↔ (HasToken s.mem p (del.convert_to_raw 1) → old.index = 0)) := by
  cases op with
  | start str del =>
      right
      rw [tokStep] at h
      split_ifs at h with hguard
      obtain ⟨harray, ⟨n, hn⟩, -⟩ := hguard
      have hraw : str.convert_to_raw 1 ≠ 0 := by
        rw [raw_eq]
        exact harray.address_ne_zero harray.index_lt
      refine ⟨str, del, str, _, ?_, if_neg hraw, ⟨harray, ?_⟩, h, Iff.rfl⟩
      · rw [if_neg]
        rw [isNull, beq_iff_eq]
        exact hraw
      · exact ⟨str.index.toNat, str.index.toNat + n, raw_eq str, Nat.le_add_right _ _, hn.1,
          hn.2.1⟩
  | next del =>
      right
      rw [tokStep] at h
      split_ifs at h with hguard
      obtain ⟨hold, -⟩ := hguard
      refine ⟨.null, del, s.oldString, s.saved, if_pos rfl, if_pos rfl, ?_, h, Iff.rfl⟩
      rcases hs.pending with hnull | hpend
      · rw [hnull] at hold
        cases hold
      · exact hpend
  | elsewhere m =>
      left
      rw [tokStep, Option.some.injEq] at h
      exact ⟨m, rfl, h.symm⟩

/-- A step that finds no token in a string started behind the start of its buffer. -/
theorem tokenizing_step {op : TokOp} (hs : Tokenizing s) (hC : TokenAtStart s op)
    (h : tokStep s op = some u) : Tokenizing u := by
  rcases tokStep_cases hs h with ⟨m, -, rfl⟩ | ⟨str, del, old, p, hold, hp, hpend, hcall, hiff⟩
  · refine ⟨⟨hs.defined, hs.good⟩, ?_⟩
    rcases hs.pending with hnull | ⟨harray, j, t, hsaved, hjt, hts, hz⟩
    · exact .inl hnull
    · have hsize := harray.size_lt
      exact .inr ⟨harray, j, t, hsaved, hjt, hts,
        (if_pos (Region.add_mem_mk hts (by omega))).trans hz⟩
  · obtain ⟨r, hold', hresults, hdefined, hpend', hsource, htoken, hret⟩ :=
      tokCall_effect hold hp hpend hcall
    refine ⟨⟨hdefined.trans hs.defined, ?_⟩, .inr (hold' ▸ hpend')⟩
    intro r' hr'
    rw [hresults] at hr'
    rcases List.mem_append.mp hr' with hr' | hr'
    · exact hs.good r' hr'
    · rw [List.mem_singleton.mp hr', good_iff hpend.array hsource hret]
      exact fun hne => hiff.mp hC (htoken.mp hne)

theorem tokenAtStart_of_step {op : TokOp} (hs : Tokenizing s) (h : tokStep s op = some u)
    (hu : TokensGood u) : TokenAtStart s op := by
  rcases tokStep_cases hs h with ⟨m, rfl, -⟩ | ⟨str, del, old, p, hold, hp, hpend, hcall, hiff⟩
  · trivial
  · obtain ⟨r, -, hresults, -, -, hsource, htoken, hret⟩ := tokCall_effect hold hp hpend hcall
    have hgood : r.Good := by
      apply hu.good
      rw [hresults]
      exact List.mem_append_right _ (List.mem_singleton_self _)
    rw [good_iff hpend.array hsource hret] at hgood
    exact hiff.mpr fun hne => hgood (htoken.mpr hne)

end

theorem tokMachine_visits_iff (m : Memory 64) (acts : List TokOp) :
    (tokMachine m).Visits acts TokensGood ↔ (tokMachine m).StepsMeet acts TokenAtStart := by
  apply Machine.visits_iff_stepsMeet Tokenizing
  · exact ⟨⟨rfl, nofun⟩, .inl rfl⟩
  · exact fun s hs => hs.toTokensGood
  · exact fun s op u hs hC h => tokenizing_step hs hC h
  · exact fun s op u hs h hu => tokenAtStart_of_step hs h hu

/-! ## Lines -/

/-- A line that is returned gives access to the buffer only. -/
def LineBounded (str : Aptr) (o : Outcome 64 Aptr) : Prop :=
  ∀ q, o.ending = .returns q → q.data ≠ 0 → ∀ a, Reaches q a → a ∈ buffer str

/-- The call passes its assertions and `fgets` returns a line. -/
def LineRead (str : Aptr) (num : BitVec 32) (stream : Word) (input : List (BitVec 8)) : Prop :=
  isNull str = false ∧ stream ≠ 0 ∧ InReach 1 str.index str.size (ofInt num) ∧
    0 < num.toInt ∧ (num.toInt = 1 ∨ input ≠ [])

section

variable {m : Memory 64} {str : Aptr} {num : BitVec 32} {stream : Word}
  {input : List (BitVec 8)}

/-- A line that is read is returned as a pointer to the current position. -/
theorem safe_fgets_line (hsize : str.size.toNat < 2 ^ 63) (h : LineRead str num stream input) :
    (safe_fgets str num stream input m).ending =
      .returns (.ofData (str.convert_to_raw 1) str.size) := by
  obtain ⟨hnull, hstream, hreach, hpos, hinput⟩ := h
  have hcond : ¬(num.toInt ≤ 0 ∨ (1 < num.toInt ∧ input = [])) := by
    rintro (h | ⟨h1, hnil⟩)
    · omega
    · exact hinput.elim (fun h => by omega) fun h => h hnil
  have hret : (fgets (str.convert_to_raw 1) num.toInt input m).ending =
      .returns (some (str.convert_to_raw 1)) := by
    rw [fgets, if_neg hcond]
  rw [safe_fgets, Prog.assert_true_bind (by rw [hnull]; rfl),
    Prog.assert_true_bind (bne_iff_ne.mpr hstream),
    Prog.assert_true_bind ((spatialCheck_iff hsize).mpr hreach), Prog.bind_of_ending hret]
  rfl

/-- Only a line that is read is returned. -/
theorem lineRead_of_returns (hsize : str.size.toNat < 2 ^ 63) {q : Aptr}
    (h : (safe_fgets str num stream input m).ending = .returns q) (hq : q.data ≠ 0) :
    LineRead str num stream input := by
  rw [safe_fgets] at h
  obtain ⟨hnull, h⟩ := Prog.assert_bind_returns h
  obtain ⟨hstream, h⟩ := Prog.assert_bind_returns h
  obtain ⟨hcheck, h⟩ := Prog.assert_bind_returns h
  rw [Bool.not_eq_true'] at hnull
  refine ⟨hnull, bne_iff_ne.mp hstream, (spatialCheck_iff hsize).mp hcheck, ?_⟩
  by_cases hcond : num.toInt ≤ 0 ∨ (1 < num.toInt ∧ input = [])
  · -- `fgets` returns null
    have hret : (fgets (str.convert_to_raw 1) num.toInt input m).ending = .returns none := by
      rw [fgets, if_pos hcond]
    rw [Prog.bind_of_ending hret, Outcome.after_ending] at h
    exact absurd (Ending.returns.inj h ▸ rfl) hq
  · rw [not_or] at hcond
    refine ⟨by omega, ?_⟩
    by_cases hone : num.toInt = 1
    · exact .inl hone
    · exact .inr fun hnil => hcond.2 ⟨by omega, hnil⟩

theorem lineBounded_iff (hstr : Placed str) :
    LineBounded str (safe_fgets str num stream input m) ↔
      (LineRead str num stream input → str.index = 0) := by
  have hsize := hstr.size_lt
  have hzero : str.index = 0 ↔ str.index.toNat = 0 := BitVec.toNat_inj.symm
  constructor
  · intro h hline
    obtain ⟨hnull, -, hreach, hpos, -⟩ := id hline
    have hlt : str.index.toNat < str.size.toNat := by
      have hn := ofInt_toNat (Int.le_of_lt hpos)
      have hnum : num.toInt < 2 ^ 31 := BitVec.toInt_lt
      unfold InReach wholeElements at hreach
      have hone : (1 : Word).toNat = 1 := rfl
      rw [hone, Nat.div_one] at hreach
      have := hstr.index_le_size
      omega
    have hraw : (Aptr.ofData (str.convert_to_raw 1) str.size).data ≠ 0 := fun h0 => by
      rw [isNull, beq_eq_false_iff_ne] at hnull
      exact hnull h0
    have hin := h _ (safe_fgets_line hsize hline) hraw
    rw [hzero, ← shifted_subset_iff hsize hlt, ← raw_eq]
    intro a ha
    exact hin a ((reaches_iff (p := .ofData (str.convert_to_raw 1) str.size) hsize).mpr ha)
  · intro h q hend hq a ha
    have hline := lineRead_of_returns hsize hend hq
    have hqe : q = .ofData (str.convert_to_raw 1) str.size :=
      Ending.returns.inj (hend.symm.trans (safe_fgets_line hsize hline))
    have hraw : str.convert_to_raw 1 = str.data := by
      rw [raw_eq, h hline]
      exact BitVec.add_zero _
    rw [hqe, reaches_iff (p := .ofData (str.convert_to_raw 1) str.size) hsize, hraw] at ha
    exact ha

end

end Ironclad.Wrappers
