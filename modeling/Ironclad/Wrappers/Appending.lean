import Ironclad.Logic.Machine
import Ironclad.Wrappers.Copying

/-!
# `safe_strcat` and `safe_strncat` over a run of appends

Both check the number of characters to append against the capacity of the destination, as if
it were empty: neither the characters that are in it already nor the terminator are counted. So
what makes an append safe is a condition on the state that it is made in, and the claim about
all appends of a run is settled by `visits_iff_stepsMeet`.

The state keeps, next to the memory, what the buffer is meant to hold: the initial string with
everything appended to it.
-/

namespace Ironclad.Wrappers

open Ironclad.Logic Ironclad.CLib Ironclad.Pointers

/-! ## The wrappers -/

/-- `safe_strcat(aptr<char> dst, aptr<char> src)`. The length is held in an `int`. -/
def aptr_safe_strcat (dst src : Aptr) : Prog 64 Aptr := do
  NULL_TERM_CHECK src
  let len ← strlen (src.convert_to_raw 1)
  Prog.assert (dst.spatialCheck 1 (ofInt (len.setWidth 32)))
  strcat (dst.convert_to_raw 1) (src.convert_to_raw 1)
  pure dst

/-- `safe_strcat(laptr<char> dst, aptr<char> src)`. -/
def laptr_safe_strcat (dst : Laptr) (src : Aptr) : Prog 64 Laptr := do
  NULL_TERM_CHECK src
  let len ← strlen (src.convert_to_raw 1)
  Prog.assert (dst.spatialCheck 1 (ofInt (len.setWidth 32)))
  strcat (dst.convert_to_raw 1) (src.convert_to_raw 1)
  pure dst

/-- `safe_strncat(dst, src, num)`. -/
def safe_strncat (dst src : Aptr) (num : Word) : Prog 64 Aptr := do
  NULL_TERM_CHECK src
  Prog.assert (dst.spatialCheck 1 num)
  strncat (dst.convert_to_raw 1) (src.convert_to_raw 1) num.toNat
  pure dst

/-! ## Runs of appends to one buffer -/

/-- A buffer that holds a terminated string. -/
structure StringBuffer where
  data : Word
  capacity : Word
  mem : Memory 64
  capacity_lt : capacity.toNat < 2 ^ 63
  terminated : strnlen mem data capacity.toNat < capacity.toNat

/-- One call: the pointer to the buffer is an `aptr` or an `laptr` with index zero. -/
inductive Append where
  | aptrStrcat (src : Aptr)
  | laptrStrcat (tb : Word) (src : Aptr)
  | strncat (src : Aptr) (num : Word)

namespace Append

def run (b : StringBuffer) (m : Memory 64) : Append → Outcome 64 Unit
  | .aptrStrcat src => (aptr_safe_strcat ⟨b.data, 0, b.capacity⟩ src m).discard
  | .laptrStrcat tb src => (laptr_safe_strcat ⟨b.data, 0, b.capacity, tb⟩ src m).discard
  | .strncat src num => (safe_strncat ⟨b.data, 0, b.capacity⟩ src num m).discard

def source : Append → Word
  | .aptrStrcat src => src.convert_to_raw 1
  | .laptrStrcat _ src => src.convert_to_raw 1
  | .strncat src _ => src.convert_to_raw 1

/-- The number of characters that the source is cut to. -/
def count : Append → Nat
  | .aptrStrcat _ => 2 ^ 64
  | .laptrStrcat _ _ => 2 ^ 64
  | .strncat _ num => num.toNat

/-- The characters that the call is meant to append. -/
def appended (m : Memory 64) (c : Append) : List (BitVec 8) := text m c.source c.count

/-- The bytes of the source that are read while copying. -/
def readAt (m : Memory 64) (c : Append) : Region 64 :=
  ⟨c.source, min (strnlen m c.source c.count + 1) c.count⟩

end Append

structure CatState where
  mem : Memory 64
  string : List (BitVec 8)
  written : List (Region 64)
  defined : Bool

/-- A step of the program: a call, or the rest of the program changing memory outside the
buffer. -/
inductive CatStep where
  | append (c : Append)
  | elsewhere (m : Memory 64)

/-- The bytes of the buffer. -/
def StringBuffer.bytes (b : StringBuffer) : Region 64 := ⟨b.data, b.capacity.toNat⟩

/-- `none` is a failed assertion, or a step after undefined behaviour. -/
def catStep (b : StringBuffer) (s : CatState) : CatStep → Option CatState
  | .append c =>
      let o := c.run b s.mem
      if s.defined = false ∨ o.ending = .fails then none
      else some ⟨o.mem, s.string ++ c.appended s.mem, s.written ++ o.writes,
        decide (o.ending = .returns ())⟩
  | .elsewhere m => some { s with mem := fun a => if a ∈ b.bytes then s.mem a else m a }

def catMachine (b : StringBuffer) : Machine CatState CatStep :=
  ⟨⟨b.mem, text b.mem b.data b.capacity.toNat, [], true⟩, catStep b⟩

/-- Every byte written lies in the buffer, the buffer is terminated, and its string is what was
put there. -/
structure Appended (b : StringBuffer) (s : CatState) : Prop where
  defined : s.defined = true
  written : ∀ r ∈ s.written, r ⊆ b.bytes
  terminated : strnlen s.mem b.data b.capacity.toNat < b.capacity.toNat
  holds : text s.mem b.data b.capacity.toNat = s.string

/-- The string, what is appended and a terminator fit in the buffer, and the source lies apart
from the place where it is copied to. -/
def HasRoom (b : StringBuffer) (s : CatState) : CatStep → Prop
  | .append c =>
      s.string.length + ((c.appended s.mem).length + 1) ≤ b.capacity.toNat ∧
        (⟨b.data + BitVec.ofNat 64 s.string.length, (c.appended s.mem).length + 1⟩ :
          Region 64).Apart (c.readAt s.mem)
  | .elsewhere _ => True

/-! ## What a call does -/

theorem raw_index_zero (data size : Word) : (Aptr.mk data 0 size).convert_to_raw 1 = data := by
  rw [raw_eq]
  exact BitVec.add_zero data

theorem laptr_raw_index_zero (data size tb : Word) :
    (Laptr.mk data 0 size tb).convert_to_raw 1 = data := raw_index_zero data size

section

variable {b : StringBuffer} {m : Memory 64} {d : Word} {src : Aptr} {α : Type}

/-- The two overloads of `safe_strcat` differ in the check and in the value returned. -/
theorem strcat_after_checks {check : Word → Bool} {a : Nat} (hd : length m d = some a) (v : α)
    (h : (((NULL_TERM_CHECK src >>= fun _ => strlen (src.convert_to_raw 1) >>= fun len =>
      Prog.assert (check len) >>= fun _ => strcat d (src.convert_to_raw 1) >>= fun _ =>
        pure v) : Prog 64 α) m).discard.ending ≠ .fails) :
    ∃ rs, (((NULL_TERM_CHECK src >>= fun _ => strlen (src.convert_to_raw 1) >>= fun len =>
      Prog.assert (check len) >>= fun _ => strcat d (src.convert_to_raw 1) >>= fun _ =>
        pure v) : Prog 64 α) m).discard =
      (strncat d (src.convert_to_raw 1) (2 ^ 64) m).after rs [] := by
  rw [ne_eq, Outcome.discard_fails] at h
  obtain ⟨k, hs, hrest⟩ := null_term_check_passed h
  have hlen := length_of_scanned hs
  rw [strlen_bind hlen] at hrest
  obtain ⟨hcheck, -⟩ := Prog.assert_bind_ne_fails hrest
  rw [null_term_check_bind hs, strlen_bind hlen, Prog.assert_true_bind hcheck,
    Outcome.discard_after, Outcome.discard_after, Prog.bind_pure_discard,
    strcat_eq_strncat hd hlen]
  exact ⟨[⟨src.convert_to_raw 1, k + 1⟩, ⟨src.convert_to_raw 1, k + 1⟩], rfl⟩

/-- A call that passes its assertions appends with `strncat`. -/
theorem Append.run_passes {c : Append} {a : Nat} (hd : length m b.data = some a)
    (h : (c.run b m).ending ≠ .fails) :
    ∃ rs, c.run b m = (CLib.strncat b.data c.source c.count m).after rs [] := by
  cases c with
  | aptrStrcat src =>
      rw [Append.run, aptr_safe_strcat, raw_index_zero] at h ⊢
      exact strcat_after_checks hd _ h
  | laptrStrcat tb src =>
      rw [Append.run, laptr_safe_strcat, laptr_raw_index_zero] at h ⊢
      exact strcat_after_checks hd _ h
  | strncat src num =>
      rw [Append.run, safe_strncat, raw_index_zero] at h ⊢
      rw [ne_eq, Outcome.discard_fails] at h
      obtain ⟨k, hs, hrest⟩ := null_term_check_passed h
      obtain ⟨hcheck, -⟩ := Prog.assert_bind_ne_fails hrest
      rw [null_term_check_bind hs, Prog.assert_true_bind hcheck, Outcome.discard_after,
        Prog.bind_pure_discard]
      exact ⟨_, rfl⟩

/-- A call that passes its assertions on a buffer with a string of `a` characters writes what it
appends and a terminator behind them, unless the source overlaps that place. -/
theorem Append.run_effect {c : Append} {a : Nat} (hd : length m b.data = some a)
    (h : (c.run b m).ending ≠ .fails) :
    (c.run b m).writes = [⟨b.data + BitVec.ofNat 64 a, (c.appended m).length + 1⟩] ∧
      ((c.run b m).ending = .returns () ↔
        (⟨b.data + BitVec.ofNat 64 a, (c.appended m).length + 1⟩ : Region 64).Apart
          (c.readAt m)) ∧
      ((c.run b m).ending = .returns () →
        (c.run b m).mem = m.write (b.data + BitVec.ofNat 64 a) ((c.appended m).length + 1)
          fun i => if i < (c.appended m).length then m.byte c.source i else 0) := by
  obtain ⟨rs, hrun⟩ := Append.run_passes hd h
  rw [hrun, CLib.strncat, hd, Append.appended, text_length]
  by_cases hapart : (⟨b.data + BitVec.ofNat 64 a, strnlen m c.source c.count + 1⟩ :
      Region 64).Apart (c.readAt m)
  · have hput := CLib.putText_of_apart (m := m) hapart
    simp only [Append.readAt] at hput hapart ⊢
    rw [hput]
    exact ⟨rfl, iff_of_true rfl hapart, fun _ => rfl⟩
  · have hput := CLib.putText_of_overlap (m := m) hapart
    simp only [Append.readAt] at hput hapart ⊢
    have hne : (Ending.undefined : Ending Unit) ≠ .returns () := by
      intro h
      cases h
    rw [hput]
    exact ⟨rfl, iff_of_false hne hapart, fun h => absurd h hne⟩

end

/-! ## Steps and runs -/

section

variable {b : StringBuffer} {s t : CatState}

theorem Appended.string_length (hs : Appended b s) :
    s.string.length = strnlen s.mem b.data b.capacity.toNat := by
  rw [← hs.holds, text_length]

theorem Appended.length (hs : Appended b s) : length s.mem b.data = some s.string.length := by
  have hcap := b.capacity_lt
  have hterm := hs.terminated
  rw [hs.string_length, length_eq_some]
  exact ⟨by omega, byte_strnlen hterm, fun j hj => byte_ne_zero_of_lt hj⟩

/-- A step that appends: the call did not fail at an assertion. -/
theorem catStep_append {c : Append} (h : catStep b s (.append c) = some t) :
    (c.run b s.mem).ending ≠ .fails ∧
      t = ⟨(c.run b s.mem).mem, s.string ++ c.appended s.mem,
        s.written ++ (c.run b s.mem).writes, decide ((c.run b s.mem).ending = .returns ())⟩ := by
  rw [catStep] at h
  split_ifs at h with hnot
  rw [not_or] at hnot
  exact ⟨hnot.2, (Option.some.inj h).symm⟩

/-- Where the call writes, seen from the buffer. -/
theorem written_subset_iff {a k : Nat} (ha : a < b.capacity.toNat) :
    (⟨b.data + BitVec.ofNat 64 a, k + 1⟩ : Region 64) ⊆ b.bytes ↔
      a + (k + 1) ≤ b.capacity.toNat := by
  have hcap := b.capacity_lt
  rw [Region.subset_iff (by show b.capacity.toNat < 2 ^ 64; omega)]
  show k + 1 = 0 ∨ (b.data + BitVec.ofNat 64 a - b.data).toNat + (k + 1) ≤ b.capacity.toNat ↔ _
  rw [Region.offset_toNat (by omega)]
  omega

/-- A step with room keeps what holds of the buffer. -/
theorem appended_step {op : CatStep} (hs : Appended b s) (hC : HasRoom b s op)
    (h : catStep b s op = some t) : Appended b t := by
  cases op with
  | append c =>
      obtain ⟨hroom, hapart⟩ := hC
      obtain ⟨hpass, rfl⟩ := catStep_append h
      obtain ⟨hwrites, hreturns, hmem⟩ := Append.run_effect hs.length hpass
      have hend := hreturns.mpr hapart
      have hterm := hs.terminated
      have hlen := hs.string_length
      have hcap := b.capacity_lt
      rw [hmem hend, hwrites]
      have hk : (c.appended s.mem).length = strnlen s.mem c.source c.count := text_length
      have htext := text_append (m := s.mem) (d := b.data) (k := (c.appended s.mem).length)
        (f := fun i => if i < (c.appended s.mem).length then s.mem.byte c.source i else 0)
        hlen.symm hroom (by omega)
        (fun i hi => by rw [if_pos hi]; exact byte_ne_zero_of_lt (hk ▸ hi))
        (if_neg (Nat.lt_irrefl _))
      have hmap : (List.range (c.appended s.mem).length).map (fun i =>
          if i < (c.appended s.mem).length then s.mem.byte c.source i else 0) =
          c.appended s.mem := by
        rw [hk]
        apply List.map_congr_left
        intro i hi
        exact if_pos (List.mem_range.mp hi)
      rw [hmap, hs.holds] at htext
      refine ⟨decide_eq_true hend, ?_, ?_, htext⟩
      · intro r hr
        rcases List.mem_append.mp hr with hr | hr
        · exact hs.written r hr
        · rw [List.mem_singleton.mp hr]
          exact (written_subset_iff (by omega)).mpr hroom
      · show strnlen _ b.data b.capacity.toNat < b.capacity.toNat
        rw [← text_length, htext, List.length_append]
        omega
  | elsewhere m =>
      rw [catStep, Option.some.injEq] at h
      subst h
      -- the bytes of the buffer are the old ones
      have hcap := b.capacity_lt
      have hbyte : ∀ i < b.capacity.toNat,
          Memory.byte (fun a => if a ∈ b.bytes then s.mem a else m a) b.data i =
            s.mem.byte b.data i :=
        fun i hi => if_pos (Region.add_mem_mk hi (by omega))
      have htext := text_congr hbyte
      refine ⟨hs.defined, hs.written, ?_, htext.trans hs.holds⟩
      show strnlen _ b.data b.capacity.toNat < b.capacity.toNat
      rw [← text_length, htext, text_length]
      exact hs.terminated

/-- A step that leads to such a state had room. -/
theorem hasRoom_of_step {op : CatStep} (hs : Appended b s) (h : catStep b s op = some t)
    (ht : Appended b t) : HasRoom b s op := by
  cases op with
  | append c =>
      obtain ⟨hpass, rfl⟩ := catStep_append h
      obtain ⟨hwrites, hreturns, -⟩ := Append.run_effect hs.length hpass
      have hterm := hs.terminated
      have hlen := hs.string_length
      refine ⟨?_, hreturns.mp (of_decide_eq_true ht.defined)⟩
      apply (written_subset_iff (by omega)).mp
      apply ht.written
      rw [hwrites]
      exact List.mem_append_right _ (List.mem_singleton_self _)
  | elsewhere m => trivial

end

/-- **Runs of appends.** In every state of a run the bytes written lie in the buffer, which is
terminated and holds what was appended, exactly when every call that passes its assertions has
room. -/
theorem appended_visits_iff (b : StringBuffer) (acts : List CatStep) :
    (catMachine b).Visits acts (Appended b) ↔ (catMachine b).StepsMeet acts (HasRoom b) := by
  apply Machine.visits_iff_stepsMeet (Appended b)
  · exact ⟨rfl, nofun, b.terminated, rfl⟩
  · exact fun s hs => hs
  · exact fun s op t hs hC h => appended_step hs hC h
  · exact fun s op t hs h ht => hasRoom_of_step hs h ht

/-- Four characters that hold the string `AB`. -/
def bufferOfFour : StringBuffer where
  data := 0x1000
  capacity := 4
  mem := fun a => if a = 0x1000 then 65 else if a = 0x1001 then 66 else
    if a = 0x2000 then 67 else if a = 0x2001 then 68 else 0
  capacity_lt := by decide
  terminated := by decide

/-- The string `CD` appended to `AB` passes the check, two characters against a capacity of
four, and the terminator is written behind the buffer. -/
theorem append_overruns :
    ¬(catMachine bufferOfFour).Visits [.append (.aptrStrcat ⟨0x2000, 0, 3⟩)]
      (Appended bufferOfFour) := by
  intro h
  have hsome : ((catMachine bufferOfFour).run
      [.append (.aptrStrcat ⟨0x2000, 0, 3⟩)]).isSome = true := by decide +kernel
  obtain ⟨t, ht⟩ := Option.isSome_iff_exists.mp hsome
  have hw := (h.last ht).written ⟨0x1002, 3⟩ ?_
  · have hmem : (0x1004 : Word) ∈ bufferOfFour.bytes := hw _ (by decide)
    revert hmem
    decide
  · have hwritten : ((catMachine bufferOfFour).run
        [.append (.aptrStrcat ⟨0x2000, 0, 3⟩)]).map CatState.written =
        some [⟨0x1002, 3⟩] := by decide +kernel
    rw [ht, Option.map_some, Option.some.injEq] at hwritten
    rw [hwritten]
    exact List.mem_singleton_self _

end Ironclad.Wrappers
