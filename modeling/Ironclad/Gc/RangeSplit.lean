import Mathlib.Data.Int.Order.Basic
import Mathlib.Tactic.Ring
import Ironclad.Logic.BitMask
import Ironclad.Gc.Heap

/-!
# Splitting long ranges

A mark stack entry with the tag `GC_DS_LENGTH` has the length of its range for a
descriptor. `GC_mark_from` scans the first 128 words of a long range and writes an entry for
the rest back; for that it subtracts the length of 127 words from the descriptor, and the
low bits of the difference are the tag of the next one. `splitsCorrectly_iff` says for which
ranges this works out: 127 words of 8 bytes leave the three low bits alone, and 127 words
of 4 bytes do not.

Words are words of the machine; pointers are integers, since pointer arithmetic does not
wrap.
-/

namespace Ironclad.Gc.RangeSplit

open Logic BitMask

/-! ## Word sizes -/

inductive WordSize where
  | four
  | eight
  deriving DecidableEq, Repr

/-- `sizeof(word)`. -/
def WordSize.sizeof : WordSize → Nat
  | .four => 4
  | .eight => 8

def CPP_WORDSZ : WordSize → Nat
  | .four => 32
  | .eight => 64

def WORDS_TO_BYTES : WordSize → Nat → Nat
  | .four, x => x <<< 2
  | .eight, x => x <<< 3

def GC_GRANULE_BYTES : WordSize → Nat
  | .four => 8
  | .eight => 16

abbrev Word (ws : WordSize) := BitVec (CPP_WORDSZ ws)

/-- The alignment of pointers, which differs between machines, divides the word size. -/
structure Config where
  wordSize : WordSize
  ALIGNMENT : Nat
  aligned : ALIGNMENT ∣ wordSize.sizeof

theorem Config.ALIGNMENT_pos (cfg : Config) : 0 < cfg.ALIGNMENT := by
  refine Nat.pos_of_dvd_of_pos cfg.aligned ?_
  cases cfg.wordSize with
  | four => exact Nat.zero_lt_succ 3
  | eight => exact Nat.zero_lt_succ 7

def GC_DS_TAGS (ws : WordSize) : Word ws := BitVec.ofNat _ ((1 <<< GC_DS_TAG_BITS) - 1)

def GC_DS_BITMAP : Nat := 1
def GC_DS_PROC : Nat := 2
def GC_DS_PER_OBJECT : Nat := 3

def SPLIT_RANGE_WORDS : Nat := 128

/-- A mark stack entry. -/
structure Mse (ws : WordSize) where
  mse_start : Int
  mse_descr : Word ws

/-- The tag of a descriptor. -/
def tagOf {ws : WordSize} (descr : Word ws) : Nat := (descr &&& GC_DS_TAGS ws).toNat

/-! ## The range of an entry -/

section

variable (cfg : Config)

/-- What `GC_mark_from` does with an entry that describes a range: the limit up to which it
scans, and the entry it leaves on the stack. -/
def nextRange (e : Mse cfg.wordSize) : Option (Int × Option (Mse cfg.wordSize)) :=
  let current_p := e.mse_start
  let descr := e.mse_descr
  if descr &&& (~~~BitVec.ofNat _ (WORDS_TO_BYTES cfg.wordSize SPLIT_RANGE_WORDS - 1) |||
      GC_DS_TAGS cfg.wordSize) ≠ 0 then
    if tagOf descr = GC_DS_LENGTH then
      let part := WORDS_TO_BYTES cfg.wordSize (SPLIT_RANGE_WORDS - 1)
      some (current_p + part + (cfg.wordSize.sizeof - cfg.ALIGNMENT : Nat),
        some ⟨current_p + part, descr - BitVec.ofNat _ part⟩)
    else if tagOf descr = GC_DS_BITMAP ∨ tagOf descr = GC_DS_PROC ∨
        tagOf descr = GC_DS_PER_OBJECT ∨ tagOf descr = GC_DS_PRECISE then none
    else some (0, some e)  -- "Can't happen": the entry stays where it is
  else some (current_p + descr.toNat, none)

variable (inHeap : Int → Bool)

/-- The search from the end of the range for a word that may be a pointer: the addresses
read, the address of the word, and the limit then. -/
def findDeferred (current_p limit : Int) : List Int × Option (Int × Int) :=
  if inHeap limit then ([limit], some (limit, limit - cfg.ALIGNMENT))
  else if current_p > limit - cfg.ALIGNMENT then ([limit], none)
  else
    let r := findDeferred current_p (limit - cfg.ALIGNMENT)
    (limit :: r.1, r.2)
  termination_by (limit - current_p).toNat
  decreasing_by
    have := cfg.ALIGNMENT_pos
    omega

/-- The addresses read from the start of the range. -/
def scanUp (current_p limit : Int) : List Int :=
  if current_p ≤ limit then current_p :: scanUp (current_p + cfg.ALIGNMENT) limit else []
  termination_by (limit + 1 - current_p).toNat
  decreasing_by
    have := cfg.ALIGNMENT_pos
    omega

/-- The scan of a range: the addresses read, and those of the words that are pushed. -/
def scanRange (current_p limit : Int) : List Int × List Int :=
  match findDeferred cfg inHeap current_p (limit - cfg.wordSize.sizeof) with
  | (down, none) => (down, [])
  | (down, some (deferred, limit)) =>
      let up := scanUp cfg current_p limit
      (down ++ up, up.filter inHeap ++ [deferred])

/-- What becomes of a range while its entry is taken off the stack `n` times. -/
structure Marked where
  /-- The descriptors written back. -/
  descrs : List (Word cfg.wordSize)
  reads : List Int
  pushes : List Int
  /-- The entry left on the stack. -/
  rest : Option (Mse cfg.wordSize)

def markRange : Nat → Option (Mse cfg.wordSize) → Marked cfg
  | 0, e => ⟨[], [], [], e⟩
  | _ + 1, none => ⟨[], [], [], none⟩
  | n + 1, some e =>
      match nextRange cfg e with
      | none => ⟨[], [], [], some e⟩
      | some (limit, back) =>
          let scan := scanRange cfg inHeap e.mse_start limit
          let m := markRange n back
          ⟨(back.map Mse.mse_descr).toList ++ m.descrs, scan.1 ++ m.reads, scan.2 ++ m.pushes,
            m.rest⟩

/-! ## The claim -/

/-- A region that is pushed with its length for a descriptor. -/
structure Region where
  start : Nat
  aligned : cfg.wordSize.sizeof ∣ start
  len : Word cfg.wordSize
  len_pos : 0 < len.toNat
  granules : GC_GRANULE_BYTES cfg.wordSize ∣ len.toNat

variable {cfg}

def Region.entry (r : Region cfg) : Mse cfg.wordSize := ⟨r.start, r.len⟩

/-- `a` is the address of a word of the region. -/
def Region.IsWord (r : Region cfg) (a : Int) : Prop :=
  ∃ i : Nat, a = r.start + i * cfg.wordSize.sizeof ∧ (i + 1) * cfg.wordSize.sizeof ≤ r.len.toNat

/-- Every descriptor written back has the tag of a length, nothing outside the region is
read, and after finitely many turns the region is done with: each of its words has been read
and, if it may be a pointer, pushed. -/
structure SplitsCorrectly (r : Region cfg) : Prop where
  tags : ∀ n, ∀ d ∈ (markRange cfg inHeap n (some r.entry)).descrs, tagOf d = GC_DS_LENGTH
  inside : ∀ n, ∀ a ∈ (markRange cfg inHeap n (some r.entry)).reads,
    (r.start : Int) ≤ a ∧ a + cfg.wordSize.sizeof ≤ r.start + r.len.toNat
  ends : ∃ n, (markRange cfg inHeap n (some r.entry)).rest = none ∧
    ∀ a, r.IsWord a → a ∈ (markRange cfg inHeap n (some r.entry)).reads ∧
      (inHeap a = true → a ∈ (markRange cfg inHeap n (some r.entry)).pushes)

end

/-! ## Scanning a range -/

section

variable {cfg : Config} {inHeap : Int → Bool} {p a b limit : Int}

/-- The addresses at which a scan that starts at `p` looks. -/
def Position (cfg : Config) (p a : Int) : Prop := ∃ k : Nat, a = p + k * cfg.ALIGNMENT

theorem Position.self : Position cfg p p := ⟨0, by simp⟩

theorem Position.le (ha : Position cfg p a) : p ≤ a := by
  obtain ⟨k, rfl⟩ := ha
  have : 0 ≤ (k : Int) * cfg.ALIGNMENT := Int.mul_nonneg (by omega) (by omega)
  omega

/-- Two positions are at least `ALIGNMENT` apart. -/
theorem Position.apart (ha : Position cfg p a) (hb : Position cfg p b) (hlt : a < b) :
    Position cfg a b ∧ a ≤ b - cfg.ALIGNMENT := by
  obtain ⟨k, rfl⟩ := ha
  obtain ⟨m, rfl⟩ := hb
  have hpos : (0 : Int) < cfg.ALIGNMENT := by
    have := cfg.ALIGNMENT_pos
    omega
  have hkm : (k : Int) < m := by
    have hmul : (k : Int) * cfg.ALIGNMENT < m * cfg.ALIGNMENT := by omega
    exact Int.lt_of_mul_lt_mul_right hmul hpos.le
  obtain ⟨j, rfl⟩ : ∃ j : Nat, m = k + j + 1 := ⟨m - k - 1, by omega⟩
  have hexp : ((k + j + 1 : Nat) : Int) * cfg.ALIGNMENT =
      k * cfg.ALIGNMENT + j * cfg.ALIGNMENT + cfg.ALIGNMENT := by
    push_cast
    ring
  have hj : 0 ≤ (j : Int) * cfg.ALIGNMENT := Int.mul_nonneg (by omega) (by omega)
  constructor
  · refine ⟨j + 1, ?_⟩
    push_cast
    ring
  · omega

theorem mem_scanUp : a ∈ scanUp cfg p limit ↔ Position cfg p a ∧ a ≤ limit := by
  fun_induction scanUp cfg p limit with
  | case1 p hle ih =>
      rw [List.mem_cons, ih]
      constructor
      · rintro (rfl | ⟨⟨k, rfl⟩, hlimit⟩)
        · exact ⟨Position.self, hle⟩
        · refine ⟨⟨k + 1, ?_⟩, hlimit⟩
          push_cast
          ring
      · rintro ⟨⟨k, rfl⟩, hlimit⟩
        cases k with
        | zero => simp
        | succ k =>
            refine .inr ⟨⟨k, ?_⟩, hlimit⟩
            push_cast
            ring
  | case2 p hgt =>
      constructor
      · intro hmem
        cases hmem
      · rintro ⟨ha, hlimit⟩
        have := ha.le
        omega

/-- The search reads positions only; what it passes over cannot be pointers, and the word it
stops at may be one. -/
theorem findDeferred_spec (inHeap : Int → Bool) (hlimit : Position cfg p limit) :
    (∀ a ∈ (findDeferred cfg inHeap p limit).1, Position cfg p a ∧ a ≤ limit) ∧
      ((findDeferred cfg inHeap p limit).2 = none ∧
          (∀ a, Position cfg p a → a ≤ limit →
            a ∈ (findDeferred cfg inHeap p limit).1 ∧ inHeap a = false) ∨
        ∃ d l, (findDeferred cfg inHeap p limit).2 = some (d, l) ∧ l ≤ limit ∧
          d ∈ (findDeferred cfg inHeap p limit).1 ∧ inHeap d = true ∧
          ∀ a, Position cfg p a → a ≤ limit → a ≤ l ∨
            a ∈ (findDeferred cfg inHeap p limit).1 ∧ (a = d ∨ inHeap a = false)) := by
  have hpos := cfg.ALIGNMENT_pos
  fun_induction findDeferred cfg inHeap p limit with
  | case1 limit hin =>
      refine ⟨?_, .inr ⟨limit, _, rfl, by omega, List.mem_singleton_self limit, hin, ?_⟩⟩
      · intro a ha
        rw [List.mem_singleton] at ha
        subst ha
        exact ⟨hlimit, le_refl a⟩
      · intro a ha hle
        rcases lt_or_eq_of_le hle with hlt | rfl
        · exact .inl (ha.apart hlimit hlt).2
        · exact .inr ⟨List.mem_singleton_self a, .inl rfl⟩
  | case2 limit hin hdone =>
      refine ⟨?_, .inl ⟨rfl, ?_⟩⟩
      · intro a ha
        rw [List.mem_singleton] at ha
        subst ha
        exact ⟨hlimit, le_refl a⟩
      · intro a ha hle
        have heq : a = limit := by
          rcases lt_or_eq_of_le hle with hlt | heq
          · have hap := (ha.apart hlimit hlt).2
            have hpa := ha.le
            omega
          · exact heq
        subst heq
        exact ⟨List.mem_singleton_self a, by simpa using hin⟩
  | case3 limit hin hmore r ih =>
      have hprev : Position cfg p (limit - cfg.ALIGNMENT) := by
        obtain ⟨k, rfl⟩ := hlimit
        cases k with
        | zero =>
            push_cast at hmore
            omega
        | succ k =>
            refine ⟨k, ?_⟩
            push_cast
            ring
      obtain ⟨hreads, hrest⟩ := ih hprev
      -- a position is the last one or not behind the one before it
      have hsplit : ∀ a, Position cfg p a → a ≤ limit → a = limit ∨ a ≤ limit - cfg.ALIGNMENT := by
        intro a ha hle
        rcases lt_or_eq_of_le hle with hlt | heq
        · exact .inr (ha.apart hlimit hlt).2
        · exact .inl heq
      have hno : inHeap limit = false := by simpa using hin
      refine ⟨?_, ?_⟩
      · intro a ha
        rcases List.mem_cons.mp ha with rfl | ha
        · exact ⟨hlimit, le_refl a⟩
        · obtain ⟨hpa, hle⟩ := hreads a ha
          exact ⟨hpa, by omega⟩
      · rcases hrest with ⟨hnone, hall⟩ | ⟨d, l, hsome, hl, hd, hplaus, hall⟩
        · refine .inl ⟨hnone, ?_⟩
          intro a ha hle
          rcases hsplit a ha hle with rfl | hle
          · exact ⟨List.mem_cons_self, hno⟩
          · exact ⟨List.mem_cons_of_mem _ (hall a ha hle).1, (hall a ha hle).2⟩
        · refine .inr ⟨d, l, hsome, by omega, List.mem_cons_of_mem _ hd, hplaus, ?_⟩
          intro a ha hle
          rcases hsplit a ha hle with rfl | hle
          · exact .inr ⟨List.mem_cons_self, .inr hno⟩
          · rcases hall a ha hle with hle | ⟨hmem, hor⟩
            · exact .inl hle
            · exact .inr ⟨List.mem_cons_of_mem _ hmem, hor⟩

/-- **A scan reads every position of its range once at least**, and pushes those words that
may be pointers. -/
theorem scanRange_spec (inHeap : Int → Bool)
    (hlimit : Position cfg p (limit - cfg.wordSize.sizeof)) (a : Int) :
    (a ∈ (scanRange cfg inHeap p limit).1 ↔
        Position cfg p a ∧ a + cfg.wordSize.sizeof ≤ limit) ∧
      (a ∈ (scanRange cfg inHeap p limit).2 ↔
        (Position cfg p a ∧ a + cfg.wordSize.sizeof ≤ limit) ∧ inHeap a = true) := by
  obtain ⟨hreads, hrest⟩ := findDeferred_spec inHeap hlimit
  have hle : a + cfg.wordSize.sizeof ≤ limit ↔ a ≤ limit - cfg.wordSize.sizeof := by omega
  rw [hle]
  unfold scanRange
  cases hfind : findDeferred cfg inHeap p (limit - cfg.wordSize.sizeof) with
  | mk down found =>
      rw [hfind] at hreads hrest
      rcases hrest with ⟨hnone, hall⟩ | ⟨d, l, hsome, hl, hd, hplaus, hall⟩
      · simp only at hnone
        subst hnone
        constructor
        · exact ⟨hreads a, fun h => (hall a h.1 h.2).1⟩
        · constructor
          · intro hmem
            cases hmem
          · rintro ⟨⟨ha, hle⟩, hp⟩
            rw [(hall a ha hle).2] at hp
            cases hp
      · simp only at hsome
        subst hsome
        simp only [List.mem_append, List.mem_filter, List.mem_singleton, mem_scanUp]
        constructor
        · constructor
          · rintro (hmem | ⟨ha, hal⟩)
            · exact hreads a hmem
            · exact ⟨ha, by omega⟩
          · rintro ⟨ha, hle⟩
            rcases hall a ha hle with hal | ⟨hmem, -⟩
            · exact .inr ⟨ha, hal⟩
            · exact .inl hmem
        · constructor
          · rintro (⟨⟨ha, hal⟩, hp⟩ | rfl)
            · exact ⟨⟨ha, by omega⟩, hp⟩
            · exact ⟨hreads a hd, hplaus⟩
          · rintro ⟨⟨ha, hle⟩, hp⟩
            rcases hall a ha hle with hal | ⟨-, rfl | hno⟩
            · exact .inl ⟨⟨ha, hal⟩, hp⟩
            · exact .inr rfl
            · rw [hno] at hp
              cases hp

end

/-! ## Splitting -/

theorem WORDS_TO_BYTES_eq (ws : WordSize) (n : Nat) : WORDS_TO_BYTES ws n = n * ws.sizeof := by
  cases ws with
  | four => exact Nat.shiftLeft_eq n 2
  | eight => exact Nat.shiftLeft_eq n 3

theorem tagOf_eq {ws : WordSize} (descr : Word ws) : tagOf descr = descr.toNat % 8 := by
  cases ws with
  | four => exact toNat_and_lowMask (w := 32) (k := 3) (by omega) descr
  | eight => exact toNat_and_lowMask (w := 64) (k := 3) (by omega) descr

/-- The test at the top of the loop. -/
theorem mask_eq_zero_iff {ws : WordSize} (descr : Word ws) :
    descr &&& (~~~BitVec.ofNat _ (WORDS_TO_BYTES ws SPLIT_RANGE_WORDS - 1) ||| GC_DS_TAGS ws) = 0 ↔
      descr.toNat < WORDS_TO_BYTES ws SPLIT_RANGE_WORDS ∧ descr.toNat % 8 = 0 := by
  cases ws with
  | four => exact and_mask_eq_zero_iff (w := 32) (k := 9) (j := 3) (by omega) (by omega) descr
  | eight => exact and_mask_eq_zero_iff (w := 64) (k := 10) (j := 3) (by omega) (by omega) descr

section

variable {cfg : Config} {inHeap : Int → Bool} {p : Int} {d : Word cfg.wordSize}

/-- A short range is scanned as a whole. -/
theorem nextRange_short (hlt : d.toNat < WORDS_TO_BYTES cfg.wordSize SPLIT_RANGE_WORDS)
    (htag : d.toNat % 8 = 0) : nextRange cfg ⟨p, d⟩ = some (p + d.toNat, none) := by
  unfold nextRange
  simp only
  rw [if_neg (not_not.mpr ((mask_eq_zero_iff d).mpr ⟨hlt, htag⟩))]

/-- Of a long one the first 127 words are, and the start of the next one. -/
theorem nextRange_long (hle : WORDS_TO_BYTES cfg.wordSize SPLIT_RANGE_WORDS ≤ d.toNat)
    (htag : d.toNat % 8 = 0) :
    nextRange cfg ⟨p, d⟩ =
      some (p + WORDS_TO_BYTES cfg.wordSize 127 + (cfg.wordSize.sizeof - cfg.ALIGNMENT : Nat),
        some ⟨p + WORDS_TO_BYTES cfg.wordSize 127,
          d - BitVec.ofNat _ (WORDS_TO_BYTES cfg.wordSize 127)⟩) := by
  have hmask := (mask_eq_zero_iff d).not.mpr fun h => by omega
  have hlen : tagOf d = GC_DS_LENGTH := by
    rw [tagOf_eq, htag]
    rfl
  unfold nextRange
  simp only
  rw [if_pos hmask, if_pos hlen]
  rfl

/-- What is left of a long range. -/
theorem toNat_rest {ws : WordSize} {d : Word ws}
    (hle : WORDS_TO_BYTES ws SPLIT_RANGE_WORDS ≤ d.toNat) :
    (d - BitVec.ofNat _ (WORDS_TO_BYTES ws 127)).toNat = d.toNat - 127 * ws.sizeof := by
  rw [BitVec.toNat_sub]
  cases ws with
  | four =>
      have hlt : d.toNat < 4294967296 := d.isLt
      have hle' : 512 ≤ d.toNat := hle
      show (4294967296 - 508 + d.toNat) % 4294967296 = d.toNat - 127 * 4
      omega
  | eight =>
      have hlt : d.toNat < 18446744073709551616 := d.isLt
      have hle' : 1024 ≤ d.toNat := hle
      show (18446744073709551616 - 1016 + d.toNat) % 18446744073709551616 = d.toNat - 127 * 8
      omega

/-- A length that splits into lengths: in 8 byte words, or short. -/
structure Splittable (d : Word cfg.wordSize) : Prop where
  pos : 0 < d.toNat
  tag : d.toNat % 8 = 0
  size : cfg.wordSize = .eight ∨ d.toNat < WORDS_TO_BYTES cfg.wordSize SPLIT_RANGE_WORDS

/-- The rest of a splittable length is one again, and shorter. -/
theorem Splittable.rest (hd : Splittable d)
    (hle : WORDS_TO_BYTES cfg.wordSize SPLIT_RANGE_WORDS ≤ d.toNat) :
    Splittable (d - BitVec.ofNat _ (WORDS_TO_BYTES cfg.wordSize 127)) ∧
      (d - BitVec.ofNat _ (WORDS_TO_BYTES cfg.wordSize 127)).toNat + 127 * cfg.wordSize.sizeof =
        d.toNat := by
  have hws : cfg.wordSize = .eight := hd.size.resolve_right (by omega)
  have hrest := toNat_rest hle
  have htag := hd.tag
  have hsize : cfg.wordSize.sizeof = 8 := congrArg WordSize.sizeof hws
  rw [WORDS_TO_BYTES_eq, hsize] at hle
  have hle' : 128 * 8 ≤ d.toNat := hle
  rw [hsize] at hrest ⊢
  refine ⟨⟨?_, ?_, .inl hws⟩, ?_⟩ <;> omega

/-- The word size divides every length that has the tag of a length. -/
theorem sizeof_dvd {ws : WordSize} {d : Word ws} (htag : d.toNat % 8 = 0) :
    ws.sizeof ∣ d.toNat := by
  have h8 : 8 ∣ d.toNat := Nat.dvd_of_mod_eq_zero htag
  refine Nat.dvd_trans ?_ h8
  cases ws with
  | four => exact ⟨2, rfl⟩
  | eight => exact ⟨1, rfl⟩

theorem sizeof_pos (ws : WordSize) : 0 < ws.sizeof := by
  cases ws with
  | four => exact Nat.zero_lt_succ 3
  | eight => exact Nat.zero_lt_succ 7

/-- Whole words from the start of a range end at positions of its scan. -/
theorem position_words (cfg : Config) (p : Int) (i : Nat) :
    Position cfg p (p + i * cfg.wordSize.sizeof) := by
  obtain ⟨q, hq⟩ := cfg.aligned
  refine ⟨i * q, ?_⟩
  rw [hq]
  push_cast
  ring

/-- The last position of the scan of a short range. -/
theorem position_short (hd : 0 < d.toNat) (htag : d.toNat % 8 = 0) :
    Position cfg p (p + d.toNat - cfg.wordSize.sizeof) := by
  obtain ⟨n, hn⟩ := sizeof_dvd htag
  cases n with
  | zero =>
      rw [Nat.mul_zero] at hn
      omega
  | succ n =>
      have heq : p + d.toNat - cfg.wordSize.sizeof = p + n * cfg.wordSize.sizeof := by
        rw [hn]
        push_cast
        ring
      rw [heq]
      exact position_words cfg p n

/-- The last position of the scan of the first part of a long range. -/
theorem position_long (cfg : Config) (p : Int) :
    Position cfg p (p + WORDS_TO_BYTES cfg.wordSize 127 +
      (cfg.wordSize.sizeof - cfg.ALIGNMENT : Nat) - cfg.wordSize.sizeof) := by
  have hle := Nat.le_of_dvd (sizeof_pos cfg.wordSize) cfg.aligned
  have hlt := cfg.ALIGNMENT_pos
  obtain ⟨q, hq⟩ := cfg.aligned
  cases q with
  | zero =>
      rw [Nat.mul_zero] at hq
      have := sizeof_pos cfg.wordSize
      omega
  | succ q =>
      refine ⟨126 * (q + 1) + q, ?_⟩
      rw [WORDS_TO_BYTES_eq, Nat.cast_sub hle, hq]
      push_cast
      ring

/-- What a splittable length is made of: no step writes another tag or leaves the range. -/
theorem markRange_inside (inHeap : Int → Bool) (p : Int) (hd : Splittable d) (n : Nat) :
    (∀ d' ∈ (markRange cfg inHeap n (some ⟨p, d⟩)).descrs, tagOf d' = GC_DS_LENGTH) ∧
      ∀ a ∈ (markRange cfg inHeap n (some ⟨p, d⟩)).reads,
        p ≤ a ∧ a + cfg.wordSize.sizeof ≤ p + d.toNat := by
  induction n generalizing p d with
  | zero =>
      constructor
      · intro d' hd'
        cases hd'
      · intro a ha
        cases ha
  | succ n ih =>
      by_cases hlt : d.toNat < WORDS_TO_BYTES cfg.wordSize SPLIT_RANGE_WORDS
      · have hnext := nextRange_short (p := p) hlt hd.tag
        have hnil : markRange cfg inHeap n none = ⟨[], [], [], none⟩ := by
          cases n <;> rfl
        simp only [markRange, hnext, hnil]
        constructor
        · intro d' hd'
          cases hd'
        · intro a ha
          rw [List.append_nil, (scanRange_spec inHeap (position_short hd.pos hd.tag) a).1] at ha
          exact ⟨ha.1.le, ha.2⟩
      · have hle : WORDS_TO_BYTES cfg.wordSize SPLIT_RANGE_WORDS ≤ d.toNat := by omega
        obtain ⟨hgood, hsum⟩ := hd.rest hle
        obtain ⟨htags, hreads⟩ := ih (p + WORDS_TO_BYTES cfg.wordSize 127) hgood
        simp only [markRange, nextRange_long (p := p) hle hd.tag]
        have hpart := WORDS_TO_BYTES_eq cfg.wordSize 127
        have hpos := cfg.ALIGNMENT_pos
        constructor
        · intro d' hd'
          rcases List.mem_cons.mp hd' with rfl | hd'
          · rw [tagOf_eq, hgood.tag]
            rfl
          · exact htags d' hd'
        · intro a ha
          rcases List.mem_append.mp ha with ha | ha
          · rw [(scanRange_spec inHeap (position_long cfg p) a).1] at ha
            have hge := ha.1.le
            have hrest := hgood.pos
            have hword := Nat.le_of_dvd hrest (sizeof_dvd hgood.tag)
            refine ⟨hge, ?_⟩
            have := ha.2
            omega
          · obtain ⟨hge, hle⟩ := hreads a ha
            constructor <;> omega

/-- A word that lies in the range is read, and pushed if it may be a pointer. -/
theorem scanRange_word (inHeap : Int → Bool)
    (hlimit : Position cfg p (limit - cfg.wordSize.sizeof)) {i : Nat}
    (hin : p + i * cfg.wordSize.sizeof + cfg.wordSize.sizeof ≤ limit) :
    p + i * cfg.wordSize.sizeof ∈ (scanRange cfg inHeap p limit).1 ∧
      (inHeap (p + i * cfg.wordSize.sizeof) = true →
        p + i * cfg.wordSize.sizeof ∈ (scanRange cfg inHeap p limit).2) := by
  have hpos := position_words cfg p i
  obtain ⟨hreads, hpushes⟩ := scanRange_spec inHeap hlimit (p + i * cfg.wordSize.sizeof)
  exact ⟨hreads.mpr ⟨hpos, hin⟩, fun hp => hpushes.mpr ⟨⟨hpos, hin⟩, hp⟩⟩

/-- The splitting ends, and by then each word of the range has been looked at. -/
theorem markRange_ends (inHeap : Int → Bool) (p : Int) (hd : Splittable d) :
    ∃ n, (markRange cfg inHeap n (some ⟨p, d⟩)).rest = none ∧
      ∀ i : Nat, (i + 1) * cfg.wordSize.sizeof ≤ d.toNat →
        p + i * cfg.wordSize.sizeof ∈ (markRange cfg inHeap n (some ⟨p, d⟩)).reads ∧
          (inHeap (p + i * cfg.wordSize.sizeof) = true → p + i * cfg.wordSize.sizeof ∈
            (markRange cfg inHeap n (some ⟨p, d⟩)).pushes) := by
  -- by induction on the length; the words before the split are those of the first scan
  induction hlen : d.toNat using Nat.strong_induction_on generalizing p d with
  | _ len ih =>
      subst hlen
      by_cases hlt : d.toNat < WORDS_TO_BYTES cfg.wordSize SPLIT_RANGE_WORDS
      · -- a short range is scanned in one turn
        refine ⟨1, ?_, ?_⟩
        · simp only [markRange, nextRange_short (p := p) hlt hd.tag]
        · intro i hi
          have hin : p + i * cfg.wordSize.sizeof + cfg.wordSize.sizeof ≤ p + d.toNat := by
            rw [Nat.succ_mul] at hi
            push_cast [← Int.ofNat_le] at hi
            omega
          simp only [markRange, nextRange_short (p := p) hlt hd.tag, List.append_nil]
          exact scanRange_word inHeap (position_short hd.pos hd.tag) hin
      · have hle : WORDS_TO_BYTES cfg.wordSize SPLIT_RANGE_WORDS ≤ d.toNat := by omega
        obtain ⟨hrest, hsum⟩ := hd.rest hle
        have hsize := sizeof_pos cfg.wordSize
        have hpart := WORDS_TO_BYTES_eq cfg.wordSize 127
        obtain ⟨n, hnone, hwords⟩ := ih _ (by omega)
          (p + WORDS_TO_BYTES cfg.wordSize 127) hrest rfl
        refine ⟨n + 1, ?_, ?_⟩
        · simp only [markRange, nextRange_long (p := p) hle hd.tag]
          exact hnone
        · intro i hi
          simp only [markRange, nextRange_long (p := p) hle hd.tag]
          by_cases hi' : i < 127
          · have hmul : (i + 1) * cfg.wordSize.sizeof ≤ 127 * cfg.wordSize.sizeof :=
              Nat.mul_le_mul_right _ hi'
            have hin : p + i * cfg.wordSize.sizeof + cfg.wordSize.sizeof ≤
                p + WORDS_TO_BYTES cfg.wordSize 127 +
                  (cfg.wordSize.sizeof - cfg.ALIGNMENT : Nat) := by
              rw [Nat.succ_mul] at hmul
              push_cast [← Int.ofNat_le] at hmul
              omega
            obtain ⟨hread, hpush⟩ := scanRange_word inHeap (position_long cfg p) hin
            exact ⟨List.mem_append_left _ hread, fun hp => List.mem_append_left _ (hpush hp)⟩
          · -- the word belongs to the range that is put back
            obtain ⟨j, rfl⟩ : ∃ j, i = 127 + j := ⟨i - 127, by omega⟩
            have haddr : p + (127 + j : Nat) * cfg.wordSize.sizeof =
                p + WORDS_TO_BYTES cfg.wordSize 127 + j * cfg.wordSize.sizeof := by
              rw [hpart]
              push_cast
              ring
            have hj : (j + 1) * cfg.wordSize.sizeof ≤
                (d - BitVec.ofNat _ (WORDS_TO_BYTES cfg.wordSize 127)).toNat := by
              have hexp : (127 + j + 1) * cfg.wordSize.sizeof =
                  127 * cfg.wordSize.sizeof + (j + 1) * cfg.wordSize.sizeof := by ring
              omega
            rw [haddr]
            obtain ⟨hread, hpush⟩ := hwords j hj
            exact ⟨List.mem_append_right _ hread,
              fun hp => List.mem_append_right _ (hpush hp)⟩

/-- In 4 byte words the rest of a long range has another tag. -/
theorem tag_of_rest_four (hws : cfg.wordSize = .four) (htag : d.toNat % 8 = 0)
    (hle : WORDS_TO_BYTES cfg.wordSize SPLIT_RANGE_WORDS ≤ d.toNat) :
    tagOf (d - BitVec.ofNat _ (WORDS_TO_BYTES cfg.wordSize 127)) = 4 := by
  have hsize : cfg.wordSize.sizeof = 4 := congrArg WordSize.sizeof hws
  rw [tagOf_eq, toNat_rest hle]
  rw [WORDS_TO_BYTES_eq, hsize] at hle
  have hle' : 128 * 4 ≤ d.toNat := hle
  rw [hsize]
  omega

end

/-- **When ranges are split correctly.** With 8 byte words always; with 4 byte words as long
as they are not split. -/
theorem splitsCorrectly_iff (cfg : Config) (inHeap : Int → Bool) (r : Region cfg) :
    SplitsCorrectly inHeap r ↔
      cfg.wordSize = .eight ∨
        r.len.toNat < WORDS_TO_BYTES cfg.wordSize SPLIT_RANGE_WORDS := by
  have h8 : 8 ∣ GC_GRANULE_BYTES cfg.wordSize := by
    cases cfg.wordSize with
    | four => exact ⟨1, rfl⟩
    | eight => exact ⟨2, rfl⟩
  have htag : r.len.toNat % 8 = 0 := Nat.mod_eq_zero_of_dvd (Nat.dvd_trans h8 r.granules)
  constructor
  · intro h
    by_contra hno
    rw [not_or, Nat.not_lt] at hno
    obtain ⟨hws, hle⟩ := hno
    have hfour : cfg.wordSize = .four := by
      cases hsize : cfg.wordSize with
      | four => rfl
      | eight => exact absurd hsize hws
    have hdescr := h.tags 1 (r.len - BitVec.ofNat _ (WORDS_TO_BYTES cfg.wordSize 127)) <| by
      simp only [markRange, Region.entry, nextRange_long hle htag]
      exact List.mem_cons_self
    rw [tag_of_rest_four hfour htag hle] at hdescr
    cases hdescr
  · intro h
    have hd : Splittable r.len := ⟨r.len_pos, htag, h⟩
    refine ⟨fun n => (markRange_inside inHeap r.start hd n).1,
      fun n => (markRange_inside inHeap r.start hd n).2, ?_⟩
    obtain ⟨n, hnone, hwords⟩ := markRange_ends inHeap r.start hd
    refine ⟨n, hnone, ?_⟩
    rintro a ⟨i, rfl, hi⟩
    exact hwords i hi

/-- A 32 bit machine. -/
def config32 : Config := ⟨.four, 4, ⟨1, rfl⟩⟩

/-- A region of 128 words of 4 bytes. -/
def region128 : Region config32 := ⟨0x10000, ⟨0x4000, rfl⟩, 512#32, by decide, by decide⟩

/-- After the first 127 words the descriptor 4 is left, which has the tag 4. -/
theorem region128_split :
    (markRange config32 (fun _ => false) 1 (some region128.entry)).descrs = [4#32] ∧
      @tagOf .four 4#32 = 4 ∧
      ¬SplitsCorrectly (fun _ => false) region128 := by
  have hle : WORDS_TO_BYTES config32.wordSize SPLIT_RANGE_WORDS ≤ region128.len.toNat := by decide
  have hdescrs :
      (markRange config32 (fun _ => false) 1 (some region128.entry)).descrs = [4#32] := by
    simp only [markRange, Region.entry, nextRange_long hle (by decide)]
    rfl
  refine ⟨hdescrs, rfl, ?_⟩
  intro h
  have hdescr := h.tags 1 4#32 (hdescrs ▸ List.mem_singleton_self _)
  cases hdescr

end Ironclad.Gc.RangeSplit
