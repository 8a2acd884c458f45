import Ironclad.Gc.TypedMarking

/-!
# Making descriptors from bitmaps

`GC_make_descriptor` turns a bitmap, one bit for each word of an object, into a descriptor: a
length when the pointers come first, a reversed bitmap when it fits in front of the tag, and
otherwise the index of a row of parts in the table of extended descriptors. This module has the
descriptors and what the marker makes of each of them; the table is in the next one.
-/

namespace Ironclad.Gc.Typed

open Logic BitScan RangeSplit

/-! ## Bitmaps -/

/-- A bitmap with its length. An object of so many words fits the address space. -/
structure GC_bitmap where
  word : Nat → BitVec 64
  len : Nat
  len_lt : len < 2 ^ 60

/-- `GC_get_bit`. -/
def GC_bitmap.bit (bm : GC_bitmap) (index : Nat) : Bool :=
  (bm.word (index / 64)).getLsbD (index % 64)

/-- The words that may be pointers. -/
def GC_bitmap.words (bm : GC_bitmap) : Set Nat := {i | i < bm.len ∧ bm.bit i = true}

/-- `BITMAP_BITS`. -/
def BITMAP_BITS : Nat := 64 - GC_DS_TAG_BITS

def HIGH_BIT : BitVec 64 := 1 <<< 63

/-- The loop down to the last bit that is set, from below `n`. -/
def lastSetBit (bit : Nat → Bool) : Nat → Option Nat
  | 0 => none
  | n + 1 => if bit n then some n else lastSetBit bit n

/-- The loop that shifts the bits below `i` into `result`. -/
def reversed (bit : Nat → Bool) : Nat → BitVec 64 → BitVec 64
  | 0, result => result
  | i + 1, result =>
      reversed bit i (if bit i then (result >>> 1) ||| HIGH_BIT else result >>> 1)

/-- A descriptor, or the number of bits for which an extended one has to be added. -/
inductive Description where
  | simple (d : GC_descr)
  | extended (nbits : Nat)
  deriving DecidableEq, Repr

/-- The length of the first `n` words. -/
def lengthDescr (n : Nat) : GC_descr := BitVec.ofNat 64 (n * 8) ||| BitVec.ofNat 64 GC_DS_LENGTH

/-- `GC_make_descriptor` up to the call of `GC_add_ext_descriptor`. -/
def GC_make_descriptor (bm : GC_bitmap) : Description :=
  match lastSetBit bm.bit bm.len with
  | none => .simple 0
  | some last_set_bit =>
      if (List.range last_set_bit).all bm.bit then .simple (lengthDescr (last_set_bit + 1))
      else if last_set_bit < BITMAP_BITS then
        .simple (reversed bm.bit last_set_bit HIGH_BIT ||| BitVec.ofNat 64 GC_DS_BITMAP)
      else .extended (last_set_bit + 1)

/-- `GC_explicit_kind`: the descriptor is in the last word of an object of `sz` bytes, to which
the one of the kind is relocated. -/
def typedKindDescr (sz : Nat) : GC_descr :=
  (-8 ||| BitVec.ofNat 64 GC_DS_PER_OBJECT) + BitVec.ofNat 64 sz

/-- The objects that have the descriptor in their last word are marked by looking at the words
`L`. -/
def MarksAs (w : World) (d : GC_descr) (L : Set Nat) : Prop :=
  ∀ (p : Int) (sz : Nat), 0 < sz → 16 ∣ sz → sz < 2 ^ 63 → w.memory (p + (sz - 8 : Nat)) = d →
    Covers w [entry p (typedKindDescr sz)] (wordsAt p L)

/-! ## Loops -/

theorem lastSetBit_none {bit : Nat → Bool} {n : Nat} (h : lastSetBit bit n = none) :
    ∀ i < n, bit i = false := by
  induction n with
  | zero => exact fun i hi => absurd hi (Nat.not_lt_zero i)
  | succ n ih =>
      rw [lastSetBit] at h
      split at h
      · cases h
      · rename_i hbit
        intro i hi
        rcases Nat.lt_succ_iff_lt_or_eq.mp hi with hlt | rfl
        · exact ih h i hlt
        · exact Bool.eq_false_iff.mpr hbit

theorem lastSetBit_some {bit : Nat → Bool} {n last : Nat} (h : lastSetBit bit n = some last) :
    last < n ∧ bit last = true ∧ ∀ i < n, last < i → bit i = false := by
  induction n with
  | zero => cases h
  | succ n ih =>
      rw [lastSetBit] at h
      split at h
      · rename_i hbit
        obtain rfl : n = last := Option.some.inj h
        exact ⟨Nat.lt_succ_self n, hbit, fun i hi hlt => by omega⟩
      · rename_i hbit
        obtain ⟨hlt, hset, hnone⟩ := ih h
        refine ⟨Nat.lt_succ_of_lt hlt, hset, ?_⟩
        intro i hi hgt
        rcases Nat.lt_succ_iff_lt_or_eq.mp hi with hlt' | rfl
        · exact hnone i hlt' hgt
        · exact Bool.eq_false_iff.mpr hbit

/-- The words of a bitmap are those up to its last bit that are set. -/
theorem GC_bitmap.mem_words_iff {bm : GC_bitmap} {last : Nat}
    (h : lastSetBit bm.bit bm.len = some last) {i : Nat} :
    i ∈ bm.words ↔ i ≤ last ∧ bm.bit i = true := by
  obtain ⟨hlt, -, hnone⟩ := lastSetBit_some h
  constructor
  · intro ⟨hi, hbit⟩
    refine ⟨?_, hbit⟩
    by_contra hgt
    rw [hnone i hi (by omega)] at hbit
    cases hbit
  · intro ⟨hi, hbit⟩
    exact ⟨by omega, hbit⟩

theorem getMsbD_HIGH_BIT : ∀ k < 64, HIGH_BIT.getMsbD k = decide (k = 0) := by
  decide

/-- One turn of the loop. -/
theorem getMsbD_shift_in (b : Bool) (result : BitVec 64) {k : Nat} (hk : k < 64) :
    (if b then (result >>> 1) ||| HIGH_BIT else result >>> 1).getMsbD k =
      if k = 0 then b else result.getMsbD (k - 1) := by
  have hlow : (result >>> 1).getMsbD k = if k = 0 then false else result.getMsbD (k - 1) := by
    rw [BitVec.getMsbD_ushiftRight]
    by_cases h0 : k = 0
    · simp [h0]
    · simp [h0, hk]
  cases b with
  | true =>
      rw [if_pos rfl, BitVec.getMsbD_or, hlow, getMsbD_HIGH_BIT k hk]
      by_cases h0 : k = 0 <;> simp [h0]
  | false => exact hlow

/-- The word that is shifted in has the bits in the order of the words. -/
theorem getMsbD_reversed (bit : Nat → Bool) (n : Nat) (result : BitVec 64) (k : Nat)
    (hk : k < 64) :
    (reversed bit n result).getMsbD k = if k < n then bit k else result.getMsbD (k - n) := by
  induction n generalizing result with
  | zero => simp [reversed]
  | succ n ih =>
      rw [reversed, ih]
      by_cases hlt : k < n
      · rw [if_pos hlt, if_pos (by omega)]
      · rw [if_neg hlt, getMsbD_shift_in (bit n) result (by omega)]
        by_cases h0 : k - n = 0
        · rw [if_pos h0, if_pos (by omega), show k = n by omega]
        · rw [if_neg h0, if_neg (by omega), show k - n - 1 = k - (n + 1) by omega]

/-! ## What the descriptors stand for -/

section

variable {w : World} {bm : GC_bitmap} {last n : Nat} {x y : BitVec 64}

theorem getLsbD_DS_TAGS : ∀ k < 64, DS_TAGS.getLsbD k = decide (k < 3) := by
  decide

/-- Putting a tag below a word and taking it off again. -/
theorem or_tag (hx : x &&& DS_TAGS = 0) (hy : y &&& ~~~DS_TAGS = 0) :
    (x ||| y) &&& DS_TAGS = y ∧ (x ||| y) &&& ~~~DS_TAGS = x := by
  constructor <;> apply BitVec.eq_of_getLsbD_eq <;> intro i hi
  all_goals
    have hxi := congrArg (fun z : BitVec 64 => z.getLsbD i) hx
    have hyi := congrArg (fun z : BitVec 64 => z.getLsbD i) hy
    simp only [BitVec.getLsbD_and, BitVec.getLsbD_or, BitVec.getLsbD_not, hi, decide_true,
      Bool.true_and, BitVec.ofNat_eq_ofNat, BitVec.getLsbD_zero] at hxi hyi ⊢
    cases hxb : x.getLsbD i <;> cases hyb : y.getLsbD i <;> cases ht : DS_TAGS.getLsbD i <;>
      simp_all

theorem tag_or (hx : x &&& DS_TAGS = 0) (hy : y &&& ~~~DS_TAGS = 0) : tag (x ||| y) = y.toNat :=
  congrArg BitVec.toNat (or_tag hx hy).1

/-- **A reversed bitmap stands for the words up to its last bit that are set.** -/
theorem describes_reversed (w : World) {bit : Nat → Bool} (hlast : bit last = true)
    (hfits : last < BITMAP_BITS) :
    Describes w (reversed bit last HIGH_BIT ||| BitVec.ofNat 64 GC_DS_BITMAP)
      {i | i ≤ last ∧ bit i = true} := by
  have hfits : last < 61 := hfits
  have hbits : ∀ k < 64, (reversed bit last HIGH_BIT).getMsbD k =
      if k < last then bit k else decide (k = last) := by
    intro k hk
    rw [getMsbD_reversed bit last HIGH_BIT k hk]
    by_cases hlt : k < last
    · rw [if_pos hlt, if_pos hlt]
    · rw [if_neg hlt, if_neg hlt, getMsbD_HIGH_BIT _ (by omega)]
      exact decide_eq_decide.mpr (by omega)
  -- the bits of the tag are clear
  have hclear : reversed bit last HIGH_BIT &&& DS_TAGS = 0 := by
    apply BitVec.eq_of_getLsbD_eq
    intro i hi
    rw [BitVec.getLsbD_and, getLsbD_DS_TAGS i hi]
    by_cases hi3 : i < 3
    · have hmsb := hbits (63 - i) (by omega)
      rw [if_neg (by omega), decide_eq_false (by omega), BitVec.getMsbD_eq_getLsbD] at hmsb
      rw [show i = 64 - 1 - (63 - i) by omega]
      simp only [show 63 - i < 64 by omega, decide_true, Bool.true_and] at hmsb
      simp [hmsb]
    · simp [hi3]
  have hone : BitVec.ofNat 64 GC_DS_BITMAP &&& ~~~DS_TAGS = 0 := by decide
  have h := describes_bitmap w (tag_or hclear hone)
  rw [(or_tag hclear hone).2] at h
  intro p
  apply (h p).congr
  intro a
  constructor
  · intro ⟨i, hi, ha⟩
    refine ⟨i, ?_, ha⟩
    change (reversed bit last HIGH_BIT).getMsbD i = true at hi
    rw [hbits i (BitVec.lt_of_getMsbD hi)] at hi
    split at hi
    · exact ⟨by omega, hi⟩
    · rw [decide_eq_true_eq] at hi
      exact ⟨by omega, by rw [hi]; exact hlast⟩
  · intro ⟨i, ⟨hle, hbit⟩, ha⟩
    refine ⟨i, ?_, ha⟩
    show (reversed bit last HIGH_BIT).getMsbD i = true
    rw [hbits i (by omega)]
    split
    · exact hbit
    · exact decide_eq_true (by omega)

theorem toNat_lengthDescr (h : n < 2 ^ 61) : (lengthDescr n).toNat = n * 8 := by
  have hor : lengthDescr n = BitVec.ofNat 64 (n * 8) := BitVec.or_zero
  rw [hor, BitVec.toNat_ofNat, Nat.mod_eq_of_lt (by omega)]

theorem describes_lengthDescr (w : World) (hpos : 0 < n) (h : n < 2 ^ 61) :
    Describes w (lengthDescr n) {i | i < n} := by
  have hnat := toNat_lengthDescr h
  have hlength := describes_length w (d := lengthDescr n) (by omega)
    ((tag_eq _).trans (by rw [hnat]; exact Nat.mul_mod_left n 8))
  rw [hnat, Nat.mul_div_cancel n (by omega)] at hlength
  exact hlength

/-! ### Mark procedures -/

theorem toNat_GC_MAKE_PROC {i env : BitVec 64} (hi : i.toNat < GC_MAX_MARK_PROCS)
    (henv : env.toNat < 2 ^ 55) :
    (GC_MAKE_PROC i env).toNat = env.toNat * 512 + i.toNat * 8 + 2 := by
  have hi : i.toNat < 2 ^ 6 := hi
  have hinner : (env <<< 6 ||| i).toNat = env.toNat * 64 + i.toNat := by
    rw [BitVec.toNat_or, BitVec.toNat_shiftLeft, Nat.mod_eq_of_lt (by rw [Nat.shiftLeft_eq]; omega),
      ← Nat.shiftLeft_add_eq_or_of_lt hi, Nat.shiftLeft_eq]
  show ((env <<< 6 ||| i) <<< 3 ||| 2#64).toNat = _
  rw [BitVec.toNat_or, BitVec.toNat_shiftLeft, hinner,
    Nat.mod_eq_of_lt (by rw [Nat.shiftLeft_eq]; omega),
    show (2#64).toNat = 2 from rfl, ← Nat.shiftLeft_add_eq_or_of_lt (by omega : 2 < 2 ^ 3),
    Nat.shiftLeft_eq]
  omega

/-- The index and the environment come back out of a procedure descriptor. -/
theorem proc_of_GC_MAKE_PROC {i env : BitVec 64} (hi : i.toNat < GC_MAX_MARK_PROCS)
    (henv : env.toNat < 2 ^ 55) :
    tag (GC_MAKE_PROC i env) = GC_DS_PROC ∧ PROC_INDEX (GC_MAKE_PROC i env) = i ∧
      ENV (GC_MAKE_PROC i env) = env := by
  have hnat := toNat_GC_MAKE_PROC hi henv
  have hi : i.toNat < 64 := hi
  refine ⟨?_, ?_, ?_⟩
  · rw [tag_eq, hnat]
    show _ = 2
    omega
  · apply BitVec.eq_of_toNat_eq
    show (GC_MAKE_PROC i env >>> 3 &&& 63#64).toNat = i.toNat
    rw [BitVec.toNat_and, BitVec.toNat_ushiftRight, hnat,
      show (63#64).toNat = 2 ^ 6 - 1 from rfl, Nat.and_two_pow_sub_one_eq_mod,
      Nat.shiftRight_eq_div_pow]
    omega
  · apply BitVec.eq_of_toNat_eq
    show (GC_MAKE_PROC i env >>> 9).toNat = env.toNat
    rw [BitVec.toNat_ushiftRight, hnat, Nat.shiftRight_eq_div_pow]
    omega

/-- The word `i` of a row of parts. -/
def partsBit (part : Nat → BitVec 64) (i : Nat) : Bool := (part (i / 64)).getLsbD (i % 64)

/-- The table has a row of `n` parts from `index` on. -/
def HasRow (table : List ext_descr) (index : Nat) (part : Nat → BitVec 64) (n : Nat) : Prop :=
  ∀ k < n, table[index + k]? = some ⟨part k, decide (k + 1 < n)⟩

/-- What `GC_typed_mark_proc` does with the first part of a row. -/
theorem turn_typed (w : World) (p : Int) {index : Nat} {d : ext_descr} (hindex : index < 2 ^ 55)
    (hd : w.GC_ext_descriptors[index]? = some d) :
    turn w (entry p (GC_MAKE_PROC w.procs.GC_typed_mark_proc_index (BitVec.ofNat 64 index))) =
      some ⟨scanExtBitmap d.ed_bitmap p, (scanExtBitmap d.ed_bitmap p).filter w.inHeapIncl,
        if d.ed_continued then
          [entry (p + 64 * 8)
            (GC_MAKE_PROC w.procs.GC_typed_mark_proc_index (BitVec.ofNat 64 (index + 1)))]
        else []⟩ := by
  have hnat : (BitVec.ofNat 64 index).toNat = index := by
    rw [BitVec.toNat_ofNat, Nat.mod_eq_of_lt (by omega)]
  have hlt : (BitVec.ofNat 64 index).toNat < 2 ^ 55 := by omega
  obtain ⟨htag, hproc, henv⟩ := proc_of_GC_MAKE_PROC w.procs.typed_lt hlt
  rw [turn_eq_turnTagged w p (.inr (.inl htag)), turnTagged, htag, if_neg (by decide), if_pos rfl,
    if_pos hproc, henv, GC_typed_mark_proc, hnat, hd, BitVec.ofNat_add]
  rfl

/-- **A row of parts stands for the words of its bits**, part after part. -/
theorem describes_row (w : World) {index : Nat} {part : Nat → BitVec 64} (hn : 0 < n)
    (hindex : index + n ≤ 2 ^ 55) (hrow : HasRow w.GC_ext_descriptors index part n) :
    Describes w (GC_MAKE_PROC w.procs.GC_typed_mark_proc_index (BitVec.ofNat 64 index))
      {i | i < n * 64 ∧ partsBit part i = true} := by
  induction n generalizing index part with
  | zero => exact absurd hn (Nat.lt_irrefl 0)
  | succ n ih =>
      intro p
      have hturn := turn_typed w p (by omega) (hrow 0 hn)
      simp only [Nat.add_zero, Nat.zero_add] at hturn
      have hlook : ∀ es, Turn.LooksAt w ⟨scanExtBitmap (part 0) p,
          (scanExtBitmap (part 0) p).filter w.inHeapIncl, es⟩
          (wordsAt p {i | i < 64 ∧ partsBit part i = true}) := by
        intro es
        apply looksAt_filter (fun _ h => inHeap_inHeapIncl h) (fun _ h => h)
        intro a
        rw [scanExtBitmap_eq, List.mem_map]
        constructor
        · intro ⟨i, hi, ha⟩
          have hbit := mem_lowBits.mp hi
          have hlt := BitVec.lt_of_getLsbD hbit
          refine ⟨i, ⟨hlt, ?_⟩, ha.symm⟩
          rw [partsBit, Nat.div_eq_of_lt hlt, Nat.mod_eq_of_lt hlt]
          exact hbit
        · intro ⟨i, ⟨hlt, hbit⟩, ha⟩
          rw [partsBit, Nat.div_eq_of_lt hlt, Nat.mod_eq_of_lt hlt] at hbit
          exact ⟨i, mem_lowBits.mpr hbit, ha.symm⟩
      rcases Nat.eq_zero_or_pos n with rfl | hpos
      · simp only [Nat.lt_irrefl, decide_false, Bool.false_eq_true, if_false] at hturn
        exact (Covers.of_turn hturn (hlook []) Covers.nil).congr fun a => by simp
      · -- the rest of the row is one again
        have hrest : HasRow w.GC_ext_descriptors (index + 1) (fun k => part (k + 1)) n := by
          intro k hk
          have hk' := hrow (k + 1) (by omega)
          rw [show index + (k + 1) = index + 1 + k by omega] at hk'
          rw [hk']
          congr 2
          exact decide_eq_decide.mpr (by omega)
        have hcovers := ih hpos (by omega) hrest (p + 64 * 8)
        rw [if_pos (decide_eq_true (by omega))] at hturn
        apply (Covers.of_turn hturn (hlook _) hcovers).congr
        intro a
        have hshift : ∀ i, partsBit part (i + 64) = partsBit (fun k => part (k + 1)) i := by
          intro i
          rw [partsBit, partsBit, Nat.add_div_right i (by omega), Nat.add_mod_right]
        constructor
        · intro ha
          rcases ha with ⟨i, ⟨hlt, hbit⟩, ha⟩ | ⟨i, ⟨hlt, hbit⟩, ha⟩
          · exact ⟨i, ⟨by omega, hbit⟩, ha⟩
          · exact ⟨i + 64, ⟨by omega, (hshift i).trans hbit⟩, by push_cast; omega⟩
        · intro ⟨i, ⟨hlt, hbit⟩, ha⟩
          by_cases hi : i < 64
          · exact .inl ⟨i, ⟨hi, hbit⟩, ha⟩
          · refine .inr ⟨i - 64, ⟨by omega, ?_⟩, by omega⟩
            rw [← hshift, Nat.sub_add_cancel (by omega)]
            exact hbit

/-! ### Typed objects -/

/-- The descriptor in the last word of an object is found. -/
theorem turn_typedKind (w : World) (p : Int) {sz : Nat} (hpos : 0 < sz) (hgran : 16 ∣ sz)
    (hlt : sz < 2 ^ 63) :
    turn w (entry p (typedKindDescr sz)) =
      some ⟨[], [], if w.memory (p + (sz - 8 : Nat)) = 0 then []
        else [entry p (w.memory (p + (sz - 8 : Nat)))]⟩ := by
  have hnat : (typedKindDescr sz).toNat = sz - 5 := by
    have hkind : -8#64 ||| 3#64 = BitVec.ofNat 64 (2 ^ 64 - 5) := by decide
    show ((-8#64 ||| 3#64) + BitVec.ofNat 64 sz).toNat = sz - 5
    rw [hkind, ← BitVec.ofNat_add, BitVec.toNat_ofNat]
    omega
  have htag : tag (typedKindDescr sz) = GC_DS_PER_OBJECT := by
    rw [tag_eq, hnat]
    show _ = 3
    omega
  have hint : 0 ≤ (typedKindDescr sz).toInt := by
    rw [BitVec.toInt_eq_toNat_cond, hnat, if_pos (by omega)]
    omega
  have hword : sz - 5 - GC_DS_PER_OBJECT = sz - 8 := by
    unfold GC_DS_PER_OBJECT
    omega
  rw [turn_eq_turnTagged w p (.inr (.inr htag)), turnTagged, htag, if_neg (by decide),
    if_neg (by decide), if_pos rfl, if_pos hint, hnat, hword]

theorem marksAs_zero (w : World) : MarksAs w 0 ∅ := by
  intro p sz hpos hgran hlt hd
  have hturn := turn_typedKind w p hpos hgran hlt
  rw [hd, if_pos rfl] at hturn
  exact (Covers.of_entries hturn Covers.nil).congr fun a => by simp [wordsAt]

/-- Typed objects are marked as their descriptor says. -/
theorem Describes.marksAs {d : GC_descr} {L : Set Nat} (h : Describes w d L) (hd : d ≠ 0) :
    MarksAs w d L := by
  intro p sz hpos hgran hlt hword
  have hturn := turn_typedKind w p hpos hgran hlt
  rw [hword, if_neg hd] at hturn
  exact Covers.of_entries hturn (h p)

end

end Ironclad.Gc.Typed
