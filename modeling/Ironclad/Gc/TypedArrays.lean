import Ironclad.Gc.TypedDescriptors

/-!
# Descriptors of arrays

`GC_make_array_descriptor` describes `nelements` elements of one descriptor. A large array of
small elements is described as one of half as many elements that are twice as large, and an odd
element at the end by a sequence of two descriptors. `PushesAs` says what the entries are that
`GC_push_complex_descriptor` makes of a complex descriptor; the main result is that the words
looked at are those of all elements, through any number of halvings.
-/

namespace Ironclad.Gc.Typed

open Logic BitScan RangeSplit

/-! ## Making them -/

/-- An entry of `GC_bm_table`: `n` words, all of them pointers. -/
def GC_bm_table (i : Nat) : GC_descr :=
  ((BitVec.allOnes 64 >>> (64 - i)) <<< (64 - i)) ||| BitVec.ofNat 64 GC_DS_BITMAP

/-- `GC_double_descr`. -/
def GC_double_descr (descriptor : GC_descr) (nwords : Nat) : GC_descr :=
  let descriptor :=
    if tag descriptor = GC_DS_LENGTH then GC_bm_table (descriptor.toNat / 8) else descriptor
  descriptor ||| ((descriptor &&& ~~~DS_TAGS) >>> nwords)

/-- What `GC_make_array_descriptor` returns. A complex descriptor is `none` when the pointer to
it, or one inside it, is null. -/
inductive ArrayDescr where
  | SIMPLE (simple_d : GC_descr)
  | LEAF (leaf : LeafDescriptor)
  | COMPLEX (complex_d : Option complex_descriptor)
  | NO_MEM

def OPT_THRESHOLD : Nat := 50

def mkLeaf (size nelements : Nat) (descriptor : GC_descr) : LeafDescriptor :=
  ⟨BitVec.ofNat 64 size, BitVec.ofNat 64 nelements, descriptor⟩

section

variable (ok : Nat → Bool)

/-- `GC_make_sequence_descriptor`, whose allocation is the `k`-th one: the result of it is not
checked. -/
def GC_make_sequence_descriptor (k : Nat) (first : Option complex_descriptor)
    (second : complex_descriptor) : Option complex_descriptor :=
  if ok k then first.map fun first => .sd first second else none

/-- An odd element behind an array that has been described. -/
def withOddElement (result : ArrayDescr) (size : Nat) (descriptor : GC_descr) (k : Nat) :
    ArrayDescr × Nat :=
  let one_element := complex_descriptor.ld (mkLeaf size 1 descriptor)
  if ok k = false then (.NO_MEM, k + 1)
  else
    match result with
    | .NO_MEM => (.NO_MEM, k + 1)
    | .SIMPLE simple_d =>
        if ok (k + 1) = false then (.NO_MEM, k + 2)
        else
          let beginning := complex_descriptor.ld (mkLeaf size 1 simple_d)
          (.COMPLEX (GC_make_sequence_descriptor ok (k + 2) (some beginning) one_element), k + 3)
    | .LEAF leaf =>
        if ok (k + 1) = false then (.NO_MEM, k + 2)
        else
          (.COMPLEX (GC_make_sequence_descriptor ok (k + 2) (some (.ld leaf)) one_element), k + 3)
    | .COMPLEX complex_d =>
        (.COMPLEX (GC_make_sequence_descriptor ok (k + 1) complex_d one_element), k + 2)

/-- `GC_make_array_descriptor`; `k` allocations have been made, and the result of the `k`-th one
is `ok k`. With the result the number of those made afterwards is returned. -/
def GC_make_array_descriptor (nelements size : Nat) (descriptor : GC_descr) (k : Nat) :
    ArrayDescr × Nat :=
  if tag descriptor = GC_DS_LENGTH ∧ descriptor.toNat = size then
    (.SIMPLE (BitVec.ofNat 64 (nelements * size)), k)
  else if tag descriptor = GC_DS_LENGTH ∧ descriptor = 0 then (.SIMPLE 0, k)
  else if nelements ≤ OPT_THRESHOLD then
    if nelements ≤ 1 then
      if nelements = 1 then (.SIMPLE descriptor, k) else (.SIMPLE 0, k)
    else (.LEAF (mkLeaf size nelements descriptor), k)
  else if size ≤ BITMAP_BITS / 2 ∧ tag descriptor ≠ GC_DS_PROC ∧ size % 8 = 0 then
    let (result, k) :=
      GC_make_array_descriptor (nelements / 2) (2 * size) (GC_double_descr descriptor (size / 8)) k
    if nelements % 2 = 0 then (result, k) else withOddElement ok result size descriptor k
  else (.LEAF (mkLeaf size nelements descriptor), k)
  termination_by nelements
  decreasing_by
    unfold OPT_THRESHOLD at *
    omega

end

/-! ## What they stand for -/

/-- The words `L` of each of `n` elements. -/
def arrayWords (n size : Nat) (L : Set Nat) : Set Nat :=
  {i | ∃ k < n, ∃ j ∈ L, i = k * (size / 8) + j}

/-- The words of a bitmap descriptor. -/
def bitmapWords (d : GC_descr) : Set Nat := {i | (d &&& ~~~DS_TAGS).getMsbD i = true}

/-- A descriptor of elements of `size` bytes: a length, a bitmap, or a mark procedure. -/
inductive IsElement (w : World) (d : GC_descr) (size : Nat) (L : Set Nat) : Prop where
  | length (htag : tag d = GC_DS_LENGTH) (hle : d.toNat ≤ size) (hL : L = {i | i < d.toNat / 8})
  | bitmap (htag : tag d = GC_DS_BITMAP) (hL : L = bitmapWords d) (hin : ∀ i ∈ L, i < size / 8)
  | proc (htag : tag d = GC_DS_PROC) (hd : Describes w d L) (hin : ∀ i ∈ L, i < size / 8)

/-- The number of entries for a complex descriptor. -/
def complex_descriptor.entries : complex_descriptor → Nat
  | .ld leaf => leaf.ld_nelements.toNat
  | .ad nelements element_descr => nelements.toNat * element_descr.entries
  | .sd first second => first.entries + second.entries

/-- What the entries are that are pushed for a complex descriptor, wherever the array is; they
have to be fewer than there is room for. -/
structure PushesAs (w : World) (d : complex_descriptor) (size : Nat) (L : Set Nat) : Prop where
  obj_size : (GC_descr_obj_size d).toNat = size
  pushes : ∀ p room, d.entries < room → ∃ es, GC_push_complex_descriptor d p room = some es ∧
    es.length = d.entries ∧ Covers w es (wordsAt p L)
  too_many : ∀ p room, room ≤ d.entries → GC_push_complex_descriptor d p room = none

section

variable {w : World} {d : GC_descr} {size n : Nat} {L L' : Set Nat}

theorem IsElement.lt (h : IsElement w d size L) : ∀ i ∈ L, i < size / 8 := by
  cases h with
  | length htag hle hL =>
      subst hL
      intro i hi
      change i < d.toNat / 8 at hi
      omega
  | bitmap htag hL hin => exact hin
  | proc htag hd hin => exact hin

/-- An element descriptor that is not the empty length stands for its words. -/
theorem IsElement.describes (h : IsElement w d size L) (h0 : d ≠ 0) : Describes w d L := by
  cases h with
  | length htag hle hL =>
      subst hL
      refine describes_length w (Nat.pos_of_ne_zero fun hz => h0 ?_) htag
      exact BitVec.eq_of_toNat_eq hz
  | bitmap htag hL hin =>
      subst hL
      exact describes_bitmap w htag
  | proc htag hd hin => exact hd

theorem wordsAt_union (p : Int) (L L' : Set Nat) :
    wordsAt p (L ∪ L') = wordsAt p L ∪ wordsAt p L' := by
  ext a
  simp only [wordsAt, Set.mem_ofPred_eq, Set.mem_union]
  constructor
  · rintro ⟨i, hi | hi, ha⟩
    · exact .inl ⟨i, hi, ha⟩
    · exact .inr ⟨i, hi, ha⟩
  · rintro (⟨i, hi, ha⟩ | ⟨i, hi, ha⟩)
    · exact ⟨i, .inl hi, ha⟩
    · exact ⟨i, .inr hi, ha⟩

/-- The words of an object that begins a number of words behind another one. -/
theorem wordsAt_shift (p : Int) (m : Nat) (L : Set Nat) :
    wordsAt (p + 8 * m) L = wordsAt p {i | ∃ j ∈ L, i = m + j} := by
  ext a
  constructor
  · intro ⟨j, hj, ha⟩
    exact ⟨m + j, ⟨j, hj, rfl⟩, by push_cast; omega⟩
  · intro ⟨i, ⟨j, hj, hi⟩, ha⟩
    exact ⟨j, hj, by subst hi; push_cast at ha; omega⟩

theorem arrayWords_zero : arrayWords 0 size L = ∅ := by
  ext i
  simp [arrayWords]

theorem arrayWords_one : arrayWords 1 size L = L := by
  ext i
  simp [arrayWords]

theorem arrayWords_add (m : Nat) :
    arrayWords (n + m) size L =
      arrayWords n size L ∪ {i | ∃ j ∈ arrayWords m size L, i = n * (size / 8) + j} := by
  ext i
  constructor
  · intro ⟨k, hk, j, hj, hi⟩
    by_cases hlt : k < n
    · exact .inl ⟨k, hlt, j, hj, hi⟩
    · refine .inr ⟨(k - n) * (size / 8) + j, ⟨k - n, by omega, j, hj, rfl⟩, ?_⟩
      rw [hi, ← Nat.add_assoc, ← Nat.add_mul, Nat.add_sub_cancel' (by omega)]
  · intro hi
    rcases hi with ⟨k, hk, j, hj, hi⟩ | ⟨_, ⟨k, hk, j, hj, rfl⟩, hi⟩
    · exact ⟨k, by omega, j, hj, hi⟩
    · exact ⟨n + k, by omega, j, hj, by rw [hi, Nat.add_mul, Nat.add_assoc]⟩

end

/-! ## Pushing elements -/

section

variable {w : World} {d : GC_descr} {size n : Nat} {L L' : Set Nat}

/-- The entries of `n` elements one behind the other. -/
theorem covers_elements (hd : Describes w d L) (hsize : size % 8 = 0) (p : Int) (n : Nat) :
    Covers w ((List.range n).map fun i : Nat => entry (p + size * i) d).reverse
      (wordsAt p (arrayWords n size L)) := by
  induction n with
  | zero =>
      apply Covers.nil.congr
      intro a
      rw [arrayWords_zero]
      simp [wordsAt]
  | succ n ih =>
      have hwords : wordsAt p (arrayWords (n + 1) size L) =
          wordsAt (p + size * n) L ∪ wordsAt p (arrayWords n size L) := by
        have haddr : p + (size : Int) * n = p + 8 * ((n * (size / 8) : Nat) : Int) := by
          have hbytes : size * n = 8 * (n * (size / 8)) := by
            rw [Nat.mul_comm n, ← Nat.mul_assoc, Nat.mul_div_cancel' (Nat.dvd_of_mod_eq_zero hsize)]
          rw [← Nat.cast_mul, hbytes, Nat.cast_mul]
          rfl
        rw [arrayWords_add, arrayWords_one, wordsAt_union, haddr, wordsAt_shift, Set.union_comm]
      rw [List.range_succ, List.map_append, List.reverse_append, hwords]
      exact (hd (p + size * n)).append ih

/-- Leaf descriptors. -/
theorem pushesAs_leaf (hd : Describes w d L) (hsize : size % 8 = 0) (hpos : 0 < size)
    (hn : 0 < n) (hbytes : n * size < 2 ^ 63) :
    PushesAs w (.ld (mkLeaf size n d)) (n * size) (arrayWords n size L) := by
  have hle : n ≤ n * size := Nat.le_mul_of_pos_right n hpos
  have hle' : size ≤ n * size := Nat.le_mul_of_pos_left size hn
  have hsizeNat : (BitVec.ofNat 64 size).toNat = size := by
    rw [BitVec.toNat_ofNat, Nat.mod_eq_of_lt (by omega)]
  have hnNat : (BitVec.ofNat 64 n).toNat = n := by
    rw [BitVec.toNat_ofNat, Nat.mod_eq_of_lt (by omega)]
  constructor
  · show (BitVec.ofNat 64 n * BitVec.ofNat 64 size).toNat = n * size
    rw [BitVec.toNat_mul, hnNat, hsizeNat, Nat.mod_eq_of_lt (by omega)]
  · intro p room hroom
    refine ⟨_, if_neg (Nat.not_le_of_lt hroom), by simp [complex_descriptor.entries], ?_⟩
    show Covers w ((List.range (BitVec.ofNat 64 n).toNat).map fun i : Nat =>
      entry (p + (BitVec.ofNat 64 size).toNat * i) d).reverse _
    rw [hnNat, hsizeNat]
    exact covers_elements hd hsize p n
  · exact fun p room hroom => if_pos hroom

/-- Two arrays one behind the other. -/
theorem PushesAs.sd {first second : complex_descriptor} {m : Nat} (h : PushesAs w first n L)
    (h' : PushesAs w second m L') (hn : n % 8 = 0) (hbytes : n + m < 2 ^ 63) :
    PushesAs w (.sd first second) (n + m) (L ∪ {i | ∃ j ∈ L', i = n / 8 + j}) := by
  constructor
  · show (GC_descr_obj_size first + GC_descr_obj_size second).toNat = n + m
    rw [BitVec.toNat_add, h.obj_size, h'.obj_size, Nat.mod_eq_of_lt (by omega)]
  · intro p room hroom
    rw [complex_descriptor.entries] at hroom
    obtain ⟨es₁, h₁, hlen₁, hfirst⟩ := h.pushes p room (by omega)
    obtain ⟨es₂, h₂, hlen₂, hsecond⟩ := h'.pushes (p + n) (room - es₁.length) (by omega)
    refine ⟨es₂ ++ es₁, ?_, ?_, ?_⟩
    · rw [GC_push_complex_descriptor, h.obj_size, h₁, Option.bind_some, h₂]
      rfl
    · rw [List.length_append, complex_descriptor.entries]
      omega
    · have haddr : p + (n : Int) = p + 8 * ((n / 8 : Nat) : Int) := by omega
      rw [haddr, wordsAt_shift] at hsecond
      rw [wordsAt_union, Set.union_comm]
      exact hsecond.append hfirst
  · intro p room hroom
    rw [complex_descriptor.entries] at hroom
    rw [GC_push_complex_descriptor, h.obj_size]
    by_cases hfirst : room ≤ first.entries
    · rw [h.too_many p room hfirst]
      rfl
    · obtain ⟨es₁, h₁, hlen₁, -⟩ := h.pushes p room (by omega)
      rw [h₁, Option.bind_some, h'.too_many _ _ (by omega)]
      rfl

end

/-! ## Doubling -/

theorem GC_bm_table_bits : ∀ i < 4, 0 < i → tag (GC_bm_table i) = GC_DS_BITMAP ∧
    ∀ j < 64, (GC_bm_table i &&& ~~~DS_TAGS).getMsbD j = decide (j < i) := by
  decide +kernel

section

variable {w : World} {d : GC_descr} {size m : Nat} {L : Set Nat}

/-- A bitmap descriptor is its bits and its tag. -/
theorem bitmap_split (htag : tag d = GC_DS_BITMAP) :
    d = (d &&& ~~~DS_TAGS) ||| 1 ∧ (d &&& ~~~DS_TAGS) &&& DS_TAGS = 0 := by
  have hone : d &&& DS_TAGS = 1 := BitVec.eq_of_toNat_eq htag
  constructor
  · rw [← hone]
    apply BitVec.eq_of_getLsbD_eq
    intro i hi
    simp only [BitVec.getLsbD_or, BitVec.getLsbD_and, BitVec.getLsbD_not, hi, decide_true,
      Bool.true_and]
    cases d.getLsbD i <;> cases DS_TAGS.getLsbD i <;> rfl
  · rw [BitVec.and_assoc, BitVec.not_and_self]
    exact BitVec.and_zero

/-- The bitmap of two elements. -/
theorem bitmap_double (htag : tag d = GC_DS_BITMAP) (hm : m ≤ 3)
    (hin : ∀ i ∈ bitmapWords d, i < m) :
    tag (d ||| ((d &&& ~~~DS_TAGS) >>> m)) = GC_DS_BITMAP ∧
      bitmapWords (d ||| ((d &&& ~~~DS_TAGS) >>> m)) =
        bitmapWords d ∪ {i | ∃ j ∈ bitmapWords d, i = m + j} := by
  obtain ⟨hsplit, hclear⟩ := bitmap_split htag
  generalize hx : d &&& ~~~DS_TAGS = x at hsplit hclear
  have hin : ∀ i, x.getMsbD i = true → i < m := by
    intro i hi
    exact hin i (by rw [bitmapWords, hx]; exact hi)
  have hshift : ∀ i, (x >>> m).getMsbD i = (decide (m ≤ i) && x.getMsbD (i - m)) := by
    intro i
    rw [BitVec.getMsbD_ushiftRight]
    by_cases hi : m ≤ i
    · by_cases hx64 : x.getMsbD (i - m) = true
      · have := hin _ hx64
        simp [hi, hx64, show i < 64 by omega]
      · simp [hx64]
    · simp [hi, Nat.lt_of_not_le hi]
  -- the bits of the second element do not reach the tag
  have hclear' : (x ||| x >>> m) &&& DS_TAGS = 0 := by
    apply BitVec.eq_of_getLsbD_eq
    intro i hi
    have hxi := congrArg (fun z : BitVec 64 => z.getLsbD i) hclear
    simp only [BitVec.getLsbD_and, BitVec.ofNat_eq_ofNat, BitVec.getLsbD_zero] at hxi
    rw [BitVec.getLsbD_and, BitVec.getLsbD_or, getLsbD_DS_TAGS i hi] at *
    by_cases hi3 : i < 3
    · have hlow : (x >>> m).getLsbD i = false := by
        have hmsb := hshift (63 - i)
        rw [BitVec.getMsbD_eq_getLsbD] at hmsb
        rw [show i = 64 - 1 - (63 - i) by omega]
        simp only [show 63 - i < 64 by omega, decide_true, Bool.true_and] at hmsb
        rw [hmsb]
        cases hb : x.getMsbD (63 - i - m) with
        | false => simp
        | true =>
            have := hin _ hb
            omega
      simp_all
    · simp [hi3]
  have hy : d ||| x >>> m = (x ||| x >>> m) ||| 1 := by
    rw [hsplit, BitVec.or_assoc, BitVec.or_comm 1, ← BitVec.or_assoc]
  have hone : (1 : BitVec 64) &&& ~~~DS_TAGS = 0 := by decide
  rw [hy]
  refine ⟨tag_or hclear' hone, ?_⟩
  ext i
  unfold bitmapWords
  rw [(or_tag hclear' hone).2, hx]
  show (x ||| x >>> m).getMsbD i = true ↔ _
  rw [BitVec.getMsbD_or, hshift, Bool.or_eq_true, Bool.and_eq_true, decide_eq_true_eq]
  constructor
  · intro hi
    rcases hi with hi | ⟨hle, hi⟩
    · exact .inl hi
    · exact .inr ⟨i - m, hi, by omega⟩
  · intro hi
    rcases hi with hi | ⟨j, hj, rfl⟩
    · exact .inl hi
    · refine .inr ⟨Nat.le_add_right m j, ?_⟩
      rw [Nat.add_sub_cancel_left]
      exact hj

/-- **Two elements are one of twice the size.** -/
theorem isElement_double (h : IsElement w d size L) (hproc : tag d ≠ GC_DS_PROC) (h0 : d ≠ 0)
    (hsize : size / 8 ≤ 3) :
    IsElement w (GC_double_descr d (size / 8)) (2 * size) (arrayWords 2 size L) ∧
      tag (GC_double_descr d (size / 8)) = GC_DS_BITMAP := by
  -- a bitmap `x` with the words `L`
  obtain ⟨x, hx, htag, hwords⟩ : ∃ x, GC_double_descr d (size / 8) =
      x ||| ((x &&& ~~~DS_TAGS) >>> (size / 8)) ∧ tag x = GC_DS_BITMAP ∧ bitmapWords x = L := by
    cases h with
    | length htag hle hL =>
        have hpos : 0 < d.toNat / 8 := by
          have htag8 : d.toNat % 8 = 0 := (tag_eq d).symm.trans htag
          have := Nat.pos_of_ne_zero fun hz => h0 (BitVec.eq_of_toNat_eq hz)
          omega
        obtain ⟨htable, hbits⟩ := GC_bm_table_bits (d.toNat / 8) (by omega) hpos
        refine ⟨GC_bm_table (d.toNat / 8), ?_, htable, ?_⟩
        · rw [GC_double_descr, if_pos htag]
        · subst hL
          ext i
          constructor
          · intro hi
            have hlt := BitVec.lt_of_getMsbD hi
            exact of_decide_eq_true ((hbits i hlt).symm.trans hi)
          · intro hi
            change i < d.toNat / 8 at hi
            exact (hbits i (by omega)).trans (decide_eq_true hi)
    | bitmap htag hL hin =>
        refine ⟨d, ?_, htag, hL.symm⟩
        rw [GC_double_descr, if_neg (by rw [htag]; decide)]
    | proc htag hd hin => exact absurd htag hproc
  obtain ⟨htag', hwords'⟩ := bitmap_double htag hsize fun i hi => h.lt i (hwords ▸ hi)
  have htwo : arrayWords 2 size L = bitmapWords (GC_double_descr d (size / 8)) := by
    rw [hx, hwords', hwords, show (2 : Nat) = 1 + 1 from rfl, arrayWords_add, arrayWords_one,
      Nat.one_mul]
  rw [← hx] at htag'
  refine ⟨.bitmap htag' htwo ?_, htag'⟩
  intro i ⟨k, hk, j, hj, hi⟩
  have hlt := h.lt j hj
  have hle : k * (size / 8) ≤ 1 * (size / 8) := Nat.mul_le_mul_right _ (by omega)
  omega

end

/-! ## Whole arrays -/

section

variable {w : World} {d : GC_descr} {size n : Nat} {L : Set Nat} {ok : Nat → Bool}

/-- What is returned stands for the words of the elements, unless an allocation has failed. -/
def Stands (w : World) (ok : Nat → Bool) (n size : Nat) (L : Set Nat) : ArrayDescr → Prop
  | .SIMPLE simple_d => MarksAs w simple_d (arrayWords n size L)
  | .LEAF leaf => PushesAs w (.ld leaf) (n * size) (arrayWords n size L)
  | .COMPLEX (some complex_d) => PushesAs w complex_d (n * size) (arrayWords n size L)
  | .COMPLEX none => ∃ k, ok k = false
  | .NO_MEM => ∃ k, ok k = false

/-- A length as large as the element: the whole array is one length. -/
theorem marksAs_whole (htag : tag d = GC_DS_LENGTH) (hsize : d.toNat = size) (hpos : 0 < size)
    (hbytes : n * size < 2 ^ 63) :
    MarksAs w (BitVec.ofNat 64 (n * size)) (arrayWords n size {i | i < d.toNat / 8}) := by
  have hsize8 : size % 8 = 0 := by
    rw [← hsize, ← tag_eq]
    exact htag
  have hnat : (BitVec.ofNat 64 (n * size)).toNat = n * size := by
    rw [BitVec.toNat_ofNat, Nat.mod_eq_of_lt (by omega)]
  have hdiv : n * size / 8 = n * (size / 8) :=
    Nat.mul_div_assoc n (Nat.dvd_of_mod_eq_zero hsize8)
  have hwords : arrayWords n size {i | i < d.toNat / 8} = {i | i < n * size / 8} := by
    rw [hsize, hdiv]
    ext i
    constructor
    · intro ⟨k, hk, j, hj, hi⟩
      change j < size / 8 at hj
      have hle : (k + 1) * (size / 8) ≤ n * (size / 8) := Nat.mul_le_mul_right _ hk
      rw [Nat.add_mul, Nat.one_mul] at hle
      show i < n * (size / 8)
      omega
    · intro hi
      have hword : 0 < size / 8 := by omega
      refine ⟨i / (size / 8), ?_, i % (size / 8), Nat.mod_lt i hword, ?_⟩
      · exact (Nat.div_lt_iff_lt_mul hword).mpr hi
      · rw [Nat.mul_comm, Nat.div_add_mod]
  rw [hwords]
  rcases Nat.eq_zero_or_pos n with rfl | hn
  · rw [Nat.zero_mul]
    have hnone : ({i | i < 0 / 8} : Set Nat) = ∅ := by
      ext i
      simp
    rw [hnone]
    exact marksAs_zero w
  · have hposn : 0 < n * size := Nat.mul_pos hn hpos
    have hdescr := describes_length w (d := BitVec.ofNat 64 (n * size)) (by omega)
      ((tag_eq _).trans (by
        rw [hnat, Nat.mul_mod, hsize8]
        rfl))
    rw [hnat] at hdescr
    apply hdescr.marksAs
    intro h0
    rw [h0] at hnat
    simp at hnat
    omega

/-- An odd element behind an array that stands for its elements. -/
theorem stands_withOddElement {result : ArrayDescr} {k : Nat} (hd : Describes w d L)
    (hsize : size % 8 = 0) (hpos : 0 < size) (hbytes : (n + 1) * size < 2 ^ 63)
    (hresult : Stands w ok n size L result) (hsimple : ∀ s, result ≠ .SIMPLE s) :
    Stands w ok (n + 1) size L (withOddElement ok result size d k).1 ∧
      ∀ s, (withOddElement ok result size d k).1 ≠ .SIMPLE s := by
  have hone : PushesAs w (.ld (mkLeaf size 1 d)) size L := by
    have hleaf := pushesAs_leaf (n := 1) hd hsize hpos Nat.one_pos (by
      rw [Nat.add_mul] at hbytes
      omega)
    rw [Nat.one_mul, arrayWords_one] at hleaf
    exact hleaf
  have hn8 : n * size % 8 = 0 := by
    rw [Nat.mul_mod, hsize]
    rfl
  have hsum : n * size + size = (n + 1) * size := by rw [Nat.add_mul, Nat.one_mul]
  -- a sequence of what has been described and the odd element
  have hseq : ∀ j first, PushesAs w first (n * size) (arrayWords n size L) →
      Stands w ok (n + 1) size L
        (.COMPLEX (GC_make_sequence_descriptor ok j (some first) (.ld (mkLeaf size 1 d)))) := by
    intro j first hfirst
    unfold GC_make_sequence_descriptor
    cases hok : ok j with
    | false => exact ⟨j, hok⟩
    | true =>
        have hsd := hfirst.sd hone hn8 (by omega)
        rw [hsum, Nat.mul_div_assoc n (Nat.dvd_of_mod_eq_zero hsize)] at hsd
        have hwords : arrayWords (n + 1) size L =
            arrayWords n size L ∪ {i | ∃ j ∈ L, i = n * (size / 8) + j} := by
          rw [arrayWords_add, arrayWords_one]
        show PushesAs w _ ((n + 1) * size) (arrayWords (n + 1) size L)
        rw [hwords]
        exact hsd
  unfold withOddElement
  simp only
  split
  · rename_i hfail
    exact ⟨⟨k, hfail⟩, fun s h => by cases h⟩
  · cases result with
    | SIMPLE s => exact absurd rfl (hsimple s)
    | NO_MEM => exact ⟨hresult, fun s h => by cases h⟩
    | LEAF leaf =>
        simp only
        split
        · rename_i hfail
          exact ⟨⟨k + 1, hfail⟩, fun s h => by cases h⟩
        · exact ⟨hseq (k + 2) _ hresult, fun s h => by cases h⟩
    | COMPLEX complex_d =>
        refine ⟨?_, fun s h => by cases h⟩
        cases complex_d with
        | none =>
            obtain ⟨j, hj⟩ := hresult
            unfold GC_make_sequence_descriptor
            simp only [Option.map_none, ite_self]
            exact ⟨j, hj⟩
        | some complex_d => exact hseq (k + 1) _ hresult

/-- Elements that are two elements. -/
theorem arrayWords_double (hsize : size % 8 = 0) (m : Nat) :
    arrayWords m (2 * size) (arrayWords 2 size L) = arrayWords (m * 2) size L := by
  have hword : 2 * size / 8 = 2 * (size / 8) := by omega
  ext i
  constructor
  · intro ⟨k, hk, j, ⟨k', hk', j', hj', hj⟩, hi⟩
    refine ⟨2 * k + k', by omega, j', hj', ?_⟩
    rw [hi, hj, hword, Nat.add_mul, Nat.add_assoc, ← Nat.mul_assoc, Nat.mul_comm k]
  · intro ⟨k, hk, j, hj, hi⟩
    refine ⟨k / 2, by omega, k % 2 * (size / 8) + j, ⟨k % 2, by omega, j, hj, rfl⟩, ?_⟩
    rw [hi, hword, ← Nat.add_assoc, ← Nat.mul_assoc, ← Nat.add_mul, Nat.div_add_mod']

theorem Stands.of_halves {m : Nat} {result : ArrayDescr}
    (h : Stands w ok m (2 * size) (arrayWords 2 size L) result) (hsize : size % 8 = 0) :
    Stands w ok (m * 2) size L result := by
  unfold Stands at h ⊢
  rw [arrayWords_double hsize, ← Nat.mul_assoc] at h
  exact h

/-- **The descriptor of an array stands for the words of its elements**, after any number of
halvings. -/
theorem stands_GC_make_array_descriptor (ok : Nat → Bool) (k : Nat) (h : IsElement w d size L)
    (hsize : size % 8 = 0) (hpos : 0 < size) (hbytes : n * size < 2 ^ 63) :
    Stands w ok n size L (GC_make_array_descriptor ok n size d k).1 ∧
      (tag d = GC_DS_BITMAP → 1 < n → ∀ s, (GC_make_array_descriptor ok n size d k).1 ≠
        .SIMPLE s) := by
  induction n using Nat.strong_induction_on generalizing size d L k with
  | _ n ih =>
      rw [GC_make_array_descriptor]
      split
      · rename_i hwhole
        obtain ⟨htag, hsame⟩ := hwhole
        refine ⟨?_, fun hbitmap => absurd (htag.symm.trans hbitmap) (by decide)⟩
        cases h with
        | length _ _ hL =>
            subst hL
            exact marksAs_whole htag hsame hpos hbytes
        | bitmap hbitmap => exact absurd (htag.symm.trans hbitmap) (by decide)
        | proc hproc => exact absurd (htag.symm.trans hproc) (by decide)
      · split
        · rename_i hempty
          obtain ⟨htag, rfl⟩ := hempty
          refine ⟨?_, fun hbitmap => absurd (htag.symm.trans hbitmap) (by decide)⟩
          have hnone : arrayWords n size L = ∅ := by
            cases h with
            | length _ _ hL =>
                subst hL
                ext i
                simp [arrayWords]
            | bitmap hbitmap => exact absurd (htag.symm.trans hbitmap) (by decide)
            | proc hproc => exact absurd (htag.symm.trans hproc) (by decide)
          show MarksAs w 0 _
          rw [hnone]
          exact marksAs_zero w
        · rename_i hempty
          have h0 : d ≠ 0 := fun h0 => hempty ⟨by rw [h0]; rfl, h0⟩
          have hd := h.describes h0
          split
          · split
            · rename_i hle
              refine ⟨?_, fun _ hlt => by omega⟩
              split
              · rename_i hone
                subst hone
                show MarksAs w d _
                rw [arrayWords_one]
                exact hd.marksAs h0
              · obtain rfl : n = 0 := by omega
                show MarksAs w 0 _
                rw [arrayWords_zero]
                exact marksAs_zero w
            · rename_i hgt
              exact ⟨pushesAs_leaf hd hsize hpos (by omega) hbytes, fun _ _ s hs => by cases hs⟩
          · rename_i hmany
            unfold OPT_THRESHOLD at hmany
            split
            · rename_i hsmall
              obtain ⟨hsmall, hproc, -⟩ := hsmall
              have hsmall : size ≤ 30 := hsmall
              obtain ⟨hdouble, htag⟩ := isElement_double h hproc h0 (by omega)
              have hhalf : n / 2 * (2 * size) = n / 2 * 2 * size := (Nat.mul_assoc _ _ _).symm
              have hle : n / 2 * 2 * size ≤ n * size := Nat.mul_le_mul_right _ (by omega)
              obtain ⟨hstands, hsimple⟩ := ih (n / 2) (by omega) k hdouble (by omega) (by omega)
                (by omega)
              have hsimple := hsimple htag (by omega)
              have hstands := hstands.of_halves hsize
              simp only
              split
              · rename_i heven
                rw [show n / 2 * 2 = n by omega] at hstands
                exact ⟨hstands, fun _ _ => hsimple⟩
              · rename_i hodd
                have hsum : n / 2 * 2 + 1 = n := by omega
                have hodd' := stands_withOddElement
                  (k := (GC_make_array_descriptor ok (n / 2) (2 * size)
                    (GC_double_descr d (size / 8)) k).2) hd hsize hpos (by rw [hsum]; exact hbytes)
                  hstands hsimple
                rw [hsum] at hodd'
                exact ⟨hodd'.1, fun _ _ => hodd'.2⟩
            · exact ⟨pushesAs_leaf hd hsize hpos (by omega) hbytes, fun _ _ s hs => by cases hs⟩

/-! ## Array objects -/

/-- The objects of `GC_array_kind` with the descriptor in their last word are marked by looking
at the words `L` and at the descriptor, or as a whole when the entries do not fit. -/
def MarksArrayAs (w : World) (d : complex_descriptor) (L : Set Nat) : Prop :=
  ∀ p : Int, 0 < w.hb_sz p → 16 ∣ w.hb_sz p → w.hb_sz p < 2 ^ 63 →
    w.memory (p + (w.hb_sz p / 8 - 1 : Nat) * 8) ≠ 0 →
    w.complexAt (w.memory (p + (w.hb_sz p / 8 - 1 : Nat) * 8)) = some d →
    Covers w [entry p (GC_MAKE_PROC w.procs.GC_array_mark_proc_index 0)]
      (wordsAt p (if d.entries < w.room then L ∪ {w.hb_sz p / 8 - 1}
        else {i | i < w.hb_sz p / 8}))

theorem PushesAs.marksArrayAs {c : complex_descriptor} (h : PushesAs w c n L) :
    MarksArrayAs w c L := by
  intro p hpos hgran hlt hne hat
  obtain ⟨htag, hproc, -⟩ := proc_of_GC_MAKE_PROC w.procs.array_lt
    (show (0 : BitVec 64).toNat < 2 ^ 55 by decide)
  have hturn : turn w (entry p (GC_MAKE_PROC w.procs.GC_array_mark_proc_index 0)) =
      GC_array_mark_proc w p := by
    rw [turn_eq_turnTagged w p (.inr (.inl htag)), turnTagged, htag, if_neg (by decide),
      if_pos rfl, hproc, if_neg w.procs.differ.symm, if_pos rfl]
  rw [GC_array_mark_proc, if_neg hne, hat, Option.map_some] at hturn
  have hnat : (BitVec.ofNat 64 (w.hb_sz p)).toNat = w.hb_sz p := by
    rw [BitVec.toNat_ofNat, Nat.mod_eq_of_lt (by omega)]
  by_cases hroom : c.entries < w.room
  · obtain ⟨es, hes, -, hcovers⟩ := h.pushes p w.room hroom
    rw [hes] at hturn
    rw [if_pos hroom, wordsAt_union, Set.union_comm]
    apply Covers.of_entries hturn
    -- the descriptor itself is a length of one word
    have hword := describes_length w (d := 8) (by decide) rfl
      (p + (w.hb_sz p / 8 - 1 : Nat) * 8)
    have hlast : wordsAt (p + ((w.hb_sz p / 8 - 1 : Nat) : Int) * 8)
        {i | i < (8 : BitVec 64).toNat / 8} = wordsAt p {w.hb_sz p / 8 - 1} := by
      ext a
      constructor
      · rintro ⟨i, hi, ha⟩
        change i < 1 at hi
        exact ⟨_, rfl, by omega⟩
      · rintro ⟨i, hi, ha⟩
        rw [Set.mem_singleton_iff] at hi
        subst hi
        exact ⟨0, Nat.one_pos, by push_cast; omega⟩
    rw [hlast] at hword
    exact hword.append hcovers
  · rw [h.too_many p w.room (Nat.le_of_not_lt hroom)] at hturn
    rw [if_neg hroom]
    apply Covers.of_entries hturn
    have hdescr := describes_length w (d := BitVec.ofNat 64 (w.hb_sz p)) (by omega)
      ((tag_eq _).trans (by
        rw [hnat]
        show _ = 0
        omega)) p
    rw [hnat] at hdescr
    exact hdescr

end

/-- Two words, of which the first is a pointer. -/
def pairDescr : GC_descr := HIGH_BIT ||| BitVec.ofNat 64 GC_DS_BITMAP

/-- A marker that has found nothing yet. -/
def emptyWorld : World where
  memory _ := 0
  GC_least_plausible_heap_addr := 0
  GC_greatest_plausible_heap_addr := 0
  GC_ext_descriptors := []
  procs := ⟨8, 9, by decide, by decide, by decide⟩
  hb_sz _ := 0
  complexAt _ := none
  room := 4095

theorem isElement_pair : IsElement emptyWorld pairDescr 16 (bitmapWords pairDescr) := by
  refine .bitmap rfl rfl ?_
  have hin : ∀ i < 64, (pairDescr &&& ~~~DS_TAGS).getMsbD i = true → i < 2 := by decide
  exact fun i hi => hin i (BitVec.lt_of_getMsbD hi) hi

end Ironclad.Gc.Typed
