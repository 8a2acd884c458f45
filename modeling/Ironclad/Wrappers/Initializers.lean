import Ironclad.Pointers.FixedArrays
import Ironclad.Wrappers.Elements

/-!
# Arrays from initializer lists

`array` and `global_array` value-initialize their elements and then store the list once for every
element of the list, with an `int` for a position and no look at the capacity. `varray` stores at
`data[size]` and counts `size` up, and never gives `size` a value to start from.
-/

namespace Ironclad.Wrappers

open Ironclad.Logic Ironclad.CLib Ironclad.Pointers

/-! ## The constructors -/

/-- The elements from `k` on assigned one after the other. -/
def storeFrom (sizeofT data : Word) : Nat → List (Nat → BitVec 8) → Prog 64 Unit
  | _, [] => pure ()
  | k, v :: vs => do
      store (element sizeofT data (BitVec.ofNat 64 k)) sizeofT.toNat v
      storeFrom sizeofT data (k + 1) vs

/-- `++c` for an `int`: nothing is promised about the sum behind the largest one. -/
def increment (c : BitVec 32) : Prog 64 (BitVec 32) :=
  if c = 0x7fffffff then Prog.undefined else pure (c + 1)

/-- `for(auto it = …; ++it){ T * hack = (T*)&(data[c]); *hack = *it; ++c; }`. -/
def initLoop (sizeofT data : Word) : BitVec 32 → List (Nat → BitVec 8) → Prog 64 Unit
  | _, [] => pure ()
  | c, v :: vs => do
      store (element sizeofT data (ofInt c)) sizeofT.toNat v
      let c ← increment c
      initLoop sizeofT data c vs

/-- `for(auto it = …; ++it){ …; ++c; }` around the loop above. -/
def repeatLoop (body : Prog 64 Unit) : BitVec 32 → List (Nat → BitVec 8) → Prog 64 Unit
  | _, [] => pure ()
  | c, _ :: vs => do
      body
      let c ← increment c
      repeatLoop body c vs

/-- `array_initializer<T>::init_array(data, static_init)`. -/
def init_array (sizeofT data : Word) (static_init : List (Nat → BitVec 8)) : Prog 64 Unit :=
  initLoop sizeofT data 0 static_init

/-- `global_array_initializer<T>::init_global_array(data, static_init)`. -/
def init_global_array (sizeofT data : Word) (static_init : List (Nat → BitVec 8)) :
    Prog 64 Unit := initLoop sizeofT data 0 static_init

/-- `array(std::initializer_list<T> static_init) : data()`; `initial` are the bytes of a
value-initialized element. -/
def array_of_list (sizeofT : Word) (initial : Nat → BitVec 8) (arr : SafeArray)
    (static_init : List (Nat → BitVec 8)) : Prog 64 Unit := do
  storeFrom sizeofT arr.data 0 (List.replicate arr.ARRAY_N.toNat initial)
  repeatLoop (init_array sizeofT arr.data static_init) 0 static_init

/-- `global_array(std::initializer_list<T> static_init) : data()`. -/
def global_array_of_list (sizeofT : Word) (initial : Nat → BitVec 8) (arr : GlobalArray)
    (static_init : List (Nat → BitVec 8)) : Prog 64 Unit := do
  storeFrom sizeofT arr.data 0 (List.replicate arr.ARRAY_N.toNat initial)
  repeatLoop (init_global_array sizeofT arr.data static_init) 0 static_init

/-- `varray(std::initializer_list<T> static_init)`: `data[size] = *it; ++size;` from the `size`
that the memory holds, to the `size` at the end. -/
def varray_of_list (sizeofT data : Word) : Word → List (Nat → BitVec 8) → Prog 64 Word
  | size, [] => pure size
  | size, v :: vs => do
      store (element sizeofT data size) sizeofT.toNat v
      varray_of_list sizeofT data (size + 1) vs

/-! ## What they should do -/

/-- An array of `N` elements at `data` is initialized from the list `L`: nothing else is written,
and when the constructor completes, the elements behind the list have their initial value. -/
structure InitializesArray (sizeofT data N : Word) (initial : Nat → BitVec 8)
    (L : List (Nat → BitVec 8)) (o : Outcome 64 Unit) : Prop where
  defined : o.ending ≠ .undefined
  writes : o.WritesIn ⟨data, N.toNat * sizeofT.toNat⟩
  listed : o.ending = .returns () → ∀ (i : Nat) v, L[i]? = some v →
    value o.mem sizeofT data i = asElement sizeofT v
  rest : o.ending = .returns () → ∀ i : Nat, L.length ≤ i → i < N.toNat →
    value o.mem sizeofT data i = asElement sizeofT initial

/-- A `varray` with room for one element at `data` is initialized from the list `L`. -/
structure InitializesVarray (sizeofT data : Word) (L : List (Nat → BitVec 8))
    (o : Outcome 64 Word) : Prop where
  defined : o.ending ≠ .undefined
  writes : o.WritesIn ⟨data, sizeofT.toNat⟩
  size : ∀ n, o.ending = .returns n → n = BitVec.ofNat 64 L.length
  listed : ∀ n, o.ending = .returns n → ∀ (i : Nat) v, L[i]? = some v →
    value o.mem sizeofT data i = asElement sizeofT v

/-! ## The inner loop -/

section

variable {sizeofT data N : Word} {initial : Nat → BitVec 8} {L vs : List (Nat → BitVec 8)}
  {m : Memory 64} {k : Nat}

/-- The elements that are assigned. -/
def storedRegions (sizeofT data : Word) (k n : Nat) : List (Region 64) :=
  (List.range' k n).map fun i => ⟨element sizeofT data (BitVec.ofNat 64 i), sizeofT.toNat⟩

theorem storeFrom_run (sizeofT data : Word) (k : Nat) (vs : List (Nat → BitVec 8))
    (m : Memory 64) : storeFrom sizeofT data k vs m =
      ⟨.returns (), m.writeCells data sizeofT.toNat k vs, [],
        storedRegions sizeofT data k vs.length⟩ := by
  induction vs generalizing k m with
  | nil => rfl
  | cons v vs ih =>
      show (storeFrom sizeofT data (k + 1) vs (m.write _ _ v)).after [] [_] = _
      rw [ih, Memory.writeCells, ← element_ofNat]
      rfl

theorem increment_of_lt (h : k + 1 < 2 ^ 31) :
    increment (BitVec.ofNat 32 k) = pure (BitVec.ofNat 32 (k + 1)) := by
  have hne : BitVec.ofNat 32 k ≠ 0x7fffffff := by
    intro hc
    have hnat := congrArg BitVec.toNat hc
    rw [BitVec.toNat_ofNat, Nat.mod_eq_of_lt (by omega)] at hnat
    change k = 2 ^ 31 - 1 at hnat
    omega
  rw [increment, if_neg hne, BitVec.ofNat_add]
  rfl

/-- As long as its counter does not overflow the loop stores the list. -/
theorem initLoop_eq (h : k + vs.length < 2 ^ 31) :
    initLoop sizeofT data (BitVec.ofNat 32 k) vs = storeFrom sizeofT data k vs := by
  induction vs generalizing k with
  | nil => rfl
  | cons v vs ih =>
      rw [List.length_cons] at h
      rw [initLoop, storeFrom, ofInt_ofNat (by omega), increment_of_lt (by omega),
        ← ih (k := k + 1) (by omega)]
      rfl

/-- A list that is too long for the counter. -/
theorem initLoop_undefined (hk : k < 2 ^ 31) (h : 2 ^ 31 ≤ k + vs.length) :
    (initLoop sizeofT data (BitVec.ofNat 32 k) vs m).ending = .undefined := by
  induction vs generalizing k m with
  | nil =>
      rw [List.length_nil] at h
      omega
  | cons v vs ih =>
      rw [List.length_cons] at h
      rw [initLoop]
      show (Outcome.after [] _ ((increment (BitVec.ofNat 32 k) >>= fun c =>
        initLoop sizeofT data c vs) (m.write _ _ v))).ending = _
      rw [Outcome.after_ending]
      by_cases hlast : k + 1 < 2 ^ 31
      · rw [increment_of_lt hlast]
        exact ih hlast (by omega)
      · have hk' : k = 2 ^ 31 - 1 := by omega
        subst hk'
        rfl

/-- The whole loop, from the first element on. -/
theorem initLoop_run (sizeofT data : Word) (m : Memory 64) (h : L.length < 2 ^ 31) :
    initLoop sizeofT data 0 L m = ⟨.returns (), m.writeCells data sizeofT.toNat 0 L, [],
      storedRegions sizeofT data 0 L.length⟩ := by
  rw [← storeFrom_run, ← initLoop_eq (k := 0) (by omega)]
  rfl

theorem initLoop_overflows (sizeofT data : Word) (m : Memory 64) (h : 2 ^ 31 ≤ L.length) :
    (initLoop sizeofT data 0 L m).ending = .undefined :=
  initLoop_undefined (k := 0) (by decide) (by omega)

/-- What is stored in an array lies in it. -/
theorem storedRegions_subset (h : Fitting sizeofT N) (hk : k + vs.length ≤ N.toNat) :
    ∀ r ∈ storedRegions sizeofT data k vs.length,
      r ⊆ (⟨data, N.toNat * sizeofT.toNat⟩ : Region 64) := by
  intro r hr
  obtain ⟨i, hi, rfl⟩ := List.mem_map.mp hr
  have hlt := (List.mem_range'_1.mp hi).2
  exact h.inside data (by omega)

/-! ## The outer loop -/

/-- A body that leads from `P` to `Q`, which is more, is repeated: at the end there is `Q`, as
there was at the start if there was nothing to do. -/
theorem repeatLoop_run {P Q : Memory 64 → Prop} {q : Region 64} {body : Prog 64 Unit}
    (hbody : ∀ m, P m → (body m).ending = .returns () ∧ Q (body m).mem ∧ (body m).WritesIn q)
    (hQP : ∀ m, Q m → P m) (hlen : k + vs.length < 2 ^ 31) (hP : P m) (hnil : vs = [] → Q m) :
    (repeatLoop body (BitVec.ofNat 32 k) vs m).ending = .returns () ∧
      Q (repeatLoop body (BitVec.ofNat 32 k) vs m).mem ∧
      (repeatLoop body (BitVec.ofNat 32 k) vs m).WritesIn q := by
  induction vs generalizing k m with
  | nil => exact ⟨rfl, hnil rfl, fun r hr => absurd hr List.not_mem_nil⟩
  | cons v vs ih =>
      rw [List.length_cons] at hlen
      obtain ⟨hend, hQ, hw⟩ := hbody m hP
      obtain ⟨hend', hQ', hw'⟩ := ih (k := k + 1) (m := (body m).mem) (by omega) (hQP _ hQ)
        fun _ => hQ
      rw [repeatLoop, Prog.bind_of_ending hend, increment_of_lt (by omega)]
      refine ⟨hend', hQ', ?_⟩
      intro r hr
      rcases List.mem_append.mp hr with hr | hr
      · exact hw r hr
      · exact hw' r hr

/-- The lists that an array takes: no longer than the array, nor than an `int` can count. -/
def ArrayTakes (N : Word) (L : List (Nat → BitVec 8)) : Prop :=
  L.length ≤ N.toNat ∧ L.length < 2 ^ 31

/-- What both constructors do. -/
def fromList (sizeofT data N : Word) (initial : Nat → BitVec 8) (L : List (Nat → BitVec 8)) :
    Prog 64 Unit := do
  storeFrom sizeofT data 0 (List.replicate N.toNat initial)
  repeatLoop (initLoop sizeofT data 0 L) 0 L

/-- The elements behind a list that is stored are initial ones. -/
def RestInitial (sizeofT data N : Word) (initial : Nat → BitVec 8) (L : List (Nat → BitVec 8))
    (m : Memory 64) : Prop :=
  ∀ l : Nat, L.length ≤ l → l < N.toNat → m.cell data sizeofT.toNat l = asElement sizeofT initial

/-- The elements are those of the list. -/
def Listed (sizeofT data : Word) (L : List (Nat → BitVec 8)) (m : Memory 64) : Prop :=
  ∀ (i : Nat) v, L[i]? = some v → m.cell data sizeofT.toNat i = asElement sizeofT v

/-- One pass of the inner loop. -/
theorem initLoop_pass (hfit : Fitting sizeofT N) (h : ArrayTakes N L)
    (hrest : RestInitial sizeofT data N initial L m) :
    (initLoop sizeofT data 0 L m).ending = .returns () ∧
      (RestInitial sizeofT data N initial L (initLoop sizeofT data 0 L m).mem ∧
        Listed sizeofT data L (initLoop sizeofT data 0 L m).mem) ∧
      (initLoop sizeofT data 0 L m).WritesIn ⟨data, N.toNat * sizeofT.toNat⟩ := by
  obtain ⟨hle, hlt⟩ := h
  have hbytes := Nat.le_of_lt hfit.bytes_lt
  rw [initLoop_run sizeofT data m hlt]
  refine ⟨rfl, ⟨?_, ?_⟩, storedRegions_subset hfit (by omega)⟩
  · intro l hl hlN
    rw [← hrest l hl hlN]
    exact Memory.cell_writeCells_of_not hbytes (by omega) hlN (.inr (by omega))
  · intro i v hv
    have hcell := Memory.cell_writeCells (m := m) (p := data) (k := 0) hbytes (by omega) hv
    rwa [Nat.zero_add] at hcell

/-- **Lists that fit are stored.** -/
theorem fromList_initializes (hfit : Fitting sizeofT N) (h : ArrayTakes N L) :
    InitializesArray sizeofT data N initial L (fromList sizeofT data N initial L m) := by
  have hbytes := Nat.le_of_lt hfit.bytes_lt
  have hinit := storeFrom_run sizeofT data 0 (List.replicate N.toNat initial) m
  -- every element is an initial one before the first pass
  have hcells : ∀ l < N.toNat,
      (m.writeCells data sizeofT.toNat 0 (List.replicate N.toNat initial)).cell data
        sizeofT.toNat l = asElement sizeofT initial := by
    intro l hl
    have hget : (List.replicate N.toNat initial)[l]? = some initial :=
      List.getElem?_replicate_of_lt hl
    have hcell := Memory.cell_writeCells (m := m) (p := data) (k := 0) hbytes
      (by rw [List.length_replicate]; omega) hget
    rwa [Nat.zero_add] at hcell
  obtain ⟨hend, ⟨hrest, hlisted⟩, hw⟩ := repeatLoop_run (k := 0)
    (P := RestInitial sizeofT data N initial L)
    (Q := fun m => RestInitial sizeofT data N initial L m ∧ Listed sizeofT data L m)
    (fun m hm => initLoop_pass hfit h hm) (fun m hm => hm.1)
    (by rw [Nat.zero_add]; exact h.2)
    (fun l _ hl => hcells l hl) (by
      intro hnil
      refine ⟨fun l _ hl => hcells l hl, ?_⟩
      intro i v hv
      rw [hnil] at hv
      cases hv)
  unfold fromList
  rw [Prog.bind_of_returns hinit]
  refine ⟨Ending.ne_undefined hend, ?_, ?_, ?_⟩
  · intro r hr
    rcases List.mem_append.mp hr with hr | hr
    · exact storedRegions_subset hfit (by rw [List.length_replicate]; omega) r hr
    · exact hw r hr
  · intro _ i v hv
    rw [value_eq_cell (Int.natCast_nonneg i), Int.toNat_natCast]
    exact hlisted i v hv
  · intro _ i hi hiN
    rw [value_eq_cell (Int.natCast_nonneg i), Int.toNat_natCast]
    exact hrest i hi hiN

/-- **When a list initializes an array.** A list that is too long for the array is stored behind
it, and one that is too long for the counter overflows it. -/
theorem fromList_initializes_iff (hfit : Fitting sizeofT N) :
    InitializesArray sizeofT data N initial L (fromList sizeofT data N initial L m) ↔
      ArrayTakes N L := by
  refine ⟨?_, fromList_initializes hfit⟩
  intro h
  have hinit := storeFrom_run sizeofT data 0 (List.replicate N.toNat initial) m
  unfold fromList at h
  rw [Prog.bind_of_returns hinit] at h
  by_contra htakes
  cases L with
  | nil => exact htakes ⟨Nat.zero_le _, by decide⟩
  | cons v vs =>
      rw [repeatLoop] at h
      by_cases hlt : (v :: vs).length < 2 ^ 31
      · have hgt : N.toNat < (v :: vs).length := by
          by_contra hle
          exact htakes ⟨by omega, hlt⟩
        -- the first pass stores an element behind the array
        rw [Prog.bind_of_returns (initLoop_run sizeofT data _ hlt)] at h
        have hmem : (⟨element sizeofT data N, sizeofT.toNat⟩ : Region 64) ∈
            storedRegions sizeofT data 0 (v :: vs).length := by
          refine List.mem_map.mpr ⟨N.toNat, List.mem_range'_1.mpr ⟨by omega, by omega⟩, ?_⟩
          rw [BitVec.ofNat_toNat, BitVec.setWidth_eq]
        exact hfit.not_inside_end data
          (h.writes _ (List.mem_append_right _ (List.mem_append_left _ hmem)))
      · have hbody := initLoop_overflows (L := v :: vs) sizeofT data
          (m.writeCells data sizeofT.toNat 0 (List.replicate N.toNat initial)) (by omega)
        apply h.defined
        rw [Outcome.after_ending]
        exact Prog.bind_ending_of_undefined hbody

/-! ## `varray` -/

/-- The loop returns the size it started from and the length of the list together, and what it
stores begins at that size. -/
theorem varray_of_list_run (sizeofT data size : Word) (L : List (Nat → BitVec 8))
    (m : Memory 64) :
    (varray_of_list sizeofT data size L m).ending = .returns (size + BitVec.ofNat 64 L.length) ∧
      ∀ i < L.length, ⟨element sizeofT data (size + BitVec.ofNat 64 i), sizeofT.toNat⟩ ∈
        (varray_of_list sizeofT data size L m).writes := by
  induction L generalizing size m with
  | nil =>
      refine ⟨congrArg Ending.returns (add_zero size).symm, ?_⟩
      intro i hi
      exact absurd hi (Nat.not_lt_zero i)
  | cons v vs ih =>
      obtain ⟨hend, hwrites⟩ := ih (size + 1) (m.write (element sizeofT data size) sizeofT.toNat v)
      have hnext : ∀ i : Nat, size + BitVec.ofNat 64 (i + 1) = size + 1 + BitVec.ofNat 64 i := by
        intro i
        rw [BitVec.ofNat_add, add_comm (BitVec.ofNat 64 i), ← add_assoc]
        rfl
      constructor
      · rw [List.length_cons, hnext]
        exact hend
      · intro i hi
        cases i with
        | zero =>
            rw [show BitVec.ofNat 64 0 = (0 : Word) from rfl, add_zero]
            exact List.mem_append_left _ List.mem_cons_self
        | succ i =>
            rw [hnext]
            exact List.mem_append_right _ (hwrites i (by rw [List.length_cons] at hi; omega))

/-- **When a list initializes a `varray`** with room for one element: the memory for the size
holds 0 already, and the list has at most one element. -/
theorem varray_of_list_initializes_iff (hsize : sizeofT ≠ 0) (prior : Word) :
    InitializesVarray sizeofT data L (varray_of_list sizeofT data prior L m) ↔
      prior = 0 ∧ L.length ≤ 1 := by
  obtain ⟨hend, hwrites⟩ := varray_of_list_run sizeofT data prior L m
  constructor
  · intro h
    have hprior : prior = 0 := by
      have hsum := h.size _ hend
      rwa [add_eq_right] at hsum
    subst hprior
    refine ⟨rfl, ?_⟩
    by_contra hlong
    -- the second element is behind the only one
    have hone : Fitting sizeofT 1 := by
      refine ⟨hsize, by decide, ?_⟩
      show 1 * sizeofT.toNat < 2 ^ 64
      omega
    have hin := h.writes _ (hwrites 1 (by omega))
    rw [zero_add] at hin
    apply hone.not_inside_end data
    rwa [show (1 : Word).toNat * sizeofT.toNat = sizeofT.toNat from Nat.one_mul _]
  · intro ⟨hprior, hlen⟩
    subst hprior
    cases L with
    | nil =>
        refine ⟨Ending.ne_undefined hend, fun r hr => absurd hr List.not_mem_nil, ?_, ?_⟩
        · intro n hn
          exact (Ending.returns.inj hn).symm
        · intro n _ i v hv
          cases hv
    | cons v vs =>
        have hvs : vs = [] := List.eq_nil_of_length_eq_zero (by
          rw [List.length_cons] at hlen
          omega)
        subst hvs
        refine ⟨Ending.ne_undefined hend, ?_, ?_, ?_⟩
        · intro r hr
          obtain rfl : r = ⟨element sizeofT data 0, sizeofT.toNat⟩ := List.mem_singleton.mp hr
          rw [element_zero]
          exact fun a ha => ha
        · intro n hn
          exact (Ending.returns.inj hn).symm
        · intro n _ i u hu
          cases i with
          | zero =>
              obtain rfl : v = u := Option.some.inj hu
              funext j
              show (m.write (element sizeofT data 0) sizeofT.toNat v).byte
                (element sizeofT data 0) j = v j
              have hbyte := Memory.byte_write_add (m := m) (p := element sizeofT data 0) (f := v)
                (b := 0) j.isLt (Nat.lt_trans j.isLt sizeofT.isLt)
              rw [show BitVec.ofNat 64 0 = (0 : Word) from rfl, add_zero, Nat.zero_add] at hbyte
              exact hbyte
          | succ i => cases hu

end

/-- **When initializer lists are stored in bounds**, by the constructors of the three classes. -/
theorem lists_initialize_iff {sizeofT N : Word} (hfit : Fitting sizeofT N) (data prior : Word)
    (initial : Nat → BitVec 8) (L : List (Nat → BitVec 8)) (m : Memory 64) :
    (InitializesArray sizeofT data N initial L (array_of_list sizeofT initial ⟨data, N⟩ L m) ↔
      ArrayTakes N L) ∧
    (InitializesArray sizeofT data N initial L
        (global_array_of_list sizeofT initial ⟨data, N⟩ L m) ↔ ArrayTakes N L) ∧
    (InitializesVarray sizeofT data L (varray_of_list sizeofT data prior L m) ↔
      prior = 0 ∧ L.length ≤ 1) :=
  ⟨fromList_initializes_iff hfit, fromList_initializes_iff hfit,
    varray_of_list_initializes_iff hfit.sizeof_ne_zero prior⟩

/-- Two `int`s in an array of five, and in a `varray` whose memory held a 7. -/
theorem lists_initialize_iff_two :
    (InitializesArray 4 0x1000 5 (fun _ => 0) [fun _ => 1, fun _ => 2]
        (array_of_list 4 (fun _ => 0) ⟨0x1000, 5⟩ [fun _ => 1, fun _ => 2] fun _ => 7) ↔
      ArrayTakes 5 [fun _ => 1, fun _ => 2]) ∧
    (InitializesArray 4 0x1000 5 (fun _ => 0) [fun _ => 1, fun _ => 2]
        (global_array_of_list 4 (fun _ => 0) ⟨0x1000, 5⟩ [fun _ => 1, fun _ => 2] fun _ => 7) ↔
      ArrayTakes 5 [fun _ => 1, fun _ => 2]) ∧
    (InitializesVarray 4 0x1000 [fun _ => 1, fun _ => 2]
        (varray_of_list 4 0x1000 7 [fun _ => 1, fun _ => 2] fun _ => 7) ↔
      (7 : Word) = 0 ∧ [fun _ : Nat => (1 : BitVec 8), fun _ => 2].length ≤ 1) :=
  lists_initialize_iff ⟨by decide, by decide, by decide⟩ 0x1000 7 _ _ _

/-- `array<int,1> a = {1, 2};` stores the 2 behind the array. -/
theorem long_list_overflows :
    ¬∀ (N : Word) (L : List (Nat → BitVec 8)) (m : Memory 64),
      InitializesArray 4 0x1000 N (fun _ => 0) L
        (array_of_list 4 (fun _ => 0) ⟨0x1000, N⟩ L m) := by
  intro h
  have hinit := h 1 [fun _ => 1, fun _ => 2] fun _ => 7
  have htakes := (fromList_initializes_iff ⟨by decide, by decide, by decide⟩).mp hinit
  exact absurd htakes.1 (by decide)

end Ironclad.Wrappers
