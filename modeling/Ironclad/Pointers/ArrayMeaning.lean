import Ironclad.Pointers.ArrayPrograms

/-!
# Checked pointers are pointers into arrays

The two readings of a program are related entry by entry: a block holds its array
(`Holds`), a variable denotes its cursor (`Denotes`). The point is the access: `*` and `[]` pass
their check exactly when the cursor is at an element, and then the address is that of the bytes
that hold this element (`Denotes.accessed`). From there each operation keeps the relation, and
whole runs do the same on the memory and on the arrays.
-/

namespace Ironclad.Pointers

open Ironclad.Logic

/-! ## The relation -/

/-- The block holds the elements of the array. -/
structure Holds (m : Memory 64) (r : Root) (a : ArrayValue) : Prop where
  ty : a.ty = r.ty
  count : a.count = r.count.toNat
  elems : ∀ e < r.count.toNat, ∀ j, m.cell r.base r.ty.sizeof.toNat e j = a.elems e j

/-- The variable points where the cursor is. -/
structure Denotes (roots : List Root) (v : Typed Aptr) (c : Cursor) : Prop where
  ty : v.ty = c.ty
  index : v.ptr.index = c.offset
  extent : c.array.elim (v.ptr.data = 0 ∧ v.ptr.size = 0) fun n =>
    ∃ r, roots[n]? = some r ∧ aptrExtent v = r.extent

/-- The blocks that an allocator has given out. -/
structure Blocks (roots : List Root) : Prop where
  sizeof : ∀ r ∈ roots, r.ty.sizeof ≠ 0
  ends : ∀ r ∈ roots, r.base.toNat + r.count.toNat * r.ty.sizeof.toNat < 2 ^ 64
  apart : roots.Pairwise fun r q => r.region.Apart q.region

/-- The state on the memory means the state on the arrays: the blocks hold the arrays, the
variables denote the cursors, the same elements have been loaded, and outside the blocks the
memory is as it was. -/
structure Means (memory : Memory 64) (s : AptrState) (t : ArrayState) : Prop where
  blocks : Blocks s.roots
  arrays : List.Forall₂ (Holds s.memory) s.roots t.arrays
  cursors : List.Forall₂ (Denotes s.roots) s.aptrs t.cursors
  loaded : s.loaded = t.loaded
  frame : ∀ a, (∀ r ∈ s.roots, a ∉ r.region) → s.memory a = memory a

/-- Two variables that point into one array compare and differ as their cursors do. -/
def ComparesAs (s : AptrState) (t : ArrayState) : Prop :=
  ∀ (i j : Nat) v u c d (n : Nat) a, s.aptrs[i]? = some v → s.aptrs[j]? = some u →
    t.cursors[i]? = some c → t.cursors[j]? = some d → c.array = some n → d.array = some n →
    t.arrays[n]? = some a → c.offset.toNat ≤ a.count → d.offset.toNat ≤ a.count →
    (∀ op, v.ptr.compare v.ty.sizeof op u.ptr = op.holds c.offset d.offset) ∧
      (a.count * v.ty.sizeof.toNat < 2 ^ 63 →
        v.ptr.diff v.ty.sizeof u.ptr = c.offset - d.offset)

variable {memory m : Memory 64} {roots : List Root} {r : Root} {v : Typed Aptr} {c : Cursor}
  {s : AptrState} {t : ArrayState} {a : ArrayValue}

/-! ## Blocks -/

theorem Blocks.fitting (h : Blocks roots) (hr : r ∈ roots) : Fitting r.ty.sizeof r.count :=
  r.fitting (h.sizeof r hr)

theorem Blocks.apart_of_ne (h : Blocks roots) {i j : Nat} {q : Root} (hi : roots[i]? = some r)
    (hj : roots[j]? = some q) (hij : i ≠ j) : r.region.Apart q.region := by
  obtain ⟨hilt, rfl⟩ := List.getElem?_eq_some_iff.mp hi
  obtain ⟨hjlt, rfl⟩ := List.getElem?_eq_some_iff.mp hj
  rcases Nat.lt_or_gt_of_ne hij with hlt | hgt
  · exact List.pairwise_iff_getElem.mp h.apart i j hilt hjlt hlt
  · exact fun x hx hy => List.pairwise_iff_getElem.mp h.apart j i hjlt hilt hgt x hy hx

/-- Another block. -/
theorem Blocks.concat (h : Blocks roots) {init : Nat → Nat → BitVec 8} (hs : s.roots = roots)
    (hr : FreshBlock s (.new_array r init)) : Blocks (roots ++ [r]) := by
  obtain ⟨hsize, hend, hapart⟩ := hr
  rw [hs] at hapart
  refine ⟨?_, ?_, ?_⟩
  · simpa [or_imp, forall_and] using ⟨h.sizeof, hsize⟩
  · simpa [or_imp, forall_and] using ⟨h.ends, hend⟩
  · rw [List.pairwise_append]
    refine ⟨h.apart, List.pairwise_singleton _ r, ?_⟩
    intro q hq r' hr'
    rw [List.mem_singleton.mp hr']
    exact fun x hx hy => hapart q hq x hy hx

/-! ## What a block holds -/

/-- Bytes written elsewhere leave the elements alone. -/
theorem Holds.write_apart (h : Holds m r a) (hfit : Fitting r.ty.sizeof r.count) {p : Word}
    {n : Nat} {f : Nat → BitVec 8} (hp : (⟨p, n⟩ : Region 64).Apart r.region) :
    Holds (m.write p n f) r a := by
  refine ⟨h.ty, h.count, ?_⟩
  intro e he j
  rw [← h.elems e he]
  apply Memory.write_of_not_mem
  intro hmem
  apply hp _ hmem
  have hle : (e + 1) * r.ty.sizeof.toNat ≤ r.count.toNat * r.ty.sizeof.toNat :=
    Nat.mul_le_mul_right _ he
  rw [Nat.add_mul, Nat.one_mul] at hle
  have hbytes := hfit.bytes_lt
  have hj := j.isLt
  exact Region.add_mem_mk (by omega) (by omega)

/-- One element is written. -/
theorem Holds.write_element (h : Holds m r a) (hfit : Fitting r.ty.sizeof r.count) {e : Nat}
    (he : e < r.count.toNat) (x : Nat → BitVec 8) :
    Holds (m.write (r.base + BitVec.ofNat 64 (e * r.ty.sizeof.toNat)) r.ty.sizeof.toNat x) r
      (a.put e x) := by
  refine ⟨h.ty, h.count, ?_⟩
  intro l hl j
  rw [Memory.cell_write (Nat.le_of_lt hfit.bytes_lt) he hl]
  show _ = Function.update a.elems e x l j
  by_cases hle : l = e
  · subst hle
    rw [Function.update_self, Function.update_self]
  · rw [Function.update_of_ne hle, Function.update_of_ne hle, h.elems l hl]

/-- A new block holds the elements that it is made with. -/
theorem holds_new (m : Memory 64) (hfit : Fitting r.ty.sizeof r.count)
    (init : Nat → Nat → BitVec 8) :
    Holds (m.write r.base (r.count.toNat * r.ty.sizeof.toNat) (r.bytes init)) r
      ⟨r.ty, r.count.toNat, init⟩ := by
  refine ⟨rfl, rfl, ?_⟩
  intro e he j
  have hle : (e + 1) * r.ty.sizeof.toNat ≤ r.count.toNat * r.ty.sizeof.toNat :=
    Nat.mul_le_mul_right _ he
  rw [Nat.add_mul, Nat.one_mul] at hle
  have hbytes := hfit.bytes_lt
  have hj := j.isLt
  have hpos := hfit.sizeof_pos
  rw [Memory.cell, Memory.byte, Memory.write_of_mem (Region.add_mem_mk (by omega) (by omega)),
    Region.offset_toNat (by omega), Root.bytes, Nat.mul_comm e, Nat.mul_add_div hpos,
    Nat.mul_add_mod, Nat.div_eq_of_lt hj, Nat.mod_eq_of_lt hj, Nat.add_zero]

/-! ## Variables -/

theorem Denotes.concat (h : Denotes roots v c) (r : Root) : Denotes (roots ++ [r]) v c := by
  refine ⟨h.ty, h.index, ?_⟩
  have hextent := h.extent
  cases harray : c.array with
  | none =>
      rw [harray] at hextent
      exact hextent
  | some n =>
      rw [harray] at hextent
      obtain ⟨q, hq, he⟩ := hextent
      obtain ⟨hlt, -⟩ := List.getElem?_eq_some_iff.mp hq
      exact ⟨q, (List.getElem?_append_left hlt).trans hq, he⟩

/-- Where every operator leaves the pointer and its result. -/
theorem Aptr.move_place (p : Aptr) (m : Move) :
    (p.move m).1.place = m.shifts.1 +ᵥ p.place ∧ (p.move m).2.place = m.shifts.2 +ᵥ p.place := by
  have hneg : ∀ n : Word, (⟨p.data, p.index - n, p.size⟩ : Position) = -n +ᵥ p.place := fun n =>
    congrArg (Position.mk p.data · p.size) (sub_eq_add_neg _ _)
  have hzero : p.place = (0 : Word) +ᵥ p.place := (zero_vadd Word p.place).symm
  cases m with
  | preInc => exact ⟨rfl, rfl⟩
  | postInc => exact ⟨rfl, hzero⟩
  | preDec => exact ⟨hneg 1, hneg 1⟩
  | postDec => exact ⟨hneg 1, hzero⟩
  | addAssign op => exact ⟨rfl, rfl⟩
  | subAssign op => exact ⟨hneg (ofInt op), hneg (ofInt op)⟩
  | sub diff => exact ⟨hzero, hneg diff⟩
  | add diff => exact ⟨hzero, rfl⟩
  | offset index => exact ⟨hzero, rfl⟩

/-- A moved pointer denotes the moved cursor. -/
theorem Denotes.shift (h : Denotes roots v c) {q : Aptr} {n : Word}
    (hq : q.place = n +ᵥ v.ptr.place) : Denotes roots ⟨v.ty, q⟩ (c.shift n) := by
  have hdata : q.data = v.ptr.data := congrArg Position.data hq
  have hsize : q.size = v.ptr.size := congrArg Position.size hq
  have hindex : q.index = v.ptr.index + n := congrArg Position.index hq
  refine ⟨h.ty, ?_, ?_⟩
  · rw [hindex, h.index]
    rfl
  · have hextent := h.extent
    unfold aptrExtent at hextent ⊢
    rw [← hdata, ← hsize] at hextent
    exact hextent

/-! ## Accesses -/

/-- The address of the bytes that hold an element. -/
structure Locates (roots : List Root) (arrays : List ArrayValue) (ty : CType) (x : Word)
    (place : Nat × ArrayValue × Nat) (r : Root) : Prop where
  root : roots[place.1]? = some r
  array : arrays[place.1]? = some place.2.1
  ofType : r.ty = ty
  inside : place.2.2 < r.count.toNat
  address : x = r.base + BitVec.ofNat 64 (place.2.2 * r.ty.sizeof.toNat)

theorem Aptr.accessed_eq (sizeofT : Word) (p : Aptr) (k : Option (BitVec 32)) :
    p.accessed sizeofT k =
      access (BOUNDS_CHECK (p.index + (k.map ofInt).getD 0) p.size) sizeofT p.data
        (p.index + (k.map ofInt).getD 0) := by
  cases k with
  | none =>
      show p.deref sizeofT = access (BOUNDS_CHECK (p.index + 0) p.size) sizeofT p.data (p.index + 0)
      rw [add_zero]
      rfl
  | some k => rfl

/-- **The checked access is the access to the array**: both fail, or the address is that of the
element the cursor is at. -/
theorem Denotes.accessed (h : Denotes roots v c) {arrays : List ArrayValue}
    (harrays : List.Forall₂ (Holds m) roots arrays) (k : Option (BitVec 32)) :
    Option.Rel (fun x place => ∃ r, Locates roots arrays v.ty x place r)
      (v.ptr.accessed v.ty.sizeof k) (c.located arrays k) := by
  have hextent := h.extent
  rw [Aptr.accessed_eq, Cursor.located, h.index]
  cases harray : c.array with
  | none =>
      -- a null pointer has no elements
      rw [harray] at hextent
      rw [hextent.2, boundsCheck_zero]
      exact .none
  | some n =>
      rw [harray] at hextent
      obtain ⟨r, hr, he⟩ := hextent
      obtain ⟨hty, hdata, hsize⟩ := Extent.mk.inj he
      have hentry := forall₂_getElem? harrays n
      rw [hr] at hentry
      obtain ⟨a, ha⟩ : ∃ a, arrays[n]? = some a := by
        cases harr : arrays[n]? with
        | none =>
            rw [harr] at hentry
            cases hentry
        | some a => exact ⟨a, rfl⟩
      rw [ha, Option.rel_some_some] at hentry
      rw [hdata, hsize]
      show Option.Rel _ _ (arrays[n]?.bind _)
      rw [ha]
      have hcheck : BOUNDS_CHECK (c.offset + (k.map ofInt).getD 0) r.count = true ↔
          0 ≤ (c.offset + (k.map ofInt).getD 0).toInt ∧
            (c.offset + (k.map ofInt).getD 0).toInt < a.count := by
        rw [boundsCheck_iff, hentry.count, toInt_of_lt r.count_lt]
      apply rel_ite hcheck
      intro hpass
      have hnat := toInt_eq_toNat (boundsCheck_iff.mp hpass).1
      refine ⟨r, hr, ha, hty.symm, ?_, ?_⟩
      · show (c.offset + (k.map ofInt).getD 0).toInt.toNat < r.count.toNat
        rw [hnat]
        exact boundsCheck_toNat hpass
      · have hty : v.ty.sizeof = r.ty.sizeof := by rw [hty]
        show element v.ty.sizeof r.base _ = r.base + BitVec.ofNat 64 (_ * r.ty.sizeof.toNat)
        rw [hnat, Int.toNat_natCast, BitVec.ofNat_mul, BitVec.ofNat_toNat, BitVec.setWidth_eq,
          BitVec.ofNat_toNat, BitVec.setWidth_eq, hty]
        rfl

/-! ## One operation -/

/-- New or changed variables. -/
theorem Means.variables (h : Means memory s t) {vs : List (Typed Aptr)} {cs : List Cursor}
    (hcs : List.Forall₂ (Denotes s.roots) vs cs) :
    Means memory { s with aptrs := vs } { t with cursors := cs } :=
  { h with cursors := hcs }

/-- A new block. -/
theorem Means.new_array (h : Means memory s t) {init : Nat → Nat → BitVec 8}
    (hr : FreshBlock s (.new_array r init)) :
    Option.Rel (Means memory) (aptrStateStep s (.new_array r init))
      (arrayStateStep t (.new_array r init)) := by
  have hblocks := h.blocks.concat rfl hr
  have hlen : t.arrays.length = s.roots.length := h.arrays.length_eq.symm
  refine .some ⟨hblocks, ?_, ?_, h.loaded, ?_⟩
  · apply forall₂_concat
    · have hmem := (List.forall₂_and_left _ _).mpr ⟨fun q hq => hq, h.arrays⟩
      exact hmem.imp fun q a hqa => hqa.2.write_apart (h.blocks.fitting hqa.1) (hr.2.2 q hqa.1)
    · exact holds_new s.memory (r.fitting hr.1) init
  · apply forall₂_concat
    · exact h.cursors.imp fun v c hvc => hvc.concat r
    · refine ⟨rfl, rfl, r, ?_, rfl⟩
      rw [hlen]
      exact List.getElem?_concat_length
  · intro x hx
    have hout : x ∉ r.region := hx r (by simp)
    exact (Memory.write_of_not_mem hout).trans
      (h.frame x fun q hq => hx q (List.mem_append_left _ hq))

/-- One element written. -/
theorem Means.store (h : Means memory s t) {x : Word} {place : Nat × ArrayValue × Nat}
    {r : Root} {ty : CType} (hloc : Locates s.roots t.arrays ty x place r)
    (bytes : Nat → BitVec 8) :
    Means memory { s with memory := s.memory.write x ty.sizeof.toNat bytes }
      { t with arrays := t.arrays.set place.1 (place.2.1.put place.2.2 bytes) } := by
  obtain ⟨hroot, harray, rfl, hinside, rfl⟩ := hloc
  have hfit := h.blocks.fitting (List.mem_of_getElem? hroot)
  refine ⟨h.blocks, ?_, h.cursors, h.loaded, ?_⟩
  · apply forall₂_set_right h.arrays
    · intro i q a hi hq hqa
      -- the bytes lie in the block, and the blocks are apart
      apply hqa.write_apart (h.blocks.fitting (List.mem_of_getElem? hq))
      intro y hy
      have hin : y ∈ r.region := by
        by_contra hout
        have hle : (place.2.2 + 1) * r.ty.sizeof.toNat ≤ r.count.toNat * r.ty.sizeof.toNat :=
          Nat.mul_le_mul_right _ hinside
        obtain ⟨hlo, hhi⟩ := Memory.mem_cell_distance (Nat.le_of_lt hfit.bytes_lt) hinside hy
        exact hout (Region.mem_mk.mpr (by omega))
      exact h.blocks.apart_of_ne hroot hq (Ne.symm hi) y hin
    · intro q hq
      obtain rfl : r = q := Option.some.inj (hroot.symm.trans hq)
      have hentry := forall₂_getElem? h.arrays place.1
      rw [hroot, harray, Option.rel_some_some] at hentry
      exact hentry.write_element hfit hinside bytes
  · intro y hy
    have hout := hy r (List.mem_of_getElem? hroot)
    exact (Memory.write_cell_outside hfit.bytes_lt hinside hout).trans (h.frame y hy)

/-- One element read. -/
theorem Means.load (h : Means memory s t) {x : Word} {place : Nat × ArrayValue × Nat}
    {r : Root} {ty : CType} (hloc : Locates s.roots t.arrays ty x place r) :
    (List.ofFn fun j : Fin ty.sizeof.toNat => s.memory.byte x j) =
      List.ofFn fun j : Fin ty.sizeof.toNat => place.2.1.elems place.2.2 j := by
  obtain ⟨hroot, harray, rfl, hinside, rfl⟩ := hloc
  have hentry := forall₂_getElem? h.arrays place.1
  rw [hroot, harray, Option.rel_some_some] at hentry
  congr 1
  funext j
  rw [Memory.byte_add]
  exact hentry.elems place.2.2 hinside j

/-- **One operation** does the same on the memory and on the arrays. -/
theorem Means.step (h : Means memory s t) (op : AptrAction)
    (hC : (aptrStateStep s op).isSome → FreshBlock s op) :
    Option.Rel (Means memory) (aptrStateStep s op) (arrayStateStep t op) := by
  cases op with
  | null ty => exact .some (h.variables (forall₂_concat h.cursors ⟨rfl, rfl, rfl, rfl⟩))
  | new_array r init => exact h.new_array (hC rfl)
  | copy i =>
      apply rel_bind (forall₂_getElem? h.cursors i)
      intro v c _ _ hvc
      exact .some (h.variables (forall₂_concat h.cursors hvc))
  | assign i j =>
      apply rel_bind (forall₂_getElem? h.cursors i)
      intro v c _ _ hvc
      apply rel_bind (forall₂_getElem? h.cursors j)
      intro u d _ _ hud
      apply rel_ite (by rw [hud.ty, hvc.ty])
      intro hty
      apply h.variables
      apply forall₂_set h.cursors
      rw [← hty]
      exact hud
  | move i m =>
      apply rel_bind (forall₂_getElem? h.cursors i)
      intro v c _ _ hvc
      obtain ⟨hptr, hres⟩ := v.ptr.move_place m
      apply Option.Rel.some
      apply h.variables
      exact forall₂_concat (forall₂_set h.cursors (hvc.shift hptr) i) (hvc.shift hres)
  | load i k =>
      apply rel_bind (forall₂_getElem? h.cursors i)
      intro v c _ _ hvc
      apply rel_bind (hvc.accessed h.arrays k)
      intro x place _ _ ⟨r, hloc⟩
      apply Option.Rel.some
      refine ⟨h.blocks, h.arrays, h.cursors, ?_, h.frame⟩
      rw [← hvc.ty, h.loaded, h.load hloc]
  | store i k bytes =>
      apply rel_bind (forall₂_getElem? h.cursors i)
      intro v c _ _ hvc
      apply rel_bind (hvc.accessed h.arrays k)
      intro x place _ _ ⟨r, hloc⟩
      exact .some (h.store hloc bytes)

/-! ## Comparisons -/

/-- The elements of a block and the address behind it are in order. -/
theorem Blocks.element_toNat (h : Blocks roots) (hr : r ∈ roots) {k : Word}
    (hk : k.toNat ≤ r.count.toNat) :
    (element r.ty.sizeof r.base k).toNat = r.base.toNat + k.toNat * r.ty.sizeof.toNat := by
  have hend := h.ends r hr
  have hle : k.toNat * r.ty.sizeof.toNat ≤ r.count.toNat * r.ty.sizeof.toNat :=
    Nat.mul_le_mul_right _ hk
  unfold element
  rw [BitVec.toNat_add, BitVec.toNat_mul, Nat.add_mod_mod, Nat.mod_eq_of_lt (by omega)]

/-- Addresses compare as the indices do. -/
theorem Blocks.compare (h : Blocks roots) (hr : r ∈ roots) {k l : Word}
    (hk : k.toNat ≤ r.count.toNat) (hl : l.toNat ≤ r.count.toNat) (op : Comparison) :
    op.holds (element r.ty.sizeof r.base k) (element r.ty.sizeof r.base l) = op.holds k l := by
  have hfit := h.fitting hr
  have heq : element r.ty.sizeof r.base k = element r.ty.sizeof r.base l ↔ k = l :=
    ⟨hfit.element_inj hk hl, fun hkl => by rw [hkl]⟩
  have hlt : ∀ {k l : Word}, k.toNat ≤ r.count.toNat → l.toNat ≤ r.count.toNat →
      (element r.ty.sizeof r.base k < element r.ty.sizeof r.base l ↔ k < l) := by
    intro k l hk hl
    rw [BitVec.lt_def, BitVec.lt_def, h.element_toNat hr hk, h.element_toNat hr hl]
    have := hfit.sizeof_pos
    rw [Nat.add_lt_add_iff_left, Nat.mul_lt_mul_right this]
  cases op with
  | eq => exact decide_eq_decide.mpr heq
  | ne => exact congrArg (!·) (decide_eq_decide.mpr heq)
  | lt => exact decide_eq_decide.mpr (hlt hk hl)
  | le => exact decide_eq_decide.mpr (by rw [← BitVec.not_lt, ← BitVec.not_lt, hlt hl hk])
  | gt => exact decide_eq_decide.mpr (hlt hl hk)
  | ge => exact decide_eq_decide.mpr (by rw [← BitVec.not_lt, ← BitVec.not_lt, hlt hk hl])

/-- Addresses differ as the indices do. -/
theorem Blocks.difference (h : Blocks roots) (hr : r ∈ roots) {k l : Word}
    (hk : k.toNat ≤ r.count.toNat) (hl : l.toNat ≤ r.count.toNat)
    (hbytes : r.count.toNat * r.ty.sizeof.toNat < 2 ^ 63) :
    ptrDiff r.ty.sizeof (element r.ty.sizeof r.base k) (element r.ty.sizeof r.base l) = k - l := by
  have hcount := r.count_lt
  have hdiff : (k - l).toInt = (k.toNat : Int) - l.toNat := by
    rw [BitVec.toInt_sub, toInt_of_lt (by omega), toInt_of_lt (by omega)]
    exact Int.bmod_eq_of_le (by omega) (by omega)
  have hkbytes : k.toNat * r.ty.sizeof.toNat ≤ r.count.toNat * r.ty.sizeof.toNat :=
    Nat.mul_le_mul_right _ hk
  have hlbytes : l.toNat * r.ty.sizeof.toNat ≤ r.count.toNat * r.ty.sizeof.toNat :=
    Nat.mul_le_mul_right _ hl
  have hmul : (k - l).toInt * r.ty.sizeof.toNat =
      ((k.toNat * r.ty.sizeof.toNat : Nat) : Int) - (l.toNat * r.ty.sizeof.toNat : Nat) := by
    rw [hdiff, Int.sub_mul, Nat.cast_mul, Nat.cast_mul]
  have hsum := @ptrDiff_element _ r.base l (k - l) (h.sizeof r hr)
    (by rw [hmul]; omega) (by rw [hmul]; omega)
  rw [add_sub_cancel] at hsum
  exact hsum

/-- Variables of related states compare and differ as their cursors do. -/
theorem Means.comparesAs (h : Means memory s t) : ComparesAs s t := by
  intro i j v u c d n a hv hu hc hd hcn hdn ha hclt hdlt
  have hvc := forall₂_getElem? h.cursors i
  rw [hv, hc, Option.rel_some_some] at hvc
  have hud := forall₂_getElem? h.cursors j
  rw [hu, hd, Option.rel_some_some] at hud
  have hve := hvc.extent
  rw [hcn] at hve
  obtain ⟨r, hr, hvr⟩ := hve
  have hue := hud.extent
  rw [hdn] at hue
  obtain ⟨q, hq, huq⟩ := hue
  obtain rfl : r = q := Option.some.inj (hr.symm.trans hq)
  obtain ⟨hvty, hvdata, -⟩ := Extent.mk.inj hvr
  obtain ⟨-, hudata, -⟩ := Extent.mk.inj huq
  have hra := forall₂_getElem? h.arrays n
  rw [hr, ha, Option.rel_some_some] at hra
  have hmem := List.mem_of_getElem? hr
  rw [hra.count] at hclt hdlt
  have hleft : element v.ty.sizeof v.ptr.data v.ptr.index =
      element r.ty.sizeof r.base c.offset := by
    rw [hvty, hvdata, hvc.index]
  have hright : element v.ty.sizeof u.ptr.data u.ptr.index =
      element r.ty.sizeof r.base d.offset := by
    rw [hvty, hudata, hud.index]
  constructor
  · intro op
    rw [Aptr.compare, hleft, hright]
    exact h.blocks.compare hmem hclt hdlt op
  · intro hbytes
    rw [hra.count, hvty] at hbytes
    rw [Aptr.diff, hleft, hright, hvty]
    exact h.blocks.difference hmem hclt hdlt hbytes

/-! ## Runs -/

theorem means_of_stepsMeet (memory : Memory 64) {acts : List AptrAction}
    (hfresh : (aptrProgram memory).StepsMeet acts FreshBlock) :
    Option.Rel (Means memory) ((aptrProgram memory).run acts) (arrayProgram.run acts) := by
  apply Machine.rel_run _ (fun s t op h hC => h.step op hC) hfresh
  have hnone : Blocks [] := ⟨by simp, by simp, .nil⟩
  exact ⟨hnone, .nil, .nil, rfl, fun _ _ => rfl⟩

/-- **Checked pointers are pointers into arrays.** Whatever is allocated, copied, moved, loaded
and stored, a program does the same on the memory and on the arrays: it stops at the same
operation, which is the first access to an element that does not exist, and until then the blocks
hold the arrays, the same elements have been loaded, variables compare as their places in the
arrays do and nothing outside the blocks has changed. -/
theorem aptrProgram_means_arrayProgram (memory : Memory 64) {acts : List AptrAction}
    (hfresh : (aptrProgram memory).StepsMeet acts FreshBlock) :
    Option.Rel (fun s t => Means memory s t ∧ ComparesAs s t) ((aptrProgram memory).run acts)
      (arrayProgram.run acts) :=
  rel_imp (means_of_stepsMeet memory hfresh) fun _ _ h => ⟨h, h.comparesAs⟩

/-- Three `int`s at an address that leaves room for them. -/
def threeInts (base : Word) (hbase : base ≠ 0) (hfits : base.toNat + 12 ≤ 2 ^ 64) : Root :=
  ⟨.prim .int, base, 3, hbase, by decide, hfits⟩

/-- A program that allocates, moves a pointer forward, stores and loads. -/
def storeAndLoad (r : Root) : List AptrAction :=
  [.new_array r fun e _ => BitVec.ofNat 8 e, .move 0 (.add 2), .store 0 (some 1) fun _ => 7,
    .load 1 (some (-1)), .load 1 none]

theorem storeAndLoad_fresh (memory : Memory 64) {r : Root} (hsize : r.ty.sizeof ≠ 0)
    (hend : r.base.toNat + r.count.toNat * r.ty.sizeof.toNat < 2 ^ 64) :
    (aptrProgram memory).StepsMeet (storeAndLoad r) FreshBlock := by
  refine (((((Machine.stepsMeet_nil.concat ?_).concat ?_).concat ?_).concat ?_).concat ?_)
  · intro s hs
    cases hs
    exact ⟨hsize, hend, fun q hq => absurd hq List.not_mem_nil⟩
  all_goals exact fun _ _ => trivial

/-- The element stored through one variable is loaded through the other one. -/
theorem aptrProgram_means_arrayProgram_storeAndLoad :
    Option.Rel (fun s t => Means (fun _ => 0) s t ∧ ComparesAs s t)
      ((aptrProgram fun _ => 0).run (storeAndLoad (threeInts 0x1000 (by decide) (by decide))))
      (arrayProgram.run (storeAndLoad (threeInts 0x1000 (by decide) (by decide)))) :=
  aptrProgram_means_arrayProgram (fun _ => 0)
    (storeAndLoad_fresh _ (by decide) (by decide))

/-! ## Addresses do not matter -/

/-- The same operation, but for where an allocation is. -/
inductive AptrAction.SameBut : AptrAction → AptrAction → Prop
  | same (op : AptrAction) : SameBut op op
  | elsewhere {r r' : Root} (init : Nat → Nat → BitVec 8) (ty : r.ty = r'.ty)
      (count : r.count = r'.count) : SameBut (.new_array r init) (.new_array r' init)

/-- What a program can tell about a variable without its address. -/
structure SameShape (v v' : Typed Aptr) : Prop where
  ty : v.ty = v'.ty
  index : v.ptr.index = v'.ptr.index
  size : v.ptr.size = v'.ptr.size
  null : v.ptr.data = 0 ↔ v'.ptr.data = 0

/-- On the arrays, the address of an allocation is not looked at. -/
theorem arrayProgram_run_congr {acts acts' : List AptrAction}
    (h : List.Forall₂ AptrAction.SameBut acts acts') :
    arrayProgram.run acts = arrayProgram.run acts' := by
  have hexec : ∀ t, arrayProgram.exec t acts = arrayProgram.exec t acts' := by
    induction h with
    | nil => exact fun t => rfl
    | cons hop _ ih =>
        intro t
        have hstep : ∀ op op', AptrAction.SameBut op op' →
            arrayProgram.step t op = arrayProgram.step t op' := by
          intro op op' hop
          cases hop with
          | same => rfl
          | elsewhere init hty hcount =>
              show some _ = some _
              rw [hty, hcount]
        rw [Machine.exec_cons, Machine.exec_cons, hstep _ _ hop]
        congr 1
        funext t'
        exact ih t'
  exact hexec arrayProgram.init

/-- The null pointers denote the cursors into nothing. -/
theorem Denotes.null_iff (h : Denotes roots v c) : v.ptr.data = 0 ↔ c.array = none := by
  have hextent := h.extent
  cases harray : c.array with
  | none =>
      rw [harray] at hextent
      simp [hextent.1]
  | some n =>
      rw [harray] at hextent
      obtain ⟨r, -, he⟩ := hextent
      rw [show v.ptr.data = r.base from (Extent.mk.inj he).2.1]
      simpa using r.base_ne_zero

/-- The size is the number of elements of the array. -/
theorem Denotes.size_toNat (h : Denotes roots v c) {arrays : List ArrayValue}
    (ha : List.Forall₂ (Holds m) roots arrays) :
    v.ptr.size.toNat = ((c.array.bind fun n => arrays[n]?).map ArrayValue.count).getD 0 := by
  have hextent := h.extent
  cases harray : c.array with
  | none =>
      rw [harray] at hextent
      simp [hextent.2]
  | some n =>
      rw [harray] at hextent
      obtain ⟨r, hr, he⟩ := hextent
      have hentry := forall₂_getElem? ha n
      rw [hr] at hentry
      rw [(Extent.mk.inj he).2.2, Option.bind_some]
      cases harr : arrays[n]? with
      | none =>
          rw [harr] at hentry
          cases hentry
      | some a =>
          rw [harr, Option.rel_some_some] at hentry
          exact hentry.count.symm

/-- **Where the allocator puts a block does not matter.** Two runs of one program on different
memories, with each block at any address that is free, stop at the same operation or load the
same elements and end with the same variables, up to their addresses. -/
theorem aptrProgram_addresses_do_not_matter (memory memory' : Memory 64) {acts acts' : List AptrAction}
    (hsame : List.Forall₂ AptrAction.SameBut acts acts')
    (hfresh : (aptrProgram memory).StepsMeet acts FreshBlock)
    (hfresh' : (aptrProgram memory').StepsMeet acts' FreshBlock) :
    Option.Rel (fun s s' => s.loaded = s'.loaded ∧ List.Forall₂ SameShape s.aptrs s'.aptrs)
      ((aptrProgram memory).run acts) ((aptrProgram memory').run acts') := by
  have hleft := means_of_stepsMeet memory hfresh
  have hright := means_of_stepsMeet memory' hfresh'
  rw [← arrayProgram_run_congr hsame] at hright
  apply rel_imp (rel_comp hleft hright)
  intro s s' ⟨t, h, h'⟩
  refine ⟨h.loaded.trans h'.loaded.symm, ?_⟩
  apply (forall₂_comp h.cursors h'.cursors).imp
  intro v v' ⟨c, hvc, hvc'⟩
  have hsize : v.ptr.size = v'.ptr.size := by
    apply BitVec.eq_of_toNat_eq
    rw [hvc.size_toNat h.arrays, hvc'.size_toNat h'.arrays]
  exact ⟨hvc.ty.trans hvc'.ty.symm, hvc.index.trans hvc'.index.symm, hsize,
    hvc.null_iff.trans hvc'.null_iff.symm⟩

/-- The same program at two addresses. -/
theorem aptrProgram_addresses_do_not_matter_storeAndLoad :
    Option.Rel (fun s s' => s.loaded = s'.loaded ∧ List.Forall₂ SameShape s.aptrs s'.aptrs)
      ((aptrProgram fun _ => 0).run (storeAndLoad (threeInts 0x1000 (by decide) (by decide))))
      ((aptrProgram fun _ => 1).run (storeAndLoad (threeInts 0x2000 (by decide) (by decide)))) :=
  aptrProgram_addresses_do_not_matter (fun _ => 0) (fun _ => 1)
    (.cons (.elsewhere _ rfl rfl) (.cons (.same _) (.cons (.same _) (.cons (.same _)
      (.cons (.same _) .nil)))))
    (storeAndLoad_fresh _ (by decide) (by decide)) (storeAndLoad_fresh _ (by decide) (by decide))

end Ironclad.Pointers
