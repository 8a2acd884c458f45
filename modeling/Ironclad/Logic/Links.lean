import Mathlib.Data.List.Nodup
import Mathlib.Logic.Function.Basic

/-!
# Doubly linked lists

Nodes with a next and a previous link that ends in a null pointer on both sides. `Linked` is a
segment of such a list between two nodes that need not belong to it; a segment of a concatenation
is two segments that meet (`linked_append`), so unlinking a node, putting one in front and
replacing one are edits at a seam.
-/

namespace Ironclad.Logic

variable {α : Type*}

/-- The nodes are linked one after the other, the first one back to `p`, the last one on to `s`. -/
def Linked (next prev : α → Option α) : Option α → List α → Option α → Prop
  | _, [], _ => True
  | p, x :: xs, s => prev x = p ∧ next x = xs.head?.or s ∧ Linked next prev (some x) xs s

namespace Linked

variable {next prev next' prev' : α → Option α} {p s : Option α} {x : α} {xs ys : List α}

theorem nil : Linked next prev p [] s := trivial

/-- The seam of a concatenation. -/
theorem append_iff : Linked next prev p (xs ++ ys) s ↔
    Linked next prev p xs (ys.head?.or s) ∧ Linked next prev (xs.getLast?.or p) ys s := by
  induction xs generalizing p with
  | nil => simp [Linked]
  | cons x xs ih =>
      have hlast : (x :: xs).getLast?.or p = xs.getLast?.or (some x) := by
        cases xs with
        | nil => rfl
        | cons y ys => simp [List.getLast?_cons]
      have hhead : (xs ++ ys).head?.or s = xs.head?.or (ys.head?.or s) := by
        cases xs <;> rfl
      rw [List.cons_append, Linked, Linked, ih, hlast, hhead]
      constructor
      · rintro ⟨hp, hn, hxs, hys⟩
        exact ⟨⟨hp, hn, hxs⟩, hys⟩
      · rintro ⟨⟨hp, hn, hxs⟩, hys⟩
        exact ⟨hp, hn, hxs, hys⟩

/-- Only the links of the members are read. -/
theorem congr (h : Linked next prev p xs s) (hnext : ∀ y ∈ xs, next' y = next y)
    (hprev : ∀ y ∈ xs, prev' y = prev y) : Linked next' prev' p xs s := by
  induction xs generalizing p with
  | nil => trivial
  | cons x xs ih =>
      obtain ⟨hp, hn, hxs⟩ := h
      rw [List.forall_mem_cons] at hnext hprev
      exact ⟨hprev.1.trans hp, hnext.1.trans hn, ih hxs hnext.2 hprev.2⟩

/-- A list that ends in a null pointer is determined by its first node. -/
theorem eq_of_head {p' : Option α} (h : Linked next prev p xs none)
    (h' : Linked next prev p' ys none) (hhead : xs.head? = ys.head?) : xs = ys := by
  induction xs generalizing p p' ys with
  | nil => exact (List.head?_eq_none_iff.mp hhead.symm).symm
  | cons x xs ih =>
      cases ys with
      | nil => cases hhead
      | cons y ys =>
          obtain rfl : x = y := Option.some.inj hhead
          obtain ⟨-, hn, hxs⟩ := h
          obtain ⟨-, hn', hys⟩ := h'
          rw [Option.or_none] at hn hn'
          rw [ih hxs hys (hn.symm.trans hn')]

variable [DecidableEq α]

/-- The end of a segment is moved by its last node. -/
theorem set_next {y : α} {s' : Option α} (h : Linked next prev p (xs ++ [y]) s) (hy : y ∉ xs) :
    Linked (Function.update next y s') prev p (xs ++ [y]) s' := by
  rw [append_iff] at h ⊢
  refine ⟨h.1.congr (fun z hz => ?_) (fun _ _ => rfl), h.2.1, ?_, trivial⟩
  · exact Function.update_of_ne (ne_of_mem_of_not_mem hz hy) _ _
  · exact Function.update_self y s' next

/-- The start of a segment is moved by its first node. -/
theorem set_prev {y : α} {p' : Option α} (h : Linked next prev p (y :: xs) s) (hy : y ∉ xs) :
    Linked next (Function.update prev y p') p' (y :: xs) s := by
  obtain ⟨-, hn, hxs⟩ := h
  refine ⟨Function.update_self y p' prev, hn, hxs.congr (fun _ _ => rfl) fun z hz => ?_⟩
  exact Function.update_of_ne (ne_of_mem_of_not_mem hz hy) _ _

end Linked

/-! ## Families of lists -/

variable {ι : Type*}

/-- One list for each index, with the pointers to their first nodes. No node is on two lists. -/
structure Lists (head : ι → Option α) (next prev : α → Option α) (L : ι → List α) : Prop where
  head_eq : ∀ i, head i = (L i).head?
  linked : ∀ i, Linked next prev none (L i) none
  nodup : ∀ i, (L i).Nodup
  apart : ∀ i j x, x ∈ L i → x ∈ L j → i = j

namespace Lists

variable {head : ι → Option α} {next prev : α → Option α} {L : ι → List α} {i : ι} {x : α}
  {xs ys : List α}

/-- The neighbours of a member. -/
theorem neighbours (h : Lists head next prev L) (hL : L i = xs ++ x :: ys) :
    prev x = xs.getLast? ∧ next x = ys.head? := by
  have hlinked := h.linked i
  rw [hL, Linked.append_iff] at hlinked
  obtain ⟨-, hp, hn, -⟩ := hlinked
  exact ⟨by simpa using hp, by simpa using hn⟩

/-- The pointers determine the lists. -/
theorem unique {L' : ι → List α} (h : Lists head next prev L) (h' : Lists head next prev L')
    (i : ι) : L i = L' i :=
  (h.linked i).eq_of_head (h'.linked i) ((h.head_eq i).symm.trans (h'.head_eq i))

end Lists

variable [DecidableEq α] [DecidableEq ι]

/-- The next links when `x` is taken out: the node in front skips it. -/
def unlinkNext (next prev : α → Option α) (x : α) : α → Option α :=
  match prev x with
  | none => next
  | some y => Function.update next y (next x)

/-- The previous links when `x` is taken out: the node behind skips it. -/
def unlinkPrev (next prev : α → Option α) (x : α) : α → Option α :=
  match next x with
  | none => prev
  | some z => Function.update prev z (prev x)

/-- The first nodes when `x` is taken off the list `i`. -/
def unlinkHead (head : ι → Option α) (next prev : α → Option α) (i : ι) (x : α) :
    ι → Option α :=
  match prev x with
  | none => Function.update head i (next x)
  | some _ => head

/-- The next links when `n` takes the place of `x`. -/
def replaceNext (next prev : α → Option α) (x n : α) : α → Option α :=
  match prev x with
  | none => Function.update next n (next x)
  | some y => Function.update (Function.update next n (next x)) y (some n)

/-- The previous links when `n` takes the place of `x`. -/
def replacePrev (next prev : α → Option α) (x n : α) : α → Option α :=
  match next x with
  | none => Function.update prev n (prev x)
  | some z => Function.update (Function.update prev n (prev x)) z (some n)

/-- The first nodes when `n` takes the place of `x` on the list `i`. -/
def replaceHead (head : ι → Option α) (prev : α → Option α) (i : ι) (x n : α) : ι → Option α :=
  match prev x with
  | none => Function.update head i (some n)
  | some _ => head

/-- The previous links when `x` is put in front of the list that starts with `second`. -/
def pushPrev (prev : α → Option α) (x : α) (second : Option α) : α → Option α :=
  match second with
  | none => Function.update prev x none
  | some y => Function.update (Function.update prev x none) y (some x)

namespace Lists

variable {head : ι → Option α} {next prev : α → Option α} {L : ι → List α} {i : ι} {x : α}
  {xs ys : List α}

omit [DecidableEq ι] in
theorem unlinkNext_of_ne (h : Lists head next prev L) (hL : L i = xs ++ x :: ys) {y : α}
    (hy : y ∉ xs) : unlinkNext next prev x y = next y := by
  unfold unlinkNext
  rw [(h.neighbours hL).1]
  rcases xs.eq_nil_or_concat with rfl | ⟨xs', w, rfl⟩
  · rfl
  · rw [List.concat_eq_append, List.getLast?_append_of_ne_nil _ (List.cons_ne_nil _ _)]
    refine Function.update_of_ne (fun heq => hy ?_) _ _
    simp [heq]

omit [DecidableEq ι] in
theorem unlinkPrev_of_ne (h : Lists head next prev L) (hL : L i = xs ++ x :: ys) {y : α}
    (hy : y ∉ ys) : unlinkPrev next prev x y = prev y := by
  unfold unlinkPrev
  rw [(h.neighbours hL).2]
  cases ys with
  | nil => rfl
  | cons z ys =>
      refine Function.update_of_ne (fun heq => hy ?_) _ _
      rw [heq]
      exact List.mem_cons_self

omit [DecidableEq ι] in
/-- The two sides of a node that is taken out meet. -/
theorem linked_unlink (h : Lists head next prev L) (hL : L i = xs ++ x :: ys) :
    Linked (unlinkNext next prev x) (unlinkPrev next prev x) none (xs ++ ys) none := by
  have hnodup := h.nodup i
  have hlinked := h.linked i
  obtain ⟨hprev, hnext⟩ := h.neighbours hL
  rw [hL] at hnodup hlinked
  rw [Linked.append_iff] at hlinked
  obtain ⟨hxs, -, -, hys⟩ := hlinked
  have hdisj : ∀ y ∈ xs, y ∉ ys := fun y hy hys =>
    (List.nodup_append.mp hnodup).2.2 y hy y (List.mem_cons_of_mem _ hys) rfl
  rw [Linked.append_iff, Option.or_none, Option.or_none]
  constructor
  · rcases xs.eq_nil_or_concat with rfl | ⟨xs', y, rfl⟩
    · trivial
    · rw [List.concat_eq_append] at *
      have hy : y ∉ xs' := by
        have hxy := (List.nodup_append.mp hnodup).1
        exact fun hmem => (List.nodup_append.mp hxy).2.2 y hmem y (List.mem_singleton_self y) rfl
      have hset : unlinkNext next prev x = Function.update next y ys.head? := by
        unfold unlinkNext
        rw [hprev, hnext, List.getLast?_append_of_ne_nil _ (List.cons_ne_nil _ _)]
        rfl
      rw [hset]
      exact (hxs.set_next hy).congr (fun _ _ => rfl) fun z hz =>
        h.unlinkPrev_of_ne hL (hdisj z hz)
  · cases ys with
    | nil => trivial
    | cons z ys =>
        have hz : z ∉ ys :=
          (List.nodup_cons.mp (List.nodup_cons.mp (List.nodup_append.mp hnodup).2.1).2).1
        have hset : unlinkPrev next prev x = Function.update prev z xs.getLast? := by
          unfold unlinkPrev
          rw [hprev, hnext]
          rfl
        rw [hset]
        refine (hys.set_prev hz).congr (fun w hw => ?_) fun _ _ => rfl
        exact h.unlinkNext_of_ne hL fun hmem => hdisj w hmem hw

/-- **Taking a node out.** -/
theorem unlink (h : Lists head next prev L) (hL : L i = xs ++ x :: ys) :
    Lists (unlinkHead head next prev i x) (unlinkNext next prev x) (unlinkPrev next prev x)
      (Function.update L i (xs ++ ys)) := by
  have hsub : ∀ y, y ∈ xs ++ ys → y ∈ L i := by
    intro y hy
    rw [hL]
    simp only [List.mem_append, List.mem_cons] at hy ⊢
    tauto
  have hmem : ∀ j y, y ∈ Function.update L i (xs ++ ys) j → y ∈ L j := by
    intro j y hy
    by_cases hj : j = i
    · subst hj
      rw [Function.update_self] at hy
      exact hsub y hy
    · rwa [Function.update_of_ne hj] at hy
  refine ⟨fun j => ?_, fun j => ?_, fun j => ?_, fun j k y hj hk =>
    h.apart j k y (hmem j y hj) (hmem k y hk)⟩
  · obtain ⟨hprev, hnext⟩ := h.neighbours hL
    unfold unlinkHead
    rw [hprev, hnext]
    by_cases hj : j = i
    · subst hj
      rw [Function.update_self]
      cases xs with
      | nil => exact Function.update_self _ _ _
      | cons y xs =>
          rw [List.getLast?_cons]
          exact (h.head_eq j).trans (by rw [hL]; rfl)
    · rw [Function.update_of_ne hj, ← h.head_eq j]
      cases xs.getLast? with
      | none => exact Function.update_of_ne hj _ _
      | some y => rfl
  · by_cases hj : j = i
    · subst hj
      rw [Function.update_self]
      exact h.linked_unlink hL
    · rw [Function.update_of_ne hj]
      have hout : ∀ y ∈ L j, y ∉ L i := fun y hy hyi => hj (h.apart j i y hy hyi)
      refine (h.linked j).congr (fun y hy => ?_) fun y hy => ?_
      · exact h.unlinkNext_of_ne hL fun hys => hout y hy (hsub y (List.mem_append_left _ hys))
      · exact h.unlinkPrev_of_ne hL fun hys => hout y hy (hsub y (List.mem_append_right _ hys))
  · by_cases hj : j = i
    · subst hj
      rw [Function.update_self]
      have hnodup := h.nodup j
      rw [hL] at hnodup
      exact hnodup.sublist ((List.Sublist.refl xs).append (List.sublist_cons_self x ys))
    · rw [Function.update_of_ne hj]
      exact h.nodup j

omit [DecidableEq ι] in
theorem pushPrev_of_ne (h : Lists head next prev L) {y : α} (hy : y ≠ x) (hi : y ∉ L i) :
    pushPrev prev x (head i) y = prev y := by
  unfold pushPrev
  rw [h.head_eq i]
  cases hL : L i with
  | nil => exact Function.update_of_ne hy _ _
  | cons z zs =>
      rw [List.head?_cons]
      refine (Function.update_of_ne (fun heq => hi ?_) _ _).trans (Function.update_of_ne hy _ _)
      rw [hL, heq]
      exact List.mem_cons_self

/-- **Putting a node in front.** -/
theorem push (h : Lists head next prev L) (hx : ∀ j, x ∉ L j) (i : ι) :
    Lists (Function.update head i (some x)) (Function.update next x (head i))
      (pushPrev prev x (head i)) (Function.update L i (x :: L i)) := by
  have hne : ∀ j, ∀ y ∈ L j, y ≠ x := fun j y hy => ne_of_mem_of_not_mem hy (hx j)
  refine ⟨fun j => ?_, fun j => ?_, fun j => ?_, fun j k y hj hk => ?_⟩
  · by_cases hj : j = i
    · subst hj
      rw [Function.update_self, Function.update_self]
      rfl
    · rw [Function.update_of_ne hj, Function.update_of_ne hj]
      exact h.head_eq j
  · by_cases hj : j = i
    · subst hj
      rw [Function.update_self]
      have hold : Linked (Function.update next x (head j)) prev none (L j) none :=
        (h.linked j).congr (fun y hy => Function.update_of_ne (hne j y hy) _ _) fun y _ => rfl
      unfold pushPrev
      rw [h.head_eq j] at hold ⊢
      have hnodup := h.nodup j
      have hout := hne j
      cases hL : L j with
      | nil => exact ⟨Function.update_self _ _ _, Function.update_self _ _ _, trivial⟩
      | cons z zs =>
          rw [hL, List.head?_cons] at hold
          rw [hL] at hnodup hout
          rw [List.head?_cons]
          refine ⟨?_, Function.update_self _ _ _, ?_⟩
          · exact (Function.update_of_ne (hout z List.mem_cons_self).symm _ _).trans
              (Function.update_self _ _ _)
          · have hprev : Linked (Function.update next x (some z)) (Function.update prev x none) none
                (z :: zs) none :=
              hold.congr (fun _ _ => rfl) fun y hy => Function.update_of_ne (hout y hy) _ _
            exact hprev.set_prev (List.nodup_cons.mp hnodup).1
    · rw [Function.update_of_ne hj]
      refine (h.linked j).congr (fun y hy => Function.update_of_ne (hne j y hy) _ _) fun y hy => ?_
      exact h.pushPrev_of_ne (hne j y hy) fun hi => hj (h.apart j i y hy hi)
  · by_cases hj : j = i
    · subst hj
      rw [Function.update_self]
      exact List.nodup_cons.mpr ⟨hx j, h.nodup j⟩
    · rw [Function.update_of_ne hj]
      exact h.nodup j
  · have hmem : ∀ j, y ∈ Function.update L i (x :: L i) j → y = x ∧ j = i ∨ y ∈ L j := by
      intro j hy
      by_cases hj : j = i
      · subst hj
        rw [Function.update_self, List.mem_cons] at hy
        exact hy.imp_left fun heq => ⟨heq, rfl⟩
      · rw [Function.update_of_ne hj] at hy
        exact .inr hy
    rcases hmem j hj, hmem k hk with ⟨⟨hyx, hji⟩ | hjL, ⟨hyx', hki⟩ | hkL⟩
    · exact hji.trans hki.symm
    · exact absurd hkL (hyx ▸ hx k)
    · exact absurd hjL (hyx' ▸ hx j)
    · exact h.apart j k y hjL hkL

section

variable {n : α}

omit [DecidableEq ι] in
theorem replaceNext_of_ne (h : Lists head next prev L) (hL : L i = xs ++ x :: ys) {y : α}
    (hy : y ∉ xs) (hn : y ≠ n) : replaceNext next prev x n y = next y := by
  unfold replaceNext
  rw [(h.neighbours hL).1]
  rcases xs.eq_nil_or_concat with rfl | ⟨xs', w, rfl⟩
  · exact Function.update_of_ne hn _ _
  · rw [List.concat_eq_append, List.getLast?_append_of_ne_nil _ (List.cons_ne_nil _ _)]
    refine (Function.update_of_ne (fun heq => hy ?_) _ _).trans (Function.update_of_ne hn _ _)
    simp [heq]

omit [DecidableEq ι] in
theorem replacePrev_of_ne (h : Lists head next prev L) (hL : L i = xs ++ x :: ys) {y : α}
    (hy : y ∉ ys) (hn : y ≠ n) : replacePrev next prev x n y = prev y := by
  unfold replacePrev
  rw [(h.neighbours hL).2]
  cases ys with
  | nil => exact Function.update_of_ne hn _ _
  | cons z ys =>
      refine (Function.update_of_ne (fun heq => hy ?_) _ _).trans (Function.update_of_ne hn _ _)
      rw [heq]
      exact List.mem_cons_self

omit [DecidableEq ι] in
/-- A list with a node in the place of another. -/
theorem linked_replace (h : Lists head next prev L) (hL : L i = xs ++ x :: ys)
    (hn : ∀ j, n ∉ L j) :
    Linked (replaceNext next prev x n) (replacePrev next prev x n) none (xs ++ n :: ys) none := by
  have hnodup := h.nodup i
  have hlinked := h.linked i
  obtain ⟨hprev, hnext⟩ := h.neighbours hL
  have hni := hn i
  rw [hL] at hnodup hlinked hni
  rw [Linked.append_iff] at hlinked
  obtain ⟨hxs, -, -, hys⟩ := hlinked
  have hdisj : ∀ y ∈ xs, y ∉ ys := fun y hy hys =>
    (List.nodup_append.mp hnodup).2.2 y hy y (List.mem_cons_of_mem _ hys) rfl
  have hnxs : n ∉ xs := fun hmem => hni (List.mem_append_left _ hmem)
  have hnys : n ∉ ys := fun hmem => hni (List.mem_append_right _ (List.mem_cons_of_mem _ hmem))
  rw [Linked.append_iff, Option.or_none]
  refine ⟨?_, ?_, ?_, ?_⟩
  · -- the nodes in front
    rcases xs.eq_nil_or_concat with rfl | ⟨xs', y, rfl⟩
    · trivial
    · rw [List.concat_eq_append] at *
      have hy : y ∉ xs' := by
        have hxy := (List.nodup_append.mp hnodup).1
        exact fun hmem => (List.nodup_append.mp hxy).2.2 y hmem y (List.mem_singleton_self y) rfl
      have hset : ∀ z, z ≠ n → replaceNext next prev x n z =
          Function.update next y (some n) z := by
        intro z hz
        unfold replaceNext
        rw [hprev, List.getLast?_append_of_ne_nil _ (List.cons_ne_nil _ _)]
        show Function.update (Function.update next n _) y (some n) z = _
        by_cases hzy : z = y
        · rw [hzy, Function.update_self, Function.update_self]
        · rw [Function.update_of_ne hzy, Function.update_of_ne hzy, Function.update_of_ne hz]
      have hmoved : Linked (Function.update next y (some n)) prev none (xs' ++ [y]) (some n) :=
        hxs.set_next hy
      refine hmoved.congr (fun z hz => ?_) fun z hz => ?_
      · exact hset z (ne_of_mem_of_not_mem hz hnxs)
      · exact h.replacePrev_of_ne hL (hdisj z hz) (ne_of_mem_of_not_mem hz hnxs)
  · rw [Option.or_none, ← hprev]
    unfold replacePrev
    cases hz : next x with
    | none => exact Function.update_self _ _ _
    | some z =>
        refine (Function.update_of_ne (fun heq => hnys ?_) _ _).trans (Function.update_self _ _ _)
        rw [heq]
        exact List.mem_of_mem_head? (hnext.symm.trans hz)
  · rw [Option.or_none, ← hnext]
    unfold replaceNext
    cases hy : prev x with
    | none => exact Function.update_self _ _ _
    | some y =>
        refine (Function.update_of_ne (fun heq => hnxs ?_) _ _).trans (Function.update_self _ _ _)
        rw [heq]
        exact List.mem_of_getLast? (hprev.symm.trans hy)
  · -- the nodes behind
    cases ys with
    | nil => trivial
    | cons z ys =>
        have hz : z ∉ ys :=
          (List.nodup_cons.mp (List.nodup_cons.mp (List.nodup_append.mp hnodup).2.1).2).1
        have hset : ∀ w, w ≠ n → replacePrev next prev x n w =
            Function.update prev z (some n) w := by
          intro w hw
          unfold replacePrev
          rw [hnext]
          show Function.update (Function.update prev n _) z (some n) w = _
          by_cases hwz : w = z
          · rw [hwz, Function.update_self, Function.update_self]
          · rw [Function.update_of_ne hwz, Function.update_of_ne hwz, Function.update_of_ne hw]
        have hmoved : Linked next (Function.update prev z (some n)) (some n) (z :: ys) none :=
          hys.set_prev hz
        refine hmoved.congr (fun w hw => ?_) fun w hw => ?_
        · refine h.replaceNext_of_ne hL (fun hmem => hdisj w hmem hw) ?_
          exact ne_of_mem_of_not_mem hw hnys
        · exact hset w (ne_of_mem_of_not_mem hw hnys)

/-- **Putting a node in the place of another.** -/
theorem replace (h : Lists head next prev L) (hL : L i = xs ++ x :: ys) (hn : ∀ j, n ∉ L j) :
    Lists (replaceHead head prev i x n) (replaceNext next prev x n) (replacePrev next prev x n)
      (Function.update L i (xs ++ n :: ys)) := by
  have hmem : ∀ j y, y ∈ Function.update L i (xs ++ n :: ys) j → y = n ∧ j = i ∨ y ∈ L j := by
    intro j y hy
    by_cases hj : j = i
    · subst hj
      rw [Function.update_self] at hy
      rw [hL]
      simp only [List.mem_append, List.mem_cons] at hy ⊢
      tauto
    · rw [Function.update_of_ne hj] at hy
      exact .inr hy
  refine ⟨fun j => ?_, fun j => ?_, fun j => ?_, fun j k y hj hk => ?_⟩
  · unfold replaceHead
    rw [(h.neighbours hL).1]
    by_cases hj : j = i
    · subst hj
      rw [Function.update_self]
      cases xs with
      | nil => exact Function.update_self _ _ _
      | cons y xs =>
          rw [List.getLast?_cons]
          exact (h.head_eq j).trans (by rw [hL]; rfl)
    · rw [Function.update_of_ne hj, ← h.head_eq j]
      cases xs.getLast? with
      | none => exact Function.update_of_ne hj _ _
      | some y => rfl
  · by_cases hj : j = i
    · subst hj
      rw [Function.update_self]
      exact h.linked_replace hL hn
    · rw [Function.update_of_ne hj]
      have hsub : ∀ y, y ∈ xs ∨ y ∈ ys → y ∈ L i := by
        intro y hy
        rw [hL]
        simp only [List.mem_append, List.mem_cons]
        tauto
      have hout : ∀ y ∈ L j, y ∉ L i := fun y hy hyi => hj (h.apart j i y hy hyi)
      refine (h.linked j).congr (fun y hy => ?_) fun y hy => ?_
      · exact h.replaceNext_of_ne hL (fun hys => hout y hy (hsub y (.inl hys)))
          (ne_of_mem_of_not_mem hy (hn j))
      · exact h.replacePrev_of_ne hL (fun hys => hout y hy (hsub y (.inr hys)))
          (ne_of_mem_of_not_mem hy (hn j))
  · by_cases hj : j = i
    · subst hj
      rw [Function.update_self]
      have hnodup := h.nodup j
      have hnj := hn j
      rw [hL] at hnodup hnj
      rw [List.nodup_append, List.nodup_cons] at hnodup ⊢
      simp only [List.mem_append, List.mem_cons, not_or] at hnj
      refine ⟨hnodup.1, ⟨hnj.2.2, hnodup.2.1.2⟩, fun a ha b hb => ?_⟩
      rcases List.mem_cons.mp hb with rfl | hb
      · exact ne_of_mem_of_not_mem ha hnj.1
      · exact hnodup.2.2 a ha b (List.mem_cons_of_mem _ hb)
    · rw [Function.update_of_ne hj]
      exact h.nodup j
  · rcases hmem j y hj, hmem k y hk with ⟨⟨hyn, hji⟩ | hjL, ⟨hyn', hki⟩ | hkL⟩
    · exact hji.trans hki.symm
    · exact absurd hkL (hyn ▸ hn k)
    · exact absurd hjL (hyn' ▸ hn j)
    · exact h.apart j k y hjL hkL

end

end Lists

end Ironclad.Logic
