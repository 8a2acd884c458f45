import Ironclad.Translator.FixOutput

/-!
# What `fixOutput` deletes

`fixOutput` is meant for the brackets that a rewritten allocation was left with, so what it
deletes should stand between the parenthesis that closes a call of `new_array` and the next
semicolon. It looks for that parenthesis backwards from the semicolon and takes any. The run is
followed here on characters that carry their place in the text, so that the deleted places are
known (`mem_kept_iff`): a place is deleted when some `new_array` has its next semicolon behind it
and no closing parenthesis stands between the place and that semicolon.
-/

namespace Ironclad.Translator

open Ironclad.Logic

/-! ## Calls -/

/-- The text goes on inside `n` open angle brackets, and the last of them is closed at its end. -/
def closesAngle : Nat → Str → Bool
  | n, [] => n == 0
  | 0, _ :: _ => false
  | n + 1, c :: cs => closesAngle (if c = '<' then n + 2 else if c = '>' then n else n + 1) cs

/-- The template arguments of a call, with spaces around them, or spaces only. -/
inductive TemplateArgs : Str → Prop
  | none (n : Nat) : TemplateArgs (List.replicate n ' ')
  | some (n k : Nat) (args : Str) : closesAngle 1 args = true →
      TemplateArgs (List.replicate n ' ' ++ '<' :: args ++ List.replicate k ' ')

/-- The `new_array` at place `i` is called there, and the parenthesis that closes the call is at
place `e`: brackets and literals inside the call are closed. -/
def OwnClose (text : Str) (i e : Nat) : Prop :=
  ∃ gap args rest s, text.drop i = newArray ++ gap ++ '(' :: args ++ ')' :: rest ∧
    TemplateArgs gap ∧ cxx.read cxx.start args = some s ∧ cxx.isTop s = true ∧
    e = i + (newArray ++ gap ++ '(' :: args).length

/-- Every place that is not kept is strictly between the end of a call of `new_array` and the next
semicolon behind it. -/
def StrayOnly (text : Str) (kept : List (Char × Nat)) : Prop :=
  ∀ p < text.length, (∀ c, (c, p) ∉ kept) → ∃ i e s, OwnClose text i e ∧
    Text.find (isSemi id) text e = some s ∧ e < p ∧ p < s

/-- For every `new_array`, its next semicolon directly follows a closing parenthesis, or is also
the next one behind the end of some call of `new_array`. -/
def CallInFront (text : Str) : Prop :=
  ∀ i s, isNewArray id (text.drop i) = true → Text.find (isSemi id) text i = some s →
    text[s - 1]? = some ')' ∨ ∃ j e, OwnClose text j e ∧ Text.find (isSemi id) text e = some s

/-! ## Characters with their places -/

theorem isNewArray_map {α : Type} {ch : α → Char} (l : List α) :
    isNewArray ch l = isNewArray id (l.map ch) := by
  unfold isNewArray
  rw [List.map_id]

theorem isSemi_map {α : Type} {ch : α → Char} (l : List α) :
    isSemi ch l = isSemi id (l.map ch) := by
  unfold isSemi
  cases l with
  | nil => rfl
  | cons a l => rfl

/-- The loop does not look at what the characters carry. -/
theorem fixLoop_map {α : Type} {ch : α → Char} (fuel : Nat) (output : List α) (pos : Option Nat) :
    (fixLoop ch fuel output pos).map (List.map ch) = fixLoop id fuel (output.map ch) pos := by
  induction fuel generalizing output pos with
  | zero =>
      cases pos with
      | none => rfl
      | some pos => rfl
  | succ fuel ih =>
      cases pos with
      | none => rfl
      | some pos =>
          have hlast : ∀ n, Text.findLast (isClosing ch) output n =
              Text.findLast (isClosing id) (output.map ch) n :=
            fun n => Text.findLast_map fun _ => rfl
          have hafter : ∀ n, Text.afterLast (isClosing ch) output n =
              Text.afterLast (isClosing id) (output.map ch) n := by
            intro n
            unfold Text.afterLast
            rw [hlast]
          rw [fixLoop, fixLoop, Text.find_map isSemi_map]
          cases Text.find (isSemi id) (output.map ch) pos with
          | none =>
              dsimp only
              rw [ih, Text.find_map isNewArray_map]
          | some semiPos =>
              dsimp only
              rw [ih, hlast, hafter]
              split
              · rw [Text.map_erase]
                congr 1
                cases Text.findLast (isClosing id) (output.map ch) semiPos with
                | none => rfl
                | some q =>
                    show Text.find (isNewArray ch) _ q = Text.find (isNewArray id) _ q
                    rw [Text.find_map isNewArray_map, Text.map_erase]
              · congr 1
                cases Text.findLast (isClosing id) (output.map ch) semiPos with
                | none => rfl
                | some q => exact Text.find_map isNewArray_map

theorem fixOutput_zipIdx {text r : Str} {fuel : Nat} (h : fixOutput id fuel text = some r) :
    ∃ kept, fixOutput Prod.fst fuel text.zipIdx = some kept ∧ kept.map Prod.fst = r := by
  have hmap : (fixOutput Prod.fst fuel text.zipIdx).map (List.map Prod.fst) = some r := by
    unfold fixOutput
    rw [fixLoop_map, Text.find_map isNewArray_map, List.zipIdx_map_fst]
    exact h
  exact Option.map_eq_some_iff.mp hmap

/-! ## The places in a part of the text -/

section

variable {text : Str} {b n i s p : Nat} {c : Char}

theorem zipIdx_sorted (text : Str) : text.zipIdx.Pairwise fun a b => a.2 < b.2 := by
  have hrange : (text.zipIdx.map Prod.snd).Pairwise (· < ·) := by
    rw [List.zipIdx_map_snd]
    exact List.pairwise_lt_range'
  exact List.pairwise_map.mp hrange

/-- What stands from place `b` on, `s` characters of it. -/
theorem mem_part : (c, p) ∈ (text.zipIdx.drop b).take s ↔
    text[p]? = some c ∧ b ≤ p ∧ p < b + s := by
  rw [List.mem_iff_getElem?]
  constructor
  · intro ⟨k, hk⟩
    rw [List.getElem?_take] at hk
    obtain ⟨hks, hk⟩ := Option.ite_none_right_eq_some.mp hk
    rw [List.getElem?_drop, List.getElem?_zipIdx, Option.map_eq_some_iff] at hk
    obtain ⟨c', hc', heq⟩ := hk
    obtain ⟨rfl, rfl⟩ := Prod.mk.inj heq
    rw [Nat.zero_add]
    exact ⟨hc', by omega, by omega⟩
  · intro ⟨hc, hbp, hps⟩
    refine ⟨p - b, ?_⟩
    rw [List.getElem?_take, if_pos (by omega), List.getElem?_drop, List.getElem?_zipIdx,
      show b + (p - b) = p by omega, hc, Nat.zero_add]
    rfl

/-- A search in the rest, as one in the text. -/
theorem find_rest {f : List (Char × Nat) → Bool} {g : Str → Bool}
    (h : ∀ l, f l = g (l.map Prod.fst)) (hb : b ≤ text.length) :
    Text.find g text (b + i) = (Text.find f (text.zipIdx.drop b) i).map (b + ·) := by
  have hlen : (text.zipIdx.take b).length = b := by
    rw [List.length_take, List.length_zipIdx]
    omega
  have happend := Text.find_append f (text.zipIdx.take b) (text.zipIdx.drop b) i
  rw [List.take_append_drop, hlen, Text.find_map h, List.zipIdx_map_fst] at happend
  exact happend

end

/-! ## What is deleted -/

/-- A `new_array` has its next semicolon at place `n` or before, behind the place `p`, and no
closing parenthesis stands from the place to the semicolon. -/
def Deleted (text : Str) (n p : Nat) : Prop :=
  ∃ i s, isNewArray id (text.drop i) = true ∧ Text.find (isSemi id) text i = some s ∧ s ≤ n ∧
    p < s ∧ ∀ j, p ≤ j → j < s → text[j]? ≠ some ')'

/-- The finished part up to place `b`: all that is not deleted. -/
structure Finished (text : Str) (b : Nat) (front : List (Char × Nat)) : Prop where
  le : b ≤ text.length
  boundary : b = 0 ∨ isSemi id (text.drop b) = true
  sublist : front.Sublist (text.zipIdx.take b)
  mem_iff : ∀ c p, (c, p) ∈ front ↔ text[p]? = some c ∧ p < b ∧ ¬Deleted text b p

section

variable {text : Str} {b i s p : Nat} {front : List (Char × Nat)}

theorem finished_nil (text : Str) : Finished text 0 [] := by
  refine ⟨Nat.zero_le _, .inl rfl, List.nil_sublist _, ?_⟩
  intro c p
  simp

/-- **What a round deletes**: what has no closing parenthesis up to the semicolon. A semicolon
between `b` and that one is not the next one of any `new_array`. -/
theorem deleted_next (hb : b = 0 ∨ isSemi id (text.drop b) = true)
    (hi : Text.find (isNewArray id) text b = some i)
    (hs : Text.find (isSemi id) text i = some s) :
    Deleted text s p ↔ Deleted text b p ∨
      (p < s ∧ ∀ j, p ≤ j → j < s → text[j]? ≠ some ')') := by
  obtain ⟨hbi, -, hat, hfirst⟩ := Text.find_eq_some_iff.mp hi
  obtain ⟨his, -, -, hsemi⟩ := Text.find_eq_some_iff.mp hs
  constructor
  · intro ⟨j, t, hj, ht, hts, hpt, hnone⟩
    rcases Nat.lt_or_ge b t with hbt | htb
    · right
      obtain ⟨hjt, -, htsemi, hjsemi⟩ := Text.find_eq_some_iff.mp ht
      have hbj : b ≤ j := by
        by_contra hlt
        rcases hb with rfl | hb
        · omega
        · rw [hjsemi b (by omega) hbt] at hb
          cases hb
      have hij : i ≤ j := by
        by_contra hlt
        rw [hfirst j hbj (by omega)] at hj
        cases hj
      obtain rfl : t = s := by
        by_contra hne
        rw [hsemi t (by omega) (by omega)] at htsemi
        cases htsemi
      exact ⟨hpt, hnone⟩
    · exact .inl ⟨j, t, hj, ht, htb, hpt, hnone⟩
  · intro h
    rcases h with ⟨j, t, hj, ht, htb, hpt, hnone⟩ | ⟨hps, hnone⟩
    · exact ⟨j, t, hj, ht, by omega, hpt, hnone⟩
    · exact ⟨i, s, hat, hs, le_rfl, hps, hnone⟩

/-- A closing parenthesis is never deleted. -/
theorem not_deleted_closing {n : Nat} (h : text[p]? = some ')') : ¬Deleted text n p := by
  intro ⟨_, s, _, _, _, hps, hnone⟩
  exact hnone p le_rfl hps h

theorem isClosing_iff {a : Char × Nat} : isClosing Prod.fst a = true ↔ a.1 = ')' := beq_iff_eq

theorem Finished.next (h : Finished text b front)
    (hi : Text.find (isNewArray id) text b = some i)
    (hs : Text.find (isSemi id) text i = some (b + s)) :
    Finished text (b + s) (cutBack Prod.fst (front ++ (text.zipIdx.drop b).take s)) := by
  obtain ⟨his, hlt, hsemi, -⟩ := Text.find_eq_some_iff.mp hs
  have hsub : (front ++ (text.zipIdx.drop b).take s).Sublist (text.zipIdx.take (b + s)) := by
    rw [List.take_add]
    exact h.sublist.append (List.Sublist.refl _)
  have hsorted := ((zipIdx_sorted text).sublist (List.take_sublist _ _)).sublist hsub
  -- the characters up to the semicolon, before it is cut back
  have hmem : ∀ c p, (c, p) ∈ front ++ (text.zipIdx.drop b).take s ↔
      text[p]? = some c ∧ p < b + s ∧ ¬Deleted text b p := by
    intro c p
    rw [List.mem_append, h.mem_iff, mem_part]
    constructor
    · intro h
      rcases h with ⟨hc, hp, hdel⟩ | ⟨hc, hbp, hps⟩
      · exact ⟨hc, by omega, hdel⟩
      · refine ⟨hc, hps, ?_⟩
        intro ⟨_, t, _, _, htb, hpt, _⟩
        omega
    · intro ⟨hc, hps, hdel⟩
      rcases Nat.lt_or_ge p b with hlt | hge
      · exact .inl ⟨hc, hlt, hdel⟩
      · exact .inr ⟨hc, hge, hps⟩
  refine ⟨by omega, .inr hsemi, ?_, ?_⟩
  · exact (List.rdropWhile_prefix _ _).sublist.trans hsub
  · intro c p
    rw [deleted_next h.boundary hi hs]
    unfold cutBack
    rw [Text.mem_rdropWhile_iff hsorted, hmem]
    constructor
    · intro ⟨⟨hc, hp, hdel⟩, ⟨d, q⟩, hq, hclosing, hle⟩
      rw [isClosing_iff] at hclosing
      obtain ⟨hd, hq, -⟩ := (hmem d q).mp hq
      refine ⟨hc, hp, ?_⟩
      rintro (hold | ⟨-, hnone⟩)
      · exact hdel hold
      · change d = ')' at hclosing
        rw [hclosing] at hd
        exact hnone q hle hq hd
    · intro ⟨hc, hp, hdel⟩
      obtain ⟨hold, hnew⟩ := not_or.mp hdel
      refine ⟨⟨hc, hp, hold⟩, ?_⟩
      by_contra hno
      apply hnew
      refine ⟨hp, ?_⟩
      intro q hpq hqs hq
      exact hno ⟨(')', q), (hmem ')' q).mpr ⟨hq, hqs, not_deleted_closing hq⟩, rfl, hpq⟩

/-- No `new_array` is left, so nothing more is deleted. -/
theorem Finished.mem_of_none (h : Finished text b front)
    (hnone : Text.find (isNewArray Prod.fst) (text.zipIdx.drop b) 0 = none) (c : Char) (p : Nat) :
    (c, p) ∈ front ++ text.zipIdx.drop b ↔ text[p]? = some c ∧ ¬Deleted text text.length p := by
  have hi : Text.find (isNewArray id) text (b + 0) = none :=
    (find_rest isNewArray_map h.le).trans (by rw [hnone]; rfl)
  have hdel : Deleted text text.length p → Deleted text b p := by
    intro ⟨j, t, hj, ht, _, hpt, hnone⟩
    obtain ⟨hjt, htlt, -, hjsemi⟩ := Text.find_eq_some_iff.mp ht
    have hjb : j < b := by
      by_contra hge
      rw [Text.find_eq_none_iff.mp hi j (by omega) (by omega)] at hj
      cases hj
    refine ⟨j, t, hj, ht, ?_, hpt, hnone⟩
    by_contra hbt
    rcases h.boundary with rfl | hb
    · omega
    · rw [hjsemi b (by omega) (by omega)] at hb
      cases hb
  have hpart : text.zipIdx.drop b = (text.zipIdx.drop b).take (text.length - b) := by
    rw [List.take_of_length_le]
    rw [List.length_drop, List.length_zipIdx]
  have hle := h.le
  rw [hpart, List.mem_append, h.mem_iff, mem_part]
  constructor
  · intro h
    rcases h with ⟨hc, _, hnot⟩ | ⟨hc, hbp, _⟩
    · exact ⟨hc, fun hd => hnot (hdel hd)⟩
    · refine ⟨hc, fun hd => ?_⟩
      obtain ⟨_, t, _, _, htb, hpt, _⟩ := hdel hd
      omega
  · intro ⟨hc, hnot⟩
    obtain ⟨hp, -⟩ := List.getElem?_eq_some_iff.mp hc
    rcases Nat.lt_or_ge p b with hlt | hge
    · refine .inl ⟨hc, hlt, ?_⟩
      intro ⟨i, t, hat, ht, htb, hpt, hnone⟩
      exact hnot ⟨i, t, hat, ht, by omega, hpt, hnone⟩
    · exact .inr ⟨hc, hge, by omega⟩

/-- **What is kept**: unless the first round finds no parenthesis, everything that is not deleted.
By induction on the length of the rest. -/
theorem mem_kept_iff (n : Nat) (b : Nat) (front kept : List (Char × Nat))
    (hn : text.length - b ≤ n) (h : Finished text b front)
    (hclosed : ¬NothingClosed Prod.fst front (text.zipIdx.drop b))
    (hgives : Gives Prod.fst front (text.zipIdx.drop b) kept) (c : Char) (p : Nat) :
    (c, p) ∈ kept ↔ text[p]? = some c ∧ ¬Deleted text text.length p := by
  induction n generalizing b front with
  | zero =>
      have hnil : text.zipIdx.drop b = [] := by
        apply List.drop_eq_nil_of_le
        rw [List.length_zipIdx]
        omega
      have hi : Text.find (isNewArray Prod.fst) (text.zipIdx.drop b) 0 = none := by
        rw [hnil]
        rfl
      rw [(gives_of_none hi).mp hgives]
      exact h.mem_of_none hi c p
  | succ n ih =>
      cases hi : Text.find (isNewArray Prod.fst) (text.zipIdx.drop b) 0 with
      | none =>
          rw [(gives_of_none hi).mp hgives]
          exact h.mem_of_none hi c p
      | some i =>
          cases hs : Text.find (isSemi Prod.fst) (text.zipIdx.drop b) i with
          | none => exact absurd hgives (not_gives_of_no_semi hi hs)
          | some s =>
              have hpos := semi_pos hi hs
              have hany := any_of_not_nothingClosed hclosed hi hs
              have hi' : Text.find (isNewArray id) text (b + 0) = some (b + i) :=
                (find_rest isNewArray_map h.le).trans (by rw [hi]; rfl)
              have hs' : Text.find (isSemi id) text (b + i) = some (b + s) :=
                (find_rest isSemi_map h.le).trans (by rw [hs]; rfl)
              have hnext := (gives_next hi hs hany).mp hgives
              rw [List.drop_drop] at hnext
              exact ih (b + s) _ (by omega) (h.next hi' hs') (not_nothingClosed_cutBack hany) hnext

/-! ## Which deletions are stray bounds -/

/-- The end of a call is a closing parenthesis. -/
theorem OwnClose.closing {e : Nat} (h : OwnClose text i e) : text[e]? = some ')' := by
  obtain ⟨gap, args, rest, s, htext, -, -, -, rfl⟩ := h
  rw [← List.getElem?_drop, htext, List.getElem?_append_right le_rfl, Nat.sub_self]
  rfl

/-- The next semicolon is behind any other character. -/
theorem lt_of_find_semi {c : Char} (hs : Text.find (isSemi id) text i = some s)
    (hc : text[i]? = some c) (hne : c ≠ ';') : i < s := by
  obtain ⟨hle, -, hsemi, -⟩ := Text.find_eq_some_iff.mp hs
  apply Nat.lt_of_le_of_ne hle
  rintro rfl
  obtain ⟨a, ha, hchar⟩ := isSemi_drop_iff.mp hsemi
  rw [hc] at ha
  exact hne (Option.some.inj ha ▸ hchar)

/-- A first round without a parenthesis deletes the first character, which no call is in front
of. -/
theorem not_strayOnly_of_nothingClosed {kept : List (Char × Nat)}
    (hgives : Gives Prod.fst [] text.zipIdx kept)
    (hclosed : NothingClosed Prod.fst [] text.zipIdx) :
    ¬StrayOnly text kept ∧ ¬CallInFront text := by
  obtain ⟨i, s, hi, hs, hany⟩ := hclosed
  have hpos := semi_pos hi hs
  have hkept := (gives_of_stop hi hs hany).mp hgives
  rw [Text.find_map isNewArray_map, List.zipIdx_map_fst] at hi
  rw [Text.find_map isSemi_map, List.zipIdx_map_fst] at hs
  obtain ⟨-, hlt, -, -⟩ := Text.find_eq_some_iff.mp hs
  obtain ⟨-, -, hat, -⟩ := Text.find_eq_some_iff.mp hi
  -- in front of the semicolon there is no parenthesis
  have hnone : ∀ p < s, text[p]? ≠ some ')' := by
    intro p hp hc
    rw [List.nil_append, List.any_eq_false] at hany
    exact hany (')', p) ((mem_part (b := 0)).mpr ⟨hc, Nat.zero_le p, by omega⟩) rfl
  constructor
  · intro h
    have hdel : ∀ c, (c, 0) ∉ kept := by
      intro c hc
      rw [hkept, List.mem_iff_getElem?] at hc
      obtain ⟨k, hk⟩ := hc
      rw [List.getElem?_drop, List.getElem?_zipIdx, Option.map_eq_some_iff] at hk
      obtain ⟨_, _, heq⟩ := hk
      have := (Prod.mk.inj heq).2
      omega
    obtain ⟨_, e, _, _, _, he, _⟩ := h 0 (by omega) hdel
    omega
  · intro h
    rcases h i s hat hs with hc | ⟨j, e, hown, he⟩
    · exact hnone (s - 1) (by omega) hc
    · exact hnone e (lt_of_find_semi he hown.closing (by decide)) hown.closing

/-- **When `fixOutput` deletes stray bounds only**: no deletion is stray exactly if every semicolon
that is the next one of a `new_array` directly follows a parenthesis or a call. -/
theorem strayOnly_iff {kept : List (Char × Nat)} (hgives : Gives Prod.fst [] text.zipIdx kept) :
    StrayOnly text kept ↔ CallInFront text := by
  by_cases hclosed : NothingClosed Prod.fst [] text.zipIdx
  · obtain ⟨h1, h2⟩ := not_strayOnly_of_nothingClosed hgives hclosed
    exact iff_of_false h1 h2
  have hkept := mem_kept_iff text.length 0 [] kept (Nat.sub_le _ _) (finished_nil text) hclosed
    hgives
  constructor
  · intro h i s hat hs
    obtain ⟨his, hlt, hsemi, hfirst⟩ := Text.find_eq_some_iff.mp hs
    by_cases hc : text[s - 1]? = some ')'
    · exact .inl hc
    right
    have hpos : i ≠ s := by
      rintro rfl
      rw [not_isSemi_of_isNewArray hat] at hsemi
      cases hsemi
    -- the character in front of the semicolon is deleted
    have hdel : Deleted text text.length (s - 1) := by
      refine ⟨i, s, hat, hs, by omega, by omega, ?_⟩
      intro j hj hjs
      rw [show j = s - 1 by omega]
      exact hc
    obtain ⟨j, e, t, hown, ht, het, hst⟩ := h (s - 1) (by omega) fun c hmem =>
      ((hkept c (s - 1)).mp hmem).2 hdel
    obtain ⟨-, -, -, hbefore⟩ := Text.find_eq_some_iff.mp ht
    have hts : t = s := by
      by_contra hne
      rw [hbefore s (by omega) (by omega)] at hsemi
      cases hsemi
    exact ⟨j, e, hown, hts ▸ ht⟩
  · intro h p hp hnot
    have hdel : Deleted text text.length p := by
      by_contra hno
      exact hnot text[p] ((hkept _ _).mpr ⟨List.getElem?_eq_getElem hp, hno⟩)
    obtain ⟨i, s, hat, hs, -, hps, hnone⟩ := hdel
    rcases h i s hat hs with hc | ⟨j, e, hown, he⟩
    · exact absurd hc (hnone (s - 1) (by omega) (by omega))
    · have hes : e < s := lt_of_find_semi he hown.closing (by decide)
      refine ⟨j, e, s, hown, he, ?_, hps⟩
      by_contra hge
      exact hnone e (by omega) hes hown.closing

end

end Ironclad.Translator
