import Ironclad.Logic.TextSearch
import Ironclad.Translator.DeclText

/-!
# Post-processing of the output

`fixOutput` goes through a rewritten file and deletes, for every `new_array` that it finds, what
stands between the last closing parenthesis and the next semicolon: the brackets that
`new_array(new int[30])[30];` was left with.

A round moves the search to the semicolon, whatever it deletes, so the loop is one over a finished
part of the text and a rest (`fixLoop_round`). Two things end this: a `new_array` without a
semicolon behind it, where the search stays and the loop never ends, and a first `new_array` with
no closing parenthesis in front of its semicolon, where the search position becomes `npos`.
-/

namespace Ironclad.Translator

open Ironclad.Logic

section

variable {α : Type} (ch : α → Char)

/-- `"new_array"`. -/
def newArray : Str := ['n', 'e', 'w', '_', 'a', 'r', 'r', 'a', 'y']

/-- `new_array` stands at the beginning. -/
def isNewArray (rest : List α) : Bool := newArray.isPrefixOf (rest.map ch)

/-- A semicolon stands at the beginning. -/
def isSemi (rest : List α) : Bool := rest.head?.any fun a => ch a == ';'

def isClosing (a : α) : Bool := ch a == ')'

/-- The loop of `fixOutput`, for at most `fuel` rounds. The characters of the text may carry more,
as their place in a file. `afterLast` is `pos + 1`, which is 0 when `find_last_of` finds nothing,
and a search from there finds nothing. -/
def fixLoop : Nat → List α → Option Nat → Option (List α)
  | _, output, none => some output
  | 0, _, some _ => none
  | fuel + 1, output, some pos =>
      match Text.find (isSemi ch) output pos with
      | none => fixLoop fuel output (Text.find (isNewArray ch) output pos)
      | some semiPos =>
          let pos := Text.findLast (isClosing ch) output semiPos
          let first := Text.afterLast (isClosing ch) output semiPos
          let output := if first < semiPos then Text.erase output first semiPos else output
          fixLoop fuel output (pos.bind fun pos => Text.find (isNewArray ch) output pos)

def fixOutput (fuel : Nat) (output : List α) : Option (List α) :=
  fixLoop ch fuel output (Text.find (isNewArray ch) output 0)

/-! ## One round -/

/-- The text up to its last closing parenthesis. -/
def cutBack (text : List α) : List α := text.rdropWhile fun a => !isClosing ch a

/-- The search for `new_array` in the rest of a text. -/
def searching (front rest : List α) : Option Nat :=
  (Text.find (isNewArray ch) rest 0).map (front.length + ·)

variable {ch} {front rest : List α} {i s : Nat}

theorem isSemi_drop_iff {text : List α} :
    isSemi ch (text.drop i) = true ↔ ∃ a, text[i]? = some a ∧ ch a = ';' := by
  unfold isSemi
  rw [List.head?_drop]
  cases text[i]? with
  | none => simp
  | some a => simp

/-- A closing parenthesis begins no `new_array`. -/
theorem not_isNewArray_of_closing {text : List α} (h : text[i]?.any (isClosing ch) = true) :
    isNewArray ch (text.drop i) = false := by
  cases ha : text[i]? with
  | none =>
      rw [ha] at h
      cases h
  | some a =>
      rw [ha] at h
      obtain ⟨hi, rfl⟩ := List.getElem?_eq_some_iff.mp ha
      have hc : ch text[i] = ')' := eq_of_beq h
      rw [List.drop_eq_getElem_cons hi]
      unfold isNewArray newArray
      rw [List.map_cons, hc]
      rfl

/-- Erasing from behind the last parenthesis up to a semicolon cuts back what is in front of it. -/
theorem cutBack_take {text : List α} {sp : Nat} (h : isSemi ch (text.drop sp) = true) :
    cutBack ch (text.take sp) = text.take (Text.afterLast (isClosing ch) text sp) ∧
      Text.afterLast (isClosing ch) text sp ≤ sp := by
  obtain ⟨a, ha, hc⟩ := isSemi_drop_iff.mp h
  have hnot : isClosing ch a = false := by
    unfold isClosing
    rw [hc]
    rfl
  constructor
  · -- the semicolon itself is cut off with the rest
    rw [Text.take_afterLast, List.take_add_one, ha]
    exact (List.rdropWhile_concat_pos _ _ _ (by rw [hnot]; rfl)).symm
  · unfold Text.afterLast
    cases hlast : Text.findLast (isClosing ch) text sp with
    | none => exact Nat.zero_le sp
    | some q =>
        have hq := Text.findLast_le hlast
        have hany := Text.findLast_any hlast
        have hne : q ≠ sp := by
          rintro rfl
          rw [ha, Option.any_some, hnot] at hany
          cases hany
        show q + 1 ≤ sp
        omega

theorem erase_eq_cutBack {text : List α} {sp : Nat} (h : isSemi ch (text.drop sp) = true) :
    (if Text.afterLast (isClosing ch) text sp < sp then
        Text.erase text (Text.afterLast (isClosing ch) text sp) sp else text) =
      cutBack ch (text.take sp) ++ text.drop sp := by
  obtain ⟨htake, hle⟩ := cutBack_take h
  rw [htake]
  split
  · rfl
  · rw [show Text.afterLast (isClosing ch) text sp = sp by omega, List.take_append_drop]

/-- A text without a parenthesis is cut back to nothing. -/
theorem cutBack_eq_nil_iff {text : List α} :
    cutBack ch text = [] ↔ text.any (isClosing ch) = false := by
  unfold cutBack
  rw [List.rdropWhile_eq_nil_iff, List.any_eq_false]
  simp

/-- **One round.** What is in front of the semicolon is cut back to its last closing parenthesis,
and the search goes on at the semicolon. Without a parenthesis everything in front is deleted, and
the loop ends. -/
theorem fixLoop_round (hs : Text.find (isSemi ch) rest i = some s) (fuel : Nat) :
    fixLoop ch (fuel + 1) (front ++ rest) (some (front.length + i)) =
      if (front ++ rest.take s).any (isClosing ch) then
        fixLoop ch fuel (cutBack ch (front ++ rest.take s) ++ rest.drop s)
          (searching ch (cutBack ch (front ++ rest.take s)) (rest.drop s))
      else some (rest.drop s) := by
  have hfind : Text.find (isSemi ch) (front ++ rest) (front.length + i) =
      some (front.length + s) := by
    rw [Text.find_append, hs]
    rfl
  obtain ⟨-, hlt, hsemi, -⟩ := Text.find_eq_some_iff.mp hfind
  have hdrop : (front ++ rest).drop (front.length + s) = rest.drop s :=
    Text.drop_append_add front rest s
  have htake : (front ++ rest).take (front.length + s) = front ++ rest.take s := by
    rw [List.take_append, List.take_of_length_le (by omega), Nat.add_sub_cancel_left]
  have herase := erase_eq_cutBack hsemi
  obtain ⟨hcut, hle⟩ := cutBack_take hsemi
  rw [hdrop, htake] at herase
  rw [htake] at hcut
  rw [fixLoop, hfind]
  show fixLoop ch fuel _ _ = _
  rw [herase]
  cases hlast : Text.findLast (isClosing ch) (front ++ rest) (front.length + s) with
  | none =>
      rw [Text.afterLast, hlast] at hcut
      rw [cutBack_eq_nil_iff.mp hcut, show cutBack ch (front ++ rest.take s) = [] from hcut]
      cases fuel <;> rfl
  | some q =>
      have hany := Text.findLast_any hlast
      rw [Text.afterLast, hlast] at hcut hle
      change cutBack ch (front ++ rest.take s) = (front ++ rest).take (q + 1) at hcut
      have hq : q < (front ++ rest).length := by
        change q + 1 ≤ front.length + s at hle
        omega
      have hlen : (cutBack ch (front ++ rest.take s)).length = q + 1 := by
        rw [hcut, List.length_take]
        omega
      have hsome : (front ++ rest.take s).any (isClosing ch) = true := by
        cases hc : (front ++ rest.take s).any (isClosing ch) with
        | true => rfl
        | false =>
            rw [cutBack_eq_nil_iff.mpr hc] at hlen
            cases hlen
      -- the search begins at the parenthesis, where no `new_array` begins
      have hclosing : (cutBack ch (front ++ rest.take s) ++ rest.drop s)[q]?.any (isClosing ch) =
          true := by
        rw [List.getElem?_append_left (by omega), hcut, List.getElem?_take_of_succ]
        exact hany
      rw [if_pos hsome, Option.bind_some, Text.find_succ (not_isNewArray_of_closing hclosing),
        ← hlen]
      congr 1
      exact Text.find_append _ _ _ 0

/-! ## All rounds -/

variable (ch) in
/-- Some number of rounds leads to the result, from the finished part and the rest. -/
def Gives (front rest r : List α) : Prop :=
  ∃ fuel, fixLoop ch fuel (front ++ rest) (searching ch front rest) = some r

variable {r : List α}

theorem gives_of_none (h : Text.find (isNewArray ch) rest 0 = none) :
    Gives ch front rest r ↔ r = front ++ rest := by
  have hloop : ∀ fuel, fixLoop ch fuel (front ++ rest) (searching ch front rest) =
      some (front ++ rest) := by
    intro fuel
    rw [searching, h]
    cases fuel <;> rfl
  constructor
  · intro ⟨fuel, hr⟩
    rw [hloop] at hr
    exact (Option.some.inj hr).symm
  · intro hr
    exact ⟨0, by rw [hloop, hr]⟩

/-- A round from a `new_array` without a semicolon behind it changes nothing. -/
theorem not_gives_of_no_semi (hi : Text.find (isNewArray ch) rest 0 = some i)
    (hs : Text.find (isSemi ch) rest i = none) : ¬Gives ch front rest r := by
  have hpos : searching ch front rest = some (front.length + i) := by
    rw [searching, hi]
    rfl
  have hsemi : Text.find (isSemi ch) (front ++ rest) (front.length + i) = none := by
    rw [Text.find_append, hs]
    rfl
  have hsame : Text.find (isNewArray ch) (front ++ rest) (front.length + i) =
      some (front.length + i) := by
    obtain ⟨-, hlt, hat, -⟩ := Text.find_eq_some_iff.mp hi
    rw [Text.find_append, Text.find_eq_some_iff.mpr ⟨le_rfl, hlt, hat, fun j h h' => by omega⟩]
    rfl
  intro ⟨fuel, hr⟩
  rw [hpos] at hr
  induction fuel with
  | zero => cases hr
  | succ fuel ih =>
      rw [fixLoop, hsemi] at hr
      change fixLoop ch fuel _ (Text.find (isNewArray ch) _ _) = _ at hr
      rw [hsame] at hr
      exact ih hr

/-- A round that does not end the loop. -/
theorem gives_next (hi : Text.find (isNewArray ch) rest 0 = some i)
    (hs : Text.find (isSemi ch) rest i = some s)
    (hany : (front ++ rest.take s).any (isClosing ch) = true) :
    Gives ch front rest r ↔ Gives ch (cutBack ch (front ++ rest.take s)) (rest.drop s) r := by
  have hpos : searching ch front rest = some (front.length + i) := by
    rw [searching, hi]
    rfl
  unfold Gives
  rw [hpos]
  constructor
  · intro ⟨fuel, hr⟩
    cases fuel with
    | zero => cases hr
    | succ fuel =>
        rw [fixLoop_round hs, if_pos hany] at hr
        exact ⟨fuel, hr⟩
  · intro ⟨fuel, hr⟩
    exact ⟨fuel + 1, by rw [fixLoop_round hs, if_pos hany, hr]⟩

/-- A round that ends the loop. -/
theorem gives_of_stop (hi : Text.find (isNewArray ch) rest 0 = some i)
    (hs : Text.find (isSemi ch) rest i = some s)
    (hany : (front ++ rest.take s).any (isClosing ch) = false) :
    Gives ch front rest r ↔ r = rest.drop s := by
  have hpos : searching ch front rest = some (front.length + i) := by
    rw [searching, hi]
    rfl
  unfold Gives
  rw [hpos]
  constructor
  · intro ⟨fuel, hr⟩
    cases fuel with
    | zero => cases hr
    | succ fuel =>
        rw [fixLoop_round hs, hany] at hr
        exact (Option.some.inj hr).symm
  · intro hr
    exact ⟨1, by rw [fixLoop_round hs, hany, hr]; rfl⟩

theorem fixOutput_gives {text : List α} :
    (∃ fuel, fixOutput ch fuel text = some r) ↔ Gives ch [] text r := by
  have hpos : searching ch [] text = Text.find (isNewArray ch) text 0 := by
    unfold searching
    cases Text.find (isNewArray ch) text 0 with
    | none => rfl
    | some i => exact congrArg some (Nat.zero_add i)
  unfold Gives
  rw [hpos]
  rfl

/-! ## Termination -/

variable (ch) in
/-- Every `new_array` has a semicolon behind it. -/
def SemiBehind (text : List α) : Prop :=
  ∀ i, isNewArray ch (text.drop i) = true → ∃ s, i ≤ s ∧ isSemi ch (text.drop s) = true

variable (ch) in
/-- The first `new_array` of the rest has a semicolon behind it, and no closing parenthesis stands
in front of that semicolon, in the finished part or in the rest. -/
def NothingClosed (front rest : List α) : Prop :=
  ∃ i s, Text.find (isNewArray ch) rest 0 = some i ∧ Text.find (isSemi ch) rest i = some s ∧
    (front ++ rest.take s).any (isClosing ch) = false

theorem not_isSemi_of_isNewArray {text : List α} (h : isNewArray ch text = true) :
    isSemi ch text = false := by
  cases text with
  | nil => rfl
  | cons a text =>
      unfold isNewArray newArray at h
      rw [List.map_cons, List.isPrefixOf_cons_cons, Bool.and_eq_true, beq_iff_eq] at h
      show (ch a == ';') = false
      rw [← h.1]
      rfl

/-- The semicolon behind a `new_array` is not at its first character. -/
theorem semi_pos (hi : Text.find (isNewArray ch) rest 0 = some i)
    (hs : Text.find (isSemi ch) rest i = some s) : i < s := by
  obtain ⟨-, -, hat, -⟩ := Text.find_eq_some_iff.mp hi
  obtain ⟨hle, -, hsemi, -⟩ := Text.find_eq_some_iff.mp hs
  apply Nat.lt_of_le_of_ne hle
  rintro rfl
  rw [not_isSemi_of_isNewArray hat] at hsemi
  cases hsemi

theorem cutBack_any {text : List α} (h : text.any (isClosing ch) = true) :
    (cutBack ch text).any (isClosing ch) = true := by
  have hne : cutBack ch text ≠ [] := by
    intro hnil
    rw [cutBack_eq_nil_iff.mp hnil] at h
    cases h
  have hlast := List.rdropWhile_last_not _ _ hne
  rw [List.any_eq_true]
  refine ⟨_, List.getLast_mem hne, ?_⟩
  simpa [cutBack] using hlast

theorem any_of_not_nothingClosed (h : ¬NothingClosed ch front rest)
    (hi : Text.find (isNewArray ch) rest 0 = some i)
    (hs : Text.find (isSemi ch) rest i = some s) :
    (front ++ rest.take s).any (isClosing ch) = true := by
  cases hany : (front ++ rest.take s).any (isClosing ch) with
  | true => rfl
  | false => exact absurd ⟨i, s, hi, hs, hany⟩ h

/-- What is cut back to a parenthesis has one, so no later round ends the loop. -/
theorem not_nothingClosed_cutBack {text : List α} (h : text.any (isClosing ch) = true) :
    ¬NothingClosed ch (cutBack ch text) rest := by
  intro ⟨i, s, _, _, hany⟩
  rw [List.any_append, cutBack_any h] at hany
  cases hany

/-- Behind a semicolon it is enough to look at the rest. -/
theorem semiBehind_drop_iff (hs : isSemi ch (rest.drop s) = true) :
    SemiBehind ch (rest.drop s) ↔ SemiBehind ch rest := by
  constructor
  · intro h i hi
    rcases Nat.le_total i s with hle | hle
    · exact ⟨s, hle, hs⟩
    · obtain ⟨j, rfl⟩ := Nat.exists_eq_add_of_le hle
      obtain ⟨t, hjt, ht⟩ := h j (by rw [List.drop_drop]; exact hi)
      rw [List.drop_drop] at ht
      exact ⟨s + t, by omega, ht⟩
  · intro h i hi
    rw [List.drop_drop] at hi
    obtain ⟨t, hit, ht⟩ := h (s + i) hi
    refine ⟨t - s, by omega, ?_⟩
    rw [List.drop_drop, show s + (t - s) = t by omega]
    exact ht

theorem semiBehind_of_none (h : Text.find (isNewArray ch) rest 0 = none) : SemiBehind ch rest := by
  intro i hi
  rcases Nat.lt_or_ge i rest.length with hlt | hge
  · rw [Text.find_eq_none_iff.mp h i (Nat.zero_le i) hlt] at hi
    cases hi
  · rw [List.drop_eq_nil_of_le hge] at hi
    cases hi

theorem not_semiBehind_of_no_semi (hi : Text.find (isNewArray ch) rest 0 = some i)
    (hs : Text.find (isSemi ch) rest i = none) : ¬SemiBehind ch rest := by
  intro h
  obtain ⟨-, -, hat, -⟩ := Text.find_eq_some_iff.mp hi
  obtain ⟨s, his, hsemi⟩ := h i hat
  obtain ⟨a, ha, -⟩ := isSemi_drop_iff.mp hsemi
  obtain ⟨hlt, -⟩ := List.getElem?_eq_some_iff.mp ha
  rw [Text.find_eq_none_iff.mp hs s his hlt] at hsemi
  cases hsemi

/-- **Unless the next round finds no parenthesis** the loop ends iff every `new_array` of the rest
has a semicolon behind it. By induction on the length of the rest, which every round makes
shorter. -/
theorem gives_iff_semiBehind (n : Nat) (front rest : List α) (hn : rest.length ≤ n)
    (hclosed : ¬NothingClosed ch front rest) :
    (∃ r, Gives ch front rest r) ↔ SemiBehind ch rest := by
  induction n generalizing front rest with
  | zero =>
      obtain rfl := List.eq_nil_of_length_eq_zero (Nat.le_zero.mp hn)
      exact iff_of_true ⟨_, (gives_of_none rfl).mpr rfl⟩ (semiBehind_of_none rfl)
  | succ n ih =>
      cases hi : Text.find (isNewArray ch) rest 0 with
      | none => exact iff_of_true ⟨_, (gives_of_none hi).mpr rfl⟩ (semiBehind_of_none hi)
      | some i =>
          cases hs : Text.find (isSemi ch) rest i with
          | none =>
              apply iff_of_false
              · intro ⟨r, hr⟩
                exact not_gives_of_no_semi hi hs hr
              · exact not_semiBehind_of_no_semi hi hs
          | some s =>
              have hpos := semi_pos hi hs
              obtain ⟨-, hlt, hsemi, -⟩ := Text.find_eq_some_iff.mp hs
              have hany := any_of_not_nothingClosed hclosed hi hs
              have hshort : (rest.drop s).length ≤ n := by
                rw [List.length_drop]
                omega
              rw [← semiBehind_drop_iff hsemi,
                ← ih _ _ hshort (not_nothingClosed_cutBack hany)]
              exact exists_congr fun r => gives_next hi hs hany

/-- **When the loop of `fixOutput` ends**: every `new_array` has a semicolon behind it, or the
first round finds no parenthesis to cut back to. -/
theorem fixOutput_terminates_iff (text : List α) :
    (∃ fuel r, fixOutput ch fuel text = some r) ↔
      SemiBehind ch text ∨ NothingClosed ch [] text := by
  have hgives : (∃ fuel r, fixOutput ch fuel text = some r) ↔ ∃ r, Gives ch [] text r := by
    rw [exists_comm]
    exact exists_congr fun r => fixOutput_gives
  rw [hgives]
  by_cases hclosed : NothingClosed ch [] text
  · obtain ⟨i, s, hi, hs, hany⟩ := hclosed
    exact iff_of_true ⟨_, (gives_of_stop hi hs hany).mpr rfl⟩ (.inr ⟨i, s, hi, hs, hany⟩)
  · rw [or_iff_left hclosed]
    exact gives_iff_semiBehind _ _ _ le_rfl hclosed

end

/-- A text that consists of `new_array` is searched forever. -/
theorem not_fixOutput_terminates : ¬∀ text : Str, ∃ fuel r, fixOutput id fuel text = some r := by
  intro h
  obtain ⟨fuel, r, hr⟩ := h newArray
  have hi : Text.find (isNewArray id) newArray 0 = some 0 := rfl
  have hs : Text.find (isSemi id) newArray 0 = none := rfl
  exact not_gives_of_no_semi hi hs (fixOutput_gives.mp ⟨fuel, hr⟩)

end Ironclad.Translator
