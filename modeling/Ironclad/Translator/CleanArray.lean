import Ironclad.Logic.TextSearch
import Ironclad.Translator.DeclText

/-!
# Brackets behind a rewritten allocation

When the text of a `new` expression has been replaced, the brackets of `new T[n][m]` may be left
behind the call, and `cleanArrayCode` erases them. It scans to the first semicolon and remembers
the last opening and the last closing bracket outside parentheses, so it erases the right group
when there is just one pair (`cleanArrayCode_eq_iff`); brackets inside the group, a second group
and a group at the very beginning mislead it.
-/

namespace Ironclad.Translator

open Ironclad.Logic

/-- The scan from place `i` on: the offsets at the first semicolon, if there is one. -/
def scanBrackets : Str → Nat → Int → Nat → Nat → Option (Nat × Nat)
  | [], _, _, _, _ => none
  | c :: cs, i, parens, startOffset, endOffset =>
      if c = '(' then scanBrackets cs (i + 1) (parens + 1) startOffset endOffset
      else if c = ')' then scanBrackets cs (i + 1) (parens - 1) startOffset endOffset
      else if c = '[' then
        scanBrackets cs (i + 1) parens (if parens = 0 then i else startOffset) endOffset
      else if c = ']' then
        scanBrackets cs (i + 1) parens startOffset (if parens = 0 then i + 1 else endOffset)
      else if c = ';' then some (startOffset, endOffset)
      else scanBrackets cs (i + 1) parens startOffset endOffset

/-- `cleanArrayCode`, on the text of the expression: the text that replaces it. When the bracket
that opens comes last, `endOffset - startOffset` wraps around, and all of the rest is erased. -/
def cleanArrayCode (currentSource : Str) : Str :=
  match scanBrackets currentSource 0 0 0 0 with
  | none => currentSource
  | some (startOffset, endOffset) =>
      if startOffset ≠ 0 ∧ endOffset ≠ 0 then
        if startOffset ≤ endOffset then Text.erase currentSource startOffset endOffset
        else currentSource.take startOffset
      else currentSource

/-! ## Brackets outside parentheses -/

/-- Opening less closing parentheses. -/
def parenDepth (text : Str) : Int := text.count '(' - text.count ')'

/-- The brackets of one kind are closed in the right order. -/
structure Balanced (opening closing : Char) (text : Str) : Prop where
  never_negative : ∀ front ∈ text.inits, front.count closing ≤ front.count opening
  closed : text.count opening = text.count closing

/-- The character stands at the place, outside parentheses and with no semicolon in front. -/
def TopAt (c : Char) (text : Str) (i : Nat) : Prop :=
  text[i]? = some c ∧ parenDepth (text.take i) = 0 ∧ ';' ∉ text.take i

/-- The last such place. -/
def LastTop (c : Char) (text : Str) (i : Nat) : Prop :=
  TopAt c text i ∧ ∀ j, TopAt c text j → j ≤ i

/-- White space. -/
def isSpace (c : Char) : Bool := c == ' ' || (9 ≤ c.toNat && c.toNat ≤ 13)

/-- The scan finds the group `[e]` behind `front`: no semicolon is in front, and the last brackets
are not at the beginning and enclose as many characters as the group has, which they repeat. When
the last brackets are those of the group there is nothing to repeat. -/
def GroupFound (front e rest : Str) : Prop :=
  ';' ∉ front ∧ ∃ q r, LastTop '[' (front ++ '[' :: e ++ ']' :: rest) q ∧
    LastTop ']' (front ++ '[' :: e ++ ']' :: rest) r ∧ q ≠ 0 ∧ r + 1 = q + (e.length + 2) ∧
    ∀ i, front.length ≤ i → i < q → (front ++ '[' :: e ++ ']' :: rest)[i]? =
      (front ++ '[' :: e ++ ']' :: rest)[i + (e.length + 2)]?

theorem parenDepth_append (a b : Str) : parenDepth (a ++ b) = parenDepth a + parenDepth b := by
  unfold parenDepth
  rw [List.count_append, List.count_append]
  push_cast
  omega

theorem Balanced.parenDepth {text : Str} (h : Balanced '(' ')' text) :
    parenDepth text = 0 := by
  unfold Translator.parenDepth
  rw [h.closed]
  omega

theorem parenDepth_of_not_mem {text : Str} (ho : '(' ∉ text) (hc : ')' ∉ text) :
    parenDepth text = 0 := by
  unfold parenDepth
  rw [List.count_eq_zero_of_not_mem ho, List.count_eq_zero_of_not_mem hc]
  rfl

theorem LastTop.unique {c : Char} {text : Str} {i j : Nat} (hi : LastTop c text i)
    (hj : LastTop c text j) : i = j :=
  Nat.le_antisymm (hj.2 i hi.1) (hi.2 j hj.1)

/-! ## The scan -/

/-- The offset is the one of the last bracket so far, `d` behind it, or 0 if there is none. -/
def Tracks (c : Char) (d : Nat) (text : Str) (n k : Nat) : Prop :=
  (k = 0 ∧ ∀ j < n, ¬TopAt c text j) ∨
    ∃ q < n, TopAt c text q ∧ (∀ j < n, TopAt c text j → j ≤ q) ∧ k = q + d

/-- The offset after one more character. -/
theorem Tracks.next_of {c : Char} {d n k : Nat} {text : Str} (h : Tracks c d text n k)
    (hn : ¬TopAt c text n) : Tracks c d text (n + 1) k := by
  rcases h with ⟨hk, hno⟩ | ⟨q, hq, htop, hlast, hk⟩
  · left
    refine ⟨hk, fun j hj htop => ?_⟩
    rcases Nat.lt_or_ge j n with hlt | hge
    · exact hno j hlt htop
    · exact hn ((show j = n by omega) ▸ htop)
  · right
    refine ⟨q, by omega, htop, fun j hj hj' => ?_, hk⟩
    rcases Nat.lt_or_ge j n with hlt | hge
    · exact hlast j hlt hj'
    · exact absurd ((show j = n by omega) ▸ hj') hn

theorem tracks_here {c : Char} {d n : Nat} {text : Str} (hn : TopAt c text n) :
    Tracks c d text (n + 1) (n + d) :=
  .inr ⟨n, by omega, hn, fun j hj _ => by omega, rfl⟩

theorem topAt_append_cons_iff {x c : Char} {front rest : Str} :
    TopAt x (front ++ c :: rest) front.length ↔ c = x ∧ parenDepth front = 0 ∧ ';' ∉ front := by
  unfold TopAt
  rw [List.getElem?_append_right le_rfl, Nat.sub_self, List.getElem?_cons_zero, List.take_left,
    Option.some.injEq]

/-- **The scan keeps the offsets of the last brackets**, by induction on the rest. -/
theorem scanBrackets_tracks (text rest : Str) (s' t' : Nat) : ∀ (front : Str) (s t : Nat),
    text = front ++ rest → ';' ∉ front → Tracks '[' 0 text front.length s →
    Tracks ']' 1 text front.length t →
    scanBrackets rest front.length (parenDepth front) s t = some (s', t') →
    ∃ m, text[m]? = some ';' ∧ ';' ∉ text.take m ∧ Tracks '[' 0 text m s' ∧
      Tracks ']' 1 text m t' := by
  induction rest with
  | nil =>
      intro front s t _ _ _ _ hscan
      cases hscan
  | cons c cs ih =>
      intro front s t htext hsemi hs ht hscan
      have htop : ∀ x, TopAt x text front.length ↔ c = x ∧ parenDepth front = 0 := by
        intro x
        rw [htext, topAt_append_cons_iff, and_iff_left hsemi]
      -- the character is read, and the scan goes on with the new depth and offsets
      have next : ∀ (d : Int) (s₁ t₁ : Nat), c ≠ ';' → parenDepth (front ++ [c]) = d →
          Tracks '[' 0 text (front.length + 1) s₁ → Tracks ']' 1 text (front.length + 1) t₁ →
          scanBrackets cs (front.length + 1) d s₁ t₁ = some (s', t') →
          ∃ m, text[m]? = some ';' ∧ ';' ∉ text.take m ∧ Tracks '[' 0 text m s' ∧
            Tracks ']' 1 text m t' := by
        intro d s₁ t₁ hc hd hs₁ ht₁ hscan₁
        apply ih (front ++ [c]) s₁ t₁
        · rw [htext, List.append_assoc, List.singleton_append]
        · simp [hsemi, hc.symm]
        · rw [List.length_append]
          exact hs₁
        · rw [List.length_append]
          exact ht₁
        · rw [List.length_append, hd]
          exact hscan₁
      rw [parenDepth_append] at next
      have hother : ∀ x, c ≠ x → ¬TopAt x text front.length := fun x hx h => hx ((htop x).mp h).1
      unfold scanBrackets at hscan
      split at hscan
      · -- an opening parenthesis
        rename_i hc
        exact next _ s t (by rw [hc]; decide) (by rw [hc]; rfl)
          (hs.next_of (hother _ (by rw [hc]; decide))) (ht.next_of (hother _ (by rw [hc]; decide)))
          hscan
      split at hscan
      · -- a closing parenthesis
        rename_i hc
        exact next _ s t (by rw [hc]; decide) (by rw [hc]; rfl)
          (hs.next_of (hother _ (by rw [hc]; decide))) (ht.next_of (hother _ (by rw [hc]; decide)))
          hscan
      split at hscan
      · -- an opening bracket counts outside parentheses
        rename_i hc
        refine next _ _ t (by rw [hc]; decide) (by rw [hc]; exact Int.add_zero _) ?_
          (ht.next_of (hother _ (by rw [hc]; decide))) hscan
        split
        · rename_i hdepth
          exact tracks_here ((htop _).mpr ⟨hc, hdepth⟩)
        · rename_i hdepth
          exact hs.next_of fun h => hdepth ((htop _).mp h).2
      split at hscan
      · -- a closing bracket counts outside parentheses
        rename_i hc
        refine next _ s _ (by rw [hc]; decide) (by rw [hc]; exact Int.add_zero _)
          (hs.next_of (hother _ (by rw [hc]; decide))) ?_ hscan
        split
        · rename_i hdepth
          exact tracks_here ((htop _).mpr ⟨hc, hdepth⟩)
        · rename_i hdepth
          exact ht.next_of fun h => hdepth ((htop _).mp h).2
      split at hscan
      · -- the first semicolon
        rename_i hc
        obtain ⟨rfl, rfl⟩ := Prod.mk.inj (Option.some.inj hscan)
        refine ⟨front.length, ?_, ?_, hs, ht⟩
        · rw [htext, List.getElem?_append_right le_rfl, Nat.sub_self, hc]
          rfl
        · rw [htext, List.take_left]
          exact hsemi
      · rename_i hopen hclose hbra hket hc
        have hdepth : parenDepth [c] = 0 :=
          parenDepth_of_not_mem (by simpa using Ne.symm hopen) (by simpa using Ne.symm hclose)
        exact next _ s t hc (by rw [hdepth]; exact Int.add_zero _) (hs.next_of (hother _ hbra))
          (ht.next_of (hother _ hket)) hscan

/-- The scan ends at a semicolon, if there is one. -/
theorem scanBrackets_isSome_iff {rest : Str} (i : Nat) (parens : Int) (s t : Nat) :
    (scanBrackets rest i parens s t).isSome = true ↔ ';' ∈ rest := by
  induction rest generalizing i parens s t with
  | nil => exact iff_of_false Bool.false_ne_true List.not_mem_nil
  | cons c cs ih =>
      have next : ∀ i parens s t, c ≠ ';' →
          ((scanBrackets cs i parens s t).isSome = true ↔ ';' ∈ c :: cs) := by
        intro i parens s t hc
        rw [ih, List.mem_cons, or_iff_right (Ne.symm hc)]
      unfold scanBrackets
      split
      · exact next _ _ _ _ (by rename_i hc; rw [hc]; decide)
      split
      · exact next _ _ _ _ (by rename_i hc; rw [hc]; decide)
      split
      · exact next _ _ _ _ (by rename_i hc; rw [hc]; decide)
      split
      · exact next _ _ _ _ (by rename_i hc; rw [hc]; decide)
      split
      · rename_i hc
        rw [hc]
        exact iff_of_true rfl List.mem_cons_self
      · exact next _ _ _ _ ‹_›

/-- Behind the first semicolon no bracket counts. -/
theorem TopAt.lt {c : Char} {text : Str} {i m : Nat} (h : TopAt c text i) (hc : c ≠ ';')
    (hm : text[m]? = some ';') : i < m := by
  by_contra hge
  obtain ⟨hi, -, hsemi⟩ := h
  rcases Nat.lt_or_ge m i with hlt | hle
  · exact hsemi (Text.mem_take_of_getElem? hm hlt)
  · rw [show i = m by omega, hm] at hi
    exact hc (Option.some.inj hi).symm

/-- The offset at the first semicolon. -/
theorem Tracks.last {c : Char} {d m k : Nat} {text : Str} (h : Tracks c d text m k) (hc : c ≠ ';')
    (hm : text[m]? = some ';') :
    (k = 0 ∧ ∀ j, ¬TopAt c text j) ∨ ∃ q, LastTop c text q ∧ k = q + d := by
  rcases h with ⟨hk, hno⟩ | ⟨q, -, htop, hlast, hk⟩
  · exact .inl ⟨hk, fun j hj => hno j (hj.lt hc hm) hj⟩
  · exact .inr ⟨q, ⟨htop, fun j hj => hlast j (hj.lt hc hm) hj⟩, hk⟩

/-- **What the scan of a text gives**: the offsets of the last brackets. -/
theorem scanBrackets_spec {text : Str} (h : ';' ∈ text) : ∃ s t m,
    scanBrackets text 0 0 0 0 = some (s, t) ∧ text[m]? = some ';' ∧ ';' ∉ text.take m ∧
      ((s = 0 ∧ ∀ j, ¬TopAt '[' text j) ∨ ∃ q, LastTop '[' text q ∧ s = q + 0) ∧
      ((t = 0 ∧ ∀ j, ¬TopAt ']' text j) ∨ ∃ r, LastTop ']' text r ∧ t = r + 1) := by
  obtain ⟨⟨s, t⟩, hscan⟩ :=
    Option.isSome_iff_exists.mp ((scanBrackets_isSome_iff 0 0 0 0).mpr h)
  have hnone : ∀ c d, Tracks c d text 0 0 := fun c d => .inl ⟨rfl, fun j hj => absurd hj (by omega)⟩
  obtain ⟨m, hm, hfirst, hs, ht⟩ := scanBrackets_tracks text text s t [] 0 0 rfl List.not_mem_nil
    (hnone _ _) (hnone _ _) hscan
  exact ⟨s, t, m, hscan, hm, hfirst, hs.last (by decide) hm, ht.last (by decide) hm⟩

/-! ## The group -/

section

variable {front e rest : Str}

theorem group_length (front e rest : Str) :
    (front ++ '[' :: e ++ ']' :: rest).length = front.length + (e.length + 2) + rest.length := by
  simp only [List.length_append, List.length_cons]
  omega

/-- The text without the group. -/
theorem erase_group (front e rest : Str) :
    Text.erase (front ++ '[' :: e ++ ']' :: rest) front.length (front.length + (e.length + 2)) =
      front ++ rest := by
  have htake : (front ++ '[' :: e ++ ']' :: rest).take front.length = front := by
    rw [List.append_assoc, List.take_left]
  have hdrop : (front ++ '[' :: e ++ ']' :: rest).drop (front.length + (e.length + 2)) = rest := by
    rw [List.append_assoc, Text.drop_append_add, List.drop_append]
    simp
  unfold Text.erase
  rw [htake, hdrop]

/-- Both brackets of the group stand outside parentheses. -/
theorem topAt_group (hfront : parenDepth front = 0) (he : parenDepth e = 0) (hsemi : ';' ∉ front)
    (hsemi' : ';' ∉ e) :
    TopAt '[' (front ++ '[' :: e ++ ']' :: rest) front.length ∧
      TopAt ']' (front ++ '[' :: e ++ ']' :: rest) (front.length + (e.length + 1)) := by
  constructor
  · rw [List.append_assoc]
    exact topAt_append_cons_iff.mpr ⟨rfl, hfront, hsemi⟩
  · have hlen : front.length + (e.length + 1) = (front ++ '[' :: e).length := by
      rw [List.length_append, List.length_cons]
    rw [hlen]
    refine topAt_append_cons_iff.mpr ⟨rfl, ?_, ?_⟩
    · have hopen : parenDepth ('[' :: e) = 0 := by
        rw [← List.singleton_append, parenDepth_append, he]
        rfl
      rw [parenDepth_append, hfront, hopen]
      rfl
    · simp [hsemi, hsemi']

/-- **Erasing to the end** never leaves the text without a group of `n` symbols: its first semicolon
would have to occur `n` places earlier as well. -/
theorem take_ne_erase {text : Str} {g n q m : Nat} (hm : text[m]? = some ';')
    (hfirst : ';' ∉ text.take m) (hn : 0 < n) (hgm : g + n ≤ m) :
    text.take q ≠ Text.erase text g (g + n) := by
  intro h
  obtain ⟨hmlt, -⟩ := List.getElem?_eq_some_iff.mp hm
  have hlen := congrArg List.length h
  rw [List.length_take, Text.length_erase (by omega) (by omega)] at hlen
  have hat := congrArg (fun l => l[m - n]?) h
  simp only [Text.getElem?_erase (show g ≤ text.length by omega),
    if_neg (show ¬m - n < g by omega), Nat.sub_add_cancel (show n ≤ m by omega), hm,
    List.getElem?_take_of_lt (show m - n < q by omega)] at hat
  exact hfirst (Text.mem_take_of_getElem? hat (by omega))

/-- With a semicolon in front of the group the scan stops before it, and what it erases there is
not the same as the group. -/
theorem cleanArrayCode_ne_of_semi (hsemi : ';' ∈ front) :
    cleanArrayCode (front ++ '[' :: e ++ ']' :: rest) ≠ front ++ rest := by
  have hlen := group_length front e rest
  have hgroup := erase_group front e rest
  obtain ⟨k, hk⟩ := List.mem_iff_getElem?.mp hsemi
  obtain ⟨hkg, -⟩ := List.getElem?_eq_some_iff.mp hk
  have hkT : (front ++ '[' :: e ++ ']' :: rest)[k]? = some ';' := by
    rw [List.append_assoc, List.getElem?_append_left hkg]
    exact hk
  generalize front ++ '[' :: e ++ ']' :: rest = text at hlen hgroup hkT ⊢
  obtain ⟨s, t, m, hscan, hm, hfirst, hs, ht⟩ := scanBrackets_spec (List.mem_of_getElem? hkT)
  have hmg : m < front.length := by
    by_contra hge
    exact hfirst (Text.mem_take_of_getElem? hkT (by omega))
  have hsm : s ≤ m := by
    rcases hs with ⟨rfl, -⟩ | ⟨q, hq, rfl⟩
    · omega
    · have := hq.1.lt (by decide) hm
      omega
  have htm : t ≤ m := by
    rcases ht with ⟨rfl, -⟩ | ⟨r, hr, rfl⟩
    · omega
    · have := hr.1.lt (by decide) hm
      omega
  intro h
  have hlen' := congrArg List.length h
  rw [List.length_append] at hlen'
  unfold cleanArrayCode at h hlen'
  rw [hscan] at h hlen'
  dsimp only at h hlen'
  split at h
  · rename_i hne
    rw [if_pos hne] at hlen'
    split at h
    · rename_i hle
      rw [if_pos hle, Text.length_erase hle (by omega)] at hlen'
      -- the erased part is as long as the group, and what lies between repeats
      obtain rfl : t = s + (e.length + 2) := by omega
      have hrepeat := (Text.erase_eq_iff (by omega) (by omega)).mp (hgroup.trans h.symm)
        (m - (e.length + 2)) (by omega) (by omega)
      rw [Nat.sub_add_cancel (by omega), hm] at hrepeat
      exact hfirst (Text.mem_take_of_getElem? hrepeat (by omega))
    · rename_i hgt
      rw [if_neg hgt, List.length_take] at hlen'
      omega
  · rename_i hne
    rw [if_neg hne] at hlen'
    omega

/-- A text without brackets outside parentheses stays. -/
theorem cleanArrayCode_eq_self {text : Str} (h : ∀ i, ¬TopAt '[' text i ∧ ¬TopAt ']' text i) :
    cleanArrayCode text = text := by
  unfold cleanArrayCode
  by_cases hsemi : ';' ∈ text
  · obtain ⟨s, t, m, hscan, -, -, hs, -⟩ := scanBrackets_spec hsemi
    rcases hs with ⟨rfl, -⟩ | ⟨q, hq, -⟩
    · rw [hscan]
      exact if_neg fun hne => hne.1 rfl
    · exact absurd hq.1 (h q).1
  · have hnone : scanBrackets text 0 0 0 0 = none := by
      rw [← Option.not_isSome_iff_eq_none, scanBrackets_isSome_iff]
      exact hsemi
    rw [hnone]

/-- Without a semicolon in front the last brackets are those of the group or behind them. -/
theorem cleanArrayCode_eq_iff_groupFound (hfront : parenDepth front = 0) (he : parenDepth e = 0)
    (hsemi : ';' ∉ front) (hsemi' : ';' ∉ e) (hrest : ';' ∈ rest) :
    cleanArrayCode (front ++ '[' :: e ++ ']' :: rest) = front ++ rest ↔
      GroupFound front e rest := by
  have hopen : TopAt '[' (front ++ '[' :: e ++ ']' :: rest) front.length :=
    (topAt_group hfront he hsemi hsemi').1
  have hclose : TopAt ']' (front ++ '[' :: e ++ ']' :: rest) (front.length + (e.length + 1)) :=
    (topAt_group hfront he hsemi hsemi').2
  have hlen := group_length front e rest
  have hgroup := erase_group front e rest
  have hmem : ';' ∈ front ++ '[' :: e ++ ']' :: rest := by simp [hrest]
  unfold GroupFound
  rw [and_iff_right hsemi, ← hgroup]
  generalize front ++ '[' :: e ++ ']' :: rest = text at hopen hclose hlen hmem ⊢
  obtain ⟨q, t, m, hscan, hm, hfirst, hs, ht⟩ := scanBrackets_spec hmem
  obtain ⟨_, hq, rfl⟩ := hs.resolve_left fun h => h.2 _ hopen
  obtain ⟨r, hr, rfl⟩ := ht.resolve_left fun h => h.2 _ hclose
  have hgq := hq.2 _ hopen
  have hgr := hr.2 _ hclose
  have hqm := hq.1.lt (by decide) hm
  have hrm := hr.1.lt (by decide) hm
  obtain ⟨hmlt, -⟩ := List.getElem?_eq_some_iff.mp hm
  -- the last brackets are unique, so the condition is about `q` and `r`
  have hfound : (∃ q' r', LastTop '[' text q' ∧ LastTop ']' text r' ∧ q' ≠ 0 ∧
      r' + 1 = q' + (e.length + 2) ∧
      ∀ i, front.length ≤ i → i < q' → text[i]? = text[i + (e.length + 2)]?) ↔
      q ≠ 0 ∧ r + 1 = q + (e.length + 2) ∧
      ∀ i, front.length ≤ i → i < q → text[i]? = text[i + (e.length + 2)]? := by
    constructor
    · intro ⟨q', r', hq', hr', h⟩
      obtain rfl := hq.unique hq'
      obtain rfl := hr.unique hr'
      exact h
    · intro h
      exact ⟨q, r, hq, hr, h⟩
  rw [hfound]
  unfold cleanArrayCode
  rw [hscan]
  dsimp only
  by_cases hq0 : q = 0
  · rw [if_neg fun h => h.1 hq0]
    apply iff_of_false
    · intro h
      have := congrArg List.length h
      rw [Text.length_erase (by omega) (by omega)] at this
      omega
    · intro h
      exact h.1 hq0
  · rw [if_pos ⟨hq0, by omega⟩, and_iff_right hq0, Nat.add_zero]
    by_cases hle : q ≤ r + 1
    · rw [if_pos hle]
      constructor
      · intro h
        have hlen' := congrArg List.length h
        rw [Text.length_erase hle (by omega), Text.length_erase (by omega) (by omega)] at hlen'
        have hr1 : r + 1 = q + (e.length + 2) := by omega
        rw [hr1, Text.erase_eq_iff hgq (by omega)] at h
        exact ⟨hr1, h⟩
      · intro ⟨hr1, h⟩
        rw [hr1, Text.erase_eq_iff hgq (by omega)]
        exact h
    · rw [if_neg hle]
      apply iff_of_false
      · exact take_ne_erase hm hfirst (by omega) (by omega)
      · omega

/-- **When the group is removed.** The text behind a call, white space and a group of brackets is
kept, and nothing but the group is erased, exactly if the scan finds it; and a text with no bracket
outside parentheses before its first semicolon stays. -/
theorem cleanArrayCode_eq_iff (call ws e rest : Str) (hcall : Balanced '(' ')' call)
    (hws : ∀ c ∈ ws, isSpace c = true) (he : Balanced '(' ')' e) (hsemi : ';' ∉ e)
    (hrest : ';' ∈ rest) :
    (cleanArrayCode (call ++ ws ++ '[' :: e ++ ']' :: rest) = call ++ ws ++ rest ↔
      GroupFound (call ++ ws) e rest) ∧
    ∀ text, (∀ i, ¬TopAt '[' text i ∧ ¬TopAt ']' text i) → cleanArrayCode text = text := by
  refine ⟨?_, fun text => cleanArrayCode_eq_self⟩
  have hfront : parenDepth (call ++ ws) = 0 := by
    rw [parenDepth_append, hcall.parenDepth, parenDepth_of_not_mem]
    · rfl
    · exact fun h => absurd (hws _ h) (by decide)
    · exact fun h => absurd (hws _ h) (by decide)
  by_cases hfree : ';' ∈ call ++ ws
  · exact iff_of_false (cleanArrayCode_ne_of_semi hfree) fun h => h.1 hfree
  · exact cleanArrayCode_eq_iff_groupFound hfront he.parenDepth hfree hsemi hrest

/-- `f(5) [3];`. -/
theorem cleanArrayCode_eq_iff_three :
    (cleanArrayCode (['f', '(', '5', ')'] ++ [' '] ++ '[' :: ['3'] ++ ']' :: [';']) =
        ['f', '(', '5', ')'] ++ [' '] ++ [';'] ↔
      GroupFound (['f', '(', '5', ')'] ++ [' ']) ['3'] [';']) ∧
    ∀ text, (∀ i, ¬TopAt '[' text i ∧ ¬TopAt ']' text i) → cleanArrayCode text = text :=
  cleanArrayCode_eq_iff ['f', '(', '5', ')'] [' '] ['3'] [';'] ⟨by decide, by decide⟩
    (by simp [isSpace]) ⟨by decide, by decide⟩ (by decide) (by decide)

/-- `f(5)[a[i]];` becomes `f(5)[a;`. -/
theorem cleanArrayCode_misses : ¬∀ call ws e rest : Str, Balanced '(' ')' call →
    (∀ c ∈ ws, isSpace c = true) → Balanced '(' ')' e → Balanced '[' ']' e → ';' ∉ e →
    ';' ∈ rest →
    cleanArrayCode (call ++ ws ++ '[' :: e ++ ']' :: rest) = call ++ ws ++ rest := by
  intro h
  have hgone := h ['f', '(', '5', ')'] [] ['a', '[', 'i', ']'] [';'] ⟨by decide, by decide⟩
    (by simp) ⟨by decide, by decide⟩ ⟨by decide, by decide⟩ (by decide) (by decide)
  revert hgone
  decide

end

end Ironclad.Translator
