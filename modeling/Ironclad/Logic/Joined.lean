import Ironclad.Logic.Occurrences

/-!
# Texts joined with a separator

Pieces are joined with a separator of several symbols behind each but the last. Nothing is
escaped, so the pieces can be told from the text as long as none of them contains the separator
or runs into the one behind it (`join_inj`). Any text can be cut into such pieces, if it does not
itself run into a separator behind it.
-/

namespace Ironclad.Logic.Text

variable {α : Type*}

section

variable (sep : List α)

/-- The pieces, the separator behind each of them, and the last text. -/
def join (pieces : List (List α)) (last : List α) : List α :=
  (pieces.flatMap fun p => p ++ sep) ++ last

/-- With a separator behind the text, that is the first one. -/
def Piece (p : List α) : Prop := ∀ i < p.length, ¬OccursAt sep (p ++ sep) i

/-- A separator behind the text is the only new one. -/
def Clean (p : List α) : Prop := ∀ i < p.length, OccursAt sep (p ++ sep) i → OccursAt sep p i

end

variable {sep p q r s last last' : List α} {ps qs : List (List α)}

@[simp] theorem join_nil : join sep [] last = last := rfl

theorem join_cons : join sep (p :: ps) last = p ++ (sep ++ join sep ps last) := by
  unfold join
  rw [List.flatMap_cons, List.append_assoc, List.append_assoc]

theorem join_append_cons :
    join sep (ps ++ p :: qs) last = join sep ps p ++ (sep ++ join sep qs last) := by
  induction ps with
  | nil => exact join_cons
  | cons r ps ih =>
      rw [List.cons_append, join_cons, ih, join_cons, List.append_assoc, List.append_assoc]

theorem join_append_last : join sep ps (p ++ r) = join sep ps p ++ r :=
  (List.append_assoc _ _ _).symm

theorem occursAt_behind (sep p r : List α) : OccursAt sep (p ++ (sep ++ r)) p.length := by
  unfold OccursAt
  rw [List.drop_left]
  exact List.prefix_append sep r

theorem Piece.length_le (hq : Piece sep q) (h : p ++ (sep ++ r) = q ++ (sep ++ s)) :
    q.length ≤ p.length := by
  by_contra hlt
  have hocc := occursAt_behind sep p r
  rw [h, ← List.append_assoc] at hocc
  refine hq p.length (by omega) ((occursAt_append_iff ?_).mp hocc)
  rw [List.length_append]
  omega

/-- The first piece ends at the first separator. -/
theorem Piece.append_inj (hp : Piece sep p) (hq : Piece sep q) :
    p ++ (sep ++ r) = q ++ (sep ++ s) ↔ p = q ∧ r = s := by
  constructor
  · intro h
    obtain ⟨rfl, hrest⟩ := List.append_inj h (le_antisymm (hp.length_le h.symm) (hq.length_le h))
    exact ⟨rfl, List.append_cancel_left hrest⟩
  · rintro ⟨rfl, rfl⟩
    rfl

/-- There is no separator in the last piece. -/
theorem Piece.ne_append (hq : Piece sep q) (hsep : sep ≠ []) : p ++ (sep ++ r) ≠ q := by
  intro h
  have hocc := occursAt_behind sep p r
  rw [h] at hocc
  refine hq p.length ?_ hocc.append_right
  have hpos := List.length_pos_iff.mpr hsep
  rw [← h, List.length_append, List.length_append]
  omega

/-- **Pieces can be told from the text that they are joined to.** -/
theorem join_inj (hsep : sep ≠ []) (hps : ∀ p ∈ ps, Piece sep p) (hqs : ∀ q ∈ qs, Piece sep q)
    (hlast : Piece sep last) (hlast' : Piece sep last') :
    join sep ps last = join sep qs last' ↔ ps = qs ∧ last = last' := by
  induction ps generalizing qs with
  | nil =>
      cases qs with
      | nil => simp
      | cons q qs =>
          rw [join_cons, join_nil]
          simp [(hlast.ne_append hsep).symm]
  | cons p ps ih =>
      cases qs with
      | nil =>
          rw [join_cons, join_nil]
          simp [hlast'.ne_append hsep]
      | cons q qs =>
          rw [List.forall_mem_cons] at hps hqs
          rw [join_cons, join_cons, hps.1.append_inj hqs.1, ih hps.2 hqs.2, List.cons.injEq,
            and_assoc]

/-- A text stays a piece if symbols follow that are not in the separator. -/
theorem Piece.append (hsep : sep ≠ []) (hp : Piece sep p) (hr : ∀ c ∈ r, c ∉ sep) :
    Piece sep (p ++ r) := by
  have hpos := List.length_pos_iff.mpr hsep
  intro i hi hocc
  rw [List.length_append] at hi
  -- no symbol of `r` is in the occurrence
  have houtside : ∀ x, p.length ≤ x → x < p.length + r.length → i ≤ x → ¬x < i + sep.length := by
    intro x hx hxr hix hlt
    obtain ⟨j, rfl⟩ := Nat.exists_eq_add_of_le hix
    have hat := hocc.getElem? (show j < sep.length by omega)
    rw [List.append_assoc, List.getElem?_append_right hx, List.getElem?_append_left (by omega),
      List.getElem?_eq_getElem (by omega), List.getElem?_eq_getElem (by omega),
      Option.some.injEq] at hat
    exact hr _ (List.getElem_mem _) (hat.symm ▸ List.getElem_mem _)
  rcases Nat.lt_or_ge i p.length with hip | hip
  · cases r with
    | nil =>
        rw [List.append_nil] at hocc
        exact hp i hip hocc
    | cons c r =>
        have hend := houtside p.length le_rfl (by simp) (by omega)
        rw [List.append_assoc, occursAt_append_iff (by omega)] at hocc
        exact hp i hip hocc.append_right
  · exact houtside i hip (by omega) le_rfl (by omega)

/-! ## Cutting -/

section

variable [DecidableEq α]

/-- Cutting at the first separators, at most `fuel` of them. -/
def cutLoop (sep : List α) : Nat → List α → List (List α) × List α
  | 0, text => ([], text)
  | fuel + 1, text =>
      match find sep.isPrefixOf text 0 with
      | none => ([], text)
      | some i =>
          let (pieces, last) := cutLoop sep fuel (text.drop (i + sep.length))
          (text.take i :: pieces, last)

/-- The pieces of a text between its separators, and the last one. -/
def cut (sep text : List α) : List (List α) × List α := cutLoop sep text.length text

/-- **Cutting gives pieces that join to the text**, and with enough fuel there is no separator
left in the last one. -/
theorem cutLoop_spec (hsep : sep ≠ []) (fuel : Nat) (text : List α) :
    join sep (cutLoop sep fuel text).1 (cutLoop sep fuel text).2 = text ∧
      (∀ p ∈ (cutLoop sep fuel text).1, Piece sep p) ∧
      (text.length ≤ fuel → ∀ i, ¬OccursAt sep (cutLoop sep fuel text).2 i) := by
  have hpos := List.length_pos_iff.mpr hsep
  induction fuel generalizing text with
  | zero =>
      refine ⟨rfl, fun p hp => absurd hp List.not_mem_nil, fun hlen i hocc => ?_⟩
      have hlt : i < text.length := hocc.lt_length hsep
      omega
  | succ fuel ih =>
      rw [cutLoop]
      cases hfind : find sep.isPrefixOf text 0 with
      | none =>
          exact ⟨rfl, fun p hp => absurd hp List.not_mem_nil,
            fun _ => (find_isPrefixOf_eq_none_iff hsep).mp hfind⟩
      | some i =>
          obtain ⟨hocc, hfirst⟩ := (find_isPrefixOf_eq_some_iff hsep).mp hfind
          obtain ⟨hjoin, hpieces, hlast⟩ := ih (text.drop (i + sep.length))
          have hlt := hocc.lt_length hsep
          refine ⟨?_, List.forall_mem_cons.mpr ⟨fun j hj hat => ?_, hpieces⟩, fun hlen => ?_⟩
          · rw [join_cons, hjoin]
            exact hocc.eq_append.symm
          · rw [List.length_take] at hj
            refine hfirst j (by omega) ?_
            rw [hocc.eq_append, ← List.append_assoc]
            exact hat.append_right
          · refine hlast ?_
            rw [List.length_drop]
            omega

theorem join_cut (hsep : sep ≠ []) (text : List α) :
    join sep (cut sep text).1 (cut sep text).2 = text :=
  (cutLoop_spec hsep text.length text).1

theorem piece_of_mem_cut (hsep : sep ≠ []) {text : List α} (hp : p ∈ (cut sep text).1) :
    Piece sep p :=
  (cutLoop_spec hsep text.length text).2.1 p hp

/-- The last piece does not run into a separator if the text does not. -/
theorem Clean.piece_cut (hsep : sep ≠ []) {text : List α} (h : Clean sep text) :
    Piece sep (cut sep text).2 := by
  intro i hi hocc
  obtain ⟨hjoin, -, hlast⟩ := cutLoop_spec hsep text.length text
  -- the place in the whole text
  have htext : ((cut sep text).1.flatMap fun p => p ++ sep) ++ (cut sep text).2 = text := hjoin
  generalize ((cut sep text).1.flatMap fun p => p ++ sep) = front at htext
  have hclean := h (front.length + i)
  rw [← htext, List.length_append, List.append_assoc, occursAt_append_add, occursAt_append_add]
    at hclean
  exact hlast le_rfl i (hclean (by omega) hocc)

/-- A text without a separator is one piece. -/
theorem cut_of_not_occurs (hsep : sep ≠ []) {text : List α} (h : ∀ i, ¬OccursAt sep text i) :
    cut sep text = ([], text) := by
  unfold cut
  cases text.length with
  | zero => rfl
  | succ n => rw [cutLoop, (find_isPrefixOf_eq_none_iff hsep).mpr h]

end

end Ironclad.Logic.Text
