import Ironclad.Analysis.Names
import Ironclad.Logic.Joined

/-!
# Which keys are unique

`convertToUniqueString` puts the names of the enclosing contexts in front of a declaration's name,
and one `_sub` for each level behind it. The name does not say which overload or which block a
declaration is in, or which of several unnamed records, and `_sub` may end a declared name.
`keysUnique_iff` says for which declarations of a translation unit this makes no difference.

Names are cut at their own `::`, as that of a conversion to a qualified type has some.
-/

namespace Ironclad.Analysis

open Ironclad.Logic

/-! ## Declarations in their contexts -/

/-- What `convertToUniqueString` asks of a `DeclContext`. -/
inductive DeclContext where
  | translationUnit
  /-- A `NamedDecl`: a namespace, a record, an enumeration or a function. Unnamed ones have an
  empty name. -/
  | named (name : Str) (parent : DeclContext)
  /-- No `NamedDecl`, as `extern "C"`. -/
  | other (parent : DeclContext)
  deriving DecidableEq, Repr

namespace DeclContext

/-- The names that the loop comes to. -/
def scopes : DeclContext → List Str
  | .translationUnit => []
  | .named name parent => name :: parent.scopes
  | .other parent => parent.scopes

/-- The loop of `convertToUniqueString`. -/
def qualify : DeclContext → Str → Str
  | .translationUnit, declString => declString
  | .named name parent, declString => parent.qualify (name ++ [':', ':'] ++ declString)
  | .other parent, declString => parent.qualify declString

theorem qualify_eq_foldl (context : DeclContext) (declString : Str) :
    context.qualify declString = context.scopes.foldl
      (fun declString parent => parent ++ [':', ':'] ++ declString) declString := by
  induction context generalizing declString with
  | translationUnit => rfl
  | named name parent ih => exact ih _
  | other parent ih => exact ih _

end DeclContext

/-- A declaration with the entity that it declares and its lexical context. No name that is printed
ends with a colon. -/
structure Declaration (Entity : Type) where
  entity : Entity
  decl : NamedDecl
  lexicalContext : DeclContext
  context_eq : decl.context = lexicalContext.scopes
  noColon : ∀ n ∈ decl.names, n.getLast? ≠ some ':'

variable {Entity : Type}

/-- The key, as the loop makes it. -/
theorem Declaration.convertToUniqueString_eq (d : Declaration Entity) (level : Nat) :
    convertToUniqueString d.decl level =
      d.lexicalContext.qualify [] ++ d.decl.name ++ subSuffix level := by
  rw [DeclContext.qualify_eq_foldl, ← d.context_eq]
  rfl

/-- Keys are unique: no two declarations of different entities share one, nor do two levels. -/
def KeysUnique (unit : List (Declaration Entity)) : Prop :=
  ∀ d₁ ∈ unit, ∀ d₂ ∈ unit, ∀ l₁ l₂,
    convertToUniqueString d₁.decl l₁ = convertToUniqueString d₂.decl l₂ →
      d₁.entity = d₂.entity ∧ l₁ = l₂

/-! ## Parts of names -/

/-- `"::"`. -/
def scopeSep : Str := [':', ':']

/-- A name, cut at its own `::`. -/
def nameParts (name : Str) : List Str × Str := Text.cut scopeSep name

namespace NamedDecl

/-- The parts of the names of the enclosing contexts, outermost first, and those of the declared
name but the last. -/
def scopeParts (d : NamedDecl) : List Str :=
  (d.context.reverse.flatMap fun name => (nameParts name).1 ++ [(nameParts name).2]) ++
    (nameParts d.name).1

/-- The last part of the declared name. -/
def lastPart (d : NamedDecl) : Str := (nameParts d.name).2

end NamedDecl

/-- The names tell the declarations apart: with the same scopes, declarations of one name are of
one entity, and no name is another one followed by `_sub`s. -/
structure NamesApart (unit : List (Declaration Entity)) : Prop where
  entities : ∀ d₁ ∈ unit, ∀ d₂ ∈ unit, d₁.decl.scopeParts = d₂.decl.scopeParts →
    d₁.decl.lastPart = d₂.decl.lastPart → d₁.entity = d₂.entity
  suffixes : ∀ d₁ ∈ unit, ∀ d₂ ∈ unit, d₁.decl.scopeParts = d₂.decl.scopeParts →
    ∀ k, d₂.decl.lastPart = d₁.decl.lastPart ++ subSuffix k → k = 0

/-! ## Keys and parts -/

theorem subSuffix_add (l k : Nat) : subSuffix (l + k) = subSuffix l ++ subSuffix k := by
  induction k with
  | zero => exact (List.append_nil _).symm
  | succ k ih => rw [← Nat.add_assoc, subSuffix, ih, subSuffix, List.append_assoc]

theorem scopeSep_ne_nil : scopeSep ≠ [] := List.cons_ne_nil _ _

/-- A name that does not end with a colon does not run into a separator behind it. -/
theorem clean_of_noColon {name : Str} (h : name.getLast? ≠ some ':') :
    Text.Clean scopeSep name := by
  intro i hi hocc
  rcases Nat.lt_or_ge (i + 1) name.length with hlt | hge
  · exact (Text.occursAt_append_iff hlt).mp hocc
  · -- the separator would begin with the last symbol
    have hat := hocc.getElem? (show 0 < scopeSep.length by decide)
    rw [Nat.add_zero, List.getElem?_append_left hi] at hat
    refine absurd ?_ h
    rw [List.getLast?_eq_getElem?, show name.length - 1 = i by omega, hat]
    rfl

/-- Joining names is joining their parts. -/
theorem join_scopes (context : List Str) (name : Str) :
    Text.join scopeSep
        ((context.flatMap fun n => (nameParts n).1 ++ [(nameParts n).2]) ++ (nameParts name).1)
        (nameParts name).2 =
      Text.join scopeSep context name := by
  induction context with
  | nil => exact Text.join_cut scopeSep_ne_nil name
  | cons n context ih =>
      rw [List.flatMap_cons, List.append_assoc, List.append_assoc, List.singleton_append,
        Text.join_append_cons, ih, Text.join_cons]
      unfold nameParts
      rw [Text.join_cut scopeSep_ne_nil]

/-- The loop joins the names, outermost first. -/
theorem foldl_contexts_eq (context : List Str) (declString : Str) :
    context.foldl (fun declString parent => parent ++ [':', ':'] ++ declString) declString =
      Text.join scopeSep context.reverse declString := by
  induction context generalizing declString with
  | nil => rfl
  | cons n context ih =>
      rw [List.foldl_cons, ih, List.reverse_cons, Text.join_append_cons, List.append_assoc,
        Text.join_append_last]
      rfl

/-- **A key is its parts, joined**, with the suffix behind the last one. -/
theorem convertToUniqueString_eq_join (d : NamedDecl) (level : Nat) :
    convertToUniqueString d level =
      Text.join scopeSep d.scopeParts (d.lastPart ++ subSuffix level) := by
  unfold convertToUniqueString NamedDecl.scopeParts NamedDecl.lastPart
  rw [foldl_contexts_eq, ← Text.join_append_last, List.nil_append, Text.join_append_last,
    join_scopes]

namespace Declaration

variable {d d₁ d₂ : Declaration Entity}

theorem piece_scopeParts {p : Str} (hp : p ∈ d.decl.scopeParts) : Text.Piece scopeSep p := by
  unfold NamedDecl.scopeParts at hp
  rw [List.mem_append, List.mem_flatMap] at hp
  rcases hp with ⟨n, hn, hp⟩ | hp
  · rcases List.mem_append.mp hp with hp | hp
    · exact Text.piece_of_mem_cut scopeSep_ne_nil hp
    · rw [List.mem_singleton.mp hp]
      have hclean := d.noColon n (List.mem_cons_of_mem _ (List.mem_reverse.mp hn))
      exact (clean_of_noColon hclean).piece_cut scopeSep_ne_nil
  · exact Text.piece_of_mem_cut scopeSep_ne_nil hp

theorem piece_lastPart (d : Declaration Entity) (level : Nat) :
    Text.Piece scopeSep (d.decl.lastPart ++ subSuffix level) := by
  have hclean := clean_of_noColon (d.noColon d.decl.name List.mem_cons_self)
  refine (hclean.piece_cut scopeSep_ne_nil).append scopeSep_ne_nil fun c hc hcolon => ?_
  have hsuffix := mem_subSuffix hc
  revert hsuffix
  rw [show c = ':' by simpa [scopeSep] using hcolon]
  decide

/-- **Two keys are equal** exactly if the scopes are and the last parts are with the suffixes. -/
theorem convertToUniqueString_eq_iff (l₁ l₂ : Nat) :
    convertToUniqueString d₁.decl l₁ = convertToUniqueString d₂.decl l₂ ↔
      d₁.decl.scopeParts = d₂.decl.scopeParts ∧
        d₁.decl.lastPart ++ subSuffix l₁ = d₂.decl.lastPart ++ subSuffix l₂ := by
  rw [convertToUniqueString_eq_join, convertToUniqueString_eq_join]
  exact Text.join_inj scopeSep_ne_nil (fun _ => piece_scopeParts) (fun _ => piece_scopeParts)
    (d₁.piece_lastPart l₁) (d₂.piece_lastPart l₂)

end Declaration

theorem append_subSuffix_inj {p q : Str} {l k : Nat} :
    p ++ subSuffix (k + l) = q ++ subSuffix l ↔ p ++ subSuffix k = q := by
  rw [subSuffix_add, ← List.append_assoc, List.append_left_inj]

/-- For a name without `::` nothing is cut. -/
theorem nameParts_of_noColon {name : Str} (h : ':' ∉ name) : nameParts name = ([], name) := by
  refine Text.cut_of_not_occurs scopeSep_ne_nil fun i hocc => h ?_
  have hat := hocc.getElem? (show 0 < scopeSep.length by decide)
  exact List.mem_of_getElem? hat

/-- For names without `::`, the parts are the names. -/
theorem parts_of_noColon {d : NamedDecl} (h : ∀ n ∈ d.names, ':' ∉ n) :
    d.scopeParts = d.context.reverse ∧ d.lastPart = d.name := by
  obtain ⟨hname, hcontext⟩ := List.forall_mem_cons.mp h
  unfold NamedDecl.scopeParts NamedDecl.lastPart
  rw [nameParts_of_noColon hname]
  refine ⟨?_, rfl⟩
  have hparts : ∀ n ∈ d.context.reverse, (nameParts n).1 ++ [(nameParts n).2] = [n] := by
    intro n hn
    rw [nameParts_of_noColon (hcontext n (List.mem_reverse.mp hn))]
    rfl
  rw [List.flatMap_congr hparts, List.flatMap_singleton', List.append_nil]

/-- **Keys are unique exactly if the names tell the declarations apart.** -/
theorem keysUnique_iff (unit : List (Declaration Entity)) : KeysUnique unit ↔ NamesApart unit := by
  constructor
  · intro h
    refine ⟨fun d₁ h₁ d₂ h₂ hscopes hlast => ?_, fun d₁ h₁ d₂ h₂ hscopes k hlast => ?_⟩
    · refine (h d₁ h₁ d₂ h₂ 0 0 ?_).1
      rw [Declaration.convertToUniqueString_eq_iff, hlast]
      exact ⟨hscopes, rfl⟩
    · refine (h d₁ h₁ d₂ h₂ k 0 ?_).2
      rw [Declaration.convertToUniqueString_eq_iff, hlast]
      exact ⟨hscopes, (List.append_nil _).symm⟩
  · intro h d₁ h₁ d₂ h₂ l₁ l₂ hkeys
    obtain ⟨hscopes, hlast⟩ := (Declaration.convertToUniqueString_eq_iff l₁ l₂).mp hkeys
    -- the deeper level has the shorter name
    have hlevels : l₁ = l₂ := by
      rcases Nat.le_total l₂ l₁ with hle | hle
      · obtain ⟨k, rfl⟩ := Nat.exists_eq_add_of_le' hle
        have := h.suffixes d₁ h₁ d₂ h₂ hscopes k (append_subSuffix_inj.mp hlast).symm
        omega
      · obtain ⟨k, rfl⟩ := Nat.exists_eq_add_of_le' hle
        have := h.suffixes d₂ h₂ d₁ h₁ hscopes.symm k (append_subSuffix_inj.mp hlast.symm).symm
        omega
    subst hlevels
    exact ⟨h.entities d₁ h₁ d₂ h₂ hscopes (List.append_cancel_right hlast), rfl⟩

/-! ## Two overloads -/

/-- The parameter `p` of a function `f` with the identity `n`. -/
def overloadParam (n : Nat) : Declaration Nat where
  entity := n
  decl := .value ⟨[['f']], ['p'], .pointer .other⟩
  lexicalContext := .named ['f'] .translationUnit
  context_eq := rfl
  noColon := by decide

/-- A global variable with the identity `n`. -/
def globalPointer (n : Nat) (name : Str) (hname : name.getLast? ≠ some ':') : Declaration Nat where
  entity := n
  decl := .value ⟨[], name, .pointer (.pointer .other)⟩
  lexicalContext := .translationUnit
  context_eq := rfl
  noColon _ h := List.mem_singleton.mp h ▸ hname

/-- In `void f(int * p, int n); void f(char * p);` both parameters have the key `f::p`, and in
`int ** p; int ** p_sub;` the elements of the first variable have the key of the second. -/
theorem not_keysUnique :
    ¬KeysUnique [overloadParam 0, overloadParam 1] ∧
      ¬KeysUnique [globalPointer 0 ['p'] (by decide),
        globalPointer 1 ['p', '_', 's', 'u', 'b'] (by decide)] := by
  constructor
  · intro h
    have := (h (overloadParam 0) (by simp) (overloadParam 1) (by simp) 0 0 rfl).1
    exact absurd this (by decide)
  · intro h
    have := (h _ List.mem_cons_self _ (List.mem_cons_of_mem _ List.mem_cons_self) 1 0 rfl).2
    exact absurd this (by decide)

end Ironclad.Analysis
