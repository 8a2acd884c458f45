import Ironclad.Validator.Visitor

/-!
# The validation rules

`Breaches` is what `docs/validation_rules.txt` forbids. The validator lets three forms
through: it does not look at the operand of a cast, it says nothing about function
pointers, and it does not complain about a pointer that is called `argv`.
-/

namespace Ironclad.Validator

open Ironclad.Logic

/-- What can be against the rules on pointers and arrays. -/
inductive Breach where
  | barePointer (d : ValueDecl)
  | bareArray (d : ValueDecl)
  | pointerTypedef (name : Str) (underlying : QualType)
  | arrayTypedef (name : Str) (underlying : QualType)
  | new
  | delete
  | pointerCast (kind : CastKind) (source : QualType)

/-- The casts that the rules name. -/
def CastKind.isForbidden : CastKind → Bool
  | .dynamicCast | .staticCast | .reinterpretCast | .cStyle => true
  | _ => false

/-- The node declares the variable, the parameter or the field. -/
inductive Declares : Node → ValueDecl → Prop
  | var {d init} : Declares (.varDecl d init) d
  | field {name fields members d init} : (d, init) ∈ fields →
      Declares (.recordDecl name fields members) d

/-- What is against the rules at a node. -/
inductive Breaches : Node → Breach → Prop
  | barePointer {n d} : Declares n d → d.type.isPointerType = true →
      Breaches n (.barePointer d)
  | bareArray {n d} : Declares n d → d.type.isArrayType = true → Breaches n (.bareArray d)
  | pointerTypedef {name t} : t.isPointerType = true →
      Breaches (.typedefDecl name t) (.pointerTypedef name t)
  | arrayTypedef {name t} : t.isArrayType = true →
      Breaches (.typedefDecl name t) (.arrayTypedef name t)
  | new {t args} : Breaches (.newExpr t args) .new
  | delete {arg} : Breaches (.deleteExpr arg) .delete
  | pointerCast {kind t sub} : kind.isForbidden = true → sub.type.isPointerType = true →
      Breaches (.explicitCast kind t sub) (.pointerCast kind sub.type)

/-- The program obeys the rules. -/
def ObeysRules (tree : Node) : Prop :=
  ∀ n, NodeTree.Below tree n → ∀ b, ¬Breaches n b

/-- The forms that the validator lets through. -/
def Breach.IsExempt : Breach → Prop
  | .barePointer d => d.type.isFunctionPointerType = true ∨ isArgv d = true
  | .pointerCast _ _ => True
  | _ => False

/-- No type is both a pointer and an array. -/
theorem QualType.not_isPointerType {t : QualType} (h : t.isArrayType = true) :
    t.isPointerType = false := by
  unfold isArrayType at h
  unfold isPointerType
  cases ht : t.canonical with
  | array e => rfl
  | _ => simp [ht] at h

section

variable (getAsString : QualType → Str)

theorem handleVariable_pointer {d : ValueDecl} {init : Option Node}
    (hd : d.type.isPointerType = true) (h : HandleVariable getAsString d init = []) :
    d.type.isFunctionPointerType = true ∨ isArgv d = true := by
  unfold HandleVariable at h
  -- the warning for function pointers is commented out
  by_cases hf : d.type.isFunctionPointerType = true
  · exact .inl hf
  · by_cases ha : isArgv d = true
    · exact .inr ha
    · rw [if_neg hf, if_pos hd, if_neg ha] at h
      cases h

theorem handleVariable_array {d : ValueDecl} {init : Option Node}
    (hd : d.type.isArrayType = true) : HandleVariable getAsString d init ≠ [] := by
  have hp := QualType.not_isPointerType hd
  have hf : d.type.isFunctionPointerType ≠ true := by
    intro hf
    rw [QualType.isFunctionPointerType_isPointerType hf] at hp
    cases hp
  unfold HandleVariable
  rw [if_neg hf, hp, if_neg Bool.false_ne_true, if_pos hd]
  exact List.cons_ne_nil _ _

/-- What a node declares is handled when the node is visited. -/
theorem visit_declares {n : Node} {d : ValueDecl} (hn : Declares n d)
    (h : n.visit getAsString = some []) : ∃ init, HandleVariable getAsString d init = [] := by
  cases hn with
  | var => exact ⟨_, Option.some.inj h⟩
  | field hmem => exact ⟨none, List.flatMap_eq_nil_iff.mp (Option.some.inj h) _ hmem⟩

/-- A node that is visited without a warning is against the rules in the exempt forms
only. -/
theorem visit_breaches {n : Node} {b : Breach} (hb : Breaches n b)
    (h : n.visit getAsString = some []) : b.IsExempt := by
  cases hb with
  | barePointer hn hd =>
      obtain ⟨init, hinit⟩ := visit_declares getAsString hn h
      exact handleVariable_pointer getAsString hd hinit
  | bareArray hn hd =>
      obtain ⟨init, hinit⟩ := visit_declares getAsString hn h
      exact absurd hinit (handleVariable_array getAsString hd)
  | pointerTypedef ht =>
      have h := Option.some.inj h
      unfold VisitTypedefNameDecl at h
      rw [if_pos ht] at h
      cases h
  | arrayTypedef ht =>
      have h := Option.some.inj h
      unfold VisitTypedefNameDecl at h
      rw [QualType.not_isPointerType ht, if_neg Bool.false_ne_true, if_pos ht] at h
      cases h
  | new => cases Option.some.inj h
  | delete => cases Option.some.inj h
  | pointerCast => trivial

/-- **The validator is sound for the rules, up to the exempt forms.** -/
theorem validate_sound (tree : Node) (h : validate getAsString tree = some []) :
    ∀ n, NodeTree.Below tree n → ∀ b, Breaches n b → b.IsExempt := by
  intro n hn b hb
  exact visit_breaches getAsString hb (NodeTree.traverse_eq_nil_iff.mp h n hn)

end

/-- The parameters of `int main(int argc, char ** argv)`. -/
def mainArgc : ValueDecl :=
  ⟨[.functionDecl "main".toList], "argc".toList, .named "int".toList, true⟩

def mainArgv : ValueDecl :=
  ⟨[.functionDecl "main".toList], "argv".toList, .pointer (.pointer (.named "char".toList)), true⟩

/-- The declaration of `main`. -/
def mainDecl : Node :=
  .functionDecl ⟨[], "main".toList, [mainArgc, mainArgv], .named "int".toList, false⟩
    [.varDecl mainArgc none, .varDecl mainArgv none] none

theorem validate_mainDecl (getAsString : QualType → Str) :
    validate getAsString mainDecl = some [] := by
  refine NodeTree.traverse_eq_nil_iff_children.mpr ⟨rfl, ?_⟩
  intro c hc
  rcases List.mem_cons.mp hc with rfl | hc
  · exact NodeTree.traverse_eq_nil_iff_children.mpr ⟨rfl, fun _ h => nomatch h⟩
  · obtain rfl := List.mem_singleton.mp hc
    refine NodeTree.traverse_eq_nil_iff_children.mpr ⟨?_, fun _ h => nomatch h⟩
    show some (HandleVariable getAsString mainArgv none) = some []
    have hargv : isArgv mainArgv = true := beq_self_eq_true _
    unfold HandleVariable
    rw [if_neg (by decide), if_pos (by decide), if_pos hargv]

/-- The declaration of `main` passes, and only exempt forms in it are against the rules. -/
theorem validate_sound_main :
    validate (fun _ => []) mainDecl = some [] ∧
      ∀ n, NodeTree.Below mainDecl n → ∀ b, Breaches n b → b.IsExempt :=
  ⟨validate_mainDecl _, validate_sound (fun _ => []) mainDecl (validate_mainDecl _)⟩

/-- `void (*callback)();` -/
def callbackDecl : Node :=
  .varDecl ⟨[], "callback".toList, .pointer (.function (.named "void".toList)), false⟩ none

/-- The declaration of `main` and that of a function pointer pass, and they are against the
rules as they are written. -/
theorem validate_sound_fails :
    (validate (fun _ => []) mainDecl = some [] ∧ ¬ObeysRules mainDecl) ∧
      validate (fun _ => []) callbackDecl = some [] ∧ ¬ObeysRules callbackDecl := by
  refine ⟨⟨validate_mainDecl _, ?_⟩, ?_, ?_⟩
  · intro h
    have hbelow : NodeTree.Below mainDecl (.varDecl mainArgv none) :=
      .single (List.mem_cons_of_mem _ List.mem_cons_self)
    exact h _ hbelow _ (.barePointer .var rfl)
  · exact NodeTree.traverse_eq_nil_iff_children.mpr ⟨rfl, fun _ h => nomatch h⟩
  · intro h
    exact h _ .refl _ (.barePointer .var rfl)

end Ironclad.Validator
