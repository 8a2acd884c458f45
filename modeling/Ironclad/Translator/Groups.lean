import Ironclad.Logic.Runs
import Ironclad.Translator.Builder

/-!
# Declaration groups

The variables of one C++ declaration reach the translator one by one and have only their
start location in common. `translatePointer` collects their text and rewrites the group
when a declaration with another location arrives; `translateLastDeclGroup` rewrites the last
one. `faithful_iff` says exactly when every group is rewritten once and to the right
declarations: the text has one type for the whole group, that of its first variable.
-/

namespace Ironclad.Translator

open Ironclad.Logic

/-- A replacement: the declaration whose range is replaced, and the new text. -/
structure Replacement where
  range : ValueDecl
  text : Str
  deriving DecidableEq, Repr

/-- The members of `Translator` that the rewriting of groups uses; `modifiedLines` is the
number of replacements. -/
structure TranslatorState where
  lastValueDecl : Option ValueDecl
  declGroupString : Str
  replacements : List Replacement
  deriving DecidableEq, Repr

section

variable (builder : Builder) (getRewrittenText : ValueDecl → Str)

def TranslatorState.initial : TranslatorState := ⟨none, [], []⟩

/-- `translateLastDeclGroup`: without source text there is a warning only. -/
def translateLastDeclGroup (s : TranslatorState) : TranslatorState :=
  match s.lastValueDecl with
  | some last =>
      if getRewrittenText last = [] then s
      else { s with replacements := s.replacements ++ [⟨last, s.declGroupString⟩] }
  | none => s

/-- `translatePointer`. -/
def translatePointer (s : TranslatorState) (valueDecl : ValueDecl) : TranslatorState :=
  if valueDecl.validRange = false then s
  else if s.lastValueDecl.map ValueDecl.start = some valueDecl.start then
    { s with
      lastValueDecl := some valueDecl
      declGroupString :=
        s.declGroupString ++ ",".toList ++ valueDecl.writtenName ++ HandleInit valueDecl }
  else
    { translateLastDeclGroup getRewrittenText s with
      lastValueDecl := some valueDecl
      declGroupString := valueDecl.externText ++
        builder.buildVariable valueDecl ++ HandleInit valueDecl }

/-- The declarations in order, and then the last group. -/
def translate (decls : List ValueDecl) : TranslatorState :=
  translateLastDeclGroup getRewrittenText
    (decls.foldl (translatePointer builder getRewrittenText) .initial)

/-! ## What is to be declared -/

namespace ValueDecl

/-- The specifiers that are written for the variable if it is the first of its group. -/
def specifiers (d : ValueDecl) : Str :=
  d.externText ++ d.staticText ++ getQualifierString d.type.qualifiers ++
    builder.buildType d d.type 0

/-- The initialiser that `HandleInit` writes. -/
def writtenInit (d : ValueDecl) : Option Str :=
  match d.kind with
  | .parm (some init) => some init.text
  | .var _ _ (some init) => if init.text = [] then none else some init.text
  | _ => none

/-- The initialiser of the variable: also that of a field. -/
def ownInit (d : ValueDecl) : Option Str :=
  match d.kind with
  | .field init => init
  | _ => d.writtenInit

/-- The declaration that the variable is to have. -/
def declared (d : ValueDecl) : Declared :=
  ⟨d.specifiers builder, d.writtenName, d.ownInit⟩

/-- What is written for the variable behind the specifiers. -/
def written (d : ValueDecl) : Str × Option Str := (d.writtenName, d.writtenInit)

/-- A field with an initialiser in its class. -/
def hasInClassInit (d : ValueDecl) : Bool :=
  match d.kind with
  | .field (some _) => true
  | _ => false

end ValueDecl

/-- The declarations with a source range, in order. -/
def withRange (decls : List ValueDecl) : List ValueDecl := decls.filter ValueDecl.validRange

/-- The declarations that start at a location: those of one group. -/
def group (decls : List ValueDecl) (start : Nat) : List ValueDecl :=
  (withRange decls).filter fun d => d.start == start

/-- The longest sequences of neighbours with the same start location. -/
def runs (decls : List ValueDecl) : List (List ValueDecl) :=
  (withRange decls).splitBy fun d e => d.start == e.start

/-- The group at the location is rewritten exactly once if it has source text, and the new
text declares its variables. -/
def RewrittenFaithfully (decls : List ValueDecl) (start : Nat) : Prop :=
  ∀ last, (group decls start).getLast? = some last → getRewrittenText last ≠ [] →
    ∃ r, (translate builder getRewrittenText decls).replacements.filter
        (fun r => r.range.start == start) = [r] ∧
      parse r.text = some ((group decls start).map (ValueDecl.declared builder))

/-- Every group is rewritten faithfully. -/
def Faithful (decls : List ValueDecl) : Prop :=
  ∀ start, RewrittenFaithfully builder getRewrittenText decls start

/-- The group can be written with the specifiers of its first variable. -/
structure Uniform (decls : List ValueDecl) (first : ValueDecl) (others : List ValueDecl) :
    Prop where
  neighbours : first :: others ∈ runs decls
  specifiers : ∀ d ∈ others, d.specifiers builder = first.specifiers builder
  inits : ∀ d ∈ first :: others, d.hasInClassInit = false
  wellFormed : WellFormed (first.specifiers builder)
    ((first :: others).map ValueDecl.written)

/-! ## The text of a group -/

theorem handleInit_eq (d : ValueDecl) : HandleInit d = initText d.writtenInit := by
  have hequals : " = ".toList = [' ', '=', ' '] := by simp
  obtain ⟨context, name, qualifiedName, type, start, validRange, kind⟩ := d
  unfold HandleInit ValueDecl.writtenInit Init.text
  cases kind with
  | field init => rfl
  | parm init => cases init <;> simp [initText]
  | var storage isExternC init =>
      cases init with
      | none => rfl
      | some init =>
          by_cases he : init.expression = []
          · by_cases hs : init.source = [] <;> simp [he, hs, initText]
          · simp [he, initText]

/-- The text that the translator collects for a run. -/
def runText : List ValueDecl → Str
  | [] => []
  | first :: others =>
      groupText (first.specifiers builder) first.written (others.map ValueDecl.written)

theorem firstText_eq (d : ValueDecl) :
    d.externText ++ builder.buildVariable d ++ HandleInit d = runText builder [d] := by
  have hspace : " ".toList = [' '] := by simp
  unfold runText groupText Scanner.join Builder.buildVariable ValueDecl.specifiers
    ValueDecl.written declText
  rw [handleInit_eq, hspace]
  simp

theorem runText_concat {cur : List ValueDecl} (hcur : cur ≠ []) (d : ValueDecl) :
    runText builder (cur ++ [d]) =
      runText builder cur ++ ",".toList ++ d.writtenName ++ HandleInit d := by
  have hcomma : ",".toList = [','] := by simp
  cases cur with
  | nil => exact absurd rfl hcur
  | cons first others =>
      unfold runText groupText Scanner.join ValueDecl.written declText
      rw [handleInit_eq, hcomma]
      simp

/-- The replacement of a run, if there is source text. -/
def replacementOf (run : List ValueDecl) : List Replacement :=
  match run.getLast? with
  | some last =>
      if getRewrittenText last = [] then [] else [⟨last, runText builder run⟩]
  | none => []

/-- The state in which the translator is when it has collected a run. -/
def stateOf (s : List ValueDecl × List Replacement) : TranslatorState :=
  ⟨s.1.getLast?, runText builder s.1, s.2⟩

theorem translateLastDeclGroup_stateOf (s : List ValueDecl × List Replacement) :
    (translateLastDeclGroup getRewrittenText (stateOf builder s)).replacements =
      s.2 ++ replacementOf builder getRewrittenText s.1 := by
  unfold translateLastDeclGroup replacementOf stateOf
  cases s.1.getLast? with
  | none => simp
  | some last =>
      dsimp only
      split <;> simp

/-- **The translator collects runs**: one declaration with a range. -/
theorem translatePointer_stateOf (s : List ValueDecl × List Replacement) {d : ValueDecl}
    (hd : d.validRange = true) :
    translatePointer builder getRewrittenText (stateOf builder s) d =
      stateOf builder (collectStep (fun d e => d.start == e.start)
        (replacementOf builder getRewrittenText) s d) := by
  have hvalid : ¬d.validRange = false := by
    rw [hd]
    exact Bool.false_ne_true.symm
  have hlast : (stateOf builder s).lastValueDecl.map ValueDecl.start = some d.start ↔
      s.1.getLast?.any (fun e => e.start == d.start) = true := by
    show s.1.getLast?.map ValueDecl.start = _ ↔ _
    cases s.1.getLast? <;> simp
  unfold translatePointer collectStep
  rw [if_neg hvalid]
  by_cases hsame : s.1.getLast?.any (fun e => e.start == d.start) = true
  · -- a later member of the group: the name and the initialiser only
    have hne : s.1 ≠ [] := by
      intro hnil
      rw [hnil] at hsame
      cases hsame
    rw [if_pos (hlast.mpr hsame), if_pos hsame]
    unfold stateOf
    dsimp only
    rw [runText_concat builder hne, List.getLast?_concat]
  · rw [if_neg fun h => hsame (hlast.mp h), if_neg hsame, firstText_eq]
    dsimp only
    rw [translateLastDeclGroup_stateOf]
    rfl

theorem translate_replacements (decls : List ValueDecl) :
    (translate builder getRewrittenText decls).replacements =
      (runs decls).flatMap (replacementOf builder getRewrittenText) := by
  have hskip : ∀ s : TranslatorState,
      decls.foldl (translatePointer builder getRewrittenText) s =
        (withRange decls).foldl (translatePointer builder getRewrittenText) s := by
    intro s
    rw [withRange, List.foldl_filter]
    congr 1
    funext s d
    cases hd : d.validRange with
    | true => rw [if_pos rfl]
    | false =>
        unfold translatePointer
        rw [if_pos hd, if_neg Bool.false_ne_true]
  -- by induction on the declarations, from any run that was begun
  have hcollect : ∀ (l : List ValueDecl), (∀ d ∈ l, d.validRange = true) → ∀ s,
      l.foldl (translatePointer builder getRewrittenText) (stateOf builder s) =
        stateOf builder
          (l.foldl (collectStep (fun d e => d.start == e.start)
            (replacementOf builder getRewrittenText)) s) := by
    intro l
    induction l with
    | nil => exact fun _ _ => rfl
    | cons d l ih =>
        intro h s
        rw [List.forall_mem_cons] at h
        rw [List.foldl_cons, List.foldl_cons,
          translatePointer_stateOf _ getRewrittenText s h.1, ih h.2]
  have hinitial : TranslatorState.initial = stateOf builder ([], []) := rfl
  unfold translate
  rw [hskip, hinitial, hcollect (withRange decls) (fun d hd => (List.mem_filter.mp hd).2),
    translateLastDeclGroup_stateOf]
  exact collect_eq rfl (withRange decls)

/-! ## Groups and runs -/

theorem start_of_chain {e : ValueDecl} {run : List ValueDecl}
    (h : (e :: run).IsChain fun d e => (d.start == e.start) = true) :
    ∀ d ∈ run, d.start = e.start := by
  induction run generalizing e with
  | nil => exact fun _ hd => absurd hd List.not_mem_nil
  | cons b run ih =>
      obtain ⟨hstart, hrest⟩ := List.isChain_cons_cons.mp h
      have hb : b.start = e.start := (beq_iff_eq.mp hstart).symm
      exact List.forall_mem_cons.mpr ⟨hb, fun d hd => (ih hrest d hd).trans hb⟩

/-- The declarations of a run start at the location of its first. -/
theorem run_start {decls run : List ValueDecl} {e d : ValueDecl} (hrun : e :: run ∈ runs decls)
    (hd : d ∈ e :: run) : d.start = e.start := by
  rcases List.mem_cons.mp hd with rfl | hd
  · rfl
  · exact start_of_chain (List.isChain_of_mem_splitBy hrun) d hd

/-- The runs at a location. -/
def runsAt (decls : List ValueDecl) (start : Nat) : List (List ValueDecl) :=
  (runs decls).filter fun run => run.head?.any (·.start == start)

theorem runsAt_start {decls run : List ValueDecl} (hrun : run ∈ runs decls) {d : ValueDecl}
    (hd : d ∈ run) (start : Nat) :
    (d.start == start) = run.head?.any (·.start == start) := by
  cases run with
  | nil => cases hd
  | cons e run =>
      rw [run_start hrun hd]
      rfl

theorem runsAt_flatten (decls : List ValueDecl) (start : Nat) :
    (runsAt decls start).flatten = group decls start := by
  have hflatten : (runs decls).flatMap id = withRange decls := by
    rw [List.flatMap_id]
    exact List.flatten_splitBy _ _
  unfold group
  rw [← hflatten, filter_flatMap_of (f := id) fun run hrun d hd => runsAt_start hrun hd start,
    List.flatMap_id]
  rfl

theorem replacements_at (decls : List ValueDecl) (start : Nat) :
    (translate builder getRewrittenText decls).replacements.filter
        (fun r => r.range.start == start) =
      (runsAt decls start).flatMap (replacementOf builder getRewrittenText) := by
  rw [translate_replacements, filter_flatMap_of]
  · rfl
  · intro run hrun r hr
    unfold replacementOf at hr
    cases hlast : run.getLast? with
    | none => simp [hlast] at hr
    | some last =>
        simp only [hlast] at hr
        split at hr
        · cases hr
        · obtain rfl := List.mem_singleton.mp hr
          exact runsAt_start hrun (List.mem_of_getLast? hlast) start

/-- Where a group consists of neighbours, it is the only run at its location. -/
theorem runsAt_eq_singleton {decls : List ValueDecl} {start : Nat}
    (h : group decls start ∈ runs decls) (hne : group decls start ≠ []) :
    runsAt decls start = [group decls start] := by
  have hstart : (group decls start).head?.any (·.start == start) = true := by
    cases hg : group decls start with
    | nil => exact absurd hg hne
    | cons d others =>
        have hd : d ∈ group decls start := hg ▸ List.mem_cons_self
        exact (List.mem_filter.mp hd).2
  have hmem : group decls start ∈ runsAt decls start := List.mem_filter.mpr ⟨h, hstart⟩
  obtain ⟨before, after, heq⟩ := List.append_of_mem hmem
  have hflatten := congrArg List.length (runsAt_flatten decls start)
  have hnone : ∀ l : List (List ValueDecl), l ⊆ runsAt decls start → l.flatten.length = 0 →
      l = [] := by
    intro l hl hlen
    refine List.eq_nil_iff_forall_not_mem.mpr fun run hrun => ?_
    have hrun' := (List.mem_filter.mp (hl hrun)).1
    refine List.ne_nil_of_mem_splitBy hrun' ?_
    exact List.flatten_eq_nil_iff.mp (List.length_eq_zero_iff.mp hlen) run hrun
  rw [heq, List.flatten_append, List.flatten_cons, List.length_append, List.length_append]
    at hflatten
  have hbefore := hnone before (by rw [heq]; exact List.subset_append_left _ _) (by omega)
  have hafter := hnone after (fun run hrun => by
    rw [heq]
    exact List.mem_append_right _ (List.mem_cons_of_mem _ hrun)) (by omega)
  rw [heq, hbefore, hafter]
  rfl

/-! ## The main result -/

/-- The length of the text of a group is that of the specifiers and the declarators. -/
def weight (d : Str × Option Str) : Nat := (declText d).length + 1

theorem length_groupText (specifiers : Str) (first : Str × Option Str)
    (others : List (Str × Option Str)) :
    (groupText specifiers first others).length =
      specifiers.length + ((first :: others).map weight).sum := by
  unfold groupText
  rw [Scanner.length_join, List.map_map]
  simp only [List.length_append, List.length_cons, List.map_cons, List.sum_cons]
  have hothers : (others.map ((fun q => q.length + 1) ∘ declText)).sum = (others.map weight).sum :=
    rfl
  rw [hothers, weight]
  omega

namespace ValueDecl

/-- The variable's name and its own initialiser. -/
def own (d : ValueDecl) : Str × Option Str := (d.writtenName, d.ownInit)

theorem written_eq_own {d : ValueDecl} (h : d.hasInClassInit = false) : d.written = d.own := by
  obtain ⟨context, name, qualifiedName, type, start, validRange, kind⟩ := d
  cases kind with
  | field init =>
      cases init with
      | none => rfl
      | some e => cases h
  | _ => rfl

/-- An initialiser in the class is missing in the text. -/
theorem weight_written_lt {d : ValueDecl} (h : d.hasInClassInit = true) :
    weight d.written < weight d.own := by
  obtain ⟨context, name, qualifiedName, type, start, validRange, kind⟩ := d
  cases kind with
  | field init =>
      cases init with
      | none => cases h
      | some e => simp [weight, declText, written, own, writtenInit, ownInit, initText, writtenName]
  | _ => cases h

theorem weight_written_le (d : ValueDecl) : weight d.written ≤ weight d.own := by
  cases h : d.hasInClassInit with
  | false => rw [written_eq_own h]
  | true => exact (weight_written_lt h).le

end ValueDecl

theorem length_le_sum_weight (l : List ValueDecl) :
    l.length ≤ (l.map fun d => weight d.own).sum := by
  induction l with
  | nil => exact le_rfl
  | cons d l ih =>
      have hpos : 0 < weight d.own := Nat.succ_pos _
      rw [List.length_cons, List.map_cons, List.sum_cons]
      omega

theorem length_runText (run : List ValueDecl) {specifiers : Str}
    (h : ∀ d ∈ run, d.specifiers builder = specifiers) (hne : run ≠ []) :
    (runText builder run).length =
      specifiers.length + (run.map fun d => weight d.written).sum := by
  cases run with
  | nil => exact absurd rfl hne
  | cons e es =>
      rw [runText, length_groupText, h e List.mem_cons_self, ← List.map_cons, List.map_map]
      rfl

/-- What the text of a run declares, if it is the declarations of a group that ends with the
run: the run is the whole group, and nothing is missing. -/
theorem run_of_parse {before run group : List ValueDecl} (hgroup : before ++ run = group)
    (hne : run ≠ [])
    (hparse : parse (runText builder run) = some (group.map (ValueDecl.declared builder))) :
    before = [] ∧ ∃ specifiers, (∀ d ∈ group, d.specifiers builder = specifiers) ∧
      (∀ d ∈ group, d.hasInClassInit = false) ∧
        WellFormed specifiers (group.map ValueDecl.written) := by
  obtain ⟨specifiers, first, others, hdeclared, htext, hwf⟩ := parse_eq_some_iff.mp hparse
  have hspec : ∀ d ∈ group, d.specifiers builder = specifiers := by
    intro d hd
    have hmem : d.declared builder ∈ group.map (ValueDecl.declared builder) :=
      List.mem_map_of_mem hd
    rw [hdeclared] at hmem
    obtain ⟨x, -, hx⟩ := List.mem_map.mp hmem
    exact (congrArg Declared.specifiers hx).symm
  have hown : group.map ValueDecl.own = first :: others := by
    have := congrArg (List.map fun D : Declared => (D.name, D.init)) hdeclared
    rw [List.map_map, List.map_map] at this
    exact this.trans (List.map_id _)
  -- the text is as long as that of the whole group with all its initialisers, so that no
  -- declaration is missing in front and no initialiser is
  have hlength := congrArg List.length htext
  rw [length_runText builder run (fun d hd => hspec d (hgroup ▸ List.mem_append_right _ hd)) hne,
    length_groupText, ← hown, ← hgroup, List.map_append, List.map_append, List.sum_append,
    List.map_map, List.map_map] at hlength
  have hsum := List.sum_le_sum fun d (_ : d ∈ run) => d.weight_written_le
  have hbefore : before = [] := by
    have hle := length_le_sum_weight before
    refine List.eq_nil_of_length_eq_zero ?_
    unfold Function.comp at hlength
    omega
  subst hbefore
  rw [List.nil_append] at hgroup
  subst hgroup
  have heq := eq_of_sum_map_le (fun d (_ : d ∈ run) => d.weight_written_le) (by
    unfold Function.comp at hlength
    rw [List.map_nil, List.sum_nil] at hlength
    omega)
  have hclass : ∀ d ∈ run, d.hasInClassInit = false := by
    intro d hd
    cases hinit : d.hasInClassInit with
    | false => rfl
    | true => exact absurd (heq d hd) (ValueDecl.weight_written_lt hinit).ne
  refine ⟨rfl, specifiers, hspec, hclass, ?_⟩
  rw [List.map_congr_left fun d hd => ValueDecl.written_eq_own (hclass d hd), hown]
  exact hwf

/-- The text of a uniform group declares it. -/
theorem parse_runText {decls : List ValueDecl} {first : ValueDecl} {others : List ValueDecl}
    (h : Uniform builder decls first others) :
    parse (runText builder (first :: others)) =
      some ((first :: others).map (ValueDecl.declared builder)) := by
  have hdeclared : (first :: others).map (ValueDecl.declared builder) =
      ((first :: others).map ValueDecl.written).map
        fun d => ⟨first.specifiers builder, d.1, d.2⟩ := by
    rw [List.map_map]
    refine List.map_congr_left fun d hd => ?_
    have hspec : d.specifiers builder = first.specifiers builder := by
      rcases List.mem_cons.mp hd with rfl | hd
      · rfl
      · exact h.specifiers d hd
    have hown := ValueDecl.written_eq_own (h.inits d hd)
    show Declared.mk (d.specifiers builder) d.own.1 d.own.2 =
      ⟨first.specifiers builder, d.written.1, d.written.2⟩
    rw [hspec, hown]
  rw [hdeclared]
  exact parse_groupText h.wellFormed

/-- The replacement of a run with source text. -/
theorem replacementOf_eq {run : List ValueDecl} {last : ValueDecl}
    (hlast : run.getLast? = some last) (htext : getRewrittenText last ≠ []) :
    replacementOf builder getRewrittenText run = [⟨last, runText builder run⟩] := by
  unfold replacementOf
  rw [hlast]
  exact if_neg htext

/-- A group with source text that is rewritten faithfully is uniform. -/
theorem uniform_of_rewritten {decls : List ValueDecl} {first : ValueDecl}
    {others : List ValueDecl} (hgroup : group decls first.start = first :: others)
    {last : ValueDecl} (hlast : (first :: others).getLast? = some last)
    (htext : getRewrittenText last ≠ [])
    (h : RewrittenFaithfully builder getRewrittenText decls first.start) :
    Uniform builder decls first others := by
  obtain ⟨r, hr, hparse⟩ := h last (hgroup ▸ hlast) htext
  rw [replacements_at] at hr
  rw [hgroup] at hparse
  -- the last run at the location ends with the last declaration of the group
  have hflatten := (runsAt_flatten decls first.start).trans hgroup
  have hruns : runsAt decls first.start ≠ [] := by
    intro hnil
    rw [hnil] at hflatten
    cases hflatten
  obtain ⟨earlier, run, heq⟩ : ∃ earlier run, runsAt decls first.start = earlier ++ [run] :=
    ⟨_, _, (List.dropLast_concat_getLast hruns).symm⟩
  have hrun : run ∈ runs decls := by
    have hmem : run ∈ runsAt decls first.start := by
      rw [heq]
      exact List.mem_append_right _ List.mem_cons_self
    exact (List.mem_filter.mp hmem).1
  have hne : run ≠ [] := List.ne_nil_of_mem_splitBy hrun
  rw [heq, List.flatten_append, List.flatten_singleton] at hflatten
  have hrunLast : run.getLast? = some last := by
    rw [← hlast, ← hflatten, List.getLast?_append_of_ne_nil _ hne]
  -- its replacement is the only one, and it declares the whole group
  rw [heq, List.flatMap_append, List.flatMap_singleton,
    replacementOf_eq builder getRewrittenText hrunLast htext] at hr
  obtain ⟨-, hr⟩ := List.append_inj' (hr.trans (List.nil_append [r]).symm) rfl
  obtain rfl := List.head_eq_of_cons_eq hr
  obtain ⟨hnil, specifiers, hspec, hclass, hwf⟩ := run_of_parse builder hflatten hne hparse
  rw [hnil, List.nil_append] at hflatten
  have hfirst := hspec first List.mem_cons_self
  refine ⟨hflatten ▸ hrun, fun d hd => ?_, hclass, hfirst ▸ hwf⟩
  exact (hspec d (List.mem_cons_of_mem _ hd)).trans hfirst.symm

/-- A uniform group with source text has one replacement, which declares it. -/
theorem rewritten_of_uniform {decls : List ValueDecl} {start : Nat} {first : ValueDecl}
    {others : List ValueDecl} (hgroup : group decls start = first :: others)
    (h : Uniform builder decls first others) :
    RewrittenFaithfully builder getRewrittenText decls start := by
  intro last hlast htext
  have hneighbours : group decls start ∈ runs decls := hgroup ▸ h.neighbours
  rw [hgroup] at hlast ⊢
  refine ⟨⟨last, runText builder (first :: others)⟩, ?_, parse_runText builder h⟩
  rw [replacements_at, runsAt_eq_singleton hneighbours (by simp [hgroup]), hgroup,
    List.flatMap_singleton]
  exact replacementOf_eq builder getRewrittenText hlast htext

/-- **When a group is rewritten faithfully.** -/
theorem faithful_at_iff (decls : List ValueDecl) (start : Nat) :
    RewrittenFaithfully builder getRewrittenText decls start ↔
      ∀ first others, group decls start = first :: others →
        (∀ last, (first :: others).getLast? = some last → getRewrittenText last ≠ []) →
        Uniform builder decls first others := by
  constructor
  · intro h first others hgroup htext
    have hmem : first ∈ group decls start := hgroup ▸ List.mem_cons_self
    obtain rfl : first.start = start := beq_iff_eq.mp (List.mem_filter.mp hmem).2
    have hlast := List.getLast?_eq_some_getLast (List.cons_ne_nil first others)
    exact uniform_of_rewritten builder getRewrittenText hgroup hlast (htext _ hlast) h
  · intro h last hlast htext
    cases hgroup : group decls start with
    | nil =>
        rw [hgroup] at hlast
        cases hlast
    | cons first others =>
        have huniform := h first others hgroup fun last' hlast' => by
          rw [← hgroup, hlast] at hlast'
          cases hlast'
          exact htext
        rw [← hgroup]
        exact rewritten_of_uniform builder getRewrittenText hgroup huniform last hlast htext

/-- **When every group is rewritten faithfully.** -/
theorem faithful_iff (decls : List ValueDecl) :
    Faithful builder getRewrittenText decls ↔
      ∀ start first others, group decls start = first :: others →
        (∀ last, (first :: others).getLast? = some last → getRewrittenText last ≠ []) →
        Uniform builder decls first others := by
  unfold Faithful
  exact forall_congr' fun start => faithful_at_iff builder getRewrittenText decls start

end

/-! ## A group with two types -/

/-- `int`, without qualifiers. -/
def intType : QualType := .other ⟨false, false, false⟩ "int".toList false

/-- A pointer to the type. -/
def pointerTo (pointee : QualType) : QualType := .pointer ⟨false, false, false⟩ pointee

/-- The global variable of this name and type in a declaration at the start of the file. -/
def globalAt (name : Str) (type : QualType) : ValueDecl :=
  ⟨[], name, name, type, 0, true, .var .other false none⟩

/-- Every pointer is a singleton. -/
def singletons : Builder := ⟨"ptr".toList, "aptr".toList, fun _ _ => true⟩

/-- `int * a, ** b;` -/
def starAndTwoStars : List ValueDecl :=
  [globalAt ['a'] (pointerTo intType), globalAt ['b'] (pointerTo (pointerTo intType))]

/-- `int * a, ** b;` becomes `ptr< int > a,b`: the text gives `b` the type of `a`. -/
theorem starAndTwoStars_not_faithful : ¬Faithful singletons ValueDecl.name starAndTwoStars := by
  intro h
  have huniform := (faithful_at_iff singletons ValueDecl.name starAndTwoStars 0).mp (h 0) _ _ rfl
    fun last hlast => by
      cases hlast
      exact List.cons_ne_nil _ _
  have hspec := congrArg List.length (huniform.specifiers _ List.mem_cons_self)
  revert hspec
  decide +kernel

end Ironclad.Translator
