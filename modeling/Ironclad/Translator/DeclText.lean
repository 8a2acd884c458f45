import Mathlib.Data.List.Forall2
import Mathlib.Data.List.TakeWhile
import Ironclad.Logic.Scanner

/-!
# The text of a declaration group

What the text `specifiers name = init, name = init, …` declares. Brackets and literals are
kept together: a comma or an equals sign inside them is part of the specifiers or of the
initialiser. An angle bracket opens after a word only, as templates and comparisons are
printed. `parse_eq_some_iff` says that reading such a text undoes writing it.
-/

namespace Ironclad.Translator

open Ironclad.Logic

/-- A string, as its characters. -/
abbrev Str := List Char

inductive Quote where
  | double | single
  deriving DecidableEq

/-- `"` and the apostrophe. -/
def Quote.char : Quote → Char
  | .double => Char.ofNat 34
  | .single => Char.ofNat 39

/-- The quote that opens a literal. -/
def quoteOf (c : Char) : Option Quote :=
  if c = Quote.double.char then some .double
  else if c = Quote.single.char then some .single
  else none

/-- The open brackets, innermost first, the last character, and the quote of the literal
that is open, with whether a backslash came right before. -/
structure Lex where
  stack : Str
  prev : Char
  quote : Option (Quote × Bool)
  deriving DecidableEq

def openers : Str := ['(', '[', '{']

/-- The bracket that a closing one belongs to. -/
def openerOf : Char → Option Char
  | ')' => some '('
  | ']' => some '['
  | '}' => some '{'
  | _ => none

/-- The brackets that stay open after a closing one: an angle bracket inside was a
comparison. -/
def closeBracket (opener : Char) : Str → Option Str
  | [] => none
  | b :: stack =>
      if b = opener then some stack
      else if b = '<' then closeBracket opener stack
      else none

def isWord (c : Char) : Bool := c.isAlphanum || c == '_'

def Lex.step (s : Lex) (c : Char) : Option Lex :=
  match s.quote with
  | some (q, escaped) =>
      if escaped then some { s with prev := c, quote := some (q, false) }
      else if c = q.char then some { s with prev := c, quote := none }
      else some { s with prev := c, quote := some (q, c == Char.ofNat 92) }
  | none => match quoteOf c, openerOf c with
    | some q, _ => some { s with prev := c, quote := some (q, false) }
    | none, some opener =>
        (closeBracket opener s.stack).map fun stack => { s with prev := c, stack := stack }
    | none, none =>
        if c ∈ openers ∨ c = '<' ∧ isWord s.prev = true then
          some { s with prev := c, stack := c :: s.stack }
        else if c = '>' ∧ s.stack.head? = some '<' ∧ s.prev ≠ '-' then
          some { s with prev := c, stack := s.stack.tail }
        else some { s with prev := c }

def cxx : Scanner Char Lex where
  start := ⟨[], ' ', none⟩
  step := Lex.step
  isTop s := s.stack.isEmpty && s.quote.isNone

/-- One declared variable: the specifiers and the initialiser as they are written. -/
structure Declared where
  specifiers : Str
  name : Str
  init : Option Str
  deriving DecidableEq, Repr

/-! ## Writing -/

def initText : Option Str → Str
  | none => []
  | some e => ' ' :: '=' :: ' ' :: e

def declText (d : Str × Option Str) : Str := d.1 ++ initText d.2

/-- `specifiers name = init,name = init,…`. -/
def groupText (specifiers : Str) (first : Str × Option Str) (others : List (Str × Option Str)) :
    Str :=
  Scanner.join ',' (specifiers ++ ' ' :: declText first) (others.map declText)

/-! ## Reading -/

/-- The characters that are in no name. -/
def specials : Str :=
  [Quote.double.char, Quote.single.char] ++ openers ++ [')', ']', '}', '<', '>', ',', '=', ' ']

def isName (name : Str) : Bool := !name.isEmpty && name.all fun c => !specials.contains c

/-- What is before the initialiser, and the initialiser. -/
def readDeclarator (piece : Str) : Option (Str × Option Str) :=
  match cxx.cut '=' cxx.start piece with
  | some (head, none) => some (head, none)
  | some (head, some (' ' :: e)) =>
      if head.getLast? = some ' ' then some (head.dropLast, some e) else none
  | _ => none

def readNamed (piece : Str) : Option (Str × Option Str) :=
  (readDeclarator piece).filter fun d => isName d.1

/-- The specifiers and the name, which is behind the last space. -/
def splitName (head : Str) : Option (Str × Str) :=
  match head.reverse.dropWhile (· != ' ') with
  | [] => none
  | _ :: specifiers => some (specifiers.reverse, (head.reverse.takeWhile (· != ' ')).reverse)

/-- What a declaration declares. -/
def parse (text : Str) : Option (List Declared) :=
  (cxx.split ',' cxx.start text).bind fun pieces =>
    (readDeclarator pieces.1).bind fun first =>
      (splitName first.1).bind fun head =>
        if isName head.2 then
          (pieces.2.mapM readNamed).map fun others =>
            ⟨head.1, head.2, first.2⟩ :: others.map fun d => ⟨head.1, d.1, d.2⟩
        else none

/-! ## The scanner -/

theorem cxx_isTop_iff {s : Lex} : cxx.isTop s = true ↔ ∃ p, s = ⟨[], p, none⟩ := by
  obtain ⟨stack, prev, quote⟩ := s
  simp [cxx]

/-- The character neither opens nor closes a bracket or a literal. -/
structure Plain (c : Char) : Prop where
  quote : quoteOf c = none
  closer : openerOf c = none
  opener : c ∉ openers
  lt : c ≠ '<'
  gt : c ≠ '>'

theorem plain_space : Plain ' ' := ⟨rfl, rfl, by decide, by decide, by decide⟩

theorem plain_equals : Plain '=' := ⟨rfl, rfl, by decide, by decide, by decide⟩

theorem plain_of_not_special {c : Char} (hc : c ∉ specials) : Plain c := by
  simp only [specials, List.mem_append, not_or, List.mem_cons, List.not_mem_nil] at hc
  obtain ⟨⟨hq, ho⟩, hr⟩ := hc
  refine ⟨?_, ?_, ho, hr.2.2.2.1, hr.2.2.2.2.1⟩
  · unfold quoteOf
    rw [if_neg hq.1, if_neg hq.2.1]
  · unfold openerOf
    split <;> simp_all

/-- On the top level a plain character is only remembered. -/
theorem step_plain {s : Lex} {c : Char} (hs : cxx.isTop s = true) (hc : Plain c) :
    cxx.step s c = some ⟨[], c, none⟩ := by
  obtain ⟨p, rfl⟩ := cxx_isTop_iff.mp hs
  show Lex.step ⟨[], p, none⟩ c = _
  unfold Lex.step
  rw [hc.quote, hc.closer]
  dsimp only
  rw [if_neg fun h => h.elim hc.opener fun h => hc.lt h.1, if_neg fun h => hc.gt h.1]

/-- A space on the top level leads back to the start. -/
theorem step_space {s : Lex} (hs : cxx.isTop s = true) : cxx.step s ' ' = some cxx.start :=
  step_plain hs plain_space

/-- A plain character does not lead to the top level. -/
theorem isTop_of_plain {s s' : Lex} {c : Char} (hc : Plain c) (h : cxx.step s c = some s')
    (hs' : cxx.isTop s' = true) : cxx.isTop s = true := by
  obtain ⟨p, rfl⟩ := cxx_isTop_iff.mp hs'
  obtain ⟨stack, prev, quote⟩ := s
  replace h : Lex.step ⟨stack, prev, quote⟩ c = some ⟨[], p, none⟩ := h
  unfold Lex.step at h
  cases quote with
  | none =>
      dsimp only at h
      rw [hc.quote, hc.closer] at h
      dsimp only at h
      rw [if_neg fun h => h.elim hc.opener fun h => hc.lt h.1, if_neg fun h => hc.gt h.1] at h
      cases h
      rfl
  | some q =>
      -- a literal is left by its quote only
      obtain ⟨q, escaped⟩ := q
      have hq : c ≠ q.char := by
        rintro rfl
        have := hc.quote
        cases q <;> cases this
      dsimp only at h
      rw [if_neg hq] at h
      split at h <;> cases h

/-! ## Names, initialisers and specifiers -/

theorem isName_iff {name : Str} :
    isName name = true ↔ name ≠ [] ∧ ∀ c ∈ name, c ∉ specials := by
  simp [isName]

/-- A name is read on the top level. -/
theorem closes_name {sep : Char} (hsep : sep ∈ specials) {s : Lex} (hs : cxx.isTop s = true)
    {name : Str} (hname : ∀ c ∈ name, c ∉ specials) :
    cxx.Closes sep s name ∧ ∃ s', cxx.read s name = some s' ∧ cxx.isTop s' = true := by
  induction name generalizing s with
  | nil => exact ⟨hs, s, rfl, hs⟩
  | cons c name ih =>
      obtain ⟨p, rfl⟩ := cxx_isTop_iff.mp hs
      rw [List.forall_mem_cons] at hname
      obtain ⟨hclose, s', hread, htop⟩ := ih (s := ⟨[], c, none⟩) rfl hname.2
      have hstep := step_plain (s := ⟨[], p, none⟩) rfl (plain_of_not_special hname.1)
      refine ⟨⟨?_, _, hstep, hclose⟩, s', ?_, htop⟩
      · rintro ⟨rfl, -⟩
        exact hname.1 hsep
      · exact Option.bind_eq_some_iff.mpr ⟨_, hstep, hread⟩

/-- An initialiser: no comma on the top level. -/
def IsInit (e : Str) : Prop := cxx.Closes ',' cxx.start e

/-- Specifiers: neither a comma nor an equals sign on the top level. -/
def IsSpecifiers (t : Str) : Prop := cxx.Closes ',' cxx.start t ∧ cxx.Closes '=' cxx.start t

/-- What is written behind a name closes if the initialiser does. -/
theorem closes_initText {s : Lex} (hs : cxx.isTop s = true) (init : Option Str) :
    cxx.Closes ',' s (initText init) ↔ ∀ e, init = some e → IsInit e := by
  cases init with
  | none => exact ⟨fun _ _ h => (nomatch h), fun _ => hs⟩
  | some e =>
      show cxx.Closes ',' s (' ' :: '=' :: ' ' :: e) ↔ _
      rw [Scanner.closes_cons (by decide) (step_space hs),
        Scanner.closes_cons (by decide) (step_plain rfl plain_equals),
        Scanner.closes_cons (by decide) (step_space rfl)]
      exact ⟨fun h _ he => Option.some.inj he ▸ h, fun h => h e rfl⟩

theorem closes_declText {name : Str} (hname : isName name = true) (init : Option Str) :
    cxx.Closes ',' cxx.start (declText (name, init)) ↔ ∀ e, init = some e → IsInit e := by
  have hcomma : ',' ∈ specials := by decide
  have hstart : cxx.isTop cxx.start = true := rfl
  obtain ⟨hclose, s', hread, htop⟩ := closes_name hcomma hstart (isName_iff.mp hname).2
  rw [← closes_initText htop]
  constructor
  · intro h
    exact (Scanner.Closes.of_append h hread htop).2
  · exact Scanner.closes_append hclose hread

theorem closes_space {head : Str} :
    cxx.Closes '=' cxx.start (head ++ [' ']) ↔ cxx.Closes '=' cxx.start head := by
  constructor
  · intro h
    obtain ⟨s', hread, hspace⟩ := h.append_left
    obtain ⟨-, s'', hstep, htop⟩ := hspace
    exact (Scanner.Closes.of_append h hread (isTop_of_plain plain_space hstep htop)).1
  · intro h
    obtain ⟨s', hread, htop⟩ := h.read
    refine Scanner.closes_append h hread ?_
    exact (Scanner.closes_cons (by decide) (step_space htop)).mpr rfl

theorem declText_some (name e : Str) :
    declText (name, some e) = name ++ [' '] ++ '=' :: ' ' :: e := by
  unfold declText initText
  simp

/-- Reading one declarator undoes writing it. -/
theorem readDeclarator_eq_some_iff {piece : Str} {d : Str × Option Str} :
    readDeclarator piece = some d ↔ cxx.Closes '=' cxx.start d.1 ∧ piece = declText d := by
  obtain ⟨head, init⟩ := d
  constructor
  · intro h
    unfold readDeclarator at h
    split at h
    · rename_i hcut
      cases h
      obtain ⟨hclose, rfl⟩ := Scanner.cut_eq_some_iff.mp hcut
      exact ⟨hclose, rfl⟩
    · rename_i before e hcut
      obtain ⟨hlast, h⟩ := Option.ite_none_right_eq_some.mp h
      cases h
      obtain ⟨hclose, rfl⟩ := Scanner.cut_eq_some_iff.mp hcut
      have hbefore : before = before.dropLast ++ [' '] := by
        rw [List.getLast?_eq_some_iff] at hlast
        obtain ⟨ys, rfl⟩ := hlast
        rw [List.dropLast_concat]
      refine ⟨closes_space.mp (hbefore ▸ hclose), ?_⟩
      rw [declText_some, ← hbefore]
      rfl
    · cases h
  · rintro ⟨hclose, rfl⟩
    unfold readDeclarator
    cases init with
    | none =>
        have hcut : cxx.cut '=' cxx.start (declText (head, none)) = some (head, none) :=
          Scanner.cut_eq_some_iff.mpr ⟨hclose, rfl⟩
        rw [hcut]
    | some e =>
        -- the cut is at the equals sign that was written
        have hcut : cxx.cut '=' cxx.start (declText (head, some e)) =
            some (head ++ [' '], some (' ' :: e)) :=
          Scanner.cut_eq_some_iff.mpr ⟨closes_space.mpr hclose, declText_some head e⟩
        rw [hcut]
        refine (if_pos List.getLast?_concat).trans ?_
        rw [List.dropLast_concat]

theorem readNamed_eq_some_iff {piece : Str} {d : Str × Option Str} :
    readNamed piece = some d ↔ isName d.1 = true ∧ piece = declText d := by
  unfold readNamed
  rw [Option.filter_eq_some_iff, readDeclarator_eq_some_iff]
  constructor
  · rintro ⟨⟨-, hpiece⟩, hname⟩
    exact ⟨hname, hpiece⟩
  · rintro ⟨hname, hpiece⟩
    exact ⟨⟨(closes_name (by decide) rfl (isName_iff.mp hname).2).1, hpiece⟩, hname⟩

theorem splitName_eq_some_iff {head specifiers name : Str} :
    splitName head = some (specifiers, name) ↔ head = specifiers ++ ' ' :: name ∧ ' ' ∉ name := by
  have hsplit := List.takeWhile_append_dropWhile (p := (· != ' ')) (l := head.reverse)
  constructor
  · intro h
    unfold splitName at h
    split at h
    · cases h
    · rename_i c rest hdrop
      cases h
      -- what is dropped from the end stops at a space
      have hc : c = ' ' := by
        have := List.head_dropWhile_not (· != ' ') (l := head.reverse) (by rw [hdrop]; simp)
        simpa [hdrop] using this
      subst hc
      constructor
      · rw [hdrop] at hsplit
        have := congrArg List.reverse hsplit
        rw [List.reverse_append, List.reverse_cons, List.reverse_reverse] at this
        rw [List.append_assoc] at this
        exact this.symm
      · intro hmem
        have := List.mem_takeWhile_imp (List.mem_reverse.mp hmem)
        simp at this
  · rintro ⟨rfl, hname⟩
    have hall : ∀ c ∈ name.reverse, (c != ' ') = true := by
      intro c hc
      rw [bne_iff_ne]
      rintro rfl
      exact hname (List.mem_reverse.mp hc)
    have hrev : (specifiers ++ ' ' :: name).reverse =
        name.reverse ++ ' ' :: specifiers.reverse := by
      simp
    unfold splitName
    rw [hrev, List.dropWhile_append_of_pos hall, List.takeWhile_append_of_pos hall]
    simp

/-- A name does not lead to the top level. -/
theorem isTop_of_name {sep : Char} {name : Str} (hname : ∀ c ∈ name, c ∉ specials) {s : Lex}
    (h : cxx.Closes sep s name) : cxx.isTop s = true := by
  induction name generalizing s with
  | nil => exact h
  | cons c name ih =>
      rw [List.forall_mem_cons] at hname
      obtain ⟨-, s', hstep, h⟩ := h
      exact isTop_of_plain (plain_of_not_special hname.1) hstep (ih hname.2 h)

/-- The head of the first declarator: the specifiers, a space and the name. -/
theorem closes_head {specifiers name : Str} (hname : isName name = true) {sep : Char}
    (hsep : sep ∈ specials) (hne : sep ≠ ' ') :
    cxx.Closes sep cxx.start (specifiers ++ ' ' :: name) ↔ cxx.Closes sep cxx.start specifiers := by
  have hplain := (isName_iff.mp hname).2
  constructor
  · intro h
    obtain ⟨s', hread, hspace⟩ := h.append_left
    obtain ⟨-, t, hstep, hrest⟩ := hspace
    have htop := isTop_of_plain plain_space hstep (isTop_of_name hplain hrest)
    exact (Scanner.Closes.of_append h hread htop).1
  · intro h
    obtain ⟨s', hread, htop⟩ := h.read
    refine Scanner.closes_append h hread ?_
    exact (Scanner.closes_cons hne.symm (step_space htop)).mpr (closes_name hsep rfl hplain).1

theorem mapM_readNamed_eq_some_iff {pieces : List Str} {ds : List (Str × Option Str)} :
    pieces.mapM readNamed = some ds ↔
      pieces = ds.map declText ∧ ∀ d ∈ ds, isName d.1 = true := by
  induction pieces generalizing ds with
  | nil =>
      rw [List.mapM_nil]
      constructor
      · intro h
        cases h
        exact ⟨rfl, fun _ hd => absurd hd List.not_mem_nil⟩
      · rintro ⟨h, -⟩
        rw [List.map_eq_nil_iff.mp h.symm]
        rfl
  | cons piece pieces ih =>
      rw [List.mapM_cons]
      constructor
      · intro h
        obtain ⟨d, hd, h⟩ := Option.bind_eq_some_iff.mp h
        obtain ⟨rest, hrest, h⟩ := Option.bind_eq_some_iff.mp h
        cases h
        obtain ⟨hname, rfl⟩ := readNamed_eq_some_iff.mp hd
        obtain ⟨rfl, hnames⟩ := ih.mp hrest
        exact ⟨rfl, List.forall_mem_cons.mpr ⟨hname, hnames⟩⟩
      · rintro ⟨h, hnames⟩
        cases ds with
        | nil => cases h
        | cons d rest =>
            obtain ⟨rfl, rfl⟩ := List.cons.inj h
            rw [List.forall_mem_cons] at hnames
            rw [readNamed_eq_some_iff.mpr ⟨hnames.1, rfl⟩, ih.mpr ⟨rfl, hnames.2⟩]
            rfl

/-- The first declarator, with the specifiers. -/
theorem declText_head (specifiers : Str) (d : Str × Option Str) :
    declText (specifiers ++ ' ' :: d.1, d.2) = specifiers ++ ' ' :: declText d :=
  List.append_assoc _ _ _

/-- The parts of a declaration are written as they have to be. -/
structure WellFormed (specifiers : Str) (ds : List (Str × Option Str)) : Prop where
  specifiers : IsSpecifiers specifiers
  names : ∀ d ∈ ds, isName d.1 = true
  inits : ∀ d ∈ ds, ∀ e, d.2 = some e → IsInit e

/-- What is read was written so. -/
theorem text_of_parse {text : Str} {declared : List Declared} (h : parse text = some declared) :
    ∃ specifiers first others,
      declared = (first :: others).map (fun d => ⟨specifiers, d.1, d.2⟩) ∧
        text = groupText specifiers first others ∧ WellFormed specifiers (first :: others) := by
  obtain ⟨⟨piece, pieces⟩, hsplit, h⟩ := Option.bind_eq_some_iff.mp h
  obtain ⟨⟨head, init⟩, hfirst, h⟩ := Option.bind_eq_some_iff.mp h
  obtain ⟨⟨specifiers, name⟩, hhead, h⟩ := Option.bind_eq_some_iff.mp h
  obtain ⟨hname, h⟩ := Option.ite_none_right_eq_some.mp h
  obtain ⟨others, hothers, h⟩ := Option.map_eq_some_iff.mp h
  cases h
  obtain ⟨hclose, rfl⟩ := Scanner.split_eq_some_iff.mp hsplit
  obtain ⟨hheadClose, rfl⟩ := readDeclarator_eq_some_iff.mp hfirst
  obtain ⟨rfl, -⟩ := splitName_eq_some_iff.mp hhead
  obtain ⟨rfl, hnames⟩ := mapM_readNamed_eq_some_iff.mp hothers
  rw [declText_head specifiers (name, init), List.forall_mem_cons] at hclose
  have hequals := (closes_head hname (by decide) (by decide)).mp hheadClose
  -- behind the specifiers the scanner is on the top level again
  obtain ⟨s', hread, htop⟩ := hequals.read
  obtain ⟨hcomma, hspace⟩ := Scanner.Closes.of_append hclose.1 hread htop
  have hdecl := (Scanner.closes_cons (by decide) (step_space htop)).mp hspace
  refine ⟨specifiers, (name, init), others, ?_, ?_, ⟨hcomma, hequals⟩, ?_, ?_⟩
  · rfl
  · rw [groupText, ← declText_head]
  · exact List.forall_mem_cons.mpr ⟨hname, hnames⟩
  · rw [List.forall_mem_cons]
    refine ⟨(closes_declText hname init).mp hdecl, fun d hd => ?_⟩
    exact (closes_declText (hnames d hd) d.2).mp (hclose.2 _ (List.mem_map_of_mem hd))

/-- What is well formed is read as it was written. -/
theorem parse_groupText {specifiers : Str} {first : Str × Option Str}
    {others : List (Str × Option Str)} (h : WellFormed specifiers (first :: others)) :
    parse (groupText specifiers first others) =
      some ((first :: others).map fun d => ⟨specifiers, d.1, d.2⟩) := by
  obtain ⟨⟨hcomma, hequals⟩, hnames, hinits⟩ := h
  rw [List.forall_mem_cons] at hnames hinits
  obtain ⟨s', hread, htop⟩ := hcomma.read
  have hsplit : cxx.split ',' cxx.start (groupText specifiers first others) =
      some (declText (specifiers ++ ' ' :: first.1, first.2), others.map declText) := by
    rw [declText_head]
    refine Scanner.split_eq_some_iff.mpr ⟨List.forall_mem_cons.mpr ⟨?_, ?_⟩, rfl⟩
    · refine Scanner.closes_append hcomma hread ?_
      refine (Scanner.closes_cons (by decide) (step_space htop)).mpr ?_
      exact (closes_declText hnames.1 first.2).mpr hinits.1
    · intro q hq
      obtain ⟨d, hd, rfl⟩ := List.mem_map.mp hq
      exact (closes_declText (hnames.2 d hd) d.2).mpr (hinits.2 d hd)
  have hfirst : readDeclarator (declText (specifiers ++ ' ' :: first.1, first.2)) =
      some (specifiers ++ ' ' :: first.1, first.2) :=
    readDeclarator_eq_some_iff.mpr ⟨(closes_head hnames.1 (by decide) (by decide)).mpr hequals, rfl⟩
  have hhead : splitName (specifiers ++ ' ' :: first.1) = some (specifiers, first.1) := by
    refine splitName_eq_some_iff.mpr ⟨rfl, fun hmem => ?_⟩
    exact (isName_iff.mp hnames.1).2 ' ' hmem (by decide)
  have hothers : (others.map declText).mapM readNamed = some others :=
    mapM_readNamed_eq_some_iff.mpr ⟨rfl, hnames.2⟩
  unfold parse
  rw [hsplit, Option.bind_some, hfirst, Option.bind_some, hhead, Option.bind_some,
    if_pos hnames.1, hothers]
  rfl

/-- **Reading a declaration undoes writing it.** -/
theorem parse_eq_some_iff {text : Str} {declared : List Declared} :
    parse text = some declared ↔ ∃ specifiers first others,
      declared = (first :: others).map (fun d => ⟨specifiers, d.1, d.2⟩) ∧
        text = groupText specifiers first others ∧ WellFormed specifiers (first :: others) := by
  constructor
  · exact text_of_parse
  · rintro ⟨specifiers, first, others, rfl, rfl, hwf⟩
    exact parse_groupText hwf

example :
    parse "ptr< int > a,b = f(0, 1)".toList =
      some [⟨"ptr< int >".toList, ['a'], none⟩,
        ⟨"ptr< int >".toList, ['b'], some "f(0, 1)".toList⟩] := by
  decide +kernel

end Ironclad.Translator
