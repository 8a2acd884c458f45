import Mathlib.Data.List.Basic

/-!
# The conversion grammar of formatted output

A format is a sequence of ordinary characters, of `%%`, and of conversion specifications: a
percent sign, flags, a width, a precision, a length modifier and a conversion letter. A
conversion consumes one argument, and one more for a width and for a precision given as `*`.

The arguments that a format consumes can also be read off its characters, by a scan that keeps
whether it is inside a specification (`arguments`). So they do not depend on how the characters
are taken apart (`consumed_unique`).
-/

namespace Ironclad.CLib.Format

/-- The code of a character. -/
def code (c : Char) : BitVec 8 := BitVec.ofNat 8 c.toNat

inductive Flag where
  | minus | plus | space | hash | zero
  deriving DecidableEq, Repr

def Flag.render : Flag → BitVec 8
  | .minus => code '-'
  | .plus => code '+'
  | .space => code ' '
  | .hash => code '#'
  | .zero => code '0'

/-- A decimal digit. -/
def digit (d : Fin 10) : BitVec 8 := BitVec.ofNat 8 (48 + d.val)

/-- A width: a number, which does not begin with zero (that is a flag), or `*`. -/
inductive Width where
  | absent
  | number (first : Fin 9) (rest : List (Fin 10))
  | star
  deriving DecidableEq, Repr

def Width.render : Width → List (BitVec 8)
  | .absent => []
  | .number first rest => digit first.succ :: rest.map digit
  | .star => [code '*']

/-- A precision: a period and a number, which may be missing, or `*`. -/
inductive Precision where
  | absent
  | number (digits : List (Fin 10))
  | star
  deriving DecidableEq, Repr

def Precision.render : Precision → List (BitVec 8)
  | .absent => []
  | .number digits => code '.' :: digits.map digit
  | .star => [code '.', code '*']

/-- A length modifier. -/
inductive Length where
  | absent | hh | h | l | ll | j | z | t | L
  deriving DecidableEq, Repr

def Length.render : Length → List (BitVec 8)
  | .absent => []
  | .hh => [code 'h', code 'h']
  | .h => [code 'h']
  | .l => [code 'l']
  | .ll => [code 'l', code 'l']
  | .j => [code 'j']
  | .z => [code 'z']
  | .t => [code 't']
  | .L => [code 'L']

/-- A conversion letter. -/
inductive Letter where
  | d | i | o | u | x | X | f | F | e | E | g | G | a | A | c | s | p | n
  deriving DecidableEq, Repr

def Letter.render : Letter → BitVec 8
  | .d => code 'd'
  | .i => code 'i'
  | .o => code 'o'
  | .u => code 'u'
  | .x => code 'x'
  | .X => code 'X'
  | .f => code 'f'
  | .F => code 'F'
  | .e => code 'e'
  | .E => code 'E'
  | .g => code 'g'
  | .G => code 'G'
  | .a => code 'a'
  | .A => code 'A'
  | .c => code 'c'
  | .s => code 's'
  | .p => code 'p'
  | .n => code 'n'

structure Conversion where
  flags : List Flag
  width : Width
  precision : Precision
  length : Length
  letter : Letter
  deriving DecidableEq, Repr

/-- An ordinary character. -/
structure Plain where
  char : BitVec 8
  ne_zero : char ≠ 0
  ne_percent : char ≠ code '%'
  deriving DecidableEq

inductive Item where
  | plain (c : Plain)
  | percent
  | conversion (c : Conversion)
  deriving DecidableEq

/-- What stands between the percent sign and the letter. -/
def Conversion.options (c : Conversion) : List (BitVec 8) :=
  c.flags.map Flag.render ++ c.width.render ++ c.precision.render ++ c.length.render

def Item.render : Item → List (BitVec 8)
  | .plain c => [c.char]
  | .percent => [code '%', code '%']
  | .conversion c => code '%' :: (c.options ++ [c.letter.render])

/-- The characters of a format. -/
def render (items : List Item) : List (BitVec 8) := items.flatMap Item.render

/-! ## Arguments and percent signs -/

/-- The number of widths and precisions given as `*`. -/
def Conversion.stars (c : Conversion) : Nat :=
  (if c.width = .star then 1 else 0) + if c.precision = .star then 1 else 0

/-- The number of arguments that an item consumes. -/
def Item.consumed : Item → Nat
  | .plain _ => 0
  | .percent => 0
  | .conversion c => 1 + c.stars

/-- The number of arguments that a format consumes. -/
def consumed : List Item → Nat
  | [] => 0
  | item :: items => item.consumed + consumed items

/-- The number of percent signs in an item. -/
def Item.percents : Item → Nat
  | .plain _ => 0
  | .percent => 2
  | .conversion _ => 1

/-- The number of percent signs in a format. -/
def percents : List Item → Nat
  | [] => 0
  | item :: items => item.percents + percents items

/-- The characters that may stand between a percent sign and a letter. -/
def isOption (c : BitVec 8) : Bool :=
  [code '-', code '+', code ' ', code '#', code '0', code '1', code '2', code '3', code '4',
    code '5', code '6', code '7', code '8', code '9', code '.', code '*', code 'h', code 'l',
    code 'j', code 'z', code 't', code 'L'].contains c

theorem flag_isOption (f : Flag) : isOption f.render = true := by
  cases f <;> decide

theorem digit_isOption (d : Fin 10) : isOption (digit d) = true := by
  revert d
  decide

/-- Between the percent sign and the letter there are options only. -/
theorem options_isOption (c : Conversion) : ∀ x ∈ c.options, isOption x = true := by
  obtain ⟨flags, width, precision, length, letter⟩ := c
  unfold Conversion.options
  simp only [List.forall_mem_append]
  refine ⟨⟨⟨?_, ?_⟩, ?_⟩, ?_⟩
  · intro x hx
    obtain ⟨f, -, rfl⟩ := List.mem_map.mp hx
    exact flag_isOption f
  · cases width with
    | absent => exact nofun
    | number first rest =>
        intro x hx
        rcases List.mem_cons.mp hx with rfl | hx
        · exact digit_isOption _
        · obtain ⟨d, -, rfl⟩ := List.mem_map.mp hx
          exact digit_isOption d
    | star => decide
  · cases precision with
    | absent => exact nofun
    | number digits =>
        intro x hx
        rcases List.mem_cons.mp hx with rfl | hx
        · decide
        · obtain ⟨d, -, rfl⟩ := List.mem_map.mp hx
          exact digit_isOption d
    | star => decide
  · cases length <;> decide

theorem letter_not_option (l : Letter) : isOption l.render = false := by
  cases l <;> decide

/-- A conversion has one percent sign, in front. -/
theorem count_percent_options (c : Conversion) : c.options.count (code '%') = 0 := by
  rw [List.count_eq_zero]
  intro h
  have hopt := options_isOption c _ h
  revert hopt
  decide

theorem Item.count_percent (item : Item) : item.render.count (code '%') = item.percents := by
  cases item with
  | plain c => exact List.count_singleton.trans (if_neg (by simpa using c.ne_percent))
  | percent => rfl
  | conversion c =>
      have hletter : [c.letter.render].count (code '%') = 0 := by
        rw [List.count_eq_zero, List.mem_singleton]
        cases c.letter <;> decide
      rw [Item.render, List.count_cons_self, List.count_append, count_percent_options, hletter]
      rfl

/-- The percent signs among the characters of a format. -/
theorem count_percent (items : List Item) : (render items).count (code '%') = percents items := by
  induction items with
  | nil => rfl
  | cons item items ih =>
      rw [render, List.flatMap_cons, List.count_append, item.count_percent]
      show _ + (render items).count (code '%') = _
      rw [ih]
      rfl

/-! ## The scan -/

/-- Where the scan is: between items, right behind a percent sign, or further inside a
specification. -/
inductive Place where
  | text | begun | inside
  deriving DecidableEq, Repr

/-- A character inside a specification: an option, or the letter that ends it. -/
def insideStep (c : BitVec 8) : Place × Nat :=
  if isOption c then (.inside, if c = code '*' then 1 else 0) else (.text, 1)

/-- The place behind a character, and the arguments that the character asks for. -/
def scanStep : Place → BitVec 8 → Place × Nat
  | .text, c => (if c = code '%' then .begun else .text, 0)
  | .begun, c => if c = code '%' then (.text, 0) else insideStep c
  | .inside, c => insideStep c

/-- The arguments that the rest of a format asks for. -/
def arguments : Place → List (BitVec 8) → Nat
  | _, [] => 0
  | place, c :: cs => (scanStep place c).2 + arguments (scanStep place c).1 cs

theorem arguments_options (opts rest : List (BitVec 8)) (l : Letter)
    (h : ∀ x ∈ opts, isOption x = true) :
    arguments .inside (opts ++ l.render :: rest) =
      opts.count (code '*') + (1 + arguments .text rest) := by
  induction opts with
  | nil =>
      rw [List.nil_append, arguments, scanStep, insideStep, letter_not_option, List.count_nil,
        Nat.zero_add]
      rfl
  | cons x opts ih =>
      have hx : isOption x = true := h x List.mem_cons_self
      rw [List.cons_append, arguments, scanStep, insideStep, if_pos hx,
        ih fun y hy => h y (List.mem_cons_of_mem _ hy), List.count_cons]
      by_cases hstar : x = code '*'
      · rw [if_pos hstar, if_pos (beq_iff_eq.mpr hstar)]
        omega
      · rw [if_neg hstar, if_neg (by rw [beq_iff_eq]; exact hstar)]
        omega

/-- Right behind the percent sign of a conversion the scan goes on as inside it. -/
theorem arguments_begun {x : BitVec 8} (hx : x ≠ code '%') (cs : List (BitVec 8)) :
    arguments .begun (x :: cs) = arguments .inside (x :: cs) := by
  rw [arguments, arguments, scanStep, scanStep, if_neg hx]

theorem count_star_options (c : Conversion) : c.options.count (code '*') = c.stars := by
  obtain ⟨flags, width, precision, length, letter⟩ := c
  have hdigits : ∀ ds : List (Fin 10), (ds.map digit).count (code '*') = 0 := by
    intro ds
    rw [List.count_eq_zero, List.mem_map]
    rintro ⟨d, -, hd⟩
    revert d
    decide
  have hflags : (flags.map Flag.render).count (code '*') = 0 := by
    rw [List.count_eq_zero, List.mem_map]
    rintro ⟨f, -, hf⟩
    cases f <;> revert hf <;> decide
  have hwidth : width.render.count (code '*') = if width = .star then 1 else 0 := by
    cases width with
    | absent => rfl
    | number first rest =>
        have hfirst : digit first.succ ≠ code '*' := by
          revert first
          decide
        rw [Width.render, List.count_cons_of_ne hfirst, hdigits]
        rfl
    | star => rfl
  have hprecision : precision.render.count (code '*') = if precision = .star then 1 else 0 := by
    cases precision with
    | absent => rfl
    | number digits =>
        rw [Precision.render, List.count_cons_of_ne (by decide), hdigits]
        rfl
    | star => rfl
  have hlength : length.render.count (code '*') = 0 := by
    cases length <;> decide
  rw [Conversion.options, List.count_append, List.count_append, List.count_append, hflags,
    hwidth, hprecision, hlength, Conversion.stars, Nat.zero_add, Nat.add_zero]

theorem arguments_item (item : Item) (rest : List (BitVec 8)) :
    arguments .text (item.render ++ rest) = item.consumed + arguments .text rest := by
  cases item with
  | plain c =>
      show (scanStep .text c.char).2 + arguments (scanStep .text c.char).1 rest = _
      rw [scanStep, if_neg c.ne_percent]
      rfl
  | percent =>
      show 0 + (0 + arguments .text rest) = 0 + arguments .text rest
      omega
  | conversion c =>
      have hbegun : arguments .begun (c.options ++ c.letter.render :: rest) =
          arguments .inside (c.options ++ c.letter.render :: rest) := by
        cases hopts : c.options with
        | nil =>
            apply arguments_begun
            cases c.letter <;> decide
        | cons x opts =>
            apply arguments_begun
            have hx := options_isOption c x (by rw [hopts]; exact List.mem_cons_self)
            intro h
            rw [h] at hx
            revert hx
            decide
      rw [Item.render, List.cons_append, List.append_assoc]
      show 0 + arguments .begun (c.options ++ c.letter.render :: rest) = 1 + c.stars + _
      rw [hbegun, arguments_options _ _ _ (options_isOption c), count_star_options]
      omega

/-- **The scan.** It reads the arguments that a format consumes off its characters. -/
theorem arguments_render (items : List Item) : arguments .text (render items) = consumed items := by
  induction items with
  | nil => rfl
  | cons item items ih =>
      rw [render, List.flatMap_cons, arguments_item]
      show item.consumed + arguments .text (render items) = _
      rw [ih]
      rfl

/-- Two ways to take the same characters apart consume the same arguments. -/
theorem consumed_unique {items items' : List Item} (h : render items = render items') :
    consumed items = consumed items' := by
  rw [← arguments_render, ← arguments_render, h]

end Ironclad.CLib.Format
