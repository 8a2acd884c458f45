import Ironclad.Analysis.Names
import Ironclad.Logic.Delimited
import Mathlib.Logic.Function.Basic

/-!
# The analysis file

The analysis run writes its map to a file, one line for every record: the key, the type of
pointer, and the `from` list, with commas in between. The translation run reads the keys and the
types back. Nothing is escaped, and a declared name may contain a comma, as `operator,` does: its
line is read as one of another name. `roundTrips_iff` says that every other map comes back.
-/

namespace Ironclad.Analysis

open Ironclad.Logic

/-! ## Writing -/

/-- The type as it is written. -/
def ptrTypeText (singleton : Bool) : Str :=
  if !singleton then ['a', 'p', 't', 'r'] else ['p', 't', 'r']

/-- The line of a record, without its end. -/
def outputLine (key : Key) (ptrData : PointerData Key) : Str :=
  key ++ ',' :: (ptrTypeText ptrData.singleton ++
    ptrData.from_.flatMap fun pointerName => ',' :: pointerName)

/-- `outputPointers`: the text of the file. -/
def outputPointers (m : PointerMap Key) : Str :=
  m.keys.flatMap fun key =>
    match m.entry key with
    | some ptrData => outputLine key ptrData ++ ['\n']
    | none => []

/-! ## Reading -/

/-- `line.find(",", pos)`. -/
def findComma (line : Str) (pos : Nat) : Option Nat := Text.findSymbol ',' line pos

/-- The inner loop of `inputPointers`: the tokens behind the comma at `index2`. -/
def tokensBehind (line : Str) (index2 : Nat) : List Str :=
  let index1 := index2 + 1
  match _h : findComma line index1 with
  | some next => Text.slice line index1 (next - index1) :: tokensBehind line next
  | none => [Text.slice line index1 (line.length - index1)]
termination_by line.length - index2
decreasing_by
  have := Text.findSymbol_bounds _h
  omega

/-- What is read of a line. The further tokens are not used. -/
structure LineTokens where
  name : Str
  ptrType : Str
  further : List Str
  deriving DecidableEq, Repr

/-- One round of the outer loop of `inputPointers`, up to the use of the map. Without a comma the
first token is the line, and `index2 + 1` is 0. -/
def readLine (line : Str) : LineTokens :=
  let index2 := findComma line 0
  let name := match index2 with
    | some i => Text.slice line 0 i
    | none => line
  let index1 := match index2 with
    | some i => i + 1
    | none => 0
  match findComma line index1 with
  | some index2 => ⟨name, Text.slice line index1 (index2 - index1), tokensBehind line index2⟩
  | none => ⟨name, Text.slice line index1 (line.length - index1), []⟩

/-- A line is read into the map; `none` if the record is null. -/
def inputLine (m : PointerMap Key) (line : Str) : Option (PointerMap Key) :=
  let tokens := readLine line
  let m := InsertKeyInMap tokens.name m
  (m.entry tokens.name).map fun _ =>
    m.modifyAt tokens.name fun ptrData =>
      { ptrData with singleton := !(tokens.ptrType == ['a', 'p', 't', 'r']) }

/-- `inputPointers`: the file is read line by line. -/
def inputPointers (file : Str) (m : PointerMap Key) : Option (PointerMap Key) :=
  (Text.lines '\n' file).foldlM inputLine m

/-! ## The round trip -/

/-- The second map has a record for the same keys, with the same flags, and answers alike. -/
structure SameClassification (m m' : PointerMap Key) : Prop where
  records : ∀ k, m'.entry k ≠ none ↔ m.entry k ≠ none
  flags : ∀ k d d', m.entry k = some d → m'.entry k = some d' → d'.singleton = d.singleton
  answers : ∀ d level, isSingleton m' d level = isSingleton m d level

/-- What is written is read into an empty map as it was. -/
def RoundTrips (m : PointerMap Key) : Prop :=
  ∃ m', inputPointers (outputPointers m) .empty = some m' ∧ SameClassification m m'

/-- The flag of the record under a key. -/
def classification (m : PointerMap Key) (k : Key) : Option Bool :=
  (m.entry k).map PointerData.singleton

theorem classification_eq_none_iff {m : PointerMap Key} {k : Key} :
    classification m k = none ↔ m.entry k = none := Option.map_eq_none_iff

theorem isSingleton_eq_classification {m : PointerMap Key} {d : NamedDecl} {level : Nat} :
    isSingleton m d level = (classification m (convertToUniqueString d level)).getD false := by
  unfold isSingleton classification
  cases m.entry (convertToUniqueString d level) with
  | none => rfl
  | some ptrData => rfl

theorem sameClassification_iff {m m' : PointerMap Key} :
    SameClassification m m' ↔ ∀ k, classification m' k = classification m k := by
  constructor
  · intro h k
    unfold classification
    cases hm : m.entry k with
    | none =>
        have hm' : m'.entry k = none := not_not.mp fun hne => (h.records k).mp hne hm
        rw [hm']
    | some d =>
        obtain ⟨d', hd'⟩ := Option.ne_none_iff_exists'.mp ((h.records k).mpr (by simp [hm]))
        rw [hd', Option.map_some, Option.map_some, h.flags k d d' hm hd']
  · intro h
    refine ⟨fun k => ?_, fun k d d' hd hd' => ?_, fun d level => ?_⟩
    · exact not_congr (classification_eq_none_iff.symm.trans
        ((h k).symm ▸ classification_eq_none_iff))
    · have hk := h k
      unfold classification at hk
      rw [hd, hd', Option.map_some, Option.map_some, Option.some.injEq] at hk
      exact hk
    · rw [isSingleton_eq_classification, isSingleton_eq_classification, h]

/-! ## One line -/

theorem comma_not_mem_ptrTypeText (singleton : Bool) : ',' ∉ ptrTypeText singleton := by
  cases singleton <;> decide

section

variable {line name : Str} {i next : Nat}

theorem tokensBehind_of_some (h : findComma line (i + 1) = some next) :
    tokensBehind line i =
      Text.slice line (i + 1) (next - (i + 1)) :: tokensBehind line next := by
  rw [tokensBehind]
  split
  · rename_i next' h'
    obtain rfl : next = next' := Option.some.inj (h.symm.trans h')
    rfl
  · rename_i h'
    cases h.symm.trans h'

theorem tokensBehind_of_none (h : findComma line (i + 1) = none) :
    tokensBehind line i = [Text.slice line (i + 1) (line.length - (i + 1))] := by
  rw [tokensBehind]
  split
  · rename_i next' h'
    cases h.symm.trans h'
  · rfl

/-- Behind a comma, up to the next one. -/
theorem findComma_field (front rest : Str) (h : ',' ∉ name) :
    findComma (front ++ ',' :: (name ++ ',' :: rest)) (front.length + 1) =
        some (front.length + 1 + name.length) ∧
      Text.slice (front ++ ',' :: (name ++ ',' :: rest)) (front.length + 1)
        (front.length + 1 + name.length - (front.length + 1)) = name := by
  have hlen : front.length + 1 = (front ++ [',']).length := by simp
  rw [List.append_cons, hlen, Nat.add_sub_cancel_left]
  exact ⟨Text.findSymbol_field _ rest h, Text.slice_field _ name _⟩

/-- Behind a comma, up to the end. -/
theorem findComma_last (front : Str) (h : ',' ∉ name) :
    findComma (front ++ ',' :: name) (front.length + 1) = none ∧
      Text.slice (front ++ ',' :: name) (front.length + 1)
        ((front ++ ',' :: name).length - (front.length + 1)) = name := by
  have hlen : front.length + 1 = (front ++ [',']).length := by simp
  have hrest : (front ++ [','] ++ name).length - (front ++ [',']).length = name.length := by
    rw [List.length_append, Nat.add_sub_cancel_left]
  rw [List.append_cons, hlen, hrest]
  exact ⟨Text.findSymbol_last _ h, Text.slice_last _ name⟩

end

/-- The tokens behind a comma are those that were written, if there is no comma in them. -/
theorem tokensBehind_eq {name : Str} {names : List Str} (h : ∀ n ∈ name :: names, ',' ∉ n)
    (front : Str) :
    tokensBehind (front ++ ',' :: (name ++ names.flatMap fun n => ',' :: n)) front.length =
      name :: names := by
  induction names generalizing name front with
  | nil =>
      rw [List.flatMap_nil, List.append_nil]
      obtain ⟨hnone, hslice⟩ := findComma_last front (h name List.mem_cons_self)
      rw [tokensBehind_of_none hnone, hslice]
  | cons next names ih =>
      rw [List.forall_mem_cons] at h
      rw [List.flatMap_cons, List.cons_append]
      obtain ⟨hsome, hslice⟩ := findComma_field front
        (next ++ names.flatMap fun n => ',' :: n) h.1
      rw [tokensBehind_of_some hsome, hslice]
      -- what has been read goes to the front
      have hih := ih h.2 (front ++ ',' :: name)
      rw [List.append_assoc, List.cons_append, List.length_append, List.length_cons,
        Nat.add_comm name.length, ← Nat.add_assoc] at hih
      rw [hih]

section

variable {key type rest : Str}

/-- The search for the first token. -/
theorem findComma_first (rest : Str) (hkey : ',' ∉ key) :
    findComma (key ++ ',' :: rest) 0 = some key.length ∧
      Text.slice (key ++ ',' :: rest) 0 key.length = key := by
  have hfind := Text.findSymbol_field [] rest hkey
  rw [List.length_nil, Nat.zero_add] at hfind
  exact ⟨hfind, Text.slice_field [] key _⟩

/-- A line with a key and a type. -/
theorem readLine_two (hkey : ',' ∉ key) (htype : ',' ∉ type) :
    readLine (key ++ ',' :: type) = ⟨key, type, []⟩ := by
  obtain ⟨hfirst, hname⟩ := findComma_first type hkey
  obtain ⟨hnone, hslice⟩ := findComma_last key htype
  unfold readLine
  simp only [hfirst, hname, hnone, hslice]

/-- A line with further tokens. -/
theorem readLine_more (hkey : ',' ∉ key) (htype : ',' ∉ type) :
    readLine (key ++ ',' :: (type ++ ',' :: rest)) =
      ⟨key, type, tokensBehind (key ++ ',' :: (type ++ ',' :: rest))
        (key.length + 1 + type.length)⟩ := by
  obtain ⟨hfirst, hname⟩ := findComma_first (type ++ ',' :: rest) hkey
  obtain ⟨hsome, hslice⟩ := findComma_field key rest htype
  unfold readLine
  simp only [hfirst, hname, hsome, hslice]

end

/-- **A line is read as it was written**, as far as it is used, if there is no comma in the
key. -/
theorem readLine_outputLine {key : Key} (hkey : ',' ∉ key) (ptrData : PointerData Key) :
    (readLine (outputLine key ptrData)).name = key ∧
      (readLine (outputLine key ptrData)).ptrType = ptrTypeText ptrData.singleton := by
  obtain ⟨from_, to_, singleton⟩ := ptrData
  have htype := comma_not_mem_ptrTypeText singleton
  unfold outputLine
  cases from_ with
  | nil =>
      rw [List.flatMap_nil, List.append_nil, readLine_two hkey htype]
      exact ⟨rfl, rfl⟩
  | cons source sources =>
      rw [List.flatMap_cons, List.cons_append, readLine_more hkey htype]
      exact ⟨rfl, rfl⟩

/-- The `from` list is read back as well, if there is no comma in it either. -/
theorem readLine_further {key : Key} (hkey : ',' ∉ key) {ptrData : PointerData Key}
    (hfrom : ∀ n ∈ ptrData.from_, ',' ∉ n) :
    (readLine (outputLine key ptrData)).further = ptrData.from_ := by
  obtain ⟨from_, to_, singleton⟩ := ptrData
  have htype := comma_not_mem_ptrTypeText singleton
  unfold outputLine
  cases from_ with
  | nil => rw [List.flatMap_nil, List.append_nil, readLine_two hkey htype]
  | cons source sources =>
      rw [List.flatMap_cons, List.cons_append, readLine_more hkey htype]
      have htokens := tokensBehind_eq hfrom (key ++ ',' :: ptrTypeText singleton)
      rw [List.append_assoc, List.cons_append, List.length_append, List.length_cons,
        Nat.add_comm (ptrTypeText singleton).length, ← Nat.add_assoc] at htokens
      exact htokens

/-- What is read as a key has no comma. -/
theorem comma_not_mem_name (line : Str) : ',' ∉ (readLine line).name := by
  have hname : (readLine line).name = match findComma line 0 with
      | some i => Text.slice line 0 i
      | none => line := by
    unfold readLine
    simp only
    split <;> rfl
  rw [hname]
  split
  · rename_i i h
    exact Text.not_mem_slice_of_find h
  · rename_i h
    exact Text.not_mem_of_find_none h

/-! ## The lines one after the other -/

/-- No record is null. -/
def NoNull (m : PointerMap Key) : Prop := ∀ k ∈ m.keys, m.entry k ≠ none

/-- What a line does to the flags. -/
def classify (c : Key → Option Bool) (line : Str) : Key → Option Bool :=
  Function.update c (readLine line).name
    (some !((readLine line).ptrType == ['a', 'p', 't', 'r']))

theorem noNull_empty : NoNull PointerMap.empty := fun _ h => absurd h List.not_mem_nil

/-- A key that is read gets a record, if it has none yet. -/
theorem insertKeyInMap_spec {m : PointerMap Key} (hm : NoNull m) (key : Key) :
    NoNull (InsertKeyInMap key m) ∧ (InsertKeyInMap key m).entry key ≠ none ∧
      ∀ k, k ≠ key → classification (InsertKeyInMap key m) k = classification m k := by
  unfold InsertKeyInMap
  split
  · rename_i hmem
    exact ⟨hm, hm key hmem, fun _ _ => rfl⟩
  · refine ⟨fun k hk => ?_, (insert_entry m key key).mpr (.inr rfl), fun k hk => ?_⟩
    · exact (insert_entry m key k).mpr ((mem_insert_keys.mp hk).imp_left (hm k))
    · unfold classification PointerMap.insert
      simp only [if_neg hk]

/-- **One line.** It is never read into a null record. -/
theorem inputLine_spec {m : PointerMap Key} (hm : NoNull m) (line : Str) :
    ∃ m', inputLine m line = some m' ∧ NoNull m' ∧
      classification m' = classify (classification m) line := by
  obtain ⟨hnull, hkey, hothers⟩ := insertKeyInMap_spec hm (readLine line).name
  obtain ⟨ptrData, hdata⟩ := Option.ne_none_iff_exists'.mp hkey
  refine ⟨_, Option.map_eq_some_iff.mpr ⟨ptrData, hdata, rfl⟩, ?_, ?_⟩
  · intro k hk hnone
    have hkeys : k ∈ (InsertKeyInMap (readLine line).name m).keys := hk
    exact hnull k hkeys ((grows_modifyAt _ _ _ k hkeys).2.mp hnone)
  · funext k
    unfold classify classification
    by_cases hk : k = (readLine line).name
    · rw [hk, modifyAt_entry_self, hdata, Function.update_self]
      rfl
    · rw [modifyAt_entry_of_ne hk, Function.update_of_ne hk]
      exact hothers k hk

/-- **All lines.** -/
theorem inputLines_spec (lines : List Str) {m : PointerMap Key} (hm : NoNull m) :
    ∃ m', lines.foldlM inputLine m = some m' ∧
      classification m' = lines.foldl classify (classification m) := by
  induction lines generalizing m with
  | nil => exact ⟨m, rfl, rfl⟩
  | cons line lines ih =>
      obtain ⟨m₁, hline, hm₁, hflags⟩ := inputLine_spec hm line
      obtain ⟨m', hlines, hall⟩ := ih hm₁
      refine ⟨m', ?_, ?_⟩
      · rw [List.foldlM_cons, hline]
        exact hlines
      · rw [List.foldl_cons, ← hflags, hall]

/-- The keys that are read have no comma. -/
theorem comma_not_mem_of_read (lines : List Str) {c : Key → Option Bool}
    (hc : ∀ k, c k ≠ none → ',' ∉ k) {k : Key} (hk : lines.foldl classify c k ≠ none) :
    ',' ∉ k := by
  induction lines generalizing c with
  | nil => exact hc k hk
  | cons line lines ih =>
      refine ih (fun n hn => ?_) hk
      unfold classify at hn
      by_cases hname : n = (readLine line).name
      · rw [hname]
        exact comma_not_mem_name line
      · rw [Function.update_of_ne hname] at hn
        exact hc n hn

/-! ## The file -/

/-- The lines for some keys. -/
def outputLines (m : PointerMap Key) (keys : List Key) : List Str :=
  keys.filterMap fun key => (m.entry key).map (outputLine key)

theorem outputPointers_eq (m : PointerMap Key) :
    outputPointers m = (outputLines m m.keys).flatMap fun l => l ++ ['\n'] := by
  unfold outputPointers outputLines
  induction m.keys with
  | nil => rfl
  | cons key keys ih =>
      rw [List.flatMap_cons, ih, List.filterMap_cons]
      cases m.entry key with
      | none => rfl
      | some ptrData => rfl

theorem newline_not_mem_outputLine {m : PointerMap Key} (hm : KeysDeclared m) {key : Key}
    {ptrData : PointerData Key} (h : m.entry key = some ptrData) :
    '\n' ∉ outputLine key ptrData := by
  have hkey : '\n' ∉ key := (hm.records key (by simp [h])).oneLine
  have htype : '\n' ∉ ptrTypeText ptrData.singleton := by
    cases ptrData.singleton <;> decide
  have hfrom : ∀ n ∈ ptrData.from_, '\n' ∉ n := fun n hn =>
    (hm.from_ key n ⟨ptrData, h, hn⟩).oneLine
  unfold outputLine
  simp only [List.mem_append, List.mem_cons, List.mem_flatMap, not_or, not_exists, not_and]
  exact ⟨hkey, by decide, htype, fun n hn => ⟨by decide, hfrom n hn⟩⟩

/-- The file consists of the lines. -/
theorem lines_outputPointers {m : PointerMap Key} (hm : KeysDeclared m) :
    Text.lines '\n' (outputPointers m) = outputLines m m.keys := by
  rw [outputPointers_eq]
  apply Text.lines_terminate
  intro l hl
  obtain ⟨key, -, hkey⟩ := List.mem_filterMap.mp hl
  obtain ⟨ptrData, hdata, rfl⟩ := Option.map_eq_some_iff.mp hkey
  exact newline_not_mem_outputLine hm hdata

/-- The lines for some keys without a comma set the flags of these keys. -/
theorem classify_outputLines {m : PointerMap Key} {keys : List Key} {c : Key → Option Bool}
    (h : ∀ k ∈ keys, m.entry k ≠ none → ',' ∉ k) :
    (outputLines m keys).foldl classify c =
      fun k => (if k ∈ keys then classification m k else none).or (c k) := by
  induction keys generalizing c with
  | nil =>
      funext k
      rw [if_neg List.not_mem_nil]
      rfl
  | cons key keys ih =>
      rw [List.forall_mem_cons] at h
      unfold outputLines
      rw [List.filterMap_cons]
      cases hdata : m.entry key with
      | none =>
          rw [Option.map_none]
          show (outputLines m keys).foldl classify c = _
          rw [ih h.2]
          funext k
          by_cases hk : k = key
          · have hnone : classification m k = none := by
              rw [hk]
              exact classification_eq_none_iff.mpr hdata
            simp only [hnone, ite_self]
          · simp only [List.mem_cons, hk, false_or]
      | some ptrData =>
          obtain ⟨hname, htype⟩ := readLine_outputLine (h.1 (by simp [hdata])) ptrData
          have hflag : (!(ptrTypeText ptrData.singleton == ['a', 'p', 't', 'r'])) =
              ptrData.singleton := by
            cases ptrData.singleton <;> decide
          rw [Option.map_some, List.foldl_cons]
          show (outputLines m keys).foldl classify _ = _
          rw [ih h.2]
          funext k
          unfold classify
          rw [hname, htype, hflag]
          by_cases hk : k = key
          · have hsome : classification m k = some ptrData.singleton := by
              rw [hk]
              unfold classification
              rw [hdata, Option.map_some]
            rw [hk, Function.update_self, if_pos List.mem_cons_self, ← hk, hsome]
            split <;> rfl
          · simp only [Function.update_of_ne hk, List.mem_cons, hk, false_or]

/-- **Reading back.** The file is always read without a null dereference. -/
theorem inputPointers_outputPointers {m : PointerMap Key} (hm : KeysDeclared m) :
    ∃ m', inputPointers (outputPointers m) .empty = some m' ∧
      classification m' = (outputLines m m.keys).foldl classify fun _ => none := by
  unfold inputPointers
  rw [lines_outputPointers hm]
  exact inputLines_spec _ noNull_empty

/-- A record whose key has a comma does not come back. -/
theorem not_roundTrips_of_comma {m : PointerMap Key} (hm : KeysDeclared m) {k : Key}
    (hk : m.entry k ≠ none) (hcomma : ',' ∈ k) : ¬RoundTrips m := by
  rintro ⟨m', hread, hsame⟩
  obtain ⟨m'', hread', hflags⟩ := inputPointers_outputPointers hm
  obtain rfl : m' = m'' := Option.some.inj (hread.symm.trans hread')
  have hrecord : classification m' k ≠ none :=
    fun hnone => (hsame.records k).mpr hk (classification_eq_none_iff.mp hnone)
  rw [hflags] at hrecord
  exact comma_not_mem_of_read _ (fun _ h => absurd rfl h) hrecord hcomma

/-- **The analysis file round-trips exactly for the maps that have no record under a key with a
comma in it.** -/
theorem roundTrips_iff (m : AnalysisMap) :
    RoundTrips m.map ↔ ∀ k, m.map.entry k ≠ none → ',' ∉ k := by
  constructor
  · intro h k hk hcomma
    exact not_roundTrips_of_comma m.declared hk hcomma h
  · intro h
    obtain ⟨m', hread, hflags⟩ := inputPointers_outputPointers m.declared
    refine ⟨m', hread, sameClassification_iff.mpr fun k => ?_⟩
    rw [hflags, classify_outputLines fun k _ => h k]
    show (if k ∈ m.map.keys then classification m.map k else none).or none = _
    rw [Option.or_none]
    split
    · rfl
    · rename_i hk
      exact (classification_eq_none_iff.mpr (not_not.mp fun hne => hk (m.map.mem_keys k hne))).symm

/-! ## An operator -/

/-- `int * operator,(A, B);` -/
def commaUnit : TranslationUnit :=
  [.function ⟨[], ['o', 'p', 'e', 'r', 'a', 't', 'o', 'r', ','], [], .pointer .other⟩ none false]

/-- Its record comes back under another name. -/
theorem operator_not_roundTrips :
    (∃ σ, runAnalysis visitChildren 5 commaUnit = some σ ∧ ¬RoundTrips σ.pointers) ∧
      ¬∀ m : AnalysisMap, RoundTrips m.map := by
  obtain ⟨σ, hσ⟩ : ∃ σ, runAnalysis visitChildren 5 commaUnit = some σ := ⟨_, rfl⟩
  have hunit : ∀ d ∈ commaUnit, d.Printable := by
    intro d hd
    rw [List.mem_singleton.mp hd]
    refine ⟨⟨?_, fun _ hp => absurd hp List.not_mem_nil⟩, fun _ hs => nomatch hs⟩
    intro n hn
    rw [List.mem_singleton.mp hn]
    decide
  have hdeclared := runAnalysis_keysDeclared visitChildren_visitsChildren hunit hσ
  have hrecord : σ.pointers.entry ['o', 'p', 'e', 'r', 'a', 't', 'o', 'r', ','] ≠ none := by
    cases hσ
    decide
  have hnot := not_roundTrips_of_comma hdeclared hrecord (by decide)
  exact ⟨⟨σ, hσ, hnot⟩, fun hall => hnot (hall ⟨σ.pointers, hdeclared⟩)⟩

end Ironclad.Analysis
