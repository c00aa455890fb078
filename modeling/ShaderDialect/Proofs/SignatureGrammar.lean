import Mathlib.Tactic.SplitIfs
import ShaderDialect.Proofs.Lexicon
import ShaderDialect.Proofs.SignatureLines

/-!
# The grammar of signature lines

A line is described here by how it is spelled and not by how it is read. A reader
that meets a blank does not know yet whether another word follows, and one that meets
a comma does not know whether a parameter does; where none follows, it goes back or
fails. Yet every line is read exactly as it is spelled, and no other line is read.
-/

namespace ShaderDialect

/-- A word is read to its end. -/
theorem Literal.word?_eq_some_iff {cs read rest : List Char} :
    word? cs = some (read, rest) ↔
      cs = read ++ rest ∧ read ∈ Lexicon.word ∧ Stops isWordPart rest := by
  constructor
  · intro found
    unfold word? at found
    split at found
    · split_ifs at found with isStart
      cases found
      exact ⟨by simp, ⟨_, _, rfl, isStart, List.all_eq_true.1 List.all_takeWhile⟩,
        stops_dropWhile _ _⟩
    · cases found
  · rintro ⟨rfl, ⟨c, tail, rfl, isStart, parts⟩, stops⟩
    simp [word?, isStart, stops.takeWhile_append parts, stops.dropWhile_append parts]

namespace WrittenSignature

/-! ### Spellings -/

/-- Spaces and tabs, perhaps none. -/
def Blanks (cs : List Char) : Prop :=
  ∀ c ∈ cs, c = ' ' ∨ c = '\t'

/-- One or more words, with blanks between them. -/
inductive SpellsWords : List Char → List String → Prop
  | single {word : List Char} (isWord : word ∈ Lexicon.word) :
      SpellsWords word [String.ofList word]
  | cons {word blanks cs : List Char} {words : List String} (isWord : word ∈ Lexicon.word)
      (nonempty : blanks ≠ []) (blank : Blanks blanks) (others : SpellsWords cs words) :
      SpellsWords (word ++ blanks ++ cs) (String.ofList word :: words)

/-- Words that may have blanks around them. The type is the first word that is no
qualifier, and nameless if there is none. -/
inductive SpellsParameter : List Char → String → Prop
  | words {before cs after : List Char} {words : List String} (blank : Blanks before)
      (spelled : SpellsWords cs words) (blank' : Blanks after) :
      SpellsParameter (before ++ cs ++ after)
        ((words.find? fun word => word ∉ parameterQualifiers).getD "")

/-- One or more parameters, with commas between them. -/
inductive SpellsParameters : List Char → List String → Prop
  | single {cs : List Char} {type : String} (only : SpellsParameter cs type) :
      SpellsParameters cs [type]
  | cons {cs more : List Char} {type : String} {types : List String}
      (first : SpellsParameter cs type) (others : SpellsParameters more types) :
      SpellsParameters (cs ++ ',' :: more) (type :: types)

/-- What may stand between parentheses: nothing, or parameters, of which a single
`void` stands for none. -/
inductive SpellsList : List Char → List String → Prop
  | nil : SpellsList [] []
  | parameters {cs : List Char} {types : List String} (spelled : SpellsParameters cs types) :
      SpellsList cs (if types = ["void"] then [] else types)

/-- A line that begins with a signature, whatever follows it. -/
inductive SpellsLine : List Char → WrittenSignature → Prop
  | signature {indent result gap name gap' list rest : List Char} {params : List String}
      (indented : Blanks indent) (isResult : result ∈ Lexicon.word) (apart : gap ≠ [])
      (blank : Blanks gap) (isName : name ∈ Lexicon.word) (blank' : Blanks gap')
      (listed : SpellsList list params) :
      SpellsLine (indent ++ result ++ gap ++ name ++ gap' ++ '(' :: list ++ ')' :: rest)
        { result := String.ofList result, name := String.ofList name, params }

/-! ### Characters -/

theorem blanks_iff {cs : List Char} : Blanks cs ↔ ∀ c ∈ cs, isBlank c := by
  simp [Blanks, isBlank]

theorem blanks_takeWhile (cs : List Char) : Blanks (cs.takeWhile isBlank) :=
  blanks_iff.2 (List.all_eq_true.1 List.all_takeWhile)

theorem stops_cons {p : Char → Bool} {c : Char} (outside : p c = false)
    (tail : List Char) :
    Stops p (c :: tail) := by
  intro d first
  obtain rfl : c = d := by simpa using first
  exact outside

theorem isWordPart_of_isBlank {c : Char} (blank : isBlank c) :
    Literal.isWordPart c = false := by
  rcases (by simpa [isBlank] using blank : c = ' ' ∨ c = '\t') with rfl | rfl <;> rfl

theorem isWordPart_of_isWordStart {c : Char} (isStart : Literal.isWordStart c) :
    Literal.isWordPart c := by
  simp [Literal.isWordPart, isStart]

/-- A text that starts with a word does not start with a blank. -/
theorem stops_of_mem_word {word : List Char} (isWord : word ∈ Lexicon.word)
    (rest : List Char) :
    Stops isBlank (word ++ rest) := by
  obtain ⟨c, tail, rfl, isStart, -⟩ := isWord
  refine stops_cons (Bool.eq_false_iff.2 fun blank => ?_) (tail ++ rest)
  have other := isWordPart_of_isBlank blank
  rw [isWordPart_of_isWordStart isStart] at other
  cases other

theorem SpellsWords.stops {cs : List Char} {words : List String}
    (h : SpellsWords cs words) (rest : List Char) : Stops isBlank (cs ++ rest) := by
  cases h with
  | single isWord => exact stops_of_mem_word isWord rest
  | cons isWord nonempty blank others =>
    rw [List.append_assoc, List.append_assoc]
    exact stops_of_mem_word isWord _

/-- Blanks end a word, and so does what ends one behind them. -/
theorem stops_blanks_append {blanks rest : List Char} (blank : Blanks blanks)
    (ends : blanks = [] → Stops Literal.isWordPart rest) :
    Stops Literal.isWordPart (blanks ++ rest) := by
  cases blanks with
  | nil => exact ends rfl
  | cons b blanks =>
    exact stops_cons (isWordPart_of_isBlank (blanks_iff.1 blank b List.mem_cons_self)) _

theorem head?_blanks_append {blanks : List Char} (nonempty : blanks ≠ [])
    (blank : Blanks blanks)
    (rest : List Char) : (blanks ++ rest).head?.any isBlank = true := by
  obtain ⟨b, blanks, rfl⟩ := List.exists_cons_of_ne_nil nonempty
  exact blanks_iff.1 blank b List.mem_cons_self

theorem takeWhile_ne_nil {cs : List Char} (blank : cs.head?.any isBlank) :
    cs.takeWhile isBlank ≠ [] := by
  cases cs with
  | nil => cases blank
  | cons c cs => simp_all

/-! ### Words -/

theorem spells_of_words? {cs rest : List Char} {words : List String}
    (h : words? cs = some (words, rest)) :
    ∃ front, cs = front ++ rest ∧ SpellsWords front words := by
  fun_induction words? cs generalizing words rest with
  | case1 => cases h
  | case2 cs read tail found shorter word blank others after inner =>
    rename_i ih
    cases h
    obtain ⟨rfl, isWord, -⟩ := Literal.word?_eq_some_iff.1 found
    obtain ⟨front, split, spelled⟩ := ih inner
    refine ⟨read ++ tail.takeWhile isBlank ++ front, ?_,
      .cons isWord (takeWhile_ne_nil blank) (blanks_takeWhile tail) spelled⟩
    rw [List.append_assoc, List.append_assoc, ← split, List.takeWhile_append_dropWhile]
  | case3 cs read tail found =>
    cases h
    obtain ⟨rfl, isWord, -⟩ := Literal.word?_eq_some_iff.1 found
    exact ⟨read, rfl, .single isWord⟩
  | case4 cs read tail found =>
    cases h
    obtain ⟨rfl, isWord, -⟩ := Literal.word?_eq_some_iff.1 found
    exact ⟨read, rfl, .single isWord⟩

/-- Words are read up to a text that goes on with none of them and has no further one
behind its blanks. -/
theorem words?_of_spells {front rest : List Char} {words : List String}
    (h : SpellsWords front words) (ends : Stops Literal.isWordPart rest)
    (last : Stops Literal.isWordStart (rest.dropWhile isBlank)) :
    words? (front ++ rest) = some (words, rest) := by
  induction h with
  | @single word isWord =>
    have read := Literal.word?_eq_some_iff.2 ⟨rfl, isWord, ends⟩
    -- Blanks may follow here, but no word behind them: the reader goes back before them.
    rw [words?_of_word read, words?_of_none (Literal.word?_eq_none.2 last)]
    split_ifs <;> rfl
  | @cons word blanks cs words isWord nonempty blank others ih =>
    have read := Literal.word?_eq_some_iff.2 ⟨rfl, isWord,
      @stops_blanks_append blanks (cs ++ rest) blank fun none => absurd none nonempty⟩
    have behind := (others.stops rest).dropWhile_append (blanks_iff.1 blank)
    rw [List.append_assoc, List.append_assoc, words?_of_word read,
      if_pos (head?_blanks_append nonempty blank _), behind, ih]
    rfl

/-! ### Parameters -/

theorem spells_of_parameter? {cs rest : List Char} {type : String}
    (h : parameter? cs = some (type, rest)) :
    ∃ front, cs = front ++ rest ∧ SpellsParameter front type := by
  obtain ⟨⟨words, after⟩, found, same⟩ := Option.map_eq_some_iff.1 h
  cases same
  obtain ⟨front, split, spelled⟩ := spells_of_words? found
  refine ⟨cs.takeWhile isBlank ++ front ++ after.takeWhile isBlank, ?_, ?_⟩
  · rw [List.append_assoc, List.takeWhile_append_dropWhile, List.append_assoc, ← split,
      List.takeWhile_append_dropWhile]
  · simpa using SpellsParameter.words (blanks_takeWhile cs) spelled (blanks_takeWhile after)

/-- A parameter is read up to a mark. -/
theorem parameter?_of_spells {front : List Char} {type : String}
    (h : SpellsParameter front type) {mark : Char}
    (ends : Literal.isWordPart mark = false) (visible : isBlank mark = false)
    (tail : List Char) :
    parameter? (front ++ mark :: tail) = some (type, mark :: tail) := by
  cases h with
  | @words before cs after words blank spelled blank' =>
    have dropped : (after ++ mark :: tail).dropWhile isBlank = mark :: tail :=
      (stops_cons visible tail).dropWhile_append (blanks_iff.1 blank')
    have noWord : Stops Literal.isWordStart ((after ++ mark :: tail).dropWhile isBlank) := by
      rw [dropped]
      refine stops_cons (Bool.eq_false_iff.2 fun isStart => ?_) tail
      simp [isWordPart_of_isWordStart isStart] at ends
    have read := words?_of_spells spelled
      (stops_blanks_append blank' fun _ => stops_cons ends tail) noWord
    have behind :=
      (spelled.stops (after ++ mark :: tail)).dropWhile_append (blanks_iff.1 blank)
    rw [List.append_assoc, List.append_assoc, parameter?, behind, read]
    simp [dropped]

theorem spells_of_parameters? {cs rest : List Char} {types : List String}
    (h : parameters? cs = some (types, rest)) :
    ∃ front, cs = front ++ rest ∧ SpellsParameters front types := by
  fun_induction parameters? cs generalizing types rest with
  | case1 => cases h
  | case2 cs type more found shorter =>
    rename_i ih
    obtain ⟨⟨others, after⟩, inner, same⟩ := Option.map_eq_some_iff.1 h
    cases same
    obtain ⟨front, rfl, spelled⟩ := spells_of_parameter? found
    obtain ⟨front', rfl, spelled'⟩ := ih inner
    exact ⟨front ++ ',' :: front', by simp, .cons spelled spelled'⟩
  | case3 cs type after last found =>
    cases h
    obtain ⟨front, rfl, spelled⟩ := spells_of_parameter? found
    exact ⟨front, rfl, .single spelled⟩

/-- Parameters are read up to the closing parenthesis. -/
theorem parameters?_of_spells {front : List Char} {types : List String}
    (h : SpellsParameters front types) (tail : List Char) :
    parameters? (front ++ ')' :: tail) = some (types, ')' :: tail) := by
  induction h with
  | single only =>
    exact parameters?_of_last (parameter?_of_spells only (by decide) (by decide) tail) (by simp)
  | @cons cs more type types first others ih =>
    have read := @parameter?_of_spells _ _ first ',' rfl rfl (more ++ ')' :: tail)
    rw [List.append_assoc, List.cons_append, parameters?_of_comma read, ih]
    rfl

/-- The list of parameters does not begin with the closing parenthesis. -/
theorem SpellsParameters.head?_ne {cs : List Char} {types : List String}
    (h : SpellsParameters cs types) (tail : List Char) :
    (cs ++ ')' :: tail).head? ≠ some ')' := by
  intro closes
  -- The parameters are read from the text, and from a closing parenthesis none is read.
  obtain ⟨rest, shape⟩ := List.head?_eq_some_iff.1 closes
  have none : parameter? (')' :: rest) = none := by
    rw [parameter?, (stops_cons rfl rest).dropWhile_eq_self, words?_of_none rfl]
    rfl
  have read := parameters?_of_spells h tail
  rw [shape, parameters?_of_none none] at read
  cases read

/-- What stands between parentheses is read as it is spelled, and nothing else is. -/
theorem parenthesized?_eq_some_iff {cs : List Char} {params : List String} :
    parenthesized? cs = some params ↔
      ∃ list rest, cs = '(' :: list ++ ')' :: rest ∧ SpellsList list params := by
  constructor
  · intro found
    unfold parenthesized? at found
    split at found
    · cases found
      exact ⟨[], _, rfl, .nil⟩
    · split at found
      · rename_i types rest read
        cases found
        obtain ⟨list, rfl, spelled⟩ := spells_of_parameters? read
        exact ⟨list, rest, rfl, .parameters spelled⟩
      · cases found
    · cases found
  · rintro ⟨list, rest, rfl, listed⟩
    cases listed with
    | nil => rfl
    | parameters spelled =>
      rw [List.cons_append, parenthesized?_of_parameters (spelled.head?_ne rest),
        parameters?_of_spells spelled rest]
      rfl

/-! ### Lines -/

theorem spells_of_ofLine? {line : List Char} {written : WrittenSignature}
    (h : ofLine? line = some written) : SpellsLine line written := by
  simp only [ofLine?, Option.bind_eq_bind, Option.bind_eq_some_iff, Prod.exists] at h
  obtain ⟨result, rest, readResult, h⟩ := h
  split_ifs at h with apart
  obtain ⟨⟨name, rest'⟩, readName, h⟩ := Option.bind_eq_some_iff.1 h
  obtain ⟨params, readParams, h⟩ := Option.bind_eq_some_iff.1 h
  cases h
  obtain ⟨split, isResult, -⟩ := Literal.word?_eq_some_iff.1 readResult
  obtain ⟨split', isName, -⟩ := Literal.word?_eq_some_iff.1 readName
  obtain ⟨list, tail, split'', listed⟩ := parenthesized?_eq_some_iff.1 readParams
  have spelled :=
    @SpellsLine.signature _ _ _ _ _ _ tail _ (blanks_takeWhile line) isResult
      (takeWhile_ne_nil apart) (blanks_takeWhile rest) isName (blanks_takeWhile rest') listed
  have whole : line.takeWhile isBlank ++ result ++ rest.takeWhile isBlank ++ name ++
      rest'.takeWhile isBlank ++ '(' :: list ++ ')' :: tail = line := by
    simp only [List.append_assoc]
    rw [← split'', List.takeWhile_append_dropWhile, ← split',
      List.takeWhile_append_dropWhile, ← split, List.takeWhile_append_dropWhile]
  exact whole ▸ spelled

theorem ofLine?_of_spells {line : List Char} {written : WrittenSignature}
    (h : SpellsLine line written) : ofLine? line = some written := by
  cases h with
  | @signature indent result gap name gap' list rest params indented isResult apart blank isName
      blank' listed =>
    have inside : parenthesized? ('(' :: (list ++ ')' :: rest)) = some params :=
      parenthesized?_eq_some_iff.2 ⟨list, rest, rfl, listed⟩
    have opens : (gap' ++ '(' :: (list ++ ')' :: rest)).dropWhile isBlank =
        '(' :: (list ++ ')' :: rest) :=
      (stops_cons rfl _).dropWhile_append (blanks_iff.1 blank')
    have readName := Literal.word?_eq_some_iff.2 ⟨rfl, isName,
      stops_blanks_append blank' fun _ => @stops_cons _ '(' rfl (list ++ ')' :: rest)⟩
    have second := (stops_of_mem_word isName
      (gap' ++ '(' :: (list ++ ')' :: rest))).dropWhile_append (blanks_iff.1 blank)
    have readResult := Literal.word?_eq_some_iff.2 ⟨rfl, isResult,
      @stops_blanks_append gap (name ++ (gap' ++ '(' :: (list ++ ')' :: rest))) blank
        fun none => absurd none apart⟩
    have first := (stops_of_mem_word isResult
      (gap ++ (name ++ (gap' ++ '(' :: (list ++ ')' :: rest))))).dropWhile_append
      (blanks_iff.1 indented)
    simp only [List.append_assoc, List.cons_append, ofLine?, first, readResult,
      head?_blanks_append apart blank, second, readName, opens, inside,
      Option.bind_eq_bind, Option.bind_some, if_true]
    rfl

/-- A line is read if it is spelled as a signature with anything behind it, and gives the
signature that it spells. -/
theorem read_iff_spelled {line : List Char} {written : WrittenSignature} :
    ofLine? line = some written ↔ SpellsLine line written :=
  ⟨spells_of_ofLine?, ofLine?_of_spells⟩

end WrittenSignature

end ShaderDialect
