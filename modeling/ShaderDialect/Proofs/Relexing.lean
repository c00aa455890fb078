import Mathlib.Data.List.Chain
import Mathlib.Tactic.ByContra
import ShaderDialect.Proofs.HiddenText
import ShaderDialect.Proofs.Splicing

/-!
# Reading a converted text

Edits delete tokens and promote literals. The text they give is cut into the
tokens of the source again: the gaps are hidden text as before, each token is
the one of the source, or a floating literal where it was promoted, and the
deleted ones are gone. This holds as long as the tokens in front of deleted ones
are sealed off, and no line end is made of two halves.
-/

namespace ShaderDialect

/-! ### The characters of tokens -/

namespace Literal

/-- Characters of words and numbers. -/
def isPart (c : Char) : Bool :=
  isWordPart c || ['.', '+', '-'].contains c

theorem isPart_of_isDigit {c : Char} (h : isDigit c) : isPart c := by
  simp [isPart, isWordPart, h]

theorem isPart_of_isHexDigit {c : Char} (h : isHexDigit c) : isPart c := by
  simp only [isHexDigit, Bool.or_eq_true, Bool.and_eq_true, decide_eq_true_eq] at h
  rcases h with (digit | ⟨low, high⟩) | ⟨low, high⟩
  · exact isPart_of_isDigit digit
  · simp [isPart, isWordPart, isWordStart, isLetter, low,
      Char.le_trans high (by decide : 'f' ≤ 'z')]
  · simp [isPart, isWordPart, isWordStart, isLetter, low,
      Char.le_trans high (by decide : 'F' ≤ 'Z')]

theorem isPart_sign (cs : List Char) : ∀ c ∈ (sign cs).1, isPart c := by
  rw [← List.all_eq_true]
  unfold sign
  split <;> rfl

theorem isPart_floatSuffix (cs : List Char) : ∀ c ∈ (floatSuffix cs).1, isPart c := by
  rw [← List.all_eq_true]
  unfold floatSuffix
  split <;> rfl

theorem isPart_unsignedSuffix (cs : List Char) :
    ∀ c ∈ (unsignedSuffix cs).1, isPart c := by
  rw [← List.all_eq_true]
  unfold unsignedSuffix
  split <;> rfl

theorem isPart_takeWhile (cs : List Char) : ∀ c ∈ cs.takeWhile isDigit, isPart c :=
  fun c member => isPart_of_isDigit (List.all_eq_true.1 List.all_takeWhile c member)

theorem isPart_exponent? {cs read rest : List Char}
    (h : exponent? cs = some (read, rest)) :
    ∀ c ∈ read, isPart c := by
  cases cs with
  | nil => cases h
  | cons e cs =>
    by_cases isMark : (e = 'e' || e = 'E') = true
    · rw [exponent?, if_pos isMark] at h
      obtain ⟨⟨digits, rest⟩, found, same⟩ := Option.map_eq_some_iff.1 h
      cases same
      obtain ⟨-, -, all, -⟩ := run?_eq_some found
      have mark : isPart e := by
        rcases Bool.or_eq_true_iff.1 isMark with same | same <;>
          rw [of_decide_eq_true same] <;> decide
      simp only [List.cons_append, List.forall_mem_cons, List.forall_mem_append]
      exact ⟨mark, isPart_sign cs, fun c member => isPart_of_isDigit (all c member)⟩
    · rw [exponent?, if_neg isMark] at h
      cases h

theorem isPart_mantissa? {cs read rest : List Char}
    (h : mantissa? cs = some (read, rest)) :
    ∀ c ∈ read, isPart c := by
  unfold mantissa? at h
  simp only at h
  split at h
  · rename_i tail _
    split at h
    · cases h
    · cases h
      have exponent :
          ∀ c ∈ ((exponent? (tail.dropWhile isDigit)).getD ([], tail.dropWhile isDigit)).1,
            isPart c := by
        cases found : exponent? (tail.dropWhile isDigit) with
        | none => exact fun _ => nofun
        | some pair => exact isPart_exponent? found
      simp only [List.forall_mem_append, List.forall_mem_cons]
      exact ⟨⟨isPart_takeWhile cs, by decide, isPart_takeWhile tail⟩, exponent⟩
  · split at h
    · cases h
    · obtain ⟨⟨exponent, after⟩, found, same⟩ := Option.map_eq_some_iff.1 h
      cases same
      exact List.forall_mem_append.2 ⟨isPart_takeWhile cs, isPart_exponent? found⟩

theorem isPart_float? {cs read rest : List Char} (h : float? cs = some (read, rest)) :
    ∀ c ∈ read, isPart c := by
  obtain ⟨⟨number, after⟩, found, same⟩ := Option.map_eq_some_iff.1 h
  cases same
  exact List.forall_mem_append.2 ⟨isPart_mantissa? found, isPart_floatSuffix after⟩

theorem isPart_int? {cs read rest : List Char} (h : int? cs = some (read, rest)) :
    ∀ c ∈ read, isPart c := by
  obtain ⟨⟨number, after⟩, found, same⟩ := Option.map_eq_some_iff.1 h
  cases same
  refine List.forall_mem_append.2 ⟨?_, isPart_unsignedSuffix after⟩
  rcases Option.or_eq_some_iff.1 found with found | ⟨-, found⟩
  · obtain ⟨x, tail, digits, -, rfl, isMark, read⟩ := hexadecimal?_eq_some found
    obtain ⟨-, -, all, -⟩ := run?_eq_some read
    have mark : isPart x := by rcases isMark with rfl | rfl <;> decide
    simp only [List.forall_mem_cons]
    exact ⟨by decide, mark, fun c member => isPart_of_isHexDigit (all c member)⟩
  · obtain ⟨-, -, all, -⟩ := run?_eq_some found
    exact fun c member => isPart_of_isDigit (all c member)

theorem isPart_word? {cs read rest : List Char} (h : word? cs = some (read, rest)) :
    ∀ c ∈ read, isPart c := by
  cases cs with
  | nil => cases h
  | cons c cs =>
    by_cases isStart : isWordStart c
    · rw [word?, if_pos isStart] at h
      cases h
      refine List.forall_mem_cons.2 ⟨by simp [isPart, isWordPart, isStart], fun d member => ?_⟩
      have part := List.all_eq_true.1 List.all_takeWhile d member
      simp [isPart, part]
    · rw [word?, if_neg isStart] at h
      cases h

theorem inLine_of_isPart {c : Char} (h : isPart c) : ! Hidden.isLineEnd c := by
  cases isEnd : Hidden.isLineEnd c with
  | false => rfl
  | true =>
    rcases Bool.or_eq_true_iff.1 isEnd with same | same <;>
      rw [of_decide_eq_true same] at h <;>
      exact absurd h (by decide)

end Literal

theorem Token.inLine_operators {mark : String} (h : mark ∈ Vocabulary.operators) :
    ∀ c ∈ mark.toList, ! Hidden.isLineEnd c := by
  rw [← List.all_eq_true]
  revert mark
  decide

/-- No token goes on behind a line end. -/
theorem Token.inLine_scan? {cs read rest : List Char} {kind : TokenKind}
    (h : scan? cs = some (kind, read, rest)) : ∀ c ∈ read, ! Hidden.isLineEnd c := by
  rcases scan?_cases h with ⟨float, -⟩ | ⟨-, int, -⟩ | ⟨-, -, word, -⟩ |
    ⟨-, -, -, mark, -⟩
  · exact fun c member => Literal.inLine_of_isPart (Literal.isPart_float? float c member)
  · exact fun c member => Literal.inLine_of_isPart (Literal.isPart_int? int c member)
  · exact fun c member => Literal.inLine_of_isPart (Literal.isPart_word? word c member)
  · obtain ⟨-, mark, listed, rfl⟩ := mark?_append mark
    exact inLine_operators listed

/-- A seal is a token whatever follows it. -/
theorem Token.scan?_seal {c : Char} (sealing : isSeal c) (cs : List Char) :
    scan? (c :: cs) = some (.punct, [c], cs) := by
  simp only [isSeal, List.contains_eq_mem, List.mem_cons, List.not_mem_nil, or_false,
    decide_eq_true_eq] at sealing
  have notDigit : Literal.isDigit c = false := by
    rcases sealing with rfl | rfl | rfl | rfl | rfl | rfl <;> decide
  have notStart : Literal.isWordStart c = false := by
    rcases sealing with rfl | rfl | rfl | rfl | rfl | rfl <;> decide
  have notPoint : c ≠ '.' := by
    rcases sealing with rfl | rfl | rfl | rfl | rfl | rfl <;> decide
  have mark : mark? Vocabulary.operators (c :: cs) = some ([c], cs) := by
    rcases sealing with rfl | rfl | rfl | rfl | rfl | rfl <;>
      simp [mark?, Vocabulary.operators]
  have stops : Stops Literal.isDigit (c :: cs) := by
    rintro _ ⟨⟩
    exact notDigit
  have noWord : Literal.word? (c :: cs) = none := by
    simp [Literal.word?, notStart]
  have noFloat := Literal.float?_eq_none_of_stops stops (by simpa using notPoint)
  simp only [scan?, noFloat, Literal.int?_eq_none.2 stops, noWord, mark]

/-! ### Texts by their tokens -/

/-- The text is hidden text and tokens in turn, where the tokens have the given
spellings. -/
inductive ReadsAs : List Char → List (TokenKind × String) → Prop where
  | finish {cs : List Char} (hidden : (Hidden.skip cs).2 = []) : ReadsAs cs []
  | token {cs read rest : List Char} {kind : TokenKind} {spellings : List (TokenKind × String)}
      (scanned : Token.scan? (Hidden.skip cs).2 = some (kind, read, rest))
      (others : ReadsAs rest spellings) :
        ReadsAs cs ((kind, String.ofList read) :: spellings)

/-- Hidden text plays no part. -/
theorem ReadsAs.of_skip_eq {cs cs' : List Char} {spellings : List (TokenKind × String)}
    (h : ReadsAs cs spellings) (same : (Hidden.skip cs').2 = (Hidden.skip cs).2) :
    ReadsAs cs' spellings := by
  cases h with
  | finish hidden => exact .finish (same.trans hidden)
  | token scanned others => exact .token (by rw [same, scanned]) others

/-- No letter stands right behind an integer literal of the text. -/
inductive LiteralsApart : List Char → Prop where
  | finish {cs : List Char} (hidden : (Hidden.skip cs).2 = []) : LiteralsApart cs
  | token {cs read rest : List Char} {kind : TokenKind}
      (scanned : Token.scan? (Hidden.skip cs).2 = some (kind, read, rest))
      (apart : kind = .intLiteral → Stops Literal.isWordStart rest) (others : LiteralsApart rest) :
      LiteralsApart cs

theorem LiteralsApart.of_skip_eq {cs cs' : List Char} (h : LiteralsApart cs)
    (same : (Hidden.skip cs').2 = (Hidden.skip cs).2) : LiteralsApart cs' := by
  cases h with
  | finish hidden => exact .finish (same.trans hidden)
  | token scanned apart others => exact .token (by rw [same, scanned]) apart others

theorem literalsApart_iff {cs read rest : List Char} {kind : TokenKind}
    (scanned : Token.scan? (Hidden.skip cs).2 = some (kind, read, rest)) :
    LiteralsApart cs ↔ (kind = .intLiteral → Stops Literal.isWordStart rest) ∧
    LiteralsApart rest := by
  refine ⟨fun h => ?_, fun ⟨apart, others⟩ => .token scanned apart others⟩
  cases h with
  | finish hidden => exact absurd hidden (Token.ne_nil_of_scan? scanned)
  | token scanned' apart others =>
    cases scanned.symm.trans scanned'
    exact ⟨apart, others⟩

namespace TokenStream

theorem lexemesFrom_finish {cs : List Char} (h : (Hidden.skip cs).2 = [])
    (table : LineTable)
    (index offset : Nat) : lexemesFrom table index offset cs = .ok [] := by
  rw [lexemesFrom]
  split
  · rfl
  · rename_i shape
    rw [h] at shape
    cases shape

/-- A token that can be scanned is the next lexeme. -/
theorem exists_lexemesFrom_cons {cs read rest : List Char} {kind : TokenKind}
    (scanned : Token.scan? (Hidden.skip cs).2 = some (kind, read, rest))
    (table : LineTable) (index offset : Nat) :
    ∃ table' offset' position, lexemesFrom table index offset cs =
      (lexemesFrom table' (index + 1) offset' rest).map
        ({ index, kind, text := String.ofList read, start := offset + byteSize (Hidden.skip cs).1
           stop := offset', position } :: ·) := by
  rw [lexemesFrom]
  split
  · rename_i shape
    rw [shape] at scanned
    cases scanned
  · rename_i c visible shape
    split
    · rename_i found
      rw [← shape, scanned] at found
      cases found
    · rename_i found
      rw [← shape, scanned] at found
      cases found
      exact ⟨_, _, _, rfl⟩

theorem exists_lexemesFrom {cs : List Char} {spellings : List (TokenKind × String)}
    (h : ReadsAs cs spellings) (table : LineTable) (index offset : Nat) :
    ∃ lexemes, lexemesFrom table index offset cs = .ok lexemes ∧
      lexemes.map (·.spelling) = spellings := by
  induction h generalizing table index offset with
  | finish hidden => exact ⟨[], lexemesFrom_finish hidden table index offset, rfl⟩
  | token scanned others ih =>
    obtain ⟨table', offset', position, cut⟩ :=
      exists_lexemesFrom_cons scanned table index offset
    obtain ⟨lexemes, found, same⟩ := ih table' (index + 1) offset'
    refine ⟨_, by rw [cut, found]; rfl, ?_⟩
    rw [List.map_cons, same]
    rfl

theorem exists_ofSource {cs : List Char} {spellings : List (TokenKind × String)}
    (h : ReadsAs cs spellings) : ∃ stream, ofSource (String.ofList cs) = .ok stream ∧
      stream.tokens.map Token.spelling = spellings := by
  obtain ⟨lexemes, found, same⟩ := exists_lexemesFrom h (LineTable.ofText cs) 0 0
  refine ⟨_, by simp [ofSource, found, bind, Except.bind, pure, Except.pure]; rfl, ?_⟩
  rw [tokens, List.map_map]
  exact same

end TokenStream

/-! ### Edits that can be read back -/

namespace Edits

/-- What is read in the place of a token of the source: nothing if it is
deleted, a floating literal if it is promoted. -/
def spelling? (edits : Edits) (token : Token) : Option (TokenKind × String) :=
  match edits.get? token.index with
  | none => some token.spelling
  | some text => if text = "" then none else some (.floatLiteral, token.text ++ ".0")

/-- All new spellings delete a token or promote a literal. -/
def Rewrites (edits : Edits) (lexemes : List Lexeme) : Prop :=
  ∀ lexeme ∈ lexemes, ∀ text, edits.get? lexeme.index = some text →
    text = "" ∨ lexeme.kind = .intLiteral ∧
      (∀ c ∈ lexeme.text.toList, Literal.isDigit c) ∧ text = lexeme.text ++ ".0"

/-- No floating suffix stands right behind an integer literal with a new
spelling. -/
def Unsuffixed (edits : Edits) (lexemes : List Lexeme) : Prop :=
  lexemes.IsChain fun lexeme next =>
    (edits.get? lexeme.index).isSome → lexeme.kind = .intLiteral →
      lexeme.stop = next.start →
      (Literal.floatSuffix next.text.toList).1 = []

instance (edits : Edits) (lexemes : List Lexeme) : Decidable (edits.Unsuffixed lexemes) :=
  inferInstanceAs (Decidable (List.IsChain _ lexemes))

/-- A token that stays in front of a deleted one is a seal, or both are words. -/
def Sealed (edits : Edits) (lexemes : List Lexeme) : Prop :=
  lexemes.IsChain fun lexeme next =>
    edits.get? lexeme.index ≠ some "" → edits.get? next.index = some "" →
      (∃ c, isSeal c ∧ lexeme.text.toList = [c]) ∨
        ¬ Stops Literal.isWordStart lexeme.text.toList ∧
          ¬ Stops Literal.isWordPart next.text.toList

/-- All lexemes are deleted, and they stand one right behind the other from an
offset on. -/
inductive DeletesRun (edits : Edits) : Nat → List Lexeme → Prop where
  | nil {offset : Nat} : DeletesRun edits offset []
  | cons {offset : Nat} {lexeme : Lexeme} {run : List Lexeme}
      (deleted : edits.get? lexeme.index = some "") (start : lexeme.start = offset)
      (others : DeletesRun edits lexeme.stop run) :
        DeletesRun edits offset (lexeme :: run)

/-- A carriage return stands right before a run of deleted tokens and a line
feed right behind it. -/
def JoinsLineEnd (edits : Edits) (offset : Nat) (lexemes : List Lexeme)
    (cs : List Char) : Prop :=
  ∃ before run after, run ≠ [] ∧ run <:+: lexemes ∧
    edits.DeletesRun (offset + byteSize (before ++ ['\r'])) run ∧
    cs = before ++ ['\r'] ++ (run.flatMap (·.text.toList) ++ '\n' :: after)

theorem JoinsLineEnd.cons {edits : Edits} {offset : Nat} {lexemes : List Lexeme}
    {front cs : List Char} (h : edits.JoinsLineEnd (offset + byteSize front) lexemes cs)
    (lexeme : Lexeme) : edits.JoinsLineEnd offset (lexeme :: lexemes) (front ++ cs) := by
  obtain ⟨before, run, after, nonempty, inside, deletes, rfl⟩ := h
  refine ⟨front ++ before, run, after, nonempty, inside.trans (List.suffix_cons _ _).isInfix, ?_,
    by simp⟩
  simpa [Nat.add_assoc] using deletes

theorem not_joinsLineEnd_of_notMem {cs : List Char} (absent : '\r' ∉ cs) (edits : Edits)
    (offset : Nat) (lexemes : List Lexeme) : ¬ edits.JoinsLineEnd offset lexemes cs := by
  rintro ⟨before, run, after, -, -, -, rfl⟩
  exact absent (by simp)

/-- The converted text is the edited rest of a text that starts with a run of
deleted tokens. -/
def Trims (edits : Edits) (offset : Nat) (lexemes : List Lexeme)
    (cs cs' : List Char) : Prop :=
  ∃ run others tail, lexemes = run ++ others ∧ cs = run.flatMap (·.text.toList) ++ tail ∧
    edits.DeletesRun offset run ∧ Edited tail cs'

theorem Trims.of_edited {edits : Edits} {offset : Nat} {lexemes : List Lexeme}
    {cs cs' : List Char} (h : Edited cs cs') : edits.Trims offset lexemes cs cs' :=
  ⟨[], lexemes, cs, rfl, rfl, .nil, h⟩

end Edits

/-- A text that starts with a letter starts with a word. -/
theorem scan?_of_isWordStart {c : Char} (isStart : Literal.isWordStart c)
    (cs : List Char) :
    Token.scan? (c :: cs) =
      some (Token.wordKind (String.ofList (c :: cs.takeWhile Literal.isWordPart)),
        c :: cs.takeWhile Literal.isWordPart, cs.dropWhile Literal.isWordPart) := by
  have stops : Stops Literal.isDigit (c :: cs) := by
    rintro d ⟨⟩
    exact Literal.isDigit_of_isWordStart isStart
  have notPoint : c ≠ '.' := by
    rintro rfl
    exact absurd isStart (by decide)
  have noFloat := Literal.float?_eq_none_of_stops stops (by simpa using notPoint)
  simp only [Token.scan?, noFloat, Literal.int?_eq_none.2 stops, Literal.word?,
    if_pos isStart]

/-- A floating suffix is the start of a word. -/
theorem exists_scan_of_floatSuffix {cs : List Char}
    (h : (Literal.floatSuffix cs).1 ≠ []) :
    Hidden.skip cs = ([], cs) ∧ ∃ kind read rest,
      Token.scan? cs = some (kind, read, rest) ∧
      (Literal.floatSuffix read).1 ≠ [] := by
  unfold Literal.floatSuffix at h
  split at h
  · exact ⟨Hidden.skip_of_none rfl, _, _, _, scan?_of_isWordStart rfl _,
      List.cons_ne_nil _ _⟩
  · exact ⟨Hidden.skip_of_none rfl, _, _, _, scan?_of_isWordStart rfl _,
      List.cons_ne_nil _ _⟩
  · exact ⟨Hidden.skip_of_none rfl, _, _, _, scan?_of_isWordStart rfl _,
      List.cons_ne_nil _ _⟩
  · exact ⟨Hidden.skip_of_none rfl, _, _, _, scan?_of_isWordStart rfl _,
      List.cons_ne_nil _ _⟩
  · exact absurd rfl h

namespace Lexed

/-- No floating suffix stands behind a promoted token. -/
theorem floatSuffix_eq_nil {edits : Edits} {index offset : Nat} {rest : List Char}
    {lexemes : List Lexeme} (h : Lexed [] index offset rest lexemes) {lexeme : Lexeme}
    (stop : lexeme.stop = offset) (unsuffixed : edits.Unsuffixed (lexeme :: lexemes))
    (respelled : (edits.get? lexeme.index).isSome) (isInt : lexeme.kind = .intLiteral) :
    (Literal.floatSuffix rest).1 = [] := by
  by_contra suffixed
  obtain ⟨hidden, kind, read, after, scanned, marked⟩ :=
    exists_scan_of_floatSuffix suffixed
  cases h with
  | finish none =>
    rw [hidden] at none
    obtain rfl : rest = [] := none
    exact suffixed rfl
  | lexeme position found others =>
    rw [hidden] at found
    obtain ⟨⟩ := scanned.symm.trans found
    obtain ⟨plain, -⟩ := List.isChain_cons_cons.1 unsuffixed
    refine marked ?_
    have next := plain respelled isInt
    rw [String.toList_ofList] at next
    exact next (by simp [stop, hidden])

/-- The tokens of a run have no line end in them. -/
theorem inLine_flatMap {index offset : Nat} {cs : List Char} {lexemes : List Lexeme}
    (h : Lexed [] index offset cs lexemes) {run : List Lexeme} (inside : run ⊆ lexemes) :
    ∀ c ∈ run.flatMap (·.text.toList), ! Hidden.isLineEnd c := by
  intro c member
  obtain ⟨lexeme, listed, member⟩ := List.mem_flatMap.1 member
  obtain ⟨visible, read, rest, scanned, spelling⟩ := h.scanned_of_mem (inside listed)
  rw [spelling, String.toList_ofList] at member
  exact Token.inLine_scan? scanned c member

/-- A token is read from the converted text in its new spelling, where no deleted
one stands right behind it. -/
theorem exists_rescanned_of_edited {edits : Edits} {index offset : Nat}
    {visible read rest rest' : List Char} {kind : TokenKind} {lexeme : Lexeme}
    {lexemes : List Lexeme} (scanned : Token.scan? visible = some (kind, read, rest))
    (others : Lexed [] index offset rest lexemes)
    (rewrites : edits.Rewrites (lexeme :: lexemes))
    (unsuffixed : edits.Unsuffixed (lexeme :: lexemes))
    (token : lexeme.toToken = ⟨lexeme.index, kind, String.ofList read⟩)
    (stop : lexeme.stop = offset)
    (kept : edits.get? lexeme.index ≠ some "") (edited : Edited rest rest') :
    ∃ kind' read', edits.spelling? lexeme.toToken = some (kind', String.ofList read') ∧
      ((edits.get? lexeme.index).map String.toList).getD read = read' ∧
      Edited visible (read' ++ rest') ∧
      Token.scan? (read' ++ rest') = some (kind', read', rest') ∧
      (kind' = .intLiteral → kind = .intLiteral ∧ rest'.head? = rest.head?) := by
  obtain ⟨rfl, nonempty⟩ := Token.scan?_append scanned
  cases planned : edits.get? lexeme.index with
  | none =>
    refine ⟨kind, read, ?_, rfl, edited.append read, Token.scan?_edited scanned edited,
      fun isInt => ⟨isInt, edited.head?_eq⟩⟩
    rw [Edits.spelling?, planned, token]
    rfl
  | some text =>
    obtain rfl | ⟨isInt, decimal, rfl⟩ := rewrites _ List.mem_cons_self text planned
    · exact absurd planned kept
    have plain := others.floatSuffix_eq_nil stop unsuffixed (by simp [planned]) isInt
    rw [token] at isInt decimal
    obtain rfl : kind = .intLiteral := isInt
    rw [String.toList_ofList] at decimal
    have spelling : lexeme.text ++ ".0" = String.ofList (read ++ ['.', '0']) := by
      rw [token, String.ofList_append]
    refine ⟨.floatLiteral, read ++ ['.', '0'], ?_, ?_, ?_, ?_, by rintro ⟨⟩⟩
    · rw [planned] at kept
      rw [Edits.spelling?, planned, ← spelling]
      exact if_neg fun empty => kept (congrArg some empty)
    · rw [Option.map_some, Option.getD_some, spelling, String.toList_ofList]
    · rw [List.append_assoc]
      exact edited.append_widen nonempty decimal
    · rw [List.append_assoc]
      exact Token.scan?_widen scanned decimal plain edited

/-- A token right before a run of deleted ones is a seal. -/
theorem exists_seal {edits : Edits} {read rest more : List Char} {kind : TokenKind}
    {lexeme next : Lexeme} {others : List Lexeme}
    (scanned : Token.scan? (read ++ rest) = some (kind, read, rest))
    (spelling : lexeme.text = String.ofList read)
    (kept : edits.get? lexeme.index ≠ some "")
    (isSealed : edits.Sealed (lexeme :: next :: others))
    (deleted : edits.get? next.index = some "")
    (shape : rest = next.text.toList ++ more) :
    ∃ c, isSeal c ∧ read = [c] ∧ kind = .punct := by
  rcases (List.isChain_cons_cons.1 isSealed).1 kept deleted with ⟨c, sealing, text⟩ |
    ⟨word, word'⟩
  · rw [spelling, String.toList_ofList] at text
    subst text
    rw [List.singleton_append, Token.scan?_seal sealing] at scanned
    cases scanned
    exact ⟨c, sealing, rfl, rfl⟩
  · -- The first word would not end where the second one starts.
    rw [spelling, String.toList_ofList] at word
    simp only [Stops, not_forall, Bool.not_eq_false] at word word'
    obtain ⟨c, first, isStart⟩ := word
    obtain ⟨read, rfl⟩ := List.head?_eq_some_iff.1 first
    obtain ⟨d, second, isPart⟩ := word'
    obtain ⟨text, same⟩ := List.head?_eq_some_iff.1 second
    rw [List.cons_append, scan?_of_isWordStart isStart] at scanned
    simp only [Option.some.injEq, Prod.mk.injEq] at scanned
    have stops := stops_dropWhile Literal.isWordPart (read ++ rest)
    rw [scanned.2.2, shape, same] at stops
    rw [stops d rfl] at isPart
    cases isPart

/-- A token that stays is read from the converted text in its new spelling. -/
theorem exists_rescanned {edits : Edits} {index offset : Nat}
    {visible read rest rest' : List Char} {kind : TokenKind} {lexeme : Lexeme}
    {lexemes : List Lexeme} (scanned : Token.scan? visible = some (kind, read, rest))
    (others : Lexed [] index offset rest lexemes)
    (rewrites : edits.Rewrites (lexeme :: lexemes))
    (unsuffixed : edits.Unsuffixed (lexeme :: lexemes))
    (isSealed : edits.Sealed (lexeme :: lexemes))
    (token : lexeme.toToken = ⟨lexeme.index, kind, String.ofList read⟩)
    (stop : lexeme.stop = offset)
    (kept : edits.get? lexeme.index ≠ some "")
    (trims : edits.Trims offset lexemes rest rest') :
    ∃ kind' read', edits.spelling? lexeme.toToken = some (kind', String.ofList read') ∧
      ((edits.get? lexeme.index).map String.toList).getD read = read' ∧
      Edited visible (read' ++ rest') ∧
      Token.scan? (read' ++ rest') = some (kind', read', rest') ∧
      (kind' = .intLiteral → kind = .intLiteral ∧ rest'.head? = rest.head?) := by
  obtain ⟨run, behind, tail, rfl, shape, deletes, edited⟩ := trims
  cases deletes with
  | nil =>
    obtain rfl : rest = tail := shape
    exact exists_rescanned_of_edited scanned others rewrites unsuffixed token stop kept edited
  | @cons _ next run deleted start deletes =>
    obtain ⟨rfl, -⟩ := Token.scan?_append scanned
    have spelling : lexeme.text = String.ofList read := congrArg Token.text token
    obtain ⟨c, sealing, rfl, rfl⟩ := exists_seal scanned spelling kept isSealed deleted
      (shape.trans (List.append_assoc ..))
    have unplanned : edits.get? lexeme.index = none := by
      refine Option.eq_none_iff_forall_ne_some.2 fun text planned => ?_
      obtain rfl | ⟨isInt, -⟩ := rewrites _ List.mem_cons_self text planned
      · exact kept planned
      · cases isInt.symm.trans (congrArg Token.kind token)
    refine ⟨.punct, [c], ?_, by rw [unplanned]; rfl, ?_, Token.scan?_seal sealing rest',
      by rintro ⟨⟩⟩
    · rw [Edits.spelling?, unplanned, token]
      rfl
    · have inLine := others.inLine_flatMap (List.subset_append_left (next :: run) behind)
      rw [shape, List.singleton_append, List.singleton_append]
      refine .cut (by simp [isSeam, sealing]) inLine ?_ edited
      rintro rfl
      exact absurd sealing (by decide)

/-- A deleted token is gone from the converted text, and the gap in front of it
goes on. -/
theorem trims_of_deleted {edits : Edits} {offset : Nat} {cs rest' tail : List Char}
    {lexeme : Lexeme} {run behind : List Lexeme} (visible : (Hidden.skip cs).2 ≠ [])
    (shape : (Hidden.skip cs).2 = (lexeme :: run).flatMap (·.text.toList) ++ tail)
    (deletes : edits.DeletesRun (offset + byteSize (Hidden.skip cs).1) (lexeme :: run))
    (inLine : ∀ c ∈ (lexeme :: run).flatMap (·.text.toList), ! Hidden.isLineEnd c)
    (apart : ¬ edits.JoinsLineEnd offset (lexeme :: (run ++ behind)) cs)
    (edited : Edited tail rest') :
    edits.Trims offset (lexeme :: (run ++ behind)) cs ((Hidden.skip cs).1 ++ rest') ∧
      (Hidden.skip ((Hidden.skip cs).1 ++ rest')).2 = (Hidden.skip rest').2 := by
  have text := Hidden.skip_append cs
  rw [shape] at text
  have apart' : (Hidden.skip cs).1.getLast? = some '\r' → rest'.head? ≠ some '\n' := by
    intro last feed
    obtain ⟨before, gap⟩ := List.getLast?_eq_some_iff.1 last
    rw [edited.head?_eq] at feed
    obtain ⟨after, rfl⟩ := List.head?_eq_some_iff.1 feed
    rw [gap] at text deletes
    exact apart ⟨before, lexeme :: run, after, List.cons_ne_nil _ _,
      (List.prefix_append (lexeme :: run) behind).isInfix, deletes, text.symm⟩
  refine ⟨?_, by rw [Hidden.skip_append_right visible apart']⟩
  by_cases hidden : (Hidden.skip cs).1 = []
  · rw [hidden] at text deletes ⊢
    exact ⟨lexeme :: run, behind, tail, rfl, text.symm, deletes, edited⟩
  · refine .of_edited ?_
    obtain ⟨before, ⟨c, blank, gap⟩ | gap⟩ := Hidden.exists_seam visible hidden
    · rw [gap, List.append_assoc] at text
      rw [gap, List.getLast?_concat] at apart'
      rw [gap, ← text, List.append_assoc]
      refine (Edited.cut ?_ inLine (fun isReturn => apart' (by rw [isReturn])) edited).append before
      simp [isSeam, blank]
    · rw [gap, List.append_assoc] at text
      rw [gap, ← text, List.append_assoc]
      exact (Edited.cutComment inLine edited).append before

/-- The text with its edits is cut into the tokens that stay, where promoted
literals are floating. Letters do not come to stand behind its literals. -/
theorem exists_respelled_apart {edits : Edits} {index offset : Nat} {cs : List Char}
    {lexemes : List Lexeme} (h : Lexed [] index offset cs lexemes)
    (rewrites : edits.Rewrites lexemes) (unsuffixed : edits.Unsuffixed lexemes)
    (isSealed : edits.Sealed lexemes) (apart : ¬ edits.JoinsLineEnd offset lexemes cs) :
    ∃ cs', edits.spliceFrom offset lexemes cs = .ok cs' ∧
      edits.Trims offset lexemes cs cs' ∧
      ReadsAs cs' ((lexemes.map Lexeme.toToken).filterMap edits.spelling?) ∧
      (LiteralsApart cs → LiteralsApart cs') := by
  induction h with
  | @finish index offset cs hidden =>
    exact ⟨cs, rfl, .of_edited (Edited.refl cs), .finish hidden, id⟩
  | @lexeme index offset cs read rest kind lexemes position scanned others ih =>
    have text : cs = (Hidden.skip cs).1 ++ read ++ rest := by
      rw [List.append_assoc, (Token.scan?_append scanned).1, Hidden.skip_append]
    have visible := Token.ne_nil_of_scan? scanned
    have apart' :
        ¬ edits.JoinsLineEnd (offset + byteSize (Hidden.skip cs).1 + byteSize read) lexemes
          rest := by
      intro joins
      rw [Nat.add_assoc, ← byteSize_append] at joins
      have joins' := joins.cons
      rw [← text] at joins'
      exact apart (joins' _)
    obtain ⟨rest', spliced, trims, reads, keeps⟩ := ih
      (fun lexeme member => rewrites lexeme (List.mem_cons_of_mem _ member)) unsuffixed.tail
      isSealed.tail apart'
    refine ⟨_, spliceFrom_cons edits scanned spliced, ?_⟩
    rw [literalsApart_iff scanned]
    by_cases deleted : edits.get? index = some ""
    · obtain ⟨run, behind, tail, rfl, shape, deletes, edited⟩ := trims
      have inLine := (Lexed.lexeme position scanned others).inLine_flatMap
        (List.cons_subset_cons _ (List.subset_append_left run behind))
      obtain ⟨trims, hidden⟩ := trims_of_deleted visible
        (by rw [← (Token.scan?_append scanned).1, shape]; simp) (.cons deleted rfl deletes)
          inLine apart
        edited
      have gone : edits.spelling? ⟨index, kind, String.ofList read⟩ = none := by
        rw [Edits.spelling?, deleted]
        rfl
      rw [deleted, List.map_cons, List.filterMap_cons_none gone]
      exact ⟨trims, reads.of_skip_eq hidden, fun separate => (keeps separate.2).of_skip_eq hidden⟩
    · obtain ⟨kind', read', spelling, new, edited, rescanned, literal⟩ :=
        exists_rescanned scanned others rewrites unsuffixed isSealed rfl rfl deleted trims
      have again : Token.scan? (Hidden.skip ((Hidden.skip cs).1 ++ (read' ++ rest'))).2 =
          some (kind', read', rest') := by
        rw [Hidden.skip_edited edited, rescanned]
      have editedText := edited.append (Hidden.skip cs).1
      rw [Hidden.skip_append] at editedText
      rw [new, List.map_cons, List.filterMap_cons_some spelling]
      refine ⟨.of_edited editedText, .token again reads, fun separate => ?_⟩
      refine .token again (fun isInt => ?_) (keeps separate.2)
      obtain ⟨wasInt, head⟩ := literal isInt
      rw [Stops, head]
      exact separate.1 wasInt

theorem exists_respelled {edits : Edits} {index offset : Nat} {cs : List Char}
    {lexemes : List Lexeme} (h : Lexed [] index offset cs lexemes)
    (rewrites : edits.Rewrites lexemes) (unsuffixed : edits.Unsuffixed lexemes)
    (isSealed : edits.Sealed lexemes) (apart : ¬ edits.JoinsLineEnd offset lexemes cs) :
    ∃ cs', edits.spliceFrom offset lexemes cs = .ok cs' ∧
      edits.Trims offset lexemes cs cs' ∧
      ReadsAs cs' ((lexemes.map Lexeme.toToken).filterMap edits.spelling?) := by
  obtain ⟨cs', spliced, trims, reads, -⟩ :=
    h.exists_respelled_apart rewrites unsuffixed isSealed apart
  exact ⟨cs', spliced, trims, reads⟩

end Lexed

end ShaderDialect
