import ShaderDialect.Proofs.HiddenText

/-!
# A source falls into tokens and hidden text

Hidden text is described here by what it looks like and not by how it is read:
runs of blanks, comments and directives, each with what may follow it. A source
that can be cut is hidden text and tokens by turns, from its first byte to its
last. A source that cannot be cut is so up to one character, which starts
neither a token nor hidden text.
-/

namespace ShaderDialect

/-! ### What hidden text is -/

namespace Hidden

/-- The text of a directive behind its hash sign. Lines end in it only behind
a backslash. -/
inductive Continued : List Char → Prop
  | nil : Continued []
  | char {c : Char} {body : List Char} (inLine : isLineEnd c = false) (more : Continued body) :
      Continued (c :: body)
  | feed {body : List Char} (more : Continued body) : Continued ('\\' :: '\n' :: body)
  | returnFeed {body : List Char} (more : Continued body) :
      Continued ('\\' :: '\r' :: '\n' :: body)

/-- A piece of hidden text, and the text behind it. -/
inductive Piece : List Char → List Char → Prop
  | blanks {piece rest : List Char} (nonempty : piece ≠ [])
      (blank : ∀ c ∈ piece, isBlank c)
      (stops : Stops isBlank rest) : Piece piece rest
  | lineComment {body rest : List Char} (inLine : ∀ c ∈ body, ! isLineEnd c)
      (stops : Stops (! isLineEnd ·) rest) (ends : endsLine rest) :
      Piece ('/' :: '/' :: body) rest
  -- The mark that closes the comment is the first one behind the opening.
  | blockComment {body rest : List Char} (inside : ¬ ['*', '/'] <:+: body ++ ['*']) :
      Piece ('/' :: '*' :: body ++ ['*', '/']) rest
  | directive {body rest : List Char} (lines : Continued body) (stops : Stops (! isLineEnd ·) rest)
      (ends : body.getLast? = some '\\' → rest ≠ [] → endsLine rest = false) :
      Piece ('#' :: body) rest

/-- Pieces of hidden text one behind the other, and the text behind them. -/
inductive Gap : List Char → List Char → Prop
  | nil {rest : List Char} : Gap [] rest
  | cons {piece gap rest : List Char} (first : Piece piece (gap ++ rest)) (others : Gap gap rest) :
      Gap (piece ++ gap) rest

theorem getLast?_of_feed {body : List Char} (last : ('\n' :: body).getLast? = some '\\') :
    body.getLast? = some '\\' := by
  cases body with
  | nil => cases last
  | cons c body => simpa using last

/-- A directive goes on behind a backslash at the end of a line, and nowhere
else. -/
theorem continued_directiveBody (cs : List Char) :
    Continued (directiveBody cs).1 ∧
      ((directiveBody cs).1.getLast? = some '\\' → (directiveBody cs).2 ≠ [] →
        endsLine (directiveBody cs).2 = false) := by
  fun_induction directiveBody cs with
  | case1 cs body rest found ih =>
    rw [found] at ih
    exact ⟨.returnFeed ih.1, fun last => ih.2 (getLast?_of_feed last)⟩
  | case2 cs body rest found ih =>
    rw [found] at ih
    exact ⟨.feed ih.1, fun last => ih.2 (getLast?_of_feed last)⟩
  | case3 c cs _ _ isEnd => exact ⟨.nil, by simp⟩
  | case4 c cs noReturn noFeed inLine body rest found ih =>
    have whole := directiveBody_append cs
    have stops := stops_directiveBody cs
    rw [found] at ih whole stops
    refine ⟨.char (by simpa using inLine) ih.1, fun last nonempty => ?_⟩
    cases body with
    | nil =>
      obtain rfl : c = '\\' := by simpa using last
      obtain rfl : rest = cs := whole
      cases rest with
      | nil => exact absurd rfl nonempty
      | cons d rest =>
        have isEnd : isLineEnd d := by simpa using stops d rfl
        rcases Bool.or_eq_true_iff.1 isEnd with same | same
        · obtain rfl := of_decide_eq_true same
          rw [endsLine_return]
          refine beq_eq_false_iff_ne.2 fun next => ?_
          obtain ⟨more, rfl⟩ := List.head?_eq_some_iff.1 next
          exact noReturn _ rfl rfl
        · obtain rfl := of_decide_eq_true same
          exact absurd rfl (noFeed _ rfl)
    | cons d body => exact ih.2 (by simpa using last) nonempty
  | case5 => exact ⟨.nil, by simp⟩

theorem piece_of_piece? {cs piece rest : List Char} (h : piece? cs = some (piece, rest)) :
    Piece piece rest := by
  simp only [piece?, Option.or_eq_some_iff, Option.or_eq_none_iff] at h
  rcases h with ((h | ⟨-, h⟩) | ⟨-, h⟩) | ⟨-, h⟩
  · obtain ⟨-, nonempty, blank, stops⟩ := Literal.run?_eq_some (p := isBlank) h
    exact .blanks nonempty blank stops
  · obtain ⟨body, rfl, inLine, stops, ends⟩ := lineComment?_eq_some h
    exact .lineComment inLine stops ends
  · unfold blockComment? at h
    split at h
    · obtain ⟨⟨body, after⟩, found, same⟩ := Option.map_eq_some_iff.1 h
      cases same
      obtain ⟨before, rfl, inside⟩ := exists_first_blockEnd found
      exact .blockComment inside
    · cases h
  · unfold directive? at h
    split at h
    · rename_i text
      cases h
      obtain ⟨lines, ends⟩ := continued_directiveBody text
      exact .directive lines (stops_directiveBody text) ends
    · cases h

theorem gap_skip (cs : List Char) : Gap (skip cs).1 (skip cs).2 := by
  fun_induction skip cs with
  | case1 cs none => exact .nil
  | case2 cs piece rest found _ gap after skipped ih =>
    rw [skipped] at ih
    have text := skip_append rest
    rw [skipped] at text
    exact .cons (text ▸ piece_of_piece? found) ih

theorem piece?_skip (cs : List Char) : piece? (skip cs).2 = none := by
  fun_induction skip cs with
  | case1 cs none => exact none
  | case2 cs piece rest found _ gap after skipped ih =>
    rw [skipped] at ih
    exact ih

end Hidden

/-! ### Tokens and gaps by turns -/

/-- From byte `start` up to byte `stop`, both at the start of a character, a text
has `part`, and `rest` comes behind. -/
def Spans (text : List Char) (start stop : Nat) (part rest : List Char) : Prop :=
  ∃ before, text = before ++ part ++ rest ∧ byteSize before = start ∧
    byteSize (before ++ part) = stop

/-- A lexeme is a token of a text, where its range says. -/
structure Lexeme.CutFrom (lexeme : Lexeme) (text : List Char) : Prop where
  kind : lexeme.kind ≠ .finish
  nonempty : lexeme.text ≠ ""
  ascending : lexeme.start < lexeme.stop
  token : ∃ rest, Spans text lexeme.start lexeme.stop lexeme.text.toList rest ∧
    Token.scan? (lexeme.text.toList ++ rest) =
      some (lexeme.kind, lexeme.text.toList, rest)

/-- From byte `offset` up to byte `stop` a text is hidden text and the given
lexemes by turns, and these are numbered from `index`. -/
structure Partition (text : List Char) (index offset stop : Nat) (lexemes : List Lexeme) :
    Prop where
  numbered : lexemes.map (·.index) = List.range' index lexemes.length
  cut : ∀ lexeme ∈ lexemes, lexeme.CutFrom text
  within : ∀ lexeme ∈ lexemes, offset ≤ lexeme.start ∧ lexeme.stop ≤ stop
  disjoint : lexemes.Pairwise (·.stop ≤ ·.start)
  gaps : ∀ range ∈ (offset :: lexemes.map (·.stop)).zip (lexemes.map (·.start) ++ [stop]),
    ∃ gap rest, Spans text range.1 range.2 gap rest ∧ Hidden.Gap gap rest

theorem Partition.cons {text : List Char} {index offset stop : Nat} {lexeme : Lexeme}
    {lexemes : List Lexeme} (h : Partition text (index + 1) lexeme.stop stop lexemes)
    (number : lexeme.index = index) (cut : lexeme.CutFrom text)
    (front : offset ≤ lexeme.start) (back : lexeme.stop ≤ stop)
    (gap : ∃ gap rest, Spans text offset lexeme.start gap rest ∧ Hidden.Gap gap rest) :
    Partition text index offset stop (lexeme :: lexemes) where
  numbered := by simp [h.numbered, number, List.range'_succ]
  cut := List.forall_mem_cons.2 ⟨cut, h.cut⟩
  within := by
    refine List.forall_mem_cons.2 ⟨⟨front, back⟩, fun later member => ?_⟩
    have behind := h.within later member
    have ascending := cut.ascending
    exact ⟨by omega, behind.2⟩
  disjoint :=
    List.pairwise_cons.2 ⟨fun later member => (h.within later member).1, h.disjoint⟩
  gaps := List.forall_mem_cons.2 ⟨gap, h.gaps⟩

namespace Lexed

variable {index offset : Nat} {cs left : List Char} {lexemes : List Lexeme}

theorem piece?_left (h : Lexed left index offset cs lexemes) :
    Hidden.piece? left = none := by
  induction h with
  | finish hidden => exact hidden ▸ Hidden.piece?_skip _
  | lexeme position scanned others ih => exact ih

/-- What was read is a partition of the text up to where reading came. -/
theorem partition (h : Lexed left index offset cs lexemes) (front : List Char)
    (size : byteSize front = offset) :
    ∃ read, cs = read ++ left ∧
      Partition (front ++ cs) index offset (offset + byteSize read) lexemes := by
  induction h generalizing front with
  | @finish index offset cs hidden =>
    subst hidden size
    have text := Hidden.skip_append cs
    refine ⟨(Hidden.skip cs).1, text.symm, rfl, by simp, by simp, .nil, ?_⟩
    intro range member
    obtain rfl := List.mem_singleton.1 member
    refine ⟨(Hidden.skip cs).1, (Hidden.skip cs).2, ⟨front, ?_, rfl, byteSize_append _ _⟩,
      Hidden.gap_skip cs⟩
    rw [List.append_assoc, text]
  | @lexeme index offset cs read rest kind lexemes position scanned others ih =>
    subst size
    have text := Hidden.skip_append cs
    have gapped := Hidden.gap_skip cs
    obtain ⟨visible, nonempty⟩ := Token.scan?_append scanned
    generalize Hidden.skip cs = skipped at *
    obtain ⟨gap, behind⟩ := skipped
    obtain rfl : gap ++ behind = cs := text
    obtain rfl : read ++ rest = behind := visible
    obtain ⟨tail, rfl, tailCut⟩ := ih (front ++ gap ++ read) (by simp [Nat.add_assoc])
    have whole : front ++ gap ++ read ++ (tail ++ left) =
        front ++ (gap ++ (read ++ (tail ++ left))) := by
      simp
    have finish : byteSize front + byteSize gap + byteSize read + byteSize tail =
        byteSize front + byteSize (gap ++ read ++ tail) := by
      simp [Nat.add_assoc]
    rw [whole, finish] at tailCut
    refine ⟨gap ++ read ++ tail, by simp, tailCut.cons rfl ?_ (Nat.le_add_right _ _) ?_ ?_⟩
    · have positive := byteSize_pos nonempty
      refine ⟨Token.scan?_ne_finish scanned, by simpa using nonempty, by dsimp only; omega,
        tail ++ left, ⟨front ++ gap, ?_, byteSize_append _ _, ?_⟩, ?_⟩
      · simp
      · simp [Nat.add_assoc]
      · simpa using scanned
    · simp
      omega
    · exact ⟨gap, read ++ (tail ++ left), ⟨front, by simp, rfl, byteSize_append _ _⟩, gapped⟩

end Lexed

/-! ### Characters that start nothing -/

namespace Token

/-- The first character of a mark is a mark of its own. -/
theorem exists_single_operator {mark : String} (h : mark ∈ Vocabulary.operators) :
    ∃ single ∈ Vocabulary.operators, single.toList = mark.toList.take 1 := by
  revert mark
  decide

theorem mark?_eq_none {marks : List String} {cs : List Char} :
    mark? marks cs = none ↔ ∀ mark ∈ marks, ¬ mark.toList <+: cs := by
  simp [mark?, List.findSome?_eq_none_iff, List.isPrefixOf_iff_prefix]

theorem scan?_eq_none_iff {cs : List Char} :
    scan? cs = none ↔ Literal.float? cs = none ∧ Literal.int? cs = none ∧
      Literal.word? cs = none ∧ mark? Vocabulary.operators cs = none := by
  unfold scan?
  cases Literal.float? cs with
  | some pair => simp
  | none =>
    cases Literal.int? cs with
    | some pair => simp
    | none =>
      cases Literal.word? cs with
      | some pair => simp
      | none => cases mark? Vocabulary.operators cs <;> simp

variable {c : Char} {cs : List Char}

/-- What starts no token is the start of no mark. -/
theorem notMem_operators (h : scan? (c :: cs) = none) (mark : String)
    (listed : mark ∈ Vocabulary.operators) : mark.toList.head? ≠ some c := by
  intro first
  obtain ⟨tail, shape⟩ := List.head?_eq_some_iff.1 first
  obtain ⟨single, single_listed, single_eq⟩ := exists_single_operator listed
  refine mark?_eq_none.1 (scan?_eq_none_iff.1 h).2.2.2 single single_listed ?_
  rw [single_eq, shape]
  exact ⟨cs, rfl⟩

/-- A character that starts no token in one text starts none in any other. -/
theorem scan?_eq_none (h : scan? (c :: cs) = none) (more : List Char) :
    scan? (c :: more) = none := by
  obtain ⟨-, noInt, noWord, -⟩ := scan?_eq_none_iff.1 h
  have digitStops := Literal.int?_eq_none.1 noInt
  have wordStops := Literal.word?_eq_none.1 noWord
  have noDigit : Stops Literal.isDigit (c :: more) := digitStops
  refine scan?_eq_none_iff.2 ⟨?_, Literal.int?_eq_none.2 noDigit,
    Literal.word?_eq_none.2 ?_, ?_⟩
  · refine Literal.float?_eq_none_of_stops noDigit fun point => ?_
    exact notMem_operators h "." (by decide) point.symm
  · exact wordStops
  · refine mark?_eq_none.2 fun mark listed ⟨behind, shape⟩ =>
      notMem_operators h mark listed ?_
    cases characters : mark.toList with
    | nil => exact absurd characters (operators_ne_nil listed)
    | cons d tail =>
      rw [characters] at shape
      exact congrArg some (List.cons.inj shape).1

end Token

/-- A character that starts neither a token nor hidden text in one text starts
no hidden text in any other. -/
theorem Hidden.Piece.head?_ne {c : Char} {cs piece rest : List Char}
    (h : Piece piece rest) (noToken : Token.scan? (c :: cs) = none)
    (noPiece : piece? (c :: cs) = none) :
    piece.head? ≠ some c := by
  intro first
  cases h with
  | blanks nonempty blank stops =>
    have isBlank := blank c (List.mem_of_mem_head? first)
    rw [piece?_blank isBlank] at noPiece
    cases noPiece
  | lineComment => exact Token.notMem_operators noToken "/" (by decide) first
  | blockComment => exact Token.notMem_operators noToken "/" (by decide) first
  | directive =>
    cases first
    simp [piece?, directive?] at noPiece

namespace TokenStream

theorem ofSource_eq_ok {source : String} {lexemes : List Lexeme}
    (h : lexemesFrom (LineTable.ofText source.toList) 0 0 source.toList = .ok lexemes) :
    ofSource source = .ok
      { lexemes
        finish :=
          { index := lexemes.length, kind := .finish, text := ""
            start := byteSize source.toList
            stop := byteSize source.toList
            position :=
              (LineTable.ofText source.toList).position (byteSize source.toList) } } := by
  simp only [ofSource, h, bind, Except.bind, pure, Except.pure]

theorem ofSource_eq_error {source : String} {cause : SyntaxError}
    (h : lexemesFrom (LineTable.ofText source.toList) 0 0 source.toList = .error cause) :
    ofSource source = .error cause := by
  simp only [ofSource, h, bind, Except.bind]

/-- Where the lexemes are numbered in order and the end mark behind them, each
number is a place in the stream. -/
theorem index_of_getElem? {stream : TokenStream}
    (numbered : stream.lexemes.map (·.index) = List.range' 0 stream.lexemes.length)
    (last : stream.finish.index = stream.lexemes.length) {i : Nat} {lexeme : Lexeme}
    (found : stream.toList[i]? = some lexeme) : lexeme.index = i := by
  have numbers : stream.toList.map (·.index) = List.range stream.toList.length := by
    simp [toList, numbered, last, List.range_succ, List.range_eq_range']
  obtain ⟨below, -⟩ := List.getElem?_eq_some_iff.1 found
  have number := congrArg (Option.map (·.index)) found
  rw [← List.getElem?_map, numbers, List.getElem?_range below] at number
  exact (Option.some.inj number).symm

/-- A source is hidden text and tokens by turns, numbered in order and followed
by one end mark; or it is so up to a character that starts neither, and that
character is what the error names. -/
theorem ofSource_partition (source : String) :
    (∃ stream, ofSource source = .ok stream ∧
      Partition source.toList 0 0 (byteSize source.toList) stream.lexemes ∧
      (∀ (i : Nat) (lexeme : Lexeme), stream.toList[i]? = some lexeme →
        lexeme.index = i) ∧
      stream.toList.filter (·.kind = .finish) = [stream.finish] ∧
      stream.toList.getLast? = some stream.finish ∧
      stream.finish.start = byteSize source.toList ∧
      stream.finish.stop = byteSize source.toList) ∨
    ∃ cause lexemes before c after, ofSource source = .error cause ∧
      source.toList = before ++ c :: after ∧
      Partition source.toList 0 0 (byteSize before) lexemes ∧
      cause.position = (LineTable.ofText source.toList).position (byteSize before) ∧
      cause.message = "unexpected character '" ++ c.toString ++ "'" ∧
      (∀ more, Token.scan? (c :: more) = none) ∧
      ∀ piece rest, Hidden.Piece piece rest → piece.head? ≠ some c := by
  rcases lexed_lexemesFrom (LineTable.ofText source.toList) 0 0 source.toList with
    ⟨lexemes, read, reads⟩ | ⟨lexemes, c, behind, before, reads, noToken, shape, failed⟩
  · left
    obtain ⟨whole, shape, parts⟩ := reads.partition [] rfl
    obtain rfl : source.toList = whole := by simpa using shape
    rw [Nat.zero_add] at parts
    refine ⟨_, ofSource_eq_ok read, parts, ?_, ?_, by simp [toList], rfl, rfl⟩
    · exact fun i lexeme found => index_of_getElem? parts.numbered rfl found
    · have visible : lexemes.filter (·.kind = .finish) = [] := by
        simpa using fun lexeme member => (parts.cut lexeme member).kind
      simp [toList, visible]
  · right
    obtain ⟨front, shape', parts⟩ := reads.partition [] rfl
    obtain rfl : front = before := List.append_cancel_right (shape'.symm.trans shape)
    rw [Nat.zero_add] at parts failed
    refine ⟨_, lexemes, front, c, behind, ofSource_eq_error failed, shape, parts,
      rfl, rfl, Token.scan?_eq_none noToken, ?_⟩
    exact fun piece rest hidden => hidden.head?_ne noToken reads.piece?_left

end TokenStream

end ShaderDialect
