import ShaderDialect.Proofs.LongestMatch
import ShaderDialect.Proofs.Relexing

/-!
# Tokens with spaces between them

A token was cut in front of certain characters: behind `1` there was an `e` that
starts no exponent, behind one `/` another one that starts no comment. With a space
behind it, it is cut again, because blanks stand in no spelling. So the tokens of a
source, printed with single spaces between them, are read back as they are, and
the spaces are all the hidden text there is.
-/

namespace ShaderDialect

namespace Lexicon

open Literal

/-- Characters that stand in no token: blanks and the mark of directives. -/
def foreign : List Char :=
  [' ', '\t', '\r', '\n', '#']

theorem within_word : Within (! foreign.contains ·) word := by
  have parts : Within (! foreign.contains ·) (run isWordPart) :=
    within_run_of_outside (by decide)
  rintro text ⟨c, rest, rfl, isStart, all⟩
  refine parts (c :: rest) ⟨List.cons_ne_nil c rest, List.forall_mem_cons.2 ⟨?_, all⟩⟩
  simp [isWordPart, isStart]

theorem within_token : Within (! foreign.contains ·) token := by
  have number : Within (! foreign.contains ·) real :=
    within_real (by decide) (by decide) (by decide) (by decide)
  have whole : Within (! foreign.contains ·) integer :=
    within_integer (by decide) (by decide) (by decide)
  exact (number.mul (within_oneOf (by decide))).add
    ((whole.mul (within_oneOf (by decide))).add (within_word.add (within_oneOf (by decide))))

/-- A spelling is read to its end where no spelling can go on. -/
theorem Finds.of_stops {spellings : Language Char} {p : Char → Bool}
    {text rest : List Char} {found : Option (List Char × List Char)}
    (h : Finds spellings (text ++ rest) found) (inside : text ∈ spellings)
    (within : Within p spellings) (stops : Stops p rest) :
    found = some (text, rest) := by
  cases found with
  | none => exact absurd (List.prefix_append text rest) (h text inside)
  | some part =>
    obtain ⟨read, behind⟩ := part
    obtain ⟨shape, own, longest⟩ := h
    have shorter := longest text inside (List.prefix_append text rest)
    obtain ⟨more, rfl⟩ : text <+: read :=
      List.prefix_of_prefix_length_le (List.prefix_append text rest) ⟨behind, shape.symm⟩ shorter
    rw [List.append_assoc, List.append_cancel_left_eq] at shape
    cases more with
    | nil => rw [shape, List.nil_append, List.append_nil]
    | cons c more =>
      have goesOn := within _ own c (by simp)
      rw [stops c (by simp [shape])] at goesOn
      cases goesOn

/-- No token starts like a comment. -/
theorem stops_behind_slash {tail : List Char} (h : '/' :: tail ∈ token) :
    Stops (['/', '*'].contains ·) tail := by
  rcases h with inside | inside | inside | inside
  · obtain ⟨c, rest, same, starts⟩ := startsIn_float _ inside
    cases same
    exact absurd starts (by decide)
  · obtain ⟨c, rest, same, starts⟩ := startsIn_integral _ inside
    cases same
    exact absurd starts (by decide)
  · obtain ⟨c, rest, same, starts⟩ := startsIn_word _ inside
    cases same
    exact absurd starts (by decide)
  · obtain ⟨mark, listed, same⟩ := inside
    have apart : ∀ mark ∈ Vocabulary.operators, mark.toList.head? = some '/' →
        Stops (['/', '*'].contains ·) mark.toList.tail := by
      decide
    simpa [same] using apart mark listed

end Lexicon

/-- Hidden text begins with a blank, a hash sign or the marks of a comment. -/
theorem Hidden.piece?_eq_none_of_front {c : Char} {cs : List Char}
    (notBlank : isBlank c = false) (notHash : c ≠ '#')
    (noComment : c = '/' → Stops (['/', '*'].contains ·) cs) :
    piece? (c :: cs) = none := by
  have noBlanks : blanks? (c :: cs) = none := by simp [blanks?, notBlank]
  have noDirective : directive? (c :: cs) = none := by simp [directive?, notHash]
  have noComments : lineComment? (c :: cs) = none ∧ blockComment? (c :: cs) = none := by
    by_cases slash : c = '/'
    · cases cs with
      | nil => simp [lineComment?, blockComment?]
      | cons d cs =>
        have apart : d ≠ '/' ∧ d ≠ '*' := by simpa using noComment slash d rfl
        simp [lineComment?, blockComment?, apart]
    · simp [lineComment?, blockComment?, slash]
  rw [piece?, noBlanks, noDirective, noComments.1, noComments.2]
  rfl

namespace Token

open Lexicon

variable {text rest : List Char} {kind : TokenKind}

theorem mem_token_of_mem_ofKind (h : text ∈ ofKind kind) : text ∈ token := by
  have longest := finds_scan? text
  rw [scan?_of_mem_ofKind h] at longest
  exact longest.2.1

/-- A spelling is cut as a token of its kind wherever it stands at the end of a text
or before a character that stands in no token. -/
theorem scan?_append_of_stops (h : text ∈ ofKind kind)
    (stops : Stops (! foreign.contains ·) rest) :
    scan? (text ++ rest) = some (kind, text, rest) := by
  have read :=
    (finds_scan? (text ++ rest)).of_stops (mem_token_of_mem_ofKind h) within_token stops
  obtain ⟨⟨kind', part⟩, found, rfl⟩ := Option.map_eq_some_iff.1 read
  obtain rfl := kind_unique h (mem_ofKind_of_scan? found)
  exact found

/-- No hidden text begins there. -/
theorem skip_append_of_stops (h : text ∈ ofKind kind)
    (stops : Stops (! foreign.contains ·) rest) :
    Hidden.skip (text ++ rest) = ([], text ++ rest) := by
  have inside := mem_token_of_mem_ofKind h
  obtain ⟨-, nonempty⟩ := scan?_append (scan?_of_mem_ofKind h)
  obtain ⟨c, tail, rfl⟩ := List.exists_cons_of_ne_nil nonempty
  have own : c ∉ foreign := by simpa using within_token _ inside c List.mem_cons_self
  have notBlank : Hidden.isBlank c = false := by
    simp only [foreign, List.mem_cons, not_or] at own
    simp [Hidden.isBlank, own]
  refine Hidden.skip_of_none (Hidden.piece?_eq_none_of_front notBlank ?_ ?_)
  · rintro rfl
    exact own (by decide)
  · rintro rfl d first
    cases tail with
    | nil =>
      have outside : foreign.all (! ['/', '*'].contains ·) := by decide
      have isForeign : d ∈ foreign := by simpa using stops d first
      simpa using List.all_eq_true.1 outside d isForeign
    | cons e tail => exact stops_behind_slash inside d first

end Token

/-! ### Printing and reading back -/

/-- The texts one behind the other, `gap` before the first and a space before each other
one. -/
def spaced (gap : List Char) : List String → List Char
  | [] => []
  | text :: texts => gap ++ text.toList ++ spaced [' '] texts

theorem toList_intercalate_space (texts : List String) :
    (" ".intercalate texts).toList = spaced [] texts := by
  rw [String.toList_intercalate]
  induction texts with
  | nil => rfl
  | cons text texts ih =>
    cases texts with
    | nil => simp [spaced]
    | cons next texts =>
      rw [List.map_cons, List.map_cons, List.intercalate_cons_cons, ← List.map_cons, ih]
      simp [spaced]

theorem stops_spaced (texts : List String) {rest : List Char}
    (stops : Stops (! Lexicon.foreign.contains ·) rest) :
    Stops (! Lexicon.foreign.contains ·) (spaced [' '] texts ++ rest) := by
  cases texts with
  | nil => exact stops
  | cons text texts =>
    rintro c ⟨⟩
    rfl

section Spaced

variable {gap : List Char} {spellings : List (TokenKind × String)}

theorem isBlank_of_space (blank : gap = [] ∨ gap = [' ']) :
    ∀ c ∈ gap, Hidden.isBlank c := by
  rcases blank with rfl | rfl
  · exact List.forall_mem_nil _
  · exact List.forall_mem_singleton.2 rfl

/-- The hidden text in front of a spelling is the gap. -/
theorem skip_gap_append (blank : ∀ c ∈ gap, Hidden.isBlank c) {kind : TokenKind}
    {text rest : List Char} (spelled : text ∈ Lexicon.ofKind kind)
    (stops : Stops (! Lexicon.foreign.contains ·) rest) :
    Hidden.skip (gap ++ text ++ rest) = (gap, text ++ rest) := by
  rw [List.append_assoc, Hidden.skip_blanks blank, Token.skip_append_of_stops spelled stops,
    List.append_nil]

/-- A spelling behind a gap is the first lexeme. -/
theorem Lexed.exists_cons_of_gap {index offset : Nat} {kind : TokenKind}
    {text rest : List Char} {lexemes : List Lexeme}
    (h : Lexed [] index offset (gap ++ text ++ rest) lexemes)
    (blank : ∀ c ∈ gap, Hidden.isBlank c) (spelled : text ∈ Lexicon.ofKind kind)
    (stops : Stops (! Lexicon.foreign.contains ·) rest) :
    ∃ lexeme others, lexemes = lexeme :: others ∧ lexeme.start = offset + byteSize gap ∧
      lexeme.stop = offset + byteSize gap + byteSize text ∧
      Lexed [] (index + 1) (offset + byteSize gap + byteSize text) rest others := by
  have scans := Token.scan?_append_of_stops spelled stops
  have skipped := skip_gap_append blank spelled stops
  cases h with
  | finish hidden =>
    simp only [skipped] at hidden
    rw [hidden] at scans
    cases scans
  | lexeme position scanned others =>
    simp only [skipped] at scanned others ⊢
    cases scanned.symm.trans scans
    exact ⟨_, _, rfl, rfl, rfl, others⟩

section Behind

variable (blank : ∀ c ∈ gap, Hidden.isBlank c)
  (spelled : ∀ spelling ∈ spellings, spelling.2.toList ∈ Lexicon.ofKind spelling.1)
  {rest : List Char} (stops : Stops (! Lexicon.foreign.contains ·) rest)

include blank spelled stops

/-- Printed spellings are read back, and then what comes behind. -/
theorem readsAs_spaced {others : List (TokenKind × String)}
    (behind : ReadsAs rest others) :
    ReadsAs (spaced gap (spellings.map Prod.snd) ++ rest) (spellings ++ others) := by
  induction spellings generalizing gap with
  | nil => exact behind
  | cons spelling spellings ih =>
    obtain ⟨own, later⟩ := List.forall_mem_cons.1 spelled
    obtain ⟨kind, text⟩ := spelling
    have apart := stops_spaced (spellings.map Prod.snd) stops
    rw [← String.ofList_toList (s := text)]
    refine .token ?_ (ih (isBlank_of_space (Or.inr rfl)) later)
    rw [String.ofList_toList, List.map_cons, spaced, List.append_assoc _ _ rest,
      skip_gap_append blank own apart]
    exact Token.scan?_append_of_stops own apart

/-- The lexemes behind printed spellings are those of what comes behind. -/
theorem Lexed.exists_behind_spaced {index offset : Nat} {lexemes : List Lexeme}
    (h : Lexed [] index offset (spaced gap (spellings.map Prod.snd) ++ rest) lexemes) :
    ∃ front others, lexemes = front ++ others ∧ front.length = spellings.length ∧
      Lexed [] (index + spellings.length)
        (offset + byteSize (spaced gap (spellings.map Prod.snd))) rest others := by
  induction spellings generalizing gap index offset lexemes with
  | nil => exact ⟨[], lexemes, rfl, rfl, h⟩
  | cons spelling spellings ih =>
    obtain ⟨own, later⟩ := List.forall_mem_cons.1 spelled
    rw [List.map_cons, spaced, List.append_assoc _ _ rest] at h
    obtain ⟨lexeme, lexemes, rfl, -, -, behind⟩ :=
      h.exists_cons_of_gap blank own (stops_spaced (spellings.map Prod.snd) stops)
    obtain ⟨front, others, rfl, length, lexed⟩ :=
      ih (isBlank_of_space (Or.inr rfl)) later behind
    refine ⟨lexeme :: front, others, rfl, congrArg (· + 1) length, ?_⟩
    simpa [spaced, Nat.add_assoc, Nat.add_comm, Nat.add_left_comm] using lexed

end Behind

/-- Between printed spellings there is nothing but the spaces. -/
theorem Lexed.gaps_spaced {index offset : Nat} {lexemes : List Lexeme}
    (h : Lexed [] index offset (spaced gap (spellings.map Prod.snd)) lexemes)
    (blank : gap = [] ∨ gap = [' '])
    (spelled : ∀ spelling ∈ spellings, spelling.2.toList ∈ Lexicon.ofKind spelling.1)
    {front : List Char} (size : byteSize front = offset) :
    ∀ range ∈ (offset :: lexemes.map (·.stop)).zip
        (lexemes.map (·.start) ++ [offset + byteSize (spaced gap (spellings.map Prod.snd))]),
      ∃ between rest,
        Spans (front ++ spaced gap (spellings.map Prod.snd)) range.1 range.2 between rest ∧
        (between = [] ∨ between = [' ']) := by
  induction spellings generalizing gap index offset lexemes front with
  | nil =>
    cases h with
    | finish hidden =>
      intro range member
      obtain rfl := List.mem_singleton.1 member
      exact ⟨[], [], ⟨front, by simp [spaced], size, by simp [spaced, size]⟩, Or.inl rfl⟩
    | lexeme position scanned others =>
      rw [List.map_nil, spaced, Hidden.skip_of_none rfl] at scanned
      cases scanned
  | cons spelling spellings ih =>
    obtain ⟨own, others⟩ := List.forall_mem_cons.1 spelled
    have apart : Stops (! Lexicon.foreign.contains ·) (spaced [' '] (spellings.map Prod.snd)) := by
      simpa using @stops_spaced (spellings.map Prod.snd) [] nofun
    obtain ⟨lexeme, lexemes, rfl, start, stop, behind⟩ :=
      Lexed.exists_cons_of_gap h (isBlank_of_space blank) own apart
    subst size
    have whole : front ++ gap ++ spelling.2.toList ++ spaced [' '] (spellings.map Prod.snd) =
        front ++ spaced gap ((spelling :: spellings).map Prod.snd) := by
      simp [spaced]
    have finish : byteSize front + byteSize gap + byteSize spelling.2.toList +
          byteSize (spaced [' '] (spellings.map Prod.snd)) =
        byteSize front + byteSize (spaced gap ((spelling :: spellings).map Prod.snd)) := by
      simp [spaced, Nat.add_assoc]
    have passed : byteSize (front ++ gap ++ spelling.2.toList) =
        byteSize front + byteSize gap + byteSize spelling.2.toList := by
      simp [Nat.add_assoc]
    have later := ih behind (Or.inr rfl) others passed
    rw [whole, finish] at later
    have first : Spans (front ++ spaced gap ((spelling :: spellings).map Prod.snd))
        (byteSize front) (byteSize front + byteSize gap) gap
        (spelling.2.toList ++ spaced [' '] (spellings.map Prod.snd)) :=
      ⟨front, by rw [← whole, List.append_assoc (front ++ gap)], rfl, byteSize_append front gap⟩
    rw [List.map_cons, List.map_cons, start, stop]
    exact List.forall_mem_cons.2 ⟨⟨gap, _, first, blank⟩, later⟩

section Gap

variable {others : List (TokenKind × String)} {next : TokenKind × String}
  (blank : ∀ c ∈ gap, Hidden.isBlank c) (nonempty : gap ≠ [])
  (spelled : ∀ spelling ∈ spellings, spelling.2.toList ∈ Lexicon.ofKind spelling.1)
  (spelled' : ∀ spelling ∈ next :: others, spelling.2.toList ∈ Lexicon.ofKind spelling.1)

include blank nonempty

theorem stops_gap_append (rest : List Char) :
    Stops (! Lexicon.foreign.contains ·) (gap ++ rest) := by
  cases gap with
  | nil => exact absurd rfl nonempty
  | cons c gap =>
    rintro _ ⟨⟩
    have own := blank c List.mem_cons_self
    simp only [Hidden.isBlank, Bool.or_eq_true, decide_eq_true_eq] at own
    rcases own with ((rfl | rfl) | rfl) | rfl <;> rfl

include spelled spelled'

/-- Spellings are read back with any blanks in the middle. What comes first behind
the blanks starts there. -/
theorem TokenStream.exists_ofSource_gap : ∃ stream,
    ofSource (String.ofList (spaced [] (spellings.map Prod.snd) ++
      spaced gap ((next :: others).map Prod.snd))) = .ok stream ∧
    stream.tokens.map Token.spelling = spellings ++ next :: others ∧
    ∃ lexeme, stream.lexemes[spellings.length]? = some lexeme ∧
      lexeme.start = byteSize (spaced [] (spellings.map Prod.snd)) + byteSize gap := by
  have finished : Stops (! Lexicon.foreign.contains ·) [] := nofun
  have nothing : ReadsAs [] [] := .finish (by rw [Hidden.skip_of_none rfl])
  have apart : Stops (! Lexicon.foreign.contains ·)
      (spaced gap ((next :: others).map Prod.snd)) := by
    rw [List.map_cons, spaced, List.append_assoc]
    exact stops_gap_append blank nonempty _
  have reads := readsAs_spaced blank spelled' finished nothing
  rw [List.append_nil, List.append_nil] at reads
  obtain ⟨stream, cut, same⟩ :=
    exists_ofSource (readsAs_spaced (List.forall_mem_nil _) spelled apart reads)
  refine ⟨stream, cut, same, ?_⟩
  have lexed := lexed_of_ofSource cut
  rw [String.toList_ofList] at lexed
  obtain ⟨front, behind, whole, length, lexed⟩ :=
    Lexed.exists_behind_spaced (List.forall_mem_nil _) spelled apart lexed
  obtain ⟨lexeme, behind, rfl, start, -⟩ := Lexed.exists_cons_of_gap lexed blank
    (spelled' next List.mem_cons_self) (by simpa using stops_spaced (others.map Prod.snd) finished)
  refine ⟨lexeme, ?_, by rw [start, Nat.zero_add]⟩
  rw [whole, ← length, List.getElem?_append_right (Nat.le_refl _), Nat.sub_self]
  rfl

end Gap

end Spaced

namespace TokenStream

/-- The tokens of a stream with single spaces between them. -/
def printed (stream : TokenStream) : String :=
  " ".intercalate (stream.tokens.map Token.text)

theorem toList_printed (stream : TokenStream) :
    stream.printed.toList = spaced [] ((stream.tokens.map Token.spelling).map Prod.snd) := by
  rw [printed, toList_intercalate_space, List.map_map]
  rfl

theorem mem_ofKind_of_mem_tokens {source : String} {stream : TokenStream}
    (cut : ofSource source = .ok stream) {token : Token}
    (listed : token ∈ stream.tokens) :
    token.text.toList ∈ Lexicon.ofKind token.kind := by
  obtain ⟨cs, read, rest, scanned, text⟩ := SyntaxTree.exists_scan_of_mem cut listed
  rw [text, String.toList_ofList]
  exact Token.mem_ofKind_of_scan? scanned

theorem toToken_finish {source : String} {stream : TokenStream}
    (cut : ofSource source = .ok stream) :
    stream.finish.toToken = ⟨stream.lexemes.length, .finish, ""⟩ := by
  simp only [ofSource, bind, Except.bind, pure, Except.pure] at cut
  split at cut
  · cases cut
  · cases cut
    rfl

theorem map_toToken_toList {source : String} {stream : TokenStream}
    (cut : ofSource source = .ok stream) :
    stream.toList.map Lexeme.toToken =
      stream.tokens ++ [⟨stream.tokens.length, .finish, ""⟩] := by
  rw [toList, List.map_append, List.map_singleton, toToken_finish cut, tokens,
    List.length_map]

/-- The tokens of a source, printed with single spaces between them, are read back:
the same tokens with the same numbers and then the end, and nothing between them but
these spaces. Whatever stood behind a token, it is the same token before a space, and
no hidden text begins at it. -/
theorem printed_reads_back {source : String} {stream : TokenStream}
    (cut : ofSource source = .ok stream) :
    (∀ lexeme ∈ stream.lexemes, ∀ behind,
      Hidden.skip (lexeme.text.toList ++ ' ' :: behind) =
          ([], lexeme.text.toList ++ ' ' :: behind) ∧
        Token.scan? (lexeme.text.toList ++ ' ' :: behind) =
          some (lexeme.kind, lexeme.text.toList, ' ' :: behind)) ∧
    ∃ again, ofSource stream.printed = .ok again ∧
      again.toList.map Lexeme.toToken = stream.toList.map Lexeme.toToken ∧
      ∀ range ∈ again.gapRanges, ∃ gap rest,
        Spans stream.printed.toList range.1 range.2 gap rest ∧
        (gap = [] ∨ gap = [' ']) := by
  refine ⟨fun lexeme listed behind => ?_, ?_⟩
  · have spelled := mem_ofKind_of_mem_tokens cut (List.mem_map_of_mem listed)
    have stops : Stops (! Lexicon.foreign.contains ·) (' ' :: behind) := by
      rintro c ⟨⟩
      rfl
    exact ⟨Token.skip_append_of_stops spelled stops, Token.scan?_append_of_stops spelled stops⟩
  · have spelled : ∀ spelling ∈ stream.tokens.map Token.spelling,
        spelling.2.toList ∈ Lexicon.ofKind spelling.1 :=
      List.forall_mem_map.2 fun token listed => mem_ofKind_of_mem_tokens cut listed
    have finished : Stops (! Lexicon.foreign.contains ·) [] := nofun
    have nothing : ReadsAs [] [] := .finish (by rw [Hidden.skip_of_none rfl])
    have reads := readsAs_spaced (List.forall_mem_nil _) spelled finished nothing
    rw [List.append_nil, List.append_nil] at reads
    obtain ⟨again, read, same⟩ := exists_ofSource reads
    rw [← toList_printed, String.ofList_toList] at read
    have tokens_eq : again.tokens = stream.tokens :=
      (SyntaxTree.counted_tokens read).eq_of_spellings (SyntaxTree.counted_tokens cut) same
    refine ⟨again, read, ?_, ?_⟩
    · rw [map_toToken_toList read, map_toToken_toList cut, tokens_eq]
    · have lexed := lexed_of_ofSource read
      have finish := finish_of_ofSource read
      rw [toList_printed] at lexed finish ⊢
      rw [gapRanges, finish]
      simpa using lexed.gaps_spaced (Or.inl rfl) spelled (show byteSize [] = 0 from rfl)

/-- A point without an exponent, two slashes that are no comment, and an opening mark
that nothing closes. -/
theorem printed_reads_back_slashes : ∃ stream again,
    ofSource "1.e+x//\r/*" = .ok stream ∧ stream.printed = "1. e + x / / / *" ∧
      ofSource "1. e + x / / / *" = .ok again ∧
      again.toList.map Lexeme.toToken = stream.toList.map Lexeme.toToken ∧
      ∀ range ∈ again.gapRanges, ∃ gap rest,
        Spans "1. e + x / / / *".toList range.1 range.2 gap rest ∧
        (gap = [] ∨ gap = [' ']) := by
  have read : (ofSource "1.e+x//\r/*").toOption.map (·.tokens.map Token.text) =
      some ["1.", "e", "+", "x", "/", "/", "/", "*"] := by
    decide +kernel
  obtain ⟨stream, found, texts⟩ := Option.map_eq_some_iff.1 read
  have text : stream.printed = "1. e + x / / / *" := by
    rw [printed, texts, ← String.toList_inj, toList_intercalate_space]
    decide
  cases cut : ofSource "1.e+x//\r/*" with
  | error cause => simp [cut, Except.toOption] at found
  | ok stream' =>
    obtain rfl : stream' = stream := by simpa [cut, Except.toOption] using found
    obtain ⟨-, again, readAgain, same, gaps⟩ := printed_reads_back cut
    rw [text] at readAgain gaps
    exact ⟨stream', again, rfl, text, readAgain, same, gaps⟩

end TokenStream

end ShaderDialect
