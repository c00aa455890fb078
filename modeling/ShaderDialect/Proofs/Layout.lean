import ShaderDialect.Proofs.Diagnostics
import ShaderDialect.Proofs.SpacedTokens

/-!
# Layout plays no part

Sources with the same tokens are read and planned alike, however they are laid
out: the grammar and the walk see tokens only, and a failure or a finding is
located last. The diagnostics are at the same tokens as well, unless a source
has four gigabytes or more. Then two tokens can have one position, and of two
findings one is shown.
-/

namespace ShaderDialect

namespace SyntaxTree

/-- What is read depends on the tokens. -/
theorem ofSource_of_agree {source source' : String} {tree : SyntaxTree}
    {stream' : TokenStream} (h : ofSource source = .ok tree)
    (cut' : TokenStream.ofSource source' = .ok stream')
    (agree : tree.stream.tokens.map Token.spelling = stream'.tokens.map Token.spelling) :
    ofSource source' = .ok ⟨stream', tree.root⟩ := by
  obtain ⟨cut, read⟩ := ofSource_eq_ok h
  have tokens : tree.stream.tokens = stream'.tokens :=
    (counted_tokens cut).eq_of_spellings (counted_tokens cut') agree
  simp [ofSource, ofStream, cut', ← tokens, read, bind, Except.bind]

/-- Two sources with the same tokens, of whatever layout, are both read or fail at
the same token with the same message. Their trees and plans are the same. Below
four gigabytes their diagnostics are the same messages at the same tokens. -/
theorem layout_independent {source source' : String} {stream stream' : TokenStream}
    (cut : TokenStream.ofSource source = .ok stream)
    (cut' : TokenStream.ofSource source' = .ok stream')
    (agree : stream.tokens.map Token.spelling = stream'.tokens.map Token.spelling)
    (catalog : Catalog) :
    (∃ index ≤ stream.lexemes.length, ∃ fault,
      ofSource source = .error ⟨stream.positionOf index, fault⟩ ∧
        ofSource source' = .error ⟨stream'.positionOf index, fault⟩) ∨
    ∃ tree tree', ofSource source = .ok tree ∧ ofSource source' = .ok tree' ∧
      tree.nodes = tree'.nodes ∧ tree.rootId = tree'.rootId ∧
      (Plan.ofTree catalog tree.root).edits = (Plan.ofTree catalog tree'.root).edits ∧
      (Plan.ofTree catalog tree.root).contexts =
        (Plan.ofTree catalog tree'.root).contexts ∧
      (Plan.ofTree catalog tree.root).findings =
        (Plan.ofTree catalog tree'.root).findings ∧
      ∃ conversion conversion',
        convert catalog source = .ok conversion ∧
        convert catalog source' = .ok conversion' ∧
        (byteSize source.toList < UInt32.size → byteSize source'.toList < UInt32.size →
          ∃ items,
            (∀ others, stream.Shows others conversion.diagnostics ↔ others = items) ∧
            ∀ others, stream'.Shows others conversion'.diagnostics ↔ others = items) := by
  have tokens : stream.tokens = stream'.tokens :=
    (counted_tokens cut).eq_of_spellings (counted_tokens cut') agree
  have length : stream.lexemes.length = stream'.lexemes.length := by
    simpa [TokenStream.tokens] using congrArg List.length tokens
  cases read : ofTokens stream.tokens with
  | error failure =>
    refine .inl ⟨_, Nat.sub_le _ failure.rest.length,
      .expected failure.expected (failure.found.map Token.text), ?_, ?_⟩
    · exact ofSource_eq_error.2 (.inr ⟨stream, failure, cut, read, rfl⟩)
    · refine ofSource_eq_error.2 (.inr ⟨stream', failure, cut', tokens ▸ read, ?_⟩)
      rw [locate, length]
  | ok root =>
    have parsed : ofSource source = .ok ⟨stream, root⟩ := by
      simp [ofSource, ofStream, cut, read, bind, Except.bind]
    have parsed' : ofSource source' = .ok ⟨stream', root⟩ :=
      ofSource_of_agree parsed cut' agree
    obtain ⟨text, fits, -⟩ := exists_splice parsed (Plan.ofTree catalog root).edits
    obtain ⟨text', fits', -⟩ := exists_splice parsed' (Plan.ofTree catalog root).edits
    refine .inr ⟨_, _, parsed, parsed', by rw [nodes, nodes, length], rfl, rfl, rfl, rfl, _, _,
      convert_eq_ok parsed fits, convert_eq_ok parsed' fits', fun small small' => ?_⟩
    exact ⟨found ⟨stream, root⟩ catalog, fun _ => shows_diagnose_iff parsed small catalog,
      fun _ => shows_diagnose_iff parsed' small' catalog⟩

theorem layout_independent_comment : ∃ tree tree',
    ofSource "float a = sin(1) + b;" = .ok tree ∧
      ofSource "float a=sin( 1/*one*/)\n+b\n;" = .ok tree' ∧ tree.nodes = tree'.nodes ∧
      (Plan.ofTree Catalog.bundled tree.root).edits =
        (Plan.ofTree Catalog.bundled tree'.root).edits ∧
      ∃ conversion conversion',
        convert Catalog.bundled "float a = sin(1) + b;" = .ok conversion ∧
        convert Catalog.bundled "float a=sin( 1/*one*/)\n+b\n;" = .ok conversion' ∧
        ∃ items, tree.stream.Shows items conversion.diagnostics ∧
          tree'.stream.Shows items conversion'.diagnostics := by
  have same : (ofSource "float a = sin(1) + b;").toOption.map (·.stream.tokens.map Token.spelling) =
      (ofSource "float a=sin( 1/*one*/)\n+b\n;").toOption.map
        (·.stream.tokens.map Token.spelling) := by
    decide +kernel
  have read : (ofSource "float a = sin(1) + b;").toOption.map (·.stream.lexemes.length) =
      some 10 := by
    decide +kernel
  obtain ⟨tree, parsed, -⟩ := exists_of_map_toOption read
  rw [parsed] at same
  obtain ⟨tree', parsed', agree⟩ := exists_of_map_toOption same.symm
  rcases layout_independent (ofSource_eq_ok parsed).1 (ofSource_eq_ok parsed').1 agree.symm
    Catalog.bundled with ⟨_, _, _, failed, -⟩ |
      ⟨_, _, own, own', nodes, -, edits, -, -, conversion, conversion', done, done',
       shown⟩
  · cases parsed.symm.trans failed
  · cases parsed.symm.trans own
    cases parsed'.symm.trans own'
    obtain ⟨items, shows, shows'⟩ := shown (by decide +kernel) (by decide +kernel)
    exact ⟨tree, tree', parsed, parsed', nodes, edits, conversion, conversion', done,
      done', items, (shows items).2 rfl, (shows' items).2 rfl⟩

end SyntaxTree

/-! ### Sources that are too long -/

/-- In a text of one line the column of a token is known by its start. -/
theorem TokenStream.positionOf_of_oneLine {source : String} {stream : TokenStream}
    (cut : ofSource source = .ok stream) (oneLine : '\n' ∉ source.toList) {index : Nat}
    {lexeme : Lexeme} (found : stream.lexemes[index]? = some lexeme) :
    stream.positionOf index = ⟨1, (lexeme.start + 1).toUInt32⟩ := by
  obtain ⟨inside, rfl⟩ := List.getElem?_eq_some_iff.1 found
  rw [positionOf_eq inside, position_of_ofSource cut _ (List.getElem_mem inside),
    LineTable.position_of_notMem oneLine]

/-- A declaration of an unknown type, and blanks between it and what is behind. -/
def spread (n : Nat) (behind : String) : String :=
  "T a ;" ++ String.ofList (List.replicate n ' ') ++ behind

/-- The tokens in front of the blanks. -/
def spreadFront : List (TokenKind × String) :=
  [(.identifier, "T"), (.identifier, "a"), (.punct, ";")]

theorem mem_ofKind_of_mem_spreadFront {spelling : TokenKind × String}
    (listed : spelling ∈ spreadFront) :
    spelling.2.toList ∈ Lexicon.ofKind spelling.1 := by
  have scans : ∀ spelling ∈ spreadFront,
      Token.scan? spelling.2.toList = some (spelling.1, spelling.2.toList, []) := by
    decide +kernel
  exact Token.mem_ofKind_of_scan? (scans spelling listed)

theorem byteSize_blanks (n : Nat) : byteSize (List.replicate n ' ') = n := by
  induction n with
  | zero => rfl
  | succ n ih =>
    rw [List.replicate_succ, byteSize_cons, ih]
    exact Nat.add_comm 1 n

section Spread

variable {n : Nat} (blanks : n ≠ 0) {behind : String} {next : TokenKind × String}
  {others : List (TokenKind × String)}
  (text : behind.toList = spaced [] ((next :: others).map Prod.snd))
  (oneLine : '\n' ∉ behind.toList)
  (scans : ∀ spelling ∈ next :: others,
    Token.scan? spelling.2.toList = some (spelling.1, spelling.2.toList, []))

include blanks text oneLine scans

/-- The blanks separate the tokens, however many they are, and only the column
behind them depends on their number. -/
theorem exists_stream_spread :
    ∃ stream, TokenStream.ofSource (spread n behind) = .ok stream ∧
      stream.tokens.map Token.spelling = spreadFront ++ next :: others ∧
      stream.positionOf 0 = ⟨1, 1⟩ ∧ stream.positionOf 3 = ⟨1, (5 + n + 1).toUInt32⟩ := by
  have chars : spread n behind = String.ofList
      (spaced [] (spreadFront.map Prod.snd) ++
        spaced (List.replicate n ' ') ((next :: others).map Prod.snd)) := by
    rw [← String.toList_inj, spread, String.toList_append, String.toList_append, text]
    simp [spaced, spreadFront]
  have oneLine : '\n' ∉ (spread n behind).toList := by
    simp [spread, oneLine]
  have blank : ∀ c ∈ List.replicate n ' ', Hidden.isBlank c := by
    intro c member
    rw [List.eq_of_mem_replicate member]
    rfl
  obtain ⟨stream, cut, same, lexeme, found, start⟩ :=
    TokenStream.exists_ofSource_gap blank
      (by simpa using blanks) (fun _ => mem_ofKind_of_mem_spreadFront)
      fun spelling listed => Token.mem_ofKind_of_scan? (scans spelling listed)
  rw [← chars] at cut
  have stops : Stops (! Lexicon.foreign.contains ·) (spaced [' '] ["a", ";"] ++
      spaced (List.replicate n ' ') ((next :: others).map Prod.snd)) := by
    rintro c ⟨⟩
    rfl
  have lexed := TokenStream.lexed_of_ofSource cut
  rw [chars, String.toList_ofList, spreadFront, List.map_cons, spaced,
    List.append_assoc _ (spaced [' '] _)] at lexed
  obtain ⟨front, _, whole, front_start, -⟩ := Lexed.exists_cons_of_gap lexed
    (List.forall_mem_nil _) (mem_ofKind_of_mem_spreadFront List.mem_cons_self) stops
  refine ⟨stream, cut, same, ?_, ?_⟩
  · rw [TokenStream.positionOf_of_oneLine cut oneLine (by rw [whole]; rfl), front_start]
    rfl
  · rw [byteSize_blanks] at start
    exact start ▸ TokenStream.positionOf_of_oneLine cut oneLine found

/-- Where the column behind the blanks is the first one again, findings of one
message on both sides are shown as one. -/
theorem exists_tree_spread {tree : SyntaxTree}
    (near : SyntaxTree.ofSource (spread 1 behind) = .ok tree) {catalog : Catalog}
    {message : String}
    (reported : (Plan.ofTree catalog tree.root).findings.toList.map Finding.item =
      [(0, message), (3, message)])
    (wraps : (5 + n + 1).toUInt32 = 1) :
    ∃ tree', SyntaxTree.ofSource (spread n behind) = .ok tree' ∧
      tree.stream.tokens.map Token.spelling = tree'.stream.tokens.map Token.spelling ∧
      tree'.diagnose (Plan.ofTree catalog tree'.root).findings = [⟨⟨1, 1⟩, message⟩] := by
  obtain ⟨stream, cut, same, -⟩ := exists_stream_spread Nat.one_ne_zero text oneLine scans
  cases cut.symm.trans (SyntaxTree.ofSource_eq_ok near).1
  obtain ⟨stream', cut', same', front, back⟩ :=
    exists_stream_spread blanks text oneLine scans
  have agree := same.trans same'.symm
  refine ⟨_, SyntaxTree.ofSource_of_agree near cut' agree, agree, ?_⟩
  rw [SyntaxTree.diagnose_eq_eraseDups, reported]
  simp [TokenStream.diagnosticAt, front, back, wraps, List.eraseDups_cons]

end Spread

/-- With four gigabytes between two names of one unknown type one of the two
diagnostics is missing. -/
theorem layout_four_gigabytes : ∃ stream stream' conversion conversion',
    TokenStream.ofSource (spread 1 "T b ;") = .ok stream ∧
    TokenStream.ofSource (spread 4294967291 "T b ;") = .ok stream' ∧
    stream.tokens.map Token.spelling = stream'.tokens.map Token.spelling ∧
    convert Catalog.bundled (spread 1 "T b ;") = .ok conversion ∧
    convert Catalog.bundled (spread 4294967291 "T b ;") = .ok conversion' ∧
    conversion.diagnostics.length = 2 ∧ conversion'.diagnostics.length = 1 := by
  have read : (SyntaxTree.ofSource (spread 1 "T b ;")).toOption.map (fun tree =>
      ((Plan.ofTree Catalog.bundled tree.root).findings.toList.map Finding.item,
        (tree.diagnose (Plan.ofTree Catalog.bundled tree.root).findings).length)) =
      some ([(0, "unknown type 'T'"), (3, "unknown type 'T'")], 2) := by
    decide +kernel
  obtain ⟨tree, parsed, facts⟩ := exists_of_map_toOption read
  obtain ⟨reported, two⟩ := Prod.mk.inj facts
  obtain ⟨tree', parsed', agree, one⟩ :=
    @exists_tree_spread 4294967291 (by decide) "T b ;"
      (.identifier, "T") [(.identifier, "b"), (.punct, ";")] (by decide) (by decide)
      (by decide +kernel) tree parsed Catalog.bundled _ reported (by decide)
  obtain ⟨text, fits, -⟩ :=
    SyntaxTree.exists_splice parsed (Plan.ofTree Catalog.bundled tree.root).edits
  obtain ⟨text', fits', -⟩ :=
    SyntaxTree.exists_splice parsed' (Plan.ofTree Catalog.bundled tree'.root).edits
  exact ⟨_, _, _, _, (SyntaxTree.ofSource_eq_ok parsed).1, (SyntaxTree.ofSource_eq_ok parsed').1,
    agree, convert_eq_ok parsed fits, convert_eq_ok parsed' fits', two,
    congrArg List.length one⟩

end ShaderDialect
