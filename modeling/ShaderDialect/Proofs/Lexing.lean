import Mathlib.Tactic.SplitIfs
import ShaderDialect.SyntaxTree

/-!
# How a text falls into lexemes

`Lexed left index offset cs lexemes` says that the text `cs`, which starts at
byte `offset`, is hidden text and the given lexemes in turn, numbered from
`index`, up to `left`. A cut that succeeds leaves nothing, and one that fails
leaves what starts with no token. Where lines begin plays no part in it.
-/

namespace ShaderDialect

theorem eq_ok_of_toOption {ε α : Type} {result : Except ε α} {value : α}
    (h : result.toOption = some value) : result = .ok value := by
  cases result with
  | error cause => cases h
  | ok own =>
    cases h
    rfl

/-- What a result that is there gives, where it can be computed. -/
theorem exists_of_map_toOption {ε α β : Type} {result : Except ε α} {f : α → β}
    {value : β}
    (h : result.toOption.map f = some value) : ∃ a, result = .ok a ∧ f a = value := by
  obtain ⟨a, found, computed⟩ := Option.map_eq_some_iff.1 h
  exact ⟨a, eq_ok_of_toOption found, computed⟩

/-- The text is hidden text up to what is left, or up to a token that is the first
of the lexemes. -/
inductive Lexed (left : List Char) : Nat → Nat → List Char → List Lexeme → Prop where
  | finish {index offset : Nat} {cs : List Char} (hidden : (Hidden.skip cs).2 = left) :
      Lexed left index offset cs []
  | lexeme {index offset : Nat} {cs read rest : List Char} {kind : TokenKind}
      {lexemes : List Lexeme} (position : Position)
      (scanned : Token.scan? (Hidden.skip cs).2 = some (kind, read, rest))
      (others : Lexed left (index + 1) (offset + byteSize (Hidden.skip cs).1 + byteSize read) rest
        lexemes) :
      Lexed left index offset cs
        ({ index, kind, text := String.ofList read, start := offset + byteSize (Hidden.skip cs).1
           stop :=
             offset + byteSize (Hidden.skip cs).1 + byteSize read, position } :: lexemes)

namespace TokenStream

/-- Reading a text comes to its end, or to a character that starts no token. -/
theorem lexed_lexemesFrom (table : LineTable) (index offset : Nat) (cs : List Char) :
    (∃ lexemes, lexemesFrom table index offset cs = .ok lexemes ∧
      Lexed [] index offset cs lexemes) ∨
      ∃ lexemes c behind read, Lexed (c :: behind) index offset cs lexemes ∧
        Token.scan? (c :: behind) = none ∧ cs = read ++ c :: behind ∧
        lexemesFrom table index offset cs =
          .error ⟨table.position (offset + byteSize read), .unexpectedCharacter c⟩ := by
  fun_induction lexemesFrom table index offset cs with
  | case1 table index offset cs hidden =>
    exact Or.inl ⟨[], rfl, .finish hidden⟩
  | case2 table index offset cs start c visible visible_eq table' position noToken =>
    refine Or.inr ⟨[], c, visible, (Hidden.skip cs).1, .finish visible_eq,
      noToken, ?_, ?_⟩
    · rw [← visible_eq, Hidden.skip_append]
    · rw [← LineTable.position_advance (Nat.le_refl _) table]
  | case3 table index offset cs start c visible visible_eq table' position kind read rest scanned
      shorter stop lexeme =>
    rename_i ih
    rw [← visible_eq] at scanned
    rcases ih with ⟨lexemes, read_eq, reads⟩ |
      ⟨lexemes, c, behind, before, reads, noToken, shape, failed⟩
    · refine Or.inl ⟨lexeme :: lexemes, ?_, .lexeme position scanned reads⟩
      rw [read_eq]
      rfl
    · refine Or.inr ⟨lexeme :: lexemes, c, behind, (Hidden.skip cs).1 ++ read ++ before,
        .lexeme position scanned reads, noToken, ?_, ?_⟩
      · rw [List.append_assoc, ← shape, List.append_assoc, (Token.scan?_append scanned).1,
          Hidden.skip_append]
      · have place : offset + byteSize ((Hidden.skip cs).1 ++ read ++ before) =
            stop + byteSize before := by
          simp [stop, start, Nat.add_assoc]
        have step :=
          @LineTable.position_advance start (stop + byteSize before) (by omega) table
        rw [failed, place, ← step]
        rfl

theorem lexed_of_lexemesFrom {table : LineTable} {index offset : Nat} {cs : List Char}
    {lexemes : List Lexeme} (h : lexemesFrom table index offset cs = .ok lexemes) :
    Lexed [] index offset cs lexemes := by
  rcases lexed_lexemesFrom table index offset cs with
    ⟨lexemes', read, lexed⟩ | ⟨_, _, _, _, _, _, _, failed⟩
  · cases h.symm.trans read
    exact lexed
  · cases h.symm.trans failed

theorem lexed_of_ofSource {source : String} {stream : TokenStream}
    (h : ofSource source = .ok stream) : Lexed [] 0 0 source.toList stream.lexemes := by
  simp only [ofSource, bind, Except.bind, pure, Except.pure] at h
  split at h
  · cases h
  · rename_i lexemes cut
    cases h
    exact lexed_of_lexemesFrom cut

end TokenStream

namespace Lexed

theorem map_index {index offset : Nat} {cs : List Char} {lexemes : List Lexeme}
    (h : Lexed [] index offset cs lexemes) :
    lexemes.map (·.index) = List.range' index lexemes.length := by
  induction h with
  | finish hidden => rfl
  | lexeme position scanned others ih => simp [ih, List.range'_succ]

theorem index_of_getElem? {index offset : Nat} {cs : List Char} {lexemes : List Lexeme}
    (h : Lexed [] index offset cs lexemes) {i : Nat} {lexeme : Lexeme}
    (found : lexemes[i]? = some lexeme) : lexeme.index = index + i := by
  have number := congrArg (·[i]?) h.map_index
  obtain ⟨below, -⟩ := List.getElem?_eq_some_iff.1 found
  rw [List.getElem?_map, found, List.getElem?_range' below, Nat.one_mul] at number
  exact Option.some.inj number

/-- Every lexeme was scanned. -/
theorem scanned_of_mem {index offset : Nat} {cs : List Char} {lexemes : List Lexeme}
    (h : Lexed [] index offset cs lexemes) {lexeme : Lexeme} (member : lexeme ∈ lexemes) :
    ∃ visible read rest, Token.scan? visible = some (lexeme.kind, read, rest) ∧
      lexeme.text = String.ofList read := by
  induction h with
  | finish hidden => cases member
  | lexeme position scanned others ih =>
    rcases List.mem_cons.1 member with rfl | later
    · exact ⟨_, _, _, scanned, rfl⟩
    · exact ih later

theorem start_mem {index offset : Nat} {cs : List Char} {lexemes : List Lexeme}
    (h : Lexed [] index offset cs lexemes) :
    ∀ lexeme ∈ lexemes, offset ≤ lexeme.start ∧ lexeme.start < offset + byteSize cs := by
  induction h with
  | finish hidden => simp
  | @lexeme index offset cs read rest kind lexemes position scanned others ih =>
    have size : byteSize cs = byteSize (Hidden.skip cs).1 + (byteSize read + byteSize rest) := by
      rw [← byteSize_append, (Token.scan?_append scanned).1, ← byteSize_append,
        Hidden.skip_append]
    have positive := byteSize_pos (Token.scan?_append scanned).2
    intro lexeme member
    rcases List.mem_cons.1 member with rfl | later
    · dsimp only
      omega
    · have := ih lexeme later
      omega

/-- Lexemes start one behind the other. -/
theorem pairwise_start {index offset : Nat} {cs : List Char} {lexemes : List Lexeme}
    (h : Lexed [] index offset cs lexemes) : lexemes.Pairwise (·.start < ·.start) := by
  induction h with
  | finish hidden => exact .nil
  | lexeme position scanned others ih =>
    refine List.pairwise_cons.2 ⟨fun lexeme later => ?_, ih⟩
    have behind := (others.start_mem lexeme later).1
    have positive := byteSize_pos (Token.scan?_append scanned).2
    dsimp only
    omega

end Lexed

namespace TokenStream

/-- A lexeme has the position of its first byte. -/
theorem position_of_lexemesFrom {table : LineTable} {index offset : Nat} {cs : List Char}
    {lexemes : List Lexeme} (h : lexemesFrom table index offset cs = .ok lexemes) :
    ∀ lexeme ∈ lexemes, lexeme.position = table.position lexeme.start := by
  fun_induction lexemesFrom table index offset cs generalizing lexemes with
  | case1 table index offset cs hidden =>
    cases h
    simp
  | case2 => cases h
  | case3 table index offset cs start c visible visible_eq table' position kind read rest scanned
      shorter stop lexeme =>
    rename_i ih
    cases tail : lexemesFrom table' (index + 1) stop rest with
    | error cause =>
      rw [tail] at h
      cases h
    | ok others =>
      rw [tail] at h
      cases h
      intro other member
      rcases List.mem_cons.1 member with rfl | later
      · exact LineTable.position_advance (Nat.le_refl _) table
      · have behind := ((lexed_of_lexemesFrom tail).start_mem other later).1
        rw [ih tail other later]
        exact LineTable.position_advance (Nat.le_trans (Nat.le_add_right _ _) behind) table

theorem position_of_ofSource {source : String} {stream : TokenStream}
    (cut : ofSource source = .ok stream) : ∀ lexeme ∈ stream.lexemes,
    lexeme.position = (LineTable.ofText source.toList).position lexeme.start := by
  simp only [ofSource, bind, Except.bind, pure, Except.pure] at cut
  split at cut
  · cases cut
  · rename_i lexemes read
    cases cut
    exact position_of_lexemesFrom read

theorem positionOf_eq {stream : TokenStream} {index : Nat}
    (inside : index < stream.lexemes.length) :
    stream.positionOf index = stream.lexemes[index].position := by
  simp [positionOf, positions, toList, Array.getD_eq_getD_getElem?,
    List.getElem?_append_left, inside]

end TokenStream

/-- A hexadecimal literal is a zero, a mark and digits. -/
theorem Literal.hexadecimal?_eq_some {cs number rest : List Char}
    (h : hexadecimal? cs = some (number, rest)) :
    ∃ x tail digits, cs = '0' :: x :: tail ∧ number = '0' :: x :: digits ∧
      (x = 'x' ∨ x = 'X') ∧
      run? isHexDigit tail = some (digits, rest) := by
  unfold hexadecimal? at h
  split at h
  · rename_i x tail
    split_ifs at h with isMark
    obtain ⟨⟨digits, rest⟩, found, same⟩ := Option.map_eq_some_iff.1 h
    cases same
    exact ⟨x, tail, digits, rfl, rfl, by simpa using isMark, found⟩
  · cases h

theorem Literal.isDigit_of_isWordStart {c : Char} (isStart : isWordStart c) :
    isDigit c = false := by
  rw [Bool.eq_false_iff]
  intro digit
  simp only [isWordStart, isLetter, isDigit, Bool.or_eq_true, Bool.and_eq_true,
    decide_eq_true_eq] at isStart digit
  rcases isStart with (⟨low, -⟩ | ⟨low, -⟩) | rfl
  · exact absurd (Char.le_trans low digit.2) (by decide)
  · exact absurd (Char.le_trans low digit.2) (by decide)
  · exact absurd digit (by decide)

namespace Token

/-- The ways to read a token, in the order in which they are tried. -/
theorem scan?_cases {cs read rest : List Char} {kind : TokenKind}
    (h : scan? cs = some (kind, read, rest)) :
    (Literal.float? cs = some (read, rest) ∧ kind = .floatLiteral) ∨
      (Literal.float? cs = none ∧ Literal.int? cs = some (read, rest) ∧
        kind = intKind read) ∨
      (Literal.float? cs = none ∧ Literal.int? cs = none ∧ Literal.word? cs = some (read, rest) ∧
        kind = wordKind (String.ofList read)) ∨
      (Literal.float? cs = none ∧ Literal.int? cs = none ∧ Literal.word? cs = none ∧
        mark? Vocabulary.operators cs = some (read, rest) ∧ kind = .punct) := by
  unfold scan? at h
  cases float : Literal.float? cs with
  | some pair =>
    rw [float] at h
    cases h
    simp
  | none =>
    cases int : Literal.int? cs with
    | some pair =>
      simp only [float, int] at h
      cases h
      simp
    | none =>
      cases word : Literal.word? cs with
      | some pair =>
        simp only [float, int, word] at h
        cases h
        simp
      | none =>
        cases mark : mark? Vocabulary.operators cs with
        | some pair =>
          simp only [float, int, word, mark] at h
          cases h
          simp
        | none => simp_all

theorem ne_nil_of_scan? {cs read rest : List Char} {kind : TokenKind}
    (h : scan? cs = some (kind, read, rest)) : cs ≠ [] := by
  rintro rfl
  cases h

theorem intKind_ne_finish (read : List Char) : intKind read ≠ .finish := by
  unfold intKind
  split_ifs <;> decide

theorem wordKind_ne_finish (word : String) : wordKind word ≠ .finish := by
  unfold wordKind
  split_ifs <;> decide

theorem unsignedSuffix_cases (cs : List Char) :
    (Literal.unsignedSuffix cs).1 = [] ∨ (Literal.unsignedSuffix cs).1 = ['u'] ∨
      (Literal.unsignedSuffix cs).1 = ['U'] := by
  unfold Literal.unsignedSuffix
  split <;> simp

/-- An integer literal is digits, or digits behind a hexadecimal mark. -/
theorem scan?_intLiteral {cs read rest : List Char}
    (h : scan? cs = some (.intLiteral, read, rest)) :
    (∃ x digits, read = '0' :: x :: digits ∧ (x = 'x' ∨ x = 'X')) ∨
      (read ≠ [] ∧ ∀ c ∈ read, Literal.isDigit c) := by
  rcases scan?_cases h with ⟨-, isFloat⟩ | ⟨-, int, isInt⟩ | ⟨-, -, -, isWord⟩ |
    ⟨-, -, -, -, isMark⟩
  · cases isFloat
  · simp only [Literal.int?, Option.map_eq_some_iff, Prod.exists, Prod.mk.injEq] at int
    obtain ⟨number, after, found, rfl, rfl⟩ := int
    have plain : (Literal.unsignedSuffix after).1 = [] := by
      rcases unsignedSuffix_cases after with plain | marked | marked
      · exact plain
      · rw [marked] at isInt
        simp [intKind] at isInt
      · rw [marked] at isInt
        simp [intKind] at isInt
    rw [plain, List.append_nil]
    rcases Option.or_eq_some_iff.1 found with found | ⟨-, found⟩
    · obtain ⟨x, -, digits, -, rfl, isMark, -⟩ := Literal.hexadecimal?_eq_some found
      exact Or.inl ⟨x, digits, rfl, isMark⟩
    · right
      have nonempty := (Literal.run?_append found).2
      refine ⟨nonempty, ?_⟩
      unfold Literal.run? at found
      split_ifs at found
      cases found
      exact fun c member => List.all_eq_true.1 (List.all_takeWhile) c member
  · unfold wordKind at isWord
    split_ifs at isWord
  · cases isMark

/-- No token is an end mark. -/
theorem scan?_ne_finish {cs read rest : List Char} {kind : TokenKind}
    (h : scan? cs = some (kind, read, rest)) : kind ≠ .finish := by
  rcases scan?_cases h with ⟨-, rfl⟩ | ⟨-, -, rfl⟩ | ⟨-, -, -, rfl⟩ | ⟨-, -, -, -, rfl⟩
  · decide
  · exact intKind_ne_finish read
  · exact wordKind_ne_finish _
  · decide

end Token

/-- What a token is apart from its number. -/
def Token.spelling (token : Token) : TokenKind × String :=
  (token.kind, token.text)

/-- Tokens are numbered in order from zero. -/
def Token.Counted (tokens : List Token) : Prop :=
  tokens.map Token.index = List.range tokens.length

/-- Tokens that are numbered in order are known by their spellings. -/
theorem Token.Counted.eq_mapIdx {tokens : List Token} (counted : Counted tokens) :
    tokens = (tokens.map spelling).mapIdx fun index spelling =>
      ⟨index, spelling.1, spelling.2⟩ := by
  refine List.ext_getElem (by simp) fun i below _ => ?_
  have number : (tokens.map Token.index)[i]? = some i := by
    rw [counted, List.getElem?_range below]
  rw [List.getElem?_map, List.getElem?_eq_getElem below] at number
  rw [List.getElem_mapIdx, List.getElem_map]
  exact congrArg (Token.mk · tokens[i].kind tokens[i].text) (Option.some.inj number)

theorem Token.Counted.eq_of_spellings {tokens tokens' : List Token}
    (counted : Counted tokens) (counted' : Counted tokens')
    (same : tokens.map spelling = tokens'.map spelling) :
    tokens = tokens' := by
  rw [counted.eq_mapIdx, same, ← counted'.eq_mapIdx]

namespace SyntaxTree

theorem ofSource_eq_ok {source : String} {tree : SyntaxTree}
    (h : ofSource source = .ok tree) :
    TokenStream.ofSource source = .ok tree.stream ∧
    ofTokens tree.stream.tokens = .ok tree.root := by
  simp only [ofSource, bind, Except.bind] at h
  split at h
  · cases h
  · rename_i stream cut
    unfold ofStream at h
    split at h
    · cases h
    · rename_i root read
      cases h
      exact ⟨cut, read⟩

/-- Every token of a stream was scanned. -/
theorem exists_scan_of_mem {source : String} {stream : TokenStream}
    (h : TokenStream.ofSource source = .ok stream) {token : Token}
    (member : token ∈ stream.tokens) :
    ∃ cs read rest, Token.scan? cs = some (token.kind, read, rest) ∧
      token.text = String.ofList read := by
  obtain ⟨lexeme, listed, rfl⟩ := List.mem_map.1 member
  exact (TokenStream.lexed_of_ofSource h).scanned_of_mem listed

/-- The tokens of a stream are numbered in order. -/
theorem map_index_tokens {source : String} {stream : TokenStream}
    (h : TokenStream.ofSource source = .ok stream) :
    stream.tokens.map Token.index = List.range stream.lexemes.length := by
  rw [TokenStream.tokens, List.map_map, List.range_eq_range']
  exact (TokenStream.lexed_of_ofSource h).map_index

theorem counted_tokens {source : String} {stream : TokenStream}
    (h : TokenStream.ofSource source = .ok stream) : Token.Counted stream.tokens := by
  rw [Token.Counted, map_index_tokens h, TokenStream.tokens, List.length_map]

end SyntaxTree

end ShaderDialect
