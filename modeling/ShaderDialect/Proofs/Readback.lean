import ShaderDialect.Conversion
import ShaderDialect.Proofs.Neighbours
import ShaderDialect.Proofs.PlanContent
import ShaderDialect.Proofs.Relexing

/-!
# The tokens of a converted shader

The plan of a shader deletes redeclared builtins, which start with a word behind
a closing token, and promotes decimal literals. So the converted text is cut
into the tokens that stay, with floating literals in the place of the promoted
ones. The one exception is a line end that only comes about by the deletion.
-/

namespace ShaderDialect

/-- A reserved word or a name is read as a word. -/
theorem Token.word?_of_scan? {cs read rest : List Char} {kind : TokenKind}
    (h : scan? cs = some (kind, read, rest))
    (isName : kind = .keyword ∨ kind = .identifier) :
    Literal.word? cs = some (read, rest) := by
  rcases scan?_cases h with ⟨-, rfl⟩ | ⟨-, -, rfl⟩ | ⟨-, -, word, -⟩ | ⟨-, -, -, -, rfl⟩
  · rcases isName with isName | isName <;> cases isName
  · unfold intKind at isName
    split_ifs at isName <;> rcases isName with isName | isName <;> cases isName
  · exact word
  · rcases isName with isName | isName <;> cases isName

/-- A token that is spelled with letters starts with one. -/
theorem Token.IsName.not_stops {token : Token} (h : token.IsName)
    {cs read rest : List Char} (scanned : scan? cs = some (token.kind, read, rest))
    (spelling : token.text = String.ofList read) :
    ¬ Stops Literal.isWordStart token.text.toList := by
  intro stops
  by_cases isMark : token.text ∈ ["layout", "struct"]
  · simp only [List.mem_cons, List.not_mem_nil, or_false] at isMark
    rcases isMark with same | same <;> rw [same] at stops <;>
      exact absurd stops (by decide)
  · have isName : token.kind = .keyword ∨ token.kind = .identifier :=
      h.imp_right fun rest => rest.resolve_right isMark
    have word := word?_of_scan? scanned isName
    obtain ⟨rfl, nonempty⟩ := scan?_append scanned
    rw [spelling, String.toList_ofList] at stops
    have headless : Literal.word? (read ++ rest) = none := by
      rw [Literal.word?_eq_none, Stops, List.head?_append, List.head?_eq_some_head nonempty]
      rw [Stops, List.head?_eq_some_head nonempty] at stops
      exact stops
    rw [headless] at word
    cases word

/-- A token that a declaration may follow is a seal or starts with a letter. -/
theorem Token.Closes.isSeal_or {token : Token} (h : token.Closes) :
    (∃ c, isSeal c ∧ token.text.toList = [c]) ∨
      ¬ Stops Literal.isWordStart token.text.toList := by
  simp only [Token.Closes, List.mem_cons, List.not_mem_nil, or_false] at h
  rcases h with text | text | text | text | text | text | text | text <;> rw [text]
  · exact Or.inl ⟨';', rfl, rfl⟩
  · exact Or.inl ⟨':', rfl, rfl⟩
  · exact Or.inl ⟨'(', rfl, rfl⟩
  · exact Or.inl ⟨')', rfl, rfl⟩
  · exact Or.inl ⟨'\x7b', rfl, rfl⟩
  · exact Or.inl ⟨'\x7d', rfl, rfl⟩
  · exact Or.inr (by decide)
  · exact Or.inr (by decide)

namespace SyntaxTree

open Plan

section Tokens

variable {source : String} {tree : SyntaxTree} (h : ofSource source = .ok tree)
include h

theorem eq_of_index {token other : Token} (member : token ∈ tree.stream.tokens)
    (otherMember : other ∈ tree.stream.tokens) (same : token.index = other.index) :
    token = other := by
  obtain ⟨-, -, -, counted⟩ := ofSource_spec h
  have distinct : (tree.stream.tokens.map Token.index).Nodup := by
    rw [counted]
    exact List.nodup_range
  exact List.inj_on_of_nodup_map distinct member otherMember same

theorem digits_of_isDecimal {token : Token} (member : token ∈ tree.stream.tokens)
    (isDecimal : token.IsDecimal) : ∀ c ∈ token.text.toList, Literal.isDigit c := by
  obtain ⟨cs, read, rest, scanned, spelling⟩ :=
    exists_scan_of_mem (ofSource_eq_ok h).1 member
  rw [isDecimal.1] at scanned
  rw [spelling, String.toList_ofList]
  rcases Token.scan?_intLiteral scanned with ⟨x, digits, rfl, -⟩ | ⟨-, all⟩
  · rcases isDecimal.2 with zero | ⟨c, cs, shape, least, -⟩
    · have list := congrArg String.toList (spelling.symm.trans zero)
      simp at list
    · rw [spelling, String.toList_ofList] at shape
      cases shape
      exact absurd least (by decide)
  · exact all

variable (catalog : Catalog)

theorem get?_eq_deleted_iff {token : Nat} :
    (Plan.ofTree catalog tree.root).edits.get? token = some "" ↔
      tree.InRedeclared catalog token := by
  rw [edits_get?_iff h, deleted_iff h, promoted_iff h]
  constructor
  · rintro (⟨inside, -⟩ | ⟨literal, -, -, -, spelling, -⟩)
    · exact inside
    · simp at spelling
  · exact fun inside => Or.inl ⟨inside, rfl⟩

/-- Every edit of a plan deletes a token or promotes a literal. -/
theorem rewrites :
    (Plan.ofTree catalog tree.root).edits.Rewrites tree.stream.lexemes := by
  intro lexeme listed text planned
  have member : lexeme.toToken ∈ tree.stream.tokens := List.mem_map_of_mem listed
  rcases (edits_get?_iff h catalog lexeme.index text).1 planned with deleted | promoted
  · exact Or.inl ((deleted_iff h catalog).1 deleted).2
  · obtain ⟨literal, listed, same, isDecimal, spelling, -⟩ :=
      (promoted_iff h catalog).1 promoted
    obtain rfl := eq_of_index h listed member same
    exact Or.inr ⟨isDecimal.1, digits_of_isDecimal h member isDecimal, spelling.symm⟩

/-- What stands before the first token of a redeclared builtin. -/
theorem exists_front_of_redeclares {outer : Nat} {record : NodeRecord}
    (redeclares : tree.Redeclares catalog outer)
    (found : tree.nodes.get? outer = some record) :
    ∃ front token behind, tree.stream.tokens = front ++ token :: behind ∧
      front.length = record.first ∧
      token.IsName ∧ ∀ closing, front.getLast? = some closing → closing.Closes := by
  obtain ⟨grammatical, -, leaves, counted⟩ := ofSource_spec h
  obtain ⟨place, member, rfl, rfl⟩ := nodes_get?.1 found
  obtain ⟨node, listed, redeclares⟩ := redeclares
  obtain ⟨place', member', own, rfl⟩ := postorder_getElem?.1 listed
  obtain rfl := Tree.eq_of_id_eq member' member own
  obtain ⟨own, front, behind, split, -, closes⟩ :=
    grammatical.standsIn (List.mem_of_getElem? listed)
  have nonempty : place'.tree.leaves ≠ [] := own.leaves_ne_nil <| by
    rcases redeclares.1 with isKind | isKind <;> simp [isKind]
  rw [leaves, ← List.append_assoc] at split
  have numbers := (span_of_append nonempty (split ▸ counted)).2.1
  obtain ⟨before, after, -, first, -, numbers', -⟩ :=
    record_span leaves counted member' nonempty
  have start : front.length = before.length :=
    (ends_of_range' nonempty numbers).1.symm.trans (ends_of_range' nonempty numbers').1
  obtain ⟨token, others, shape⟩ := List.exists_cons_of_ne_nil nonempty
  refine ⟨front, token, others ++ behind, ?_, start.trans first.symm, ?_, ?_⟩
  · rw [split, shape, List.append_assoc]
    rfl
  · exact redeclares.first_isName own (by rw [shape]; rfl)
  · exact closes redeclares.1.symm

/-- A token that stays in front of a deleted one is sealed off from it. -/
theorem isSealed : (Plan.ofTree catalog tree.root).edits.Sealed tree.stream.lexemes := by
  refine List.isChain_iff_forall_rel_of_append_cons_cons.2
    fun lexeme next before after shape kept deleted => ?_
  rw [ne_eq, get?_eq_deleted_iff h] at kept
  obtain ⟨outer, record, redeclares, found, first, last⟩ :=
    (get?_eq_deleted_iff h catalog).1 deleted
  obtain ⟨front, token, behind, split, size, isName, closes⟩ :=
    exists_front_of_redeclares h catalog redeclares found
  have tokens : tree.stream.tokens = (before ++ [lexeme]).map Lexeme.toToken ++
      next.toToken :: after.map Lexeme.toToken := by
    simp [TokenStream.tokens, shape]
  have lexed := TokenStream.lexed_of_ofSource (ofSource_eq_ok h).1
  have number : lexeme.index = 0 + before.length :=
    lexed.index_of_getElem? (by simp [shape])
  have number' : next.index = 0 + (before.length + 1) :=
    lexed.index_of_getElem? (by simp [shape])
  -- The token that stays is outside, so the redeclared builtin starts behind it.
  have outside : lexeme.index < record.first := by
    by_contra inside
    exact kept ⟨outer, record, redeclares, found, by omega, by omega⟩
  rw [tokens] at split
  obtain ⟨rfl, same⟩ := List.append_inj split (by simp; omega)
  obtain ⟨rfl, -⟩ := List.cons.inj same
  have closing := closes lexeme.toToken (by simp)
  obtain ⟨visible, read, rest, scanned, spelling⟩ :=
    lexed.scanned_of_mem (shape ▸ by simp : next ∈ _)
  refine closing.isSeal_or.imp_right fun starts => ⟨starts, fun stops => ?_⟩
  refine isName.not_stops scanned spelling fun c first => ?_
  have apart := stops c first
  rw [Literal.isWordPart, Bool.or_eq_false_iff] at apart
  exact apart.1

end Tokens

/-- No letter stands right behind an integer literal. -/
def SeparatesLiterals (tree : SyntaxTree) : Prop :=
  tree.stream.lexemes.IsChain fun lexeme next =>
    lexeme.kind = .intLiteral → lexeme.stop = next.start →
      Stops Literal.isWordStart next.text.toList

instance (tree : SyntaxTree) : Decidable tree.SeparatesLiterals :=
  inferInstanceAs (Decidable (List.IsChain _ _))

theorem floatSuffix_eq_nil_of_stops {cs : List Char}
    (stops : Stops Literal.isWordStart cs) :
    (Literal.floatSuffix cs).1 = [] := by
  unfold Literal.floatSuffix
  split
  · exact absurd (stops _ rfl) (by decide)
  · exact absurd (stops _ rfl) (by decide)
  · exact absurd (stops _ rfl) (by decide)
  · exact absurd (stops _ rfl) (by decide)
  · rfl

/-- A converted shader is cut into the tokens of the source that are not deleted,
where the promoted literals are floating. All edits are such deletions and
promotions. -/
theorem converted_tokens {source : String} {tree : SyntaxTree}
    (read : ofSource source = .ok tree) (catalog : Catalog)
    (separate : tree.SeparatesLiterals)
    (apart : ¬ (Plan.ofTree catalog tree.root).edits.JoinsLineEnd 0 tree.stream.lexemes
      source.toList) :
    ∃ conversion stream, convert catalog source = .ok conversion ∧
      TokenStream.ofSource conversion.text = .ok stream ∧
      stream.tokens.map Token.spelling =
        tree.stream.tokens.filterMap (Plan.ofTree catalog tree.root).edits.spelling? ∧
      ∀ token ∈ tree.stream.tokens, ∀ text,
        (Plan.ofTree catalog tree.root).edits.get? token.index = some text →
          text = "" ∨ token.kind = .intLiteral ∧ text = token.text ++ ".0" := by
  have rewrites := rewrites read catalog
  have unsuffixed : (Plan.ofTree catalog tree.root).edits.Unsuffixed tree.stream.lexemes :=
    List.IsChain.imp (fun _ _ apart _ isInt touching =>
      floatSuffix_eq_nil_of_stops (apart isInt touching)) separate
  obtain ⟨cs, spliced, -, reads⟩ :=
    (TokenStream.lexed_of_ofSource (ofSource_eq_ok read).1).exists_respelled
      rewrites unsuffixed (isSealed read catalog) apart
  obtain ⟨stream, recut, spellings⟩ := TokenStream.exists_ofSource reads
  have text : (Plan.ofTree catalog tree.root).edits.splice tree.stream source =
      .ok (String.ofList cs) := by
    simp [Edits.splice, spliced, Except.map]
  refine ⟨_, stream, convert_eq_ok read text, recut, spellings, ?_⟩
  intro token member text planned
  obtain ⟨lexeme, listed, rfl⟩ := List.mem_map.1 member
  exact (rewrites lexeme listed text planned).imp_right fun promoted =>
    ⟨promoted.1, promoted.2.2⟩

theorem converted_tokens_sin : ∃ conversion stream,
    convert Catalog.bundled "float sin(float x); float y = 2;" = .ok conversion ∧
      TokenStream.ofSource conversion.text = .ok stream ∧
      stream.tokens.map Token.spelling =
        [(.keyword, "float"), (.identifier, "y"), (.punct, "="), (.floatLiteral, "2.0"),
         (.punct, ";")] := by
  have read : (ofSource "float sin(float x); float y = 2;").toOption.map (fun tree =>
      (decide tree.SeparatesLiterals,
        tree.stream.tokens.filterMap (Plan.ofTree Catalog.bundled tree.root).edits.spelling?)) =
      some (true, [(.keyword, "float"), (.identifier, "y"), (.punct, "="), (.floatLiteral, "2.0"),
        (.punct, ";")]) := by
    decide +kernel
  obtain ⟨tree, parsed, checked⟩ := exists_of_map_toOption read
  obtain ⟨separate, planned⟩ := Prod.mk.inj checked
  obtain ⟨conversion, stream, converted, recut, spellings, -⟩ := converted_tokens parsed
    Catalog.bundled (of_decide_eq_true separate)
      (Edits.not_joinsLineEnd_of_notMem (by decide) _ _ _)
  exact ⟨conversion, stream, converted, recut, spellings.trans planned⟩

end SyntaxTree

/-- The semicolon is all that keeps the end of the directive from being a
continuation, and its deletion takes a word of the next line away. -/
theorem convert_continued_directive :
    ((SyntaxTree.ofSource
      "float sin(float x)\n\x7b\n#define A \\\r;\nreturn x; \x7d int\ny = 1;").toOption.map
      fun tree => (decide tree.SeparatesLiterals,
        (tree.stream.tokens.filterMap (Plan.ofTree Catalog.bundled tree.root).edits.spelling?).map
          Prod.snd)) = some (true, ["int", "y", "=", "1", ";"]) ∧
    ((convert Catalog.bundled
      "float sin(float x)\n\x7b\n#define A \\\r;\nreturn x; \x7d int\ny = 1;").toOption.bind
      fun conversion => (TokenStream.ofSource conversion.text).toOption.map fun stream =>
        stream.tokens.map Token.text) = some ["y", "=", "1", ";"] := by
  decide +kernel

end ShaderDialect
