import ShaderDialect.Proofs.Lookahead
import ShaderDialect.Proofs.PlanContent
import ShaderDialect.Proofs.Reports
import ShaderDialect.Proofs.Splicing

/-!
# Conversion fails on syntax alone

A source that can be read can be converted. What is read and planned speaks of
tokens and nodes by number, and every such number is that of a token or a node,
so nothing is looked up in vain; and the lexemes lie in the source one behind
the other, so every edit fits. A source that cannot be read fails at a token of
it, or at its end.
-/

namespace ShaderDialect

/-- The error stands at a token of the stream and names it, or at the end of the
input and names none. -/
def SyntaxError.StopsIn (error : SyntaxError) (stream : TokenStream) : Prop :=
  ∃ index ≤ stream.lexemes.length, ∃ what,
    error = ⟨stream.positionOf index, .expected what ((stream.tokens[index]?).map Token.text)⟩

/-- The text has the gaps of the source, byte for byte, around the spellings that
its tokens get. -/
def Edits.SplicedInto (edits : Edits) (stream : TokenStream)
    (source text : String) : Prop :=
  ∃ gaps,
    stream.gapRanges.map (fun (start, stop) => sliceBytes? start stop source.toList) =
      gaps.map some ∧
    (∀ lexeme ∈ stream.lexemes,
      sliceBytes? lexeme.start lexeme.stop source.toList = some lexeme.text.toList) ∧
    text.toList = weave gaps (stream.tokens.map edits.textOf)

theorem Edits.textOf_of_isEmpty {edits : Edits} (empty : edits.isEmpty) :
    edits.textOf = Token.text := by
  funext token
  have none : edits.get? token.index = none := Std.TreeMap.getElem?_of_isEmpty empty
  rw [textOf, none, Option.getD_none]

/-- The numbers that the records of a tree and a plan for it hold are in range.
The number of lexemes is that of the end mark. -/
structure SyntaxTree.InRange (tree : SyntaxTree) (plan : Plan) : Prop where
  parent : ∀ {id record parent}, tree.nodes.get? id = some record →
    record.parent = some parent →
    id < parent ∧ parent < tree.nodes.size
  node : ∀ {id record child}, tree.nodes.get? id = some record →
    .node child ∈ record.children →
    child < id ∧ id < tree.nodes.size
  token : ∀ {id record index}, tree.nodes.get? id = some record →
    .token index ∈ record.children →
    index < tree.stream.lexemes.length
  span : ∀ {id record}, tree.nodes.get? id = some record →
    record.first ≤ record.last ∧ record.last ≤ tree.stream.lexemes.length
  edit : ∀ {index text}, plan.edits.get? index = some text →
    index < tree.stream.lexemes.length
  context : ∀ {id context}, plan.contexts.get? id = some context → id < tree.nodes.size
  finding : ∀ {finding}, finding ∈ plan.findings.toList →
    finding.token < tree.stream.lexemes.length

namespace SyntaxTree

/-! ### Sources that cannot be read -/

theorem ofSource_eq_error {source : String} {cause : SyntaxError} :
    ofSource source = .error cause ↔
      TokenStream.ofSource source = .error cause ∨
        ∃ stream failure, TokenStream.ofSource source = .ok stream ∧
          ofTokens stream.tokens = .error failure ∧ locate stream failure = cause := by
  cases cut : TokenStream.ofSource source with
  | error cause' => simp [ofSource, cut, bind, Except.bind]
  | ok stream =>
    cases read : ofTokens stream.tokens with
    | error failure => simp [ofSource, ofStream, cut, read, bind, Except.bind]
    | ok root => simp [ofSource, ofStream, cut, read, bind, Except.bind]

/-- The number at which a failure is located is that of the token where reading
stopped. -/
theorem getElem?_of_failure {stream : TokenStream} {failure : Grammar.Failure}
    (failed : ofTokens stream.tokens = .error failure) :
    stream.tokens[stream.lexemes.length - failure.rest.length]? = failure.found := by
  obtain ⟨before, split⟩ := rest_of_ofTokens failed
  have length : stream.lexemes.length = before.length + failure.rest.length := by
    rw [← List.length_append, split, TokenStream.tokens, List.length_map]
  rw [length, Nat.add_sub_cancel, ← split, List.getElem?_append_right (Nat.le_refl _),
    Nat.sub_self, Grammar.Failure.found, List.head?_eq_getElem?]

theorem stopsIn_locate {stream : TokenStream} {failure : Grammar.Failure}
    (failed : ofTokens stream.tokens = .error failure) :
    (locate stream failure).StopsIn stream :=
  ⟨_, Nat.sub_le _ _, failure.expected, by rw [locate, getElem?_of_failure failed]⟩

/-! ### Sources that can be read -/

section Read

variable {source : String} {tree : SyntaxTree} (h : ofSource source = .ok tree)

include h

theorem lt_of_leaf {token : Token} (listed : token ∈ tree.root.leaves) :
    token.index < tree.stream.lexemes.length := by
  obtain ⟨-, -, leaves, counted⟩ := ofSource_spec h
  rw [← List.mem_range, ← counted, ← leaves]
  exact List.mem_map_of_mem listed

theorem record_last_le {place : Place} (member : place ∈ tree.root.places none 0) :
    (place.record tree.stream.lexemes.length).first ≤
      (place.record tree.stream.lexemes.length).last ∧
      (place.record tree.stream.lexemes.length).last ≤ tree.stream.lexemes.length := by
  obtain ⟨-, -, leaves, counted⟩ := ofSource_spec h
  by_cases empty : Tree.leavesAll place.children = []
  · simp [Place.record, empty, Tree.spanOf]
  · obtain ⟨before, after, -, first, last, -, fits⟩ :=
      record_span leaves counted member empty
    have := List.length_pos_iff.2 empty
    omega

theorem inRange (catalog : Catalog) : tree.InRange (Plan.ofTree catalog tree.root) := by
  have inside : ∀ {place : Place}, place ∈ tree.root.places none 0 →
      place.id < tree.nodes.size := by
    intro place member
    rw [size_nodes, ← Nat.zero_add tree.root.size]
    exact Tree.lt_of_mem_places member
  refine ⟨?_, ?_, ?_, ?_, lt_of_edit h catalog, ?_, ?_⟩
  · intro id record parent found recorded
    obtain ⟨owner, member, rfl, listed⟩ := exists_owner found recorded
    exact ⟨lt_of_listed member listed, inside member⟩
  · intro id record child found listed
    obtain ⟨place, member, rfl, rfl⟩ := nodes_get?.1 found
    exact ⟨lt_of_listed member listed, inside member⟩
  · intro id record index found listed
    obtain ⟨place, member, rfl, rfl⟩ := nodes_get?.1 found
    obtain ⟨token, hangs, rfl⟩ := Tree.token_mem_childRefs.1 listed
    exact lt_of_leaf h ((Tree.leavesAll_infix member).subset
      (Tree.leaves_subset hangs List.mem_cons_self))
  · intro id record found
    obtain ⟨place, member, rfl, rfl⟩ := nodes_get?.1 found
    exact record_last_le h member
  · intro id context stamped
    exact ((mem_stamped_log h catalog id).1
      (Plan.mem_stamped.2 ⟨context, (contexts_get? h catalog).1 stamped⟩)).1
  · intro finding listed
    obtain ⟨token, member, own, -⟩ :=
      Plan.findings_ofTree catalog tree.root finding listed
    exact own ▸ lt_of_leaf h member

/-- Any edits can be spliced into a source that can be read. -/
theorem exists_splice (edits : Edits) :
    ∃ text, edits.splice tree.stream source = .ok text ∧
    edits.SplicedInto tree.stream source text ∧ (edits.isEmpty → text = source) := by
  obtain ⟨cut, -⟩ := ofSource_eq_ok h
  obtain ⟨gaps, slices, texts, woven, spliced⟩ :=
    (TokenStream.lexed_of_ofSource cut).exists_gaps byteSize_nil
  have spellings : ∀ spelling : Token → String,
      tree.stream.tokens.map spelling = tree.stream.lexemes.map fun lexeme =>
        spelling lexeme.toToken :=
    fun spelling => List.map_map
  refine ⟨String.ofList (weave gaps (tree.stream.tokens.map edits.textOf)), ?_,
    ⟨gaps, ?_, texts, String.toList_ofList⟩, fun empty => ?_⟩
  · rw [Edits.splice, spliced, spellings, Except.map]
  · rw [TokenStream.gapRanges, TokenStream.finish_of_ofSource cut, ← slices, Nat.zero_add]
    rfl
  · rw [Edits.textOf_of_isEmpty empty, spellings, ← woven, String.ofList_toList]

end Read

end SyntaxTree

/-- A source is converted if it can be read, and otherwise fails as reading does:
with the text of the syntax error, which stands at a token or at the end, unless
a character starts no token. A conversion splices its plan into the source, and
returns the source where nothing is planned; no number of a token or a node is
out of range. -/
theorem convert_total (catalog : Catalog) (source : String) :
    (convert catalog source).isOk = (SyntaxTree.ofSource source).isOk ∧
    (∀ cause, SyntaxTree.ofSource source = .error cause →
      convert catalog source = .error (.parse cause) ∧
      (Error.parse cause).kind = .parse ∧
      (Error.parse cause).detail =
        toString cause.position.line.toNat ++ ":" ++ toString cause.position.column.toNat ++ ": " ++
          cause.fault.message ∧
      (TokenStream.ofSource source = .error cause ∨
        ∃ stream, TokenStream.ofSource source = .ok stream ∧ cause.StopsIn stream)) ∧
    ∀ tree, SyntaxTree.ofSource source = .ok tree →
      tree.InRange (Plan.ofTree catalog tree.root) ∧
      ∃ text,
        convert catalog source =
          .ok { text, diagnostics := tree.diagnose (Plan.ofTree catalog tree.root).findings } ∧
        (Plan.ofTree catalog tree.root).edits.SplicedInto tree.stream source text ∧
        ((Plan.ofTree catalog tree.root).edits.isEmpty → text = source) := by
  cases read : SyntaxTree.ofSource source with
  | error cause =>
    have failed : convert catalog source = .error (.parse cause) := by
      simp only [convert, read]
    refine ⟨by rw [failed]; rfl, ?_, by simp⟩
    rintro _ ⟨⟩
    refine ⟨failed, rfl, rfl, ?_⟩
    rcases SyntaxTree.ofSource_eq_error.1 read with uncut |
      ⟨stream, failure, cut, unread, rfl⟩
    · exact .inl uncut
    · exact .inr ⟨stream, cut, SyntaxTree.stopsIn_locate unread⟩
  | ok tree =>
    obtain ⟨text, fits, spliced, kept⟩ :=
      SyntaxTree.exists_splice read (Plan.ofTree catalog tree.root).edits
    have converted := convert_eq_ok read fits
    refine ⟨by rw [converted]; rfl, by simp, ?_⟩
    rintro _ ⟨⟩
    exact ⟨SyntaxTree.inRange read catalog, text, converted, spliced, kept⟩

theorem convert_total_comment :
    (∃ tree, SyntaxTree.ofSource "/*é*/float a=1;" = .ok tree ∧
      tree.InRange (Plan.ofTree Catalog.bundled tree.root)) ∧
    ∃ cause, SyntaxTree.ofSource "float é;" = .error cause ∧
      convert Catalog.bundled "float é;" = .error (.parse cause) := by
  have read : (SyntaxTree.ofSource "/*é*/float a=1;").toOption.map (·.stream.lexemes.length) =
      some 5 := by
    decide +kernel
  have unread : (SyntaxTree.ofSource "float é;").isOk = false := by
    decide +kernel
  obtain ⟨tree, parsed, -⟩ := exists_of_map_toOption read
  refine ⟨⟨tree, parsed, ((convert_total Catalog.bundled _).2.2 tree parsed).1⟩, ?_⟩
  cases failed : SyntaxTree.ofSource "float é;" with
  | error cause =>
    exact ⟨cause, rfl, ((convert_total Catalog.bundled _).2.1 cause failed).1⟩
  | ok tree =>
    rw [failed] at unread
    cases unread

end ShaderDialect
