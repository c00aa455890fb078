import ShaderDialect.Proofs.Weight

/-!
# Converting again and again

A conversion that changes a shader makes its text lighter, so repeated
conversions come to rest, or to a text that is no shader. They do so within a
number of steps that the tokens of the source give, unless a deletion joins the
two halves of a line end: then text may come out of a comment, with new tokens.
-/

namespace ShaderDialect

/-- The text after so many conversions: the source, or what the last of them
gives. -/
def convertTimes (catalog : Catalog) (k : Nat) (source : String) : Except Error String :=
  ((convertRepeatedly catalog k source).getLast?.map (·.map Conversion.text)).getD (.ok source)

/-- After `k` conversions the text is no shader, or converting it changes
nothing. -/
def RestsAfter (catalog : Catalog) (source : String) (k : Nat) : Prop :=
  ∃ text, convertTimes catalog k source = .ok text ∧
    ((∃ cause, convert catalog text = .error (.parse cause)) ∨
      ∃ conversion, convert catalog text = .ok conversion ∧ conversion.text = text)

section Times

variable {catalog : Catalog}

theorem convertTimes_of_error {source : String} {cause : Error}
    (failed : convert catalog source = .error cause) (k : Nat) :
    convertTimes catalog (k + 1) source = .error cause := by
  rw [convertTimes, convertRepeatedly, failed]
  rfl

theorem convertTimes_succ {source : String} {conversion : Conversion}
    (converted : convert catalog source = .ok conversion) (k : Nat) :
    convertTimes catalog (k + 1) source = convertTimes catalog k conversion.text := by
  rw [convertTimes, convertTimes, convertRepeatedly, converted]
  simp only [List.getLast?_cons, Option.map_some, Option.getD_some]
  cases (convertRepeatedly catalog k conversion.text).getLast? <;> rfl

theorem restsAfter_zero_of_error {source : String} {cause : SyntaxError}
    (failed : SyntaxTree.ofSource source = .error cause) : RestsAfter catalog source 0 :=
  ⟨source, rfl, Or.inl ⟨cause, by rw [convert, failed]⟩⟩

theorem restsAfter_succ {source : String} {conversion : Conversion}
    (converted : convert catalog source = .ok conversion) (k : Nat) :
    RestsAfter catalog source (k + 1) ↔ RestsAfter catalog conversion.text k := by
  rw [RestsAfter, convertTimes_succ converted]
  rfl

/-- Where each conversion that changes a text makes it smaller, repeated ones
come to rest. -/
theorem exists_restsAfter (P : String → Prop) (size : String → Nat)
    (step : ∀ source tree, P source → SyntaxTree.ofSource source = .ok tree →
      ∃ conversion, convert catalog source = .ok conversion ∧
        (conversion.text ≠ source → P conversion.text ∧ size conversion.text < size source))
    {source : String} (holds : P source) :
    ∃ k ≤ size source, RestsAfter catalog source k := by
  induction bound : size source using Nat.strong_induction_on generalizing source with
  | _ n ih =>
    subst bound
    cases read : SyntaxTree.ofSource source with
    | error cause => exact ⟨0, Nat.zero_le _, restsAfter_zero_of_error read⟩
    | ok tree =>
      obtain ⟨conversion, converted, shrinks⟩ := step source tree holds read
      by_cases same : conversion.text = source
      · exact ⟨0, Nat.zero_le _, source, rfl, Or.inr ⟨conversion, converted, same⟩⟩
      · obtain ⟨holds', smaller⟩ := shrinks same
        obtain ⟨k, few, rests⟩ := ih _ smaller holds' rfl
        exact ⟨k + 1, by omega, (restsAfter_succ converted k).2 rests⟩

end Times

/-! ### Tokens that touch -/

theorem Hidden.skip_of_isWordStart {c : Char} (isStart : Literal.isWordStart c)
    (cs : List Char) :
    skip (c :: cs) = ([], c :: cs) := by
  have other : ∀ d, Literal.isWordStart d = false → c ≠ d := by
    rintro d notStart rfl
    rw [isStart] at notStart
    cases notStart
  have notBlank : isBlank c = false := by
    simp [isBlank, other ' ' (by decide), other '\t' (by decide), other '\r' (by decide),
      other '\n' (by decide)]
  have notSlash := other '/' (by decide)
  have notHash := other '#' (by decide)
  exact skip_of_none (by simp [piece?, blanks?, lineComment?, blockComment?, directive?, notBlank,
    notSlash, notHash])

namespace Lexed

/-- Edits put no characters into a text but those of promotions. -/
theorem exists_splice_subset {edits : Edits} {index offset : Nat} {cs : List Char}
    {lexemes : List Lexeme} (h : Lexed [] index offset cs lexemes)
    (rewrites : edits.Rewrites lexemes) :
    ∃ cs', edits.spliceFrom offset lexemes cs = .ok cs' ∧ ∀ c ∈ cs', c ∈ cs ∨
      c ∈ ['.', '0'] := by
  induction h with
  | @finish index offset cs hidden => exact ⟨cs, rfl, fun c member => Or.inl member⟩
  | @lexeme index offset cs read rest kind lexemes position scanned others ih =>
    obtain ⟨rest', spliced, below⟩ :=
      ih fun lexeme member => rewrites lexeme (List.mem_cons_of_mem _ member)
    have text : cs = (Hidden.skip cs).1 ++ (read ++ rest) := by
      rw [(Token.scan?_append scanned).1, Hidden.skip_append]
    refine ⟨_, spliceFrom_cons edits scanned spliced, fun c member => ?_⟩
    rw [text]
    rcases List.mem_append.1 member with inGap | member
    · exact Or.inl (List.mem_append_left _ inGap)
    rcases List.mem_append.1 member with own | behind
    · cases planned : edits.get? index with
      | none =>
        rw [planned] at own
        exact Or.inl (List.mem_append_right _ (List.mem_append_left _ own))
      | some new =>
        rw [planned] at own
        obtain rfl | ⟨-, -, rfl⟩ := rewrites _ List.mem_cons_self new planned
        · cases own
        · rw [Option.map_some, Option.getD_some, String.toList_append,
            String.toList_ofList] at own
          exact (List.mem_append.1 own).imp_left fun old =>
            List.mem_append_right _ (List.mem_append_left _ old)
    · exact (below c behind).imp_left fun old =>
        List.mem_append_right _ (List.mem_append_right _ old)

/-- A text starts with a letter where the first token does and nothing stands in
front of it. -/
theorem stops_iff {index offset : Nat} {cs : List Char} {lexemes : List Lexeme}
    (h : Lexed [] index offset cs lexemes) :
    Stops Literal.isWordStart cs ↔ ∀ next ∈ lexemes.head?, offset = next.start →
      Stops Literal.isWordStart next.text.toList := by
  by_cases hidden : (Hidden.skip cs).1 = []
  · have whole := Hidden.skip_append cs
    rw [hidden, List.nil_append] at whole
    cases h with
    | finish none =>
      obtain rfl : cs = [] := by rw [← whole, none]
      simp [Stops]
    | lexeme position scanned others =>
      obtain ⟨text, nonempty⟩ := Token.scan?_append scanned
      have heads := congrArg List.head? (text.trans whole)
      rw [List.head?_append_of_ne_nil _ nonempty] at heads
      simp [Stops, ← heads, hidden]
  · refine iff_of_true (fun c first => Bool.eq_false_iff.2 fun isStart => hidden ?_) ?_
    · obtain ⟨tail, rfl⟩ := List.head?_eq_some_iff.1 first
      rw [Hidden.skip_of_isWordStart isStart]
    · rintro next first touching
      cases h with
      | finish none => cases first
      | lexeme position scanned others =>
        cases first
        have positive := byteSize_pos hidden
        simp only at touching
        omega

theorem isChain_iff {index offset : Nat} {cs : List Char} {lexemes : List Lexeme}
    (h : Lexed [] index offset cs lexemes) :
    LiteralsApart cs ↔ lexemes.IsChain fun lexeme next =>
      lexeme.kind = .intLiteral → lexeme.stop = next.start →
        Stops Literal.isWordStart next.text.toList := by
  induction h with
  | finish hidden => exact iff_of_true (.finish hidden) .nil
  | lexeme position scanned others ih =>
    rw [literalsApart_iff scanned, ih, others.stops_iff, List.isChain_cons]
    exact and_congr_left' ⟨fun h next first isInt touching => h isInt next first touching,
      fun h isInt next first touching => h next first isInt touching⟩

end Lexed

/-! ### Conversions that change a text -/

/-- Twice the number of integer literals, and the number of other tokens. -/
def load (spellings : List (TokenKind × String)) : Nat :=
  spellings.length + spellings.countP (·.1 = .intLiteral)

theorem load_cons (spelling : TokenKind × String)
    (spellings : List (TokenKind × String)) :
    load (spelling :: spellings) = load spellings + if spelling.1 =
      .intLiteral then 2 else 1 := by
  by_cases isInt : spelling.1 = .intLiteral <;> simp [load, isInt] <;> omega

/-- Every edit takes a token or an integer literal away. -/
theorem load_respelled {edits : Edits} {lexemes : List Lexeme}
    (rewrites : edits.Rewrites lexemes) :
    load ((lexemes.map Lexeme.toToken).filterMap edits.spelling?) ≤
      load (lexemes.map (·.spelling)) ∧
      ((∃ lexeme ∈ lexemes, (edits.get? lexeme.index).isSome) →
        load ((lexemes.map Lexeme.toToken).filterMap edits.spelling?) <
          load (lexemes.map (·.spelling))) := by
  induction lexemes with
  | nil => exact ⟨le_rfl, by simp⟩
  | cons lexeme lexemes ih =>
    obtain ⟨below, fewer⟩ :=
      ih fun lexeme member => rewrites lexeme (List.mem_cons_of_mem _ member)
    rw [List.exists_mem_cons_iff, List.map_cons, List.map_cons, load_cons]
    cases planned : edits.get? lexeme.index with
    | none =>
      have same : edits.spelling? lexeme.toToken = some lexeme.spelling := by
        rw [Edits.spelling?, planned]
      rw [List.filterMap_cons_some same, load_cons]
      refine ⟨Nat.add_le_add_right below _, ?_⟩
      rintro (edited | edited)
      · cases edited
      · exact Nat.add_lt_add_right (fewer edited) _
    | some text =>
      suffices smaller :
          load ((lexeme.toToken :: lexemes.map Lexeme.toToken).filterMap edits.spelling?) <
            load (lexemes.map (·.spelling)) + if lexeme.spelling.1 =
              .intLiteral then 2 else 1 from
        ⟨smaller.le, fun _ => smaller⟩
      obtain rfl | ⟨isInt, -, rfl⟩ := rewrites _ List.mem_cons_self text planned
      · have gone : edits.spelling? lexeme.toToken = none := by
          rw [Edits.spelling?, planned]
          rfl
        rw [List.filterMap_cons_none gone]
        split <;> omega
      · have float : edits.spelling? lexeme.toToken =
            some (.floatLiteral, lexeme.text ++ ".0") := by
          rw [Edits.spelling?, planned]
          exact if_neg (by simp)
        have kind : lexeme.spelling.1 = .intLiteral := isInt
        rw [List.filterMap_cons_some float, load_cons, if_pos kind]
        simp only [reduceCtorEq, if_false]
        omega

namespace SyntaxTree

open Plan

theorem SeparatesLiterals.unsuffixed {tree : SyntaxTree} (h : tree.SeparatesLiterals)
    (edits : Edits) :
    edits.Unsuffixed tree.stream.lexemes :=
  List.IsChain.imp (fun _ _ apart _ isInt touching =>
    floatSuffix_eq_nil_of_stops (apart isInt touching)) h

section Changes

variable {source : String} {tree : SyntaxTree} (h : ofSource source = .ok tree)
    (catalog : Catalog)
include h

theorem separatesLiterals_iff : tree.SeparatesLiterals ↔ LiteralsApart source.toList :=
  (TokenStream.lexed_of_ofSource (ofSource_eq_ok h).1).isChain_iff.symm

/-- Only edits change a text. -/
theorem exists_edit_of_ne {catalog : Catalog} {conversion : Conversion}
    (converted : convert catalog source = .ok conversion)
    (changed : conversion.text ≠ source) :
    ∃ lexeme ∈ tree.stream.lexemes,
      ((Plan.ofTree catalog tree.root).edits.get? lexeme.index).isSome := by
  by_contra none
  simp only [not_exists, not_and, Option.not_isSome_iff_eq_none] at none
  rw [convert_eq_ok h (Edits.splice_of_none (ofSource_eq_ok h).1 none)] at converted
  cases converted
  exact changed rfl

/-- With an edit there is one that shows in the weight. -/
theorem exists_lightens {lexeme : Lexeme} (member : lexeme ∈ tree.stream.lexemes)
    (edited : ((Plan.ofTree catalog tree.root).edits.get? lexeme.index).isSome) :
    ∃ lexeme ∈ tree.stream.lexemes,
      (Plan.ofTree catalog tree.root).edits.Lightens lexeme := by
  obtain ⟨text, planned⟩ := Option.isSome_iff_exists.1 edited
  by_cases deleted : text = ""
  · subst deleted
    -- The first token of what is redeclared is a name, and goes with the others.
    obtain ⟨outer, record, redeclares, found, first, last⟩ :=
      (get?_eq_deleted_iff h catalog).1 planned
    obtain ⟨front, token, behind, split, size, isName, -⟩ :=
      exists_front_of_redeclares h catalog redeclares found
    have listed : token ∈ tree.stream.tokens := by simp [split]
    have number : token.index = record.first := by
      have place : (tree.stream.tokens.map Token.index)[front.length]? =
          some token.index := by
        simp [split]
      rw [(ofSource_spec h).2.2.2] at place
      obtain ⟨_, same⟩ := List.getElem?_eq_some_iff.1 place
      rw [← same, List.getElem_range, size]
    have gone : (Plan.ofTree catalog tree.root).edits.get? token.index = some "" :=
      (get?_eq_deleted_iff h catalog).2
        ⟨outer, record, redeclares, found, number.ge, number.le.trans (first.trans last)⟩
    obtain ⟨cs, read, rest, scanned, spelling⟩ :=
      exists_scan_of_mem (ofSource_eq_ok h).1 listed
    have starts := isName.not_stops scanned spelling
    simp only [Stops, not_forall, Bool.not_eq_false] at starts
    obtain ⟨c, head, isStart⟩ := starts
    obtain ⟨own, ownMember, rfl⟩ := List.mem_map.1 listed
    exact ⟨own, ownMember, "", gone, fun _ =>
      ⟨c, List.mem_of_mem_head? head, isNumeric_of_isWordStart isStart⟩⟩
  · exact ⟨lexeme, member, text, planned, fun empty => absurd empty deleted⟩

/-- A conversion that changes a text makes it lighter. -/
theorem exists_convert_weight : ∃ conversion, convert catalog source = .ok conversion ∧
    (conversion.text ≠ source →
      Phase.outside.weight conversion.text.toList <
        Phase.outside.weight source.toList) := by
  have lexed := TokenStream.lexed_of_ofSource (ofSource_eq_ok h).1
  have fresh : Phase.outside = .outside ∨ Stops Literal.isDigit source.toList :=
    Or.inl rfl
  obtain ⟨cs, spliced, relieves⟩ :=
    lexed.exists_relieves_splice (rewrites h catalog) (isSealed h catalog) fresh
      fun _ _ _ _ => rfl
  obtain ⟨conversion, converted, text⟩ := exists_convert_of_spliceFrom h spliced
  refine ⟨conversion, converted, fun changed => ?_⟩
  obtain ⟨lexeme, member, edited⟩ := exists_edit_of_ne h converted changed
  rw [text, String.toList_ofList]
  exact relieves.lt (exists_lightens h catalog member edited)

/-- A conversion that changes a text leaves fewer tokens or integer literals,
unless it joins a line end. -/
theorem exists_convert_load (separate : tree.SeparatesLiterals)
    (apart : ¬ (Plan.ofTree catalog tree.root).edits.JoinsLineEnd 0 tree.stream.lexemes
      source.toList) :
    ∃ conversion stream, convert catalog source = .ok conversion ∧
      TokenStream.ofSource conversion.text = .ok stream ∧
      LiteralsApart conversion.text.toList ∧
      (conversion.text ≠ source → load (stream.tokens.map Token.spelling) <
        load (tree.stream.tokens.map Token.spelling)) := by
  have rewrites := rewrites h catalog
  obtain ⟨cs, spliced, -, reads, keeps⟩ :=
    (TokenStream.lexed_of_ofSource (ofSource_eq_ok h).1).exists_respelled_apart rewrites
      (separate.unsuffixed _) (isSealed h catalog) apart
  obtain ⟨stream, recut, spellings⟩ := TokenStream.exists_ofSource reads
  obtain ⟨conversion, converted, text⟩ := exists_convert_of_spliceFrom h spliced
  refine ⟨conversion, stream, converted, text ▸ recut, ?_, fun changed => ?_⟩
  · rw [text, String.toList_ofList]
    exact keeps ((separatesLiterals_iff h).1 separate)
  · rw [spellings, TokenStream.tokens, List.map_map]
    exact (load_respelled rewrites).2 (exists_edit_of_ne h converted changed)

end Changes

/-- Conversions of the source, of the result and so on never join a line end. -/
def NeverJoins (catalog : Catalog) (source : String) : Prop :=
  ∀ k text tree, convertTimes catalog k source = .ok text → ofSource text = .ok tree →
    ¬ (Plan.ofTree catalog tree.root).edits.JoinsLineEnd 0 tree.stream.lexemes text.toList

theorem NeverJoins.next {catalog : Catalog} {source : String}
    (h : NeverJoins catalog source) {conversion : Conversion}
    (converted : convert catalog source = .ok conversion) :
    NeverJoins catalog conversion.text := by
  intro k text tree times
  exact h (k + 1) text tree (by rw [convertTimes_succ converted, times])

/-- No conversion makes a carriage return. -/
theorem NeverJoins.of_notMem {catalog : Catalog} {source : String}
    (absent : '\r' ∉ source.toList) :
    NeverJoins catalog source := by
  intro k
  induction k generalizing source with
  | zero =>
    rintro text tree ⟨⟩ -
    exact Edits.not_joinsLineEnd_of_notMem absent _ _ _
  | succ k ih =>
    intro text tree times
    cases read : ofSource source with
    | error cause =>
      have failed : convert catalog source = .error (.parse cause) := by
        rw [convert, read]
      rw [convertTimes_of_error failed] at times
      cases times
    | ok first =>
      have lexed := TokenStream.lexed_of_ofSource (ofSource_eq_ok read).1
      obtain ⟨cs, spliced, fresh⟩ := lexed.exists_splice_subset (rewrites read catalog)
      obtain ⟨conversion, converted, own⟩ := exists_convert_of_spliceFrom read spliced
      rw [convertTimes_succ converted] at times
      refine ih (fun present => ?_) _ tree times
      rw [own, String.toList_ofList] at present
      rcases fresh _ present with old | new
      · exact absent old
      · exact absurd new (by decide)

/-- The load of a source that can be cut into tokens. -/
def loadOf (source : String) : Nat :=
  match TokenStream.ofSource source with
  | .error _ => 0
  | .ok stream => load (stream.tokens.map Token.spelling)

/-- Repeated conversions come to rest after no more steps than the source has
characters, and at once if it is no shader. Where no letter stands right behind
an integer literal and no line end is ever joined, the tokens and integer
literals of the source bound the steps. -/
theorem convert_comes_to_rest (catalog : Catalog) (source : String) :
    (∃ k ≤ source.length, RestsAfter catalog source k) ∧
      (∀ cause, ofSource source = .error cause → RestsAfter catalog source 0) ∧
      ∀ tree, ofSource source = .ok tree → tree.SeparatesLiterals →
        NeverJoins catalog source →
        ∃ k ≤ tree.stream.tokens.length + tree.stream.tokens.countP (·.kind = .intLiteral),
          RestsAfter catalog source k := by
  refine ⟨?_, fun cause failed => restsAfter_zero_of_error failed, ?_⟩
  · obtain ⟨k, few, rests⟩ := exists_restsAfter (fun _ => True)
      (fun source => Phase.outside.weight source.toList) (fun source tree _ read => by
        obtain ⟨conversion, converted, lighter⟩ := exists_convert_weight read catalog
        exact ⟨conversion, converted, fun changed => ⟨trivial, lighter changed⟩⟩) trivial
    refine ⟨k, few.trans ?_, rests⟩
    rw [← String.length_toList]
    exact Phase.weight_le_length .outside source.toList
  · intro tree read separate never
    obtain ⟨k, few, rests⟩ := exists_restsAfter
      (fun source => LiteralsApart source.toList ∧ NeverJoins catalog source) loadOf
      (fun source tree ⟨separate, never⟩ read => by
        obtain ⟨conversion, stream, converted, recut, separate', fewer⟩ :=
          exists_convert_load read catalog ((separatesLiterals_iff read).2 separate)
            (never 0 source tree rfl read)
        refine ⟨conversion, converted, fun changed => ⟨⟨separate', never.next converted⟩, ?_⟩⟩
        simp only [loadOf, recut, (ofSource_eq_ok read).1]
        exact fewer changed)
      ⟨(separatesLiterals_iff read).1 separate, never⟩
    refine ⟨k, few.trans ?_, rests⟩
    simp only [loadOf, (ofSource_eq_ok read).1, load, List.length_map, List.countP_map]
    exact le_rfl

theorem convert_comes_to_rest_comparison :
    ∃ k ≤ 12, RestsAfter Catalog.bundled "bool b = sqrt(4) > 1;" k := by
  have read : (ofSource "bool b = sqrt(4) > 1;").toOption.map (fun tree =>
      (decide tree.SeparatesLiterals,
        tree.stream.tokens.length + tree.stream.tokens.countP (·.kind = .intLiteral))) =
      some (true, 12) := by
    decide +kernel
  obtain ⟨tree, parsed, checked⟩ := exists_of_map_toOption read
  obtain ⟨separate, size⟩ := Prod.mk.inj checked
  rw [← size]
  exact (convert_comes_to_rest Catalog.bundled "bool b = sqrt(4) > 1;").2.2 tree parsed
    (of_decide_eq_true separate) (.of_notMem (by decide))

end SyntaxTree

/-! ### Comments that are opened one after the other -/

/-- The characters that a conversion makes of those of a text. -/
def convertedChars (catalog : Catalog) (cs : List Char) : Option (List Char) := do
  let lexemes ← (TokenStream.lexemesFrom (LineTable.ofText cs) 0 0 cs).toOption
  let root ← (SyntaxTree.ofTokens (lexemes.map Lexeme.toToken)).toOption
  ((Plan.ofTree catalog root).edits.spliceFrom 0 lexemes cs).toOption

theorem exists_ofSource_of_chars {cs : List Char} {lexemes : List Lexeme} {root : Tree}
    (cut : (TokenStream.lexemesFrom (LineTable.ofText cs) 0 0 cs).toOption = some lexemes)
    (read : (SyntaxTree.ofTokens (lexemes.map Lexeme.toToken)).toOption = some root) :
    ∃ tree, SyntaxTree.ofSource (String.ofList cs) = .ok tree ∧
      tree.stream.lexemes = lexemes ∧
      tree.root = root := by
  have stream : ∃ stream, TokenStream.ofSource (String.ofList cs) = .ok stream ∧
      stream.lexemes = lexemes := by
    simp [TokenStream.ofSource, eq_ok_of_toOption cut, bind, Except.bind, pure,
      Except.pure]
  obtain ⟨stream, recut, rfl⟩ := stream
  refine ⟨⟨stream, root⟩, ?_, rfl, rfl⟩
  simp only [SyntaxTree.ofSource, recut, bind, Except.bind, SyntaxTree.ofStream,
    TokenStream.tokens, eq_ok_of_toOption read]

theorem exists_convert_of_chars {catalog : Catalog} {cs cs' : List Char}
    (converted : convertedChars catalog cs = some cs') :
    ∃ conversion, convert catalog (String.ofList cs) = .ok conversion ∧
      conversion.text = String.ofList cs' := by
  simp only [convertedChars, Option.bind_eq_bind, Option.bind_eq_some_iff] at converted
  obtain ⟨lexemes, cut, root, read, spliced⟩ := converted
  obtain ⟨tree, parsed, rfl, rfl⟩ := exists_ofSource_of_chars cut read
  refine exists_convert_of_spliceFrom parsed ?_
  rw [String.toList_ofList]
  exact eq_ok_of_toOption spliced

/-- Whether each of the first conversions changes the text. -/
def keepsChanging (catalog : Catalog) : Nat → List Char → Bool
  | 0, _ => true
  | n + 1, cs =>
    match convertedChars catalog cs with
    | none => false
    | some cs' => cs' ≠ cs && keepsChanging catalog n cs'

theorem not_restsAfter_of_keepsChanging {catalog : Catalog} {n k : Nat} {cs : List Char}
    (changing : keepsChanging catalog n cs) (early : k < n) :
    ¬ RestsAfter catalog (String.ofList cs) k := by
  induction n generalizing k cs with
  | zero => cases early
  | succ n ih =>
    rw [keepsChanging] at changing
    cases converted : convertedChars catalog cs with
    | none => simp [converted] at changing
    | some cs' =>
      simp only [converted, Bool.and_eq_true, decide_eq_true_eq] at changing
      obtain ⟨conversion, succeeds, text⟩ := exists_convert_of_chars converted
      cases k with
      | zero =>
        rintro ⟨_, ⟨⟩, ⟨cause, failed⟩ | ⟨again, same, rests⟩⟩
        · cases succeeds.symm.trans failed
        · cases succeeds.symm.trans same
          rw [text] at rests
          exact changing.1 (by simpa using congrArg String.toList rests)
      | succ k =>
        rw [restsAfter_succ succeeds, text]
        exact ih changing.2 (by omega)

/-- Redeclared builtins one in the comment of the other: the deletion of the
first goes with the end of a directive, which then takes the start of the
comment. -/
def nestedComments : List Char :=
  (List.replicate 7 "float sin(float)#\\\r;\n/*\n".toList).flatten ++ "//*/".toList

/-- Six tokens without an integer literal change seven times. -/
theorem convert_late_rest :
    ∃ tree, SyntaxTree.ofSource (String.ofList nestedComments) = .ok tree ∧
    tree.SeparatesLiterals ∧
    ∀ k ≤ tree.stream.tokens.length + tree.stream.tokens.countP (·.kind = .intLiteral),
      ¬ RestsAfter Catalog.bundled (String.ofList nestedComments) k := by
  have changing : keepsChanging Catalog.bundled 7 nestedComments := by decide +kernel
  have read : ((TokenStream.lexemesFrom (LineTable.ofText nestedComments) 0 0
      nestedComments).toOption.bind fun lexemes =>
        (SyntaxTree.ofTokens (lexemes.map Lexeme.toToken)).toOption.map fun _ =>
        (decide (lexemes.IsChain fun lexeme next => lexeme.kind = .intLiteral →
            lexeme.stop = next.start → Stops Literal.isWordStart next.text.toList),
          (lexemes.map Lexeme.toToken).length +
            (lexemes.map Lexeme.toToken).countP (·.kind = .intLiteral))) =
              some (true, 6) := by
    decide +kernel
  obtain ⟨lexemes, cut, found⟩ := Option.bind_eq_some_iff.1 read
  obtain ⟨root, built, checked⟩ := Option.map_eq_some_iff.1 found
  obtain ⟨separate, size⟩ := Prod.mk.inj checked
  obtain ⟨tree, parsed, rfl, -⟩ := exists_ofSource_of_chars cut built
  refine ⟨tree, parsed, of_decide_eq_true separate, fun k early => ?_⟩
  exact not_restsAfter_of_keepsChanging changing (Nat.lt_succ_of_le (early.trans size.le))

end ShaderDialect
