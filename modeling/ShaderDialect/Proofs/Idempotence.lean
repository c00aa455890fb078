import ShaderDialect.Proofs.Readback
import ShaderDialect.Proofs.Unsettled

/-!
# Converting twice

A converted shader is a shader again: where nothing is deleted, it is read into
the same tree, with floating literals in the place of the promoted ones. A second
conversion changes it only where a promoted literal makes an assignment
expression demand floating operands that it did not demand before.
-/

namespace ShaderDialect

namespace Edits

/-- A token as it is read from a converted text in which nothing is deleted. -/
def respell (edits : Edits) (token : Token) : Token :=
  match token.kind, edits.get? token.index with
  | .intLiteral, some text => { token with kind := .floatLiteral, text }
  | _, _ => token

theorem respell_of_none {edits : Edits} {token : Token}
    (h : edits.get? token.index = none) :
    edits.respell token = token := by
  unfold respell
  split <;> simp_all

theorem respell_of_some {edits : Edits} {token : Token} {text : String}
    (isInt : token.kind = .intLiteral) (h : edits.get? token.index = some text) :
    edits.respell token = { token with kind := .floatLiteral, text } := by
  simp only [respell, isInt, h]

theorem index_respell (edits : Edits) (token : Token) :
    (edits.respell token).index = token.index := by
  unfold respell
  split <;> rfl

/-- All new spellings are those of promoted literals. -/
def Promotes (edits : Edits) (lexemes : List Lexeme) : Prop :=
  ∀ lexeme ∈ lexemes, ∀ text, edits.get? lexeme.index = some text →
    lexeme.kind = .intLiteral ∧ (∀ c ∈ lexeme.text.toList, Literal.isDigit c) ∧
      text = lexeme.text ++ ".0"

namespace Promotes

variable {edits : Edits} {lexemes : List Lexeme} (h : edits.Promotes lexemes)
include h

theorem rewrites : edits.Rewrites lexemes :=
  fun lexeme member text planned => Or.inr (h lexeme member text planned)

theorem ne_deleted {lexeme : Lexeme} (member : lexeme ∈ lexemes) :
    edits.get? lexeme.index ≠ some "" := by
  intro deleted
  obtain ⟨-, -, spelling⟩ := h lexeme member "" deleted
  have size := congrArg String.length spelling
  rw [String.length_append] at size
  exact absurd size (Nat.ne_of_lt (Nat.lt_of_lt_of_le (by decide) (Nat.le_add_left _ _)))

theorem isSealed : edits.Sealed lexemes := by
  refine List.isChain_iff_forall_rel_of_append_cons_cons.2
    fun lexeme next before after shape _ deleted => ?_
  exact absurd deleted (h.ne_deleted (shape ▸ by simp))

theorem not_joinsLineEnd (offset : Nat) (cs : List Char) :
    ¬ edits.JoinsLineEnd offset lexemes cs := by
  rintro ⟨_, run, _, nonempty, inside, deletes, -⟩
  cases deletes with
  | nil => exact nonempty rfl
  | cons deleted _ _ => exact h.ne_deleted (inside.subset List.mem_cons_self) deleted

theorem spelling?_eq {lexeme : Lexeme} (member : lexeme ∈ lexemes) :
    edits.spelling? lexeme.toToken = some (edits.respell lexeme.toToken).spelling := by
  cases planned : edits.get? lexeme.index with
  | none =>
    rw [respell_of_none planned, spelling?, planned]
  | some text =>
    obtain ⟨isInt, -, rfl⟩ := h lexeme member text planned
    have kept := h.ne_deleted member
    rw [planned] at kept
    rw [respell_of_some isInt planned, spelling?, planned]
    exact if_neg fun empty => kept (congrArg some empty)

theorem filterMap_spelling? : (lexemes.map Lexeme.toToken).filterMap edits.spelling? =
    ((lexemes.map Lexeme.toToken).map edits.respell).map Token.spelling := by
  rw [List.filterMap_map, List.map_map, List.map_map, ← List.filterMap_eq_map]
  exact List.filterMap_congr fun lexeme member => h.spelling?_eq member

end Promotes

end Edits

/-- Promotions make a text longer, unless there are none. -/
theorem Lexed.exists_splice_eq_iff {edits : Edits} {index offset : Nat} {cs : List Char}
    {lexemes : List Lexeme} (h : Lexed [] index offset cs lexemes)
    (promotes : edits.Promotes lexemes) :
    ∃ cs', edits.spliceFrom offset lexemes cs = .ok cs' ∧ cs.length ≤ cs'.length ∧
      (cs' = cs ↔ ∀ lexeme ∈ lexemes, edits.get? lexeme.index = none) := by
  induction h with
  | @finish index offset cs hidden => exact ⟨cs, rfl, le_rfl, by simp⟩
  | @lexeme index offset cs read rest kind lexemes position scanned others ih =>
    obtain ⟨rest', spliced, longer, same⟩ :=
      ih fun lexeme member => promotes lexeme (List.mem_cons_of_mem _ member)
    have text : cs = (Hidden.skip cs).1 ++ (read ++ rest) := by
      rw [(Token.scan?_append scanned).1, Hidden.skip_append]
    refine ⟨_, spliceFrom_cons edits scanned spliced, ?_⟩
    rw [List.forall_mem_cons, ← same]
    generalize (Hidden.skip cs).1 = gap at text ⊢
    subst text
    cases planned : edits.get? index with
    | none => simpa using longer
    | some spelling =>
      obtain ⟨-, -, rfl⟩ := promotes _ List.mem_cons_self spelling planned
      have grows : (gap ++ (read ++ rest)).length < (gap ++
          (((some (String.ofList read ++ ".0")).map String.toList).getD read ++ rest')).length := by
        simp
        omega
      refine ⟨grows.le, ?_⟩
      simp only [reduceCtorEq, false_and, iff_false]
      exact fun equal => absurd (congrArg List.length equal) grows.ne'

theorem Edits.respelling (edits : Edits) : Respelling edits.respell := by
  constructor
  · intro token notLiteral
    unfold Edits.respell
    split
    · rename_i isInt _
      rw [isInt] at notLiteral
      cases notLiteral
    · rfl
  · intro token isLiteral
    unfold Edits.respell
    split
    · rfl
    · exact isLiteral

namespace SyntaxTree

open Plan Inference

/-! ### The shader after its promotions -/

section Promotions

variable {source : String} {tree : SyntaxTree} (h : ofSource source = .ok tree)
include h

theorem isSound_root : tree.root.IsSound := by
  obtain ⟨grammatical, -, leaves, -⟩ := ofSource_spec h
  refine ⟨grammatical, fun token member isName => ?_⟩
  obtain ⟨cs, read, rest, scanned, spelling⟩ :=
    exists_scan_of_mem (ofSource_eq_ok h).1 (leaves ▸ member)
  rw [spelling]
  exact isWord_of_scan? (isName ▸ scanned)

theorem isDigits_of_isDecimal {token : Token} (member : token ∈ tree.stream.tokens)
    (isDecimal : token.IsDecimal) : isDigits token.text.toList := by
  have nonempty : token.text.toList ≠ [] := by
    rcases isDecimal.2 with zero | ⟨c, cs, shape, -⟩
    · simp [zero]
    · simp [shape]
  simpa [isDigits, List.all_eq_true, nonempty] using digits_of_isDecimal h member isDecimal

theorem isSome_promoted?_iff {token : Token} (member : token ∈ tree.stream.tokens) :
    (promoted? token).isSome ↔ token.IsDecimal := by
  obtain ⟨cs, read, rest, scanned, spelling⟩ :=
    exists_scan_of_mem (ofSource_eq_ok h).1 member
  simp [Option.isSome_iff_exists, promoted?_eq_some_iff scanned spelling]

variable {catalog : Catalog} (kept : ∀ id, ¬ tree.Redeclares catalog id)
include kept

/-- Where nothing is deleted, all edits promote decimal literals. -/
theorem isDecimal_of_edit {token : Token} (member : token ∈ tree.stream.tokens)
    {text : String}
    (planned : (Plan.ofTree catalog tree.root).edits.get? token.index = some text) :
    token.IsDecimal ∧ text = token.text ++ ".0" := by
  rcases (edits_get?_iff h catalog token.index text).1 planned with deleted | promoted
  · obtain ⟨⟨outer, -, redeclares, -⟩, -⟩ := (deleted_iff h catalog).1 deleted
    exact absurd redeclares (kept outer)
  · obtain ⟨literal, listed, same, isDecimal, spelling, -⟩ :=
      (promoted_iff h catalog).1 promoted
    obtain rfl := eq_of_index h listed member same
    exact ⟨isDecimal, spelling.symm⟩

theorem promotes :
    (Plan.ofTree catalog tree.root).edits.Promotes tree.stream.lexemes := by
  intro lexeme listed text planned
  refine (rewrites h catalog lexeme listed text planned).resolve_left ?_
  rintro rfl
  obtain ⟨outer, -, redeclares, -⟩ := (get?_eq_deleted_iff h catalog).1 planned
  exact kept outer redeclares

theorem isPromoted_of_edit {token : Token} (member : token ∈ tree.stream.tokens)
    (planned : ((Plan.ofTree catalog tree.root).edits.get? token.index).isSome) :
    IsPromoted token ((Plan.ofTree catalog tree.root).edits.respell token) := by
  obtain ⟨text, planned⟩ := Option.isSome_iff_exists.1 planned
  obtain ⟨isDecimal, rfl⟩ := isDecimal_of_edit h kept member planned
  rw [Edits.respell_of_some isDecimal.1 planned]
  exact ⟨isDecimal.1, isDigits_of_isDecimal h member isDecimal, rfl, rfl⟩

theorem respell_ne_iff {token : Token} (member : token ∈ tree.stream.tokens) :
    (Plan.ofTree catalog tree.root).edits.respell token ≠ token ↔
      ((Plan.ofTree catalog tree.root).edits.get? token.index).isSome := by
  constructor
  · intro changed
    by_contra unplanned
    exact changed (Edits.respell_of_none (Option.not_isSome_iff_eq_none.1 unplanned))
  · intro planned same
    have becomes := isPromoted_of_edit h kept member planned
    have kind := becomes.kind
    rw [same, becomes.isInt] at kind
    cases kind

/-- The walk comes to no node that redeclares a builtin. -/
theorem redeclares_of_reaches {v : Visit}
    (reached : (Visit.ofTree catalog tree.root).Reaches v) :
    v.tree.redeclares v.state.scope.catalog = false := by
  obtain ⟨⟨fits, grammatical, consecutive⟩, -⟩ :=
    reached.within ⟨trivial, (ofSource_spec h).1, consecutive_leaves h⟩
  refine Bool.eq_false_iff.2 fun redeclares => ?_
  cases shape : v.tree with
  | leaf token => simp [shape, Tree.redeclares, Tree.hasKind, Tree.kind?] at redeclares
  | node kind children =>
    rw [shape] at fits grammatical consecutive redeclares
    have inside : kind ≠ .unit := by
      rintro rfl
      simp [Tree.redeclares, Tree.hasKind, Tree.kind?] at redeclares
    obtain ⟨token, member⟩ := List.exists_mem_of_ne_nil _
      (grammatical.leaves_ne_nil (by simpa [Tree.kind?] using inside))
    -- The deletion of the node would give this token the empty spelling.
    rcases writes_node_cases v.state fits grammatical with ⟨-, context, log⟩ | ⟨keeps, -⟩
    · have spells : .spell token.index "" ∈ v.writes := by
        rw [Visit.writes, shape, log, deletions_eq consecutive]
        exact List.mem_append_left _ (List.mem_map_of_mem member)
      have planned :=
        (edits_get?_of_reaches h catalog reached (shape ▸ member) "").2 spells
      obtain ⟨outer, -, redeclared, -⟩ := (get?_eq_deleted_iff h catalog).1 planned
      exact kept outer redeclared
    · rw [redeclares] at keeps
      cases keeps

/-- The promotions of a walk, and what they make of the tokens. -/
theorem rewriting (plain : catalog.IsPlain) :
    Rewriting catalog tree.root (Plan.ofTree catalog tree.root).edits.respell := by
  obtain ⟨grammatical, -, leaves, -⟩ := ofSource_spec h
  have wellFormed : (Visit.ofTree catalog tree.root).WellFormed :=
    ⟨trivial, grammatical, consecutive_leaves h⟩
  refine ⟨plain, isSound_root h, consecutive_leaves h, ?_, ?_, ?_, ?_⟩
  · exact Edits.respelling _
  · intro token member
    by_cases planned : ((Plan.ofTree catalog tree.root).edits.get? token.index).isSome
    · exact Or.inr (isPromoted_of_edit h kept (leaves ▸ member) planned)
    · exact Or.inl (Edits.respell_of_none (Option.not_isSome_iff_eq_none.1 planned))
  · intro v reached token member
    have listed : token ∈ tree.stream.tokens :=
      leaves ▸ (reached.within wellFormed).2.leaves_subset member
    rw [respell_ne_iff h kept listed, mem_spelled, Option.isSome_iff_exists]
    exact exists_congr fun text =>
      (edits_get?_of_reaches h catalog reached member text).symm
  · exact fun v reached => redeclares_of_reaches h kept reached

/-- The converted shader is read into the same tree with other tokens. -/
theorem exists_reread
    (unsuffixed : (Plan.ofTree catalog tree.root).edits.Unsuffixed tree.stream.lexemes) :
    ∃ text tree',
      (Plan.ofTree catalog tree.root).edits.splice tree.stream source = .ok text ∧
      ofSource text = .ok tree' ∧
      tree'.root = tree.root.respell (Plan.ofTree catalog tree.root).edits.respell := by
  obtain ⟨cut, read⟩ := ofSource_eq_ok h
  have promotes := promotes h kept
  obtain ⟨cs, spliced, -, reads⟩ := (TokenStream.lexed_of_ofSource cut).exists_respelled
    promotes.rewrites unsuffixed promotes.isSealed (promotes.not_joinsLineEnd _ _)
  obtain ⟨stream, recut, spellings⟩ := TokenStream.exists_ofSource reads
  have reread :=
    ofTokens_respell (Edits.respelling (Plan.ofTree catalog tree.root).edits) read
  have tokens : stream.tokens =
      tree.stream.tokens.map (Plan.ofTree catalog tree.root).edits.respell := by
    refine (counted_tokens recut).eq_of_spellings ?_ (spellings.trans promotes.filterMap_spelling?)
    rw [Token.Counted, List.map_map, List.length_map, ← counted_tokens cut]
    exact List.map_congr_left fun token _ => Edits.index_respell _ token
  refine ⟨String.ofList cs, ⟨stream, _⟩, by simp [Edits.splice, spliced, Except.map], ?_, rfl⟩
  simp [ofSource, recut, bind, Except.bind, ofStream, tokens, reread]

/-- A shader in which nothing is redeclared is converted, and comes out as it is
if no literal of it is promoted. -/
theorem exists_convert : ∃ conversion, convert catalog source = .ok conversion ∧
    (Plan.ofTree catalog tree.root).edits.splice tree.stream source =
      .ok conversion.text ∧
    (conversion.text = source ↔ ∀ token ∈ tree.root.leaves,
      (Plan.ofTree catalog tree.root).edits.get? token.index = none) := by
  obtain ⟨cs, spliced, -, same⟩ :=
    (TokenStream.lexed_of_ofSource (ofSource_eq_ok h).1).exists_splice_eq_iff (promotes h kept)
  have text : (Plan.ofTree catalog tree.root).edits.splice tree.stream source =
      .ok (String.ofList cs) := by
    simp [Edits.splice, spliced, Except.map]
  refine ⟨_, convert_eq_ok h text, text, ?_⟩
  rw [(ofSource_spec h).2.2.1, TokenStream.tokens, List.forall_mem_map]
  exact Iff.trans ⟨fun equal => by simp [← equal], fun equal => by simp [equal]⟩ same

end Promotions

/-- Respelling literals makes no function a builtin. -/
theorem not_redeclares_respell {f : Token → Token} (respelling : Respelling f)
    {catalog : Catalog} (plain : catalog.IsPlain) {tree tree' : SyntaxTree}
    (sound : tree.root.IsSound) (kept : ∀ id, ¬ tree.Redeclares catalog id)
    (root : tree'.root = tree.root.respell f) (id : Nat) :
    ¬ tree'.Redeclares catalog id := by
  rintro ⟨node', found, redeclares⟩
  rw [root, Tree.postorder_respell, List.getElem?_map, Option.map_eq_some_iff] at found
  obtain ⟨node, found, rfl⟩ := found
  have nodeSound :=
    Tree.inherit_postorder (fun _ _ sound _ member => Tree.IsSound.child sound member)
      sound node (List.mem_of_getElem? found)
  have keeps : node.redeclares catalog = false :=
    Bool.eq_false_iff.2 fun own => kept id ⟨node, found, Tree.redeclares_iff.1 own⟩
  rw [← Tree.redeclares_iff, redeclares_respell respelling plain nodeSound keeps] at redeclares
  cases redeclares

/-! ### The second conversion -/

/-- No literal is left behind: where an assignment expression shows a literal
with a new spelling, every decimal literal that takes its context has one. -/
def Settled (tree : SyntaxTree) (edits : Edits) : Prop :=
  ∀ node ∈ tree.root.postorder, node.hasKind .assignmentExpression → ∀ shown literal,
    Shows node shown → (edits.get? shown.index).isSome → Hands node literal →
    literal.IsDecimal →
      (edits.get? literal.index).isSome

section Again

variable {source : String} {tree : SyntaxTree} (h : ofSource source = .ok tree)
    {catalog : Catalog}
  (kept : ∀ id, ¬ tree.Redeclares catalog id)
include h kept

theorem settles_of_settled
    (settled : tree.Settled (Plan.ofTree catalog tree.root).edits) {node : Tree}
    (member : node ∈ tree.root.postorder)
    (isAssignment : node.hasKind .assignmentExpression) :
    Settles (Plan.ofTree catalog tree.root).edits.respell node := by
  have leaves : node.leaves ⊆ tree.stream.tokens := by
    rw [← (ofSource_spec h).2.2.1]
    exact Tree.leaves_subset_of_mem_postorder member
  intro shown shows changed literal handed promoted
  have listed := leaves handed.mem_leaves
  rw [respell_ne_iff h kept (leaves shows.mem_leaves)] at changed
  rw [isSome_promoted?_iff h listed] at promoted
  rw [respell_ne_iff h kept listed]
  exact settled node member isAssignment shown literal shows changed handed promoted

variable (plain : catalog.IsPlain) {text : String} {tree' : SyntaxTree}
    (h' : ofSource text = .ok tree')
  (root : tree'.root = tree.root.respell (Plan.ofTree catalog tree.root).edits.respell)
include plain h' root

/-- If the shader is settled, no literal is promoted in the second walk. -/
theorem edits_eq_none_of_settled
    (settled : tree.Settled (Plan.ofTree catalog tree.root).edits)
    (token : Nat) : (Plan.ofTree catalog tree'.root).edits.get? token = none := by
  have walks := rewriting h kept plain
  obtain ⟨nothing, -⟩ := walks.visit_alike
    (fun v reached isAssignment => settles_of_settled h kept settled
      (reached.postorder_subset (Tree.mem_postorder_self isAssignment)) isAssignment)
    tree.root (.part false) (.part false) (start catalog) (start catalog)
    .refl (.part (by simp)) (Scope.Alike.initial plain)
  rw [← root] at nothing
  rw [Option.eq_none_iff_forall_not_mem]
  intro spelling planned
  have spells := mem_spelled.2 ⟨spelling, (edits_get? h' catalog).1 planned⟩
  rw [log_eq_writes, nothing] at spells
  cases spells

/-- The second walk comes to every node, with its new tokens. -/
theorem exists_reaches_respell {node : Tree} (member : node ∈ tree.root.postorder) :
    ∃ v, (Visit.ofTree catalog tree'.root).Reaches v ∧ v.WellFormed ∧
      v.tree = node.respell (Plan.ofTree catalog tree.root).edits.respell := by
  have kept' :=
    not_redeclares_respell (Edits.respelling _) plain (rewriting h kept plain).sound kept root
  have wellFormed : (Visit.ofTree catalog tree'.root).WellFormed :=
    ⟨trivial, (ofSource_spec h').1, consecutive_leaves h'⟩
  refine Tree.inherit_postorder (P := fun node => ∃ v, (Visit.ofTree catalog tree'.root).Reaches v ∧
    v.WellFormed ∧ v.tree = node.respell _) ?_ ⟨_, .refl, wellFormed, root⟩ node member
  rintro kind children ⟨v, reached, sound, same⟩ child listed
  rw [Tree.respell_node] at same
  obtain ⟨w, step, same⟩ :=
    Visit.exists_step sound same (redeclares_of_reaches h' kept' reached) _
      (List.mem_map_of_mem listed)
  exact ⟨w, reached.tail step, (step.within sound).1, same⟩

/-- If a literal was left behind, it is promoted in the second walk. -/
theorem exists_edit_of_not_settled
    (unsettled : ¬ tree.Settled (Plan.ofTree catalog tree.root).edits) :
    ∃ token ∈ tree'.root.leaves,
      (Plan.ofTree catalog tree'.root).edits.get? token.index ≠ none := by
  simp only [Settled, not_forall] at unsettled
  obtain ⟨node, member, isAssignment, shown, literal, shows, planned, handed, isDecimal,
      unplanned⟩ :=
    unsettled
  have leaves : node.leaves ⊆ tree.stream.tokens := by
    rw [← (ofSource_spec h).2.2.1]
    exact Tree.leaves_subset_of_mem_postorder member
  obtain ⟨v, reached, sound, same⟩ := exists_reaches_respell h kept plain h' root member
  have becomes := isPromoted_of_edit h kept (leaves shows.mem_leaves) planned
  have shows' := shows.respell (Plan.ofTree catalog tree.root).edits.respell
  have handed' := handed.respell (Plan.ofTree catalog tree.root).edits.respell
  rw [Edits.respell_of_none (Option.not_isSome_iff_eq_none.1 unplanned)] at handed'
  rw [← Tree.hasKind_respell (Plan.ofTree catalog tree.root).edits.respell] at isAssignment
  rw [← same] at shows' handed' isAssignment
  obtain ⟨w, further, listed, spells⟩ :=
    exists_spell_of_shows reached sound.fits isAssignment shows'
      becomes.kind handed' (promoted?_of_isDecimal isDecimal)
  have edited := (edits_get?_of_reaches h' catalog further listed _).2 spells
  have inside :=
    (further.within ⟨trivial, (ofSource_spec h').1, consecutive_leaves h'⟩).2.leaves_subset listed
  exact ⟨literal, inside, by simp [edited]⟩

end Again

end SyntaxTree

theorem Catalog.isPlain_bundled : Catalog.bundled.IsPlain := by
  decide +kernel

namespace SyntaxTree

/-- Converting a converted shader succeeds, and changes it unless the first
conversion left no literal behind. -/
theorem convert_again {source : String} {tree : SyntaxTree}
    (read : ofSource source = .ok tree)
    (kept : ∀ id, ¬ tree.Redeclares Catalog.bundled id)
    (unsuffixed :
      (Plan.ofTree Catalog.bundled tree.root).edits.Unsuffixed tree.stream.lexemes) :
    ∃ conversion again, convert Catalog.bundled source = .ok conversion ∧
      convert Catalog.bundled conversion.text = .ok again ∧
      (again.text = conversion.text ↔
        tree.Settled (Plan.ofTree Catalog.bundled tree.root).edits) := by
  have plain := Catalog.isPlain_bundled
  obtain ⟨conversion, converted, spliced, -⟩ := exists_convert read kept
  obtain ⟨text, tree', spliced', reread, root⟩ := exists_reread read kept unsuffixed
  obtain rfl : conversion.text = text := Except.ok.inj (spliced.symm.trans spliced')
  have kept' :=
    not_redeclares_respell (Edits.respelling _) plain (rewriting read kept plain).sound
      kept root
  obtain ⟨again, convertedAgain, -, same⟩ := exists_convert reread kept'
  refine ⟨conversion, again, converted, convertedAgain, same.trans ⟨fun unedited => ?_, ?_⟩⟩
  · by_contra unsettled
    obtain ⟨token, member, edited⟩ :=
      exists_edit_of_not_settled read kept plain reread root unsettled
    exact edited (unedited token member)
  · exact fun settled token _ =>
      edits_eq_none_of_settled read kept plain reread root settled token.index

theorem convert_again_sum : ∃ tree, ofSource "float f = sin(1) + 2;" = .ok tree ∧
    tree.Settled (Plan.ofTree Catalog.bundled tree.root).edits := by
  have read : (ofSource "float f = sin(1) + 2;").toOption.map (fun tree =>
      tree.root.postorder.all (fun node => !node.redeclares Catalog.bundled) &&
        decide ((Plan.ofTree Catalog.bundled tree.root).edits.Unsuffixed tree.stream.lexemes)) =
      some true := by
    decide +kernel
  have twice : (convertRepeatedly Catalog.bundled 2 "float f = sin(1) + 2;").map
      (fun result => result.toOption.map Conversion.text) =
      [some "float f = sin(1.0) + 2.0;", some "float f = sin(1.0) + 2.0;"] := by
    decide +kernel
  obtain ⟨tree, parsed, checked⟩ := exists_of_map_toOption read
  rw [Bool.and_eq_true, List.all_eq_true, decide_eq_true_eq] at checked
  obtain ⟨redeclaresNone, unsuffixed⟩ := checked
  have kept : ∀ id, ¬ tree.Redeclares Catalog.bundled id := by
    rintro id ⟨node, found, redeclares⟩
    have keeps := redeclaresNone node (List.mem_of_getElem? found)
    rw [Tree.redeclares_iff.2 redeclares] at keeps
    cases keeps
  obtain ⟨conversion, again, converted, reconverted, settled⟩ :=
    convert_again parsed kept unsuffixed
  refine ⟨tree, parsed, settled.1 ?_⟩
  simp only [convertRepeatedly, converted, reconverted, List.map_cons, Except.toOption,
    Option.map_some, List.cons.injEq, Option.some.injEq] at twice
  rw [twice.1, twice.2.1]

end SyntaxTree

/-- The promotion of an argument shows that of the comparison only when it is
read again. -/
theorem convert_twice_comparison :
    (convertRepeatedly Catalog.bundled 2 "void main() { bool b = sqrt(4) > 1; }").map
      (fun result => result.toOption.map Conversion.text) =
      [some "void main() { bool b = sqrt(4.0) > 1; }",
        some "void main() { bool b = sqrt(4.0) > 1.0; }"] := by
  decide +kernel

end ShaderDialect
