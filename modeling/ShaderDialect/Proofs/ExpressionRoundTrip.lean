import ShaderDialect.Proofs.CanonicalTree
import ShaderDialect.Proofs.Grammatical

/-!
# Canonical expressions are read back

The tokens of a canonical expression are read as that expression, and reading
stops behind them, if the next token cannot go on with an expression. There is
one rule for each combinator; the left spines of operands and operators are
followed through the rounds of `extend`, and the depth of nesting is bounded by
the number of tokens.
-/

namespace ShaderDialect.Grammar

open Expression (isLiteral isOneOf)

/-- The state before the given tokens, where the given names are types. -/
def State.ofTokens (names : List String) (tokens : List Token) : State :=
  { start tokens with typeNames := names }

@[simp]
theorem State.rest_ofTokens (names : List String) (tokens : List Token) :
    (ofTokens names tokens).rest = tokens := rfl

@[simp]
theorem State.typeNames_ofTokens (names : List String) (tokens : List Token) :
    (ofTokens names tokens).typeNames = names := rfl

@[simp]
theorem State.left_ofTokens (names : List String) (tokens : List Token) :
    (ofTokens names tokens).left = tokens.length := rfl

theorem State.next?_ofTokens (names : List String) (token : Token) (tokens : List Token) :
    (ofTokens names (token :: tokens)).next? = some (token, ofTokens names tokens) := rfl

theorem State.seesSecond_ofTokens (names : List String) (token : Token)
    (tokens : List Token) (text : String) :
    (ofTokens names (token :: tokens)).seesSecond text =
      tokens.head?.any (·.is text) := by
  cases tokens <;> rfl

theorem State.sees_ofTokens {token : Token} {text : String} (h : token.is text)
    (names : List String) (tokens : List Token) (other : String) :
    (ofTokens names (token :: tokens)).sees other = decide (text = other) := by
  by_cases same : text = other
  · subst same
    simpa [sees] using h
  · simpa [sees, same] using is_eq_false_of_ne h same

theorem Avoids.sees {marks : List String} {tokens : List Token} (h : Avoids marks tokens)
    {text : String} (listed : text ∈ marks) (names : List String) :
    (State.ofTokens names tokens).sees text = false :=
  h text listed

theorem Avoids.seesAny {marks texts : List String} {tokens : List Token}
    (h : Avoids marks tokens) (listed : texts ⊆ marks) (names : List String) :
    (State.ofTokens names tokens).seesAny texts = false :=
  List.any_eq_false.2 fun text member => Bool.eq_false_iff.1 (h text (listed member))

/-- A production reads trees from their tokens, and stops in front of what may
follow. -/
def ReadsBack (names : List String) (p : Production) (trees : List Tree)
    (follow : List Token → Prop) : Prop :=
  ∀ rest, follow rest →
    p (.ofTokens names (Tree.leavesAll trees ++ rest)) = .ok (trees, .ofTokens names rest)

/-- The rounds of a repetition read trees from their tokens. There are enough of
them if there is one for each token. -/
def RepeatsBack (names : List String) (condition : State → Bool) (p : Production)
    (trees : List Tree) (follow : List Token → Prop) : Prop :=
  ∀ rest n, follow rest → (Tree.leavesAll trees).length ≤ n →
    rounds condition p n (.ofTokens names (Tree.leavesAll trees ++ rest)) =
      .ok (trees, .ofTokens names rest)

/-- Behind the tokens of some trees a production is about to put nodes around
them, and there are enough rounds left for the tokens that follow. -/
def ExtendsBack (names : List String) (p : Production)
    (next : State → Option (NodeKind × Production)) (trees : List Tree)
    (follow : List Token → Prop) : Prop :=
  ∀ rest, follow rest → ∃ n, rest.length ≤ n ∧
    p (.ofTokens names (Tree.leavesAll trees ++ rest)) =
      extensions next n trees (.ofTokens names rest)

/-! ### Rules -/

section Rules

variable {names : List String} {follow between : List Token → Prop} {p : Production}
  {trees : List Tree}

theorem ReadsBack.mono (h : ReadsBack names p trees between)
    (widen : ∀ rest, follow rest → between rest) : ReadsBack names p trees follow :=
  fun rest next => h rest (widen rest next)

theorem ReadsBack.congr {q : Production} (h : ReadsBack names p trees follow)
    (same : ∀ rest, follow rest → q (.ofTokens names (Tree.leavesAll trees ++ rest)) =
      p (.ofTokens names (Tree.leavesAll trees ++ rest))) :
    ReadsBack names q trees follow :=
  fun rest next => (same rest next).trans (h rest next)

/-- Where looking ahead selects a production, it is enough to read with that one. -/
theorem ReadsBack.of_look {choose : State → Production}
    (h : ReadsBack names p trees follow)
    (chosen : ∀ rest, follow rest → choose (.ofTokens names (Tree.leavesAll trees ++ rest)) = p) :
    ReadsBack names (look choose) trees follow :=
  h.congr fun rest next => congrFun (chosen rest next) _

theorem readsBack_skip {condition : State → Bool}
    (stops : ∀ rest, follow rest → condition (.ofTokens names rest) = false) :
    ReadsBack names (optional condition p) [] follow := by
  have nothing : ReadsBack names empty [] follow := fun _ _ => rfl
  refine nothing.of_look fun rest next => if_neg ?_
  exact Bool.eq_false_iff.1 (stops rest next)

theorem ReadsBack.optional {condition : State → Bool} (h : ReadsBack names p trees follow)
    (goes : ∀ more, condition (.ofTokens names (Tree.leavesAll trees ++ more))) :
    ReadsBack names (optional condition p) trees follow :=
  h.of_look fun rest _ => if_pos (goes rest)

theorem readsBack_take {expected : Expectation} {f : Token → Bool} {token : Token}
    (holds : f token) : ReadsBack names (take expected f) [.leaf token] follow := by
  intro rest _
  change take expected f (.ofTokens names (token :: rest)) = _
  simp only [take, State.next?_ofTokens, holds, if_true]

theorem readsBack_mark {text : String} {token : Token} (is : token.is text) :
    ReadsBack names (mark text) [.leaf token] follow :=
  readsBack_take is

theorem readsBack_identifier {token : Token} (isName : token.kind = .identifier) :
    ReadsBack names identifier [.leaf token] follow :=
  readsBack_take (by simpa using isName)

theorem readsBack_nil : ReadsBack names (seq []) [] follow :=
  fun _ _ => rfl

theorem readsBack_cons {ps : List Production} {others : List Tree}
    (first : ReadsBack names p trees between)
    (behind : ReadsBack names (seq ps) others follow)
    (meet : ∀ rest, follow rest → between (Tree.leavesAll others ++ rest)) :
    ReadsBack names (seq (p :: ps)) (trees ++ others) follow := by
  intro rest next
  rw [Tree.leavesAll_append, List.append_assoc]
  exact bind_eq_ok.2 ⟨_, _, first _ (meet rest next), bind_eq_ok.2 ⟨_, _, behind rest next, rfl⟩⟩

theorem readsBack_last (h : ReadsBack names p trees follow) :
    ReadsBack names (seq [p]) trees follow := by
  have whole := readsBack_cons h readsBack_nil fun _ next => next
  rwa [List.append_nil] at whole

/-- A token, and then the rest of a sequence. -/
theorem readsBack_take_cons {expected : Expectation} {f : Token → Bool} {token : Token}
    {ps : List Production} {others : List Tree} (holds : f token)
    (behind : ReadsBack names (seq ps) others follow) :
    ReadsBack names (seq (take expected f :: ps)) (.leaf token :: others) follow := by
  have first : ReadsBack names (take expected f) [.leaf token] fun _ => True :=
    readsBack_take holds
  exact readsBack_cons first behind fun _ _ => trivial

theorem readsBack_mark_cons {text : String} {token : Token} {ps : List Production}
    {others : List Tree} (is : token.is text)
    (behind : ReadsBack names (seq ps) others follow) :
    ReadsBack names (seq (mark text :: ps)) (.leaf token :: others) follow :=
  readsBack_take_cons is behind

theorem ReadsBack.wrap (h : ReadsBack names p trees follow) (kind : NodeKind)
    (before : List Tree) {rest : List Token} (next : follow rest) :
    wrap kind before p (.ofTokens names (Tree.leavesAll trees ++ rest)) =
      .ok ([.node kind (before ++ trees)], .ofTokens names rest) :=
  bind_eq_ok.2 ⟨_, _, h rest next, rfl⟩

theorem ReadsBack.node (h : ReadsBack names p trees follow) (kind : NodeKind) :
    ReadsBack names (node kind p) [.node kind trees] follow := by
  intro rest next
  rw [Tree.leavesAll_cons, Tree.leaves_node, Tree.leavesAll_nil, List.append_nil]
  exact h.wrap kind [] next

theorem repeatsBack_nil {condition : State → Bool}
    (stops : ∀ rest, follow rest → condition (.ofTokens names rest) = false) :
    RepeatsBack names condition p [] follow := by
  intro rest n next _
  cases n with
  | zero => rfl
  | succ n =>
    change (if condition (.ofTokens names rest) then _ else empty : Production) _ = _
    rw [stops rest next]
    rfl

theorem repeatsBack_cons {condition : State → Bool} {others : List Tree}
    (nonempty : Tree.leavesAll trees ≠ [])
    (goes : ∀ more, condition (.ofTokens names (Tree.leavesAll trees ++ more)))
    (first : ReadsBack names p trees between)
    (behind : RepeatsBack names condition p others follow)
    (meet : ∀ rest, follow rest → between (Tree.leavesAll others ++ rest)) :
    RepeatsBack names condition p (trees ++ others) follow := by
  intro rest n next enough
  rw [Tree.leavesAll_append, List.length_append] at enough
  have positive := List.length_pos_iff.2 nonempty
  obtain ⟨n, rfl⟩ : ∃ m, n = m + 1 := Nat.exists_eq_succ_of_ne_zero (by omega)
  rw [Tree.leavesAll_append, List.append_assoc]
  change (if condition (.ofTokens names _) then _ else empty : Production) _ = _
  rw [goes, if_pos rfl]
  exact bind_eq_ok.2 ⟨_, _, first _ (meet rest next),
    bind_eq_ok.2 ⟨_, _, behind rest n next (by omega), rfl⟩⟩

theorem RepeatsBack.many {condition : State → Bool}
    (h : RepeatsBack names condition p trees follow) :
    ReadsBack names (many condition p) trees follow :=
  fun rest next => h rest _ next (by simp)

section Extensions

variable {next : State → Option (NodeKind × Production)}

theorem extensions_of_none {s : State} {before : List Tree} (h : next s = none)
    (n : Nat) :
    extensions next n before s = .ok (before, s) := by
  cases n with
  | zero => rfl
  | succ n =>
    simp only [extensions, look, h]
    rfl

theorem extensions_of_some {s s' : State} {before wider : List Tree} {kind : NodeKind}
    {q : Production} (h : next s = some (kind, q))
    (read : wrap kind before q s = .ok (wider, s')) (n : Nat) :
    extensions next (n + 1) before s = extensions next n wider s' := by
  simp only [extensions, look, h]
  change (wrap kind before q s >>= _ : Except _ _) = _
  rw [read]
  rfl

theorem ReadsBack.extendsBack (h : ReadsBack names p trees follow) :
    ExtendsBack names (extend p next) next trees follow := by
  refine fun rest after => ⟨rest.length, Nat.le_refl _, ?_⟩
  change (p (.ofTokens names _) >>= _ : Except _ _) = _
  rw [h rest after]
  rfl

/-- One more node around the trees. -/
theorem ExtendsBack.step {kind : NodeKind} {q : Production} {new : List Tree}
    (h : ExtendsBack names p next trees between) (nonempty : Tree.leavesAll new ≠ [])
    (goes : ∀ more, next (.ofTokens names (Tree.leavesAll new ++ more)) = some (kind, q))
    (reads : ReadsBack names q new follow)
    (meet : ∀ rest, follow rest → between (Tree.leavesAll new ++ rest)) :
    ExtendsBack names p next [.node kind (trees ++ new)] follow := by
  intro rest after
  obtain ⟨n, enough, run⟩ := h _ (meet rest after)
  rw [List.length_append] at enough
  have positive := List.length_pos_iff.2 nonempty
  obtain ⟨n, rfl⟩ : ∃ m, n = m + 1 := Nat.exists_eq_succ_of_ne_zero (by omega)
  refine ⟨n, by omega, ?_⟩
  rw [Tree.leavesAll_cons, Tree.leaves_node, Tree.leavesAll_nil, List.append_nil,
    Tree.leavesAll_append, List.append_assoc, run]
  exact extensions_of_some (goes rest) (reads.wrap kind trees after) n

theorem ExtendsBack.readsBack (h : ExtendsBack names p next trees between)
    (stops : ∀ rest, follow rest → next (.ofTokens names rest) = none)
    (meet : ∀ rest, follow rest → between rest) : ReadsBack names p trees follow := by
  intro rest after
  obtain ⟨n, -, run⟩ := h rest (meet rest after)
  rw [run, extensions_of_none (stops rest after)]

end Extensions

end Rules

/-! ### Lists inside an expression -/

/-- The marks that go on with operands, where the operators of the given rows
join them. -/
def binaryMarks (rows : List (List String)) : List String :=
  [".", "[", "(", "++", "--"] ++ rows.flatten

def conditionalMarks : List String :=
  "?" :: binaryMarks Vocabulary.binaryOperators

def assignmentMarks : List String :=
  Vocabulary.assignmentOperators ++ conditionalMarks

/-- The marks that go on with a part of an expression. A conditional ends with an
assignment, so what goes on with the one goes on with the other. -/
def Level.continuations : Level → List String
  | .expression => "," :: assignmentMarks
  | .items => "," :: assignmentMarks
  | .assignment => assignmentMarks
  | .conditional => assignmentMarks
  | .binary least => binaryMarks (Vocabulary.binaryOperators.drop least)
  | .unary => binaryMarks []
  | .operand => binaryMarks []
  | .arguments => []
  | .dimensions => ["["]

def Tier.level : Tier → Level
  | .unary => .unary
  | .conditional => .conditional
  | .assignment => .assignment

/-- One level of nesting further in, all parts of at most `depth` tokens are
read back. -/
def ReadsInner (names : List String) (inner : Tier → Production) (depth : Nat) : Prop :=
  ∀ (t : Tier) (tree : Tree), Canonical names (.binary 0) t.level [tree] →
    tree.leaves.length ≤ depth → ReadsBack names (inner t) [tree] (Avoids t.level.continuations)

namespace Expression

variable {names : List String} {inner : Tier → Production} {depth : Nat}

theorem repeatsBack_item (deeper : ReadsInner names inner depth) {tree : Tree}
    {comma : Token} {others : List Tree}
    (first : Canonical names (.binary 0) .assignment [tree])
    (small : tree.leaves.length ≤ depth) (isComma : comma.is ",")
    (behind : RepeatsBack names (·.sees ",") (seq [mark ",", inner .assignment]) others
      (Avoids Level.items.continuations))
    (meet : ∀ rest, Avoids Level.items.continuations rest →
      Avoids Level.assignment.continuations (Tree.leavesAll others ++ rest)) :
    RepeatsBack names (·.sees ",") (seq [mark ",", inner .assignment])
      (.leaf comma :: tree :: others) (Avoids Level.items.continuations) := by
  have round :=
    readsBack_mark_cons isComma (readsBack_last (deeper .assignment tree first small))
  refine @repeatsBack_cons names _ _ _ [.leaf comma, tree] _ others ?_ ?_ round behind meet
  · simp
  · exact fun more => isComma

theorem readsBack_items (deeper : ReadsInner names inner depth) {tree : Tree}
    {others : List Tree} (first : Canonical names (.binary 0) .assignment [tree])
    (small : tree.leaves.length ≤ depth)
    (behind : RepeatsBack names (·.sees ",") (seq [mark ",", inner .assignment]) others
      (Avoids Level.items.continuations))
    (meet : ∀ rest, Avoids Level.items.continuations rest →
      Avoids Level.assignment.continuations (Tree.leavesAll others ++ rest)) :
    ReadsBack names (commaList (inner .assignment)) (tree :: others)
      (Avoids Level.items.continuations) :=
  readsBack_cons (deeper .assignment tree first small) (readsBack_last behind.many) meet

theorem repeatsBack_noItem :
    RepeatsBack names (·.sees ",") (seq [mark ",", inner .assignment]) []
      (Avoids Level.items.continuations) :=
  repeatsBack_nil fun _ next => next.sees List.mem_cons_self names

theorem avoids_of_sees {marks : List String} {tokens : List Token} {text : String}
    (h : tokens.head?.any (·.is text)) (apart : text ∉ marks) : Avoids marks tokens := by
  cases tokens with
  | nil => cases h
  | cons token tokens => exact avoids_of_is h apart tokens

/-- Arguments without their parentheses are told apart by how they start. -/
theorem readsBack_arguments {item : Production} {items : List Tree}
    {opening closing : Token}
    (opens : opening.is "(") (closes : closing.is ")") {p : Production}
    (inside : ReadsBack names p items fun rest => rest.head?.any (·.is ")"))
    (chosen : ∀ rest : List Token, rest.head?.any (·.is ")") →
      (if (State.ofTokens names (Tree.leavesAll items ++ rest)).sees "void" &&
          (State.ofTokens names (Tree.leavesAll items ++ rest)).seesSecond ")" then mark "void"
        else if (State.ofTokens names (Tree.leavesAll items ++ rest)).sees ")" then empty
        else commaList item) = p) :
    ReadsBack names (parenList item) (.leaf opening :: items ++ [.leaf closing])
      fun _ => True :=
  readsBack_mark_cons opens
    (readsBack_cons (inside.of_look chosen) (readsBack_last (readsBack_mark closes))
      fun _ _ => closes)

theorem readsBack_noArguments {item : Production} {opening closing : Token}
    (opens : opening.is "(") (closes : closing.is ")") :
    ReadsBack names (parenList item) [.leaf opening, .leaf closing] fun _ => True := by
  refine @readsBack_arguments names item [] opening closing opens closes empty (fun _ _ => rfl) ?_
  intro rest next
  have noVoid : (State.ofTokens names rest).sees "void" = false :=
    avoids_of_sees next (by decide : ")" ∉ ["void"]) "void" (by simp)
  have isClosing : (State.ofTokens names rest).sees ")" := next
  simp [noVoid, isClosing]

theorem readsBack_voidArguments {item : Production} {opening word closing : Token}
    (opens : opening.is "(") (isVoid : word.is "void") (closes : closing.is ")") :
    ReadsBack names (parenList item) [.leaf opening, .leaf word, .leaf closing]
      fun _ => True := by
  refine @readsBack_arguments names item [.leaf word] opening closing opens closes _
    (readsBack_mark isVoid) fun rest next => if_pos ?_
  have seesVoid : (State.ofTokens names (word :: rest)).sees "void" := isVoid
  have seesClosing : (State.ofTokens names (word :: rest)).seesSecond ")" := by
    rw [State.seesSecond_ofTokens]
    exact next
  exact Bool.and_eq_true_iff.2 ⟨seesVoid, seesClosing⟩

theorem readsBack_someArguments {item : Production} {items : List Tree}
    {opening closing : Token}
    (opens : opening.is "(") (closes : closing.is ")")
    (begins : Begins (Tree.leavesAll items))
    (inside : ReadsBack names (commaList item) items (Avoids Level.items.continuations)) :
    ReadsBack names (parenList item) (.leaf opening :: items ++ [.leaf closing])
      fun _ => True := by
  refine readsBack_arguments opens closes
    (inside.mono fun rest next => avoids_of_sees next (by decide)) fun rest _ => ?_
  have whole := begins.append rest
  generalize Tree.leavesAll items ++ rest = tokens at whole ⊢
  have noClosing : (State.ofTokens names tokens).sees ")" = false :=
    whole.inside.sees (by simp) names
  have noVoid : ((State.ofTokens names tokens).sees "void" &&
      (State.ofTokens names tokens).seesSecond ")") = false := by
    cases isVoid : (State.ofTokens names tokens).sees "void" with
    | false => rfl
    | true =>
      obtain ⟨second, found, apart⟩ := whole.notVoid isVoid
      change tokens[1]?.any (·.is ")") = false
      rw [found]
      exact apart
  simp [noVoid, noClosing]

/-! ### Array dimensions -/

theorem readsBack_dimension {size : Production} {trees : List Tree}
    {opening closing : Token}
    (opens : opening.is "[") (closes : closing.is "]") {p : Production}
    (inside : ReadsBack names p trees fun rest => rest.head?.any (·.is "]"))
    (chosen : ∀ rest : List Token, rest.head?.any (·.is "]") →
      (if ! (State.ofTokens names (Tree.leavesAll trees ++ rest)).sees "]" then size
        else empty) = p) :
    ReadsBack names (arraySpecifier size)
      [.node .arraySpecifier (.leaf opening :: trees ++ [.leaf closing])] fun _ => True :=
  (readsBack_mark_cons opens
    (readsBack_cons (inside.of_look chosen) (readsBack_last (readsBack_mark closes))
      fun _ _ => closes)).node .arraySpecifier

theorem readsBack_openDimension {size : Production} {opening closing : Token}
    (opens : opening.is "[") (closes : closing.is "]") :
    ReadsBack names (arraySpecifier size) [.node .arraySpecifier [.leaf opening, .leaf closing]]
      fun _ => True := by
  refine @readsBack_dimension names size [] opening closing opens closes empty (fun _ _ => rfl) ?_
  intro rest next
  have isClosing : (State.ofTokens names rest).sees "]" := next
  simp [isClosing]

theorem readsBack_sizedDimension (deeper : ReadsInner names inner depth) {tree : Tree}
    {opening closing : Token} (opens : opening.is "[")
    (inside : Canonical names (.binary 0) .conditional [tree]) (closes : closing.is "]")
    (small : tree.leaves.length ≤ depth) :
    ReadsBack names (arraySpecifier (inner .conditional))
      [.node .arraySpecifier [.leaf opening, tree, .leaf closing]] fun _ => True := by
  refine @readsBack_dimension names _ [tree] opening closing opens closes _
    ((deeper .conditional tree inside small).mono fun rest next => avoids_of_sees next (by decide))
    fun rest _ => ?_
  have begins := (inside.begins rfl).append rest
  rw [begins.inside.sees (by simp : "]" ∈ [")", "]"]) names]
  rfl

theorem repeatsBack_dimension {size : Production} {opening : Token}
    {inside others : List Tree} (opens : opening.is "[")
    (first : ReadsBack names (arraySpecifier size)
      [.node .arraySpecifier (.leaf opening :: inside)] fun _ => True)
    (behind : RepeatsBack names (·.sees "[") (arraySpecifier size) others
      (Avoids Level.dimensions.continuations)) :
    RepeatsBack names (·.sees "[") (arraySpecifier size)
      (.node .arraySpecifier (.leaf opening :: inside) :: others)
      (Avoids Level.dimensions.continuations) :=
  repeatsBack_cons (by simp) (fun _ => opens) first behind fun _ _ => trivial

/-! ### Operands -/

theorem readsBack_literal {token : Token} (holds : isLiteral token.kind) :
    ReadsBack names (primary inner) [.node .primaryExpression [.leaf token]]
      fun _ => True :=
  ((readsBack_take holds).node .primaryExpression).of_look fun _ _ => if_pos holds

/-- What is behind a name decides what the name is. -/
theorem primary_name {token : Token} (isName : token.kind = .identifier)
    (tokens : List Token) :
    primary inner (.ofTokens names (token :: tokens)) =
      (if tokens.head?.any (·.is "(") then
        node .functionCall (seq [identifier, parenList (inner .assignment)])
      else if names.contains token.text && tokens.head?.any (·.is "[") then
        node .functionCall (seq [constructor inner, parenList (inner .assignment)])
      else node .primaryExpression identifier) (.ofTokens names (token :: tokens)) := by
  have noLiteral : isLiteral token.kind = false := by
    rw [isName]
    rfl
  have seesName : (State.ofTokens names (token :: tokens)).seesKind .identifier :=
    decide_eq_true isName
  have seesType : (State.ofTokens names (token :: tokens)).seesTypeName =
      names.contains token.text := by
    simp [State.seesTypeName, State.isTypeName, isName]
  simp only [primary, look, State.rest_ofTokens, List.head?_cons, Option.any_some,
    noLiteral, seesName, seesType, State.seesSecond_ofTokens, Bool.true_and]
  cases tokens.head?.any (·.is "(") <;>
    cases names.contains token.text <;> cases tokens.head?.any (·.is "[") <;> rfl

/-- A name alone, with neither arguments nor the dimensions of a type behind
it. -/
theorem readsBack_name {token : Token} (isName : token.kind = .identifier) :
    ReadsBack names (primary inner) [.node .primaryExpression [.leaf token]] fun rest =>
      Avoids ["("] rest ∧ (token.text ∈ names → Avoids ["["] rest) := by
  refine ((readsBack_identifier isName).node .primaryExpression).congr ?_
  rintro rest ⟨noCall, noType⟩
  refine (primary_name isName rest).trans ?_
  rw [noCall "(" (by simp)]
  by_cases listed : token.text ∈ names
  · rw [noType listed "[" (by simp), Bool.and_false]
    rfl
  · simp [listed]

theorem readsBack_call {token : Token} {arguments : List Tree}
    (isName : token.kind = .identifier)
    (given : Canonical names (.binary 0) .arguments arguments)
    (reads : ReadsBack names (parenList (inner .assignment)) arguments fun _ => True) :
    ReadsBack names (primary inner) [.node .functionCall (.leaf token :: arguments)]
      fun _ => True := by
  have called : ReadsBack names (seq [identifier, parenList (inner .assignment)])
      (.leaf token :: arguments) fun _ => True :=
    readsBack_take_cons (by simpa using isName) (readsBack_last reads)
  refine (called.node .functionCall).congr fun rest _ => ?_
  obtain ⟨opening, tokens, shape, opens⟩ := given.exists_opening
  have whole : Tree.leavesAll [.node .functionCall (.leaf token :: arguments)] ++ rest =
      token :: opening :: (tokens ++ rest) := by
    simp [shape]
  have isCall : (opening :: (tokens ++ rest)).head?.any (·.is "(") := opens
  rw [whole, primary_name isName, if_pos isCall]

theorem readsBack_constructor {type : Token} {dimensions : List Tree}
    (isType : (State.ofTokens names []).isTypeName type)
    (sized : RepeatsBack names (·.sees "[") (arraySpecifier (inner .conditional)) dimensions
      (Avoids Level.dimensions.continuations)) :
    ReadsBack names (constructor inner) [.node .typeSpecifier (.leaf type :: dimensions)]
      (Avoids Level.dimensions.continuations) := by
  have read :=
    @readsBack_take_cons _ _ .typeName _ _ _ _ isType (readsBack_last sized.many)
  exact (read.node .typeSpecifier).congr fun _ _ => rfl

theorem primary_typeWord {type : Token} (isWord : type.kind = .keyword)
    (isType : Vocabulary.isTypeWord type.text) (tokens : List Token) :
    primary inner (.ofTokens names (type :: tokens)) =
      node .functionCall (seq [constructor inner, parenList (inner .assignment)])
        (.ofTokens names (type :: tokens)) := by
  have seesType : (State.ofTokens names (type :: tokens)).seesTypeName := by
    simpa [State.seesTypeName, State.isTypeName, isWord] using isType
  simp [primary, look, isWord, isLiteral, State.seesKind, seesType]

theorem readsBack_construct {type : Token} {dimensions arguments : List Tree}
    (isType : (type.kind = .keyword ∧ Vocabulary.isTypeWord type.text) ∨
      (type.kind = .identifier ∧ type.text ∈ names ∧ dimensions ≠ []))
    (sized : Canonical names (.binary 0) .dimensions dimensions)
    (given : Canonical names (.binary 0) .arguments arguments)
    (readsType : RepeatsBack names (·.sees "[") (arraySpecifier (inner .conditional)) dimensions
      (Avoids Level.dimensions.continuations))
    (reads : ReadsBack names (parenList (inner .assignment)) arguments fun _ => True) :
    ReadsBack names (primary inner)
      [.node .functionCall (.node .typeSpecifier (.leaf type :: dimensions) :: arguments)]
      fun _ => True := by
  obtain ⟨opening, tokens, shape, opens⟩ := given.exists_opening
  have named : (State.ofTokens names []).isTypeName type := by
    rcases isType with ⟨isWord, isType⟩ | ⟨isName, listed, -⟩
    · simpa [State.isTypeName, isWord] using isType
    · simpa [State.isTypeName, isName] using listed
  have called : ReadsBack names (seq [constructor inner, parenList (inner .assignment)])
      (.node .typeSpecifier (.leaf type :: dimensions) :: arguments) fun _ => True :=
    readsBack_cons (readsBack_constructor named readsType) (readsBack_last reads)
      fun rest _ => shape ▸ avoids_of_is opens (by decide) (tokens ++ rest)
  refine (called.node .functionCall).congr fun rest _ => ?_
  have whole : Tree.leavesAll
      [.node .functionCall (.node .typeSpecifier (.leaf type :: dimensions) :: arguments)] ++ rest =
        type :: (Tree.leavesAll dimensions ++ (Tree.leavesAll arguments ++ rest)) := by
    simp
  rw [whole]
  rcases isType with ⟨isWord, isType⟩ | ⟨isName, listed, dimensioned⟩
  · exact primary_typeWord isWord isType _
  · obtain ⟨bracket, inside, shape', opens'⟩ :=
      sized.dimensions_cases.resolve_left dimensioned
    rw [shape', List.cons_append, primary_name isName]
    have noCall : bracket.is "(" = false := is_eq_false_of_ne opens' (by decide)
    simp [noCall, listed, opens']

theorem primary_paren {opening : Token} (opens : opening.is "(") (tokens : List Token) :
    primary inner (.ofTokens names (opening :: tokens)) =
      node .parenExpression (seq [mark "(", expression inner, mark ")"])
        (.ofTokens names (opening :: tokens)) := by
  have isMark : (State.ofTokens names (opening :: tokens)).sees "(" := opens
  simp only [Token.is, Bool.and_eq_true, Bool.or_eq_true, decide_eq_true_eq] at opens
  obtain ⟨kind, text⟩ := opens
  have noType : (State.ofTokens names (opening :: tokens)).seesTypeName = false := by
    have noWord : Vocabulary.isTypeWord "(" = false := by decide
    rcases kind with kind | kind <;>
      simp [State.seesTypeName, State.isTypeName, kind, text, noWord]
  rcases kind with kind | kind <;>
    simp [primary, look, kind, isLiteral, State.seesKind, noType, isMark]

theorem readsBack_paren {tree : Tree} {opening closing : Token} (opens : opening.is "(")
    (closes : closing.is ")")
    (inside : ReadsBack names (expression inner) [tree] (Avoids Level.expression.continuations)) :
    ReadsBack names (primary inner)
      [.node .parenExpression [.leaf opening, tree, .leaf closing]] fun _ => True := by
  have read : ReadsBack names (seq [mark "(", expression inner, mark ")"])
      [.leaf opening, tree, .leaf closing] fun _ => True :=
    readsBack_mark_cons opens (readsBack_cons inside (readsBack_last (readsBack_mark closes))
      fun rest _ => avoids_of_is closes (by decide) rest)
  refine (read.node .parenExpression).congr fun rest _ => ?_
  have whole :
      Tree.leavesAll [.node .parenExpression [.leaf opening, tree, .leaf closing]] ++ rest =
        opening :: (tree.leaves ++ closing :: rest) := by
    simp
  rw [whole]
  exact primary_paren opens _

/-- Behind a name alone stands nothing that makes a call or a type of it. -/
def Detached (names : List String) (tree : Tree) (rest : List Token) : Prop :=
  ∀ token, tree.bareName? = some token →
    Avoids ["("] rest ∧ (token.text ∈ names → Avoids ["["] rest)

theorem detached_of_avoids {tree : Tree} {rest : List Token}
    (h : Avoids ["(", "["] rest) :
    Detached names tree rest :=
  fun _ _ => ⟨h.mono (by simp), fun _ => h.mono (by simp)⟩

/-- An operand is read, and more may be put around it. -/
def Extensible (names : List String) (inner : Tier → Production) (tree : Tree) : Prop :=
  ExtendsBack names (operand inner) (suffix inner) [tree] (Detached names tree)

theorem extensible_of_primary {tree : Tree}
    (h : ReadsBack names (primary inner) [tree] fun _ => True) :
    Extensible names inner tree :=
  (h.mono fun _ _ => trivial).extendsBack

theorem extensible_name {token : Token} (isName : token.kind = .identifier) :
    Extensible names inner (.node .primaryExpression [.leaf token]) := by
  refine ((readsBack_name isName).mono fun rest detached => ?_).extendsBack
  exact detached token (by simp [Tree.bareName?, isName])

theorem extensible_apply {callee : Tree} {arguments : List Tree}
    (called : Extensible names inner callee) (noName : callee.bareName? = none)
    (given : Canonical names (.binary 0) .arguments arguments)
    (reads : ReadsBack names (parenList (inner .assignment)) arguments fun _ => True) :
    Extensible names inner (.node .functionCall (callee :: arguments)) := by
  obtain ⟨opening, tokens, shape, opens⟩ := given.exists_opening
  refine ExtendsBack.step called (by simp [shape]) (fun more => ?_)
    (reads.mono fun _ _ => trivial) ?_
  · rw [shape, List.cons_append]
    simp [suffix, State.sees_ofTokens opens]
  · intro rest _ token bare
    rw [noName] at bare
    cases bare

theorem extensible_field {base : Tree} {point token : Token}
    (owner : Extensible names inner base)
    (isPoint : point.is ".") (isName : token.kind = .identifier) :
    Extensible names inner (.node .fieldSelection [base, .leaf point, .leaf token]) := by
  have reads : ReadsBack names (seq [mark ".", identifier]) [.leaf point, .leaf token]
      (Detached names (.node .fieldSelection [base, .leaf point, .leaf token])) :=
    readsBack_mark_cons isPoint (readsBack_last (readsBack_identifier isName))
  refine ExtendsBack.step owner (by simp) (fun more => ?_) reads fun rest _ => ?_
  · change suffix inner (.ofTokens names (point :: token :: more)) = _
    simp [suffix, State.sees_ofTokens isPoint]
  · exact detached_of_avoids (avoids_of_is isPoint (by decide) _)

theorem extensible_index {base tree : Tree} {opening closing : Token}
    (owner : Extensible names inner base)
    (noType : ∀ token, base.bareName? = some token → token.text ∉ names)
    (opens : opening.is "[")
    (inside : ReadsBack names (expression inner) [tree] (Avoids Level.expression.continuations))
    (closes : closing.is "]") :
    Extensible names inner (.node .indexExpression [base, .leaf opening, tree, .leaf closing]) := by
  have reads : ReadsBack names (seq [mark "[", expression inner, mark "]"])
      [.leaf opening, tree, .leaf closing]
      (Detached names (.node .indexExpression [base, .leaf opening, tree, .leaf closing])) :=
    readsBack_mark_cons opens (readsBack_cons inside (readsBack_last (readsBack_mark closes))
      fun rest _ => avoids_of_is closes (by decide) rest)
  refine ExtendsBack.step owner (by simp) (fun more => ?_) reads
    fun rest _ token bare => ?_
  · rw [Tree.leavesAll_cons, Tree.leaves_leaf, List.singleton_append, List.cons_append]
    simp [suffix, State.sees_ofTokens opens]
  · exact ⟨avoids_of_is opens (by decide) _, fun listed => absurd listed (noType token bare)⟩

theorem extensible_step {base : Tree} {operator : Token}
    (stepped : Extensible names inner base)
    (isOperator : isOneOf ["++", "--"] operator) :
    Extensible names inner (.node .postfixExpression [base, .leaf operator]) := by
  obtain ⟨text, listed, is⟩ := List.any_eq_true.1 isOperator
  have apart : text ∉ ["(", "["] := by
    simp only [List.mem_cons, List.not_mem_nil, or_false] at listed
    rcases listed with rfl | rfl <;> decide
  refine ExtendsBack.step (q := mark text) stepped (by simp) (fun more => ?_) (readsBack_mark is)
    fun rest _ => ?_
  · change suffix inner (.ofTokens names (operator :: more)) = _
    simp only [List.mem_cons, List.not_mem_nil, or_false] at listed
    rcases listed with rfl | rfl <;> simp [suffix, State.sees_ofTokens is]
  · exact detached_of_avoids (avoids_of_is is apart _)

theorem Extensible.readsBack {tree : Tree} (h : Extensible names inner tree) :
    ReadsBack names (operand inner) [tree] (Avoids Level.operand.continuations) := by
  refine ExtendsBack.readsBack h (fun rest next => ?_) fun rest next => ?_
  · simp [suffix, next.sees, Level.continuations, binaryMarks]
  · exact detached_of_avoids (next.mono (by decide))

/-! ### Operators -/

theorem readsBack_unsigned {tree : Tree}
    (inside : Canonical names (.binary 0) .operand [tree])
    (reads : ReadsBack names (operand inner) [tree] (Avoids Level.operand.continuations)) :
    ReadsBack names (unary inner) [tree] (Avoids Level.unary.continuations) := by
  refine reads.of_look fun rest _ => ?_
  have unsigned :=
    (inside.avoids_unaryOperators rfl).append (inside.begins rfl).nonempty rest
  rw [unsigned.seesAny (List.Subset.refl _) names]
  rfl

theorem readsBack_signed (deeper : ReadsInner names inner depth) {tree : Tree}
    {operator : Token} (isOperator : isOneOf Vocabulary.unaryOperators operator)
    (inside : Canonical names (.binary 0) .unary [tree])
    (small : tree.leaves.length ≤ depth) :
    ReadsBack names (unary inner) [.node .unaryExpression [.leaf operator, tree]]
      (Avoids Level.unary.continuations) := by
  have reads : ReadsBack names
      (seq [take .expression (isOneOf Vocabulary.unaryOperators), inner .unary])
      [.leaf operator, tree] (Avoids Level.unary.continuations) :=
    readsBack_take_cons isOperator (readsBack_last (deeper .unary tree inside small))
  refine (reads.node .unaryExpression).of_look fun rest _ => if_pos ?_
  rw [Tree.leavesAll_cons, Tree.leaves_node, Tree.leavesAll_cons, Tree.leaves_leaf]
  exact isOperator

theorem row_subset_binaryMarks (row : List String) (tighter : List (List String)) :
    row ⊆ binaryMarks (row :: tighter) :=
  fun _ listed => List.mem_append_right _ (List.mem_append_left _ listed)

theorem binaryMarks_subset_cons (row : List String) (tighter : List (List String)) :
    binaryMarks tighter ⊆ binaryMarks (row :: tighter) := by
  intro text listed
  rcases List.mem_append.1 listed with listed | listed
  · exact List.mem_append_left _ listed
  · exact List.mem_append_right _ (List.mem_append_right row listed)

section Rows

variable (operand : Uses 0 (unary inner))
include operand

/-- What is read with the tighter rows can be an operand of this row. -/
theorem extendsBack_of_tighter {row : List String} {tighter : List (List String)}
    {tree : Tree}
    (h : ReadsBack names (binary inner tighter) [tree] (Avoids (binaryMarks tighter))) :
    ExtendsBack names (binary inner (row :: tighter)) (joining row (binary inner tighter)) [tree]
      (Avoids (binaryMarks tighter)) := by
  rw [binary_cons operand]
  exact h.extendsBack

omit operand in
theorem extendsBack_join {row : List String} {tighter : List (List String)}
    {left right : Tree} {operator : Token} (listed : isOneOf row operator)
    (apart : ∀ text ∈ row, text ∉ binaryMarks tighter)
    (before : ExtendsBack names (binary inner (row :: tighter))
      (joining row (binary inner tighter)) [left] (Avoids (binaryMarks tighter)))
    (behind : ReadsBack names (binary inner tighter) [right] (Avoids (binaryMarks tighter))) :
    ExtendsBack names (binary inner (row :: tighter)) (joining row (binary inner tighter))
      [.node .binaryExpression [left, .leaf operator, right]] (Avoids (binaryMarks tighter)) := by
  have reads : ReadsBack names (seq [take .expression (isOneOf row), binary inner tighter])
      [.leaf operator, right] (Avoids (binaryMarks tighter)) :=
    readsBack_take_cons listed (readsBack_last behind)
  refine ExtendsBack.step before (by simp) (fun more => ?_) reads fun rest _ => ?_
  · exact if_pos listed
  · exact avoids_of_isOneOf listed apart _

omit operand in
theorem readsBack_of_extendsBack {row : List String} {tighter : List (List String)}
    {tree : Tree} (h : ExtendsBack names (binary inner (row :: tighter))
      (joining row (binary inner tighter)) [tree] (Avoids (binaryMarks tighter))) :
    ReadsBack names (binary inner (row :: tighter)) [tree]
      (Avoids (binaryMarks (row :: tighter))) := by
  refine ExtendsBack.readsBack h (fun rest next => if_neg ?_)
    fun rest next => next.mono ?_
  · rw [next.seesAny (row_subset_binaryMarks row tighter) names]
    exact Bool.false_ne_true
  · exact binaryMarks_subset_cons row tighter

theorem readsBack_of_suffix {tighter rows : List (List String)} {tree : Tree}
    (part : tighter <:+ rows)
    (h : ReadsBack names (binary inner tighter) [tree] (Avoids (binaryMarks tighter))) :
    ReadsBack names (binary inner rows) [tree] (Avoids (binaryMarks rows)) := by
  induction rows with
  | nil =>
    obtain rfl := List.suffix_nil.1 part
    exact h
  | cons row rows ih =>
    rcases List.suffix_cons_iff.1 part with rfl | part
    · exact h
    · exact readsBack_of_extendsBack (extendsBack_of_tighter operand (ih part))

/-- A tree is read by the given rows, and as the left operand of the weakest of
them. -/
structure Joinable (names : List String) (inner : Tier → Production)
    (rows : List (List String)) (tree : Tree) : Prop where
  reads : ReadsBack names (binary inner rows) [tree] (Avoids (binaryMarks rows))
  joins : ∀ row tighter, rows = row :: tighter →
    ExtendsBack names (binary inner rows) (joining row (binary inner tighter)) [tree]
      (Avoids (binaryMarks tighter))

/-- What tighter rows read is an operand of all weaker ones. -/
theorem joinable_of_tighter {tighter rows : List (List String)} {tree : Tree}
    (h : ReadsBack names (binary inner tighter) [tree] (Avoids (binaryMarks tighter)))
    (part : tighter <:+ rows) (proper : tighter <:+ rows.tail) :
    Joinable names inner rows tree := by
  refine ⟨readsBack_of_suffix operand part h, ?_⟩
  rintro row weaker rfl
  exact extendsBack_of_tighter operand (readsBack_of_suffix operand proper h)

omit operand in
theorem operators_apart : ∀ i < Vocabulary.binaryOperators.length,
    ∀ text ∈ (Vocabulary.binaryOperators.drop i).headD [],
      text ∉ binaryMarks (Vocabulary.binaryOperators.drop (i + 1)) := by
  decide

omit operand in
/-- The row of an operator of the given strength; no tighter row has it. -/
theorem exists_row {operator : Token} {own : Nat}
    (strength : precedence? operator = some own) :
    ∃ row,
      Vocabulary.binaryOperators.drop own =
        row :: Vocabulary.binaryOperators.drop (own + 1) ∧
      isOneOf row operator ∧
      ∀ text ∈ row, text ∉ binaryMarks (Vocabulary.binaryOperators.drop (own + 1)) := by
  obtain ⟨below, listed, -⟩ := List.findIdx?_eq_some_iff_getElem.1 strength
  have shape := List.drop_eq_getElem_cons below
  refine ⟨_, shape, listed, ?_⟩
  have apart := operators_apart own below
  rwa [shape] at apart

theorem joinable_join {left right : Tree} {operator : Token} {least own : Nat}
    (strength : precedence? operator = some own) (tight : least ≤ own)
    (before : Joinable names inner (Vocabulary.binaryOperators.drop own) left)
    (behind : Joinable names inner (Vocabulary.binaryOperators.drop (own + 1)) right) :
    Joinable names inner (Vocabulary.binaryOperators.drop least)
      (.node .binaryExpression [left, .leaf operator, right]) := by
  obtain ⟨row, shape, listed, apart⟩ := exists_row strength
  have joins := before.joins row _ shape
  rw [shape] at joins
  have joined := extendsBack_join listed apart joins behind.reads
  have reads := readsBack_of_extendsBack joined
  rcases Nat.eq_or_lt_of_le tight with rfl | tighter
  · rw [shape]
    refine ⟨reads, ?_⟩
    rintro _ _ ⟨⟩
    exact joined
  · rw [← shape] at reads
    refine joinable_of_tighter operand reads (List.drop_suffix_drop_left _ tight) ?_
    rw [List.tail_drop]
    exact List.drop_suffix_drop_left _ tighter

end Rows

/-! ### Conditionals and assignments -/

theorem readsBack_unconditional {tree : Tree}
    (inside : Joinable names inner Vocabulary.binaryOperators tree) :
    ReadsBack names (conditional inner) [tree] (Avoids conditionalMarks) := by
  intro rest next
  refine bind_eq_ok.2 ⟨_, _, inside.reads rest (next.mono (List.subset_cons_self _ _)), ?_⟩
  rw [look, next.sees List.mem_cons_self names]
  rfl

theorem readsBack_choice (deeper : ReadsInner names inner depth) {condition yes no : Tree}
    {question colon : Token} (tested : Joinable names inner Vocabulary.binaryOperators condition)
    (isQuestion : question.is "?")
    (holds : ReadsBack names (expression inner) [yes] (Avoids Level.expression.continuations))
    (isColon : colon.is ":") (fails : Canonical names (.binary 0) .assignment [no])
    (small : no.leaves.length ≤ depth) :
    ReadsBack names (conditional inner)
      [.node .conditionalExpression [condition, .leaf question, yes, .leaf colon, no]]
      (Avoids Level.conditional.continuations) := by
  have branches : ReadsBack names (seq [mark "?", expression inner, mark ":", inner .assignment])
      [.leaf question, yes, .leaf colon, no] (Avoids Level.assignment.continuations) :=
    readsBack_mark_cons isQuestion
      (readsBack_cons holds
        (readsBack_mark_cons isColon (readsBack_last (deeper .assignment no fails small)))
        fun rest _ => avoids_of_is isColon (by decide) _)
  intro rest next
  have whole : Tree.leavesAll
      [.node .conditionalExpression [condition, .leaf question, yes, .leaf colon, no]] ++ rest =
        Tree.leavesAll [condition] ++
          (Tree.leavesAll [.leaf question, yes, .leaf colon, no] ++ rest) := by
    simp
  rw [whole]
  refine bind_eq_ok.2 ⟨_, _, tested.reads _ (avoids_of_is isQuestion (by decide) _), ?_⟩
  have asks : (State.ofTokens names
      (Tree.leavesAll [.leaf question, yes, .leaf colon, no] ++ rest)).sees "?" :=
    isQuestion
  rw [look, asks]
  exact branches.wrap .conditionalExpression [condition] next

theorem readsBack_value {tree : Tree}
    (inside : ReadsBack names (conditional inner) [tree] (Avoids Level.conditional.continuations)) :
    ReadsBack names (assignment inner) [.node .assignmentExpression [tree]]
      (Avoids Level.assignment.continuations) := by
  refine (readsBack_cons inside (readsBack_last (readsBack_skip fun rest next => ?_))
    fun _ next => next).node .assignmentExpression
  exact next.seesAny (List.subset_append_left _ _) names

theorem readsBack_store (deeper : ReadsInner names inner depth) {left right : Tree}
    {operator : Token} (stored : Joinable names inner Vocabulary.binaryOperators left)
    (isOperator : isOneOf Vocabulary.assignmentOperators operator)
    (value : Canonical names (.binary 0) .assignment [right])
    (small : right.leaves.length ≤ depth) :
    ReadsBack names (assignment inner)
      [.node .assignmentExpression [left, .leaf operator, right]]
      (Avoids Level.assignment.continuations) := by
  have behind : ReadsBack names
      (seq [take .expression (isOneOf Vocabulary.assignmentOperators), inner .assignment])
      [.leaf operator, right] (Avoids Level.assignment.continuations) :=
    readsBack_take_cons isOperator (readsBack_last (deeper .assignment right value small))
  have either :=
    @ReadsBack.optional _ _ _ _ (·.seesAny Vocabulary.assignmentOperators) behind
      fun more => isOperator
  exact (readsBack_cons (readsBack_unconditional stored) (readsBack_last either)
    fun rest _ => avoids_of_isOneOf isOperator (by decide) _).node .assignmentExpression

/-! ### All parts -/

/-- What reading makes of a part of an expression, in the bounds of the depth. -/
def Recovers (names : List String) (inner : Tier → Production) (depth : Nat) :
    Level → List Tree → Prop
  | .expression, trees => (Tree.leavesAll trees).length ≤ depth →
      ReadsBack names (expression inner) trees (Avoids Level.expression.continuations)
  | .items, trees => (Tree.leavesAll trees).length ≤ depth →
      ReadsBack names (commaList (inner .assignment)) trees (Avoids Level.items.continuations) ∧
        ∀ comma : Token, comma.is "," →
          RepeatsBack names (·.sees ",") (seq [mark ",", inner .assignment]) (.leaf comma :: trees)
            (Avoids Level.items.continuations)
  | .assignment, trees => (Tree.leavesAll trees).length ≤ depth + 1 →
      ReadsBack names (assignment inner) trees (Avoids Level.assignment.continuations)
  | .conditional, trees => (Tree.leavesAll trees).length ≤ depth + 1 →
      ReadsBack names (conditional inner) trees (Avoids Level.conditional.continuations)
  | .binary least, trees => (Tree.leavesAll trees).length ≤ depth + 1 →
      ∀ tree, trees = [tree] → Joinable names inner (Vocabulary.binaryOperators.drop least) tree
  | .unary, trees => (Tree.leavesAll trees).length ≤ depth + 1 →
      ReadsBack names (unary inner) trees (Avoids Level.unary.continuations)
  | .operand, trees => (Tree.leavesAll trees).length ≤ depth + 1 →
      ∀ tree, trees = [tree] → Extensible names inner tree
  | .arguments, trees => (Tree.leavesAll trees).length ≤ depth + 1 →
      ReadsBack names (parenList (inner .assignment)) trees fun _ => True
  | .dimensions, trees => (Tree.leavesAll trees).length ≤ depth + 1 →
      RepeatsBack names (·.sees "[") (arraySpecifier (inner .conditional)) trees
        (Avoids Level.dimensions.continuations)

/-- Every part of a canonical expression is read back. What is one level further
in comes behind a token, so it has fewer tokens. -/
theorem recovers_of_canonical (operand : Uses 0 (unary inner))
    (deeper : ReadsInner names inner depth) {level : Level} {trees : List Tree}
    (h : Canonical names (.binary 0) level trees) :
    Recovers names inner depth level trees := by
  induction h with
  | expression inside ih =>
    intro small
    exact (ih (by simpa using small)).1.node .expression
  | item only ih =>
    intro small
    have small := (by simpa using small : _ ≤ depth)
    refine ⟨?_, fun comma isComma => ?_⟩
    · exact readsBack_items deeper only small repeatsBack_noItem
        fun _ next => next.mono (List.subset_cons_self _ _)
    · exact repeatsBack_item deeper only small isComma repeatsBack_noItem
        fun _ next => next.mono (List.subset_cons_self _ _)
  | @items _ comma _ first isComma behind _ ih =>
    intro small
    have behind := (ih (by simp at small; omega)).2 comma isComma
    refine ⟨?_, fun comma' isComma' => ?_⟩
    · exact readsBack_items deeper first (by simp at small; omega) behind
        fun rest _ => avoids_of_is isComma (by decide) _
    · exact repeatsBack_item deeper first (by simp at small; omega) isComma' behind
        fun rest _ => avoids_of_is isComma (by decide) _
  | value inside ih =>
    intro small
    exact readsBack_value (ih (by simpa using small))
  | store stored isOperator value ih _ =>
    intro small
    exact readsBack_store deeper (ih (by simp at small ⊢; omega) _ rfl) isOperator value
      (by simp at small; omega)
  | unconditional inside ih =>
    intro small
    exact (readsBack_unconditional (ih small _ rfl)).mono
      fun _ next => next.mono (List.subset_append_right _ _)
  | choice tested isQuestion holds isColon fails ihTested ihHolds _ =>
    intro small
    exact readsBack_choice deeper (ihTested (by simp at small ⊢; omega) _ rfl) isQuestion
      (ihHolds (by simp at small ⊢; omega)) isColon fails (by simp at small; omega)
  | single inside ih =>
    rintro small _ ⟨⟩
    have reads := ih small
    rw [← binary_nil] at reads
    exact joinable_of_tighter operand reads List.nil_suffix List.nil_suffix
  | join strength tight before behind ihBefore ihBehind =>
    rintro small _ ⟨⟩
    exact joinable_join operand strength tight (ihBefore (by simp at small ⊢; omega) _ rfl)
      (ihBehind (by simp at small ⊢; omega) _ rfl)
  | unsigned inside ih =>
    exact fun small => readsBack_unsigned inside (ih small _ rfl).readsBack
  | signed isOperator inside ih =>
    intro small
    exact readsBack_signed deeper isOperator inside (by simpa using small)
  | literal holds =>
    rintro small _ ⟨⟩
    exact extensible_of_primary (readsBack_literal holds)
  | name isName =>
    rintro small _ ⟨⟩
    exact extensible_name isName
  | paren opens inside closes ih =>
    rintro small _ ⟨⟩
    exact extensible_of_primary (readsBack_paren opens closes (ih (by simp at small ⊢; omega)))
  | call isName given ih =>
    rintro small _ ⟨⟩
    exact extensible_of_primary (readsBack_call isName given (ih (by simp at small ⊢; omega)))
  | construct isType sized given ihSized ihGiven =>
    rintro small _ ⟨⟩
    exact extensible_of_primary (readsBack_construct isType sized given
      (ihSized (by simp at small ⊢; omega)) (ihGiven (by simp at small ⊢; omega)))
  | apply called noName given ihCalled ihGiven =>
    rintro small _ ⟨⟩
    exact extensible_apply (ihCalled (by simp at small ⊢; omega) _ rfl) noName given
      (ihGiven (by simp at small ⊢; omega))
  | field owner isPoint isName ih =>
    rintro small _ ⟨⟩
    exact extensible_field (ih (by simp at small ⊢; omega) _ rfl) isPoint isName
  | index owner noType opens inside closes ihOwner ihInside =>
    rintro small _ ⟨⟩
    exact extensible_index (ihOwner (by simp at small ⊢; omega) _ rfl) noType opens
      (ihInside (by simp at small ⊢; omega)) closes
  | step stepped isOperator ih =>
    rintro small _ ⟨⟩
    exact extensible_step (ih (by simp at small ⊢; omega) _ rfl) isOperator
  | noArguments opens closes => exact fun _ => readsBack_noArguments opens closes
  | voidArguments opens isVoid closes =>
    exact fun _ => readsBack_voidArguments opens isVoid closes
  | someArguments opens inside closes ih =>
    intro small
    exact readsBack_someArguments opens closes (inside.begins rfl)
      (ih (by simp [Tree.leavesAll_append] at small ⊢; omega)).1
  | noDimensions =>
    exact fun _ => repeatsBack_nil fun _ next => next.sees List.mem_cons_self names
  | openDimension opens closes behind ih =>
    intro small
    exact repeatsBack_dimension opens (readsBack_openDimension opens closes)
      (ih (by simp at small ⊢; omega))
  | sizedDimension opens inside closes behind _ ih =>
    intro small
    exact repeatsBack_dimension opens
      (readsBack_sizedDimension deeper opens inside closes (by simp at small ⊢; omega))
      (ih (by simp at small ⊢; omega))

/-- All canonical parts that have no more tokens than there are levels of nesting
are read back. -/
theorem readsInner_nested (names : List String) (depth : Nat) :
    ReadsInner names (nested depth) depth := by
  induction depth with
  | zero =>
    intro t tree canonical small
    have nonempty := (canonical.begins (by cases t <;> rfl)).nonempty
    simp_all
  | succ depth ih =>
    intro t tree canonical small
    have operand := (reads_unary (reads_nested depth)).uses
    have recovers := recovers_of_canonical operand ih canonical
    have small : (Tree.leavesAll [tree]).length ≤ depth + 1 := by simpa using small
    cases t with
    | unary => exact recovers small
    | conditional => exact recovers small
    | assignment => exact recovers small

end Expression

theorem readsInner_tier (names : List String) (depth : Nat) :
    ReadsInner names tier depth := by
  intro t tree canonical _ rest next
  have enough : tree.leaves.length ≤ (Tree.leavesAll [tree] ++ rest).length := by simp
  exact Expression.readsInner_nested names _ t tree canonical enough rest next

/-- Where a conditional may stand on the left of an assignment, some trees are not
read back: `c ? a : b = d` stores into the last branch. -/
theorem expression_conditional_target :
    ∃ tree other : Tree, ∃ rest : List Token,
      tree.leaves.map Token.text = ["c", "?", "a", ":", "b", "=", "d"] ∧
      Canonical [] .conditional .expression [tree] ∧
      Avoids Level.expression.continuations rest ∧
      (expression (.ofTokens [] (tree.leaves ++ rest))).toOption.map Prod.fst =
        some [other] ∧
      other ≠ tree := by
  let name (index : Nat) (text : String) : Tree :=
    .node .primaryExpression [.leaf ⟨index, .identifier, text⟩]
  let mark (index : Nat) (text : String) : Tree := .leaf ⟨index, .punct, text⟩
  let value (trees : List Tree) : Tree := .node .assignmentExpression trees
  refine ⟨.node .expression
      [value
        [.node .conditionalExpression
          [name 0 "c", mark 1 "?", .node .expression [value [name 2 "a"]], mark 3 ":",
            value [name 4 "b"]],
        mark 5 "=", value [name 6 "d"]]],
    .node .expression
      [value
        [.node .conditionalExpression
          [name 0 "c", mark 1 "?", .node .expression [value [name 2 "a"]], mark 3 ":",
            value [name 4 "b", mark 5 "=", value [name 6 "d"]]]]],
    [⟨7, .punct, ";"⟩], rfl, ?_, by decide, by decide +kernel, by decide⟩
  refine .expression
    (.item (.store (.choice (.single (.unsigned (.name rfl))) rfl ?_ rfl ?_) rfl ?_))
  · exact .expression (.item (.value (.unconditional (.single (.unsigned (.name rfl))))))
  · exact .value (.unconditional (.single (.unsigned (.name rfl))))
  · exact .value (.unconditional (.single (.unsigned (.name rfl))))

/-- The tokens of a canonical expression are read as that expression, and what
cannot go on with it is left. -/
theorem expression_of_canonical {names : List String} {tree : Tree} {rest : List Token}
    (canonical : Canonical names (.binary 0) .expression [tree])
    (next : Avoids Level.expression.continuations rest) :
    expression (.ofTokens names (tree.leaves ++ rest)) =
      .ok ([tree], .ofTokens names rest) := by
  have operand := (Expression.reads_unary reads_tier).uses
  have reads :=
    Expression.recovers_of_canonical operand (readsInner_tier names _) canonical
      (Nat.le_refl _)
  have run := reads rest next
  rwa [Tree.leavesAll_cons, Tree.leavesAll_nil, List.append_nil] at run

theorem expression_array_constructor :
    ∃ tree : Tree,
      tree.leaves.map Token.text =
        ["a", "=", "S", "[", "2", "]", "(", "b", ")", ".", "x", "*", "-", "c", "+", "d"] ∧
      Canonical ["S"] (.binary 0) .expression [tree] ∧
      expression (.ofTokens ["S"] (tree.leaves ++ [⟨16, .punct, ";"⟩])) =
        .ok ([tree], .ofTokens ["S"] [⟨16, .punct, ";"⟩]) := by
  let name (index : Nat) (text : String) : Tree :=
    .node .primaryExpression [.leaf ⟨index, .identifier, text⟩]
  let mark (index : Nat) (text : String) : Tree := .leaf ⟨index, .punct, text⟩
  let value (trees : List Tree) : Tree := .node .assignmentExpression trees
  let type : Tree := .node .typeSpecifier
    [.leaf ⟨2, .identifier, "S"⟩,
      .node .arraySpecifier
        [mark 3 "[", .node .primaryExpression [.leaf ⟨4, .intLiteral, "2"⟩], mark 5 "]"]]
  let product : Tree := .node .binaryExpression
    [.node .fieldSelection
        [.node .functionCall [type, mark 6 "(", value [name 7 "b"], mark 8 ")"],
         mark 9 ".", .leaf ⟨10, .identifier, "x"⟩],
      mark 11 "*", .node .unaryExpression [mark 12 "-", name 13 "c"]]
  have called : Canonical ["S"] (.binary 0) .operand
      [.node .functionCall [type, mark 6 "(", value [name 7 "b"], mark 8 ")"]] := by
    refine .construct (.inr ⟨rfl, by simp, by simp⟩) (.sizedDimension rfl ?_ rfl .noDimensions)
      (.someArguments rfl (.item ?_) rfl)
    · exact .unconditional (.single (.unsigned (.literal rfl)))
    · exact .value (.unconditional (.single (.unsigned (.name rfl))))
  have multiplied : Canonical ["S"] (.binary 0) (.binary 9) [product] :=
    .join (by decide : _ = some 10) (by decide) (.single (.unsigned (.field called rfl rfl)))
      (.single (.signed rfl (.unsigned (.name rfl))))
  have canonical : Canonical ["S"] (.binary 0) .expression
      [.node .expression
        [value [name 0 "a", mark 1 "=",
          value [.node .binaryExpression [product, mark 14 "+", name 15 "d"]]]]] := by
    refine .expression (.item (.store (.single (.unsigned (.name rfl))) rfl
      (.value (.unconditional ?_))))
    exact .join (by decide : _ = some 9) (by decide) multiplied (.single (.unsigned (.name rfl)))
  exact ⟨_, rfl, canonical, expression_of_canonical canonical (by decide)⟩

end ShaderDialect.Grammar
