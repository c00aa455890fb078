import ShaderDialect.Proofs.TreeGrammar

/-!
# Canonical expressions

The trees that an expression can have, described by binding strength and not
by how they are read: an operator never stands below one that binds tighter,
operators of equal strength lean to the left, and a name is told from a call and
a constructor by what is behind it. The loose end of the grammar is the
conditional, whose last branch reaches as far to the right as an assignment
does. So there are two notions of a canonical tree: `target` says what may stand on
the left of an assignment.
-/

namespace ShaderDialect

/-- The token of a name that stands alone. -/
def Tree.bareName? : Tree → Option Token
  | .node .primaryExpression [.leaf token] =>
    if token.kind = .identifier then some token else none
  | _ => none

namespace Grammar

open Expression (isLiteral isOneOf)

/-- The parts of an expression: its tiers, and the lists of siblings in it. -/
inductive Level where
  | expression
  | items
  | assignment
  | conditional
  | binary (least : Nat)
  | unary
  | operand
  | arguments
  | dimensions
deriving DecidableEq

/-- The binding strength of a binary operator, zero for the weakest. -/
def precedence? (operator : Token) : Option Nat :=
  Vocabulary.binaryOperators.findIdx? (isOneOf · operator)

/-- The sibling trees that a part of an expression can have, where the given
names are types. A binary part has operators of at least the given strength. -/
inductive Canonical (names : List String) (target : Level) : Level → List Tree → Prop
  | expression {items : List Tree} (inside : Canonical names target .items items) :
      Canonical names target .expression [.node .expression items]
  | item {tree : Tree} (only : Canonical names target .assignment [tree]) :
      Canonical names target .items [tree]
  | items {tree : Tree} {comma : Token} {others : List Tree}
      (first : Canonical names target .assignment [tree]) (isComma : comma.is ",")
      (behind : Canonical names target .items others) :
      Canonical names target .items (tree :: .leaf comma :: others)
  | value {tree : Tree} (inside : Canonical names target .conditional [tree]) :
      Canonical names target .assignment [.node .assignmentExpression [tree]]
  | store {left right : Tree} {operator : Token} (stored : Canonical names target target [left])
      (isOperator : isOneOf Vocabulary.assignmentOperators operator)
      (value : Canonical names target .assignment [right]) :
      Canonical names target .assignment
        [.node .assignmentExpression [left, .leaf operator, right]]
  | unconditional {tree : Tree} (inside : Canonical names target (.binary 0) [tree]) :
      Canonical names target .conditional [tree]
  | choice {condition yes no : Tree} {question colon : Token}
      (tested : Canonical names target (.binary 0) [condition]) (isQuestion : question.is "?")
      (holds : Canonical names target .expression [yes]) (isColon : colon.is ":")
      (fails : Canonical names target .assignment [no]) :
      Canonical names target .conditional
        [.node .conditionalExpression [condition, .leaf question, yes, .leaf colon, no]]
  | single {tree : Tree} {least : Nat} (inside : Canonical names target .unary [tree]) :
      Canonical names target (.binary least) [tree]
  | join {left right : Tree} {operator : Token} {least own : Nat}
      (strength : precedence? operator = some own) (tight : least ≤ own)
      (before : Canonical names target (.binary own) [left])
      (behind : Canonical names target (.binary (own + 1)) [right]) :
      Canonical names target (.binary least) [.node .binaryExpression [left, .leaf operator, right]]
  | unsigned {tree : Tree} (inside : Canonical names target .operand [tree]) :
      Canonical names target .unary [tree]
  | signed {tree : Tree} {operator : Token}
      (isOperator : isOneOf Vocabulary.unaryOperators operator)
      (inside : Canonical names target .unary [tree]) :
      Canonical names target .unary [.node .unaryExpression [.leaf operator, tree]]
  | literal {token : Token} (holds : isLiteral token.kind) :
      Canonical names target .operand [.node .primaryExpression [.leaf token]]
  | name {token : Token} (isName : token.kind = .identifier) :
      Canonical names target .operand [.node .primaryExpression [.leaf token]]
  | paren {tree : Tree} {opening closing : Token} (opens : opening.is "(")
      (inside : Canonical names target .expression [tree]) (closes : closing.is ")") :
      Canonical names target .operand [.node .parenExpression [.leaf opening, tree, .leaf closing]]
  | call {token : Token} {arguments : List Tree} (isName : token.kind = .identifier)
      (given : Canonical names target .arguments arguments) :
      Canonical names target .operand [.node .functionCall (.leaf token :: arguments)]
  | construct {type : Token} {dimensions arguments : List Tree}
      (isType : (type.kind = .keyword ∧ Vocabulary.isTypeWord type.text) ∨
        (type.kind = .identifier ∧ type.text ∈ names ∧ dimensions ≠ []))
      (sized : Canonical names target .dimensions dimensions)
      (given : Canonical names target .arguments arguments) :
      Canonical names target .operand
        [.node .functionCall (.node .typeSpecifier (.leaf type :: dimensions) :: arguments)]
  | apply {callee : Tree} {arguments : List Tree}
      (called : Canonical names target .operand [callee]) (noName : callee.bareName? = none)
      (given : Canonical names target .arguments arguments) :
      Canonical names target .operand [.node .functionCall (callee :: arguments)]
  | field {base : Tree} {point token : Token} (owner : Canonical names target .operand [base])
      (isPoint : point.is ".") (isName : token.kind = .identifier) :
      Canonical names target .operand [.node .fieldSelection [base, .leaf point, .leaf token]]
  | index {base tree : Tree} {opening closing : Token}
      (owner : Canonical names target .operand [base])
      (noType : ∀ token, base.bareName? = some token → token.text ∉ names) (opens : opening.is "[")
      (inside : Canonical names target .expression [tree]) (closes : closing.is "]") :
      Canonical names target .operand
        [.node .indexExpression [base, .leaf opening, tree, .leaf closing]]
  | step {base : Tree} {operator : Token} (stepped : Canonical names target .operand [base])
      (isOperator : isOneOf ["++", "--"] operator) :
      Canonical names target .operand [.node .postfixExpression [base, .leaf operator]]
  | noArguments {opening closing : Token} (opens : opening.is "(") (closes : closing.is ")") :
      Canonical names target .arguments [.leaf opening, .leaf closing]
  | voidArguments {opening word closing : Token} (opens : opening.is "(") (isVoid : word.is "void")
      (closes : closing.is ")") :
      Canonical names target .arguments [.leaf opening, .leaf word, .leaf closing]
  | someArguments {opening closing : Token} {items : List Tree} (opens : opening.is "(")
      (inside : Canonical names target .items items) (closes : closing.is ")") :
      Canonical names target .arguments (.leaf opening :: items ++ [.leaf closing])
  | noDimensions : Canonical names target .dimensions []
  | openDimension {opening closing : Token} {others : List Tree} (opens : opening.is "[")
      (closes : closing.is "]") (behind : Canonical names target .dimensions others) :
      Canonical names target .dimensions
        (.node .arraySpecifier [.leaf opening, .leaf closing] :: others)
  | sizedDimension {size : Tree} {opening closing : Token} {others : List Tree}
      (opens : opening.is "[") (inside : Canonical names target .conditional [size])
      (closes : closing.is "]") (behind : Canonical names target .dimensions others) :
      Canonical names target .dimensions
        (.node .arraySpecifier [.leaf opening, size, .leaf closing] :: others)

/-! ### First tokens -/

/-- The tokens do not start with one of the given words and marks. -/
def Avoids (marks : List String) (tokens : List Token) : Prop :=
  ∀ mark ∈ marks, tokens.head?.any (·.is mark) = false

instance (marks : List String) (tokens : List Token) : Decidable (Avoids marks tokens) :=
  inferInstanceAs (Decidable (∀ mark ∈ marks, tokens.head?.any (·.is mark) = false))

theorem Avoids.mono {marks fewer : List String} {tokens : List Token}
    (h : Avoids marks tokens) (part : fewer ⊆ marks) : Avoids fewer tokens :=
  fun mark listed => h mark (part listed)

theorem Avoids.append {marks : List String} {tokens : List Token}
    (h : Avoids marks tokens)
    (nonempty : tokens ≠ []) (more : List Token) : Avoids marks (tokens ++ more) := by
  obtain ⟨first, others, rfl⟩ := List.exists_cons_of_ne_nil nonempty
  exact h

theorem eq_of_is {token : Token} {text other : String} (h : token.is text)
    (h' : token.is other) :
    text = other := by
  simp only [Token.is, Bool.and_eq_true, decide_eq_true_eq] at h h'
  exact h.2.symm.trans h'.2

theorem is_eq_false_of_ne {token : Token} {text other : String} (h : token.is text)
    (apart : text ≠ other) : token.is other = false :=
  Bool.eq_false_iff.2 fun same => apart (eq_of_is h same)

theorem avoids_of_is {token : Token} {text : String} {marks : List String}
    (h : token.is text)
    (apart : text ∉ marks) (tokens : List Token) : Avoids marks (token :: tokens) :=
  fun _ listed => is_eq_false_of_ne h fun same => apart (same ▸ listed)

theorem avoids_of_isOneOf {token : Token} {texts marks : List String}
    (h : isOneOf texts token) (apart : ∀ text ∈ texts, text ∉ marks)
    (tokens : List Token) :
    Avoids marks (token :: tokens) := by
  obtain ⟨text, listed, is⟩ := List.any_eq_true.1 h
  exact avoids_of_is is (apart text listed) tokens

theorem is_eq_false {token : Token} (noWord : token.kind ≠ .keyword)
    (noMark : token.kind ≠ .punct) (text : String) : token.is text = false := by
  simp [Token.is, noWord, noMark]

theorem avoids_of_kind {token : Token} (noWord : token.kind ≠ .keyword)
    (noMark : token.kind ≠ .punct) (marks : List String) (tokens : List Token) :
    Avoids marks (token :: tokens) :=
  fun mark _ => is_eq_false noWord noMark mark

theorem avoids_of_isTypeWord {token : Token} {marks : List String}
    (h : Vocabulary.isTypeWord token.text)
    (apart : ∀ mark ∈ marks, Vocabulary.isTypeWord mark = false)
    (tokens : List Token) : Avoids marks (token :: tokens) := by
  intro mark listed
  refine Bool.eq_false_iff.2 fun same => ?_
  simp only [List.head?_cons, Option.any_some, Token.is, Bool.and_eq_true,
    decide_eq_true_eq] at same
  rw [same.2, apart mark listed] at h
  cases h

theorem kind_of_isLiteral {token : Token} (h : isLiteral token.kind) :
    token.kind ≠ .keyword ∧ token.kind ≠ .punct ∧ token.kind ≠ .identifier := by
  revert h
  cases token.kind <;> decide

/-- What an argument can start with: no closing mark, and no `void` in front of
one. -/
structure Begins (tokens : List Token) : Prop where
  nonempty : tokens ≠ []
  inside : Avoids [")", "]"] tokens
  notVoid : tokens.head?.any (·.is "void") →
    ∃ second, tokens[1]? = some second ∧ second.is ")" = false

theorem Begins.append {tokens : List Token} (h : Begins tokens) (more : List Token) :
    Begins (tokens ++ more) := by
  obtain ⟨first, others, rfl⟩ := List.exists_cons_of_ne_nil h.nonempty
  refine ⟨by simp, h.inside, fun isVoid => ?_⟩
  obtain ⟨second, found, apart⟩ := h.notVoid isVoid
  refine ⟨second, ?_, apart⟩
  rw [List.getElem?_append_left (List.getElem?_eq_some_iff.1 found).1, found]

theorem begins_of_avoids {token : Token} {tokens : List Token}
    (h : Avoids [")", "]", "void"] (token :: tokens)) : Begins (token :: tokens) := by
  refine ⟨by simp, h.mono (by simp), fun isVoid => ?_⟩
  rw [h "void" (by simp)] at isVoid
  cases isVoid

/-- Whether a part has a token of its own wherever it stands. -/
def Level.isTree : Level → Bool
  | .arguments => false
  | .dimensions => false
  | _ => true

namespace Canonical

variable {names : List String} {target level : Level} {trees : List Tree}

theorem exists_opening (h : Canonical names target .arguments trees) :
    ∃ opening tokens, Tree.leavesAll trees = opening :: tokens ∧ opening.is "(" := by
  cases h with
  | noArguments opens closes => exact ⟨_, _, rfl, opens⟩
  | voidArguments opens isVoid closes => exact ⟨_, _, rfl, opens⟩
  | someArguments opens inside closes => exact ⟨_, _, rfl, opens⟩

theorem dimensions_cases (h : Canonical names target .dimensions trees) :
    trees = [] ∨
      ∃ opening tokens, Tree.leavesAll trees = opening :: tokens ∧ opening.is "[" := by
  cases h with
  | noDimensions => exact Or.inl rfl
  | openDimension opens closes behind => exact Or.inr ⟨_, _, rfl, opens⟩
  | sizedDimension opens inside closes behind => exact Or.inr ⟨_, _, rfl, opens⟩

theorem begins_constructor {type : Token} {dimensions arguments : List Tree}
    (isType : (type.kind = .keyword ∧ Vocabulary.isTypeWord type.text) ∨
      type.kind = .identifier)
    (sized : Canonical names target .dimensions dimensions)
    (given : Canonical names target .arguments arguments) :
    Begins (type :: (Tree.leavesAll dimensions ++ Tree.leavesAll arguments)) := by
  rcases isType with ⟨isWord, isType⟩ | isName
  · refine ⟨by simp, avoids_of_isTypeWord isType (by decide) _, fun _ => ?_⟩
    obtain ⟨opening, tokens, shape, opens⟩ := given.exists_opening
    rcases sized.dimensions_cases with rfl | ⟨bracket, inside, shape', opens'⟩
    · exact ⟨opening, by simp [shape], is_eq_false_of_ne opens (by decide)⟩
    · exact ⟨bracket, by simp [shape'], is_eq_false_of_ne opens' (by decide)⟩
  · exact begins_of_avoids (avoids_of_kind (by simp [isName]) (by simp [isName]) _ _)

theorem begins (h : Canonical names (.binary 0) level trees) (isTree : level.isTree) :
    Begins (Tree.leavesAll trees) := by
  induction h with
  | expression inside ih => simpa using ih rfl
  | item only ih => exact ih rfl
  | items first isComma behind ih => simpa using (ih rfl).append _
  | value inside ih => simpa using ih rfl
  | store stored isOperator value ih => simpa using (ih rfl).append _
  | unconditional inside ih => exact ih rfl
  | choice tested isQuestion holds isColon fails ih => simpa using (ih rfl).append _
  | single inside ih => exact ih rfl
  | join strength tight before behind ih => simpa using (ih rfl).append _
  | unsigned inside ih => exact ih rfl
  | signed isOperator inside ih =>
    exact begins_of_avoids (avoids_of_isOneOf isOperator (by decide) _)
  | literal holds =>
    obtain ⟨noWord, noMark, -⟩ := kind_of_isLiteral holds
    exact begins_of_avoids (avoids_of_kind noWord noMark _ _)
  | name isName =>
    exact begins_of_avoids (avoids_of_kind (by simp [isName]) (by simp [isName]) _ _)
  | paren opens inside closes ih =>
    exact begins_of_avoids (avoids_of_is opens (by decide) _)
  | call isName given ih =>
    exact begins_of_avoids (avoids_of_kind (by simp [isName]) (by simp [isName]) _ _)
  | construct isType sized given ih =>
    simpa using begins_constructor (isType.imp_right And.left) sized given
  | apply called noName given ih => simpa using (ih rfl).append _
  | field owner isPoint isName ih => simpa using (ih rfl).append _
  | index owner noType opens inside closes ih => simpa using (ih rfl).append _
  | step stepped isOperator ih => simpa using (ih rfl).append _
  | noArguments => cases isTree
  | voidArguments => cases isTree
  | someArguments => cases isTree
  | noDimensions => cases isTree
  | openDimension => cases isTree
  | sizedDimension => cases isTree

/-- No operand starts with a sign. -/
theorem avoids_unaryOperators (h : Canonical names (.binary 0) level trees)
    (isOperand : level = .operand) :
    Avoids Vocabulary.unaryOperators (Tree.leavesAll trees) := by
  induction h with
  | literal holds =>
    obtain ⟨noWord, noMark, -⟩ := kind_of_isLiteral holds
    exact avoids_of_kind noWord noMark _ _
  | name isName => exact avoids_of_kind (by simp [isName]) (by simp [isName]) _ _
  | paren opens inside closes ih => exact avoids_of_is opens (by decide) _
  | call isName given ih => exact avoids_of_kind (by simp [isName]) (by simp [isName]) _ _
  | construct isType sized given ih =>
    rcases isType with ⟨-, isType⟩ | ⟨isName, -⟩
    · exact avoids_of_isTypeWord isType (by decide) _
    · exact avoids_of_kind (by simp [isName]) (by simp [isName]) _ _
  | apply called noName given ih =>
    simpa using (ih rfl).append (called.begins rfl).nonempty _
  | field owner isPoint isName ih =>
    simpa using (ih rfl).append (owner.begins rfl).nonempty _
  | index owner noType opens inside closes ih =>
    simpa using (ih rfl).append (owner.begins rfl).nonempty _
  | step stepped isOperator ih =>
    simpa using (ih rfl).append (stepped.begins rfl).nonempty _
  | _ => cases isOperand

end Canonical

end Grammar

end ShaderDialect
