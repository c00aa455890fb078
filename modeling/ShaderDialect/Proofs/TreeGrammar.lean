import ShaderDialect.Grammar.Statement

/-!
# The grammar of trees

`NodeKind.form` says which children a node of each kind may have, as a regular
form over token classes and node kinds. A tree is grammatical when every node
of it has children of its form. What the productions look ahead at is not part
of a form: it decides which tree a token list has, not which trees there are.
-/

namespace ShaderDialect

/-- Sets of tokens that the grammar tells apart. -/
inductive TokenClass where
  | oneOf (marks : List String)
  | identifier
  | literal
  | qualifier
  | typeName
  | any
deriving DecidableEq

def TokenClass.admits : TokenClass → Token → Bool
  | .oneOf marks, token => marks.any token.is
  | .identifier, token => token.kind = .identifier
  | .literal, token => Grammar.Expression.isLiteral token.kind
  | .qualifier, token =>
    (token.kind = .keyword && Vocabulary.isQualifierWord token.text) ||
      (token.kind = .identifier && Vocabulary.isContextualQualifier token.text)
  | .typeName, token =>
    (token.kind = .keyword && Vocabulary.isTypeWord token.text) ||
      token.kind = .identifier
  | .any, _ => true

/-- What may be applied to a suffix: a name, a literal, a call, or any of these
with suffixes. -/
def NodeKind.postfixKinds : List NodeKind :=
  [.primaryExpression, .parenExpression, .functionCall, .fieldSelection, .indexExpression,
    .postfixExpression]

def NodeKind.unaryKinds : List NodeKind :=
  .unaryExpression :: postfixKinds

def NodeKind.conditionalKinds : List NodeKind :=
  .conditionalExpression :: .binaryExpression :: unaryKinds

/-- Lists of sibling trees. -/
inductive Form where
  | empty
  | token (tokens : TokenClass)
  | node (kinds : List NodeKind)
  /-- A node that starts with a token. -/
  | headed (kind : NodeKind) (tokens : TokenClass)
  /-- An operand, or operands joined by an operator of the given rows. -/
  | joined (rows : List (List String))
  | seq (first second : Form)
  | either (one other : Form)
  | many (item : Form)
deriving DecidableEq

namespace Form

/-- Whether a tree is an operand, or operands joined by one of the rows. -/
def IsJoined (rows : List (List String)) : Tree → Prop
  | .leaf _ => False
  | .node kind children =>
    kind ∈ NodeKind.unaryKinds ∨
      kind = .binaryExpression ∧
        ∃ left operator right, children = [left, .leaf operator, right] ∧
          rows.flatten.any operator.is

def Matches : Form → List Tree → Prop
  | .empty, trees => trees = []
  | .token tokens, trees => ∃ token, trees = [.leaf token] ∧ tokens.admits token
  | .node kinds, trees => ∃ kind children, trees = [.node kind children] ∧ kind ∈ kinds
  | .headed kind tokens, trees => ∃ token children,
    trees = [.node kind (.leaf token :: children)] ∧ tokens.admits token
  | .joined rows, trees => ∃ tree, trees = [tree] ∧ IsJoined rows tree
  | .seq first second, trees =>
    ∃ before after, trees = before ++ after ∧ first.Matches before ∧ second.Matches after
  | .either one other, trees => one.Matches trees ∨ other.Matches trees
  | .many item, trees =>
    ∃ parts : List (List Tree), trees = parts.flatten ∧ ∀ part ∈ parts, item.Matches part

/-- One form after the other. -/
def all : List Form → Form
  | [] => .empty
  | form :: forms => .seq form (all forms)

/-- One of several forms. -/
def anyOf : List Form → Form
  | [] => .node []
  | form :: forms => .either form (anyOf forms)

def optional (form : Form) : Form :=
  .either form .empty

def mark (text : String) : Form :=
  .token (.oneOf [text])

def commaList (item : Form) : Form :=
  all [item, .many (all [mark ",", item])]

def parenList (item : Form) : Form :=
  all [mark "(", anyOf [mark "void", .empty, commaList item], mark ")"]

def arraySpecifiers : Form :=
  .many (.node [.arraySpecifier])

def qualifiers : Form :=
  .many (.either (.node [.layoutQualifier]) (.token .qualifier))

def parenthesized : Form :=
  all [mark "(", .node [.expression], mark ")"]

/-- A name with array dimensions. -/
def dimensionedName : Form :=
  all [.token .identifier, arraySpecifiers]

/-- A binary expression for each row: its left operand is joined by this row
or a tighter one, its right operand by a tighter one. -/
def binaryRows : List (List String) → List Form
  | [] => []
  | row :: tighter =>
    all [.joined (row :: tighter), .token (.oneOf row), .joined tighter] :: binaryRows tighter

def statementKinds : List NodeKind :=
  [.compoundStatement, .selectionStatement, .switchStatement, .caseLabel, .whileStatement,
    .doWhileStatement, .forStatement, .jumpStatement, .declaration, .expressionStatement]

theorem IsJoined.cons {rows : List (List String)} {tree : Tree} (h : IsJoined rows tree)
    (row : List String) : IsJoined (row :: rows) tree := by
  cases tree with
  | leaf token => exact h
  | node kind children =>
    rcases h with operand | ⟨binary, left, operator, right, shape, listed⟩
    · exact Or.inl operand
    · refine Or.inr ⟨binary, left, operator, right, shape, ?_⟩
      rw [List.flatten_cons, List.any_append, listed, Bool.or_true]

/-- Joined operands are one node of the conditional tier. -/
theorem node_of_joined {rows : List (List String)} {trees : List Tree}
    (h : (joined rows).Matches trees) :
    (node NodeKind.conditionalKinds).Matches trees := by
  obtain ⟨tree, rfl, isJoined⟩ := h
  cases tree with
  | leaf token => exact isJoined.elim
  | node kind children =>
    refine ⟨kind, children, rfl, ?_⟩
    rcases isJoined with operand | ⟨rfl, -⟩
    · simp [NodeKind.conditionalKinds, operand]
    · simp [NodeKind.conditionalKinds]

theorem matches_anyOf {form : Form} {forms : List Form} (listed : form ∈ forms)
    {trees : List Tree} (h : form.Matches trees) : (anyOf forms).Matches trees := by
  induction forms with
  | nil => cases listed
  | cons one others ih =>
    rcases List.mem_cons.1 listed with rfl | later
    · exact Or.inl h
    · exact Or.inr (ih later)

theorem mem_binaryRows {row : List String} {tighter rows : List (List String)}
    (h : row :: tighter <:+ rows) :
    all [.joined (row :: tighter), .token (.oneOf row), .joined tighter] ∈
      binaryRows rows := by
  induction rows with
  | nil => simp at h
  | cons first others ih =>
    rcases List.suffix_cons_iff.1 h with same | later
    · cases same
      exact List.mem_cons_self
    · exact List.mem_cons_of_mem _ (ih later)

end Form

open Form in
/-- The children that a node of each kind may have. -/
def NodeKind.form : NodeKind → Form
  | .unit => .many (.node [.declaration, .functionDefinition])
  | .functionDefinition => all [.node [.functionPrototype], .node [.compoundStatement]]
  | .functionPrototype =>
    all [.node [.fullySpecifiedType], .token .identifier, parenList (.node [.parameterDeclaration])]
  | .parameterDeclaration =>
    all [qualifiers, .node [.typeSpecifier], optional dimensionedName]
  | .declaration =>
    anyOf
      [mark ";",
       all [mark "precision", optional (.token .qualifier), .node [.typeSpecifier], mark ";"],
       all [.node [.interfaceBlock, .functionPrototype, .initDeclaratorList], mark ";"]]
  | .initDeclaratorList =>
    all [.node [.fullySpecifiedType], optional (commaList (.node [.declarator]))]
  | .declarator =>
    all
      [.token .identifier, arraySpecifiers, optional (all [mark "=", .node [.initializer]])]
  | .interfaceBlock =>
    all
      [qualifiers, .token .identifier, mark "\x7b", .many (.node [.structMember]),
       mark "\x7d", optional dimensionedName]
  | .fullySpecifiedType => all [qualifiers, .node [.typeSpecifier]]
  | .layoutQualifier =>
    all
      [mark "layout", mark "(",
        .many (.either (all [mark "=", .node conditionalKinds]) (.token .any)), mark ")"]
  | .typeSpecifier =>
    all [.either (.node [.structSpecifier]) (.token .typeName), arraySpecifiers]
  | .arraySpecifier => all [mark "[", optional (.node conditionalKinds), mark "]"]
  | .structSpecifier =>
    all
      [mark "struct", optional (.token .identifier), mark "\x7b",
       .many (.node [.structMember]), mark "\x7d"]
  | .structMember =>
    all [qualifiers, .node [.typeSpecifier], commaList dimensionedName, mark ";"]
  | .initializer =>
    .either
      (all
        [mark "\x7b",
          optional
            (all
              [.node [.initializer],
                .many (all [mark ",", optional (.node [.initializer])])]),
          mark "\x7d"])
      (.node [.assignmentExpression])
  | .compoundStatement => all [mark "\x7b", .many (.node statementKinds), mark "\x7d"]
  | .expressionStatement => all [optional (.node [.expression]), mark ";"]
  | .selectionStatement =>
    all
      [mark "if", parenthesized, .node statementKinds,
        optional (all [mark "else", .node statementKinds])]
  | .switchStatement => all [mark "switch", parenthesized, .node [.compoundStatement]]
  | .caseLabel =>
    .either (all [mark "case", .node [.expression], mark ":"]) (all [mark "default", mark ":"])
  | .whileStatement => all [mark "while", parenthesized, .node statementKinds]
  | .doWhileStatement =>
    all [mark "do", .node statementKinds, mark "while", parenthesized, mark ";"]
  | .forStatement =>
    all
      [mark "for", mark "(", .node [.declaration, .expressionStatement],
        optional (.node [.expression]), mark ";", optional (.node [.expression]),
        mark ")", .node statementKinds]
  | .jumpStatement =>
    .either (all [mark "return", optional (.node [.expression]), mark ";"])
      (all [.token (.oneOf ["break", "continue", "discard"]), mark ";"])
  | .expression => commaList (.node [.assignmentExpression])
  | .assignmentExpression =>
    all
      [.node conditionalKinds,
        optional
          (all [.token (.oneOf Vocabulary.assignmentOperators), .node [.assignmentExpression]])]
  | .conditionalExpression =>
    all
      [.joined Vocabulary.binaryOperators, mark "?", .node [.expression], mark ":",
        .node [.assignmentExpression]]
  | .binaryExpression => anyOf (binaryRows Vocabulary.binaryOperators)
  | .unaryExpression => all [.token (.oneOf Vocabulary.unaryOperators), .node unaryKinds]
  | .postfixExpression => all [.node postfixKinds, .token (.oneOf ["++", "--"])]
  | .fieldSelection => all [.node postfixKinds, mark ".", .token .identifier]
  | .indexExpression => all [.node postfixKinds, mark "[", .node [.expression], mark "]"]
  | .functionCall =>
    all
      [anyOf [.token .identifier, .headed .typeSpecifier .typeName, .node postfixKinds],
        parenList (.node [.assignmentExpression])]
  | .primaryExpression => .either (.token .literal) (.token .identifier)
  | .parenExpression => parenthesized

/-- Every node has children of its form. -/
inductive Tree.Grammatical : Tree → Prop where
  | leaf (token : Token) : Grammatical (.leaf token)
  | node {kind : NodeKind} {children : List Tree} (form : kind.form.Matches children)
      (below : ∀ child ∈ children, Grammatical child) : Grammatical (.node kind children)

namespace Form

/-- The kinds of nodes that a form mentions. -/
def kinds : Form → List NodeKind
  | .empty => []
  | .token _ => []
  | .node kinds => kinds
  | .headed kind _ => [kind]
  | .joined _ => .binaryExpression :: NodeKind.unaryKinds
  | .seq first second => first.kinds ++ second.kinds
  | .either one other => one.kinds ++ other.kinds
  | .many item => item.kinds

/-- The classes of tokens that a form mentions. -/
def tokens : Form → List TokenClass
  | .token tokens => [tokens]
  | .seq first second => first.tokens ++ second.tokens
  | .either one other => one.tokens ++ other.tokens
  | .many item => item.tokens
  | _ => []

/-- Whether a form mentions the kind of a node, or a class of a token. -/
def Mentions (form : Form) : Tree → Prop
  | .leaf read => ∃ tokens ∈ form.tokens, tokens.admits read
  | .node kind _ => kind ∈ form.kinds

/-- Whether no tree at all is of a form. -/
def nullable : Form → Bool
  | .empty => true
  | .token _ => false
  | .node _ => false
  | .headed _ _ => false
  | .joined _ => false
  | .seq first second => first.nullable && second.nullable
  | .either one other => one.nullable || other.nullable
  | .many _ => true

theorem Mentions.mono {form wider : Form} {tree : Tree} (h : form.Mentions tree)
    (kinds : form.kinds ⊆ wider.kinds) (tokens : form.tokens ⊆ wider.tokens) :
    wider.Mentions tree := by
  cases tree with
  | leaf token =>
    obtain ⟨admitting, listed, admitted⟩ := h
    exact ⟨admitting, tokens listed, admitted⟩
  | node kind children => exact kinds h

/-- A form mentions every tree of its lists. -/
theorem mentions_of_mem {form : Form} {trees : List Tree} (h : form.Matches trees)
    {tree : Tree} (member : tree ∈ trees) : form.Mentions tree := by
  induction form generalizing trees with
  | empty => simp_all [Matches]
  | token tokens =>
    obtain ⟨token, rfl, admitted⟩ := h
    rw [List.mem_singleton.1 member]
    exact ⟨tokens, List.mem_singleton_self _, admitted⟩
  | node kinds =>
    obtain ⟨kind, children, rfl, listed⟩ := h
    rw [List.mem_singleton.1 member]
    exact listed
  | headed kind tokens =>
    obtain ⟨token, children, rfl, -⟩ := h
    rw [List.mem_singleton.1 member]
    exact List.mem_singleton_self _
  | joined rows =>
    obtain ⟨joined, rfl, isJoined⟩ := h
    rw [List.mem_singleton.1 member]
    cases joined with
    | leaf token => exact isJoined.elim
    | node kind children =>
      rcases isJoined with operand | ⟨rfl, -⟩
      · exact List.mem_cons_of_mem _ operand
      · exact List.mem_cons_self
  | seq first second ihFirst ihSecond =>
    obtain ⟨before, after, rfl, left, right⟩ := h
    rcases List.mem_append.1 member with member | member
    · exact (ihFirst left member).mono (List.subset_append_left _ _) (List.subset_append_left _ _)
    · exact (ihSecond right member).mono (List.subset_append_right _ _)
        (List.subset_append_right _ _)
  | either one other ihOne ihOther =>
    rcases h with h | h
    · exact (ihOne h member).mono (List.subset_append_left _ _) (List.subset_append_left _ _)
    · exact (ihOther h member).mono (List.subset_append_right _ _) (List.subset_append_right _ _)
  | many item ih =>
    obtain ⟨runs, rfl, matched⟩ := h
    obtain ⟨run, listed, member⟩ := List.mem_flatten.1 member
    exact (ih (matched run listed) member).mono (List.Subset.refl _) (List.Subset.refl _)

theorem nullable_of_matches {form : Form} (h : form.Matches []) : form.nullable := by
  induction form with
  | empty => rfl
  | token tokens => simp [Matches] at h
  | node kinds => simp [Matches] at h
  | headed kind tokens => simp [Matches] at h
  | joined rows => simp [Matches] at h
  | seq first second ihFirst ihSecond =>
    obtain ⟨before, after, none, left, right⟩ := h
    obtain ⟨rfl, rfl⟩ := List.nil_eq_append_iff.1 none
    simp [nullable, ihFirst left, ihSecond right]
  | either one other ihOne ihOther =>
    rcases h with h | h
    · simp [nullable, ihOne h]
    · simp [nullable, ihOther h]
  | many item ih => rfl

end Form

theorem NodeKind.unit_notMem_kinds (kind : NodeKind) : .unit ∉ kind.form.kinds := by
  cases kind <;> decide

theorem NodeKind.form_nullable {kind : NodeKind} (h : kind.form.nullable) :
    kind = .unit := by
  revert h
  cases kind <;> decide

namespace Tree

mutual

/-- Trees can be compared. -/
def decEq : (a b : Tree) → Decidable (a = b)
  | .leaf token, .leaf token' => decidable_of_iff (token = token') (by simp)
  | .node kind children, .node kind' children' =>
    have := decEqAll children children'
    decidable_of_iff (kind = kind' ∧ children = children') (by simp)
  | .leaf _, .node _ _ => isFalse nofun
  | .node _ _, .leaf _ => isFalse nofun

def decEqAll : (as bs : List Tree) → Decidable (as = bs)
  | [], [] => isTrue rfl
  | a :: as, b :: bs =>
    have := decEq a b
    have := decEqAll as bs
    decidable_of_iff (a = b ∧ as = bs) (by simp)
  | [], _ :: _ => isFalse nofun
  | _ :: _, [] => isFalse nofun

end

instance : DecidableEq Tree := decEq

/-- Only an empty shader has no tokens. -/
theorem Grammatical.leaves_ne_nil {tree : Tree} (h : tree.Grammatical)
    (inside : tree.kind? ≠ some .unit) : tree.leaves ≠ [] := by
  induction h with
  | leaf token => simp
  | @node kind children form below ih =>
    cases children with
    | nil =>
      exact absurd (congrArg some (NodeKind.form_nullable (Form.nullable_of_matches form))) inside
    | cons first others =>
      have first_ne : first.leaves ≠ [] := by
        refine ih first List.mem_cons_self fun isUnit => ?_
        cases first with
        | leaf token => simp [kind?] at isUnit
        | node kind' grandchildren =>
          cases isUnit
          exact kind.unit_notMem_kinds (Form.mentions_of_mem form List.mem_cons_self)
      simp [first_ne]

end Tree

end ShaderDialect
