import ShaderDialect.Token.Basic

/-!
# Concrete trees

A tree keeps every token of its source as a leaf, in order, under nodes that
carry a grammatical kind. Nodes have no numbers of their own; the numbering by
order of completion is a view, in `Tree.Arena`.
-/

namespace ShaderDialect

/-- The grammatical kinds of nodes. -/
inductive NodeKind where
  | unit
  | functionDefinition
  | functionPrototype
  | parameterDeclaration
  | declaration
  | initDeclaratorList
  | declarator
  | interfaceBlock
  | fullySpecifiedType
  | layoutQualifier
  | typeSpecifier
  | arraySpecifier
  | structSpecifier
  | structMember
  | initializer
  | compoundStatement
  | expressionStatement
  | selectionStatement
  | switchStatement
  | caseLabel
  | whileStatement
  | doWhileStatement
  | forStatement
  | jumpStatement
  | expression
  | assignmentExpression
  | conditionalExpression
  | binaryExpression
  | unaryExpression
  | postfixExpression
  | fieldSelection
  | indexExpression
  | functionCall
  | primaryExpression
  | parenExpression
deriving DecidableEq

def NodeKind.name : NodeKind → String
  | .unit => "TranslationUnit"
  | .functionDefinition => "FunctionDefinition"
  | .functionPrototype => "FunctionPrototype"
  | .parameterDeclaration => "ParameterDeclaration"
  | .declaration => "Declaration"
  | .initDeclaratorList => "InitDeclaratorList"
  | .declarator => "Declarator"
  | .interfaceBlock => "InterfaceBlock"
  | .fullySpecifiedType => "FullySpecifiedType"
  | .layoutQualifier => "LayoutQualifier"
  | .typeSpecifier => "TypeSpecifier"
  | .arraySpecifier => "ArraySpecifier"
  | .structSpecifier => "StructSpecifier"
  | .structMember => "StructMember"
  | .initializer => "Initializer"
  | .compoundStatement => "CompoundStatement"
  | .expressionStatement => "ExpressionStatement"
  | .selectionStatement => "SelectionStatement"
  | .switchStatement => "SwitchStatement"
  | .caseLabel => "CaseLabel"
  | .whileStatement => "WhileStatement"
  | .doWhileStatement => "DoWhileStatement"
  | .forStatement => "ForStatement"
  | .jumpStatement => "JumpStatement"
  | .expression => "Expression"
  | .assignmentExpression => "AssignmentExpression"
  | .conditionalExpression => "ConditionalExpression"
  | .binaryExpression => "BinaryExpression"
  | .unaryExpression => "UnaryExpression"
  | .postfixExpression => "PostfixExpression"
  | .fieldSelection => "FieldSelection"
  | .indexExpression => "IndexExpression"
  | .functionCall => "FunctionCall"
  | .primaryExpression => "PrimaryExpression"
  | .parenExpression => "ParenExpression"

inductive Tree where
  | leaf (token : Token)
  | node (kind : NodeKind) (children : List Tree)

namespace Tree

def children : Tree → List Tree
  | .leaf _ => []
  | .node _ children => children

/-- The kind of a node; a leaf has none. -/
def kind? : Tree → Option NodeKind
  | .leaf _ => none
  | .node kind _ => some kind

/-- The token of a leaf. -/
def token? : Tree → Option Token
  | .leaf token => some token
  | .node _ _ => none

def isNode (tree : Tree) : Bool :=
  tree.kind?.isSome

def hasKind (tree : Tree) (kind : NodeKind) : Bool :=
  tree.kind? = some kind

/-- The children that are nodes, in order. -/
def childNodes (tree : Tree) : List Tree :=
  tree.children.filter isNode

/-- The tokens that hang directly under a node, in order. -/
def childTokens (tree : Tree) : List Token :=
  tree.children.filterMap token?

def findChild? (tree : Tree) (kind : NodeKind) : Option Tree :=
  tree.children.find? (·.hasKind kind)

/-- The first identifier that hangs directly under a node. -/
def identifier? (tree : Tree) : Option Token :=
  tree.childTokens.find? (·.kind = .identifier)

/-- Whether array dimensions hang directly under a node. -/
def isArray (tree : Tree) : Bool :=
  tree.children.any (·.hasKind .arraySpecifier)

mutual

/-- The tokens of a tree from left to right, in front of `rest`. -/
def leavesOnto : Tree → List Token → List Token
  | .leaf token, rest => token :: rest
  | .node _ children, rest => leavesAllOnto children rest

def leavesAllOnto : List Tree → List Token → List Token
  | [], rest => rest
  | tree :: trees, rest => leavesOnto tree (leavesAllOnto trees rest)

end

/-- The tokens of a tree from left to right. -/
def leaves (tree : Tree) : List Token :=
  tree.leavesOnto []

def leavesAll (trees : List Tree) : List Token :=
  leavesAllOnto trees []

mutual

theorem leavesOnto_append (before after : List Token) :
    ∀ tree : Tree, tree.leavesOnto (before ++ after) = tree.leavesOnto before ++ after
  | .leaf _ => rfl
  | .node _ children => leavesAllOnto_append before after children

theorem leavesAllOnto_append (before after : List Token) :
    ∀ trees : List Tree,
      leavesAllOnto trees (before ++ after) =
        leavesAllOnto trees before ++ after
  | [] => rfl
  | tree :: trees => by
    rw [leavesAllOnto, leavesAllOnto_append before after trees,
      leavesOnto_append _ after tree, leavesAllOnto]

end

@[simp] theorem leaves_leaf (token : Token) : (leaf token).leaves = [token] := rfl

@[simp] theorem leaves_node (kind : NodeKind) (children : List Tree) :
    (node kind children).leaves = leavesAll children := rfl

@[simp] theorem leavesAll_nil : leavesAll [] = [] := rfl

@[simp] theorem leavesAll_cons (tree : Tree) (trees : List Tree) :
    leavesAll (tree :: trees) = tree.leaves ++ leavesAll trees :=
  leavesOnto_append [] (leavesAll trees) tree

mutual

def firstToken? : Tree → Option Token
  | .leaf token => some token
  | .node _ children => firstTokenAll? children

def firstTokenAll? : List Tree → Option Token
  | [] => none
  | tree :: trees => (firstToken? tree).or (firstTokenAll? trees)

end

mutual

def lastToken? : Tree → Option Token
  | .leaf token => some token
  | .node _ children => lastTokenAll? children

def lastTokenAll? : List Tree → Option Token
  | [] => none
  | tree :: trees => (lastTokenAll? trees).or (lastToken? tree)

end

/-- The spellings of the tokens of a tree with nothing between them. -/
def text (tree : Tree) : String :=
  String.join (tree.leaves.map Token.text)

/-- The name that a type specifier gives, without array dimensions. A struct
without a name has none. -/
def typeName? (tree : Tree) : Option String :=
  match tree.children with
  | [] => none
  | .leaf token :: _ => some token.text
  | specifier :: _ => specifier.identifier?.map Token.text

/-- The function or type that a call names. A call on a selected member names
none. -/
def callName? (tree : Tree) : Option String :=
  match tree.children with
  | [] => none
  | .leaf token :: _ => some token.text
  | callee :: _ => if callee.hasKind .typeSpecifier then callee.typeName? else none

/-- The argument expressions of a call, in order. -/
def arguments (tree : Tree) : List Tree :=
  tree.children.filter (·.hasKind .assignmentExpression)

end Tree

end ShaderDialect
