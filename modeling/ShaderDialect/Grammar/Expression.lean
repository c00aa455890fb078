import ShaderDialect.Grammar.Production

/-!
# Expressions

Each tier of the expression grammar is a production over `inner`, which reads
the tiers one level of nesting further in. Every use of `inner` comes after a
token, so the tokens that are left bound the nesting: `tier` starts with that
many levels, and where none is left the input is at its end and no expression
follows.
-/

namespace ShaderDialect.Grammar

/-- The tiers that an expression refers back to. -/
inductive Tier where
  | unary
  | conditional
  | assignment

namespace Expression

/-- Comma-separated assignment expressions. -/
def expression (inner : Tier → Production) : Production :=
  node .expression (commaList (inner .assignment))

/-- An array dimension, with or without a size. -/
def arraySpecifier (size : Production) : Production :=
  node .arraySpecifier (seq [mark "[", optional (! ·.sees "]") size, mark "]"])

def arraySpecifiers (size : Production) : Production :=
  many (·.sees "[") (arraySpecifier size)

def isLiteral (kind : TokenKind) : Bool :=
  kind = .intLiteral || kind = .uintLiteral || kind = .floatLiteral || kind = .boolLiteral

/-- The name of a type that is built by a call, such as an array type. -/
def constructor (inner : Tier → Production) : Production := fun s =>
  node .typeSpecifier
    (seq [take .typeName s.isTypeName, arraySpecifiers (inner .conditional)]) s

/-- A literal, a name, a call of a function or constructor, or an expression
in parentheses. A name before a parenthesis is a call even when it names a
type, and a type name before a bracket is an array constructor. -/
def primary (inner : Tier → Production) : Production := look fun s =>
  if s.rest.head?.any (isLiteral ·.kind) then
    node .primaryExpression (take .expression (isLiteral ·.kind))
  else if s.seesKind .identifier && s.seesSecond "(" then
    node .functionCall (seq [identifier, parenList (inner .assignment)])
  else if s.seesKind .identifier && ! (s.seesTypeName && s.seesSecond "[") then
    node .primaryExpression identifier
  else if s.seesTypeName then
    node .functionCall (seq [constructor inner, parenList (inner .assignment)])
  else if s.sees "(" then
    node .parenExpression (seq [mark "(", expression inner, mark ")"])
  else
    fail .expression

/-- What may follow an operand: a member, an index, a call or a step. -/
def suffix (inner : Tier → Production) (s : State) : Option (NodeKind × Production) :=
  if s.sees "." then some (.fieldSelection, seq [mark ".", identifier])
  else if s.sees "[" then some (.indexExpression, seq [mark "[", expression inner, mark "]"])
  else if s.sees "(" then some (.functionCall, parenList (inner .assignment))
  else if s.sees "++" then some (.postfixExpression, mark "++")
  else if s.sees "--" then some (.postfixExpression, mark "--")
  else none

def operand (inner : Tier → Production) : Production :=
  extend (primary inner) (suffix inner)

def isOneOf (marks : List String) (token : Token) : Bool :=
  marks.any token.is

def unary (inner : Tier → Production) : Production := look fun s =>
  if s.seesAny Vocabulary.unaryOperators then
    node .unaryExpression
      (seq [take .expression (isOneOf Vocabulary.unaryOperators), inner .unary])
  else operand inner

/-- How an operand goes on with an operator of one row, and with another operand
behind it. -/
def joining (row : List String) (operand : Production) (s : State) :
    Option (NodeKind × Production) :=
  if s.seesAny row then
    some (.binaryExpression, seq [take .expression (isOneOf row), operand])
  else none

/-- How an operand goes on with an operator of the given rows, the weakest row
first. The operand behind an operator is joined by tighter rows only. -/
def climb (inner : Tier → Production) :
    List (List String) → State → Option (NodeKind × Production)
  | [], _ => none
  | row :: tighter, s =>
    (climb inner tighter s).or (joining row (extend (unary inner) (climb inner tighter)) s)

/-- Operands joined by the operators of the given rows, one after the other for
as long as the next operator is in one of them. -/
def binary (inner : Tier → Production) (rows : List (List String)) : Production :=
  extend (unary inner) (climb inner rows)

/-- A node of its own only where a question mark follows. -/
def conditional (inner : Tier → Production) : Production := do
  let condition ← binary inner Vocabulary.binaryOperators
  look fun s =>
    if s.sees "?" then
      wrap .conditionalExpression condition
        (seq [mark "?", expression inner, mark ":", inner .assignment])
    else pure condition

/-- A node of its own with or without an operator. -/
def assignment (inner : Tier → Production) : Production :=
  node .assignmentExpression
    (seq
      [conditional inner,
        optional (·.seesAny Vocabulary.assignmentOperators)
          (seq [take .expression (isOneOf Vocabulary.assignmentOperators), inner .assignment])])

/-- One tier with at most `depth` levels of nesting. -/
def nested : Nat → Tier → Production
  | 0, _, s => fail .expression s
  | depth + 1, .unary, s => unary (nested depth) s
  | depth + 1, .conditional, s => conditional (nested depth) s
  | depth + 1, .assignment, s => assignment (nested depth) s

end Expression

/-- One tier of the expression grammar. -/
def tier (t : Tier) : Production :=
  look fun s => Expression.nested s.left t

def conditional : Production :=
  tier .conditional

def assignment : Production :=
  tier .assignment

def expression : Production :=
  Expression.expression tier

end ShaderDialect.Grammar
