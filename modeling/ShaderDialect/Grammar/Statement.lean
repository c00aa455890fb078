import ShaderDialect.Grammar.Declaration

/-!
# Statements

Statements nest through `inner`, always behind a token, so that the tokens
that are left bound the nesting.
-/

namespace ShaderDialect.Grammar

/-- Whether the statement that starts here declares something. -/
def State.seesDeclaration (s : State) : Bool :=
  if s.sees "struct" || s.sees "precision" || s.sees "layout" then true
  else if s.seesQualifier then true
  else if s.seesTypeName then ! s.seesSecond "("
  else s.seesKind .identifier && (s.rest[1]?).any (·.kind = .identifier)

def parenthesized (p : Production) : Production :=
  seq [mark "(", p, mark ")"]

def expressionStatement : Production :=
  node .expressionStatement (seq [optional (! ·.sees ";") expression, mark ";"])

/-- Jumps out of a loop or function. Only `return` takes a value. -/
def jumpStatement : Production :=
  node .jumpStatement (look fun s =>
    if s.sees "return" then
      seq [mark "return", optional (! ·.sees ";") expression, mark ";"]
    else
      seq [take (.mark ";") fun _ => true, mark ";"])

def caseLabel : Production :=
  node .caseLabel (look fun s =>
    if s.sees "case" then seq [mark "case", expression, mark ":"]
    else seq [mark "default", mark ":"])

namespace Statement

def compound (inner : Production) : Production :=
  node .compoundStatement
    (seq [mark "\x7b", many (·.isBefore "\x7d") inner, mark "\x7d"])

def selection (inner : Production) : Production :=
  node .selectionStatement
    (seq
      [mark "if", parenthesized expression, inner,
        optional (·.sees "else") (seq [mark "else", inner])])

def switchStatement (inner : Production) : Production :=
  node .switchStatement (seq [mark "switch", parenthesized expression, compound inner])

def whileLoop (inner : Production) : Production :=
  node .whileStatement (seq [mark "while", parenthesized expression, inner])

def doLoop (inner : Production) : Production :=
  node .doWhileStatement
    (seq [mark "do", inner, mark "while", parenthesized expression, mark ";"])

def forLoop (inner : Production) : Production :=
  node .forStatement
    (seq
      [mark "for", mark "(",
        look fun s => if s.seesDeclaration then declaration none else expressionStatement,
        optional (! ·.sees ";") expression, mark ";",
        optional (! ·.sees ")") expression, mark ")",
        inner])

def statement (inner : Production) : Production := look fun s =>
  if s.sees "\x7b" then compound inner
  else if s.sees "if" then selection inner
  else if s.sees "switch" then switchStatement inner
  else if s.sees "case" || s.sees "default" then caseLabel
  else if s.sees "while" then whileLoop inner
  else if s.sees "do" then doLoop inner
  else if s.sees "for" then forLoop inner
  else if s.seesAny ["return", "break", "continue", "discard"] then jumpStatement
  else if s.seesDeclaration then declaration none
  else expressionStatement

/-- A statement with at most `depth` levels of nesting. -/
def nested : Nat → Production
  | 0, s => fail .expression s
  | depth + 1, s => statement (nested depth) s

end Statement

def statement : Production :=
  look fun s => Statement.nested s.left

def compoundStatement : Production :=
  Statement.compound statement

/-- Declarations and function definitions up to the end of the input. -/
def unit : Parser Tree := do
  let declarations ← many (! ·.atEnd) (declaration (some compoundStatement))
  return .node .unit declarations

end ShaderDialect.Grammar
