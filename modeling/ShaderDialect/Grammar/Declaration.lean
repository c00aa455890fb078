import ShaderDialect.Grammar.Expression

/-!
# Types and declarations

Qualifiers, type specifiers, struct members, prototypes, declarators and
interface blocks. A struct may hold structs and an initializer may hold
initializers; as with expressions, the tokens that are left bound the nesting.
-/

namespace ShaderDialect.Grammar

def arraySpecifier : Production :=
  Expression.arraySpecifier conditional

def arraySpecifiers : Production :=
  Expression.arraySpecifiers conditional

/-- A name with its dimensions. -/
def dimensionedName : Production :=
  seq [identifier, arraySpecifiers]

/-- Whatever stands between the parentheses of a layout is kept; a value
after an equals sign is read as an expression. -/
def layoutItem : Production := look fun s =>
  if s.sees "=" then seq [mark "=", conditional] else take (.mark ")") fun _ => true

def layoutQualifier : Production :=
  node .layoutQualifier
    (seq [mark "layout", mark "(", many (·.isBefore ")") layoutItem, mark ")"])

def qualifier : Production := look fun s =>
  if s.sees "layout" then layoutQualifier else take .typeName fun _ => true

/-- Qualifiers in any order. -/
def qualifiers : Production :=
  many State.seesQualifier qualifier

namespace TypeSpecifier

/-- Members of one type; `inner` reads the type. -/
def structMember (inner : Production) : Production :=
  node .structMember
    (seq [qualifiers, inner, commaList dimensionedName, mark ";"])

def structSpecifier (inner : Production) : Production :=
  node .structSpecifier
    (seq
      [mark "struct", optional (·.seesKind .identifier) newTypeName, mark "\x7b",
        many (·.isBefore "\x7d") (structMember inner), mark "\x7d"])

/-- A struct or a name, then array dimensions. Any identifier may stand for a
type. -/
def typeSpecifier (inner : Production) : Production :=
  node .typeSpecifier
    (seq
      [look fun s =>
          if s.sees "struct" then structSpecifier inner
          else take .typeName fun token => s.isTypeName token || token.kind = .identifier,
        arraySpecifiers])

/-- A type specifier with at most `depth` levels of structs. -/
def nested : Nat → Production
  | 0, s => fail .typeName s
  | depth + 1, s => typeSpecifier (nested depth) s

end TypeSpecifier

def typeSpecifier : Production :=
  look fun s => TypeSpecifier.nested s.left

def structMember : Production :=
  TypeSpecifier.structMember typeSpecifier

def fullySpecifiedType : Production :=
  node .fullySpecifiedType (seq [qualifiers, typeSpecifier])

def parameter : Production :=
  node .parameterDeclaration
    (seq
      [qualifiers, typeSpecifier, optional (·.seesKind .identifier) dimensionedName])

/-- A prototype behind its result type. -/
def functionPrototype (type : List Tree) : Production :=
  wrap .functionPrototype type (seq [identifier, parenList parameter])

namespace Initializer

/-- A comma, and behind it an initializer or the closing brace. -/
def nextItem (inner : Production) : Production :=
  seq [mark ",", optional (·.isBefore "\x7d") inner]

/-- An expression, or initializers between braces, where the last one may
have a comma behind it. -/
def initializer (inner : Production) : Production :=
  node .initializer (look fun s =>
    if s.sees "\x7b" then
      seq
        [mark "\x7b",
          optional (·.isBefore "\x7d")
            (seq [inner, many (·.sees ",") (nextItem inner)]),
          mark "\x7d"]
    else assignment)

/-- An initializer with at most `depth` levels of braces. -/
def nested : Nat → Production
  | 0, s => fail .expression s
  | depth + 1, s => initializer (nested depth) s

end Initializer

def initializer : Production :=
  look fun s => Initializer.nested s.left

def declarator : Production :=
  node .declarator
    (seq
      [identifier, arraySpecifiers, optional (·.sees "=") (seq [mark "=", initializer])])

/-- The declarators behind a type, or none. -/
def initDeclaratorList (type : List Tree) : Production :=
  wrap .initDeclaratorList type (optional (! ·.sees ";") (commaList declarator))

/-- Whether qualifiers, a name and an opening brace come next. `depth` counts
the open parentheses of a layout; `qualified` says that a qualifier was seen. -/
def isBlockHead (s : State) : (depth : Nat) → (qualified : Bool) → List Token → Bool
  | _, _, [] => false
  | depth + 1, qualified, token :: rest =>
    if token.is "(" then isBlockHead s (depth + 2) qualified rest
    else if token.is ")" then isBlockHead s depth qualified rest
    else isBlockHead s (depth + 1) qualified rest
  | 0, qualified, token :: rest =>
    if token.is "layout" then
      match rest with
      | [] => false
      | opening :: inside =>
        if opening.is "(" then isBlockHead s 1 true inside
        else isBlockHead s 0 true (opening :: inside)
    else if s.isQualifier token rest.head? then isBlockHead s 0 true rest
    else qualified && token.kind = .identifier && rest.head?.any (·.is "\x7b")

def State.seesInterfaceBlock (s : State) : Bool :=
  isBlockHead s 0 false s.rest

def interfaceBlock : Production :=
  node .interfaceBlock
    (seq
      [qualifiers, newTypeName, mark "\x7b", many (·.isBefore "\x7d") structMember,
        mark "\x7d", optional (·.seesKind .identifier) dimensionedName])

/-- The default precision of a type. -/
def precisionStatement : Production :=
  seq
    [mark "precision",
      optional
        (·.rest.head?.any fun token =>
          token.kind = .keyword && Vocabulary.isQualifierWord token.text)
        (take .typeName fun _ => true),
      typeSpecifier, mark ";"]

/-- A declaration. Where `body` is given, a prototype may go on with a
function body. -/
def declaration (body : Option Production) : Production := look fun s =>
  if s.sees ";" then node .declaration (mark ";")
  else if s.sees "precision" then node .declaration precisionStatement
  else if s.seesInterfaceBlock then node .declaration (seq [interfaceBlock, mark ";"])
  else do
    let type ← fullySpecifiedType
    look fun s =>
      if s.seesKind .identifier && s.seesSecond "(" then do
        let prototype ← functionPrototype type
        look fun s =>
          match body with
          | some body =>
            if s.sees "\x7b" then wrap .functionDefinition prototype body
            else wrap .declaration prototype (mark ";")
          | none => wrap .declaration prototype (mark ";")
      else do
        let list ← initDeclaratorList type
        wrap .declaration list (mark ";")

end ShaderDialect.Grammar
