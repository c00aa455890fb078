import ShaderDialect.Text.Position

/-!
# Tokens

A token is what the grammar sees: its number in the stream, its class and its
spelling. A lexeme is a token together with the place it was cut from, which
only error positions and the splicing of edits look at.
-/

namespace ShaderDialect

/-- The lexical classes. `finish` marks the end of the input. -/
inductive TokenKind where
  | identifier
  | keyword
  | intLiteral
  | uintLiteral
  | floatLiteral
  | boolLiteral
  | punct
  | finish
deriving DecidableEq

def TokenKind.name : TokenKind → String
  | .identifier => "Identifier"
  | .keyword => "Keyword"
  | .intLiteral => "IntLiteral"
  | .uintLiteral => "UintLiteral"
  | .floatLiteral => "FloatLiteral"
  | .boolLiteral => "BoolLiteral"
  | .punct => "Punct"
  | .finish => "Eof"

structure Token where
  index : Nat
  kind : TokenKind
  text : String
deriving DecidableEq

/-- Whether this is the given reserved word or punctuation mark. A name that
happens to be spelled the same does not count. -/
def Token.is (token : Token) (text : String) : Bool :=
  (token.kind = .keyword || token.kind = .punct) && token.text = text

/-- A token at its place: the half-open byte range `start`, `stop` of the
source, and the position of its first byte. -/
structure Lexeme extends Token where
  start : Nat
  stop : Nat
  position : Position
deriving DecidableEq

end ShaderDialect
