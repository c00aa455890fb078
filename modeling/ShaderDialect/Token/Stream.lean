import ShaderDialect.Error
import ShaderDialect.Token.Hidden
import ShaderDialect.Token.Scan

/-!
# Token streams

A source text is cut into lexemes, with hidden text between them. The stream
keeps the lexemes and, apart from them, the mark at the end of the input,
whose number is the number of lexemes.
-/

namespace ShaderDialect

structure TokenStream where
  lexemes : List Lexeme
  finish : Lexeme

namespace TokenStream

/-- The lexemes of `cs`, which starts at byte `offset` of its source and is
numbered from `index`. -/
def lexemesFrom (table : LineTable) (index offset : Nat) (cs : List Char) :
    Except SyntaxError (List Lexeme) :=
  let start := offset + byteSize (Hidden.skip cs).1
  match h : (Hidden.skip cs).2 with
  | [] => .ok []
  | c :: visible =>
    let table := table.advance start
    let position := table.position start
    match found : Token.scan? (c :: visible) with
    | none => .error ⟨position, .unexpectedCharacter c⟩
    | some (kind, read, rest) =>
      have : rest.length < cs.length :=
        Nat.lt_of_lt_of_le (Token.scan?_length found) (h ▸ Hidden.length_skip_le cs)
      let stop := start + byteSize read
      let lexeme : Lexeme :=
        { index, kind, text := String.ofList read, start, stop, position }
      (lexemesFrom table (index + 1) stop rest).map (lexeme :: ·)
termination_by cs.length

/-- Cut a source text into tokens. The only fault is a character that starts
none. -/
def ofSource (source : String) : Except SyntaxError TokenStream := do
  let cs := source.toList
  let table := LineTable.ofText cs
  let size := byteSize cs
  let lexemes ← lexemesFrom table 0 0 cs
  let finish : Lexeme :=
    { index := lexemes.length, kind := .finish, text := "", start := size, stop := size,
      position := table.position size }
  return { lexemes, finish }

/-- The lexemes with the end mark behind them. -/
def toList (stream : TokenStream) : List Lexeme :=
  stream.lexemes ++ [stream.finish]

/-- What the grammar reads: the tokens without their places. -/
def tokens (stream : TokenStream) : List Token :=
  stream.lexemes.map Lexeme.toToken

def get? (stream : TokenStream) (index : Nat) : Option Lexeme :=
  stream.toList[index]?

/-- The positions of all tokens, the end mark included, by their numbers. -/
def positions (stream : TokenStream) : Array Position :=
  (stream.toList.map Lexeme.position).toArray

/-- The position of a token by its number. Numbers past the last token stand
for the end of the input. -/
def positionOf (stream : TokenStream) (index : Nat) : Position :=
  stream.positions.getD index stream.finish.position

end TokenStream

end ShaderDialect
