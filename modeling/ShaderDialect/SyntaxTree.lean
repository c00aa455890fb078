import ShaderDialect.Grammar.Statement
import ShaderDialect.Table.Arena
import ShaderDialect.Token.Stream
import ShaderDialect.Tree.Arena

/-!
# From source to tree

The grammar sees tokens only. Places come back in when a failure is located:
at the token it stopped at, or at the end of the input, which the number of
tokens left tells.
-/

namespace ShaderDialect

/-- A tree with the tokens it was read from. -/
structure SyntaxTree where
  stream : TokenStream
  root : Tree

namespace SyntaxTree

/-- The tree of a token list, or the first token that does not fit. -/
def ofTokens (tokens : List Token) : Except Grammar.Failure Tree :=
  match Grammar.unit (.start tokens) with
  | .error failure => .error failure
  | .ok (root, _) => .ok root

def locate (stream : TokenStream) (failure : Grammar.Failure) : SyntaxError :=
  { position := stream.positionOf (stream.lexemes.length - failure.rest.length)
    fault := .expected failure.expected (failure.found.map Token.text) }

def ofStream (stream : TokenStream) : Except SyntaxError SyntaxTree :=
  match ofTokens stream.tokens with
  | .error failure => .error (locate stream failure)
  | .ok root => .ok { stream, root }

def ofSource (source : String) : Except SyntaxError SyntaxTree := do
  ofStream (← TokenStream.ofSource source)

/-- The numbered nodes of a tree. -/
def nodes (tree : SyntaxTree) : Arena NodeRecord :=
  Arena.ofList (tree.root.records tree.stream.lexemes.length)

/-- The number of the root, which is completed last. -/
def rootId (tree : SyntaxTree) : Nat :=
  tree.root.size - 1

end SyntaxTree

end ShaderDialect
