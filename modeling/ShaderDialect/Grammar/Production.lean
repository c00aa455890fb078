import ShaderDialect.Error
import ShaderDialect.Token.Vocabulary
import ShaderDialect.Tree.Basic

/-!
# Productions

A production reads a run of sibling trees from the tokens that are left, or
fails at the token it cannot use. There is no way back: a choice is made by
looking ahead, and the first failure is the answer. The grammar is written
with the few combinators of this module.
-/

namespace ShaderDialect.Grammar

/-- The tokens that are left, and the names of the structs and interface
blocks read so far, which count as types. The number of tokens is kept beside
them, because it bounds every repetition. -/
structure State where
  rest : List Token
  typeNames : List String
  left : Nat
  left_eq : left = rest.length

/-- Why reading stopped, and the tokens that were left there. -/
structure Failure where
  expected : Expectation
  rest : List Token

/-- The token at which reading stopped; none at the end of the input. -/
def Failure.found (failure : Failure) : Option Token :=
  failure.rest.head?

abbrev Parser (α : Type) := StateT State (Except Failure) α

abbrev Production := Parser (List Tree)

namespace State

/-- The state before anything has been read. -/
def start (tokens : List Token) : State where
  rest := tokens
  typeNames := []
  left := tokens.length
  left_eq := rfl

/-- The next token, and the state behind it. -/
def next? (s : State) : Option (Token × State) :=
  match h : s.rest with
  | [] => none
  | token :: rest =>
    some (token, { s with rest, left := s.left - 1, left_eq := by rw [s.left_eq, h]; rfl })

theorem next?_eq_none_iff {s : State} : s.next? = none ↔ s.rest = [] := by
  unfold next?
  split <;> simp_all

theorem rest_of_next? {s after : State} {token : Token}
    (h : s.next? = some (token, after)) :
    s.rest = token :: after.rest ∧ after.typeNames = s.typeNames := by
  unfold next? at h
  split at h
  · simp at h
  · rename_i shape
    simp only [Option.some.injEq, Prod.mk.injEq] at h
    obtain ⟨rfl, rfl⟩ := h
    exact ⟨shape, rfl⟩

def atEnd (s : State) : Bool :=
  s.rest.isEmpty

/-- Whether the next token is the given word or mark. -/
def sees (s : State) (text : String) : Bool :=
  s.rest.head?.any (·.is text)

/-- Whether the token after the next one is the given word or mark. -/
def seesSecond (s : State) (text : String) : Bool :=
  (s.rest[1]?).any (·.is text)

def seesKind (s : State) (kind : TokenKind) : Bool :=
  s.rest.head?.any (·.kind = kind)

def seesAny (s : State) (texts : List String) : Bool :=
  texts.any s.sees

/-- Whether something is left before the closing mark `text`. -/
def isBefore (s : State) (text : String) : Bool :=
  ! s.sees text && ! s.atEnd

/-- Whether a token names a type: a builtin one, or one declared so far. -/
def isTypeName (s : State) (token : Token) : Bool :=
  match token.kind with
  | .keyword => Vocabulary.isTypeWord token.text
  | .identifier => s.typeNames.contains token.text
  | _ => false

def seesTypeName (s : State) : Bool :=
  s.rest.head?.any s.isTypeName

/-- Whether a token is a qualifier, given the token after it. A contextual
qualifier must not name a type, and a word must follow it. -/
def isQualifier (s : State) (token : Token) (next : Option Token) : Bool :=
  match token.kind with
  | .keyword => Vocabulary.isQualifierWord token.text
  | .identifier =>
    Vocabulary.isContextualQualifier token.text && ! s.isTypeName token &&
      next.any fun token => token.kind = .keyword || token.kind = .identifier
  | _ => false

def seesQualifier (s : State) : Bool :=
  s.rest.head?.any (s.isQualifier · s.rest[1]?)

end State

def fail {α : Type} (expected : Expectation) : Parser α :=
  fun s => .error ⟨expected, s.rest⟩

/-- Read the next token if `p` holds of it. -/
def take (expected : Expectation) (p : Token → Bool) : Production := fun s =>
  match s.next? with
  | none => .error ⟨expected, s.rest⟩
  | some (token, after) =>
    if p token then .ok ([.leaf token], after) else .error ⟨expected, s.rest⟩

/-- The given word or mark. -/
def mark (text : String) : Production :=
  take (.mark text) (·.is text)

def identifier : Production :=
  take .identifier (·.kind = .identifier)

/-- An identifier that is a type name from here on. -/
def newTypeName : Production := fun s =>
  match identifier s with
  | .error failure => .error failure
  | .ok (trees, s') =>
    .ok (trees, { s' with typeNames := trees.filterMap (·.token?.map Token.text) ++ s'.typeNames })

/-- Nothing. -/
def empty : Production :=
  pure []

/-- One production after the other. -/
def seq : List Production → Production
  | [] => pure []
  | p :: ps => do
    let first ← p
    let others ← seq ps
    return first ++ others

/-- The production that looking ahead selects. -/
def look (choose : State → Production) : Production :=
  fun s => choose s s

/-- `p` where `condition` holds, and nothing elsewhere. -/
def optional (condition : State → Bool) (p : Production) : Production :=
  look fun s => if condition s then p else empty

/-- One node over everything that `p` reads. -/
def node (kind : NodeKind) (p : Production) : Production := do
  return [.node kind (← p)]

/-- One node over trees that are already read and what `p` reads. -/
def wrap (kind : NodeKind) (before : List Tree) (p : Production) : Production := do
  return [.node kind (before ++ (← p))]

/-- At most `n` rounds of `p`, for as long as `condition` holds. -/
def rounds (condition : State → Bool) (p : Production) : Nat → Production
  | 0 => pure []
  | n + 1 => look fun s =>
    if condition s then do
      let first ← p
      let others ← rounds condition p n
      return first ++ others
    else empty

/-- Repeat `p` for as long as `condition` holds. Each round reads a token, so
there are no more rounds than tokens. -/
def many (condition : State → Bool) (p : Production) : Production :=
  look fun s => rounds condition p s.left

/-- At most `n` extensions of `before`; see `extend`. -/
def extensions (next : State → Option (NodeKind × Production)) :
    Nat → List Tree → Production
  | 0, before => pure before
  | n + 1, before => look fun s =>
    match next s with
    | none => pure before
    | some (kind, p) => do
      let wider ← wrap kind before p
      extensions next n wider

/-- Read `p`, then put node after node around what has been read, for as long
as looking ahead finds a way to go on. -/
def extend (p : Production) (next : State → Option (NodeKind × Production)) :
    Production := do
  let first ← p
  look fun s => extensions next s.left first

/-- One or more items with commas between them. -/
def commaList (item : Production) : Production :=
  seq [item, many (·.sees ",") (seq [mark ",", item])]

/-- Items between parentheses. A lone `void` stands for no items. -/
def parenList (item : Production) : Production :=
  seq
    [mark "(",
      look fun s =>
        if s.sees "void" && s.seesSecond ")" then mark "void"
        else if s.sees ")" then empty
        else commaList item,
      mark ")"]

end ShaderDialect.Grammar
