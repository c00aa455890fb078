import ShaderDialect.Text.Position

/-!
# Errors

Every failure is a cause with the values it speaks about; the wording stands
here and nowhere else. `Error.message` puts the class of the failure in front
of the detail.
-/

namespace ShaderDialect

/-- What the grammar asked for where it stopped. -/
inductive Expectation where
  | mark (text : String)
  | identifier
  | typeName
  | expression
deriving DecidableEq

def Expectation.describe : Expectation → String
  | .mark text => "'" ++ text ++ "'"
  | .identifier => "identifier"
  | .typeName => "type"
  | .expression => "expression"

/-- Why a source text has no tree. The token found is absent at the end of
the input. -/
inductive SyntaxFault where
  | unexpectedCharacter (c : Char)
  | expected (what : Expectation) (found : Option String)
deriving DecidableEq

def SyntaxFault.message : SyntaxFault → String
  | .unexpectedCharacter c => "unexpected character '" ++ c.toString ++ "'"
  | .expected what none => "expected " ++ what.describe ++ ", found end of input"
  | .expected what (some text) =>
    "expected " ++ what.describe ++ ", found '" ++ text ++ "'"

structure SyntaxError where
  position : Position
  fault : SyntaxFault
deriving DecidableEq

def SyntaxError.message (error : SyntaxError) : String :=
  error.fault.message

/-- The message with its position in front. -/
def SyntaxError.describe (error : SyntaxError) : String :=
  error.position.describe error.message

/-- A type that cannot be built, or a member that a type does not have. -/
inductive TypeError where
  | noVectorOf (component : String)
  | vectorSize (size : Nat)
  | noField (owner field : String)
  | noFields (owner field : String)
deriving DecidableEq

def TypeError.message : TypeError → String
  | .noVectorOf component => "no vector type with component type '" ++ component ++ "'"
  | .vectorSize size => "vector arity must be between 2 and 4, got " ++ toString size
  | .noField owner field => "struct '" ++ owner ++ "' has no field '" ++ field ++ "'"
  | .noFields owner field =>
    "type '" ++ owner ++ "' has no fields, cannot select '" ++ field ++ "'"

/-- A selection of vector components that selects none. -/
inductive SwizzleError where
  | empty
  | invalidLetter (letter : Char)
  | outOfRange (letter : Char) (vector : String)
  | tooLong (swizzle : String)
deriving DecidableEq

def SwizzleError.message : SwizzleError → String
  | .empty => "empty swizzle"
  | .invalidLetter letter => "invalid swizzle character '" ++ letter.toString ++ "'"
  | .outOfRange letter vector =>
    "component '" ++ letter.toString ++ "' out of range for " ++ vector
  | .tooLong swizzle => "swizzle '" ++ swizzle ++ "' selects more than 4 components"

/-- A list of signatures that makes no catalog. Lines count from one. -/
inductive CatalogError where
  | unknownType (line : Nat) (type function : String)
  | noSignatures
deriving DecidableEq

/-- A token whose byte range does not lie on character boundaries of the text
that edits are spliced into. -/
structure SpliceError where
  token : Nat
  start : Nat
  stop : Nat
deriving DecidableEq

def SpliceError.message (error : SpliceError) : String :=
  "token tok" ++ toString error.token ++ " at " ++ toString error.start ++ ".." ++
    toString error.stop ++ " does not fit the source text"

/-- The class of a failure, which heads its message. -/
inductive ErrorClass where
  | parse
  | catalog
  | type
  | swizzle
  | internal
deriving DecidableEq

def ErrorClass.heading : ErrorClass → String
  | .parse => "Parse error"
  | .catalog => "Builtin catalog error"
  | .type => "Type error"
  | .swizzle => "Swizzle error"
  | .internal => "Internal error"

def ErrorClass.describe (kind : ErrorClass) (detail : String) : String :=
  kind.heading ++ ": " ++ detail

/-- A signature is checked on its own before its line is known to be at
fault, so its heading stands twice in the full message. -/
def CatalogError.message : CatalogError → String
  | .unknownType line type function =>
    "line " ++ toString line ++ ": " ++ ErrorClass.catalog.describe
      ("unknown type '" ++ type ++ "' in signature of '" ++ function ++ "'")
  | .noSignatures => "signature list contains no signatures"

inductive Error where
  | parse (cause : SyntaxError)
  | catalog (cause : CatalogError)
  | type (cause : TypeError)
  | swizzle (cause : SwizzleError)
  | splice (cause : SpliceError)
deriving DecidableEq

def Error.kind : Error → ErrorClass
  | .parse _ => .parse
  | .catalog _ => .catalog
  | .type _ => .type
  | .swizzle _ => .swizzle
  | .splice _ => .internal

def Error.detail : Error → String
  | .parse cause => cause.describe
  | .catalog cause => cause.message
  | .type cause => cause.message
  | .swizzle cause => cause.message
  | .splice cause => cause.message

def Error.message (error : Error) : String :=
  error.kind.describe error.detail

end ShaderDialect
