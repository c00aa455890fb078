import ShaderDialect.Scope
import ShaderDialect.Tree.Basic

/-!
# Arguments of calls

Before the arguments of a call are looked at, each gets a type from its
spelling alone, and the first overload that these types fit decides which
arguments are expected to be floating.
-/

namespace ShaderDialect.Inference

def isDigits (cs : List Char) : Bool :=
  ! cs.isEmpty && cs.all Literal.isDigit

/-- Digits, a point, and digits or nothing. -/
def isPlainFloat (cs : List Char) : Bool :=
  match cs.dropWhile (· ≠ '.') with
  | _ :: fraction => isDigits (cs.takeWhile (· ≠ '.')) && fraction.all Literal.isDigit
  | [] => false

/-- The name of the type of an argument, told from its spelling: that of a
variable, or of a plain number. Nothing is told of other arguments. -/
def argumentType? (scope : Scope) (argument : Tree) : Option String :=
  let text := argument.text
  match scope.lookup? text with
  | some found => some found.ty.name
  | none =>
    if isDigits text.toList then some "int"
    else if isPlainFloat text.toList then some "float"
    else none

/-- Whether an argument fits a parameter. An integer fits a `float`, and what
nothing is told of fits all. -/
def fits (argument : Option String) (param : Ty) : Bool :=
  argument.all fun type => type = param.name || (type = "int" && param.isFloat)

/-- Whether arguments fit parameters one by one. -/
def fitsAll : List (Option String) → List Ty → Bool
  | [], [] => true
  | argument :: arguments, param :: params =>
    fits argument param && fitsAll arguments params
  | _, _ => false

/-- Which parameters of the first overload of a name that fits the arguments
are floating. -/
def floatFlags? (scope : Scope) (name : String) (arguments : List (Option String)) :
    Option (List Bool) :=
  ((scope.overloads name).find? fun signature => fitsAll arguments signature.params).map
    fun signature => signature.params.map Ty.isFloat

/-- Which arguments of a call are expected to be floating. Where no overload
fits, none is. -/
def callFlags (scope : Scope) (call : Tree) : List Bool :=
  (call.callName?.bind fun name =>
    floatFlags? scope name (call.arguments.map (argumentType? scope))).getD []

end ShaderDialect.Inference
