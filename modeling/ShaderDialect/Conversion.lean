import ShaderDialect.Catalog.Bundled
import ShaderDialect.Plan.Walk
import ShaderDialect.SyntaxTree

/-!
# Conversion

A desktop shader becomes one for GLSL ES by reading it, planning edits against
a catalog of builtins, and splicing them in. Only a source that is no shader
fails; whatever cannot be resolved is left as it is and reported.
-/

namespace ShaderDialect

/-- A message at a position of the source. -/
structure Diagnostic where
  position : Position
  message : String
deriving DecidableEq

namespace Diagnostic

/-- The message with its position in front. -/
def describe (diagnostic : Diagnostic) : String :=
  diagnostic.position.describe diagnostic.message

/-- The diagnostics with one more, unless it is among them. -/
def report (shown : List Diagnostic) (diagnostic : Diagnostic) : List Diagnostic :=
  if diagnostic ∈ shown then shown else shown ++ [diagnostic]

/-- What is shown of the diagnostics that are reported one after the other.
Positions are words of 32 bits, so in a text of four gigabytes two tokens can
have the same one. -/
def shown (reported : List Diagnostic) : List Diagnostic :=
  reported.foldl report []

end Diagnostic

def SyntaxTree.diagnose (tree : SyntaxTree) (findings : Findings) : List Diagnostic :=
  let positions := tree.stream.positions
  Diagnostic.shown (findings.toList.map fun finding =>
    { position := positions.getD finding.token tree.stream.finish.position
      message := finding.problem.message })

/-- A converted source, and what could not be resolved in it. -/
structure Conversion where
  text : String
  diagnostics : List Diagnostic

/-- Convert a source against a catalog. -/
def convert (catalog : Catalog) (source : String) : Except Error Conversion :=
  match SyntaxTree.ofSource source with
  | .error cause => .error (.parse cause)
  | .ok tree =>
    let plan := Plan.ofTree catalog tree.root
    match plan.edits.splice tree.stream source with
    | .error cause => .error (.splice cause)
    | .ok text => .ok { text, diagnostics := tree.diagnose plan.findings }

/-- The conversions of a source, of the result, of its result, and so on, as
many as asked for; a failure ends them. -/
def convertRepeatedly (catalog : Catalog) : Nat → String → List (Except Error Conversion)
  | 0, _ => []
  | n + 1, source =>
    match convert catalog source with
    | .error cause => [.error cause]
    | .ok conversion => .ok conversion :: convertRepeatedly catalog n conversion.text

end ShaderDialect
