import ShaderDialect.Conversion
import ShaderDialect.Text.Lines
import ShaderDialect.Text.Space

/-!
# Shader files

Helpers for hosts that load shaders by path. Vertex and fragment shaders are
converted; any other unit is passed through, and can be put into the unit that
depends on it.
-/

namespace ShaderDialect

inductive Stage where
  | vertex
  | fragment
deriving DecidableEq

namespace Stage

def name : Stage → String
  | .vertex => "vertex"
  | .fragment => "fragment"

def isSeparator (c : Char) : Bool :=
  c = '/' || c = '\\'

/-- What follows the last point of the last part of a path. -/
def extension? (path : List Char) : Option (List Char) :=
  let file := path.reverse.takeWhile (! isSeparator ·)
  if file.contains '.' then some (file.takeWhile (· ≠ '.')).reverse else none

/-- The stage that the extension of a path tells. -/
def ofPath? (path : String) : Option Stage :=
  match (extension? path.toList).map String.ofList with
  | some "vert" => some .vertex
  | some "frag" => some .fragment
  | _ => none

end Stage

/-- The text to load for a shader file: converted against the bundled catalog
if it is a stage, else as it is. -/
def loadShader (path source : String) : Except Error String :=
  match Stage.ofPath? path with
  | none => .ok source
  | some _ => (convert Catalog.bundled source).map Conversion.text

/-- Whether a line is a version directive: a blank must follow the word. -/
def isVersionLine (line : List Char) : Bool :=
  let word := "#version".toList
  let directive := line.dropWhile isSpace
  word.isPrefixOf directive &&
    (directive.drop word.length).head?.any fun c => c = ' ' || c = '\t'

/-- A source without the line of its first version directive. -/
def stripVersion (source : String) : String :=
  String.ofList ((lines source.toList).eraseP isVersionLine).flatten

/-- Put a dependency behind `target`, on a line of its own and without its
version directive. -/
def inlineDependency (target dependency : String) : String :=
  let target :=
    match target.toList.getLast? with
    | none => target
    | some '\n' => target
    | some _ => target ++ "\n"
  target ++ stripVersion dependency

end ShaderDialect
