import ShaderDialect.Error

/-!
# Types

As much of the type system as the choice between integer and floating
literals needs. Types are told apart by name alone: two types of one name are
the same type, whatever else they hold.
-/

namespace ShaderDialect

/-- Scalars, matrices, samplers and `void` are primitive. The element of a
vector is one of the three scalars that have vectors, which `vector?` sees to. -/
inductive Ty where
  | primitive (name : String)
  | struct (name : String) (fields : List (String × Ty))
  | vector (element : Ty) (size : Nat)

namespace Ty

/-- How the names of the vectors over a scalar begin. -/
def vectorStem? : String → Option String
  | "float" => some "vec"
  | "bool" => some "bvec"
  | "int" => some "ivec"
  | _ => none

def name : Ty → String
  | .primitive name => name
  | .struct name _ => name
  | .vector element size => (vectorStem? element.name).getD "" ++ toString size

def float : Ty :=
  .primitive "float"

def isFloat (ty : Ty) : Bool :=
  ty.name = "float"

/-- Whether integer literals stored into a place of this type have to become
floating ones. -/
def isFloatScalarOrVector (ty : Ty) : Bool :=
  ["float", "vec2", "vec3", "vec4"].contains ty.name

/-- Whether two types are the same type. -/
def same (a b : Ty) : Bool :=
  a.name = b.name

/-- The vector of `size` elements. The element is checked before the size. -/
def vector? (element : Ty) (size : Nat) : Except TypeError Ty :=
  match vectorStem? element.name with
  | none => .error (.noVectorOf element.name)
  | some _ =>
    if 2 ≤ size && size ≤ 4 then .ok (.vector element size) else .error (.vectorSize size)

/-- Add a field at the end; a field of that name keeps its place and gets the
new type. -/
def insertField (fields : List (String × Ty)) (field : String) (ty : Ty) :
    List (String × Ty) :=
  match fields with
  | [] => [(field, ty)]
  | (other, old) :: rest =>
    if other = field then (other, ty) :: rest else (other, old) :: insertField rest field ty

/-- The struct whose fields are added in the given order. -/
def structOf (name : String) (fields : List (String × Ty)) : Ty :=
  .struct name (fields.foldl (fun known (field, ty) => insertField known field ty) [])

end Ty

end ShaderDialect
