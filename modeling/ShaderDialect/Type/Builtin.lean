import ShaderDialect.Type.Basic

/-!
# Builtin types

The types that every shader knows by name.
-/

namespace ShaderDialect.Ty

def builtinPrimitives : List Ty :=
  ["void", "bool", "int", "uint", "float", "mat2", "mat3", "mat4", "sampler2D",
   "sampler3D", "samplerCube", "sampler2DShadow"].map .primitive

/-- Vectors of two, three and four of each scalar that has vectors. -/
def builtinVectors : List Ty :=
  ["float", "bool", "int"].flatMap fun element =>
    [2, 3, 4].map fun size => .vector (.primitive element) size

/-- The builtin types under their names. -/
def builtinTypes : List (String × Ty) :=
  (builtinPrimitives ++ builtinVectors).map fun ty => (ty.name, ty)

def builtin? (name : String) : Option Ty :=
  builtinTypes.lookup name

theorem mem_of_builtin? {name : String} {ty : Ty} (known : builtin? name = some ty) :
    ty ∈ builtinPrimitives ++ builtinVectors ∧ ty.name = name := by
  obtain ⟨before, after, shape, -⟩ := List.lookup_eq_some_iff.1 known
  have entry : (name, ty) ∈ builtinTypes := by simp [shape]
  obtain ⟨ty', listed, same⟩ := List.mem_map.1 entry
  cases same
  exact ⟨listed, rfl⟩

end ShaderDialect.Ty
