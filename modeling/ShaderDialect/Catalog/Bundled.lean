import ShaderDialect.Catalog.Basic

/-!
# The bundled catalog

The builtin functions of GLSL ES 1.00 and the constructors of scalars, vectors
and matrices. The order of the overloads of one name matters: the first that
fits a call is the one that counts.
-/

namespace ShaderDialect.Catalog.Bundled

/-- Angles and trigonometry. -/
def trigonometry : List WrittenSignature :=
  [⟨"genType", "radians", ["genType"]⟩,
    ⟨"genType", "degrees", ["genType"]⟩,
    ⟨"genType", "sin", ["genType"]⟩,
    ⟨"genType", "cos", ["genType"]⟩,
    ⟨"genType", "tan", ["genType"]⟩,
    ⟨"genType", "asin", ["genType"]⟩,
    ⟨"genType", "acos", ["genType"]⟩,
    ⟨"genType", "atan", ["genType", "genType"]⟩,
    ⟨"genType", "atan", ["genType"]⟩]

/-- Powers, exponentials and logarithms. -/
def exponential : List WrittenSignature :=
  [⟨"genType", "pow", ["genType", "genType"]⟩,
    ⟨"genType", "exp", ["genType"]⟩,
    ⟨"genType", "log", ["genType"]⟩,
    ⟨"genType", "exp2", ["genType"]⟩,
    ⟨"genType", "log2", ["genType"]⟩,
    ⟨"genType", "sqrt", ["genType"]⟩,
    ⟨"genType", "inversesqrt", ["genType"]⟩]

/-- Functions applied component by component. -/
def componentwise : List WrittenSignature :=
  [⟨"genType", "abs", ["genType"]⟩,
    ⟨"genType", "sign", ["genType"]⟩,
    ⟨"genType", "floor", ["genType"]⟩,
    ⟨"genType", "ceil", ["genType"]⟩,
    ⟨"genType", "fract", ["genType"]⟩,
    ⟨"genType", "mod", ["genType", "float"]⟩,
    ⟨"genType", "mod", ["genType", "genType"]⟩,
    ⟨"genType", "min", ["genType", "genType"]⟩,
    ⟨"genType", "min", ["genType", "float"]⟩,
    ⟨"genType", "max", ["genType", "genType"]⟩,
    ⟨"genType", "max", ["genType", "float"]⟩,
    ⟨"genType", "clamp", ["genType", "genType", "genType"]⟩,
    ⟨"genType", "clamp", ["genType", "float", "float"]⟩,
    ⟨"genType", "mix", ["genType", "genType", "genType"]⟩,
    ⟨"genType", "mix", ["genType", "genType", "float"]⟩,
    ⟨"genType", "step", ["genType", "genType"]⟩,
    ⟨"genType", "step", ["float", "genType"]⟩,
    ⟨"genType", "smoothstep", ["genType", "genType", "genType"]⟩,
    ⟨"genType", "smoothstep", ["float", "float", "genType"]⟩]

/-- Lengths, products and reflections. -/
def geometric : List WrittenSignature :=
  [⟨"float", "length", ["genType"]⟩,
    ⟨"float", "distance", ["genType", "genType"]⟩,
    ⟨"float", "dot", ["genType", "genType"]⟩,
    ⟨"vec3", "cross", ["vec3", "vec3"]⟩,
    ⟨"genType", "normalize", ["genType"]⟩,
    ⟨"genType", "faceforward", ["genType", "genType", "genType"]⟩,
    ⟨"genType", "reflect", ["genType", "genType"]⟩,
    ⟨"genType", "refract", ["genType", "genType", "float"]⟩]

/-- Products of matrices, component by component. -/
def matrix : List WrittenSignature :=
  [⟨"matType", "matrixCompMult", ["matType", "matType"]⟩]

/-- Comparisons of vectors. -/
def relational : List WrittenSignature :=
  [⟨"bvec2", "lessThan", ["vec2", "vec2"]⟩,
    ⟨"bvec3", "lessThan", ["vec3", "vec3"]⟩,
    ⟨"bvec4", "lessThan", ["vec4", "vec4"]⟩,
    ⟨"bvec2", "lessThan", ["ivec2", "ivec2"]⟩,
    ⟨"bvec3", "lessThan", ["ivec3", "ivec3"]⟩,
    ⟨"bvec4", "lessThan", ["ivec4", "ivec4"]⟩,
    ⟨"bvec2", "lessThanEqual", ["vec2", "vec2"]⟩,
    ⟨"bvec3", "lessThanEqual", ["vec3", "vec3"]⟩,
    ⟨"bvec4", "lessThanEqual", ["vec4", "vec4"]⟩,
    ⟨"bvec2", "lessThanEqual", ["ivec2", "ivec2"]⟩,
    ⟨"bvec3", "lessThanEqual", ["ivec3", "ivec3"]⟩,
    ⟨"bvec4", "lessThanEqual", ["ivec4", "ivec4"]⟩,
    ⟨"bvec2", "greaterThan", ["vec2", "vec2"]⟩,
    ⟨"bvec3", "greaterThan", ["vec3", "vec3"]⟩,
    ⟨"bvec4", "greaterThan", ["vec4", "vec4"]⟩,
    ⟨"bvec2", "greaterThan", ["ivec2", "ivec2"]⟩,
    ⟨"bvec3", "greaterThan", ["ivec3", "ivec3"]⟩,
    ⟨"bvec4", "greaterThan", ["ivec4", "ivec4"]⟩,
    ⟨"bvec2", "greaterThanEqual", ["vec2", "vec2"]⟩,
    ⟨"bvec3", "greaterThanEqual", ["vec3", "vec3"]⟩,
    ⟨"bvec4", "greaterThanEqual", ["vec4", "vec4"]⟩,
    ⟨"bvec2", "greaterThanEqual", ["ivec2", "ivec2"]⟩,
    ⟨"bvec3", "greaterThanEqual", ["ivec3", "ivec3"]⟩,
    ⟨"bvec4", "greaterThanEqual", ["ivec4", "ivec4"]⟩,
    ⟨"bvec2", "equal", ["vec2", "vec2"]⟩,
    ⟨"bvec3", "equal", ["vec3", "vec3"]⟩,
    ⟨"bvec4", "equal", ["vec4", "vec4"]⟩,
    ⟨"bvec2", "equal", ["ivec2", "ivec2"]⟩,
    ⟨"bvec3", "equal", ["ivec3", "ivec3"]⟩,
    ⟨"bvec4", "equal", ["ivec4", "ivec4"]⟩,
    ⟨"bvec2", "equal", ["bvec2", "bvec2"]⟩,
    ⟨"bvec3", "equal", ["bvec3", "bvec3"]⟩,
    ⟨"bvec4", "equal", ["bvec4", "bvec4"]⟩,
    ⟨"bvec2", "notEqual", ["vec2", "vec2"]⟩,
    ⟨"bvec3", "notEqual", ["vec3", "vec3"]⟩,
    ⟨"bvec4", "notEqual", ["vec4", "vec4"]⟩,
    ⟨"bvec2", "notEqual", ["ivec2", "ivec2"]⟩,
    ⟨"bvec3", "notEqual", ["ivec3", "ivec3"]⟩,
    ⟨"bvec4", "notEqual", ["ivec4", "ivec4"]⟩,
    ⟨"bvec2", "notEqual", ["bvec2", "bvec2"]⟩,
    ⟨"bvec3", "notEqual", ["bvec3", "bvec3"]⟩,
    ⟨"bvec4", "notEqual", ["bvec4", "bvec4"]⟩,
    ⟨"bool", "any", ["bvec2"]⟩,
    ⟨"bool", "any", ["bvec3"]⟩,
    ⟨"bool", "any", ["bvec4"]⟩,
    ⟨"bool", "all", ["bvec2"]⟩,
    ⟨"bool", "all", ["bvec3"]⟩,
    ⟨"bool", "all", ["bvec4"]⟩,
    ⟨"bvec2", "not", ["bvec2"]⟩,
    ⟨"bvec3", "not", ["bvec3"]⟩,
    ⟨"bvec4", "not", ["bvec4"]⟩]

/-- Texture lookups. -/
def texture : List WrittenSignature :=
  [⟨"vec4", "texture2D", ["sampler2D", "vec2"]⟩,
    ⟨"vec4", "texture2D", ["sampler2D", "vec2", "float"]⟩,
    ⟨"vec4", "texture2DProj", ["sampler2D", "vec3"]⟩,
    ⟨"vec4", "texture2DProj", ["sampler2D", "vec3", "float"]⟩,
    ⟨"vec4", "texture2DProj", ["sampler2D", "vec4"]⟩,
    ⟨"vec4", "texture2DProj", ["sampler2D", "vec4", "float"]⟩,
    ⟨"vec4", "texture2DLod", ["sampler2D", "vec2", "float"]⟩,
    ⟨"vec4", "texture2DProjLod", ["sampler2D", "vec3", "float"]⟩,
    ⟨"vec4", "texture2DProjLod", ["sampler2D", "vec4", "float"]⟩,
    ⟨"vec4", "textureCube", ["samplerCube", "vec3"]⟩,
    ⟨"vec4", "textureCube", ["samplerCube", "vec3", "float"]⟩,
    ⟨"vec4", "textureCubeLod", ["samplerCube", "vec3", "float"]⟩]

/-- Constructors of scalars. -/
def scalarConstructors : List WrittenSignature :=
  [⟨"float", "float", ["float"]⟩,
    ⟨"float", "float", ["bool"]⟩,
    ⟨"int", "int", ["int"]⟩,
    ⟨"int", "int", ["float"]⟩,
    ⟨"int", "int", ["bool"]⟩,
    ⟨"bool", "bool", ["bool"]⟩,
    ⟨"bool", "bool", ["int"]⟩,
    ⟨"bool", "bool", ["float"]⟩]

/-- Constructors of floating vectors. The scalar forms come first, so that integer
arguments find them. -/
def floatVectorConstructors : List WrittenSignature :=
  [⟨"vec2", "vec2", ["float"]⟩,
    ⟨"vec2", "vec2", ["float", "float"]⟩,
    ⟨"vec2", "vec2", ["vec2"]⟩,
    ⟨"vec2", "vec2", ["vec3"]⟩,
    ⟨"vec2", "vec2", ["vec4"]⟩,
    ⟨"vec2", "vec2", ["ivec2"]⟩,
    ⟨"vec2", "vec2", ["bvec2"]⟩,
    ⟨"vec3", "vec3", ["float"]⟩,
    ⟨"vec3", "vec3", ["float", "float", "float"]⟩,
    ⟨"vec3", "vec3", ["vec2", "float"]⟩,
    ⟨"vec3", "vec3", ["float", "vec2"]⟩,
    ⟨"vec3", "vec3", ["vec3"]⟩,
    ⟨"vec3", "vec3", ["vec4"]⟩,
    ⟨"vec3", "vec3", ["ivec3"]⟩,
    ⟨"vec3", "vec3", ["bvec3"]⟩,
    ⟨"vec4", "vec4", ["float"]⟩,
    ⟨"vec4", "vec4", ["float", "float", "float", "float"]⟩,
    ⟨"vec4", "vec4", ["vec3", "float"]⟩,
    ⟨"vec4", "vec4", ["float", "vec3"]⟩,
    ⟨"vec4", "vec4", ["vec2", "float", "float"]⟩,
    ⟨"vec4", "vec4", ["float", "vec2", "float"]⟩,
    ⟨"vec4", "vec4", ["float", "float", "vec2"]⟩,
    ⟨"vec4", "vec4", ["vec2", "vec2"]⟩,
    ⟨"vec4", "vec4", ["vec4"]⟩,
    ⟨"vec4", "vec4", ["ivec4"]⟩,
    ⟨"vec4", "vec4", ["bvec4"]⟩]

/-- Constructors of integer vectors. -/
def intVectorConstructors : List WrittenSignature :=
  [⟨"ivec2", "ivec2", ["int"]⟩,
    ⟨"ivec2", "ivec2", ["int", "int"]⟩,
    ⟨"ivec2", "ivec2", ["ivec2"]⟩,
    ⟨"ivec2", "ivec2", ["vec2"]⟩,
    ⟨"ivec3", "ivec3", ["int"]⟩,
    ⟨"ivec3", "ivec3", ["int", "int", "int"]⟩,
    ⟨"ivec3", "ivec3", ["ivec2", "int"]⟩,
    ⟨"ivec3", "ivec3", ["ivec3"]⟩,
    ⟨"ivec3", "ivec3", ["vec3"]⟩,
    ⟨"ivec4", "ivec4", ["int"]⟩,
    ⟨"ivec4", "ivec4", ["int", "int", "int", "int"]⟩,
    ⟨"ivec4", "ivec4", ["ivec3", "int"]⟩,
    ⟨"ivec4", "ivec4", ["ivec2", "ivec2"]⟩,
    ⟨"ivec4", "ivec4", ["ivec4"]⟩,
    ⟨"ivec4", "ivec4", ["vec4"]⟩]

/-- Constructors of vectors of truth values. -/
def boolVectorConstructors : List WrittenSignature :=
  [⟨"bvec2", "bvec2", ["bool"]⟩,
    ⟨"bvec2", "bvec2", ["bool", "bool"]⟩,
    ⟨"bvec2", "bvec2", ["bvec2"]⟩,
    ⟨"bvec3", "bvec3", ["bool"]⟩,
    ⟨"bvec3", "bvec3", ["bool", "bool", "bool"]⟩,
    ⟨"bvec3", "bvec3", ["bvec3"]⟩,
    ⟨"bvec4", "bvec4", ["bool"]⟩,
    ⟨"bvec4", "bvec4", ["bool", "bool", "bool", "bool"]⟩,
    ⟨"bvec4", "bvec4", ["bvec4"]⟩]

/-- Constructors of square matrices. -/
def matrixConstructors : List WrittenSignature :=
  [⟨"mat2", "mat2", ["float"]⟩,
    ⟨"mat2", "mat2", ["vec2", "vec2"]⟩,
    ⟨"mat2", "mat2", ["float", "float", "float", "float"]⟩,
    ⟨"mat2", "mat2", ["mat2"]⟩,
    ⟨"mat3", "mat3", ["float"]⟩,
    ⟨"mat3", "mat3", ["vec3", "vec3", "vec3"]⟩,
    ⟨"mat3", "mat3", ["float", "float", "float", "float", "float", "float", "float", "float",
        "float"]⟩,
    ⟨"mat3", "mat3", ["mat3"]⟩,
    ⟨"mat3", "mat3", ["mat4"]⟩,
    ⟨"mat4", "mat4", ["float"]⟩,
    ⟨"mat4", "mat4", ["vec4", "vec4", "vec4", "vec4"]⟩,
    ⟨"mat4", "mat4", ["float", "float", "float", "float", "float", "float", "float", "float",
        "float", "float", "float", "float", "float", "float", "float", "float"]⟩,
    ⟨"mat4", "mat4", ["mat4"]⟩]

/-- All bundled signatures as written. -/
def written : List WrittenSignature :=
  trigonometry ++ exponential ++ componentwise ++ geometric ++ matrix ++ relational ++
    texture ++ scalarConstructors ++ floatVectorConstructors ++ intVectorConstructors ++
    boolVectorConstructors ++ matrixConstructors

end Bundled

/-- The bundled catalog. Every type that its signatures name is known. -/
def bundled : Catalog :=
  ofSignatures (Bundled.written.flatMap fun written =>
    match written.expand with
    | .ok signatures => signatures
    | .error _ => [])

end ShaderDialect.Catalog
