/-!
# Reserved words and operators

The words that the language reserves, grouped by the part they play, and its
operators in the order in which they are tried.
-/

namespace ShaderDialect.Vocabulary

/-- Builtin type names. -/
def typeWords : List String :=
  ["void", "bool", "int", "uint", "float", "double", "vec2", "vec3", "vec4", "bvec2",
   "bvec3", "bvec4", "ivec2", "ivec3", "ivec4", "uvec2", "uvec3", "uvec4", "dvec2",
   "dvec3", "dvec4", "mat2", "mat3", "mat4", "mat2x2", "mat2x3", "mat2x4", "mat3x2",
   "mat3x3", "mat3x4", "mat4x2", "mat4x3", "mat4x4", "sampler1D", "sampler2D",
   "sampler3D", "samplerCube", "sampler2DRect", "sampler1DShadow", "sampler2DShadow",
   "samplerCubeShadow", "sampler1DArray", "sampler2DArray", "sampler2DArrayShadow",
   "samplerBuffer", "sampler2DMS", "isampler2D", "isampler3D", "isamplerCube",
   "usampler2D", "usampler3D", "usamplerCube"]

/-- Storage, interpolation, precision and layout qualifiers. -/
def qualifierWords : List String :=
  ["const", "uniform", "in", "out", "inout", "attribute", "varying", "centroid", "flat",
    "smooth", "noperspective", "highp", "mediump", "lowp", "invariant", "layout"]

/-- Qualifiers that only late language versions reserve. Older shaders use
these words as names, so they are identifiers, and the grammar takes them for
qualifiers only in front of a type. -/
def contextualQualifierWords : List String :=
  ["precise", "patch", "sample", "buffer", "shared", "coherent", "volatile", "restrict",
    "readonly", "writeonly", "subroutine"]

/-- Reserved words that are neither types nor qualifiers. -/
def controlWords : List String :=
  ["struct", "precision", "if", "else", "switch", "case", "default", "while", "do", "for",
    "continue", "break", "return", "discard"]

def isTypeWord (word : String) : Bool :=
  typeWords.contains word

def isQualifierWord (word : String) : Bool :=
  qualifierWords.contains word

def isContextualQualifier (word : String) : Bool :=
  contextualQualifierWords.contains word

def isReserved (word : String) : Bool :=
  isTypeWord word || isQualifierWord word || controlWords.contains word

/-- Every operator and punctuation mark. A mark never stands before a longer
one that it begins, so the first that fits is the longest that fits. -/
def operators : List String :=
  ["<<=", ">>=", "++", "--", "<=", ">=", "==", "!=", "&&", "||", "^^", "+=", "-=", "*=",
   "/=", "%=", "&=", "|=", "^=", "<<", ">>", "+", "-", "*", "/", "%", "<", ">", "=",
   "!", "~", "&", "|", "^", "?", ":", ";", ",", ".", "(", ")", "[", "]", "\x7b", "\x7d"]

/-- Operators that store into their left operand. -/
def assignmentOperators : List String :=
  ["=", "+=", "-=", "*=", "/=", "%=", "<<=", ">>=", "&=", "^=", "|="]

/-- Operators that stand before their operand. -/
def unaryOperators : List String :=
  ["++", "--", "+", "-", "!", "~"]

/-- Binary operators by binding strength, the weakest first. Operators of one
row bind alike and associate to the left. -/
def binaryOperators : List (List String) :=
  [["||"], ["^^"], ["&&"], ["|"], ["^"], ["&"], ["==", "!="], ["<", ">", "<=", ">="],
    ["<<", ">>"], ["+", "-"], ["*", "/", "%"]]

end ShaderDialect.Vocabulary
