import ShaderDialect.Catalog.Basic

/-!
# Scopes

What the names of a shader stand for at one place of it. Variables live in
frames, the innermost first; the global frame stands apart, because it is
always there. Functions and structs are known from their declaration on,
whichever frame it stood in.
-/

namespace ShaderDialect

/-- A declared name. For an array, the type is that of its elements. -/
structure Variable where
  name : String
  ty : Ty
  isArray : Bool

/-- Variables declared together, the latest first. -/
abbrev Frame := List Variable

structure Scope where
  catalog : Catalog
  /-- Declared functions, the earliest first. -/
  functions : List Signature
  /-- Declared structs and interface blocks, the latest first. -/
  structs : List (String × Ty)
  globals : Frame
  locals : List Frame

namespace Scope

/-- Variables that every stage has, with the names of their types. -/
def builtinVariables : List (String × String × Bool) :=
  [("gl_Position", "vec4", false), ("gl_PointSize", "float", false),
    ("gl_FragCoord", "vec4", false), ("gl_FrontFacing", "bool", false),
    ("gl_FragColor", "vec4", false), ("gl_PointCoord", "vec2", false),
    ("gl_FragDepth", "float", false), ("gl_FragData", "vec4", true)]

def builtinFrame : Frame :=
  builtinVariables.filterMap fun (name, type, isArray) =>
    (Ty.builtin? type).map fun ty => { name, ty, isArray }

/-- The scope at the start of a shader. -/
def initial (catalog : Catalog) : Scope where
  catalog
  functions := []
  structs := []
  globals := builtinFrame
  locals := []

/-- All frames, the innermost first and the global one last. -/
def frames (scope : Scope) : List Frame :=
  scope.locals ++ [scope.globals]

def depth (scope : Scope) : Nat :=
  scope.frames.length

def push (scope : Scope) : Scope :=
  { scope with locals := [] :: scope.locals }

/-- Leave the innermost frame; the global one stays. -/
def pop (scope : Scope) : Scope :=
  { scope with locals := scope.locals.tail }

/-- Declare a variable in the innermost frame. It hides an earlier one of its
name. -/
def declare (scope : Scope) (declared : Variable) : Scope :=
  match scope.locals with
  | [] => { scope with globals := declared :: scope.globals }
  | frame :: rest => { scope with locals := (declared :: frame) :: rest }

/-- The variable that a name stands for: the latest of the innermost frame
that has one. -/
def lookup? (scope : Scope) (name : String) : Option Variable :=
  scope.frames.findSome? fun frame => frame.find? (·.name = name)

@[simp] theorem pop_push (scope : Scope) : scope.push.pop = scope := rfl

theorem lookup?_push (scope : Scope) (name : String) :
    scope.push.lookup? name = scope.lookup? name := by
  simp [lookup?, push, frames, List.findSome?_cons]

theorem lookup?_declare (scope : Scope) (declared : Variable) (name : String) :
    (scope.declare declared).lookup? name =
      if declared.name = name then some declared else scope.lookup? name := by
  by_cases same : declared.name = name <;>
    cases locals : scope.locals <;>
      simp [lookup?, declare, frames, locals, same, List.findSome?_cons]

section Declare

variable (scope : Scope) (declared : Variable)

@[simp] theorem catalog_declare : (scope.declare declared).catalog = scope.catalog := by
  unfold declare
  split <;> rfl

theorem functions_declare : (scope.declare declared).functions = scope.functions := by
  unfold declare
  split <;> rfl

theorem structs_declare : (scope.declare declared).structs = scope.structs := by
  unfold declare
  split <;> rfl

theorem frames_declare :
    (scope.declare declared).frames = scope.frames.modifyHead (declared :: ·) := by
  unfold declare
  split <;> simp_all [frames]

end Declare

def declareFunction (scope : Scope) (signature : Signature) : Scope :=
  { scope with functions := scope.functions ++ [signature] }

/-- All overloads of a name: the declared ones first, then the builtin ones. -/
def overloads (scope : Scope) (name : String) : List Signature :=
  scope.functions.filter (·.name = name) ++ scope.catalog.overloads name

/-- Declare a type under its name, and for a struct the constructor that takes
its fields. A type without a name is not declared. -/
def declareStruct (scope : Scope) (ty : Ty) : Scope :=
  if ty.name.isEmpty then scope
  else
    let scope :=
      match ty with
      | .struct name fields =>
        scope.declareFunction { name, params := fields.map Prod.snd, result := ty }
      | _ => scope
    { scope with structs := (ty.name, ty) :: scope.structs }

@[simp] theorem catalog_declareStruct (scope : Scope) (ty : Ty) :
    (scope.declareStruct ty).catalog = scope.catalog := by
  unfold declareStruct
  split
  · rfl
  · cases ty <;> rfl

/-- The type of a name: a builtin one, else the one declared last. -/
def type? (scope : Scope) (name : String) : Option Ty :=
  (Ty.builtin? name).or (scope.structs.lookup name)

end Scope

end ShaderDialect
