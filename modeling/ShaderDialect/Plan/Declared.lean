import ShaderDialect.Inference.Finding
import ShaderDialect.Scope
import ShaderDialect.Tree.Basic

/-!
# Declarations read from the tree

What a type specifier, a struct, an interface block or a prototype declares.
Reading a type reports names that no type has.
-/

namespace ShaderDialect

/-- The type that a specifier names, reported where it is unknown. -/
def namedType (scope : Scope) (specifier : Tree) (findings : Findings) :
    Option Ty × Findings :=
  match specifier.typeName? with
  | none => (none, findings)
  | some name =>
    match scope.type? name, specifier.firstToken? with
    | none, some token =>
      (none, findings.report { token := token.index, problem := .unknownType name })
    | ty, _ => (ty, findings)

/-- One field for each identifier of a struct member. -/
def fieldsOf (member : Tree) (ty : Option Ty) : List (String × Ty) :=
  match ty with
  | none => []
  | some ty =>
    (member.childTokens.filter (·.kind = .identifier)).map fun token => (token.text, ty)

mutual

/-- The type that a type specifier stands for. -/
def specifiedType (scope : Scope) : Tree → Findings → Option Ty × Findings
  | .leaf _, findings => (none, findings)
  | .node kind children, findings =>
    match structAmong scope children findings with
    | (some ty, findings) => (some ty, findings)
    | (none, findings) => namedType scope (.node kind children) findings

/-- The struct that stands first among siblings. -/
def structAmong (scope : Scope) : List Tree → Findings → Option Ty × Findings
  | [], findings => (none, findings)
  | tree :: trees, findings =>
    if tree.hasKind .structSpecifier then
      let (ty, findings) := structType scope tree findings
      (some ty, findings)
    else structAmong scope trees findings

/-- The type that a struct specifier declares. Without a name its name is
empty. -/
def structType (scope : Scope) : Tree → Findings → Ty × Findings
  | .leaf _, findings => (Ty.structOf "" [], findings)
  | .node kind children, findings =>
    let name := ((Tree.node kind children).identifier?.map Token.text).getD ""
    let (fields, findings) := membersOf scope children findings
    (Ty.structOf name fields, findings)

/-- The fields of the members among siblings, in order. -/
def membersOf (scope : Scope) : List Tree → Findings → List (String × Ty) × Findings
  | [], findings => ([], findings)
  | tree :: trees, findings =>
    let (fields, findings) :=
      if tree.hasKind .structMember then memberOf scope tree findings else ([], findings)
    let (others, findings) := membersOf scope trees findings
    (fields ++ others, findings)

/-- The fields of one member. -/
def memberOf (scope : Scope) : Tree → Findings → List (String × Ty) × Findings
  | .leaf _, findings => ([], findings)
  | .node kind children, findings =>
    let (ty, findings) := specifierAmong scope children findings
    (fieldsOf (.node kind children) ty, findings)

/-- The type of the type specifier that stands first among siblings. -/
def specifierAmong (scope : Scope) : List Tree → Findings → Option Ty × Findings
  | [], findings => (none, findings)
  | tree :: trees, findings =>
    if tree.hasKind .typeSpecifier then specifiedType scope tree findings
    else specifierAmong scope trees findings

end

/-- A parameter as written. -/
structure Parameter where
  /-- The spelling of the type, with its array dimensions. -/
  typeText : String
  /-- The name of the type, without them. -/
  typeName : Option String
  name : Option String
  isArray : Bool
  /-- The token that the type starts with. -/
  typeToken : Nat

def Parameter.ofTree? (tree : Tree) : Option Parameter := do
  let specifier ← tree.findChild? .typeSpecifier
  let first ← specifier.firstToken?
  return {
    typeText := specifier.text
    typeName := specifier.typeName?
    name := tree.identifier?.map Token.text
    isArray := specifier.isArray || tree.isArray
    typeToken := first.index }

/-- The type of a parameter; an unknown one counts as `float`. -/
def Parameter.ty (param : Parameter) (scope : Scope) : Ty :=
  (param.typeName.bind scope.type?).getD Ty.float

/-- A prototype as written. -/
structure Prototype where
  name : String
  /-- The spelling of the result type, without qualifiers. -/
  result : String
  params : List Parameter

namespace Prototype

def ofTree? (tree : Tree) : Option Prototype := do
  let name ← tree.identifier?
  let type ← tree.findChild? .fullySpecifiedType
  let specifier ← type.findChild? .typeSpecifier
  let params ← (tree.children.filter (·.hasKind .parameterDeclaration)).mapM Parameter.ofTree?
  return { name := name.text, result := specifier.text, params }

def matchesParams : List Ty → List Parameter → Bool
  | [], [] => true
  | ty :: types, param :: params =>
    ! param.isArray && ty.name = param.typeText && matchesParams types params
  | _, _ => false

/-- Whether a prototype declares a builtin again: name, result type and
parameter types are those of one overload. -/
def isBuiltin (prototype : Prototype) (catalog : Catalog) : Bool :=
  (catalog.overloads prototype.name).any fun signature =>
    signature.result.name = prototype.result &&
      matchesParams signature.params prototype.params

/-- The overload that a prototype declares. An unknown result type is kept by
its spelling. -/
def signature (prototype : Prototype) (scope : Scope) : Signature where
  name := prototype.name
  params := prototype.params.map (·.ty scope)
  result := (scope.type? prototype.result).getD (.primitive prototype.result)

end Prototype

/-- Declare the parameters of a definition, and report those of unknown type. -/
def declareParameters (scope : Scope) (findings : Findings) :
    List Parameter → Scope × Findings
  | [] => (scope, findings)
  | param :: params =>
    let findings :=
      if (param.typeName.bind scope.type?).isSome then findings
      else findings.report
        { token := param.typeToken, problem := .unknownParameterType param.typeText }
    let scope :=
      match param.name with
      | none => scope
      | some name =>
        scope.declare { name, ty := param.ty scope, isArray := param.isArray }
    declareParameters scope findings params

/-- Declare the names of a member, each at the mark that ends it. `pending` is
the name last read, and whether it has array dimensions. -/
def declareNames (scope : Scope) (ty : Ty) (typeIsArray : Bool)
    (pending : Option (String × Bool)) :
    List Tree → Scope
  | [] => scope
  | .leaf token :: rest =>
    if token.kind = .identifier then
      declareNames scope ty typeIsArray (some (token.text, typeIsArray)) rest
    else
      match pending with
      | none => declareNames scope ty typeIsArray none rest
      | some (name, isArray) =>
        declareNames (scope.declare { name, ty, isArray }) ty typeIsArray none rest
  | tree :: rest =>
    if tree.hasKind .arraySpecifier then
      declareNames scope ty typeIsArray (pending.map fun (name, _) => (name, true)) rest
    else declareNames scope ty typeIsArray pending rest

/-- Declare the members of a block without an instance name, which are
variables of their own. -/
def declareMember (scope : Scope) (member : Tree) : Scope :=
  if member.hasKind .structMember then
    match member.findChild? .typeSpecifier with
    | none => scope
    | some specifier =>
      match specifier.typeName?.bind scope.type? with
      | none => scope
      | some ty => declareNames scope ty specifier.isArray none member.children
  else scope

/-- The tokens of a block from its opening brace on, and the token before it. -/
def braceOf (before : Option Token) : List Token → Option (Option Token × List Token)
  | [] => none
  | token :: rest =>
    if token.is "\x7b" then some (before, token :: rest) else braceOf (some token) rest

/-- Declare an interface block: its type, and its instance or else its
members. The name of a block stands right before its brace, since a qualifier
may be an identifier too. -/
def declareBlock (scope : Scope) (block : Tree) (findings : Findings) :
    Scope × Findings :=
  match braceOf none block.childTokens with
  | some (some blockName, inside) =>
    if blockName.kind = .identifier then
      let (fields, findings) := membersOf scope block.children findings
      let ty := Ty.structOf blockName.text fields
      match inside.find? (·.kind = .identifier) with
      | some instanceName =>
        ((scope.declareStruct ty).declare
          { name := instanceName.text, ty, isArray := block.isArray }, findings)
      | none => ((block.children.foldl declareMember scope).declareStruct ty, findings)
    else (scope, findings)
  | _ => (scope, findings)

end ShaderDialect
