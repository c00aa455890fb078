import ShaderDialect.Inference.Finding
import ShaderDialect.Scope
import ShaderDialect.Tree.Basic
import ShaderDialect.Type.Member

/-!
# Types of expressions

`typeOf` gives the type of an expression as far as it can be told: names,
literals, members, elements, calls, and what wraps them. An expression may have
no type that can be told; a member that its owner does not have is a finding.
-/

namespace ShaderDialect.Inference

/-- The type of a name or literal. -/
def typeOfPrimary? (scope : Scope) (primary : Tree) : Option Ty :=
  primary.childTokens.head?.bind fun token =>
    match token.kind with
    | .identifier => (scope.lookup? token.text).map Variable.ty
    | .intLiteral => scope.type? "int"
    | .uintLiteral => scope.type? "uint"
    | .floatLiteral => scope.type? "float"
    | .boolLiteral => scope.type? "bool"
    | _ => none

/-- The element type of an array that an expression names. -/
def arrayElement? (scope : Scope) (tree : Tree) : Option Ty :=
  if tree.hasKind .primaryExpression then do
    let name ← tree.identifier?
    let found ← scope.lookup? name.text
    if found.isArray then some found.ty else none
  else none

/-- The type that a call gives: that of the constructor's name, else the one
result on which all overloads agree. -/
def typeOfCall? (scope : Scope) (call : Tree) : Option Ty :=
  call.callName?.bind fun name =>
    match scope.type? name with
    | some ty => some ty
    | none =>
      match scope.overloads name with
      | [] => none
      | first :: others =>
        if others.all (·.result.same first.result) then some first.result else none

mutual

/-- The type of an expression, if it can be told. -/
def typeOf (scope : Scope) : Tree → Except Finding (Option Ty)
  | .leaf _ => .ok none
  | .node kind children =>
    let tree := Tree.node kind children
    match kind with
    | .primaryExpression => .ok (typeOfPrimary? scope tree)
    | .fieldSelection =>
      match tree.identifier? with
      | none => .ok none
      | some field =>
        match typeOfNth scope 0 children with
        | .error finding => .error finding
        | .ok none => .ok none
        | .ok (some owner) =>
          match owner.member field.text with
          | .ok ty => .ok (some ty)
          | .error cause => .error { token := field.index, problem := .member cause }
    | .indexExpression =>
      match tree.childNodes.head?.bind (arrayElement? scope) with
      | some ty => .ok (some ty)
      | none => (typeOfNth scope 0 children).map (·.bind Ty.element?)
    | .functionCall => .ok (typeOfCall? scope tree)
    | .conditionalExpression => typeOfNth scope 1 children
    | .parenExpression => typeOfNth scope 0 children
    | .assignmentExpression => typeOfNth scope 0 children
    | .unaryExpression => typeOfNth scope 0 children
    | .postfixExpression => typeOfNth scope 0 children
    | .expression => typeOfNth scope (tree.childNodes.length - 1) children
    | _ => .ok none

/-- The type of the node at place `n` among the nodes of a list of siblings. -/
def typeOfNth (scope : Scope) : Nat → List Tree → Except Finding (Option Ty)
  | _, [] => .ok none
  | n, tree :: trees =>
    if tree.isNode then
      match n with
      | 0 => typeOf scope tree
      | n + 1 => typeOfNth scope n trees
    else typeOfNth scope n trees

end

end ShaderDialect.Inference
