import ShaderDialect.Inference.Typing

/-!
# Expressions that demand floating operands

An expression demands floating operands when one of its parts is a floating
literal, a `float` variable or a `float` member. An integer literal adds to
that only when the operand just before it is a `float`. Every part is looked
at, so that everything unresolved is reported.
-/

namespace ShaderDialect.Inference

/-- What one query keeps: the type of the operand met last, and the findings. -/
structure Query where
  recent : Option Ty
  findings : Findings

namespace Query

def report (query : Query) (finding : Finding) : Query :=
  { query with findings := query.findings.report finding }

def meet (query : Query) (ty : Ty) : Query :=
  { query with recent := some ty }

def forget (query : Query) : Query :=
  { query with recent := none }

end Query

/-- The answer for a name or literal. -/
def primaryDemand (scope : Scope) (primary : Tree) (query : Query) : Bool × Query :=
  match primary.childTokens.head? with
  | none => (false, query)
  | some token =>
    match token.kind with
    | .floatLiteral => (true, query)
    | .intLiteral => (query.recent.any Ty.isFloat, query)
    | .identifier =>
      match scope.lookup? token.text with
      | some found => (found.ty.isFloat, query.meet found.ty)
      | none =>
        if (scope.overloads token.text).isEmpty then
          (false, query.report
            { token := token.index, problem := .unresolvedIdentifier token.text })
        else (false, query)
    | _ => (false, query)

/-- The answer for a member, given the answer for its owner and the owner's
type. -/
def memberDemand (field : Option Token) (owner : Except Finding (Option Ty))
    (fromOwner : Bool) (query : Query) : Bool × Query :=
  match field with
  | none => (fromOwner, query)
  | some field =>
    match owner with
    | .error finding => (fromOwner, query.report finding)
    | .ok none => (fromOwner, query)
    | .ok (some owner) =>
      match owner.member field.text with
      | .ok ty => (fromOwner || ty.isFloat, query.meet ty)
      | .error cause =>
        (fromOwner, query.report { token := field.index, problem := .member cause })

mutual

/-- Whether an expression demands floating operands. -/
def demand (scope : Scope) : Tree → Query → Bool × Query
  | .leaf _, query => (false, query)
  | .node kind children, query =>
    match kind with
    | .primaryExpression => primaryDemand scope (.node kind children) query
    | .fieldSelection =>
      let (fromOwner, query) := demandFirst scope children query
      memberDemand (Tree.node kind children).identifier? (typeOfNth scope 0 children)
        fromOwner query
    | .functionCall => demandArguments scope children query
    | .assignmentExpression =>
      let (any, query) := demandAll scope children query
      (any, query.forget)
    | _ => demandAll scope children query

/-- The answer for the first node of a list of siblings. -/
def demandFirst (scope : Scope) : List Tree → Query → Bool × Query
  | [], query => (false, query)
  | tree :: trees, query =>
    if tree.isNode then demand scope tree query else demandFirst scope trees query

/-- Whether one of the arguments of a call does. The callee is a name and not
an operand. -/
def demandArguments (scope : Scope) : List Tree → Query → Bool × Query
  | [], query => (false, query)
  | tree :: trees, query =>
    if tree.hasKind .assignmentExpression then
      let (first, query) := demand scope tree query
      let (others, query) := demandArguments scope trees query
      (first || others, query)
    else demandArguments scope trees query

/-- Whether one of a list of siblings does. -/
def demandAll (scope : Scope) : List Tree → Query → Bool × Query
  | [], query => (false, query)
  | tree :: trees, query =>
    let (first, query) := demand scope tree query
    let (others, query) := demandAll scope trees query
    (first || others, query)

end

/-- Ask whether an expression demands floating operands. -/
def demandsFloat (scope : Scope) (tree : Tree) (findings : Findings) : Bool × Findings :=
  let (answer, query) := demand scope tree { recent := none, findings }
  (answer, query.findings)

end ShaderDialect.Inference
