import ShaderDialect.Inference.Call
import ShaderDialect.Inference.Demand
import ShaderDialect.Plan.Declared
import ShaderDialect.Plan.Edits
import ShaderDialect.Table.Side
import ShaderDialect.Tree.Arena

/-!
# The walk over the tree

One walk in source order decides for every node whether it stands in a float
context, promotes the integer literals that do, deletes functions that declare
a builtin again, and keeps the scope. Contexts flow down: declarations,
assignments and calls set one of their own for what they hold, and everything
else hands its own on.

`enter` decides what happens at a node before its children are visited,
`leave` what happens after. Nodes are numbered as the walk completes them,
which is the numbering of `Tree.Arena`. The walk only records what is to be
written; a plan is read from the record.
-/

namespace ShaderDialect

namespace Plan

/-- One write of the walk. -/
inductive Write where
  /-- Mark a node with its context. -/
  | stamp (node : Nat) (context : Bool)
  /-- Plan a spelling for a token. -/
  | spell (token : Nat) (text : String)
deriving DecidableEq

namespace Write

def onEdits (edits : Edits) : Write → Edits
  | .stamp _ _ => edits
  | .spell token text => edits.replace token text

def onContexts (contexts : SideTable Bool) : Write → SideTable Bool
  | .stamp node context => (contexts.insert node context).2
  | .spell _ _ => contexts

end Write

/-- What the walk keeps. `next` is the number of the node that is completed
next. -/
structure State where
  scope : Scope
  findings : Findings
  written : Array Write
  next : Nat

/-- How a tree stands to its parent. -/
inductive Role where
  /-- An ordinary part, in the context handed on to it. -/
  | part (context : Bool)
  /-- An argument of a call, and whether a floating one is expected. -/
  | argument (expectsFloat : Bool)
  /-- A declarator behind its type. -/
  | declarator (type : Option Ty) (typeIsArray : Bool)
  /-- The body of a function, which shares the frame of the parameters. -/
  | body

/-- How the children of a node are visited. -/
inductive Siblings where
  /-- All in one context, which promotes the literals directly below. -/
  | uniform (context : Bool)
  /-- A callee and arguments; the flags are those of the arguments to come. -/
  | call (flags : List Bool)
  /-- An indexed operand in a context, and an index in none. -/
  | index (context : Bool)
  /-- A type and its declarators, with what the type was found to be. -/
  | declarators (type : Option Ty) (typeIsArray : Bool)
  /-- A prototype and a body. -/
  | definition

/-- What `enter` decides for a node: its context, and how to go on below it. -/
inductive Entry where
  /-- Leave everything below out. -/
  | skip (context : Bool)
  | descend (context : Bool) (siblings : Siblings)

namespace State

def mapScope (state : State) (f : Scope → Scope) : State :=
  { state with scope := f state.scope }

/-- Record some writes. -/
def record (state : State) (writes : List Write) : State :=
  { state with written := state.written ++ writes }

@[simp] theorem scope_record (state : State) (writes : List Write) :
    (state.record writes).scope = state.scope := rfl

/-- Complete a node in the given context. -/
def complete (state : State) (context : Bool) : State :=
  { state.record [.stamp state.next context] with next := state.next + 1 }

/-- Pass over `count` nodes. -/
def passOver (state : State) (count : Nat) : State :=
  { state with next := state.next + count }

end State

/-- The floating spelling of an integer literal. Hexadecimal and octal ones
have none. -/
def promoted? (token : Token) : Option String :=
  match token.kind, token.text.toList with
  | .intLiteral, '0' :: _ :: _ => none
  | .intLiteral, _ => some (token.text ++ ".0")
  | _, _ => none

def promote (state : State) (token : Token) : State :=
  match promoted? token with
  | none => state
  | some text => state.record [.spell token.index text]

/-- The writes that delete all tokens of a tree. -/
def deletions (tree : Tree) : List Write :=
  match tree.firstToken?, tree.lastToken? with
  | some first, some last =>
    (List.range' first.index (last.index + 1 - first.index)).map (.spell · "")
  | _, _ => []

def deleteTree (state : State) (tree : Tree) : State :=
  state.record (deletions tree)

def isAssignment (tree : Tree) : Bool :=
  tree.childTokens.any fun token =>
    token.kind = .punct && Vocabulary.assignmentOperators.contains token.text

/-- Whether the target of an assignment is a floating scalar or vector. -/
def storesFloat (state : State) (tree : Tree) : Bool × State :=
  if isAssignment tree then
    match Inference.typeOfNth state.scope 0 tree.children with
    | .error finding => (false, { state with findings := state.findings.report finding })
    | .ok ty => (ty.any Ty.isFloatScalarOrVector, state)
  else (false, state)

/-- Whether an assignment expression sets a float context by itself: it is
expected to be floating, or stores into a floating target, or demands floating
operands. Later reasons are not looked at once one is found. -/
def setsFloat (state : State) (tree : Tree) (expectsFloat : Bool) : Bool × State :=
  if expectsFloat then (true, state)
  else
    match storesFloat state tree with
    | (true, state) => (true, state)
    | (false, state) =>
      let (answer, findings) := Inference.demandsFloat state.scope tree state.findings
      (answer, { state with findings })

def enterAssignment (state : State) (tree : Tree) (inherited expectsFloat : Bool) :
    Entry × State :=
  let (own, state) := setsFloat state tree expectsFloat
  (.descend (inherited || own) (.uniform (inherited || own)), state)

/-- A function that declares a builtin again is deleted. Any other one is
declared, with its parameters in a frame of their own. -/
def enterDefinition (state : State) (tree : Tree) (context : Bool) : Entry × State :=
  match (tree.findChild? .functionPrototype).bind Prototype.ofTree? with
  | none => (.skip context, state)
  | some prototype =>
    if prototype.isBuiltin state.scope.catalog then (.skip context, deleteTree state tree)
    else
      let (scope, findings) :=
        declareParameters state.scope.push state.findings prototype.params
      let scope := scope.declareFunction (prototype.signature scope)
      (.descend context .definition, { state with scope, findings })

/-- A prototype of a builtin is deleted, and any other one declared. -/
def enterDeclaration (state : State) (tree : Tree) (context : Bool) : Entry × State :=
  match tree.findChild? .functionPrototype with
  | none => (.descend context (.uniform false), state)
  | some child =>
    match Prototype.ofTree? child with
    | none => (.skip context, state)
    | some prototype =>
      if prototype.isBuiltin state.scope.catalog then (.skip context, deleteTree state tree)
      else
        (.descend context (.uniform false),
          state.mapScope fun scope => scope.declareFunction (prototype.signature scope))

/-- The context that a node of the given kind takes over. Array sizes and
layouts are integral whatever is around them. -/
def takeOver (kind : NodeKind) (context : Bool) : Bool :=
  match kind with
  | .arraySpecifier => false
  | .layoutQualifier => false
  | _ => context

/-- Enter an ordinary part. -/
def enterPart (state : State) (kind : NodeKind) (tree : Tree) (context : Bool) :
    Entry × State :=
  match kind with
  | .assignmentExpression => enterAssignment state tree context false
  | .functionDefinition => enterDefinition state tree context
  | .declaration => enterDeclaration state tree context
  | .initDeclaratorList => (.descend context (.declarators none false), state)
  | .structSpecifier => (.descend context (.uniform false), state)
  | .interfaceBlock => (.descend context (.uniform false), state)
  | .compoundStatement => (.descend context (.uniform context), state.mapScope Scope.push)
  | .forStatement => (.descend context (.uniform context), state.mapScope Scope.push)
  | .functionCall =>
    (.descend context (.call (Inference.callFlags state.scope tree)), state)
  | .indexExpression => (.descend context (.index context), state)
  | _ => (.descend context (.uniform context), state)

def enter (state : State) (role : Role) (kind : NodeKind) (tree : Tree) : Entry × State :=
  match role with
  | .part context => enterPart state kind tree (takeOver kind context)
  | .argument expectsFloat => enterAssignment state tree false expectsFloat
  | .declarator type _ =>
    let context := type.any Ty.isFloat
    (.descend context (.uniform context), state)
  | .body => (.descend false (.uniform false), state)

/-- Declare the variable of a declarator whose type is known. -/
def declareVariable (scope : Scope) (tree : Tree) (type : Option Ty)
    (typeIsArray : Bool) : Scope :=
  match type, tree.identifier? with
  | some ty, some name =>
    scope.declare { name := name.text, ty, isArray := typeIsArray || tree.isArray }
  | _, _ => scope

/-- Leave an ordinary part. -/
def leavePart (state : State) (kind : NodeKind) (tree : Tree) : State :=
  match kind with
  | .functionDefinition => state.mapScope Scope.pop
  | .compoundStatement => state.mapScope Scope.pop
  | .forStatement => state.mapScope Scope.pop
  | .structSpecifier =>
    let (ty, findings) := structType state.scope tree state.findings
    { state with scope := state.scope.declareStruct ty, findings }
  | .interfaceBlock =>
    let (scope, findings) := declareBlock state.scope tree state.findings
    { state with scope, findings }
  | _ => state

def leave (state : State) (role : Role) (kind : NodeKind) (tree : Tree) : State :=
  match role with
  | .part _ => leavePart state kind tree
  | .argument _ => state
  | .declarator type typeIsArray =>
    state.mapScope fun scope => declareVariable scope tree type typeIsArray
  | .body => state

namespace Siblings

/-- How a child stands to its parent. Only among uniform siblings may a token
be promoted. -/
def role (siblings : Siblings) (child : Tree) : Role :=
  match siblings with
  | .uniform context => .part context
  | .call flags =>
    if child.hasKind .assignmentExpression then .argument (flags.headD false) else .part false
  | .index context => .part (context && child.isNode && ! child.hasKind .expression)
  | .declarators type typeIsArray =>
    if child.hasKind .declarator then .declarator type typeIsArray else .part false
  | .definition => if child.hasKind .compoundStatement then .body else .part false

/-- How the siblings after a child are visited. A type tells what the
declarators behind it declare. -/
def after (siblings : Siblings) (child : Tree) (state : State) : Siblings × State :=
  match siblings with
  | .call flags =>
    (.call (if child.hasKind .assignmentExpression then flags.tail else flags), state)
  | .declarators type typeIsArray =>
    if child.hasKind .fullySpecifiedType then
      match child.findChild? .typeSpecifier with
      | none => (.declarators type typeIsArray, state)
      | some specifier =>
        let (type, findings) := specifiedType state.scope specifier state.findings
        (.declarators type specifier.isArray, { state with findings })
    else (.declarators type typeIsArray, state)
  | siblings => (siblings, state)

end Siblings

mutual

/-- Visit a tree in its role. -/
def visit (role : Role) : Tree → State → State
  | .leaf token, state =>
    match role with
    | .part true => promote state token
    | _ => state
  | .node kind children, state =>
    match enter state role kind (.node kind children) with
    | (.skip context, state) => (state.passOver (Tree.sizeAll children)).complete context
    | (.descend context siblings, state) =>
      (leave (visitAll siblings children state) role kind (.node kind children)).complete context

/-- Visit siblings from left to right. -/
def visitAll (siblings : Siblings) : List Tree → State → State
  | [], state => state
  | tree :: trees, state =>
    let (siblings', state) := siblings.after tree (visit (siblings.role tree) tree state)
    visitAll siblings' trees state

end

/-- The state before a walk. -/
def start (catalog : Catalog) : State where
  scope := Scope.initial catalog
  findings := Findings.empty
  written := #[]
  next := 0

end Plan

/-- What is to be done to a shader: the edits, what was found on the way, and
the context of each node that was visited. -/
structure Plan where
  edits : Edits
  findings : Findings
  contexts : SideTable Bool

namespace Plan

/-- The plan that a walk over `size` nodes ends with. -/
def ofState (state : State) (size : Nat) : Plan where
  edits := state.written.toList.foldl Write.onEdits Edits.empty
  findings := state.findings
  contexts :=
    state.written.toList.foldl Write.onContexts (SideTable.emptyWithCapacity size)

def ofTree (catalog : Catalog) (root : Tree) : Plan :=
  ofState (visit (.part false) root (start catalog)) root.size

/-- Whether a node was visited in a float context. -/
def inFloatContext (plan : Plan) (node : Nat) : Bool :=
  plan.contexts.get? node = some true

/-- The nodes in a float context, in ascending order. -/
def floatNodes (plan : Plan) : List Nat :=
  (plan.contexts.toList.filter Prod.snd).map Prod.fst

end Plan

end ShaderDialect
