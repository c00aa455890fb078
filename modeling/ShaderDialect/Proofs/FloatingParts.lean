import ShaderDialect.Catalog.Bundled
import ShaderDialect.Inference.Demand
import ShaderDialect.Proofs.Lossless

/-!
# Floating parts of expressions

A query remembers the operand it met last, because an integer literal behind a
floating operand counts as floating. That operand has made the answer positive
already, so nothing comes of it: an expression demands floating operands exactly
when one of its parts is floating by itself, and a query that remembers nothing
gives the same answer and reports the same.
-/

namespace ShaderDialect.Inference

/-- The children that a query goes on to: all of them, but of a call not the
callee, which stands first. -/
def operandsOf (kind : NodeKind) (children : List Tree) : List Tree :=
  if kind = .functionCall then children.tail else children

/-- The parts of a tree that do not belong to a callee; the tree is one of them. -/
inductive Holds : Tree → Tree → Prop
  | self (tree : Tree) : Holds tree tree
  | operand {kind : NodeKind} {children : List Tree} {child part : Tree}
      (member : child ∈ operandsOf kind children) (inside : Holds child part) :
      Holds (.node kind children) part

/-- A floating literal, a `float` variable, or a `float` member of an owner whose
type can be told. -/
inductive IsFloating (scope : Scope) : Tree → Prop
  | literal {token : Token} (isLiteral : token.kind = .floatLiteral) :
      IsFloating scope (.node .primaryExpression [.leaf token])
  | name {token : Token} {found : Variable} (isName : token.kind = .identifier)
      (bound : scope.lookup? token.text = some found) (isFloat : found.ty.isFloat) :
      IsFloating scope (.node .primaryExpression [.leaf token])
  | member {owner : Tree} {point field : Token} {ty inner : Ty}
      (typed : typeOf scope owner = .ok (some ty)) (selects : ty.member field.text = .ok inner)
      (isFloat : inner.isFloat) :
      IsFloating scope (.node .fieldSelection [owner, .leaf point, .leaf field])

/-- Whether some part of a tree is floating by itself. -/
def HoldsFloating (scope : Scope) (tree : Tree) : Prop :=
  ∃ part, Holds tree part ∧ IsFloating scope part

/-! ### A query without memory -/

/-- The answer for a name or literal that does not depend on what was met before:
an integer literal adds nothing. -/
def plainPrimary (scope : Scope) (primary : Tree) (findings : Findings) :
    Bool × Findings :=
  match primary.childTokens.head? with
  | none => (false, findings)
  | some token =>
    match token.kind with
    | .floatLiteral => (true, findings)
    | .identifier =>
      match scope.lookup? token.text with
      | some found => (found.ty.isFloat, findings)
      | none =>
        if (scope.overloads token.text).isEmpty then
          (false, findings.report
            { token := token.index, problem := .unresolvedIdentifier token.text })
        else (false, findings)
    | _ => (false, findings)

/-- The answer for a member, given the answer for its owner and the owner's type. -/
def plainMember (field : Option Token) (owner : Except Finding (Option Ty))
    (fromOwner : Bool) (findings : Findings) : Bool × Findings :=
  match field with
  | none => (fromOwner, findings)
  | some field =>
    match owner with
    | .error finding => (fromOwner, findings.report finding)
    | .ok none => (fromOwner, findings)
    | .ok (some owner) =>
      match owner.member field.text with
      | .ok ty => (fromOwner || ty.isFloat, findings)
      | .error cause =>
        (fromOwner, findings.report { token := field.index, problem := .member cause })

mutual

/-- Whether an expression demands floating operands, told part by part. -/
def plainDemand (scope : Scope) : Tree → Findings → Bool × Findings
  | .leaf _, findings => (false, findings)
  | .node kind children, findings =>
    match kind with
    | .primaryExpression => plainPrimary scope (.node kind children) findings
    | .fieldSelection =>
      let (fromOwner, findings) := plainFirst scope children findings
      plainMember (Tree.node kind children).identifier? (typeOfNth scope 0 children)
        fromOwner findings
    | .functionCall => plainArguments scope children findings
    | _ => plainAll scope children findings

def plainFirst (scope : Scope) : List Tree → Findings → Bool × Findings
  | [], findings => (false, findings)
  | tree :: trees, findings =>
    if tree.isNode then plainDemand scope tree findings else plainFirst scope trees findings

def plainArguments (scope : Scope) : List Tree → Findings → Bool × Findings
  | [], findings => (false, findings)
  | tree :: trees, findings =>
    if tree.hasKind .assignmentExpression then
      let (first, findings) := plainDemand scope tree findings
      let (others, findings) := plainArguments scope trees findings
      (first || others, findings)
    else plainArguments scope trees findings

def plainAll (scope : Scope) : List Tree → Findings → Bool × Findings
  | [], findings => (false, findings)
  | tree :: trees, findings =>
    let (first, findings) := plainDemand scope tree findings
    let (others, findings) := plainAll scope trees findings
    (first || others, findings)

end

/-! ### What is remembered adds nothing -/

/-- A floating operand that is remembered has been counted: `any` is the answer
for all that was met before. -/
def Query.Counted (any : Bool) (query : Query) : Prop :=
  query.recent.any Ty.isFloat → any = true

/-- Two answers for a part are as good as one, behind parts with the answer
`any`. -/
structure Agrees (any : Bool) (answer : Bool × Query) (plain : Bool × Findings) :
    Prop where
  verdict : (any || answer.1) = (any || plain.1)
  findings : answer.2.findings = plain.2
  counted : answer.2.Counted (any || plain.1)

section Agrees

variable {any : Bool} {query : Query}

/-- Where nothing new is met, what is remembered is still counted. -/
theorem Agrees.same (counted : query.Counted any) (answer : Bool) :
    Agrees any (answer, query) (answer, query.findings) where
  verdict := rfl
  findings := rfl
  counted float := by rw [counted float, Bool.true_or]

/-- A type that is met counts with its own answer. -/
theorem Agrees.meet {ty : Ty} {answer plain : Bool}
    (same : (any || answer) = (any || plain)) :
    Agrees any (answer || ty.isFloat, query.meet ty) (plain || ty.isFloat, query.findings) where
  verdict := by rw [← Bool.or_assoc, same, Bool.or_assoc]
  findings := rfl
  counted float := by
    have isFloat : ty.isFloat = true := float
    rw [isFloat, Bool.or_true, Bool.or_true]

/-- One part after the other. -/
theorem Agrees.append {first second : Bool × Query} {plain plain' : Bool × Findings}
    (h : Agrees any first plain) (h' : Agrees (any || plain.1) second plain') :
    Agrees any (first.1 || second.1, second.2) (plain.1 || plain'.1, plain'.2) where
  verdict := by rw [← Bool.or_assoc, h.verdict, h'.verdict, Bool.or_assoc]
  findings := h'.findings
  counted float := by rw [← Bool.or_assoc, h'.counted float]

theorem Agrees.forget {answer : Bool × Query} {plain : Bool × Findings}
    (h : Agrees any answer plain) :
    Agrees any (answer.1, answer.2.forget) plain where
  verdict := h.verdict
  findings := h.findings
  counted float := by cases float

theorem agrees_primary (scope : Scope) (primary : Tree) (counted : query.Counted any) :
    Agrees any (primaryDemand scope primary query) (plainPrimary scope primary query.findings) := by
  unfold primaryDemand plainPrimary
  cases primary.childTokens.head? with
  | none => exact .same counted false
  | some token =>
    dsimp only
    cases token.kind with
    | floatLiteral => exact .same counted true
    | intLiteral =>
      -- The literal is positive behind a floating operand only, which is counted.
      refine ⟨?_, rfl, (Agrees.same counted false).counted⟩
      cases behind : query.recent.any Ty.isFloat with
      | false => rfl
      | true => rw [counted behind, Bool.true_or, Bool.true_or]
    | identifier =>
      dsimp only
      cases scope.lookup? token.text with
      | some found =>
        have met : Agrees any (false || found.ty.isFloat, query.meet found.ty)
          (false || found.ty.isFloat, query.findings) := .meet rfl
        simpa using met
      | none =>
        dsimp only
        split
        · exact ⟨rfl, rfl, (Agrees.same counted false).counted⟩
        · exact .same counted false
    | _ => exact .same counted false

theorem agrees_member (field : Option Token) (owner : Except Finding (Option Ty))
    {answer : Bool × Query} {plain : Bool × Findings} (h : Agrees any answer plain) :
    Agrees any (memberDemand field owner answer.1 answer.2)
      (plainMember field owner plain.1 plain.2) := by
  obtain ⟨plain, findings⟩ := plain
  obtain ⟨same, rfl, counted⟩ := h
  unfold memberDemand plainMember
  cases field with
  | none => exact ⟨same, rfl, counted⟩
  | some field =>
    match owner with
    | .error finding => exact ⟨same, rfl, counted⟩
    | .ok none => exact ⟨same, rfl, counted⟩
    | .ok (some owner) =>
      dsimp only
      cases owner.member field.text with
      | ok ty => exact .meet same
      | error cause => exact ⟨same, rfl, counted⟩

mutual

/-- A query that remembers agrees with one that does not, as long as what it
remembers is counted. -/
theorem agrees_demand (scope : Scope) : ∀ (tree : Tree) {any : Bool} {query : Query},
    query.Counted any → Agrees any (demand scope tree query) (plainDemand scope tree query.findings)
  | .leaf _, _, _, counted => .same counted false
  | .node kind children, _, query, counted => by
    unfold demand plainDemand
    cases kind with
    | primaryExpression => exact agrees_primary scope _ counted
    | fieldSelection =>
      exact agrees_member _ _ (agrees_demandFirst scope children counted)
    | functionCall => exact agrees_demandArguments scope children counted
    | assignmentExpression => exact (agrees_demandAll scope children counted).forget
    | _ => exact agrees_demandAll scope children counted

theorem agrees_demandFirst (scope : Scope) :
    ∀ (trees : List Tree) {any : Bool} {query : Query},
    query.Counted any →
      Agrees any (demandFirst scope trees query) (plainFirst scope trees query.findings)
  | [], _, _, counted => .same counted false
  | tree :: trees, _, _, counted => by
    unfold demandFirst plainFirst
    split
    · exact agrees_demand scope tree counted
    · exact agrees_demandFirst scope trees counted

theorem agrees_demandArguments (scope : Scope) :
    ∀ (trees : List Tree) {any : Bool} {query : Query},
    query.Counted any →
      Agrees any (demandArguments scope trees query) (plainArguments scope trees query.findings)
  | [], _, _, counted => .same counted false
  | tree :: trees, _, _, counted => by
    unfold demandArguments plainArguments
    split
    · have first := agrees_demand scope tree counted
      have others := agrees_demandArguments scope trees first.counted
      rw [first.findings] at others
      exact first.append others
    · exact agrees_demandArguments scope trees counted

theorem agrees_demandAll (scope : Scope) :
    ∀ (trees : List Tree) {any : Bool} {query : Query},
    query.Counted any →
      Agrees any (demandAll scope trees query) (plainAll scope trees query.findings)
  | [], _, _, counted => .same counted false
  | tree :: trees, _, _, counted => by
    have first := agrees_demand scope tree counted
    have others := agrees_demandAll scope trees first.counted
    rw [first.findings] at others
    unfold demandAll plainAll
    exact first.append others

end

end Agrees

theorem demandsFloat_eq_plainDemand (scope : Scope) (tree : Tree) (findings : Findings) :
    demandsFloat scope tree findings = plainDemand scope tree findings := by
  have nothing : Query.Counted false ⟨none, findings⟩ := by
    intro float
    cases float
  have agree := agrees_demand scope tree nothing
  exact Prod.ext agree.verdict agree.findings

/-! ### The answer part by part -/

theorem holds_leaf {token : Token} {part : Tree} (h : Holds (.leaf token) part) :
    part = .leaf token := by
  cases h
  rfl

theorem not_holdsFloating_leaf (scope : Scope) (token : Token) :
    ¬ HoldsFloating scope (.leaf token) := by
  rintro ⟨part, held, floating⟩
  rw [holds_leaf held] at floating
  cases floating

/-- A tree has a floating part where it is floating itself, or an operand of it
has one. -/
theorem holdsFloating_node {scope : Scope} {kind : NodeKind} {children : List Tree} :
    HoldsFloating scope (.node kind children) ↔
      IsFloating scope (.node kind children) ∨
        ∃ child ∈ operandsOf kind children, HoldsFloating scope child := by
  constructor
  · rintro ⟨part, held, floating⟩
    cases held with
    | self => exact Or.inl floating
    | operand member inside => exact Or.inr ⟨_, member, part, inside, floating⟩
  · rintro (floating | ⟨child, member, part, inside, floating⟩)
    · exact ⟨_, .self _, floating⟩
    · exact ⟨part, .operand member inside, floating⟩

section Parts

variable {scope : Scope} {trees : List Tree}
  (each : ∀ tree ∈ trees, ∀ findings,
    (plainDemand scope tree findings).1 = true ↔ HoldsFloating scope tree)

include each

theorem plainAll_iff (findings : Findings) :
    (plainAll scope trees findings).1 = true ↔
      ∃ tree ∈ trees, HoldsFloating scope tree := by
  induction trees generalizing findings with
  | nil => simp [plainAll]
  | cons tree trees ih =>
    obtain ⟨here, behind⟩ := List.forall_mem_cons.1 each
    rw [plainAll, List.exists_mem_cons_iff, Bool.or_eq_true_iff, here, ih behind]

theorem plainArguments_iff (findings : Findings) :
    (plainArguments scope trees findings).1 = true ↔
      ∃ tree ∈ trees, tree.hasKind .assignmentExpression ∧ HoldsFloating scope tree := by
  induction trees generalizing findings with
  | nil => simp [plainArguments]
  | cons tree trees ih =>
    obtain ⟨here, behind⟩ := List.forall_mem_cons.1 each
    rw [plainArguments, List.exists_mem_cons_iff]
    split
    · rename_i isArgument
      rw [Bool.or_eq_true_iff, here, ih behind, and_iff_right isArgument]
    · rename_i noArgument
      rw [ih behind, or_iff_right fun both => noArgument both.1]

end Parts

theorem plainPrimary_iff {scope : Scope} {token : Token} {findings : Findings} :
    (plainPrimary scope (.node .primaryExpression [.leaf token]) findings).1 = true ↔
      IsFloating scope (.node .primaryExpression [.leaf token]) := by
  constructor
  · intro positive
    unfold plainPrimary at positive
    simp only [Tree.childTokens, Tree.children, Tree.token?, List.filterMap_cons,
      List.head?_cons]
      at positive
    split at positive
    · exact .literal ‹_›
    · split at positive
      · exact .name ‹_› ‹_› positive
      · split at positive <;> cases positive
    · cases positive
  · intro floating
    cases floating with
    | literal isLiteral =>
      simp [plainPrimary, Tree.childTokens, Tree.children, Tree.token?, isLiteral]
    | name isName bound isFloat =>
      simp [plainPrimary, Tree.childTokens, Tree.children, Tree.token?, isName,
        bound, isFloat]

theorem plainMember_iff {scope : Scope} {owner : Tree} (point : Token) {field : Token}
    {fromOwner : Bool} {findings : Findings} :
    (plainMember (some field) (typeOf scope owner) fromOwner findings).1 = true ↔
      fromOwner = true ∨ IsFloating scope
        (.node .fieldSelection [owner, .leaf point, .leaf field]) := by
  constructor
  · intro positive
    unfold plainMember at positive
    dsimp only at positive
    split at positive
    · exact Or.inl positive
    · exact Or.inl positive
    · rename_i ty typed
      split at positive
      · rename_i inner selects
        exact (Bool.or_eq_true_iff.1 positive).imp id fun isFloat =>
          .member typed selects isFloat
      · exact Or.inl positive
  · rintro (positive | floating)
    · unfold plainMember
      repeat' split
      all_goals simp [positive]
    · cases floating with
      | member typed selects isFloat => simp [plainMember, typed, selects, isFloat]

/-- A member selection is an owner, a point and a name. -/
theorem exists_of_fieldSelection {children : List Tree}
    (form : NodeKind.fieldSelection.form.Matches children) :
    ∃ kind parts point field, children = [.node kind parts, .leaf point, .leaf field] ∧
      (Tree.node .fieldSelection children).identifier? = some field := by
  obtain ⟨_, _, rfl, ⟨kind, parts, rfl, -⟩, _, _, rfl, ⟨point, rfl, isPoint⟩, _, _, rfl,
    ⟨field, rfl, isName⟩, rfl⟩ := form
  have other : point.kind ≠ .identifier := by
    intro isIdentifier
    simp [TokenClass.admits, Token.is, isIdentifier] at isPoint
  have own : field.kind = .identifier := by simpa [TokenClass.admits] using isName
  exact ⟨kind, parts, point, field, rfl, by
    simp [Tree.identifier?, Tree.childTokens, Tree.children, Tree.token?, other, own]⟩

/-- The arguments of a call are the nodes behind its callee. -/
theorem exists_of_functionCall {children : List Tree}
    (form : NodeKind.functionCall.form.Matches children) :
    ∃ callee others, children = callee :: others ∧
      callee.hasKind .assignmentExpression = false ∧
      ∀ child ∈ others, child.isNode → child.hasKind .assignmentExpression := by
  obtain ⟨first, others, rfl, callee, list⟩ := form
  have behind : ∀ child ∈ others, child.isNode → child.hasKind .assignmentExpression := by
    intro child member isNode
    have mentioned := Form.mentions_of_mem list member
    cases child with
    | leaf token => cases isNode
    | node kind parts =>
      have listed : kind ∈ [NodeKind.assignmentExpression, .assignmentExpression] :=
        mentioned
      simpa [Tree.hasKind, Tree.kind?] using listed
  rcases callee with ⟨token, rfl, -⟩ | ⟨token, parts, rfl, -⟩ |
    ⟨kind, parts, rfl, listed⟩ | none
  · exact ⟨_, others, rfl, rfl, behind⟩
  · exact ⟨_, others, rfl, rfl, behind⟩
  · refine ⟨_, others, rfl, ?_, behind⟩
    rw [Tree.hasKind, decide_eq_false_iff_not]
    rintro ⟨⟩
    revert listed
    decide
  · obtain ⟨_, _, -, listed⟩ := none
    cases listed

/-- Told part by part, the answer for an expression is whether one of its parts
is floating. -/
theorem plainDemand_iff {scope : Scope} {tree : Tree} (grammatical : tree.Grammatical)
    (findings : Findings) :
    (plainDemand scope tree findings).1 = true ↔ HoldsFloating scope tree := by
  induction grammatical generalizing findings with
  | leaf token => simp [plainDemand, not_holdsFloating_leaf]
  | @node kind children form below ih =>
    rw [holdsFloating_node]
    by_cases isPrimary : kind = .primaryExpression
    · subst isPrimary
      obtain ⟨token, rfl⟩ : ∃ token, children = [.leaf token] := by
        rcases form with ⟨token, rfl, -⟩ | ⟨token, rfl, -⟩ <;> exact ⟨token, rfl⟩
      rw [plainDemand, plainPrimary_iff]
      simp [operandsOf, not_holdsFloating_leaf]
    by_cases isMember : kind = .fieldSelection
    · subst isMember
      obtain ⟨kind, parts, point, field, rfl, named⟩ := exists_of_fieldSelection form
      have owner := ih (.node kind parts) List.mem_cons_self
      have first : plainFirst scope [.node kind parts, .leaf point, .leaf field] findings =
          plainDemand scope (.node kind parts) findings := by
        rw [plainFirst]
        rfl
      have type : typeOfNth scope 0 [.node kind parts, .leaf point, .leaf field] =
          typeOf scope (.node kind parts) := by
        rw [typeOfNth]
        rfl
      rw [plainDemand, named, first, type, plainMember_iff point, owner]
      simp [operandsOf, not_holdsFloating_leaf, or_comm]
    by_cases isCall : kind = .functionCall
    · subst isCall
      obtain ⟨callee, others, rfl, noArgument, arguments⟩ := exists_of_functionCall form
      have notFloating : ¬ IsFloating scope (.node .functionCall (callee :: others)) := by
        rintro ⟨⟩
      rw [plainDemand, plainArguments_iff ih, operandsOf, if_pos rfl, List.tail_cons,
        or_iff_right notFloating, List.exists_mem_cons_iff, noArgument]
      have isArgument : ∀ child ∈ others, HoldsFloating scope child →
          child.hasKind .assignmentExpression := by
        intro child member holds
        cases child with
        | leaf token => exact absurd holds (not_holdsFloating_leaf scope token)
        | node kind parts => exact arguments _ member rfl
      grind
    · have all : plainDemand scope (.node kind children) findings =
          plainAll scope children findings := by
        unfold plainDemand
        split <;> first | contradiction | rfl
      have notFloating : ¬ IsFloating scope (.node kind children) := by
        rintro ⟨⟩ <;> contradiction
      rw [all, plainAll_iff ih, operandsOf, if_neg isCall, or_iff_right notFloating]

end ShaderDialect.Inference

namespace ShaderDialect.SyntaxTree

open Inference

/-- In whatever scope, a node of a shader demands floating operands exactly when
a part of it that belongs to no callee is floating by itself. To remember the
operand met last changes neither the answer nor what is reported. -/
theorem demandsFloat_iff_holdsFloating {source : String} {tree : SyntaxTree}
    (parsed : ofSource source = .ok tree) {node : Tree}
    (listed : node ∈ tree.root.postorder) (scope : Scope) (findings : Findings) :
    ((demandsFloat scope node findings).1 = true ↔
      ∃ part, Holds node part ∧ IsFloating scope part) ∧
    demandsFloat scope node findings = plainDemand scope node findings := by
  have grammatical := Tree.inherit_postorder (fun _ _ => Tree.Grammatical.child)
    (ofSource_spec parsed).1 _ listed
  refine ⟨?_, demandsFloat_eq_plainDemand scope node findings⟩
  rw [demandsFloat_eq_plainDemand]
  exact plainDemand_iff grammatical findings

theorem demandsFloat_iff_holdsFloating_member : ∃ tree node,
    ofSource "void main() { missing * gl_FragCoord.x + 2; }" = .ok tree ∧
      node ∈ tree.root.postorder ∧
      (∃ part, Holds node part ∧ IsFloating (Scope.initial Catalog.bundled) part) ∧
      (plainDemand (Scope.initial Catalog.bundled) node Findings.empty).2.toList =
        [⟨5, .unresolvedIdentifier "missing"⟩] := by
  have read : (ofSource "void main() { missing * gl_FragCoord.x + 2; }").toOption.map (fun tree =>
      (tree.root.postorder.find? (·.hasKind .assignmentExpression)).map fun node =>
        ((demandsFloat (Scope.initial Catalog.bundled) node Findings.empty).1,
          (demandsFloat (Scope.initial Catalog.bundled) node Findings.empty).2.toList)) =
      some (some (true, [⟨5, .unresolvedIdentifier "missing"⟩])) := by
    decide +kernel
  obtain ⟨tree, parsed, found⟩ := exists_of_map_toOption read
  obtain ⟨node, first, answer⟩ := Option.map_eq_some_iff.1 found
  obtain ⟨positive, reported⟩ := Prod.mk.inj answer
  have listed := List.mem_of_find?_eq_some first
  obtain ⟨iff, same⟩ := demandsFloat_iff_holdsFloating parsed listed
    (Scope.initial Catalog.bundled) Findings.empty
  exact ⟨tree, node, parsed, listed, iff.1 positive, same ▸ reported⟩

end ShaderDialect.SyntaxTree
