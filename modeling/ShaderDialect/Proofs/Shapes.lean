import ShaderDialect.Proofs.Answers
import ShaderDialect.Proofs.FloatingParts
import ShaderDialect.Proofs.IntegerPositions
import ShaderDialect.Proofs.Parameters
import ShaderDialect.Proofs.Registration
import ShaderDialect.Proofs.Stamps

/-!
# Shapes of nodes

The parts that the walk and its queries look for below a node are there: every
definition has a prototype that can be read and a body, every declarator a name
behind a type, every block a name before its brace, every operator its operands.
Only the name of a call is not, where the callee is an operand, and the name of a
struct that has none. So the walk comes to everything that stands below no
redeclared builtin, declares every other function, every block, and every
variable whose type is known, and a type that is not known is on record. What it
passes over without a word are the members of a block that declare such a struct
in place.
-/

namespace ShaderDialect

namespace Tree

/-! ### What stands below a node -/

/-- Expressions that are looked at through the first or last node below them. -/
def operandKinds : List NodeKind :=
  [.assignmentExpression, .parenExpression, .unaryExpression, .postfixExpression,
   .indexExpression, .fieldSelection, .expression]

/-- What is looked for below a node of its kind is there. -/
structure WellShaped (node : Tree) : Prop where
  definition : node.hasKind .functionDefinition →
    (node.findChild? .functionPrototype).isSome ∧
    (node.findChild? .compoundStatement).isSome
  prototype : node.hasKind .functionPrototype → (Prototype.ofTree? node).isSome
  declarator : node.hasKind .declarator → node.identifier?.isSome
  declarators : node.hasKind .initDeclaratorList → ∃ type specifier,
    node.findChild? .fullySpecifiedType = some type ∧
      type.findChild? .typeSpecifier = some specifier
  typed : node.hasKind .structMember ∨ node.hasKind .parameterDeclaration →
    (node.findChild? .typeSpecifier).isSome
  block : node.hasKind .interfaceBlock → ∃ before name opening rest,
    CutAtBrace node.childTokens (before ++ [name]) opening rest ∧ name.kind = .identifier
  operand : ∀ kind ∈ operandKinds, node.hasKind kind → node.childNodes ≠ []
  field : node.hasKind .fieldSelection → node.identifier?.isSome
  primary : node.hasKind .primaryExpression → ∃ token, node.children = [.leaf token] ∧
    (token.kind = .identifier ∨ Grammar.Expression.isLiteral token.kind)
  called : node.hasKind .functionCall → ∃ callee others,
    node.children = callee :: others ∧
    ((∃ name, (callee = .leaf name ∨ callee.hasKind .typeSpecifier) ∧
        callee.firstToken? = some name ∧ node.callName? = some name.text) ∨
      (∃ kind ∈ NodeKind.postfixKinds, callee.hasKind kind) ∧ node.callName? = none)
  conditional : node.hasKind .conditionalExpression → ∃ condition first second,
    node.childNodes = [condition, first, second]

theorem exists_requires_of_mem_operandKinds :
    ∀ kind ∈ operandKinds, ∃ kinds, kind.form.requires (.node kinds) := by
  simp only [operandKinds, List.forall_mem_cons]
  exact ⟨⟨NodeKind.conditionalKinds, by decide⟩, ⟨[.expression], by decide⟩,
    ⟨NodeKind.unaryKinds, by decide⟩, ⟨NodeKind.postfixKinds, by decide⟩,
    ⟨NodeKind.postfixKinds, by decide⟩, ⟨NodeKind.postfixKinds, by decide⟩,
    ⟨[.assignmentExpression], by decide⟩, by simp⟩

namespace Grammatical

variable {kind : NodeKind} {children : List Tree}
    (h : (Tree.node kind children).Grammatical)
include h

theorem childNodes_ne_nil {kinds : List NodeKind}
    (needed : kind.form.requires (.node kinds)) :
    (Tree.node kind children).childNodes ≠ [] := by
  cases h with
  | node form below =>
    obtain ⟨_, within, _, _, rfl, -⟩ := Form.exists_part_of_requires needed form
    exact List.ne_nil_of_mem (List.mem_filter.2 ⟨within List.mem_cons_self, rfl⟩)

theorem findChild?_isSome (required : NodeKind)
    (needed : kind.form.requires (.node [required])) :
    ((Tree.node kind children).findChild? required).isSome := by
  obtain ⟨_, found, -⟩ := h.exists_findChild? required needed
  simp [found]

theorem identifier?_isSome (needed : kind.form.requires (.token .identifier)) :
    (Tree.node kind children).identifier?.isSome :=
  Option.isSome_iff_exists.2 (h.exists_identifier? needed)

end Grammatical

/-- A conditional has its condition and both its branches. -/
theorem Grammatical.childNodes_conditional {children : List Tree}
    (h : (Tree.node .conditionalExpression children).Grammatical) :
    ∃ condition first second,
      (Tree.node .conditionalExpression children).childNodes =
        [condition, first, second] := by
  cases h with
  | node form below =>
    obtain ⟨_, _, rfl, ⟨condition, rfl, joined⟩, _, _, rfl, ⟨asks, rfl, -⟩, _, _, rfl,
      ⟨kind, parts, rfl, -⟩, _, _, rfl, ⟨colon, rfl, -⟩, _, _, rfl,
      ⟨kind', parts', rfl, -⟩, rfl⟩ := form
    cases condition with
    | leaf token => cases joined
    | node => exact ⟨_, _, _, rfl⟩

/-- A name or literal is a single token. -/
theorem Grammatical.children_primary {children : List Tree}
    (h : (Tree.node .primaryExpression children).Grammatical) :
    ∃ token, children = [.leaf token] ∧
      (token.kind = .identifier ∨ Grammar.Expression.isLiteral token.kind) := by
  cases h with
  | node form below =>
    rcases form with ⟨token, rfl, isLiteral⟩ | ⟨token, rfl, isName⟩
    · exact ⟨token, rfl, Or.inr isLiteral⟩
    · exact ⟨token, rfl, Or.inl (of_decide_eq_true isName)⟩

/-- A call has a name where the callee is a name or a type, and none where it is
an operand. -/
theorem Grammatical.exists_callee {children : List Tree}
    (h : (Tree.node .functionCall children).Grammatical) :
    ∃ callee others, children = callee :: others ∧
      ((∃ name, (callee = .leaf name ∨ callee.hasKind .typeSpecifier) ∧
          callee.firstToken? = some name ∧
          (Tree.node .functionCall children).callName? = some name.text) ∨
        (∃ kind ∈ NodeKind.postfixKinds, callee.hasKind kind) ∧
          (Tree.node .functionCall children).callName? = none) := by
  cases h with
  | node form below =>
    obtain ⟨_, others, rfl, callee, -⟩ := form
    rcases callee with ⟨name, rfl, -⟩ | ⟨name, parts, rfl, -⟩ |
      ⟨kind, parts, rfl, listed⟩ | none
    · exact ⟨_, others, rfl, Or.inl ⟨name, Or.inl rfl, rfl, rfl⟩⟩
    · exact ⟨_, others, rfl, Or.inl ⟨name, Or.inr rfl, rfl, rfl⟩⟩
    · have operand : (Tree.node kind parts).hasKind .typeSpecifier = false := by
        rw [hasKind, decide_eq_false_iff_not]
        rintro ⟨⟩
        revert listed
        decide
      refine ⟨_, others, rfl, Or.inr ⟨⟨kind, listed, decide_eq_true rfl⟩, ?_⟩⟩
      simp [callName?, Tree.children, operand]
    · obtain ⟨_, _, -, listed⟩ := none
      cases listed

theorem Grammatical.wellShaped {node : Tree} (h : node.Grammatical) :
    node.WellShaped where
  definition isKind := by
    obtain ⟨children, rfl⟩ := exists_children_of_hasKind isKind
    exact ⟨h.findChild?_isSome _ (by decide), h.findChild?_isSome _ (by decide)⟩
  prototype isKind := Option.isSome_iff_exists.2 (Prototype.exists_ofTree? h isKind)
  declarator isKind := by
    obtain ⟨children, rfl⟩ := exists_children_of_hasKind isKind
    exact h.identifier?_isSome (by decide)
  declarators isKind := by
    obtain ⟨children, rfl⟩ := exists_children_of_hasKind isKind
    obtain ⟨type, found, readable⟩ := h.exists_findChild? .fullySpecifiedType (by decide)
    obtain ⟨specifier, specified, -⟩ :=
      readable.exists_findChild? .typeSpecifier (by decide)
    exact ⟨_, _, found, specified⟩
  typed isKind := by
    rcases isKind with isKind | isKind
    all_goals
      obtain ⟨children, rfl⟩ := exists_children_of_hasKind isKind
      exact h.findChild?_isSome _ (by decide)
  block := exists_cutAtBrace_of_block h
  operand kind listed isKind := by
    obtain ⟨children, rfl⟩ := exists_children_of_hasKind isKind
    obtain ⟨kinds, needed⟩ := exists_requires_of_mem_operandKinds kind listed
    exact h.childNodes_ne_nil needed
  field isKind := by
    obtain ⟨children, rfl⟩ := exists_children_of_hasKind isKind
    exact h.identifier?_isSome (by decide)
  primary isKind := by
    obtain ⟨children, rfl⟩ := exists_children_of_hasKind isKind
    exact h.children_primary
  called isKind := by
    obtain ⟨children, rfl⟩ := exists_children_of_hasKind isKind
    exact h.exists_callee
  conditional isKind := by
    obtain ⟨children, rfl⟩ := exists_children_of_hasKind isKind
    exact h.childNodes_conditional

end Tree

/-! ### Queries -/

namespace Inference

/-- The type of a member of an owner of the given type. -/
def memberType (field : Token) (owner : Ty) : Except Finding (Option Ty) :=
  ((owner.member field.text).map some).mapError fun cause =>
    { token := field.index, problem := .member cause }

/-- The queries about an expression find the parts that they ask about. -/
structure Answered (scope : Scope) (node : Tree) : Prop where
  named : node.hasKind .primaryExpression → ∃ token, node.children = [.leaf token] ∧
    (token.kind = .identifier →
      typeOf scope node = .ok ((scope.lookup? token.text).map Variable.ty) ∧
      arrayElement? scope node = (scope.lookup? token.text).bind fun found =>
        if found.isArray then some found.ty else none) ∧
    (Grammar.Expression.isLiteral token.kind →
      (∃ type ∈ ["int", "uint", "float", "bool"], typeOf scope node = .ok (scope.type? type)) ∧
      arrayElement? scope node = none)
  called : node.hasKind .functionCall → ∀ name, node.callName? = some name →
    (∀ ty, scope.type? name = some ty → typeOf scope node = .ok (some ty)) ∧
    callFlags scope node =
      (floatFlags? scope name (node.arguments.map (argumentType? scope))).getD []
  uncalled : node.hasKind .functionCall → node.callName? = none →
    typeOf scope node = .ok none ∧ callFlags scope node = []
  wrapped : ∀ kind ∈ [NodeKind.assignmentExpression, .parenExpression, .unaryExpression,
      .postfixExpression], node.hasKind kind →
    ∃ operand, node.childNodes.head? = some operand ∧
      typeOf scope node = typeOf scope operand
  listed : node.hasKind .expression →
    ∃ last, node.childNodes.getLast? = some last ∧ typeOf scope node = typeOf scope last
  chosen : node.hasKind .conditionalExpression →
    ∃ first, node.childNodes[1]? = some first ∧ typeOf scope node = typeOf scope first
  indexed : node.hasKind .indexExpression → ∃ operand,
    node.childNodes.head? = some operand ∧
    typeOf scope node = (arrayElement? scope operand).elim
      ((typeOf scope operand).map (·.bind Ty.element?)) (fun ty => .ok (some ty))
  selected : node.hasKind .fieldSelection → ∃ owner field,
    node.childNodes.head? = some owner ∧ node.identifier? = some field ∧
      typeOf scope node =
        (typeOf scope owner).bind (fun ty => ty.elim (.ok none) (memberType field)) ∧
      ∀ query, demand scope node query =
        memberDemand (some field) (typeOf scope owner) (demand scope owner query).1
          (demand scope owner query).2

theorem typeOfNth_of_getElem? (scope : Scope) {kind : NodeKind} {children : List Tree}
    {n : Nat} {child : Tree}
    (found : (Tree.node kind children).childNodes[n]? = some child) :
    typeOfNth scope n children = typeOf scope child := by
  change (children.filter Tree.isNode)[n]? = _ at found
  rw [typeOfNth_eq, found]
  rfl

theorem demandFirst_of_head? (scope : Scope) {kind : NodeKind} {children : List Tree}
    {child : Tree} (found : (Tree.node kind children).childNodes.head? = some child)
    (query : Query) :
    demandFirst scope children query = demand scope child query := by
  change (children.filter Tree.isNode).head? = _ at found
  rw [List.head?_filter] at found
  rw [demandFirst_eq, found]
  rfl

/-- The type of a literal is that of its kind. -/
theorem exists_typeOf_literal (scope : Scope) {token : Token}
    (isLiteral : Grammar.Expression.isLiteral token.kind) :
    ∃ type ∈ ["int", "uint", "float", "bool"],
      typeOf scope (.node .primaryExpression [.leaf token]) = .ok (scope.type? type) := by
  simp only [typeOf, typeOfPrimary?, Tree.childTokens, Tree.children, List.filterMap_cons,
    Tree.token?, List.filterMap_nil, List.head?_cons, Option.bind_some]
  cases kind : token.kind <;> simp_all [Grammar.Expression.isLiteral]

theorem Answered.of_wellShaped {node : Tree} (h : node.WellShaped) (scope : Scope) :
    Answered scope node where
  named isKind := by
    obtain ⟨token, only, -⟩ := h.primary isKind
    refine ⟨token, only, fun isName => ?_, fun isLiteral => ?_⟩
    all_goals
      obtain ⟨children, rfl⟩ := Tree.exists_children_of_hasKind isKind
      obtain rfl : children = _ := only
    · simp [typeOf, typeOfPrimary?, arrayElement?, isKind, Tree.identifier?,
        Tree.childTokens, Tree.children, Tree.token?, isName]
    · have other : token.kind ≠ .identifier := by
        intro isName
        rw [isName] at isLiteral
        cases isLiteral
      refine ⟨exists_typeOf_literal scope isLiteral, ?_⟩
      simp [arrayElement?, Tree.identifier?, Tree.childTokens, Tree.children,
        Tree.token?, other]
  called isKind name named := by
    obtain ⟨children, rfl⟩ := Tree.exists_children_of_hasKind isKind
    refine ⟨fun ty known => ?_, ?_⟩
    · simp [typeOf, typeOfCall?, named, known]
    · rw [callFlags, named, Option.bind_some]
  uncalled isKind unnamed := by
    obtain ⟨children, rfl⟩ := Tree.exists_children_of_hasKind isKind
    exact ⟨by simp [typeOf, typeOfCall?, unnamed], by simp [callFlags, unnamed]⟩
  wrapped kind listed isKind := by
    have inside : kind ∈ Tree.operandKinds := List.mem_of_mem_take (i := 4) listed
    have first := List.head?_eq_some_head (h.operand kind inside isKind)
    refine ⟨_, first, ?_⟩
    obtain ⟨children, rfl⟩ := Tree.exists_children_of_hasKind isKind
    rw [List.head?_eq_getElem?] at first
    rw [← typeOfNth_of_getElem? scope first]
    simp only [List.mem_cons, List.not_mem_nil, or_false] at listed
    rcases listed with rfl | rfl | rfl | rfl <;> rw [typeOf]
  listed isKind := by
    have last := List.getLast?_eq_some_getLast (h.operand _ (by decide) isKind)
    refine ⟨_, last, ?_⟩
    obtain ⟨children, rfl⟩ := Tree.exists_children_of_hasKind isKind
    rw [List.getLast?_eq_getElem?] at last
    rw [← typeOfNth_of_getElem? scope last, typeOf]
  chosen isKind := by
    obtain ⟨condition, first, second, nodes⟩ := h.conditional isKind
    have found : node.childNodes[1]? = some first := by rw [nodes]; rfl
    refine ⟨first, found, ?_⟩
    obtain ⟨children, rfl⟩ := Tree.exists_children_of_hasKind isKind
    rw [← typeOfNth_of_getElem? scope found, typeOf]
  indexed isKind := by
    have first := List.head?_eq_some_head (h.operand _ (by decide) isKind)
    refine ⟨_, first, ?_⟩
    obtain ⟨children, rfl⟩ := Tree.exists_children_of_hasKind isKind
    rw [typeOf, first, Option.bind_some]
    rw [List.head?_eq_getElem?] at first
    rw [typeOfNth_of_getElem? scope first]
    cases arrayElement? scope _ <;> rfl
  selected isKind := by
    have first := List.head?_eq_some_head (h.operand _ (by decide) isKind)
    obtain ⟨field, named⟩ := Option.isSome_iff_exists.1 (h.field isKind)
    refine ⟨_, field, first, named, ?_⟩
    obtain ⟨children, rfl⟩ := Tree.exists_children_of_hasKind isKind
    have owner := demandFirst_of_head? scope first
    rw [List.head?_eq_getElem?] at first
    have type := typeOfNth_of_getElem? scope first
    constructor
    · simp only [typeOf, named, type]
      cases typeOf scope _ with
      | error finding => rfl
      | ok known =>
        cases known with
        | none => rfl
        | some ty =>
          simp only [Except.bind, Option.elim_some, memberType]
          cases ty.member field.text <;> rfl
    · intro query
      rw [demand, owner, named, type]

end Inference

/-! ### The walk -/

/-- The findings stay when more are reported. -/
theorem Reports.subset {tokens : List Token} {before after : Findings}
    (h : Reports tokens before after) : before.toList ⊆ after.toList := by
  obtain ⟨more, same, -⟩ := h
  rw [same]
  exact List.subset_append_left _ _

/-- A type that cannot be told is a name that no type has, and is reported. -/
theorem exists_report_of_unknown {specifier : Tree} (h : specifier.Grammatical)
    (isSpecifier : specifier.hasKind .typeSpecifier) {scope : Scope} {findings : Findings}
    (unknown : (specifiedType scope specifier findings).1 = none) :
    ∃ word, specifier.firstToken? = some word ∧
      { token := word.index, problem := .unknownType word.text } ∈
        (specifiedType scope specifier findings).2.toList := by
  obtain ⟨children, rfl⟩ := Tree.exists_children_of_hasKind isSpecifier
  cases h with
  | node form below =>
    obtain ⟨_, dimensions, rfl, first, -⟩ := form
    rcases first with ⟨kind, members, rfl, isStruct⟩ | ⟨word, rfl, -⟩
    · -- A struct in place has a type, whatever its members are.
      obtain rfl : kind = .structSpecifier := List.mem_singleton.1 isStruct
      cases unknown
    · refine ⟨word, rfl, ?_⟩
      rw [specifiedType] at unknown ⊢
      generalize structAmong scope _ findings = among at unknown ⊢
      obtain ⟨_ | ty, findings'⟩ := among
      · have named : namedType scope (.node .typeSpecifier ([.leaf word] ++ dimensions)) findings' =
            (none, findings'.report ⟨word.index, .unknownType word.text⟩) := by
          cases type : scope.type? word.text with
          | none =>
            simp [namedType, Tree.typeName?, Tree.children, type, Tree.firstToken?,
              Tree.firstTokenAll?]
          | some ty => simp [namedType, Tree.typeName?, Tree.children, type] at unknown
        simp only [named]
        simp
      · cases unknown

theorem specifierAmong_of_find? (scope : Scope) (findings : Findings) {trees : List Tree}
    {specifier : Tree} (found : trees.find? (·.hasKind .typeSpecifier) = some specifier) :
    specifierAmong scope trees findings = specifiedType scope specifier findings := by
  induction trees with
  | nil => cases found
  | cons tree trees ih =>
    rw [List.find?_cons] at found
    rw [specifierAmong]
    cases isType : tree.hasKind .typeSpecifier with
    | true =>
      rw [isType] at found
      cases found
      rfl
    | false =>
      rw [isType] at found
      exact ih found

/-- The type of a member that cannot be told is reported. -/
theorem exists_report_of_member {member : Tree} (h : member.Grammatical)
    (isMember : member.hasKind .structMember) {scope : Scope}
    (unknown : member.memberType? scope = none) {trees : List Tree}
    (listed : member ∈ trees) (findings : Findings) :
    ∃ specifier word, member.findChild? .typeSpecifier = some specifier ∧
      specifier.firstToken? = some word ∧
      { token := word.index, problem := .unknownType word.text } ∈
        (membersOf scope trees findings).2.toList := by
  induction trees generalizing findings with
  | nil => cases listed
  | cons tree trees ih =>
    rw [membersOf]
    rcases List.mem_cons.1 listed with rfl | later
    · obtain ⟨specifier, cut, -⟩ := Tree.exists_cut_of_member h isMember
      obtain ⟨children, rfl⟩ := Tree.exists_children_of_hasKind isMember
      have readable := h.child specifier (List.mem_of_find?_eq_some cut.findChild?)
      have among : specifierAmong scope children findings =
          specifiedType scope specifier findings :=
        specifierAmong_of_find? scope findings cut.findChild?
      rw [← fst_specifierAmong scope .structMember children findings, among] at unknown
      obtain ⟨word, first, reported⟩ :=
        exists_report_of_unknown readable cut.isType unknown
      refine ⟨specifier, word, cut.findChild?, first, ?_⟩
      rw [if_pos isMember, memberOf, among]
      exact (reports_membersOf scope trees _).subset reported
    · exact ih later _

theorem Tree.exists_memberVariable {scope : Scope} {member : Tree} {ty : Ty}
    (known : member.namedType? scope = some ty) {name : String}
    (written : name ∈ member.writtenNames) :
    ∃ declared ∈ member.memberVariables scope, declared.name = name := by
  rw [writtenNames, ← map_fst_dimensioned] at written
  obtain ⟨pair, listed, rfl⟩ := List.mem_map.1 written
  rw [memberVariables, known, Option.toList_some, List.flatMap_singleton]
  exact ⟨_, List.mem_append_right _ (List.mem_map_of_mem listed), rfl⟩

/-- A struct in place names the type of a member. -/
theorem Tree.namedType?_of_ownStruct {scope : Scope} {member inner : Tree}
    (h : member.Grammatical) (isMember : member.hasKind .structMember)
    (own : member.ownStruct? = some inner) :
    member.namedType? scope = inner.identifier?.bind fun name =>
      scope.type? name.text := by
  obtain ⟨specifier, specified, among⟩ := Option.bind_eq_some_iff.1 own
  obtain ⟨children, rfl⟩ := exists_children_of_hasKind isMember
  have readable := h.child specifier (List.mem_of_find?_eq_some specified)
  have isSpecifier := List.find?_some specified
  obtain ⟨parts, rfl⟩ := exists_children_of_hasKind isSpecifier
  rw [namedType?, specified, Option.bind_some]
  cases readable with
  | node form below =>
    obtain ⟨_, dimensions, rfl, first, _, _, rfl, arrays, rfl⟩ := form
    rcases first with ⟨kind, members, rfl, isStruct⟩ | ⟨word, rfl, -⟩
    · obtain rfl : kind = .structSpecifier := List.mem_singleton.1 isStruct
      obtain rfl : inner = .node .structSpecifier members := (Option.some.inj among).symm
      exact Option.bind_map ..
    · -- Behind a name stand dimensions only.
      have isStruct := List.find?_some among
      obtain ⟨members, rfl⟩ := exists_children_of_hasKind isStruct
      have listed := List.mem_of_find?_eq_some among
      cases Form.hasKind_of_arraySpecifiers arrays _ (by simpa [Tree.children] using listed)

namespace Plan

theorem findings_subset_of_mem_siblingVisits {siblings : Siblings} {trees : List Tree}
    {state : State} {v : Visit} (listed : v ∈ siblingVisits siblings trees state) :
    state.findings.toList ⊆ v.state.findings.toList := by
  induction trees generalizing siblings state with
  | nil => cases listed
  | cons tree trees ih =>
    have visited := (reports_visit (siblings.role tree) tree state).subset
    have moved :=
      (reports_after siblings tree (visit (siblings.role tree) tree state)).subset
    rw [siblingVisits] at listed
    generalize siblings.after tree (visit (siblings.role tree) tree state) = following
      at listed moved
    rcases List.mem_cons.1 listed with rfl | later
    · exact List.Subset.refl _
    · exact List.Subset.trans visited (List.Subset.trans moved (ih later))

/-- Parameters are no types, so a signature is the same before and behind them. -/
theorem signature_declareParameters (prototype : Prototype) (scope : Scope)
    (findings : Findings) (params : List Parameter) :
    prototype.signature (declareParameters scope findings params).1 =
      prototype.signature scope := by
  rw [fst_declareParameters]
  induction params.flatMap (·.variables scope) generalizing scope with
  | nil => rfl
  | cons declared rest ih =>
    rw [List.foldl_cons, ih]
    simp only [Prototype.signature, Parameter.ty, Scope.type?_declare]

namespace Visit

/-- The names of a member of a block without an instance name are variables. -/
def DeclaresMember (v : Visit) (member : Tree) : Prop :=
  ∃ ty, member.namedType? v.inside = some ty ∧ ∀ name ∈ member.writtenNames,
    ∃ declared ∈ v.tree.members.flatMap (Tree.memberVariables v.inside),
      declared.name = name ∧ v.after.lookup? name = some declared

/-- What the walk does at a node: nothing that it holds is left out, but the
members of a block that declare a struct without a name. -/
structure Handled (v : Visit) : Prop where
  entered : v.tree.redeclares v.state.scope.catalog = false →
    ∀ child ∈ v.tree.children, ∃ w, v.Step w ∧ w.tree = child
  function : v.tree.hasKind .functionDefinition ∨ v.tree.hasKind .declaration →
    v.tree.redeclares v.state.scope.catalog = false →
    ∀ child, v.tree.findChild? .functionPrototype = some child →
      ∃ prototype, Prototype.ofTree? child = some prototype ∧
        prototype.signature v.state.scope ∈ v.after.functions
  declarators : v.tree.hasKind .initDeclaratorList → ∃ type specifier,
    v.tree.findChild? .fullySpecifiedType = some type ∧
    type.findChild? .typeSpecifier = some specifier ∧
    ∀ w, v.Step w → w.tree.hasKind .declarator → ∃ name known isArray,
      w.tree.identifier? = some name ∧ w.role = .declarator known isArray ∧
      (∀ ty ∈ known, w.after.lookup? name.text =
        some { name := name.text, ty, isArray := isArray || w.tree.isArray }) ∧
      (known = none → ∃ word, specifier.firstToken? = some word ∧
        { token := word.index, problem := .unknownType word.text } ∈
          w.state.findings.toList)
  block : v.tree.hasKind .interfaceBlock → ∃ name fields, v.tree.title? = some name ∧
    v.after.structs.lookup name.text = some (.struct name.text fields) ∧
    Ty.Collected (Tree.typedNames Tree.ownNames v.inside v.tree.members) fields ∧
    ∀ token, v.tree.instanceName? = some token → v.after.lookup? token.text =
      some { name := token.text, ty := .struct name.text fields, isArray := v.tree.isArray }
  members : v.tree.hasKind .interfaceBlock → v.tree.instanceName? = none →
    ∀ member ∈ v.tree.members, v.DeclaresMember member ∨
      (∃ specifier word, member.findChild? .typeSpecifier = some specifier ∧
        specifier.firstToken? = some word ∧
        { token := word.index, problem := .unknownType word.text } ∈ v.reported.toList) ∨
      ∃ inner, member.ownStruct? = some inner ∧ inner.identifier? = none ∧
        member.memberVariables v.inside = []

/-- What is declared when the parts of a node have been visited is still declared
behind it. -/
theorem subset_after {role : Role} {kind : NodeKind} {children : List Tree}
    {state entering : State} {context : Bool} {siblings : Siblings}
    (entered : enter state role kind (.node kind children) =
      (.descend context siblings, entering)) :
    (visitAll siblings children entering).scope.functions ⊆
        (after ⟨role, .node kind children, state⟩).functions ∧
      (visitAll siblings children entering).scope.structs ⊆
        (after ⟨role, .node kind children, state⟩).structs := by
  have left : after ⟨role, .node kind children, state⟩ =
      (leave (visitAll siblings children entering) role kind (.node kind children)).scope := by
    rw [after, visit, entered]
    rfl
  rw [left]
  -- Closing a frame forgets variables only, and any other leaving may declare more.
  cases opens : role.opens kind with
  | true =>
    rw [scope_leave opens]
    exact ⟨List.Subset.refl _, List.Subset.refl _⟩
  | false =>
    have more := extends_leave opens (visitAll siblings children entering) children
    exact ⟨more.functions.subset, more.structs.subset⟩

theorem structs_subset_of_mem_siblingVisits {siblings : Siblings} {trees : List Tree}
    {state : State} {v : Visit} (listed : v ∈ siblingVisits siblings trees state) :
    v.after.structs ⊆ (visitAll siblings trees state).scope.structs := by
  induction trees generalizing siblings state with
  | nil => cases listed
  | cons tree trees ih =>
    rw [siblingVisits] at listed
    rw [visitAll]
    rcases List.mem_cons.1 listed with rfl | later
    · have others := extends_visitAll
        (siblings.after tree (visit (siblings.role tree) tree state)).1
        (siblings.after tree (visit (siblings.role tree) tree state)).2 trees
      rw [scope_after] at others
      exact others.structs.subset
    · exact ih later

/-- A struct that is known behind a part of a node is known behind the node. -/
theorem Step.structs_subset {v w : Visit} (step : v.Step w) :
    w.after.structs ⊆ v.after.structs := by
  cases step with
  | child entered listed =>
    exact List.Subset.trans (structs_subset_of_mem_siblingVisits listed) (subset_after entered).2

/-- A prototype that is no builtin is declared before what stands below it. -/
theorem exists_enter_of_prototype {kind : NodeKind} {children : List Tree} {state : State}
    {prototype : Prototype} (isKind : kind = .functionDefinition ∨ kind = .declaration)
    (read : (Tree.node kind children).prototype? = some prototype)
    (foreign : prototype.isBuiltin state.scope.catalog = false) (context : Bool) :
    ∃ siblings entering,
      enter state (.part context) kind (.node kind children) =
        (.descend context siblings, entering) ∧
      prototype.signature state.scope ∈ entering.scope.functions := by
  obtain ⟨child, found, own⟩ := Option.bind_eq_some_iff.1 read
  rcases isKind with rfl | rfl
  · let declared := declareParameters state.scope.push state.findings prototype.params
    let scope := declared.1.declareFunction (prototype.signature declared.1)
    refine ⟨.definition, { state with scope, findings := declared.2 }, ?_, ?_⟩
    · simp only [enter, enterPart, enterDefinition, found, Option.bind_some, own, foreign]
      rfl
    · change _ ∈ declared.1.functions ++ [prototype.signature declared.1]
      rw [signature_declareParameters]
      exact List.mem_append_right _ (List.mem_singleton_self _)
  · let signature := prototype.signature state.scope
    refine ⟨.uniform false, state.mapScope (·.declareFunction signature), ?_, ?_⟩
    · simp only [enter, enterPart, enterDeclaration, found, own, foreign]
      rfl
    · exact List.mem_append_right _ (List.mem_singleton_self _)

/-- Every function that is no builtin is declared. -/
theorem exists_signature {v : Visit} (h : v.WellFormed)
    (isKind : v.tree.hasKind .functionDefinition ∨ v.tree.hasKind .declaration)
    (kept : v.tree.redeclares v.state.scope.catalog = false) {child : Tree}
    (found : v.tree.findChild? .functionPrototype = some child) :
    ∃ prototype, Prototype.ofTree? child = some prototype ∧
      prototype.signature v.state.scope ∈ v.after.functions := by
  obtain ⟨role, tree, state⟩ := v
  obtain ⟨kind, children, rfl, either, context, rfl⟩ : ∃ kind children,
    tree = .node kind children ∧
      (kind = .functionDefinition ∨ kind = .declaration) ∧ ∃ context,
      role = .part context := by
    rcases isKind with isKind | isKind
    all_goals
      obtain ⟨children, rfl⟩ := Tree.exists_children_of_hasKind isKind
      exact ⟨_, children, rfl, by simp, exists_part_of_hasKind h.fits isKind (by decide)⟩
  have isPrototype := List.find?_some found
  obtain ⟨prototype, own⟩ := Prototype.exists_ofTree?
    (h.grammatical.child child (List.mem_of_find?_eq_some found)) isPrototype
  have read : (Tree.node kind children).prototype? = some prototype := by
    rw [Tree.prototype?, found, Option.bind_some, own]
  have foreign : prototype.isBuiltin state.scope.catalog = false :=
    Tree.isBuiltin_eq_false (either.imp (congrArg some) (congrArg some)) kept read
  obtain ⟨siblings, entering, entered, declared⟩ :=
    exists_enter_of_prototype either read foreign context
  exact ⟨prototype, own, (subset_after entered).1
    ((extends_visitAll siblings entering _).functions.subset declared)⟩

/-- A declarator stands behind its type, which is reported if it is not known. -/
theorem exists_role_of_declarator {list v : Visit} (h : list.WellFormed)
    (isList : list.tree.hasKind .initDeclaratorList) {type specifier : Tree}
    (typed : list.tree.findChild? .fullySpecifiedType = some type)
    (specified : type.findChild? .typeSpecifier = some specifier) (step : list.Step v)
    (isDeclarator : v.tree.hasKind .declarator) :
    ∃ known isArray, v.role = .declarator known isArray ∧
      (known = none → ∃ word, specifier.firstToken? = some word ∧
        { token := word.index, problem := .unknownType word.text } ∈
          v.state.findings.toList) := by
  obtain ⟨fits, grammatical, -⟩ := h
  cases step with
  | @child role kind children state state' context siblings _ entered listed =>
    obtain rfl : kind = .initDeclaratorList := by
      simpa [Tree.hasKind, Tree.kind?] using isList
    obtain ⟨type', declarators, rfl, isType, untyped⟩ := exists_type_cons grammatical
    obtain rfl : type' = type := by
      simpa [Tree.findChild?, Tree.childNodes, Tree.children, isType] using typed
    obtain ⟨context', rfl⟩ := exists_part_of_hasKind fits isList (by decide)
    obtain ⟨parts, rfl⟩ := Tree.exists_children_of_hasKind isType
    have readable := (grammatical.child _ List.mem_cons_self).child _
      (List.mem_of_find?_eq_some specified)
    have isSpecifier := List.find?_some specified
    cases entered
    simp only [siblingVisits, Siblings.after, isType, specified, List.mem_cons] at listed
    rcases listed with rfl | later
    · -- The type itself is no declarator.
      cases isDeclarator
    · refine ⟨_, _, role_of_declarators untyped later isDeclarator, fun unknown => ?_⟩
      obtain ⟨word, first, reported⟩ :=
        exists_report_of_unknown readable isSpecifier unknown
      exact ⟨word, first, findings_subset_of_mem_siblingVisits later reported⟩

/-- Behind a declarator of known type its name stands for what it declares. -/
theorem lookup?_after_declarator {v : Visit} {ty : Ty} {isArray : Bool} {name : Token}
    (isDeclarator : v.tree.hasKind .declarator)
    (role : v.role = .declarator (some ty) isArray)
    (named : v.tree.identifier? = some name) :
    v.after.lookup? name.text =
      some { name := name.text, ty, isArray := isArray || v.tree.isArray } := by
  obtain ⟨_, tree, state⟩ := v
  obtain rfl : _ = Role.declarator (some ty) isArray := role
  obtain ⟨children, rfl⟩ := Tree.exists_children_of_hasKind isDeclarator
  have found : (Tree.node .declarator children).identifier? = some name := named
  have left : after ⟨.declarator (some ty) isArray, .node .declarator children, state⟩ =
      declareVariable (visitAll (.uniform ty.isFloat) children state).scope
        (.node .declarator children) (some ty) isArray := rfl
  simp only [left, declareVariable, found]
  exact (Scope.lookup?_declare _ _ _).trans (if_pos rfl)

/-- The walk goes on to a part that is looked for. -/
theorem exists_step_of_findChild? {v : Visit} (h : v.WellFormed) {kind part : NodeKind}
    (ordinary : kind ∉ [NodeKind.functionDefinition, .declaration])
    (isKind : v.tree.hasKind kind) {child : Tree}
    (found : v.tree.findChild? part = some child) :
    ∃ w, v.Step w ∧ w.tree = child := by
  obtain ⟨children, shape⟩ := Tree.exists_children_of_hasKind isKind
  have kept : v.tree.redeclares v.state.scope.catalog = false := by
    rw [shape]
    exact Tree.redeclares_eq_false ordinary _ _
  refine exists_step h shape kept child ?_
  rw [shape] at found
  exact List.mem_of_find?_eq_some found

/-- A member of named type declares its names. -/
theorem declaresMember {v : Visit} (h : v.WellFormed)
    (words : ∀ token ∈ v.tree.leaves, token.kind = .identifier → token.text ≠ "")
    (isBlock : v.tree.hasKind .interfaceBlock) (noInstance : v.tree.instanceName? = none)
    {member : Tree} (listed : member ∈ v.tree.members) {ty : Ty}
    (known : member.namedType? v.inside = some ty) : v.DeclaresMember member := by
  refine ⟨ty, known, fun name written => ?_⟩
  obtain ⟨fields, _, -, registers, -, ofBlock⟩ :=
    exists_registers h words (Or.inr isBlock)
  obtain ⟨_, -, rfl⟩ := ofBlock isBlock
  rw [Tree.blockVariables, noInstance] at registers
  obtain ⟨own, among, named⟩ := Tree.exists_memberVariable known written
  have among : own ∈ v.tree.members.flatMap (Tree.memberVariables v.inside) :=
    List.mem_flatMap.2 ⟨member, listed, among⟩
  obtain ⟨declared, found⟩ : ∃ declared,
      (v.tree.members.flatMap (Tree.memberVariables v.inside)).reverse.find? (·.name = name) =
        some declared :=
    Option.isSome_iff_exists.1 (List.find?_isSome.2
      ⟨own, List.mem_reverse.2 among, decide_eq_true named⟩)
  have same := List.find?_some found
  refine ⟨declared, List.mem_reverse.1 (List.mem_of_find?_eq_some found),
    of_decide_eq_true same, ?_⟩
  rw [registers.lookup?_eq, found]
  rfl

/-- A struct that a member of a block declares is known when the members have been
visited. -/
theorem type?_inside_of_ownStruct {v : Visit} (h : v.WellFormed)
    (words : ∀ token ∈ v.tree.leaves, token.kind = .identifier → token.text ≠ "")
    (isBlock : v.tree.hasKind .interfaceBlock) {member : Tree}
    (listed : member ∈ v.tree.members)
    {inner : Tree} (own : member.ownStruct? = some inner) {name : Token}
    (titled : inner.identifier? = some name) : (v.inside.type? name.text).isSome := by
  obtain ⟨specifier, specified, among⟩ := Option.bind_eq_some_iff.1 own
  obtain ⟨hangs, isMember⟩ := List.mem_filter.1 listed
  obtain ⟨context, isPart⟩ := exists_part_of_hasKind h.fits isBlock (by decide)
  obtain ⟨children, shape⟩ := Tree.exists_children_of_hasKind isBlock
  obtain ⟨role, tree, state⟩ := v
  obtain rfl : role = _ := isPart
  obtain rfl : tree = _ := shape
  -- The walk comes from the block to the member, to its type and to the struct.
  obtain ⟨atMember, visited, rfl⟩ := exists_visit_of_mem (.uniform false) hangs state
  have step : Step ⟨.part context, .node .interfaceBlock children, state⟩ atMember :=
    .child rfl visited
  obtain ⟨fits, within⟩ := step.within h
  obtain ⟨atType, toType, rfl⟩ :=
    exists_step_of_findChild? fits (by decide) isMember specified
  obtain ⟨fitsType, withinType⟩ := toType.within fits
  have isType := List.find?_some specified
  obtain ⟨atStruct, toStruct, rfl⟩ :=
    exists_step_of_findChild? fitsType (by decide) isType among
  obtain ⟨fitsStruct, withinStruct⟩ := toStruct.within fitsType
  have isStruct := List.find?_some among
  have inside := List.Subset.trans withinStruct.leaves_subset
    (List.Subset.trans withinType.leaves_subset within.leaves_subset)
  obtain ⟨fields, _, -, registers, -⟩ := exists_registers fitsStruct
    (fun token member => words token (inside member)) (Or.inl isStruct)
  rw [← Tree.identifier?_of_struct fitsStruct.grammatical isStruct, titled] at registers
  have declared : (name.text, .struct name.text fields) ∈ atStruct.after.structs := by
    rw [registers.structs]
    exact List.mem_cons_self
  have known := structs_subset_of_mem_siblingVisits visited
    (toType.structs_subset (toStruct.structs_subset declared))
  refine Option.isSome_iff_ne_none.2 fun unknown => ?_
  rw [Scope.type?, Option.or_eq_none_iff] at unknown
  simpa using List.lookup_eq_none_iff.1 unknown.2 _ known

theorem handled {v : Visit} (h : v.WellFormed)
    (words : ∀ token ∈ v.tree.leaves, token.kind = .identifier → token.text ≠ "") :
    v.Handled where
  entered kept child member := by
    cases shape : v.tree with
    | leaf token =>
      rw [shape] at member
      cases member
    | node kind children =>
      rw [shape] at member
      exact exists_step h shape kept child member
  function isKind kept child found := exists_signature h isKind kept found
  declarators isList := by
    obtain ⟨type, specifier, typed, specified⟩ :=
      h.grammatical.wellShaped.declarators isList
    refine ⟨type, specifier, typed, specified, fun w step isDeclarator => ?_⟩
    obtain ⟨name, named⟩ :=
      Option.isSome_iff_exists.1 ((step.within h).1.grammatical.wellShaped.declarator isDeclarator)
    obtain ⟨known, isArray, role, unknown⟩ :=
      exists_role_of_declarator h isList typed specified step isDeclarator
    refine ⟨name, known, isArray, named, role, fun ty isKnown => ?_, unknown⟩
    rw [Option.mem_def.1 isKnown] at role
    exact lookup?_after_declarator isDeclarator role named
  block isBlock := by
    obtain ⟨fields, _, collected, registers, -, ofBlock⟩ :=
      exists_registers h words (Or.inr isBlock)
    obtain ⟨name, titled, rfl⟩ := ofBlock isBlock
    refine ⟨name, fields, titled, ?_, collected, fun token named => ?_⟩
    · rw [registers.structs, titled]
      simp
    · rw [registers.lookup?_eq, Tree.blockVariables, named]
      simp
  members isBlock noInstance member listed := by
    obtain ⟨grammatical, isMember⟩ := Tree.mem_members h.grammatical listed
    cases known : member.namedType? v.inside with
    | some ty => exact Or.inl (declaresMember h words isBlock noInstance listed known)
    | none =>
      refine Or.inr ?_
      cases own : member.ownStruct? with
      | none =>
        have unknown : member.memberType? v.inside = none := by
          rw [Tree.memberType?, own, known]
          rfl
        obtain ⟨findings, -, reported⟩ := exists_after_block h isBlock
        obtain ⟨_, -, -, all⟩ :=
          exists_declareBlock h.grammatical isBlock v.inside findings
        rw [reported, all]
        exact Or.inl
          (exists_report_of_member grammatical isMember unknown (List.mem_of_mem_filter listed) _)
      | some inner =>
        refine Or.inr ⟨inner, rfl, ?_, by rw [Tree.memberVariables, known]; rfl⟩
        by_contra titled
        obtain ⟨name, titled⟩ := Option.ne_none_iff_exists'.1 titled
        have declared := type?_inside_of_ownStruct h words isBlock listed own titled
        rw [Tree.namedType?_of_ownStruct grammatical isMember own, titled] at known
        exact Option.isSome_iff_ne_none.1 declared known

end Visit

end Plan

namespace SyntaxTree

open Plan

/-- The walk comes to every node that stands below no redeclared builtin, whatever
is there. -/
theorem exists_reaches {source : String} {tree : SyntaxTree}
    (parsed : ofSource source = .ok tree) (catalog : Catalog) {id : Nat} {node : Tree}
    (found : tree.root.postorder[id]? = some node)
    (outside : ¬ ∃ outer, tree.Redeclares catalog outer ∧ tree.Below id outer) :
    ∃ v, (Visit.ofTree catalog tree.root).Reaches v ∧ v.number = id ∧ v.tree = node := by
  obtain ⟨place, member, rfl, -⟩ := postorder_getElem?.1 found
  obtain ⟨v, reached, isNode, number⟩ :=
    exists_visit parsed catalog (nodes_get?.2 ⟨place, member, rfl, rfl⟩) outside
  have same := postorder_of_reaches reached isNode
  rw [number, found] at same
  exact ⟨v, reached, number, (Option.some.inj same).symm⟩

/-- In every tree that is read from a source, each node has the parts that are
looked for below it, and the queries find them; a call on an operand has no name,
and no type. So the walk comes to every node that stands below no redeclared
builtin, and at every node that it comes to it does all there is to do: it goes
on to each child, declares the function of a prototype, declares each declarator
of known type and has reported the type of any other, and registers each block
with its instance. Where a block has none, the names of its members are declared
or their type is reported, unless the type is a struct without a name. -/
theorem nothing_skipped {source : String} {tree : SyntaxTree}
    (parsed : ofSource source = .ok tree) (catalog : Catalog) :
    (∀ node ∈ tree.root.postorder, node.WellShaped ∧ ∀ scope,
      Inference.Answered scope node) ∧
    (∀ id node, tree.root.postorder[id]? = some node →
      (¬ ∃ outer, tree.Redeclares catalog outer ∧ tree.Below id outer) →
      ∃ v, (Visit.ofTree catalog tree.root).Reaches v ∧ v.number = id ∧ v.tree = node) ∧
    ∀ v, (Visit.ofTree catalog tree.root).Reaches v → v.Handled := by
  have sound := isSound_root parsed
  refine ⟨fun node listed => ?_, fun id node => exists_reaches parsed catalog, fun v reached => ?_⟩
  · have grammatical :=
      Tree.inherit_postorder (fun _ _ => Tree.Grammatical.child) sound.grammatical
        node listed
    exact ⟨grammatical.wellShaped, .of_wellShaped grammatical.wellShaped⟩
  · obtain ⟨wellFormed, within⟩ := reached.within (wellFormed_ofTree parsed catalog)
    refine Visit.handled wellFormed fun token member isName empty => ?_
    obtain ⟨c, cs, spelled, -⟩ := sound.words token (within.leaves_subset member) isName
    rw [empty] at spelled
    cases spelled

theorem nothing_skipped_function : ∃ tree v, ∃ prototype : Prototype,
    ofSource "int f(float x) { T y = x > 0.0 ? 1 : 2; return y; }" = .ok tree ∧
      (Visit.ofTree Catalog.bundled tree.root).Reaches v ∧
      v.tree.hasKind .functionDefinition ∧
      (∀ child ∈ v.tree.children, ∃ w, v.Step w ∧ w.tree = child) ∧
      prototype.name = "f" ∧ prototype.signature v.state.scope ∈ v.after.functions := by
  have read : (ofSource "int f(float x) { T y = x > 0.0 ? 1 : 2; return y; }").toOption.map
      (fun tree => tree.root.children.map fun node =>
        (node.hasKind .functionDefinition && ! node.redeclares Catalog.bundled,
          (node.findChild? .functionPrototype).map fun child =>
            (Prototype.ofTree? child).map Prototype.name)) =
      some [(true, some (some "f"))] := by
    decide +kernel
  obtain ⟨tree, parsed, facts⟩ := exists_of_map_toOption read
  obtain ⟨node, nodes, facts⟩ := List.map_eq_singleton_iff.1 facts
  obtain ⟨facts, name⟩ := Prod.mk.inj facts
  obtain ⟨isDefinition, kept⟩ := Bool.and_eq_true_iff.1 facts
  rw [Bool.not_eq_true'] at kept
  obtain ⟨child, found, name⟩ := Option.map_eq_some_iff.1 name
  have reached := reaches_first parsed Catalog.bundled nodes
  have handled := (nothing_skipped parsed Catalog.bundled).2.2 _ reached
  obtain ⟨prototype, own, declared⟩ :=
    handled.function (Or.inl isDefinition) kept child found
  rw [own] at name
  exact ⟨tree, _, prototype, parsed, reached, isDefinition, handled.entered kept,
    Option.some.inj name, declared⟩

/-- A member whose struct has no name is no variable, and nothing is said until it
is used; with a name it is one. And a call on an operand has no name. -/
theorem unnamed_member_skipped :
    (convert Catalog.bundled
        "uniform B { struct { float a; } s; }; void main() { s.a = 1; }").toOption.map
      (fun conversion => (conversion.text, conversion.diagnostics.map Diagnostic.message)) =
        some ("uniform B { struct { float a; } s; }; void main() { s.a = 1; }",
          ["unresolved identifier 's'"]) ∧
    (convert Catalog.bundled
        "uniform B { struct S { float a; } s; }; void main() { s.a = 1; }").toOption.map
      (fun conversion => (conversion.text, conversion.diagnostics.map Diagnostic.message)) =
        some ("uniform B { struct S { float a; } s; }; void main() { s.a = 1.0; }", []) ∧
    (convert Catalog.bundled "uniform B { struct { float a; } s; };").toOption.map
      (fun conversion => conversion.diagnostics.length) = some 0 ∧
    (ofSource "float a[2]; int n = a.length();").toOption.map (fun tree =>
        (tree.root.postorder.filter (·.hasKind .functionCall)).map Tree.callName?) =
      some [none] := by
  decide +kernel

end SyntaxTree

end ShaderDialect
