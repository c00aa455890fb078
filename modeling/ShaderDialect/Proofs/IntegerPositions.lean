import ShaderDialect.Conversion
import ShaderDialect.Proofs.Visits

/-!
# Integer positions

An integral expression is made of decimal literals and `int` variables by
parentheses, sums, differences and products, conversions of floating operands,
and choices by a comparison of floating operands. Where such an expression is
all of the initializer of an `int` variable, or all of an index, its literals
are promoted if it has a floating operand anywhere, and left alone if not.
-/

namespace ShaderDialect

/-- A floating literal or a `float` variable. -/
inductive Floating (scope : Scope) : Tree → Prop where
  | literal {token : Token} (isFloat : token.kind = .floatLiteral) :
      Floating scope (.node .primaryExpression [.leaf token])
  | name {token : Token} {found : Variable} (isWord : token.kind = .identifier)
      (known : scope.lookup? token.text = some found) (isFloat : found.ty.name = "float") :
      Floating scope (.node .primaryExpression [.leaf token])

/-- Integral expressions, with the literals at their integer positions and
whether there is a floating operand. -/
inductive Integral (scope : Scope) : Tree → List Token → Bool → Prop where
  | literal {token : Token} (isDecimal : token.IsDecimal) :
      Integral scope (.node .primaryExpression [.leaf token]) [token] false
  | name {token : Token} {found : Variable} (isWord : token.kind = .identifier)
      (known : scope.lookup? token.text = some found) (isInt : found.ty.name = "int") :
      Integral scope (.node .primaryExpression [.leaf token]) [] false
  | paren {left right : Token} {inner : Tree} {literals : List Token} {floats : Bool}
      (opens : left.is "(") (closes : right.is ")") (h : Integral scope inner literals floats) :
      Integral scope
        (.node .parenExpression
          [.leaf left, .node .expression [.node .assignmentExpression [inner]],
           .leaf right])
        literals floats
  | binary {operator : Token} {left right : Tree} {literals others : List Token}
      {floats floats' : Bool} (joins : operator.is "+" ∨ operator.is "-" ∨
        operator.is "*")
      (first : Integral scope left literals floats) (second : Integral scope right others floats') :
      Integral scope (.node .binaryExpression [left, .leaf operator, right]) (literals ++ others)
        (floats || floats')
  | conversion {word left right : Token} {operand : Tree} (isInt : word.is "int")
      (opens : left.is "(") (closes : right.is ")") (h : Floating scope operand) :
      Integral scope
        (.node .functionCall
          [.node .typeSpecifier [.leaf word], .leaf left, .node .assignmentExpression [operand],
            .leaf right])
        [] true
  | choice {less ask colon : Token} {left right yes no : Tree} {literals others : List Token}
      {floats floats' : Bool} (compares : less.is "<") (asks : ask.is "?") (parts : colon.is ":")
      (leftFloats : Floating scope left) (rightFloats : Floating scope right)
      (first : Integral scope yes literals floats) (second : Integral scope no others floats') :
      Integral scope
        (.node .conditionalExpression
          [.node .binaryExpression [left, .leaf less, right], .leaf ask,
            .node .expression [.node .assignmentExpression [yes]], .leaf colon,
            .node .assignmentExpression [no]])
        (literals ++ others) true

theorem Integral.isNode {scope : Scope} {tree : Tree} {literals : List Token}
    {floats : Bool} (h : Integral scope tree literals floats) : tree.isNode := by
  cases h <;> rfl

theorem Integral.mem_leaves {scope : Scope} {tree : Tree} {literals : List Token}
    {floats : Bool} (h : Integral scope tree literals floats) {literal : Token}
    (member : literal ∈ literals) :
    literal ∈ tree.leaves := by
  induction h with
  | literal => simpa using member
  | name => cases member
  | conversion => cases member
  | paren _ _ _ ih => simp [ih member]
  | binary _ _ _ ihFirst ihSecond =>
    rcases List.mem_append.1 member with member | member
    · simp [ihFirst member]
    · simp [ihSecond member]
  | choice _ _ _ _ _ _ _ ihFirst ihSecond =>
    rcases List.mem_append.1 member with member | member
    · simp [ihFirst member]
    · simp [ihSecond member]

namespace Inference

/-- A query that has not met a floating operand last. -/
def Query.IsPlain (query : Query) : Prop :=
  query.recent.any Ty.isFloat = false

theorem demand_floating {scope : Scope} {operand : Tree} (h : Floating scope operand)
    (query : Query) : (demand scope operand query).1 = true := by
  cases h with
  | literal isFloat =>
    simp [demand, primaryDemand, Tree.childTokens, Tree.children, Tree.token?, isFloat]
  | name isWord known isFloat =>
    simp [demand, primaryDemand, Tree.childTokens, Tree.children, Tree.token?,
      isWord, known, Ty.isFloat, isFloat]

/-- An integral expression demands floating operands if it has one. -/
theorem demand_of_floats {scope : Scope} {tree : Tree} {literals : List Token}
    {floats : Bool} (h : Integral scope tree literals floats) (query : Query)
    (holds : floats = true) :
    (demand scope tree query).1 = true := by
  induction h generalizing query with
  | literal => cases holds
  | name => cases holds
  | paren opens closes h ih =>
    have inner := fun query => ih query holds
    simp [demand, demandAll, inner]
  | binary joins first second ihFirst ihSecond =>
    rcases Bool.or_eq_true_iff.1 holds with holds | holds
    · have left := fun query => ihFirst query holds
      simp [demand, demandAll, left]
    · have right := fun query => ihSecond query holds
      simp [demand, demandAll, right]
  | conversion isInt opens closes h =>
    have operand := demand_floating h
    simp [demand, demandArguments, demandAll, Tree.hasKind, Tree.kind?, operand]
  | choice compares asks parts leftFloats rightFloats first second ihFirst ihSecond =>
    have operand := demand_floating leftFloats
    simp [demand, demandAll, operand]

/-- An integral expression without floating operands does not demand them. -/
theorem demand_of_plain {scope : Scope} {tree : Tree} {literals : List Token}
    {floats : Bool} (h : Integral scope tree literals floats) (query : Query)
    (plain : query.IsPlain) (none : floats = false) :
    (demand scope tree query).1 = false ∧ (demand scope tree query).2.IsPlain := by
  induction h generalizing query with
  | literal isDecimal =>
    simp [demand, primaryDemand, Tree.childTokens, Tree.children, Tree.token?,
      isDecimal.1]
    exact ⟨plain, plain⟩
  | name isWord known isInt =>
    simp [demand, primaryDemand, Tree.childTokens, Tree.children, Tree.token?,
      isWord, known, Ty.isFloat, isInt, Query.IsPlain, Query.meet]
  | paren opens closes h ih =>
    have inner := ih query plain none
    simp [demand, demandAll, inner.1, Query.IsPlain, Query.forget]
  | binary joins first second ihFirst ihSecond =>
    obtain ⟨left, right⟩ := Bool.or_eq_false_iff.1 none
    have first := ihFirst query plain left
    have second := ihSecond _ first.2 right
    simp [demand, demandAll, first.1, second]
  | conversion => cases none
  | choice => cases none

/-- An integral expression demands floating operands exactly if it has one. -/
theorem demand_integral {scope : Scope} {tree : Tree} {literals : List Token}
    {floats : Bool} (h : Integral scope tree literals floats) (findings : Findings) :
    (demand scope tree ⟨none, findings⟩).1 = floats := by
  cases floats with
  | true => exact demand_of_floats h _ rfl
  | false => exact (demand_of_plain h ⟨none, findings⟩ rfl rfl).1

theorem demandsFloat_operand (scope : Scope) (operand : Tree) (findings : Findings) :
    (demandsFloat scope (.node .assignmentExpression [operand]) findings).1 =
      (demand scope operand ⟨none, findings⟩).1 := by
  simp [demandsFloat, demand, demandAll]

end Inference

namespace Plan

def Write.isSpell : Write → Bool
  | .stamp _ _ => false
  | .spell _ _ => true

/-- Kinds whose nodes hand their context on and declare nothing. -/
def handsOn : NodeKind → Bool
  | .initializer | .expression | .binaryExpression | .parenExpression | .conditionalExpression
  | .typeSpecifier | .primaryExpression => true
  | _ => false

/-- Visits of a tree in a scope leave the scope alone and give these
spellings. -/
def Spells (scope : Scope) (role : Role) (tree : Tree) (log : List Write) : Prop :=
  ∀ state : State, state.scope = scope →
    (visit role tree state).scope = scope ∧
    (writes role tree state).filter Write.isSpell = log

def SpellsAll (scope : Scope) (siblings : Siblings) (trees : List Tree)
    (log : List Write) : Prop :=
  ∀ state : State, state.scope = scope →
    (visitAll siblings trees state).scope = scope ∧
      (writesAll siblings trees state).filter Write.isSpell = log

/-- The spellings of literals in a context. -/
def promotions (context : Bool) (literals : List Token) : List Write :=
  if context then literals.map fun literal =>
    .spell literal.index (literal.text ++ ".0") else []

theorem promotions_append (context : Bool) (literals others : List Token) :
    promotions context (literals ++ others) =
      promotions context literals ++ promotions context others := by
  cases context <;> simp [promotions]

theorem mem_promotions {context : Bool} {literals : List Token} {write : Write} :
    write ∈ promotions context literals ↔
      context = true ∧ ∃ literal ∈ literals,
        .spell literal.index (literal.text ++ ".0") = write := by
  cases context <;> simp [promotions]

theorem spellsAll_nil (scope : Scope) (siblings : Siblings) :
    SpellsAll scope siblings [] [] := by
  intro state same
  simp [visitAll, same]

theorem spellsAll_cons {scope : Scope} {siblings siblings' : Siblings} {tree : Tree}
    {trees : List Tree} {log others : List Write}
    (after : ∀ state, siblings.after tree state = (siblings', state))
    (first : Spells scope (siblings.role tree) tree log)
    (later : SpellsAll scope siblings' trees others) :
    SpellsAll scope siblings (tree :: trees) (log ++ others) := by
  intro state same
  obtain ⟨kept, own⟩ := first state same
  obtain ⟨kept', behind⟩ := later _ kept
  simp only [visitAll, writesAll_cons, after, List.filter_append, own, behind, kept',
    and_self]

theorem spellsAll_uniform {scope : Scope} {context : Bool} {trees : List Tree}
    {logs : List (List Write)} (h : List.Forall₂ (Spells scope (.part context)) trees logs) :
    SpellsAll scope (.uniform context) trees logs.flatten := by
  induction h with
  | nil => exact spellsAll_nil scope _
  | cons first _ ih => exact spellsAll_cons (fun _ => rfl) first ih

/-- What is not promoted is left alone. -/
theorem spells_leaf {scope : Scope} {token : Token} (kept : promoted? token = none)
    (role : Role) :
    Spells scope role (.leaf token) [] := by
  intro state same
  have nothing : tokenWrites role token = [] := by
    unfold tokenWrites
    split <;> simp [kept]
  rw [writes_leaf, nothing]
  refine ⟨?_, rfl⟩
  unfold visit promote
  split <;> simp [kept, same]

theorem promoted?_of_isDecimal {token : Token} (h : token.IsDecimal) :
    promoted? token = some (token.text ++ ".0") := by
  obtain ⟨isInt, zero | ⟨c, cs, spelling, least, -⟩⟩ := h
  · simp [promoted?, isInt, zero]
  · have notZero : c ≠ '0' := by
      rintro rfl
      exact absurd least (by decide)
    simp [promoted?, isInt, spelling, notZero]

theorem promoted?_of_is {token : Token} {text : String} (h : token.is text) :
    promoted? token = none := by
  have kind : token.kind = .keyword ∨ token.kind = .punct := by
    simpa [Token.is] using (Bool.and_eq_true_iff.1 h).1
  unfold promoted?
  rcases kind with kind | kind <;> simp [kind]

/-- A node that is entered spells what its children spell. -/
theorem spells_node {scope : Scope} {role : Role} {kind : NodeKind} {children : List Tree}
    {siblings : Siblings} {log : List Write}
    (ordinary : kind ≠ .functionDefinition ∧ kind ≠ .declaration)
    (entered : ∀ state : State, state.scope = scope → ∃ context state',
      enter state role kind (.node kind children) = (.descend context siblings, state') ∧
        state'.scope = scope)
    (left : ∀ state : State, (leave state role kind (.node kind children)).scope = state.scope)
    (below : SpellsAll scope siblings children log) :
    Spells scope role (.node kind children) log := by
  intro state same
  obtain ⟨context, state', shape, kept⟩ := entered state same
  obtain ⟨unchanged, spelled⟩ := below state' kept
  have nothing : entryWrites role (.node kind children) state = [] := by
    cases role <;> simp [entryWrites, Tree.redeclares, Tree.hasKind, Tree.kind?, ordinary]
  constructor
  · simp only [visit, shape]
    exact (left _).trans unchanged
  · simp [writes_node, nothing, shape, List.filter_append, spelled, Write.isSpell]

/-- A node that hands its context on. -/
theorem spells_handsOn {scope : Scope} {kind : NodeKind} {children : List Tree}
    {context : Bool} {logs : List (List Write)} {log : List Write}
    (hands : handsOn kind)
    (below : List.Forall₂ (Spells scope (.part context)) children logs)
    (joined : logs.flatten = log) :
    Spells scope (.part context) (.node kind children) log := by
  subst joined
  refine spells_node ?_ (fun state same => ⟨context, state, ?_, same⟩) ?_ (spellsAll_uniform below)
  · cases kind <;> simp_all [handsOn]
  · cases kind <;> simp_all [handsOn, enter, enterPart, takeOver]
  · intro state
    cases kind <;> simp_all [handsOn, leave, leavePart]

/-- An assignment expression around one operand sets a float context if it is
expected to be floating or demands it. -/
theorem enterAssignment_operand {state : State} {operand : Tree} {floats : Bool}
    (isNode : operand.isNode) (inherited expectsFloat : Bool)
    (demands : ∀ findings, (Inference.demand state.scope operand ⟨none, findings⟩).1 = floats) :
    ∃ state', enterAssignment state (.node .assignmentExpression [operand]) inherited expectsFloat =
      (.descend (inherited || (expectsFloat || floats))
        (.uniform (inherited || (expectsFloat || floats))), state') ∧
      state'.scope = state.scope := by
  cases operand with
  | leaf token => simp [Tree.isNode, Tree.kind?] at isNode
  | node kind children =>
    have noStore : storesFloat state (.node .assignmentExpression [.node kind children]) =
        (false, state) := rfl
    have asked :=
      Inference.demandsFloat_operand state.scope (.node kind children) state.findings
    cases expectsFloat with
    | true => exact ⟨state, by simp [enterAssignment, setsFloat], rfl⟩
    | false =>
      simp [enterAssignment, setsFloat, noStore, asked, demands]

theorem spells_assignment {scope : Scope} {operand : Tree} {context floats : Bool}
    {log : List Write} (isNode : operand.isNode)
    (demands : ∀ findings, (Inference.demand scope operand ⟨none, findings⟩).1 = floats)
    (below : Spells scope (.part (context || floats)) operand log) :
    Spells scope (.part context) (.node .assignmentExpression [operand]) log := by
  have inside := spellsAll_uniform (.cons below .nil)
  rw [List.flatten_singleton] at inside
  refine spells_node (by decide) (fun state same => ?_) (fun _ => rfl) inside
  subst same
  obtain ⟨state', entered, kept⟩ := enterAssignment_operand isNode context false demands
  exact ⟨_, state', entered, kept⟩

/-- An operand that is left alone in any context is left alone as an
argument. -/
theorem spells_argument {scope : Scope} {operand : Tree} {expectsFloat floats : Bool}
    (isNode : operand.isNode)
    (demands : ∀ findings, (Inference.demand scope operand ⟨none, findings⟩).1 = floats)
    (below : ∀ context, Spells scope (.part context) operand []) :
    Spells scope (.argument expectsFloat) (.node .assignmentExpression [operand]) [] := by
  have inside :=
    spellsAll_uniform (.cons (below (false || (expectsFloat || floats))) .nil)
  refine spells_node (by decide) (fun state same => ?_) (fun _ => rfl) inside
  subst same
  obtain ⟨state', entered, kept⟩ :=
    enterAssignment_operand isNode false expectsFloat demands
  exact ⟨_, state', entered, kept⟩

/-- A call of operands that spell nothing, whatever is expected of them. -/
theorem spells_call {scope : Scope} {children : List Tree}
    (h : ∀ tree ∈ children, ∀ flags, Spells scope ((Siblings.call flags).role tree) tree [])
    (context : Bool) :
    Spells scope (.part context) (.node .functionCall children) [] := by
  have operands : ∀ flags, SpellsAll scope (.call flags) children [] := by
    induction children with
    | nil => exact fun flags => spellsAll_nil scope _
    | cons tree trees ih =>
      intro flags
      have later := ih fun tree member => h tree (List.mem_cons_of_mem _ member)
      have both :=
        spellsAll_cons (fun _ => rfl) (h tree List.mem_cons_self flags) (later _)
      exact both
  refine spells_node (by decide) (fun state same => ⟨context, state, ?_, same⟩) (fun _ => rfl)
    (operands (Inference.callFlags scope (.node .functionCall children)))
  rw [← same]
  rfl

/-- A name or a floating literal is left alone. -/
theorem spells_primary {scope : Scope} {token : Token} (kept : promoted? token = none)
    (context : Bool) :
    Spells scope (.part context) (.node .primaryExpression [.leaf token]) [] :=
  spells_handsOn rfl (.cons (spells_leaf kept _) .nil) rfl

theorem spells_floating {scope : Scope} {operand : Tree} (h : Floating scope operand)
    (context : Bool) : Spells scope (.part context) operand [] := by
  cases h with
  | literal isFloat => exact spells_primary (by simp [promoted?, isFloat]) context
  | name isWord known isFloat =>
    exact spells_primary (by simp [promoted?, isWord]) context

/-- A comparison of floating operands is left alone. -/
theorem spells_comparison {scope : Scope} {less : Token} {left right : Tree}
    (compares : less.is "<") (leftFloats : Floating scope left)
    (rightFloats : Floating scope right) (context : Bool) :
    Spells scope (.part context) (.node .binaryExpression [left, .leaf less, right]) [] :=
  spells_handsOn rfl (.cons (spells_floating leftFloats context)
    (.cons (spells_leaf (promoted?_of_is compares) _)
      (.cons (spells_floating rightFloats context) .nil))) rfl

theorem spells_literal {scope : Scope} {token : Token} (h : token.IsDecimal)
    (context : Bool) :
    Spells scope (.part context) (.leaf token) (promotions context [token]) := by
  intro state same
  cases context with
  | false => simp [visit, tokenWrites, promotions, same]
  | true =>
    simp [visit, promote, tokenWrites, promoted?_of_isDecimal h, promotions, same,
      Write.isSpell]

/-- A conversion of a floating operand spells nothing. -/
theorem spells_conversion {scope : Scope} {word left right : Token} {operand : Tree}
    (isInt : word.is "int") (opens : left.is "(") (closes : right.is ")")
    (h : Floating scope operand) (context : Bool) :
    Spells scope (.part context)
      (.node .functionCall
        [.node .typeSpecifier [.leaf word], .leaf left, .node .assignmentExpression [operand],
          .leaf right]) [] := by
  have isNode : operand.isNode := by cases h <;> rfl
  have type : Spells scope (.part false) (.node .typeSpecifier [.leaf word]) [] :=
    spells_handsOn rfl (.cons (spells_leaf (promoted?_of_is isInt) _) .nil) rfl
  have argument : ∀ expectsFloat,
      Spells scope (.argument expectsFloat) (.node .assignmentExpression [operand]) [] :=
    fun _ => spells_argument isNode (fun _ => Inference.demand_floating h _) (spells_floating h)
  refine spells_call ?_ context
  simp only [List.forall_mem_cons]
  exact ⟨fun _ => type, fun _ => spells_leaf (promoted?_of_is opens) _, fun _ => argument _,
    fun _ => spells_leaf (promoted?_of_is closes) _, fun _ member =>
      absurd member List.not_mem_nil⟩

/-- An assignment expression around an integral operand sets no context that
is not there already. -/
theorem spells_operand {scope : Scope} {operand : Tree} {literals : List Token}
    {context floats : Bool} {log : List Write}
    (h : Integral scope operand literals floats)
    (covers : floats = true → context = true)
    (below : Spells scope (.part context) operand log) :
    Spells scope (.part context) (.node .assignmentExpression [operand]) log := by
  have same : (context || floats) = context := by cases floats <;> simp_all
  exact spells_assignment h.isNode (Inference.demand_integral h) (same.symm ▸ below)

theorem spells_expression {scope : Scope} {operand : Tree} {literals : List Token}
    {context floats : Bool} {log : List Write}
    (h : Integral scope operand literals floats)
    (covers : floats = true → context = true)
    (below : Spells scope (.part context) operand log) :
    Spells scope (.part context) (.node .expression [.node .assignmentExpression [operand]]) log :=
  spells_handsOn rfl (.cons (spells_operand h covers below) .nil) List.flatten_singleton

/-- The literals at integer positions are promoted in a float context, and
only there. -/
theorem spells_integral {scope : Scope} {tree : Tree} {literals : List Token}
    {floats : Bool} (h : Integral scope tree literals floats) {context : Bool}
    (covers : floats = true → context = true) :
    Spells scope (.part context) tree (promotions context literals) := by
  have nothing : promotions context [] = [] := by cases context <;> rfl
  induction h with
  | literal isDecimal =>
    exact spells_handsOn rfl (.cons (spells_literal isDecimal context) .nil) List.flatten_singleton
  | name isWord known isInt =>
    rw [nothing]
    exact spells_primary (by simp [promoted?, isWord]) context
  | paren opens closes h ih =>
    refine spells_handsOn rfl (.cons (spells_leaf (promoted?_of_is opens) _)
      (.cons (spells_expression h covers (ih covers))
        (.cons (spells_leaf (promoted?_of_is closes) _) .nil))) ?_
    simp
  | binary joins first second ihFirst ihSecond =>
    have mark : promoted? _ = none :=
      joins.elim promoted?_of_is (Or.elim · promoted?_of_is promoted?_of_is)
    have left := ihFirst fun holds => covers (by simp [holds])
    have right := ihSecond fun holds => covers (by simp [holds])
    refine spells_handsOn rfl (.cons left (.cons (spells_leaf mark _) (.cons right .nil))) ?_
    simp [promotions_append]
  | conversion isInt opens closes h =>
    rw [nothing]
    exact spells_conversion isInt opens closes h context
  | choice compares asks parts leftFloats rightFloats first second ihFirst ihSecond =>
    have always := covers rfl
    have condition := spells_comparison compares leftFloats rightFloats context
    have answer := spells_expression first (fun _ => always) (ihFirst fun _ => always)
    have otherwise := spells_operand second (fun _ => always) (ihSecond fun _ => always)
    refine spells_handsOn rfl (.cons condition (.cons (spells_leaf (promoted?_of_is asks) _)
      (.cons answer (.cons (spells_leaf (promoted?_of_is parts) _) (.cons otherwise .nil))))) ?_
    simp [promotions_append]

/-- Where no sibling changes how the next ones are visited, all have the roles
that the first would give them. -/
theorem role_of_mem {siblings : Siblings}
    (fixed : ∀ tree state, (siblings.after tree state).1 = siblings) {trees : List Tree}
    {state : State} {v : Visit} (listed : v ∈ siblingVisits siblings trees state) :
    v.role = siblings.role v.tree := by
  induction trees generalizing state with
  | nil => simp [siblingVisits] at listed
  | cons tree trees ih =>
    simp only [siblingVisits, fixed, List.mem_cons] at listed
    rcases listed with rfl | later
    · rfl
    · exact ih later

/-- Siblings without a type are declared with the type before them. -/
theorem role_of_declarators {type : Option Ty} {typeIsArray : Bool} {trees : List Tree}
    {state : State} {v : Visit} (untyped : ∀ tree ∈ trees, tree.hasKind .fullySpecifiedType = false)
    (listed : v ∈ siblingVisits (.declarators type typeIsArray) trees state)
    (isDeclarator : v.tree.hasKind .declarator) :
    v.role = .declarator type typeIsArray := by
  induction trees generalizing state with
  | nil => simp [siblingVisits] at listed
  | cons tree trees ih =>
    have here := untyped tree List.mem_cons_self
    have behind := fun tree member => untyped tree (List.mem_cons_of_mem _ member)
    simp only [siblingVisits, Siblings.after, here, List.mem_cons] at listed
    rcases listed with rfl | later
    · simp [Siblings.role, isDeclarator]
    · exact ih behind later

/-- A list of declarators is a type and trees that are none. -/
theorem exists_type_cons {children : List Tree}
    (h : (Tree.node .initDeclaratorList children).Grammatical) :
    ∃ type declarators, children = type :: declarators ∧
      type.hasKind .fullySpecifiedType ∧
      ∀ tree ∈ declarators, tree.hasKind .fullySpecifiedType = false := by
  cases h with
  | node form below =>
    obtain ⟨before, declarators, rfl, ⟨kind, parts, rfl, isType⟩, behind⟩ := form
    refine ⟨.node kind parts, declarators, rfl, ?_, fun tree member => ?_⟩
    · simpa [Tree.hasKind, Tree.kind?] using isType
    · have mentioned := Form.mentions_of_mem behind member
      cases tree with
      | leaf token => rfl
      | node kind' parts' =>
        have listed : kind' ∈ [NodeKind.declarator, .declarator] := mentioned
        simp only [List.mem_cons, List.not_mem_nil, or_false, or_self] at listed
        subst listed
        rfl

/-- The specifier of a builtin type stands for that type, with array dimensions
or without. -/
theorem specifiedType_word {word : Token} {dimensions : List Tree} {ty : Ty}
    (known : Ty.builtin? word.text = some ty)
    (grammatical : (Tree.node .typeSpecifier (.leaf word :: dimensions)).Grammatical)
    (scope : Scope) (findings : Findings) :
    specifiedType scope (.node .typeSpecifier (.leaf word :: dimensions)) findings =
      (some ty, findings) := by
  cases grammatical with
  | node form below =>
    obtain ⟨_, _, shape, first, _, _, rfl, ⟨parts, rfl, arrays⟩, rfl⟩ := form
    have noStruct : ∀ (trees : List (List Tree)),
        (∀ part ∈ trees, (Form.node [.arraySpecifier]).Matches part) →
          structAmong scope trees.flatten findings = (none, findings) := by
      intro trees listed
      induction trees with
      | nil => rfl
      | cons part parts ih =>
        obtain ⟨kind, sizes, rfl, isArray⟩ := listed part List.mem_cons_self
        obtain rfl : kind = .arraySpecifier := List.mem_singleton.1 isArray
        exact ih fun part member => listed part (List.mem_cons_of_mem _ member)
    rcases first with ⟨kind, members, rfl, isStruct⟩ | ⟨token, rfl, -⟩
    · cases shape
    · cases shape
      have type : scope.type? word.text = some ty := by
        rw [Scope.type?, known, Option.some_or]
      simp [specifiedType, structAmong, noStruct parts arrays, Tree.hasKind, Tree.kind?,
        namedType, Tree.typeName?, Tree.children, type]

/-- What holds the expression of an integer position: the initializer of an
`int` variable, or the index of an operand. -/
inductive IntegerPosition (root : Visit) : Visit → Prop
  | initializer {list declarator holder : Visit} {type : Tree} {word : Token}
      (reached : root.Reaches list) (isList : list.tree.hasKind .initDeclaratorList)
      (hasType : list.tree.findChild? .fullySpecifiedType = some type)
      (isWord : type.findChild? .typeSpecifier = some (.node .typeSpecifier [.leaf word]))
      (isInt : word.text = "int") (first : list.Step declarator)
      (isDeclarator : declarator.tree.hasKind .declarator) (second : declarator.Step holder)
      (isInitializer : holder.tree.hasKind .initializer) :
      IntegerPosition root holder
  | index {outer holder : Visit} (reached : root.Reaches outer)
      (isIndex : outer.tree.hasKind .indexExpression) (step : outer.Step holder)
      (isExpression : holder.tree.hasKind .expression) :
      IntegerPosition root holder

/-- The declarators behind a builtin type declare variables of that type. -/
theorem Visit.WellFormed.role_of_word {list declarator : Visit} (sound : list.WellFormed)
    (isList : list.tree.hasKind .initDeclaratorList) {type : Tree} {word : Token}
    {dimensions : List Tree} {ty : Ty}
    (hasType : list.tree.findChild? .fullySpecifiedType = some type)
    (isWord : type.findChild? .typeSpecifier =
      some (.node .typeSpecifier (.leaf word :: dimensions)))
    (known : Ty.builtin? word.text = some ty) (step : list.Step declarator)
    (isDeclarator : declarator.tree.hasKind .declarator) :
    ∃ typeIsArray, declarator.role = .declarator (some ty) typeIsArray := by
  obtain ⟨fits, grammatical, -⟩ := sound
  cases step with
  | @child role kind children state state' context siblings _ entered listed =>
    obtain rfl : kind = .initDeclaratorList := by
      simpa [Tree.hasKind, Tree.kind?] using isList
    obtain ⟨type', declarators, rfl, isType, untyped⟩ := exists_type_cons grammatical
    obtain rfl : type' = type := by
      simpa [Tree.findChild?, Tree.childNodes, Tree.children, isType] using hasType
    have readable : (Tree.node .typeSpecifier (.leaf word :: dimensions)).Grammatical := by
      obtain ⟨parts, rfl⟩ := Tree.exists_children_of_hasKind isType
      exact (grammatical.child _ List.mem_cons_self).child _ (List.mem_of_find?_eq_some isWord)
    cases role with
    | part context' =>
      cases entered
      simp only [siblingVisits, Siblings.after, isType, isWord,
        specifiedType_word known readable, List.mem_cons] at listed
      rcases listed with rfl | later
      · -- The type itself is no declarator.
        cases type' <;> simp_all [Tree.hasKind, Tree.kind?]
      · exact ⟨_, role_of_declarators untyped later isDeclarator⟩
    | _ => simp [Role.Fits, Tree.hasKind, Tree.kind?] at fits

namespace IntegerPosition

theorem reaches {root holder : Visit} (h : IntegerPosition root holder) :
    root.Reaches holder := by
  cases h with
  | initializer reached _ _ _ _ first _ second _ => exact (reached.tail first).tail second
  | index reached _ step _ => exact reached.tail step

/-- The context of an integer position is not floating. -/
theorem role {root holder : Visit} (h : IntegerPosition root holder)
    (sound : root.WellFormed) :
    holder.role = .part false := by
  cases h with
  | @initializer list declarator _ type word reached isList hasType isWord isInt first isDeclarator
      second isInitializer =>
    have known : Ty.builtin? word.text = some (.primitive "int") := by
      rw [isInt]
      rfl
    obtain ⟨_, declared⟩ :=
      (reached.within sound).1.role_of_word isList hasType isWord known first isDeclarator
    cases second with
    | @child role kind children state state' context siblings _ entered listed =>
      obtain rfl : role = _ := declared
      cases entered
      rw [role_of_mem (fun _ _ => rfl) listed]
      rfl
  | index reached isIndex step isExpression =>
    have fits := (reached.within sound).1.fits
    cases step with
    | @child role kind children state state' context siblings _ entered listed =>
      obtain rfl : kind = .indexExpression := by
        simpa [Tree.hasKind, Tree.kind?] using isIndex
      cases role with
      | part context' =>
        cases entered
        rw [role_of_mem (fun _ _ => rfl) listed]
        simp [Siblings.role, isExpression]
      | _ => simp [Role.Fits, Tree.hasKind, Tree.kind?] at fits

/-- What holds the expression hands its context on. -/
theorem exists_handsOn {root holder : Visit} (h : IntegerPosition root holder)
    {trees : List Tree} (whole : holder.tree.children = trees) (held : trees ≠ []) :
    ∃ kind, handsOn kind ∧ holder.tree = .node kind trees := by
  subst whole
  have isKind : holder.tree.hasKind .initializer ∨ holder.tree.hasKind .expression := by
    cases h with
    | initializer _ _ _ _ _ _ _ _ isInitializer => exact Or.inl isInitializer
    | index _ _ _ isExpression => exact Or.inr isExpression
  cases shape : holder.tree with
  | leaf token => simp [shape, Tree.children] at held
  | node kind children =>
    rw [shape] at isKind
    refine ⟨kind, ?_, rfl⟩
    rcases isKind with isKind | isKind <;> simp_all [Tree.hasKind, Tree.kind?, handsOn]

/-- An integral expression that is all of an integer position is in a float
context exactly if it has a floating operand. -/
theorem mem_writes {root holder : Visit} (h : IntegerPosition root holder)
    (sound : root.WellFormed) {operand : Tree}
    (whole : holder.tree.children = [.node .assignmentExpression [operand]])
    {literals : List Token} {floats : Bool}
    (integral : Integral holder.state.scope operand literals floats) (token : Nat)
    (text : String) :
    .spell token text ∈ holder.writes ↔
      .spell token text ∈ promotions floats literals := by
  obtain ⟨kind, hands, shape⟩ := h.exists_handsOn whole (List.cons_ne_nil _ _)
  have operands : Spells holder.state.scope (.part floats) operand (promotions floats literals) :=
    spells_integral integral id
  have held : Spells holder.state.scope (.part false) (.node .assignmentExpression [operand])
      (promotions floats literals) :=
    spells_assignment integral.isNode (Inference.demand_integral integral) operands
  have spells : Spells holder.state.scope (.part false) holder.tree
      (promotions floats literals) := by
    rw [shape]
    exact spells_handsOn hands (.cons held .nil) List.flatten_singleton
  have spelled := (spells holder.state rfl).2
  rw [Visit.writes, h.role sound, ← spelled, List.mem_filter]
  simp [Write.isSpell]

end IntegerPosition

end Plan

namespace SyntaxTree

open Plan

/-- The literals of an integral expression that is all of an integer position
are promoted exactly if it has a floating operand. -/
theorem edits_at_integerPosition {source : String} {tree : SyntaxTree}
    (h : ofSource source = .ok tree) (catalog : Catalog) {holder : Visit}
    (position : IntegerPosition (Visit.ofTree catalog tree.root) holder) {operand : Tree}
    (whole : holder.tree.children = [.node .assignmentExpression [operand]])
    {literals : List Token} {floats : Bool}
    (integral : Integral holder.state.scope operand literals floats) :
    ∀ literal ∈ literals, (Plan.ofTree catalog tree.root).edits.get? literal.index =
      if floats then some (literal.text ++ ".0") else none := by
  intro literal member
  have sound : (Visit.ofTree catalog tree.root).WellFormed :=
    ⟨trivial, (ofSource_spec h).1, consecutive_leaves h⟩
  obtain ⟨kind, -, shape⟩ := position.exists_handsOn whole (List.cons_ne_nil _ _)
  have below : literal ∈ holder.tree.leaves := by simp [shape, integral.mem_leaves member]
  have decided : ∀ text,
      (Plan.ofTree catalog tree.root).edits.get? literal.index = some text ↔
        .spell literal.index text ∈ promotions floats literals := fun text =>
    (edits_get?_of_reaches h catalog position.reaches below text).trans
      (position.mem_writes sound whole integral _ text)
  cases floats with
  | true => exact (decided _).2 (mem_promotions.2 ⟨rfl, literal, member, rfl⟩)
  | false =>
    refine Option.eq_none_iff_forall_ne_some.2 fun text found => ?_
    simpa [promotions] using (decided text).1 found

/-- The sum of a conversion and `2` is all of the initializer of an `int`
variable, and its literal is promoted. -/
theorem edits_at_integerPosition_conversion :
    ∃ tree, ofSource "int k = int(1.5) + 2;" = .ok tree ∧
    (Plan.ofTree Catalog.bundled tree.root).edits.get? 8 = some "2.0" := by
  let conversion : Tree := .node .functionCall
    [.node .typeSpecifier [.leaf ⟨3, .keyword, "int"⟩], .leaf ⟨4, .punct, "("⟩,
      .node .assignmentExpression [.node .primaryExpression [.leaf ⟨5, .floatLiteral, "1.5"⟩]],
      .leaf ⟨6, .punct, ")"⟩]
  let sum : Tree := .node .binaryExpression
    [conversion, .leaf ⟨7, .punct, "+"⟩, .node .primaryExpression [.leaf ⟨8, .intLiteral, "2"⟩]]
  let held : Tree := .node .initializer [.node .assignmentExpression [sum]]
  let declared : Tree := .node .declarator
    [.leaf ⟨1, .identifier, "k"⟩, .leaf ⟨2, .punct, "="⟩, held]
  let list : Tree := .node .initDeclaratorList
    [.node .fullySpecifiedType [.node .typeSpecifier [.leaf ⟨0, .keyword, "int"⟩]],
     declared]
  let outer : Tree := .node .declaration [list, .leaf ⟨9, .punct, ";"⟩]
  have read : (ofSource "int k = int(1.5) + 2;").toOption.map SyntaxTree.root =
      some (.node .unit [outer]) := by
    decide +kernel
  obtain ⟨tree, parsed, shape⟩ := exists_of_map_toOption read
  have sound : (Visit.ofTree Catalog.bundled tree.root).WellFormed :=
    ⟨trivial, (ofSource_spec parsed).1, consecutive_leaves parsed⟩
  obtain ⟨v₁, step₁, same₁⟩ := Visit.exists_step sound shape
    (by rw [Visit.ofTree, shape]; rfl) outer (by simp)
  have sound₁ := (step₁.within sound).1
  obtain ⟨v₂, step₂, same₂⟩ :=
    Visit.exists_step sound₁ same₁ (by rw [same₁]; rfl) list (by simp)
  have sound₂ := (step₂.within sound₁).1
  obtain ⟨v₃, step₃, same₃⟩ :=
    Visit.exists_step sound₂ same₂ (by rw [same₂]; rfl) declared (by simp)
  have sound₃ := (step₃.within sound₂).1
  obtain ⟨v₄, step₄, same₄⟩ :=
    Visit.exists_step sound₃ same₃ (by rw [same₃]; rfl) held (by simp)
  have reached := (Relation.ReflTransGen.single step₁).tail step₂
  have position : IntegerPosition (Visit.ofTree Catalog.bundled tree.root) v₄ :=
    .initializer reached (by rw [same₂]; rfl) (by rw [same₂]; rfl) rfl rfl step₃
      (by rw [same₃]; rfl) step₄ (by rw [same₄]; rfl)
  have two : Token.IsDecimal ⟨8, .intLiteral, "2"⟩ :=
    ⟨rfl, Or.inr ⟨'2', [], rfl, by decide, by decide⟩⟩
  have integral : Integral v₄.state.scope sum [⟨8, .intLiteral, "2"⟩] true :=
    .binary (Or.inl rfl) (.conversion rfl rfl rfl (.literal rfl)) (.literal two)
  have whole : v₄.tree.children = [.node .assignmentExpression [sum]] := by
    rw [same₄]
    rfl
  exact ⟨tree, parsed, edits_at_integerPosition parsed Catalog.bundled position whole integral _
    List.mem_cons_self⟩

end SyntaxTree

/-- So an `int` variable may get a floating initializer. -/
theorem convert_int_conversion :
    (convert Catalog.bundled "int k = int(1.5) + 2;").toOption.map Conversion.text =
      some "int k = int(1.5) + 2.0;" := by
  decide +kernel

end ShaderDialect
