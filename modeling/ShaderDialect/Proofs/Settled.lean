import ShaderDialect.Proofs.Answers
import ShaderDialect.Proofs.Visits

/-!
# The second walk

A walk over the converted shader goes alongside the walk over the shader. Its
scopes are alike, and so are its roles, but for one thing: an expression that
shows a promoted literal now demands floating operands. `Settles` says that in
such an expression all literals that are handed its context were promoted. Where
every assignment expression settles, the second walk promotes nothing.
-/

namespace ShaderDialect

namespace Plan

open Inference (Shows IsPromoted single told)

/-- Whether a node hands the context that it is visited in on to a child. -/
def handsTo (kind : NodeKind) (child : Tree) : Bool :=
  match kind with
  | .functionDefinition | .declaration | .initDeclaratorList | .structSpecifier | .interfaceBlock
  | .functionCall | .arraySpecifier | .layoutQualifier => false
  | .indexExpression => child.isNode && ! child.hasKind .expression
  | _ => true

/-- The tokens that get the context in which a tree is visited. -/
inductive Hands : Tree → Token → Prop
  | leaf (token : Token) : Hands (.leaf token) token
  | node {kind : NodeKind} {children : List Tree} {child : Tree} {token : Token}
      (hands : handsTo kind child) (member : child ∈ children) (h : Hands child token) :
      Hands (.node kind children) token

theorem Hands.mem_leaves {tree : Tree} {token : Token} (h : Hands tree token) :
    token ∈ tree.leaves := by
  induction h with
  | leaf token => exact List.mem_singleton_self _
  | node hands member h ih => exact Tree.leaves_subset member ih

/-- Every literal that gets the context of a tree is promoted. -/
def Quiet (f : Token → Token) (tree : Tree) : Prop :=
  ∀ token, Hands tree token → (promoted? token).isSome → f token ≠ token

/-- If a tree shows a promoted literal, it is quiet. -/
def Settles (f : Token → Token) (tree : Tree) : Prop :=
  ∀ shown, Shows tree shown → f shown ≠ shown → Quiet f tree

theorem Quiet.child {f : Token → Token} {kind : NodeKind} {children : List Tree}
    (h : Quiet f (.node kind children)) {child : Tree} (member : child ∈ children)
    (hands : handsTo kind child) : Quiet f child :=
  fun token handed => h token (.node hands member handed)

/-! ### Contexts set by assignment expressions -/

theorem scope_setsFloat (state : State) (tree : Tree) (expectsFloat : Bool) :
    (setsFloat state tree expectsFloat).2.scope = state.scope := by
  have stores := scope_storesFloat state tree
  unfold setsFloat
  split
  · rfl
  · split <;> rename_i shape <;> rw [shape] at stores <;> exact stores

theorem storesFloat_eq (state : State) (tree : Tree) :
    (storesFloat state tree).1 = (isAssignment tree &&
      (told (Inference.typeOfNth state.scope 0 tree.children)).any Ty.isFloatScalarOrVector) := by
  unfold storesFloat
  cases isAssignment tree with
  | false => rfl
  | true =>
    simp only [if_true, Bool.true_and]
    cases type : told (Inference.typeOfNth state.scope 0 tree.children) with
    | some ty => simp [Inference.told_eq_some type]
    | none =>
      rcases Inference.told_eq_none type with ⟨finding, shape⟩ | shape |
        ⟨ty, shape, isDull⟩
      · simp [shape]
      · simp [shape]
      · rw [shape]
        exact Ty.isFloatScalarOrVector_of_isDull isDull

theorem setsFloat_eq (state : State) (tree : Tree) (expectsFloat : Bool) :
    ∃ findings, (setsFloat state tree expectsFloat).1 = (expectsFloat ||
      (storesFloat state tree).1 ||
      (Inference.demand state.scope tree { recent := none, findings }).1) := by
  cases expectsFloat with
  | true => exact ⟨state.findings, rfl⟩
  | false =>
    have stores := scope_storesFloat state tree
    unfold setsFloat
    rcases shape : storesFloat state tree with ⟨_ | _, state'⟩
    · rw [shape] at stores
      refine ⟨state'.findings, ?_⟩
      simp only [Bool.false_eq_true, if_false, Bool.false_or, Inference.demandsFloat]
      rw [← stores]
    · exact ⟨state.findings, rfl⟩

section Contexts

variable {f : Token → Token} (respelling : Respelling f) {state state' : State}
  (alike : state.scope.Alike state'.scope)
include respelling

theorem isAssignment_respell (tree : Tree) :
    isAssignment (tree.respell f) = isAssignment tree := by
  have same : ∀ token, (decide ((f token).kind = .punct) &&
      Vocabulary.assignmentOperators.contains (f token).text) =
        (decide (token.kind = .punct) &&
          Vocabulary.assignmentOperators.contains token.text) := by
    intro token
    have punct : (f token).kind = .punct ↔ token.kind = .punct :=
      respelling.kind_eq rfl token
    by_cases isMark : token.kind = .punct
    · rw [respelling.keeps token (by rw [isMark]; rfl)]
    · simp [isMark, punct]
  simp only [isAssignment, Tree.childTokens_respell, List.any_map,
    Function.comp_def, same]

include alike

/-- In the second walk an assignment expression sets a float context of its own
only where it did before, or where it shows a promoted literal. -/
theorem setsFloat_alike {children : List Tree}
    (grammatical : (Tree.node .assignmentExpression children).Grammatical)
    {expectsFloat : Bool}
    (sets : (setsFloat state' ((Tree.node .assignmentExpression children).respell f)
      expectsFloat).1 = true) :
    (setsFloat state (.node .assignmentExpression children) expectsFloat).1 = true ∨
      ∃ shown, Shows (.node .assignmentExpression children) shown ∧ f shown ≠ shown := by
  by_cases changed : ∃ shown, Shows (.node .assignmentExpression children) shown ∧
    f shown ≠ shown
  · exact Or.inr changed
  simp only [not_exists, not_and, not_not] at changed
  left
  obtain ⟨findings, eq⟩ :=
    setsFloat_eq state (.node .assignmentExpression children) expectsFloat
  obtain ⟨findings', eq'⟩ :=
    setsFloat_eq state' ((Tree.node .assignmentExpression children).respell f) expectsFloat
  have type : told (Inference.typeOfNth state'.scope 0 (children.map (Tree.respell f))) =
      told (Inference.typeOfNth state.scope 0 children) := by
    refine Inference.told_typeOfNth fun tree found => ?_
    have member := (List.mem_filter.1 (List.mem_of_getElem? found)).1
    exact Inference.told_typeOf respelling alike (grammatical.child tree member)
      fun token shown =>
      changed token (.part (by decide) member shown)
  have stores : (storesFloat state' ((Tree.node .assignmentExpression children).respell f)).1 =
      (storesFloat state (.node .assignmentExpression children)).1 := by
    rw [storesFloat_eq, storesFloat_eq, isAssignment_respell respelling,
      Tree.children_respell]
    exact congrArg _ (congrArg _ type)
  have demands :=
    (Inference.demand_alike respelling alike grammatical changed ⟨none, findings⟩
      ⟨none, findings'⟩ rfl).1
  rw [eq, ← stores, ← demands, ← eq', sets]

end Contexts

/-! ### Two walks side by side -/

/-- The roles of a tree in the two walks. In the second one the context may be
wider only for a quiet tree. -/
inductive Role.Alike (f : Token → Token) (tree : Tree) : Role → Role → Prop
  | part {context context' : Bool}
      (wider : context' = true → context = true ∨ Quiet f tree) :
      Role.Alike f tree (.part context) (.part context')
  | argument (expectsFloat : Bool) :
      Role.Alike f tree (.argument expectsFloat) (.argument expectsFloat)
  | declarator (type : Option Ty) (typeIsArray : Bool) :
      Role.Alike f tree (.declarator type typeIsArray) (.declarator type typeIsArray)
  | body : Role.Alike f tree .body .body

/-- How siblings are visited in the two walks. -/
inductive Siblings.Alike (f : Token → Token) (trees : List Tree) :
    Siblings → Siblings → Prop
  | uniform {context context' : Bool}
      (wider : context' = true → context = true ∨ ∀ tree ∈ trees, Quiet f tree) :
      Siblings.Alike f trees (.uniform context) (.uniform context')
  | call (flags : List Bool) : Siblings.Alike f trees (.call flags) (.call flags)
  | index {context context' : Bool} (wider : context' = true → context = true ∨
      ∀ tree ∈ trees, handsTo .indexExpression tree → Quiet f tree) :
      Siblings.Alike f trees (.index context) (.index context')
  | declarators (type : Option Ty) (typeIsArray : Bool) :
      Siblings.Alike f trees (.declarators type typeIsArray) (.declarators type typeIsArray)
  | definition : Siblings.Alike f trees .definition .definition

namespace Siblings.Alike

variable {f : Token → Token} {tree : Tree} {trees : List Tree}
    {siblings siblings' : Siblings}

theorem role (h : Siblings.Alike f (tree :: trees) siblings siblings') :
    Role.Alike f tree (siblings.role tree) (siblings'.role (tree.respell f)) := by
  cases h with
  | uniform wider =>
    exact .part fun context => (wider context).imp_right fun quiet =>
      quiet tree List.mem_cons_self
  | call flags =>
    simp only [Siblings.role, Tree.hasKind_respell]
    split_ifs
    · exact .argument _
    · exact .part (by simp)
  | @index context context' wider =>
    simp only [Siblings.role, Tree.hasKind_respell, Tree.isNode_respell, Bool.and_assoc]
    refine .part fun inside => ?_
    obtain ⟨context, hands⟩ := Bool.and_eq_true_iff.1 inside
    rcases wider context with same | quiet
    · exact Or.inl (Bool.and_eq_true_iff.2 ⟨same, hands⟩)
    · exact Or.inr (quiet tree List.mem_cons_self hands)
  | declarators type typeIsArray =>
    simp only [Siblings.role, Tree.hasKind_respell]
    split_ifs
    · exact .declarator _ _
    · exact .part (by simp)
  | definition =>
    simp only [Siblings.role, Tree.hasKind_respell]
    split_ifs
    · exact .body
    · exact .part (by simp)

theorem tail (h : Siblings.Alike f (tree :: trees) siblings siblings') :
    Siblings.Alike f trees siblings siblings' := by
  cases h with
  | uniform wider =>
    exact .uniform fun context => (wider context).imp_right fun quiet tree member =>
      quiet tree (List.mem_cons_of_mem _ member)
  | call flags => exact .call flags
  | index wider =>
    exact .index fun context => (wider context).imp_right fun quiet tree member =>
      quiet tree (List.mem_cons_of_mem _ member)
  | declarators type typeIsArray => exact .declarators type typeIsArray
  | definition => exact .definition

/-- The siblings behind a tree are visited alike. -/
theorem after (respelling : Respelling f)
    (h : Siblings.Alike f (tree :: trees) siblings siblings') (sound : tree.IsSound)
    {state state' : State} (alike : state.scope.Alike state'.scope) :
    Siblings.Alike f trees (siblings.after tree state).1
        (siblings'.after (tree.respell f) state').1 ∧
      (siblings.after tree state).2.scope.Alike
          (siblings'.after (tree.respell f) state').2.scope := by
  have tail := h.tail
  cases h with
  | call flags =>
    simp only [Siblings.after, Tree.hasKind_respell]
    exact ⟨.call _, alike⟩
  | declarators type typeIsArray =>
    simp only [Siblings.after, Tree.hasKind_respell, Tree.findChild?_respell]
    split_ifs
    · cases found : tree.findChild? .typeSpecifier with
      | none => exact ⟨tail, alike⟩
      | some specifier =>
        obtain ⟨specified, isType⟩ := sound.findChild? found
        have type' := specifiedType_respell respelling (funext alike.type?_eq) specifier
          specified.grammatical isType state.findings state'.findings
        simp only [Option.map_some, type', Tree.isArray_respell]
        exact ⟨.declarators _ _, alike⟩
    · exact ⟨tail, alike⟩
  | _ => exact ⟨tail, alike⟩

end Siblings.Alike

/-- A walk that deletes nothing, and the tokens as they are read after it. -/
structure Rewriting (catalog : Catalog) (root : Tree) (f : Token → Token) : Prop where
  plain : catalog.IsPlain
  sound : root.IsSound
  consecutive : Consecutive root.leaves
  respelling : Respelling f
  promoted : ∀ token ∈ root.leaves, f token = token ∨ IsPromoted token (f token)
  spelled_iff : ∀ v, (Visit.ofTree catalog root).Reaches v → ∀ token ∈ v.tree.leaves,
    (token.index ∈ spelled v.writes ↔ f token ≠ token)
  kept : ∀ v, (Visit.ofTree catalog root).Reaches v →
    v.tree.redeclares v.state.scope.catalog = false

/-- The arguments of a call are visited with their flags. -/
theorem exists_argument_visit {children : List Tree} {argument : Tree} {i : Nat}
    (flags : List Bool)
    (nth : (children.filter (·.hasKind .assignmentExpression))[i]? = some argument)
    (state : State) :
    ∃ v ∈ siblingVisits (.call flags) children state, v.tree = argument ∧
      v.role = .argument (flags.getD i false) := by
  induction children generalizing flags i state with
  | nil => simp at nth
  | cons child children ih =>
    rw [siblingVisits]
    by_cases isArgument : child.hasKind .assignmentExpression
    · simp only [List.filter_cons, isArgument, if_true] at nth
      cases i with
      | zero =>
        cases nth
        refine ⟨_, List.mem_cons_self, rfl, ?_⟩
        cases flags <;> simp [Siblings.role, isArgument]
      | succ i =>
        obtain ⟨v, listed, same, role⟩ := ih flags.tail nth
          (visit ((Siblings.call flags).role child) child state)
        refine ⟨v, List.mem_cons_of_mem _ (by simpa [Siblings.after, isArgument] using listed),
          same, ?_⟩
        rw [role]
        cases flags <;> simp
    · simp only [List.filter_cons, isArgument] at nth
      obtain ⟨v, listed, same, role⟩ := ih flags nth
        (visit ((Siblings.call flags).role child) child state)
      exact ⟨v, List.mem_cons_of_mem _ (by simpa [Siblings.after, isArgument] using listed),
        same, role⟩

/-- A single integer is promoted only where a floating argument is expected. -/
theorem expects_of_spelled_single {token : Token} {expectsFloat : Bool} {state : State}
    (isInt : token.kind = .intLiteral)
    (h : token.index ∈ spelled (writes (.argument expectsFloat) (single token) state)) :
    expectsFloat = true := by
  by_contra unexpected
  obtain rfl : expectsFloat = false := by simpa using unexpected
  have sets : setsFloat state (single token) false = (false, state) := by
    simp [setsFloat, storesFloat, isAssignment, single, Tree.childTokens, Tree.children,
      Tree.token?, Inference.demandsFloat, Inference.demand, Inference.demandAll,
      Inference.primaryDemand, isInt, Inference.Query.forget]
  have nothing : spelled (writes (.argument false) (single token) state) = [] := by
    rw [single] at sets ⊢
    simp [writes_node, entryWrites, enter, enterAssignment, sets, writesAll_cons,
      Siblings.role,
      enterPart, takeOver, tokenWrites, spelled, Tree.redeclares, Tree.hasKind,
      Tree.kind?]
  rw [nothing] at h
  cases h

namespace Rewriting

variable {catalog : Catalog} {root : Tree} {f : Token → Token}
    (h : Rewriting catalog root f)
include h

theorem wellFormed : (Visit.ofTree catalog root).WellFormed :=
  ⟨trivial, h.sound.grammatical, h.consecutive⟩

theorem leaves_subset {v : Visit} (reached : (Visit.ofTree catalog root).Reaches v) :
    v.tree.leaves ⊆ root.leaves :=
  (reached.within h.wellFormed).2.leaves_subset

theorem sound_of_reaches {v : Visit} (reached : (Visit.ofTree catalog root).Reaches v) :
    v.tree.IsSound :=
  ⟨(reached.within h.wellFormed).1.grammatical, fun token member =>
    h.sound.words token (h.leaves_subset reached member)⟩

/-- Arguments that are promoted literals were expected to be floating. -/
theorem callFlags_expected {context : Bool} {children : List Tree} {state : State}
    (reached : (Visit.ofTree catalog root).Reaches ⟨.part context,
      .node .functionCall children, state⟩)
    (i : Nat) (token : Token)
    (nth : (Tree.node .functionCall children).arguments[i]? = some (single token))
    (changed : f token ≠ token) :
    (Inference.callFlags state.scope (.node .functionCall children))[i]? = some true := by
  obtain ⟨v, listed, same, role⟩ := exists_argument_visit
    (Inference.callFlags state.scope (.node .functionCall children)) nth state
  have step : Visit.Step ⟨.part context, .node .functionCall children, state⟩ v :=
    .child rfl listed
  have further := reached.tail step
  have member : token ∈ v.tree.leaves := by simp [same, single]
  have becomes := (h.promoted token (h.leaves_subset further member)).resolve_left changed
  have spelled := (h.spelled_iff v further token member).2 changed
  rw [Visit.writes, same, role] at spelled
  have expects := expects_of_spelled_single becomes.isInt spelled
  rw [List.getD_eq_getElem?_getD] at expects
  cases flag : (Inference.callFlags state.scope (.node .functionCall children))[i]? with
  | none => simp [flag] at expects
  | some flag' => simpa [flag] using expects

end Rewriting

/-! ### One step of both walks -/

section Steps

variable {f : Token → Token} (respelling : Respelling f)
include respelling

theorem exists_prototype_respell {tree : Tree} (sound : tree.IsSound)
    {prototype : Prototype} (read : tree.prototype? = some prototype) :
    ∃ prototype', (tree.respell f).prototype? = some prototype' ∧
      prototype.Alike prototype' := by
  obtain ⟨child, found, read⟩ := Option.bind_eq_some_iff.1 read
  obtain ⟨prototype', read', alike⟩ :=
    Prototype.exists_respell respelling (sound.findChild? found).1 read
  exact ⟨prototype', by simp [Tree.prototype?, found, read'], alike⟩

/-- What redeclares no builtin does so after respelling neither. -/
theorem redeclares_respell {catalog : Catalog} (plain : catalog.IsPlain) {tree : Tree}
    (sound : tree.IsSound) (kept : tree.redeclares catalog = false) :
    (tree.respell f).redeclares catalog = false := by
  refine Bool.eq_false_iff.2 fun redeclares => Bool.eq_false_iff.1 kept ?_
  simp only [Tree.redeclares, Tree.hasKind_respell, Bool.and_eq_true,
    Option.any_eq_true] at redeclares ⊢
  obtain ⟨isKind, prototype', read', isBuiltin⟩ := redeclares
  refine ⟨isKind, ?_⟩
  -- The respelled tree has a prototype only where the tree has one.
  have found : (tree.findChild? .functionPrototype).isSome := by
    rw [Tree.prototype?, Tree.findChild?_respell] at read'
    cases found : tree.findChild? .functionPrototype with
    | none => simp [found] at read'
    | some child => rfl
  obtain ⟨child, found⟩ := Option.isSome_iff_exists.1 found
  obtain ⟨childSound, isPrototype⟩ := sound.findChild? found
  obtain ⟨prototype, read⟩ := Prototype.exists_ofTree? childSound.grammatical isPrototype
  have own : tree.prototype? = some prototype := by simp [Tree.prototype?, found, read]
  obtain ⟨other, readOther, alike⟩ := exists_prototype_respell respelling sound own
  cases read'.symm.trans readOther
  exact ⟨prototype, own, alike.isBuiltin plain isBuiltin⟩

/-- Both walks enter a node, and go on below it alike. -/
structure EntersAlike (f : Token → Token) (children : List Tree)
    (entry entry' : Entry × State) :
    Prop where
  scope : entry.2.scope.Alike entry'.2.scope
  descends : ∃ context context' siblings siblings', entry.1 = .descend context siblings ∧
    entry'.1 = .descend context' siblings' ∧ Siblings.Alike f children siblings siblings'

theorem enterAssignment_alike {children : List Tree} {state state' : State}
    (alike : state.scope.Alike state'.scope)
    (grammatical : (Tree.node .assignmentExpression children).Grammatical)
    (settles : Settles f (.node .assignmentExpression children))
    {inherited inherited' : Bool}
    (wider : inherited' = true → inherited = true ∨ Quiet f (.node .assignmentExpression children))
    (expectsFloat : Bool) :
    EntersAlike f children
      (enterAssignment state (.node .assignmentExpression children) inherited expectsFloat)
      (enterAssignment state' ((Tree.node .assignmentExpression children).respell f) inherited'
        expectsFloat) := by
  constructor
  · simp only [enterAssignment, scope_setsFloat]
    exact alike
  · refine ⟨_, _, _, _, rfl, rfl, .uniform fun context => ?_⟩
    have below : Quiet f (.node .assignmentExpression children) → ∀ tree ∈ children,
        Quiet f tree :=
      fun quiet tree member => quiet.child member rfl
    rcases Bool.or_eq_true_iff.1 context with handed | own
    · rcases wider handed with same | quiet
      · exact Or.inl (Bool.or_eq_true_iff.2 (Or.inl same))
      · exact Or.inr (below quiet)
    · rcases setsFloat_alike respelling alike grammatical own with own |
        ⟨shown, shows, changed⟩
      · exact Or.inl (Bool.or_eq_true_iff.2 (Or.inr own))
      · exact Or.inr (below (settles shown shows changed))

theorem enterDefinition_alike {children : List Tree} {state state' : State}
    (alike : state.scope.Alike state'.scope)
    (sound : (Tree.node .functionDefinition children).IsSound)
    (kept : (Tree.node .functionDefinition children).redeclares state.scope.catalog = false)
    (context context' : Bool) :
    EntersAlike f children (enterDefinition state (.node .functionDefinition children) context)
      (enterDefinition state' ((Tree.node .functionDefinition children).respell f) context') := by
  obtain ⟨below, found, readable⟩ :=
    sound.grammatical.exists_findChild? .functionPrototype (by decide)
  obtain ⟨prototype, read⟩ :=
    Prototype.exists_ofTree? readable (by simp [Tree.hasKind, Tree.kind?])
  have own : (Tree.node .functionDefinition children).prototype? = some prototype := by
    simp [Tree.prototype?, found, read]
  obtain ⟨prototype', own', likeness⟩ := exists_prototype_respell respelling sound own
  have kept' := redeclares_respell respelling alike.plain sound kept
  have noBuiltin := Tree.isBuiltin_eq_false (Or.inl rfl) kept own
  have noBuiltin' : prototype'.isBuiltin state'.scope.catalog = false :=
    alike.catalog ▸ Tree.isBuiltin_eq_false (Or.inl (Tree.kind?_respell ..)) kept' own'
  have params :=
    alike_declareParameters likeness.params alike.push state.findings state'.findings
  rw [Tree.prototype?] at own own'
  simp only [enterDefinition, own, own', noBuiltin, noBuiltin']
  refine ⟨params.declareFunction (likeness.signature params), ?_⟩
  exact ⟨_, _, _, _, rfl, rfl, .definition⟩

theorem enterDeclaration_alike {children : List Tree} {state state' : State}
    (alike : state.scope.Alike state'.scope)
    (sound : (Tree.node .declaration children).IsSound)
    (kept : (Tree.node .declaration children).redeclares state.scope.catalog = false)
    (context context' : Bool) :
    EntersAlike f children (enterDeclaration state (.node .declaration children) context)
      (enterDeclaration state' ((Tree.node .declaration children).respell f) context') := by
  have uniform : Siblings.Alike f children (.uniform false) (.uniform false) :=
    .uniform (by simp)
  cases found : (Tree.node .declaration children).findChild? .functionPrototype with
  | none =>
    simp only [enterDeclaration, Tree.findChild?_respell, found]
    exact ⟨alike, _, _, _, _, rfl, rfl, uniform⟩
  | some child =>
    obtain ⟨childSound, isPrototype⟩ := sound.findChild? found
    obtain ⟨prototype, read⟩ :=
      Prototype.exists_ofTree? childSound.grammatical isPrototype
    obtain ⟨prototype', read', likeness⟩ :=
      Prototype.exists_respell respelling childSound read
    have kept' := redeclares_respell respelling alike.plain sound kept
    have noBuiltin :=
      Tree.isBuiltin_eq_false (Or.inr rfl) kept (Option.bind_eq_some_iff.2 ⟨child, found, read⟩)
    have own' : ((Tree.node .declaration children).respell f).prototype? =
        some prototype' := by
      rw [Tree.prototype?, Tree.findChild?_respell, found, Option.map_some,
        Option.bind_some, read']
    have noBuiltin' : prototype'.isBuiltin state'.scope.catalog = false :=
      alike.catalog ▸ Tree.isBuiltin_eq_false (Or.inr (Tree.kind?_respell ..)) kept' own'
    simp only [enterDeclaration, Tree.findChild?_respell, found, Option.map_some,
      read, read', noBuiltin, noBuiltin']
    exact ⟨alike.declareFunction (likeness.signature alike), _, _, _, _, rfl,
      rfl, uniform⟩

omit respelling in
/-- A node that hands its context on. -/
theorem enters_uniform {kind : NodeKind} {children : List Tree} {state state' : State}
    (alike : state.scope.Alike state'.scope) {context context' : Bool}
    (hands : ∀ child ∈ children, handsTo kind child)
    (wider : context' = true → context = true ∨ Quiet f (.node kind children)) :
    EntersAlike f children (.descend context (.uniform context), state)
      (.descend context' (.uniform context'), state') := by
  refine ⟨alike, _, _, _, _, rfl, rfl, .uniform fun inside => ?_⟩
  exact (wider inside).imp_right fun quiet tree member =>
    quiet.child member (hands tree member)

theorem alike_declareVariable {scope scope' : Scope} (alike : scope.Alike scope')
    {tree : Tree} (sound : tree.IsSound) (type : Option Ty) (typeIsArray : Bool) :
    (declareVariable scope tree type typeIsArray).Alike
      (declareVariable scope' (tree.respell f) type typeIsArray) := by
  unfold declareVariable
  rw [respelling.identifier?_respell, Tree.isArray_respell]
  cases type with
  | none => exact alike
  | some ty =>
    cases name : tree.identifier? with
    | none => exact alike
    | some token => exact alike.declare (sound.isWord_identifier? name)

theorem leave_alike {kind : NodeKind} {children : List Tree} {role role' : Role}
    {state state' : State} (alike : state.scope.Alike state'.scope)
    (sound : (Tree.node kind children).IsSound)
    (roles : Role.Alike f (.node kind children) role role') :
    (leave state role kind (.node kind children)).scope.Alike
      (leave state' role' kind ((Tree.node kind children).respell f)).scope := by
  cases roles with
  | argument expectsFloat => exact alike
  | body => exact alike
  | declarator type typeIsArray =>
    exact alike_declareVariable respelling alike sound type typeIsArray
  | part wider =>
    cases kind with
    | functionDefinition => exact alike.pop
    | compoundStatement => exact alike.pop
    | forStatement => exact alike.pop
    | structSpecifier =>
      have type := structType_respell respelling (funext alike.type?_eq)
        (.node .structSpecifier children) sound.grammatical state.findings state'.findings
      simp only [leave, leavePart, type]
      refine alike.declareStruct ?_
      simp only [structType, Ty.structOf, Ty.name]
      cases name : (Tree.node .structSpecifier children).identifier? with
      | none => exact Or.inl rfl
      | some token => exact Or.inr (sound.isWord_identifier? name)
    | interfaceBlock => exact alike_declareBlock respelling alike sound _ _
    | _ => exact alike

end Steps

section Walks

variable {catalog : Catalog} {root : Tree} {f : Token → Token}
    (h : Rewriting catalog root f)
include h

/-- Both walks enter an ordinary part alike. -/
theorem Rewriting.enterPart_alike {kind : NodeKind} {children : List Tree}
    {state state' : State} {context context' : Bool}
    (reached : (Visit.ofTree catalog root).Reaches ⟨.part context, .node kind children, state⟩)
    (alike : state.scope.Alike state'.scope)
    (settles : kind = .assignmentExpression → Settles f (.node kind children))
    (wider : context' = true → context = true ∨ Quiet f (.node kind children)) :
    EntersAlike f children (enterPart state kind (.node kind children) (takeOver kind context))
      (enterPart state' kind ((Tree.node kind children).respell f) (takeOver kind context')) := by
  have sound : (Tree.node kind children).IsSound := h.sound_of_reaches reached
  have kept : (Tree.node kind children).redeclares state.scope.catalog = false :=
    h.kept _ reached
  have respelling := h.respelling
  cases kind with
  | assignmentExpression =>
    exact enterAssignment_alike respelling alike sound.grammatical (settles rfl) wider false
  | functionDefinition => exact enterDefinition_alike respelling alike sound kept _ _
  | declaration => exact enterDeclaration_alike respelling alike sound kept _ _
  | initDeclaratorList => exact ⟨alike, _, _, _, _, rfl, rfl, .declarators none false⟩
  | structSpecifier => exact ⟨alike, _, _, _, _, rfl, rfl, .uniform (by simp)⟩
  | interfaceBlock => exact ⟨alike, _, _, _, _, rfl, rfl, .uniform (by simp)⟩
  | arraySpecifier => exact ⟨alike, _, _, _, _, rfl, rfl, .uniform (by simp [takeOver])⟩
  | layoutQualifier => exact ⟨alike, _, _, _, _, rfl, rfl, .uniform (by simp [takeOver])⟩
  | functionCall =>
    have flags := Inference.callFlags_alike respelling alike sound
      (fun token member => h.promoted token (h.leaves_subset reached member))
      (h.callFlags_expected reached)
    refine ⟨alike, _, _, _, _, rfl, rfl, ?_⟩
    simp only [flags]
    exact .call _
  | indexExpression =>
    refine ⟨alike, _, _, _, _, rfl, rfl, .index fun inside => ?_⟩
    exact (wider inside).imp_right fun quiet tree member hands => quiet.child member hands
  | compoundStatement => exact enters_uniform alike.push (fun _ _ => rfl) wider
  | forStatement => exact enters_uniform alike.push (fun _ _ => rfl) wider
  | _ => exact enters_uniform alike (fun _ _ => rfl) wider

omit h in
theorem scope_visit_leaf (role : Role) (token : Token) (state : State) :
    (visit role (.leaf token) state).scope = state.scope := by
  simp only [visit]
  split
  · unfold promote
    split <;> rfl
  · rfl

/-- Both walks enter a node alike. -/
theorem Rewriting.enter_alike {kind : NodeKind} {children : List Tree} {role role' : Role}
    {state state' : State}
    (reached : (Visit.ofTree catalog root).Reaches ⟨role, .node kind children, state⟩)
    (alike : state.scope.Alike state'.scope)
    (settles : kind = .assignmentExpression → Settles f (.node kind children))
    (roles : Role.Alike f (.node kind children) role role') :
    EntersAlike f children (enter state role kind (.node kind children))
      (enter state' role' kind ((Tree.node kind children).respell f)) := by
  have fits := (reached.within h.wellFormed).1.fits
  cases roles with
  | part wider => exact h.enterPart_alike reached alike settles wider
  | argument expectsFloat =>
    obtain rfl : kind = .assignmentExpression := by
      simpa [Role.Fits, Tree.hasKind, Tree.kind?] using fits
    exact enterAssignment_alike h.respelling alike (h.sound_of_reaches reached).grammatical
      (settles rfl) (by simp) expectsFloat
  | declarator type typeIsArray =>
    exact ⟨alike, _, _, _, _, rfl, rfl, .uniform fun inside => Or.inl inside⟩
  | body => exact ⟨alike, _, _, _, _, rfl, rfl, .uniform (by simp)⟩

/-- A literal that is promoted, if it can be, is not promoted again. -/
theorem Rewriting.promoted?_respell {token : Token} (member : token ∈ root.leaves)
    (quiet : (promoted? token).isSome → f token ≠ token) :
    promoted? (f token) = none := by
  rcases h.promoted token member with same | becomes
  · rw [same]
    exact Option.not_isSome_iff_eq_none.1 fun isSome => quiet isSome same
  · simp [promoted?, becomes.kind]

theorem Rewriting.spelled_token {role role' : Role} {token : Token} {state : State}
    (reached : (Visit.ofTree catalog root).Reaches ⟨role, .leaf token, state⟩)
    (roles : Role.Alike f (.leaf token) role role') :
    spelled (tokenWrites role' (f token)) = [] := by
  have member : token ∈ root.leaves := h.leaves_subset reached (by simp)
  cases roles with
  | @part context context' wider =>
    cases context' with
    | false => rfl
    | true =>
      have quiet : (promoted? token).isSome → f token ≠ token := by
        intro isSome
        rcases wider rfl with rfl | quiet
        · obtain ⟨text, promoted⟩ := Option.isSome_iff_exists.1 isSome
          refine (h.spelled_iff _ reached token (by simp)).1 ?_
          simp [Visit.writes, tokenWrites, promoted, spelled]
        · exact quiet token (.leaf token) isSome
      simp [tokenWrites, h.promoted?_respell member quiet, spelled]
  | _ => rfl

theorem Rewriting.entryWrites_respell {role : Role} {tree : Tree} {state state' : State}
    (reached : (Visit.ofTree catalog root).Reaches ⟨role, tree, state⟩)
    (alike : state.scope.Alike state'.scope) (role' : Role) :
    entryWrites role' (tree.respell f) state' = [] := by
  have kept := redeclares_respell h.respelling alike.plain (h.sound_of_reaches reached)
    (h.kept _ reached)
  rw [← alike.catalog] at kept
  cases role' <;> simp [entryWrites, kept]

mutual

/-- The second walk promotes nothing, and the scopes stay alike. -/
theorem Rewriting.visit_alike
    (settles : ∀ v, (Visit.ofTree catalog root).Reaches v →
      v.tree.hasKind .assignmentExpression → Settles f v.tree) :
    ∀ (tree : Tree) (role role' : Role) (state state' : State),
      (Visit.ofTree catalog root).Reaches ⟨role, tree, state⟩ →
      Role.Alike f tree role role' →
      state.scope.Alike state'.scope →
        spelled (writes role' (tree.respell f) state') = [] ∧
          (visit role tree state).scope.Alike (visit role' (tree.respell f) state').scope
  | .leaf token, role, role', state, state', reached, roles, alike => by
    rw [Tree.respell_leaf, writes_leaf, scope_visit_leaf, scope_visit_leaf]
    exact ⟨h.spelled_token reached roles, alike⟩
  | .node kind children, role, role', state, state', reached, roles, alike => by
    have entries := h.enter_alike reached alike
      (fun isKind => settles _ reached (by simp [Tree.hasKind, Tree.kind?, isKind])) roles
    have silent := h.entryWrites_respell reached alike role'
    have leaves := fun {state state' : State} (alike : state.scope.Alike state'.scope) =>
      leave_alike h.respelling alike (h.sound_of_reaches reached) roles
    rw [Tree.respell_node] at entries silent leaves ⊢
    rcases entered : enter state role kind (.node kind children) with ⟨entry, inner⟩
    rcases entered' : enter state' role' kind (.node kind (children.map (Tree.respell f)))
      with ⟨entry', inner'⟩
    rw [entered, entered'] at entries
    obtain ⟨within, context, context', siblings, siblings', rfl, rfl, likeness⟩ := entries
    obtain ⟨nothing, below⟩ :=
      Rewriting.visitAll_alike settles children siblings siblings' inner inner'
        (fun v listed => reached.tail (.child entered listed)) likeness within
    simp only [writes_node, visit, silent, entered, entered', List.nil_append,
      spelled_append, nothing, spelled, true_and]
    exact leaves below

theorem Rewriting.visitAll_alike
    (settles : ∀ v, (Visit.ofTree catalog root).Reaches v →
      v.tree.hasKind .assignmentExpression → Settles f v.tree) :
    ∀ (trees : List Tree) (siblings siblings' : Siblings) (state state' : State),
      (∀ v ∈ siblingVisits siblings trees state, (Visit.ofTree catalog root).Reaches v) →
      Siblings.Alike f trees siblings siblings' → state.scope.Alike state'.scope →
        spelled (writesAll siblings' (trees.map (Tree.respell f)) state') = [] ∧
          (visitAll siblings trees state).scope.Alike
            (visitAll siblings' (trees.map (Tree.respell f)) state').scope
  | [], siblings, siblings', state, state', _, _, alike => by
    rw [List.map_nil, writesAll_nil]
    exact ⟨rfl, alike⟩
  | tree :: trees, siblings, siblings', state, state', reached, likeness, alike => by
    rw [siblingVisits] at reached
    have here := reached _ List.mem_cons_self
    obtain ⟨nothing, alike⟩ := Rewriting.visit_alike settles tree (siblings.role tree)
      (siblings'.role (tree.respell f)) state state' here likeness.role alike
    obtain ⟨likeness, alike⟩ :=
      likeness.after h.respelling (h.sound_of_reaches here) alike
    obtain ⟨nothingBehind, alike⟩ := Rewriting.visitAll_alike settles trees _ _ _ _
      (fun v listed => reached v (List.mem_cons_of_mem _ listed)) likeness alike
    rw [List.map_cons, writesAll_cons, visitAll, visitAll, spelled_append, nothing]
    exact ⟨nothingBehind, alike⟩

end

end Walks

end Plan

end ShaderDialect
