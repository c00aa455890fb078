import ShaderDialect.Proofs.IntegerPositions
import ShaderDialect.Proofs.Stamps

/-!
# Where float contexts reach

A declarator behind `float` and an assignment to a floating target set a float
context. From there it reaches every node below that is not cut off by a call,
an index or an array dimension, and the decimal literals of all these nodes are
promoted.
-/

namespace ShaderDialect

/-- Whether a list of declarators stands behind the type `float`. -/
def Tree.declaresFloat (tree : Tree) : Bool :=
  tree.hasKind .initDeclaratorList &&
    (((tree.findChild? .fullySpecifiedType).bind (·.findChild? .typeSpecifier)).bind
      (·.childTokens.head?)).any (·.text = "float")

theorem Tree.Grammatical.of_findChild? {tree child : Tree} {kind : NodeKind}
    (h : tree.Grammatical) (found : tree.findChild? kind = some child) :
    child.Grammatical ∧ child.hasKind kind := by
  have member : child ∈ tree.children := List.mem_of_find?_eq_some found
  have isKind := List.find?_some found
  refine ⟨?_, isKind⟩
  cases tree with
  | leaf token => cases member
  | node kind children => exact h.child child member

namespace Plan

/-- The kinds of nodes that a float context is handed to. -/
def handedKinds : List NodeKind :=
  .initializer :: .arraySpecifier :: .expression :: .assignmentExpression ::
    NodeKind.conditionalKinds

theorem kinds_subset_handedKinds : ∀ kind ∈ .declarator :: handedKinds,
    kind ≠ .functionCall → kind ≠ .arraySpecifier → kind.form.kinds ⊆ handedKinds := by
  decide +kernel

/-- Whether a context can be handed to siblings as it is. -/
def Siblings.handsOn : Siblings → Bool
  | .uniform context => context
  | .index context => context
  | _ => false

theorem Siblings.handsOn_after (siblings : Siblings) (tree : Tree) (state : State) :
    (siblings.after tree state).1.handsOn = siblings.handsOn := by
  cases siblings with
  | declarators type typeIsArray =>
    simp only [after]
    split
    · split <;> rfl
    · rfl
  | _ => rfl

theorem Siblings.handsOn_of_role {siblings : Siblings} {tree : Tree}
    (h : siblings.role tree = .part true) : siblings.handsOn := by
  unfold role at h
  split at h
  · cases h
    rfl
  · split at h <;> cases h
  · simp only [Role.part.injEq, Bool.and_eq_true] at h
    exact h.1.1
  · split at h <;> cases h
  · split at h <;> cases h

theorem handsOn_of_mem {siblings : Siblings} {trees : List Tree} {state : State}
    {v : Visit} (listed : v ∈ siblingVisits siblings trees state)
    (role : v.role = .part true) :
    siblings.handsOn := by
  induction trees generalizing siblings state with
  | nil => simp [siblingVisits] at listed
  | cons tree trees ih =>
    have kept := siblings.handsOn_after tree (visit (siblings.role tree) tree state)
    rw [siblingVisits] at listed
    generalize siblings.after tree (visit (siblings.role tree) tree state) = following
      at listed kept
    rcases List.mem_cons.1 listed with rfl | later
    · exact Siblings.handsOn_of_role role
    · rw [← kept]
      exact ih later

/-! ### Entering a node -/

def Entry.handsOn : Entry → Bool
  | .skip _ => false
  | .descend _ siblings => siblings.handsOn

theorem enterDefinition_context (state : State) (tree : Tree) (context : Bool) :
    (enterDefinition state tree context).1.context = context ∧
      (enterDefinition state tree context).1.handsOn = false := by
  unfold enterDefinition
  split
  · exact ⟨rfl, rfl⟩
  · split <;> exact ⟨rfl, rfl⟩

theorem enterDeclaration_context (state : State) (tree : Tree) (context : Bool) :
    (enterDeclaration state tree context).1.context = context ∧
      (enterDeclaration state tree context).1.handsOn = false := by
  unfold enterDeclaration
  split
  · exact ⟨rfl, rfl⟩
  · split
    · exact ⟨rfl, rfl⟩
    · split <;> exact ⟨rfl, rfl⟩

/-- Only an assignment expression sets a context of its own. -/
theorem context_enterPart {kind : NodeKind} (other : kind ≠ .assignmentExpression)
    (state : State) (tree : Tree) (context : Bool) :
    (enterPart state kind tree context).1.context = context := by
  unfold enterPart
  split
  · exact absurd rfl other
  · exact (enterDefinition_context state tree context).1
  · exact (enterDeclaration_context state tree context).1
  all_goals rfl

/-- A node of the kinds that are handed a float context hands it on, but for
calls and indices. -/
theorem enterPart_of_handed {kind : NodeKind} (listed : kind ∈ handedKinds)
    (other : kind ≠ .assignmentExpression) (state : State) (tree : Tree) :
    ∃ siblings, enterPart state kind tree true = (.descend true siblings, state) ∧
      (siblings = .uniform true ∨ kind = .indexExpression ∧ siblings = .index true ∨
        kind = .functionCall ∧ siblings.handsOn = false) := by
  cases kind with
  | assignmentExpression => exact absurd rfl other
  | functionCall => exact ⟨_, rfl, Or.inr (Or.inr ⟨rfl, rfl⟩)⟩
  | indexExpression => exact ⟨_, rfl, Or.inr (Or.inl ⟨rfl, rfl⟩)⟩
  | functionDefinition | declaration | initDeclaratorList | structSpecifier | interfaceBlock
  | compoundStatement | forStatement => exact absurd listed (by decide)
  | _ => exact ⟨_, rfl, Or.inl rfl⟩

/-- What is handed on is the context of the node. -/
theorem context_of_handsOn {state : State} {role : Role} {kind : NodeKind} {tree : Tree}
    (h : (enter state role kind tree).1.handsOn) :
    (enter state role kind tree).1.context := by
  cases role with
  | part context =>
    revert h
    simp only [enter, enterPart]
    split
    · exact id
    · simp [enterDefinition_context]
    · simp [enterDeclaration_context]
    all_goals simp [Entry.handsOn, Siblings.handsOn, Entry.context]
  | argument expectsFloat => exact h
  | declarator type typeIsArray => exact h
  | body => exact h

namespace Visit

/-- A float context comes only to nodes of the kinds that are handed one. -/
def Handed (v : Visit) : Prop :=
  v.role = .part true → ∀ kind children, v.tree = .node kind children → kind ∈ handedKinds

/-- How a node with a float context is entered: all children get the context but
for those of calls and the indices. -/
theorem exists_entry {v : Visit} {kind : NodeKind} {children : List Tree}
    (sound : v.WellFormed) (handed : v.Handed) (shape : v.tree = .node kind children)
    (holds : v.context) :
    ∃ siblings state', enter v.state v.role kind (.node kind children) =
        (.descend true siblings, state') ∧
      (siblings.handsOn → kind.form.kinds ⊆ handedKinds) ∧
      (siblings = .uniform true ∨ kind = .indexExpression ∧ siblings = .index true ∨
        kind = .functionCall ∧ siblings.handsOn = false) := by
  obtain ⟨role, tree, state⟩ := v
  obtain rfl : tree = _ := shape
  have fits := sound.fits
  replace holds : (enter state role kind (.node kind children)).1.context = true := holds
  have assignment : ∀ inherited expectsFloat,
      (enterAssignment state (.node kind children) inherited expectsFloat).1.context = true →
        ∃ state', enterAssignment state (.node kind children) inherited expectsFloat =
          (.descend true (.uniform true), state') := by
    intro inherited expectsFloat holds
    exact ⟨_, Prod.ext (by simp_all [enterAssignment, Entry.context]) rfl⟩
  cases role with
  | part context =>
    by_cases isAssignment : kind = .assignmentExpression
    · subst isAssignment
      obtain ⟨state', entered⟩ := assignment context false holds
      exact ⟨_, state', entered,
        fun _ => kinds_subset_handedKinds _ (by decide) (by decide) (by decide),
        Or.inl rfl⟩
    · have own : takeOver kind context = true :=
        (context_enterPart isAssignment state (.node kind children) _).symm.trans holds
      obtain ⟨rfl, noArray⟩ : context = true ∧ kind ≠ .arraySpecifier := by
        cases kind <;> simp_all [takeOver]
      have listed := handed rfl kind children rfl
      obtain ⟨siblings, entered, handing⟩ :=
        enterPart_of_handed listed isAssignment state (.node kind children)
      refine ⟨siblings, state, ?_, fun hands => ?_, handing⟩
      · rw [enter, own, entered]
      · refine kinds_subset_handedKinds _ (List.mem_cons_of_mem _ listed) ?_ noArray
        rintro rfl
        cases entered
        cases hands
  | argument expectsFloat =>
    obtain rfl : kind = .assignmentExpression := by
      simpa [Role.Fits, Tree.hasKind, Tree.kind?] using fits
    obtain ⟨state', entered⟩ := assignment false expectsFloat holds
    exact ⟨_, state', entered,
      fun _ => kinds_subset_handedKinds _ (by decide) (by decide) (by decide), Or.inl rfl⟩
  | declarator type typeIsArray =>
    obtain rfl : kind = .declarator := by
      simpa [Role.Fits, Tree.hasKind, Tree.kind?] using fits
    replace holds : type.any Ty.isFloat = true := holds
    refine ⟨.uniform true, state, ?_,
      fun _ => kinds_subset_handedKinds _ (by decide) (by decide) (by decide), Or.inl rfl⟩
    simp only [enter, holds]
  | body => cases holds

/-- A step keeps the kinds that a float context comes to. -/
theorem Step.handed {v w : Visit} (step : v.Step w) (sound : v.WellFormed)
    (handed : v.Handed) :
    w.Handed := by
  intro role kind' children' shape'
  cases step with
  | @child role kind children state state' context siblings below entered listed =>
    have hands := handsOn_of_mem listed ‹_›
    have holds : Visit.context ⟨role, .node kind children, state⟩ = true := by
      refine context_of_handsOn ?_
      rw [entered]
      exact hands
    obtain ⟨_, _, entered', inside, -⟩ := exists_entry sound handed rfl holds
    cases entered.symm.trans entered'
    have mentioned : kind.form.Mentions w.tree := by
      cases sound.grammatical with
      | node form below =>
        exact Form.mentions_of_mem form (mem_of_mem_siblingVisits listed)
    rw [shape'] at mentioned
    exact inside hands mentioned

theorem Reaches.handed {v w : Visit} (reached : v.Reaches w) (sound : v.WellFormed)
    (handed : v.Handed) : w.Handed := by
  induction reached with
  | refl => exact handed
  | tail before step ih => exact step.handed (Reaches.within before sound).1 ih

/-- A node hands a float context on to each child, unless it is a call, or the
child is an index or an array dimension. -/
theorem Step.context {v w : Visit} (step : v.Step w) (sound : v.WellFormed)
    (handed : v.Handed) (holds : v.context) {kind : NodeKind}
    (isKind : w.tree.hasKind kind) (noCall : v.tree.hasKind .functionCall = false)
    (noArray : kind ≠ .arraySpecifier)
    (noIndex : v.tree.hasKind .indexExpression → kind ≠ .expression) : w.context := by
  have handed' := step.handed sound handed
  obtain ⟨children', shape'⟩ := Tree.exists_children_of_hasKind isKind
  have role : w.role = .part true := by
    cases step with
    | @child role outer children state state' context siblings below entered listed =>
      obtain ⟨_, _, entered', -, handing⟩ := exists_entry sound handed rfl holds
      cases entered.symm.trans entered'
      rcases handing with rfl | ⟨rfl, rfl⟩ | ⟨rfl, -⟩
      · exact role_of_mem (fun _ _ => rfl) listed
      · rw [role_of_mem (fun _ _ => rfl) listed, shape']
        simp [Siblings.role, Tree.isNode, Tree.hasKind, Tree.kind?, noIndex rfl]
      · cases noCall
  have listed := handed' role kind children' shape'
  obtain ⟨_, tree, state⟩ := w
  obtain rfl : _ = Role.part true := role
  obtain rfl : tree = _ := shape'
  have own : takeOver kind true = true := by
    cases kind with
    | arraySpecifier => exact absurd rfl noArray
    | layoutQualifier => exact absurd listed (by decide)
    | _ => rfl
  change (enterPart state kind _ (takeOver kind true)).1.context = true
  rw [own]
  by_cases isAssignment : kind = .assignmentExpression
  · subst isAssignment
    simp [enterPart, enterAssignment, Entry.context]
  · exact context_enterPart isAssignment state _ true

end Visit

/-- The first token of a type is its name, and array dimensions are all that is
behind it. -/
theorem exists_dimensions {children : List Tree} {word : Token}
    (h : (Tree.node .typeSpecifier children).Grammatical)
    (first : (Tree.node .typeSpecifier children).childTokens.head? = some word) :
    ∃ dimensions, children = .leaf word :: dimensions := by
  cases h with
  | node form below =>
    obtain ⟨_, _, rfl, name, _, _, rfl, ⟨parts, rfl, arrays⟩, rfl⟩ := form
    rcases name with ⟨kind, members, rfl, -⟩ | ⟨token, rfl, -⟩
    · -- A struct has no token of its own here, and neither has a dimension.
      have none : ∀ tree ∈ parts.flatten ++ [], tree.token? = none := by
        simp only [List.append_nil, List.mem_flatten]
        rintro tree ⟨part, listed, member⟩
        obtain ⟨kind, sizes, rfl, -⟩ := arrays part listed
        rw [List.mem_singleton.1 member]
        rfl
      rw [Tree.childTokens, Tree.children, List.singleton_append,
        List.filterMap_cons_none rfl, List.filterMap_eq_nil_iff.2 none] at first
      cases first
    · cases first
      exact ⟨_, rfl⟩

namespace Visit

/-- The declarators behind `float` have a float context. -/
theorem Step.context_declarator {list v : Visit} (step : list.Step v)
    (sound : list.WellFormed) (declares : list.tree.declaresFloat)
    (isDeclarator : v.tree.hasKind .declarator) :
    v.context := by
  obtain ⟨isList, named⟩ := Bool.and_eq_true_iff.1 declares
  rw [Option.any_eq_true] at named
  obtain ⟨word, found, isFloat⟩ := named
  obtain ⟨specifier, found, isWord⟩ := Option.bind_eq_some_iff.1 found
  obtain ⟨type, hasType, hasSpecifier⟩ := Option.bind_eq_some_iff.1 found
  obtain ⟨readable, -⟩ := sound.grammatical.of_findChild? hasType
  obtain ⟨readable, isSpecifier⟩ := readable.of_findChild? hasSpecifier
  obtain ⟨children, rfl⟩ := Tree.exists_children_of_hasKind isSpecifier
  obtain ⟨dimensions, rfl⟩ := exists_dimensions readable isWord
  have known : Ty.builtin? word.text = some Ty.float := by
    rw [of_decide_eq_true isFloat]
    rfl
  obtain ⟨typeIsArray, role⟩ :=
    sound.role_of_word isList hasType hasSpecifier known step isDeclarator
  obtain ⟨children, shape⟩ := Tree.exists_children_of_hasKind isDeclarator
  obtain ⟨_, tree, state⟩ := v
  obtain rfl : _ = Role.declarator (some Ty.float) typeIsArray := role
  obtain rfl : tree = _ := shape
  rfl

/-- An assignment to a floating target has a float context. -/
theorem context_assignment {v : Visit} (sound : v.WellFormed)
    (isAssignment : v.tree.hasKind .assignmentExpression)
    (stores : Plan.isAssignment v.tree) {ty : Ty}
    (target : Inference.typeOfNth v.state.scope 0 v.tree.children = .ok (some ty))
    (isFloat : ty.name ∈ ["float", "vec2", "vec3", "vec4"]) : v.context := by
  obtain ⟨role, tree, state⟩ := v
  obtain ⟨children, rfl⟩ : ∃ children, tree = .node .assignmentExpression children :=
    Tree.exists_children_of_hasKind isAssignment
  have fits := sound.fits
  have sets : ∀ expectsFloat, (setsFloat state (.node .assignmentExpression children)
      expectsFloat).1 = true := by
    intro expectsFloat
    have own : storesFloat state (.node .assignmentExpression children) =
        (true, state) := by
      have floating : ty.isFloatScalarOrVector = true := List.contains_iff_mem.2 isFloat
      rw [storesFloat, if_pos stores, target]
      simp only [Option.any_some, floating]
    cases expectsFloat with
    | true => rfl
    | false => simp only [setsFloat, own, Bool.false_eq_true, if_false]
  cases role with
  | part inherited =>
    simp [context, enter, enterPart, enterAssignment, Entry.context, sets]
  | argument expectsFloat => simp [context, enter, enterAssignment, Entry.context, sets]
  | declarator type typeIsArray => cases fits
  | body => cases fits

end Visit

end Plan

namespace SyntaxTree

open Plan

/-- Whether a node hands its context on to a child: it is no call, and the child
is neither an index nor an array dimension. -/
def HandsOn (tree : SyntaxTree) (parent child : Nat) : Prop :=
  ∃ outer ∈ tree.nodes.get? parent, ∃ inner ∈ tree.nodes.get? child,
    .node child ∈ outer.children ∧ outer.kind ≠ .functionCall ∧
    inner.kind ≠ .arraySpecifier ∧
      ¬ (outer.kind = .indexExpression ∧ inner.kind = .expression)

instance (tree : SyntaxTree) (parent child : Nat) :
    Decidable (tree.HandsOn parent child) :=
  inferInstanceAs (Decidable (∃ outer ∈ tree.nodes.get? parent, ∃ inner ∈ tree.nodes.get? child,
    .node child ∈ outer.children ∧ outer.kind ≠ .functionCall ∧
    inner.kind ≠ .arraySpecifier ∧
      ¬ (outer.kind = .indexExpression ∧ inner.kind = .expression)))

section

variable {source : String} {tree : SyntaxTree} (h : ofSource source = .ok tree)
    (catalog : Catalog)

include h

/-- A node with a float context hands it on. -/
theorem contexts_of_handsOn {parent child : Nat}
    (stamped : (Plan.ofTree catalog tree.root).contexts.get? parent = some true)
    (hands : tree.HandsOn parent child) :
    (Plan.ofTree catalog tree.root).contexts.get? child = some true := by
  obtain ⟨outer, found, inner, found', listed, noCall, noArray, noIndex⟩ := hands
  obtain ⟨v, reached, isNode, rfl, holds⟩ := exists_visit_of_contexts h catalog stamped
  have root := wellFormed_ofTree h catalog
  have sound := (reached.within root).1
  have handed : v.Handed := reached.handed root fun context => by cases context
  cases shape : v.tree with
  | leaf token => simp [shape, Tree.isNode, Tree.kind?] at isNode
  | node kind children =>
    obtain ⟨rfl, -⟩ := record_of_reaches reached shape found
    obtain ⟨siblings, state', entered, -⟩ := Visit.exists_entry sound handed shape holds
    obtain ⟨w, step, rfl, isKind⟩ :=
      exists_step_of_record reached shape entered found listed found'
    have floating := step.context sound handed holds isKind
      (by simpa [shape, Tree.hasKind, Tree.kind?]) noArray (fun isIndex isExpression => noIndex
        ⟨by simpa [shape, Tree.hasKind, Tree.kind?] using isIndex, isExpression⟩)
    rw [contexts_get?_of_reaches h catalog (reached.tail step) isKind, floating]

/-- The context of a node reaches as far as it is handed on. -/
theorem contexts_of_path {top node : Nat}
    (stamped : (Plan.ofTree catalog tree.root).contexts.get? top = some true)
    (path : Relation.ReflTransGen tree.HandsOn top node) :
    (Plan.ofTree catalog tree.root).contexts.get? node = some true := by
  induction path with
  | refl => exact stamped
  | tail _ hands ih => exact contexts_of_handsOn h catalog ih hands

/-- The declarators behind `float` are stamped as floating. -/
theorem contexts_of_declaresFloat {list declarator : Nat} {outer inner : NodeRecord}
    {whole : Tree} (found : tree.nodes.get? list = some outer)
    (shape : tree.root.postorder[list]? = some whole) (declares : whole.declaresFloat)
    (listed : .node declarator ∈ outer.children)
    (found' : tree.nodes.get? declarator = some inner)
    (isDeclarator : inner.kind = .declarator)
    (outside : ¬ ∃ hidden, tree.Redeclares catalog hidden ∧ tree.Below declarator hidden) :
    (Plan.ofTree catalog tree.root).contexts.get? declarator = some true := by
  have outside' : ¬ ∃ hidden, tree.Redeclares catalog hidden ∧
      tree.Below list hidden := by
    rintro ⟨hidden, redeclares, below⟩
    exact outside ⟨hidden, redeclares, .head (parent_of_listed found listed) below⟩
  obtain ⟨v, reached, isNode, rfl⟩ := exists_visit h catalog found outside'
  have sound := (reached.within (wellFormed_ofTree h catalog)).1
  obtain ⟨isList, -⟩ := Bool.and_eq_true_iff.1 declares
  obtain ⟨children, rfl⟩ := Tree.exists_children_of_hasKind isList
  have visited : v.tree = .node .initDeclaratorList children :=
    Option.some.inj ((postorder_of_reaches reached isNode).symm.trans shape)
  have fits := sound.fits
  obtain ⟨context, role⟩ : ∃ context, v.role = .part context := by
    rw [visited] at fits
    cases role : v.role with
    | part context => exact ⟨context, rfl⟩
    | _ => rw [role] at fits; cases fits
  have entered : enter v.state v.role .initDeclaratorList (.node .initDeclaratorList children) =
      (.descend context (.declarators none false), v.state) := by
    rw [role]
    rfl
  obtain ⟨w, step, rfl, isKind⟩ :=
    exists_step_of_record reached visited entered found listed found'
  rw [← visited] at declares
  rw [isDeclarator] at isKind
  rw [contexts_get?_of_reaches h catalog (reached.tail step) isKind,
    step.context_declarator sound declares isKind]

/-- Literals are promoted as far as a float context is handed on. -/
theorem edits_of_path {top node : Nat}
    (stamped : (Plan.ofTree catalog tree.root).contexts.get? top = some true)
    (path : Relation.ReflTransGen tree.HandsOn top node) {record : NodeRecord}
    (found : tree.nodes.get? node = some record) {literal : Token}
    (known : literal ∈ tree.stream.tokens)
    (listed : .token literal.index ∈ record.children) (isDecimal : literal.IsDecimal) :
    (Plan.ofTree catalog tree.root).edits.get? literal.index =
      some (literal.text ++ ".0") := by
  refine (edits_get?_iff h catalog _ _).2 (Or.inr ((promoted_iff h catalog).2 ?_))
  exact ⟨literal, known, rfl, isDecimal, rfl, node, record, found, listed,
    contexts_of_path h catalog stamped path⟩

end

/-- Outside redeclared builtins, the declarators behind `float` and the
assignments to floating targets have a float context. A float context is handed
on to every child, but for the children of calls, indices and array dimensions.
So the decimal literals below, up to these, are promoted. -/
theorem float_contexts {source : String} {tree : SyntaxTree}
    (h : ofSource source = .ok tree) (catalog : Catalog) :
    (∀ list declarator outer inner whole, tree.nodes.get? list = some outer →
      tree.root.postorder[list]? = some whole → whole.declaresFloat →
      .node declarator ∈ outer.children → tree.nodes.get? declarator = some inner →
      inner.kind = .declarator →
      (¬ ∃ hidden, tree.Redeclares catalog hidden ∧ tree.Below declarator hidden) →
      (Plan.ofTree catalog tree.root).contexts.get? declarator = some true) ∧
    (∀ id record, tree.nodes.get? id = some record →
      (¬ ∃ hidden, tree.Redeclares catalog hidden ∧ tree.Below id hidden) →
      ∃ v, (Visit.ofTree catalog tree.root).Reaches v ∧ v.number = id ∧
        tree.root.postorder[id]? = some v.tree) ∧
    (∀ v, (Visit.ofTree catalog tree.root).Reaches v → v.tree.hasKind .assignmentExpression →
      Plan.isAssignment v.tree → ∀ ty,
      Inference.typeOfNth v.state.scope 0 v.tree.children = .ok (some ty) →
      ty.name ∈ ["float", "vec2", "vec3", "vec4"] →
      (Plan.ofTree catalog tree.root).contexts.get? v.number = some true) ∧
    (∀ parent child, (Plan.ofTree catalog tree.root).contexts.get? parent = some true →
      tree.HandsOn parent child →
      (Plan.ofTree catalog tree.root).contexts.get? child = some true) ∧
    ∀ top node record literal,
      (Plan.ofTree catalog tree.root).contexts.get? top = some true →
      Relation.ReflTransGen tree.HandsOn top node → tree.nodes.get? node = some record →
      literal ∈ tree.stream.tokens → .token literal.index ∈ record.children →
      literal.IsDecimal →
      (Plan.ofTree catalog tree.root).edits.get? literal.index =
        some (literal.text ++ ".0") := by
  refine ⟨fun _ _ _ _ _ => contexts_of_declaresFloat h catalog, ?_, ?_,
    fun _ _ => contexts_of_handsOn h catalog,
    fun _ _ _ _ stamped path found => edits_of_path h catalog stamped path found⟩
  · intro id record found outside
    obtain ⟨v, reached, isNode, rfl⟩ := exists_visit h catalog found outside
    exact ⟨v, reached, rfl, postorder_of_reaches reached isNode⟩
  · intro v reached isKind stores ty target isFloat
    have sound := (reached.within (wellFormed_ofTree h catalog)).1
    rw [contexts_get?_of_reaches h catalog reached isKind,
      Visit.context_assignment sound isKind stores target isFloat]

/-- The literal below the sign takes the context of the declarator. -/
theorem float_contexts_sign : ∃ tree, ofSource "float x = -1;" = .ok tree ∧
    (Plan.ofTree Catalog.bundled tree.root).contexts.get? 6 = some true ∧
      (Plan.ofTree Catalog.bundled tree.root).edits.get? 4 = some "1.0" := by
  have read : (ofSource "float x = -1;").toOption.map (fun tree =>
      ([2, 6, 7].map fun id =>
          (tree.nodes.get? id).map fun record => (record.kind, record.children),
        tree.root.postorder[7]?.map Tree.declaresFloat,
        tree.stream.tokens[4]?,
        decide ((tree.HandsOn 6 5 ∧ tree.HandsOn 5 4 ∧ tree.HandsOn 4 3 ∧ tree.HandsOn 3 2) ∧
          ∀ node ∈ tree.root.postorder, node.redeclares Catalog.bundled = false))) =
      some ([some (.primaryExpression, [.token 4]),
          some (.declarator, [.token 1, .token 2, .node 5]),
          some (.initDeclaratorList, [.node 1, .node 6])],
        some true, some ⟨4, .intLiteral, "1"⟩, true) := by
    decide +kernel
  obtain ⟨tree, parsed, shape⟩ := exists_of_map_toOption read
  simp only [List.map_cons, List.map_nil, Prod.mk.injEq, List.cons.injEq,
    Option.map_eq_some_iff, decide_eq_true_eq] at shape
  obtain ⟨⟨⟨literal, found₂, -, listed₂⟩, ⟨inner, found₆, isDeclarator, -⟩,
    ⟨outer, found₇, -, listed₇⟩, -⟩, ⟨whole, found, declares⟩, known,
    ⟨first, second, third, fourth⟩, kept⟩ := shape
  obtain ⟨declarators, -, -, -, literals⟩ := float_contexts parsed Catalog.bundled
  have stamped :=
    declarators 7 6 outer inner whole found₇ found declares (by simp [listed₇]) found₆
      isDeclarator ?_
  · have path : Relation.ReflTransGen tree.HandsOn 6 2 :=
      ((((Relation.ReflTransGen.single first).tail second).tail third).tail fourth)
    refine ⟨tree, parsed, stamped, literals 6 2 literal ⟨4, .intLiteral, "1"⟩ stamped path found₂
      (List.mem_of_getElem? known) (by simp [listed₂]) ?_⟩
    exact ⟨rfl, Or.inr ⟨'1', [], rfl, by decide, by decide⟩⟩
  · rintro ⟨hidden, ⟨node, found, redeclares⟩, -⟩
    have no := kept node (List.mem_of_getElem? found)
    rw [Tree.redeclares_iff.2 redeclares] at no
    cases no

end SyntaxTree

end ShaderDialect
