import ShaderDialect.Proofs.WrittenNames

/-!
# Parameters in the frame of a function

When the walk comes to the body of a function, the innermost frame holds one
variable for each parameter that gives a name. The name is the first identifier
of the parameter, which is a contextual qualifier where there is one, and else
the name behind the type.
-/

namespace ShaderDialect

/-! ### Parameters as they are read -/

namespace Tree

/-- The variable that a parameter is under a name. -/
def parameterAs (scope : Scope) (param : Tree) (name : String) : Variable where
  name
  ty := (param.namedType? scope).getD Ty.float
  isArray := (param.findChild? .typeSpecifier).any isArray ||
    param.behindType.any (·.hasKind .arraySpecifier)

/-- The parameters of a prototype. -/
def parameters (prototype : Tree) : List Tree :=
  prototype.children.filter (·.hasKind .parameterDeclaration)

/-- The frame of parameters that go by their first identifier, the last one
first. -/
def firstNameFrame (scope : Scope) (params : List Tree) : Frame :=
  (params.flatMap fun param => (param.qualifierNames ++ param.writtenNames).head?.toList.map
    (param.parameterAs scope)).reverse

/-- The frame of parameters that go by the names behind their types. -/
def writtenNameFrame (scope : Scope) (params : List Tree) : Frame :=
  (params.flatMap fun param => param.writtenNames.map (param.parameterAs scope)).reverse

/-- A grammatical parameter is cut at its type, and has one name or none. -/
theorem exists_cut_of_parameter {param : Tree} (h : param.Grammatical)
    (isParameter : param.hasKind .parameterDeclaration) :
    ∃ specifier, param.CutAtType specifier ∧ param.writtenNames.length ≤ 1 := by
  obtain ⟨children, rfl⟩ := exists_children_of_hasKind isParameter
  cases h with
  | node form below =>
    obtain ⟨before, _, rfl, qualifiers, _, _, rfl, ⟨kind, parts, rfl, listed⟩,
      name, _, rfl,
        named, rfl⟩ :=
      form
    obtain rfl := List.mem_singleton.1 listed
    rw [List.append_nil, List.singleton_append]
    obtain ⟨cut, behind⟩ :=
      @cutAtType .parameterDeclaration before name (.node .typeSpecifier parts)
        qualifiers rfl
    refine ⟨_, cut, ?_⟩
    rw [writtenNames, behind]
    rcases named with ⟨_, _, rfl, ⟨token, rfl, -⟩, dimensions, _, rfl, arrays, rfl⟩ | rfl
    · rw [List.append_nil, namesAmong_append, namesAmong_arraySpecifiers arrays,
        List.append_nil]
      rw [namesAmong, List.length_map]
      exact List.length_filter_le _ [token]
    · exact Nat.zero_le _

theorem exists_cut_of_mem_parameters {prototype param : Tree}
    (h : prototype.Grammatical) (isPrototype : prototype.hasKind .functionPrototype)
    (member : param ∈ prototype.parameters) :
    ∃ specifier, param.CutAtType specifier ∧ param.writtenNames.length ≤ 1 := by
  obtain ⟨children, rfl⟩ := exists_children_of_hasKind isPrototype
  obtain ⟨hangs, isParameter⟩ := List.mem_filter.1 member
  exact exists_cut_of_parameter (h.child param hangs) isParameter

/-- A definition is a prototype and a block. -/
theorem exists_prototype_block {tree : Tree} (h : tree.Grammatical)
    (isDefinition : tree.hasKind .functionDefinition) :
    ∃ prototype block, tree = .node .functionDefinition [prototype, block] ∧
      prototype.hasKind .functionPrototype ∧ block.hasKind .compoundStatement := by
  obtain ⟨children, rfl⟩ := exists_children_of_hasKind isDefinition
  cases h with
  | node form below =>
    obtain ⟨_, _, rfl, ⟨kind, parts, rfl, listed⟩, _, _, rfl,
      ⟨kind', parts', rfl, listed'⟩, rfl⟩ := form
    obtain rfl := List.mem_singleton.1 listed
    obtain rfl := List.mem_singleton.1 listed'
    exact ⟨_, _, rfl, rfl, rfl⟩

end Tree

theorem length_flatMap_le {α β : Type} {f g : α → List β} {items : List α}
    (shorter : ∀ item ∈ items, (g item).length ≤ (f item).length) :
    (items.flatMap g).length ≤ (items.flatMap f).length := by
  induction items with
  | nil => exact Nat.le_refl _
  | cons item items ih =>
    obtain ⟨here, behind⟩ := List.forall_mem_cons.1 shorter
    rw [List.flatMap_cons, List.flatMap_cons, List.length_append, List.length_append]
    exact Nat.add_le_add here (ih behind)

/-- Two lists that are put together from parts agree when the parts do, if those
of one are never shorter. -/
theorem flatMap_eq_flatMap_iff {α β : Type} {f g : α → List β} {items : List α}
    (shorter : ∀ item ∈ items, (g item).length ≤ (f item).length) :
    items.flatMap f = items.flatMap g ↔ ∀ item ∈ items, f item = g item := by
  induction items with
  | nil => simp
  | cons item items ih =>
    obtain ⟨here, behind⟩ := List.forall_mem_cons.1 shorter
    have total := length_flatMap_le behind
    rw [List.flatMap_cons, List.flatMap_cons, List.forall_mem_cons, ← ih behind]
    constructor
    · intro same
      have lengths := congrArg List.length same
      rw [List.length_append, List.length_append] at lengths
      exact List.append_inj same (by omega)
    · rintro ⟨first, others⟩
      rw [first, others]

/-- The first identifiers are the names behind the types where no contextual
qualifier comes before. -/
theorem Tree.firstNameFrame_eq_iff {scope : Scope} {params : List Tree}
    (single : ∀ param ∈ params, param.writtenNames.length ≤ 1) :
    firstNameFrame scope params = writtenNameFrame scope params ↔
      ∀ param ∈ params, param.qualifierNames = [] ∨
        param.qualifierNames.head? = param.writtenNames.head? := by
  have atMostOne : ∀ param ∈ params, param.writtenNames = [] ∨ ∃ name,
      param.writtenNames = [name] := by
    intro param member
    have few := single param member
    match param.writtenNames, few with
    | [], _ => exact Or.inl rfl
    | [name], _ => exact Or.inr ⟨name, rfl⟩
  rw [firstNameFrame, writtenNameFrame, List.reverse_inj, flatMap_eq_flatMap_iff]
  · refine forall₂_congr fun param member => ?_
    cases qualifiers : param.qualifierNames with
    | nil => rcases atMostOne param member with none | ⟨name, one⟩ <;> simp [*]
    | cons first others =>
      rcases atMostOne param member with none | ⟨name, one⟩
      · simp [none]
      · simp [one, parameterAs]
  · intro param member
    rcases atMostOne param member with none | ⟨name, one⟩
    · simp [none]
    · cases qualifiers : param.qualifierNames <;> simp [one]

/-- The variables that a parameter declares, in the scope where its function is
entered. -/
def Parameter.variables (param : Parameter) (scope : Scope) : List Variable :=
  param.name.toList.map fun name =>
    { name, ty := param.ty scope, isArray := param.isArray }

theorem Parameter.variables_of_ofTree? {tree : Tree} {param : Parameter}
    (read : ofTree? tree = some param) {specifier : Tree}
    (cut : tree.CutAtType specifier) (scope : Scope) :
    param.variables scope =
      (tree.qualifierNames ++ tree.writtenNames).head?.toList.map (tree.parameterAs scope) := by
  have found := cut.findChild?
  unfold ofTree? at read
  simp only [found, Option.bind_eq_bind, Option.bind_some] at read
  obtain ⟨first, -, same⟩ := Option.bind_eq_some_iff.1 read
  cases same
  rw [← cut.ownNames_eq, Tree.head?_ownNames]
  refine List.map_congr_left fun name _ => ?_
  simp only [Tree.parameterAs, Tree.namedType?, Parameter.ty, found, Option.bind_some,
    Option.any_some, cut.isArray_eq]

theorem Parameter.variables_declare (param : Parameter) (scope : Scope)
    (declared : Variable) :
    param.variables (scope.declare declared) = param.variables scope := by
  simp only [Parameter.variables, Parameter.ty, Scope.type?_declare]

theorem fst_declareParameters (params : List Parameter) (scope : Scope)
    (findings : Findings) :
    (declareParameters scope findings params).1 =
      (params.flatMap (·.variables scope)).foldl Scope.declare scope := by
  induction params generalizing scope findings with
  | nil => rfl
  | cons param params ih =>
    rw [declareParameters, ih, List.flatMap_cons, List.foldl_append]
    cases written : param.name with
    | none => simp [Parameter.variables, written]
    | some name =>
      simp only [Parameter.variables_declare]
      simp [Parameter.variables, written]

theorem flatMap_of_mapM {trees : List Tree} {params : List Parameter}
    (read : trees.mapM Parameter.ofTree? = some params) {f : Tree → List Variable}
    {g : Parameter → List Variable}
    (same : ∀ tree ∈ trees, ∀ param, Parameter.ofTree? tree = some param →
      g param = f tree) :
    params.flatMap g = trees.flatMap f := by
  induction trees generalizing params with
  | nil =>
    cases read
    rfl
  | cons tree trees ih =>
    obtain ⟨here, behind⟩ := List.forall_mem_cons.1 same
    simp only [List.mapM_cons, Option.bind_eq_bind, Option.bind_eq_some_iff] at read
    obtain ⟨param, first, others, rest, done⟩ := read
    cases done
    rw [List.flatMap_cons, List.flatMap_cons, here param first, ih rest behind]

/-! ### The prototype declares no variable -/

/-- The kinds of a prototype and of the nodes below it. -/
def NodeKind.typeKinds : List NodeKind :=
  [.functionPrototype, .fullySpecifiedType, .parameterDeclaration, .layoutQualifier,
   .typeSpecifier, .arraySpecifier, .structSpecifier, .structMember, .expression,
   .assignmentExpression] ++ NodeKind.conditionalKinds

theorem NodeKind.kinds_subset_typeKinds {kind : NodeKind} (listed : kind ∈ typeKinds) :
    kind.form.kinds ⊆ typeKinds := by
  have closed : (typeKinds.all fun kind => kind.form.kinds.all (typeKinds.contains ·)) =
      true := by
    decide +kernel
  intro below member
  simpa using List.all_eq_true.1 (List.all_eq_true.1 closed kind listed) below member

/-- Types and expressions declare no variables. -/
theorem Tree.outerNames_of_typeKinds {tree : Tree} (h : tree.Grammatical)
    (listed : ∀ kind, tree.kind? = some kind → kind ∈ NodeKind.typeKinds) :
    tree.outerNames = [] := by
  induction h with
  | leaf token => rfl
  | @node kind children form below ih =>
    have own := listed kind rfl
    have plain : declaredBy kind children = [] := by
      cases kind <;> first | rfl | exact absurd own (by decide)
    have none : outerNamesAll children = [] := by
      refine List.eq_nil_iff_forall_not_mem.2 fun name member => ?_
      obtain ⟨child, hangs, exposed⟩ := mem_outerNamesAll.1 member
      rw [ih child hangs] at exposed
      · cases exposed
      · intro kind' isKind
        have mentioned := Form.mentions_of_mem form hangs
        cases child with
        | leaf token => cases isKind
        | node kind'' parts =>
          cases isKind
          exact NodeKind.kinds_subset_typeKinds own mentioned
    rw [outerNames, plain, none]
    split <;> rfl

/-! ### The walk -/

namespace Plan

theorem catalog_of_mem_siblingVisits {siblings : Siblings} {trees : List Tree}
    {state : State} {v : Visit} (listed : v ∈ siblingVisits siblings trees state) :
    v.state.scope.catalog = state.scope.catalog := by
  induction trees generalizing siblings state with
  | nil => cases listed
  | cons tree trees ih =>
    have visited := (logged_visit (siblings.role tree) tree state).catalog
    have moved :=
      (silent_after siblings tree (visit (siblings.role tree) tree state)).catalog
    rw [siblingVisits] at listed
    generalize siblings.after tree (visit (siblings.role tree) tree state) =
      following at listed moved
    rcases List.mem_cons.1 listed with rfl | later
    · rfl
    · exact (ih later).trans (moved.trans visited)

/-- The catalog stays the same along the walk. -/
theorem Visit.Reaches.catalog {root v : Visit} (reached : root.Reaches v) :
    v.state.scope.catalog = root.state.scope.catalog := by
  induction reached with
  | refl => rfl
  | tail _ step ih =>
    rw [← ih]
    cases step with
    | @child role kind children state state' context siblings below entered listed =>
      have same := (logged_enter state role kind children).1.catalog
      rw [entered] at same
      exact (catalog_of_mem_siblingVisits listed).trans same

/-- A prototype leaves the frames as they are. -/
theorem frames_visit_prototype {prototype : Tree} (h : prototype.Grammatical)
    (isPrototype : prototype.hasKind .functionPrototype) (context : Bool)
    (state : State) :
    (visit (.part context) prototype state).scope.frames = state.scope.frames := by
  obtain ⟨new, frames, named⟩ := (extends_visit (.part context) state prototype).frames
  have none : new = [] := by
    refine List.eq_nil_iff_forall_not_mem.2 fun declared member => ?_
    have exposed : declared.name ∈ prototype.outerNames := named declared member
    obtain ⟨children, rfl⟩ := Tree.exists_children_of_hasKind isPrototype
    rw [Tree.outerNames_of_typeKinds h (by rintro kind ⟨⟩; decide)] at exposed
    cases exposed
  rw [frames, none]
  cases state.scope.frames <;> rfl

/-- The frame with which a definition is entered. -/
theorem frames_enterDefinition {state : State} {prototype body : Tree} {context : Bool}
    (grammatical : (Tree.node .functionDefinition [prototype, body]).Grammatical)
    (isPrototype : prototype.hasKind .functionPrototype)
    (kept : (Tree.node .functionDefinition [prototype, body]).redeclares
      state.scope.catalog = false) :
    ∃ state', enterDefinition state (.node .functionDefinition [prototype, body]) context =
        (.descend context .definition, state') ∧
      state'.scope.frames =
        Tree.firstNameFrame state.scope prototype.parameters :: state.scope.frames := by
  have readable := grammatical.child prototype List.mem_cons_self
  obtain ⟨read, isRead⟩ := Prototype.exists_ofTree? readable isPrototype
  have found : (Tree.node .functionDefinition [prototype, body]).findChild? .functionPrototype =
      some prototype := List.find?_cons_of_pos isPrototype
  have noBuiltin :=
    Tree.isBuiltin_eq_false (Or.inl rfl) kept (Option.bind_eq_some_iff.2 ⟨prototype, found, isRead⟩)
  -- The function itself is declared behind its parameters, which leaves the frames alone.
  let declared := declareParameters state.scope.push state.findings read.params
  have entered : enterDefinition state (.node .functionDefinition [prototype, body]) context =
      (.descend context .definition, { state with
        scope := declared.1.declareFunction (read.signature declared.1), findings :=
          declared.2 }) := by
    simp only [enterDefinition, found, Option.bind_some, isRead, noBuiltin]
    rfl
  have params : (read.params.flatMap (·.variables state.scope.push)).reverse =
      Tree.firstNameFrame state.scope prototype.parameters := by
    simp only [Prototype.ofTree?, Option.bind_eq_bind, Option.bind_eq_some_iff] at isRead
    obtain ⟨_, -, _, -, _, -, params, all, same⟩ := isRead
    cases same
    refine congrArg List.reverse (flatMap_of_mapM all fun param member written isParam => ?_)
    obtain ⟨specifier, cut, -⟩ :=
      Tree.exists_cut_of_mem_parameters readable isPrototype member
    exact Parameter.variables_of_ofTree? isParam cut state.scope
  refine ⟨_, entered, ?_⟩
  change declared.1.frames = _
  rw [fst_declareParameters, Scope.frames_foldl_declare, Scope.frames_push,
    List.modifyHead_cons, List.append_nil, params]

/-- The block of a definition is visited behind its prototype. -/
theorem siblingVisits_definition {prototype block : Tree} (state : State)
    (isPrototype : prototype.hasKind .functionPrototype)
    (isBlock : block.hasKind .compoundStatement) :
    siblingVisits .definition [prototype, block] state =
      [⟨.part false, prototype, state⟩, ⟨.body, block, visit (.part false) prototype state⟩] := by
  obtain ⟨_, rfl⟩ := Tree.exists_children_of_hasKind isPrototype
  obtain ⟨_, rfl⟩ := Tree.exists_children_of_hasKind isBlock
  rfl

/-- One visit comes from a definition to its block. -/
theorem step_block_iff {role : Role} {prototype block : Tree} {state entering : State}
    {context : Bool} (isPrototype : prototype.hasKind .functionPrototype)
    (isBlock : block.hasKind .compoundStatement)
    (entered : enter state role .functionDefinition (.node .functionDefinition [prototype, block]) =
      (.descend context .definition, entering)) (w : Visit) :
    Visit.Step ⟨role, .node .functionDefinition [prototype, block], state⟩ w ∧
        w.tree.hasKind .compoundStatement ↔
      w = ⟨.body, block, visit (.part false) prototype entering⟩ := by
  have visits := siblingVisits_definition entering isPrototype isBlock
  constructor
  · rintro ⟨step, isKind⟩
    cases step with
    | child entered' listed =>
      rw [entered] at entered'
      cases entered'
      rw [visits] at listed
      rcases List.mem_cons.1 listed with rfl | later
      · obtain ⟨_, rfl⟩ := Tree.exists_children_of_hasKind isPrototype
        cases isKind
      · exact List.mem_singleton.1 later
  · rintro rfl
    refine ⟨.child entered ?_, isBlock⟩
    rw [visits]
    exact List.mem_cons_of_mem _ List.mem_cons_self

end Plan

namespace SyntaxTree

open Plan

/-- When the walk comes to the body of a function that redeclares no builtin,
the innermost frame holds the parameters, each under its first identifier, with
the type that its specifier names in the scope of the function, and `float` where
that is unknown. The last one of a name is found. These are the names written
behind the types exactly when no parameter has a contextual qualifier before its
type, other than one that is spelled as its name. -/
theorem frame_of_body {source : String} {tree : SyntaxTree}
    (parsed : ofSource source = .ok tree) (catalog : Catalog) {v : Visit}
    (reached : (Visit.ofTree catalog tree.root).Reaches v)
    (isDefinition : v.tree.hasKind .functionDefinition)
    (kept : ¬ v.tree.Redeclares catalog) :
    ∃ prototype body, v.tree.children = [prototype, body.tree] ∧
      (∀ w, v.Step w ∧ w.tree.hasKind .compoundStatement ↔ w = body) ∧
      body.state.scope.frames =
        Tree.firstNameFrame v.state.scope prototype.parameters :: v.state.scope.frames ∧
      (∀ name, body.state.scope.lookup? name =
        ((Tree.firstNameFrame v.state.scope prototype.parameters).find? (·.name = name)).or
          (v.state.scope.lookup? name)) ∧
      (∀ param ∈ prototype.parameters, ∀ name ∈ param.qualifierNames,
        Vocabulary.isContextualQualifier name) ∧
      (Tree.firstNameFrame v.state.scope prototype.parameters =
          Tree.writtenNameFrame v.state.scope prototype.parameters ↔
        ∀ param ∈ prototype.parameters, param.qualifierNames = [] ∨
          param.qualifierNames.head? = param.writtenNames.head?) := by
  have wellFormed :=
    (reached.within ⟨trivial, (ofSource_spec parsed).1, consecutive_leaves parsed⟩).1
  have same : v.state.scope.catalog = catalog := reached.catalog
  obtain ⟨role, tree, state⟩ := v
  obtain ⟨prototype, block, rfl, isPrototype, isBlock⟩ :=
    Tree.exists_prototype_block wellFormed.grammatical isDefinition
  obtain ⟨context, rfl⟩ := exists_part_of_hasKind wellFormed.fits isDefinition (by decide)
  have kept' : (Tree.node .functionDefinition [prototype, block]).redeclares
      state.scope.catalog = false := by
    rw [← Bool.not_eq_true, Tree.redeclares_iff]
    exact same ▸ kept
  obtain ⟨entering, entered, frames⟩ :=
    @frames_enterDefinition state prototype block context wellFormed.grammatical isPrototype kept'
  have readable := wellFormed.grammatical.child prototype List.mem_cons_self
  let inside := visit (.part false) prototype entering
  have framed : inside.scope.frames = _ :=
    (frames_visit_prototype readable isPrototype false entering).trans frames
  refine ⟨prototype, ⟨.body, block, inside⟩, rfl,
    step_block_iff isPrototype isBlock entered, framed, ?_, ?_, ?_⟩
  · intro name
    rw [Scope.lookup?, framed, List.findSome?_cons, Scope.lookup?]
    cases (Tree.firstNameFrame state.scope prototype.parameters).find? (·.name = name) <;> rfl
  · intro param member name qualifies
    obtain ⟨specifier, cut, -⟩ :=
      Tree.exists_cut_of_mem_parameters readable isPrototype member
    exact cut.isContextualQualifier qualifies
  · refine Tree.firstNameFrame_eq_iff fun param member => ?_
    obtain ⟨specifier, -, single⟩ :=
      Tree.exists_cut_of_mem_parameters readable isPrototype member
    exact single

theorem frame_of_body_precise : ∃ tree v body,
    ofSource "float f(precise float x, float y[2]) { return y[0] + x; }" = .ok tree ∧
      (Visit.ofTree Catalog.bundled tree.root).Reaches v ∧ v.Step body ∧
      body.state.scope.frames.head?.map (·.map Variable.name) =
        some ["y", "precise"] := by
  have read : (ofSource
      "float f(precise float x, float y[2]) { return y[0] + x; }").toOption.map (fun tree =>
      tree.root.children.map fun node =>
        (node.hasKind .functionDefinition, node.redeclares Catalog.bundled,
          node.children.head?.map fun part =>
            (Tree.firstNameFrame (Scope.initial Catalog.bundled) part.parameters).map
              Variable.name)) =
      some [(true, false, some ["y", "precise"])] := by
    decide +kernel
  obtain ⟨tree, parsed, facts⟩ := exists_of_map_toOption read
  obtain ⟨definition, nodes, facts⟩ := List.map_eq_singleton_iff.1 facts
  obtain ⟨isDefinition, facts⟩ := Prod.mk.inj facts
  obtain ⟨kept, names⟩ := Prod.mk.inj facts
  have reached := reaches_first parsed Catalog.bundled nodes
  obtain ⟨prototype, body, parts, only, frames, -⟩ :=
    frame_of_body parsed Catalog.bundled reached
      isDefinition (by rw [← Tree.redeclares_iff, kept]; exact Bool.false_ne_true)
  obtain parts : definition.children = [prototype, body.tree] := parts
  refine ⟨tree, _, body, parsed, reached, ((only body).2 rfl).1, ?_⟩
  rw [parts] at names
  rw [frames]
  exact names

end SyntaxTree

/-- So a parameter behind a contextual qualifier is not found by its name. -/
theorem convert_precise_parameter :
    (convert Catalog.bundled "float f(precise float x) { return x + 1; }").toOption.map
      (fun conversion => (conversion.text, conversion.diagnostics.map Diagnostic.message)) =
      some ("float f(precise float x) { return x + 1; }",
        [(Problem.unresolvedIdentifier "x").message]) := by
  decide +kernel

end ShaderDialect
