import ShaderDialect.Proofs.FloatFreeScope
import ShaderDialect.Proofs.Idempotence

/-!
# Shaders without floating types

The walk over a shader that names nothing floating keeps its scope free of
floating types and enters every node in no float context. So the plan is empty
and the shader comes out as it is.
-/

namespace ShaderDialect

/-! ### Declarations -/

theorem floatFree_typeName {scope : Scope} (h : scope.FloatFree) {tree : Tree}
    (free : tree.FloatFree) {ty : Ty}
    (found : tree.typeName?.bind scope.type? = some ty) :
    ty.FloatFree := by
  obtain ⟨name, named, known⟩ := Option.bind_eq_some_iff.1 found
  obtain ⟨token, listed, rfl⟩ := Tree.exists_token_of_typeName? named
  exact h.type? (free token listed).type known

theorem floatFree_fieldsOf {member : Tree} {type : Option Ty}
    (free : ∀ ty, type = some ty → ty.FloatFree) :
    ∀ field ∈ fieldsOf member type, field.2.FloatFree := by
  cases type with
  | none => exact List.forall_mem_nil _
  | some ty => exact List.forall_mem_map.2 fun _ _ => free ty rfl

mutual

theorem floatFree_specifiedType {scope : Scope} (h : scope.FloatFree) :
    ∀ {tree : Tree} {findings : Findings} {ty : Ty}, tree.FloatFree →
      (specifiedType scope tree findings).1 = some ty → ty.FloatFree
  | .leaf _, _, _, _, found => by cases found
  | .node kind children, findings, ty, free, found => by
    rw [specifiedType_fst, Option.or_eq_some_iff] at found
    rcases found with declared | ⟨-, named⟩
    · exact floatFree_structAmong h (fun _ => free.child) declared
    · exact floatFree_typeName h free named

theorem floatFree_structAmong {scope : Scope} (h : scope.FloatFree) :
    ∀ {trees : List Tree} {findings : Findings} {ty : Ty},
      (∀ tree ∈ trees, tree.FloatFree) →
      (structAmong scope trees findings).1 = some ty → ty.FloatFree
  | [], _, _, _, found => by cases found
  | tree :: trees, findings, ty, free, found => by
    obtain ⟨here, behind⟩ := List.forall_mem_cons.1 free
    unfold structAmong at found
    split at found
    · cases found
      exact floatFree_structType h here
    · exact floatFree_structAmong h behind found

theorem floatFree_structType {scope : Scope} (h : scope.FloatFree) :
    ∀ {tree : Tree} {findings : Findings}, tree.FloatFree →
      (structType scope tree findings).1.FloatFree
  | .leaf _, _, _ => by
    unfold structType
    exact .structOf (by decide) (List.forall_mem_nil _)
  | .node kind children, findings, free => by
    unfold structType
    refine .structOf ?_ (floatFree_membersOf h fun _ => free.child)
    cases named : (Tree.node kind children).identifier? with
    | none => decide
    | some token => exact (free token (Tree.mem_leaves_of_identifier? _ named)).type

theorem floatFree_membersOf {scope : Scope} (h : scope.FloatFree) :
    ∀ {trees : List Tree} {findings : Findings}, (∀ tree ∈ trees, tree.FloatFree) →
      ∀ field ∈ (membersOf scope trees findings).1, field.2.FloatFree
  | [], _, _ => List.forall_mem_nil _
  | tree :: trees, findings, free => by
    obtain ⟨here, behind⟩ := List.forall_mem_cons.1 free
    unfold membersOf
    split_ifs
    · exact List.forall_mem_append.2 ⟨floatFree_memberOf h here,
        floatFree_membersOf h behind⟩
    · exact floatFree_membersOf h behind

theorem floatFree_memberOf {scope : Scope} (h : scope.FloatFree) :
    ∀ {tree : Tree} {findings : Findings}, tree.FloatFree →
      ∀ field ∈ (memberOf scope tree findings).1, field.2.FloatFree
  | .leaf _, _, _ => List.forall_mem_nil _
  | .node kind children, findings, free => by
    unfold memberOf
    exact floatFree_fieldsOf fun ty => floatFree_specifierAmong h fun _ => free.child

theorem floatFree_specifierAmong {scope : Scope} (h : scope.FloatFree) :
    ∀ {trees : List Tree} {findings : Findings} {ty : Ty},
      (∀ tree ∈ trees, tree.FloatFree) →
      (specifierAmong scope trees findings).1 = some ty → ty.FloatFree
  | [], _, _, _, found => by cases found
  | tree :: trees, findings, ty, free, found => by
    obtain ⟨here, behind⟩ := List.forall_mem_cons.1 free
    unfold specifierAmong at found
    split at found
    · exact floatFree_specifiedType h here found
    · exact floatFree_specifierAmong h behind found

end

/-- A prototype that names nothing floating. -/
structure Prototype.FloatFree (prototype : Prototype) : Prop where
  name : Catalog.bundled.overloads prototype.name = []
  result : prototype.result ∉ floatNames
  params : ∀ param ∈ prototype.params, ∀ name, param.typeName = some name →
    name ∉ floatNames

theorem Tree.FloatFree.findChild? {tree child : Tree} {kind : NodeKind}
    (h : tree.FloatFree)
    (found : tree.findChild? kind = some child) : child.FloatFree :=
  fun token listed => h token (leaves_subset_of_findChild? found listed)

theorem Prototype.FloatFree.isBuiltin_eq_false {prototype : Prototype}
    (h : prototype.FloatFree) :
    prototype.isBuiltin Catalog.bundled = false := by
  rw [isBuiltin, h.name]
  rfl

theorem Prototype.floatFree_ofTree? {tree : Tree} (sound : tree.IsSound)
    (free : tree.FloatFree) {prototype : Prototype}
    (read : ofTree? tree = some prototype) :
    prototype.FloatFree := by
  simp only [ofTree?, Option.bind_eq_bind, Option.bind_eq_some_iff] at read
  obtain ⟨name, named, type, typed, specifier, found, params, listed, read⟩ := read
  cases read
  obtain ⟨typeSound, -⟩ := sound.findChild? typed
  obtain ⟨specified, isType⟩ := typeSound.findChild? found
  have typeFree := (free.findChild? typed).findChild? found
  refine ⟨?_, ?_, ?_⟩
  · refine (free name (Tree.mem_leaves_of_identifier? _ named)).function ?_
    simpa using List.find?_some named
  · obtain ⟨children, rfl⟩ := Tree.exists_children_of_hasKind isType
    rcases type_single_or_compound specified.grammatical with ⟨token, rfl, -⟩ | compound
    · have text : (Tree.node .typeSpecifier [.leaf token]).text = token.text := by
        simp [Tree.text]
      rw [text]
      exact (typeFree token (by simp)).type
    · have words : ∀ name ∈ floatNames, IsWord name := by decide
      rw [← Tree.leaves_node .typeSpecifier] at compound
      exact fun listed => compound.not_isWord (words _ listed)
  · intro param member written typeName
    obtain ⟨child, isParameter, read⟩ := exists_mem_of_mapM listed member
    simp only [Parameter.ofTree?, Option.bind_eq_bind, Option.bind_eq_some_iff] at read
    obtain ⟨specifier, found, first, -, read⟩ := read
    cases read
    obtain ⟨token, listed, rfl⟩ := Tree.exists_token_of_typeName? typeName
    refine (free token ?_).type
    have inside := Tree.leaves_subset_of_findChild? found listed
    cases tree with
    | leaf token => cases isParameter
    | node kind children =>
      exact Tree.leaves_subset (List.mem_filter.1 isParameter).1 inside

/-- The types of the parameters can all be told. -/
def Prototype.Known (prototype : Prototype) (scope : Scope) : Prop :=
  ∀ param ∈ prototype.params, (param.typeName.bind scope.type?).isSome

theorem floatFree_ty {scope : Scope} (h : scope.FloatFree) {param : Parameter}
    (other : ∀ name, param.typeName = some name → name ∉ floatNames)
    (known : (param.typeName.bind scope.type?).isSome) : (param.ty scope).FloatFree := by
  obtain ⟨ty, found⟩ := Option.isSome_iff_exists.1 known
  obtain ⟨name, named, type⟩ := Option.bind_eq_some_iff.1 found
  rw [Parameter.ty, found]
  exact h.type? (other name named) type

theorem floatFree_signature {scope : Scope} (h : scope.FloatFree) {prototype : Prototype}
    (free : prototype.FloatFree) (known : prototype.Known scope) :
    (scope.declareFunction (prototype.signature scope)).FloatFree := by
  refine h.declareFunction ?_ ?_
  · exact List.forall_mem_map.2 fun param member =>
      floatFree_ty h (free.params param member) (known param member)
  · change ((scope.type? prototype.result).getD (.primitive prototype.result)).FloatFree
    cases found : scope.type? prototype.result with
    | none => exact .primitive free.result
    | some ty => exact h.type? free.result found

theorem floatFree_declareParameters {scope : Scope} (h : scope.FloatFree)
    {params : List Parameter}
    (other : ∀ param ∈ params, ∀ name, param.typeName = some name → name ∉ floatNames)
    (known : ∀ param ∈ params, (param.typeName.bind scope.type?).isSome)
    (findings : Findings) :
    (declareParameters scope findings params).1.FloatFree ∧
      (declareParameters scope findings params).1.type? = scope.type? := by
  induction params generalizing scope findings with
  | nil => exact ⟨h, rfl⟩
  | cons param params ih =>
    obtain ⟨here, behind⟩ := List.forall_mem_cons.1 other
    obtain ⟨knownHere, knownBehind⟩ := List.forall_mem_cons.1 known
    rw [declareParameters]
    split
    · exact ih h behind knownBehind _
    · rename_i name written
      have declared : (scope.declare ⟨name, param.ty scope, param.isArray⟩).FloatFree :=
        h.declare (floatFree_ty h here knownHere)
      have types := Scope.type?_declare scope ⟨name, param.ty scope, param.isArray⟩
      obtain ⟨free, same⟩ := ih declared behind (by rwa [types]) _
      exact ⟨free, same.trans types⟩

theorem floatFree_declareNames {scope : Scope} (h : scope.FloatFree) {ty : Ty}
    (free : ty.FloatFree) (typeIsArray : Bool) (pending : Option (String × Bool))
    (trees : List Tree) :
    (declareNames scope ty typeIsArray pending trees).FloatFree := by
  fun_induction declareNames scope ty typeIsArray pending trees with
  | case1 => exact h
  | case4 scope token rest isMark name isArray ih => exact ih (h.declare free)
  | _ => rename_i ih; exact ih h

theorem floatFree_declareMember {scope : Scope} (h : scope.FloatFree) {member : Tree}
    (free : member.FloatFree) : (declareMember scope member).FloatFree := by
  unfold declareMember
  split
  · split
    · exact h
    · rename_i specifier found
      split
      · exact h
      · rename_i ty known
        exact floatFree_declareNames h (floatFree_typeName h (free.findChild? found) known) _ _ _
  · exact h

theorem floatFree_declareMembers {scope : Scope} (h : scope.FloatFree)
    {members : List Tree} (free : ∀ member ∈ members, member.FloatFree) :
    (members.foldl declareMember scope).FloatFree := by
  induction members generalizing scope with
  | nil => exact h
  | cons member members ih =>
    obtain ⟨here, behind⟩ := List.forall_mem_cons.1 free
    exact ih (floatFree_declareMember h here) behind

theorem floatFree_declareBlock {scope : Scope} (h : scope.FloatFree) {kind : NodeKind}
    {children : List Tree} (free : (Tree.node kind children).FloatFree)
    (findings : Findings) :
    (declareBlock scope (.node kind children) findings).1.FloatFree := by
  have below := fun child (member : child ∈ children) => free.child member
  unfold declareBlock
  split
  · rename_i blockName inside found
    have named : blockName ∈ (Tree.node kind children).childTokens := by
      simpa using (mem_of_braceOf found).2
    have type : (Ty.structOf blockName.text (membersOf scope children findings).1).FloatFree :=
      .structOf (free blockName (Tree.childTokens_subset _ named)).type
        (floatFree_membersOf h below)
    split
    · simp only
      split
      · exact Scope.FloatFree.declare (h.declareStruct type) type
      · exact (floatFree_declareMembers h below).declareStruct type
    · exact h
  · exact h

/-! ### The walk -/

namespace Plan

def Role.FloatFree : Role → Prop
  | .part context => context = false
  | .argument expectsFloat => expectsFloat = false
  | .declarator type _ => ∀ ty, type = some ty → ty.FloatFree
  | .body => True

def Siblings.FloatFree : Siblings → Prop
  | .uniform context => context = false
  | .call flags => ∀ flag ∈ flags, flag = false
  | .index context => context = false
  | .declarators type _ => ∀ ty, type = some ty → ty.FloatFree
  | .definition => True

theorem Siblings.FloatFree.role {siblings : Siblings} (h : siblings.FloatFree)
    (child : Tree) :
    (siblings.role child).FloatFree := by
  unfold Siblings.role
  split
  · exact h
  · rename_i flags
    split_ifs
    · cases flags with
      | nil => rfl
      | cons flag flags => exact h flag List.mem_cons_self
    · rfl
  · rename_i context
    obtain rfl : context = false := h
    rfl
  · split_ifs
    · exact h
    · rfl
  · split_ifs
    · trivial
    · rfl

theorem Siblings.FloatFree.after {siblings : Siblings} (h : siblings.FloatFree)
    {child : Tree} (free : child.FloatFree) {state : State}
    (scope : state.scope.FloatFree) :
    (siblings.after child state).1.FloatFree := by
  cases siblings with
  | call flags =>
    unfold Siblings.after
    dsimp only
    split
    · exact fun flag listed => h flag (List.mem_of_mem_tail listed)
    · exact h
  | declarators type typeIsArray =>
    unfold Siblings.after
    dsimp only
    split
    · split
      · exact h
      · rename_i specifier found
        exact fun ty => floatFree_specifiedType scope (free.findChild? found)
    · exact h
  | uniform context => exact h
  | index context => exact h
  | definition => trivial

/-- The prototype at a node, if there is one, has parameters of known types. -/
def Visit.ParamsKnown (v : Visit) : Prop :=
  ∀ prototype, v.tree.prototype? = some prototype → prototype.Known v.state.scope

theorem Visit.paramsKnown_of_builtin (v : Visit)
    (known : v.tree.prototype?.all fun prototype =>
      prototype.params.all fun param => (param.typeName.bind Ty.builtin?).isSome) :
    v.ParamsKnown := by
  intro prototype found param member
  rw [found] at known
  have builtin := List.all_eq_true.1 known param member
  cases named : param.typeName with
  | none => simp [named] at builtin
  | some name =>
    have isBuiltin : (Ty.builtin? name).isSome := by simpa [named] using builtin
    simp [Scope.type?, isBuiltin]

/-- The node is entered in no float context, and its children are visited in
none. -/
def EntersFloatFree (entered : Entry × State) : Prop :=
  ∃ siblings state', entered = (.descend false siblings, state') ∧ siblings.FloatFree ∧
    state'.scope.FloatFree

section Entry

variable {state : State} (scope : state.scope.FloatFree)

include scope

theorem storesFloat_floatFree {kind : NodeKind} {children : List Tree}
    (free : (Tree.node kind children).FloatFree) :
    (storesFloat state (.node kind children)).1 = false := by
  unfold storesFloat
  split
  · split
    · rfl
    · rename_i type known
      cases type with
      | none => rfl
      | some ty =>
        have target := Inference.floatFree_typeOfNth scope (fun child => free.child) known
        exact target.isFloatScalarOrVector_eq_false
  · rfl

theorem enterAssignment_floatFree {kind : NodeKind} {children : List Tree}
    (free : (Tree.node kind children).FloatFree) :
    EntersFloatFree (enterAssignment state (.node kind children) false false) := by
  have own : (setsFloat state (.node kind children) false).1 = false := by
    obtain ⟨findings, eq⟩ := setsFloat_eq state (.node kind children) false
    rw [eq, storesFloat_floatFree scope free, Inference.demand_eq_false scope free]
    rfl
  refine ⟨.uniform false, (setsFloat state (.node kind children) false).2, ?_, rfl, ?_⟩
  · simp [enterAssignment, own]
  · rw [scope_setsFloat]
    exact scope

theorem enterDefinition_floatFree {children : List Tree}
    (sound : (Tree.node .functionDefinition children).IsSound)
    (free : (Tree.node .functionDefinition children).FloatFree)
    (known : ∀ prototype, (Tree.node .functionDefinition children).prototype? = some prototype →
      prototype.Known state.scope) :
    EntersFloatFree (enterDefinition state (.node .functionDefinition children) false) := by
  obtain ⟨below, found, -⟩ :=
    sound.grammatical.exists_findChild? .functionPrototype (by decide)
  obtain ⟨readable, isPrototype⟩ := sound.findChild? found
  obtain ⟨prototype, read⟩ := Prototype.exists_ofTree? readable.grammatical isPrototype
  have unnamed := Prototype.floatFree_ofTree? readable (free.findChild? found) read
  have types : prototype.Known state.scope :=
    known prototype (by simp [Tree.prototype?, found, read])
  obtain ⟨declared, same⟩ :=
    floatFree_declareParameters scope.push unnamed.params types state.findings
  have signed :=
    floatFree_signature declared unnamed (by rw [Prototype.Known, same]; exact types)
  unfold enterDefinition
  simp only [found, Option.bind_some, read, scope.catalog, unnamed.isBuiltin_eq_false,
    Bool.false_eq_true, if_false]
  exact ⟨.definition, _, rfl, trivial, signed⟩

theorem enterDeclaration_floatFree {children : List Tree}
    (sound : (Tree.node .declaration children).IsSound)
    (free : (Tree.node .declaration children).FloatFree)
    (known : ∀ prototype, (Tree.node .declaration children).prototype? = some prototype →
      prototype.Known state.scope) :
    EntersFloatFree (enterDeclaration state (.node .declaration children) false) := by
  unfold enterDeclaration
  cases found : (Tree.node .declaration children).findChild? .functionPrototype with
  | none => exact ⟨.uniform false, state, rfl, rfl, scope⟩
  | some child =>
    obtain ⟨readable, isPrototype⟩ := sound.findChild? found
    obtain ⟨prototype, read⟩ := Prototype.exists_ofTree? readable.grammatical isPrototype
    have unnamed := Prototype.floatFree_ofTree? readable (free.findChild? found) read
    have types := known prototype (by simp [Tree.prototype?, found, read])
    simp only [read, scope.catalog, unnamed.isBuiltin_eq_false, Bool.false_eq_true,
      if_false]
    exact ⟨.uniform false, _, rfl, rfl, floatFree_signature scope unnamed types⟩

theorem enter_floatFree {role : Role} {kind : NodeKind} {children : List Tree}
    (plain : role.FloatFree) (sound : (Tree.node kind children).IsSound)
    (free : (Tree.node kind children).FloatFree)
    (known : Visit.ParamsKnown ⟨role, .node kind children, state⟩) :
    EntersFloatFree (enter state role kind (.node kind children)) := by
  cases role with
  | part context =>
    obtain rfl : context = false := plain
    cases kind with
    | assignmentExpression => exact enterAssignment_floatFree scope free
    | functionDefinition => exact enterDefinition_floatFree scope sound free known
    | declaration => exact enterDeclaration_floatFree scope sound free known
    | initDeclaratorList =>
      exact ⟨.declarators none false, state, rfl, by rintro _ ⟨⟩, scope⟩
    | compoundStatement => exact ⟨.uniform false, _, rfl, rfl, scope.push⟩
    | forStatement => exact ⟨.uniform false, _, rfl, rfl, scope.push⟩
    | functionCall =>
      exact ⟨.call _, state, rfl, Inference.callFlags_eq_false scope sound free, scope⟩
    | indexExpression => exact ⟨.index false, state, rfl, rfl, scope⟩
    | _ => exact ⟨.uniform false, state, rfl, rfl, scope⟩
  | argument expectsFloat =>
    obtain rfl : expectsFloat = false := plain
    exact enterAssignment_floatFree scope free
  | declarator type typeIsArray =>
    have own : type.any Ty.isFloat = false := by
      cases type with
      | none => rfl
      | some ty => exact (plain ty rfl).isFloat_eq_false
    refine ⟨.uniform false, state, ?_, rfl, scope⟩
    simp only [enter, own]
  | body => exact ⟨.uniform false, state, rfl, rfl, scope⟩

theorem leave_floatFree {role : Role} {kind : NodeKind} {children : List Tree}
    (plain : role.FloatFree) (free : (Tree.node kind children).FloatFree) :
    (leave state role kind (.node kind children)).scope.FloatFree := by
  cases role with
  | part context =>
    rw [leave]
    unfold leavePart
    split
    · exact scope.pop
    · exact scope.pop
    · exact scope.pop
    · exact scope.declareStruct (floatFree_structType scope free)
    · exact floatFree_declareBlock scope free _
    · exact scope
  | argument expectsFloat => exact scope
  | declarator type typeIsArray =>
    change (declareVariable _ _ _ _).FloatFree
    unfold declareVariable
    split
    · exact Scope.FloatFree.declare scope (plain _ rfl)
    · exact scope
  | body => exact scope

end Entry

mutual

/-- A visit keeps the scope float-free and gives no token a new spelling. -/
theorem visit_floatFree {role : Role} :
    ∀ {tree : Tree} {state : State}, state.scope.FloatFree →
    role.FloatFree → role.Fits tree → tree.IsSound → tree.FloatFree →
    (∀ v, Visit.Reaches ⟨role, tree, state⟩ v → v.ParamsKnown) →
    (visit role tree state).scope.FloatFree ∧ spelled (writes role tree state) = []
  | .leaf token, state, scope, plain, _, _, _, _ => by
    have quiet : tokenWrites role token = [] := by
      unfold tokenWrites
      split
      · cases plain
      · rfl
    rw [scope_visit_leaf, writes_leaf, quiet]
    exact ⟨scope, rfl⟩
  | .node kind children, state, scope, plain, fits, sound, free, known => by
    obtain ⟨siblings, state', entered, plain', scope'⟩ :=
      enter_floatFree scope plain sound free (known _ .refl)
    obtain ⟨below, quiet⟩ := visitAll_floatFree scope' plain' (fun _ => sound.child)
      (fun _ => free.child) fun v listed w reached =>
        known w (.head (.child entered listed) reached)
    rcases writes_node_cases state fits sound.grammatical with
      ⟨redeclares, -⟩ | ⟨-, context, siblings', state'', entered', -, own⟩
    · obtain ⟨context, rfl⟩ := exists_part_of_redeclares fits redeclares
      rw [enter_of_redeclares redeclares] at entered
      cases entered
    · cases entered.symm.trans entered'
      constructor
      · rw [visit, entered]
        exact leave_floatFree below plain free
      · rw [own, spelled_append, quiet]
        rfl

theorem visitAll_floatFree {siblings : Siblings} : ∀ {trees : List Tree} {state : State},
    state.scope.FloatFree → siblings.FloatFree → (∀ tree ∈ trees, tree.IsSound) →
    (∀ tree ∈ trees, tree.FloatFree) →
    (∀ v ∈ siblingVisits siblings trees state, ∀ w, v.Reaches w → w.ParamsKnown) →
    (visitAll siblings trees state).scope.FloatFree ∧
    spelled (writesAll siblings trees state) = []
  | [], _, scope, _, _, _, _ => by
    rw [writesAll_nil]
    exact ⟨scope, rfl⟩
  | tree :: trees, state, scope, plain, sound, free, known => by
    obtain ⟨soundHere, soundBehind⟩ := List.forall_mem_cons.1 sound
    obtain ⟨freeHere, freeBehind⟩ := List.forall_mem_cons.1 free
    obtain ⟨knownHere, knownBehind⟩ := List.forall_mem_cons.1 known
    obtain ⟨visited, quiet⟩ :=
      visit_floatFree scope (plain.role tree) (fits_role siblings tree)
        soundHere freeHere knownHere
    have moved :
        (siblings.after tree (visit (siblings.role tree) tree state)).2.scope.FloatFree := by
      rw [scope_after]
      exact visited
    obtain ⟨others, quietBehind⟩ :=
      visitAll_floatFree moved (plain.after freeHere visited) soundBehind freeBehind knownBehind
    refine ⟨others, ?_⟩
    rw [writesAll_cons, spelled_append, quiet, quietBehind]
    rfl

end

theorem foldl_onEdits_eq_self {log : List Write} (quiet : spelled log = [])
    (edits : Edits) :
    log.foldl Write.onEdits edits = edits := by
  induction log with
  | nil => rfl
  | cons write log ih =>
    cases write with
    | stamp node context => exact ih quiet
    | spell token text => cases quiet

end Plan

/-! ### Tokens of a source -/

/-- A token that starts like a word is one. -/
theorem Token.kind_eq_wordKind {cs read rest : List Char} {token : Token}
    (scanned : scan? cs = some (token.kind, read, rest))
    (spelling : token.text = String.ofList read)
    (starts : token.text.toList.head?.any Literal.isWordStart) :
    token.kind = wordKind token.text := by
  obtain ⟨rfl, nonempty⟩ := scan?_append scanned
  obtain ⟨c, tail, rfl⟩ := List.exists_cons_of_ne_nil nonempty
  have isStart : Literal.isWordStart c := by simpa [spelling] using starts
  rw [List.cons_append, scan?_of_isWordStart isStart] at scanned
  simp only [Option.some.injEq, Prod.mk.injEq] at scanned
  rw [spelling, ← scanned.2.1, scanned.1]

/-- A token that reads like a floating number is one. -/
theorem Token.kind_of_isPlainFloat {cs read rest : List Char} {token : Token}
    (scanned : scan? cs = some (token.kind, read, rest))
    (plain : Inference.isPlainFloat read) : token.kind = .floatLiteral := by
  obtain ⟨rfl, -⟩ := scan?_append scanned
  have whole :=
    List.takeWhile_append_dropWhile (p := fun c => decide (c ≠ '.')) (l := read)
  unfold Inference.isPlainFloat at plain
  split at plain
  · rename_i point fraction tail
    obtain rfl : point = '.' := by
      have stops := stops_dropWhile (fun c => decide (c ≠ '.')) read
      rw [tail] at stops
      simpa using stops point rfl
    rw [Bool.and_eq_true, Inference.isDigits, Bool.and_eq_true] at plain
    obtain ⟨⟨nonempty, digits⟩, -⟩ := plain
    have isFloat : Literal.float? (read ++ rest) ≠ none := by
      rw [← whole, tail, List.append_assoc, Ne,
        Literal.float?_eq_none_iff (List.all_eq_true.1 digits)
        (by simpa using nonempty) (by rintro _ ⟨⟩; decide)]
      simp
    unfold scan? at scanned
    split at scanned
    · simp only [Option.some.injEq, Prod.mk.injEq] at scanned
      exact scanned.1.symm
    · rename_i isNone
      exact absurd isNone isFloat
  · cases plain

/-- The names of the catalog are the names of functions, and those of types,
which take integers first. -/
theorem Catalog.names_bundled : ∀ run ∈ Catalog.bundled.runs,
    run.1.toList.head?.any Literal.isWordStart ∧
      (Token.wordKind run.1 = .identifier ∨ run.1 ∈ floatNames ∨
        (Ty.builtin? run.1).isSome ∧
          prefersIntegers [] (Catalog.bundled.overloads run.1)) := by
  decide +kernel

theorem Catalog.exists_run_of_overloads {catalog : Catalog} {name : String}
    (listed : catalog.overloads name ≠ []) : ∃ run ∈ catalog.runs, run.1 = name := by
  obtain ⟨signature, member⟩ := List.exists_mem_of_ne_nil _ listed
  obtain ⟨run, known, member⟩ := List.mem_flatMap.1 member
  refine ⟨run, known, ?_⟩
  by_contra other
  simp [other] at member

/-- What a token must not be for a shader to be float-free. -/
theorem Token.floatFree_of_scan? {cs read rest : List Char} {token : Token}
    (scanned : scan? cs = some (token.kind, read, rest))
    (spelling : token.text = String.ofList read) (literal : token.kind ≠ .floatLiteral)
    (keyword : token.kind = .keyword → token.text ∉ floatNames)
    (name : token.kind = .identifier → token.text ∉ Scope.builtinVariables.map Prod.fst ∧
      Catalog.bundled.overloads token.text = []) : token.FloatFree := by
  have word := kind_eq_wordKind scanned spelling
  have type : token.text ∉ floatNames := by
    intro listed
    have reserved : ∀ name ∈ floatNames,
        name.toList.head?.any Literal.isWordStart ∧ wordKind name = .keyword := by
          decide +kernel
    obtain ⟨starts, isKeyword⟩ := reserved _ listed
    exact keyword ((word starts).trans isKeyword) listed
  have builtin : token.text ∉ Scope.builtinVariables.map Prod.fst := by
    intro listed
    have free : ∀ name ∈ Scope.builtinVariables.map Prod.fst,
        name.toList.head?.any Literal.isWordStart ∧ wordKind name = .identifier := by
          decide +kernel
    obtain ⟨starts, isName⟩ := free _ listed
    exact (name ((word starts).trans isName)).1 listed
  have conversion : Catalog.bundled.overloads token.text ≠ [] →
    (Ty.builtin? token.text).isSome ∧
      prefersIntegers [] (Catalog.bundled.overloads token.text) := by
    intro listed
    obtain ⟨run, known, same⟩ := Catalog.exists_run_of_overloads listed
    obtain ⟨starts, cases⟩ := Catalog.names_bundled run known
    rw [same] at starts cases
    rcases cases with isName | isType | converts
    · exact absurd (name ((word starts).trans isName)).2 listed
    · exact absurd isType type
    · exact converts
  refine ⟨literal, Bool.eq_false_iff.2 fun plain => ?_, type, builtin, ?_, ?_,
    fun isName => (name isName).2⟩
  · refine literal (kind_of_isPlainFloat scanned ?_)
    simpa [spelling] using plain
  · by_cases listed : Catalog.bundled.overloads token.text = []
    · rw [listed]
      rfl
    · exact (conversion listed).2
  · by_cases listed : Catalog.bundled.overloads token.text = []
    · exact Or.inr listed
    · exact Or.inl (conversion listed).1

namespace SyntaxTree

open Plan

/-- A shader without floating literals and types that uses neither builtin
variables nor functions of the catalog, and whose parameters have known types,
needs no edits and comes out as it is. -/
theorem convert_float_free {source : String} {tree : SyntaxTree}
    (read : ofSource source = .ok tree)
    (literals : ∀ token ∈ tree.stream.tokens, token.kind ≠ .floatLiteral)
    (keywords : ∀ token ∈ tree.stream.tokens, token.kind = .keyword →
      token.text ∉ floatNames)
    (names : ∀ token ∈ tree.stream.tokens, token.kind = .identifier →
      token.text ∉ Scope.builtinVariables.map Prod.fst ∧
        Catalog.bundled.overloads token.text = [])
    (params : ∀ v, (Visit.ofTree Catalog.bundled tree.root).Reaches v → v.ParamsKnown) :
    (Plan.ofTree Catalog.bundled tree.root).edits.isEmpty ∧
      ∃ conversion, convert Catalog.bundled source = .ok conversion ∧
        conversion.text = source := by
  obtain ⟨cut, -⟩ := ofSource_eq_ok read
  have free : tree.root.FloatFree := by
    intro token member
    rw [(ofSource_spec read).2.2.1] at member
    obtain ⟨cs, own, rest, scanned, spelling⟩ := exists_scan_of_mem cut member
    exact Token.floatFree_of_scan? scanned spelling (literals token member) (keywords token member)
      (names token member)
  have plain : Role.FloatFree (.part false) := rfl
  have quiet := (visit_floatFree .initial plain trivial (isSound_root read) free params).2
  have edits : (Plan.ofTree Catalog.bundled tree.root).edits = Edits.empty :=
    foldl_onEdits_eq_self quiet _
  refine ⟨by rw [edits]; decide, _, convert_eq_ok read (Edits.splice_of_none cut ?_), rfl⟩
  simp [edits, Edits.get?, Edits.empty]

theorem convert_float_free_vector : ∃ tree,
    ofSource "int f(int k, ivec2 p) { return int(k) * p.x + 2; }" = .ok tree ∧
      (Plan.ofTree Catalog.bundled tree.root).edits.isEmpty := by
  have read : (ofSource "int f(int k, ivec2 p) { return int(k) * p.x + 2; }").toOption.map
      (fun tree =>
        (tree.stream.tokens.all fun token => token.kind ≠ .floatLiteral ∧
          (token.kind = .keyword → token.text ∉ floatNames) ∧
          (token.kind = .identifier → token.text ∉ Scope.builtinVariables.map Prod.fst ∧
            (Catalog.bundled.overloads token.text).isEmpty)) &&
        tree.root.postorder.all fun node => node.prototype?.all fun prototype =>
          prototype.params.all fun param => (param.typeName.bind Ty.builtin?).isSome) =
      some true := by
    decide +kernel
  obtain ⟨tree, parsed, checked⟩ := exists_of_map_toOption read
  rw [Bool.and_eq_true, List.all_eq_true, List.all_eq_true] at checked
  obtain ⟨tokens, prototypes⟩ := checked
  simp only [decide_eq_true_eq, List.isEmpty_iff] at tokens
  refine ⟨tree, parsed, (convert_float_free parsed (fun token member => (tokens token member).1)
    (fun token member => (tokens token member).2.1) (fun token member =>
      (tokens token member).2.2)
    fun v reached => v.paramsKnown_of_builtin ?_).1⟩
  cases shape : v.tree with
  | leaf token => rfl
  | node kind children =>
    have inside := reached.postorder_subset
    rw [shape] at inside
    exact prototypes _ (inside (Tree.mem_postorder_self (decide_eq_true rfl)))

end SyntaxTree

end ShaderDialect
