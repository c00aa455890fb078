import ShaderDialect.Proofs.Reports
import ShaderDialect.Proofs.Settled

/-!
# Scopes along the walk

A visit may declare variables in the innermost frame and functions behind the
known ones; every other frame is as it was. Blocks, loops and functions have a
frame of their own, which is gone when the walk leaves them, so a variable is
in scope only below the node that holds its declaration.

The body of a function is no block of its own here: it shares the frame of the
parameters, and the definition around it opens and closes that frame.
-/

namespace ShaderDialect

namespace Scope

/-- A scope with more variables in the innermost frame, whose names are as
given, with more functions and with more structs. -/
structure Extends (names : String → Prop) (before after : Scope) : Prop where
  frames : ∃ new : Frame, after.frames = before.frames.modifyHead (new ++ ·) ∧
    ∀ declared ∈ new, names declared.name
  functions : before.functions <+: after.functions
  structs : before.structs <:+ after.structs

theorem frames_ne_nil (scope : Scope) : scope.frames ≠ [] := by
  simp [frames]

theorem frames_push (scope : Scope) : scope.push.frames = [] :: scope.frames := rfl

/-- Variables that are declared one after the other stand before the others, the
last one first. -/
theorem frames_foldl_declare (fresh : List Variable) (scope : Scope) :
    (fresh.foldl declare scope).frames =
      scope.frames.modifyHead (fresh.reverse ++ ·) := by
  induction fresh generalizing scope with
  | nil => cases frames : scope.frames <;> simp [frames]
  | cons declared fresh ih =>
    rw [List.foldl_cons, ih, frames_declare]
    cases scope.frames <;> simp

namespace Extends

theorem refl (names : String → Prop) (scope : Scope) : Extends names scope scope := by
  refine ⟨⟨[], ?_, List.forall_mem_nil _⟩, List.prefix_rfl, List.suffix_rfl⟩
  cases scope.frames <;> rfl

theorem trans {names : String → Prop} {s₁ s₂ s₃ : Scope} (h₁ : Extends names s₁ s₂)
    (h₂ : Extends names s₂ s₃) : Extends names s₁ s₃ := by
  obtain ⟨new₁, frames₁, named₁⟩ := h₁.frames
  obtain ⟨new₂, frames₂, named₂⟩ := h₂.frames
  refine ⟨⟨new₂ ++ new₁, ?_, List.forall_mem_append.2 ⟨named₂, named₁⟩⟩,
    h₁.functions.trans h₂.functions, h₁.structs.trans h₂.structs⟩
  rw [frames₂, frames₁]
  cases s₁.frames <;> simp

theorem mono {names wider : String → Prop} {before after : Scope}
    (h : Extends names before after)
    (widen : ∀ name, names name → wider name) : Extends wider before after := by
  obtain ⟨new, frames, named⟩ := h.frames
  exact ⟨⟨new, frames, fun declared member => widen _ (named declared member)⟩,
    h.functions, h.structs⟩

/-- All frames but the innermost stay. -/
theorem tail_frames {names : String → Prop} {before after : Scope}
    (h : Extends names before after) :
    after.frames.tail = before.frames.tail := by
  obtain ⟨new, frames, -⟩ := h.frames
  rw [frames, List.tail_modifyHead]

theorem depth_eq {names : String → Prop} {before after : Scope}
    (h : Extends names before after) :
    after.depth = before.depth := by
  obtain ⟨new, frames, -⟩ := h.frames
  rw [depth, frames, List.length_modifyHead, depth]

theorem overloads {names : String → Prop} {before after : Scope}
    (h : Extends names before after) (name : String) :
    before.functions.filter (·.name = name) <+: after.functions.filter (·.name = name) :=
  h.functions.filter _

/-- What is in scope afterwards was in scope before, or is named. -/
theorem mem_frames {names : String → Prop} {before after : Scope}
    (h : Extends names before after) {frame : Frame} (listed : frame ∈ after.frames)
    {declared : Variable} (member : declared ∈ frame) :
    (∃ frame ∈ before.frames, declared ∈ frame) ∨ names declared.name := by
  obtain ⟨new, frames, named⟩ := h.frames
  obtain ⟨top, below, shape⟩ := List.exists_cons_of_ne_nil before.frames_ne_nil
  rw [frames, shape, List.modifyHead_cons, List.mem_cons] at listed
  rw [shape]
  rcases listed with rfl | later
  · rcases List.mem_append.1 member with isNew | isOld
    · exact Or.inr (named declared isNew)
    · exact Or.inl ⟨top, List.mem_cons_self, isOld⟩
  · exact Or.inl ⟨frame, List.mem_cons_of_mem _ later, member⟩

/-- Leaving a frame brings back the frames from before it was entered. -/
theorem frames_pop {names : String → Prop} {before after : Scope}
    (h : Extends names before.push after) : after.pop.frames = before.frames := by
  have tail := h.tail_frames
  rw [frames_push, List.tail_cons] at tail
  rw [← tail]
  cases locals : after.locals with
  | nil =>
    rw [Scope.frames, locals] at tail
    exact absurd tail.symm before.frames_ne_nil
  | cons frame below => simp [Scope.frames, pop, locals]

theorem pop {names others : String → Prop} {before after : Scope}
    (h : Extends names before.push after) : Extends others before after.pop := by
  refine ⟨⟨[], ?_, List.forall_mem_nil _⟩, h.functions, h.structs⟩
  rw [h.frames_pop]
  cases before.frames <;> rfl

end Extends

section Declarations

variable {names : String → Prop}

theorem extends_declare (scope : Scope) {declared : Variable}
    (named : names declared.name) :
    Extends names scope (scope.declare declared) := by
  refine ⟨⟨[declared], ?_, List.forall_mem_singleton.2 named⟩, ?_, ?_⟩
  · rw [frames_declare]
    rfl
  · exact (functions_declare scope declared).symm ▸ List.prefix_rfl
  · exact (structs_declare scope declared).symm ▸ List.suffix_rfl

theorem extends_declareFunction (scope : Scope) (signature : Signature) :
    Extends names scope (scope.declareFunction signature) :=
  ⟨(Extends.refl names scope).frames, List.prefix_append _ _, List.suffix_rfl⟩

theorem extends_declareStruct (scope : Scope) (ty : Ty) :
    Extends names scope (scope.declareStruct ty) := by
  unfold declareStruct
  split
  · exact Extends.refl names scope
  · refine ⟨?_, ?_, ?_⟩
    · cases ty <;> exact (Extends.refl names scope).frames
    · cases ty with
      | struct name fields => exact List.prefix_append _ _
      | _ => exact List.prefix_rfl
    · cases ty <;> exact List.suffix_cons _ _

end Declarations

end Scope

open Scope (Extends)

/-! ### Declared names -/

/-- The kinds of nodes that have a frame of their own. -/
def NodeKind.opensFrame : NodeKind → Bool
  | .compoundStatement => true
  | .forStatement => true
  | .functionDefinition => true
  | _ => false

namespace Tree

/-- The identifiers that hang directly under a node. -/
def ownNames (tree : Tree) : List String :=
  (tree.childTokens.filter (·.kind = .identifier)).map Token.text

/-- The identifiers that hang directly under those of some trees that have one
kind. -/
def namesOf (kind : NodeKind) (trees : List Tree) : List String :=
  (trees.filter (·.hasKind kind)).flatMap ownNames

/-- The variables that a node itself declares where it stands: a declarator
its name, a block its instance or its members. -/
def declaredBy (kind : NodeKind) (children : List Tree) : List String :=
  match kind with
  | .declarator => (node kind children).ownNames
  | .interfaceBlock => (node kind children).ownNames ++ namesOf .structMember children
  | _ => []

/-- The parameters of a definition with these children. -/
def parameterNames (children : List Tree) : List String :=
  (children.filter (·.hasKind .functionPrototype)).flatMap fun prototype =>
    namesOf .parameterDeclaration prototype.children

mutual

/-- The variables that are declared in a tree, but in no block, loop or
function of it. -/
def outerNames : Tree → List String
  | .leaf _ => []
  | .node kind children =>
    if kind.opensFrame then [] else declaredBy kind children ++ outerNamesAll children

def outerNamesAll : List Tree → List String
  | [] => []
  | tree :: trees => outerNames tree ++ outerNamesAll trees

end

theorem mem_outerNamesAll {trees : List Tree} {name : String} :
    name ∈ outerNamesAll trees ↔ ∃ tree ∈ trees, name ∈ tree.outerNames := by
  induction trees with
  | nil => simp [outerNamesAll]
  | cons tree trees ih => simp [outerNamesAll, ih]

theorem outerNames_of_hasKind {tree : Tree} {kind : NodeKind} (isKind : tree.hasKind kind)
    (plain : kind.opensFrame = false) :
    tree.outerNames = declaredBy kind tree.children ++ outerNamesAll tree.children := by
  obtain ⟨children, rfl⟩ := exists_children_of_hasKind isKind
  rw [outerNames, plain]
  rfl

theorem mem_ownNames {tree : Tree} {token : Token} (member : token ∈ tree.childTokens)
    (isName : token.kind = .identifier) : token.text ∈ tree.ownNames :=
  List.mem_map_of_mem (List.mem_filter.2 ⟨member, by simpa using isName⟩)

theorem mem_ownNames_of_identifier? {tree : Tree} {token : Token}
    (found : tree.identifier? = some token) : token.text ∈ tree.ownNames :=
  mem_ownNames (List.mem_of_find?_eq_some found) (by simpa using List.find?_some found)

theorem mem_namesOf {kind : NodeKind} {trees : List Tree} {tree : Tree} {name : String}
    (member : tree ∈ trees) (isKind : tree.hasKind kind) (own : name ∈ tree.ownNames) :
    name ∈ namesOf kind trees :=
  List.mem_flatMap.2 ⟨tree, List.mem_filter.2 ⟨member, isKind⟩, own⟩

end Tree

/-! ### Declarations -/

section Declared

variable {names : String → Prop}

theorem extends_declareParameters {params : List Parameter}
    (named : ∀ param ∈ params, ∀ name, param.name = some name → names name)
    (scope : Scope) (findings : Findings) :
    Extends names scope (declareParameters scope findings params).1 := by
  induction params generalizing scope findings with
  | nil => exact .refl names scope
  | cons param params ih =>
    rw [declareParameters]
    refine .trans ?_ (ih (fun param member => named param (List.mem_cons_of_mem _ member)) _ _)
    split
    · exact .refl names scope
    · rename_i name written
      exact Scope.extends_declare scope (named param List.mem_cons_self name written)

theorem extends_declareNames (scope : Scope) (ty : Ty) (typeIsArray : Bool)
    (pending : Option (String × Bool)) (trees : List Tree)
    (named : ∀ name isArray, pending = some (name, isArray) → names name)
    (written : ∀ token, .leaf token ∈ trees → token.kind = .identifier →
      names token.text) :
    Extends names scope (declareNames scope ty typeIsArray pending trees) := by
  fun_induction declareNames scope ty typeIsArray pending trees with
  | case1 => exact .refl names _
  | case2 scope pending token rest isName ih =>
    refine ih ?_ fun token member => written token (List.mem_cons_of_mem _ member)
    rintro name isArray ⟨⟩
    exact written token List.mem_cons_self isName
  | case3 scope token rest isMark ih =>
    exact ih named fun token member => written token (List.mem_cons_of_mem _ member)
  | case4 scope token rest isMark name isArray ih =>
    refine .trans (Scope.extends_declare scope (named name isArray rfl)) (ih (by simp) ?_)
    exact fun token member => written token (List.mem_cons_of_mem _ member)
  | case5 scope pending tree rest notLeaf isArray ih =>
    refine ih ?_ fun token member => written token (List.mem_cons_of_mem _ member)
    rintro name isArray same
    obtain ⟨_, found, same⟩ := Option.map_eq_some_iff.1 same
    cases same
    exact named _ _ found
  | case6 scope pending tree rest notLeaf isArray ih =>
    exact ih named fun token member => written token (List.mem_cons_of_mem _ member)

theorem extends_declareMember (scope : Scope) {member : Tree}
    (written : member.hasKind .structMember → ∀ name ∈ member.ownNames, names name) :
    Extends names scope (declareMember scope member) := by
  unfold declareMember
  split
  · rename_i isMember
    split
    · exact .refl names scope
    · split
      · exact .refl names scope
      · refine extends_declareNames _ _ _ none _ (by simp) fun token listed isName => ?_
        exact written isMember _ (Tree.mem_ownNames (List.mem_filterMap.2 ⟨_, listed, rfl⟩) isName)
  · exact .refl names scope

theorem extends_declareMembers {members : List Tree}
    (written : ∀ member ∈ members, member.hasKind .structMember →
      ∀ name ∈ member.ownNames, names name) (scope : Scope) :
    Extends names scope (members.foldl declareMember scope) := by
  induction members generalizing scope with
  | nil => exact .refl names scope
  | cons member members ih =>
    rw [List.forall_mem_cons] at written
    exact .trans (extends_declareMember scope written.1) (ih written.2 _)

theorem extends_declareBlock (scope : Scope) (children : List Tree)
    (findings : Findings) :
    Extends (· ∈ Tree.declaredBy .interfaceBlock children) scope
      (declareBlock scope (.node .interfaceBlock children) findings).1 := by
  unfold declareBlock
  split
  · rename_i blockName inside braces
    split
    · simp only
      split
      · rename_i instanceName found
        refine .trans (Scope.extends_declareStruct scope _) (Scope.extends_declare _ ?_)
        have listed := (mem_of_braceOf braces).1 (List.mem_of_find?_eq_some found)
        have isName : instanceName.kind = .identifier := by
          simpa using List.find?_some found
        exact List.mem_append_left _ (Tree.mem_ownNames listed isName)
      · refine .trans (extends_declareMembers ?_ scope) (Scope.extends_declareStruct _ _)
        intro member listed isMember name own
        exact List.mem_append_right _ (Tree.mem_namesOf listed isMember own)
    · exact .refl _ scope
  · exact .refl _ scope

theorem Prototype.mem_parameterNames {prototype : Prototype} {children : List Tree}
    {child : Tree} (member : child ∈ children)
    (isPrototype : child.hasKind .functionPrototype)
    (read : ofTree? child = some prototype) {param : Parameter}
    (listed : param ∈ prototype.params) {name : String}
    (named : param.name = some name) :
    name ∈ Tree.parameterNames children := by
  simp only [ofTree?, Option.bind_eq_bind, Option.bind_eq_some_iff] at read
  obtain ⟨_, -, _, -, _, -, params, all, same⟩ := read
  cases same
  obtain ⟨below, inside, own⟩ := exists_mem_of_mapM all listed
  obtain ⟨inside, isParameter⟩ := List.mem_filter.1 inside
  simp only [Parameter.ofTree?, Option.bind_eq_bind, Option.bind_eq_some_iff] at own
  obtain ⟨_, -, _, -, same⟩ := own
  cases same
  obtain ⟨token, found, rfl⟩ := Option.map_eq_some_iff.1 named
  refine List.mem_flatMap.2 ⟨child, List.mem_filter.2 ⟨member, isPrototype⟩, ?_⟩
  exact Tree.mem_namesOf inside isParameter (Tree.mem_ownNames_of_identifier? found)

end Declared

namespace Plan

/-! ### One node -/

/-- Whether a visit in this role opens a frame for what is below it. -/
def Role.opens (role : Role) (kind : NodeKind) : Bool :=
  match role with
  | .part _ => kind.opensFrame
  | _ => false

/-- The variables that the visit of a tree in this role may declare in the
innermost frame. -/
def Role.exposes : Role → Tree → List String
  | .part _, tree => tree.outerNames
  | .declarator _ _, tree => tree.ownNames ++ Tree.outerNamesAll tree.children
  | _, tree => Tree.outerNamesAll tree.children

theorem mem_exposes_of_child {role : Role} {kind : NodeKind} {children : List Tree}
    {name : String} (plain : role.opens kind = false)
    (below : name ∈ Tree.outerNamesAll children) :
    name ∈ role.exposes (.node kind children) := by
  cases role with
  | part context =>
    rw [Role.opens] at plain
    rw [Role.exposes, Tree.outerNames, plain]
    exact List.mem_append_right _ below
  | declarator type typeIsArray => exact List.mem_append_right _ below
  | _ => exact below

/-- Except for the body of a function, what a child exposes depends on the tree
alone. -/
theorem exposes_role {siblings : Siblings} (other : siblings ≠ .definition)
    (child : Tree) :
    (siblings.role child).exposes child = child.outerNames := by
  cases siblings with
  | uniform context => rfl
  | call flags =>
    rw [Siblings.role]
    split
    · rename_i isKind
      exact (Tree.outerNames_of_hasKind isKind rfl).symm
    · rfl
  | index context => rfl
  | declarators type typeIsArray =>
    rw [Siblings.role]
    split
    · rename_i isKind
      exact (Tree.outerNames_of_hasKind isKind rfl).symm
    · rfl
  | definition => exact absurd rfl other

theorem scope_deleteTree (state : State) (tree : Tree) :
    (deleteTree state tree).scope = state.scope := rfl

theorem scope_after (siblings : Siblings) (tree : Tree) (state : State) :
    (siblings.after tree state).2.scope = state.scope := by
  unfold Siblings.after
  split
  · rfl
  · split
    · split <;> rfl
    · rfl
  · rfl

theorem after_fst_ne_definition {siblings : Siblings} (other : siblings ≠ .definition)
    (tree : Tree) (state : State) : (siblings.after tree state).1 ≠ .definition := by
  cases siblings with
  | definition => exact absurd rfl other
  | declarators type typeIsArray =>
    simp only [Siblings.after]
    split
    · split <;> simp
    · simp
  | _ => simp [Siblings.after]

theorem exposes_role_after (siblings : Siblings) (tree : Tree) (state : State)
    (child : Tree) :
    ((siblings.after tree state).1.role child).exposes child =
      (siblings.role child).exposes child := by
  by_cases same : siblings = .definition
  · subst same
    rfl
  · rw [exposes_role same, exposes_role (after_fst_ne_definition same tree state)]

/-- What entering a node does to the scope: the frame that the node opens, if
it does, gets the parameters of a definition, and nothing else is declared in
any frame. A node is passed over with the scope as it is. -/
def EntersScope (role : Role) (kind : NodeKind) (children : List Tree) (before : Scope) :
    Entry → Scope → Prop
  | .skip _, after => after = before
  | .descend _ siblings, after =>
    (siblings = .definition → kind = .functionDefinition ∧ role.opens kind = true) ∧
      Extends (fun name => siblings = .definition ∧ name ∈ Tree.parameterNames children)
        (if role.opens kind then before.push else before) after

theorem entersScope_same {role : Role} {kind : NodeKind} (children : List Tree)
    (scope : Scope) (context : Bool) {siblings : Siblings}
    (plain : role.opens kind = false) (other : siblings ≠ .definition) :
    EntersScope role kind children scope (.descend context siblings) scope := by
  refine ⟨fun same => absurd same other, ?_⟩
  rw [plain]
  exact .refl _ scope

theorem entersScope_push {role : Role} {kind : NodeKind} (children : List Tree)
    (scope : Scope) (context : Bool) {siblings : Siblings}
    (opens : role.opens kind = true) (other : siblings ≠ .definition) :
    EntersScope role kind children scope (.descend context siblings) scope.push := by
  refine ⟨fun same => absurd same other, ?_⟩
  rw [opens]
  exact .refl _ scope.push

theorem entersScope_definition (state : State) (context handed : Bool)
    (children : List Tree) :
    EntersScope (.part handed) .functionDefinition children state.scope
      (enterDefinition state (.node .functionDefinition children) context).1
      (enterDefinition state (.node .functionDefinition children) context).2.scope := by
  unfold enterDefinition
  split
  · rfl
  · rename_i prototype read
    split
    · exact scope_deleteTree _ _
    · obtain ⟨child, found, read⟩ := Option.bind_eq_some_iff.1 read
      have isPrototype := List.find?_some found
      have member := List.mem_of_find?_eq_some found
      refine ⟨fun _ => ⟨rfl, rfl⟩, .trans ?_ (Scope.extends_declareFunction _ _)⟩
      refine extends_declareParameters (fun param listed name named => ⟨rfl, ?_⟩) state.scope.push _
      exact Prototype.mem_parameterNames member isPrototype read listed named

theorem entersScope_declaration (state : State) (context handed : Bool)
    (children : List Tree) :
    EntersScope (.part handed) .declaration children state.scope
      (enterDeclaration state (.node .declaration children) context).1
      (enterDeclaration state (.node .declaration children) context).2.scope := by
  unfold enterDeclaration
  split
  · exact entersScope_same children state.scope context rfl (by simp)
  · split
    · rfl
    · split
      · exact scope_deleteTree _ _
      · exact ⟨by simp, Scope.extends_declareFunction _ _⟩

theorem entersScope_enter (state : State) (role : Role) (kind : NodeKind)
    (children : List Tree) :
    EntersScope role kind children state.scope (enter state role kind (.node kind children)).1
      (enter state role kind (.node kind children)).2.scope := by
  cases role with
  | part handed =>
    simp only [enter, enterPart]
    split
    · rw [enterAssignment, scope_setsFloat]
      exact entersScope_same children _ _ rfl (by simp)
    · exact entersScope_definition state _ handed children
    · exact entersScope_declaration state _ handed children
    · exact entersScope_same children _ _ rfl (by simp)
    · exact entersScope_same children _ _ rfl (by simp)
    · exact entersScope_same children _ _ rfl (by simp)
    · exact entersScope_push children _ _ rfl (by simp)
    · exact entersScope_push children _ _ rfl (by simp)
    · exact entersScope_same children _ _ rfl (by simp)
    · exact entersScope_same children _ _ rfl (by simp)
    · refine entersScope_same children _ _ ?_ (by simp)
      cases kind <;> first | rfl | contradiction
  | argument expectsFloat =>
    rw [enter, enterAssignment, scope_setsFloat]
    exact entersScope_same children _ _ rfl (by simp)
  | declarator type typeIsArray => exact entersScope_same children _ _ rfl (by simp)
  | body => exact entersScope_same children _ _ rfl (by simp)

/-- Leaving a node closes the frame that it opened. -/
theorem scope_leave {role : Role} {kind : NodeKind} (opens : role.opens kind = true)
    (state : State)
    (tree : Tree) : (leave state role kind tree).scope = state.scope.pop := by
  cases role with
  | part context => cases kind <;> first | rfl | cases opens
  | _ => cases opens

/-- Leaving a node that opened no frame may declare what the node exposes. -/
theorem extends_leave {role : Role} {kind : NodeKind} (plain : role.opens kind = false)
    (state : State) (children : List Tree) :
    Extends (· ∈ role.exposes (.node kind children)) state.scope
      (leave state role kind (.node kind children)).scope := by
  cases role with
  | part context =>
    rw [leave]
    unfold leavePart
    split
    · cases plain
    · cases plain
    · cases plain
    · exact Scope.extends_declareStruct _ _
    · exact (extends_declareBlock _ _ _).mono fun name own => List.mem_append_left _ own
    · exact .refl _ _
  | declarator type typeIsArray =>
    change Extends _ _ (declareVariable _ _ _ _)
    unfold declareVariable
    split
    · rename_i ty name found
      exact Scope.extends_declare _
        (List.mem_append_left _ (Tree.mem_ownNames_of_identifier? found))
    · exact .refl _ _
  | argument expectsFloat => exact .refl _ _
  | body => exact .refl _ _

/-! ### The whole walk -/

mutual

/-- A visit declares in the innermost frame what its tree exposes, and leaves
the other frames as they are. -/
theorem extends_visit (role : Role) (state : State) :
    ∀ tree : Tree,
      Extends (· ∈ role.exposes tree) state.scope (visit role tree state).scope
  | .leaf token => by
    rw [scope_visit_leaf]
    exact .refl _ _
  | .node kind children => by
    have enters := entersScope_enter state role kind children
    rw [visit]
    generalize enter state role kind (.node kind children) = entered at enters
    obtain ⟨entry, state'⟩ := entered
    cases entry with
    | skip context =>
      have same : state'.scope = state.scope := enters
      change Extends _ _ state'.scope
      rw [same]
      exact .refl _ _
    | descend context siblings =>
      obtain ⟨isDefinition, entered⟩ := enters
      have below := extends_visitAll siblings state' children
      change Extends _ _ (leave _ role kind (.node kind children)).scope
      cases opens : role.opens kind with
      | true =>
        rw [scope_leave opens]
        rw [opens, if_pos rfl] at entered
        have inside :=
          (entered.mono fun _ _ => trivial).trans (below.mono fun _ _ => trivial)
        exact inside.pop
      | false =>
        have other : siblings ≠ .definition := by
          intro same
          rw [(isDefinition same).2] at opens
          cases opens
        rw [opens, if_neg (by simp)] at entered
        refine .trans (entered.mono fun name named => absurd named.1 other)
          (.trans ?_ (extends_leave opens _ _))
        refine below.mono fun name ⟨child, member, own⟩ => mem_exposes_of_child opens ?_
        rw [exposes_role other] at own
        exact Tree.mem_outerNamesAll.2 ⟨child, member, own⟩

theorem extends_visitAll (siblings : Siblings) (state : State) :
    ∀ trees : List Tree,
      Extends (fun name => ∃ tree ∈ trees, name ∈ (siblings.role tree).exposes tree) state.scope
        (visitAll siblings trees state).scope
  | [] => .refl _ _
  | tree :: trees => by
    have first := extends_visit (siblings.role tree) state tree
    have others :=
      extends_visitAll (siblings.after tree (visit (siblings.role tree) tree state)).1
        (siblings.after tree (visit (siblings.role tree) tree state)).2 trees
    rw [scope_after] at others
    rw [visitAll]
    refine .trans (first.mono ?_) (others.mono ?_)
    · exact fun name own => ⟨tree, List.mem_cons_self, own⟩
    · rintro name ⟨child, member, own⟩
      rw [exposes_role_after] at own
      exact ⟨child, List.mem_cons_of_mem _ member, own⟩

end

/-- A block, a loop or a function leaves the frames as they were. -/
theorem frames_visit {kind : NodeKind} (opens : kind.opensFrame = true) (context : Bool)
    (children : List Tree) (state : State) :
    (visit (.part context) (.node kind children) state).scope.frames =
      state.scope.frames := by
  obtain ⟨new, frames, named⟩ :=
    (extends_visit (.part context) state (.node kind children)).frames
  have none : new = [] := by
    refine List.eq_nil_iff_forall_not_mem.2 fun declared member => ?_
    have exposed := named declared member
    simp [Role.exposes, Tree.outerNames, opens] at exposed
  rw [frames, none]
  cases state.scope.frames <;> rfl

/-- Between siblings only what siblings expose is declared. -/
theorem extends_of_mem_siblingVisits {siblings : Siblings} {trees : List Tree}
    {state : State} {v : Visit} (listed : v ∈ siblingVisits siblings trees state) :
    Extends
      (fun name => ∃ w ∈ siblingVisits siblings trees state, name ∈ w.role.exposes w.tree)
      state.scope v.state.scope := by
  induction trees generalizing siblings state with
  | nil => cases listed
  | cons tree trees ih =>
    have first := extends_visit (siblings.role tree) state tree
    have kept := scope_after siblings tree (visit (siblings.role tree) tree state)
    rw [siblingVisits] at listed ⊢
    generalize siblings.after tree (visit (siblings.role tree) tree state) = following
      at listed kept ⊢
    rcases List.mem_cons.1 listed with rfl | later
    · exact .refl _ _
    · have others := ih later
      rw [kept] at others
      refine .trans (first.mono ?_) (others.mono ?_)
      · exact fun name own => ⟨_, List.mem_cons_self, own⟩
      · exact fun name ⟨w, member, own⟩ => ⟨w, List.mem_cons_of_mem _ member, own⟩

namespace Visit

/-- A name is declared for what is below a node: it is a parameter of the
definition, or a child exposes it. -/
inductive Declares (name : String) : Visit → Prop
  | parameter {role : Role} {children : List Tree} {state : State}
      (listed : name ∈ Tree.parameterNames children) :
      Declares name ⟨role, .node .functionDefinition children, state⟩
  | child {v below : Visit} (step : v.Step below) (exposed : name ∈ below.role.exposes below.tree) :
      Declares name v

/-- Below a node there is in scope what is in scope at the node, and what the
node declares. -/
theorem Step.mem_frames {v below : Visit} (step : v.Step below) {frame : Frame}
    (listed : frame ∈ below.state.scope.frames) {declared : Variable}
    (member : declared ∈ frame) :
    (∃ frame ∈ v.state.scope.frames, declared ∈ frame) ∨ v.Declares declared.name := by
  cases step with
  | @child role kind children state state' context siblings below entered visited =>
    have enters := entersScope_enter state role kind children
    rw [entered] at enters
    obtain ⟨isDefinition, inside⟩ := enters
    rcases (extends_of_mem_siblingVisits visited).mem_frames listed member with
      ⟨frame, listed, member⟩ | ⟨w, sibling, exposed⟩
    · rcases inside.mem_frames listed member with ⟨frame, listed, member⟩ |
        ⟨same, parameter⟩
      · refine Or.inl ⟨frame, ?_, member⟩
        split at listed
        · rw [Scope.frames_push, List.mem_cons] at listed
          rcases listed with rfl | listed
          · cases member
          · exact listed
        · exact listed
      · obtain ⟨rfl, -⟩ := isDefinition same
        exact Or.inr (.parameter parameter)
    · exact Or.inr (.child (.child entered sibling) exposed)

/-- Along the walk, what is in scope at a visit was in scope at the start, or is
declared by a node above. -/
theorem Reaches.mem_frames {root v : Visit} (reached : root.Reaches v) {frame : Frame}
    (listed : frame ∈ v.state.scope.frames) {declared : Variable}
    (member : declared ∈ frame) :
    (∃ frame ∈ root.state.scope.frames, declared ∈ frame) ∨
      ∃ u, root.Reaches u ∧ Relation.TransGen Step u v ∧ u.Declares declared.name := by
  induction reached generalizing frame with
  | refl => exact Or.inl ⟨frame, listed, member⟩
  | @tail above v reached step ih =>
    rcases step.mem_frames listed member with ⟨frame, listed, member⟩ | here
    · rcases ih listed member with first | ⟨u, reaches, leads, declares⟩
      · exact Or.inl first
      · exact Or.inr ⟨u, reaches, leads.tail step, declares⟩
    · exact Or.inr ⟨above, reached, .single step, here⟩

end Visit

/-- The walk keeps its scopes apart. A visit leaves the depth and all frames but
the innermost as they were, and adds overloads of a name only behind the known
ones. A block, a loop or a function leaves all frames as they were, and the
whole walk ends with the global frame alone. A variable that is in scope at a visit
is builtin, or a node around declares it: as a parameter, or in a child outside
of the blocks, loops and functions of that child. -/
theorem visit_keeps_frames (catalog : Catalog) (root : Tree) :
    (∀ (role : Role) (tree : Tree) (state : State),
      let after := (visit role tree state).scope
      after.depth = state.scope.depth ∧ after.frames.tail = state.scope.frames.tail ∧
        ∀ name, state.scope.functions.filter (·.name = name) <+:
          after.functions.filter (·.name = name)) ∧
    (∀ (context : Bool) (kind : NodeKind) (children : List Tree) (state : State),
      kind = .compoundStatement ∨ kind = .forStatement ∨ kind = .functionDefinition →
        (visit (.part context) (.node kind children) state).scope.frames =
          state.scope.frames) ∧
    (visit (.part false) root (start catalog)).scope.depth = 1 ∧
    ∀ v : Visit, (Visit.ofTree catalog root).Reaches v → ∀ name declared,
      v.state.scope.lookup? name = some declared →
        declared.name = name ∧ (declared ∈ Scope.builtinFrame ∨
          ∃ u, (Visit.ofTree catalog root).Reaches u ∧ Relation.TransGen Visit.Step u v ∧
            u.Declares name) := by
  refine ⟨fun role tree state => ?_, fun context kind children state isKind => ?_, ?_, ?_⟩
  · have effect := extends_visit role state tree
    exact ⟨effect.depth_eq, effect.tail_frames, effect.overloads⟩
  · refine frames_visit ?_ context children state
    rcases isKind with rfl | rfl | rfl <;> rfl
  · exact (extends_visit (.part false) (start catalog) root).depth_eq
  · intro v reached name declared found
    obtain ⟨frame, listed, own⟩ := List.exists_of_findSome?_eq_some found
    have named : declared.name = name := by simpa using List.find?_some own
    refine ⟨named, ?_⟩
    rcases reached.mem_frames listed (List.mem_of_find?_eq_some own) with
      ⟨frame, listed, member⟩ | above
    · obtain rfl := List.mem_singleton.1 listed
      exact Or.inl member
    · exact Or.inr (named ▸ above)

end Plan

end ShaderDialect
