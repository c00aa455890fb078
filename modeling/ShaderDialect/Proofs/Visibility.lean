import ShaderDialect.Proofs.Writes

/-!
# The nodes that the walk sees

In a grammatical tree the walk passes over the redeclared builtins and enters
every other node that it comes to. So it stamps the nodes that stand below no
redeclared builtin, each once and in the order of their numbers.
-/

namespace ShaderDialect

namespace Plan

/-- Only arguments, declarators and bodies have a role of their own. -/
def Role.Fits : Role → Tree → Prop
  | .part _, _ => True
  | .argument _, tree => tree.hasKind .assignmentExpression
  | .declarator _ _, tree => tree.hasKind .declarator
  | .body, tree => tree.hasKind .compoundStatement

theorem fits_role (siblings : Siblings) (child : Tree) :
    (siblings.role child).Fits child := by
  unfold Siblings.role
  split
  · trivial
  · split_ifs with isArgument
    · exact isArgument
    · trivial
  · trivial
  · split_ifs with isDeclarator
    · exact isDeclarator
    · trivial
  · split_ifs with isBody
    · exact isBody
    · trivial

/-- Only assignment expressions, declarators and blocks can be other than ordinary
parts. -/
theorem exists_part_of_hasKind {role : Role} {tree : Tree} {kind : NodeKind}
    (fits : role.Fits tree) (isKind : tree.hasKind kind)
    (ordinary : kind ∉ [NodeKind.assignmentExpression, .declarator, .compoundStatement]) :
    ∃ context, role = .part context := by
  cases role with
  | part context => exact ⟨context, rfl⟩
  | _ => cases tree <;> simp_all [Role.Fits, Tree.hasKind, Tree.kind?]

theorem exists_part_of_redeclares {role : Role} {tree : Tree} {catalog : Catalog}
    (fits : role.Fits tree) (h : tree.redeclares catalog) :
    ∃ context, role = .part context := by
  rcases Bool.or_eq_true_iff.1 (Bool.and_eq_true_iff.1 h).1 with isKind | isKind
  · exact exists_part_of_hasKind fits isKind (by decide)
  · exact exists_part_of_hasKind fits isKind (by decide)

/-- What can be read and redeclares no builtin is entered. -/
theorem exists_descend {state : State} (role : Role) {kind : NodeKind}
    {children : List Tree} (grammatical : (Tree.node kind children).Grammatical)
    (h : (Tree.node kind children).redeclares state.scope.catalog = false) :
    ∃ context siblings, (enter state role kind (.node kind children)).1 =
      .descend context siblings := by
  cases role with
  | part context =>
    by_cases isDefinition : kind = .functionDefinition
    · subst isDefinition
      obtain ⟨below, found, readable⟩ :=
        grammatical.exists_findChild? .functionPrototype (by decide)
      obtain ⟨prototype, read⟩ :=
        Prototype.exists_ofTree? readable (by simp [Tree.hasKind, Tree.kind?])
      have kept :=
        Tree.isBuiltin_eq_false (Or.inl rfl) h (Option.bind_eq_some_iff.2 ⟨_, found, read⟩)
      simp [enter, enterPart, enterDefinition, found, read, kept]
    · by_cases isDeclaration : kind = .declaration
      · subst isDeclaration
        cases found : (Tree.node .declaration children).findChild? .functionPrototype with
        | none => simp [enter, enterPart, enterDeclaration, found]
        | some child =>
          have isPrototype := List.find?_some found
          obtain ⟨prototype, read⟩ := Prototype.exists_ofTree?
            (grammatical.child child (List.mem_of_find?_eq_some found)) isPrototype
          have kept :=
            Tree.isBuiltin_eq_false (Or.inr rfl) h (Option.bind_eq_some_iff.2 ⟨child, found, read⟩)
          simp [enter, enterPart, enterDeclaration, found, read, kept]
      · simp only [enter, enterPart]
        split <;> simp_all [enterAssignment]
  | argument expectsFloat => exact ⟨_, _, rfl⟩
  | declarator type typeIsArray => exact ⟨_, _, rfl⟩
  | body => exact ⟨_, _, rfl⟩

/-- The writes at a node: the deletion of a redeclared builtin, or else those
of its children, and then the node itself. -/
theorem writes_node_cases {role : Role} {kind : NodeKind} {children : List Tree}
    (state : State) (fits : role.Fits (.node kind children))
    (grammatical : (Tree.node kind children).Grammatical) :
    ((Tree.node kind children).redeclares state.scope.catalog = true ∧ ∃ context,
      writes role (.node kind children) state =
        deletions (.node kind children) ++
          [.stamp (state.next + Tree.sizeAll children) context]) ∨
    ((Tree.node kind children).redeclares state.scope.catalog = false ∧
      ∃ context siblings state', enter state role kind (.node kind children) =
          (.descend context siblings, state') ∧ Silent state state' ∧
        writes role (.node kind children) state =
          writesAll siblings children state' ++
            [.stamp (state.next + Tree.sizeAll children) context]) := by
  cases h : (Tree.node kind children).redeclares state.scope.catalog with
  | true =>
    left
    obtain ⟨context, rfl⟩ := exists_part_of_redeclares fits h
    refine ⟨rfl, context, ?_⟩
    simp [writes_node, enter_of_redeclares h, entryWrites, h, deleteTree, State.record]
  | false =>
    right
    have silent : Silent state (enter state role kind (.node kind children)).2 :=
      silent_enter fun _ _ => h
    have nothing : entryWrites role (.node kind children) state = [] := by
      cases role <;> simp [entryWrites, h]
    obtain ⟨context, siblings, descends⟩ := exists_descend role grammatical h
    rcases shape : enter state role kind (.node kind children) with ⟨entry, state'⟩
    rw [shape] at descends silent
    cases descends
    refine ⟨rfl, context, siblings, state', rfl, silent, ?_⟩
    have next : state'.next = state.next := silent.next
    simp only [writes_node, nothing, shape, next_visitAll, next, List.nil_append]

theorem after_uniform (siblings : Siblings) (tree : Tree) (state : State)
    (context : Bool) :
    (siblings.after tree state).1 = .uniform context ↔ siblings = .uniform context := by
  cases siblings with
  | declarators type typeIsArray =>
    simp only [Siblings.after]
    split
    · split <;> simp
    · simp
  | _ => simp [Siblings.after]

/-- The writes at siblings are those at the first and then those at the
others. -/
theorem exists_writesAll_cons (siblings : Siblings) (tree : Tree) (trees : List Tree)
    (state : State) :
    ∃ siblings' state',
      writesAll siblings (tree :: trees) state =
        writes (siblings.role tree) tree state ++ writesAll siblings' trees state' ∧
      state'.next = state.next + tree.size ∧ state'.scope.catalog = state.scope.catalog ∧
      ∀ context, siblings' = .uniform context ↔ siblings = .uniform context := by
  have visited := logged_visit (siblings.role tree) tree state
  have moved := silent_after siblings tree (visit (siblings.role tree) tree state)
  exact ⟨_, _, writesAll_cons .. , moved.next.trans (next_visit _ tree state),
    moved.catalog.trans visited.catalog, after_uniform siblings tree _⟩

/-! ### Stamped nodes -/

mutual

/-- The numbers of the nodes of a tree below no redeclared builtin. -/
def visible (catalog : Catalog) (next : Nat) : Tree → List Nat
  | .leaf _ => []
  | .node kind children =>
    (if (Tree.node kind children).redeclares catalog then []
      else visibleAll catalog next children) ++ [next + Tree.sizeAll children]

def visibleAll (catalog : Catalog) (next : Nat) : List Tree → List Nat
  | [] => []
  | tree :: trees =>
    visible catalog next tree ++ visibleAll catalog (next + tree.size) trees

end

theorem stamped_tokenWrites (role : Role) (token : Token) :
    stamped (tokenWrites role token) = [] := by
  unfold tokenWrites
  split
  · cases promoted? token <;> rfl
  · rfl

theorem stamped_deletions (tree : Tree) : stamped (deletions tree) = [] := by
  refine List.eq_nil_iff_forall_not_mem.2 fun node member => ?_
  obtain ⟨context, listed⟩ := mem_stamped.1 member
  unfold deletions at listed
  split at listed <;> simp at listed

mutual

/-- A visit stamps the visible nodes in order. -/
theorem stamped_writes {role : Role} :
    ∀ {tree : Tree} {state : State}, role.Fits tree → tree.Grammatical →
      stamped (writes role tree state) =
        visible state.scope.catalog state.next tree
  | .leaf token, state, _, _ => by
    rw [writes_leaf, stamped_tokenWrites, visible]
  | .node kind children, state, fits, grammatical => by
    rcases writes_node_cases state fits grammatical with
      ⟨redeclares, context, log⟩ | ⟨kept, context, siblings, state', -, silent, log⟩
    · rw [log, stamped_append, stamped_deletions, visible, if_pos redeclares]
      rfl
    · rw [log, stamped_append, stamped_writesAll grammatical.child, visible,
        if_neg (by simp [kept]), silent.next, silent.catalog]
      rfl

theorem stamped_writesAll {siblings : Siblings} :
    ∀ {trees : List Tree} {state : State}, (∀ tree ∈ trees, tree.Grammatical) →
      stamped (writesAll siblings trees state) =
        visibleAll state.scope.catalog state.next trees
  | [], state, _ => by rw [writesAll_nil, visibleAll]; rfl
  | tree :: trees, state, grammatical => by
    obtain ⟨siblings', state', log, next, catalog, -⟩ :=
      exists_writesAll_cons siblings tree trees state
    rw [log, stamped_append,
      stamped_writes (fits_role siblings tree) (grammatical tree List.mem_cons_self),
      stamped_writesAll fun tree member =>
        grammatical tree (List.mem_cons_of_mem _ member),
      next, catalog, visibleAll]

end

mutual

theorem visible_sublist (catalog : Catalog) (next : Nat) :
    ∀ tree : Tree, (visible catalog next tree).Sublist (List.range' next tree.size)
  | .leaf _ => List.Sublist.refl _
  | .node kind children => by
    rw [visible, Tree.size, ← List.range'_append_1]
    refine List.Sublist.append ?_ (List.Sublist.refl _)
    split
    · exact List.nil_sublist _
    · exact visibleAll_sublist catalog next children

theorem visibleAll_sublist (catalog : Catalog) (next : Nat) :
    ∀ trees : List Tree,
      (visibleAll catalog next trees).Sublist (List.range' next (Tree.sizeAll trees))
  | [] => List.Sublist.refl _
  | tree :: trees => by
    rw [visibleAll, Tree.sizeAll, ← List.range'_append_1]
    exact (visible_sublist catalog next tree).append (visibleAll_sublist catalog _ trees)

end

theorem nodup_visible (catalog : Catalog) (next : Nat) (tree : Tree) :
    (visible catalog next tree).Nodup :=
  (visible_sublist catalog next tree).nodup List.nodup_range'

/-- Whether a node is a redeclared builtin that a number stands below. The
nodes below a node have the numbers from its base up to its own. -/
def Hides (catalog : Catalog) (outer : Place) (id : Nat) : Prop :=
  outer.tree.redeclares catalog ∧ outer.base ≤ id ∧ id < outer.id

theorem Hides.range {catalog : Catalog} {parent : Option Nat} {next id : Nat}
    {tree : Tree} {outer : Place} (h : Hides catalog outer id)
    (member : outer ∈ tree.places parent next) :
    next ≤ id ∧ id < next + tree.size :=
  ⟨Nat.le_trans (Tree.base_places parent next tree outer member).1 h.2.1,
    Nat.lt_trans h.2.2 (Tree.lt_of_mem_places member)⟩

theorem Hides.rangeAll {catalog : Catalog} {parent : Option Nat} {next id : Nat}
    {trees : List Tree} {outer : Place} (h : Hides catalog outer id)
    (member : outer ∈ Tree.placesAll parent next trees) :
    next ≤ id ∧ id < next + Tree.sizeAll trees :=
  ⟨Nat.le_trans (Tree.base_placesAll parent next trees outer member).1 h.2.1,
    Nat.lt_trans h.2.2 (Tree.lt_of_mem_placesAll member)⟩

mutual

/-- A node is visible unless it stands below a redeclared builtin. -/
theorem mem_visible (catalog : Catalog) (parent : Option Nat) (next : Nat) :
    ∀ (tree : Tree) (id : Nat), id ∈ visible catalog next tree ↔
      (next ≤ id ∧ id < next + tree.size) ∧
        ∀ outer ∈ tree.places parent next, ¬ Hides catalog outer id
  | .leaf _, id =>
    ⟨fun member => absurd member List.not_mem_nil,
      fun ⟨range, _⟩ => absurd range.2 (Nat.not_lt.2 range.1)⟩
  | .node kind children, id => by
    have below :=
      mem_visibleAll catalog (some (next + Tree.sizeAll children)) next children id
    have inside : ∀ outer ∈ Tree.placesAll (some (next + Tree.sizeAll children)) next children,
        Hides catalog outer id → next ≤ id ∧ id < next + Tree.sizeAll children :=
      fun outer member hides => hides.rangeAll member
    have own : Hides catalog ⟨parent, next + Tree.sizeAll children, kind, children⟩ id ↔
        (Tree.node kind children).redeclares catalog ∧
          next ≤ id ∧ id < next + Tree.sizeAll children := by
      simp [Hides, Place.base, Place.tree]
    rw [visible, Tree.places, Tree.size, List.forall_mem_append,
      List.forall_mem_singleton, List.mem_append, List.mem_singleton, own]
    split <;> grind

theorem mem_visibleAll (catalog : Catalog) (parent : Option Nat) (next : Nat) :
    ∀ (trees : List Tree) (id : Nat), id ∈ visibleAll catalog next trees ↔
      (next ≤ id ∧ id < next + Tree.sizeAll trees) ∧
        ∀ outer ∈ Tree.placesAll parent next trees, ¬ Hides catalog outer id
  | [], id =>
    ⟨fun member => absurd member List.not_mem_nil,
      fun ⟨range, _⟩ => absurd range.2 (Nat.not_lt.2 range.1)⟩
  | tree :: trees, id => by
    have first := mem_visible catalog parent next tree id
    have later := mem_visibleAll catalog parent (next + tree.size) trees id
    have inFirst : ∀ outer ∈ tree.places parent next,
        Hides catalog outer id → next ≤ id ∧ id < next + tree.size :=
      fun outer member hides => hides.range member
    have inLater : ∀ outer ∈ Tree.placesAll parent (next + tree.size) trees,
        Hides catalog outer id →
          next + tree.size ≤ id ∧ id < next + tree.size + Tree.sizeAll trees :=
      fun outer member hides => hides.rangeAll member
    rw [visibleAll, Tree.placesAll, Tree.sizeAll, List.forall_mem_append, List.mem_append]
    grind

end

end Plan

end ShaderDialect
