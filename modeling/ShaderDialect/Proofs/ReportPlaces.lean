import ShaderDialect.Proofs.Diagnostics
import ShaderDialect.Proofs.Parameters

/-!
# Where a walk reports

A walk passes over redeclared builtins, and what it looks at outside of them
holds none: definitions and declarations stand in no expression, type or block.
So nothing is reported at a token that is deleted, however often the rest is
looked at. What is shown are the reports of the walk, each pair of a position
and a message where it first comes up.
-/

namespace ShaderDialect

/-! ### Tokens outside of redeclared builtins -/

namespace Tree

mutual

/-- The tokens of a tree that stand in no redeclared builtin. -/
def kept (catalog : Catalog) : Tree → List Token
  | .leaf token => [token]
  | .node kind children =>
    if (Tree.node kind children).redeclares catalog then [] else keptAll catalog children

def keptAll (catalog : Catalog) : List Tree → List Token
  | [] => []
  | tree :: trees => kept catalog tree ++ keptAll catalog trees

end

mutual

theorem kept_subset (catalog : Catalog) : ∀ tree : Tree, tree.kept catalog ⊆ tree.leaves
  | .leaf _ => List.Subset.refl _
  | .node kind children => by
    rw [kept]
    split
    · exact List.nil_subset _
    · exact keptAll_subset catalog children

theorem keptAll_subset (catalog : Catalog) :
    ∀ trees : List Tree, keptAll catalog trees ⊆ leavesAll trees
  | [] => List.Subset.refl _
  | tree :: trees => by
    rw [keptAll, leavesAll_cons]
    exact List.append_subset.2 ⟨List.subset_append_of_subset_left _ (kept_subset catalog tree),
      List.subset_append_of_subset_right _ (keptAll_subset catalog trees)⟩

end

theorem kept_subset_keptAll {catalog : Catalog} {tree : Tree} {trees : List Tree}
    (member : tree ∈ trees) : tree.kept catalog ⊆ keptAll catalog trees := by
  induction trees with
  | nil => cases member
  | cons first trees ih =>
    rw [keptAll]
    rcases List.mem_cons.1 member with rfl | later
    · exact List.subset_append_left _ _
    · exact List.subset_append_of_subset_right _ (ih later)

theorem keptAll_eq_leavesAll {catalog : Catalog} {trees : List Tree}
    (h : ∀ tree ∈ trees, tree.kept catalog = tree.leaves) :
    keptAll catalog trees = leavesAll trees := by
  induction trees with
  | nil => rfl
  | cons tree trees ih =>
    obtain ⟨here, behind⟩ := List.forall_mem_cons.1 h
    rw [keptAll, leavesAll_cons, here, ih behind]

/-- A tree that is no definition or declaration, and of which the parts are
types and expressions, keeps all its tokens. -/
theorem kept_eq_leaves {catalog : Catalog} {tree : Tree} (h : tree.Grammatical)
    (listed : ∀ kind, tree.kind? = some kind →
      kind ∉ [NodeKind.functionDefinition, .declaration] ∧
      kind.form.kinds ⊆ NodeKind.typeKinds) :
    tree.kept catalog = tree.leaves := by
  induction h with
  | leaf token => rfl
  | @node kind children form below ih =>
    obtain ⟨ordinary, parts⟩ := listed kind rfl
    rw [kept, redeclares_eq_false ordinary]
    refine keptAll_eq_leavesAll fun child hangs => ih child hangs fun kind' isKind => ?_
    have mentioned := Form.mentions_of_mem form hangs
    cases child with
    | leaf token => cases isKind
    | node kind'' grandchildren =>
      cases isKind
      have own := parts mentioned
      refine ⟨fun outer => ?_, NodeKind.kinds_subset_typeKinds own⟩
      revert own
      rcases List.mem_pair.1 outer with rfl | rfl <;> decide

end Tree

/-! ### What is kept is not deleted -/

namespace Tree

section Places

variable {tokens : List Token} {parent : Option Nat} {next : Nat} {place : Place}

theorem leaves_child_subset (kind : NodeKind) (children : List Tree)
    (inside : (Tree.node kind children).leaves ⊆ tokens) :
    ∀ child ∈ children, child.leaves ⊆ tokens :=
  fun _ hangs => List.Subset.trans (leaves_subset hangs) inside

/-- The tokens of a node in a tree are tokens of the tree. -/
theorem leavesAll_subset_of_places {tree : Tree}
    (member : place ∈ tree.places parent next) :
    leavesAll place.children ⊆ tree.leaves :=
  inherit_places (P := (·.leaves ⊆ tree.leaves)) leaves_child_subset parent next tree
    (List.Subset.refl _) place member

theorem leavesAll_subset_of_placesAll {trees : List Tree}
    (member : place ∈ placesAll parent next trees) :
    leavesAll place.children ⊆ leavesAll trees :=
  inherit_placesAll (P := (·.leaves ⊆ leavesAll trees)) leaves_child_subset parent next trees
    (fun _ hangs => leaves_subset hangs) place member

end Places

mutual

/-- A kept token is none of a redeclared builtin, where no two tokens have one
number. -/
theorem not_deleted_of_kept {catalog : Catalog} (parent : Option Nat) (next : Nat)
    {token : Token}
    {text : String} : ∀ {tree : Tree}, (tree.leaves.map Token.index).Nodup →
      token ∈ tree.kept catalog → ¬ Plan.Deleted catalog (tree.places parent next) token.index text
  | .leaf _, _, _ => by
    rintro ⟨outer, member, -⟩
    cases member
  | .node kind children, once, listed => by
    rw [kept] at listed
    split at listed
    · cases listed
    · rename_i stays
      rintro ⟨outer, member, redeclares, deleted⟩
      rcases List.mem_append.1 member with below | own
      · exact not_deletedAll_of_kept _ next once listed ⟨outer, below, redeclares, deleted⟩
      · rw [List.mem_singleton.1 own] at redeclares
        exact stays redeclares

theorem not_deletedAll_of_kept {catalog : Catalog} (parent : Option Nat) (next : Nat)
    {token : Token}
    {text : String} : ∀ {trees : List Tree}, ((leavesAll trees).map Token.index).Nodup →
      token ∈ keptAll catalog trees →
        ¬ Plan.Deleted catalog (placesAll parent next trees) token.index text
  | [], _, listed => by cases listed
  | tree :: trees, once, listed => by
    rw [leavesAll_cons, List.map_append] at once
    obtain ⟨first, others, apart⟩ := List.nodup_append.1 once
    rw [placesAll, Plan.deleted_append]
    rw [keptAll, List.mem_append] at listed
    rintro (inside | inside) <;> rcases listed with listed | listed
    · exact not_deleted_of_kept parent next first listed inside
    · obtain ⟨outer, member, -, deleted, -⟩ := inside
      exact apart _ (List.map_subset _ (leavesAll_subset_of_places member) deleted)
        _ (List.mem_map_of_mem (keptAll_subset catalog trees listed)) rfl
    · obtain ⟨outer, member, -, deleted, -⟩ := inside
      exact apart _ (List.mem_map_of_mem (kept_subset catalog tree listed))
        _ (List.map_subset _ (leavesAll_subset_of_placesAll member) deleted) rfl
    · exact not_deletedAll_of_kept parent _ others listed inside

end

end Tree

/-! ### The walk reports at kept tokens -/

namespace Plan

theorem kept_of_hasKind (catalog : Catalog) {tree : Tree} (h : tree.Grammatical)
    {kind : NodeKind} (isKind : tree.hasKind kind)
    (ordinary : kind ∉ [NodeKind.functionDefinition, .declaration])
    (parts : kind.form.kinds ⊆ NodeKind.typeKinds) : tree.kept catalog = tree.leaves := by
  obtain ⟨children, rfl⟩ := Tree.exists_children_of_hasKind isKind
  refine Tree.kept_eq_leaves h fun kind' isKind' => ?_
  cases isKind'
  exact ⟨ordinary, parts⟩

section Kept

variable (catalog : Catalog) {kind : NodeKind} {children : List Tree}

/-- The prototype of a definition is kept with it. -/
theorem reports_kept_definition (h : (Tree.node .functionDefinition children).Grammatical)
    (state : State) (context : Bool) :
    Reports (Tree.keptAll catalog children) state.findings
      (enterDefinition state (.node .functionDefinition children) context).2.findings := by
  unfold enterDefinition
  split
  · exact .refl _
  · rename_i prototype read
    obtain ⟨child, found, read⟩ := Option.bind_eq_some_iff.1 read
    split
    · exact .refl _
    · refine reports_declareParameters (fun param member => ?_) _ _
      obtain ⟨token, inside, starts⟩ := Prototype.mem_leaves_of_ofTree? read member
      have hangs := List.mem_of_find?_eq_some found
      have isPrototype := List.find?_some found
      rw [← kept_of_hasKind catalog (h.child child hangs) isPrototype (by decide)
        (NodeKind.kinds_subset_typeKinds (by decide))] at inside
      exact ⟨token, Tree.kept_subset_keptAll hangs inside, starts⟩

/-- What is kept of a node that is no redeclared builtin is kept of its
children. -/
theorem keptAll_of_hasKind (h : (Tree.node kind children).Grammatical)
    (ordinary : kind ∉ [NodeKind.functionDefinition, .declaration])
    (parts : kind.form.kinds ⊆ NodeKind.typeKinds) :
    Tree.keptAll catalog children = (Tree.node kind children).leaves := by
  rw [← kept_of_hasKind catalog h (by simp [Tree.hasKind, Tree.kind?]) ordinary parts,
    Tree.kept, Tree.redeclares_eq_false ordinary]
  rfl

theorem reports_kept_enter {role : Role} (fits : role.Fits (.node kind children))
    (h : (Tree.node kind children).Grammatical) (state : State) :
    Reports (Tree.keptAll catalog children) state.findings
      (enter state role kind (.node kind children)).2.findings := by
  have assignment : kind = .assignmentExpression → ∀ expectsFloat,
      Reports (Tree.keptAll catalog children) state.findings
        (setsFloat state (.node kind children) expectsFloat).2.findings := by
    rintro rfl expectsFloat
    rw [keptAll_of_hasKind catalog h (by decide) (NodeKind.kinds_subset_typeKinds (by decide))]
    exact reports_setsFloat state _ expectsFloat
  cases role with
  | part context =>
    cases kind
    case assignmentExpression => exact assignment rfl false
    case functionDefinition => exact reports_kept_definition catalog h state context
    case declaration => exact reports_enterDeclaration state _ context
    all_goals exact .refl _
  | argument expectsFloat =>
    exact assignment (by simpa [Role.Fits, Tree.hasKind, Tree.kind?] using fits) expectsFloat
  | declarator type typeIsArray => exact .refl _
  | body => exact .refl _

theorem reports_kept_leave (role : Role) (h : (Tree.node kind children).Grammatical)
    (state : State) :
    Reports (Tree.keptAll catalog children) state.findings
      (leave state role kind (.node kind children)).findings := by
  cases role with
  | part context =>
    cases kind
    case structSpecifier =>
      rw [keptAll_of_hasKind catalog h (by decide) (NodeKind.kinds_subset_typeKinds (by decide))]
      exact reports_structType state.scope _ state.findings
    case interfaceBlock =>
      rw [keptAll_of_hasKind catalog h (by decide) (by decide)]
      exact reports_declareBlock state.scope _ state.findings
    all_goals exact .refl _
  | argument expectsFloat => exact .refl _
  | declarator type typeIsArray => exact .refl _
  | body => exact .refl _

theorem reports_kept_after (siblings : Siblings) {child : Tree} (h : child.Grammatical)
    (state : State) :
    Reports (child.kept catalog) state.findings (siblings.after child state).2.findings := by
  by_cases isType : child.hasKind .fullySpecifiedType = true
  · rw [kept_of_hasKind catalog h isType (by decide) (NodeKind.kinds_subset_typeKinds (by decide))]
    exact reports_after siblings child state
  · have same : (siblings.after child state).2 = state := by
      cases siblings with
      | declarators type typeIsArray => simp [Siblings.after, isType]
      | _ => rfl
    rw [same]
    exact .refl _

end Kept

mutual

/-- A walk reports at the tokens that it keeps. -/
theorem reports_kept_visit {catalog : Catalog} {role : Role} :
    ∀ {tree : Tree} {state : State},
    role.Fits tree → tree.Grammatical → state.scope.catalog = catalog →
      Reports (tree.kept catalog) state.findings (visit role tree state).findings
  | .leaf token, state, _, _, _ => by
    unfold visit
    split
    · rw [findings_promote]
      exact .refl _
    · exact .refl _
  | .node kind children, state, fits, h, own => by
    rw [Tree.kept]
    split
    · rename_i redeclares
      obtain ⟨context, rfl⟩ := exists_part_of_redeclares fits redeclares
      unfold visit
      rw [enter_of_redeclares (own.symm ▸ redeclares)]
      exact .refl _
    · have entering := reports_kept_enter catalog fits h state
      have same := (logged_enter state role kind children).1.catalog.trans own
      unfold visit
      rcases shape : enter state role kind (.node kind children) with ⟨entry, state'⟩
      rw [shape] at entering same
      cases entry with
      | skip context => exact entering
      | descend context siblings =>
        exact (entering.trans (reports_kept_visitAll h.child same)).trans
          (reports_kept_leave catalog role h _)

theorem reports_kept_visitAll {catalog : Catalog} {siblings : Siblings} :
    ∀ {trees : List Tree} {state : State}, (∀ tree ∈ trees, tree.Grammatical) →
      state.scope.catalog = catalog →
        Reports (Tree.keptAll catalog trees) state.findings (visitAll siblings trees state).findings
  | [], state, _, _ => .refl _
  | tree :: trees, state, h, own => by
    obtain ⟨here, behind⟩ := List.forall_mem_cons.1 h
    have visited := logged_visit (siblings.role tree) tree state
    have moved := silent_after siblings tree (visit (siblings.role tree) tree state)
    have first := (reports_kept_visit (fits_role siblings tree) here own).trans
      (reports_kept_after catalog siblings here _)
    rw [Tree.keptAll, visitAll]
    exact (first.mono (List.subset_append_left _ _)).trans
      ((reports_kept_visitAll behind (moved.catalog.trans (visited.catalog.trans own))).mono
        (List.subset_append_right _ _))

end

end Plan

namespace SyntaxTree

section Shown

variable {source : String} {tree : SyntaxTree} (h : ofSource source = .ok tree)
    (catalog : Catalog)

include h

/-- Every report of the walk is at a token that stands in no redeclared
builtin. -/
theorem not_inRedeclared_of_report {finding : Finding}
    (reported : finding ∈ (Plan.ofTree catalog tree.root).findings.toList) :
    finding.token < tree.stream.lexemes.length ∧
    ¬ tree.InRedeclared catalog finding.token := by
  obtain ⟨grammatical, -, leaves, counted⟩ := ofSource_spec h
  have walked := @Plan.reports_kept_visit catalog (.part false) tree.root
    (Plan.start catalog) trivial grammatical rfl
  obtain ⟨more, same, arise⟩ := walked
  have all : (Plan.ofTree catalog tree.root).findings.toList = more := same
  obtain ⟨token, kept, own, -⟩ := arise finding (all ▸ reported)
  have once : (tree.root.leaves.map Token.index).Nodup := by
    rw [leaves, counted]
    exact List.nodup_range
  rw [← own]
  refine ⟨lt_of_leaf h (Tree.kept_subset catalog tree.root kept), fun inside => ?_⟩
  exact Tree.not_deleted_of_kept none 0 once kept ((deleted_iff h catalog).2 ⟨inside, rfl⟩)

theorem exists_lexeme {index : Nat} (inside : index < tree.stream.lexemes.length) :
    ∃ lexeme ∈ tree.stream.lexemes, lexeme.kind ≠ .finish ∧
      lexeme.position = tree.stream.positionOf index ∧ lexeme.index = index := by
  obtain ⟨-, -, -, counted⟩ := ofSource_spec h
  have member := List.getElem_mem inside
  refine ⟨_, member, ?_, (TokenStream.positionOf_eq inside).symm, ?_⟩
  · obtain ⟨_, _, _, scanned, -⟩ :=
      exists_scan_of_mem (ofSource_eq_ok h).1 (List.mem_map_of_mem member)
    exact Token.scan?_ne_finish scanned
  · have place : (tree.stream.tokens.map Token.index)[index]? = some index := by
      rw [counted, List.getElem?_range inside]
    simpa [TokenStream.tokens, inside] using place

end Shown

/-- The diagnostics of a plan are the reports of the walk in their order, each
where it first comes up and never again. Each is at a token that stands in no
redeclared builtin. In a text of less than four gigabytes no finding is hidden by
another. -/
theorem diagnostics_are_first_reports {source : String} {tree : SyntaxTree}
    (h : ofSource source = .ok tree) (catalog : Catalog) :
    tree.diagnose (Plan.ofTree catalog tree.root).findings =
      ((Plan.ofTree catalog tree.root).findings.toList.map fun finding =>
        Diagnostic.mk (tree.stream.positionOf finding.token) finding.problem.message).eraseDups ∧
    (tree.diagnose (Plan.ofTree catalog tree.root).findings).Nodup ∧
    (∀ diagnostic ∈ tree.diagnose (Plan.ofTree catalog tree.root).findings,
      ∃ lexeme ∈ tree.stream.lexemes, lexeme.kind ≠ .finish ∧
        lexeme.position = diagnostic.position ∧
        ¬ tree.InRedeclared catalog lexeme.index) ∧
    (byteSize source.toList < UInt32.size →
      tree.diagnose (Plan.ofTree catalog tree.root).findings =
        (Plan.ofTree catalog tree.root).findings.toList.eraseDups.map fun finding =>
          Diagnostic.mk (tree.stream.positionOf finding.token) finding.problem.message) := by
  have shown := diagnose_eq_eraseDups tree (Plan.ofTree catalog tree.root).findings
  rw [List.map_map] at shown
  refine ⟨shown, ?_, fun diagnostic member => ?_, fun small => ?_⟩
  · rw [shown]
    exact nodup_eraseDups _
  · rw [shown, List.mem_eraseDups] at member
    obtain ⟨finding, reported, rfl⟩ := List.mem_map.1 member
    obtain ⟨inside, outside⟩ := not_inRedeclared_of_report h catalog reported
    obtain ⟨lexeme, listed, kind, position, index⟩ := exists_lexeme h inside
    exact ⟨lexeme, listed, kind, position, index ▸ outside⟩
  · rw [diagnose_eq_map h small, List.map_map]
    rfl

/-- The member that is missing is looked up three times and so is the name, and
the name in the redeclared builtin never. -/
theorem diagnostics_are_first_reports_repeated : ∃ tree,
    ofSource "float sin(float x) \x7b return y; \x7d\nvoid main() \x7b vec2 v; v.z.x = (c); \x7d" =
      .ok tree ∧
    (Plan.ofTree Catalog.bundled tree.root).findings.toList.map Finding.token =
      [21, 21, 21, 26, 26, 26] ∧
    tree.diagnose (Plan.ofTree Catalog.bundled tree.root).findings =
      [⟨⟨2, 25⟩, "Swizzle error: component 'z' out of range for vec2"⟩,
        ⟨⟨2, 32⟩, "unresolved identifier 'c'"⟩] := by
  have read : (ofSource
      "float sin(float x) \x7b return y; \x7d\nvoid main() \x7b vec2 v; v.z.x = (c); \x7d"
      ).toOption.map (fun tree =>
        ((Plan.ofTree Catalog.bundled tree.root).findings.toList.map Finding.token,
          ((Plan.ofTree Catalog.bundled tree.root).findings.toList.map fun finding =>
            Diagnostic.mk (tree.stream.positionOf finding.token)
              finding.problem.message).eraseDups)) =
      some ([21, 21, 21, 26, 26, 26],
        [⟨⟨2, 25⟩, "Swizzle error: component 'z' out of range for vec2"⟩,
          ⟨⟨2, 32⟩, "unresolved identifier 'c'"⟩]) := by
    decide +kernel
  obtain ⟨tree, parsed, found⟩ := exists_of_map_toOption read
  obtain ⟨tokens, shown⟩ := Prod.mk.inj found
  exact ⟨tree, parsed, tokens,
    (diagnostics_are_first_reports parsed Catalog.bundled).1.trans shown⟩

end SyntaxTree

end ShaderDialect
