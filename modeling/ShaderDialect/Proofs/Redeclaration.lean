import ShaderDialect.Plan.Declared
import ShaderDialect.Proofs.Lossless

/-!
# Declarations of builtins

A definition or a declaration redeclares a builtin when its prototype is one
of the catalog. In a grammatical tree every prototype can be read, so that
this is all that keeps the walk from going on below a node.
-/

namespace ShaderDialect

namespace Form

/-- Whether every list of a form has a part of the given one. -/
def requires : Form → Form → Bool
  | .seq first second, part => first.requires part || second.requires part
  | .either one other, part => one.requires part && other.requires part
  | form, part => form = part

theorem exists_part_of_requires {part form : Form} (required : form.requires part)
    {trees : List Tree} (h : form.Matches trees) :
    ∃ inside ⊆ trees, part.Matches inside := by
  induction form generalizing trees with
  | seq first second ihFirst ihSecond =>
    obtain ⟨before, after, rfl, left, right⟩ := h
    rcases Bool.or_eq_true_iff.1 required with required | required
    · obtain ⟨inside, within, matched⟩ := ihFirst required left
      exact ⟨inside, List.subset_append_of_subset_left _ within, matched⟩
    · obtain ⟨inside, within, matched⟩ := ihSecond required right
      exact ⟨inside, List.subset_append_of_subset_right _ within, matched⟩
  | either one other ihOne ihOther =>
    obtain ⟨requiredOne, requiredOther⟩ := Bool.and_eq_true_iff.1 required
    rcases h with h | h
    · exact ihOne requiredOne h
    · exact ihOther requiredOther h
  | _ =>
    rw [← of_decide_eq_true required]
    exact ⟨trees, List.Subset.refl _, h⟩

end Form

namespace Tree

mutual

theorem firstToken?_eq : ∀ tree : Tree, tree.firstToken? = tree.leaves.head?
  | .leaf _ => rfl
  | .node _ children => firstTokenAll?_eq children

theorem firstTokenAll?_eq : ∀ trees : List Tree,
    firstTokenAll? trees = (leavesAll trees).head?
  | [] => rfl
  | tree :: trees => by
    rw [firstTokenAll?, firstToken?_eq tree, firstTokenAll?_eq trees, leavesAll_cons,
      List.head?_append]

end

mutual

theorem lastToken?_eq : ∀ tree : Tree, tree.lastToken? = tree.leaves.getLast?
  | .leaf _ => rfl
  | .node _ children => lastTokenAll?_eq children

theorem lastTokenAll?_eq : ∀ trees : List Tree,
    lastTokenAll? trees = (leavesAll trees).getLast?
  | [] => rfl
  | tree :: trees => by
    rw [lastTokenAll?, lastToken?_eq tree, lastTokenAll?_eq trees, leavesAll_cons,
      List.getLast?_append]

end

theorem exists_children_of_hasKind {tree : Tree} {kind : NodeKind}
    (h : tree.hasKind kind) :
    ∃ children, tree = .node kind children := by
  cases tree with
  | leaf token => simp [hasKind, kind?] at h
  | node kind' children =>
    have same : kind' = kind := by simpa [hasKind, kind?] using h
    exact ⟨children, by rw [same]⟩

theorem Grammatical.exists_findChild? {kind : NodeKind} {children : List Tree}
    (h : (Tree.node kind children).Grammatical) (required : NodeKind)
    (needed : kind.form.requires (.node [required])) :
    ∃ below, (Tree.node kind children).findChild? required = some (.node required below) ∧
      (Tree.node required below).Grammatical := by
  cases h with
  | node form grammatical =>
    obtain ⟨_, within, kind', below, rfl, listed⟩ :=
      Form.exists_part_of_requires needed form
    have found : ((Tree.node kind children).findChild? required).isSome :=
      List.find?_isSome.2 ⟨_, within List.mem_cons_self, by simpa [hasKind, kind?] using listed⟩
    obtain ⟨child, found⟩ := Option.isSome_iff_exists.1 found
    have isKind := List.find?_some found
    obtain ⟨below, rfl⟩ := exists_children_of_hasKind isKind
    exact ⟨below, found, grammatical _ (List.mem_of_find?_eq_some found)⟩

theorem Grammatical.exists_identifier? {kind : NodeKind} {children : List Tree}
    (h : (Tree.node kind children).Grammatical)
    (needed : kind.form.requires (.token .identifier)) :
    ∃ token, (Tree.node kind children).identifier? = some token := by
  cases h with
  | node form grammatical =>
    obtain ⟨_, within, token, rfl, isIdentifier⟩ :=
      Form.exists_part_of_requires needed form
    refine Option.isSome_iff_exists.1 (List.find?_isSome.2 ⟨token, ?_, isIdentifier⟩)
    exact List.mem_filterMap.2 ⟨_, within List.mem_cons_self, rfl⟩

theorem Grammatical.exists_firstToken? {kind : NodeKind} {children : List Tree}
    (h : (Tree.node kind children).Grammatical) (inside : kind ≠ .unit) :
    ∃ token, (Tree.node kind children).firstToken? = some token := by
  rw [firstToken?_eq]
  have nonempty := h.leaves_ne_nil (by simpa [kind?] using inside)
  exact ⟨_, List.head?_eq_some_head nonempty⟩

end Tree

theorem exists_mapM {α β : Type} {f : α → Option β} {items : List α}
    (h : ∀ item ∈ items, ∃ value, f item = some value) :
    ∃ values, items.mapM f = some values := by
  induction items with
  | nil => exact ⟨[], rfl⟩
  | cons item items ih =>
    obtain ⟨value, first⟩ := h item List.mem_cons_self
    obtain ⟨values, others⟩ :=
      ih fun item member => h item (List.mem_cons_of_mem _ member)
    exact ⟨value :: values, by simp [first, others]⟩

/-- Every parameter of a grammatical tree can be read. -/
theorem Parameter.exists_ofTree? {tree : Tree} (h : tree.Grammatical)
    (isParameter : tree.hasKind .parameterDeclaration) :
    ∃ param, ofTree? tree = some param := by
  obtain ⟨children, rfl⟩ := Tree.exists_children_of_hasKind isParameter
  obtain ⟨specifier, found, grammatical⟩ := h.exists_findChild? .typeSpecifier (by decide)
  obtain ⟨token, first⟩ := grammatical.exists_firstToken? (by decide)
  unfold ofTree?
  rw [found]
  simp [first]

/-- Every prototype of a grammatical tree can be read. -/
theorem Prototype.exists_ofTree? {tree : Tree} (h : tree.Grammatical)
    (isPrototype : tree.hasKind .functionPrototype) :
    ∃ prototype, ofTree? tree = some prototype := by
  obtain ⟨children, rfl⟩ := Tree.exists_children_of_hasKind isPrototype
  obtain ⟨name, named⟩ := h.exists_identifier? (by decide)
  obtain ⟨type, typed, typeGrammatical⟩ :=
    h.exists_findChild? .fullySpecifiedType (by decide)
  obtain ⟨specifier, specified, -⟩ :=
    typeGrammatical.exists_findChild? .typeSpecifier (by decide)
  obtain ⟨params, read⟩ : ∃ params,
    ((Tree.node .functionPrototype children).children.filter
      (·.hasKind .parameterDeclaration)).mapM Parameter.ofTree? = some params := by
    refine exists_mapM fun param member => ?_
    obtain ⟨listed, isParameter⟩ := List.mem_filter.1 member
    exact Parameter.exists_ofTree? (h.child param listed) isParameter
  unfold ofTree?
  rw [named, typed]
  simp [specified, read]

/-- The prototype of a definition or declaration, as far as it has one. -/
def Tree.prototype? (tree : Tree) : Option Prototype :=
  (tree.findChild? .functionPrototype).bind Prototype.ofTree?

/-- Whether a node is a definition or a declaration of a builtin. -/
def Tree.redeclares (catalog : Catalog) (tree : Tree) : Bool :=
  (tree.hasKind .functionDefinition || tree.hasKind .declaration) &&
    tree.prototype?.any (·.isBuiltin catalog)

/-- A definition or a declaration with a prototype that has the name, the
spelling of the result type and the spellings of the parameter types of an
overload of the catalog, where no parameter is an array. -/
def Tree.Redeclares (catalog : Catalog) (tree : Tree) : Prop :=
  (tree.kind? = some .functionDefinition ∨ tree.kind? = some .declaration) ∧
    ∃ child prototype signature,
      tree.findChild? .functionPrototype = some child ∧
      Prototype.ofTree? child = some prototype ∧
      signature ∈ catalog.signatures ∧ signature.name = prototype.name ∧
      signature.result.name = prototype.result ∧
      signature.params.map Ty.name = prototype.params.map Parameter.typeText ∧
      ∀ param ∈ prototype.params, param.isArray = false

theorem Prototype.matchesParams_iff {types : List Ty} {params : List Parameter} :
    matchesParams types params ↔
      types.map Ty.name = params.map Parameter.typeText ∧
        ∀ param ∈ params, param.isArray = false := by
  induction types generalizing params with
  | nil => cases params <;> simp [matchesParams]
  | cons ty types ih =>
    cases params with
    | nil => simp [matchesParams]
    | cons param params =>
      simp [matchesParams, ih]
      grind

theorem Tree.redeclares_iff {catalog : Catalog} {tree : Tree} :
    tree.redeclares catalog ↔ tree.Redeclares catalog := by
  unfold redeclares Redeclares prototype?
  rw [Bool.and_eq_true_iff, Bool.or_eq_true_iff]
  refine and_congr (by simp [hasKind]) ?_
  rw [Option.any_eq_true]
  simp only [Prototype.isBuiltin, Option.bind_eq_some_iff, List.any_eq_true,
    Catalog.overloads_eq_filter, List.mem_filter, Bool.and_eq_true, decide_eq_true_eq,
    Prototype.matchesParams_iff]
  grind

theorem Tree.redeclares_eq_false {kind : NodeKind}
    (ordinary : kind ∉ [NodeKind.functionDefinition, .declaration]) (catalog : Catalog)
    (children : List Tree) : (Tree.node kind children).redeclares catalog = false := by
  simp only [List.mem_cons, List.not_mem_nil, or_false, not_or] at ordinary
  simp [redeclares, hasKind, kind?, ordinary]

/-- The prototype of a definition or a declaration that is kept is that of no
builtin. -/
theorem Tree.isBuiltin_eq_false {catalog : Catalog} {tree : Tree}
    (isKind : tree.kind? = some .functionDefinition ∨ tree.kind? = some .declaration)
    (kept : tree.redeclares catalog = false) {prototype : Prototype}
    (read : tree.prototype? = some prototype) : prototype.isBuiltin catalog = false := by
  rw [redeclares, read, Option.any_some, Bool.and_eq_false_iff] at kept
  exact kept.resolve_left (by rcases isKind with isKind | isKind <;>
    simp [hasKind, isKind])

end ShaderDialect
