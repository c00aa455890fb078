import ShaderDialect.Proofs.Scoping

/-!
# Names written behind a type

A parameter and a member of a struct are qualifiers, a type and names. Some
qualifiers are identifiers too, and a node does not tell them from names; its
children are cut at the type here, so that both can be spoken of.
-/

namespace ShaderDialect

namespace Tree

/-- The children before the type of a parameter or member. -/
def beforeType (tree : Tree) : List Tree :=
  tree.children.takeWhile (! ·.hasKind .typeSpecifier)

/-- The children behind the type of a parameter or member. -/
def behindType (tree : Tree) : List Tree :=
  (tree.children.dropWhile (! ·.hasKind .typeSpecifier)).tail

/-- The identifiers among some trees. -/
def namesAmong (trees : List Tree) : List String :=
  ((trees.filterMap token?).filter (·.kind = .identifier)).map Token.text

/-- The qualifiers of a parameter or member that are identifiers. -/
def qualifierNames (tree : Tree) : List String :=
  namesAmong tree.beforeType

/-- The names of a parameter or member. -/
def writtenNames (tree : Tree) : List String :=
  namesAmong tree.behindType

/-- The type that the type specifier of a parameter or member names. -/
def namedType? (scope : Scope) (tree : Tree) : Option Ty :=
  ((tree.findChild? .typeSpecifier).bind typeName?).bind scope.type?

theorem namesAmong_append (before after : List Tree) :
    namesAmong (before ++ after) = namesAmong before ++ namesAmong after := by
  simp [namesAmong]

theorem namesAmong_node (kind : NodeKind) (children trees : List Tree) :
    namesAmong (.node kind children :: trees) = namesAmong trees :=
  rfl

theorem admits_of_qualifiers {trees : List Tree} (h : Form.qualifiers.Matches trees)
    {token : Token}
    (member : token ∈ trees.filterMap token?) : TokenClass.qualifier.admits token := by
  obtain ⟨tree, listed, own⟩ := List.mem_filterMap.1 member
  cases tree with
  | node kind children => cases own
  | leaf token =>
    cases own
    obtain ⟨tokens, mentioned, admitted⟩ := Form.mentions_of_mem h listed
    obtain rfl : tokens = .qualifier := by
      simpa [Form.qualifiers, Form.tokens] using mentioned
    exact admitted

theorem filterMap_token?_nodes {kinds : List NodeKind} {trees : List Tree}
    (h : (Form.many (.node kinds)).Matches trees) : trees.filterMap token? = [] := by
  refine List.filterMap_eq_nil_iff.2 fun tree member => ?_
  have mentioned := Form.mentions_of_mem h member
  cases tree with
  | leaf token =>
    obtain ⟨tokens, listed, -⟩ := mentioned
    cases listed
  | node kind children => rfl

/-- Array dimensions hold no names of their own. -/
theorem namesAmong_arraySpecifiers {trees : List Tree}
    (h : Form.arraySpecifiers.Matches trees) :
    namesAmong trees = [] := by
  rw [namesAmong, filterMap_token?_nodes h]
  rfl

theorem head?_ownNames (tree : Tree) :
    tree.ownNames.head? = tree.identifier?.map Token.text := by
  rw [ownNames, List.head?_map, List.head?_filter, identifier?]

/-- A node that is cut at its type: qualifiers, the type and the rest. -/
structure CutAtType (tree : Tree) (specifier : Tree) : Prop where
  children : tree.children = tree.beforeType ++ specifier :: tree.behindType
  isType : specifier.hasKind .typeSpecifier
  qualifiers : Form.qualifiers.Matches tree.beforeType

namespace CutAtType

variable {tree specifier : Tree}

theorem hasKind_eq_false (h : tree.CutAtType specifier) {child : Tree}
    (member : child ∈ tree.beforeType)
    {kind : NodeKind} (other : kind ≠ .layoutQualifier) : child.hasKind kind = false := by
  have mentioned := Form.mentions_of_mem h.qualifiers member
  cases child with
  | leaf token => rfl
  | node own children =>
    have listed : own ∈ [NodeKind.layoutQualifier] := mentioned
    rw [hasKind, decide_eq_false_iff_not]
    rintro ⟨⟩
    exact other (List.mem_singleton.1 listed)

theorem findChild? (h : tree.CutAtType specifier) :
    tree.findChild? .typeSpecifier = some specifier := by
  have none : tree.beforeType.find? (·.hasKind .typeSpecifier) = none :=
    List.find?_eq_none.2 fun child member => by
      rw [h.hasKind_eq_false member (by decide)]
      exact Bool.false_ne_true
  rw [Tree.findChild?, h.children, List.find?_append, none, Option.none_or]
  exact List.find?_cons_of_pos h.isType

/-- The identifiers of the node are qualifiers and names. -/
theorem ownNames_eq (h : tree.CutAtType specifier) :
    tree.ownNames = tree.qualifierNames ++ tree.writtenNames := by
  obtain ⟨below, rfl⟩ := exists_children_of_hasKind h.isType
  change namesAmong tree.children = _
  rw [h.children, namesAmong_append, namesAmong_node]
  rfl

theorem isArray_eq (h : tree.CutAtType specifier) :
    tree.isArray = tree.behindType.any (·.hasKind .arraySpecifier) := by
  obtain ⟨below, rfl⟩ := exists_children_of_hasKind h.isType
  have before : tree.beforeType.any (·.hasKind .arraySpecifier) = false :=
    List.any_eq_false.2 fun child member => by
      rw [h.hasKind_eq_false member (by decide)]
      exact Bool.false_ne_true
  rw [isArray, h.children, List.any_append, before, Bool.false_or, List.any_cons]
  rfl

/-- Identifiers before the type are contextual qualifiers. -/
theorem isContextualQualifier (h : tree.CutAtType specifier) {name : String}
    (member : name ∈ tree.qualifierNames) : Vocabulary.isContextualQualifier name := by
  obtain ⟨token, listed, rfl⟩ := List.mem_map.1 member
  obtain ⟨listed, isName⟩ := List.mem_filter.1 listed
  have admitted := admits_of_qualifiers h.qualifiers listed
  have isIdentifier : token.kind = .identifier := by simpa using isName
  simpa [TokenClass.admits, isIdentifier] using admitted

end CutAtType

/-- Children that begin with qualifiers and a type are cut there. -/
theorem cutAtType {kind : NodeKind} {before behind : List Tree} {specifier : Tree}
    (qualifiers : Form.qualifiers.Matches before)
    (isType : specifier.hasKind .typeSpecifier) :
    (Tree.node kind (before ++ specifier :: behind)).CutAtType specifier ∧
      (Tree.node kind (before ++ specifier :: behind)).behindType = behind := by
  have others : ∀ child ∈ before, (! child.hasKind .typeSpecifier) = true := by
    intro child member
    have mentioned := Form.mentions_of_mem qualifiers member
    cases child with
    | leaf token => rfl
    | node own children =>
      have listed : own ∈ [NodeKind.layoutQualifier] := mentioned
      obtain rfl := List.mem_singleton.1 listed
      rfl
  have cut : (Tree.node kind (before ++ specifier :: behind)).beforeType = before := by
    rw [beforeType, children, List.takeWhile_append_of_pos others,
      List.takeWhile_cons_of_neg (by simp [isType]), List.append_nil]
  have rest : (Tree.node kind (before ++ specifier :: behind)).behindType = behind := by
    rw [behindType, children, List.dropWhile_append_of_pos others,
      List.dropWhile_cons_of_neg (by simp [isType]), List.tail_cons]
  exact ⟨⟨by rw [cut, rest]; rfl, isType, by rwa [cut]⟩, rest⟩

end Tree

end ShaderDialect
