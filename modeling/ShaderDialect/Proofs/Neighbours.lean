import Mathlib.Data.List.Chain
import ShaderDialect.Proofs.Redeclaration

/-!
# What stands before a declaration

From a form can be computed which trees its lists start and end with, and which
stand side by side. So a declaration or a function definition is the first thing
in the shader, or the token in front of it is one of few: a mark that ends or
opens a statement, or one of the words `else` and `do`.
-/

namespace ShaderDialect

namespace Form

/-- The forms of the trees that a list may start with. -/
def firsts : Form → List Form
  | .empty => []
  | .seq first second => first.firsts ++ if first.nullable then second.firsts else []
  | .either one other => one.firsts ++ other.firsts
  | .many item => item.firsts
  | atom => [atom]

/-- The form of the lists backwards. -/
def reverse : Form → Form
  | .seq first second => .seq second.reverse first.reverse
  | .either one other => .either one.reverse other.reverse
  | .many item => .many item.reverse
  | form => form

/-- The forms of the trees that a list may end with. -/
def lasts (form : Form) : List Form :=
  form.reverse.firsts

/-- The forms of trees that may stand side by side. -/
def adjacent : Form → List (Form × Form)
  | .seq first second =>
    first.adjacent ++ second.adjacent ++ first.lasts.product second.firsts
  | .either one other => one.adjacent ++ other.adjacent
  | .many item => item.adjacent ++ item.lasts.product item.firsts
  | _ => []

theorem exists_first {form : Form} {trees : List Tree} (h : form.Matches trees)
    {tree : Tree}
    (head : trees.head? = some tree) : ∃ atom ∈ form.firsts, atom.Matches [tree] := by
  induction form generalizing trees with
  | empty =>
    obtain rfl : trees = [] := h
    cases head
  | token tokens =>
    obtain ⟨token, rfl, admitted⟩ := h
    cases head
    exact ⟨_, List.mem_singleton_self _, token, rfl, admitted⟩
  | node kinds =>
    obtain ⟨kind, children, rfl, listed⟩ := h
    cases head
    exact ⟨_, List.mem_singleton_self _, kind, children, rfl, listed⟩
  | headed kind tokens =>
    obtain ⟨token, children, rfl, admitted⟩ := h
    cases head
    exact ⟨_, List.mem_singleton_self _, token, children, rfl, admitted⟩
  | joined rows =>
    obtain ⟨_, rfl, isJoined⟩ := h
    cases head
    exact ⟨_, List.mem_singleton_self _, tree, rfl, isJoined⟩
  | seq first second ihFirst ihSecond =>
    obtain ⟨before, after, rfl, left, right⟩ := h
    cases before with
    | nil =>
      obtain ⟨atom, listed, matched⟩ := ihSecond right head
      refine ⟨atom, ?_, matched⟩
      rw [firsts, if_pos (nullable_of_matches left)]
      exact List.mem_append_right _ listed
    | cons tree before =>
      obtain ⟨atom, listed, matched⟩ := ihFirst left head
      exact ⟨atom, List.mem_append_left _ listed, matched⟩
  | either one other ihOne ihOther =>
    rcases h with h | h
    · obtain ⟨atom, listed, matched⟩ := ihOne h head
      exact ⟨atom, List.mem_append_left _ listed, matched⟩
    · obtain ⟨atom, listed, matched⟩ := ihOther h head
      exact ⟨atom, List.mem_append_right _ listed, matched⟩
  | many item ih =>
    obtain ⟨parts, rfl, matched⟩ := h
    rw [List.head?_flatten] at head
    obtain ⟨part, listed, head⟩ := List.exists_of_findSome?_eq_some head
    exact ih (matched part listed) head

theorem matches_reverse {form : Form} {trees : List Tree} (h : form.Matches trees) :
    form.reverse.Matches trees.reverse := by
  induction form generalizing trees with
  | empty =>
    obtain rfl : trees = [] := h
    rfl
  | token tokens =>
    obtain ⟨token, rfl, admitted⟩ := h
    exact ⟨token, rfl, admitted⟩
  | node kinds =>
    obtain ⟨kind, children, rfl, listed⟩ := h
    exact ⟨kind, children, rfl, listed⟩
  | headed kind tokens =>
    obtain ⟨token, children, rfl, admitted⟩ := h
    exact ⟨token, children, rfl, admitted⟩
  | joined rows =>
    obtain ⟨tree, rfl, isJoined⟩ := h
    exact ⟨tree, rfl, isJoined⟩
  | seq first second ihFirst ihSecond =>
    obtain ⟨before, after, rfl, left, right⟩ := h
    exact ⟨after.reverse, before.reverse, List.reverse_append, ihSecond right,
      ihFirst left⟩
  | either one other ihOne ihOther => exact h.imp ihOne ihOther
  | many item ih =>
    obtain ⟨parts, rfl, matched⟩ := h
    refine ⟨(parts.map List.reverse).reverse, List.reverse_flatten, fun part listed => ?_⟩
    obtain ⟨original, member, rfl⟩ := List.mem_map.1 (List.mem_reverse.1 listed)
    exact ih (matched original member)

theorem exists_last {form : Form} {trees : List Tree} (h : form.Matches trees)
    {tree : Tree}
    (last : trees.getLast? = some tree) : ∃ atom ∈ form.lasts, atom.Matches [tree] :=
  exists_first (matches_reverse h) (by rw [List.head?_reverse, last])

/-- Whether two trees are of forms that may stand side by side. -/
def Adjoins (form : Form) (tree next : Tree) : Prop :=
  ∃ pair ∈ form.adjacent, pair.1.Matches [tree] ∧ pair.2.Matches [next]

theorem Adjoins.mono {form wider : Form} (inside : form.adjacent ⊆ wider.adjacent)
    {tree next : Tree} (h : form.Adjoins tree next) : wider.Adjoins tree next := by
  obtain ⟨pair, listed, matched⟩ := h
  exact ⟨pair, inside listed, matched⟩

theorem isChain_adjoins {form : Form} {trees : List Tree} (h : form.Matches trees) :
    trees.IsChain form.Adjoins := by
  induction form generalizing trees with
  | empty =>
    obtain rfl : trees = [] := h
    exact .nil
  | token tokens =>
    obtain ⟨token, rfl, -⟩ := h
    exact List.isChain_singleton _
  | node kinds =>
    obtain ⟨kind, children, rfl, -⟩ := h
    exact List.isChain_singleton _
  | headed kind tokens =>
    obtain ⟨token, children, rfl, -⟩ := h
    exact List.isChain_singleton _
  | joined rows =>
    obtain ⟨tree, rfl, -⟩ := h
    exact List.isChain_singleton _
  | seq first second ihFirst ihSecond =>
    obtain ⟨before, after, rfl, left, right⟩ := h
    refine List.isChain_append.2 ⟨(ihFirst left).imp fun _ _ => .mono ?_,
      (ihSecond right).imp fun _ _ => .mono ?_, fun tree last next head => ?_⟩
    · exact fun pair listed => List.mem_append_left _ (List.mem_append_left _ listed)
    · exact fun pair listed => List.mem_append_left _ (List.mem_append_right _ listed)
    · obtain ⟨atom, listed, matched⟩ := exists_last left last
      obtain ⟨atom', listed', matched'⟩ := exists_first right head
      exact ⟨(atom, atom'), List.mem_append_right _ (List.pair_mem_product.2 ⟨listed, listed'⟩),
        matched, matched'⟩
  | either one other ihOne ihOther =>
    rcases h with h | h
    · exact (ihOne h).imp fun _ _ => .mono (List.subset_append_left _ _)
    · exact (ihOther h).imp fun _ _ => .mono (List.subset_append_right _ _)
  | many item ih =>
    obtain ⟨parts, rfl, matched⟩ := h
    induction parts with
    | nil => exact .nil
    | cons part parts ihParts =>
      have others := fun part listed => matched part (List.mem_cons_of_mem _ listed)
      refine List.isChain_append.2 ⟨(ih (matched part List.mem_cons_self)).imp fun _ _ => .mono ?_,
        ihParts others, fun tree last next head => ?_⟩
      · exact List.subset_append_left _ _
      · obtain ⟨atom, listed, matched⟩ :=
          exists_last (matched part List.mem_cons_self) last
        have behind : (many item).Matches parts.flatten := ⟨parts, rfl, others⟩
        obtain ⟨atom', listed', matched'⟩ := exists_first behind head
        exact ⟨(atom, atom'), List.mem_append_right _ (List.pair_mem_product.2 ⟨listed, listed'⟩),
          matched, matched'⟩

end Form

/-- Kinds of nodes that stand for themselves among statements or at the top. -/
def NodeKind.standalone : List NodeKind :=
  .functionDefinition :: Form.statementKinds

/-- Whether a token is one of those that a declaration may follow. -/
def Token.Closes (token : Token) : Prop :=
  token.text ∈ [";", ":", "(", ")", "\x7b", "\x7d", "else", "do"]

instance (token : Token) : Decidable token.Closes :=
  inferInstanceAs (Decidable (_ ∈ _))

namespace Form

/-- Whether all trees of a form end in a token that a declaration may follow. -/
def closes : Form → Bool
  | .token (.oneOf marks) =>
    marks.all [";", ":", "(", ")", "\x7b", "\x7d", "else", "do"].contains
  | .node kinds => kinds.all NodeKind.standalone.contains
  | _ => false

theorem closes_cases {atom : Form} (closes : atom.closes) {tree : Tree}
    (h : atom.Matches [tree]) :
    (∃ token, tree = .leaf token ∧ token.Closes) ∨
      ∃ kind children, tree = .node kind children ∧ kind ∈ NodeKind.standalone := by
  unfold Form.closes at closes
  split at closes
  · rename_i marks
    obtain ⟨token, same, admitted⟩ := h
    cases same
    obtain ⟨mark, listed, isMark⟩ := List.any_eq_true.1 admitted
    have text : token.text = mark := of_decide_eq_true (Bool.and_eq_true_iff.1 isMark).2
    refine Or.inl ⟨token, rfl, ?_⟩
    rw [Token.Closes, text]
    exact List.contains_iff_mem.1 (List.all_eq_true.1 closes mark listed)
  · obtain ⟨kind, children, same, listed⟩ := h
    cases same
    exact Or.inr ⟨kind, children, rfl,
      List.contains_iff_mem.1 (List.all_eq_true.1 closes kind listed)⟩
  · cases closes

end Form

namespace NodeKind

theorem lasts_close {kind : NodeKind} (h : kind ∈ standalone) :
    ∀ atom ∈ kind.form.lasts, atom.closes := by
  revert h
  cases kind <;> decide

theorem adjacent_close (kind : NodeKind) : ∀ pair ∈ kind.form.adjacent,
    .declaration ∈ pair.2.kinds ∨ .functionDefinition ∈ pair.2.kinds → pair.1.closes := by
  cases kind <;> decide

theorem firsts_declaration {kind : NodeKind} {atom : Form} (h : atom ∈ kind.form.firsts)
    (declares : .declaration ∈ atom.kinds ∨ .functionDefinition ∈ atom.kinds) :
    kind = .unit := by
  revert atom
  cases kind <;> decide

end NodeKind

namespace Tree

/-- The last leaf of siblings is the last leaf of the last one. -/
theorem getLast?_leavesAll {kind : NodeKind} {children before : List Tree}
    (h : (Tree.node kind children).Grammatical) {tree : Tree} (member : tree ∈ children) :
    (leavesAll (before ++ [tree])).getLast? = tree.leaves.getLast? := by
  have nonempty := (h.child tree member).leaves_ne_nil (h.child_ne_unit member)
  rw [leavesAll_append, leavesAll_cons, leavesAll_nil, List.append_nil,
    List.getLast?_append, List.getLast?_eq_some_getLast nonempty]
  rfl

/-- A statement, a declaration or a definition ends in a closing token. -/
theorem Grammatical.last_closes {tree : Tree} (h : tree.Grammatical) {kind : NodeKind}
    (isKind : tree.kind? = some kind) (standalone : kind ∈ NodeKind.standalone)
    {token : Token} (last : tree.leaves.getLast? = some token) : token.Closes := by
  induction h generalizing kind with
  | leaf token => cases isKind
  | @node kind children form below ih =>
    cases isKind
    have grammatical := Grammatical.node form below
    obtain ⟨before, tree, rfl⟩ : ∃ before tree, children = before ++ [tree] := by
      rcases List.eq_nil_or_concat children with rfl | ⟨before, tree, rfl⟩
      · cases last
      · exact ⟨before, tree, by simp⟩
    have member : tree ∈ before ++ [tree] := List.mem_append_right _ List.mem_cons_self
    rw [leaves_node, getLast?_leavesAll grammatical member] at last
    obtain ⟨atom, listed, matched⟩ := Form.exists_last form List.getLast?_concat
    rcases Form.closes_cases (NodeKind.lasts_close standalone atom listed) matched with
      ⟨token', rfl, closes⟩ | ⟨kind', children', rfl, standalone'⟩
    · cases last
      exact closes
    · exact ih _ member rfl standalone' last

/-- Whether a node is a declaration or a definition. -/
def Declares (tree : Tree) : Prop :=
  tree.kind? = some .declaration ∨ tree.kind? = some .functionDefinition

theorem Declares.mem_kinds {tree : Tree} (h : tree.Declares) {atom : Form}
    (matched : atom.Matches [tree]) :
    .declaration ∈ atom.kinds ∨ .functionDefinition ∈ atom.kinds := by
  have mentions := Form.mentions_of_mem matched List.mem_cons_self
  cases tree with
  | leaf token => rcases h with isKind | isKind <;> cases isKind
  | node kind children =>
    rcases h with isKind | isKind
    · cases isKind
      exact Or.inl mentions
    · cases isKind
      exact Or.inr mentions

/-- The token in front of a declaration or a definition below a node closes what
is before it, if there is one at all. -/
theorem Grammatical.closes_before_child {kind : NodeKind} {children : List Tree}
    (h : (Tree.node kind children).Grammatical) {before after : List Tree} {child : Tree}
    (shape : children = before ++ child :: after) (declares : child.Declares)
    {front : List Token} (atTop : kind = .unit → front = []) {token : Token}
    (last : (front ++ leavesAll before).getLast? = some token) : token.Closes := by
  cases h with
  | node form below =>
    have grammatical := Grammatical.node form below
    rcases List.eq_nil_or_concat before with rfl | ⟨before, tree, rfl⟩
    · obtain ⟨atom, listed, matched⟩ := Form.exists_first form (by rw [shape]; rfl)
      rw [atTop (NodeKind.firsts_declaration listed (declares.mem_kinds matched))] at last
      cases last
    · rw [List.concat_eq_append] at shape last
      have member : tree ∈ children := by simp [shape]
      obtain ⟨token', own⟩ : ∃ token, tree.leaves.getLast? = some token :=
        ⟨_, List.getLast?_eq_some_getLast
          ((grammatical.child tree member).leaves_ne_nil (grammatical.child_ne_unit member))⟩
      rw [List.getLast?_append, getLast?_leavesAll grammatical member, own] at last
      cases last
      have side :=
        List.isChain_iff_forall_rel_of_append_cons_cons.1 (Form.isChain_adjoins form)
          (show children = before ++ tree :: child :: after by simp [shape])
      obtain ⟨pair, listed, matched, matched'⟩ := side
      have closes := kind.adjacent_close pair listed (declares.mem_kinds matched')
      rcases Form.closes_cases closes matched with
        ⟨token', rfl, closes⟩ | ⟨kind', children', rfl, standalone⟩
      · cases own
        exact closes
      · exact (grammatical.child _ member).last_closes rfl standalone own

/-- The tree stands among the tokens of the root, and behind a closing token if
it is a declaration or a definition and not the first thing there. -/
def StandsIn (root tree : Tree) : Prop :=
  tree.Grammatical ∧ ∃ front behind, root.leaves = front ++ (tree.leaves ++ behind) ∧
    (tree.kind? = some .unit → front = []) ∧
    (tree.Declares → ∀ token, front.getLast? = some token → token.Closes)

theorem Grammatical.standsIn {root : Tree} (h : root.Grammatical) {tree : Tree}
    (member : tree ∈ root.postorder) : root.StandsIn tree := by
  have whole : root.StandsIn root := ⟨h, [], [], by simp, fun _ => rfl, fun _ _ => nofun⟩
  refine inherit_postorder (P := root.StandsIn) ?_ whole tree member
  rintro kind children ⟨grammatical, front, behind, place, atTop, -⟩ child listed
  obtain ⟨before, after, shape⟩ := List.append_of_mem listed
  refine ⟨grammatical.child child listed, front ++ leavesAll before,
    leavesAll after ++ behind, ?_, ?_, ?_⟩
  · simp [place, shape, leavesAll_append]
  · exact fun isUnit => absurd isUnit (grammatical.child_ne_unit listed)
  · exact fun declares token last => grammatical.closes_before_child shape declares
      (fun isUnit => atTop (congrArg some isUnit)) last

end Tree

/-! ### The first token of a redeclared builtin -/

/-- Kinds of nodes that start with a type. -/
def NodeKind.typed : List NodeKind :=
  [.functionDefinition, .functionPrototype, .fullySpecifiedType, .layoutQualifier,
   .typeSpecifier, .structSpecifier]

/-- Whether a token is spelled with letters. -/
def Token.IsName (token : Token) : Prop :=
  token.kind = .keyword ∨ token.kind = .identifier ∨ token.text ∈ ["layout", "struct"]

namespace Form

/-- Whether all trees of a form start with a token that is spelled with
letters. -/
def isNamed : Form → Bool
  | .token (.oneOf marks) => marks.all ["layout", "struct"].contains
  | .token tokens => [TokenClass.identifier, .qualifier, .typeName].contains tokens
  | .node kinds => kinds.all NodeKind.typed.contains
  | _ => false

theorem isNamed_cases {atom : Form} (named : atom.isNamed) {tree : Tree}
    (h : atom.Matches [tree]) :
    (∃ token, tree = .leaf token ∧ token.IsName) ∨
      ∃ kind children, tree = .node kind children ∧ kind ∈ NodeKind.typed := by
  unfold isNamed at named
  split at named
  · rename_i marks
    obtain ⟨token, same, admitted⟩ := h
    cases same
    obtain ⟨mark, listed, isMark⟩ := List.any_eq_true.1 admitted
    have text : token.text = mark := of_decide_eq_true (Bool.and_eq_true_iff.1 isMark).2
    refine Or.inl ⟨token, rfl, Or.inr (Or.inr ?_)⟩
    rw [text]
    exact List.contains_iff_mem.1 (List.all_eq_true.1 named mark listed)
  · obtain ⟨token, same, admitted⟩ := h
    cases same
    refine Or.inl ⟨token, rfl, ?_⟩
    simp only [List.contains_eq_mem, List.mem_cons, List.not_mem_nil, or_false,
      decide_eq_true_eq] at named
    rcases named with rfl | rfl | rfl
    · exact Or.inr (Or.inl (of_decide_eq_true admitted))
    · simp only [TokenClass.admits, Bool.or_eq_true, Bool.and_eq_true,
        decide_eq_true_eq] at admitted
      exact admitted.elim (fun keyword => Or.inl keyword.1) fun name =>
        Or.inr (Or.inl name.1)
    · simp only [TokenClass.admits, Bool.or_eq_true, Bool.and_eq_true,
        decide_eq_true_eq] at admitted
      exact admitted.elim (fun keyword => Or.inl keyword.1) fun name =>
        Or.inr (Or.inl name)
  · obtain ⟨kind, children, same, listed⟩ := h
    cases same
    exact Or.inr ⟨kind, children, rfl,
      List.contains_iff_mem.1 (List.all_eq_true.1 named kind listed)⟩
  · cases named

end Form

theorem NodeKind.firsts_named {kind : NodeKind} (h : kind ∈ typed) :
    ∀ atom ∈ kind.form.firsts, atom.isNamed := by
  revert h
  cases kind <;> decide

namespace Tree

theorem Grammatical.first_isName {tree : Tree} (h : tree.Grammatical) {kind : NodeKind}
    (isKind : tree.kind? = some kind) (typed : kind ∈ NodeKind.typed) {token : Token}
    (first : tree.leaves.head? = some token) : token.IsName := by
  induction h generalizing kind with
  | leaf token => cases isKind
  | @node kind children form below ih =>
    cases isKind
    have grammatical := Grammatical.node form below
    cases children with
    | nil => cases first
    | cons tree children =>
      have nonempty := (grammatical.child tree List.mem_cons_self).leaves_ne_nil
        (grammatical.child_ne_unit List.mem_cons_self)
      rw [leaves_node, leavesAll_cons, List.head?_append, List.head?_eq_some_head nonempty] at first
      obtain ⟨atom, listed, matched⟩ := Form.exists_first form rfl
      rcases Form.isNamed_cases (NodeKind.firsts_named typed atom listed) matched with
        ⟨token', rfl, isName⟩ | ⟨kind', children', rfl, typed'⟩
      · cases first
        exact isName
      · exact ih _ List.mem_cons_self rfl typed' ((List.head?_eq_some_head nonempty).trans first)

/-- A redeclared builtin starts with a token that is spelled with letters. -/
theorem Redeclares.first_isName {catalog : Catalog} {tree : Tree}
    (h : tree.Redeclares catalog) (grammatical : tree.Grammatical) {token : Token}
    (first : tree.leaves.head? = some token) :
    token.IsName := by
  obtain ⟨isDefinition | isDeclaration, child, _, _, found, -⟩ := h
  · exact grammatical.first_isName isDefinition (by decide) first
  · obtain ⟨children, rfl⟩ := exists_children_of_hasKind (decide_eq_true isDeclaration)
    have isPrototype := List.find?_some found
    have listed : child ∈ children := List.mem_of_find?_eq_some found
    obtain ⟨below, rfl⟩ := exists_children_of_hasKind isPrototype
    cases grammatical with
    | node form belowGrammatical =>
      have own := belowGrammatical _ listed
      have mentioned : ∀ form : Form, form.Matches children →
          .functionPrototype ∈ form.kinds :=
        fun form matched => Form.mentions_of_mem matched listed
      -- Of the three kinds of declarations only one has a prototype in it.
      rcases form with mark | precision |
        ⟨_, _, shape, ⟨kind, _, rfl, -⟩, ⟨_, _, rfl, ⟨semicolon, rfl, -⟩, rfl⟩⟩ | none
      · exact absurd (mentioned _ mark) (by decide)
      · exact absurd (mentioned _ precision) (by decide)
      · subst shape
        simp only [List.singleton_append, List.append_nil, List.mem_cons, node.injEq,
          reduceCtorEq, List.not_mem_nil, or_false] at listed
        obtain ⟨rfl, rfl⟩ := listed
        have nonempty := own.leaves_ne_nil (by simp [kind?])
        rw [leaves_node, List.singleton_append, leavesAll_cons, List.head?_append,
          List.head?_eq_some_head nonempty] at first
        exact own.first_isName rfl (by decide) ((List.head?_eq_some_head nonempty).trans first)
      · exact absurd (mentioned _ none) (by decide)

end Tree

end ShaderDialect
