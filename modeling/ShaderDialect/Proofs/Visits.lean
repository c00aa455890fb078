import ShaderDialect.Proofs.PlanContent

/-!
# Visits of the walk

The walk comes from node to node; a visit is a tree with its role and the
state in which the walk comes to it. The writes of a visit stand together among
the writes of the whole walk, and no other write is about its tokens. So the
spellings of the tokens below a node are decided by the visit of that node.
-/

namespace ShaderDialect

namespace Plan

/-- One visit of the walk. -/
structure Visit where
  role : Role
  tree : Tree
  state : State

/-- The visits of siblings, from left to right. -/
def siblingVisits (siblings : Siblings) : List Tree → State → List Visit
  | [], _ => []
  | tree :: trees, state =>
    let (siblings', state') := siblings.after tree (visit (siblings.role tree) tree state)
    ⟨siblings.role tree, tree, state⟩ :: siblingVisits siblings' trees state'

theorem exists_visit_of_mem (siblings : Siblings) {trees : List Tree} {tree : Tree}
    (member : tree ∈ trees) (state : State) :
    ∃ v ∈ siblingVisits siblings trees state, v.tree = tree := by
  induction trees generalizing siblings state with
  | nil => cases member
  | cons first others ih =>
    rw [siblingVisits]
    rcases List.mem_cons.1 member with rfl | later
    · exact ⟨_, List.mem_cons_self, rfl⟩
    · obtain ⟨v, listed, same⟩ := ih _ later _
      exact ⟨v, List.mem_cons_of_mem _ listed, same⟩

theorem mem_of_mem_siblingVisits {siblings : Siblings} {trees : List Tree} {state : State}
    {v : Visit} (listed : v ∈ siblingVisits siblings trees state) : v.tree ∈ trees := by
  induction trees generalizing siblings state with
  | nil => simp [siblingVisits] at listed
  | cons tree trees ih =>
    rw [siblingVisits] at listed
    rcases List.mem_cons.1 listed with rfl | later
    · exact List.mem_cons_self
    · exact List.mem_cons_of_mem _ (ih later)

namespace Visit

/-- The visit that the walk over a tree starts with. -/
def ofTree (catalog : Catalog) (root : Tree) : Visit :=
  ⟨.part false, root, start catalog⟩

def writes (v : Visit) : List Write :=
  Plan.writes v.role v.tree v.state

/-- The walk comes from a node that it enters to each of its children. -/
inductive Step : Visit → Visit → Prop
  | child {role : Role} {kind : NodeKind} {children : List Tree} {state state' : State}
      {context : Bool} {siblings : Siblings} {below : Visit}
      (entered : enter state role kind (.node kind children) = (.descend context siblings, state'))
      (listed : below ∈ siblingVisits siblings children state') :
      Step ⟨role, .node kind children, state⟩ below

/-- The walk comes from one visit to another in some number of steps. -/
def Reaches : Visit → Visit → Prop :=
  Relation.ReflTransGen Step

/-- A visit of a tree with numbered tokens, in a role that the tree can have. -/
structure WellFormed (v : Visit) : Prop where
  fits : v.role.Fits v.tree
  grammatical : v.tree.Grammatical
  consecutive : Consecutive v.tree.leaves

/-- The writes of one visit stand together among those of another, and the
writes around them are about the tokens around. -/
def Within (inner outer : Visit) : Prop :=
  ∃ before after left right,
    outer.writes = before ++ inner.writes ++ after ∧
    outer.tree.leaves = left ++ inner.tree.leaves ++ right ∧
    (spelled before).Sublist (left.map Token.index) ∧
    (spelled after).Sublist (right.map Token.index)

theorem Within.refl (v : Visit) : v.Within v :=
  ⟨[], [], [], [], by simp, by simp, List.nil_sublist _, List.nil_sublist _⟩

theorem Within.trans {inner middle outer : Visit} (h₁ : inner.Within middle)
    (h₂ : middle.Within outer) : inner.Within outer := by
  obtain ⟨before₁, after₁, left₁, right₁, log₁, leaves₁, below₁, above₁⟩ := h₁
  obtain ⟨before₂, after₂, left₂, right₂, log₂, leaves₂, below₂, above₂⟩ := h₂
  refine ⟨before₂ ++ before₁, after₁ ++ after₂, left₂ ++ left₁, right₁ ++ right₂, ?_,
    ?_, ?_, ?_⟩
  · simp [log₁, log₂]
  · simp [leaves₁, leaves₂]
  · rw [spelled_append, List.map_append]
    exact below₂.append below₁
  · rw [spelled_append, List.map_append]
    exact above₁.append above₂

theorem Within.leaves_subset {inner outer : Visit} (h : inner.Within outer) :
    inner.tree.leaves ⊆ outer.tree.leaves := by
  obtain ⟨before, after, left, right, -, leaves, -⟩ := h
  intro token member
  rw [leaves]
  exact List.mem_append_left _ (List.mem_append_right _ member)

end Visit

/-- The visit of one of several siblings among the writes of all. -/
theorem exists_split_of_mem {siblings : Siblings} {trees : List Tree} {state : State}
    {v : Visit} (listed : v ∈ siblingVisits siblings trees state)
    (grammatical : ∀ tree ∈ trees, tree.Grammatical)
    (consecutive : Consecutive (Tree.leavesAll trees)) :
    v.WellFormed ∧ ∃ before after left right,
      writesAll siblings trees state = before ++ v.writes ++ after ∧
      Tree.leavesAll trees = left ++ v.tree.leaves ++ right ∧
      (spelled before).Sublist (left.map Token.index) ∧
      (spelled after).Sublist (right.map Token.index) := by
  induction trees generalizing siblings state with
  | nil => simp [siblingVisits] at listed
  | cons tree trees ih =>
    rw [Tree.leavesAll_cons] at consecutive ⊢
    have here := grammatical tree List.mem_cons_self
    have behind := fun tree member => grammatical tree (List.mem_cons_of_mem _ member)
    rw [siblingVisits] at listed
    rw [writesAll_cons]
    generalize siblings.after tree (visit (siblings.role tree) tree state) =
      following at listed ⊢
    rcases List.mem_cons.1 listed with rfl | later
    · refine ⟨⟨fits_role siblings tree, here, consecutive.append.1⟩, [], _, [],
        Tree.leavesAll trees, rfl, rfl, List.nil_sublist _, ?_⟩
      exact spelled_writesAll behind consecutive.append.2
    · obtain ⟨wellFormed, before, after, left, right, log, leaves, below, above⟩ :=
        ih later behind consecutive.append.2
      refine ⟨wellFormed, Plan.writes (siblings.role tree) tree state ++ before, after,
        tree.leaves ++ left, right, ?_, ?_, ?_, above⟩
      · simp only [log, List.append_assoc]
      · simp only [leaves, List.append_assoc]
      · rw [spelled_append, List.map_append]
        exact (spelled_writes (fits_role siblings tree) here consecutive.append.1).append below

namespace Visit

/-- A step leads to a visit within. -/
theorem Step.within {outer inner : Visit} (step : Step outer inner)
    (h : outer.WellFormed) :
    inner.WellFormed ∧ inner.Within outer := by
  cases step with
  | @child role kind children state state' context siblings below entered listed =>
    obtain ⟨fits, grammatical, consecutive⟩ := h
    obtain ⟨wellFormed, before, after, left, right, log, leaves, below, above⟩ :=
      exists_split_of_mem listed grammatical.child consecutive
    rcases writes_node_cases state fits grammatical with
      ⟨redeclares, -⟩ | ⟨-, context', siblings', state'', entered', -, own⟩
    · obtain ⟨context', rfl⟩ := exists_part_of_redeclares fits redeclares
      rw [enter_of_redeclares redeclares] at entered
      cases entered
    · rw [entered] at entered'
      cases entered'
      refine ⟨wellFormed, before, after ++ [.stamp (state.next + Tree.sizeAll children) context],
        left, right, ?_, leaves, below, ?_⟩
      · rw [writes, own, log, List.append_assoc]
      · rw [spelled_append, spelled, spelled, List.append_nil]
        exact above

theorem Reaches.within {outer inner : Visit} (reached : Reaches outer inner)
    (h : outer.WellFormed) : inner.WellFormed ∧ inner.Within outer := by
  induction reached with
  | refl => exact ⟨h, Within.refl outer⟩
  | tail _ step ih =>
    obtain ⟨wellFormed, within⟩ := step.within ih.1
    exact ⟨wellFormed, within.trans ih.2⟩

/-- The walk comes to nodes of the tree only. -/
theorem Reaches.postorder_subset {outer inner : Visit} (reached : Reaches outer inner) :
    inner.tree.postorder ⊆ outer.tree.postorder := by
  induction reached with
  | refl => exact List.Subset.refl _
  | tail _ step ih =>
    refine List.Subset.trans ?_ ih
    cases step with
    | child entered listed =>
      rw [Tree.postorder_node]
      exact fun node member => List.mem_append_left _
        (List.mem_flatMap_of_mem (mem_of_mem_siblingVisits listed) member)

/-- The walk comes to every child of a node that redeclares no builtin. -/
theorem exists_step {v : Visit} {kind : NodeKind} {children : List Tree}
    (h : v.WellFormed) (shape : v.tree = .node kind children)
    (kept : v.tree.redeclares v.state.scope.catalog = false) (child : Tree)
    (member : child ∈ children) : ∃ w, v.Step w ∧ w.tree = child := by
  obtain ⟨role, tree, state⟩ := v
  obtain rfl : tree = _ := shape
  obtain ⟨context, siblings, entered⟩ := exists_descend role h.grammatical kept
  obtain ⟨w, listed, same⟩ := exists_visit_of_mem siblings member
    (enter state role kind (.node kind children)).2
  exact ⟨w, .child (Prod.ext entered rfl) listed, same⟩

end Visit

end Plan

namespace SyntaxTree

open Plan

/-- The walk comes to the first node of a source in the state it starts with. -/
theorem reaches_first {source : String} {tree : SyntaxTree}
    (h : ofSource source = .ok tree) (catalog : Catalog) {node : Tree}
    {nodes : List Tree} (children : tree.root.children = node :: nodes) :
    (Visit.ofTree catalog tree.root).Reaches ⟨.part false, node, start catalog⟩ := by
  obtain ⟨_, shape⟩ :=
    Tree.exists_children_of_hasKind (decide_eq_true (ofSource_spec h).2.1)
  rw [shape] at children
  obtain rfl : _ = node :: nodes := children
  rw [Visit.ofTree, shape]
  exact .single (.child rfl List.mem_cons_self)

/-- The spellings of the tokens below a node are decided by its visit. -/
theorem edits_get?_of_reaches {source : String} {tree : SyntaxTree}
    (h : ofSource source = .ok tree) (catalog : Catalog) {v : Visit}
    (reached : (Visit.ofTree catalog tree.root).Reaches v) {token : Token}
    (member : token ∈ v.tree.leaves) (text : String) :
    (Plan.ofTree catalog tree.root).edits.get? token.index = some text ↔
      .spell token.index text ∈ v.writes := by
  obtain ⟨grammatical, -, leaves, counted⟩ := ofSource_spec h
  obtain ⟨-, before, after, left, right, log, split, below, above⟩ :=
    reached.within ⟨trivial, grammatical, consecutive_leaves h⟩
  have distinct : (tree.root.leaves.map Token.index).Nodup := by
    rw [leaves, counted]
    exact List.nodup_range
  have own := List.mem_map_of_mem (f := Token.index) member
  change tree.root.leaves = _ at split
  simp only [split, List.map_append, List.append_assoc, List.nodup_append,
    List.mem_append]
    at distinct
  have notBefore : .spell token.index text ∉ before := fun listed =>
    distinct.2.2 _ (below.subset (mem_spelled.2 ⟨text, listed⟩)) _ (Or.inl own) rfl
  have notAfter : .spell token.index text ∉ after := fun listed =>
    distinct.2.1.2.2 _ own _ (above.subset (mem_spelled.2 ⟨text, listed⟩)) rfl
  rw [edits_get? h]
  change _ ∈ (Visit.ofTree catalog tree.root).writes ↔ _
  simp [log, notBefore, notAfter]

end SyntaxTree

end ShaderDialect
