import ShaderDialect.Proofs.Visits

/-!
# Nodes and their visits

The number at which the walk stamps a node is the number of that node in the
tree. So the context on record for a node is the one that its visit enters it
in, and the nodes with a context are those that the walk comes to.
-/

namespace ShaderDialect

namespace Plan

/-- The context that a node is stamped with. -/
def Entry.context : Entry → Bool
  | .skip context => context
  | .descend context _ => context

namespace Visit

/-- The number of the node that is visited. -/
def number (v : Visit) : Nat :=
  v.state.next + Tree.sizeAll v.tree.children

/-- The context that the walk enters a node in. -/
def context (v : Visit) : Bool :=
  match v.tree with
  | .leaf _ => false
  | .node kind children => (enter v.state v.role kind (.node kind children)).1.context

end Visit

/-! ### Numbers -/

theorem places_of_mem_siblingVisits {siblings : Siblings} {trees : List Tree}
    {state : State} {v : Visit} (listed : v ∈ siblingVisits siblings trees state)
    (parent : Option Nat) :
    v.tree.places parent v.state.next ⊆ Tree.placesAll parent state.next trees := by
  induction trees generalizing siblings state with
  | nil => simp [siblingVisits] at listed
  | cons tree trees ih =>
    have moved :=
      (silent_after siblings tree (visit (siblings.role tree) tree state)).next
    rw [next_visit] at moved
    rw [siblingVisits] at listed
    rw [Tree.placesAll]
    generalize siblings.after tree (visit (siblings.role tree) tree state) = following
      at listed moved
    rcases List.mem_cons.1 listed with rfl | later
    · exact List.subset_append_left _ _
    · have inside := ih later
      rw [moved] at inside
      exact List.Subset.trans inside (List.subset_append_right _ _)

/-- The child of a number is visited with this number. -/
theorem exists_visit_of_childRefs (siblings : Siblings) {trees : List Tree}
    {state : State} {id : Nat} (listed : .node id ∈ Tree.childRefs state.next trees) :
    ∃ v ∈ siblingVisits siblings trees state, v.tree.isNode ∧ v.number = id := by
  induction trees generalizing siblings state with
  | nil => simp [Tree.childRefs] at listed
  | cons tree trees ih =>
    have moved :=
      (silent_after siblings tree (visit (siblings.role tree) tree state)).next
    rw [next_visit] at moved
    have behind : .node id ∈ Tree.childRefs (state.next + tree.size) trees →
        ∃ v ∈ siblingVisits siblings (tree :: trees) state, v.tree.isNode ∧
        v.number = id := by
      intro later
      rw [← moved] at later
      obtain ⟨v, visited, found⟩ := ih _ later
      exact ⟨v, List.mem_cons_of_mem _ visited, found⟩
    cases tree with
    | leaf token => exact behind (by simpa [Tree.childRefs, Tree.size] using listed)
    | node kind children =>
      rcases List.mem_cons.1 listed with first | later
      · cases first
        exact ⟨_, List.mem_cons_self, rfl, rfl⟩
      · exact behind later

namespace Visit

theorem Step.places {v w : Visit} (step : v.Step w) (parent : Option Nat) :
    w.tree.places (some v.number) w.state.next ⊆ v.tree.places parent v.state.next := by
  cases step with
  | @child role kind children state state' context siblings below entered listed =>
    have next := (logged_enter state role kind children).2
    rw [entered] at next
    have inside :=
      places_of_mem_siblingVisits listed (some (state.next + Tree.sizeAll children))
    rw [next] at inside
    exact List.Subset.trans inside (List.subset_append_left _ _)

theorem Reaches.places {v w : Visit} (reached : v.Reaches w) :
    ∃ parent, w.tree.places parent w.state.next ⊆ v.tree.places none v.state.next := by
  induction reached with
  | refl => exact ⟨none, List.Subset.refl _⟩
  | tail _ step ih =>
    obtain ⟨parent, inside⟩ := ih
    exact ⟨_, List.Subset.trans (step.places parent) inside⟩

/-- A node is visited with the number that it has in the tree. -/
theorem Reaches.exists_place {catalog : Catalog} {root : Tree} {v : Visit}
    (reached : (ofTree catalog root).Reaches v) {kind : NodeKind} {children : List Tree}
    (shape : v.tree = .node kind children) :
    ∃ place ∈ root.places none 0, place.id = v.number ∧ place.base = v.state.next ∧
      place.kind = kind ∧ place.children = children := by
  obtain ⟨parent, inside⟩ := reached.places
  rw [shape, Tree.places] at inside
  refine ⟨_, inside (List.mem_append_right _ List.mem_cons_self), ?_, ?_, rfl, rfl⟩
  · simp [number, shape, Tree.children]
  · simp [Place.base]

/-- The walk comes from a node that it enters to the child of each number. -/
theorem exists_step_of_childRefs {v : Visit} {kind : NodeKind} {children : List Tree}
    {context : Bool} {siblings : Siblings} {state' : State} {id : Nat}
    (shape : v.tree = .node kind children)
    (entered : enter v.state v.role kind (.node kind children) =
      (.descend context siblings, state'))
    (listed : .node id ∈ Tree.childRefs v.state.next children) :
    ∃ w, v.Step w ∧ w.tree.isNode ∧ w.number = id := by
  obtain ⟨role, tree, state⟩ := v
  obtain rfl : tree = _ := shape
  have next := (logged_enter state role kind children).2
  rw [entered] at next
  rw [← next] at listed
  obtain ⟨w, visited, found⟩ := exists_visit_of_childRefs siblings listed
  exact ⟨w, .child entered visited, found⟩

end Visit

/-! ### Stamps -/

/-- The last write of a visit is the stamp of its node. -/
theorem stamp_mem_writes (role : Role) (kind : NodeKind) (children : List Tree)
    (state : State) :
    .stamp (state.next + Tree.sizeAll children)
      (enter state role kind (.node kind children)).1.context ∈
      writes role (.node kind children) state := by
  have next := (logged_enter state role kind children).2
  rw [writes_node]
  refine List.mem_append_right _ ?_
  rcases entered : enter state role kind (.node kind children) with ⟨entry, state'⟩
  rw [entered] at next
  cases entry with
  | skip context => simp [Entry.context, ← next]
  | descend context siblings => simp [Entry.context, next_visitAll, ← next]

theorem stamp_notMem_entryWrites (role : Role) (tree : Tree) (state : State) (id : Nat)
    (context : Bool) : .stamp id context ∉ entryWrites role tree state := by
  intro listed
  have stamps : stamped (entryWrites role tree state) = [] := by
    unfold entryWrites
    split
    · split
      · exact stamped_deletions tree
      · rfl
    · rfl
  have member := mem_stamped.2 ⟨context, listed⟩
  rw [stamps] at member
  cases member

mutual

/-- Every stamp is that of a visited node. -/
theorem exists_visit_of_stamp {id : Nat} {context : Bool} :
    ∀ (role : Role) (tree : Tree) (state : State),
      .stamp id context ∈ writes role tree state →
      ∃ v, Visit.Reaches ⟨role, tree, state⟩ v ∧ v.tree.isNode ∧ v.number = id ∧
        v.context = context
  | role, .leaf token, state, listed => by
    rw [writes_leaf] at listed
    have member := mem_stamped.2 ⟨context, listed⟩
    rw [stamped_tokenWrites] at member
    cases member
  | role, .node kind children, state, listed => by
    have next := (logged_enter state role kind children).2
    rw [writes_node] at listed
    rcases List.mem_append.1 listed with entry | below
    · exact absurd entry (stamp_notMem_entryWrites _ _ _ _ _)
    rcases entered : enter state role kind (.node kind children) with ⟨entry, state'⟩
    rw [entered] at below next
    have own : ∀ number, .stamp id context = Write.stamp number entry.context →
        number = state.next + Tree.sizeAll children →
        ∃ v, Visit.Reaches ⟨role, .node kind children, state⟩ v ∧ v.tree.isNode ∧
        v.number = id ∧
          v.context = context := by
      rintro number ⟨⟩ rfl
      exact ⟨_, Relation.ReflTransGen.refl, rfl, rfl, by simp [Visit.context, entered]⟩
    cases entry with
    | skip context' => exact own _ (List.mem_singleton.1 below) (by rw [← next])
    | descend context' siblings =>
      rcases List.mem_append.1 below with inside | last
      · obtain ⟨v, w, visited, reached, found⟩ :=
          exists_visit_of_stampAll siblings children state' inside
        exact ⟨w, Relation.ReflTransGen.head (.child entered visited) reached, found⟩
      · exact own _ (List.mem_singleton.1 last) (by rw [next_visitAll, ← next])

theorem exists_visit_of_stampAll {id : Nat} {context : Bool} :
    ∀ (siblings : Siblings) (trees : List Tree) (state : State),
      .stamp id context ∈ writesAll siblings trees state →
      ∃ v w, v ∈ siblingVisits siblings trees state ∧ Visit.Reaches v w ∧ w.tree.isNode ∧
        w.number = id ∧ w.context = context
  | _, [], _, listed => by simp at listed
  | siblings, tree :: trees, state, listed => by
    rw [writesAll_cons] at listed
    rcases List.mem_append.1 listed with first | later
    · obtain ⟨w, reached, found⟩ :=
        exists_visit_of_stamp (siblings.role tree) tree state first
      exact ⟨_, w, List.mem_cons_self, reached, found⟩
    · obtain ⟨v, w, visited, found⟩ := exists_visit_of_stampAll _ trees _ later
      exact ⟨v, w, List.mem_cons_of_mem _ visited, found⟩

end

end Plan

namespace SyntaxTree

open Plan

/-- A record is about the node that is visited with its number. -/
theorem record_of_reaches {tree : SyntaxTree} {catalog : Catalog} {v : Visit}
    (reached : (Visit.ofTree catalog tree.root).Reaches v) {kind : NodeKind}
    {children : List Tree} (shape : v.tree = .node kind children) {record : NodeRecord}
    (found : tree.nodes.get? v.number = some record) :
    record.kind = kind ∧ record.children = Tree.childRefs v.state.next children := by
  obtain ⟨place, member, id, base, rfl, rfl⟩ := reached.exists_place shape
  obtain ⟨other, member', id', rfl⟩ := nodes_get?.1 found
  obtain rfl := Tree.eq_of_id_eq member member' (id.trans id'.symm)
  exact ⟨rfl, by rw [← base]; rfl⟩

theorem postorder_of_reaches {tree : SyntaxTree} {catalog : Catalog} {v : Visit}
    (reached : (Visit.ofTree catalog tree.root).Reaches v) (isNode : v.tree.isNode) :
    tree.root.postorder[v.number]? = some v.tree := by
  cases shape : v.tree with
  | leaf token => simp [shape, Tree.isNode, Tree.kind?] at isNode
  | node kind children =>
    obtain ⟨place, member, id, -, rfl, rfl⟩ := reached.exists_place shape
    exact postorder_getElem?.2 ⟨place, member, id, rfl⟩

/-- The walk comes from a node that it enters to the child on record. -/
theorem exists_step_of_record {tree : SyntaxTree} {catalog : Catalog} {v : Visit}
    (reached : (Visit.ofTree catalog tree.root).Reaches v) {kind : NodeKind}
    {children : List Tree} (shape : v.tree = .node kind children) {context : Bool}
    {siblings : Siblings}
    {state' : State} (entered : enter v.state v.role kind (.node kind children) =
      (.descend context siblings, state'))
    {outer inner : NodeRecord} {child : Nat}
    (found : tree.nodes.get? v.number = some outer)
    (listed : .node child ∈ outer.children)
    (found' : tree.nodes.get? child = some inner) :
    ∃ w, v.Step w ∧ w.number = child ∧ w.tree.hasKind inner.kind := by
  rw [(record_of_reaches reached shape found).2] at listed
  obtain ⟨w, step, isNode, rfl⟩ := Visit.exists_step_of_childRefs shape entered listed
  refine ⟨w, step, rfl, ?_⟩
  cases shape' : w.tree with
  | leaf token => simp [shape', Tree.isNode, Tree.kind?] at isNode
  | node kind' children' =>
    rw [(record_of_reaches (reached.tail step) shape' found').1]
    simp [Tree.hasKind, Tree.kind?]

/-- What a record lists as a child has the node as its parent. -/
theorem parent_of_listed {tree : SyntaxTree} {parent child : Nat} {record : NodeRecord}
    (found : tree.nodes.get? parent = some record)
    (listed : .node child ∈ record.children) :
    ∃ inner, tree.nodes.get? child = some inner ∧ inner.parent = some parent := by
  obtain ⟨owner, member, rfl, rfl⟩ := nodes_get?.1 found
  obtain ⟨place, below, rfl, above⟩ :=
    Tree.exists_place_of_childRefs (some owner.id) listed
  have inside := Tree.placesAll_subset_places none 0 tree.root owner member below
  exact ⟨_, nodes_get?.2 ⟨place, inside, rfl, rfl⟩, above⟩

section

variable {source : String} {tree : SyntaxTree} (h : ofSource source = .ok tree)
    (catalog : Catalog)

include h

theorem wellFormed_ofTree : (Visit.ofTree catalog tree.root).WellFormed :=
  ⟨trivial, (ofSource_spec h).1, consecutive_leaves h⟩

/-- The context of a visited node is on record. -/
theorem contexts_get?_of_reaches {v : Visit}
    (reached : (Visit.ofTree catalog tree.root).Reaches v) {kind : NodeKind}
    (isKind : v.tree.hasKind kind) :
    (Plan.ofTree catalog tree.root).contexts.get? v.number = some v.context := by
  obtain ⟨role, shape, state⟩ := v
  obtain ⟨children, rfl⟩ : ∃ children, shape = .node kind children :=
    Tree.exists_children_of_hasKind isKind
  obtain ⟨-, before, after, -, -, log, -⟩ := reached.within (wellFormed_ofTree h catalog)
  rw [contexts_get? h]
  have stamped := stamp_mem_writes role kind children state
  change _ ∈ (Visit.ofTree catalog tree.root).writes
  rw [log]
  exact List.mem_append_left _ (List.mem_append_right _ stamped)

/-- A context is on record for the nodes that the walk comes to. -/
theorem exists_visit_of_contexts {id : Nat} {context : Bool}
    (found : (Plan.ofTree catalog tree.root).contexts.get? id = some context) :
    ∃ v, (Visit.ofTree catalog tree.root).Reaches v ∧ v.tree.isNode ∧ v.number = id ∧
      v.context = context :=
  exists_visit_of_stamp _ _ _ ((contexts_get? h catalog).1 found)

/-- The walk comes to every node that stands below no redeclared builtin. -/
theorem exists_visit {id : Nat} {record : NodeRecord}
    (found : tree.nodes.get? id = some record)
    (outside : ¬ ∃ outer, tree.Redeclares catalog outer ∧ tree.Below id outer) :
    ∃ v, (Visit.ofTree catalog tree.root).Reaches v ∧ v.tree.isNode ∧ v.number = id := by
  obtain ⟨place, member, rfl, -⟩ := nodes_get?.1 found
  have inside : place.id < tree.nodes.size := by
    rw [size_nodes, ← Nat.zero_add tree.root.size]
    exact Tree.lt_of_mem_places member
  obtain ⟨context, stamped⟩ :=
    mem_stamped.1 ((mem_stamped_log h catalog place.id).2 ⟨inside, outside⟩)
  rw [log_eq_writes] at stamped
  obtain ⟨v, reached, isNode, number, -⟩ := exists_visit_of_stamp _ _ _ stamped
  exact ⟨v, reached, isNode, number⟩

end

end SyntaxTree

end ShaderDialect
