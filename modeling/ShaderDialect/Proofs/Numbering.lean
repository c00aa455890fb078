import Mathlib.Data.List.Basic
import ShaderDialect.Proofs.Reading
import ShaderDialect.SyntaxTree

/-!
# Numbered nodes and their records

`Tree.places` lists the nodes of a tree with their numbers and the numbers of
their parents. The records of a tree are read off its places one by one, so
that what holds of the numbering is proved on the tree, where it is an
induction, and carried over to the records.
-/

namespace ShaderDialect

/-- A node with its number and the number of its parent. -/
structure Place where
  parent : Option Nat
  id : Nat
  kind : NodeKind
  children : List Tree

namespace Place

def tree (place : Place) : Tree :=
  .node place.kind place.children

/-- The number of the first node below a place. -/
def base (place : Place) : Nat :=
  place.id - Tree.sizeAll place.children

end Place

namespace Tree

mutual

/-- The nodes of a tree in the order of their numbers, which start at `next`. -/
def places (parent : Option Nat) (next : Nat) : Tree → List Place
  | .leaf _ => []
  | .node kind children =>
    placesAll (some (next + sizeAll children)) next children ++
      [⟨parent, next + sizeAll children, kind, children⟩]

def placesAll (parent : Option Nat) (next : Nat) : List Tree → List Place
  | [] => []
  | tree :: trees => places parent next tree ++ placesAll parent (next + tree.size) trees

end

/-- Siblings as their parent refers to them, where the first node below them
has the number `next`. -/
def childRefs (next : Nat) : List Tree → List ChildRef
  | [] => []
  | .leaf token :: trees => .token token.index :: childRefs next trees
  | .node _ children :: trees =>
    .node (next + sizeAll children) :: childRefs (next + (sizeAll children + 1)) trees

/-- The numbers of the first and the last of some tokens. -/
def spanOf : List Token → Option (Nat × Nat)
  | [] => none
  | first :: others => some (first.index, ((first :: others).getLast (by simp)).index)

end Tree

/-- The record of a node at its place. -/
def Place.record (finish : Nat) (place : Place) : NodeRecord where
  kind := place.kind
  parent := place.parent
  children := Tree.childRefs place.base place.children
  first := ((Tree.spanOf (Tree.leavesAll place.children)).map Prod.fst).getD finish
  last := ((Tree.spanOf (Tree.leavesAll place.children)).map Prod.snd).getD finish

namespace Tree

theorem spanOf_append (before after : List Token) :
    spanOf (before ++ after) =
      match spanOf before, spanOf after with
      | none, later => later
      | some span, none => some span
      | some (first, _), some (_, last) => some (first, last) := by
  cases before with
  | nil => rfl
  | cons first others =>
    cases after with
    | nil => simp [spanOf]
    | cons first' others' => simp [spanOf]

mutual

theorem span?_number (next : Nat) :
    ∀ tree : Tree, (tree.number next).1.span? = spanOf tree.leaves
  | .leaf _ => rfl
  | .node _ children => spanAll?_numberAll next children

theorem spanAll?_numberAll (next : Nat) :
    ∀ trees : List Tree,
      NumberedTree.spanAll? (numberAll next trees).1 = spanOf (leavesAll trees)
  | [] => rfl
  | tree :: trees => by
    rw [leavesAll_cons, spanOf_append, ← span?_number next tree,
      ← spanAll?_numberAll (tree.number next).2 trees]
    rfl

end

theorem map_ref_numberAll (next : Nat) (trees : List Tree) :
    (numberAll next trees).1.map NumberedTree.ref = childRefs next trees := by
  induction trees generalizing next with
  | nil => rfl
  | cons tree trees ih =>
    cases tree with
    | leaf token =>
      simp only [numberAll, number, List.map_cons, NumberedTree.ref, childRefs]
      rw [ih]
    | node kind children =>
      simp only [numberAll, number, List.map_cons, NumberedTree.ref, childRefs]
      rw [ih, numberAll_snd, Nat.add_assoc]

mutual

/-- The records of a tree are those of its places. -/
theorem recordsOnto_number (finish next : Nat) (parent : Option Nat)
    (rest : List NodeRecord) :
    ∀ tree : Tree, (tree.number next).1.recordsOnto finish parent rest =
      (tree.places parent next).map (Place.record finish) ++ rest
  | .leaf _ => rfl
  | .node kind children => by
    have own : (numberAll next children).2 = next + sizeAll children :=
      numberAll_snd next children
    simp only [number, NumberedTree.recordsOnto, places, List.map_append, List.map_cons,
      List.map_nil]
    rw [recordsAllOnto_numberAll finish next _ _ children, own, map_ref_numberAll,
      spanAll?_numberAll, List.append_assoc]
    simp [Place.record, Place.base]

theorem recordsAllOnto_numberAll (finish next : Nat) (parent : Option Nat)
    (rest : List NodeRecord) :
    ∀ trees : List Tree,
      NumberedTree.recordsAllOnto finish parent (numberAll next trees).1 rest =
        (placesAll parent next trees).map (Place.record finish) ++ rest
  | [] => rfl
  | tree :: trees => by
    simp only [numberAll, NumberedTree.recordsAllOnto, placesAll, List.map_append]
    rw [recordsOnto_number finish next parent _ tree,
      recordsAllOnto_numberAll finish _ parent _ trees, number_snd, List.append_assoc]

end

theorem records_eq (finish : Nat) (tree : Tree) :
    tree.records finish = (tree.places none 0).map (Place.record finish) := by
  rw [records, recordsOnto_number, List.append_nil]

mutual

theorem postorderOnto_eq (parent : Option Nat) (next : Nat) (rest : List Tree) :
    ∀ tree : Tree,
      tree.postorderOnto rest = (tree.places parent next).map Place.tree ++ rest
  | .leaf _ => rfl
  | .node kind children => by
    rw [postorderOnto, postorderAllOnto_eq (some (next + sizeAll children)) next _ children, places,
      List.map_append, List.append_assoc]
    rfl

theorem postorderAllOnto_eq (parent : Option Nat) (next : Nat) (rest : List Tree) :
    ∀ trees : List Tree,
      postorderAllOnto trees rest = (placesAll parent next trees).map Place.tree ++ rest
  | [] => rfl
  | tree :: trees => by
    rw [postorderAllOnto, postorderOnto_eq parent next _ tree,
      postorderAllOnto_eq parent (next + tree.size) _ trees, placesAll, List.map_append,
      List.append_assoc]

end

theorem postorder_eq (tree : Tree) :
    tree.postorder = (tree.places none 0).map Place.tree := by
  rw [postorder, postorderOnto_eq none 0, List.append_nil]

theorem postorderOnto_append (rest : List Tree) (tree : Tree) :
    tree.postorderOnto rest = tree.postorder ++ rest := by
  rw [postorderOnto_eq none 0, postorder_eq]

theorem postorderAllOnto_append (rest trees : List Tree) :
    postorderAllOnto trees rest = trees.flatMap postorder ++ rest := by
  induction trees with
  | nil => rfl
  | cons tree trees ih =>
    rw [postorderAllOnto, postorderOnto_append, ih, List.flatMap_cons, List.append_assoc]

theorem postorder_node (kind : NodeKind) (children : List Tree) :
    (node kind children).postorder = children.flatMap postorder ++ [node kind children] :=
  postorderAllOnto_append _ children

mutual

theorem map_id_places (parent : Option Nat) (next : Nat) :
    ∀ tree : Tree, (tree.places parent next).map Place.id = List.range' next tree.size
  | .leaf _ => rfl
  | .node kind children => by
    rw [places, List.map_append, map_id_placesAll _ next children, size,
      ← List.range'_append_1]
    rfl

theorem map_id_placesAll (parent : Option Nat) (next : Nat) :
    ∀ trees : List Tree,
      (placesAll parent next trees).map Place.id =
        List.range' next (sizeAll trees)
  | [] => rfl
  | tree :: trees => by
    rw [placesAll, List.map_append, map_id_places parent next tree,
      map_id_placesAll parent (next + tree.size) trees, sizeAll, ← List.range'_append_1]

end

/-! ### Places and the places below them -/

mutual

/-- What a node hands down to its children holds at every place below it. -/
theorem inherit_places {P : Tree → Prop}
    (step : ∀ kind children, P (.node kind children) → ∀ child ∈ children, P child)
    (parent : Option Nat) (next : Nat) :
    ∀ tree : Tree, P tree → ∀ place ∈ tree.places parent next, P place.tree
  | .leaf _, _, place, member => by simp [places] at member
  | .node kind children, holds, place, member => by
    rcases List.mem_append.1 member with below | own
    · exact inherit_placesAll step _ next children (step kind children holds) place below
    · rw [List.mem_singleton.1 own]
      exact holds

theorem inherit_placesAll {P : Tree → Prop}
    (step : ∀ kind children, P (.node kind children) → ∀ child ∈ children, P child)
    (parent : Option Nat) (next : Nat) :
    ∀ trees : List Tree, (∀ tree ∈ trees, P tree) →
      ∀ place ∈ placesAll parent next trees, P place.tree
  | [], _, place, member => by simp [placesAll] at member
  | tree :: trees, holds, place, member => by
    rcases List.mem_append.1 member with first | later
    · exact inherit_places step parent next tree (holds tree List.mem_cons_self) place first
    · exact inherit_placesAll step parent _ trees
        (fun tree listed => holds tree (List.mem_cons_of_mem _ listed)) place later

end

/-- What a node hands down to its children holds of every node below it. -/
theorem inherit_postorder {P : Tree → Prop}
    (step : ∀ kind children, P (.node kind children) → ∀ child ∈ children, P child)
    {tree : Tree} (holds : P tree) : ∀ below ∈ tree.postorder, P below := by
  rw [postorder_eq, List.forall_mem_map]
  exact inherit_places step none 0 tree holds

mutual

/-- The nodes below a place come right before it. -/
theorem base_places (parent : Option Nat) (next : Nat) :
    ∀ tree : Tree, ∀ place ∈ tree.places parent next,
      next ≤ place.base ∧ place.base + sizeAll place.children = place.id
  | .leaf _, place, member => by simp [places] at member
  | .node kind children, place, member => by
    rcases List.mem_append.1 member with below | own
    · exact base_placesAll _ next children place below
    · rw [List.mem_singleton.1 own]
      simp [Place.base]

theorem base_placesAll (parent : Option Nat) (next : Nat) :
    ∀ trees : List Tree, ∀ place ∈ placesAll parent next trees,
      next ≤ place.base ∧ place.base + sizeAll place.children = place.id
  | [], place, member => by simp [placesAll] at member
  | tree :: trees, place, member => by
    rcases List.mem_append.1 member with first | later
    · exact base_places parent next tree place first
    · obtain ⟨above, own⟩ := base_placesAll parent _ trees place later
      exact ⟨by omega, own⟩

end

mutual

/-- The places below a place are places too. -/
theorem placesAll_subset_places (parent : Option Nat) (next : Nat) :
    ∀ tree : Tree, ∀ place ∈ tree.places parent next,
      placesAll (some place.id) place.base place.children ⊆ tree.places parent next
  | .leaf _, place, member => by simp [places] at member
  | .node kind children, place, member => by
    rcases List.mem_append.1 member with below | own
    · exact List.Subset.trans (placesAll_subset_placesAll _ next children place below)
        (List.subset_append_left _ _)
    · rw [List.mem_singleton.1 own]
      simp [Place.base, places]

theorem placesAll_subset_placesAll (parent : Option Nat) (next : Nat) :
    ∀ trees : List Tree, ∀ place ∈ placesAll parent next trees,
      placesAll (some place.id) place.base place.children ⊆ placesAll parent next trees
  | [], place, member => by simp [placesAll] at member
  | tree :: trees, place, member => by
    rcases List.mem_append.1 member with first | later
    · exact List.Subset.trans (placesAll_subset_places parent next tree place first)
        (List.subset_append_left _ _)
    · exact List.Subset.trans (placesAll_subset_placesAll parent _ trees place later)
        (List.subset_append_right _ _)

end

/-- A number that siblings are referred to by is that of a place among them. -/
theorem exists_place_of_childRefs (parent : Option Nat) {next id : Nat}
    {trees : List Tree} (h : .node id ∈ childRefs next trees) :
    ∃ place ∈ placesAll parent next trees, place.id = id ∧ place.parent = parent := by
  induction trees generalizing next with
  | nil => simp [childRefs] at h
  | cons tree trees ih =>
    cases tree with
    | leaf token =>
      obtain ⟨place, member, own⟩ := ih (by simpa [childRefs] using h)
      exact ⟨place, List.mem_append_right _ member, own⟩
    | node kind children =>
      rcases List.mem_cons.1 h with first | later
      · cases first
        exact ⟨⟨parent, next + sizeAll children, kind, children⟩,
          List.mem_append_left _ (by simp [places]), rfl, rfl⟩
      · obtain ⟨place, member, own⟩ := ih later
        exact ⟨place, List.mem_append_right _ member, own⟩

mutual

/-- Every place but the root is referred to by its parent. -/
theorem adopted_places (parent : Option Nat) (next : Nat) :
    ∀ tree : Tree, ∀ place ∈ tree.places parent next,
      (place.parent = parent ∧ place.id + 1 = next + tree.size) ∨
        ∃ owner ∈ tree.places parent next,
          place.parent = some owner.id ∧
          .node place.id ∈ childRefs owner.base owner.children
  | .leaf _, place, member => by simp [places] at member
  | .node kind children, place, member => by
    rcases List.mem_append.1 member with below | own
    · right
      rcases adopted_placesAll _ next children place below with ⟨top, listed⟩ |
        ⟨owner, inside, adopted⟩
      · exact ⟨⟨parent, next + sizeAll children, kind, children⟩,
          List.mem_append_right _ List.mem_cons_self,
          top, by simpa [Place.base] using listed⟩
      · exact ⟨owner, List.mem_append_left _ inside, adopted⟩
    · left
      rw [List.mem_singleton.1 own]
      exact ⟨rfl, by simp [size, Nat.add_assoc]⟩

theorem adopted_placesAll (parent : Option Nat) (next : Nat) :
    ∀ trees : List Tree, ∀ place ∈ placesAll parent next trees,
      (place.parent = parent ∧ .node place.id ∈ childRefs next trees) ∨
        ∃ owner ∈ placesAll parent next trees,
          place.parent = some owner.id ∧
          .node place.id ∈ childRefs owner.base owner.children
  | [], place, member => by simp [placesAll] at member
  | tree :: trees, place, member => by
    rcases List.mem_append.1 member with first | later
    · rcases adopted_places parent next tree place first with ⟨top, last⟩ |
        ⟨owner, inside, adopted⟩
      · left
        cases tree with
        | leaf token => simp [places] at first
        | node kind children =>
          have own : place.id = next + sizeAll children := by
            rw [size] at last
            omega
          exact ⟨top, by rw [own]; exact List.mem_cons_self⟩
      · exact Or.inr ⟨owner, List.mem_append_left _ inside, adopted⟩
    · rcases adopted_placesAll parent _ trees place later with ⟨top, listed⟩ |
        ⟨owner, inside, adopted⟩
      · left
        refine ⟨top, ?_⟩
        cases tree with
        | leaf token => exact List.mem_cons_of_mem _ listed
        | node kind children => exact List.mem_cons_of_mem _ listed
      · exact Or.inr ⟨owner, List.mem_append_right _ inside, adopted⟩

end

theorem token_mem_childRefs {next index : Nat} {trees : List Tree} :
    .token index ∈ childRefs next trees ↔
      ∃ token, .leaf token ∈ trees ∧ token.index = index := by
  induction trees generalizing next with
  | nil => simp [childRefs]
  | cons tree trees ih =>
    cases tree <;> simp [childRefs, ih, or_and_right, exists_or, eq_comm]

theorem lt_of_mem_places {parent : Option Nat} {next : Nat} {tree : Tree} {place : Place}
    (member : place ∈ tree.places parent next) : place.id < next + tree.size := by
  have listed := List.mem_map_of_mem (f := Place.id) member
  rw [map_id_places, List.mem_range'_1] at listed
  exact listed.2

theorem lt_of_mem_placesAll {parent : Option Nat} {next : Nat} {trees : List Tree}
    {place : Place}
    (member : place ∈ placesAll parent next trees) : place.id < next + sizeAll trees := by
  have listed := List.mem_map_of_mem (f := Place.id) member
  rw [map_id_placesAll, List.mem_range'_1] at listed
  exact listed.2

theorem lt_of_mem_childRefs {next id : Nat} {trees : List Tree}
    (h : .node id ∈ childRefs next trees) : next ≤ id ∧ id < next + sizeAll trees := by
  obtain ⟨place, member, rfl, -⟩ := exists_place_of_childRefs none h
  have listed := List.mem_map_of_mem (f := Place.id) member
  rw [map_id_placesAll, List.mem_range'_1] at listed
  exact listed

/-- No child is referred to twice. -/
theorem count_childRefs_le (next id : Nat) (trees : List Tree) :
    (childRefs next trees).count (.node id) ≤ 1 := by
  induction trees generalizing next with
  | nil => simp [childRefs]
  | cons tree trees ih =>
    cases tree with
    | leaf token => simpa [childRefs, List.count_cons] using ih next
    | node kind children =>
      rw [childRefs, List.count_cons]
      split
      · rename_i same
        have absent : .node id ∉ childRefs (next + (sizeAll children + 1)) trees := by
          intro later
          have := (lt_of_mem_childRefs later).1
          simp at same
          omega
        simp [List.count_eq_zero.2 absent]
      · exact ih _

theorem getElem?_places {tree : Tree} {id : Nat} {place : Place} :
    (tree.places none 0)[id]? = some place ↔
      place ∈ tree.places none 0 ∧ place.id = id := by
  have own : ∀ {i : Nat} {place : Place}, (tree.places none 0)[i]? = some place →
      place.id = i := by
    intro i place found
    have numbered := congrArg (·[i]?) (map_id_places none 0 tree)
    simp only [List.getElem?_map, found, Option.map_some] at numbered
    have := List.getElem?_eq_some_iff.1 numbered.symm
    simpa using this.2.symm
  constructor
  · intro found
    exact ⟨List.mem_of_getElem? found, own found⟩
  · rintro ⟨member, rfl⟩
    obtain ⟨i, found⟩ := List.getElem?_of_mem member
    rw [own found]
    exact found

/-- A number belongs to one place. -/
theorem eq_of_id_eq {tree : Tree} {place other : Place}
    (member : place ∈ tree.places none 0) (member' : other ∈ tree.places none 0)
    (same : place.id = other.id) :
    place = other := by
  have found := getElem?_places.2 ⟨member, same⟩
  rw [getElem?_places.2 ⟨member', rfl⟩] at found
  exact (Option.some.inj found).symm

end Tree

namespace SyntaxTree

theorem nodes_get? {tree : SyntaxTree} {id : Nat} {record : NodeRecord} :
    tree.nodes.get? id = some record ↔
      ∃ place ∈ tree.root.places none 0,
        place.id = id ∧ place.record tree.stream.lexemes.length = record := by
  rw [nodes, Arena.get?, Arena.ofList, List.getElem?_toArray, Tree.records_eq,
    List.getElem?_map, Option.map_eq_some_iff]
  simp only [Tree.getElem?_places, and_assoc]

theorem size_nodes (tree : SyntaxTree) : tree.nodes.size = tree.root.size := by
  simp [nodes, Arena.size, Arena.ofList, Tree.length_records]

/-- The subtree of a number is the tree at its place. -/
theorem postorder_getElem? {tree : SyntaxTree} {id : Nat} {sub : Tree} :
    tree.root.postorder[id]? = some sub ↔
      ∃ place ∈ tree.root.places none 0, place.id = id ∧ place.tree = sub := by
  rw [Tree.postorder_eq, List.getElem?_map, Option.map_eq_some_iff]
  simp only [Tree.getElem?_places, and_assoc]

end SyntaxTree

end ShaderDialect
