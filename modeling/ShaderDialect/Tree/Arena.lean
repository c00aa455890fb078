import ShaderDialect.Tree.Basic

/-!
# Numbered nodes

The nodes of a tree are numbered in the order in which they are completed:
the children of a node from left to right, then the node itself. So a node
comes after everything below it, the root comes last, and the nodes of one
subtree have consecutive numbers.
-/

namespace ShaderDialect

/-- A child of a numbered node, by number. -/
inductive ChildRef where
  | node (id : Nat)
  | token (index : Nat)
deriving DecidableEq

/-- One node of a numbered tree. A node without tokens reads as if it stood
at the end mark. -/
structure NodeRecord where
  kind : NodeKind
  parent : Option Nat
  children : List ChildRef
  first : Nat
  last : Nat

/-- The numbers of the children that are nodes. -/
def NodeRecord.childIds (record : NodeRecord) : List Nat :=
  record.children.filterMap fun
    | .node id => some id
    | .token _ => none

namespace Tree

mutual

/-- The number of nodes of a tree. -/
def size : Tree → Nat
  | .leaf _ => 0
  | .node _ children => sizeAll children + 1

def sizeAll : List Tree → Nat
  | [] => 0
  | tree :: trees => size tree + sizeAll trees

end

end Tree

/-- A tree whose nodes carry their numbers, and the numbers of the first and
last token below them; a node without tokens has none. -/
inductive NumberedTree where
  | leaf (token : Token)
  | node (id : Nat) (kind : NodeKind) (span : Option (Nat × Nat)) (children : List NumberedTree)

namespace NumberedTree

def span? : NumberedTree → Option (Nat × Nat)
  | .leaf token => some (token.index, token.index)
  | .node _ _ span _ => span

/-- From the first token of a list of siblings to the last. -/
def spanAll? : List NumberedTree → Option (Nat × Nat)
  | [] => none
  | tree :: trees =>
    match tree.span?, spanAll? trees with
    | none, later => later
    | some span, none => some span
    | some (first, _), some (_, last) => some (first, last)

/-- A child as its parent refers to it. -/
def ref : NumberedTree → ChildRef
  | .leaf token => .token token.index
  | .node id _ _ _ => .node id

mutual

/-- The records of a tree, in front of `rest`. The number `finish` is that of
the end mark. -/
def recordsOnto (finish : Nat) (parent : Option Nat) :
    NumberedTree → List NodeRecord → List NodeRecord
  | .leaf _, rest => rest
  | .node id kind span children, rest =>
    recordsAllOnto finish (some id) children
      ({ kind
         parent
         children := children.map ref
         first := (span.map Prod.fst).getD finish
         last := (span.map Prod.snd).getD finish } :: rest)

def recordsAllOnto (finish : Nat) (parent : Option Nat) :
    List NumberedTree → List NodeRecord → List NodeRecord
  | [], rest => rest
  | tree :: trees, rest =>
    recordsOnto finish parent tree (recordsAllOnto finish parent trees rest)

end

end NumberedTree

namespace Tree

mutual

/-- Number the nodes of a tree, the first of which gets the number `next`.
Behind the tree comes the number of the node after it. -/
def number (next : Nat) : Tree → NumberedTree × Nat
  | .leaf token => (.leaf token, next)
  | .node kind children =>
    let (children, id) := numberAll next children
    (.node id kind (NumberedTree.spanAll? children) children, id + 1)

def numberAll (next : Nat) : List Tree → List NumberedTree × Nat
  | [] => ([], next)
  | tree :: trees =>
    let (tree, next) := number next tree
    let (trees, next) := numberAll next trees
    (tree :: trees, next)

end

/-- The records of all nodes in the order of their numbers. -/
def records (finish : Nat) (tree : Tree) : List NodeRecord :=
  (tree.number 0).1.recordsOnto finish none []

mutual

/-- The nodes of a tree in the order of their numbers, in front of `rest`. -/
def postorderOnto : Tree → List Tree → List Tree
  | .leaf _, rest => rest
  | .node kind children, rest => postorderAllOnto children (.node kind children :: rest)

def postorderAllOnto : List Tree → List Tree → List Tree
  | [], rest => rest
  | tree :: trees, rest => postorderOnto tree (postorderAllOnto trees rest)

end

/-- The nodes of a tree in the order of their numbers. -/
def postorder (tree : Tree) : List Tree :=
  tree.postorderOnto []

mutual

/-- The numbers of a tree are consecutive. -/
theorem number_snd (next : Nat) : ∀ tree : Tree, (tree.number next).2 = next + tree.size
  | .leaf _ => rfl
  | .node _ children => by
    simp only [number, size]
    rw [numberAll_snd next children, Nat.add_assoc]

theorem numberAll_snd (next : Nat) :
    ∀ trees : List Tree, (numberAll next trees).2 = next + sizeAll trees
  | [] => rfl
  | tree :: trees => by
    simp only [numberAll, sizeAll]
    rw [numberAll_snd _ trees, number_snd next tree, Nat.add_assoc]

end

mutual

theorem length_recordsOnto (finish next : Nat) (parent : Option Nat)
    (rest : List NodeRecord) :
    ∀ tree : Tree,
      ((tree.number next).1.recordsOnto finish parent rest).length =
        tree.size + rest.length
  | .leaf _ => by simp [number, NumberedTree.recordsOnto, size]
  | .node _ children => by
    simp only [number, NumberedTree.recordsOnto, size]
    rw [length_recordsAllOnto finish next _ _ children, List.length_cons]
    omega

theorem length_recordsAllOnto (finish next : Nat) (parent : Option Nat)
    (rest : List NodeRecord) :
    ∀ trees : List Tree,
      (NumberedTree.recordsAllOnto finish parent (numberAll next trees).1 rest).length =
        sizeAll trees + rest.length
  | [] => by simp [numberAll, NumberedTree.recordsAllOnto, sizeAll]
  | tree :: trees => by
    simp only [numberAll, NumberedTree.recordsAllOnto, sizeAll]
    rw [length_recordsOnto finish next parent _ tree, length_recordsAllOnto finish _ parent _ trees]
    omega

end

/-- Every node has one record. -/
theorem length_records (finish : Nat) (tree : Tree) :
    (tree.records finish).length = tree.size :=
  length_recordsOnto finish 0 none [] tree

mutual

theorem length_postorderOnto (rest : List Tree) :
    ∀ tree : Tree, (tree.postorderOnto rest).length = tree.size + rest.length
  | .leaf _ => by simp [postorderOnto, size]
  | .node _ children => by
    simp only [postorderOnto, size]
    rw [length_postorderAllOnto _ children, List.length_cons]
    omega

theorem length_postorderAllOnto (rest : List Tree) :
    ∀ trees : List Tree,
      (postorderAllOnto trees rest).length = sizeAll trees + rest.length
  | [] => by simp [postorderAllOnto, sizeAll]
  | tree :: trees => by
    simp only [postorderAllOnto, sizeAll]
    rw [length_postorderOnto _ tree, length_postorderAllOnto _ trees]
    omega

end

theorem length_postorder (tree : Tree) : tree.postorder.length = tree.size :=
  length_postorderOnto [] tree

/-- The child nodes of `tree` with their numbers, where `record` is the record
of `tree`. -/
def numberedChildren (tree : Tree) (record : NodeRecord) : List (Nat × Tree) :=
  record.childIds.zip tree.childNodes

end Tree

end ShaderDialect
