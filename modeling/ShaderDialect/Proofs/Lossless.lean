import ShaderDialect.Proofs.Grammatical
import ShaderDialect.Proofs.Lexing
import ShaderDialect.Proofs.Numbering

/-!
# The records of a source are a tree over all its tokens

The numbered nodes of a source are judged by their records alone: who lists
whom as a child, which parent is recorded, and which tokens are met on the way
down from a node. Every node but the root has one parent, the tokens below the
root are all tokens in order, and the tokens below a node are a range.
-/

namespace ShaderDialect

/-- The tokens below a node in the order in which its record and the records
below it list them. A child has a smaller number than its parent, so only
smaller numbers are followed. -/
def Arena.tokensBelow (nodes : Arena NodeRecord) (id : Nat) : List Nat :=
  match nodes.get? id with
  | none => []
  | some record =>
    record.children.flatMap fun child =>
      match child with
      | .token index => [index]
      | .node below => if below < id then tokensBelow nodes below else []
termination_by id

namespace Tree

/-- Reading siblings through their references gives their leaves, if it does
so for each node below them. -/
theorem flatMap_childRefs {tokensOf : ChildRef → List Nat} {parent : Option Nat}
    {next : Nat} {trees : List Tree}
    (token : ∀ index, tokensOf (.token index) = [index])
    (node : ∀ place ∈ placesAll parent next trees,
      tokensOf (.node place.id) = (leavesAll place.children).map Token.index) :
    (childRefs next trees).flatMap tokensOf = (leavesAll trees).map Token.index := by
  induction trees generalizing next with
  | nil => rfl
  | cons tree trees ih =>
    have others : ∀ place ∈ placesAll parent (next + tree.size) trees,
        tokensOf (.node place.id) = (leavesAll place.children).map Token.index :=
      fun place member => node place (List.mem_append_right _ member)
    cases tree with
    | leaf leaf =>
      have tail : (childRefs next trees).flatMap tokensOf =
          (leavesAll trees).map Token.index :=
        ih others
      rw [childRefs, List.flatMap_cons, token, tail]
      simp
    | node kind children =>
      have own := node ⟨parent, next + sizeAll children, kind, children⟩
        (List.mem_append_left _ (by simp [places]))
      have tail : (childRefs (next + (sizeAll children + 1)) trees).flatMap tokensOf =
          (leavesAll trees).map Token.index := ih others
      rw [childRefs, List.flatMap_cons, own, tail]
      simp

theorem leaves_infix {kind : NodeKind} {children : List Tree} {tokens : List Token}
    (h : (node kind children).leaves <:+: tokens) :
    ∀ child ∈ children, child.leaves <:+: tokens := by
  intro child member
  obtain ⟨before, after, rfl⟩ := List.append_of_mem member
  refine List.IsInfix.trans ?_ h
  exact ⟨leavesAll before, leavesAll after, by simp [leavesAll_append]⟩

theorem leaves_subset {tree : Tree} {trees : List Tree} (member : tree ∈ trees) :
    tree.leaves ⊆ leavesAll trees := by
  have whole : (node .unit trees).leaves <:+: leavesAll trees := List.infix_refl _
  have part := leaves_infix whole tree member
  exact part.subset

theorem leaves_subset_of_mem_postorder {tree below : Tree}
    (member : below ∈ tree.postorder) :
    below.leaves ⊆ tree.leaves :=
  inherit_postorder (P := (·.leaves ⊆ tree.leaves))
    (fun _ _ leaves _ listed => List.Subset.trans (leaves_subset listed) leaves)
    (List.Subset.refl _) below member

/-- The tokens below a place stand together among all tokens. -/
theorem leavesAll_infix {tree : Tree} {place : Place}
    (member : place ∈ tree.places none 0) :
    leavesAll place.children <:+: tree.leaves :=
  inherit_places (P := (·.leaves <:+: tree.leaves)) (fun _ _ => leaves_infix) none 0 tree
    (List.infix_refl _) place member

theorem Grammatical.child {kind : NodeKind} {children : List Tree}
    (h : (Tree.node kind children).Grammatical) :
    ∀ child ∈ children, child.Grammatical := by
  cases h with
  | node form below => exact below

theorem Grammatical.child_ne_unit {kind : NodeKind} {children : List Tree}
    (h : (Tree.node kind children).Grammatical) {child : Tree}
    (member : child ∈ children) :
    child.kind? ≠ some .unit := by
  intro isUnit
  cases h with
  | node form below =>
    cases child with
    | leaf token => simp [kind?] at isUnit
    | node childKind grandchildren =>
      cases isUnit
      exact kind.unit_notMem_kinds (Form.mentions_of_mem form member)

/-- Only a unit without children has no tokens. -/
theorem Grammatical.children_eq_nil {kind : NodeKind} {children : List Tree}
    (h : (Tree.node kind children).Grammatical) (empty : leavesAll children = []) :
    kind = .unit ∧ children = [] := by
  constructor
  · by_contra inside
    exact h.leaves_ne_nil (by simpa [kind?] using inside) empty
  · cases children with
    | nil => rfl
    | cons child others =>
      have first : child ∈ child :: others := List.mem_cons_self
      rw [leavesAll_cons, List.append_eq_nil_iff] at empty
      exact absurd empty.1 ((h.child child first).leaves_ne_nil (h.child_ne_unit first))

theorem Grammatical.place {tree : Tree} (h : tree.Grammatical) {place : Place}
    (member : place ∈ tree.places none 0) : place.tree.Grammatical :=
  inherit_places (fun _ _ => Grammatical.child) none 0 tree h place member

end Tree

/-- A part of a list that counts up counts up from where it starts. -/
theorem eq_range'_of_append {before part after : List Nat} {count : Nat}
    (h : before ++ part ++ after = List.range count) :
    part = List.range' before.length part.length ∧
    before.length + part.length ≤ count := by
  have fits := congrArg List.length h
  rw [List.append_assoc, List.range_eq_range'] at h
  obtain ⟨start, -, before_eq, h⟩ := List.range'_eq_append_iff.1 h.symm
  obtain ⟨length, -, part_eq, -⟩ := List.range'_eq_append_iff.1 h.symm
  subst before_eq part_eq
  simp at fits ⊢
  omega

/-- The first and the last of tokens that are numbered one after the other. -/
theorem ends_of_range' {tokens : List Token} {start : Nat} (nonempty : tokens ≠ [])
    (numbered : tokens.map Token.index = List.range' start tokens.length) :
    (tokens.head nonempty).index = start ∧
      (tokens.getLast nonempty).index = start + tokens.length - 1 := by
  have length : tokens.length ≠ 0 :=
    fun empty => nonempty (List.length_eq_zero_iff.1 empty)
  have head := congrArg List.head? numbered
  have last := congrArg List.getLast? numbered
  rw [List.head?_map, List.head?_eq_some_head nonempty, List.head?_range',
    if_neg length] at head
  rw [List.getLast?_map, List.getLast?_eq_some_getLast nonempty, List.getLast?_range',
    if_neg length] at last
  exact ⟨Option.some.inj head, by simpa using last⟩

namespace SyntaxTree

/-- The records give the leaves of every node. -/
theorem tokensBelow_place (tree : SyntaxTree) {place : Place}
    (member : place ∈ tree.root.places none 0) :
    tree.nodes.tokensBelow place.id =
      (Tree.leavesAll place.children).map Token.index := by
  induction number : place.id using Nat.strongRecOn generalizing place with
  | _ id ih =>
    subst number
    have found := nodes_get?.2 ⟨place, member, rfl, rfl⟩
    have inside := (Tree.base_places none 0 tree.root place member).2
    rw [Arena.tokensBelow, found]
    refine Tree.flatMap_childRefs (fun _ => rfl) fun below (listed : below ∈
      Tree.placesAll (some place.id) place.base place.children) => ?_
    have smaller : below.id < place.id := inside ▸ Tree.lt_of_mem_placesAll listed
    have member' := Tree.placesAll_subset_places none 0 tree.root place member listed
    simp only [if_pos smaller]
    exact ih below.id smaller member' rfl

/-- The numbers of tokens that stand together are a range, from that of the
first to that of the last. -/
theorem span_of_append {before part after : List Token} {count : Nat}
    (nonempty : part ≠ [])
    (counted : (before ++ part ++ after).map Token.index = List.range count) :
    Tree.spanOf part = some (before.length, before.length + part.length - 1) ∧
      part.map Token.index = List.range' before.length part.length ∧
      before.length + part.length ≤ count := by
  rw [List.map_append, List.map_append] at counted
  obtain ⟨numbers, fits⟩ := eq_range'_of_append counted
  rw [List.length_map, List.length_map] at numbers fits
  obtain ⟨head, last⟩ := ends_of_range' nonempty numbers
  refine ⟨?_, numbers, fits⟩
  cases part with
  | nil => exact absurd rfl nonempty
  | cons first others => rw [Tree.spanOf, ← last, ← head, List.head_cons]

/-- What a source is read as. -/
theorem ofSource_spec {source : String} {tree : SyntaxTree}
    (h : ofSource source = .ok tree) :
    tree.root.Grammatical ∧ tree.root.kind? = some .unit ∧
    tree.root.leaves = tree.stream.tokens ∧
      tree.stream.tokens.map Token.index = List.range tree.stream.lexemes.length := by
  obtain ⟨cut, read⟩ := ofSource_eq_ok h
  obtain ⟨grammatical, isUnit, leaves⟩ := ofTokens_spec read
  exact ⟨grammatical, isUnit, leaves, map_index_tokens cut⟩

section Root

variable {tree : SyntaxTree} (isUnit : tree.root.kind? = some .unit)

include isUnit

/-- The root is the last place. -/
theorem exists_root_place :
    ∃ place ∈ tree.root.places none 0, place.id = tree.rootId ∧ place.parent = none ∧
      place.tree = tree.root ∧ tree.root.size = tree.rootId + 1 := by
  unfold rootId
  cases shape : tree.root with
  | leaf token => simp [shape, Tree.kind?] at isUnit
  | node kind children =>
    refine ⟨⟨none, 0 + Tree.sizeAll children, kind, children⟩, ?_, ?_, rfl, rfl, ?_⟩
    · simp [Tree.places]
    · simp [Tree.size]
    · simp [Tree.size]

end Root

/-- No unit stands inside another. -/
theorem id_of_unit {tree : SyntaxTree} (grammatical : tree.root.Grammatical)
    {place : Place} (member : place ∈ tree.root.places none 0)
    (isUnit : place.kind = .unit) :
    place.id = tree.rootId := by
  unfold rootId
  cases shape : tree.root with
  | leaf token => simp [shape, Tree.places] at member
  | node kind children =>
    rw [shape] at member grammatical
    rcases List.mem_append.1 member with below | own
    · have inside := Tree.inherit_placesAll
        (P := fun tree => tree.Grammatical ∧ tree.kind? ≠ some .unit)
        (fun _ _ h child listed => ⟨h.1.child child listed, h.1.child_ne_unit listed⟩) _ 0 children
        (fun child listed => ⟨grammatical.child child listed, grammatical.child_ne_unit listed⟩)
        place below
      exact absurd (congrArg some isUnit) inside.2
    · rw [List.mem_singleton.1 own]
      simp [Tree.size]

/-- Children are numbered before their parent. -/
theorem lt_of_listed {tree : SyntaxTree} {owner : Place} {id : Nat}
    (member : owner ∈ tree.root.places none 0)
    (listed : .node id ∈ Tree.childRefs owner.base owner.children) : id < owner.id := by
  have below := (Tree.lt_of_mem_childRefs listed).2
  rwa [(Tree.base_places none 0 tree.root owner member).2] at below

theorem id_le_rootId {tree : SyntaxTree} {place : Place}
    (member : place ∈ tree.root.places none 0) : place.id ≤ tree.rootId :=
  Nat.le_sub_one_of_lt (Nat.zero_add tree.root.size ▸ Tree.lt_of_mem_places member)

/-- Every node but the root is listed by one node, once, which is its recorded
parent and has a larger number. -/
theorem adopted {tree : SyntaxTree} {id : Nat} (inside : id < tree.rootId) :
    ∃ record parent owner,
      tree.nodes.get? id = some record ∧ record.parent = some parent ∧ id < parent ∧
      tree.nodes.get? parent = some owner ∧ owner.children.count (.node id) = 1 ∧
      ∀ other otherRecord, tree.nodes.get? other = some otherRecord →
        .node id ∈ otherRecord.children → other = parent := by
  have bound : id < (tree.root.places none 0).length := by
    have := congrArg List.length (Tree.map_id_places none 0 tree.root)
    rw [List.length_map, List.length_range'] at this
    unfold rootId at inside
    omega
  obtain ⟨member, own⟩ := Tree.getElem?_places.1 (List.getElem?_eq_getElem bound)
  generalize (tree.root.places none 0)[id] = place at member own
  subst own
  rcases Tree.adopted_places none 0 tree.root place member with
    ⟨-, last⟩ | ⟨owner, ownerMember, parent_eq, listed⟩
  · unfold rootId at inside
    omega
  · have once : (Tree.childRefs owner.base owner.children).count (.node place.id) = 1 :=
      Nat.le_antisymm (Tree.count_childRefs_le _ _ _) (List.count_pos_iff.2 listed)
    refine ⟨_, owner.id, _, nodes_get?.2 ⟨place, member, rfl, rfl⟩, parent_eq,
      lt_of_listed ownerMember listed, nodes_get?.2 ⟨owner, ownerMember, rfl, rfl⟩,
      once, ?_⟩
    intro other otherRecord found listedOther
    obtain ⟨place', member', rfl, rfl⟩ := nodes_get?.1 found
    -- The place that the other node lists has this number too, so it is this place.
    obtain ⟨below, belowMember, belowId, belowParent⟩ :=
      Tree.exists_place_of_childRefs (some place'.id) listedOther
    have same := Tree.eq_of_id_eq
      (Tree.placesAll_subset_places none 0 tree.root place' member' belowMember) member belowId
    rw [same, parent_eq] at belowParent
    exact (Option.some.inj belowParent).symm

/-- The tokens below a place stand in the stream from the first token of its
record to the last. -/
theorem record_span {tree : SyntaxTree} (leaves : tree.root.leaves = tree.stream.tokens)
    (counted : tree.stream.tokens.map Token.index = List.range tree.stream.lexemes.length)
    {place : Place} (member : place ∈ tree.root.places none 0)
    (nonempty : Tree.leavesAll place.children ≠ []) :
    ∃ before after,
      before ++ Tree.leavesAll place.children ++ after = tree.stream.tokens ∧
      (place.record tree.stream.lexemes.length).first = before.length ∧
      (place.record tree.stream.lexemes.length).last + 1 =
        before.length + (Tree.leavesAll place.children).length ∧
      (Tree.leavesAll place.children).map Token.index =
        List.range' before.length (Tree.leavesAll place.children).length ∧
      before.length + (Tree.leavesAll place.children).length ≤
        tree.stream.lexemes.length := by
  obtain ⟨before, after, split⟩ := Tree.leavesAll_infix member
  rw [leaves] at split
  rw [← split] at counted
  obtain ⟨span, numbers, fits⟩ := span_of_append nonempty counted
  have size := List.length_pos_iff.2 nonempty
  refine ⟨before, after, split, ?_, ?_, numbers, fits⟩
  · simp only [Place.record, span, Option.map_some, Option.getD_some]
  · simp only [Place.record, span, Option.map_some, Option.getD_some]
    omega

/-- The records of a source are a tree over all its tokens. -/
theorem lossless {source : String} {tree : SyntaxTree} (h : ofSource source = .ok tree) :
    (tree.nodes.size = tree.rootId + 1 ∧
      (∃ root, tree.nodes.get? tree.rootId = some root ∧ root.kind = .unit ∧
        root.parent = none) ∧
      ∀ other record, tree.nodes.get? other = some record →
        .node tree.rootId ∉ record.children) ∧
    (∀ id < tree.rootId, ∃ record parent owner,
      tree.nodes.get? id = some record ∧ record.parent = some parent ∧ id < parent ∧
      tree.nodes.get? parent = some owner ∧ owner.children.count (.node id) = 1 ∧
      ∀ other otherRecord, tree.nodes.get? other = some otherRecord →
        .node id ∈ otherRecord.children → other = parent) ∧
    (tree.stream.tokens.map Token.index = List.range tree.stream.lexemes.length ∧
      (∀ token ∈ tree.stream.tokens, token.kind ≠ .finish) ∧
      tree.nodes.tokensBelow tree.rootId = List.range tree.stream.lexemes.length) ∧
    ∀ id record, tree.nodes.get? id = some record →
      (id = tree.rootId ∧ record.children = [] ∧ tree.stream.tokens = []) ∨
      (record.first ≤ record.last ∧ record.last < tree.stream.lexemes.length ∧
        tree.nodes.tokensBelow id = List.range' record.first (record.last + 1 - record.first) ∧
        (tree.root.postorder[id]?).map Tree.text =
          some (String.join
            (((tree.stream.tokens.drop record.first).take (record.last + 1 - record.first)).map
              Token.text))) := by
  obtain ⟨grammatical, isUnit, leaves, counted⟩ := ofSource_spec h
  obtain ⟨rootPlace, rootMember, rootOwn, noParent, shape, size⟩ :=
    exists_root_place isUnit
  have rootLeaves : Tree.leavesAll rootPlace.children = tree.stream.tokens := by
    rw [← leaves, ← shape]
    rfl
  refine ⟨?_, fun id => adopted, ⟨counted, ?_, ?_⟩, ?_⟩
  · refine ⟨by rw [size_nodes, size], ⟨rootPlace.record _,
      nodes_get?.2 ⟨rootPlace, rootMember, rootOwn, rfl⟩, ?_, noParent⟩, ?_⟩
    · rw [← shape] at isUnit
      exact Option.some.inj isUnit
    · intro other record found listed
      obtain ⟨owner, member, rfl, rfl⟩ := nodes_get?.1 found
      have larger := lt_of_listed member listed
      have smaller := id_le_rootId member
      omega
  · intro token member
    obtain ⟨_, _, _, scanned, -⟩ := exists_scan_of_mem (ofSource_eq_ok h).1 member
    exact Token.scan?_ne_finish scanned
  · rw [← rootOwn, tokensBelow_place tree rootMember, rootLeaves, counted]
  · intro id record found
    obtain ⟨place, member, rfl, rfl⟩ := nodes_get?.1 found
    by_cases empty : Tree.leavesAll place.children = []
    · left
      obtain ⟨isUnit', noChildren⟩ := (grammatical.place member).children_eq_nil empty
      have own := id_of_unit grammatical member isUnit'
      have same := Tree.eq_of_id_eq member rootMember (own.trans rootOwn.symm)
      refine ⟨own, ?_, ?_⟩
      · rw [Place.record, noChildren]
        rfl
      · rw [← rootLeaves, ← same, empty]
    · right
      obtain ⟨before, after, split, first, last, numbers, fits⟩ :=
        record_span leaves counted member empty
      have size := List.length_pos_iff.2 empty
      rw [first, last, Nat.add_sub_cancel_left]
      refine ⟨by omega, by omega, ?_, ?_⟩
      · rw [tokensBelow_place tree member, numbers]
      · rw [postorder_getElem?.2 ⟨place, member, rfl, rfl⟩, ← split, List.append_assoc,
          List.drop_left, List.take_left]
        rfl

theorem lossless_call : ∃ tree, ofSource "float k = f(1, x[0])[2];" = .ok tree ∧
    tree.nodes.tokensBelow tree.rootId =
      [0, 1, 2, 3, 4, 5, 6, 7, 8, 9, 10, 11, 12, 13, 14, 15] := by
  have read : (ofSource "float k = f(1, x[0])[2];").toOption.map (·.stream.lexemes.length) =
      some 16 := by
    decide +kernel
  obtain ⟨tree, parsed, count⟩ := exists_of_map_toOption read
  refine ⟨tree, parsed, ?_⟩
  rw [(lossless parsed).2.2.1.2.2, count]
  rfl

end SyntaxTree

end ShaderDialect
