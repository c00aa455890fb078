import ShaderDialect.Proofs.Idempotence

/-!
# Promotions keep the tree

Where a conversion deletes nothing, the converted shader is read into the tree
of its source, node by node: numbers, parents, children and token ranges are
the same. Of the tokens, the promoted literals alone are others.
-/

namespace ShaderDialect

namespace Tree

mutual

theorem size_respell (f : Token → Token) : ∀ tree : Tree,
    (tree.respell f).size = tree.size
  | .leaf _ => by rw [respell_leaf, size, size]
  | .node _ children => by rw [respell_node, size, size, sizeAll_respell f children]

theorem sizeAll_respell (f : Token → Token) :
    ∀ trees : List Tree, sizeAll (trees.map (respell f)) = sizeAll trees
  | [] => rfl
  | tree :: trees => by
    rw [List.map_cons, sizeAll, sizeAll, size_respell f tree, sizeAll_respell f trees]

end

section

variable {f : Token → Token} (numbers : ∀ token, (f token).index = token.index)
include numbers

theorem childRefs_respell (next : Nat) (trees : List Tree) :
    childRefs next (trees.map (respell f)) = childRefs next trees := by
  induction trees generalizing next with
  | nil => rfl
  | cons tree trees ih =>
    cases tree with
    | leaf token => rw [List.map_cons, respell_leaf, childRefs, childRefs, numbers, ih]
    | node kind children =>
      rw [List.map_cons, respell_node, childRefs, childRefs, sizeAll_respell, ih]

theorem spanOf_map (tokens : List Token) : spanOf (tokens.map f) = spanOf tokens := by
  cases tokens with
  | nil => rfl
  | cons first others =>
    rw [List.map_cons, spanOf, spanOf, numbers]
    simp only [← List.map_cons, List.getLast_map, numbers]

/-- A node keeps its record when its tokens keep their numbers. -/
theorem record_respell (finish : Nat) (parent : Option Nat) (id : Nat) (kind : NodeKind)
    (children : List Tree) :
    Place.record finish ⟨parent, id, kind, children.map (respell f)⟩ =
      Place.record finish ⟨parent, id, kind, children⟩ := by
  simp only [Place.record, Place.base, sizeAll_respell, childRefs_respell numbers,
    leavesAll_respell, spanOf_map numbers]

end

mutual

theorem map_record_places_respell {f : Token → Token}
    (numbers : ∀ token, (f token).index = token.index) (finish : Nat)
    (parent : Option Nat) (next : Nat) :
    ∀ tree : Tree, ((tree.respell f).places parent next).map (Place.record finish) =
      (tree.places parent next).map (Place.record finish)
  | .leaf _ => by rw [respell_leaf, places, places]
  | .node kind children => by
    rw [respell_node, places, places, sizeAll_respell, List.map_append, List.map_append,
      map_record_placesAll_respell numbers finish _ next children, List.map_singleton,
      List.map_singleton, record_respell numbers]

theorem map_record_placesAll_respell {f : Token → Token}
    (numbers : ∀ token, (f token).index = token.index) (finish : Nat)
    (parent : Option Nat) (next : Nat) :
    ∀ trees : List Tree,
      (placesAll parent next (trees.map (respell f))).map (Place.record finish) =
        (placesAll parent next trees).map (Place.record finish)
  | [] => rfl
  | tree :: trees => by
    rw [List.map_cons, placesAll, placesAll, size_respell, List.map_append,
      List.map_append, map_record_places_respell numbers finish parent next tree,
      map_record_placesAll_respell numbers finish parent _ trees]

end

/-- Tokens that keep their numbers are all the same to the records. -/
theorem records_respell {f : Token → Token}
    (numbers : ∀ token, (f token).index = token.index) (finish : Nat) (tree : Tree) :
    (tree.respell f).records finish = tree.records finish := by
  rw [records_eq, records_eq, map_record_places_respell numbers]

end Tree

namespace SyntaxTree

open Plan

/-- A redeclared builtin has tokens, which are deleted. -/
theorem exists_deleted_of_redeclares {source : String} {tree : SyntaxTree}
    (h : ofSource source = .ok tree) {catalog : Catalog} {id : Nat}
    (redeclares : tree.Redeclares catalog id) :
    ∃ token, (Plan.ofTree catalog tree.root).edits.get? token = some "" := by
  obtain ⟨grammatical, -, leaves, counted⟩ := ofSource_spec h
  obtain ⟨node, listed, isBuiltin⟩ := redeclares
  obtain ⟨place, member, rfl, rfl⟩ := postorder_getElem?.1 listed
  have nonempty : place.tree.leaves ≠ [] := (grammatical.place member).leaves_ne_nil <| by
    rcases isBuiltin.1 with isKind | isKind <;> simp [isKind]
  obtain ⟨before, after, -, first, last, -, -⟩ :=
    record_span leaves counted member nonempty
  have size := List.length_pos_iff.2 nonempty
  change 0 < (Tree.leavesAll place.children).length at size
  refine ⟨before.length, (get?_eq_deleted_iff h catalog).2 ⟨place.id, _,
    ⟨place.tree, listed, isBuiltin⟩,
    nodes_get?.2 ⟨place, member, rfl, rfl⟩, by omega, by omega⟩⟩

/-- If a shader is converted without a deletion, the result is read into the same
nodes. Its tokens are those of the source, where each promoted integer literal
is a floating one. -/
theorem promotion_keeps_nodes {source : String} {tree : SyntaxTree}
    (read : ofSource source = .ok tree) (catalog : Catalog)
    (separate : tree.SeparatesLiterals)
    (undeleted : ∀ token, (Plan.ofTree catalog tree.root).edits.get? token ≠ some "") :
    ∃ conversion tree', convert catalog source = .ok conversion ∧
      ofSource conversion.text = .ok tree' ∧
      tree'.rootId = tree.rootId ∧ tree'.nodes = tree.nodes ∧
      tree'.stream.tokens =
        tree.stream.tokens.map (Plan.ofTree catalog tree.root).edits.respell ∧
      ∀ token ∈ tree.stream.tokens, ∀ text,
        (Plan.ofTree catalog tree.root).edits.get? token.index = some text →
          token.kind = .intLiteral ∧ text = token.text ++ ".0" := by
  have kept : ∀ id, ¬ tree.Redeclares catalog id := by
    intro id redeclares
    obtain ⟨token, deleted⟩ := exists_deleted_of_redeclares read redeclares
    exact undeleted token deleted
  have unsuffixed : (Plan.ofTree catalog tree.root).edits.Unsuffixed tree.stream.lexemes :=
    List.IsChain.imp (fun _ _ apart _ isInt touching =>
      floatSuffix_eq_nil_of_stops (apart isInt touching)) separate
  obtain ⟨conversion, converted, spliced, -⟩ := exists_convert read kept
  obtain ⟨text, tree', spliced', reread, root⟩ := exists_reread read kept unsuffixed
  obtain rfl : conversion.text = text := Except.ok.inj (spliced.symm.trans spliced')
  have tokens : tree'.stream.tokens =
      tree.stream.tokens.map (Plan.ofTree catalog tree.root).edits.respell := by
    rw [← (ofSource_spec reread).2.2.1, root, Tree.leaves_respell,
      (ofSource_spec read).2.2.1]
  have count : tree'.stream.lexemes.length = tree.stream.lexemes.length := by
    simpa [TokenStream.tokens] using congrArg List.length tokens
  refine ⟨conversion, tree', converted, reread, ?_, ?_, tokens, ?_⟩
  · rw [rootId, root, Tree.size_respell, rootId]
  · rw [nodes, root, count, Tree.records_respell (Edits.index_respell _), nodes]
  · intro token member text planned
    obtain ⟨isDecimal, spelling⟩ := isDecimal_of_edit read kept member planned
    exact ⟨isDecimal.1, spelling⟩

theorem promotion_keeps_nodes_layout : ∃ conversion tree',
    convert Catalog.bundled "layout(location = 1) in vec2 v; float f = v.x * 2;" =
        .ok conversion ∧
      ofSource conversion.text = .ok tree' ∧
      tree'.stream.tokens.map Token.text =
        ["layout", "(", "location", "=", "1", ")", "in", "vec2", "v", ";", "float", "f",
         "=", "v", ".", "x", "*", "2.0", ";"] := by
  have read : (ofSource "layout(location = 1) in vec2 v; float f = v.x * 2;").toOption.map
      (fun tree =>
        (decide tree.SeparatesLiterals,
          (List.range tree.stream.lexemes.length).all fun token =>
            (Plan.ofTree Catalog.bundled tree.root).edits.get? token ≠ some "",
          (tree.stream.tokens.map (Plan.ofTree Catalog.bundled tree.root).edits.respell).map
            Token.text)) =
      some (true, true, ["layout", "(", "location", "=", "1", ")", "in", "vec2", "v", ";", "float",
        "f", "=", "v", ".", "x", "*", "2.0", ";"]) := by
    decide +kernel
  obtain ⟨tree, parsed, checked⟩ := exists_of_map_toOption read
  simp only [Prod.mk.injEq, decide_eq_true_eq, List.all_eq_true] at checked
  obtain ⟨separate, undeleted, respelled⟩ := checked
  obtain ⟨conversion, tree', converted, reread, -, -, tokens, -⟩ :=
    promotion_keeps_nodes parsed Catalog.bundled separate fun token deleted =>
      undeleted token (List.mem_range.2 (lt_of_edit parsed Catalog.bundled deleted)) deleted
  exact ⟨conversion, tree', converted, reread, tokens ▸ respelled⟩

end SyntaxTree

end ShaderDialect
