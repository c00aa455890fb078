import ShaderDialect.Proofs.Layout

/-!
# What comes later changes nothing before it

A shader whose tokens are the first ones of a longer shader is read into the
first declarations of that shader. The walk comes to these first, and the walk
over the others writes at their tokens and nodes alone. So the plans agree on
what both have, and what is reported of the shorter shader is reported first.
-/

namespace ShaderDialect

/-- Tokens in the order of their numbers are the first ones of those whose
spellings go on. -/
theorem Token.Counted.exists_append {tokens tokens' : List Token}
    (counted : Counted tokens) (counted' : Counted tokens')
    (agree : tokens.map spelling <+: tokens'.map spelling) :
    ∃ more, tokens' = tokens ++ more := by
  obtain ⟨others, same⟩ := agree
  rw [counted'.eq_mapIdx, ← same, List.mapIdx_append, ← counted.eq_mapIdx]
  exact ⟨_, rfl⟩

namespace Tree

theorem sizeAll_append (trees others : List Tree) :
    sizeAll (trees ++ others) = sizeAll trees + sizeAll others := by
  induction trees with
  | nil => simp [sizeAll]
  | cons tree trees ih => simp [sizeAll, ih, Nat.add_assoc]

theorem placesAll_append (parent : Option Nat) (next : Nat) (trees others : List Tree) :
    placesAll parent next (trees ++ others) =
      placesAll parent next trees ++ placesAll parent (next + sizeAll trees) others := by
  induction trees generalizing next with
  | nil => simp [placesAll, sizeAll]
  | cons tree trees ih => simp [placesAll, sizeAll, ih, Nat.add_assoc]

/-- The number of the parent plays no part below it. -/
theorem exists_place_of_parent {parent : Option Nat} (parent' : Option Nat) {next : Nat}
    {trees : List Tree} {place : Place} (member : place ∈ placesAll parent next trees) :
    ∃ place' ∈ placesAll parent' next trees,
      place'.id = place.id ∧ place'.kind = place.kind ∧
      place'.children = place.children := by
  induction trees generalizing next with
  | nil => cases member
  | cons tree trees ih =>
    rw [placesAll] at member ⊢
    rcases List.mem_append.1 member with here | later
    · cases tree with
      | leaf token => cases here
      | node kind children =>
        rw [places] at here ⊢
        rcases List.mem_append.1 here with below | own
        · exact ⟨place, by simp [below], rfl, rfl, rfl⟩
        · rw [List.mem_singleton.1 own]
          exact ⟨⟨parent', _, kind, children⟩, by simp, rfl, rfl, rfl⟩
    · obtain ⟨place', listed, same⟩ := ih later
      exact ⟨place', List.mem_append_right _ listed, same⟩

end Tree

namespace Plan

/-! ### The walk over siblings in one context -/

theorem visitAll_append (context : Bool) (trees others : List Tree) (state : State) :
    visitAll (.uniform context) (trees ++ others) state =
      visitAll (.uniform context) others (visitAll (.uniform context) trees state) := by
  induction trees generalizing state with
  | nil => rfl
  | cons tree trees ih => exact ih _

theorem writesAll_append (context : Bool) (trees others : List Tree) (state : State) :
    writesAll (.uniform context) (trees ++ others) state =
      writesAll (.uniform context) trees state ++
        writesAll (.uniform context) others (visitAll (.uniform context) trees state) := by
  induction trees generalizing state with
  | nil => rw [List.nil_append, writesAll_nil, List.nil_append, visitAll]
  | cons tree trees ih =>
    rw [List.cons_append, writesAll_cons, writesAll_cons, visitAll, List.append_assoc]
    exact congrArg _ (ih _)

theorem log_unit (catalog : Catalog) (trees : List Tree) :
    log catalog (.node .unit trees) =
      writesAll (.uniform false) trees (start catalog) ++ [.stamp (Tree.sizeAll trees) false] := by
  have next := next_visitAll (.uniform false) trees (start catalog)
  have entered : entryWrites (.part false) (.node .unit trees) (start catalog) = [] := rfl
  have descends : enter (start catalog) (.part false) .unit (.node .unit trees) =
      (.descend false (.uniform false), start catalog) := rfl
  rw [log_eq_writes, writes_node, descends, entered, List.nil_append]
  dsimp only
  rw [next]
  simp [start]

theorem findings_unit (catalog : Catalog) (trees : List Tree) :
    (ofTree catalog (.node .unit trees)).findings =
      (visitAll (.uniform false) trees (start catalog)).findings :=
  rfl

end Plan

namespace SyntaxTree

section Prefix

variable {source source' : String} {tree tree' : SyntaxTree} {trees others : List Tree}
  (h : ofSource source = .ok tree) (h' : ofSource source' = .ok tree')
  (root : tree.root = .node .unit trees)
  (root' : tree'.root = .node .unit (trees ++ others))

include root in
theorem rootId_eq : tree.rootId = Tree.sizeAll trees := by
  simp [rootId, root, Tree.size]

include h h' root root'

/-- The other declarations have the tokens behind. -/
theorem map_index_leavesAll : (Tree.leavesAll others).map Token.index =
    List.range' tree.stream.lexemes.length (Tree.leavesAll others).length := by
  obtain ⟨-, -, leaves, -⟩ := ofSource_spec h
  obtain ⟨-, -, leaves', counted'⟩ := ofSource_spec h'
  rw [root, Tree.leaves_node] at leaves
  rw [← leaves', root', Tree.leaves_node, Tree.leavesAll_append, leaves, List.map_append,
    ← List.append_nil (_ ++ _)] at counted'
  have behind := (eq_range'_of_append counted').1
  simpa [TokenStream.tokens] using behind

/-- The walk over the longer shader writes what the walk over the shorter one
writes, and then at other tokens and nodes. -/
theorem exists_log (catalog : Catalog) : ∃ log later,
    Plan.log catalog tree.root = log ++ [.stamp tree.rootId false] ∧
    Plan.log catalog tree'.root = log ++ later ++ [.stamp tree'.rootId false] ∧
    (∀ token text, .spell token text ∈ later → tree.stream.lexemes.length ≤ token) ∧
    ∀ id context, .stamp id context ∈ later → tree.rootId ≤ id := by
  have numbers := map_index_leavesAll h h' root root'
  have grammatical : ∀ other ∈ others, other.Grammatical := fun other member =>
    Tree.Grammatical.child (root' ▸ (ofSource_spec h').1) other (List.mem_append_right _ member)
  have next := Plan.next_visitAll (.uniform false) trees (Plan.start catalog)
  refine ⟨Plan.writesAll (.uniform false) trees (Plan.start catalog),
    Plan.writesAll (.uniform false) others
      (Plan.visitAll (.uniform false) trees (Plan.start catalog)),
    ?_, ?_, fun token text spells => ?_, fun id context stamps => ?_⟩
  · rw [rootId_eq root, root, Plan.log_unit]
  · rw [rootId_eq root', root', Plan.log_unit, Plan.writesAll_append]
  · have listed := (Plan.spelled_writesAll grammatical ⟨_, numbers⟩).subset
      (Plan.mem_spelled.2 ⟨text, spells⟩)
    rw [numbers] at listed
    exact (List.mem_range'_1.1 listed).1
  · rw [rootId_eq root]
    have range := (Plan.range_of_stampAll grammatical stamps).1
    rw [next] at range
    simpa [Plan.start] using range

theorem edits_get?_of_lt (catalog : Catalog) {token : Nat}
    (inside : token < tree.stream.lexemes.length) :
    (Plan.ofTree catalog tree'.root).edits.get? token =
      (Plan.ofTree catalog tree.root).edits.get? token := by
  obtain ⟨log, later, own, longer, apart, -⟩ := exists_log h h' root root' catalog
  refine Option.ext fun text => ?_
  have behind : .spell token text ∉ later :=
    fun spells => absurd (apart token text spells) (by omega)
  rw [edits_get? h', edits_get? h, own, longer]
  simp [behind]

theorem contexts_get?_of_lt (catalog : Catalog) {id : Nat} (inside : id < tree.rootId) :
    (Plan.ofTree catalog tree'.root).contexts.get? id =
      (Plan.ofTree catalog tree.root).contexts.get? id := by
  obtain ⟨log, later, own, longer, -, apart⟩ := exists_log h h' root root' catalog
  have larger : tree.rootId ≤ tree'.rootId := by
    rw [rootId_eq root, rootId_eq root', Tree.sizeAll_append]
    exact Nat.le_add_right _ _
  refine Option.ext fun context => ?_
  have behind : .stamp id context ∉ later :=
    fun stamps => absurd (apart id context stamps) (by omega)
  have below : id ≠ tree.rootId := by omega
  have below' : id ≠ tree'.rootId := by omega
  rw [contexts_get? h', contexts_get? h, own, longer]
  simp [behind, below, below']

omit h h' in
/-- Nodes of the shorter shader have their numbers in the longer one. -/
theorem nodes_get?_of_lt {id : Nat} (inside : id < tree.rootId) : ∃ record record',
    tree.nodes.get? id = some record ∧ tree'.nodes.get? id = some record' ∧
      record'.kind = record.kind ∧ record'.children = record.children := by
  obtain ⟨record, -, -, found, -⟩ := adopted inside
  obtain ⟨place, member, own, rfl⟩ := nodes_get?.1 found
  rw [root, Tree.places] at member
  rw [rootId_eq root] at inside
  rcases List.mem_append.1 member with below | last
  · obtain ⟨place', listed, own', kind, children⟩ :=
      Tree.exists_place_of_parent (some (0 + Tree.sizeAll (trees ++ others))) below
    have member' : place' ∈ tree'.root.places none 0 := by
      rw [root', Tree.places, Tree.placesAll_append]
      exact List.mem_append_left _ (List.mem_append_left _ listed)
    refine ⟨_, _, found, nodes_get?.2 ⟨place', member', own'.trans own, rfl⟩, kind, ?_⟩
    simp [Place.record, Place.base, own', children]
  · rw [List.mem_singleton.1 last] at own
    simp only at own
    omega

omit h h' in
theorem findings_isPrefix (catalog : Catalog) :
    (Plan.ofTree catalog tree.root).findings.toList <+:
      (Plan.ofTree catalog tree'.root).findings.toList := by
  rw [root, root', Plan.findings_unit, Plan.findings_unit, Plan.visitAll_append]
  obtain ⟨more, same, -⟩ := Plan.reports_visitAll (.uniform false) others
    (Plan.visitAll (.uniform false) trees (Plan.start catalog))
  exact ⟨more, same.symm⟩

omit h h' in
theorem found_isPrefix (catalog : Catalog) : tree.found catalog <+: tree'.found catalog :=
  eraseDups_isPrefix ((findings_isPrefix root root' catalog).map Finding.item)

end Prefix

/-- Where the tokens of one source are the first ones of another, and both can be
read, the plans agree on the tokens and nodes that both have, but for the root.
What is found in the first is found first, and below four gigabytes the
diagnostics of the second begin with those of the first. -/
theorem plan_causal {source source' : String} {tree tree' : SyntaxTree}
    (h : ofSource source = .ok tree) (h' : ofSource source' = .ok tree')
    (agree : tree.stream.tokens.map Token.spelling <+: tree'.stream.tokens.map Token.spelling)
    (catalog : Catalog) :
    (∀ token, (Plan.ofTree catalog tree.root).edits.get? token =
      if token < tree.stream.lexemes.length then (Plan.ofTree catalog tree'.root).edits.get? token
      else none) ∧
    (∀ id < tree.rootId, ∃ record record',
      tree.nodes.get? id = some record ∧ tree'.nodes.get? id = some record' ∧
      record'.kind = record.kind ∧ record'.children = record.children ∧
      (Plan.ofTree catalog tree'.root).contexts.get? id =
        (Plan.ofTree catalog tree.root).contexts.get? id) ∧
    (Plan.ofTree catalog tree.root).findings.toList <+:
      (Plan.ofTree catalog tree'.root).findings.toList ∧
    ∃ conversion conversion',
      convert catalog source = .ok conversion ∧
      convert catalog source' = .ok conversion' ∧
      (byteSize source.toList < UInt32.size → byteSize source'.toList < UInt32.size →
        ∃ items more,
          (∀ others, tree.stream.Shows others conversion.diagnostics ↔ others = items) ∧
          ∀ others, tree'.stream.Shows others conversion'.diagnostics ↔
            others = items ++ more) := by
  obtain ⟨cut, read⟩ := ofSource_eq_ok h
  obtain ⟨cut', read'⟩ := ofSource_eq_ok h'
  obtain ⟨more, same⟩ := (counted_tokens cut).exists_append (counted_tokens cut') agree
  rw [same] at read'
  obtain ⟨trees, others, root, root'⟩ := ofTokens_append read read'
  obtain ⟨text, fits, -⟩ := exists_splice h (Plan.ofTree catalog tree.root).edits
  obtain ⟨text', fits', -⟩ := exists_splice h' (Plan.ofTree catalog tree'.root).edits
  refine ⟨fun token => ?_, fun id inside => ?_, findings_isPrefix root root' catalog, _, _,
    convert_eq_ok h fits, convert_eq_ok h' fits', fun small small' => ?_⟩
  · split_ifs with inside
    · exact (edits_get?_of_lt h h' root root' catalog inside).symm
    · exact Option.eq_none_iff_forall_not_mem.2 fun text planned =>
        inside (lt_of_edit h catalog planned)
  · obtain ⟨record, record', found, found', kind, children⟩ :=
      nodes_get?_of_lt root root' inside
    exact ⟨record, record', found, found', kind, children,
      contexts_get?_of_lt h h' root root' catalog inside⟩
  · obtain ⟨more, longer⟩ := found_isPrefix root root' catalog
    exact ⟨tree.found catalog, more, fun _ => shows_diagnose_iff h small catalog,
      fun _ => longer ▸ shows_diagnose_iff h' small' catalog⟩

theorem plan_causal_call : ∃ tree tree' conversion conversion' items more,
    ofSource "float a = sin(1);" = .ok tree ∧
      ofSource "float a = sin(1); float sin(float x); int b = a + c;" = .ok tree' ∧
      (Plan.ofTree Catalog.bundled tree'.root).edits.get? 5 = some "1.0" ∧
      convert Catalog.bundled "float a = sin(1);" = .ok conversion ∧
      convert Catalog.bundled "float a = sin(1); float sin(float x); int b = a + c;" =
        .ok conversion' ∧
      tree.stream.Shows items conversion.diagnostics ∧
      tree'.stream.Shows (items ++ more) conversion'.diagnostics := by
  have read : (ofSource "float a = sin(1);").toOption.map (fun tree =>
      (tree.stream.tokens.map Token.spelling, tree.stream.lexemes.length,
        (Plan.ofTree Catalog.bundled tree.root).edits.get? 5)) =
      some ([(.keyword, "float"), (.identifier, "a"), (.punct, "="), (.identifier, "sin"),
        (.punct, "("), (.intLiteral, "1"), (.punct, ")"), (.punct, ";")], 8,
        some "1.0") := by
    decide +kernel
  have read' : (ofSource "float a = sin(1); float sin(float x); int b = a + c;").toOption.map
      (fun tree => (tree.stream.tokens.map Token.spelling).take 8) =
      some [(.keyword, "float"), (.identifier, "a"), (.punct, "="), (.identifier, "sin"),
        (.punct, "("), (.intLiteral, "1"), (.punct, ")"), (.punct, ";")] := by
    decide +kernel
  obtain ⟨tree, parsed, shown⟩ := exists_of_map_toOption read
  obtain ⟨tree', parsed', shown'⟩ := exists_of_map_toOption read'
  simp only [Prod.mk.injEq] at shown
  obtain ⟨spellings, length, planned⟩ := shown
  have agree : tree.stream.tokens.map Token.spelling <+:
      tree'.stream.tokens.map Token.spelling := by
    rw [spellings, ← shown']
    exact List.take_prefix _ _
  obtain ⟨edits, -, -, conversion, conversion', done, done', shows⟩ :=
    plan_causal parsed parsed' agree Catalog.bundled
  obtain ⟨items, more, first, both⟩ := shows (by decide +kernel) (by decide +kernel)
  have edit := edits 5
  rw [planned, length, if_pos (by decide)] at edit
  exact ⟨tree, tree', conversion, conversion', items, more, parsed, parsed', edit.symm,
    done, done', (first items).2 rfl, (both (items ++ more)).2 rfl⟩

/-- With four gigabytes between two names of one unknown type the longer shader
shows less than the shorter one. -/
theorem causal_four_gigabytes : ∃ tree tree',
    ofSource (spread 1 "T b ;") = .ok tree ∧
    ofSource (spread 4294967291 "T b ; int c ;") = .ok tree' ∧
    tree.stream.tokens.map Token.spelling <+: tree'.stream.tokens.map Token.spelling ∧
    ∀ items items',
      tree.stream.Shows items (tree.diagnose (Plan.ofTree Catalog.bundled tree.root).findings) →
      tree'.stream.Shows items'
        (tree'.diagnose (Plan.ofTree Catalog.bundled tree'.root).findings) →
      ¬ items <+: items' := by
  have read : (ofSource (spread 1 "T b ;")).toOption.map (fun tree =>
      (tree.stream.tokens.map Token.spelling,
        (tree.diagnose (Plan.ofTree Catalog.bundled tree.root).findings).length)) =
      some ([(.identifier, "T"), (.identifier, "a"), (.punct, ";"), (.identifier, "T"),
        (.identifier, "b"), (.punct, ";")], 2) := by
    decide +kernel
  have readLonger : (ofSource (spread 1 "T b ; int c ;")).toOption.map (fun tree =>
      ((tree.stream.tokens.map Token.spelling).take 6,
        (Plan.ofTree Catalog.bundled tree.root).findings.toList.map Finding.item)) =
      some ([(.identifier, "T"), (.identifier, "a"), (.punct, ";"), (.identifier, "T"),
        (.identifier, "b"), (.punct, ";")],
        [(0, "unknown type 'T'"), (3, "unknown type 'T'")]) := by
    decide +kernel
  obtain ⟨tree, parsed, facts⟩ := exists_of_map_toOption read
  obtain ⟨spellings, two⟩ := Prod.mk.inj facts
  obtain ⟨near, nearParsed, facts'⟩ := exists_of_map_toOption readLonger
  obtain ⟨front, reported⟩ := Prod.mk.inj facts'
  obtain ⟨tree', parsed', same, one⟩ := @exists_tree_spread 4294967291 (by decide)
    "T b ; int c ;" (.identifier, "T")
    [(.identifier, "b"), (.punct, ";"), (.keyword, "int"), (.identifier, "c"),
     (.punct, ";")]
    (by decide) (by decide) (by decide +kernel) near nearParsed Catalog.bundled _ reported
    (by decide)
  refine ⟨tree, tree', parsed, parsed', ?_, fun items items' shows shows' begins => ?_⟩
  · rw [spellings, ← front, ← same]
    exact List.take_prefix _ _
  · have length := congrArg List.length shows.2
    have length' := congrArg List.length shows'.2
    rw [List.length_map, two] at length
    rw [List.length_map, one, List.length_singleton] at length'
    have shorter := begins.length_le
    omega

end SyntaxTree

end ShaderDialect
