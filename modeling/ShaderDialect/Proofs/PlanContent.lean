import Mathlib.Data.List.Nodup
import Mathlib.Logic.Relation
import ShaderDialect.Conversion
import ShaderDialect.Proofs.Spellings

/-!
# What a plan consists of

A plan stamps every node that stands below no redeclared builtin, once. It
deletes the tokens of the redeclared builtins, and of the other tokens it
promotes the decimal integer literals whose node is stamped as floating.
-/

namespace ShaderDialect

namespace Plan

/-- The context of a node is the one it was stamped with, if it was stamped
once. -/
theorem get?_onContexts {log : List Write} (once : (stamped log).Nodup)
    (contexts : SideTable Bool) (node : Nat) (context : Bool) :
    (log.foldl Write.onContexts contexts).get? node = some context ↔
      .stamp node context ∈ log ∨
        node ∉ stamped log ∧ contexts.get? node = some context := by
  induction log generalizing contexts with
  | nil => simp [stamped]
  | cons write log ih =>
    cases write with
    | stamp node' context' =>
      rw [stamped, List.nodup_cons] at once
      have fresh : ∀ context, .stamp node' context ∈ log → False :=
        fun context listed => once.1 (mem_stamped.2 ⟨context, listed⟩)
      rw [List.foldl_cons, ih once.2, stamped, Write.onContexts, SideTable.get?_insert]
      simp only [List.mem_cons, Write.stamp.injEq]
      grind
    | spell token text =>
      rw [List.foldl_cons, ih once, stamped, Write.onContexts]
      simp

/-- The spelling of a token is the one it was given, if it was given one. -/
theorem get?_onEdits {log : List Write} (once : (spelled log).Nodup) {edits : Edits}
    (unspelled : ∀ token ∈ spelled log, edits.get? token = none) (token : Nat)
    (text : String) :
    (log.foldl Write.onEdits edits).get? token = some text ↔
      .spell token text ∈ log ∨ edits.get? token = some text := by
  induction log generalizing edits with
  | nil => simp
  | cons write log ih =>
    cases write with
    | stamp node context =>
      rw [List.foldl_cons, Write.onEdits, ih once unspelled]
      simp
    | spell token' text' =>
      rw [spelled] at once unspelled
      have fresh := (List.nodup_cons.1 once).1
      have new := unspelled token' List.mem_cons_self
      rw [List.foldl_cons, ih (List.nodup_cons.1 once).2]
      · simp only [Write.onEdits, Edits.get?_replace, List.mem_cons, Write.spell.injEq]
        grind
      · intro other member
        have apart : other ≠ token' := fun same => fresh (same ▸ member)
        rw [Write.onEdits, Edits.get?_replace, if_neg apart]
        exact unspelled other (List.mem_cons_of_mem _ member)

end Plan

/-- A decimal integer literal. -/
def Token.IsDecimal (token : Token) : Prop :=
  token.kind = .intLiteral ∧
    (token.text = "0" ∨ ∃ c cs, token.text.toList = c :: cs ∧ '1' ≤ c ∧ c ≤ '9')

theorem isDigit_iff (c : Char) : Literal.isDigit c ↔ c = '0' ∨ ('1' ≤ c ∧ c ≤ '9') := by
  have zero : c = '0' ↔ c.toNat = 48 := by
    rw [← Char.toNat_inj]
    rfl
  simp only [Literal.isDigit, Bool.and_eq_true, decide_eq_true_eq, zero, Char.le_def,
    UInt32.le_iff_toNat_le]
  simp only [Char.toNat]
  have : ('0' : Char).val.toNat = 48 := rfl
  have : ('1' : Char).val.toNat = 49 := rfl
  have : ('9' : Char).val.toNat = 57 := rfl
  omega

/-- Decimal literals are promoted by a point and a zero, and nothing else is
promoted. -/
theorem Plan.promoted?_eq_some_iff {cs read rest : List Char} {token : Token}
    {text : String} (scanned : Token.scan? cs = some (token.kind, read, rest))
    (spelling : token.text = String.ofList read) :
    promoted? token = some text ↔ token.IsDecimal ∧ token.text ++ ".0" = text := by
  unfold promoted? Token.IsDecimal
  by_cases isInt : token.kind = .intLiteral
  · have list : token.text.toList = read := by rw [spelling, String.toList_ofList]
    have zero : token.text = "0" ↔ read = ['0'] := by
      rw [← list, ← String.toList_inj]
      rfl
    rw [isInt] at scanned
    simp only [isInt, list, zero, true_and]
    rcases Token.scan?_intLiteral scanned with ⟨x, digits, rfl, -⟩ | ⟨nonempty, digits⟩
    · simp
    · cases read with
      | nil => exact absurd rfl nonempty
      | cons c tail =>
        have digit := (isDigit_iff c).1 (digits c List.mem_cons_self)
        rcases digit with rfl | ⟨low, high⟩
        · cases tail <;> simp
        · have notZero : c ≠ '0' := by
            rintro rfl
            exact absurd low (by decide)
          simp [notZero, low, high]
  · split <;> simp_all

namespace SyntaxTree

/-- Whether a node stands below another, judged by the parents on record. -/
def Below (tree : SyntaxTree) : Nat → Nat → Prop :=
  Relation.TransGen fun child parent =>
    ∃ record, tree.nodes.get? child = some record ∧ record.parent = some parent

/-- Whether the node of the given number redeclares a builtin. -/
def Redeclares (tree : SyntaxTree) (catalog : Catalog) (id : Nat) : Prop :=
  ∃ node, tree.root.postorder[id]? = some node ∧ node.Redeclares catalog

/-- The places below a place are those with the numbers from its base up to
its own. -/
theorem mem_placesAll_of_range {tree : SyntaxTree} {outer place : Place}
    (outerMember : outer ∈ tree.root.places none 0)
    (member : place ∈ tree.root.places none 0)
    (range : outer.base ≤ place.id ∧ place.id < outer.id) :
    place ∈ Tree.placesAll (some outer.id) outer.base outer.children := by
  have inside := (Tree.base_places none 0 tree.root outer outerMember).2
  have listed : place.id ∈ (Tree.placesAll (some outer.id) outer.base outer.children).map
      Place.id := by
    rw [Tree.map_id_placesAll, List.mem_range'_1, inside]
    exact range
  obtain ⟨below, belowMember, same⟩ := List.mem_map.1 listed
  have sub := Tree.placesAll_subset_places none 0 tree.root outer outerMember belowMember
  rwa [Tree.eq_of_id_eq sub member same] at belowMember

/-- A recorded parent lists the node. -/
theorem exists_owner {tree : SyntaxTree} {id parent : Nat} {record : NodeRecord}
    (found : tree.nodes.get? id = some record) (recorded : record.parent = some parent) :
    ∃ owner ∈ tree.root.places none 0, owner.id = parent ∧
      .node id ∈ Tree.childRefs owner.base owner.children := by
  obtain ⟨place, member, rfl, rfl⟩ := nodes_get?.1 found
  rcases Tree.adopted_places none 0 tree.root place member with
    ⟨top, -⟩ | ⟨owner, ownerMember, parent_eq, listed⟩
  · cases top.symm.trans recorded
  · exact ⟨owner, ownerMember, Option.some.inj (parent_eq.symm.trans recorded), listed⟩

/-- Whether a token stands in a redeclared builtin, from its first token to its
last. -/
def InRedeclared (tree : SyntaxTree) (catalog : Catalog) (token : Nat) : Prop :=
  ∃ outer record, tree.Redeclares catalog outer ∧ tree.nodes.get? outer = some record ∧
    record.first ≤ token ∧ token ≤ record.last

/-- The nodes below a node are numbered from its base up to its own number. -/
theorem below_iff {tree : SyntaxTree} {outer : Place}
    (member : outer ∈ tree.root.places none 0)
    {id : Nat} : tree.Below id outer.id ↔ outer.base ≤ id ∧ id < outer.id := by
  constructor
  · intro below
    induction below using Relation.TransGen.head_induction_on with
    | single step =>
      obtain ⟨record, found, recorded⟩ := step
      obtain ⟨owner, ownerMember, own, listed⟩ := exists_owner found recorded
      rw [Tree.eq_of_id_eq ownerMember member own] at listed
      exact ⟨(Tree.lt_of_mem_childRefs listed).1, lt_of_listed member listed⟩
    | head step _ ih =>
      obtain ⟨record, found, recorded⟩ := step
      obtain ⟨owner, ownerMember, rfl, listed⟩ := exists_owner found recorded
      have inside := mem_placesAll_of_range member ownerMember ih
      have base := (Tree.base_placesAll _ _ _ owner inside).1
      exact ⟨Nat.le_trans base (Tree.lt_of_mem_childRefs listed).1,
        Nat.lt_trans (lt_of_listed ownerMember listed) ih.2⟩
  · intro range
    -- The parent has a larger number, so the climb ends at `outer`.
    induction distance : outer.id - id using Nat.strongRecOn generalizing id with
    | _ n ih =>
      subst distance
      have inside := (Tree.base_places none 0 tree.root outer member).2
      have listed : id ∈ (Tree.placesAll (some outer.id) outer.base outer.children).map
          Place.id := by
        rw [Tree.map_id_placesAll, List.mem_range'_1, inside]
        exact range
      obtain ⟨place, placeMember, rfl⟩ := List.mem_map.1 listed
      have sub := Tree.placesAll_subset_places none 0 tree.root outer member
      have found := nodes_get?.2 ⟨place, sub placeMember, rfl, rfl⟩
      rcases Tree.adopted_placesAll _ _ _ place placeMember with
        ⟨top, -⟩ | ⟨owner, ownerMember, parent_eq, owned⟩
      · exact Relation.TransGen.single ⟨_, found, top⟩
      · have larger := lt_of_listed (sub ownerMember) owned
        have smaller : owner.id < outer.id :=
          inside ▸ Tree.lt_of_mem_placesAll ownerMember
        refine Relation.TransGen.head ⟨_, found, parent_eq⟩
          (ih (outer.id - owner.id) ?_ ⟨?_, smaller⟩ rfl)
        · exact Nat.sub_lt_sub_left range.2 larger
        · exact Nat.le_trans range.1 (Nat.le_of_lt larger)

end SyntaxTree

namespace SyntaxTree

theorem redeclares_iff {tree : SyntaxTree} {catalog : Catalog} {id : Nat} :
    tree.Redeclares catalog id ↔
      ∃ outer ∈ tree.root.places none 0, outer.id = id ∧
        outer.tree.redeclares catalog := by
  simp only [Redeclares, postorder_getElem?, Tree.redeclares_iff]
  grind

section Content

variable {source : String} {tree : SyntaxTree} (h : ofSource source = .ok tree)
    (catalog : Catalog)

include h

theorem consecutive_leaves : Plan.Consecutive tree.root.leaves := by
  obtain ⟨-, -, leaves, counted⟩ := ofSource_spec h
  refine ⟨0, ?_⟩
  rw [leaves, counted, List.range_eq_range', TokenStream.tokens, List.length_map]

/-- The walk stamps the visible nodes once. -/
theorem stamped_log :
    Plan.stamped (Plan.log catalog tree.root) = Plan.visible catalog 0 tree.root := by
  rw [Plan.log_eq_writes]
  exact Plan.stamped_writes trivial (ofSource_spec h).1

/-- The walk gives spellings to tokens of the source, in their order. -/
theorem spelled_log : (Plan.spelled (Plan.log catalog tree.root)).Sublist
    (List.range tree.stream.lexemes.length) := by
  obtain ⟨grammatical, -, leaves, counted⟩ := ofSource_spec h
  rw [← counted, ← leaves, Plan.log_eq_writes]
  exact Plan.spelled_writes trivial grammatical (consecutive_leaves h)

/-- The walk gives each token at most one spelling. -/
theorem nodup_spelled_log : (Plan.spelled (Plan.log catalog tree.root)).Nodup :=
  (spelled_log h catalog).nodup List.nodup_range

theorem contexts_get? {id : Nat} {context : Bool} :
    (Plan.ofTree catalog tree.root).contexts.get? id = some context ↔
      .stamp id context ∈ Plan.log catalog tree.root := by
  have once : (Plan.stamped (Plan.log catalog tree.root)).Nodup := by
    rw [stamped_log h]
    exact Plan.nodup_visible _ _ _
  have empty : (SideTable.emptyWithCapacity tree.root.size : SideTable Bool).get? id =
      none := by
    simp [SideTable.get?, SideTable.emptyWithCapacity]
  exact (Plan.get?_onContexts once _ id context).trans (by simp [empty])

theorem edits_get? {token : Nat} {text : String} :
    (Plan.ofTree catalog tree.root).edits.get? token = some text ↔
      .spell token text ∈ Plan.log catalog tree.root := by
  have empty : ∀ token, Edits.empty.get? token = none := by simp [Edits.get?, Edits.empty]
  exact (Plan.get?_onEdits (nodup_spelled_log h catalog) (fun token _ => empty token) token
    text).trans (by simp [empty])

/-- Spellings are planned for tokens of the source alone. -/
theorem lt_of_edit {token : Nat} {text : String}
    (planned : (Plan.ofTree catalog tree.root).edits.get? token = some text) :
    token < tree.stream.lexemes.length := by
  have spells := Plan.mem_spelled.2 ⟨text, (edits_get? h catalog).1 planned⟩
  exact List.mem_range.1 ((spelled_log h catalog).subset spells)

/-- A node is stamped unless it stands below a redeclared builtin. -/
theorem mem_stamped_log (id : Nat) :
    id ∈ Plan.stamped (Plan.log catalog tree.root) ↔
      id < tree.nodes.size ∧
        ¬ ∃ outer, tree.Redeclares catalog outer ∧ tree.Below id outer := by
  rw [stamped_log h, Plan.mem_visible catalog none, size_nodes]
  simp only [Nat.zero_le, Nat.zero_add, true_and, not_exists, not_and, redeclares_iff]
  refine and_congr_right fun _ => ⟨?_, ?_⟩
  · rintro open_ _ ⟨outer, member, rfl, redeclares⟩ below
    exact open_ outer member ⟨redeclares, (below_iff member).1 below⟩
  · intro open_ outer member hides
    exact open_ outer.id ⟨outer, member, rfl, hides.1⟩ ((below_iff member).2 hides.2)

theorem edits_get?_iff (token : Nat) (text : String) :
    (Plan.ofTree catalog tree.root).edits.get? token = some text ↔
      Plan.Deleted catalog (tree.root.places none 0) token text ∨
        Plan.Promoted (tree.root.places none 0) (Plan.log catalog tree.root) token text := by
  rw [edits_get? h, Plan.log_eq_writes,
    Plan.spell_mem_writes (.part false) none token text _ trivial
    (ofSource_spec h).1 (consecutive_leaves h)]
  simp [Plan.start, Scope.initial]

theorem deleted_iff {token : Nat} {text : String} :
    Plan.Deleted catalog (tree.root.places none 0) token text ↔
      tree.InRedeclared catalog token ∧ text = "" := by
  obtain ⟨grammatical, -, leaves, counted⟩ := ofSource_spec h
  have span : ∀ outer ∈ tree.root.places none 0, outer.tree.redeclares catalog →
      (token ∈ (Tree.leavesAll outer.children).map Token.index ↔
        (outer.record tree.stream.lexemes.length).first ≤ token ∧
          token ≤ (outer.record tree.stream.lexemes.length).last) := by
    intro outer member redeclares
    have inside : outer.tree.kind? ≠ some .unit := by
      intro isUnit
      simp [Tree.redeclares, Tree.hasKind, isUnit] at redeclares
    have nonempty := (grammatical.place member).leaves_ne_nil inside
    obtain ⟨before, after, -, first, last, numbers, -⟩ :=
      record_span leaves counted member nonempty
    rw [numbers, List.mem_range'_1, first]
    omega
  constructor
  · rintro ⟨outer, member, redeclares, listed, rfl⟩
    exact ⟨⟨outer.id, _, redeclares_iff.2 ⟨outer, member, rfl, redeclares⟩,
      nodes_get?.2 ⟨outer, member, rfl, rfl⟩,
      (span outer member redeclares).1 listed⟩, rfl⟩
  · rintro ⟨⟨id, record, redeclared, found, range⟩, rfl⟩
    obtain ⟨outer, member, rfl, redeclares⟩ := redeclares_iff.1 redeclared
    obtain ⟨place, placeMember, own, rfl⟩ := nodes_get?.1 found
    rw [Tree.eq_of_id_eq placeMember member own] at range
    exact ⟨outer, member, redeclares, (span outer member redeclares).2 range, rfl⟩

theorem promoted_iff {token : Nat} {text : String} :
    Plan.Promoted (tree.root.places none 0) (Plan.log catalog tree.root) token text ↔
      ∃ literal ∈ tree.stream.tokens, literal.index = token ∧ literal.IsDecimal ∧
        literal.text ++ ".0" = text ∧
        ∃ id record, tree.nodes.get? id = some record ∧ .token token ∈ record.children ∧
          (Plan.ofTree catalog tree.root).contexts.get? id = some true := by
  obtain ⟨-, -, leaves, counted⟩ := ofSource_spec h
  have decimal : ∀ leaf ∈ tree.stream.tokens,
      (Plan.promoted? leaf = some text ↔ leaf.IsDecimal ∧ leaf.text ++ ".0" = text) := by
    intro leaf member
    obtain ⟨cs, read, rest, scanned, spelling⟩ :=
      exists_scan_of_mem (ofSource_eq_ok h).1 member
    exact Plan.promoted?_eq_some_iff scanned spelling
  have among : ∀ place ∈ tree.root.places none 0, ∀ leaf, .leaf leaf ∈ place.children →
      leaf ∈ tree.stream.tokens := by
    intro place member leaf listed
    rw [← leaves]
    have own : place.tree.leaves <:+: tree.root.leaves := Tree.leavesAll_infix member
    exact (Tree.leaves_infix own _ listed).subset List.mem_cons_self
  constructor
  · rintro ⟨place, member, stamped, leaf, listed, rfl, promotes⟩
    have known := among place member leaf listed
    obtain ⟨isDecimal, spelling⟩ := (decimal leaf known).1 promotes
    exact ⟨leaf, known, rfl, isDecimal, spelling, place.id, _,
      nodes_get?.2 ⟨place, member, rfl, rfl⟩,
      Tree.token_mem_childRefs.2 ⟨leaf, listed, rfl⟩,
      (contexts_get? h catalog).2 stamped⟩
  · rintro ⟨literal, known, rfl, isDecimal, spelling, id, record, found, listed, context⟩
    obtain ⟨place, member, rfl, rfl⟩ := nodes_get?.1 found
    obtain ⟨leaf, hangs, same⟩ := Tree.token_mem_childRefs.1 listed
    have equal : leaf = literal := by
      have nodup : (tree.stream.tokens.map Token.index).Nodup :=
        counted ▸ List.nodup_range
      exact List.inj_on_of_nodup_map nodup (among place member leaf hangs) known same
    subst equal
    exact ⟨place, member, (contexts_get? h catalog).1 context, leaf, hangs, rfl,
      (decimal leaf known).2 ⟨isDecimal, spelling⟩⟩

end Content

/-- The plan for a source: the walk stamps every node once, unless it stands
below a redeclared builtin. It spells no token twice. It deletes the tokens of
redeclared builtins, promotes the decimal literals of floating nodes outside
them, and leaves all other tokens alone. -/
theorem plan_content {source : String} {tree : SyntaxTree}
    (h : ofSource source = .ok tree) (catalog : Catalog) :
    ((Plan.ofTree catalog tree.root).edits =
        (Plan.log catalog tree.root).foldl Plan.Write.onEdits Edits.empty ∧
      (Plan.ofTree catalog tree.root).contexts =
        (Plan.log catalog tree.root).foldl Plan.Write.onContexts
          (SideTable.emptyWithCapacity tree.root.size)) ∧
    (∀ id < tree.nodes.size,
      ((∃ outer, tree.Redeclares catalog outer ∧ tree.Below id outer) →
        (Plan.stamped (Plan.log catalog tree.root)).count id = 0 ∧
          (Plan.ofTree catalog tree.root).contexts.get? id = none) ∧
      ((¬ ∃ outer, tree.Redeclares catalog outer ∧ tree.Below id outer) →
        (Plan.stamped (Plan.log catalog tree.root)).count id = 1 ∧
          ((Plan.ofTree catalog tree.root).contexts.get? id).isSome)) ∧
    (Plan.spelled (Plan.log catalog tree.root)).Nodup ∧
    ∀ token text, (Plan.ofTree catalog tree.root).edits.get? token = some text ↔
      (tree.InRedeclared catalog token ∧ text = "") ∨
      (¬ tree.InRedeclared catalog token ∧
        ∃ literal ∈ tree.stream.tokens, literal.index = token ∧ literal.IsDecimal ∧
          literal.text ++ ".0" = text ∧
          ∃ id record, tree.nodes.get? id = some record ∧ .token token ∈ record.children ∧
            (Plan.ofTree catalog tree.root).contexts.get? id = some true) := by
  have stamps := mem_stamped_log h catalog
  refine ⟨⟨rfl, rfl⟩, ?_, nodup_spelled_log h catalog, ?_⟩
  · intro id inside
    constructor
    · intro hidden
      have absent : id ∉ Plan.stamped (Plan.log catalog tree.root) :=
        fun stamped => ((stamps id).1 stamped).2 hidden
      refine ⟨List.count_eq_zero.2 absent,
        Option.eq_none_iff_forall_not_mem.2 fun context found => ?_⟩
      exact absent (Plan.mem_stamped.2 ⟨context, (contexts_get? h catalog).1 found⟩)
    · intro open_
      have stamped := (stamps id).2 ⟨inside, open_⟩
      obtain ⟨context, listed⟩ := Plan.mem_stamped.1 stamped
      refine ⟨?_, Option.isSome_iff_exists.2 ⟨context, (contexts_get? h catalog).2 listed⟩⟩
      rw [stamped_log h] at stamped ⊢
      exact List.count_eq_one_of_mem (Plan.nodup_visible _ _ _) stamped
  · intro token text
    have deletes := edits_get?_iff h catalog token ""
    have spells := edits_get?_iff h catalog token text
    rw [deleted_iff h, promoted_iff h] at deletes spells
    rw [spells]
    refine or_congr_right ⟨fun promoted => ⟨fun inside => ?_, promoted⟩, And.right⟩
    -- A promoted token in a redeclared builtin would have two spellings.
    have twice :=
      (deletes.2 (Or.inl ⟨inside, rfl⟩)).symm.trans (spells.2 (Or.inr promoted))
    obtain ⟨literal, -, -, -, spelling, -⟩ := promoted
    rw [← spelling] at twice
    simp at twice

/-- The first token of a prototype for `sin` stands in a redeclared builtin,
since it is deleted. -/
theorem plan_content_sin : ∃ tree, ofSource "float sin(float x);" = .ok tree ∧
    tree.InRedeclared Catalog.bundled 0 := by
  have read : (ofSource "float sin(float x);").toOption.map
      (fun tree => (Plan.ofTree Catalog.bundled tree.root).edits.get? 0) =
        some (some "") := by
    decide +kernel
  obtain ⟨tree, parsed, deleted⟩ := exists_of_map_toOption read
  refine ⟨tree, parsed, ?_⟩
  rcases ((plan_content parsed Catalog.bundled).2.2.2 0 "").1 deleted with
    ⟨inside, -⟩ | ⟨-, literal, -, -, -, spelling, -⟩
  · exact inside
  · simp at spelling

end SyntaxTree

end ShaderDialect
