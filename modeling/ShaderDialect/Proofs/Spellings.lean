import ShaderDialect.Proofs.Visibility

/-!
# The tokens that the walk spells

A visit deletes the tokens of the redeclared builtins and promotes the literals
that hang below a node it stamps as floating. It gives each token at most one
spelling, and goes through the tokens in order.
-/

namespace ShaderDialect

namespace Plan

/-- Tokens that are numbered one after the other. -/
def Consecutive (tokens : List Token) : Prop :=
  ∃ start, tokens.map Token.index = List.range' start tokens.length

theorem Consecutive.append {before after : List Token}
    (h : Consecutive (before ++ after)) :
    Consecutive before ∧ Consecutive after := by
  obtain ⟨start, numbered⟩ := h
  rw [List.map_append, List.length_append, ← List.range'_append_1] at numbered
  obtain ⟨first, second⟩ := List.append_inj numbered (by simp)
  exact ⟨⟨start, first⟩, ⟨start + before.length, second⟩⟩

/-- Deleting a tree deletes its tokens one by one. -/
theorem deletions_eq {tree : Tree} (h : Consecutive tree.leaves) :
    deletions tree = tree.leaves.map fun token => .spell token.index "" := by
  obtain ⟨start, numbered⟩ := h
  unfold deletions
  rw [Tree.firstToken?_eq, Tree.lastToken?_eq]
  by_cases empty : tree.leaves = []
  · rw [empty]
    rfl
  · obtain ⟨head, last⟩ := ends_of_range' empty numbered
    have length : start + tree.leaves.length - 1 + 1 - start = tree.leaves.length := by
      have := List.length_pos_iff.2 empty
      omega
    rw [List.head?_eq_some_head empty, List.getLast?_eq_some_getLast empty]
    simp only [head, last, length]
    rw [← numbered, List.map_map]
    rfl

theorem spelled_tokenWrites (role : Role) (token : Token) :
    (spelled (tokenWrites role token)).Sublist [token.index] := by
  unfold tokenWrites
  split
  · cases promoted? token <;> simp [spelled]
  · exact List.nil_sublist _

theorem spelled_map (tokens : List Token) (text : String) :
    spelled (tokens.map fun token => .spell token.index text) =
      tokens.map Token.index := by
  induction tokens with
  | nil => rfl
  | cons token tokens ih => rw [List.map_cons, spelled, ih, List.map_cons]

mutual

/-- A visit spells tokens of its tree in order, and none twice. -/
theorem spelled_writes {role : Role} :
    ∀ {tree : Tree} {state : State}, role.Fits tree → tree.Grammatical →
      Consecutive tree.leaves →
      (spelled (writes role tree state)).Sublist (tree.leaves.map Token.index)
  | .leaf token, state, _, _, _ => by
    rw [writes_leaf]
    exact spelled_tokenWrites role token
  | .node kind children, state, fits, grammatical, consecutive => by
    rcases writes_node_cases state fits grammatical with
      ⟨-, context, log⟩ | ⟨-, context, siblings, state', -, -, log⟩
    · rw [log, deletions_eq consecutive, spelled_append, spelled_map, spelled, spelled,
        List.append_nil]
    · rw [log, spelled_append, spelled, spelled, List.append_nil]
      exact spelled_writesAll grammatical.child consecutive

theorem spelled_writesAll {siblings : Siblings} :
    ∀ {trees : List Tree} {state : State}, (∀ tree ∈ trees, tree.Grammatical) →
      Consecutive (Tree.leavesAll trees) →
      (spelled (writesAll siblings trees state)).Sublist
        ((Tree.leavesAll trees).map Token.index)
  | [], state, _, _ => by
    rw [writesAll_nil]
    exact List.nil_sublist _
  | tree :: trees, state, grammatical, consecutive => by
    obtain ⟨siblings', state', log, -⟩ := exists_writesAll_cons siblings tree trees state
    rw [Tree.leavesAll_cons] at consecutive ⊢
    rw [log, spelled_append, List.map_append]
    exact (spelled_writes (fits_role siblings tree) (grammatical tree List.mem_cons_self)
      consecutive.append.1).append
      (spelled_writesAll (fun tree member => grammatical tree (List.mem_cons_of_mem _ member))
        consecutive.append.2)

end

/-! ### Promoted literals -/

theorem admits_intLiteral {tokens : TokenClass} {token : Token}
    (admitted : tokens.admits token)
    (isInt : token.kind = .intLiteral) : tokens = .literal ∨ tokens = .any := by
  cases tokens <;> simp_all [TokenClass.admits, Token.is]

theorem kind_of_mem_tokens {kind : NodeKind}
    (h : .literal ∈ kind.form.tokens ∨ .any ∈ kind.form.tokens) :
    kind = .primaryExpression ∨ kind = .layoutQualifier := by
  revert h
  cases kind <;> decide

/-- Integer literals stand in primary expressions, and as tokens of layouts. -/
theorem kind_of_intLiteral {kind : NodeKind} {children : List Tree} {token : Token}
    (h : (Tree.node kind children).Grammatical) (member : .leaf token ∈ children)
    (isInt : token.kind = .intLiteral) :
    kind = .primaryExpression ∨ kind = .layoutQualifier := by
  cases h with
  | node form below =>
    obtain ⟨tokens, listed, admitted⟩ := Form.mentions_of_mem form member
    rcases admits_intLiteral admitted isInt with rfl | rfl
    · exact kind_of_mem_tokens (Or.inl listed)
    · exact kind_of_mem_tokens (Or.inr listed)

theorem intLiteral_of_promoted? {token : Token} {text : String}
    (h : promoted? token = some text) :
    token.kind = .intLiteral := by
  unfold promoted? at h
  split at h <;> simp_all

/-- A node with an integer literal hands on the context that it is stamped
with. -/
theorem enter_uniform (state : State) {role : Role} {kind : NodeKind}
    {children : List Tree} (holds : kind = .primaryExpression ∨ kind = .layoutQualifier)
    (fits : role.Fits (.node kind children)) :
    ∃ context, enter state role kind (.node kind children) =
      (.descend context (.uniform context), state) := by
  cases role with
  | part context => rcases holds with rfl | rfl <;> exact ⟨_, rfl⟩
  | _ =>
    rcases holds with rfl | rfl <;> simp [Role.Fits, Tree.hasKind, Tree.kind?] at fits

theorem role_leaf (siblings : Siblings) (token : Token) :
    siblings.role (.leaf token) = .part true ↔ siblings = .uniform true := by
  cases siblings <;> simp [Siblings.role, Tree.hasKind, Tree.kind?, Tree.isNode]

theorem spell_mem_tokenWrites {role : Role} {leaf : Token} {token : Nat} {text : String} :
    .spell token text ∈ tokenWrites role leaf ↔
      role = .part true ∧ leaf.index = token ∧ promoted? leaf = some text := by
  unfold tokenWrites
  split
  · cases promoted? leaf <;> simp [eq_comm]
  · simp_all

/-- A token of a redeclared builtin is deleted. -/
def Deleted (catalog : Catalog) (places : List Place) (token : Nat)
    (text : String) : Prop :=
  ∃ outer ∈ places, outer.tree.redeclares catalog ∧
    token ∈ (Tree.leavesAll outer.children).map Token.index ∧ text = ""

/-- A literal in a node that the log stamps as floating is promoted. -/
def Promoted (places : List Place) (log : List Write) (token : Nat)
    (text : String) : Prop :=
  ∃ place ∈ places, .stamp place.id true ∈ log ∧
    ∃ leaf, .leaf leaf ∈ place.children ∧ leaf.index = token ∧ promoted? leaf = some text

theorem deleted_append {catalog : Catalog} {before after : List Place} {token : Nat}
    {text : String} :
    Deleted catalog (before ++ after) token text ↔
      Deleted catalog before token text ∨ Deleted catalog after token text := by
  simp only [Deleted, List.mem_append, or_and_right, exists_or]

theorem promoted_append {before after : List Place} {log : List Write} {token : Nat}
    {text : String} :
    Promoted (before ++ after) log token text ↔
      Promoted before log token text ∨ Promoted after log token text := by
  simp only [Promoted, List.mem_append, or_and_right, exists_or]

theorem promoted_congr {places : List Place} {log other : List Write} {token : Nat}
    {text : String}
    (h : ∀ place ∈ places, .stamp place.id true ∈ log ↔ .stamp place.id true ∈ other) :
    Promoted places log token text ↔ Promoted places other token text := by
  refine exists_congr fun place => and_congr_right fun member => ?_
  rw [h place member]

theorem range_of_stamp {role : Role} {tree : Tree} {state : State} {id : Nat}
    {context : Bool} (fits : role.Fits tree) (grammatical : tree.Grammatical)
    (h : .stamp id context ∈ writes role tree state) :
    state.next ≤ id ∧ id < state.next + tree.size := by
  have listed := mem_stamped.2 ⟨context, h⟩
  rw [stamped_writes fits grammatical] at listed
  exact List.mem_range'_1.1 ((visible_sublist _ _ tree).subset listed)

theorem range_of_stampAll {siblings : Siblings} {trees : List Tree} {state : State}
    {id : Nat} {context : Bool} (grammatical : ∀ tree ∈ trees, tree.Grammatical)
    (h : .stamp id context ∈ writesAll siblings trees state) :
    state.next ≤ id ∧ id < state.next + Tree.sizeAll trees := by
  have listed := mem_stamped.2 ⟨context, h⟩
  rw [stamped_writesAll grammatical] at listed
  exact List.mem_range'_1.1 ((visibleAll_sublist _ _ trees).subset listed)

/-- A redeclared builtin deletes all its tokens and promotes none. -/
theorem spell_mem_redeclared {kind : NodeKind} {children : List Tree}
    (parent : Option Nat) {next token : Nat} {context : Bool} {catalog : Catalog}
    {text : String} (grammatical : (Tree.node kind children).Grammatical)
    (consecutive : Consecutive (Tree.leavesAll children))
    (redeclares : (Tree.node kind children).redeclares catalog) :
    .spell token text ∈ deletions (.node kind children) ++
        [.stamp (next + Tree.sizeAll children) context] ↔
      Deleted catalog ((Tree.node kind children).places parent next) token text ∨
      Promoted ((Tree.node kind children).places parent next)
        (deletions (.node kind children) ++ [.stamp (next + Tree.sizeAll children) context])
        token text := by
  have all : deletions (.node kind children) = _ := deletions_eq consecutive
  rw [all]
  constructor
  · intro spelled
    refine Or.inl ⟨⟨parent, next + Tree.sizeAll children, kind, children⟩, ?_,
      redeclares, ?_⟩
    · simp [Tree.places]
    · simp at spelled ⊢
      grind
  · rintro (⟨outer, member, -, listed, rfl⟩ | ⟨place, member, stamped, leaf, listed, -, promotes⟩)
    · have inside : outer.tree.leaves ⊆ Tree.leavesAll children :=
        Tree.inherit_places (P := fun tree => tree.leaves ⊆ Tree.leavesAll children)
          (fun _ _ all child listed => List.Subset.trans
            (Tree.leaves_infix (List.infix_refl _) child listed).subset all)
          parent next (.node kind children) (List.Subset.refl _) outer member
      obtain ⟨leaf, member, rfl⟩ := List.mem_map.1 listed
      exact List.mem_append_left _ (List.mem_map.2 ⟨leaf, inside member, rfl⟩)
    · have own : place.id = next + Tree.sizeAll children ∧ context = true := by
        simpa using stamped
      rcases List.mem_append.1 member with below | last
      · exact absurd own.1 (Nat.ne_of_lt (Tree.lt_of_mem_placesAll below))
      · rw [List.mem_singleton.1 last] at listed
        have isKind := (Bool.and_eq_true_iff.1 redeclares).1
        rcases kind_of_intLiteral grammatical listed
          (intLiteral_of_promoted? promotes) with rfl | rfl <;>
          simp [Tree.hasKind, Tree.kind?] at isKind

/-- Whether a literal hangs directly below a node. -/
def HoldsLiteral (trees : List Tree) (token : Nat) (text : String) : Prop :=
  ∃ leaf, .leaf leaf ∈ trees ∧ leaf.index = token ∧ promoted? leaf = some text

/-- At an entered node, its own stamp decides about the literals that hang
directly below it. -/
theorem promoted_node {siblings : Siblings} {kind : NodeKind} {children : List Tree}
    {state : State} {parent owner : Option Nat} {token : Nat} {context : Bool}
    {text : String} (grammatical : ∀ child ∈ children, child.Grammatical) :
    Promoted (Tree.placesAll owner state.next children ++
        [⟨parent, state.next + Tree.sizeAll children, kind, children⟩])
        (writesAll siblings children state ++
          [.stamp (state.next + Tree.sizeAll children) context]) token text ↔
      Promoted (Tree.placesAll owner state.next children) (writesAll siblings children state)
        token text ∨ (context = true ∧ HoldsLiteral children token text) := by
  rw [promoted_append]
  refine or_congr (promoted_congr fun place member => ?_) ?_
  · have smaller := Tree.lt_of_mem_placesAll member
    simp only [List.mem_append, List.mem_singleton, Write.stamp.injEq,
      or_iff_left_iff_imp]
    intro own
    omega
  · have fresh : .stamp (state.next + Tree.sizeAll children) true ∉
        writesAll siblings children state :=
      fun stamped => Nat.lt_irrefl _ (range_of_stampAll grammatical stamped).2
    simp [Promoted, HoldsLiteral, fresh, eq_comm]

/-- Each of two lists of writes stamps the nodes of its own part only. -/
theorem promoted_siblings {role : Role} {siblings : Siblings} {tree : Tree}
    {trees : List Tree} {state state' : State} {parent : Option Nat} {token : Nat}
    {text : String} (fits : role.Fits tree) (here : tree.Grammatical)
    (behind : ∀ tree ∈ trees, tree.Grammatical)
    (next : state'.next = state.next + tree.size) :
    Promoted (tree.places parent state.next ++ Tree.placesAll parent (state.next + tree.size) trees)
        (writes role tree state ++ writesAll siblings trees state') token text ↔
      Promoted (tree.places parent state.next) (writes role tree state) token text ∨
      Promoted (Tree.placesAll parent (state.next + tree.size) trees)
        (writesAll siblings trees state') token text := by
  rw [promoted_append]
  refine or_congr (promoted_congr fun place member => ?_) (promoted_congr fun place member => ?_)
  · rw [List.mem_append, or_iff_left_iff_imp]
    intro later
    have := (range_of_stampAll behind later).1
    have := Tree.lt_of_mem_places member
    omega
  · rw [List.mem_append, or_iff_right_iff_imp]
    intro first
    have := (range_of_stamp fits here first).2
    have := Tree.base_placesAll _ _ _ place member
    omega

mutual

/-- A visit deletes the tokens of redeclared builtins, promotes the literals
in floating nodes, and gives no other token a spelling. -/
theorem spell_mem_writes (role : Role) (parent : Option Nat) (token : Nat)
    (text : String) :
    ∀ {tree : Tree} (state : State), role.Fits tree → tree.Grammatical →
      Consecutive tree.leaves →
      (.spell token text ∈ writes role tree state ↔
        Deleted state.scope.catalog (tree.places parent state.next) token text ∨
        Promoted (tree.places parent state.next) (writes role tree state) token text ∨
        ∃ leaf, tree = .leaf leaf ∧ role = .part true ∧ leaf.index = token ∧
          promoted? leaf = some text)
  | .leaf leaf, state, _, _, _ => by
    rw [writes_leaf, spell_mem_tokenWrites]
    simp [Tree.places, Deleted, Promoted]
  | .node kind children, state, fits, grammatical, consecutive => by
    rcases writes_node_cases state fits grammatical with
      ⟨redeclares, context, log⟩ | ⟨kept, context, siblings, state', entered, silent, log⟩
    · rw [log, spell_mem_redeclared parent grammatical consecutive redeclares]
      simp
    · have below :=
        spell_mem_writesAll siblings (some (state'.next + Tree.sizeAll children))
          token text state' grammatical.child consecutive
      have handed : HoldsLiteral children token text → siblings = .uniform context := by
        rintro ⟨leaf, member, -, promotes⟩
        obtain ⟨context', uniform⟩ := enter_uniform state
          (kind_of_intLiteral grammatical member (intLiteral_of_promoted? promotes)) fits
        rw [entered] at uniform
        cases uniform
        rfl
      have notDeleted : ¬ Deleted state.scope.catalog
          [⟨parent, state.next + Tree.sizeAll children, kind, children⟩] token text := by
        simp [Deleted, Place.tree, kept]
      rw [silent.catalog] at below
      rw [← silent.next] at log notDeleted ⊢
      rw [log, List.mem_append, below, Tree.places, deleted_append,
        promoted_node grammatical.child]
      grind

theorem spell_mem_writesAll (siblings : Siblings) (parent : Option Nat) (token : Nat)
    (text : String) :
    ∀ {trees : List Tree} (state : State), (∀ tree ∈ trees, tree.Grammatical) →
      Consecutive (Tree.leavesAll trees) →
      (.spell token text ∈ writesAll siblings trees state ↔
        Deleted state.scope.catalog (Tree.placesAll parent state.next trees) token text ∨
        Promoted (Tree.placesAll parent state.next trees) (writesAll siblings trees state) token
          text ∨
        (siblings = .uniform true ∧ HoldsLiteral trees token text))
  | [], state, _, _ => by
    rw [writesAll_nil]
    simp [Tree.placesAll, Deleted, Promoted, HoldsLiteral]
  | tree :: trees, state, grammatical, consecutive => by
    obtain ⟨siblings', state', log, next, catalog, uniform⟩ :=
      exists_writesAll_cons siblings tree trees state
    rw [Tree.leavesAll_cons] at consecutive
    have fits := fits_role siblings tree
    have here := grammatical tree List.mem_cons_self
    have behind := fun tree member => grammatical tree (List.mem_cons_of_mem _ member)
    have first :=
      spell_mem_writes _ parent token text state fits here consecutive.append.1
    have later :=
      spell_mem_writesAll siblings' parent token text state' behind consecutive.append.2
    rw [catalog, next] at later
    rw [log, List.mem_append, first, later, Tree.placesAll, deleted_append,
      promoted_siblings fits here behind next, uniform]
    have own : (∃ leaf, tree = .leaf leaf ∧ siblings.role tree = .part true ∧
      leaf.index = token ∧
        promoted? leaf = some text) ↔
          siblings = .uniform true ∧ HoldsLiteral [tree] token text := by
      cases tree with
      | leaf leaf => simp [HoldsLiteral, role_leaf]
      | node kind children => simp [HoldsLiteral]
    have all : HoldsLiteral (tree :: trees) token text ↔
        HoldsLiteral [tree] token text ∨ HoldsLiteral trees token text := by
      simp only [HoldsLiteral, List.mem_cons, List.not_mem_nil, or_false, or_and_right,
        exists_or]
    rw [own, all]
    grind

end

end Plan

end ShaderDialect
