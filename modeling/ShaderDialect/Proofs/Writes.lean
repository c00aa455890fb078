import ShaderDialect.Plan.Walk
import ShaderDialect.Proofs.Redeclaration

/-!
# What the walk writes

The walk stamps nodes with contexts and gives tokens new spellings, and
records these writes one behind the other. What a visit adds to the record is
put together from what it adds at each node and token. All else that the walk
does to its state is the scope, whose catalog stays the same, and the findings.
-/

namespace ShaderDialect

namespace Scope

@[simp] theorem catalog_push (scope : Scope) : scope.push.catalog = scope.catalog := rfl

@[simp] theorem catalog_pop (scope : Scope) : scope.pop.catalog = scope.catalog := rfl

@[simp] theorem catalog_declareFunction (scope : Scope) (signature : Signature) :
    (scope.declareFunction signature).catalog = scope.catalog := rfl

theorem type?_declare (scope : Scope) (declared : Variable) :
    (scope.declare declared).type? = scope.type? := by
  funext name
  rw [type?, type?, structs_declare]

end Scope

theorem catalog_declareParameters (scope : Scope) (findings : Findings)
    (params : List Parameter) :
    (declareParameters scope findings params).1.catalog = scope.catalog := by
  induction params generalizing scope findings with
  | nil => rfl
  | cons param params ih =>
    rw [declareParameters, ih]
    split
    · rfl
    · exact Scope.catalog_declare _ _

theorem catalog_declareNames (scope : Scope) (ty : Ty) (typeIsArray : Bool)
    (pending : Option (String × Bool)) (trees : List Tree) :
    (declareNames scope ty typeIsArray pending trees).catalog = scope.catalog := by
  fun_induction declareNames scope ty typeIsArray pending trees with
  | case1 => rfl
  | case4 scope token rest isMark name isArray ih => rw [ih, Scope.catalog_declare]
  | _ => assumption

theorem catalog_declareMember (scope : Scope) (member : Tree) :
    (declareMember scope member).catalog = scope.catalog := by
  unfold declareMember
  split
  · split
    · rfl
    · split
      · rfl
      · exact catalog_declareNames _ _ _ _ _
  · rfl

theorem catalog_declareMembers (members : List Tree) (scope : Scope) :
    (members.foldl declareMember scope).catalog = scope.catalog := by
  induction members generalizing scope with
  | nil => rfl
  | cons member members ih => rw [List.foldl_cons, ih, catalog_declareMember]

theorem catalog_declareBlock (scope : Scope) (block : Tree) (findings : Findings) :
    (declareBlock scope block findings).1.catalog = scope.catalog := by
  unfold declareBlock
  split
  · split
    · simp only
      split <;> simp [catalog_declareMembers]
    · rfl
  · rfl

namespace Plan

/-- The nodes that are stamped, in order. -/
def stamped : List Write → List Nat
  | [] => []
  | .stamp node _ :: log => node :: stamped log
  | .spell _ _ :: log => stamped log

/-- The tokens that are given a spelling, in order. -/
def spelled : List Write → List Nat
  | [] => []
  | .stamp _ _ :: log => spelled log
  | .spell token _ :: log => token :: spelled log

theorem stamped_append (before after : List Write) :
    stamped (before ++ after) = stamped before ++ stamped after := by
  induction before with
  | nil => rfl
  | cons write before ih => cases write <;> simp [stamped, ih]

theorem spelled_append (before after : List Write) :
    spelled (before ++ after) = spelled before ++ spelled after := by
  induction before with
  | nil => rfl
  | cons write before ih => cases write <;> simp [spelled, ih]

theorem mem_stamped {log : List Write} {node : Nat} :
    node ∈ stamped log ↔ ∃ context, .stamp node context ∈ log := by
  induction log with
  | nil => simp [stamped]
  | cons write log ih => cases write <;> simp [stamped, ih, exists_or]

theorem mem_spelled {log : List Write} {token : Nat} :
    token ∈ spelled log ↔ ∃ text, .spell token text ∈ log := by
  induction log with
  | nil => simp [spelled]
  | cons write log ih => cases write <;> simp [spelled, ih, exists_or]

/-- The writes made when a node is entered. -/
def entryWrites (role : Role) (tree : Tree) (state : State) : List Write :=
  match role with
  | .part _ => if tree.redeclares state.scope.catalog then deletions tree else []
  | _ => []

/-- The writes made at a token. -/
def tokenWrites (role : Role) (token : Token) : List Write :=
  match role with
  | .part true => ((promoted? token).map (.spell token.index)).toList
  | _ => []

/-- The writes of a visit, in order: what is recorded behind all that was
recorded before. -/
def writes (role : Role) (tree : Tree) (state : State) : List Write :=
  (visit role tree state).written.toList.drop state.written.size

def writesAll (siblings : Siblings) (trees : List Tree) (state : State) : List Write :=
  (visitAll siblings trees state).written.toList.drop state.written.size

/-- The writes of the walk over a whole tree. -/
def log (catalog : Catalog) (root : Tree) : List Write :=
  (visit (.part false) root (start catalog)).written.toList

theorem log_eq_writes (catalog : Catalog) (root : Tree) :
    log catalog root = writes (.part false) root (start catalog) := rfl

/-- A step that leaves everything but the scope and the findings alone, and of
the scope the catalog. -/
structure Silent (before after : State) : Prop where
  written : after.written = before.written
  next : after.next = before.next
  catalog : after.scope.catalog = before.scope.catalog

/-- A step that records the given writes. -/
structure Logged (before : State) (log : List Write) (after : State) : Prop where
  written : after.written.toList = before.written.toList ++ log
  catalog : after.scope.catalog = before.scope.catalog

namespace Silent

theorem refl (state : State) : Silent state state :=
  ⟨rfl, rfl, rfl⟩

theorem logged {before after : State} (h : Silent before after) :
    Logged before [] after :=
  ⟨by rw [h.written, List.append_nil], h.catalog⟩

end Silent

namespace Logged

theorem append {s₁ s₂ s₃ : State} {first second : List Write} (h₁ : Logged s₁ first s₂)
    (h₂ : Logged s₂ second s₃) : Logged s₁ (first ++ second) s₃ where
  written := by rw [h₂.written, h₁.written, List.append_assoc]
  catalog := h₂.catalog.trans h₁.catalog

/-- What a step records can be read off the states around it. -/
theorem drop {before after : State} {log : List Write} (h : Logged before log after) :
    after.written.toList.drop before.written.size = log := by
  rw [h.written, List.drop_left' Array.length_toList]

theorem record (state : State) (log : List Write) : Logged state log (state.record log) :=
  ⟨Array.toList_appendList, rfl⟩

end Logged

/-! ### Steps of the walk -/

theorem silent_storesFloat (state : State) (tree : Tree) :
    Silent state (storesFloat state tree).2 := by
  unfold storesFloat
  split
  · split <;> exact ⟨rfl, rfl, rfl⟩
  · exact Silent.refl state

theorem scope_storesFloat (state : State) (tree : Tree) :
    (storesFloat state tree).2.scope = state.scope := by
  unfold storesFloat
  split
  · split <;> rfl
  · rfl

theorem silent_setsFloat (state : State) (tree : Tree) (expectsFloat : Bool) :
    Silent state (setsFloat state tree expectsFloat).2 := by
  unfold setsFloat
  split
  · exact Silent.refl state
  · have stored := silent_storesFloat state tree
    split <;> rename_i shape <;> rw [shape] at stored
    · exact stored
    · exact ⟨stored.written, stored.next, stored.catalog⟩

theorem silent_leave (state : State) (role : Role) (kind : NodeKind) (tree : Tree) :
    Silent state (leave state role kind tree) := by
  unfold leave
  split
  · unfold leavePart
    split <;> exact ⟨rfl, rfl, by simp [State.mapScope, catalog_declareBlock]⟩
  · exact Silent.refl state
  · unfold declareVariable
    refine ⟨rfl, rfl, ?_⟩
    simp only [State.mapScope]
    split
    · exact Scope.catalog_declare _ _
    · rfl
  · exact Silent.refl state

theorem silent_after (siblings : Siblings) (tree : Tree) (state : State) :
    Silent state (siblings.after tree state).2 := by
  unfold Siblings.after
  split
  · exact Silent.refl state
  · split
    · split <;> exact ⟨rfl, rfl, rfl⟩
    · exact Silent.refl state
  · exact Silent.refl state

theorem logged_complete (state : State) (context : Bool) :
    Logged state [.stamp state.next context] (state.complete context) :=
  ⟨(Logged.record state _).written, rfl⟩

theorem logged_token (role : Role) (token : Token) (state : State) :
    Logged state (tokenWrites role token) (visit role (.leaf token) state) := by
  cases role with
  | part context =>
    cases context with
    | true =>
      simp only [tokenWrites, visit, promote]
      cases promoted? token with
      | none => exact (Silent.refl state).logged
      | some text => exact Logged.record state _
    | false => exact (Silent.refl state).logged
  | _ => exact (Silent.refl state).logged

theorem logged_deleteTree (state : State) (tree : Tree) :
    Logged state (deletions tree) (deleteTree state tree) :=
  Logged.record state (deletions tree)

/-- A node that redeclares a builtin is deleted and passed over. -/
theorem enter_of_redeclares {state : State} {context : Bool} {kind : NodeKind}
    {children : List Tree} (h : (Tree.node kind children).redeclares state.scope.catalog) :
    enter state (.part context) kind (.node kind children) =
      (.skip context, deleteTree state (.node kind children)) := by
  simp only [Tree.redeclares, Tree.hasKind, Tree.kind?, Tree.prototype?, Bool.and_eq_true,
    Bool.or_eq_true, decide_eq_true_eq, Option.some.injEq] at h
  obtain ⟨isKind, some⟩ := h
  obtain ⟨prototype, read, isBuiltin⟩ := (Option.any_eq_true _ _).1 some
  rcases isKind with rfl | rfl
  · simp [enter, enterPart, enterDefinition, read, isBuiltin, takeOver]
  · obtain ⟨child, found, read⟩ := Option.bind_eq_some_iff.1 read
    simp [enter, enterPart, enterDeclaration, found, read, isBuiltin, takeOver]

theorem silent_enterDefinition {state : State} {context : Bool} {children : List Tree}
    (h : (Tree.node .functionDefinition children).redeclares state.scope.catalog = false) :
    Silent state (enterDefinition state (.node .functionDefinition children) context).2 := by
  unfold enterDefinition
  split
  · exact Silent.refl state
  · rename_i prototype read
    have kept := Tree.isBuiltin_eq_false (Or.inl rfl) h read
    simp only [kept]
    exact ⟨rfl, rfl, by simp [catalog_declareParameters]⟩

theorem silent_enterDeclaration {state : State} {context : Bool} {children : List Tree}
    (h : (Tree.node .declaration children).redeclares state.scope.catalog = false) :
    Silent state (enterDeclaration state (.node .declaration children) context).2 := by
  unfold enterDeclaration
  split
  · exact Silent.refl state
  · rename_i child found
    split
    · exact Silent.refl state
    · rename_i prototype read
      have kept :=
        Tree.isBuiltin_eq_false (Or.inr rfl) h (Option.bind_eq_some_iff.2 ⟨child, found, read⟩)
      simp only [kept]
      exact ⟨rfl, rfl, rfl⟩

theorem silent_enterAssignment (state : State) (tree : Tree)
    (inherited expectsFloat : Bool) :
    Silent state (enterAssignment state tree inherited expectsFloat).2 :=
  silent_setsFloat state tree expectsFloat

theorem silent_enterPart {state : State} {kind : NodeKind} {children : List Tree}
    {context : Bool}
    (h : (Tree.node kind children).redeclares state.scope.catalog = false) :
    Silent state (enterPart state kind (.node kind children) context).2 := by
  unfold enterPart
  split
  · exact silent_enterAssignment _ _ _ _
  · exact silent_enterDefinition h
  · exact silent_enterDeclaration h
  all_goals exact ⟨rfl, rfl, rfl⟩

theorem silent_enter {state : State} {role : Role} {kind : NodeKind}
    {children : List Tree} (h : ∀ context, role = .part context →
      (Tree.node kind children).redeclares state.scope.catalog = false) :
    Silent state (enter state role kind (.node kind children)).2 := by
  cases role with
  | part context => exact silent_enterPart (h context rfl)
  | argument expectsFloat => exact silent_enterAssignment _ _ _ _
  | declarator type typeIsArray => exact Silent.refl state
  | body => exact Silent.refl state

/-- Entering a node writes only the deletion of a redeclared builtin. -/
theorem logged_enter (state : State) (role : Role) (kind : NodeKind)
    (children : List Tree) :
    Logged state (entryWrites role (.node kind children) state)
        (enter state role kind (.node kind children)).2 ∧
      (enter state role kind (.node kind children)).2.next = state.next := by
  by_cases h : ∀ context, role = .part context →
      (Tree.node kind children).redeclares state.scope.catalog = false
  · have silent := silent_enter h
    have nothing : entryWrites role (.node kind children) state = [] := by
      cases role with
      | part context => simp [entryWrites, h context rfl]
      | _ => rfl
    rw [nothing]
    exact ⟨silent.logged, silent.next⟩
  · simp only [not_forall, Bool.not_eq_false] at h
    obtain ⟨context, rfl, redeclares⟩ := h
    rw [enter_of_redeclares redeclares, entryWrites, if_pos redeclares]
    exact ⟨logged_deleteTree _ _, rfl⟩

/-! ### Whole visits -/

mutual

/-- A visit passes over the numbers of a tree. -/
theorem next_visit (role : Role) :
    ∀ (tree : Tree) (state : State), (visit role tree state).next = state.next + tree.size
  | .leaf token, state => by
    unfold visit promote
    split
    · split <;> rfl
    · rfl
  | .node kind children, state => by
    have entered := (logged_enter state role kind children).2
    unfold visit
    split <;> rename_i shape <;> simp only [shape] at entered
    · simp [State.complete, State.passOver, entered, Tree.size, Nat.add_assoc]
    · rename_i context siblings state'
      have left := (silent_leave (visitAll siblings children state') role kind
        (.node kind children)).next
      simp [State.complete, left, next_visitAll siblings children state', entered,
        Tree.size, Nat.add_assoc]

theorem next_visitAll (siblings : Siblings) :
    ∀ (trees : List Tree) (state : State),
      (visitAll siblings trees state).next = state.next + Tree.sizeAll trees
  | [], state => rfl
  | tree :: trees, state => by
    have moved :=
      (silent_after siblings tree (visit (siblings.role tree) tree state)).next
    simp [visitAll, next_visitAll _ trees, moved, next_visit _ tree state, Tree.sizeAll,
      Nat.add_assoc]

end

section Equations

variable (role : Role) (kind : NodeKind) (children : List Tree)

/-- A visit to a node writes when the node is entered, below it, and when it is
completed. -/
theorem logged_node (state : State)
    (below : ∀ siblings state', Logged state' (writesAll siblings children state')
      (visitAll siblings children state')) :
    Logged state
      (entryWrites role (.node kind children) state ++
        match enter state role kind (.node kind children) with
        | (.skip context, state) => [.stamp (state.next + Tree.sizeAll children) context]
        | (.descend context siblings, state) =>
          writesAll siblings children state ++
            [.stamp (visitAll siblings children state).next context])
      (visit role (.node kind children) state) := by
  have entered := (logged_enter state role kind children).1
  unfold visit
  rcases shape : enter state role kind (.node kind children) with ⟨entry, state'⟩
  rw [shape] at entered
  refine entered.append ?_
  cases entry with
  | skip context =>
    have own := logged_complete (state'.passOver (Tree.sizeAll children)) context
    exact ⟨own.written, own.catalog⟩
  | descend context siblings =>
    have left :=
      silent_leave (visitAll siblings children state') role kind (.node kind children)
    have own := logged_complete
      (leave (visitAll siblings children state') role kind (.node kind children)) context
    rw [left.next] at own
    exact (below siblings state').append (left.logged.append own)

/-- A visit to siblings writes at the first, and then at the others. -/
theorem logged_siblings (siblings : Siblings) (tree : Tree) (trees : List Tree)
    (state : State) (first : Logged state (writes (siblings.role tree) tree state)
      (visit (siblings.role tree) tree state))
    (others : ∀ siblings state', Logged state' (writesAll siblings trees state')
      (visitAll siblings trees state')) :
    Logged state
      (writes (siblings.role tree) tree state ++
        writesAll (siblings.after tree (visit (siblings.role tree) tree state)).1 trees
          (siblings.after tree (visit (siblings.role tree) tree state)).2)
      (visitAll siblings (tree :: trees) state) := by
  have moved := silent_after siblings tree (visit (siblings.role tree) tree state)
  unfold visitAll
  exact first.append (moved.logged.append (others _ _))

end Equations

mutual

/-- A visit adds its writes to what is recorded. -/
theorem logged_visit (role : Role) :
    ∀ (tree : Tree) (state : State),
      Logged state (writes role tree state) (visit role tree state)
  | .leaf token, state => by
    have own := logged_token role token state
    rwa [← own.drop] at own
  | .node kind children, state => by
    have own := logged_node role kind children state fun siblings state' =>
      logged_visitAll siblings children state'
    rwa [← own.drop] at own

theorem logged_visitAll (siblings : Siblings) :
    ∀ (trees : List Tree) (state : State),
      Logged state (writesAll siblings trees state) (visitAll siblings trees state)
  | [], state => by
    have own := (Silent.refl state).logged
    rwa [← own.drop] at own
  | tree :: trees, state => by
    have own := logged_siblings siblings tree trees state
      (logged_visit (siblings.role tree) tree state) fun siblings' state' =>
        logged_visitAll siblings' trees state'
    rwa [← own.drop] at own

end

@[simp] theorem writes_leaf (role : Role) (token : Token) (state : State) :
    writes role (.leaf token) state = tokenWrites role token :=
  (logged_token role token state).drop

theorem writes_node (role : Role) (kind : NodeKind) (children : List Tree)
    (state : State) :
    writes role (.node kind children) state =
      entryWrites role (.node kind children) state ++
        match enter state role kind (.node kind children) with
        | (.skip context, state) => [.stamp (state.next + Tree.sizeAll children) context]
        | (.descend context siblings, state) =>
          writesAll siblings children state ++
            [.stamp (visitAll siblings children state).next context] :=
  (logged_node role kind children state fun siblings state' =>
    logged_visitAll siblings children state').drop

@[simp] theorem writesAll_nil (siblings : Siblings) (state : State) :
    writesAll siblings [] state = [] :=
  (Silent.refl state).logged.drop

theorem writesAll_cons (siblings : Siblings) (tree : Tree) (trees : List Tree)
    (state : State) :
    writesAll siblings (tree :: trees) state =
      writes (siblings.role tree) tree state ++
        writesAll (siblings.after tree (visit (siblings.role tree) tree state)).1 trees
          (siblings.after tree (visit (siblings.role tree) tree state)).2 :=
  (logged_siblings siblings tree trees state (logged_visit _ tree state) fun siblings' state' =>
    logged_visitAll siblings' trees state').drop

end Plan

end ShaderDialect
