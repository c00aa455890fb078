import ShaderDialect.Proofs.IntegerPositions
import ShaderDialect.Proofs.Settled

/-!
# What a float context promotes

A float context reaches every token that it is handed to, and there it promotes
the decimal literals. So an assignment expression that shows a floating literal
has no decimal literal of its context left once it is converted.
-/

namespace ShaderDialect.Plan

open Inference (Shows)

variable {root v : Visit}

/-- Siblings that are all visited by one rule. -/
theorem exists_state_of_mem (siblings : Siblings)
    (fixed : ∀ tree state, (siblings.after tree state).1 = siblings) {trees : List Tree}
    {tree : Tree} (member : tree ∈ trees) (state : State) :
    ∃ state', ⟨siblings.role tree, tree, state'⟩ ∈
      siblingVisits siblings trees state := by
  obtain ⟨v, listed, rfl⟩ := exists_visit_of_mem siblings member state
  rw [← role_of_mem fixed listed]
  exact ⟨v.state, listed⟩

/-- A child that is handed a float context is visited in it. -/
theorem exists_step_handed {kind : NodeKind} {children : List Tree} {child : Tree}
    (hands : handsTo kind child) (member : child ∈ children) (state : State) :
    ∃ state', Visit.Step ⟨.part true, .node kind children, state⟩ ⟨.part true, child, state'⟩ := by
  have visited : ∀ siblings : Siblings,
    (∀ tree state, (siblings.after tree state).1 = siblings) →
      siblings.role child = .part true → ∀ state' context,
      enter state (.part true) kind (.node kind children) =
        (.descend context siblings, state') →
      ∃ state', Visit.Step ⟨.part true, .node kind children, state⟩
        ⟨.part true, child, state'⟩ := by
    intro siblings fixed role state' context entered
    obtain ⟨state'', listed⟩ := exists_state_of_mem siblings fixed member state'
    exact ⟨state'', .child entered (role ▸ listed)⟩
  have uniform := visited (.uniform true) (fun _ _ => rfl) rfl
  cases kind with
  | functionDefinition | declaration | initDeclaratorList | structSpecifier | interfaceBlock
  | functionCall | arraySpecifier | layoutQualifier => cases hands
  | indexExpression =>
    refine visited (.index true) (fun _ _ => rfl) ?_ _ _ rfl
    rw [Siblings.role, Bool.true_and]
    exact congrArg Role.part hands
  | _ => exact uniform _ _ rfl

/-- A float context comes to every token that it is handed to. -/
theorem exists_reaches_handed {tree : Tree} {token : Token} (h : Hands tree token)
    {state : State} (reached : root.Reaches ⟨.part true, tree, state⟩) :
    ∃ state', root.Reaches ⟨.part true, .leaf token, state'⟩ := by
  induction h generalizing state with
  | leaf token => exact ⟨state, reached⟩
  | node hands member h ih =>
    obtain ⟨state', step⟩ := exists_step_handed hands member state
    exact ih (reached.tail step)

/-- An assignment expression that shows a floating literal promotes the decimal
literals that it hands its context to. -/
theorem exists_spell_of_shows {shown token : Token} {text : String}
    (reached : root.Reaches v) (fits : v.role.Fits v.tree)
    (isAssignment : v.tree.hasKind .assignmentExpression) (shows : Shows v.tree shown)
    (isFloat : shown.kind = .floatLiteral) (handed : Hands v.tree token)
    (promoted : promoted? token = some text) :
    ∃ w : Visit,
      root.Reaches w ∧ token ∈ w.tree.leaves ∧
      .spell token.index text ∈ w.writes := by
  obtain ⟨role, tree, state⟩ := v
  obtain ⟨children, rfl⟩ : ∃ children, tree = .node .assignmentExpression children :=
    Tree.exists_children_of_hasKind isAssignment
  have sets : ∀ expectsFloat, (setsFloat state (.node .assignmentExpression children)
      expectsFloat).1 = true := by
    intro expectsFloat
    obtain ⟨findings, eq⟩ :=
      setsFloat_eq state (.node .assignmentExpression children) expectsFloat
    rw [eq, Inference.demand_of_shows shows isFloat, Bool.or_true]
  have entered : ∃ state', enter state role .assignmentExpression
    (.node .assignmentExpression children) =
      (.descend true (.uniform true), state') := by
    cases role with
    | part context => exact ⟨_, by simp [enter, enterPart, enterAssignment, sets]; rfl⟩
    | argument expectsFloat => exact ⟨_, by simp [enter, enterAssignment, sets]; rfl⟩
    | declarator type typeIsArray => cases fits
    | body => cases fits
  obtain ⟨state', entered⟩ := entered
  cases handed with
  | @node _ _ child _ hands member handed =>
    obtain ⟨inner, listed⟩ :=
      exists_state_of_mem (.uniform true) (fun _ _ => rfl) member state'
    obtain ⟨leaf, there⟩ :=
      exists_reaches_handed handed (reached.tail (.child entered listed))
    refine ⟨_, there, by simp, ?_⟩
    simp [Visit.writes, tokenWrites, promoted]

/-- What is handed a context is so after respelling too. -/
theorem Hands.respell {tree : Tree} {token : Token} (h : Hands tree token)
    (f : Token → Token) :
    Hands (tree.respell f) (f token) := by
  induction h with
  | leaf token => exact .leaf (f token)
  | @node kind children child token hands member h ih =>
    rw [Tree.respell_node]
    refine .node ?_ (List.mem_map_of_mem member) ih
    cases kind <;> simp_all [handsTo, Tree.isNode_respell, Tree.hasKind_respell]

end ShaderDialect.Plan
