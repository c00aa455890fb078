import ShaderDialect.Proofs.CanonicalTree
import ShaderDialect.Proofs.Lossless

/-!
# How binary operators group

Every source that parses has a tree in which tighter operators stand further
in, and operators of equal strength lean to the left. This is a fact about
whole chains of operands: what `IsJoined` says of the topmost operator holds of
every operator that is reached without entering parentheses, a call or another
operand. How operands are joined can also be told by the number of a row: from
there on, an operator is read if it is strong enough.
-/

namespace ShaderDialect

namespace Tree

open Grammar (precedence?)

/-- The binding strength of the operator of a binary expression. -/
def strength? : Tree → Option Nat
  | .node .binaryExpression [_, .leaf operator, _] => precedence? operator
  | _ => none

/-- The tree is a chain of operands, and the operator is one of the chain. -/
inductive HasOperator (operator : Token) : Tree → Prop
  | here {left right : Tree} :
      HasOperator operator (.node .binaryExpression [left, .leaf operator, right])
  | left {left right : Tree} {outer : Token} (inside : HasOperator operator left) :
      HasOperator operator (.node .binaryExpression [left, .leaf outer, right])
  | right {left right : Tree} {outer : Token} (inside : HasOperator operator right) :
      HasOperator operator (.node .binaryExpression [left, .leaf outer, right])

end Tree

namespace Form

open Grammar (precedence? eq_of_is)
open Grammar.Expression (isOneOf)

theorem precedence?_of_is {operator : Token} {text : String} (h : operator.is text) :
    precedence? operator = Vocabulary.binaryOperators.findIdx? (text ∈ ·) := by
  have listed : (isOneOf · operator) = fun row : List String => decide (text ∈ row) := by
    funext row
    rw [Bool.eq_iff_iff, isOneOf, List.any_eq_true, decide_eq_true_eq]
    constructor
    · rintro ⟨other, member, is⟩
      exact eq_of_is h is ▸ member
    · intro member
      exact ⟨text, member, h⟩
  rw [precedence?, listed]

/-- No operator is in two rows. -/
theorem findIdx?_row : ∀ own < Vocabulary.binaryOperators.length,
    ∀ text ∈ (Vocabulary.binaryOperators.drop own).headD [],
      Vocabulary.binaryOperators.findIdx? (text ∈ ·) = some own := by
  decide

theorem precedence?_of_row {row : List String} {tighter : List (List String)} {own : Nat}
    {operator : Token} (rows : Vocabulary.binaryOperators.drop own = row :: tighter)
    (listed : row.any operator.is) : precedence? operator = some own := by
  obtain ⟨text, member, is⟩ := List.any_eq_true.1 listed
  have below : own < Vocabulary.binaryOperators.length := by
    have nonempty := congrArg List.length rows
    rw [List.length_drop, List.length_cons] at nonempty
    omega
  rw [precedence?_of_is is]
  refine findIdx?_row own below text ?_
  rw [rows]
  exact member

theorem precedence?_of_rows {least : Nat} {operator : Token}
    (listed : (Vocabulary.binaryOperators.drop least).flatten.any operator.is) :
    ∃ own, precedence? operator = some own ∧ least ≤ own := by
  obtain ⟨text, member, is⟩ := List.any_eq_true.1 listed
  obtain ⟨row, rowListed, inRow⟩ := List.mem_flatten.1 member
  obtain ⟨place, below, rfl⟩ := List.getElem_of_mem rowListed
  rw [List.length_drop] at below
  refine ⟨least + place, ?_, Nat.le_add_right _ _⟩
  have within : least + place < Vocabulary.binaryOperators.length := by omega
  refine precedence?_of_row (List.drop_eq_getElem_cons within) ?_
  rw [List.getElem_drop] at inRow
  exact List.any_eq_true.2 ⟨text, inRow, is⟩

theorem exists_of_binaryRows {rows : List (List String)} {children : List Tree}
    (h : (anyOf (binaryRows rows)).Matches children) :
    ∃ row tighter, row :: tighter <:+ rows ∧ ∃ left operator right,
      children = [left, .leaf operator, right] ∧ row.any operator.is ∧
        IsJoined (row :: tighter) left ∧ IsJoined tighter right := by
  induction rows with
  | nil =>
    obtain ⟨kind, grandchildren, -, none⟩ := h
    cases none
  | cons row tighter ih =>
    rcases h with here | later
    · obtain ⟨_, _, rfl, ⟨left, rfl, before⟩, _, _, rfl, ⟨operator, rfl, admitted⟩,
        _, _, rfl, ⟨right, rfl, behind⟩, rfl⟩ := here
      exact ⟨row, tighter, List.suffix_rfl, left, operator, right, rfl, admitted,
        before, behind⟩
    · obtain ⟨tightRow, tightest, suffix, rest⟩ := ih later
      exact ⟨tightRow, tightest, suffix.trans (List.suffix_cons _ _), rest⟩

/-- A binary expression in terms of the strength of its operator. -/
theorem exists_of_binaryExpression {children : List Tree}
    (h : NodeKind.binaryExpression.form.Matches children) :
    ∃ left operator right own, children = [left, .leaf operator, right] ∧
      precedence? operator = some own ∧
      IsJoined (Vocabulary.binaryOperators.drop own) left ∧
        IsJoined (Vocabulary.binaryOperators.drop (own + 1)) right := by
  obtain ⟨row, tighter, suffix, left, operator, right, shape, listed, before, behind⟩ :=
    exists_of_binaryRows h
  obtain ⟨weaker, whole⟩ := suffix
  have rows : Vocabulary.binaryOperators.drop weaker.length = row :: tighter := by
    rw [← whole, List.drop_left]
  have further : Vocabulary.binaryOperators.drop (weaker.length + 1) = tighter := by
    rw [← List.tail_drop, rows, List.tail_cons]
  exact ⟨left, operator, right, weaker.length, shape, precedence?_of_row rows listed,
    rows ▸ before, further ▸ behind⟩

theorem IsJoined.exists_node {rows : List (List String)} {tree : Tree}
    (h : IsJoined rows tree) :
    ∃ kind children, tree = .node kind children ∧
      kind ∉ [.expression, .assignmentExpression, .conditionalExpression] := by
  cases tree with
  | leaf token => exact h.elim
  | node kind children =>
    refine ⟨kind, children, rfl, ?_⟩
    rcases h with operand | ⟨rfl, -⟩
    · revert operand
      cases kind <;> decide
    · decide

theorem IsJoined.exists_strength {least : Nat} {tree : Tree}
    (h : IsJoined (Vocabulary.binaryOperators.drop least) tree)
    (isBinary : tree.kind? = some .binaryExpression) :
    ∃ own, tree.strength? = some own ∧ least ≤ own := by
  cases tree with
  | leaf token => exact h.elim
  | node kind children =>
    cases isBinary
    rcases h with operand | ⟨-, left, operator, right, rfl, listed⟩
    · exact absurd operand (by decide)
    · exact precedence?_of_rows listed

/-- All operators of a chain bind at least as tightly as the rows it is joined
by. -/
theorem IsJoined.precedence_ge {least : Nat} {tree : Tree} {operator : Token}
    (inside : tree.HasOperator operator) (grammatical : tree.Grammatical)
    (h : IsJoined (Vocabulary.binaryOperators.drop least) tree) :
    ∃ own, precedence? operator = some own ∧ least ≤ own := by
  -- Both operands are joined by rows from the strength of the node on, so the
  -- bound of the node carries over.
  induction inside generalizing least with
  | here => exact h.exists_strength rfl
  | left inside ih =>
    cases grammatical with
    | node form below =>
      obtain ⟨_, _, _, outer, shape, strength, before, -⟩ :=
        exists_of_binaryExpression form
      cases shape
      obtain ⟨own, found, tight⟩ := ih (below _ (by simp)) before
      obtain ⟨_, same, loose⟩ := h.exists_strength rfl
      cases strength.symm.trans same
      exact ⟨own, found, Nat.le_trans loose tight⟩
  | right inside ih =>
    cases grammatical with
    | node form below =>
      obtain ⟨_, _, _, outer, shape, strength, -, behind⟩ :=
        exists_of_binaryExpression form
      cases shape
      obtain ⟨own, found, tight⟩ := ih (below _ (by simp)) behind
      obtain ⟨_, same, loose⟩ := h.exists_strength rfl
      cases strength.symm.trans same
      exact ⟨own, found, by omega⟩

end Form

namespace Grammar.Expression

/-! ### The rows by number -/

/-- How an operand goes on by the strength of the operator behind it: one that is
at least as strong as `least` is read, and behind it an operand in which only
stronger operators stand. -/
def byStrength (inner : Tier → Production) (least : Nat) (s : State) :
    Option (NodeKind × Production) :=
  (s.rest.head?.bind precedence?).bind fun own =>
    if least ≤ own then
      some (.binaryExpression,
        seq [take .expression (isOneOf (Vocabulary.binaryOperators.getD own [])),
          binary inner (Vocabulary.binaryOperators.drop (own + 1))])
    else none

theorem seesAny_eq (s : State) (row : List String) :
    s.seesAny row = s.rest.head?.any (isOneOf row) := by
  unfold State.seesAny State.sees
  cases s.rest.head? with
  | none => simp
  | some operator => rfl

theorem lt_length_of_precedence? {operator : Token} {own : Nat}
    (h : precedence? operator = some own) : own < Vocabulary.binaryOperators.length :=
  (List.findIdx?_eq_some_iff_getElem.1 h).1

/-- A weaker bound adds the operators of one row. -/
theorem byStrength_eq_or (inner : Tier → Production) {least : Nat} (s : State)
    (listed : least < Vocabulary.binaryOperators.length) :
    byStrength inner least s =
      (byStrength inner (least + 1) s).or
        (joining Vocabulary.binaryOperators[least]
          (binary inner (Vocabulary.binaryOperators.drop (least + 1))) s) := by
  unfold byStrength joining
  rw [seesAny_eq]
  cases s.rest.head? with
  | none => rfl
  | some operator =>
    cases strength : precedence? operator with
    | none =>
      have foreign : isOneOf Vocabulary.binaryOperators[least] operator = false :=
        List.findIdx?_eq_none_iff.1 strength _ (List.getElem_mem _)
      simp [strength, foreign]
    | some own =>
      have other : least ≠ own →
          isOneOf Vocabulary.binaryOperators[least] operator = false := by
        intro apart
        rw [Bool.eq_false_iff]
        intro inRow
        have here := Form.precedence?_of_row (List.drop_eq_getElem_cons listed) inRow
        exact apart (Option.some.inj (here.symm.trans strength))
      simp only [Option.bind_some, strength, Option.any_some]
      rcases Nat.lt_trichotomy least own with weaker | rfl | stronger
      · rw [if_pos (Nat.le_of_lt weaker), if_pos (Nat.succ_le_of_lt weaker), Option.some_or]
      · have inRow := (List.findIdx?_eq_some_iff_getElem.1 strength).2.1
        rw [if_pos (Nat.le_refl least), if_neg (Nat.not_succ_le_self least), if_pos inRow,
          Option.none_or, List.getD_eq_getElem?_getD, List.getElem?_eq_getElem listed,
          Option.getD_some]
      · have outside := Bool.eq_false_iff.1 (other (Nat.ne_of_gt stronger))
        rw [if_neg (Nat.not_le_of_gt stronger), if_neg (by omega), if_neg outside,
          Option.none_or]

/-- The rows from a number on are climbed by the strength of the next operator. -/
theorem climb_drop (inner : Tier → Production) (least : Nat) :
    climb inner (Vocabulary.binaryOperators.drop least) = byStrength inner least := by
  funext s
  by_cases listed : least < Vocabulary.binaryOperators.length
  · rw [byStrength_eq_or inner s listed, ← climb_drop inner (least + 1),
      List.drop_eq_getElem_cons listed]
    rfl
  · rw [List.drop_eq_nil_of_le (Nat.le_of_not_lt listed), climb, byStrength]
    cases strength : s.rest.head?.bind precedence? with
    | none => rfl
    | some own =>
      obtain ⟨operator, -, known⟩ := Option.bind_eq_some_iff.1 strength
      have below := lt_length_of_precedence? known
      exact (if_neg (by omega)).symm
termination_by Vocabulary.binaryOperators.length - least

end Grammar.Expression

namespace SyntaxTree

open Grammar (precedence?)

/-- The operands of a binary expression are nodes of the operand tiers. A chain
on the right has only tighter operators, a chain on the left none that is
weaker. -/
theorem binary_grouping {source : String} {tree : SyntaxTree}
    (parsed : ofSource source = .ok tree) {children : List Tree}
    (listed : .node .binaryExpression children ∈ tree.root.postorder) :
    ∃ left operator right own, children = [left, .leaf operator, right] ∧
      precedence? operator = some own ∧
      (∀ operand ∈ [left, right], ∃ kind parts, operand = .node kind parts ∧
        kind ∉ [.expression, .assignmentExpression, .conditionalExpression]) ∧
      (right.kind? = some .binaryExpression → ∃ inner, right.strength? = some inner ∧
        own < inner) ∧
      (left.kind? = some .binaryExpression → ∃ inner, left.strength? = some inner ∧
        own ≤ inner) ∧
      (∀ other, right.HasOperator other → ∃ inner, precedence? other = some inner ∧
        own < inner) ∧
      ∀ other, left.HasOperator other → ∃ inner, precedence? other = some inner ∧
        own ≤ inner := by
  have grammatical := Tree.inherit_postorder (fun _ _ => Tree.Grammatical.child)
    (ofSource_spec parsed).1 _ listed
  cases grammatical with
  | node form below =>
    obtain ⟨left, operator, right, own, rfl, strength, before, behind⟩ :=
      Form.exists_of_binaryExpression form
    refine ⟨left, operator, right, own, rfl, strength, ?_, behind.exists_strength,
      before.exists_strength, fun _ inside => ?_, fun _ inside => ?_⟩
    · intro operand member
      rcases List.mem_pair.1 member with rfl | rfl
      · exact before.exists_node
      · exact behind.exists_node
    · exact Form.IsJoined.precedence_ge inside (below right (by simp)) behind
    · exact Form.IsJoined.precedence_ge inside (below left (by simp)) before

theorem binary_grouping_chain : ∃ tree left operator right own,
    ofSource "int k = a - b * c - d;" = .ok tree ∧
      .node .binaryExpression [left, .leaf operator, right] ∈ tree.root.postorder ∧
      (left.leaves ++ operator :: right.leaves).map Token.text =
        ["a", "-", "b", "*", "c", "-", "d"] ∧
      precedence? operator = some own ∧
      ∀ other, left.HasOperator other → ∃ inner, precedence? other = some inner ∧
        own ≤ inner := by
  have read : (ofSource "int k = a - b * c - d;").toOption.map (fun tree =>
      (tree.root.postorder.find? fun node =>
        node.leaves.map Token.text =
          ["a", "-", "b", "*", "c", "-", "d"]).bind Tree.kind?) =
      some (some .binaryExpression) := by
    decide +kernel
  obtain ⟨tree, parsed, found⟩ := exists_of_map_toOption read
  obtain ⟨node, first, isBinary⟩ := Option.bind_eq_some_iff.1 found
  have listed := List.mem_of_find?_eq_some first
  have texts := List.find?_some first
  rw [decide_eq_true_eq] at texts
  cases node with
  | leaf token => cases isBinary
  | node kind children =>
    cases isBinary
    obtain ⟨left, operator, right, own, rfl, strength, -, -, -, -, before⟩ :=
      binary_grouping parsed listed
    exact ⟨tree, left, operator, right, own, parsed, listed, by simpa using texts, strength, before⟩

end SyntaxTree

end ShaderDialect
