import ShaderDialect.Proofs.Climbing
import ShaderDialect.SyntaxTree

/-!
# Every tree that is read is grammatical

Each production reads trees of the form that the grammar of trees gives them.
The tiers of the expression grammar, and the other productions that nest, are
treated for any production in the place of `inner` that reads its tier; the
number of levels is then an induction.
-/

namespace ShaderDialect

namespace Grammar

/-- The trees that each tier of the expression grammar reads. -/
def Tier.form : Tier → Form
  | .unary => .node NodeKind.unaryKinds
  | .conditional => .node NodeKind.conditionalKinds
  | .assignment => .node [.assignmentExpression]

theorem admits_of_isTypeName {s : State} {token : Token} (h : s.isTypeName token) :
    TokenClass.typeName.admits token := by
  unfold State.isTypeName at h
  split at h <;> simp_all [TokenClass.admits]

theorem admits_of_isQualifier {s : State} {token : Token} {next : Option Token}
    (h : s.isQualifier token next) : TokenClass.qualifier.admits token := by
  unfold State.isQualifier at h
  split at h <;> simp_all [TokenClass.admits]

/-! ### Expressions -/

namespace Expression

theorem reads_literal :
    Reads (take .expression (isLiteral ·.kind)) (.token .literal) :=
  reads_take fun _ => id

theorem reads_operator (marks : List String) :
    Reads (take .expression (isOneOf marks)) (.token (.oneOf marks)) :=
  reads_take fun _ => id

section Dimensions

variable {size : Production} (reads : Reads size (.node NodeKind.conditionalKinds))

include reads

theorem reads_arraySpecifier : Reads (arraySpecifier size) (.node [.arraySpecifier]) :=
  reads_node (reads_seq (.cons (reads_mark "[")
    (.cons (reads_optional reads) (.cons (reads_mark "]") .nil)))) (by simp)

theorem reads_arraySpecifiers : Reads (arraySpecifiers size) .arraySpecifiers :=
  reads_many (reads_arraySpecifier reads)

end Dimensions

section Tiers

variable {inner : Tier → Production} (reads : ∀ t, Reads (inner t) t.form)

include reads

theorem reads_expression : Reads (expression inner) (.node [.expression]) :=
  reads_node (reads_commaList (reads .assignment)) (by simp)

/-- A constructor is named, so its type is no struct in place. -/
theorem reads_constructor :
    Reads (constructor inner) (.headed .typeSpecifier .typeName) := by
  intro s
  have typeName : ReadsAt s (take .typeName s.isTypeName) (.token .typeName) :=
    readsAt_take fun _ _ => admits_of_isTypeName
  have named := readsAt_seq_cons typeName
    (reads_seq (.cons (reads_arraySpecifiers (reads .conditional)) .nil))
  refine @readsOnto_wrap [] s .typeSpecifier _ _ _ (by simp) named ?_ ?_
  · rintro new ⟨before, after, rfl, first, dimensions⟩
    exact ⟨before, after, rfl, Or.inr first, dimensions⟩
  · rintro new ⟨_, after, rfl, ⟨token, rfl, admitted⟩, -⟩
    exact ⟨token, after, rfl, admitted⟩

theorem reads_primary : Reads (primary inner) (.node NodeKind.postfixKinds) := by
  intro s
  have arguments := reads_seq (.cons (reads_parenList (reads .assignment)) .nil)
  apply readsAt_look
  split_ifs with isLiteral isCall isName isConstructor isParen
  · exact readsAt_node ((reads_literal s).mono fun _ => Or.inl)
      (by simp [NodeKind.postfixKinds])
  · exact readsAt_node (readsAt_seq_cons ((reads_identifier s).mono fun _ => Or.inl) arguments)
      (by simp [NodeKind.postfixKinds])
  · exact readsAt_node ((reads_identifier s).mono fun _ => Or.inr) (by simp [NodeKind.postfixKinds])
  · exact readsAt_node
      (readsAt_seq_cons ((reads_constructor reads s).mono fun _ => Or.inr ∘ Or.inl) arguments)
      (by simp [NodeKind.postfixKinds])
  · exact readsAt_node (reads_seq (.cons (reads_mark "(")
      (.cons (reads_expression reads) (.cons (reads_mark ")") .nil))) s)
      (by simp [NodeKind.postfixKinds])
  · exact readsAt_fail s _ _

/-- What follows an operand makes one operand of both. -/
theorem readsOnto_suffix {before : List Tree} {s : State} {kind : NodeKind}
    {p : Production} (grammatical : ∀ tree ∈ before, tree.Grammatical)
    (matched : (Form.node NodeKind.postfixKinds).Matches before)
    (seen : suffix inner s = some (kind, p)) :
    ReadsOnto before s (wrap kind before p) (.node NodeKind.postfixKinds) := by
  unfold suffix at seen
  split_ifs at seen with dot bracket paren increment decrement <;> cases seen
  · exact readsOnto_wrap_node grammatical
      (reads_seq (.cons (reads_mark ".") (.cons reads_identifier .nil)) s)
      (fun new found => ⟨before, new, rfl, matched, found⟩) (by simp [NodeKind.postfixKinds])
  · exact readsOnto_wrap_node grammatical
      (reads_seq (.cons (reads_mark "[")
        (.cons (reads_expression reads) (.cons (reads_mark "]") .nil))) s)
      (fun new found => ⟨before, new, rfl, matched, found⟩) (by simp [NodeKind.postfixKinds])
  · exact readsOnto_wrap_node grammatical
      ((reads_parenList (reads .assignment) s).mono fun _ => Form.matches_all_singleton.2)
      (fun new found => ⟨before, new, rfl, Or.inr (Or.inr (Or.inl matched)), found⟩)
      (by simp [NodeKind.postfixKinds])
  · exact readsOnto_wrap_node grammatical
      ((reads_mark_oneOf (by simp) s).mono fun _ => Form.matches_all_singleton.2)
      (fun new found => ⟨before, new, rfl, matched, found⟩) (by simp [NodeKind.postfixKinds])
  · exact readsOnto_wrap_node grammatical
      ((reads_mark_oneOf (by simp) s).mono fun _ => Form.matches_all_singleton.2)
      (fun new found => ⟨before, new, rfl, matched, found⟩) (by simp [NodeKind.postfixKinds])

theorem reads_operand : Reads (operand inner) (.node NodeKind.postfixKinds) :=
  reads_extend (reads_primary reads) fun _ _ _ _ => readsOnto_suffix reads

theorem reads_unary : Reads (unary inner) (.node NodeKind.unaryKinds) := by
  intro s
  apply readsAt_look
  split_ifs with isOperator
  · exact readsAt_node (reads_seq (.cons (reads_operator _) (.cons (reads .unary) .nil)) s)
      (by simp [NodeKind.unaryKinds])
  · refine (reads_operand reads s).mono ?_
    rintro _ ⟨kind, children, rfl, listed⟩
    exact ⟨kind, children, rfl, List.mem_cons_of_mem _ listed⟩

/-- Operands joined by the rows of `rows`, where these are the tightest of all. -/
theorem reads_binary {rows : List (List String)}
    (listed : rows <:+ Vocabulary.binaryOperators) :
    Reads (binary inner rows) (.joined rows) := by
  have uses := (reads_unary reads).uses
  induction rows with
  | nil =>
    rw [binary_nil]
    refine fun s => (reads_unary reads s).mono ?_
    rintro _ ⟨kind, children, rfl, unary⟩
    exact ⟨_, rfl, Or.inl unary⟩
  | cons row tighter ih =>
    rw [binary_cons uses]
    have operand := ih ((List.suffix_cons row tighter).trans listed)
    have widen : ∀ trees, (Form.joined tighter).Matches trees →
        (Form.joined (row :: tighter)).Matches trees := by
      rintro _ ⟨tree, rfl, joined⟩
      exact ⟨tree, rfl, joined.cons row⟩
    refine reads_extend (fun s => (operand s).mono widen) ?_
    intro before s kind p grammatical matched seen
    unfold joining at seen
    split_ifs at seen with isOperator
    cases seen
    refine readsOnto_wrap grammatical
      (reads_seq (.cons (reads_operator row) (.cons operand .nil)) s) ?_ ?_
    · intro new found
      exact Form.matches_anyOf (Form.mem_binaryRows listed) ⟨before, new, rfl, matched, found⟩
    · obtain ⟨left, rfl, -⟩ := matched
      rintro _ ⟨_, _, rfl, ⟨operator, rfl, isOneOf⟩, _, _, rfl, ⟨right, rfl, -⟩, rfl⟩
      refine ⟨_, rfl, Or.inr ⟨rfl, left, operator, right, rfl, ?_⟩⟩
      rw [List.flatten_cons, List.any_append, Bool.or_eq_true_iff]
      exact Or.inl isOneOf

theorem reads_conditional :
    Reads (conditional inner) (.node NodeKind.conditionalKinds) := by
  intro s
  refine readsOnto_bind (reads_binary reads List.suffix_rfl s) ?_
  intro condition s' grammatical matched
  apply readsOnto_look
  split_ifs with asks
  · exact readsOnto_wrap_node grammatical
      (reads_seq (.cons (reads_mark "?") (.cons (reads_expression reads)
        (.cons (reads_mark ":") (.cons (reads .assignment) .nil)))) s')
      (fun new found => ⟨condition, new, rfl, matched, found⟩)
      (by simp [NodeKind.conditionalKinds])
  · exact readsOnto_pure grammatical (Form.node_of_joined matched)

theorem reads_assignment : Reads (assignment inner) (.node [.assignmentExpression]) :=
  reads_node (reads_seq (.cons (reads_conditional reads)
    (.cons (reads_optional (reads_seq
      (.cons (reads_operator _) (.cons (reads .assignment) .nil)))) .nil))) (by simp)

end Tiers

/-- Every tier reads its form, however many levels it may nest. -/
theorem reads_nested (depth : Nat) (t : Tier) : Reads (nested depth t) t.form := by
  induction depth generalizing t with
  | zero => exact fun s => readsAt_fail s _ _
  | succ depth ih =>
    cases t with
    | unary => exact reads_unary ih
    | conditional => exact reads_conditional ih
    | assignment => exact reads_assignment ih

end Expression

theorem reads_tier (t : Tier) : Reads (tier t) t.form :=
  fun s => readsAt_look (Expression.reads_nested s.left t s)

theorem reads_expression : Reads expression (.node [.expression]) :=
  Expression.reads_expression reads_tier

/-! ### Types and declarations -/

theorem reads_arraySpecifiers : Reads arraySpecifiers .arraySpecifiers :=
  Expression.reads_arraySpecifiers (reads_tier .conditional)

theorem reads_dimensionedName : Reads dimensionedName .dimensionedName :=
  reads_seq (.cons reads_identifier (.cons reads_arraySpecifiers .nil))

theorem reads_layoutQualifier : Reads layoutQualifier (.node [.layoutQualifier]) := by
  refine reads_node (reads_seq (.cons (reads_mark "layout") (.cons (reads_mark "(")
    (.cons (reads_many fun s => readsAt_look ?_) (.cons (reads_mark ")") .nil))))) (by simp)
  split_ifs with isValue
  · exact (reads_seq (.cons (reads_mark "=") (.cons (reads_tier .conditional) .nil)) s).mono
      fun _ => Or.inl
  · exact (readsAt_take fun _ _ _ => rfl).mono fun _ => Or.inr

theorem reads_qualifiers : Reads qualifiers .qualifiers := by
  refine fun s => readsAt_many fun s seen => readsAt_look ?_
  split_ifs with isLayout
  · exact (reads_layoutQualifier s).mono fun _ => Or.inl
  · refine (readsAt_take fun token head _ => ?_).mono fun _ => Or.inr
    apply admits_of_isQualifier (s := s)
    simpa [State.seesQualifier, head] using seen

namespace TypeSpecifier

variable {inner : Production} (reads : Reads inner (.node [.typeSpecifier]))

include reads

theorem reads_structMember : Reads (structMember inner) (.node [.structMember]) :=
  reads_node (reads_seq (.cons reads_qualifiers (.cons reads
    (.cons (reads_commaList reads_dimensionedName) (.cons (reads_mark ";") .nil))))) (by simp)

theorem reads_structSpecifier :
    Reads (structSpecifier inner) (.node [.structSpecifier]) :=
  reads_node (reads_seq (.cons (reads_mark "struct") (.cons (reads_optional reads_newTypeName)
    (.cons (reads_mark "\x7b") (.cons (reads_many (reads_structMember reads))
      (.cons (reads_mark "\x7d") .nil)))))) (by simp)

theorem reads_typeSpecifier : Reads (typeSpecifier inner) (.node [.typeSpecifier]) := by
  refine reads_node (reads_seq (.cons (fun s => readsAt_look ?_)
    (.cons reads_arraySpecifiers .nil))) (by simp)
  split_ifs with isStruct
  · exact (reads_structSpecifier reads s).mono fun _ => Or.inl
  · refine (readsAt_take fun token _ named => ?_).mono fun _ => Or.inr
    rcases Bool.or_eq_true_iff.1 named with named | named
    · exact admits_of_isTypeName named
    · simp_all [TokenClass.admits]

end TypeSpecifier

theorem TypeSpecifier.reads_nested (depth : Nat) :
    Reads (TypeSpecifier.nested depth) (.node [.typeSpecifier]) := by
  induction depth with
  | zero => exact fun s => readsAt_fail s _ _
  | succ depth ih => exact TypeSpecifier.reads_typeSpecifier ih

theorem reads_typeSpecifier : Reads typeSpecifier (.node [.typeSpecifier]) :=
  fun s => readsAt_look (TypeSpecifier.reads_nested s.left s)

theorem reads_fullySpecifiedType :
    Reads fullySpecifiedType (.node [.fullySpecifiedType]) :=
  reads_node (reads_seq (.cons reads_qualifiers (.cons reads_typeSpecifier .nil))) (by simp)

theorem reads_parameter : Reads parameter (.node [.parameterDeclaration]) :=
  reads_node (reads_seq (.cons reads_qualifiers (.cons reads_typeSpecifier
    (.cons (reads_optional reads_dimensionedName) .nil)))) (by simp)

namespace Initializer

theorem reads_initializer {inner : Production}
    (reads : Reads inner (.node [.initializer])) :
    Reads (initializer inner) (.node [.initializer]) := by
  refine reads_node (fun s => readsAt_look ?_) (by simp)
  split_ifs with isList
  · refine (reads_seq (.cons (reads_mark "\x7b")
      (.cons (reads_optional (reads_seq (.cons reads (.cons (reads_many ?_) .nil))))
        (.cons (reads_mark "\x7d") .nil))) s).mono fun _ => Or.inl
    exact reads_seq (.cons (reads_mark ",") (.cons (reads_optional reads) .nil))
  · exact (reads_tier .assignment s).mono fun _ => Or.inr

theorem reads_nested (depth : Nat) : Reads (nested depth) (.node [.initializer]) := by
  induction depth with
  | zero => exact fun s => readsAt_fail s _ _
  | succ depth ih => exact reads_initializer ih

end Initializer

theorem reads_initializer : Reads initializer (.node [.initializer]) :=
  fun s => readsAt_look (Initializer.reads_nested s.left s)

theorem reads_declarator : Reads declarator (.node [.declarator]) :=
  reads_node (reads_seq (.cons reads_identifier (.cons reads_arraySpecifiers
    (.cons (reads_optional (reads_seq (.cons (reads_mark "=") (.cons reads_initializer .nil))))
      .nil)))) (by simp)

theorem reads_structMember : Reads structMember (.node [.structMember]) :=
  TypeSpecifier.reads_structMember reads_typeSpecifier

theorem reads_interfaceBlock {kinds : List NodeKind} (listed : .interfaceBlock ∈ kinds) :
    Reads interfaceBlock (.node kinds) :=
  reads_node (reads_seq (.cons reads_qualifiers (.cons reads_newTypeName
    (.cons (reads_mark "\x7b") (.cons (reads_many reads_structMember) (.cons (reads_mark "\x7d")
      (.cons (reads_optional reads_dimensionedName) .nil))))))) listed

theorem reads_precisionStatement :
    Reads precisionStatement
      (.all [.mark "precision", .optional (.token .qualifier), .node [.typeSpecifier],
        .mark ";"]) := by
  refine reads_seq (.cons (reads_mark "precision") (.cons (fun s => ?_)
    (.cons reads_typeSpecifier (.cons (reads_mark ";") .nil))))
  refine readsAt_optional fun holds => readsAt_take fun token head _ => ?_
  simp_all [TokenClass.admits]

/-- The node behind a semicolon makes a declaration. -/
theorem readsOnto_closed {before : List Tree} {s : State} {kinds : List NodeKind}
    (grammatical : ∀ tree ∈ before, tree.Grammatical)
    (matched : (Form.node [.interfaceBlock, .functionPrototype,
      .initDeclaratorList]).Matches before)
    (listed : .declaration ∈ kinds) :
    ReadsOnto before s (wrap .declaration before (mark ";")) (.node kinds) := by
  refine readsOnto_wrap_node grammatical (reads_mark ";" s) (fun new found => ?_) listed
  exact Form.matches_anyOf (List.mem_cons_of_mem _ (List.mem_cons_of_mem _ List.mem_cons_self))
    ⟨before, new, rfl, matched, Form.matches_all_singleton.2 found⟩

theorem Form.node_mono {kinds wider : List NodeKind} (h : kinds ⊆ wider)
    {trees : List Tree}
    (matched : (Form.node kinds).Matches trees) : (Form.node wider).Matches trees := by
  obtain ⟨kind, children, rfl, listed⟩ := matched
  exact ⟨kind, children, rfl, h listed⟩

/-- A declaration reads one node. It is a function definition only where a body
may follow. -/
theorem reads_declaration {body : Option Production} {kinds : List NodeKind}
    (declares : .declaration ∈ kinds)
    (defines : ∀ p ∈ body, Reads p (.node [.compoundStatement]) ∧
      .functionDefinition ∈ kinds) :
    Reads (declaration body) (.node kinds) := by
  intro s
  apply readsAt_look
  split_ifs with isEmpty isPrecision isBlock
  · exact readsAt_node ((reads_mark ";" s).mono fun _ => Or.inl) declares
  · exact readsAt_node ((reads_precisionStatement s).mono fun _ => Or.inr ∘ Or.inl) declares
  · refine readsAt_node ((reads_seq (.cons (reads_interfaceBlock (by simp))
      (.cons (reads_mark ";") .nil)) s).mono fun _ => Or.inr ∘ Or.inr ∘ Or.inl) declares
  · refine readsOnto_bind (reads_fullySpecifiedType s)
      fun type s' grammatical matched => ?_
    apply readsOnto_look
    split_ifs with isPrototype
    · refine readsOnto_bind (readsOnto_wrap_node grammatical
        (reads_seq (.cons reads_identifier (.cons (reads_parenList reads_parameter) .nil)) s')
        (fun new found => ⟨type, new, rfl, matched, found⟩) (List.mem_singleton.2 rfl)) ?_
      intro prototype s'' grammatical' matched'
      have closed := readsOnto_closed (s := s'') grammatical'
        (Form.node_mono (by simp) matched') declares
      apply readsOnto_look
      cases body with
      | none => exact closed
      | some body =>
        obtain ⟨readsBody, listed⟩ := defines body rfl
        dsimp only
        split_ifs with isDefinition
        · exact readsOnto_wrap_node grammatical' (readsBody s'')
            (fun new found => ⟨prototype, new, rfl, matched', Form.matches_all_singleton.2 found⟩)
            listed
        · exact closed
    · refine readsOnto_bind (readsOnto_wrap_node grammatical
        (reads_optional (reads_commaList reads_declarator) s')
        (fun new found => ⟨type, new, rfl, matched, Form.matches_all_singleton.2 found⟩)
        (List.mem_singleton.2 rfl)) ?_
      intro list s'' grammatical' matched'
      exact readsOnto_closed grammatical' (Form.node_mono (by simp) matched') declares

/-! ### Statements -/

theorem reads_parenthesized : Reads (parenthesized expression) .parenthesized :=
  reads_seq (.cons (reads_mark "(") (.cons reads_expression (.cons (reads_mark ")") .nil)))

theorem reads_expressionStatement {kinds : List NodeKind}
    (listed : .expressionStatement ∈ kinds) :
    Reads expressionStatement (.node kinds) :=
  reads_node (reads_seq (.cons (reads_optional reads_expression) (.cons (reads_mark ";") .nil)))
    listed

/-- Where a jump is seen, a jump is read. -/
theorem readsAt_jumpStatement {s : State}
    (seen : s.seesAny ["return", "break", "continue", "discard"]) :
    ReadsAt s jumpStatement (.node Form.statementKinds) := by
  refine readsAt_node (readsAt_look ?_) (by simp [Form.statementKinds])
  split_ifs with isReturn
  · exact (reads_seq (.cons (reads_mark "return") (.cons (reads_optional reads_expression)
      (.cons (reads_mark ";") .nil))) s).mono fun _ => Or.inl
  · refine (readsAt_seq_cons (readsAt_take fun token head _ => ?_)
      (reads_seq (.cons (reads_mark ";") .nil))).mono fun _ => Or.inr
    simp_all [State.seesAny, State.sees, TokenClass.admits]

theorem reads_caseLabel : Reads caseLabel (.node Form.statementKinds) := by
  refine reads_node (fun s => readsAt_look ?_) (by simp [Form.statementKinds])
  split_ifs with isCase
  · exact (reads_seq (.cons (reads_mark "case") (.cons reads_expression
      (.cons (reads_mark ":") .nil))) s).mono fun _ => Or.inl
  · exact (reads_seq (.cons (reads_mark "default") (.cons (reads_mark ":") .nil)) s).mono
      fun _ => Or.inr

namespace Statement

section Nesting

variable {inner : Production} (reads : Reads inner (.node Form.statementKinds))

include reads

theorem reads_compound {kinds : List NodeKind} (listed : .compoundStatement ∈ kinds) :
    Reads (compound inner) (.node kinds) :=
  reads_node (reads_seq (.cons (reads_mark "\x7b") (.cons (reads_many reads)
    (.cons (reads_mark "\x7d") .nil)))) listed

theorem reads_selection : Reads (selection inner) (.node Form.statementKinds) :=
  reads_node (reads_seq (.cons (reads_mark "if") (.cons reads_parenthesized (.cons reads
    (.cons (reads_optional (reads_seq (.cons (reads_mark "else") (.cons reads .nil)))) .nil)))))
    (by simp [Form.statementKinds])

theorem reads_switchStatement :
    Reads (switchStatement inner) (.node Form.statementKinds) :=
  reads_node (reads_seq (.cons (reads_mark "switch") (.cons reads_parenthesized
    (.cons (reads_compound reads (by simp)) .nil)))) (by simp [Form.statementKinds])

theorem reads_whileLoop : Reads (whileLoop inner) (.node Form.statementKinds) :=
  reads_node (reads_seq (.cons (reads_mark "while") (.cons reads_parenthesized
    (.cons reads .nil)))) (by simp [Form.statementKinds])

theorem reads_doLoop : Reads (doLoop inner) (.node Form.statementKinds) :=
  reads_node (reads_seq (.cons (reads_mark "do") (.cons reads (.cons (reads_mark "while")
    (.cons reads_parenthesized (.cons (reads_mark ";") .nil)))))) (by simp [Form.statementKinds])

theorem reads_forLoop : Reads (forLoop inner) (.node Form.statementKinds) := by
  refine reads_node (reads_seq (.cons (reads_mark "for") (.cons (reads_mark "(")
    (.cons (fun s => readsAt_look ?_) (.cons (reads_optional reads_expression)
      (.cons (reads_mark ";") (.cons (reads_optional reads_expression)
        (.cons (reads_mark ")") (.cons reads .nil)))))))))
    (by simp [Form.statementKinds])
  split_ifs with declares
  · exact reads_declaration (by simp) (by simp) s
  · exact reads_expressionStatement (by simp) s

theorem reads_statement : Reads (statement inner) (.node Form.statementKinds) := by
  intro s
  apply readsAt_look
  split_ifs with isBlock isIf isSwitch isCase isWhile isDo isFor isJump isDeclaration
  · exact reads_compound reads (by simp [Form.statementKinds]) s
  · exact reads_selection reads s
  · exact reads_switchStatement reads s
  · exact reads_caseLabel s
  · exact reads_whileLoop reads s
  · exact reads_doLoop reads s
  · exact reads_forLoop reads s
  · exact readsAt_jumpStatement isJump
  · exact reads_declaration (by simp [Form.statementKinds]) (by simp) s
  · exact reads_expressionStatement (by simp [Form.statementKinds]) s

end Nesting

theorem reads_nested (depth : Nat) :
    Reads (nested depth) (.node Form.statementKinds) := by
  induction depth with
  | zero => exact fun s => readsAt_fail s _ _
  | succ depth ih => exact reads_statement ih

end Statement

theorem reads_compoundStatement : Reads compoundStatement (.node [.compoundStatement]) :=
  Statement.reads_compound (fun s => readsAt_look (Statement.reads_nested s.left s)) (by simp)

/-- A part of a shader at its outermost level. -/
theorem reads_external :
    Reads (declaration (some compoundStatement)) (.node [.declaration, .functionDefinition]) :=
  reads_declaration (by simp) (by simpa using reads_compoundStatement)

/-! ### Whole shaders -/

/-- A repetition whose rounds all use a token ends where its condition fails. -/
theorem stops_of_rounds {condition : State → Bool} {p : Production}
    (progress : ∀ s trees s', p s = .ok (trees, s') → s'.rest.length < s.rest.length)
    (inside : ∀ s, condition s → s.rest ≠ []) {n : Nat} {s s' : State} {trees : List Tree}
    (enough : s.rest.length ≤ n) (run : rounds condition p n s = .ok (trees, s')) :
    condition s' = false := by
  induction n generalizing s trees with
  | zero =>
    obtain ⟨-, rfl⟩ := pure_eq_ok.1 run
    by_contra holds
    exact inside s (by simpa using holds) (List.length_eq_zero_iff.1 (Nat.le_zero.1 enough))
  | succ n ih =>
    simp only [rounds, look] at run
    split_ifs at run with holds
    · obtain ⟨first, s₁, readFirst, run⟩ := bind_eq_ok.1 run
      obtain ⟨others, s₂, readOthers, done⟩ := bind_eq_ok.1 run
      obtain ⟨-, rfl⟩ := pure_eq_ok.1 done
      have shorter := progress s first s₁ readFirst
      exact ih (by omega) readOthers
    · obtain ⟨-, rfl⟩ := pure_eq_ok.1 run
      simpa using holds

theorem stops_of_many {condition : State → Bool} {p : Production}
    (progress : ∀ s trees s', p s = .ok (trees, s') → s'.rest.length < s.rest.length)
    (inside : ∀ s, condition s → s.rest ≠ []) {s s' : State} {trees : List Tree}
    (run : many condition p s = .ok (trees, s')) : condition s' = false :=
  stops_of_rounds progress inside (Nat.le_of_eq s.left_eq.symm) run

/-- A production that reads one node which is not a whole shader uses a token. -/
theorem Reads.progress {p : Production} {kinds : List NodeKind}
    (h : Reads p (.node kinds)) (inside : .unit ∉ kinds) (s : State) (trees : List Tree)
    (s' : State)
    (run : p s = .ok (trees, s')) : s'.rest.length < s.rest.length := by
  obtain ⟨leaves, grammatical, kind, children, rfl, listed⟩ := h s trees s' run
  have nonempty := (grammatical _ List.mem_cons_self).leaves_ne_nil (by
    rintro ⟨⟩
    exact inside listed)
  simp only [Tree.leavesAll_nil, List.nil_append, Tree.leavesAll_cons,
    List.append_nil] at leaves
  have := List.length_pos_iff.2 nonempty
  rw [leaves, List.length_append]
  omega

end Grammar

namespace SyntaxTree

/-- The tree of a token list is grammatical, and its leaves are the list. -/
theorem ofTokens_spec {tokens : List Token} {root : Tree}
    (h : ofTokens tokens = .ok root) :
    root.Grammatical ∧ root.kind? = some .unit ∧ root.leaves = tokens := by
  unfold ofTokens at h
  split at h
  · cases h
  · rename_i root' s' run
    cases h
    obtain ⟨declarations, s₁, read, done⟩ := Grammar.bind_eq_ok.1 run
    obtain ⟨rfl, rfl⟩ := Grammar.pure_eq_ok.1 done
    obtain ⟨leaves, grammatical, matched⟩ :=
      Grammar.reads_many Grammar.reads_external _ _ _ read
    have ended := Grammar.stops_of_many (Grammar.reads_external.progress (by simp))
      (by simp [Grammar.State.atEnd]) read
    have rest : s₁.rest = [] := by simpa [Grammar.State.atEnd] using ended
    refine ⟨.node matched grammatical, rfl, ?_⟩
    simpa [Grammar.State.start, rest] using leaves.symm

end SyntaxTree

end ShaderDialect
