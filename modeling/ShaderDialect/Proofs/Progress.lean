import ShaderDialect.Proofs.Precedence
import ShaderDialect.Proofs.Recursion
import ShaderDialect.Proofs.Totality

/-!
# Reading goes forward and comes to an end

Every production fails at a token that is left, or at the end, or goes forward.
Three of them stay where they are at some places: qualifiers where none follows,
declarators where the declaration ends at its type, and a whole text where no
token is left. No loop of the grammar repeats one of these three. So the loops
and the nesting end by themselves, on any tokens, and so does looking ahead for
an interface block. Tokens can be read to a tree, or reading stops at one of
them.
-/

namespace ShaderDialect.Grammar

/-! ### Productions -/

/-- What the grammar reads: marks and names, and every kind of node. Some phrases
go on with trees that are already read. -/
inductive Phrase where
  | mark (text : String)
  | identifier
  | newTypeName
  | primary
  | constructor
  | call (callee : List Tree)
  | operand
  | unary
  | joined (least : Nat)
  | conditional
  | assignment
  | expression
  | arraySpecifier
  | layoutQualifier
  | qualifiers
  | structMember
  | structSpecifier
  | typeSpecifier
  | fullySpecifiedType
  | parameter
  | prototype (type : List Tree)
  | initializer
  | declarator
  | declaratorList (type : List Tree)
  | interfaceBlock
  | precisionStatement
  | declaration
  | external
  | parenthesized
  | expressionStatement
  | jumpStatement
  | caseLabel
  | selection
  | switchStatement
  | whileLoop
  | doLoop
  | forLoop
  | compoundStatement
  | statement
  | unit

namespace Phrase

def production : Phrase → Production
  | mark text => Grammar.mark text
  | identifier => Grammar.identifier
  | newTypeName => Grammar.newTypeName
  | primary => Expression.primary tier
  | constructor => Expression.constructor tier
  | call callee => wrap .functionCall callee (parenList Grammar.assignment)
  | operand => Expression.operand tier
  | unary => tier .unary
  | joined least => Expression.binary tier (Vocabulary.binaryOperators.drop least)
  | conditional => Grammar.conditional
  | assignment => Grammar.assignment
  | expression => Grammar.expression
  | arraySpecifier => Grammar.arraySpecifier
  | layoutQualifier => Grammar.layoutQualifier
  | qualifiers => Grammar.qualifiers
  | structMember => Grammar.structMember
  | structSpecifier => TypeSpecifier.structSpecifier Grammar.typeSpecifier
  | typeSpecifier => Grammar.typeSpecifier
  | fullySpecifiedType => Grammar.fullySpecifiedType
  | parameter => Grammar.parameter
  | prototype type => functionPrototype type
  | initializer => Grammar.initializer
  | declarator => Grammar.declarator
  | declaratorList type => initDeclaratorList type
  | interfaceBlock => Grammar.interfaceBlock
  | precisionStatement => Grammar.precisionStatement
  | declaration => Grammar.declaration none
  | external => Grammar.declaration (some Grammar.compoundStatement)
  | parenthesized => Grammar.parenthesized Grammar.expression
  | expressionStatement => Grammar.expressionStatement
  | jumpStatement => Grammar.jumpStatement
  | caseLabel => Grammar.caseLabel
  | selection => Statement.selection Grammar.statement
  | switchStatement => Statement.switchStatement Grammar.statement
  | whileLoop => Statement.whileLoop Grammar.statement
  | doLoop => Statement.doLoop Grammar.statement
  | forLoop => Statement.forLoop Grammar.statement
  | compoundStatement => Grammar.compoundStatement
  | statement => Grammar.statement
  | unit => do return [← Grammar.unit]

/-- The trees that a phrase goes on with. -/
def before : Phrase → List Tree
  | call callee => callee
  | prototype type => type
  | declaratorList type => type
  | _ => []

/-- Whether there is nothing to read for a phrase that may be without tokens. -/
def idle : Phrase → State → Bool
  | qualifiers, s => ! s.seesQualifier
  | declaratorList _, s => s.sees ";"
  | unit, s => s.atEnd
  | _, _ => false

/-- A phrase fails at a token that is left, or at the end; or it reads tokens,
which are the leaves of what it returns behind those it goes on with. It reads
none where it is idle, and there only. -/
def Advances (phrase : Phrase) (s : State) : Prop :=
  (∃ failure, phrase.production s = .error failure ∧ failure.rest <:+ s.rest) ∨
    ∃ trees s' read, phrase.production s = .ok (trees, s') ∧
      Tree.leavesAll trees = Tree.leavesAll phrase.before ++ read ∧
      s.rest = read ++ s'.rest ∧
        (read = [] ↔ phrase.idle s)

end Phrase

/-- The leaves of what is read are those of the trees before it, and the tokens
that are used. -/
def Keeps (before : List Tree) (p : Production) : Prop :=
  ∀ s trees s', p s = .ok (trees, s') → ∃ read,
    Tree.leavesAll trees = Tree.leavesAll before ++ read ∧ s.rest = read ++ s'.rest

theorem Reads.keeps {p : Production} {form : Form} (reads : Reads p form) : Keeps [] p :=
  fun s trees s' run => ⟨Tree.leavesAll trees, rfl, by simpa using (reads s trees s' run).leaves⟩

theorem keeps_wrap (kind : NodeKind) (before : List Tree) {p : Production}
    (inside : Keeps [] p) :
    Keeps before (wrap kind before p) := by
  intro s trees s' run
  obtain ⟨new, s₁, read, done⟩ := bind_eq_ok.1 run
  obtain ⟨rfl, rfl⟩ := pure_eq_ok.1 done
  obtain ⟨tokens, leaves, rest⟩ := inside s new s₁ read
  refine ⟨tokens, ?_, rest⟩
  simpa [Tree.leavesAll_append] using leaves

theorem reads_statement : Reads statement (.node Form.statementKinds) :=
  fun s => readsAt_look (Statement.reads_nested s.left s)

/-- A declaration inside a function has no body. -/
theorem reads_localDeclaration : Reads (declaration none) (.node [.declaration]) :=
  reads_declaration (List.mem_singleton_self _) (by simp)

theorem local_localDeclaration : Local [] 0 1 (declaration none) (declaration none) :=
  local_declaration (by simp)

/-- A jump is read from any word; that it is one of the four is known before. -/
theorem keeps_jumpStatement : Keeps [] jumpStatement := by
  have word : Reads (take (.mark ";") fun _ => true) (.token .any) :=
    reads_take fun _ _ => rfl
  have semicolon := reads_mark ";"
  refine keeps_wrap _ [] fun s trees s' run => ?_
  simp only [look] at run
  split_ifs at run
  · exact (reads_seq (.cons (reads_mark "return") (.cons (reads_optional reads_expression)
      (.cons semicolon .nil)))).keeps s trees s' run
  · exact (reads_seq (.cons word (.cons semicolon .nil))).keeps s trees s' run

/-- A whole text is a node over its declarations. -/
theorem production_unit :
    Phrase.unit.production = node .unit (many (! ·.atEnd) Phrase.external.production) := by
  funext s
  simp only [Phrase.production, unit, node, bind_assoc, pure_bind]

namespace Phrase

theorem keeps : ∀ phrase : Phrase, Keeps phrase.before phrase.production
  | mark text => (reads_mark text).keeps
  | identifier => reads_identifier.keeps
  | newTypeName => reads_newTypeName.keeps
  | primary => (Expression.reads_primary reads_tier).keeps
  | constructor => (Expression.reads_constructor reads_tier).keeps
  | call callee => keeps_wrap _ callee (reads_parenList (reads_tier .assignment)).keeps
  | operand => (Expression.reads_operand reads_tier).keeps
  | unary => (reads_tier .unary).keeps
  | joined _ => (Expression.reads_binary reads_tier (List.drop_suffix _ _)).keeps
  | conditional => (reads_tier .conditional).keeps
  | assignment => (reads_tier .assignment).keeps
  | expression => reads_expression.keeps
  | arraySpecifier => (Expression.reads_arraySpecifier (reads_tier .conditional)).keeps
  | layoutQualifier => reads_layoutQualifier.keeps
  | qualifiers => reads_qualifiers.keeps
  | structMember => reads_structMember.keeps
  | structSpecifier => (TypeSpecifier.reads_structSpecifier reads_typeSpecifier).keeps
  | typeSpecifier => reads_typeSpecifier.keeps
  | fullySpecifiedType => reads_fullySpecifiedType.keeps
  | parameter => reads_parameter.keeps
  | prototype type =>
    keeps_wrap _ type (reads_seq (.cons reads_identifier
      (.cons (reads_parenList reads_parameter) .nil))).keeps
  | initializer => reads_initializer.keeps
  | declarator => reads_declarator.keeps
  | declaratorList type =>
    keeps_wrap _ type (reads_optional (reads_commaList reads_declarator)).keeps
  | interfaceBlock => (reads_interfaceBlock (List.mem_singleton_self _)).keeps
  | precisionStatement => reads_precisionStatement.keeps
  | declaration => reads_localDeclaration.keeps
  | external => reads_external.keeps
  | parenthesized => reads_parenthesized.keeps
  | expressionStatement => (reads_expressionStatement (List.mem_singleton_self _)).keeps
  | jumpStatement => keeps_jumpStatement
  | caseLabel => reads_caseLabel.keeps
  | selection => (Statement.reads_selection reads_statement).keeps
  | switchStatement => (Statement.reads_switchStatement reads_statement).keeps
  | whileLoop => (Statement.reads_whileLoop reads_statement).keeps
  | doLoop => (Statement.reads_doLoop reads_statement).keeps
  | forLoop => (Statement.reads_forLoop reads_statement).keeps
  | compoundStatement => reads_compoundStatement.keeps
  | statement => reads_statement.keeps
  | unit => production_unit ▸ keeps_wrap _ [] (reads_many reads_external).keeps

/-- The tokens that a phrase reads at least. -/
def least : Phrase → Nat
  | qualifiers => 0
  | declaratorList _ => 0
  | unit => 0
  | _ => 1

theorem isLocal (phrase : Phrase) :
    Local [] 2 phrase.least phrase.production phrase.production := by
  cases phrase with
  | mark text => exact (local_mark text).mono (by decide) (Nat.le_refl 1)
  | identifier => exact local_identifier.mono (by decide) (by decide)
  | newTypeName => exact local_newTypeName.mono (by decide) (by decide)
  | primary => exact (Expression.local_primary local_tier).mono (by decide) (by decide)
  | constructor =>
    exact (Expression.local_constructor local_tier).mono (by decide) (by decide)
  | call callee =>
    exact (local_wrap _ callee (local_parenList (local_tier .assignment))).mono (by decide)
      (Nat.le_succ 1)
  | operand =>
    exact (local_extend (Expression.local_primary local_tier)
      (Expression.localNext_suffix local_tier)).mono (by decide) (by decide)
  | unary => exact (local_tier .unary).mono (by decide) (by decide)
  | joined least =>
    exact (Expression.local_binary local_tier _).mono (by decide) (Nat.le_refl 1)
  | conditional => exact (local_tier .conditional).mono (by decide) (by decide)
  | assignment => exact (local_tier .assignment).mono (by decide) (by decide)
  | expression => exact local_expression.mono (by decide) (by decide)
  | arraySpecifier =>
    exact (Expression.local_arraySpecifier (local_tier .conditional)).mono (by decide) (by decide)
  | layoutQualifier => exact local_layoutQualifier.mono (by decide) (by decide)
  | qualifiers => exact local_qualifiers
  | structMember =>
    exact (TypeSpecifier.local_structMember local_typeSpecifier).mono (by decide) (by decide)
  | structSpecifier =>
    exact (TypeSpecifier.local_structSpecifier local_typeSpecifier).mono (by decide) (by decide)
  | typeSpecifier => exact local_typeSpecifier.mono (by decide) (by decide)
  | fullySpecifiedType => exact local_fullySpecifiedType.mono (by decide) (by decide)
  | parameter => exact local_parameter.mono (by decide) (by decide)
  | prototype type =>
    exact (local_wrap _ type (local_seq_cons local_identifier
      (local_seq_last (local_parenList local_parameter)) (by decide))).mono (by decide)
      (Nat.le_add_right 1 2)
  | initializer => exact local_initializer.mono (by decide) (by decide)
  | declarator => exact local_declarator.mono (by decide) (by decide)
  | declaratorList type =>
    exact (local_wrap _ type (local_unless ";" (local_commaList local_declarator))).mono
      (by decide) (Nat.le_refl 0)
  | interfaceBlock => exact local_interfaceBlock.mono (by decide) (by decide)
  | precisionStatement => exact local_precisionStatement.mono (by decide) (by decide)
  | declaration => exact local_localDeclaration.mono (by decide) (by decide)
  | external => exact local_external.mono (by decide) (by decide)
  | parenthesized => exact local_parenthesized.mono (by decide) (by decide)
  | expressionStatement => exact local_expressionStatement.mono (by decide) (by decide)
  | jumpStatement => exact local_jumpStatement.mono (by decide) (by decide)
  | caseLabel => exact local_caseLabel.mono (by decide) (by decide)
  | selection =>
    exact (Statement.local_selection local_statement).mono (by decide) (by decide)
  | switchStatement =>
    exact (Statement.local_switchStatement local_statement).mono (by decide) (by decide)
  | whileLoop =>
    exact (Statement.local_whileLoop local_statement).mono (by decide) (by decide)
  | doLoop => exact (Statement.local_doLoop local_statement).mono (by decide) (by decide)
  | forLoop =>
    exact (Statement.local_forLoop local_statement).mono (by decide) (by decide)
  | compoundStatement =>
    exact (Statement.local_compound local_statement).mono (by decide) (by decide)
  | statement => exact local_statement.mono (by decide) (by decide)
  | unit =>
    exact production_unit ▸ (local_node _ local_externals).mono (by decide) (by decide)

end Phrase

/-! ### Loops -/

/-- The loops of the grammar, without those that put node after node around an
operand. -/
inductive Loop where
  | declarations
  | statements
  | members
  | layoutItems
  | qualifiers
  | dimensions
  | arguments
  | parameters
  | names
  | declarators
  | initializers

namespace Loop

/-- When a round follows. -/
def condition : Loop → State → Bool
  | declarations => (! ·.atEnd)
  | statements => (·.isBefore "\x7d")
  | members => (·.isBefore "\x7d")
  | layoutItems => (·.isBefore ")")
  | qualifiers => State.seesQualifier
  | dimensions => (·.sees "[")
  | _ => (·.sees ",")

/-- What a round reads. -/
def round : Loop → Production
  | declarations => Phrase.external.production
  | statements => Phrase.statement.production
  | members => Phrase.structMember.production
  | layoutItems => layoutItem
  | qualifiers => qualifier
  | dimensions => Phrase.arraySpecifier.production
  | arguments => seq [mark ",", assignment]
  | parameters => seq [mark ",", parameter]
  | names => seq [mark ",", dimensionedName]
  | declarators => seq [mark ",", declarator]
  | initializers => Initializer.nextItem initializer

theorem left_pos (loop : Loop) (s : State) (holds : loop.condition s) : 1 ≤ s.left := by
  cases loop with
  | declarations =>
    by_contra none
    simp [condition, State.atEnd, State.rest_eq_nil (by omega : s.left = 0)] at holds
  | statements => exact State.left_pos_of_isBefore holds
  | members => exact State.left_pos_of_isBefore holds
  | layoutItems => exact State.left_pos_of_isBefore holds
  | _ => exact State.left_pos_of_head? holds

/-- What begins with a comma reads it. -/
theorem uses_comma {ahead used : Nat} {p : Production} (near : Local [] ahead used p p) :
    Uses 1 (seq [mark ",", p]) :=
  ((agreed_behind "," (agreed_of_local (local_seq_last near))) : Agreed 1 1 _ _).uses

theorem uses_round (loop : Loop) : Uses 1 loop.round := by
  cases loop with
  | declarations => exact uses_of_local Phrase.external.isLocal
  | statements => exact uses_of_local Phrase.statement.isLocal
  | members => exact uses_of_local Phrase.structMember.isLocal
  | layoutItems => exact uses_of_local local_layoutItem
  | qualifiers => exact uses_of_local local_qualifier
  | dimensions => exact uses_of_local Phrase.arraySpecifier.isLocal
  | arguments => exact uses_comma (local_tier .assignment)
  | parameters => exact uses_comma local_parameter
  | names => exact uses_comma local_dimensionedName
  | declarators => exact uses_comma local_declarator
  | initializers => exact uses_comma (local_ifBefore "\x7d" local_initializer)

theorem loops (loop : Loop) (s : State) :
    Loops loop.condition loop.round s (many loop.condition loop.round s) :=
  loops_many loop.left_pos loop.uses_round s

end Loop

section Loops

variable {condition : State → Bool} {p : Production} {s s' : State} {trees : List Tree}
  {result : Except Failure (List Tree × State)}

theorem Loops.left_le (each : Uses 1 p) (h : Loops condition p s result)
    (done : result = .ok (trees, s')) : s'.left ≤ s.left := by
  induction h generalizing trees with
  | stop =>
    cases done
    exact Nat.le_refl _
  | fail => cases done
  | @round s s₁ first result holds read others ih =>
    cases result with
    | error failure => cases done
    | ok pair =>
      cases done
      have least := each _ _ _ read
      have behind := ih rfl
      omega

/-- A loop goes forward where there is a round. -/
theorem Loops.left_lt (each : Uses 1 p) (h : Loops condition p s result)
    (holds : condition s) (done : result = .ok (trees, s')) : s'.left < s.left := by
  cases h with
  | stop finished => simp [finished] at holds
  | fail => cases done
  | @round _ s₁ first result _ read others =>
    cases result with
    | error failure => cases done
    | ok pair =>
      cases done
      have least := each _ _ _ read
      have behind := others.left_le each rfl
      omega

end Loops

namespace Phrase

/-- A phrase stays where it is exactly where it is idle. -/
theorem left_eq_iff (phrase : Phrase) {s s' : State} {trees : List Tree}
    (run : phrase.production s = .ok (trees, s')) : s'.left = s.left ↔ phrase.idle s := by
  have least := uses_of_local phrase.isLocal s trees s' run
  cases phrase with
  | qualifiers =>
    cases seen : s.seesQualifier with
    | false =>
      obtain ⟨-, rfl⟩ := many_eq_ok seen run
      simp [idle, seen]
    | true =>
      have forward :=
        (Loop.qualifiers.loops s).left_lt Loop.qualifiers.uses_round seen run
      simp [idle, seen, Nat.ne_of_lt forward]
  | declaratorList type =>
    obtain ⟨new, inside⟩ := wrap_eq_ok run
    simp only [optional, look] at inside
    split_ifs at inside with more
    · have forward := uses_of_local (local_commaList local_declarator) s new s' inside
      have other : s.sees ";" = false := by simpa using more
      simp only [idle, other]
      exact iff_of_false (by omega) Bool.false_ne_true
    · obtain ⟨-, rfl⟩ := pure_eq_ok.1 inside
      simpa [idle] using more
  | unit =>
    rw [production_unit] at run
    obtain ⟨new, inside⟩ := node_eq_ok run
    cases finished : s.atEnd with
    | true =>
      obtain ⟨-, rfl⟩ := many_eq_ok (by rw [finished]; rfl) inside
      simp [idle, finished]
    | false =>
      have forward := (Loop.declarations.loops s).left_lt Loop.declarations.uses_round
        (by simp [Loop.condition, finished]) inside
      simp [idle, finished, Nat.ne_of_lt forward]
  | _ =>
    simp only [Phrase.least] at least
    exact iff_of_false (by omega) Bool.false_ne_true

theorem advances (phrase : Phrase) (s : State) : phrase.Advances s := by
  cases run : phrase.production s with
  | error failure => exact Or.inl ⟨failure, run, (phrase.isLocal s).stops failure run⟩
  | ok pair =>
    obtain ⟨trees, s'⟩ := pair
    obtain ⟨read, leaves, rest⟩ := phrase.keeps s trees s' run
    refine Or.inr ⟨trees, s', read, run, leaves, rest, ?_⟩
    rw [← phrase.left_eq_iff run, s.left_eq, s'.left_eq, rest, List.length_append]
    rw [← List.length_eq_zero_iff]
    omega

end Phrase

theorem Expression.consumes_suffix : Consumes (Expression.suffix tier) := by
  intro s kind p goes
  rcases localNext_suffix local_tier s with ⟨finished, -⟩ |
    ⟨_, _, _, present, same, -, inside⟩
  · rw [finished] at goes
    cases goes
  · rw [same] at goes
    cases goes
    exact ⟨present, uses_of_local inside⟩

/-! ### Looking ahead -/

/-- How looking ahead skips a group while `depth` parentheses are open. No rule
closes a parenthesis where none is open. -/
inductive Skips : Nat → List Token → List Token → Prop
  | exhausted {depth : Nat} : Skips depth [] []
  | opening {depth : Nat} {token : Token} {rest behind : List Token} (opens : token.is "(")
      (others : Skips (depth + 1) rest behind) : Skips depth (token :: rest) behind
  | closing {depth : Nat} {token : Token} {rest behind : List Token} (closes : token.is ")")
      (others : Skips (depth + 1) rest behind) : Skips (depth + 2) (token :: rest) behind
  | last {token : Token} {rest : List Token} (closes : token.is ")") :
      Skips 1 (token :: rest) rest
  | inside {depth : Nat} {token : Token} {rest behind : List Token} (opens : token.is "(" = false)
      (closes : token.is ")" = false) (others : Skips depth rest behind) :
      Skips depth (token :: rest) behind

theorem exists_skips (depth : Nat) (tokens : List Token) :
    ∃ behind, behind <:+ tokens ∧ Skips (depth + 1) tokens behind := by
  induction tokens generalizing depth with
  | nil => exact ⟨[], List.suffix_rfl, .exhausted⟩
  | cons token rest ih =>
    cases opens : token.is "(" with
    | true =>
      obtain ⟨behind, suffix, skips⟩ := ih (depth + 1)
      exact ⟨behind, suffix.trans (List.suffix_cons _ _), .opening opens skips⟩
    | false =>
      cases closes : token.is ")" with
      | false =>
        obtain ⟨behind, suffix, skips⟩ := ih depth
        exact ⟨behind, suffix.trans (List.suffix_cons _ _), .inside opens closes skips⟩
      | true =>
        cases depth with
        | zero => exact ⟨rest, List.suffix_cons _ _, .last closes⟩
        | succ depth =>
          obtain ⟨behind, suffix, skips⟩ := ih depth
          exact ⟨behind, suffix.trans (List.suffix_cons _ _), .closing closes skips⟩

/-- How looking ahead for an interface block runs: qualifier after qualifier, and
over the group behind each `layout`. -/
inductive SeesBlock (s : State) : Bool → List Token → Bool → Prop
  | exhausted {qualified : Bool} : SeesBlock s qualified [] false
  | layout {qualified answer : Bool} {token opening : Token} {rest behind : List Token}
      (isLayout : token.is "layout") (opens : opening.is "(")
      (group : Skips 0 (opening :: rest) behind) (others : SeesBlock s true behind answer) :
      SeesBlock s qualified (token :: opening :: rest) answer
  | bareLayout {qualified answer : Bool} {token : Token} {rest : List Token}
      (isLayout : token.is "layout") (opens : rest.head?.any (·.is "(") = false)
      (others : SeesBlock s true rest answer) :
        SeesBlock s qualified (token :: rest) answer
  | qualifier {qualified answer : Bool} {token : Token} {rest : List Token}
      (noLayout : token.is "layout" = false) (qualifies : s.isQualifier token rest.head?)
      (others : SeesBlock s true rest answer) :
        SeesBlock s qualified (token :: rest) answer
  | name {qualified : Bool} {token : Token} {rest : List Token}
      (noLayout : token.is "layout" = false) (other : s.isQualifier token rest.head? = false) :
      SeesBlock s qualified (token :: rest)
        (qualified && token.kind = .identifier && rest.head?.any (·.is "\x7b"))

theorem isBlockHead_of_skips {s : State} {depth : Nat} {tokens behind : List Token}
    (qualified : Bool) (h : Skips depth tokens behind) (isOpen : 1 ≤ depth) :
    isBlockHead s depth qualified tokens = isBlockHead s 0 qualified behind := by
  have apart : ∀ {token : Token}, token.is ")" → ¬ token.is "(" := by
    intro token closes opens
    simp only [Token.is, Bool.and_eq_true, decide_eq_true_eq] at closes opens
    exact absurd (closes.2.symm.trans opens.2) (by decide)
  induction h with
  | exhausted => simp [isBlockHead]
  | @opening depth token rest behind opens others ih =>
    obtain ⟨depth, rfl⟩ := Nat.exists_eq_succ_of_ne_zero (by omega : depth ≠ 0)
    rw [isBlockHead, if_pos opens, ih (by omega)]
  | closing closes others ih =>
    rw [isBlockHead, if_neg (apart closes), if_pos closes, ih (by omega)]
  | last closes => rw [isBlockHead, if_neg (apart closes), if_pos closes]
  | @inside depth token rest behind opens closes others ih =>
    obtain ⟨depth, rfl⟩ := Nat.exists_eq_succ_of_ne_zero (by omega : depth ≠ 0)
    rw [isBlockHead, opens, closes, ih (by omega)]
    rfl

/-- One round of looking ahead, outside of groups. -/
theorem isBlockHead_cons (s : State) (qualified : Bool) (token : Token)
    (rest : List Token) :
    isBlockHead s 0 qualified (token :: rest) =
      if token.is "layout" then
        if rest.head?.any (·.is "(") then isBlockHead s 1 true rest.tail
        else isBlockHead s 0 true rest
      else if s.isQualifier token rest.head? then isBlockHead s 0 true rest
      else qualified && token.kind = .identifier && rest.head?.any (·.is "\x7b") := by
  cases rest with
  | nil => simp [isBlockHead]
  | cons opening inside =>
    exact isBlockHead.eq_def s 0 qualified (token :: opening :: inside)

theorem SeesBlock.answer_eq {s : State} {qualified answer : Bool} {tokens : List Token}
    (h : SeesBlock s qualified tokens answer) :
    answer = isBlockHead s 0 qualified tokens := by
  induction h with
  | exhausted => simp [isBlockHead]
  | @layout qualified answer token opening rest behind isLayout opens group others ih =>
    cases group with
    | opening _ skips =>
      rw [isBlockHead_cons, if_pos isLayout, if_pos (by simpa using opens), ih]
      exact (isBlockHead_of_skips true skips (Nat.le_refl 1)).symm
    | inside closed => simp [opens] at closed
  | bareLayout isLayout opens others ih =>
    rw [isBlockHead_cons, if_pos isLayout, opens, ih]; rfl
  | qualifier noLayout qualifies others ih =>
    rw [isBlockHead_cons, noLayout, if_pos qualifies, ih]; rfl
  | name noLayout other => rw [isBlockHead_cons, noLayout, other]; rfl

/-- Looking ahead comes to an end on any tokens. -/
theorem exists_seesBlock (s : State) (qualified : Bool) (tokens : List Token) :
    ∃ answer, SeesBlock s qualified tokens answer := by
  induction length : tokens.length using Nat.strongRecOn generalizing qualified tokens with
  | _ n ih =>
    subst length
    cases tokens with
    | nil => exact ⟨_, .exhausted⟩
    | cons token rest =>
      cases isLayout : token.is "layout" with
      | true =>
        cases opens : rest.head?.any (·.is "(") with
        | false =>
          obtain ⟨answer, others⟩ := ih _ (Nat.lt_succ_self _) true rest rfl
          exact ⟨answer, .bareLayout isLayout opens others⟩
        | true =>
          cases rest with
          | nil => cases opens
          | cons opening rest =>
            obtain ⟨behind, suffix, skips⟩ := exists_skips 0 rest
            obtain ⟨answer, others⟩ :=
              ih behind.length (by simp; have := suffix.length_le; omega)
                true behind rfl
            exact ⟨answer, .layout isLayout opens (.opening opens skips) others⟩
      | false =>
        cases qualifies : s.isQualifier token rest.head? with
        | true =>
          obtain ⟨answer, others⟩ := ih _ (Nat.lt_succ_self _) true rest rfl
          exact ⟨answer, .qualifier isLayout qualifies others⟩
        | false => exact ⟨_, .name isLayout qualifies⟩

theorem seesBlock_iff {s : State} {qualified answer : Bool} {tokens : List Token} :
    SeesBlock s qualified tokens answer ↔ answer = isBlockHead s 0 qualified tokens := by
  refine ⟨SeesBlock.answer_eq, ?_⟩
  rintro rfl
  obtain ⟨answer, sees⟩ := exists_seesBlock s qualified tokens
  exact sees.answer_eq ▸ sees

end ShaderDialect.Grammar

namespace ShaderDialect.SyntaxTree

open Grammar

/-- On any tokens, reading goes forward and ends. Each phrase fails at a token
that is left or reads tokens, and it reads none only where it is idle. The loops,
and the nesting of productions, come out as they would without a bound; operators
are joined by their strength. Looking ahead for an interface block ends, and
never closes a parenthesis that is not open. So there is a tree of exactly the
tokens, or reading stops at one of them or at the end, and a stream has its error
there. -/
theorem reading_ends :
    (∀ (phrase : Phrase) (s : State), phrase.Advances s) ∧
    (∀ (loop : Loop) (s : State),
      Loops loop.condition loop.round s (many loop.condition loop.round s)) ∧
    (∀ s, Extended (Expression.primary tier) (Expression.suffix tier) s
      (Expression.operand tier s)) ∧
    (∀ least s, Extended (Expression.unary tier) (Expression.byStrength tier least) s
      (Expression.binary tier (Vocabulary.binaryOperators.drop least) s)) ∧
    (∀ inner, inner = Expression.level inner ↔ inner = tier) ∧
    (∀ inner, inner = TypeSpecifier.typeSpecifier inner ↔ inner = typeSpecifier) ∧
    (∀ inner, inner = Initializer.initializer inner ↔ inner = initializer) ∧
    (∀ inner, inner = Statement.statement inner ↔ inner = statement) ∧
    (∀ opening rest, opening.is "(" → ∃ behind, behind <:+ rest ∧
      Skips 0 (opening :: rest) behind) ∧
    (∀ s answer, SeesBlock s false s.rest answer ↔ answer = s.seesInterfaceBlock) ∧
    (∀ tokens, (∃ root, ofTokens tokens = .ok root ∧ root.leaves = tokens) ∨
      ∃ failure, ofTokens tokens = .error failure ∧ failure.rest <:+ tokens) ∧
    ∀ stream, (∃ tree, ofStream stream = .ok tree ∧ tree.root.leaves = stream.tokens) ∨
      ∃ error, ofStream stream = .error error ∧ error.StopsIn stream := by
  refine ⟨Phrase.advances, Loop.loops, extended_extend Expression.consumes_suffix, ?_,
    Expression.nests_level.eq_step_iff, TypeSpecifier.nests_typeSpecifier.eq_iff,
    Initializer.nests_initializer.eq_iff, Statement.nests_statement.eq_iff, ?_,
    fun _ _ => seesBlock_iff, ?_, ?_⟩
  · intro least s
    have operand := (Expression.reads_unary reads_tier).uses
    rw [← Expression.climb_drop]
    exact extended_extend (Expression.consumes_climb operand _) s
  · intro opening rest opens
    obtain ⟨behind, suffix, skips⟩ := exists_skips 0 rest
    exact ⟨behind, suffix, .opening opens skips⟩
  · intro tokens
    cases read : ofTokens tokens with
    | ok root => exact Or.inl ⟨root, rfl, (ofTokens_spec read).2.2⟩
    | error failure => exact Or.inr ⟨failure, rfl, rest_of_ofTokens read⟩
  · intro stream
    cases read : ofTokens stream.tokens with
    | ok root =>
      exact Or.inl ⟨⟨stream, root⟩, by simp [ofStream, read], (ofTokens_spec read).2.2⟩
    | error failure => exact Or.inr ⟨_, by simp [ofStream, read], stopsIn_locate read⟩

theorem reading_ends_unclosed : ∃ stream,
    TokenStream.ofSource "layout(((x) uniform float f(;" = .ok stream ∧
      ∃ error, ofStream stream = .error error ∧ error.StopsIn stream := by
  have unread : (TokenStream.ofSource "layout(((x) uniform float f(;").toOption.map
      (fun stream => (ofStream stream).toOption.isNone) = some true := by
    decide +kernel
  cases cut : TokenStream.ofSource "layout(((x) uniform float f(;" with
  | error cause =>
    rw [cut] at unread
    cases unread
  | ok stream =>
    refine ⟨stream, rfl, ?_⟩
    obtain ⟨-, -, -, -, -, -, -, -, -, -, -, streams⟩ := reading_ends
    rcases streams stream with ⟨tree, read, -⟩ | failed
    · rw [cut] at unread
      simp [Except.toOption, read] at unread
    · exact failed

/-- Before the type of `int;` no qualifier is read, behind it no declarator, and a
text without tokens is a unit of none. -/
theorem phrases_idle : ∃ stream type s, TokenStream.ofSource "int;" = .ok stream ∧
    Phrase.qualifiers.production (.start stream.tokens) = .ok ([], .start stream.tokens) ∧
    Phrase.fullySpecifiedType.production (.start stream.tokens) = .ok (type, s) ∧
    (Phrase.declaratorList type).production s =
      .ok ([.node .initDeclaratorList type], s) ∧
    Phrase.unit.production (.start []) = .ok ([.node .unit []], .start []) := by
  have seen : (TokenStream.ofSource "int;").toOption.map (fun stream =>
      (! (State.start stream.tokens).seesQualifier) &&
        (fullySpecifiedType (.start stream.tokens)).toOption.any (·.2.sees ";")) =
          some true := by
    decide +kernel
  obtain ⟨stream, cut, seen⟩ := exists_of_map_toOption seen
  obtain ⟨bare, ended⟩ := Bool.and_eq_true_iff.1 seen
  obtain ⟨⟨type, s⟩, read, ended⟩ := (Option.any_eq_true _ _).1 ended
  refine ⟨stream, type, s, cut, many_of_false (by simpa using bare), ?_, ?_, rfl⟩
  · exact eq_ok_of_toOption read
  · have closed : Grammar.optional (! ·.sees ";") (commaList declarator) s =
        .ok ([], s) := by
      simp only [Grammar.optional, look]
      rw [if_neg (by simpa using ended)]
      rfl
    refine bind_eq_ok.2 ⟨[], s, closed, ?_⟩
    rw [List.append_nil]
    rfl

end ShaderDialect.SyntaxTree
