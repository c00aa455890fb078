import Mathlib.Tactic.SplitIfs
import ShaderDialect.Proofs.Grammatical
import ShaderDialect.Proofs.Locality

/-!
# How far the grammar looks ahead

Expressions, types and statements are decided by one token behind them; a
declaration ends with a mark and needs none. Only the head of an interface block
is looked for without a bound, but where more tokens make one of what was none,
no block can be read. So the declarations of a text are the first ones of every
longer text that can be read.
-/

namespace ShaderDialect

namespace Grammar

section Runs

variable {s s' : State} {trees : List Tree}

theorem node_eq_ok {kind : NodeKind} {p : Production}
    (run : node kind p s = .ok (trees, s')) :
    ∃ new, p s = .ok (new, s') :=
  @wrap_eq_ok s s' trees kind [] p run

theorem many_of_false {condition : State → Bool} {p : Production}
    (stops : condition s = false) :
    many condition p s = .ok ([], s) := by
  change rounds condition p s.left s = _
  cases s.left with
  | zero => rfl
  | succ n =>
    simp only [rounds, look, stops]
    rfl

theorem many_eq_ok {condition : State → Bool} {p : Production}
    (stops : condition s = false)
    (run : many condition p s = .ok (trees, s')) : trees = [] ∧ s' = s := by
  cases (many_of_false stops).symm.trans run
  exact ⟨rfl, rfl⟩

end Runs

section Productions

variable {more : List Token}

namespace Expression

variable {inner inner' : Tier → Production}
    (each : ∀ tier, Local more 1 1 (inner tier) (inner' tier))
include each

theorem local_expression : Local more 1 1 (expression inner) (expression inner') :=
  local_node _ (local_commaList (each .assignment))

section Dimensions

variable {size size' : Production} (inside : Local more 1 1 size size')

include inside

omit each in
theorem local_arraySpecifier :
    Local more 0 2 (arraySpecifier size) (arraySpecifier size') :=
  local_node .arraySpecifier (local_seq_cons (local_mark "[")
    (local_seq_cons (local_unless "]" inside) (local_seq_last (local_mark "]")) (by decide))
    (by decide))

omit each in
theorem local_arraySpecifiers :
    Local more 1 0 (arraySpecifiers size) (arraySpecifiers size') :=
  local_while "[" ((local_arraySpecifier inside).mono (by decide) (by decide))

end Dimensions

theorem local_constructor : Local more 1 1 (constructor inner) (constructor inner') := by
  intro s
  have type : Local more 0 1 (take .typeName s.isTypeName)
      (take .typeName (s.extend more).isTypeName) :=
    fun _ => localAt_take
  have whole := local_node .typeSpecifier (local_seq_cons type
    (local_seq_last (local_arraySpecifiers (each .conditional))) (by decide)) s
  exact ⟨whole.stops, whole.uses, whole.decided⟩

theorem local_primary : Local more 1 1 (primary inner) (primary inner') := by
  intro s
  have list := local_parenList (each .assignment)
  refine localAt_look (localAt_ite (fun left => ?_) (fun _ => ?_) fun _ =>
    localAt_ite (fun left => ?_) (fun _ => ?_) fun _ =>
    localAt_ite (fun left => ?_) (fun _ => ?_) fun _ =>
    localAt_ite (fun left => ?_) (fun _ => ?_) fun _ =>
    localAt_ite (fun left => ?_) (fun _ => ?_) fun _ => ?_)
  · rw [State.head?_extend more (by omega)]
  · exact (local_node _ (local_take _ _) s).mono (by decide) (by decide)
  · rw [State.seesKind_extend more (by omega), State.seesSecond_extend more left]
  · exact (local_node _ (local_seq_cons local_identifier (local_seq_last list) (by decide)) s).mono
      (by decide) (by decide)
  · rw [State.seesKind_extend more (by omega), State.seesTypeName_extend more (by omega),
      State.seesSecond_extend more left]
  · exact (local_node _ local_identifier s).mono (by decide) (by decide)
  · exact State.seesTypeName_extend more (by omega)
  · exact (local_node _ (local_seq_cons (local_constructor each) (local_seq_last list)
      (by decide)) s).mono (by decide) (by decide)
  · exact State.sees_extend more (by omega) "("
  · exact (local_node _ (local_seq_cons (local_mark "(") (local_seq_cons (local_expression each)
      (local_seq_last (local_mark ")")) (by decide)) (by decide)) s).mono (by decide) (by decide)
  · exact localAt_fail s _ _

theorem localNext_suffix : LocalNext more (suffix inner) (suffix inner') := by
  intro s
  by_cases left : 1 ≤ s.left
  · unfold suffix
    simp only [State.sees_extend more left]
    split_ifs
    · exact Or.inr ⟨_, _, _, left, rfl, rfl, (local_seq_cons (local_mark ".")
        (local_seq_last local_identifier) (by decide)).mono (by decide) (by decide)⟩
    · exact Or.inr ⟨_, _, _, left, rfl, rfl, (local_seq_cons (local_mark "[")
        (local_seq_cons (local_expression each) (local_seq_last (local_mark "]")) (by decide))
        (by decide)).mono (by decide) (by decide)⟩
    · exact Or.inr ⟨_, _, _, left, rfl, rfl,
        (local_parenList (each .assignment)).mono (by decide) (by decide)⟩
    · exact Or.inr ⟨_, _, _, left, rfl, rfl, (local_mark "++").mono (by decide) (by decide)⟩
    · exact Or.inr ⟨_, _, _, left, rfl, rfl, (local_mark "--").mono (by decide) (by decide)⟩
    · exact Or.inl ⟨rfl, fun _ => rfl⟩
  · refine Or.inl ⟨?_, fun present => absurd present left⟩
    have nothing := State.rest_eq_nil (by omega : s.left = 0)
    simp [suffix, State.sees, nothing]

theorem local_unary : Local more 1 1 (unary inner) (unary inner') := by
  intro s
  refine localAt_look (localAt_ite (fun left => State.seesAny_extend more (by omega) _)
    (fun _ => ?_) (fun _ => ?_))
  · exact (local_node _ (local_seq_cons (local_take _ _) (local_seq_last (each .unary))
      (by decide)) s).mono (by decide) (by decide)
  · exact local_extend (local_primary each) (localNext_suffix each) s

omit each in
theorem localNext_joining (row : List String) {p p' : Production}
    (operand : Local more 1 1 p p') :
    LocalNext more (joining row p) (joining row p') := by
  intro s
  have both :=
    (local_seq_cons (local_take .expression (isOneOf row)) (local_seq_last operand)
      (by decide)).mono (Nat.le_refl 1) (by decide : 1 ≤ 1 + 1)
  unfold joining
  by_cases seen : s.seesAny row = true
  · have left := State.left_pos_of_seesAny seen
    simp only [State.seesAny_extend more left, seen, if_true]
    exact Or.inr ⟨_, _, _, left, rfl, rfl, both⟩
  · refine Or.inl ⟨if_neg seen, fun left => ?_⟩
    rw [State.seesAny_extend more left, if_neg seen]

theorem localNext_climb (rows : List (List String)) :
    LocalNext more (climb inner rows) (climb inner' rows) := by
  induction rows with
  | nil => exact fun s => Or.inl ⟨rfl, fun _ => rfl⟩
  | cons row tighter ih =>
    exact ih.or (localNext_joining row (local_extend (local_unary each) ih))

theorem local_binary (rows : List (List String)) :
    Local more 1 1 (binary inner rows) (binary inner' rows) :=
  local_extend (local_unary each) (localNext_climb each rows)

theorem local_conditional : Local more 1 1 (conditional inner) (conditional inner') := by
  intro s
  have others : ∀ (trees : List Tree) (s' : State), LocalAt more 1 0 s'
      (look fun s => if s.sees "?" then wrap .conditionalExpression trees
        (seq [mark "?", expression inner, mark ":", inner .assignment]) else pure trees)
      (look fun s => if s.sees "?" then wrap .conditionalExpression trees
        (seq [mark "?", expression inner', mark ":", inner' .assignment]) else pure trees) := by
    intro trees s'
    refine localAt_look (localAt_ite (fun left => State.sees_extend more left "?") (fun _ => ?_)
      (fun _ => (localAt_pure s' trees).mono (by decide) (by decide)))
    have choice := local_seq_cons (local_mark "?") (local_seq_cons (local_expression each)
      (local_seq_cons (local_mark ":") (local_seq_last (each .assignment)) (by decide))
      (by decide)) (by decide)
    exact (local_wrap _ trees choice s').mono (by decide) (by decide)
  exact localAt_bind (local_binary each _ s) (fun trees s' _ => others trees s') (by decide)

theorem local_assignment : Local more 1 1 (assignment inner) (assignment inner') := by
  have value :=
    local_seq_cons (local_take .expression (isOneOf Vocabulary.assignmentOperators))
      (local_seq_last (each .assignment)) (by decide)
  exact local_node _ (local_seq_cons (local_conditional each) (local_seq_last
    (local_optional value fun s left => State.seesAny_extend more left _)) (by decide))

omit each in
/-- The levels of nesting play no part, as long as they suffice. -/
theorem local_nested (depth depth' : Nat) (tier : Tier) :
    Local more 1 1 (nested depth tier) (nested depth' tier) := by
  induction depth generalizing depth' tier with
  | zero => exact fun s => localAt_fail s _ _
  | succ depth ih =>
    have deeper : ∀ depth', Local more 1 1 (nested (depth + 1) tier)
        (nested (depth' + 1) tier) := by
      intro depth'
      cases tier with
      | unary => exact local_unary (ih depth')
      | conditional => exact local_conditional (ih depth')
      | assignment => exact local_assignment (ih depth')
    cases depth' with
    | zero => exact fun s => (deeper 0 s).of_fail _
    | succ depth' => exact deeper depth'

end Expression

theorem local_tier (t : Tier) : Local more 1 1 (tier t) (tier t) :=
  fun s => localAt_look (Expression.local_nested s.left (s.extend more).left t s)

theorem local_expression : Local more 1 1 expression expression :=
  Expression.local_expression local_tier

theorem local_arraySpecifiers : Local more 1 0 arraySpecifiers arraySpecifiers :=
  Expression.local_arraySpecifiers (local_tier .conditional)

theorem local_dimensionedName : Local more 1 1 dimensionedName dimensionedName :=
  local_seq_cons local_identifier (local_seq_last local_arraySpecifiers) (by decide)

theorem local_optionalName {used : Nat} {p q : Production}
    (inside : Local more 1 used p q) :
    Local more 1 0 (optional (·.seesKind .identifier) p) (optional (·.seesKind .identifier) q) :=
  local_optional inside fun _ left => State.seesKind_extend more left _

theorem local_layoutItem : Local more 1 1 layoutItem layoutItem := by
  intro s
  refine localAt_look (localAt_ite (fun left => State.sees_extend more (by omega) "=")
    (fun _ => ?_) (fun _ => ?_))
  · exact (local_seq_cons (local_mark "=") (local_seq_last (local_tier .conditional))
      (by decide) s).mono (by decide) (by decide)
  · exact (local_take _ _ s).mono (by decide) (by decide)

theorem local_layoutQualifier : Local more 0 3 layoutQualifier layoutQualifier :=
  local_node _ (local_seq_cons (local_mark "layout") (local_seq_cons (local_mark "(")
    (local_seq_cons (local_until ")" local_layoutItem) (local_seq_last (local_mark ")"))
      (by decide)) (by decide)) (by decide))

theorem local_qualifier : Local more 1 1 qualifier qualifier := by
  intro s
  refine localAt_look (localAt_ite (fun left => State.sees_extend more (by omega) "layout")
    (fun _ => ?_) (fun _ => ?_))
  · exact (local_layoutQualifier s).mono (by decide) (by decide)
  · exact (local_take _ _ s).mono (by decide) (by decide)

/-- A contextual qualifier is known by the token behind it. -/
theorem local_qualifiers : Local more 2 0 qualifiers qualifiers :=
  local_many ⟨fun _ seen => State.left_pos_of_head? seen,
    fun _ left => State.seesQualifier_extend more left⟩ (by decide)
    (local_qualifier.mono (by decide) (by decide))

namespace TypeSpecifier

variable {inner inner' : Production} (inside : Local more 1 1 inner inner')
include inside

theorem local_structMember : Local more 0 3 (structMember inner) (structMember inner') :=
  local_node _ (local_seq_cons local_qualifiers (local_seq_cons inside
    (local_seq_cons (local_commaList local_dimensionedName) (local_seq_last (local_mark ";"))
      (by decide)) (by decide)) (by decide))

theorem local_structSpecifier :
    Local more 0 3 (structSpecifier inner) (structSpecifier inner') := by
  have members := local_until "\x7d" ((local_structMember inside).mono (Nat.zero_le 1)
    (by decide : 1 ≤ 3))
  have name : Local more 1 1 newTypeName newTypeName :=
    local_newTypeName.mono (Nat.zero_le 1) (Nat.le_refl 1)
  exact local_node _ (local_seq_cons (local_mark "struct") (local_seq_cons (local_optionalName name)
    (local_seq_cons (local_mark "\x7b") (local_seq_cons members (local_seq_last (local_mark "\x7d"))
      (by decide)) (by decide)) (by decide)) (by decide))

theorem local_typeSpecifier :
    Local more 1 1 (typeSpecifier inner) (typeSpecifier inner') := by
  have name : Local more 0 1
      (look fun s => if s.sees "struct" then structSpecifier inner
        else take .typeName fun token => s.isTypeName token || token.kind = .identifier)
      (look fun s => if s.sees "struct" then structSpecifier inner'
        else take .typeName fun token =>
          s.isTypeName token || token.kind = .identifier) := by
    intro s
    refine localAt_look (localAt_ite (fun left => State.sees_extend more (by omega) "struct")
      (fun _ => ?_) (fun _ => localAt_take))
    exact (local_structSpecifier inside s).mono (by decide) (by decide)
  exact local_node _ (local_seq_cons name (local_seq_last local_arraySpecifiers) (by decide))

omit inside in
theorem local_nested (depth depth' : Nat) :
    Local more 1 1 (nested depth) (nested depth') := by
  induction depth generalizing depth' with
  | zero => exact fun s => localAt_fail s _ _
  | succ depth ih =>
    have deeper : ∀ depth', Local more 1 1 (nested (depth + 1)) (nested (depth' + 1)) :=
      fun depth' => local_typeSpecifier (ih depth')
    cases depth' with
    | zero => exact fun s => (deeper 0 s).of_fail _
    | succ depth' => exact deeper depth'

end TypeSpecifier

theorem local_typeSpecifier : Local more 1 1 typeSpecifier typeSpecifier :=
  fun s => localAt_look (TypeSpecifier.local_nested s.left (s.extend more).left s)

theorem local_fullySpecifiedType : Local more 1 1 fullySpecifiedType fullySpecifiedType :=
  local_node _ (local_seq_cons local_qualifiers (local_seq_last local_typeSpecifier) (by decide))

theorem local_parameter : Local more 1 1 parameter parameter :=
  local_node _ (local_seq_cons local_qualifiers (local_seq_cons local_typeSpecifier
    (local_seq_last (local_optionalName local_dimensionedName)) (by decide)) (by decide))

namespace Initializer

theorem local_initializer {inner inner' : Production}
    (inside : Local more 1 1 inner inner') :
    Local more 1 1 (initializer inner) (initializer inner') := by
  have further := (local_seq_cons (local_mark ",") (local_seq_last
    (local_ifBefore "\x7d" inside)) (by decide)).mono (Nat.le_refl 1) (Nat.le_refl 1)
  have items :=
    local_seq_cons inside (local_seq_last (local_while "," further)) (by decide)
  refine local_node _ fun s => localAt_look (localAt_ite
    (fun left => State.sees_extend more (by omega) "\x7b") (fun _ => ?_) (fun _ => ?_))
  · exact (local_seq_cons (local_mark "\x7b") (local_seq_cons (local_ifBefore "\x7d" items)
      (local_seq_last (local_mark "\x7d")) (by decide)) (by decide) s).mono (by decide) (by decide)
  · exact local_tier .assignment s

theorem local_nested (depth depth' : Nat) :
    Local more 1 1 (nested depth) (nested depth') := by
  induction depth generalizing depth' with
  | zero => exact fun s => localAt_fail s _ _
  | succ depth ih =>
    have deeper : ∀ depth', Local more 1 1 (nested (depth + 1)) (nested (depth' + 1)) :=
      fun depth' => local_initializer (ih depth')
    cases depth' with
    | zero => exact fun s => (deeper 0 s).of_fail _
    | succ depth' => exact deeper depth'

end Initializer

theorem local_initializer : Local more 1 1 initializer initializer :=
  fun s => localAt_look (Initializer.local_nested s.left (s.extend more).left s)

theorem local_declarator : Local more 1 1 declarator declarator := by
  have value : Local more 1 2 (seq [mark "=", initializer]) (seq [mark "=", initializer]) :=
    local_seq_cons (local_mark "=") (local_seq_last local_initializer) (by decide)
  exact local_node _ (local_seq_cons local_identifier (local_seq_cons local_arraySpecifiers
    (local_seq_last (local_ifSees "=" value)) (by decide)) (by decide))

theorem local_interfaceBlock : Local more 1 3 interfaceBlock interfaceBlock := by
  have member : Local more 1 1 structMember structMember :=
    (TypeSpecifier.local_structMember local_typeSpecifier).mono (by decide) (by decide)
  have members := local_until "\x7d" member
  exact local_node _ (local_seq_cons local_qualifiers (local_seq_cons local_newTypeName
    (local_seq_cons (local_mark "\x7b") (local_seq_cons members (local_seq_cons (local_mark "\x7d")
      (local_seq_last (local_optionalName local_dimensionedName)) (by decide)) (by decide))
      (by decide)) (by decide)) (by decide))

theorem local_precisionStatement :
    Local more 0 3 precisionStatement precisionStatement := by
  have precision : Local more 1 1 (take .typeName fun _ => true) (take .typeName fun _ => true) :=
    (local_take _ _).mono (Nat.zero_le 1) (Nat.le_refl 1)
  exact local_seq_cons (local_mark "precision") (local_seq_cons
    (local_optional precision fun s left => by rw [State.head?_extend more left])
    (local_seq_cons local_typeSpecifier (local_seq_last (local_mark ";")) (by decide)) (by decide))
    (by decide)

/-! ### Declarations -/

/-- What follows a prototype. -/
def prototyped (body : Option Production) (prototype : List Tree) : Production :=
  look fun s =>
  match body with
  | some body =>
    if s.sees "\x7b" then wrap .functionDefinition prototype body
    else wrap .declaration prototype (mark ";")
  | none => wrap .declaration prototype (mark ";")

def declaratorList (type : List Tree) : Production :=
  wrap .initDeclaratorList type (optional (! ·.sees ";") (commaList declarator))

/-- What follows the type of a declaration. -/
def declared (body : Option Production) (type : List Tree) : Production := look fun s =>
  if s.seesKind .identifier && s.seesSecond "(" then
    wrap .functionPrototype type (seq [identifier, parenList parameter]) >>= prototyped body
  else
    declaratorList type >>= fun list => wrap .declaration list (mark ";")

def blockDeclaration : Production :=
  node .declaration (seq [interfaceBlock, mark ";"])

theorem declaration_eq (body : Option Production) : declaration body = look fun s =>
    if s.sees ";" then node .declaration (mark ";")
    else if s.sees "precision" then node .declaration precisionStatement
    else if s.seesInterfaceBlock then blockDeclaration
    else fullySpecifiedType >>= declared body :=
  rfl

theorem State.seesKind_of_sees {s : State} {text : String} (h : s.sees text) :
    s.seesKind .identifier = false := by
  unfold sees at h
  unfold seesKind
  cases seen : s.rest.head? with
  | none => rfl
  | some token =>
    simp only [seen, Option.any_some, Token.is, Bool.and_eq_true, Bool.or_eq_true,
      decide_eq_true_eq] at h
    rcases h.1 with isKind | isKind <;> simp [isKind]

theorem local_closed (trees : List Tree) :
    Local more 0 1 (wrap .declaration trees (mark ";")) (wrap .declaration trees (mark ";")) :=
  local_wrap _ trees (local_mark ";")

theorem local_prototyped {body : Option Production}
    (inside : ∀ p ∈ body, Local more 0 1 p p) (prototype : List Tree) :
    Local more 0 1 (prototyped body prototype) (prototyped body prototype) := by
  intro s
  refine localAt_look ?_
  cases body with
  | none => exact local_closed prototype s
  | some body =>
    exact localAt_ite (fun left => State.sees_extend more (by omega) "\x7b")
      (fun _ => local_wrap _ prototype (inside body rfl) s) (fun _ => local_closed prototype s)

theorem local_declared {body : Option Production}
    (inside : ∀ p ∈ body, Local more 0 1 p p)
    (type : List Tree) : Local more 0 1 (declared body type) (declared body type) := by
  intro s
  refine localAt_look ?_
  by_cases ends : s.sees ";" = true
  · have left := State.left_pos_of_head? ends
    rw [State.seesKind_extend more left, State.seesKind_of_sees ends, Bool.false_and,
      Bool.false_and]
    exact localAt_bind (local_wrap _ type (local_unless ";" (local_commaList local_declarator)) s)
      (fun list s' _ => local_closed list s') (by decide)
  · -- A name in front of the end is no declaration, so there is a second token.
    have list : LocalAt more 1 1 s (declaratorList type) (declaratorList type) :=
      localAt_wrap _ type (localAt_look (localAt_ite
        (fun left => congrArg not (State.sees_extend more (by omega) ";"))
        (fun _ => local_commaList local_declarator s) (fun no => absurd no (by simpa using ends))))
    have prototype : Local more 0 3 (seq [identifier, parenList parameter])
        (seq [identifier, parenList parameter]) :=
      local_seq_cons local_identifier (local_seq_last (local_parenList local_parameter)) (by decide)
    have chosen : LocalAt more 0 2 s
        (if s.seesKind .identifier && s.seesSecond "(" then
          wrap .functionPrototype type (seq [identifier, parenList parameter]) >>= prototyped body
        else declaratorList type >>= fun list => wrap .declaration list (mark ";"))
        (if (s.extend more).seesKind .identifier && (s.extend more).seesSecond "(" then
          wrap .functionPrototype type (seq [identifier, parenList parameter]) >>= prototyped body
        else declaratorList type >>= fun list => wrap .declaration list (mark ";")) :=
      localAt_ite
        (fun left => by
          rw [State.seesKind_extend more (by omega), State.seesSecond_extend more left])
        (fun _ => (localAt_bind (local_wrap _ type prototype s)
          (fun trees s' _ => local_prototyped inside trees s')
          (by decide)).mono (by decide) (by decide))
        (fun _ => localAt_bind list (fun trees s' _ => local_closed trees s') (by decide))
    exact chosen.mono (by decide) (by decide)

/-- More tokens do not undo the head of an interface block. -/
theorem isBlockHead_extend {s : State} {depth : Nat} {qualified : Bool}
    {tokens : List Token} (h : isBlockHead s depth qualified tokens) :
    isBlockHead (s.extend more) depth qualified (tokens ++ more) := by
  fun_induction isBlockHead s depth qualified tokens with
  | case1 => cases h
  | case2 depth qualified token rest isOpen ih => simpa [isBlockHead, isOpen] using ih h
  | case3 depth qualified token rest notOpen isClose ih =>
    simpa [isBlockHead, notOpen, isClose] using ih h
  | case4 depth qualified token rest notOpen notClose ih =>
    simpa [isBlockHead, notOpen, notClose] using ih h
  | case5 qualified token isLayout => cases h
  | case6 qualified token isLayout opening inside isOpen ih =>
    simpa [isBlockHead, isLayout, isOpen] using ih h
  | case7 qualified token isLayout opening inside notOpen ih =>
    simpa [isBlockHead, isLayout, notOpen] using ih h
  | case8 qualified token rest notLayout isQualifier ih =>
    cases rest with
    | nil => simp [isBlockHead] at h
    | cons next others =>
      have same : (s.extend more).isQualifier token (some next) = true := isQualifier
      rw [List.cons_append, isBlockHead.eq_def]
      simpa [notLayout, same] using ih h
  | case9 qualified token rest notLayout notQualifier =>
    cases rest with
    | nil => simp at h
    | cons next others =>
      have same : (s.extend more).isQualifier token (some next) = false :=
        Bool.eq_false_iff.2 notQualifier
      rw [List.cons_append, isBlockHead.eq_def]
      simpa [notLayout, same] using h

/-- A type that is a name ends in front of a brace. -/
theorem rest_of_typeSpecifier {s s' : State} {trees : List Tree} {name brace : Token}
    {others : List Token} (run : typeSpecifier s = .ok (trees, s'))
    (shape : s.rest = name :: brace :: others) (isName : name.kind = .identifier)
    (opens : brace.is "\x7b") : s'.rest = brace :: others := by
  obtain ⟨depth, left⟩ : ∃ depth, s.left = depth + 1 :=
    ⟨others.length + 1, by simp [s.left_eq, shape]⟩
  have noStruct : s.sees "struct" = false := by simp [State.sees, shape, Token.is, isName]
  change TypeSpecifier.nested s.left s = _ at run
  rw [left, TypeSpecifier.nested, TypeSpecifier.typeSpecifier] at run
  obtain ⟨children, read⟩ := node_eq_ok run
  obtain ⟨first, s₁, rest, readName, read⟩ := seq_cons_eq_ok read
  obtain ⟨dimensions, s₂, _, readDimensions, done⟩ := seq_cons_eq_ok read
  obtain ⟨-, rfl⟩ := pure_eq_ok.1 done
  rw [look, noStruct] at readName
  obtain ⟨token, next, -, -⟩ := take_eq_ok readName
  have behind := next?_rest next
  rw [shape] at behind
  obtain ⟨-, behind⟩ := List.cons.inj behind
  have seen : s₁.sees "\x7b" := by simpa [State.sees, ← behind] using opens
  obtain ⟨-, rfl⟩ := many_eq_ok (State.sees_eq_false seen "[" (by decide)) readDimensions
  exact behind.symm

/-- Nothing that is declared starts with a brace. -/
theorem declared_ne_ok {s : State} {brace : Token} {others : List Token}
    (shape : s.rest = brace :: others) (opens : brace.is "\x7b")
    (body : Option Production)
    (type : List Tree) (r : List Tree × State) : declared body type s ≠ .ok r := by
  intro run
  have seen : s.sees "\x7b" := by simpa [State.sees, shape] using opens
  rw [declared, look, State.seesKind_of_sees seen] at run
  obtain ⟨list, s₁, read, -⟩ := bind_eq_ok.1 run
  obtain ⟨_, read⟩ := wrap_eq_ok read
  rw [optional, look, State.sees_eq_false seen ";" (by decide)] at read
  obtain ⟨_, _, _, read, -⟩ := seq_cons_eq_ok read
  obtain ⟨_, read⟩ := node_eq_ok read
  obtain ⟨_, _, _, read, -⟩ := seq_cons_eq_ok read
  obtain ⟨token, next, isName, -⟩ := take_eq_ok read
  have noName := State.seesKind_of_sees seen
  rw [State.seesKind, next?_rest next, List.head?_cons, Option.any_some, isName] at noName
  cases noName

/-- An interface block is a name and a brace behind its qualifiers. -/
theorem exists_brace_of_block {s : State} {r : List Tree × State}
    (run : blockDeclaration s = .ok r) :
    ∃ trees s₀ name brace others, qualifiers s = .ok (trees, s₀) ∧
      s₀.rest = name :: brace :: others ∧ name.kind = .identifier ∧ brace.is "\x7b" := by
  obtain ⟨_, read⟩ := node_eq_ok run
  obtain ⟨_, _, _, read, -⟩ := seq_cons_eq_ok read
  obtain ⟨_, read⟩ := node_eq_ok read
  obtain ⟨trees, s₀, _, readQualifiers, read⟩ := seq_cons_eq_ok read
  obtain ⟨_, _, _, readName, read⟩ := seq_cons_eq_ok read
  obtain ⟨_, _, _, readBrace, -⟩ := seq_cons_eq_ok read
  obtain ⟨_, after, readWord, same⟩ := newTypeName_eq_ok.1 readName
  cases same
  obtain ⟨name, next, isName, -⟩ := take_eq_ok readWord
  obtain ⟨brace, next', opens, -⟩ := take_eq_ok readBrace
  have behind := next?_rest next'
  dsimp only at behind
  exact ⟨trees, s₀, name, brace, _, readQualifiers, behind ▸ next?_rest next, by simpa using isName,
    opens⟩

/-- Where a type and what it declares can be read, no interface block can. -/
theorem not_block_of_declared {body : Option Production}
    (inside : ∀ p ∈ body, Local more 0 1 p p) {s : State} {r r' : List Tree × State}
    (run : (fullySpecifiedType >>= declared body) s = .ok r) :
    blockDeclaration (s.extend more) ≠ .ok r' := by
  intro run'
  obtain ⟨type, s₁, readType, readDeclared⟩ := bind_eq_ok.1 run
  obtain ⟨_, read⟩ := node_eq_ok readType
  obtain ⟨trees, s₀, _, readQualifiers, read⟩ := seq_cons_eq_ok read
  obtain ⟨specifier, s₂, _, readSpecifier, done⟩ := seq_cons_eq_ok read
  obtain ⟨-, rfl⟩ := pure_eq_ok.1 done
  obtain ⟨trees', s₀', name, brace, others, readQualifiers', shape', isName, opens⟩ :=
    exists_brace_of_block run'
  -- A type follows, and something behind it, so that more tokens make no more qualifiers.
  have specifies : LocalAt more 1 1 s₀ typeSpecifier typeSpecifier :=
    local_typeSpecifier s₀
  have least := (specifies.uses specifier s₂ readSpecifier).2
  have least' := ((local_declared inside type s₂).uses r.1 r.2 readDeclared).2
  cases (local_qualifiers s).decided trees s₀ (trees', s₀') readQualifiers readQualifiers'
    (by omega)
  have front : s₀.rest ++ more = name :: brace :: others := shape'
  have left := s₀.left_eq
  match shape : s₀.rest with
  | [] | [_] =>
    rw [shape] at left
    simp at left
    omega
  | first :: second :: others' =>
    simp only [shape, List.cons_append, List.cons.injEq] at front
    rw [← front.1] at isName
    rw [← front.2.1] at opens
    exact declared_ne_ok (rest_of_typeSpecifier readSpecifier shape isName opens) opens body type r
      readDeclared

theorem local_declaration {body : Option Production}
    (inside : ∀ p ∈ body, Local more 0 1 p p) :
    Local more 0 1 (declaration body) (declaration body) := by
  intro s
  have general : LocalAt more 0 2 s (fullySpecifiedType >>= declared body)
      (fullySpecifiedType >>= declared body) :=
    localAt_bind (local_fullySpecifiedType s) (fun type s' _ => local_declared inside type s')
      (by decide)
  have block : Local more 0 4 blockDeclaration blockDeclaration :=
    local_node _ (local_seq_cons local_interfaceBlock (local_seq_last (local_mark ";")) (by decide))
  rw [declaration_eq]
  refine localAt_look (localAt_ite (fun left => State.sees_extend more (by omega) ";")
    (fun _ => local_node _ (local_mark ";") s) fun _ =>
    localAt_ite (fun left => State.sees_extend more (by omega) "precision")
    (fun _ => (local_node _ local_precisionStatement s).mono (by decide) (by decide))
      fun _ => ?_)
  by_cases head : s.seesInterfaceBlock = true
  · have head' : (s.extend more).seesInterfaceBlock = true := isBlockHead_extend head
    rw [if_pos head, if_pos head']
    exact (block s).mono (by decide) (by decide)
  · rw [if_neg head]
    by_cases head' : (s.extend more).seesInterfaceBlock = true
    · rw [if_pos head']
      refine ⟨general.stops, fun trees s' run => ?_, fun trees s' r run run' _ => ?_⟩
      · obtain ⟨behind, least⟩ := general.uses trees s' run
        exact ⟨behind, by omega⟩
      · exact absurd run' (not_block_of_declared inside run)
    · rw [if_neg head']
      exact general.mono (by decide) (by decide)

/-! ### Statements -/

theorem seesDeclaration_extend {s : State} (left : 2 ≤ s.left) :
    (s.extend more).seesDeclaration = s.seesDeclaration := by
  have present : 1 ≤ s.left := by omega
  simp only [State.seesDeclaration, State.sees_extend more present,
    State.seesQualifier_extend more left,
    State.seesTypeName_extend more present, State.seesSecond_extend more left,
    State.seesKind_extend more present, State.getElem?_extend more left]

theorem local_parenthesized :
    Local more 0 3 (parenthesized expression) (parenthesized expression) :=
  local_seq_cons (local_mark "(") (local_seq_cons local_expression (local_seq_last (local_mark ")"))
    (by decide)) (by decide)

theorem local_expressionStatement :
    Local more 0 1 expressionStatement expressionStatement :=
  local_node _ (local_seq_cons (local_unless ";" local_expression) (local_seq_last (local_mark ";"))
    (by decide))

theorem local_jumpStatement : Local more 0 2 jumpStatement jumpStatement := by
  refine local_node _ fun s => localAt_look (localAt_ite
    (fun left => State.sees_extend more (by omega) "return") (fun _ => ?_) (fun _ => ?_))
  · exact local_seq_cons (local_mark "return") (local_seq_cons (local_unless ";" local_expression)
      (local_seq_last (local_mark ";")) (by decide)) (by decide) s
  · exact local_seq_cons (local_take _ _) (local_seq_last (local_mark ";")) (by decide) s

theorem local_caseLabel : Local more 0 2 caseLabel caseLabel := by
  refine local_node _ fun s => localAt_look (localAt_ite
    (fun left => State.sees_extend more (by omega) "case") (fun _ => ?_) (fun _ => ?_))
  · exact (local_seq_cons (local_mark "case") (local_seq_cons local_expression
      (local_seq_last (local_mark ":")) (by decide)) (by decide) s).mono (by decide) (by decide)
  · exact local_seq_cons (local_mark "default") (local_seq_last (local_mark ":")) (by decide) s

namespace Statement

variable {inner inner' : Production} (inside : Local more 1 1 inner inner')
include inside

theorem local_compound : Local more 0 2 (compound inner) (compound inner') :=
  local_node _ (local_seq_cons (local_mark "\x7b") (local_seq_cons (local_until "\x7d" inside)
    (local_seq_last (local_mark "\x7d")) (by decide)) (by decide))

theorem local_selection : Local more 1 1 (selection inner) (selection inner') := by
  have other := local_seq_cons (local_mark "else") (local_seq_last inside) (by decide)
  have whole := local_node .selectionStatement (local_seq_cons (local_mark "if")
    (local_seq_cons local_parenthesized (local_seq_cons inside
      (local_seq_last (local_ifSees "else" other)) (by decide)) (by decide)) (by decide))
  exact whole.mono (by decide) (by decide)

theorem local_switchStatement :
    Local more 0 2 (switchStatement inner) (switchStatement inner') :=
  (local_node _ (local_seq_cons (local_mark "switch") (local_seq_cons local_parenthesized
    (local_seq_last (local_compound inside)) (by decide)) (by decide))).mono (by decide) (by decide)

theorem local_whileLoop : Local more 1 1 (whileLoop inner) (whileLoop inner') :=
  (local_node _ (local_seq_cons (local_mark "while") (local_seq_cons local_parenthesized
    (local_seq_last inside) (by decide)) (by decide))).mono (by decide) (by decide)

theorem local_doLoop : Local more 0 2 (doLoop inner) (doLoop inner') :=
  (local_node _ (local_seq_cons (local_mark "do") (local_seq_cons inside
    (local_seq_cons (local_mark "while") (local_seq_cons local_parenthesized
      (local_seq_last (local_mark ";")) (by decide)) (by decide)) (by decide)) (by decide))).mono
    (by decide) (by decide)

theorem local_forLoop : Local more 1 1 (forLoop inner) (forLoop inner') := by
  have first : Local more 1 1
      (look fun s => if s.seesDeclaration then declaration none else expressionStatement)
      (look fun s => if s.seesDeclaration then declaration none else expressionStatement) :=
    fun s => localAt_look (localAt_ite (fun left => seesDeclaration_extend (by omega))
      (fun _ => (local_declaration (by simp) s).mono (by decide) (by decide))
      (fun _ => (local_expressionStatement s).mono (by decide) (by decide)))
  have whole := local_node .forStatement (local_seq_cons (local_mark "for")
    (local_seq_cons (local_mark "(") (local_seq_cons first
      (local_seq_cons (local_unless ";" local_expression) (local_seq_cons (local_mark ";")
        (local_seq_cons (local_unless ")" local_expression) (local_seq_cons (local_mark ")")
          (local_seq_last inside) (by decide)) (by decide)) (by decide)) (by decide)) (by decide))
    (by decide)) (by decide))
  exact whole.mono (by decide) (by decide)

theorem local_statement : Local more 1 1 (statement inner) (statement inner') := by
  intro s
  have sees : ∀ text, 1 + 1 ≤ s.left → (s.extend more).sees text = s.sees text :=
    fun text left => State.sees_extend more (by omega) text
  refine localAt_look (localAt_ite (sees _) (fun _ => ?_) fun _ =>
    localAt_ite (sees _) (fun _ => ?_) fun _ =>
      localAt_ite (sees _) (fun _ => ?_) fun _ =>
    localAt_ite (fun left => ?_) (fun _ => ?_) fun _ =>
      localAt_ite (sees _) (fun _ => ?_) fun _ =>
    localAt_ite (sees _) (fun _ => ?_) fun _ =>
      localAt_ite (sees _) (fun _ => ?_) fun _ =>
    localAt_ite (fun left => ?_) (fun _ => ?_) fun _ =>
      localAt_ite (fun left => ?_) (fun _ => ?_)
      fun _ => ?_)
  · exact (local_compound inside s).mono (by decide) (by decide)
  · exact local_selection inside s
  · exact (local_switchStatement inside s).mono (by decide) (by decide)
  · rw [sees _ left, sees _ left]
  · exact (local_caseLabel s).mono (by decide) (by decide)
  · exact local_whileLoop inside s
  · exact (local_doLoop inside s).mono (by decide) (by decide)
  · exact local_forLoop inside s
  · exact State.seesAny_extend more (by omega) _
  · exact (local_jumpStatement s).mono (by decide) (by decide)
  · exact seesDeclaration_extend left
  · exact (local_declaration (by simp) s).mono (by decide) (by decide)
  · exact (local_expressionStatement s).mono (by decide) (by decide)

omit inside in
theorem local_nested (depth depth' : Nat) :
    Local more 1 1 (nested depth) (nested depth') := by
  induction depth generalizing depth' with
  | zero => exact fun s => localAt_fail s _ _
  | succ depth ih =>
    have deeper : ∀ depth', Local more 1 1 (nested (depth + 1)) (nested (depth' + 1)) :=
      fun depth' => local_statement (ih depth')
    cases depth' with
    | zero => exact fun s => (deeper 0 s).of_fail _
    | succ depth' => exact deeper depth'

end Statement

theorem local_statement : Local more 1 1 statement statement :=
  fun s => localAt_look (Statement.local_nested s.left (s.extend more).left s)

/-- What a shader consists of. -/
theorem local_external :
    Local more 0 1 (declaration (some compoundStatement))
      (declaration (some compoundStatement)) := by
  refine local_declaration ?_
  rintro body ⟨⟩
  exact (Statement.local_compound local_statement).mono (by decide) (by decide)

theorem local_externals :
    Local more 1 0 (many (! ·.atEnd) (declaration (some compoundStatement)))
    (many (! ·.atEnd) (declaration (some compoundStatement))) := by
  refine local_many ⟨fun s inside => ?_, fun s left => congrArg not (State.atEnd_extend more left)⟩
    (Nat.le_refl _) (local_external.mono (Nat.zero_le _) (Nat.le_refl _))
  by_contra none
  simp [State.atEnd, State.rest_eq_nil (by omega : s.left = 0)] at inside

/-- The declarations up to the end of a text come first in a longer text. -/
theorem prefix_of_rounds {n m : Nat} {s s₁ s₂ : State} {trees trees' : List Tree}
    (run : rounds (! ·.atEnd) (declaration (some compoundStatement)) n s = .ok (trees, s₁))
    (run' : rounds (! ·.atEnd) (declaration (some compoundStatement)) m (s.extend more) =
      .ok (trees', s₂)) (enough : s.left ≤ n) (enough' : s.left ≤ m) :
      trees <+: trees' := by
  induction n generalizing m s s₁ s₂ trees trees' with
  | zero =>
    obtain ⟨rfl, -⟩ := pure_eq_ok.1 run
    exact List.nil_prefix
  | succ n ih =>
    simp only [rounds, look] at run
    split_ifs at run with inside
    · have left : 1 ≤ s.left := by
        by_contra none
        simp [State.atEnd, State.rest_eq_nil (by omega : s.left = 0)] at inside
      obtain ⟨m, rfl⟩ := Nat.exists_eq_succ_of_ne_zero (by omega : m ≠ 0)
      simp only [rounds, look, State.atEnd_extend more left, if_pos inside] at run'
      obtain ⟨first, s₀, readFirst, run⟩ := bind_eq_ok.1 run
      obtain ⟨first', s₀', readFirst', run'⟩ := bind_eq_ok.1 run'
      obtain ⟨others, _, readOthers, done⟩ := bind_eq_ok.1 run
      obtain ⟨others', _, readOthers', done'⟩ := bind_eq_ok.1 run'
      obtain ⟨rfl, -⟩ := pure_eq_ok.1 done
      obtain ⟨rfl, -⟩ := pure_eq_ok.1 done'
      cases (local_external s).decided first s₀ (first', s₀') readFirst readFirst' (Nat.zero_le _)
      have least := ((@local_external more s).uses first s₀ readFirst).2
      exact (List.prefix_append_right_inj first).2 (ih readOthers readOthers' (by omega) (by omega))
    · obtain ⟨rfl, -⟩ := pure_eq_ok.1 run
      exact List.nil_prefix

end Productions

end Grammar

namespace SyntaxTree

open Grammar

theorem ofTokens_eq_ok {tokens : List Token} {root : Tree}
    (h : ofTokens tokens = .ok root) :
    ∃ trees s,
      many (! ·.atEnd) (declaration (some compoundStatement)) (.start tokens) =
        .ok (trees, s) ∧
      root = .node .unit trees := by
  unfold ofTokens at h
  split at h
  · cases h
  · rename_i root' s' run
    cases h
    obtain ⟨trees, s, read, done⟩ := bind_eq_ok.1 run
    obtain ⟨rfl, -⟩ := pure_eq_ok.1 done
    exact ⟨trees, s, read, rfl⟩

/-- More tokens behind a shader are more declarations behind those it has. -/
theorem ofTokens_append {tokens more : List Token} {root root' : Tree}
    (h : ofTokens tokens = .ok root) (h' : ofTokens (tokens ++ more) = .ok root') :
    ∃ trees others, root = .node .unit trees ∧ root' = .node .unit (trees ++ others) := by
  obtain ⟨trees, s, run, rfl⟩ := ofTokens_eq_ok h
  obtain ⟨trees', s', run', rfl⟩ := ofTokens_eq_ok h'
  have start : State.start (tokens ++ more) = (State.start tokens).extend more := by
    simp [State.start, State.extend]
  rw [start] at run'
  obtain ⟨others, rfl⟩ := prefix_of_rounds run run' (Nat.le_refl _) (Nat.le_add_right _ _)
  exact ⟨trees, others, rfl, rfl⟩

/-- Reading stops at a token, or at the end of the tokens. -/
theorem rest_of_ofTokens {tokens : List Token} {failure : Failure}
    (h : ofTokens tokens = .error failure) : failure.rest <:+ tokens := by
  unfold ofTokens at h
  split at h
  · rename_i failed
    cases h
    rcases bind_eq_error.1 failed with failed | ⟨_, _, _, failed⟩
    · exact (@local_externals [] (.start tokens)).stops _ failed
    · cases failed
  · cases h

end SyntaxTree

end ShaderDialect
