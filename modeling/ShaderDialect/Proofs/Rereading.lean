import Mathlib.Data.List.Forall2
import Mathlib.Tactic.SplitIfs
import ShaderDialect.SyntaxTree

/-!
# Reading respelled tokens

The grammar does not tell literals apart. So where literals are exchanged for
other literals, each production makes the same choices, and reads the same
trees with the other literals in them. `Respects f p p'` says this of two
productions, of which the second goes on from trees that are already respelled;
there is one rule for each combinator.
-/

namespace ShaderDialect

open Grammar.Expression (isLiteral)

/-- A change of tokens that only exchanges literals for literals. -/
structure Respelling (f : Token → Token) : Prop where
  keeps : ∀ token, isLiteral token.kind = false → f token = token
  literal : ∀ token, isLiteral token.kind → isLiteral (f token).kind

namespace Tree

mutual

/-- The tree with other tokens. -/
def respell (f : Token → Token) : Tree → Tree
  | .leaf token => .leaf (f token)
  | .node kind children => .node kind (respellAll f children)

def respellAll (f : Token → Token) : List Tree → List Tree
  | [] => []
  | tree :: trees => respell f tree :: respellAll f trees

end

theorem respellAll_eq_map (f : Token → Token) (trees : List Tree) :
    respellAll f trees = trees.map (respell f) := by
  induction trees with
  | nil => rfl
  | cons tree trees ih => rw [respellAll, ih, List.map_cons]

@[simp] theorem respell_leaf (f : Token → Token) (token : Token) :
    (leaf token).respell f = .leaf (f token) := by
  rw [respell]

@[simp] theorem respell_node (f : Token → Token) (kind : NodeKind)
    (children : List Tree) :
    (node kind children).respell f = .node kind (children.map (respell f)) := by
  rw [respell, respellAll_eq_map]

end Tree

theorem is_of_isLiteral {token : Token} (h : isLiteral token.kind) (text : String) :
    token.is text = false := by
  revert h
  cases kind : token.kind <;> simp [Token.is, isLiteral, kind]

namespace Respelling

variable {f : Token → Token} (h : Respelling f)
include h

theorem eq_or_literal (token : Token) :
    f token = token ∨ (isLiteral token.kind ∧ isLiteral (f token).kind) := by
  cases literal : isLiteral token.kind with
  | false => exact Or.inl (h.keeps token literal)
  | true => exact Or.inr ⟨rfl, h.literal token literal⟩

theorem isLiteral_eq (token : Token) :
    isLiteral (f token).kind = isLiteral token.kind := by
  rcases h.eq_or_literal token with same | ⟨literal, literal'⟩
  · rw [same]
  · rw [literal, literal']

theorem kind_eq {kind : TokenKind} (other : isLiteral kind = false) (token : Token) :
    (f token).kind = kind ↔ token.kind = kind := by
  rcases h.eq_or_literal token with same | ⟨literal, literal'⟩
  · rw [same]
  · refine ⟨fun same => ?_, fun same => ?_⟩
    · rw [same, other] at literal'
      cases literal'
    · rw [same, other] at literal
      cases literal

theorem is_eq (token : Token) (text : String) : (f token).is text = token.is text := by
  rcases h.eq_or_literal token with same | ⟨literal, literal'⟩
  · rw [same]
  · rw [is_of_isLiteral literal, is_of_isLiteral literal']

end Respelling

namespace Grammar

namespace State

/-- The state in front of respelled tokens. -/
def respell (f : Token → Token) (s : State) : State where
  rest := s.rest.map f
  typeNames := s.typeNames
  left := s.left
  left_eq := by rw [List.length_map, s.left_eq]

@[simp] theorem rest_respell (f : Token → Token) (s : State) :
    (s.respell f).rest = s.rest.map f := rfl

theorem isTypeName_of_isLiteral {s : State} {token : Token} (h : isLiteral token.kind) :
    s.isTypeName token = false := by
  revert h
  cases kind : token.kind <;> simp [isTypeName, isLiteral, kind]

theorem isQualifier_of_isLiteral {s : State} {token : Token} {next : Option Token}
    (h : isLiteral token.kind) : s.isQualifier token next = false := by
  revert h
  cases kind : token.kind <;> simp [isQualifier, isLiteral, kind]

theorem next?_respell (f : Token → Token) (s : State) :
    (s.respell f).next? = s.next?.map fun pair => (f pair.1, pair.2.respell f) := by
  obtain ⟨rest, typeNames, left, left_eq⟩ := s
  cases rest <;> rfl

theorem atEnd_respell (f : Token → Token) (s : State) :
    (s.respell f).atEnd = s.atEnd := by
  simp [atEnd, respell]

section

variable {f : Token → Token} (h : Respelling f) (s : State)
include h

theorem sees_respell (text : String) : (s.respell f).sees text = s.sees text := by
  cases shape : s.rest <;> simp [sees, respell, shape, h.is_eq]

theorem seesSecond_respell (text : String) :
    (s.respell f).seesSecond text = s.seesSecond text := by
  cases shape : s.rest[1]? <;> simp [seesSecond, respell, shape, h.is_eq]

theorem seesAny_respell (texts : List String) :
    (s.respell f).seesAny texts = s.seesAny texts := by
  have same : (s.respell f).sees = s.sees := funext (sees_respell h s)
  rw [seesAny, same, seesAny]

theorem isBefore_respell (text : String) :
    (s.respell f).isBefore text = s.isBefore text := by
  rw [isBefore, sees_respell h, atEnd_respell, isBefore]

theorem seesKind_respell {kind : TokenKind} (other : isLiteral kind = false) :
    (s.respell f).seesKind kind = s.seesKind kind := by
  cases shape : s.rest <;> simp [seesKind, respell, shape, h.kind_eq other]

theorem isTypeName_respell (token : Token) :
    (s.respell f).isTypeName (f token) = s.isTypeName token := by
  rcases h.eq_or_literal token with same | ⟨literal, literal'⟩
  · rw [same]
    rfl
  · rw [isTypeName_of_isLiteral literal, isTypeName_of_isLiteral literal']

theorem seesTypeName_respell : (s.respell f).seesTypeName = s.seesTypeName := by
  cases shape : s.rest with
  | nil => simp [seesTypeName, respell, shape]
  | cons token rest =>
    have same := isTypeName_respell h s token
    simp only [seesTypeName, shape, List.head?_cons, Option.any_some, ← same]
    simp [respell, shape]

theorem isQualifier_respell (token : Token) (next : Option Token) :
    (s.respell f).isQualifier (f token) (next.map f) = s.isQualifier token next := by
  have behind : ((next.map f).any fun token => token.kind = .keyword || token.kind = .identifier) =
      next.any fun token => token.kind = .keyword || token.kind = .identifier := by
    cases next with
    | none => rfl
    | some token =>
      have keyword : (f token).kind = .keyword ↔ token.kind = .keyword :=
        h.kind_eq rfl token
      have word : (f token).kind = .identifier ↔ token.kind = .identifier :=
        h.kind_eq rfl token
      simp [keyword, word]
  rcases h.eq_or_literal token with same | ⟨literal, literal'⟩
  · have type := isTypeName_respell h s token
    rw [same] at type ⊢
    simp only [isQualifier, behind, type]
  · rw [isQualifier_of_isLiteral literal, isQualifier_of_isLiteral literal']

theorem seesQualifier_respell : (s.respell f).seesQualifier = s.seesQualifier := by
  have second : (s.respell f).rest[1]? = s.rest[1]?.map f := List.getElem?_map
  have first : (s.respell f).rest.head? = s.rest.head?.map f := List.head?_map
  rw [seesQualifier, first, second, seesQualifier]
  cases s.rest.head? with
  | none => rfl
  | some token => exact isQualifier_respell h s token s.rest[1]?

end

end State

/-- The outcome of a production on respelled tokens. -/
def respellResult (f : Token → Token) :
    Except Failure (List Tree × State) → Except Failure (List Tree × State)
  | .error failure => .error { failure with rest := failure.rest.map f }
  | .ok (trees, s) => .ok (trees.map (Tree.respell f), s.respell f)

/-- On respelled tokens the second production does what the first one does. -/
def Respects (f : Token → Token) (p p' : Production) : Prop :=
  ∀ s, p' (s.respell f) = respellResult f (p s)

section Combinators

variable {f : Token → Token} {p p' : Production}

theorem respects_pure (trees : List Tree) :
    Respects f (pure trees) (pure (trees.map (Tree.respell f))) :=
  fun _ => rfl

theorem respects_fail (expected : Expectation) :
    Respects f (fail expected) (fail expected) := by
  intro s
  simp [fail, respellResult]

theorem respects_bind {next next' : List Tree → Production} (first : Respects f p p')
    (others : ∀ trees, Respects f (next trees) (next' (trees.map (Tree.respell f)))) :
    Respects f (p >>= next) (p' >>= next') := by
  intro s
  simp only [bind, StateT.bind, Except.bind, first s]
  cases p s with
  | error failure => rfl
  | ok pair => exact others pair.1 pair.2

theorem respects_take {expected : Expectation} {q q' : Token → Bool}
    (same : ∀ token, q' (f token) = q token) :
    Respects f (take expected q) (take expected q') := by
  intro s
  unfold take
  rw [State.next?_respell]
  cases s.next? with
  | none => rfl
  | some pair =>
    simp only [Option.map_some, same]
    split <;> simp [respellResult]

theorem respects_any (expected : Expectation) :
    Respects f (take expected fun _ => true) (take expected fun _ => true) :=
  respects_take fun _ => rfl

theorem respects_look {choose choose' : State → Production}
    (each : ∀ s, Respects f (choose s) (choose' (s.respell f))) :
    Respects f (look choose) (look choose') :=
  fun s => each s s

theorem respects_optional {condition : State → Bool}
    (same : ∀ s : State, condition (s.respell f) = condition s)
    (inside : Respects f p p') :
    Respects f (optional condition p) (optional condition p') := by
  refine respects_look fun s => ?_
  rw [same]
  split
  · exact inside
  · exact respects_pure []

theorem respects_node (kind : NodeKind) (inside : Respects f p p') :
    Respects f (node kind p) (node kind p') := by
  refine respects_bind inside fun trees => ?_
  have built := respects_pure (f := f) [.node kind trees]
  rwa [List.map_singleton, Tree.respell_node] at built

theorem respects_wrap (kind : NodeKind) (before : List Tree) (inside : Respects f p p') :
    Respects f (wrap kind before p) (wrap kind (before.map (Tree.respell f)) p') := by
  refine respects_bind inside fun trees => ?_
  have built := respects_pure (f := f) [.node kind (before ++ trees)]
  rwa [List.map_singleton, Tree.respell_node, List.map_append] at built

theorem respects_append {q q' : Production} (first : Respects f p p')
    (second : Respects f q q') :
    Respects f (do let trees ← p; let others ← q; return trees ++ others)
      (do let trees ← p'; let others ← q'; return trees ++ others) := by
  refine respects_bind first fun trees => respects_bind second fun others => ?_
  have built := respects_pure (f := f) (trees ++ others)
  rwa [List.map_append] at built

theorem respects_seq {ps ps' : List Production}
    (each : List.Forall₂ (Respects f) ps ps') :
    Respects f (seq ps) (seq ps') := by
  induction each with
  | nil => exact respects_pure []
  | cons first _ ih => exact respects_append first ih

theorem respects_rounds {condition : State → Bool}
    (same : ∀ s : State, condition (s.respell f) = condition s)
    (inside : Respects f p p') (n : Nat) :
    Respects f (rounds condition p n) (rounds condition p' n) := by
  induction n with
  | zero => exact respects_pure []
  | succ n ih =>
    refine respects_look fun s => ?_
    rw [same]
    split
    · exact respects_append inside ih
    · exact respects_pure []

theorem respects_many {condition : State → Bool}
    (same : ∀ s : State, condition (s.respell f) = condition s)
    (inside : Respects f p p') :
    Respects f (many condition p) (many condition p') :=
  respects_look fun s => respects_rounds same inside s.left

/-- Both ways to go on are the same, or there is none. -/
def RespectsNext (f : Token → Token)
    (next : State → Option (NodeKind × Production)) : Prop :=
  ∀ s, (next s = none ∧ next (s.respell f) = none) ∨
    ∃ kind p p', next s = some (kind, p) ∧ next (s.respell f) = some (kind, p') ∧
      Respects f p p'

theorem respects_extensions {next : State → Option (NodeKind × Production)}
    (each : RespectsNext f next) (n : Nat) (before : List Tree) :
    Respects f (extensions next n before) (extensions next n (before.map (Tree.respell f))) := by
  induction n generalizing before with
  | zero => exact respects_pure before
  | succ n ih =>
    refine respects_look fun s => ?_
    rcases each s with ⟨none, none'⟩ | ⟨kind, p, p', some, some', inside⟩
    · rw [none, none']
      exact respects_pure before
    · rw [some, some']
      exact respects_bind (respects_wrap kind before inside) ih

theorem RespectsNext.or {next others : State → Option (NodeKind × Production)}
    (first : RespectsNext f next) (second : RespectsNext f others) :
    RespectsNext f fun s => (next s).or (others s) := by
  intro s
  rcases first s with ⟨none, none'⟩ | ⟨kind, p, p', goes, goes', inside⟩
  · simpa only [none, none', Option.none_or] using second s
  · exact Or.inr ⟨kind, p, p', by simp [goes], by simp [goes'], inside⟩

theorem respects_extend {next : State → Option (NodeKind × Production)}
    (first : Respects f p p')
    (each : RespectsNext f next) : Respects f (extend p next) (extend p' next) :=
  respects_bind first fun trees => respects_look fun s =>
    respects_extensions each s.left trees

end Combinators

section Productions

variable {f : Token → Token} (h : Respelling f)
include h

theorem respects_mark (text : String) : Respects f (mark text) (mark text) :=
  respects_take fun token => h.is_eq token text

theorem respects_identifier : Respects f identifier identifier :=
  respects_take fun token => decide_eq_decide.2 (h.kind_eq rfl token)

theorem respects_newTypeName : Respects f newTypeName newTypeName := by
  intro s
  unfold newTypeName identifier take
  rw [State.next?_respell]
  cases s.next? with
  | none => rfl
  | some pair =>
    obtain ⟨token, after⟩ := pair
    by_cases isWord : token.kind = .identifier
    · have same := h.keeps token (by rw [isWord]; rfl)
      simp [isWord, same, respellResult, State.respell, Tree.token?]
    · have isWord' : ¬ (f token).kind = .identifier :=
        fun found => isWord ((h.kind_eq rfl token).1 found)
      simp [isWord, isWord', respellResult]

/-- What is read unless a mark comes next. -/
theorem respects_unless {p : Production} (text : String) (inside : Respects f p p) :
    Respects f (optional (! ·.sees text) p) (optional (! ·.sees text) p) :=
  respects_optional (fun s => by rw [State.sees_respell h]) inside

/-- What is repeated as long as a mark comes next. -/
theorem respects_while {p : Production} (text : String) (inside : Respects f p p) :
    Respects f (many (·.sees text) p) (many (·.sees text) p) :=
  respects_many (fun s => State.sees_respell h s text) inside

/-- What is repeated up to a closing mark. -/
theorem respects_until {p : Production} (text : String) (inside : Respects f p p) :
    Respects f (many (·.isBefore text) p) (many (·.isBefore text) p) :=
  respects_many (fun s => State.isBefore_respell h s text) inside

theorem respects_commaList {item : Production} (each : Respects f item item) :
    Respects f (commaList item) (commaList item) := by
  have more : Respects f (seq [mark ",", item]) (seq [mark ",", item]) :=
    respects_seq (.cons (respects_mark h ",") (.cons each .nil))
  exact respects_seq (.cons each (.cons (respects_while h "," more) .nil))

theorem respects_parenList {item : Production} (each : Respects f item item) :
    Respects f (parenList item) (parenList item) := by
  refine respects_seq (.cons (respects_mark h "(") (.cons (respects_look fun s => ?_)
    (.cons (respects_mark h ")") .nil)))
  rw [State.sees_respell h, State.sees_respell h, State.seesSecond_respell h]
  split
  · exact respects_mark h "void"
  · split
    · exact respects_pure []
    · exact respects_commaList h each

namespace Expression

variable {inner : Tier → Production} (each : ∀ tier, Respects f (inner tier) (inner tier))
include each

theorem respects_expression : Respects f (expression inner) (expression inner) :=
  respects_node _ (respects_commaList h (each .assignment))

omit each in
theorem respects_arraySpecifiers {size : Production} (inside : Respects f size size) :
    Respects f (arraySpecifiers size) (arraySpecifiers size) := by
  have one := respects_node .arraySpecifier (respects_seq (.cons (respects_mark h "[")
    (.cons (respects_unless h "]" inside) (.cons (respects_mark h "]") .nil))))
  exact respects_while h "[" one

theorem respects_constructor : Respects f (constructor inner) (constructor inner) := by
  intro s
  have type : Respects f (take .typeName s.isTypeName) (take .typeName (s.respell f).isTypeName) :=
    respects_take fun token => State.isTypeName_respell h s token
  exact respects_node .typeSpecifier (respects_seq (.cons type
    (.cons (respects_arraySpecifiers h (each .conditional)) .nil))) s

omit each in
theorem seesLiteral_respell (s : State) :
    ((s.respell f).rest.head?.any (isLiteral ·.kind)) =
      s.rest.head?.any (isLiteral ·.kind) := by
  cases shape : s.rest <;> simp [State.respell, shape, h.isLiteral_eq]

theorem respects_primary : Respects f (primary inner) (primary inner) := by
  refine respects_look fun s => ?_
  rw [seesLiteral_respell h, State.seesKind_respell h s rfl, State.seesSecond_respell h,
    State.seesTypeName_respell h, State.seesSecond_respell h, State.sees_respell h]
  have list := respects_parenList h (each .assignment)
  split_ifs
  · exact respects_node _ (respects_take h.isLiteral_eq)
  · exact respects_node _ (respects_seq (.cons (respects_identifier h) (.cons list .nil)))
  · exact respects_node _ (respects_identifier h)
  · exact respects_node _ (respects_seq (.cons (respects_constructor h each) (.cons list .nil)))
  · exact respects_node _ (respects_seq (.cons (respects_mark h "(")
      (.cons (respects_expression h each) (.cons (respects_mark h ")") .nil))))
  · exact respects_fail _

theorem respectsNext_suffix : RespectsNext f (suffix inner) := by
  intro s
  unfold suffix
  simp only [State.sees_respell h]
  split_ifs
  · exact Or.inr ⟨_, _, _, rfl, rfl,
      respects_seq (.cons (respects_mark h ".") (.cons (respects_identifier h) .nil))⟩
  · exact Or.inr ⟨_, _, _, rfl, rfl, respects_seq (.cons (respects_mark h "[")
      (.cons (respects_expression h each) (.cons (respects_mark h "]") .nil)))⟩
  · exact Or.inr ⟨_, _, _, rfl, rfl, respects_parenList h (each .assignment)⟩
  · exact Or.inr ⟨_, _, _, rfl, rfl, respects_mark h "++"⟩
  · exact Or.inr ⟨_, _, _, rfl, rfl, respects_mark h "--"⟩
  · exact Or.inl ⟨rfl, rfl⟩

omit each in
theorem respects_operator (marks : List String) :
    Respects f (take .expression (isOneOf marks)) (take .expression (isOneOf marks)) :=
  respects_take fun token => by
    have same : (f token).is = token.is := funext (h.is_eq token)
    rw [isOneOf, same, isOneOf]

theorem respects_unary : Respects f (unary inner) (unary inner) := by
  refine respects_look fun s => ?_
  rw [State.seesAny_respell h]
  split
  · exact respects_node _ (respects_seq (.cons (respects_operator h _) (.cons (each .unary) .nil)))
  · exact respects_extend (respects_primary h each) (respectsNext_suffix h each)

omit each in
theorem respectsNext_joining (row : List String) {p : Production}
    (operand : Respects f p p) :
    RespectsNext f (joining row p) := by
  intro s
  unfold joining
  rw [State.seesAny_respell h]
  split
  · exact Or.inr ⟨_, _, _, rfl, rfl,
      respects_seq (.cons (respects_operator h row) (.cons operand .nil))⟩
  · exact Or.inl ⟨rfl, rfl⟩

theorem respectsNext_climb (rows : List (List String)) :
    RespectsNext f (climb inner rows) := by
  induction rows with
  | nil => exact fun s => Or.inl ⟨rfl, rfl⟩
  | cons row tighter ih =>
    exact ih.or (respectsNext_joining h row (respects_extend (respects_unary h each) ih))

theorem respects_binary (rows : List (List String)) :
    Respects f (binary inner rows) (binary inner rows) :=
  respects_extend (respects_unary h each) (respectsNext_climb h each rows)

theorem respects_conditional : Respects f (conditional inner) (conditional inner) := by
  refine respects_bind (respects_binary h each _) fun trees => respects_look fun s => ?_
  rw [State.sees_respell h]
  split
  · exact respects_wrap _ trees (respects_seq (.cons (respects_mark h "?")
      (.cons (respects_expression h each) (.cons (respects_mark h ":")
        (.cons (each .assignment) .nil)))))
  · exact respects_pure trees

theorem respects_assignment : Respects f (assignment inner) (assignment inner) := by
  have more := respects_seq (.cons (respects_operator h Vocabulary.assignmentOperators)
    (.cons (each .assignment) .nil))
  exact respects_node _ (respects_seq (.cons (respects_conditional h each)
    (.cons (respects_optional (fun s => State.seesAny_respell h s _) more) .nil)))

omit each in
theorem respects_nested (depth : Nat) (tier : Tier) :
    Respects f (nested depth tier) (nested depth tier) := by
  induction depth generalizing tier with
  | zero => exact respects_fail _
  | succ depth ih =>
    cases tier with
    | unary => exact respects_unary h ih
    | conditional => exact respects_conditional h ih
    | assignment => exact respects_assignment h ih

end Expression

theorem respects_tier (t : Tier) : Respects f (tier t) (tier t) :=
  respects_look fun s => Expression.respects_nested h s.left t

theorem respects_expression : Respects f expression expression :=
  Expression.respects_expression h (respects_tier h)

theorem respects_arraySpecifiers : Respects f arraySpecifiers arraySpecifiers :=
  Expression.respects_arraySpecifiers h (respects_tier h .conditional)

/-- A name with array dimensions. -/
theorem respects_dimensionedName :
    Respects f (seq [identifier, arraySpecifiers]) (seq [identifier, arraySpecifiers]) :=
  respects_seq (.cons (respects_identifier h) (.cons (respects_arraySpecifiers h) .nil))

theorem respects_optionalName {p : Production} (inside : Respects f p p) :
    Respects f (optional (·.seesKind .identifier) p) (optional (·.seesKind .identifier) p) :=
  respects_optional (fun s => State.seesKind_respell h s rfl) inside

theorem respects_layoutQualifier : Respects f layoutQualifier layoutQualifier := by
  refine respects_node _ (respects_seq
    (.cons (respects_mark h "layout") (.cons (respects_mark h "(")
      (.cons (respects_until h ")" (respects_look fun s => ?_))
        (.cons (respects_mark h ")") .nil)))))
  rw [State.sees_respell h]
  split
  · exact respects_seq (.cons (respects_mark h "=") (.cons (respects_tier h .conditional) .nil))
  · exact respects_any _

theorem respects_qualifiers : Respects f qualifiers qualifiers := by
  refine respects_many (State.seesQualifier_respell h) (respects_look fun s => ?_)
  rw [State.sees_respell h]
  split
  · exact respects_layoutQualifier h
  · exact respects_any _

namespace TypeSpecifier

variable {inner : Production} (inside : Respects f inner inner)
include inside

theorem respects_structMember : Respects f (structMember inner) (structMember inner) :=
  respects_node _ (respects_seq (.cons (respects_qualifiers h) (.cons inside
    (.cons (respects_commaList h (respects_dimensionedName h))
      (.cons (respects_mark h ";") .nil)))))

theorem respects_structSpecifier :
    Respects f (structSpecifier inner) (structSpecifier inner) :=
  respects_node _ (respects_seq (.cons (respects_mark h "struct")
    (.cons (respects_optionalName h (respects_newTypeName h)) (.cons (respects_mark h "\x7b")
      (.cons (respects_until h "\x7d" (respects_structMember h inside))
        (.cons (respects_mark h "\x7d") .nil))))))

theorem respects_typeSpecifier :
    Respects f (typeSpecifier inner) (typeSpecifier inner) := by
  refine respects_node _ (respects_seq (.cons (respects_look fun s => ?_)
    (.cons (respects_arraySpecifiers h) .nil)))
  rw [State.sees_respell h]
  split
  · exact respects_structSpecifier h inside
  · refine respects_take fun token => ?_
    have word : (f token).kind = .identifier ↔ token.kind = .identifier :=
      h.kind_eq rfl token
    rw [State.isTypeName_respell h, decide_eq_decide.2 word]

omit inside in
theorem respects_nested (depth : Nat) : Respects f (nested depth) (nested depth) := by
  induction depth with
  | zero => exact respects_fail _
  | succ depth ih => exact respects_typeSpecifier h ih

end TypeSpecifier

theorem respects_typeSpecifier : Respects f typeSpecifier typeSpecifier :=
  respects_look fun s => TypeSpecifier.respects_nested h s.left

theorem respects_fullySpecifiedType : Respects f fullySpecifiedType fullySpecifiedType :=
  respects_node _ (respects_seq (.cons (respects_qualifiers h)
    (.cons (respects_typeSpecifier h) .nil)))

theorem respects_parameter : Respects f parameter parameter :=
  respects_node _ (respects_seq (.cons (respects_qualifiers h) (.cons (respects_typeSpecifier h)
    (.cons (respects_optionalName h (respects_dimensionedName h)) .nil))))

namespace Initializer

theorem respects_initializer {inner : Production} (inside : Respects f inner inner) :
    Respects f (initializer inner) (initializer inner) := by
  have item : Respects f (optional (·.isBefore "\x7d") inner)
      (optional (·.isBefore "\x7d") inner) :=
    respects_optional (fun s => State.isBefore_respell h s _) inside
  have more := respects_seq (.cons (respects_mark h ",") (.cons item .nil))
  have items := respects_seq (.cons inside
    (.cons (respects_while h "," more) .nil))
  refine respects_node _ (respects_look fun s => ?_)
  rw [State.sees_respell h]
  split
  · exact respects_seq (.cons (respects_mark h "\x7b")
      (.cons (respects_optional (fun s => State.isBefore_respell h s _) items)
        (.cons (respects_mark h "\x7d") .nil)))
  · exact respects_tier h .assignment

theorem respects_nested (depth : Nat) : Respects f (nested depth) (nested depth) := by
  induction depth with
  | zero => exact respects_fail _
  | succ depth ih => exact respects_initializer h ih

end Initializer

theorem respects_declarator : Respects f declarator declarator := by
  have value : Respects f initializer initializer :=
    respects_look fun s => Initializer.respects_nested h s.left
  have given := respects_seq (.cons (respects_mark h "=") (.cons value .nil))
  exact respects_node _ (respects_seq (.cons (respects_identifier h)
    (.cons (respects_arraySpecifiers h)
      (.cons (respects_optional (fun s => State.sees_respell h s "=") given) .nil))))

theorem isBlockHead_respell (s : State) (depth : Nat) (qualified : Bool)
    (tokens : List Token) :
    isBlockHead (s.respell f) depth qualified (tokens.map f) =
      isBlockHead s depth qualified tokens := by
  fun_induction isBlockHead s depth qualified tokens with
  | case1 => rfl
  | case2 depth qualified token rest isOpen ih =>
    simpa [isBlockHead, h.is_eq, isOpen] using ih
  | case3 depth qualified token rest notOpen isClose ih =>
    simpa [isBlockHead, h.is_eq, notOpen, isClose] using ih
  | case4 depth qualified token rest notOpen notClose ih =>
    simpa [isBlockHead, h.is_eq, notOpen, notClose] using ih
  | case5 qualified token isLayout => simp [isBlockHead, h.is_eq, isLayout]
  | case6 qualified token isLayout opening inside isOpen ih =>
    simpa [isBlockHead, h.is_eq, isLayout, isOpen] using ih
  | case7 qualified token isLayout opening inside notOpen ih =>
    simpa [isBlockHead, h.is_eq, isLayout, notOpen] using ih
  | case8 qualified token rest notLayout isQualifier ih =>
    have same := State.isQualifier_respell h s token rest.head?
    rw [List.map_cons, isBlockHead.eq_def]
    simpa [h.is_eq, notLayout, same, isQualifier] using ih
  | case9 qualified token rest notLayout notQualifier =>
    have same := State.isQualifier_respell h s token rest.head?
    have word : (f token).kind = .identifier ↔ token.kind = .identifier :=
      h.kind_eq rfl token
    have brace : (rest.head?.map f).any (·.is "\x7b") = rest.head?.any (·.is "\x7b") := by
      cases rest <;> simp [h.is_eq]
    rw [List.map_cons, isBlockHead.eq_def]
    simp [h.is_eq, same, notLayout, notQualifier, word, brace]

theorem respects_interfaceBlock : Respects f interfaceBlock interfaceBlock :=
  respects_node _ (respects_seq (.cons (respects_qualifiers h) (.cons (respects_newTypeName h)
    (.cons (respects_mark h "\x7b")
      (.cons (respects_until h "\x7d" (TypeSpecifier.respects_structMember h
        (respects_typeSpecifier h)))
        (.cons (respects_mark h "\x7d")
          (.cons (respects_optionalName h (respects_dimensionedName h)) .nil)))))))

theorem respects_precisionStatement :
    Respects f precisionStatement precisionStatement := by
  have word : ∀ s : State, ((s.respell f).rest.head?.any fun token =>
        token.kind = .keyword && Vocabulary.isQualifierWord token.text) =
      s.rest.head?.any fun token =>
        token.kind = .keyword && Vocabulary.isQualifierWord token.text := by
    intro s
    cases shape : s.rest with
    | nil => simp [State.respell, shape]
    | cons token rest =>
      have keyword : (f token).kind = .keyword ↔ token.kind = .keyword :=
        h.kind_eq rfl token
      by_cases isWord : token.kind = .keyword
      · have same := h.keeps token (by rw [isWord]; rfl)
        simp [State.respell, shape, same]
      · simp [State.respell, shape, isWord, keyword]
  exact respects_seq (.cons (respects_mark h "precision")
    (.cons (respects_optional word (respects_any _))
      (.cons (respects_typeSpecifier h) (.cons (respects_mark h ";") .nil))))

theorem respects_declaration {body : Option Production}
    (inside : ∀ p ∈ body, Respects f p p) :
    Respects f (declaration body) (declaration body) := by
  refine respects_look fun s => ?_
  have block : (s.respell f).seesInterfaceBlock = s.seesInterfaceBlock :=
    isBlockHead_respell h s 0 false s.rest
  rw [State.sees_respell h, State.sees_respell h, block]
  split_ifs
  · exact respects_node _ (respects_mark h ";")
  · exact respects_node _ (respects_precisionStatement h)
  · exact respects_node _ (respects_seq (.cons (respects_interfaceBlock h)
      (.cons (respects_mark h ";") .nil)))
  · refine respects_bind (respects_fullySpecifiedType h) fun type =>
      respects_look fun s => ?_
    rw [State.seesKind_respell h s rfl, State.seesSecond_respell h]
    split_ifs
    · have head := respects_seq (.cons (respects_identifier h)
        (.cons (respects_parenList h (respects_parameter h)) .nil))
      refine respects_bind (respects_wrap _ type head) fun prototype =>
        respects_look fun s => ?_
      cases body with
      | none => exact respects_wrap _ prototype (respects_mark h ";")
      | some body =>
        simp only [State.sees_respell h]
        split_ifs
        · exact respects_wrap _ prototype (inside body rfl)
        · exact respects_wrap _ prototype (respects_mark h ";")
    · have list := respects_wrap .initDeclaratorList type
        (respects_unless h ";" (respects_commaList h (respects_declarator h)))
      exact respects_bind list fun trees => respects_wrap _ trees (respects_mark h ";")

theorem seesDeclaration_respell (s : State) :
    (s.respell f).seesDeclaration = s.seesDeclaration := by
  have second : ((s.respell f).rest[1]?.any (·.kind = .identifier)) =
      s.rest[1]?.any (·.kind = .identifier) := by
    have mapped : (s.respell f).rest[1]? = s.rest[1]?.map f := List.getElem?_map
    rw [mapped]
    cases s.rest[1]? with
    | none => rfl
    | some token => exact decide_eq_decide.2 (h.kind_eq rfl token)
  have first : (s.respell f).seesKind .identifier = s.seesKind .identifier :=
    State.seesKind_respell h s rfl
  simp only [State.seesDeclaration, State.sees_respell h, State.seesQualifier_respell h,
    State.seesTypeName_respell h, State.seesSecond_respell h, first, second]

theorem respects_parenthesized {p : Production} (inside : Respects f p p) :
    Respects f (parenthesized p) (parenthesized p) :=
  respects_seq (.cons (respects_mark h "(") (.cons inside (.cons (respects_mark h ")") .nil)))

theorem respects_expressionStatement :
    Respects f expressionStatement expressionStatement :=
  respects_node _ (respects_seq (.cons (respects_unless h ";" (respects_expression h))
    (.cons (respects_mark h ";") .nil)))

theorem respects_jumpStatement : Respects f jumpStatement jumpStatement := by
  refine respects_node _ (respects_look fun s => ?_)
  rw [State.sees_respell h]
  split
  · exact respects_seq (.cons (respects_mark h "return")
      (.cons (respects_unless h ";" (respects_expression h)) (.cons (respects_mark h ";") .nil)))
  · exact respects_seq (.cons (respects_any _) (.cons (respects_mark h ";") .nil))

theorem respects_caseLabel : Respects f caseLabel caseLabel := by
  refine respects_node _ (respects_look fun s => ?_)
  rw [State.sees_respell h]
  split
  · exact respects_seq (.cons (respects_mark h "case") (.cons (respects_expression h)
      (.cons (respects_mark h ":") .nil)))
  · exact respects_seq (.cons (respects_mark h "default") (.cons (respects_mark h ":") .nil))

namespace Statement

variable {inner : Production} (inside : Respects f inner inner)
include inside

theorem respects_compound : Respects f (compound inner) (compound inner) :=
  respects_node _ (respects_seq (.cons (respects_mark h "\x7b")
    (.cons (respects_until h "\x7d" inside) (.cons (respects_mark h "\x7d") .nil))))

theorem respects_selection : Respects f (selection inner) (selection inner) := by
  have other := respects_seq (.cons (respects_mark h "else") (.cons inside .nil))
  exact respects_node _ (respects_seq (.cons (respects_mark h "if")
    (.cons (respects_parenthesized h (respects_expression h)) (.cons inside
      (.cons (respects_optional (fun s => State.sees_respell h s "else") other) .nil)))))

theorem respects_forLoop : Respects f (forLoop inner) (forLoop inner) := by
  have first : Respects f
      (look fun s => if s.seesDeclaration then declaration none else expressionStatement)
      (look fun s => if s.seesDeclaration then declaration none else expressionStatement) := by
    refine respects_look fun s => ?_
    rw [seesDeclaration_respell h]
    split
    · exact respects_declaration h (by simp)
    · exact respects_expressionStatement h
  exact respects_node _ (respects_seq (.cons (respects_mark h "for") (.cons (respects_mark h "(")
    (.cons first (.cons (respects_unless h ";" (respects_expression h)) (.cons (respects_mark h ";")
      (.cons (respects_unless h ")" (respects_expression h)) (.cons (respects_mark h ")")
        (.cons inside .nil)))))))))

theorem respects_statement : Respects f (statement inner) (statement inner) := by
  refine respects_look fun s => ?_
  have condition := respects_parenthesized h (respects_expression h)
  simp only [State.sees_respell h, State.seesAny_respell h, seesDeclaration_respell h]
  split_ifs
  · exact respects_compound h inside
  · exact respects_selection h inside
  · exact respects_node _ (respects_seq (.cons (respects_mark h "switch") (.cons condition
      (.cons (respects_compound h inside) .nil))))
  · exact respects_caseLabel h
  · exact respects_node _ (respects_seq (.cons (respects_mark h "while") (.cons condition
      (.cons inside .nil))))
  · exact respects_node _ (respects_seq (.cons (respects_mark h "do") (.cons inside
      (.cons (respects_mark h "while") (.cons condition (.cons (respects_mark h ";") .nil))))))
  · exact respects_forLoop h inside
  · exact respects_jumpStatement h
  · exact respects_declaration h (by simp)
  · exact respects_expressionStatement h

omit inside in
theorem respects_nested (depth : Nat) : Respects f (nested depth) (nested depth) := by
  induction depth with
  | zero => exact respects_fail _
  | succ depth ih => exact respects_statement h ih

end Statement

theorem respects_declarations :
    Respects f (many (! ·.atEnd) (declaration (some compoundStatement)))
      (many (! ·.atEnd) (declaration (some compoundStatement))) := by
  have each : Respects f statement statement :=
    respects_look fun s => Statement.respects_nested h s.left
  refine respects_many (fun s => by rw [State.atEnd_respell]) (respects_declaration h ?_)
  rintro body ⟨⟩
  exact Statement.respects_compound h each

end Productions

end Grammar

/-- Respelled tokens are read as the respelled tree. -/
theorem SyntaxTree.ofTokens_respell {f : Token → Token} (h : Respelling f)
    {tokens : List Token} {root : Tree} (read : ofTokens tokens = .ok root) :
    ofTokens (tokens.map f) = .ok (root.respell f) := by
  have start : Grammar.State.start (tokens.map f) =
      (Grammar.State.start tokens).respell f := by
    simp [Grammar.State.start, Grammar.State.respell]
  have again := Grammar.respects_declarations h (.start tokens)
  rw [← start] at again
  unfold ofTokens Grammar.unit at read ⊢
  simp only [bind, StateT.bind, Except.bind, again] at read ⊢
  cases result : Grammar.many (! ·.atEnd)
      (Grammar.declaration (some Grammar.compoundStatement)) (.start tokens) with
  | error failure =>
    rw [result] at read
    cases read
  | ok reached =>
    rw [result] at read
    cases read
    rw [Tree.respell_node]
    rfl

end ShaderDialect
