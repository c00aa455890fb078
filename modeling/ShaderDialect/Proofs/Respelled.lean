import ShaderDialect.Inference.Call
import ShaderDialect.Proofs.Redeclaration
import ShaderDialect.Proofs.Rereading

/-!
# Views of respelled trees

Where literals are exchanged for literals, the kinds, names and dimensions that
a tree shows stay as they are. Its text changes where a promoted literal stands
in it; then it is neither a name nor a plain number, unless it is that literal
and nothing else.
-/

namespace ShaderDialect

namespace Tree

section

variable (f : Token → Token) (tree : Tree)

@[simp] theorem kind?_respell : (tree.respell f).kind? = tree.kind? := by
  cases tree <;> simp [kind?]

@[simp] theorem hasKind_respell (kind : NodeKind) :
    (tree.respell f).hasKind kind = tree.hasKind kind := by
  simp [hasKind]

@[simp] theorem isNode_respell : (tree.respell f).isNode = tree.isNode := by
  simp [isNode]

@[simp] theorem children_respell :
    (tree.respell f).children = tree.children.map (respell f) := by
  cases tree <;> simp [children]

@[simp] theorem token?_respell : (tree.respell f).token? = tree.token?.map f := by
  cases tree <;> simp [token?]

@[simp] theorem childTokens_respell :
    (tree.respell f).childTokens = tree.childTokens.map f := by
  have same : token? ∘ respell f = fun child => child.token?.map f :=
    funext (token?_respell f)
  rw [childTokens, children_respell, List.filterMap_map, same, childTokens,
    List.map_filterMap]

@[simp] theorem childNodes_respell :
    (tree.respell f).childNodes = tree.childNodes.map (respell f) := by
  have same : isNode ∘ respell f = isNode := funext (isNode_respell f)
  rw [childNodes, children_respell, List.filter_map, same, childNodes]

@[simp] theorem findChild?_respell (kind : NodeKind) :
    (tree.respell f).findChild? kind = (tree.findChild? kind).map (respell f) := by
  have same : (hasKind · kind) ∘ respell f = (hasKind · kind) :=
    funext fun child => hasKind_respell f child kind
  rw [findChild?, children_respell, List.find?_map, same, findChild?]

@[simp] theorem isArray_respell : (tree.respell f).isArray = tree.isArray := by
  simp [isArray, Function.comp_def]

@[simp] theorem arguments_respell :
    (tree.respell f).arguments = tree.arguments.map (respell f) := by
  have same : (hasKind · .assignmentExpression) ∘ respell f =
      (hasKind · .assignmentExpression) :=
    funext fun child => hasKind_respell f child .assignmentExpression
  rw [arguments, children_respell, List.filter_map, same, arguments]

end

mutual

theorem leaves_respell (f : Token → Token) :
    ∀ tree : Tree, (tree.respell f).leaves = tree.leaves.map f
  | .leaf _ => by simp
  | .node _ children => by simpa using leavesAll_respell f children

theorem leavesAll_respell (f : Token → Token) :
    ∀ trees : List Tree, leavesAll (trees.map (respell f)) = (leavesAll trees).map f
  | [] => rfl
  | tree :: trees => by simp [leaves_respell f tree, leavesAll_respell f trees]

end

mutual

theorem postorder_respell (f : Token → Token) :
    ∀ tree : Tree, (tree.respell f).postorder = tree.postorder.map (respell f)
  | .leaf _ => rfl
  | .node kind children => by
    rw [respell_node, postorder_node, postorder_node, flatMap_postorder_respell f children,
      List.map_append, List.map_singleton, respell_node]

theorem flatMap_postorder_respell (f : Token → Token) :
    ∀ trees : List Tree,
      (trees.map (respell f)).flatMap postorder =
        (trees.flatMap postorder).map (respell f)
  | [] => rfl
  | tree :: trees => by
    rw [List.map_cons, List.flatMap_cons, List.flatMap_cons, postorder_respell f tree,
      flatMap_postorder_respell f trees, List.map_append]

end

end Tree

theorem Tree.mem_postorder_self {tree : Tree} {kind : NodeKind} (h : tree.hasKind kind) :
    tree ∈ tree.postorder := by
  cases tree with
  | leaf token => cases h
  | node own children =>
    rw [postorder_node]
    exact List.mem_append_right _ (List.mem_singleton_self _)

namespace Respelling

variable {f : Token → Token} (h : Respelling f)
include h

theorem identifier_eq (token : Token) :
    decide ((f token).kind = .identifier) = decide (token.kind = .identifier) := by
  have same : (f token).kind = .identifier ↔ token.kind = .identifier :=
    h.kind_eq rfl token
  simp [same]

theorem find?_identifier (tokens : List Token) :
    (tokens.map f).find? (fun token => decide (token.kind = .identifier)) =
      tokens.find? fun token => decide (token.kind = .identifier) := by
  have same : (fun token : Token => decide (token.kind = .identifier)) ∘ f =
      fun token => decide (token.kind = .identifier) := funext h.identifier_eq
  rw [List.find?_map, same]
  cases found : tokens.find? fun token => decide (token.kind = .identifier) with
  | none => rfl
  | some token =>
    have isWord : token.kind = .identifier := by simpa using List.find?_some found
    rw [Option.map_some, h.keeps token (by rw [isWord]; rfl)]

theorem identifier?_respell (tree : Tree) :
    (tree.respell f).identifier? = tree.identifier? := by
  rw [Tree.identifier?, Tree.childTokens_respell, h.find?_identifier, Tree.identifier?]

/-- The name of a type is no literal. -/
theorem typeName?_respell {children : List Tree}
    (grammatical : (Tree.node .typeSpecifier children).Grammatical) :
    ((Tree.node .typeSpecifier children).respell f).typeName? =
      (Tree.node .typeSpecifier children).typeName? := by
  cases grammatical with
  | node form below =>
    obtain ⟨before, after, rfl, first, -⟩ := form
    rcases first with ⟨kind, parts, rfl, -⟩ | ⟨token, rfl, isType⟩
    · have same := h.identifier?_respell (.node kind parts)
      rw [Tree.respell_node] at same
      simp [Tree.typeName?, Tree.children, same]
    · have other : Grammar.Expression.isLiteral token.kind = false := by
        cases kind : token.kind <;> simp_all [TokenClass.admits, Grammar.Expression.isLiteral]
      simp [Tree.typeName?, Tree.children, h.keeps token other]

/-- A call names the same function. -/
theorem callName?_respell {children : List Tree}
    (grammatical : (Tree.node .functionCall children).Grammatical) :
    ((Tree.node .functionCall children).respell f).callName? =
      (Tree.node .functionCall children).callName? := by
  cases grammatical with
  | node form below =>
    obtain ⟨before, after, rfl, callee, -⟩ := form
    rcases callee with ⟨token, rfl, isName⟩ | ⟨token, parts, rfl, -⟩ |
      ⟨kind, parts, rfl, listed⟩ |
      empty
    · have other : Grammar.Expression.isLiteral token.kind = false := by
        have isWord : token.kind = .identifier := by
          simpa [TokenClass.admits] using isName
        rw [isWord]
        rfl
      simp [Tree.callName?, Tree.children, h.keeps token other]
    · have same := h.typeName?_respell (below _ List.mem_cons_self)
      simpa [Tree.callName?, Tree.children, Tree.hasKind, Tree.kind?] using same
    · have apart : kind ≠ .typeSpecifier := by
        rintro rfl
        revert listed
        decide
      simp [Tree.callName?, Tree.children, Tree.hasKind, Tree.kind?, apart]
    · simp [Form.Matches, Form.anyOf] at empty

end Respelling

/-! ### Texts -/

/-- A letter or underscore, then letters, digits and underscores. -/
def IsWord (text : String) : Prop :=
  ∃ c cs, text.toList = c :: cs ∧ Literal.isWordStart c ∧ ∀ d ∈ cs, Literal.isWordPart d

instance (text : String) : Decidable (IsWord text) :=
  match shape : text.toList with
  | [] => isFalse fun ⟨_, _, same, _⟩ => by
    rw [shape] at same
    cases same
  | c :: cs =>
    decidable_of_iff (Literal.isWordStart c ∧ cs.all Literal.isWordPart) <| by
      simp [IsWord, shape]

theorem IsWord.isWordPart {text : String} (h : IsWord text) {c : Char}
    (member : c ∈ text.toList) :
    Literal.isWordPart c := by
  obtain ⟨first, others, shape, isStart, isPart⟩ := h
  rw [shape] at member
  rcases List.mem_cons.1 member with rfl | later
  · simp [Literal.isWordPart, isStart]
  · exact isPart c later

/-- A name is scanned as a word. -/
theorem isWord_of_scan? {cs read rest : List Char}
    (h : Token.scan? cs = some (.identifier, read, rest)) :
    IsWord (String.ofList read) := by
  rcases Token.scan?_cases h with ⟨-, isFloat⟩ | ⟨-, -, isInt⟩ | ⟨-, -, word, -⟩ |
    ⟨-, -, -, -, isMark⟩
  · cases isFloat
  · unfold Token.intKind at isInt
    split_ifs at isInt
  · unfold Literal.word? at word
    split at word
    · split_ifs at word with isStart
      cases word
      refine ⟨_, _, String.toList_ofList, isStart, fun d member => ?_⟩
      exact List.all_eq_true.1 List.all_takeWhile d member
    · cases word
  · cases isMark

theorem Tree.mem_text {tree : Tree} {c : Char} :
    c ∈ tree.text.toList ↔ ∃ token ∈ tree.leaves, c ∈ token.text.toList := by
  simp [Tree.text]

/-- Among the tokens are marks and names that keep their text from being a word
or a plain number. -/
structure Compound (tokens : List Token) : Prop where
  mark : ∃ token ∈ tokens, Grammar.Expression.isLiteral token.kind = false ∧
    ∃ c ∈ token.text.toList, Literal.isWordPart c = false
  other : ∃ token ∈ tokens, Grammar.Expression.isLiteral token.kind = false ∧
    ∃ c ∈ token.text.toList, Literal.isDigit c = false ∧ c ≠ '.'

namespace Compound

theorem mono {tokens others : List Token} (h : Compound tokens)
    (subset : tokens ⊆ others) :
    Compound others := by
  obtain ⟨⟨mark, isMark, markSpelled⟩, ⟨other, isOther, otherSpelled⟩⟩ := h
  exact ⟨⟨mark, subset isMark, markSpelled⟩, ⟨other, subset isOther, otherSpelled⟩⟩

/-- Exchanged literals make no difference. -/
theorem map {tokens : List Token} (h : Compound tokens) {f : Token → Token}
    (respelling : Respelling f) :
    Compound (tokens.map f) := by
  obtain ⟨⟨mark, isMark, noLiteral, markSpelled⟩, ⟨other, isOther, noLiteral', otherSpelled⟩⟩ := h
  constructor
  · refine ⟨mark, List.mem_map.2 ⟨mark, isMark, respelling.keeps mark noLiteral⟩,
      noLiteral, markSpelled⟩
  · refine ⟨other, List.mem_map.2 ⟨other, isOther, respelling.keeps other noLiteral'⟩,
      noLiteral', otherSpelled⟩

theorem not_isWord {tree : Tree} (h : Compound tree.leaves) : ¬ IsWord tree.text := by
  intro isWord
  obtain ⟨token, member, -, c, spelled, isMark⟩ := h.mark
  rw [isWord.isWordPart (Tree.mem_text.2 ⟨token, member, spelled⟩)] at isMark
  cases isMark

theorem isDigits_eq_false {tree : Tree} (h : Compound tree.leaves) :
    Inference.isDigits tree.text.toList = false := by
  obtain ⟨token, member, -, c, spelled, noDigit, -⟩ := h.other
  refine Bool.eq_false_iff.2 fun digits => ?_
  have digit := List.all_eq_true.1 (Bool.and_eq_true_iff.1 digits).2 c
    (Tree.mem_text.2 ⟨token, member, spelled⟩)
  rw [noDigit] at digit
  cases digit

end Compound

/-- The characters of a plain number are digits and a point. -/
theorem isDigit_of_isPlainFloat {cs : List Char} (h : Inference.isPlainFloat cs)
    {c : Char} (member : c ∈ cs) : Literal.isDigit c ∨ c = '.' := by
  unfold Inference.isPlainFloat at h
  split at h
  · rename_i point fraction shape
    obtain ⟨whole, behind⟩ := Bool.and_eq_true_iff.1 h
    rw [← List.takeWhile_append_dropWhile (p := (· ≠ '.')) (l := cs), shape] at member
    rcases List.mem_append.1 member with before | after
    · exact Or.inl (List.all_eq_true.1 (Bool.and_eq_true_iff.1 whole).2 c before)
    · rcases List.mem_cons.1 after with rfl | later
      · have stops := List.head?_dropWhile_not (· ≠ '.') cs
        rw [shape] at stops
        exact Or.inr (by simpa using stops)
      · exact Or.inl (List.all_eq_true.1 behind c later)
  · cases h

theorem Compound.isPlainFloat_eq_false {tree : Tree} (h : Compound tree.leaves) :
    Inference.isPlainFloat tree.text.toList = false := by
  obtain ⟨token, member, -, c, spelled, noDigit, noPoint⟩ := h.other
  refine Bool.eq_false_iff.2 fun plain => ?_
  rcases isDigit_of_isPlainFloat plain (Tree.mem_text.2 ⟨token, member, spelled⟩) with digit | point
  · rw [noDigit] at digit
    cases digit
  · exact noPoint point

/-- The marks of which a node of the given kind has one. -/
def NodeKind.marks : NodeKind → List String
  | .conditionalExpression => ["?"]
  | .unaryExpression => Vocabulary.unaryOperators
  | .postfixExpression => ["++", "--"]
  | .parenExpression => ["("]
  | .functionCall => ["("]
  | .indexExpression => ["["]
  | .arraySpecifier => ["["]
  | .structSpecifier => ["\x7b"]
  | _ => []

theorem NodeKind.mem_operators_of_mem_marks (kind : NodeKind) :
    ∀ mark ∈ kind.marks, mark ∈ Vocabulary.operators ∧ mark ≠ "." := by
  cases kind <;> decide

theorem exists_mark_char {text : String} (h : text ∈ Vocabulary.operators)
    (notPoint : text ≠ ".") :
    ∃ c ∈ text.toList, Literal.isWordPart c = false ∧ Literal.isDigit c = false ∧
      c ≠ '.' := by
  have marked : ∀ text ∈ Vocabulary.operators, text ≠ "." →
      text.toList.any fun c => ! Literal.isWordPart c && ! Literal.isDigit c &&
        c != '.' := by
    decide
  simpa [and_assoc] using marked text h notPoint

/-- A mark other than a point keeps a text from being a word or a number. -/
theorem compound_of_mark {tokens : List Token} {token : Token} {text : String}
    (member : token ∈ tokens) (isMark : token.is text) (h : text ∈ Vocabulary.operators)
    (notPoint : text ≠ ".") : Compound tokens := by
  obtain ⟨isKind, spelling⟩ := Bool.and_eq_true_iff.1 isMark
  obtain rfl : token.text = text := of_decide_eq_true spelling
  obtain ⟨c, spelled, noWord, noDigit, noPoint⟩ := exists_mark_char h notPoint
  have noLiteral : Grammar.Expression.isLiteral token.kind = false := by
    cases kind : token.kind <;> simp_all [Grammar.Expression.isLiteral]
  exact ⟨⟨token, member, noLiteral, c, spelled, noWord⟩,
    ⟨token, member, noLiteral, c, spelled, noDigit, noPoint⟩⟩

theorem compound_of_marks {kind : NodeKind} {children : List Tree}
    (grammatical : (Tree.node kind children).Grammatical)
    (required : kind.form.requires (.token (.oneOf kind.marks))) :
    Compound (Tree.leavesAll children) := by
  cases grammatical with
  | node form below =>
    obtain ⟨_, within, token, rfl, admitted⟩ := Form.exists_part_of_requires required form
    obtain ⟨mark, listed, isMark⟩ := List.any_eq_true.1 admitted
    obtain ⟨known, notPoint⟩ := kind.mem_operators_of_mem_marks mark listed
    have member := Tree.leaves_subset (within List.mem_cons_self) List.mem_cons_self
    exact compound_of_mark member isMark known notPoint

/-- Operands are joined by an operator. -/
theorem exists_operator {rows : List (List String)} {children : List Tree}
    (h : (Form.anyOf (Form.binaryRows rows)).Matches children) :
    ∃ token, .leaf token ∈ children ∧ rows.flatten.any token.is := by
  induction rows with
  | nil => simp [Form.binaryRows, Form.anyOf, Form.Matches] at h
  | cons row tighter ih =>
    rcases h with ⟨before, after, rfl, -, _, right, rfl, ⟨token, rfl, isOperator⟩, -⟩ | later
    · refine ⟨token, by simp, ?_⟩
      rw [List.flatten_cons, List.any_append, Bool.or_eq_true]
      exact Or.inl isOperator
    · obtain ⟨token, member, isOperator⟩ := ih later
      refine ⟨token, member, ?_⟩
      rw [List.flatten_cons, List.any_append, isOperator, Bool.or_true]

theorem mem_operators_of_mem_binary :
    ∀ text ∈ Vocabulary.binaryOperators.flatten, text ∈ Vocabulary.operators ∧
      text ≠ "." := by
  decide

theorem mem_operators_of_mem_assignment :
    ∀ text ∈ Vocabulary.assignmentOperators, text ∈ Vocabulary.operators ∧
      text ≠ "." := by
  decide

/-- An operand is a single name or literal, or is compound. -/
theorem single_or_compound {kind : NodeKind} {children : List Tree}
    (grammatical : (Tree.node kind children).Grammatical)
    (listed : kind ∈ NodeKind.conditionalKinds)
    (words : ∀ token ∈ Tree.leavesAll children, token.kind = .identifier →
      IsWord token.text) :
    (kind = .primaryExpression ∧ ∃ token, children = [.leaf token]) ∨
      Compound (Tree.leavesAll children) := by
  by_cases required : kind.form.requires (.token (.oneOf kind.marks))
  · exact Or.inr (compound_of_marks grammatical required)
  have others : kind = .primaryExpression ∨ kind = .binaryExpression ∨
      kind = .fieldSelection := by
    revert listed required
    cases kind <;> decide
  cases grammatical with
  | node form below =>
    rcases others with rfl | rfl | rfl
    · rcases form with ⟨token, rfl, -⟩ | ⟨token, rfl, -⟩ <;>
        exact Or.inl ⟨rfl, token, rfl⟩
    · obtain ⟨token, member, isOperator⟩ := exists_operator form
      obtain ⟨text, known, isMark⟩ := List.any_eq_true.1 isOperator
      obtain ⟨known, notPoint⟩ := mem_operators_of_mem_binary text known
      exact Or.inr (compound_of_mark (Tree.leaves_subset member List.mem_cons_self) isMark known
        notPoint)
    · -- A point is no digit, and the name of the member starts with a letter.
      obtain ⟨owner, _, rfl, -, _, _, rfl, ⟨point, rfl, isPoint⟩, _, _, rfl,
          ⟨name, rfl, isName⟩, rfl⟩ :=
        form
      obtain ⟨isKind, spelling⟩ :
          (point.kind = .keyword ∨ point.kind = .punct) ∧ point.text = "." := by
        simpa [TokenClass.admits, Token.is] using isPoint
      have isWord : name.kind = .identifier := by simpa [TokenClass.admits] using isName
      have inside : [point, name] ⊆
          Tree.leavesAll (owner ++ ([.leaf point] ++ ([.leaf name] ++ []))) := by
        rw [Tree.leavesAll_append]
        exact List.subset_append_right _ _
      simp only [List.cons_subset] at inside
      obtain ⟨c, cs, shape, isStart, -⟩ := words name inside.2.1 isWord
      refine Or.inr ⟨⟨point, inside.1, ?_, '.', by simp [spelling], rfl⟩, name, inside.2.1, ?_, c,
        by simp [shape], ?_, ?_⟩
      · rcases isKind with isKind | isKind <;> simp [isKind, Grammar.Expression.isLiteral]
      · rw [isWord]
        rfl
      · exact Literal.isDigit_of_isWordStart isStart
      · rintro rfl
        cases isStart

/-- An argument is a single name or literal, or is compound. -/
theorem argument_single_or_compound {children : List Tree}
    (grammatical : (Tree.node .assignmentExpression children).Grammatical)
    (words : ∀ token ∈ Tree.leavesAll children, token.kind = .identifier →
      IsWord token.text) :
    (∃ token, children = [.node .primaryExpression [.leaf token]]) ∨
      Compound (Tree.leavesAll children) := by
  cases grammatical with
  | node form below =>
    obtain ⟨_, _, rfl, ⟨kind, operands, rfl, listed⟩, optional⟩ := form
    obtain ⟨_, _, rfl, stored | rfl, rfl⟩ := optional
    · obtain ⟨_, _, rfl, ⟨token, rfl, isStore⟩, -⟩ := stored
      obtain ⟨text, known, isMark⟩ := List.any_eq_true.1 isStore
      obtain ⟨known, notPoint⟩ := mem_operators_of_mem_assignment text known
      exact Or.inr (compound_of_mark (by simp) isMark known notPoint)
    · rcases single_or_compound (below _ List.mem_cons_self) listed
          (fun token member => words token (by simpa using member)) with
        ⟨rfl, token, rfl⟩ | compound
      · exact Or.inl ⟨token, rfl⟩
      · exact Or.inr (compound.mono (by simp))

/-- A type is a single word, or is compound. -/
theorem type_single_or_compound {children : List Tree}
    (grammatical : (Tree.node .typeSpecifier children).Grammatical) :
    (∃ token, children = [.leaf token] ∧ Grammar.Expression.isLiteral token.kind = false) ∨
      Compound (Tree.leavesAll children) := by
  cases grammatical with
  | node form below =>
    obtain ⟨_, _, rfl, first, _, _, rfl, ⟨parts, rfl, dimensions⟩, rfl⟩ := form
    rcases first with ⟨kind, members, rfl, isStruct⟩ | ⟨token, rfl, isType⟩
    · obtain rfl : kind = .structSpecifier := List.mem_singleton.1 isStruct
      have inner := compound_of_marks (below _ List.mem_cons_self) (by decide)
      exact Or.inr (inner.mono (by simp))
    · cases parts with
      | nil =>
        refine Or.inl ⟨token, rfl, ?_⟩
        cases kind : token.kind <;> simp_all [TokenClass.admits, Grammar.Expression.isLiteral]
      | cons part parts =>
        obtain ⟨kind, sizes, rfl, isArray⟩ := dimensions part List.mem_cons_self
        obtain rfl : kind = .arraySpecifier := List.mem_singleton.1 isArray
        have inner :=
          compound_of_marks (below (.node .arraySpecifier sizes) (by simp)) (by decide)
        exact Or.inr (inner.mono (by simp))

end ShaderDialect
