import ShaderDialect.Proofs.Idempotence
import ShaderDialect.Proofs.LongestMatch
import ShaderDialect.Proofs.Registration

/-!
# Types of arguments

The type of an argument is told from its spelling, with nothing between the
tokens. This is the type that the argument has as an expression: what is spelled
like a variable or a plain number is a single token of that kind. An operator, a
bracket, or a member behind its point keeps any longer expression from looking
like one, and no name is spelled like a literal.
-/

namespace ShaderDialect

open Lexicon

/-! ### Names in scope -/

namespace Tree

/-- A name of the source stands in a tree. -/
def Mentions (tree : Tree) (name : String) : Prop :=
  ∃ token ∈ tree.leaves, token.kind = .identifier ∧ token.text = name

theorem mentions_of_child {kind : NodeKind} {children : List Tree} {child : Tree}
    {name : String} (member : child ∈ children) (h : child.Mentions name) :
    (node kind children).Mentions name := by
  obtain ⟨token, listed, isName⟩ := h
  exact ⟨token, leaves_subset member listed, isName⟩

theorem mentions_of_mem_ownNames {tree : Tree} {name : String}
    (h : name ∈ tree.ownNames) :
    tree.Mentions name := by
  obtain ⟨token, listed, rfl⟩ := List.mem_map.1 h
  obtain ⟨hangs, isName⟩ := List.mem_filter.1 listed
  exact ⟨token, childTokens_subset tree hangs, of_decide_eq_true isName, rfl⟩

theorem mentions_of_mem_namesOf {kind own : NodeKind} {children : List Tree}
    {name : String}
    (h : name ∈ namesOf kind children) : (node own children).Mentions name := by
  obtain ⟨child, listed, named⟩ := List.mem_flatMap.1 h
  exact mentions_of_child (List.mem_filter.1 listed).1 (mentions_of_mem_ownNames named)

theorem mentions_of_mem_parameterNames {kind : NodeKind} {children : List Tree}
    {name : String}
    (h : name ∈ parameterNames children) : (node kind children).Mentions name := by
  obtain ⟨prototype, listed, named⟩ := List.mem_flatMap.1 h
  refine mentions_of_child (List.mem_filter.1 listed).1 ?_
  cases prototype with
  | leaf token => cases named
  | node kind parts => exact mentions_of_mem_namesOf named

theorem mentions_of_mem_declaredBy {kind : NodeKind} {children : List Tree}
    {name : String}
    (h : name ∈ declaredBy kind children) : (node kind children).Mentions name := by
  unfold declaredBy at h
  split at h
  · exact mentions_of_mem_ownNames h
  · rcases List.mem_append.1 h with own | member
    · exact mentions_of_mem_ownNames own
    · exact mentions_of_mem_namesOf member
  · cases h

mutual

theorem mentions_of_mem_outerNames {name : String} :
    ∀ tree : Tree, name ∈ tree.outerNames → tree.Mentions name
  | .leaf _, h => by cases h
  | .node kind children, h => by
    rw [outerNames] at h
    split at h
    · cases h
    · rcases List.mem_append.1 h with own | below
      · exact mentions_of_mem_declaredBy own
      · obtain ⟨child, member, mentions⟩ :=
          exists_mentions_of_mem_outerNamesAll children below
        exact mentions_of_child member mentions

theorem exists_mentions_of_mem_outerNamesAll {name : String} :
    ∀ trees : List Tree, name ∈ outerNamesAll trees → ∃ tree ∈ trees, tree.Mentions name
  | [], h => by cases h
  | tree :: trees, h => by
    rw [outerNamesAll] at h
    rcases List.mem_append.1 h with here | later
    · exact ⟨tree, List.mem_cons_self, mentions_of_mem_outerNames tree here⟩
    · obtain ⟨other, member, mentions⟩ := exists_mentions_of_mem_outerNamesAll trees later
      exact ⟨other, List.mem_cons_of_mem _ member, mentions⟩

end

theorem mentions_of_children {tree : Tree} {name : String}
    (h : name ∈ outerNamesAll tree.children) : tree.Mentions name := by
  obtain ⟨child, member, mentions⟩ := exists_mentions_of_mem_outerNamesAll _ h
  cases tree with
  | leaf token => cases member
  | node kind children => exact mentions_of_child member mentions

/-- Every token is spelled as one of its kind. -/
def IsSpelled (tree : Tree) : Prop :=
  ∀ token ∈ tree.leaves, token.text.toList ∈ ofKind token.kind

theorem IsSpelled.of_mentions {tree : Tree} (h : tree.IsSpelled) {name : String}
    (mentions : tree.Mentions name) : name.toList ∈ ofKind .identifier := by
  obtain ⟨token, listed, isName, rfl⟩ := mentions
  exact isName ▸ h token listed

end Tree

/-- Every variable has a name that is spelled as one. -/
def Scope.IsSpelled (scope : Scope) : Prop :=
  ∀ frame ∈ scope.frames, ∀ declared ∈ frame, declared.name.toList ∈ ofKind .identifier

theorem Scope.IsSpelled.of_lookup? {scope : Scope} (h : scope.IsSpelled) {name : String}
    {found : Variable} (lookup : scope.lookup? name = some found) :
    name.toList ∈ ofKind .identifier := by
  obtain ⟨frame, listed, own⟩ := List.exists_of_findSome?_eq_some lookup
  obtain rfl : found.name = name := by simpa using List.find?_some own
  exact h frame listed found (List.mem_of_find?_eq_some own)

theorem Scope.isSpelled_initial (catalog : Catalog) :
    (Scope.initial catalog).IsSpelled := by
  have scanned : Scope.builtinFrame.all fun declared =>
      Token.scan? declared.name.toList =
          some (.identifier, declared.name.toList, []) := by
    decide +kernel
  intro frame listed declared member
  obtain rfl := List.mem_singleton.1 listed
  exact Token.mem_ofKind_of_scan? (of_decide_eq_true (List.all_eq_true.1 scanned declared member))

namespace Plan

theorem mentions_of_mem_exposes {role : Role} {tree : Tree} {name : String}
    (h : name ∈ role.exposes tree) : tree.Mentions name := by
  cases role with
  | part context => exact Tree.mentions_of_mem_outerNames tree h
  | declarator type typeIsArray =>
    rcases List.mem_append.1 h with own | below
    · exact Tree.mentions_of_mem_ownNames own
    · exact Tree.mentions_of_children below
  | argument expectsFloat => exact Tree.mentions_of_children h
  | body => exact Tree.mentions_of_children h

/-- What a node declares for its children is a name that stands below it. -/
theorem Visit.Declares.mentions {name : String} {v : Visit} (h : v.Declares name) :
    v.tree.Mentions name := by
  cases h with
  | parameter listed => exact Tree.mentions_of_mem_parameterNames listed
  | child step exposed =>
    cases step with
    | child entered listed =>
      exact Tree.mentions_of_child (mem_of_mem_siblingVisits listed)
        (mentions_of_mem_exposes exposed)

namespace Visit.Reaches

variable {catalog : Catalog} {root : Tree} {v : Visit}

theorem leaves_subset (reached : (Visit.ofTree catalog root).Reaches v) :
    v.tree.leaves ⊆ root.leaves := by
  induction reached with
  | refl => exact List.Subset.refl _
  | tail _ step ih =>
    cases step with
    | child entered listed =>
      exact List.Subset.trans (Tree.leaves_subset (mem_of_mem_siblingVisits listed)) ih

/-- The walk knows variables only that are spelled as names. -/
theorem isSpelled (reached : (Visit.ofTree catalog root).Reaches v)
    (spelled : root.IsSpelled) :
    v.state.scope.IsSpelled := by
  intro frame listed declared member
  rcases reached.mem_frames listed member with ⟨frame, first, builtin⟩ |
    ⟨u, above, -, declares⟩
  · exact Scope.isSpelled_initial catalog frame first declared builtin
  · obtain ⟨token, inside, isName⟩ := declares.mentions
    exact spelled.of_mentions ⟨token, above.leaves_subset inside, isName⟩

theorem isSpelled_after (reached : (Visit.ofTree catalog root).Reaches v)
    (spelled : root.IsSpelled) : v.after.IsSpelled := by
  intro frame listed declared member
  rcases (extends_visit v.role v.state v.tree).mem_frames listed member with
    ⟨frame, before, known⟩ | exposed
  · exact reached.isSpelled spelled frame before declared known
  · obtain ⟨token, inside, isName⟩ := mentions_of_mem_exposes exposed
    exact spelled.of_mentions ⟨token, reached.leaves_subset inside, isName⟩

end Visit.Reaches

end Plan

/-! ### Spellings of numbers and names -/

namespace Inference

theorem mem_ofKind_of_isDigits {cs : List Char} (h : isDigits cs) :
    cs ∈ ofKind .intLiteral := by
  obtain ⟨nonempty, digits⟩ := Bool.and_eq_true_iff.1 h
  exact Or.inr ⟨by simpa using nonempty, List.all_eq_true.1 digits⟩

theorem mem_ofKind_of_isPlainFloat {cs : List Char} (h : isPlainFloat cs) :
    cs ∈ ofKind .floatLiteral := by
  have whole := List.takeWhile_append_dropWhile (p := (· ≠ '.')) (l := cs)
  have stops := List.head?_dropWhile_not (· ≠ '.') cs
  unfold isPlainFloat at h
  split at h
  · rename_i point fraction shape
    obtain ⟨digits, behind⟩ := Bool.and_eq_true_iff.1 h
    obtain ⟨nonempty, digits⟩ := Bool.and_eq_true_iff.1 digits
    rw [shape] at whole stops
    obtain rfl : point = '.' := by simpa using stops
    have optional : fraction ∈ 1 + run Literal.isDigit := by
      cases fraction with
      | nil => exact Or.inl rfl
      | cons c fraction => exact Or.inr ⟨by simp, List.all_eq_true.1 behind⟩
    have number : cs.takeWhile (· ≠ '.') ++ (['.'] ++ (fraction ++ [])) ∈ pointed :=
      Language.append_mem_mul ⟨by simpa using nonempty, List.all_eq_true.1 digits⟩
        (Language.append_mem_mul ⟨".", by simp, rfl⟩
          (Language.append_mem_mul optional (Or.inl rfl)))
    rw [List.append_nil, List.singleton_append, whole] at number
    exact Language.mem_mul.2 ⟨cs, Or.inl number, [], ⟨"", by simp, rfl⟩, List.append_nil _⟩
  · cases h

theorem isWord_of_mem_ofKind {text : String} (h : text.toList ∈ ofKind .identifier) :
    IsWord text := by
  obtain ⟨c, rest, shape, isStart, isPart⟩ := h.1
  exact ⟨c, rest, shape, isStart, isPart⟩

theorem exists_single_or_compound {argument : Tree} (sound : argument.IsSound)
    (isArgument : argument.hasKind .assignmentExpression) :
    (∃ token, argument = single token) ∨ Compound argument.leaves := by
  obtain ⟨children, rfl⟩ := Tree.exists_children_of_hasKind isArgument
  rcases argument_single_or_compound sound.grammatical sound.words with ⟨token, rfl⟩ | compound
  · exact Or.inl ⟨token, rfl⟩
  · exact Or.inr compound

/-- The tokens whose type can be told: names, and numbers that are plain. -/
def IsPlain (token : Token) : Prop :=
  token.kind = .identifier ∨ token.kind = .intLiteral ∧ isDigits token.text.toList ∨
    token.kind = .floatLiteral ∧ isPlainFloat token.text.toList

theorem not_isPlain_of_compound {argument : Tree} (sound : argument.IsSound)
    (compound : Compound argument.leaves) {token : Token}
    (alone : argument.leaves = [token]) :
    ¬ IsPlain token := by
  have text : argument.text = token.text := by simp [Tree.text, alone]
  rintro (isName | ⟨-, digits⟩ | ⟨-, plain⟩)
  · exact compound.not_isWord (text ▸ sound.words token (by simp [alone]) isName)
  · rw [← text, compound.isDigits_eq_false] at digits
    cases digits
  · rw [← text, compound.isPlainFloat_eq_false] at plain
    cases plain

/-- Nothing is told of an argument of several tokens. -/
theorem argumentType?_compound {scope : Scope} (spelled : scope.IsSpelled)
    {argument : Tree}
    (compound : Compound argument.leaves) : argumentType? scope argument = none := by
  have unknown : scope.lookup? argument.text = none := by
    refine Option.eq_none_iff_forall_ne_some.2 fun found lookup => compound.not_isWord ?_
    exact isWord_of_mem_ofKind (spelled.of_lookup? lookup)
  simp [argumentType?, unknown, compound.isDigits_eq_false, compound.isPlainFloat_eq_false]

theorem typeOf_single (scope : Scope) (token : Token) :
    typeOf scope (single token) =
      .ok (typeOfPrimary? scope (.node .primaryExpression [.leaf token])) := by
  simp [single, typeOf, typeOfNth, Tree.isNode, Tree.kind?]

section Single

variable {scope : Scope} (spelled : scope.IsSpelled) {token : Token}
  (own : token.text.toList ∈ ofKind token.kind)
include spelled own

/-- What is told of a single token is its type. The spelling alone decides which
kind the token has, since no two kinds share one. -/
theorem argumentType?_single_iff {type : String} :
    argumentType? scope (single token) = some type ↔
      IsPlain token ∧
        ∃ ty, typeOf scope (single token) = .ok (some ty) ∧ ty.name = type := by
  have unknown : token.kind ≠ .identifier → scope.lookup? token.text = none := fun other =>
    Option.eq_none_iff_forall_ne_some.2 fun found lookup =>
      other (Token.kind_unique (spelled.of_lookup? lookup) own)
  have noDigits : token.kind ≠ .intLiteral → isDigits token.text.toList = false := fun other =>
    Bool.eq_false_iff.2 fun digits =>
      other (Token.kind_unique (mem_ofKind_of_isDigits digits) own)
  have noPoint : token.kind ≠ .floatLiteral → isPlainFloat token.text.toList = false := fun other =>
    Bool.eq_false_iff.2 fun plain =>
      other (Token.kind_unique (mem_ofKind_of_isPlainFloat plain) own)
  have int : scope.type? "int" = some (.primitive "int") := rfl
  have float : scope.type? "float" = some .float := rfl
  rw [typeOf_single]
  simp only [argumentType?, text_single, IsPlain, typeOfPrimary?, Tree.childTokens,
    Tree.children, List.filterMap_cons, Tree.token?, List.head?_cons, Option.bind_some]
  cases kind : token.kind with
  | identifier =>
    rw [noDigits (by simp [kind]), noPoint (by simp [kind])]
    cases scope.lookup? token.text <;> simp
  | intLiteral =>
    rw [unknown (by simp [kind]), noPoint (by simp [kind]), int]
    cases isDigits token.text.toList <;> simp [Ty.name]
  | floatLiteral =>
    rw [unknown (by simp [kind]), noDigits (by simp [kind]), float]
    cases isPlainFloat token.text.toList <;> simp [Ty.name, Ty.float]
  | _ =>
    rw [unknown (by simp [kind]), noDigits (by simp [kind]), noPoint (by simp [kind])]
    simp

end Single

end Inference

namespace SyntaxTree

open Plan Inference

theorem isSpelled_root {source : String} {tree : SyntaxTree}
    (parsed : ofSource source = .ok tree) :
    tree.root.IsSpelled := by
  intro token member
  obtain ⟨cs, read, rest, scanned, spelling⟩ :=
    exists_scan_of_mem (ofSource_eq_ok parsed).1 ((ofSource_spec parsed).2.2.1 ▸ member)
  rw [spelling, String.toList_ofList]
  exact Token.mem_ofKind_of_scan? scanned

/-- What the spelling of an argument tells of its type, in any scope of the walk, is
its type: the argument is one token, a name or a plain number, and typing it finds
nothing wrong. An argument of several tokens is spelled like no name and no plain
number. -/
theorem argument_type_agrees {source : String} {tree : SyntaxTree}
    (parsed : ofSource source = .ok tree) (catalog : Catalog) {v : Visit}
    (reached : (Visit.ofTree catalog tree.root).Reaches v) {call : Tree}
    (listed : call ∈ tree.root.postorder) (isCall : call.hasKind .functionCall)
    {argument : Tree} (passed : argument ∈ call.arguments) :
    (∀ scope, scope = v.state.scope ∨ scope = v.after → ∀ type,
      argumentType? scope argument = some type ↔
        ∃ token ty, argument.leaves = [token] ∧ IsPlain token ∧
          typeOf scope argument = .ok (some ty) ∧ ty.name = type) ∧
    (argument.leaves.length ≠ 1 → ¬ IsWord argument.text ∧
      isDigits argument.text.toList = false ∧
      isPlainFloat argument.text.toList = false) := by
  obtain ⟨children, rfl⟩ := Tree.exists_children_of_hasKind isCall
  obtain ⟨member, isArgument⟩ := List.mem_filter.1 passed
  have sound : argument.IsSound :=
    (Tree.inherit_postorder (fun _ _ sound _ member => Tree.IsSound.child sound member)
      (isSound_root parsed) _ listed).child member
  have spelled := isSpelled_root parsed
  have inside : argument.leaves ⊆ tree.root.leaves :=
    List.Subset.trans (Tree.leaves_subset member) (Tree.leaves_subset_of_mem_postorder listed)
  have names : ∀ scope, scope = v.state.scope ∨ scope = v.after → scope.IsSpelled := by
    rintro scope (rfl | rfl)
    · exact reached.isSpelled spelled
    · exact reached.isSpelled_after spelled
  rcases exists_single_or_compound sound isArgument with ⟨token, rfl⟩ | compound
  · refine ⟨fun scope known type => ?_, fun several => absurd rfl several⟩
    rw [argumentType?_single_iff (names scope known) (spelled token (inside List.mem_cons_self))]
    constructor
    · rintro ⟨plain, ty, typed⟩
      exact ⟨token, ty, rfl, plain, typed⟩
    · rintro ⟨token', ty, same, plain, typed⟩
      obtain rfl : token = token' := by simpa [single] using same
      exact ⟨plain, ty, typed⟩
  · refine ⟨fun scope known type => ?_, fun _ =>
      ⟨compound.not_isWord, compound.isDigits_eq_false, compound.isPlainFloat_eq_false⟩⟩
    rw [argumentType?_compound (names scope known) compound]
    refine iff_of_false (by simp) ?_
    rintro ⟨token, ty, alone, plain, -⟩
    exact not_isPlain_of_compound sound compound alone plain

theorem argument_type_agrees_global : ∃ tree call argument,
    ofSource "float x; void main() { max(x, x.x); }" = .ok tree ∧
    call ∈ tree.root.postorder ∧
      call.hasKind .functionCall ∧ argument ∈ call.arguments ∧
      argumentType? (Visit.ofTree Catalog.bundled tree.root).after argument =
        some "float" ∧
      ∃ token ty, argument.leaves = [token] ∧ IsPlain token ∧
        typeOf (Visit.ofTree Catalog.bundled tree.root).after argument = .ok (some ty) ∧
        ty.name = "float" := by
  have read : (ofSource "float x; void main() { max(x, x.x); }").toOption.map (fun tree =>
      (tree.root.postorder.find? (·.hasKind .functionCall)).bind fun call =>
        call.arguments.head?.bind (argumentType? (Visit.ofTree Catalog.bundled tree.root).after)) =
      some (some "float") := by
    decide +kernel
  obtain ⟨tree, parsed, found⟩ := exists_of_map_toOption read
  obtain ⟨call, called, found⟩ := Option.bind_eq_some_iff.1 found
  obtain ⟨argument, first, told⟩ := Option.bind_eq_some_iff.1 found
  have listed := List.mem_of_find?_eq_some called
  have isCall := List.find?_some (p := (Tree.hasKind · .functionCall)) called
  have passed := List.mem_of_head? first
  have agrees := argument_type_agrees parsed Catalog.bundled .refl listed isCall passed
  exact ⟨tree, call, argument, parsed, listed, isCall, passed, told,
    (agrees.1 _ (Or.inr rfl) "float").1 told⟩

end SyntaxTree

end ShaderDialect
