import ShaderDialect.Inference.Demand
import ShaderDialect.Proofs.Likeness

/-!
# Answers of the inference after respelling

`Shows tree token` says that the demand query looks at a token of an expression.
Where no token that is shown changes, the types and demands of an expression
stay as they are. Where a promoted one is shown, the expression demands
floating operands, in any scope.
-/

namespace ShaderDialect.Inference

/-- The names and literals that a demand query looks at: not those of a callee
or of a type, and of a member those of its owner. -/
inductive Shows : Tree → Token → Prop
  | primary {children : List Tree} {token : Token}
      (first : (Tree.node .primaryExpression children).childTokens.head? = some token) :
      Shows (.node .primaryExpression children) token
  | owner {children : List Tree} {owner : Tree} {token : Token}
      (found : children.find? Tree.isNode = some owner) (h : Shows owner token) :
      Shows (.node .fieldSelection children) token
  | argument {children : List Tree} {argument : Tree} {token : Token} (member : argument ∈ children)
      (isArgument : argument.hasKind .assignmentExpression) (h : Shows argument token) :
      Shows (.node .functionCall children) token
  | part {kind : NodeKind} {children : List Tree} {child : Tree} {token : Token}
      (ordinary : kind ≠ .primaryExpression ∧ kind ≠ .fieldSelection ∧
        kind ≠ .functionCall)
      (member : child ∈ children) (h : Shows child token) :
        Shows (.node kind children) token

theorem Shows.mem_leaves {tree : Tree} {token : Token} (h : Shows tree token) :
    token ∈ tree.leaves := by
  induction h with
  | @primary children token first =>
    obtain ⟨child, member, own⟩ := List.mem_filterMap.1 (List.mem_of_mem_head? first)
    cases child with
    | leaf leaf =>
      cases own
      exact Tree.leaves_subset member (List.mem_singleton_self _)
    | node kind grandchildren => cases own
  | owner found h ih => exact Tree.leaves_subset (List.mem_of_find?_eq_some found) ih
  | argument member isArgument h ih => exact Tree.leaves_subset member ih
  | part ordinary member h ih => exact Tree.leaves_subset member ih

theorem Shows.respell {tree : Tree} {token : Token} (h : Shows tree token)
    (f : Token → Token) :
    Shows (tree.respell f) (f token) := by
  induction h with
  | @primary children token first =>
    rw [Tree.respell_node]
    refine .primary ?_
    rw [← Tree.respell_node, Tree.childTokens_respell, List.head?_map, first,
      Option.map_some]
  | @owner children owner token found h ih =>
    rw [Tree.respell_node]
    refine .owner ?_ ih
    have same : Tree.isNode ∘ Tree.respell f = Tree.isNode :=
      funext (Tree.isNode_respell f)
    rw [List.find?_map, same, found, Option.map_some]
  | argument member isArgument h ih =>
    rw [Tree.respell_node]
    exact .argument (List.mem_map_of_mem member) (by rwa [Tree.hasKind_respell]) ih
  | part ordinary member h ih =>
    rw [Tree.respell_node]
    exact .part ordinary (List.mem_map_of_mem member) ih

/-! ### Floating literals -/

theorem demandFirst_eq (scope : Scope) (trees : List Tree) (query : Query) :
    demandFirst scope trees query =
      (trees.find? Tree.isNode).elim (false, query) fun owner =>
        demand scope owner query := by
  induction trees with
  | nil =>
    rw [demandFirst]
    rfl
  | cons tree trees ih =>
    rw [demandFirst]
    split_ifs with isNode
    · rw [List.find?_cons_of_pos isNode]
      rfl
    · rw [List.find?_cons_of_neg isNode, ih]

theorem demandAll_of_mem {scope : Scope} {trees : List Tree} {tree : Tree}
    (member : tree ∈ trees) (h : ∀ query, (demand scope tree query).1 = true)
    (query : Query) :
    (demandAll scope trees query).1 = true := by
  induction trees generalizing query with
  | nil => cases member
  | cons first others ih =>
    rw [demandAll]
    rcases List.mem_cons.1 member with rfl | later
    · simp [h]
    · simp [ih later]

theorem demandArguments_of_mem {scope : Scope} {trees : List Tree} {tree : Tree}
    (member : tree ∈ trees) (isArgument : tree.hasKind .assignmentExpression)
    (h : ∀ query, (demand scope tree query).1 = true) (query : Query) :
    (demandArguments scope trees query).1 = true := by
  induction trees generalizing query with
  | nil => cases member
  | cons first others ih =>
    rw [demandArguments]
    rcases List.mem_cons.1 member with rfl | later
    · simp [isArgument, h]
    · split_ifs
      · simp [ih later]
      · exact ih later query

theorem memberDemand_of_owner (field : Option Token) (owner : Except Finding (Option Ty))
    (query : Query) : (memberDemand field owner true query).1 = true := by
  unfold memberDemand
  repeat' split
  all_goals rfl

/-- An expression that shows a floating literal demands floating operands. -/
theorem demand_of_shows {scope : Scope} {tree : Tree} {token : Token}
    (h : Shows tree token) (isFloat : token.kind = .floatLiteral) (query : Query) :
    (demand scope tree query).1 = true := by
  induction h generalizing query with
  | primary first => simp [demand, primaryDemand, first, isFloat]
  | owner found h ih =>
    simp only [demand, demandFirst_eq, found, Option.elim_some, ih isFloat]
    exact memberDemand_of_owner _ _ _
  | argument member isArgument h ih =>
    rw [demand]
    exact demandArguments_of_mem member isArgument (ih isFloat) query
  | @part kind children child token ordinary member h ih =>
    have all := demandAll_of_mem member (ih isFloat) query
    cases kind <;> simp_all [demand]

/-! ### Types -/

/-- The type that an answer tells. Dull types tell as little as none. -/
def told : Except Finding (Option Ty) → Option Ty
  | .ok (some ty) => if ty.isDull then none else some ty
  | _ => none

theorem told_eq_some {answer : Except Finding (Option Ty)} {ty : Ty}
    (h : told answer = some ty) :
    answer = .ok (some ty) := by
  unfold told at h
  split at h
  · split_ifs at h
    cases h
    rfl
  · cases h

/-- An answer that tells nothing. -/
theorem told_eq_none {answer : Except Finding (Option Ty)} (h : told answer = none) :
    (∃ finding, answer = .error finding) ∨ answer = .ok none ∨
      ∃ ty : Ty, answer = .ok (some ty) ∧ ty.isDull := by
  match answer, h with
  | .error finding, _ => exact Or.inl ⟨finding, rfl⟩
  | .ok none, _ => exact Or.inr (Or.inl rfl)
  | .ok (some ty), h =>
    refine Or.inr (Or.inr ⟨ty, rfl, ?_⟩)
    by_contra bright
    simp [told, bright] at h

theorem typeOfNth_eq (scope : Scope) (n : Nat) (trees : List Tree) :
    typeOfNth scope n trees =
      ((trees.filter Tree.isNode)[n]?.map (typeOf scope)).getD (.ok none) := by
  induction trees generalizing n with
  | nil =>
    rw [typeOfNth]
    rfl
  | cons tree trees ih =>
    rw [typeOfNth.eq_def]
    cases isNode : tree.isNode with
    | false => simp [isNode, ih]
    | true => cases n <;> simp [isNode, ih]

/-- What is told of a member, from what is told of its owner. -/
theorem told_fieldSelection (scope : Scope) {children : List Tree} {field : Token}
    (named : (Tree.node .fieldSelection children).identifier? = some field) :
    told (typeOf scope (.node .fieldSelection children)) =
      (told (typeOfNth scope 0 children)).bind fun owner =>
        told (.ok (owner.member field.text).toOption) := by
  rw [typeOf]
  simp only [named]
  cases shape : told (typeOfNth scope 0 children) with
  | some owner =>
    rw [told_eq_some shape]
    cases result : owner.member field.text <;> simp [result, told, Except.toOption]
  | none =>
    rcases told_eq_none shape with ⟨finding, shape⟩ | shape | ⟨ty, shape, isDull⟩
    · rw [shape]
      rfl
    · rw [shape]
      rfl
    · obtain ⟨cause, noMember⟩ := Ty.member_of_isDull isDull field.text
      simp [shape, noMember, told]

theorem told_indexExpression (scope : Scope) {children : List Tree}
    (noArray : (Tree.node .indexExpression children).childNodes.head?.bind (arrayElement? scope) =
      none) :
    told (typeOf scope (.node .indexExpression children)) =
      (told (typeOfNth scope 0 children)).bind fun owner =>
        told (.ok owner.element?) := by
  rw [typeOf]
  simp only [noArray]
  cases shape : told (typeOfNth scope 0 children) with
  | some owner =>
    rw [told_eq_some shape]
    rfl
  | none =>
    rcases told_eq_none shape with ⟨finding, shape⟩ | shape | ⟨ty, shape, isDull⟩
    · rw [shape]
      rfl
    · rw [shape]
      rfl
    · rw [shape]
      simp [Except.map, Ty.element?_of_isDull isDull, told]

/-- The one result on which overloads agree. -/
def agreed? : List Signature → Option Ty
  | [] => none
  | first :: others =>
    if others.all (·.result.same first.result) then some first.result else none

theorem typeOfCall?_eq (scope : Scope) (call : Tree) :
    typeOfCall? scope call =
      call.callName?.bind fun name =>
        (scope.type? name).or (agreed? (scope.overloads name)) := by
  unfold typeOfCall? agreed?
  congr 1
  funext name
  cases scope.type? name with
  | none => cases scope.overloads name <;> rfl
  | some ty => rfl

/-- Overloads that are alike agree on the same, as far as it is told. -/
theorem told_agreed {overloads overloads' : List Signature}
    (h : List.Forall₂ Signature.Alike overloads overloads') :
    told (.ok (agreed? overloads')) = told (.ok (agreed? overloads)) := by
  cases h with
  | nil => rfl
  | @cons first first' others others' alikeFirst alikeOthers =>
    have dull : ∀ (ty : Ty) (condition : Bool), ty.isDull →
        told (.ok (if condition then some ty else none)) = none := by
      intro ty condition isDull
      cases condition <;> simp [told, isDull]
    rcases alikeFirst.result with ⟨same, isWord⟩ | ⟨nameless, nameless'⟩
    · have agree : others'.all (·.result.same first.result) =
          others.all (·.result.same first.result) := by
        induction alikeOthers with
        | nil => rfl
        | @cons other other' _ _ alikeOther _ ih =>
          rw [List.all_cons, List.all_cons, ih]
          congr 1
          rcases alikeOther.result with ⟨same', -⟩ | ⟨nameless, nameless'⟩
          · rw [same']
          · -- Nameless results have not the name of the first one.
            have apart : ∀ {ty : Ty}, ty.IsNameless → ty.same first.result = false := by
              intro ty nameless
              simp only [Ty.same, decide_eq_false_iff_not]
              intro equal
              exact nameless.2 (equal ▸ isWord)
            rw [apart nameless, apart nameless']
      simp only [agreed?, same, agree]
    · simp only [agreed?, dull _ _ nameless.1, dull _ _ nameless'.1]

section Alike

variable {f : Token → Token} {scope scope' : Scope} (respelling : Respelling f)
  (alike : scope.Alike scope')
include respelling alike

theorem told_typeOfCall {children : List Tree}
    (grammatical : (Tree.node .functionCall children).Grammatical) :
    told (.ok (typeOfCall? scope' ((Tree.node .functionCall children).respell f))) =
      told (.ok (typeOfCall? scope (.node .functionCall children))) := by
  rw [typeOfCall?_eq, typeOfCall?_eq, respelling.callName?_respell grammatical]
  cases (Tree.node .functionCall children).callName? with
  | none => rfl
  | some name =>
    simp only [Option.bind_some, alike.type?_eq]
    cases scope.type? name with
    | some ty => rfl
    | none => exact told_agreed (alike.overloads name)

theorem arrayElement?_respell (tree : Tree) :
    arrayElement? scope' (tree.respell f) = arrayElement? scope tree := by
  simp [arrayElement?, respelling.identifier?_respell, alike.lookup?_eq]

omit respelling in
theorem typeOfPrimary?_respell {children : List Tree}
    (fixed : ∀ token, Shows (.node .primaryExpression children) token → f token = token) :
    typeOfPrimary? scope' ((Tree.node .primaryExpression children).respell f) =
      typeOfPrimary? scope (.node .primaryExpression children) := by
  rw [typeOfPrimary?, Tree.childTokens_respell, List.head?_map, typeOfPrimary?]
  cases first : (Tree.node .primaryExpression children).childTokens.head? with
  | none => rfl
  | some token =>
    simp only [Option.map_some, Option.bind_some, fixed token (.primary first),
      alike.lookup?_eq, alike.type?_eq]

omit respelling alike in
theorem told_typeOfNth {n : Nat} {trees : List Tree}
    (h : ∀ tree, (trees.filter Tree.isNode)[n]? = some tree →
      told (typeOf scope' (tree.respell f)) = told (typeOf scope tree)) :
    told (typeOfNth scope' n (trees.map (Tree.respell f))) =
      told (typeOfNth scope n trees) := by
  have same : Tree.isNode ∘ Tree.respell f = Tree.isNode := funext (Tree.isNode_respell f)
  rw [typeOfNth_eq, typeOfNth_eq, List.filter_map, same, List.getElem?_map]
  cases nth : (trees.filter Tree.isNode)[n]? with
  | none => rfl
  | some tree => exact h tree nth

omit respelling alike in
theorem told_typeOfOwner {trees : List Tree}
    (h : ∀ owner, trees.find? Tree.isNode = some owner →
      told (typeOf scope' (owner.respell f)) = told (typeOf scope owner)) :
    told (typeOfNth scope' 0 (trees.map (Tree.respell f))) =
      told (typeOfNth scope 0 trees) := by
  refine told_typeOfNth fun owner found => h owner ?_
  rwa [← List.head?_eq_getElem?, List.head?_filter] at found

omit alike in
/-- A member is told of as far as its owner is. -/
theorem told_fieldSelection_respell {children : List Tree}
    (owner : told (typeOfNth scope' 0 (children.map (Tree.respell f))) =
      told (typeOfNth scope 0 children)) :
    told (typeOf scope' ((Tree.node .fieldSelection children).respell f)) =
      told (typeOf scope (.node .fieldSelection children)) := by
  have named := respelling.identifier?_respell (.node .fieldSelection children)
  rw [Tree.respell_node] at named ⊢
  cases field : (Tree.node .fieldSelection children).identifier? with
  | none =>
    rw [field] at named
    simp only [typeOf, field, named]
  | some field' =>
    rw [field] at named
    rw [told_fieldSelection scope field, told_fieldSelection scope' named, owner]

/-- An element is that of a declared array, or is told of as far as the indexed
operand is. -/
theorem told_indexExpression_respell {children : List Tree}
    (operand : told (typeOfNth scope' 0 (children.map (Tree.respell f))) =
      told (typeOfNth scope 0 children)) :
    told (typeOf scope' ((Tree.node .indexExpression children).respell f)) =
      told (typeOf scope (.node .indexExpression children)) := by
  have elements : ((Tree.node .indexExpression children).respell f).childNodes.head?.bind
      (arrayElement? scope') =
      (Tree.node .indexExpression children).childNodes.head?.bind (arrayElement? scope) := by
    rw [Tree.childNodes_respell, List.head?_map]
    cases (Tree.node .indexExpression children).childNodes.head? with
    | none => rfl
    | some array => exact arrayElement?_respell respelling alike array
  rw [Tree.respell_node] at elements ⊢
  cases element : (Tree.node .indexExpression children).childNodes.head?.bind
      (arrayElement? scope) with
  | some ty =>
    rw [element] at elements
    simp only [typeOf, element, elements]
  | none =>
    rw [element] at elements
    rw [told_indexExpression scope element, told_indexExpression scope' elements, operand]

/-- Where no shown token changes, the same is told of a type. -/
theorem told_typeOf {tree : Tree} (grammatical : tree.Grammatical)
    (fixed : ∀ token, Shows tree token → f token = token) :
    told (typeOf scope' (tree.respell f)) = told (typeOf scope tree) := by
  induction grammatical with
  | leaf token => simp [typeOf]
  | @node kind children form below ih =>
    have whole : (Tree.node kind children).Grammatical := .node form below
    by_cases isPrimary : kind = .primaryExpression
    · subst isPrimary
      have same := typeOfPrimary?_respell alike fixed
      rw [Tree.respell_node] at same ⊢
      rw [typeOf, typeOf, same]
    by_cases isMember : kind = .fieldSelection
    · subst isMember
      refine told_fieldSelection_respell respelling (told_typeOfOwner fun owner found => ?_)
      exact ih owner (List.mem_of_find?_eq_some found) fun token shown =>
        fixed token (.owner found shown)
    by_cases isCall : kind = .functionCall
    · subst isCall
      have same := told_typeOfCall respelling alike whole
      rw [Tree.respell_node] at same ⊢
      rw [typeOf, typeOf, same]
    have parts : ∀ n, told (typeOfNth scope' n (children.map (Tree.respell f))) =
        told (typeOfNth scope n children) := by
      refine fun n => told_typeOfNth fun tree found => ?_
      have member := (List.mem_filter.1 (List.mem_of_getElem? found)).1
      exact ih tree member fun token shown =>
        fixed token (.part ⟨isPrimary, isMember, isCall⟩ member shown)
    by_cases isIndex : kind = .indexExpression
    · subst isIndex
      exact told_indexExpression_respell respelling alike (parts 0)
    have length := congrArg List.length (Tree.childNodes_respell f (.node kind children))
    rw [Tree.respell_node, List.length_map] at length
    rw [Tree.respell_node]
    cases kind <;> simp_all [typeOf]

end Alike

/-! ### Demands -/

/-- Two answers with what the queries keep of the operands. -/
def SameDemand (answer answer' : Bool × Query) : Prop :=
  answer'.1 = answer.1 ∧ answer'.2.recent = answer.2.recent

/-- What is told of the owner decides about a member. -/
theorem memberDemand_alike {field : Option Token}
    {owner owner' : Except Finding (Option Ty)} (same : told owner' = told owner)
    {answer answer' : Bool × Query} (h : SameDemand answer answer') :
    SameDemand (memberDemand field owner answer.1 answer.2)
      (memberDemand field owner' answer'.1 answer'.2) := by
  obtain ⟨first, recent⟩ := h
  cases field with
  | none => exact ⟨first, recent⟩
  | some field =>
    have silent : ∀ {owner : Except Finding (Option Ty)} (fromOwner : Bool) (query : Query),
        told owner = none →
          (memberDemand (some field) owner fromOwner query).1 = fromOwner ∧
            (memberDemand (some field) owner fromOwner query).2.recent =
              query.recent := by
      intro owner fromOwner query nothing
      rcases told_eq_none nothing with ⟨finding, rfl⟩ | rfl | ⟨ty, rfl, isDull⟩
      · exact ⟨rfl, rfl⟩
      · exact ⟨rfl, rfl⟩
      · obtain ⟨cause, noMember⟩ := Ty.member_of_isDull isDull field.text
        simp [memberDemand, noMember, Query.report]
    cases type : told owner with
    | none =>
      rw [type] at same
      have quiet := silent answer.1 answer.2 type
      have quiet' := silent answer'.1 answer'.2 same
      exact ⟨by rw [quiet.1, quiet'.1, first], by rw [quiet.2, quiet'.2, recent]⟩
    | some ty =>
      rw [type] at same
      rw [told_eq_some type, told_eq_some same]
      simp only [memberDemand]
      cases ty.member field.text with
      | ok member => exact ⟨by simp [first], rfl⟩
      | error cause => exact ⟨first, recent⟩

section Alike

variable {f : Token → Token} {scope scope' : Scope} (respelling : Respelling f)
  (alike : scope.Alike scope')

include alike in
theorem primaryDemand_alike {children : List Tree}
    (fixed : ∀ token, Shows (.node .primaryExpression children) token → f token = token)
    {query query' : Query} (recent : query'.recent = query.recent) :
    SameDemand (primaryDemand scope (.node .primaryExpression children) query)
      (primaryDemand scope' ((Tree.node .primaryExpression children).respell f) query') := by
  rw [primaryDemand, primaryDemand, Tree.childTokens_respell, List.head?_map]
  cases first : (Tree.node .primaryExpression children).childTokens.head? with
  | none => exact ⟨rfl, recent⟩
  | some token =>
    rw [Option.map_some, fixed token (.primary first)]
    cases kind : token.kind with
    | intLiteral => exact ⟨by simp [kind, recent], by simp [kind, recent]⟩
    | identifier =>
      have length := (alike.overloads token.text).length_eq
      have listed : (scope'.overloads token.text).isEmpty =
          (scope.overloads token.text).isEmpty := by
        rw [Bool.eq_iff_iff, List.isEmpty_iff_length_eq_zero,
          List.isEmpty_iff_length_eq_zero, length]
      simp only [kind, alike.lookup?_eq, listed]
      cases scope.lookup? token.text with
      | some found => exact ⟨rfl, rfl⟩
      | none => split_ifs <;> exact ⟨rfl, recent⟩
    | _ => exact ⟨by simp [kind], by simp [kind, recent]⟩

/-- Demands of a list of siblings. -/
theorem demandAll_alike {trees : List Tree}
    (h : ∀ tree ∈ trees, ∀ query query' : Query, query'.recent = query.recent →
      SameDemand (demand scope tree query) (demand scope' (tree.respell f) query'))
    {query query' : Query} (recent : query'.recent = query.recent) :
    SameDemand (demandAll scope trees query)
      (demandAll scope' (trees.map (Tree.respell f)) query') := by
  induction trees generalizing query query' with
  | nil => exact ⟨rfl, recent⟩
  | cons tree trees ih =>
    obtain ⟨first, recent⟩ := h tree List.mem_cons_self query query' recent
    obtain ⟨others, recent⟩ :=
      ih (fun tree member => h tree (List.mem_cons_of_mem _ member)) recent
    rw [List.map_cons, demandAll, demandAll]
    exact ⟨by simp only [first, others], recent⟩

theorem demandArguments_alike {trees : List Tree}
    (h : ∀ tree ∈ trees, tree.hasKind .assignmentExpression → ∀ query query' : Query,
      query'.recent = query.recent →
        SameDemand (demand scope tree query) (demand scope' (tree.respell f) query'))
    {query query' : Query} (recent : query'.recent = query.recent) :
    SameDemand (demandArguments scope trees query)
      (demandArguments scope' (trees.map (Tree.respell f)) query') := by
  induction trees generalizing query query' with
  | nil => exact ⟨rfl, recent⟩
  | cons tree trees ih =>
    have behind := fun tree member => h tree (List.mem_cons_of_mem _ member)
    rw [List.map_cons, demandArguments, demandArguments, Tree.hasKind_respell]
    split_ifs with isArgument
    · obtain ⟨first, recent⟩ := h tree List.mem_cons_self isArgument query query' recent
      obtain ⟨others, recent⟩ := ih behind recent
      exact ⟨by simp only [first, others], recent⟩
    · exact ih behind recent

theorem demandFirst_alike {trees : List Tree}
    (h : ∀ owner, trees.find? Tree.isNode = some owner → ∀ query query' : Query,
      query'.recent = query.recent →
        SameDemand (demand scope owner query) (demand scope' (owner.respell f) query'))
    {query query' : Query} (recent : query'.recent = query.recent) :
    SameDemand (demandFirst scope trees query)
      (demandFirst scope' (trees.map (Tree.respell f)) query') := by
  have nodes : Tree.isNode ∘ Tree.respell f = Tree.isNode :=
    funext (Tree.isNode_respell f)
  rw [demandFirst_eq, demandFirst_eq, List.find?_map, nodes]
  cases found : trees.find? Tree.isNode with
  | none => exact ⟨rfl, recent⟩
  | some owner => exact h owner found query query' recent

include respelling alike in
/-- Where no shown token changes, the demands of an expression stay as they
are. -/
theorem demand_alike {tree : Tree} (grammatical : tree.Grammatical)
    (fixed : ∀ token, Shows tree token → f token = token) (query query' : Query)
    (recent : query'.recent = query.recent) :
    SameDemand (demand scope tree query) (demand scope' (tree.respell f) query') := by
  induction grammatical generalizing query query' with
  | leaf token =>
    rw [Tree.respell_leaf, demand, demand]
    exact ⟨rfl, recent⟩
  | @node kind children form below ih =>
    by_cases isPrimary : kind = .primaryExpression
    · subst isPrimary
      have same := primaryDemand_alike alike fixed recent
      rw [Tree.respell_node] at same ⊢
      rw [demand, demand]
      exact same
    by_cases isMember : kind = .fieldSelection
    · subst isMember
      have first : ∀ owner, children.find? Tree.isNode = some owner →
          ∀ token, Shows owner token → f token = token :=
        fun owner found token shown => fixed token (.owner found shown)
      have owner := demandFirst_alike (fun owner found query query' recent =>
        ih owner (List.mem_of_find?_eq_some found) (first owner found) query query' recent) recent
      have type := told_typeOfOwner fun owner found =>
        told_typeOf respelling alike (below owner (List.mem_of_find?_eq_some found))
          (first owner found)
      have named := respelling.identifier?_respell (.node .fieldSelection children)
      rw [Tree.respell_node] at named ⊢
      rw [demand, demand, named]
      exact memberDemand_alike type owner
    by_cases isCall : kind = .functionCall
    · subst isCall
      rw [Tree.respell_node, demand, demand]
      refine demandArguments_alike (fun tree member isArgument query query' recent => ?_) recent
      exact ih tree member (fun token shown => fixed token (.argument member isArgument shown)) _ _
        recent
    have all : SameDemand (demandAll scope children query)
        (demandAll scope' (children.map (Tree.respell f)) query') := by
      refine demandAll_alike (fun tree member query query' recent => ?_) recent
      exact ih tree member (fun token shown =>
        fixed token (.part ⟨isPrimary, isMember, isCall⟩ member shown)) _ _ recent
    rw [Tree.respell_node]
    by_cases isAssignment : kind = .assignmentExpression
    · subst isAssignment
      rw [demand, demand]
      exact ⟨all.1, rfl⟩
    · have plain : ∀ scope children query, demand scope (.node kind children) query =
          demandAll scope children query := by
        intro scope children query
        rw [demand] <;> assumption
      rw [plain, plain]
      exact all

end Alike

/-! ### Calls -/

/-- A decimal literal, and the floating one in its place. -/
structure IsPromoted (token token' : Token) : Prop where
  isInt : token.kind = .intLiteral
  digits : isDigits token.text.toList
  kind : token'.kind = .floatLiteral
  text : token'.text = token.text ++ ".0"

theorem not_isWord_of_isDigits {text : String} (h : isDigits text.toList) :
    ¬ IsWord text := by
  rintro ⟨c, cs, shape, isStart, -⟩
  have digit := List.all_eq_true.1 (Bool.and_eq_true_iff.1 h).2 c (by simp [shape])
  rw [Literal.isDigit_of_isWordStart isStart] at digit
  cases digit

namespace IsPromoted

variable {token token' : Token} (h : IsPromoted token token')
include h

theorem mem_point : '.' ∈ token'.text.toList := by
  simp [h.text]

theorem not_isWord : ¬ IsWord token'.text := by
  intro isWord
  have part := isWord.isWordPart h.mem_point
  cases part

theorem not_isDigits : isDigits token'.text.toList = false := by
  refine Bool.eq_false_iff.2 fun digits => ?_
  have digit := List.all_eq_true.1 (Bool.and_eq_true_iff.1 digits).2 _ h.mem_point
  cases digit

theorem isPlainFloat : isPlainFloat token'.text.toList := by
  have digits := (Bool.and_eq_true_iff.1 h.digits).2
  have before : ∀ c ∈ token.text.toList, decide (c ≠ '.') = true := by
    intro c member
    have digit := List.all_eq_true.1 digits c member
    simp only [decide_eq_true_eq]
    rintro rfl
    cases digit
  have whole : (token'.text.toList).takeWhile (· ≠ '.') = token.text.toList := by
    rw [h.text, String.toList_append, List.takeWhile_append_of_pos before]
    simp
  have fraction : (token'.text.toList).dropWhile (· ≠ '.') = ['.', '0'] := by
    rw [h.text, String.toList_append, List.dropWhile_append_of_pos before]
    rfl
  rw [Inference.isPlainFloat, fraction, whole]
  simp only [h.digits, Bool.true_and]
  rfl

end IsPromoted

/-- The type of an argument after respelling: an integer may be floating. -/
def Retyped (type type' : Option String) : Prop :=
  type' = type ∨ type = some "int" ∧ type' = some "float"

theorem Retyped.fits {type type' : Option String} (h : Retyped type type') {param : Ty}
    (fitting : Inference.fits type' param) : Inference.fits type param := by
  rcases h with rfl | ⟨rfl, rfl⟩
  · exact fitting
  · simp_all [Inference.fits, Ty.isFloat]

/-- Retyped arguments fit no more than before. -/
theorem fitsAll_of_retyped {types types' : List (Option String)}
    (h : List.Forall₂ Retyped types types') {params : List Ty}
    (fitting : fitsAll types' params) :
    fitsAll types params := by
  induction h generalizing params with
  | nil => exact fitting
  | cons first others ih =>
    cases params with
    | nil => cases fitting
    | cons param params =>
      obtain ⟨here, behind⟩ := Bool.and_eq_true_iff.1 fitting
      exact Bool.and_eq_true_iff.2 ⟨first.fits here, ih behind⟩

/-- Arguments still fit where floating parameters stand for the retyped ones. -/
theorem fitsAll_retyped {types types' : List (Option String)}
    (h : List.Forall₂ Retyped types types') {params : List Ty}
    (fitting : fitsAll types params)
    (expected : ∀ i : Nat, types'[i]? ≠ types[i]? → (params.map Ty.isFloat)[i]? = some true) :
    fitsAll types' params := by
  induction h generalizing params with
  | nil => exact fitting
  | @cons type type' types types' first others ih =>
    cases params with
    | nil => cases fitting
    | cons param params =>
      obtain ⟨here, behind⟩ := Bool.and_eq_true_iff.1 fitting
      refine Bool.and_eq_true_iff.2 ⟨?_, ih behind fun i apart =>
        expected (i + 1) (by simpa using apart)⟩
      by_cases same : type' = type
      · rw [same]
        exact here
      · have isFloat : param.isFloat := by simpa using expected 0 (by simpa using same)
        obtain ⟨-, rfl⟩ := first.resolve_left same
        simpa [fits, Ty.isFloat, eq_comm] using isFloat

theorem floatFlags?_eq (scope : Scope) (name : String) (types : List (Option String)) :
    floatFlags? scope name types =
      (((scope.overloads name).map Signature.params).find? (fitsAll types)).map
        (List.map Ty.isFloat) := by
  rw [floatFlags?, List.find?_map, Option.map_map]
  rfl

/-- Retyped arguments choose the same overload. -/
theorem find?_retyped {types types' : List (Option String)}
    (h : List.Forall₂ Retyped types types') (overloads : List (List Ty))
    (expected : ∀ params, overloads.find? (fitsAll types) = some params →
      ∀ i : Nat, types'[i]? ≠ types[i]? → (params.map Ty.isFloat)[i]? = some true) :
    overloads.find? (fitsAll types') = overloads.find? (fitsAll types) := by
  induction overloads with
  | nil => rfl
  | cons params overloads ih =>
    by_cases fitting : fitsAll types params
    · have chosen : (params :: overloads).find? (fitsAll types) = some params :=
        List.find?_cons_of_pos fitting
      rw [chosen, List.find?_cons_of_pos (fitsAll_retyped h fitting (expected params chosen))]
    · have skipped : (params :: overloads).find? (fitsAll types) =
          overloads.find? (fitsAll types) :=
        List.find?_cons_of_neg fitting
      rw [skipped] at expected ⊢
      rw [List.find?_cons_of_neg fun fitting' => fitting (fitsAll_of_retyped h fitting')]
      exact ih expected

/-- The argument that is a single token. -/
def single (token : Token) : Tree :=
  .node .assignmentExpression [.node .primaryExpression [.leaf token]]

theorem text_single (token : Token) : (single token).text = token.text := by
  simp [single, Tree.text]

theorem respell_single (f : Token → Token) (token : Token) :
    (single token).respell f = single (f token) := by
  simp [single]

section Alike

variable {f : Token → Token} {scope scope' : Scope} (respelling : Respelling f)
  (alike : scope.Alike scope')
include respelling alike

/-- The type told of an argument changes only where it is a promoted literal. -/
theorem argumentType?_alike {argument : Tree} (sound : argument.IsSound)
    (isArgument : argument.hasKind .assignmentExpression)
    (promoted : ∀ token ∈ argument.leaves, f token = token ∨ IsPromoted token (f token)) :
    argumentType? scope' (argument.respell f) = argumentType? scope argument ∨
      ∃ token, argument = single token ∧ f token ≠ token ∧
        argumentType? scope argument = some "int" ∧
        argumentType? scope' (argument.respell f) = some "float" := by
  obtain ⟨children, rfl⟩ := Tree.exists_children_of_hasKind isArgument
  rcases argument_single_or_compound sound.grammatical sound.words with ⟨token, rfl⟩ | compound
  · change argumentType? scope' ((single token).respell f) =
      argumentType? scope (single token) ∨ _
    rw [respell_single]
    rcases promoted token (by simp) with same | becomes
    · left
      rw [same, argumentType?, argumentType?, alike.lookup?_eq]
    · refine Or.inr ⟨token, rfl, ?_, ?_, ?_⟩
      · intro same
        have kind := becomes.kind
        rw [same, becomes.isInt] at kind
        cases kind
      · change argumentType? scope (single token) = _
        simp only [argumentType?, text_single]
        rw [alike.lookup?_of_not_isWord (not_isWord_of_isDigits becomes.digits)]
        simp [becomes.digits]
      · change argumentType? scope' ((single token).respell f) = _
        simp only [respell_single, argumentType?, text_single]
        rw [alike.lookup?_eq, alike.lookup?_of_not_isWord becomes.not_isWord]
        simp [becomes.not_isDigits, becomes.isPlainFloat]
  · left
    have compound : Compound (Tree.node .assignmentExpression children).leaves := compound
    have compound' : Compound ((Tree.node .assignmentExpression children).respell f).leaves := by
      rw [Tree.leaves_respell]
      exact compound.map respelling
    have nothing : ∀ {scope : Scope} {tree : Tree}, scope.lookup? tree.text = none →
        Compound tree.leaves → argumentType? scope tree = none := by
      intro scope tree unknown compound
      simp [argumentType?, unknown, compound.isDigits_eq_false,
        compound.isPlainFloat_eq_false]
    rw [nothing (alike.lookup?_of_not_isWord compound.not_isWord) compound,
      nothing _ compound']
    rw [alike.lookup?_eq, alike.lookup?_of_not_isWord compound'.not_isWord]

omit respelling alike in
theorem map_params {overloads overloads' : List Signature}
    (h : List.Forall₂ Signature.Alike overloads overloads') :
    overloads'.map Signature.params = overloads.map Signature.params := by
  induction h with
  | nil => rfl
  | cons first _ ih => rw [List.map_cons, first.params, ih, List.map_cons]

/-- A call expects the same of its arguments, where those that are promoted
literals were expected to be floating. -/
theorem callFlags_alike {children : List Tree}
    (sound : (Tree.node .functionCall children).IsSound)
    (promoted : ∀ token ∈ Tree.leavesAll children, f token = token ∨
      IsPromoted token (f token))
    (expected : ∀ (i : Nat) (token : Token),
      (Tree.node .functionCall children).arguments[i]? = some (single token) →
        f token ≠ token → (callFlags scope (.node .functionCall children))[i]? = some true) :
    callFlags scope' ((Tree.node .functionCall children).respell f) =
      callFlags scope (.node .functionCall children) := by
  unfold callFlags at expected ⊢
  rw [respelling.callName?_respell sound.grammatical, Tree.arguments_respell,
    List.map_map]
  cases called : (Tree.node .functionCall children).callName? with
  | none => rfl
  | some name =>
    simp only [called, Option.bind_some, floatFlags?_eq, map_params (alike.overloads name)]
      at expected ⊢
    have told : ∀ argument ∈ (Tree.node .functionCall children).arguments,
        argumentType? scope' (argument.respell f) = argumentType? scope argument ∨
          ∃ token, argument = single token ∧ f token ≠ token ∧
            argumentType? scope argument = some "int" ∧
            argumentType? scope' (argument.respell f) = some "float" := by
      intro argument member
      obtain ⟨listed, isArgument⟩ := List.mem_filter.1 member
      exact argumentType?_alike respelling alike (sound.child listed) isArgument
        fun token below => promoted token (Tree.leaves_subset listed below)
    have retyped : List.Forall₂ Retyped
        ((Tree.node .functionCall children).arguments.map (argumentType? scope))
        ((Tree.node .functionCall children).arguments.map
          (argumentType? scope' ∘ Tree.respell f)) := by
      refine List.forall₂_map_left_iff.2 (List.forall₂_map_right_iff.2 ?_)
      refine List.forall₂_same.2 fun argument member => ?_
      rcases told argument member with same | ⟨token, -, -, isInt, isFloat⟩
      · exact Or.inl same
      · exact Or.inr ⟨isInt, isFloat⟩
    rw [find?_retyped retyped]
    intro params chosen i apart
    rw [chosen] at expected
    -- The types differ at `i`, so that argument is a promoted literal.
    rw [List.getElem?_map, List.getElem?_map] at apart
    cases nth : (Tree.node .functionCall children).arguments[i]? with
    | none => simp [nth] at apart
    | some argument =>
      rcases told argument (List.mem_of_getElem? nth) with same | ⟨token, rfl, changed, -⟩
      · simp [nth, same] at apart
      · simpa using expected i token nth changed

end Alike

end ShaderDialect.Inference
