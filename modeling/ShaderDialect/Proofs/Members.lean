import ShaderDialect.Proofs.Idempotence
import ShaderDialect.Proofs.WrittenNames

/-!
# Members of structs and blocks

When the walk leaves a struct or an interface block, a type with one field for
each name of its members is known, with its constructor. The names of a member
are its identifiers, contextual qualifiers included. The members of a block
without an instance name are variables too, which are read from the same nodes
in another way.
-/

namespace ShaderDialect

/-! ### Fields that are added one after the other -/

namespace Ty

/-- Fields that result from adding named types one after the other: every name
once, where it stands first, with the type that is added last. -/
structure Collected (added fields : List (String × Ty)) : Prop where
  names : fields.map Prod.fst = (added.map Prod.fst).eraseDups
  types : ∀ name, fields.lookup name = added.reverse.lookup name

theorem map_fst_insertField (fields : List (String × Ty)) (field : String) (ty : Ty) :
    (insertField fields field ty).map Prod.fst =
      fields.map Prod.fst ++ ([field].removeAll (fields.map Prod.fst)) := by
  induction fields with
  | nil => rfl
  | cons first fields ih =>
    obtain ⟨other, old⟩ := first
    rw [insertField]
    split_ifs with same
    · simp [same, List.removeAll]
    · rw [List.map_cons, ih, List.map_cons, List.removeAll_cons, List.cons_append]
      simp [Ne.symm same]

theorem lookup_field (field : String × Ty) (fields : List (String × Ty)) (name : String) :
    (field :: fields).lookup name =
      if name = field.1 then some field.2 else fields.lookup name := by
  obtain ⟨other, ty⟩ := field
  split_ifs with named
  · rw [named, List.lookup_cons_self]
  · rw [List.lookup_cons, beq_eq_false_iff_ne.2 named]

theorem lookup_insertField (fields : List (String × Ty)) (field : String) (ty : Ty)
    (name : String) :
    (insertField fields field ty).lookup name =
      if name = field then some ty else fields.lookup name := by
  induction fields with
  | nil => exact lookup_field (field, ty) [] name
  | cons first fields ih =>
    obtain ⟨other, old⟩ := first
    by_cases same : other = field
    · rw [insertField, if_pos same, lookup_field, lookup_field]
      subst same
      split_ifs <;> rfl
    · rw [insertField, if_neg same, lookup_field, lookup_field, ih]
      by_cases named : name = other
      · subst named
        simp [same]
      · simp [named]

/-- The fields of a struct are collected. -/
theorem exists_collected (name : String) (added : List (String × Ty)) :
    ∃ fields, structOf name added = .struct name fields ∧ Collected added fields := by
  refine ⟨_, rfl, ?_⟩
  -- From the end, since that is where the fold adds a field.
  induction added using List.reverseRecOn with
  | nil => exact ⟨rfl, fun _ => rfl⟩
  | append_singleton added last ih =>
    obtain ⟨field, ty⟩ := last
    rw [List.foldl_append, List.foldl_cons, List.foldl_nil]
    constructor
    · rw [map_fst_insertField, ih.names, List.map_append, List.eraseDups_append]
      by_cases known : field ∈ added.map Prod.fst <;>
        simp only [List.removeAll] <;> simp_all [List.eraseDups_cons]
    · intro name
      rw [lookup_insertField, ih.types, List.reverse_append]
      exact (lookup_field (field, ty) added.reverse name).symm

end Ty

/-! ### Fields of members -/

namespace Tree

def members (tree : Tree) : List Tree :=
  tree.children.filter (·.hasKind .structMember)

/-- The struct that a member declares in the place of its type. -/
def ownStruct? (member : Tree) : Option Tree :=
  (member.findChild? .typeSpecifier).bind (·.findChild? .structSpecifier)

/-- The type of a member: the struct that it declares, or else the type that it
names. -/
def memberType? (scope : Scope) (member : Tree) : Option Ty :=
  (member.ownStruct?.map fun inner => (structType scope inner Findings.empty).1).or
    (member.namedType? scope)

/-- Names of the members whose type is known, each with the type. -/
def typedNames (names : Tree → List String) (scope : Scope) (members : List Tree) :
    List (String × Ty) :=
  members.flatMap fun member =>
    (member.memberType? scope).toList.flatMap fun ty => (names member).map (·, ty)

theorem fieldsOf_eq (member : Tree) (type : Option Ty) :
    fieldsOf member type = type.toList.flatMap fun ty => member.ownNames.map (·, ty) := by
  cases type with
  | none => rfl
  | some ty => simp [fieldsOf, ownNames]

end Tree

section Fields

variable (scope : Scope)

mutual

theorem fst_structAmong : ∀ (trees : List Tree) (findings : Findings),
    (structAmong scope trees findings).1 = (trees.find? (·.hasKind .structSpecifier)).map
      fun inner => (structType scope inner Findings.empty).1
  | [], _ => rfl
  | tree :: trees, findings => by
    rw [structAmong, List.find?_cons]
    cases tree.hasKind .structSpecifier with
    | true => exact congrArg some (fst_structType tree findings)
    | false => exact fst_structAmong trees findings

/-- The type of a struct does not hang on what was found before. -/
theorem fst_structType : ∀ (tree : Tree) (findings : Findings),
    (structType scope tree findings).1 = (structType scope tree Findings.empty).1
  | .leaf _, _ => by rw [structType, structType]
  | .node kind children, findings => by
    simp only [structType, fst_membersOf children]

theorem fst_membersOf : ∀ (trees : List Tree) (findings : Findings),
    (membersOf scope trees findings).1 =
      Tree.typedNames Tree.ownNames scope (trees.filter (·.hasKind .structMember))
  | [], _ => rfl
  | tree :: trees, findings => by
    rw [membersOf, List.filter_cons]
    cases tree.hasKind .structMember with
    | true =>
      rw [if_pos rfl, if_pos rfl, Tree.typedNames, List.flatMap_cons, ← Tree.typedNames]
      exact congrArg₂ _ (fst_memberOf tree findings) (fst_membersOf trees _)
    | false => exact fst_membersOf trees findings

theorem fst_memberOf :
    ∀ (tree : Tree) (findings : Findings), (memberOf scope tree findings).1 =
    (tree.memberType? scope).toList.flatMap fun ty => tree.ownNames.map (·, ty)
  | .leaf _, _ => rfl
  | .node kind children, findings => by
    rw [memberOf, ← Tree.fieldsOf_eq, ← fst_specifierAmong kind children findings]

theorem fst_specifierAmong (kind : NodeKind) :
    ∀ (trees : List Tree) (findings : Findings),
    (specifierAmong scope trees findings).1 = (Tree.node kind trees).memberType? scope
  | [], _ => rfl
  | .leaf _ :: trees, findings => fst_specifierAmong kind trees findings
  | .node kind' children :: trees, findings => by
    rw [specifierAmong]
    unfold Tree.memberType? Tree.ownStruct? Tree.namedType?
    rw [Tree.findChild?, Tree.children, List.find?_cons]
    cases (Tree.node kind' children).hasKind .typeSpecifier with
    | true =>
      rw [if_pos rfl, specifiedType_fst, fst_structAmong children findings]
      rfl
    | false => exact fst_specifierAmong kind trees findings

end

theorem structType_eq (kind : NodeKind) (children : List Tree) (findings : Findings) :
    (structType scope (.node kind children) findings).1 =
      Ty.structOf (((Tree.node kind children).identifier?.map Token.text).getD "")
        (Tree.typedNames Tree.ownNames scope (Tree.node kind children).members) := by
  simp only [structType, fst_membersOf]
  rfl

end Fields

/-! ### Variables of members -/

namespace Tree

/-- The identifiers that stand directly before a token that is none. -/
def strays : List Token → List String
  | [] => []
  | token :: tokens =>
    if token.kind = .identifier ∧ tokens.head?.any (·.kind ≠ .identifier) then
      token.text :: strays tokens
    else strays tokens

/-- The contextual qualifiers of a member that a keyword follows, with nothing but
layouts between. -/
def strayNames (member : Tree) : List String :=
  strays (member.beforeType.filterMap token?)

/-- The identifiers among some trees, each with whether dimensions follow it. -/
def dimensioned : List Tree → List (String × Bool)
  | [] => []
  | tree :: trees =>
    (namesAmong [tree]).map (·, trees.head?.any (·.hasKind .arraySpecifier)) ++
      dimensioned trees

/-- The variables of one type that the loop over a member declares: strays among
the qualifiers, and the names behind the type. -/
def variablesOf (ty : Ty) (typeIsArray : Bool) (member : Tree) : List Variable :=
  member.strayNames.map (fun name => { name, ty, isArray := typeIsArray }) ++
    (dimensioned member.behindType).map fun written =>
      { name := written.1, ty, isArray := typeIsArray || written.2 }

/-- The variables that a member of a block without an instance name declares. -/
def memberVariables (scope : Scope) (member : Tree) : List Variable :=
  (member.namedType? scope).toList.flatMap fun ty =>
    member.variablesOf ty ((member.findChild? .typeSpecifier).any isArray)

theorem strays_eq_nil {tokens : List Token}
    (h : ∀ token ∈ tokens, token.kind ≠ .identifier) :
    strays tokens = [] := by
  induction tokens with
  | nil => rfl
  | cons token tokens ih =>
    obtain ⟨isMark, others⟩ := List.forall_mem_cons.1 h
    rw [strays, if_neg (fun both => isMark both.1)]
    exact ih others

theorem map_fst_dimensioned (trees : List Tree) :
    (dimensioned trees).map Prod.fst = namesAmong trees := by
  induction trees with
  | nil => rfl
  | cons tree trees ih =>
    rw [dimensioned, List.map_append, ih, List.map_map]
    exact (congrArg (· ++ _) (List.map_id _)).trans (namesAmong_append [tree] trees).symm

end Tree

section Variables

variable {scope : Scope} {ty : Ty} {typeIsArray : Bool} {pending : Option (String × Bool)}

theorem declareNames_name {token : Token} (isName : token.kind = .identifier)
    (rest : List Tree) :
    declareNames scope ty typeIsArray pending (.leaf token :: rest) =
      declareNames scope ty typeIsArray (some (token.text, typeIsArray)) rest := by
  simp only [declareNames, isName, if_true]

theorem declareNames_mark {token : Token} (isMark : token.kind ≠ .identifier)
    (rest : List Tree) :
    declareNames scope ty typeIsArray pending (.leaf token :: rest) =
      declareNames ((pending.toList.map fun name => { name := name.1, ty, isArray := name.2 }).foldl
        Scope.declare scope) ty typeIsArray none rest := by
  cases pending <;> simp only [declareNames, isMark, if_false] <;> rfl

theorem declareNames_node (kind : NodeKind) (children rest : List Tree) :
    declareNames scope ty typeIsArray pending (.node kind children :: rest) =
      declareNames scope ty typeIsArray
        (pending.map fun name => (name.1, kind = .arraySpecifier || name.2)) rest := by
  by_cases isArray : kind = .arraySpecifier <;>
    cases pending <;> simp [declareNames, Tree.hasKind, Tree.kind?, isArray]

/-- Qualifiers leave some name pending, and declare the strays among them. -/
theorem exists_declareNames_qualifiers {before : List Tree} (rest : List Tree)
    (plain : ∀ tree ∈ before, tree.hasKind .arraySpecifier = false) (scope : Scope)
    (qualifier : Option Token) (isName : ∀ token ∈ qualifier, token.kind = .identifier) :
    ∃ pending,
      declareNames scope ty typeIsArray
          (qualifier.map fun token => (token.text, typeIsArray)) (before ++ rest) =
        declareNames
          (((Tree.strays (qualifier.toList ++ before.filterMap Tree.token?)).map
            fun name => { name, ty, isArray := typeIsArray }).foldl Scope.declare scope)
          ty typeIsArray pending rest := by
  -- The name that is pending is always the qualifier read last, if no keyword came
  -- behind it; at the keyword it is declared.
  induction before generalizing scope qualifier with
  | nil =>
    refine ⟨qualifier.map fun token => (token.text, typeIsArray), ?_⟩
    cases qualifier <;> simp [Tree.strays]
  | cons tree before ih =>
    obtain ⟨here, behind⟩ := List.forall_mem_cons.1 plain
    cases tree with
    | node kind children =>
      have other : kind ≠ .arraySpecifier := by
        simpa [Tree.hasKind, Tree.kind?] using here
      obtain ⟨pending, same⟩ := ih behind scope qualifier isName
      refine ⟨pending, Eq.trans ?_ same⟩
      rw [List.cons_append, declareNames_node, Option.map_map]
      simp [other, Function.comp_def]
    | leaf token =>
      by_cases named : token.kind = .identifier
      · obtain ⟨pending, same⟩ := ih behind scope (some token) (by simpa using named)
        refine ⟨pending, ?_⟩
        rw [List.cons_append, declareNames_name named]
        cases qualifier <;> simpa [Tree.strays, Tree.token?, named] using same
      · obtain ⟨pending, same⟩ := ih behind ((qualifier.toList.map fun token =>
          { name := token.text, ty, isArray := typeIsArray }).foldl Scope.declare scope)
          none (by simp)
        refine ⟨pending, ?_⟩
        rw [List.cons_append, declareNames_mark named]
        cases qualifier with
        | none => simpa [Tree.strays, Tree.token?, named] using same
        | some token' =>
          have isQualifier := isName token' rfl
          simpa [Tree.strays, Tree.token?, named, isQualifier] using same

/-- Dimensions make an array of the name before them. -/
theorem declareNames_dimensions {dimensions : List Tree} (rest : List Tree)
    (arrays : ∀ tree ∈ dimensions, tree.hasKind .arraySpecifier) (name : String)
    (isArray : Bool) :
    declareNames scope ty typeIsArray (some (name, isArray)) (dimensions ++ rest) =
      declareNames scope ty typeIsArray (some (name, isArray || ! dimensions.isEmpty)) rest := by
  induction dimensions generalizing isArray with
  | nil => simp
  | cons tree dimensions ih =>
    obtain ⟨here, behind⟩ := List.forall_mem_cons.1 arrays
    obtain ⟨children, rfl⟩ := Tree.exists_children_of_hasKind here
    rw [List.cons_append, declareNames_node]
    simpa using ih behind true

/-- A written name is declared at the mark behind it. -/
theorem declareNames_group {token mark : Token} {dimensions : List Tree}
    (rest : List Tree) (isName : token.kind = .identifier)
    (arrays : ∀ tree ∈ dimensions, tree.hasKind .arraySpecifier)
    (isMark : mark.kind ≠ .identifier) :
    declareNames scope ty typeIsArray pending (.leaf token :: (dimensions ++ .leaf mark :: rest)) =
      declareNames
        (scope.declare { name := token.text, ty, isArray := typeIsArray || ! dimensions.isEmpty })
        ty typeIsArray none rest := by
  rw [declareNames_name isName, declareNames_dimensions _ arrays,
    declareNames_mark isMark]
  rfl

theorem dimensioned_group {token mark : Token} {dimensions : List Tree}
    (rest : List Tree) (isName : token.kind = .identifier)
    (arrays : ∀ tree ∈ dimensions, tree.hasKind .arraySpecifier)
    (isMark : mark.kind ≠ .identifier) :
    Tree.dimensioned (.leaf token :: (dimensions ++ .leaf mark :: rest)) =
      (token.text, ! dimensions.isEmpty) :: Tree.dimensioned rest := by
  have skipped : Tree.dimensioned (dimensions ++ .leaf mark :: rest) =
      Tree.dimensioned rest := by
    induction dimensions with
    | nil => simp [Tree.dimensioned, Tree.namesAmong, Tree.token?, isMark]
    | cons tree dimensions ih =>
      obtain ⟨here, behind⟩ := List.forall_mem_cons.1 arrays
      obtain ⟨children, rfl⟩ := Tree.exists_children_of_hasKind here
      exact ih behind
  rw [Tree.dimensioned, skipped]
  cases dimensions with
  | nil => simp [Tree.namesAmong, Tree.token?, isName, Tree.hasKind, Tree.kind?]
  | cons tree dimensions =>
    have here := arrays tree List.mem_cons_self
    simp [Tree.namesAmong, Tree.token?, isName, here]

/-- Names with dimensions, each of them ended by a mark. -/
inductive Ended : List Tree → Prop
  | last {token mark : Token} {dimensions : List Tree} (isName : token.kind = .identifier)
      (arrays : ∀ tree ∈ dimensions, tree.hasKind .arraySpecifier)
      (isMark : mark.kind ≠ .identifier) :
      Ended (.leaf token :: (dimensions ++ [.leaf mark]))
  | more {token mark : Token} {dimensions rest : List Tree} (isName : token.kind = .identifier)
      (arrays : ∀ tree ∈ dimensions, tree.hasKind .arraySpecifier)
      (isMark : mark.kind ≠ .identifier) (others : Ended rest) :
      Ended (.leaf token :: (dimensions ++ .leaf mark :: rest))

theorem declareNames_of_ended {trees : List Tree} (h : Ended trees) :
    declareNames scope ty typeIsArray pending trees =
      ((Tree.dimensioned trees).map fun written =>
        { name := written.1, ty, isArray := typeIsArray || written.2 }).foldl
          Scope.declare scope := by
  induction h generalizing scope pending with
  | last isName arrays isMark =>
    rw [declareNames_group [] isName arrays isMark, dimensioned_group [] isName arrays isMark]
    rfl
  | more isName arrays isMark others ih =>
    rw [declareNames_group _ isName arrays isMark, dimensioned_group _ isName arrays isMark, ih]
    rfl

end Variables

theorem Token.kind_ne_of_is {token : Token} {text : String} (h : token.is text) :
    token.kind ≠ .identifier := by
  intro isName
  simp [Token.is, isName] at h

theorem Form.hasKind_of_arraySpecifiers {trees : List Tree}
    (h : arraySpecifiers.Matches trees) :
    ∀ tree ∈ trees, tree.hasKind .arraySpecifier := by
  obtain ⟨parts, rfl, each⟩ := h
  intro tree member
  obtain ⟨part, listed, inside⟩ := List.mem_flatten.1 member
  obtain ⟨kind, children, rfl, isKind⟩ := each part listed
  obtain rfl := List.mem_singleton.1 isKind
  obtain rfl := List.mem_singleton.1 inside
  rfl

/-- The names of a grammatical member are ended. -/
theorem ended_of_matches {group : List Tree} {parts : List (List Tree)}
    {semicolon : Token} (first : Form.dimensionedName.Matches group)
    (others : ∀ part ∈ parts, (Form.all [.mark ",", .dimensionedName]).Matches part)
    (isMark : semicolon.kind ≠ .identifier) :
    Ended (group ++ (parts.flatten ++ [.leaf semicolon])) := by
  induction parts generalizing group with
  | nil =>
    obtain ⟨_, _, rfl, ⟨token, rfl, isName⟩, dimensions, _, rfl, matched, rfl⟩ := first
    have arrays := Form.hasKind_of_arraySpecifiers matched
    simpa using Ended.last (of_decide_eq_true isName) arrays isMark
  | cons part parts ih =>
    obtain ⟨_, _, rfl, ⟨token, rfl, isName⟩, dimensions, _, rfl, matched, rfl⟩ := first
    obtain ⟨here, behind⟩ := List.forall_mem_cons.1 others
    obtain ⟨_, _, rfl, ⟨comma, rfl, isComma⟩, group, _, rfl, next, rfl⟩ := here
    have arrays := Form.hasKind_of_arraySpecifiers matched
    have isMark' : comma.kind ≠ .identifier :=
      Token.kind_ne_of_is (by simpa [TokenClass.admits] using isComma)
    simpa using Ended.more (of_decide_eq_true isName) arrays isMark' (ih next behind)

/-- A grammatical member is cut at its type, and the names behind it are ended. -/
theorem Tree.exists_cut_of_member {member : Tree} (h : member.Grammatical)
    (isMember : member.hasKind .structMember) :
    ∃ specifier, member.CutAtType specifier ∧ Ended member.behindType := by
  obtain ⟨children, rfl⟩ := exists_children_of_hasKind isMember
  cases h with
  | node form below =>
    obtain ⟨before, _, rfl, qualifiers, _, _, rfl, ⟨kind, parts, rfl, listed⟩, _, _, rfl,
      ⟨group, _, rfl, first, _, _, rfl, ⟨others, rfl, each⟩, rfl⟩, _, _, rfl,
      ⟨semicolon, rfl, isMark⟩, rfl⟩ := form
    obtain rfl := List.mem_singleton.1 listed
    have ended := ended_of_matches first each
      (Token.kind_ne_of_is (by simpa [TokenClass.admits] using isMark))
    simp only [List.append_nil, List.append_assoc, List.singleton_append] at ended ⊢
    obtain ⟨cut, behind⟩ :=
      @cutAtType .structMember before (group ++ (others.flatten ++ [.leaf semicolon]))
        (.node .typeSpecifier parts) qualifiers rfl
    rw [← behind] at ended
    exact ⟨_, cut, ended⟩

theorem declareNames_children {member specifier : Tree} (cut : member.CutAtType specifier)
    (ended : Ended member.behindType) (scope : Scope) (ty : Ty) (typeIsArray : Bool) :
    declareNames scope ty typeIsArray none member.children =
      (member.variablesOf ty typeIsArray).foldl Scope.declare scope := by
  obtain ⟨pending, same⟩ :=
    @exists_declareNames_qualifiers ty typeIsArray member.beforeType
      (specifier :: member.behindType) (fun tree before =>
        cut.hasKind_eq_false before (by decide)) scope
      none (by simp)
  obtain ⟨children, rfl⟩ := Tree.exists_children_of_hasKind cut.isType
  rw [cut.children]
  refine same.trans ?_
  rw [declareNames_node, declareNames_of_ended ended, Tree.variablesOf, List.foldl_append]
  rfl

/-- A member declares its variables one after the other. -/
theorem declareMember_eq (scope : Scope) {member : Tree} (h : member.Grammatical)
    (isMember : member.hasKind .structMember) :
    declareMember scope member = (member.memberVariables scope).foldl Scope.declare scope := by
  obtain ⟨specifier, cut, ended⟩ := Tree.exists_cut_of_member h isMember
  simp only [declareMember, Tree.memberVariables, Tree.namedType?, cut.findChild?,
    isMember, if_true, Option.bind_some, Option.any_some]
  cases specifier.typeName?.bind scope.type? with
  | none => rfl
  | some ty => simp [declareNames_children cut ended]

theorem Tree.memberVariables_foldl_declare (fresh : List Variable) (scope : Scope) :
    memberVariables (fresh.foldl Scope.declare scope) = memberVariables scope := by
  induction fresh generalizing scope with
  | nil => rfl
  | cons declared fresh ih =>
    rw [List.foldl_cons, ih]
    funext member
    simp only [memberVariables, namedType?, Scope.type?_declare]

/-- The members of a block declare their variables one after the other. -/
theorem declareMembers_eq {trees : List Tree} (h : ∀ tree ∈ trees, tree.Grammatical)
    (scope : Scope) :
    trees.foldl declareMember scope =
      ((trees.filter (·.hasKind .structMember)).flatMap (Tree.memberVariables scope)).foldl
        Scope.declare scope := by
  induction trees generalizing scope with
  | nil => rfl
  | cons tree trees ih =>
    obtain ⟨here, behind⟩ := List.forall_mem_cons.1 h
    rw [List.foldl_cons, List.filter_cons]
    cases isMember : tree.hasKind .structMember with
    | true =>
      rw [declareMember_eq scope here isMember, ih behind, if_pos rfl, List.flatMap_cons,
        List.foldl_append, Tree.memberVariables_foldl_declare]
    | false =>
      rw [declareMember, isMember]
      exact ih behind scope

end ShaderDialect
