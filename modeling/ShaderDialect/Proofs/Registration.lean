import ShaderDialect.Proofs.Members

/-!
# Registration of structs and blocks

What the walk leaves behind a struct or an interface block in the scope: the
type under its name, its constructor, and for a block the instance or else the
members as variables.
-/

namespace ShaderDialect

namespace Scope

/-- A type of the given fields is registered, under a name if there is one, and
variables are declared. -/
structure Registers (name : Option String) (fields : List (String × Ty))
    (fresh : List Variable) (before after : Scope) : Prop where
  structs : after.structs = name.toList.map (fun text => (text, .struct text fields)) ++
    before.structs
  constructors : after.functions = before.functions ++ name.toList.map fun text =>
    { name := text, params := fields.map Prod.snd, result := .struct text fields }
  frames : after.frames = before.frames.modifyHead (fresh.reverse ++ ·)

/-- The variables that are declared last hide all others. -/
theorem Registers.lookup?_eq {name : Option String} {fields : List (String × Ty)}
    {fresh : List Variable} {before after : Scope}
    (h : before.Registers name fields fresh after) (own : String) :
    after.lookup? own = (fresh.reverse.find? (·.name = own)).or (before.lookup? own) := by
  obtain ⟨top, below, shape⟩ := List.exists_cons_of_ne_nil before.frames_ne_nil
  rw [lookup?, h.frames, lookup?, shape, List.modifyHead_cons, List.findSome?_cons,
    List.findSome?_cons, List.find?_append]
  cases fresh.reverse.find? (·.name = own) <;> rfl

theorem declareStruct_declare (scope : Scope) (declared : Variable) (ty : Ty) :
    (scope.declare declared).declareStruct ty =
      (scope.declareStruct ty).declare declared := by
  unfold declareStruct
  split
  · rfl
  · cases ty <;> simp only [declareFunction, declare] <;> split <;> rfl

theorem declareStruct_foldl_declare (fresh : List Variable) (scope : Scope) (ty : Ty) :
    (fresh.foldl declare scope).declareStruct ty =
      fresh.foldl declare (scope.declareStruct ty) := by
  induction fresh generalizing scope with
  | nil => rfl
  | cons declared fresh ih =>
    rw [List.foldl_cons, List.foldl_cons, ih, declareStruct_declare]

/-- A struct and variables that are declared are registered. -/
theorem registers_foldl_declare {name : Option String}
    (nonempty : ∀ text ∈ name, text ≠ "")
    (fields : List (String × Ty)) (fresh : List Variable) (scope : Scope) :
    scope.Registers name fields fresh
      (fresh.foldl declare (scope.declareStruct (.struct (name.getD "") fields))) := by
  induction fresh using List.reverseRecOn with
  | nil =>
    cases name with
    | none =>
      refine ⟨rfl, (List.append_nil _).symm, ?_⟩
      cases frames : scope.frames <;> simp_all [declareStruct, Ty.name]
    | some text =>
      have isName : text.isEmpty = false := by
        simpa [String.isEmpty_iff] using nonempty text rfl
      simp only [Option.getD_some, List.foldl_nil, declareStruct, Ty.name, isName]
      refine ⟨rfl, rfl, ?_⟩
      cases frames : scope.frames <;> simp_all [Scope.frames, declareFunction]
  | append_singleton fresh declared ih =>
    rw [List.foldl_append, List.foldl_cons, List.foldl_nil]
    refine ⟨?_, ?_, ?_⟩
    · rw [structs_declare, ih.structs]
    · rw [functions_declare, ih.constructors]
    · rw [frames_declare, ih.frames]
      cases scope.frames <;> simp

end Scope

/-! ### Names around the brace -/

namespace Tree

/-- The identifier right before the brace of a struct or block. -/
def title? (tree : Tree) : Option Token :=
  (tree.childTokens.takeWhile (! ·.is "\x7b")).getLast?.filter (·.kind = .identifier)

/-- The identifier behind the brace of a block, which names its instance. -/
def instanceName? (tree : Tree) : Option Token :=
  (tree.childTokens.dropWhile (! ·.is "\x7b")).find? (·.kind = .identifier)

/-- The variables that a block of the given type declares: its instance, or else
its members. -/
def blockVariables (scope : Scope) (ty : Ty) (block : Tree) : List Variable :=
  match block.instanceName? with
  | some token => [{ name := token.text, ty, isArray := block.isArray }]
  | none => block.members.flatMap (memberVariables scope)

end Tree

/-- The tokens of a struct or block up to its brace, and the others. -/
structure CutAtBrace (tokens before : List Token) (opening : Token)
    (rest : List Token) : Prop where
  tokens : tokens = before ++ opening :: rest
  others : ∀ token ∈ before, token.is "\x7b" = false
  isOpening : opening.is "\x7b"

namespace CutAtBrace

variable {tokens before rest : List Token} {opening : Token}

theorem takeWhile (h : CutAtBrace tokens before opening rest) :
    tokens.takeWhile (! ·.is "\x7b") = before := by
  rw [h.tokens, List.takeWhile_append_of_pos (by simpa using h.others),
    List.takeWhile_cons_of_neg (by simp [h.isOpening]), List.append_nil]

theorem dropWhile (h : CutAtBrace tokens before opening rest) :
    tokens.dropWhile (! ·.is "\x7b") = opening :: rest := by
  rw [h.tokens, List.dropWhile_append_of_pos (by simpa using h.others),
    List.dropWhile_cons_of_neg (by simp [h.isOpening])]

theorem braceOf (h : CutAtBrace tokens before opening rest) (first : Option Token) :
    braceOf first tokens = some (before.getLast?.or first, opening :: rest) := by
  obtain ⟨rfl, others, isOpening⟩ := h
  induction before generalizing first with
  | nil => simp [ShaderDialect.braceOf, isOpening]
  | cons token before ih =>
    obtain ⟨here, behind⟩ := List.forall_mem_cons.1 others
    rw [List.cons_append, ShaderDialect.braceOf, here, List.getLast?_cons]
    refine (ih (some token) behind).trans ?_
    cases before.getLast? <;> rfl

end CutAtBrace

namespace Tree

/-- A qualifier is no brace. -/
theorem is_brace_of_admits {token : Token} (h : TokenClass.qualifier.admits token) :
    token.is "\x7b" = false := by
  refine Bool.eq_false_iff.2 fun isBrace => ?_
  have isText : token.text = "\x7b" := by
    simpa [Token.is] using (Bool.and_eq_true_iff.1 isBrace).2
  have noWord : Vocabulary.isQualifierWord "\x7b" = false := by decide
  simp [TokenClass.admits, isText, noWord, Token.kind_ne_of_is isBrace] at h

/-- A block has a name before its brace. -/
theorem exists_cutAtBrace_of_block {block : Tree} (h : block.Grammatical)
    (isBlock : block.hasKind .interfaceBlock) :
    ∃ before name opening rest, CutAtBrace block.childTokens (before ++ [name]) opening rest ∧
      name.kind = .identifier := by
  obtain ⟨children, rfl⟩ := exists_children_of_hasKind isBlock
  cases h with
  | node form below =>
    obtain ⟨qualifiers, _, rfl, matched, _, _, rfl, ⟨name, rfl, isName⟩, _, rest, rfl,
      ⟨opening, rfl, isOpening⟩, -⟩ := form
    have isMark : opening.is "\x7b" := by simpa [TokenClass.admits] using isOpening
    have isIdentifier : name.kind = .identifier := of_decide_eq_true isName
    refine ⟨qualifiers.filterMap token?, name, opening, rest.filterMap token?,
      ⟨?_, ?_, isMark⟩, isIdentifier⟩
    · simp [childTokens, Tree.children, token?]
    · refine List.forall_mem_append.2 ⟨fun token member => ?_, List.forall_mem_singleton.2 ?_⟩
      · exact is_brace_of_admits (admits_of_qualifiers matched member)
      · exact Bool.eq_false_iff.2 fun isBrace => Token.kind_ne_of_is isBrace isIdentifier

/-- The first identifier of a struct stands right before its brace. -/
theorem identifier?_of_struct {tree : Tree} (h : tree.Grammatical)
    (isStruct : tree.hasKind .structSpecifier) : tree.identifier? = tree.title? := by
  obtain ⟨children, rfl⟩ := exists_children_of_hasKind isStruct
  cases h with
  | node form below =>
    obtain ⟨_, _, rfl, ⟨word, rfl, isWord⟩, name, _, rfl, named, _, _, rfl,
      ⟨opening, rfl, isOpening⟩,
      members, _, rfl, nodes, _, _, rfl, ⟨closing, rfl, isClosing⟩, rfl⟩ := form
    have opens : opening.is "\x7b" := by simpa [TokenClass.admits] using isOpening
    have closes : closing.is "\x7d" := by simpa [TokenClass.admits] using isClosing
    have starts : word.is "struct" := by simpa [TokenClass.admits] using isWord
    have noBrace : word.is "\x7b" = false := by
      have isText : word.text = "struct" := by
        simpa [Token.is] using (Bool.and_eq_true_iff.1 starts).2
      simp [Token.is, isText]
    have noName := Token.kind_ne_of_is starts
    have tokens := filterMap_token?_nodes nodes
    rcases named with ⟨token, rfl, isName⟩ | rfl
    · have isIdentifier : token.kind = .identifier := of_decide_eq_true isName
      have noBrace' : token.is "\x7b" = false :=
        Bool.eq_false_iff.2 fun isBrace => Token.kind_ne_of_is isBrace isIdentifier
      simp [identifier?, title?, childTokens, Tree.children, token?, tokens, noName,
        isIdentifier, Option.filter, noBrace, noBrace', opens]
    · simp [identifier?, title?, childTokens, Tree.children, token?, tokens, noName,
        Option.filter,
        noBrace, opens, Token.kind_ne_of_is opens, Token.kind_ne_of_is closes]

theorem mem_members {tree member : Tree} (h : tree.Grammatical)
    (listed : member ∈ tree.members) :
    member.Grammatical ∧ member.hasKind .structMember := by
  obtain ⟨hangs, isMember⟩ := List.mem_filter.1 listed
  cases tree with
  | leaf token => cases hangs
  | node kind children => exact ⟨h.child member hangs, isMember⟩

/-- The identifiers of a member are its qualifiers and its names. -/
theorem typedNames_ownNames {tree : Tree} (h : tree.Grammatical) (scope : Scope) :
    typedNames ownNames scope tree.members =
      typedNames (fun member => member.qualifierNames ++ member.writtenNames) scope
        tree.members := by
  refine List.flatMap_congr fun member listed => ?_
  obtain ⟨grammatical, isMember⟩ := mem_members h listed
  obtain ⟨specifier, cut, -⟩ := exists_cut_of_member grammatical isMember
  rw [cut.ownNames_eq]

end Tree

namespace Tree

/-- Without contextual qualifiers the names are those behind the types. -/
theorem typedNames_of_unqualified {scope : Scope} {members : List Tree}
    (plain : ∀ member ∈ members, (member.memberType? scope).isSome →
      member.qualifierNames = []) :
    typedNames (fun member => member.qualifierNames ++ member.writtenNames) scope members =
      typedNames writtenNames scope members := by
  refine List.flatMap_congr fun member listed => ?_
  have unqualified := plain member listed
  cases known : member.memberType? scope with
  | none => rfl
  | some ty => simp only [unqualified (by simp [known]), List.nil_append]

/-- Where types are only named, and without contextual qualifiers, the variables
of members have the names and types of fields. -/
theorem typedNames_eq_variables {scope : Scope} {members : List Tree}
    (plain : ∀ member ∈ members, (member.memberType? scope).isSome →
      member.qualifierNames = [])
    (named : ∀ member ∈ members, member.ownStruct? = none) :
    (members.flatMap (memberVariables scope)).map (fun declared => (declared.name, declared.ty)) =
      typedNames writtenNames scope members := by
  rw [List.map_flatMap, typedNames]
  refine List.flatMap_congr fun member listed => ?_
  have unqualified := plain member listed
  have type : member.memberType? scope = member.namedType? scope := by
    rw [memberType?, named member listed]
    rfl
  rw [type] at unqualified ⊢
  unfold memberVariables
  cases known : member.namedType? scope with
  | none => rfl
  | some ty =>
    have none : member.strayNames = [] := by
      have empty := unqualified (by simp [known])
      refine strays_eq_nil fun token listed => ?_
      simpa using List.filter_eq_nil_iff.1 (List.map_eq_nil_iff.1 empty) token listed
    simp only [Option.toList_some, List.flatMap_singleton, variablesOf, none,
      List.map_nil, List.nil_append, List.map_map]
    rw [writtenNames, ← map_fst_dimensioned, List.map_map]
    rfl

end Tree

theorem lookup_variables (fresh : List Variable) (name : String) :
    (fresh.map fun declared => (declared.name, declared.ty)).lookup name =
      (fresh.find? (·.name = name)).map Variable.ty := by
  induction fresh with
  | nil => rfl
  | cons declared fresh ih =>
    rw [List.map_cons, Ty.lookup_field, List.find?_cons, ih]
    by_cases named : declared.name = name
    · simp [named]
    · simp [named, Ne.symm named]

/-- What a block declares, and what it reports: all that its members do. -/
theorem exists_declareBlock {block : Tree} (h : block.Grammatical)
    (isBlock : block.hasKind .interfaceBlock) (scope : Scope) (findings : Findings) :
    ∃ name, block.title? = some name ∧ (declareBlock scope block findings).1 =
      (block.blockVariables scope
          (.structOf name.text (Tree.typedNames Tree.ownNames scope block.members))).foldl
        Scope.declare
        (scope.declareStruct
          (.structOf name.text (Tree.typedNames Tree.ownNames scope block.members))) ∧
      (declareBlock scope block findings).2 =
        (membersOf scope block.children findings).2 := by
  obtain ⟨before, name, opening, rest, cut, isName⟩ :=
    Tree.exists_cutAtBrace_of_block h isBlock
  have brace : braceOf none block.childTokens = some (some name, opening :: rest) := by
    rw [cut.braceOf]
    simp
  refine ⟨name, ?_, ?_, ?_⟩
  · rw [Tree.title?, cut.takeWhile]
    simp [Option.filter, isName]
  · have members := fst_membersOf scope block.children findings
    simp only [declareBlock, brace, isName, if_true, members, Tree.blockVariables,
      Tree.instanceName?, cut.dropWhile]
    cases (opening :: rest).find? (·.kind = .identifier) with
    | some token => rfl
    | none =>
      have below : ∀ child ∈ block.children, child.Grammatical := by
        cases block with
        | leaf token => cases isBlock
        | node kind children => exact h.child
      simp only [declareMembers_eq below, Scope.declareStruct_foldl_declare]
      rfl
  · simp only [declareBlock, brace, isName, if_true]
    cases (opening :: rest).find? (·.kind = .identifier) <;> rfl

namespace Plan.Visit

/-- The scope when the parts of a struct or block have been visited. -/
def inside (v : Visit) : Scope :=
  (visitAll (.uniform false) v.tree.children v.state).scope

/-- The scope when the walk has left a node. -/
def after (v : Visit) : Scope :=
  (visit v.role v.tree v.state).scope

/-- The findings when the walk has left a node. -/
def reported (v : Visit) : Findings :=
  (visit v.role v.tree v.state).findings

/-- What the walk declares when it leaves a struct. -/
theorem after_struct {v : Visit} (h : v.WellFormed)
    (isStruct : v.tree.hasKind .structSpecifier) :
    v.after = v.inside.declareStruct (.structOf ((v.tree.title?.map Token.text).getD "")
      (Tree.typedNames Tree.ownNames v.inside v.tree.members)) := by
  have name := Tree.identifier?_of_struct h.grammatical isStruct
  obtain ⟨context, isPart⟩ := exists_part_of_hasKind h.fits isStruct (by decide)
  obtain ⟨children, shape⟩ := Tree.exists_children_of_hasKind isStruct
  obtain ⟨role, tree, state⟩ := v
  obtain rfl : role = _ := isPart
  obtain rfl : tree = _ := shape
  let leaving := visitAll (.uniform false) children state
  have declared : after ⟨.part context, .node .structSpecifier children, state⟩ =
      leaving.scope.declareStruct
        (structType leaving.scope (.node .structSpecifier children) leaving.findings).1 := rfl
  rw [declared, structType_eq, ← name]
  rfl

/-- What the walk declares and reports when it leaves a block. -/
theorem exists_after_block {v : Visit} (h : v.WellFormed)
    (isBlock : v.tree.hasKind .interfaceBlock) :
    ∃ findings, v.after = (declareBlock v.inside v.tree findings).1 ∧
      v.reported = (declareBlock v.inside v.tree findings).2 := by
  obtain ⟨context, isPart⟩ := exists_part_of_hasKind h.fits isBlock (by decide)
  obtain ⟨children, shape⟩ := Tree.exists_children_of_hasKind isBlock
  obtain ⟨role, tree, state⟩ := v
  obtain rfl : role = _ := isPart
  obtain rfl : tree = _ := shape
  exact ⟨_, rfl, rfl⟩

/-- What the walk registers when it leaves a struct or block. -/
theorem exists_registers {v : Visit} (h : v.WellFormed)
    (words : ∀ token ∈ v.tree.leaves, token.kind = .identifier → token.text ≠ "")
    (isAggregate : v.tree.hasKind .structSpecifier ∨ v.tree.hasKind .interfaceBlock) :
    ∃ fields fresh, Ty.Collected (Tree.typedNames Tree.ownNames v.inside v.tree.members) fields ∧
      v.inside.Registers (v.tree.title?.map Token.text) fields fresh v.after ∧
      (v.tree.hasKind .structSpecifier → fresh = []) ∧
      (v.tree.hasKind .interfaceBlock → ∃ name, v.tree.title? = some name ∧
        fresh = v.tree.blockVariables v.inside (.struct name.text fields)) := by
  -- A struct whose name is empty is not registered, so a name has to be no empty text.
  have nonempty : ∀ text ∈ v.tree.title?.map Token.text, text ≠ "" := by
    intro text titled
    obtain ⟨token, found, rfl⟩ := Option.map_eq_some_iff.1 titled
    obtain ⟨last, isName⟩ := Option.filter_eq_some_iff.1 found
    have listed := (List.takeWhile_prefix _).subset (List.mem_of_getLast? last)
    exact words token (Tree.childTokens_subset _ listed) (by simpa using isName)
  rcases isAggregate with isStruct | isBlock
  · obtain ⟨fields, type, collected⟩ :=
      Ty.exists_collected ((v.tree.title?.map Token.text).getD "")
        (Tree.typedNames Tree.ownNames v.inside v.tree.members)
    refine ⟨fields, [], collected, ?_, fun _ => rfl, fun isBlock => ?_⟩
    · rw [after_struct h isStruct, type]
      exact Scope.registers_foldl_declare nonempty fields [] v.inside
    · obtain ⟨children, shape⟩ := Tree.exists_children_of_hasKind isStruct
      rw [shape] at isBlock
      cases isBlock
  · obtain ⟨findings, left, -⟩ := exists_after_block h isBlock
    obtain ⟨name, titled, declared, -⟩ :=
      exists_declareBlock h.grammatical isBlock v.inside findings
    obtain ⟨fields, type, collected⟩ := Ty.exists_collected name.text
      (Tree.typedNames Tree.ownNames v.inside v.tree.members)
    refine ⟨fields, _, collected, ?_, fun isStruct => ?_, fun _ => ⟨name, titled, rfl⟩⟩
    · rw [left, declared, type]
      rw [titled] at nonempty ⊢
      exact Scope.registers_foldl_declare nonempty fields _ v.inside
    · obtain ⟨children, shape⟩ := Tree.exists_children_of_hasKind isBlock
      rw [shape] at isStruct
      cases isStruct

end Plan.Visit

namespace SyntaxTree

open Plan

/-- When the walk leaves a struct or an interface block, a type of its members is
registered under the name before the brace, if there is one, with a constructor
that takes the fields. The fields are the identifiers of the members whose type
is known, contextual qualifiers included, each once and with its last type. A
block declares its instance or else its members, where a contextual qualifier
counts only if a keyword follows it.

Where no member of known type has a contextual qualifier, the fields are the
names behind the types; and if moreover no member declares a struct in place,
the members of a block without an instance name are variables of just these
names and types. -/
theorem registers_members {source : String} {tree : SyntaxTree}
    (parsed : ofSource source = .ok tree) (catalog : Catalog) {v : Visit}
    (reached : (Visit.ofTree catalog tree.root).Reaches v)
    (isAggregate : v.tree.hasKind .structSpecifier ∨ v.tree.hasKind .interfaceBlock) :
    ∃ fields fresh,
      Ty.Collected (Tree.typedNames (fun member => member.qualifierNames ++ member.writtenNames)
        v.inside v.tree.members) fields ∧
      v.inside.Registers (v.tree.title?.map Token.text) fields fresh v.after ∧
      (v.tree.hasKind .structSpecifier → fresh = []) ∧
      (v.tree.hasKind .interfaceBlock → ∃ name, v.tree.title? = some name ∧
        fresh = v.tree.blockVariables v.inside (.struct name.text fields)) ∧
      (∀ member ∈ v.tree.members, ∀ name ∈ member.qualifierNames,
        Vocabulary.isContextualQualifier name) ∧
      ((∀ member ∈ v.tree.members, (member.memberType? v.inside).isSome →
        member.qualifierNames = []) →
        Ty.Collected (Tree.typedNames Tree.writtenNames v.inside v.tree.members) fields ∧
        (v.tree.hasKind .interfaceBlock → v.tree.instanceName? = none →
          (∀ member ∈ v.tree.members, member.ownStruct? = none) →
          ∀ name, (fresh.reverse.find? (·.name = name)).map Variable.ty =
            fields.lookup name)) := by
  have sound := isSound_root parsed
  obtain ⟨wellFormed, within⟩ :=
    reached.within ⟨trivial, sound.grammatical, consecutive_leaves parsed⟩
  have words : ∀ token ∈ v.tree.leaves, token.kind = .identifier → token.text ≠ "" := by
    intro token member isName empty
    obtain ⟨c, cs, spelled, -⟩ := sound.words token (within.leaves_subset member) isName
    rw [empty] at spelled
    cases spelled
  obtain ⟨fields, fresh, collected, registers, ofStruct, ofBlock⟩ :=
    Visit.exists_registers wellFormed words isAggregate
  rw [Tree.typedNames_ownNames wellFormed.grammatical] at collected
  refine ⟨fields, fresh, collected, registers, ofStruct, ofBlock, ?_, fun plain => ?_⟩
  · intro member listed name qualifies
    obtain ⟨grammatical, isMember⟩ := Tree.mem_members wellFormed.grammatical listed
    obtain ⟨specifier, cut, -⟩ := Tree.exists_cut_of_member grammatical isMember
    exact cut.isContextualQualifier qualifies
  · rw [Tree.typedNames_of_unqualified plain] at collected
    refine ⟨collected, fun isBlock noInstance named name => ?_⟩
    obtain ⟨title, -, rfl⟩ := ofBlock isBlock
    rw [collected.types, ← Tree.typedNames_eq_variables plain named, ← List.map_reverse,
      lookup_variables, Tree.blockVariables, noInstance]

theorem registers_members_block : ∃ tree v fields fresh,
    ofSource "uniform B { float a, b[2]; };" = .ok tree ∧
      (Visit.ofTree Catalog.bundled tree.root).Reaches v ∧
      v.inside.Registers (some "B") fields fresh v.after ∧
      fields.map Prod.fst = ["a", "b"] ∧
      ∀ name, (fresh.reverse.find? (·.name = name)).map Variable.ty =
        fields.lookup name := by
  have read : (ofSource "uniform B { float a, b[2]; };").toOption.map (fun tree =>
      tree.root.children.map fun node => node.children.head?.map fun block =>
        (node.hasKind .declaration && (node.findChild? .functionPrototype).isNone &&
          block.hasKind .interfaceBlock && block.title?.map Token.text = some "B" &&
          block.instanceName?.isNone &&
          block.members.all fun member =>
            member.qualifierNames.isEmpty && member.ownStruct?.isNone,
        (Tree.typedNames Tree.writtenNames
          (Visit.inside ⟨.part false, block, start Catalog.bundled⟩)
          block.members).map Prod.fst)) =
      some [some (true, ["a", "b"])] := by
    decide +kernel
  obtain ⟨tree, parsed, facts⟩ := exists_of_map_toOption read
  obtain ⟨node, nodes, facts⟩ := List.map_eq_singleton_iff.1 facts
  obtain ⟨block, first, facts⟩ := Option.map_eq_some_iff.1 facts
  obtain ⟨facts, names⟩ := Prod.mk.inj facts
  simp only [Bool.and_eq_true, decide_eq_true_eq, Option.isNone_iff_eq_none,
    List.all_eq_true, List.isEmpty_iff] at facts
  obtain ⟨⟨⟨⟨⟨isDeclaration, noPrototype⟩, isBlock⟩, title⟩, noInstance⟩, plain⟩ := facts
  obtain ⟨_, rfl⟩ := Tree.exists_children_of_hasKind isDeclaration
  obtain ⟨others, rfl⟩ := List.head?_eq_some_iff.1 first
  let state := start Catalog.bundled
  have entered : enter state (.part false) .declaration (.node .declaration (block :: others)) =
      (.descend false (.uniform false), state) := by
    simp [enter, enterPart, takeOver, enterDeclaration, noPrototype]
  have reached :=
    (reaches_first parsed Catalog.bundled nodes).tail (.child entered List.mem_cons_self)
  obtain ⟨fields, fresh, -, registers, -, -, -, agree⟩ :=
    registers_members parsed Catalog.bundled reached (Or.inr isBlock)
  obtain ⟨collected, same⟩ := agree fun member listed _ => (plain member listed).1
  refine ⟨tree, _, fields, fresh, parsed, reached, title ▸ registers, ?_, ?_⟩
  · rw [collected.names]
    exact (congrArg List.eraseDups names).trans (by decide)
  · exact same isBlock noInstance fun member listed => (plain member listed).2

end SyntaxTree

/-- So a contextual qualifier takes a place in the constructor of a struct. -/
theorem convert_precise_member :
    (convert Catalog.bundled "struct S { precise float a; }; S s = S(1);").toOption.map
      Conversion.text =
      some "struct S { precise float a; }; S s = S(1);" ∧
    (convert Catalog.bundled "struct S { float a; }; S s = S(1);").toOption.map Conversion.text =
      some "struct S { float a; }; S s = S(1.0);" := by
  decide +kernel

end ShaderDialect
