import ShaderDialect.Plan.Declared
import ShaderDialect.Proofs.Respelled
import ShaderDialect.Type.Member

/-!
# Scopes after respelling

The declarations of a respelled tree declare what those of the tree declare,
but for one thing: the result type of a function is kept by its spelling where
no type has that name, and a spelling with an array size in it may change.
Nothing can be told from such a result. Scopes are alike when they differ in
such results only.
-/

namespace ShaderDialect

namespace Ty

/-- Types without members, elements and floating values. -/
def isDull : Ty → Bool
  | .primitive name =>
    ! ["float", "vec2", "vec3", "vec4", "mat2", "mat3", "mat4"].contains name
  | _ => false

section

variable {ty : Ty} (h : ty.isDull)
include h

theorem isFloatScalarOrVector_of_isDull : ty.isFloatScalarOrVector = false := by
  cases ty with
  | primitive name =>
    simp [isDull] at h
    simp [isFloatScalarOrVector, Ty.name, h]
  | _ => cases h

theorem element?_of_isDull : ty.element? = none := by
  cases ty with
  | primitive name =>
    simp [isDull] at h
    unfold element?
    split <;> simp_all
  | _ => cases h

theorem member_of_isDull (field : String) : ∃ cause, ty.member field = .error cause := by
  cases ty with
  | primitive name => exact ⟨_, rfl⟩
  | _ => cases h

end

/-- What is spelled like no word is not found under words. -/
theorem lookup_of_not_isWord {entries : List (String × Ty)}
    (words : ∀ entry ∈ entries, IsWord entry.1)
    {name : String} (h : ¬ IsWord name) : entries.lookup name = none := by
  refine List.lookup_eq_none_iff.2 fun entry member => bne_iff_ne.2 ?_
  rintro rfl
  exact h (words entry member)

theorem isDull_of_not_isWord {name : String} (h : ¬ IsWord name) :
    (primitive name).isDull := by
  have words : ∀ word ∈ ["float", "vec2", "vec3", "vec4", "mat2", "mat3", "mat4"],
      IsWord word := by
    decide
  simp only [isDull, Bool.not_eq_true', List.contains_eq_mem, decide_eq_false_iff_not]
  exact fun member => h (words name member)

end Ty

/-- A type of which nothing can be told, not even by its name. -/
def Ty.IsNameless (ty : Ty) : Prop :=
  ty.isDull ∧ ¬ IsWord ty.name

/-- Overloads that differ in a nameless result only. -/
structure Signature.Alike (signature signature' : Signature) : Prop where
  name : signature'.name = signature.name
  params : signature'.params = signature.params
  result : signature'.result = signature.result ∧ IsWord signature.result.name ∨
    signature.result.IsNameless ∧ signature'.result.IsNameless

theorem Signature.Alike.refl {signature : Signature}
    (isWord : IsWord signature.result.name) :
    signature.Alike signature :=
  ⟨rfl, rfl, Or.inl ⟨rfl, isWord⟩⟩

/-- Catalogs in which all names of types are words. -/
def Catalog.IsPlain (catalog : Catalog) : Prop :=
  ∀ signature ∈ catalog.signatures, IsWord signature.result.name ∧
    ∀ ty ∈ signature.params, IsWord ty.name

instance (catalog : Catalog) : Decidable catalog.IsPlain :=
  inferInstanceAs (Decidable (∀ signature ∈ catalog.signatures, _))

/-- Scopes that differ in nameless results only, and whose names are words. -/
structure Scope.Alike (scope scope' : Scope) : Prop where
  plain : scope.catalog.IsPlain
  catalog : scope'.catalog = scope.catalog
  structs : scope'.structs = scope.structs
  globals : scope'.globals = scope.globals
  locals : scope'.locals = scope.locals
  functions : List.Forall₂ Signature.Alike scope.functions scope'.functions
  words : ∀ frame ∈ scope.frames, ∀ declared ∈ frame, IsWord declared.name
  structWords : ∀ entry ∈ scope.structs, IsWord entry.1 ∧ IsWord entry.2.name

namespace Scope.Alike

theorem initial {catalog : Catalog} (plain : catalog.IsPlain) :
    (Scope.initial catalog).Alike (Scope.initial catalog) where
  plain
  catalog := rfl
  structs := rfl
  globals := rfl
  locals := rfl
  functions := .nil
  words := by
    have builtin : ∀ declared ∈ builtinFrame, IsWord declared.name := by decide
    simpa [Scope.initial, frames] using builtin
  structWords := by simp [Scope.initial]

variable {scope scope' : Scope} (h : scope.Alike scope')
include h

theorem push : scope.push.Alike scope'.push :=
  ⟨h.plain, h.catalog, h.structs, h.globals, by simp [Scope.push, h.locals], h.functions,
    by simpa [Scope.push, frames] using h.words, h.structWords⟩

theorem pop : scope.pop.Alike scope'.pop := by
  refine ⟨h.plain, h.catalog, h.structs, h.globals, by simp [Scope.pop, h.locals], h.functions, ?_,
    h.structWords⟩
  intro frame member
  refine h.words frame ?_
  rcases List.mem_append.1 member with inner | outer
  · exact List.mem_append_left _ (List.mem_of_mem_tail inner)
  · exact List.mem_append_right _ outer

theorem declare {declared : Variable} (isWord : IsWord declared.name) :
    (scope.declare declared).Alike (scope'.declare declared) := by
  obtain ⟨plain, catalog, structs, globals, locals, functions, words, structWords⟩ := h
  unfold Scope.declare
  rw [locals]
  cases shape : scope.locals with
  | nil =>
    refine ⟨plain, catalog, structs, by simp [globals], by simp, functions, ?_, structWords⟩
    simpa [frames, shape, isWord] using words
  | cons frame frames' =>
    refine ⟨plain, catalog, structs, globals, rfl, functions, ?_, structWords⟩
    simpa [frames, shape, isWord] using words

theorem declareFunction {signature signature' : Signature}
    (alike : signature.Alike signature') :
    (scope.declareFunction signature).Alike (scope'.declareFunction signature') :=
  ⟨h.plain, h.catalog, h.structs, h.globals, h.locals,
    List.rel_append h.functions (.cons alike .nil), h.words,
    h.structWords⟩

theorem declareStruct {ty : Ty} (isWord : ty.name = "" ∨ IsWord ty.name) :
    (scope.declareStruct ty).Alike (scope'.declareStruct ty) := by
  unfold Scope.declareStruct
  split_ifs with nameless
  · exact h
  · have word : IsWord ty.name :=
      isWord.resolve_left fun same => nameless (by rw [same]; rfl)
    have inner : ∀ {before before' : Scope}, before.Alike before' → Scope.Alike
        { before with structs := (ty.name, ty) :: before.structs }
        { before' with structs := (ty.name, ty) :: before'.structs } := fun alike =>
      ⟨alike.plain, alike.catalog, by simp [alike.structs], alike.globals, alike.locals,
        alike.functions, alike.words, by simpa [word] using alike.structWords⟩
    cases ty with
    | struct name fields => exact inner (h.declareFunction (.refl word))
    | primitive name => exact inner h
    | vector element size => exact inner h

theorem lookup?_eq (name : String) : scope'.lookup? name = scope.lookup? name := by
  simp [Scope.lookup?, frames, h.globals, h.locals]

theorem type?_eq (name : String) : scope'.type? name = scope.type? name := by
  simp [Scope.type?, h.structs]

theorem lookup?_of_not_isWord {name : String} (noWord : ¬ IsWord name) :
    scope.lookup? name = none := by
  refine List.findSome?_eq_none_iff.2 fun frame member =>
    List.find?_eq_none.2 fun declared listed => ?_
  simp only [decide_eq_true_eq]
  rintro rfl
  exact noWord (h.words frame member declared listed)

theorem type?_of_not_isWord {name : String} (noWord : ¬ IsWord name) :
    scope.type? name = none := by
  have builtin : ∀ entry ∈ Ty.builtinTypes, IsWord entry.1 := by decide
  exact Option.or_eq_none_iff.2
    ⟨Ty.lookup_of_not_isWord builtin noWord,
      Ty.lookup_of_not_isWord (fun entry member => (h.structWords entry member).1) noWord⟩

/-- Known types have words for names. -/
theorem isWord_of_type? {name : String} {ty : Ty} (known : scope.type? name = some ty) :
    IsWord ty.name := by
  have builtin : ∀ entry ∈ Ty.builtinTypes, IsWord entry.2.name := by decide
  have listed : ∀ entries : List (String × Ty), (∀ entry ∈ entries, IsWord entry.2.name) →
      entries.lookup name = some ty → IsWord ty.name := by
    intro entries words found
    obtain ⟨before, after, rfl, -⟩ := List.lookup_eq_some_iff.1 found
    exact words (name, ty) (by simp)
  rcases Option.or_eq_some_iff.1 known with found | ⟨-, found⟩
  · exact listed _ builtin found
  · exact listed _ (fun entry member => (h.structWords entry member).2) found

theorem overloads (name : String) :
    List.Forall₂ Signature.Alike (scope.overloads name) (scope'.overloads name) := by
  unfold Scope.overloads
  rw [h.catalog]
  refine List.rel_append (R := Signature.Alike) ?_ (List.forall₂_same.2 fun signature member => ?_)
  · refine List.rel_filter ?_ h.functions
    intro signature signature' alike
    simp [alike.name]
  · rw [Catalog.overloads_eq_filter] at member
    exact .refl (h.plain signature (List.mem_filter.1 member).1).1

end Scope.Alike

/-- Grammatical trees whose names are words. -/
structure Tree.IsSound (tree : Tree) : Prop where
  grammatical : tree.Grammatical
  words : ∀ token ∈ tree.leaves, token.kind = .identifier → IsWord token.text

namespace Tree.IsSound

theorem child {kind : NodeKind} {children : List Tree}
    (h : (Tree.node kind children).IsSound)
    {tree : Tree} (member : tree ∈ children) : tree.IsSound :=
  ⟨h.grammatical.child tree member,
    fun token listed => h.words token (leaves_subset member listed)⟩

theorem findChild? {tree child : Tree} (h : tree.IsSound) {kind : NodeKind}
    (found : tree.findChild? kind = some child) : child.IsSound ∧ child.hasKind kind := by
  cases tree with
  | leaf token => cases found
  | node _ children =>
    exact ⟨h.child (List.mem_of_find?_eq_some found), List.find?_some (p := (hasKind · kind)) found⟩

theorem isWord_childToken {tree : Tree} (h : tree.IsSound) {token : Token}
    (listed : token ∈ tree.childTokens) (isName : token.kind = .identifier) :
    IsWord token.text := by
  cases tree with
  | leaf token => cases listed
  | node _ children =>
    obtain ⟨child, member, isLeaf⟩ := List.mem_filterMap.1 listed
    cases child with
    | leaf token' =>
      cases isLeaf
      exact h.words token (leaves_subset member List.mem_cons_self) isName
    | node => cases isLeaf

theorem isWord_identifier? {tree : Tree} (h : tree.IsSound) {token : Token}
    (found : tree.identifier? = some token) : IsWord token.text :=
  h.isWord_childToken (List.mem_of_find?_eq_some found) (by simpa using List.find?_some found)

end Tree.IsSound

/-! ### Declared types -/

theorem namedType_fst (scope : Scope) (specifier : Tree) (findings : Findings) :
    (namedType scope specifier findings).1 = specifier.typeName?.bind scope.type? := by
  unfold namedType
  cases specifier.typeName? with
  | none => rfl
  | some name =>
    simp only [Option.bind_some]
    split
    · simp_all
    · rfl

theorem specifiedType_fst (scope : Scope) (kind : NodeKind) (children : List Tree)
    (findings : Findings) :
    (specifiedType scope (.node kind children) findings).1 =
      (structAmong scope children findings).1.or
        ((Tree.node kind children).typeName?.bind scope.type?) := by
  rw [specifiedType]
  rcases structAmong scope children findings with ⟨_ | ty, findings⟩
  · exact namedType_fst _ _ _
  · rfl

section Types

variable {f : Token → Token} {scope scope' : Scope}

theorem fieldsOf_respell (respelling : Respelling f) (member : Tree) (ty : Option Ty) :
    fieldsOf (member.respell f) ty = fieldsOf member ty := by
  cases ty with
  | none => rfl
  | some ty =>
    simp only [fieldsOf, Tree.childTokens_respell, List.filter_map, List.map_map]
    have same : (fun token : Token => decide (token.kind = .identifier)) ∘ f =
        fun token => decide (token.kind = .identifier) := funext respelling.identifier_eq
    rw [same]
    refine List.map_congr_left fun token member => ?_
    have isName : token.kind = .identifier := by simpa using (List.mem_filter.1 member).2
    simp [respelling.keeps token (by rw [isName]; rfl)]

mutual

/-- A type specifier stands for the same type. -/
theorem specifiedType_respell (respelling : Respelling f)
    (types : scope'.type? = scope.type?) :
    ∀ (tree : Tree), tree.Grammatical → tree.hasKind .typeSpecifier →
      ∀ findings findings',
      (specifiedType scope' (tree.respell f) findings').1 =
        (specifiedType scope tree findings).1
  | .leaf token, _, isKind, _, _ => by cases isKind
  | .node kind children, grammatical, isKind, findings, findings' => by
    obtain rfl : kind = .typeSpecifier := by simpa [Tree.hasKind, Tree.kind?] using isKind
    have structs :=
      structAmong_respell respelling types children grammatical.child findings findings'
    have name := respelling.typeName?_respell grammatical
    rw [Tree.respell_node] at name ⊢
    rw [specifiedType_fst, specifiedType_fst, structs, name, types]

theorem structAmong_respell (respelling : Respelling f)
    (types : scope'.type? = scope.type?) :
    ∀ (trees : List Tree), (∀ tree ∈ trees, tree.Grammatical) → ∀ findings findings',
      (structAmong scope' (trees.map (Tree.respell f)) findings').1 =
        (structAmong scope trees findings).1
  | [], _, _, _ => rfl
  | tree :: trees, grammatical, findings, findings' => by
    have here :=
      structType_respell respelling types tree (grammatical tree List.mem_cons_self) findings
        findings'
    have behind := structAmong_respell respelling types trees
      (fun tree member => grammatical tree (List.mem_cons_of_mem _ member)) findings findings'
    rw [List.map_cons, structAmong, structAmong, Tree.hasKind_respell]
    split_ifs
    · simp [here]
    · exact behind

theorem structType_respell (respelling : Respelling f)
    (types : scope'.type? = scope.type?) :
    ∀ (tree : Tree), tree.Grammatical → ∀ findings findings',
      (structType scope' (tree.respell f) findings').1 =
        (structType scope tree findings).1
  | .leaf token, _, _, _ => by simp [structType]
  | .node kind children, grammatical, findings, findings' => by
    have members :=
      membersOf_respell respelling types children grammatical.child findings findings'
    have name := respelling.identifier?_respell (.node kind children)
    rw [Tree.respell_node] at name ⊢
    simp only [structType, name, members]

theorem membersOf_respell (respelling : Respelling f)
    (types : scope'.type? = scope.type?) :
    ∀ (trees : List Tree), (∀ tree ∈ trees, tree.Grammatical) → ∀ findings findings',
      (membersOf scope' (trees.map (Tree.respell f)) findings').1 =
        (membersOf scope trees findings).1
  | [], _, _, _ => rfl
  | tree :: trees, grammatical, findings, findings' => by
    have here :=
      memberOf_respell respelling types tree (grammatical tree List.mem_cons_self)
    have behind := membersOf_respell respelling types trees
      (fun tree member => grammatical tree (List.mem_cons_of_mem _ member))
    rw [List.map_cons, membersOf, membersOf, Tree.hasKind_respell]
    split_ifs
    · simp only [here findings findings', behind (memberOf scope tree findings).2
        (memberOf scope' (tree.respell f) findings').2]
    · simp only [behind findings findings']

theorem memberOf_respell (respelling : Respelling f)
    (types : scope'.type? = scope.type?) :
    ∀ (tree : Tree), tree.Grammatical → ∀ findings findings',
      (memberOf scope' (tree.respell f) findings').1 = (memberOf scope tree findings).1
  | .leaf token, _, _, _ => by simp [memberOf]
  | .node kind children, grammatical, findings, findings' => by
    have type :=
      specifierAmong_respell respelling types children grammatical.child findings findings'
    have fields := fieldsOf_respell respelling (.node kind children)
    rw [Tree.respell_node] at fields ⊢
    simp only [memberOf, type, fields]

theorem specifierAmong_respell (respelling : Respelling f)
    (types : scope'.type? = scope.type?) :
    ∀ (trees : List Tree), (∀ tree ∈ trees, tree.Grammatical) → ∀ findings findings',
      (specifierAmong scope' (trees.map (Tree.respell f)) findings').1 =
        (specifierAmong scope trees findings).1
  | [], _, _, _ => rfl
  | tree :: trees, grammatical, findings, findings' => by
    have here :=
      specifiedType_respell respelling types tree (grammatical tree List.mem_cons_self)
    have behind := specifierAmong_respell respelling types trees
      (fun tree member => grammatical tree (List.mem_cons_of_mem _ member)) findings findings'
    rw [List.map_cons, specifierAmong, specifierAmong, Tree.hasKind_respell]
    split_ifs with isType
    · exact here isType findings findings'
    · exact behind

end

end Types

/-! ### Prototypes -/

/-- Two spellings that are the same, or neither of which is a word. -/
def SpelledAlike (text text' : String) : Prop :=
  text' = text ∨ ¬ IsWord text ∧ ¬ IsWord text'

/-- The spelling of a type changes only where it is no word. -/
theorem spelledAlike_respell {f : Token → Token} (respelling : Respelling f) {tree : Tree}
    (grammatical : tree.Grammatical) (isType : tree.hasKind .typeSpecifier) :
    SpelledAlike tree.text (tree.respell f).text := by
  obtain ⟨children, rfl⟩ := Tree.exists_children_of_hasKind isType
  rcases type_single_or_compound grammatical with ⟨token, rfl, noLiteral⟩ | compound
  · left
    simp [respelling.keeps token noLiteral]
  · have compound' : Compound ((Tree.node .typeSpecifier children).respell f).leaves := by
      rw [Tree.leaves_respell]
      exact compound.map respelling
    exact Or.inr ⟨Compound.not_isWord compound, compound'.not_isWord⟩

/-- Parameters that differ in what is no word. -/
structure Parameter.Alike (param param' : Parameter) : Prop where
  typeText : SpelledAlike param.typeText param'.typeText
  typeName : param'.typeName = param.typeName
  name : param'.name = param.name
  isArray : param'.isArray = param.isArray
  isWord : ∀ name, param.name = some name → IsWord name

theorem Parameter.exists_respell {f : Token → Token} (respelling : Respelling f)
    {tree : Tree} (sound : tree.IsSound) {param : Parameter}
    (read : ofTree? tree = some param) :
    ∃ param', ofTree? (tree.respell f) = some param' ∧ param.Alike param' := by
  simp only [ofTree?, Option.bind_eq_bind, Option.bind_eq_some_iff] at read
  obtain ⟨specifier, found, first, starts, read⟩ := read
  cases read
  obtain ⟨specified, isType⟩ := sound.findChild? found
  have starts' : (specifier.respell f).firstToken? = some (f first) := by
    rw [Tree.firstToken?_eq] at starts ⊢
    rw [Tree.leaves_respell, List.head?_map, starts, Option.map_some]
  have named : (specifier.respell f).typeName? = specifier.typeName? := by
    obtain ⟨children, rfl⟩ := Tree.exists_children_of_hasKind isType
    exact respelling.typeName?_respell specified.grammatical
  have name := respelling.identifier?_respell tree
  refine ⟨⟨(specifier.respell f).text, specifier.typeName?, tree.identifier?.map Token.text,
    specifier.isArray || tree.isArray, (f first).index⟩, ?_, ?_, rfl, rfl, rfl, ?_⟩
  · simp [ofTree?, found, starts', named, name]
  · exact spelledAlike_respell respelling specified.grammatical isType
  · intro name known
    obtain ⟨token, found, rfl⟩ := Option.map_eq_some_iff.1 known
    exact sound.isWord_identifier? found

/-- Prototypes that differ in what is no word. -/
structure Prototype.Alike (prototype prototype' : Prototype) : Prop where
  name : prototype'.name = prototype.name
  result : SpelledAlike prototype.result prototype'.result
  params : List.Forall₂ Parameter.Alike prototype.params prototype'.params

theorem exists_params_respell {f : Token → Token} (respelling : Respelling f)
    {trees : List Tree} (sound : ∀ tree ∈ trees, tree.IsSound) {params : List Parameter}
    (read : trees.mapM Parameter.ofTree? = some params) :
    ∃ params', (trees.map (Tree.respell f)).mapM Parameter.ofTree? = some params' ∧
      List.Forall₂ Parameter.Alike params params' := by
  induction trees generalizing params with
  | nil =>
    cases read
    exact ⟨[], rfl, .nil⟩
  | cons tree trees ih =>
    simp only [List.mapM_cons, Option.bind_eq_bind, Option.bind_eq_some_iff] at read
    obtain ⟨param, first, others, later, read⟩ := read
    cases read
    obtain ⟨param', first', alike⟩ :=
      Parameter.exists_respell respelling (sound tree List.mem_cons_self) first
    obtain ⟨others', later', alikes⟩ :=
      ih (fun tree member => sound tree (List.mem_cons_of_mem _ member)) later
    exact ⟨param' :: others', by simp [first', later'], .cons alike alikes⟩

theorem Prototype.exists_respell {f : Token → Token} (respelling : Respelling f)
    {tree : Tree} (sound : tree.IsSound) {prototype : Prototype}
    (read : ofTree? tree = some prototype) :
    ∃ prototype', ofTree? (tree.respell f) = some prototype' ∧
      prototype.Alike prototype' := by
  simp only [ofTree?, Option.bind_eq_bind, Option.bind_eq_some_iff] at read
  obtain ⟨name, named, type, typed, specifier, found, params, listed, read⟩ := read
  cases read
  obtain ⟨typeSound, -⟩ := sound.findChild? typed
  obtain ⟨specified, isType⟩ := typeSound.findChild? found
  have below : ∀ child ∈ tree.children.filter (·.hasKind .parameterDeclaration),
      child.IsSound := by
    intro child member
    cases tree with
    | leaf token => cases member
    | node kind children => exact sound.child (List.mem_filter.1 member).1
  obtain ⟨params', listed', alikes⟩ := exists_params_respell respelling below listed
  have same : (Tree.hasKind · .parameterDeclaration) ∘ Tree.respell f =
      (Tree.hasKind · .parameterDeclaration) :=
    funext fun child => Tree.hasKind_respell f child _
  refine ⟨⟨name.text, (specifier.respell f).text, params'⟩, ?_, rfl,
    spelledAlike_respell respelling specified.grammatical isType, alikes⟩
  simp [ofTree?, respelling.identifier?_respell, named, typed, found, List.filter_map,
    same, listed']

theorem SpelledAlike.eq_of_isWord {text text' : String} (h : SpelledAlike text text')
    (isWord : IsWord text') : text' = text :=
  h.resolve_right fun noWord => noWord.2 isWord

theorem matchesParams_alike {types : List Ty} {params params' : List Parameter}
    (alike : List.Forall₂ Parameter.Alike params params')
    (words : ∀ ty ∈ types, IsWord ty.name) (h : Prototype.matchesParams types params') :
    Prototype.matchesParams types params := by
  induction alike generalizing types with
  | nil => exact h
  | @cons param param' params params' first others ih =>
    cases types with
    | nil => cases h
    | cons ty types =>
      simp only [Prototype.matchesParams, Bool.and_eq_true, decide_eq_true_eq] at h ⊢
      obtain ⟨⟨plain, spelling⟩, later⟩ := h
      have isWord : IsWord param'.typeText := spelling ▸ words ty List.mem_cons_self
      exact ⟨⟨first.isArray ▸ plain, spelling.trans (first.typeText.eq_of_isWord isWord)⟩,
        ih (fun ty member => words ty (List.mem_cons_of_mem _ member)) later⟩

/-- What redeclares no builtin does so with other spellings neither. -/
theorem Prototype.Alike.isBuiltin {prototype prototype' : Prototype}
    (alike : prototype.Alike prototype') {catalog : Catalog} (plain : catalog.IsPlain)
    (h : prototype'.isBuiltin catalog) : prototype.isBuiltin catalog := by
  obtain ⟨signature, member, same⟩ := List.any_eq_true.1 h
  obtain ⟨result, params⟩ := Bool.and_eq_true_iff.1 same
  rw [alike.name] at member
  have known : signature ∈ catalog.signatures := by
    rw [Catalog.overloads_eq_filter] at member
    exact (List.mem_filter.1 member).1
  obtain ⟨isWord, words⟩ := plain signature known
  rw [of_decide_eq_true result] at isWord
  refine List.any_eq_true.2 ⟨signature, member, Bool.and_eq_true_iff.2 ⟨decide_eq_true ?_, ?_⟩⟩
  · exact (of_decide_eq_true result).trans (alike.result.eq_of_isWord isWord)
  · exact matchesParams_alike alike.params words params

/-! ### Declarations -/

section Declarations

variable {f : Token → Token} {scope scope' : Scope}

theorem Parameter.Alike.ty_eq {param param' : Parameter} (alike : param.Alike param')
    (h : scope.Alike scope') : param'.ty scope' = param.ty scope := by
  rw [Parameter.ty, alike.typeName, funext h.type?_eq, Parameter.ty]

theorem map_ty_eq {params params' : List Parameter}
    (alike : List.Forall₂ Parameter.Alike params params') (h : scope.Alike scope') :
    params'.map (·.ty scope') = params.map (·.ty scope) := by
  induction alike with
  | nil => rfl
  | cons first _ ih => rw [List.map_cons, first.ty_eq h, ih, List.map_cons]

/-- A function is declared alike. -/
theorem Prototype.Alike.signature {prototype prototype' : Prototype}
    (alike : prototype.Alike prototype') (h : scope.Alike scope') :
    (prototype.signature scope).Alike (prototype'.signature scope') := by
  refine ⟨alike.name, map_ty_eq alike.params h, ?_⟩
  · simp only [Prototype.signature]
    have nameless : ∀ {text}, ¬ IsWord text →
        ((scope.type? text).getD (.primitive text)).IsNameless := by
      intro text noWord
      rw [h.type?_of_not_isWord noWord]
      exact ⟨Ty.isDull_of_not_isWord noWord, noWord⟩
    rw [h.type?_eq]
    rcases alike.result with same | ⟨noWord, noWord'⟩
    · rw [same]
      by_cases isWord : IsWord prototype.result
      · refine Or.inl ⟨rfl, ?_⟩
        cases known : scope.type? prototype.result with
        | none => exact isWord
        | some ty => exact h.isWord_of_type? known
      · exact Or.inr ⟨nameless isWord, nameless isWord⟩
    · exact Or.inr ⟨nameless noWord, nameless noWord'⟩

/-- Parameters are declared alike. -/
theorem alike_declareParameters {params params' : List Parameter}
    (alike : List.Forall₂ Parameter.Alike params params') (h : scope.Alike scope')
    (findings findings' : Findings) :
    (declareParameters scope findings params).1.Alike
      (declareParameters scope' findings' params').1 := by
  induction alike generalizing scope scope' findings findings' with
  | nil => exact h
  | @cons param param' params params' first others ih =>
    rw [declareParameters, declareParameters]
    refine ih ?_ _ _
    rw [first.name]
    cases name : param.name with
    | none => exact h
    | some name' =>
      simp only [first.ty_eq h, first.isArray]
      exact h.declare (first.isWord name' name)

/-- The names of a member are declared alike. -/
theorem alike_declareNames (respelling : Respelling f) {trees : List Tree} {ty : Ty}
    {typeIsArray : Bool} {pending : Option (String × Bool)} (h : scope.Alike scope')
    (sound : ∀ tree ∈ trees, tree.IsSound)
    (isWord : ∀ name isArray, pending = some (name, isArray) → IsWord name) :
    (declareNames scope ty typeIsArray pending trees).Alike
      (declareNames scope' ty typeIsArray pending (trees.map (Tree.respell f))) := by
  induction trees generalizing scope scope' pending with
  | nil => exact h
  | cons tree trees ih =>
    have here := sound tree List.mem_cons_self
    have behind := fun tree member => sound tree (List.mem_cons_of_mem _ member)
    cases tree with
    | leaf token =>
      have same : (f token).kind = .identifier ↔ token.kind = .identifier :=
        respelling.kind_eq rfl token
      simp only [List.map_cons, Tree.respell_leaf, declareNames]
      by_cases isName : token.kind = .identifier
      · rw [if_pos isName, if_pos (same.2 isName),
          respelling.keeps token (by rw [isName]; rfl)]
        refine ih h behind ?_
        rintro name isArray ⟨⟩
        exact here.words token List.mem_cons_self isName
      · rw [if_neg isName, if_neg (mt same.1 isName)]
        cases pending with
        | none => exact ih h behind (by simp)
        | some entry =>
          obtain ⟨name, isArray⟩ := entry
          exact ih (h.declare (isWord name isArray rfl)) behind (by simp)
    | node kind children =>
      simp only [List.map_cons, Tree.respell_node, declareNames, Tree.hasKind, Tree.kind?]
      by_cases isSize : kind = .arraySpecifier
      · simp only [isSize, decide_true, if_true]
        refine ih h behind ?_
        intro name isArray known
        obtain ⟨⟨name', _⟩, listed, same⟩ := Option.map_eq_some_iff.1 known
        cases same
        exact isWord _ _ listed
      · simp only [Option.some.injEq, isSize, decide_false, Bool.false_eq_true, if_false]
        exact ih h behind isWord

theorem alike_declareMember (respelling : Respelling f) {member : Tree}
    (h : scope.Alike scope') (sound : member.IsSound) :
    (declareMember scope member).Alike (declareMember scope' (member.respell f)) := by
  unfold declareMember
  rw [Tree.hasKind_respell, Tree.findChild?_respell]
  split_ifs
  · cases found : member.findChild? .typeSpecifier with
    | none => exact h
    | some specifier =>
      obtain ⟨specified, isType⟩ := sound.findChild? found
      obtain ⟨parts, rfl⟩ := Tree.exists_children_of_hasKind isType
      simp only [Option.map_some, respelling.typeName?_respell specified.grammatical,
        funext h.type?_eq, Tree.isArray_respell, Tree.children_respell]
      cases (Tree.node .typeSpecifier parts).typeName?.bind scope.type? with
      | none => exact h
      | some ty =>
        cases member with
        | leaf token => cases found
        | node kind children =>
          exact alike_declareNames respelling h (fun tree listed => sound.child listed) (by simp)
  · exact h

theorem alike_declareMembers (respelling : Respelling f) {members : List Tree}
    (h : scope.Alike scope') (sound : ∀ member ∈ members, member.IsSound) :
    (members.foldl declareMember scope).Alike
      ((members.map (Tree.respell f)).foldl declareMember scope') := by
  induction members generalizing scope scope' with
  | nil => exact h
  | cons member members ih =>
    exact ih (alike_declareMember respelling h (sound member List.mem_cons_self))
      fun member listed => sound member (List.mem_cons_of_mem _ listed)

theorem braceOf_respell (respelling : Respelling f) (before : Option Token)
    (tokens : List Token) :
    braceOf (before.map f) (tokens.map f) =
      (braceOf before tokens).map fun (name, inside) => (name.map f, inside.map f) := by
  induction tokens generalizing before with
  | nil => rfl
  | cons token tokens ih =>
    simp only [List.map_cons, braceOf, respelling.is_eq]
    split_ifs
    · rfl
    · exact ih (some token)

/-- The tokens around a brace stand among the tokens of a list. -/
theorem mem_of_braceOf {before name : Option Token} {tokens inside : List Token}
    (h : braceOf before tokens = some (name, inside)) :
    inside ⊆ tokens ∧ (name = before ∨ ∃ token ∈ tokens, name = some token) := by
  induction tokens generalizing before with
  | nil => cases h
  | cons token tokens ih =>
    rw [braceOf] at h
    split_ifs at h
    · cases h
      exact ⟨List.Subset.refl _, Or.inl rfl⟩
    · obtain ⟨within, isName⟩ := ih h
      refine ⟨List.subset_cons_of_subset _ within, Or.inr ?_⟩
      rcases isName with rfl | ⟨other, member, rfl⟩
      · exact ⟨token, List.mem_cons_self, rfl⟩
      · exact ⟨other, List.mem_cons_of_mem _ member, rfl⟩

/-- An interface block is declared alike. -/
theorem alike_declareBlock (respelling : Respelling f) {block : Tree}
    (h : scope.Alike scope') (sound : block.IsSound) (findings findings' : Findings) :
    (declareBlock scope block findings).1.Alike
      (declareBlock scope' (block.respell f) findings').1 := by
  have braces := braceOf_respell respelling none block.childTokens
  have fields : (membersOf scope' (block.respell f).children findings').1 =
      (membersOf scope block.children findings).1 := by
    rw [Tree.children_respell]
    refine membersOf_respell respelling (funext h.type?_eq) _ ?_ findings findings'
    cases block with
    | leaf token => simp [Tree.children]
    | node kind children => exact sound.grammatical.child
  have members : ∀ member ∈ block.children, member.IsSound := by
    cases block with
    | leaf token => simp [Tree.children]
    | node kind children => exact fun member listed => sound.child listed
  unfold declareBlock
  rw [Tree.childTokens_respell]
  rw [Option.map_none] at braces
  rw [braces]
  cases brace : braceOf none block.childTokens with
  | none => exact h
  | some pair =>
    obtain ⟨_ | blockName, inside⟩ := pair
    · exact h
    obtain ⟨within, isName⟩ := mem_of_braceOf brace
    have blockWord : blockName.kind = .identifier → IsWord blockName.text := by
      obtain ⟨token, member, ⟨⟩⟩ := isName.resolve_left (by simp)
      exact sound.isWord_childToken member
    have same := respelling.identifier_eq blockName
    simp only [Option.map_some, fields]
    by_cases isName : blockName.kind = .identifier
    · have kept := respelling.keeps blockName (by rw [isName]; rfl)
      rw [kept, if_pos isName, if_pos isName, respelling.find?_identifier]
      generalize type : Ty.structOf blockName.text (membersOf scope block.children findings).1 = ty
      have isWord : ty.name = "" ∨ IsWord ty.name := Or.inr (type ▸ blockWord isName)
      cases found : inside.find? fun token => decide (token.kind = .identifier) with
      | some instanceName =>
        have instanceWord :=
          sound.isWord_childToken (within (List.mem_of_find?_eq_some found))
            (by simpa using List.find?_some found)
        simp only [Tree.isArray_respell]
        exact (h.declareStruct isWord).declare instanceWord
      | none =>
        rw [Tree.children_respell]
        exact (alike_declareMembers respelling h members).declareStruct isWord
    · rw [if_neg isName, if_neg (by simpa [isName] using same)]
      exact h

end Declarations

end ShaderDialect
