import ShaderDialect.Catalog.Bundled
import ShaderDialect.Proofs.Scoping

/-!
# Scopes without floating types

In a shader that names no floating type, no expression has one. What may still
ask for floating operands is the catalog, since conversions to `int` and `bool`
take a `float` as well; but they prefer an integer to it. So no call expects a
floating argument, and no expression demands floating operands.
-/

namespace ShaderDialect

/-- The floating scalar, vectors and matrices. -/
def floatNames : List String :=
  ["float", "vec2", "vec3", "vec4", "mat2", "mat3", "mat4"]

theorem mem_of_lookup {entries : List (String × Ty)} {name : String} {ty : Ty}
    (found : entries.lookup name = some ty) : (name, ty) ∈ entries := by
  obtain ⟨before, after, rfl, -⟩ := List.lookup_eq_some_iff.1 found
  simp

/-- A type that is not floating, and whose members and elements are not. -/
inductive Ty.FloatFree : Ty → Prop
  | primitive {name : String} (other : name ∉ floatNames) : FloatFree (.primitive name)
  | struct {name : String} {fields : List (String × Ty)} (other : name ∉ floatNames)
      (inside : ∀ field ∈ fields, FloatFree field.2) : FloatFree (.struct name fields)
  | vector {element : String} (integral : element = "int" ∨ element = "bool") (size : Nat) :
      FloatFree (.vector (.primitive element) size)

namespace Ty.FloatFree

theorem name_notMem {ty : Ty} (h : ty.FloatFree) : ty.name ∉ floatNames := by
  cases h with
  | primitive other => exact other
  | struct other inside => exact other
  | vector integral size =>
    -- The names of these vectors begin with another letter.
    intro listed
    have first : ∀ name ∈ floatNames,
        name.toList.head? ∈ [some 'f', some 'v', some 'm'] := by
      decide
    have letter := first _ listed
    rcases integral with rfl | rfl <;> simp [Ty.name, vectorStem?] at letter

theorem isFloat_eq_false {ty : Ty} (h : ty.FloatFree) : ty.isFloat = false := by
  refine decide_eq_false fun isFloat => h.name_notMem ?_
  rw [isFloat]
  decide

theorem isFloatScalarOrVector_eq_false {ty : Ty} (h : ty.FloatFree) :
    ty.isFloatScalarOrVector = false := by
  refine Bool.eq_false_iff.2 fun stores => h.name_notMem ?_
  have sub : ["float", "vec2", "vec3", "vec4"] ⊆ floatNames := by decide
  exact sub (List.contains_iff_mem.1 stores)

theorem swizzle {element : String} (integral : element = "int" ∨ element = "bool")
    {size : Nat}
    {letters : String} {ty : Ty} (h : Ty.swizzle (.primitive element) size letters = .ok ty) :
    ty.FloatFree := by
  have other : element ∉ floatNames := by rcases integral with rfl | rfl <;> decide
  unfold Ty.swizzle at h
  split at h
  · cases h
  · split at h
    · cases h
    · split at h
      · cases h
        exact .primitive other
      · split at h
        · cases h
        · split at h
          · cases h
          · rename_i result found
            cases h
            unfold vector? at found
            split at found
            · cases found
            · split_ifs at found
              cases found
              exact .vector integral _

theorem member {ty inner : Ty} {field : String} (h : ty.FloatFree)
    (found : ty.member field = .ok inner) : inner.FloatFree := by
  cases h with
  | primitive other => cases found
  | @struct name fields other inside =>
    unfold Ty.member at found
    simp only at found
    split at found
    · rename_i result listed
      cases found
      exact inside _ (mem_of_lookup listed)
    · cases found
  | vector integral size => exact swizzle integral found

theorem element? {ty inner : Ty} (h : ty.FloatFree) (found : ty.element? = some inner) :
    inner.FloatFree := by
  cases h with
  | @primitive name other =>
    unfold Ty.element? at found
    split at found
    · rename_i shape
      cases shape
    · rename_i shape
      cases shape
      exact absurd (by decide) other
    · rename_i shape
      cases shape
      exact absurd (by decide) other
    · rename_i shape
      cases shape
      exact absurd (by decide) other
    · cases found
  | struct other inside => cases found
  | vector integral size =>
    cases found
    rcases integral with rfl | rfl <;> exact .primitive (by decide)

theorem builtin? {name : String} {ty : Ty} (found : Ty.builtin? name = some ty)
    (other : name ∉ floatNames) : ty.FloatFree := by
  obtain ⟨listed, rfl⟩ := mem_of_builtin? found
  rcases List.mem_append.1 listed with isPrimitive | isVector
  · obtain ⟨name, -, rfl⟩ := List.mem_map.1 isPrimitive
    exact .primitive other
  · simp only [builtinVectors, List.mem_flatMap, List.mem_map] at isVector
    obtain ⟨element, isElement, size, isSize, rfl⟩ := isVector
    have integral : ∀ element ∈ ["float", "bool", "int"], ∀ size ∈ [2, 3, 4],
        (Ty.vector (.primitive element) size).name ∉ floatNames → element = "int" ∨
          element = "bool" := by
      decide
    exact .vector (integral element isElement size isSize other) size

theorem insertField {fields : List (String × Ty)}
    (inside : ∀ field ∈ fields, field.2.FloatFree) (name : String) {ty : Ty}
    (h : ty.FloatFree) :
    ∀ field ∈ Ty.insertField fields name ty, field.2.FloatFree := by
  induction fields with
  | nil => simpa [Ty.insertField] using h
  | cons first others ih =>
    obtain ⟨here, behind⟩ := List.forall_mem_cons.1 inside
    obtain ⟨other, old⟩ := first
    unfold Ty.insertField
    split
    · exact List.forall_mem_cons.2 ⟨h, behind⟩
    · exact List.forall_mem_cons.2 ⟨here, ih behind⟩

theorem insertFields {known fields : List (String × Ty)}
    (sound : ∀ field ∈ known, field.2.FloatFree)
    (inside : ∀ field ∈ fields, field.2.FloatFree) :
    ∀ field ∈ fields.foldl (fun known field => Ty.insertField known field.1 field.2) known,
      field.2.FloatFree := by
  induction fields generalizing known with
  | nil => exact sound
  | cons first others ih =>
    obtain ⟨here, behind⟩ := List.forall_mem_cons.1 inside
    exact ih (insertField sound first.1 here) behind

theorem structOf {name : String} (other : name ∉ floatNames) {fields : List (String × Ty)}
    (inside : ∀ field ∈ fields, field.2.FloatFree) :
    (Ty.structOf name fields).FloatFree :=
  .struct other (insertFields (List.forall_mem_nil _) inside)

end Ty.FloatFree

/-! ### Tokens and scopes -/

/-- Whether every overload with floating parameters comes after one that takes
integers in their places. -/
def prefersIntegers (before : List Signature) : List Signature → Bool
  | [] => true
  | signature :: others =>
    (signature.params.all (! ·.isFloat) || before.any fun earlier =>
        earlier.params.map Ty.name = signature.params.map fun param =>
          if param.isFloat then "int" else param.name) &&
      prefersIntegers (before ++ [signature]) others

/-- A token that is no floating literal and names nothing floating. -/
structure Token.FloatFree (token : Token) : Prop where
  literal : token.kind ≠ .floatLiteral
  number : Inference.isPlainFloat token.text.toList = false
  type : token.text ∉ floatNames
  builtin : token.text ∉ Scope.builtinVariables.map Prod.fst
  overloads : prefersIntegers [] (Catalog.bundled.overloads token.text)
  result : (Ty.builtin? token.text).isSome ∨ Catalog.bundled.overloads token.text = []
  function : token.kind = .identifier → Catalog.bundled.overloads token.text = []

def Tree.FloatFree (tree : Tree) : Prop :=
  ∀ token ∈ tree.leaves, token.FloatFree

/-- A scope of the bundled catalog that has nothing floating but the builtin
variables. -/
structure Scope.FloatFree (scope : Scope) : Prop where
  catalog : scope.catalog = Catalog.bundled
  frames : ∀ frame ∈ scope.frames, ∀ declared ∈ frame,
    declared.ty.FloatFree ∨ declared.name ∈ builtinVariables.map Prod.fst
  params : ∀ signature ∈ scope.functions, ∀ param ∈ signature.params, param.FloatFree
  results : ∀ signature ∈ scope.functions, signature.result.FloatFree
  structs : ∀ entry ∈ scope.structs, entry.2.FloatFree

namespace Tree

theorem FloatFree.child {kind : NodeKind} {children : List Tree}
    (h : (node kind children).FloatFree)
    {child : Tree} (member : child ∈ children) : child.FloatFree :=
  fun token listed => h token (leaves_subset member listed)

/-- A type is named by one of its tokens. -/
theorem exists_token_of_typeName? {tree : Tree} {name : String}
    (found : tree.typeName? = some name) :
    ∃ token ∈ tree.leaves, token.text = name := by
  unfold typeName? at found
  cases tree with
  | leaf token => cases found
  | node kind children =>
    cases children with
    | nil => cases found
    | cons first others =>
      cases first with
      | leaf token =>
        cases found
        exact ⟨token, by simp, rfl⟩
      | node inner parts =>
        obtain ⟨token, named, rfl⟩ := Option.map_eq_some_iff.1 found
        exact ⟨token, leaves_subset List.mem_cons_self (mem_leaves_of_identifier? _ named), rfl⟩

/-- A call is named by one of its tokens. -/
theorem exists_token_of_callName? {tree : Tree} {name : String}
    (found : tree.callName? = some name) :
    ∃ token ∈ tree.leaves, token.text = name := by
  unfold callName? at found
  cases tree with
  | leaf token => cases found
  | node kind children =>
    cases children with
    | nil => cases found
    | cons first others =>
      cases first with
      | leaf token =>
        cases found
        exact ⟨token, by simp, rfl⟩
      | node inner parts =>
        replace found : (if (node inner parts).hasKind .typeSpecifier then
          (node inner parts).typeName? else none) = some name := found
        split_ifs at found
        obtain ⟨token, listed, rfl⟩ := exists_token_of_typeName? found
        exact ⟨token, leaves_subset List.mem_cons_self listed, rfl⟩

end Tree

namespace Scope.FloatFree

variable {scope : Scope} (h : scope.FloatFree)

theorem initial : (Scope.initial Catalog.bundled).FloatFree where
  catalog := rfl
  frames := by
    intro frame listed declared member
    right
    obtain rfl : frame = builtinFrame := by
      simpa [Scope.initial, Scope.frames] using listed
    obtain ⟨⟨name, type, isArray⟩, known, read⟩ := List.mem_filterMap.1 member
    obtain ⟨ty, -, rfl⟩ := Option.map_eq_some_iff.1 read
    exact List.mem_map_of_mem (f := Prod.fst) known
  params := List.forall_mem_nil _
  results := List.forall_mem_nil _
  structs := List.forall_mem_nil _

include h

theorem lookup? {name : String} {found : Variable}
    (other : name ∉ builtinVariables.map Prod.fst)
    (known : scope.lookup? name = some found) : found.ty.FloatFree := by
  obtain ⟨frame, listed, here⟩ := List.exists_of_findSome?_eq_some known
  have named : found.name = name := by simpa using List.find?_some here
  exact (h.frames frame listed found (List.mem_of_find?_eq_some here)).resolve_right (named ▸ other)

theorem type? {name : String} {ty : Ty} (other : name ∉ floatNames)
    (known : scope.type? name = some ty) : ty.FloatFree := by
  rcases Option.or_eq_some_iff.1 known with builtin | ⟨-, declared⟩
  · exact .builtin? builtin other
  · exact h.structs _ (mem_of_lookup declared)

/-! Declarations of float-free things keep a scope float-free. -/

theorem push : scope.push.FloatFree :=
  ⟨h.catalog, List.forall_mem_cons.2 ⟨List.forall_mem_nil _, h.frames⟩, h.params,
   h.results, h.structs⟩

theorem pop : scope.pop.FloatFree := by
  refine ⟨h.catalog, fun frame listed => h.frames frame ?_, h.params, h.results,
    h.structs⟩
  rcases List.mem_append.1 listed with isLocal | isGlobal
  · exact List.mem_append_left _ (List.mem_of_mem_tail isLocal)
  · exact List.mem_append_right _ isGlobal

theorem declare {declared : Variable} (ty : declared.ty.FloatFree) :
    (scope.declare declared).FloatFree := by
  have functions := functions_declare scope declared
  have structs := structs_declare scope declared
  refine ⟨(catalog_declare scope declared).trans h.catalog, ?_, functions ▸ h.params,
    functions ▸ h.results, structs ▸ h.structs⟩
  have frames := h.frames
  rw [frames_declare]
  cases shape : scope.frames with
  | nil => exact List.forall_mem_nil _
  | cons frame others =>
    rw [shape, List.forall_mem_cons] at frames
    exact List.forall_mem_cons.2 ⟨List.forall_mem_cons.2 ⟨Or.inl ty, frames.1⟩, frames.2⟩

theorem declareFunction {signature : Signature}
    (params : ∀ param ∈ signature.params, param.FloatFree)
    (result : signature.result.FloatFree) :
    (scope.declareFunction signature).FloatFree := by
  refine ⟨h.catalog, h.frames, ?_, ?_, h.structs⟩
  · exact List.forall_mem_append.2 ⟨h.params, List.forall_mem_singleton.2 params⟩
  · exact List.forall_mem_append.2 ⟨h.results, List.forall_mem_singleton.2 result⟩

theorem declareStruct {ty : Ty} (free : ty.FloatFree) :
    (scope.declareStruct ty).FloatFree := by
  have listed : ∀ {other : Scope}, other.FloatFree →
      Scope.FloatFree { other with structs := (ty.name, ty) :: other.structs } := fun other =>
    ⟨other.catalog, other.frames, other.params, other.results,
      List.forall_mem_cons.2 ⟨free, other.structs⟩⟩
  unfold Scope.declareStruct
  split
  · exact h
  · cases free with
    | @struct name fields other inside =>
      refine listed (h.declareFunction ?_ (.struct other inside))
      exact List.forall_mem_map.2 inside
    | primitive other => exact listed h
    | vector integral size => exact listed h

end Scope.FloatFree

/-! ### Types of expressions -/

namespace Inference

section

variable {scope : Scope} (h : scope.FloatFree)

include h

theorem floatFree_typeOfPrimary? {tree : Tree} (free : tree.FloatFree) {ty : Ty}
    (found : typeOfPrimary? scope tree = some ty) : ty.FloatFree := by
  obtain ⟨token, first, found⟩ := Option.bind_eq_some_iff.1 found
  have own := free token (tree.childTokens_subset (List.mem_of_mem_head? first))
  split at found
  · obtain ⟨declared, known, rfl⟩ := Option.map_eq_some_iff.1 found
    exact h.lookup? own.builtin known
  · exact h.type? (by decide) found
  · exact h.type? (by decide) found
  · rename_i isFloat
    exact absurd isFloat own.literal
  · exact h.type? (by decide) found
  · cases found

theorem floatFree_arrayElement? {tree : Tree} (free : tree.FloatFree) {ty : Ty}
    (found : arrayElement? scope tree = some ty) : ty.FloatFree := by
  unfold arrayElement? at found
  split_ifs at found
  simp only [Option.bind_eq_bind, Option.bind_eq_some_iff] at found
  obtain ⟨name, named, declared, known, found⟩ := found
  split_ifs at found
  cases found
  exact h.lookup? (free name (tree.mem_leaves_of_identifier? named)).builtin known

theorem floatFree_typeOfCall? {tree : Tree} (free : tree.FloatFree) {ty : Ty}
    (found : typeOfCall? scope tree = some ty) : ty.FloatFree := by
  obtain ⟨name, named, found⟩ := Option.bind_eq_some_iff.1 found
  obtain ⟨token, listed, rfl⟩ := Tree.exists_token_of_callName? named
  have own := free token listed
  split at found
  · rename_i known
    cases found
    exact h.type? own.type known
  · rename_i unknown
    -- What is no type is no constructor of the catalog either.
    have none : scope.catalog.overloads token.text = [] := by
      rw [h.catalog]
      refine own.result.resolve_left fun builtin => ?_
      rw [Scope.type?, Option.or_eq_none_iff] at unknown
      rw [unknown.1] at builtin
      cases builtin
    split at found
    · cases found
    · rename_i first others shape
      split_ifs at found
      cases found
      rw [Scope.overloads, none, List.append_nil] at shape
      have member : first ∈ scope.functions.filter (·.name = token.text) :=
        shape ▸ List.mem_cons_self
      exact h.results first (List.mem_filter.1 member).1

end

mutual

theorem floatFree_typeOf {scope : Scope} (h : scope.FloatFree) :
    ∀ {tree : Tree} {ty : Ty}, tree.FloatFree → typeOf scope tree = .ok (some ty) →
      ty.FloatFree
  | .leaf _, _, _, found => by cases found
  | .node kind children, ty, free, found => by
    have nth : ∀ {n}, typeOfNth scope n children = .ok (some ty) → ty.FloatFree :=
      floatFree_typeOfNth h fun child member => free.child member
    unfold typeOf at found
    dsimp only at found
    split at found
    · exact floatFree_typeOfPrimary? h free (Except.ok.inj found)
    · split at found
      · cases found
      · split at found
        · cases found
        · cases found
        · rename_i owner known
          have owned : owner.FloatFree :=
            floatFree_typeOfNth h (fun child member => free.child member) known
          split at found
          · rename_i result member
            cases found
            exact owned.member member
          · cases found
    · split at found
      · rename_i result known
        cases found
        obtain ⟨operand, first, known⟩ := Option.bind_eq_some_iff.1 known
        have member := List.mem_of_mem_filter (List.mem_of_mem_head? first)
        exact floatFree_arrayElement? h (free.child member) known
      · cases known : typeOfNth scope 0 children with
        | error finding =>
          rw [known] at found
          cases found
        | ok owner =>
          rw [known] at found
          obtain ⟨owner, rfl, element⟩ := Option.bind_eq_some_iff.1 (Except.ok.inj found)
          have owned :=
            floatFree_typeOfNth h (fun child member => free.child member) known
          exact owned.element? element
    · exact floatFree_typeOfCall? h free (Except.ok.inj found)
    · exact nth found
    · exact nth found
    · exact nth found
    · exact nth found
    · exact nth found
    · exact nth found
    · cases found

theorem floatFree_typeOfNth {scope : Scope} (h : scope.FloatFree) :
    ∀ {trees : List Tree} {n : Nat} {ty : Ty}, (∀ tree ∈ trees, tree.FloatFree) →
      typeOfNth scope n trees = .ok (some ty) → ty.FloatFree
  | [], _, _, _, found => by simp [typeOfNth] at found
  | tree :: trees, n, ty, free, found => by
    have behind := fun tree member => free tree (List.mem_cons_of_mem _ member)
    unfold typeOfNth at found
    split at found
    · split at found
      · exact floatFree_typeOf h (free tree List.mem_cons_self) found
      · exact floatFree_typeOfNth h behind found
    · exact floatFree_typeOfNth h behind found

end

/-! ### Demands -/

def Query.FloatFree (query : Query) : Prop :=
  ∀ ty, query.recent = some ty → ty.FloatFree

theorem Query.FloatFree.meet {query : Query} {ty : Ty} (free : ty.FloatFree) :
    (query.meet ty).FloatFree := by
  rintro _ ⟨⟩
  exact free

/-- The answer is negative, and the operand met last is not floating. -/
def Declines (answer : Bool × Query) : Prop :=
  answer.1 = false ∧ answer.2.FloatFree

section

variable {scope : Scope} (h : scope.FloatFree)

include h

theorem declines_primaryDemand {tree : Tree} (free : tree.FloatFree) {query : Query}
    (plain : query.FloatFree) : Declines (primaryDemand scope tree query) := by
  unfold primaryDemand
  split
  · exact ⟨rfl, plain⟩
  · rename_i token first
    have own := free token (tree.childTokens_subset (List.mem_of_mem_head? first))
    split
    · rename_i isFloat
      exact absurd isFloat own.literal
    · refine ⟨?_, plain⟩
      cases recent : query.recent with
      | none => rfl
      | some ty => exact (plain ty recent).isFloat_eq_false
    · split
      · rename_i found known
        have type := h.lookup? own.builtin known
        exact ⟨type.isFloat_eq_false, .meet type⟩
      · split
        · exact ⟨rfl, plain⟩
        · exact ⟨rfl, plain⟩
    · exact ⟨rfl, plain⟩

omit h in
theorem declines_memberDemand {field : Option Token} {owner : Except Finding (Option Ty)}
    (type : ∀ ty, owner = .ok (some ty) → ty.FloatFree) {answer : Bool × Query}
    (declines : Declines answer) :
    Declines (memberDemand field owner answer.1 answer.2) := by
  obtain ⟨no, plain⟩ := declines
  unfold memberDemand
  split
  · exact ⟨no, plain⟩
  · split
    · exact ⟨no, plain⟩
    · exact ⟨no, plain⟩
    · split
      · rename_i member
        have inner := (type _ rfl).member member
        exact ⟨by rw [no, inner.isFloat_eq_false]; rfl, .meet inner⟩
      · exact ⟨no, plain⟩

end

mutual

theorem declines_demand {scope : Scope} (h : scope.FloatFree) :
    ∀ {tree : Tree} {query : Query}, tree.FloatFree → query.FloatFree →
      Declines (demand scope tree query)
  | .leaf _, _, _, plain => ⟨rfl, plain⟩
  | .node kind children, query, free, plain => by
    have below := fun child (member : child ∈ children) => free.child member
    unfold demand
    split
    · exact declines_primaryDemand h free plain
    · exact declines_memberDemand (fun _ => floatFree_typeOfNth h below)
        (declines_demandFirst h below plain)
    · exact declines_demandArguments h below plain
    · exact ⟨(declines_demandAll h below plain).1, by rintro _ ⟨⟩⟩
    · exact declines_demandAll h below plain

theorem declines_demandFirst {scope : Scope} (h : scope.FloatFree) :
    ∀ {trees : List Tree} {query : Query}, (∀ tree ∈ trees, tree.FloatFree) →
      query.FloatFree →
      Declines (demandFirst scope trees query)
  | [], _, _, plain => ⟨rfl, plain⟩
  | tree :: trees, query, free, plain => by
    obtain ⟨here, behind⟩ := List.forall_mem_cons.1 free
    unfold demandFirst
    split
    · exact declines_demand h here plain
    · exact declines_demandFirst h behind plain

theorem declines_demandArguments {scope : Scope} (h : scope.FloatFree) :
    ∀ {trees : List Tree} {query : Query}, (∀ tree ∈ trees, tree.FloatFree) →
      query.FloatFree →
      Declines (demandArguments scope trees query)
  | [], _, _, plain => ⟨rfl, plain⟩
  | tree :: trees, query, free, plain => by
    obtain ⟨here, behind⟩ := List.forall_mem_cons.1 free
    unfold demandArguments
    split
    · have first := declines_demand h here plain
      have others := declines_demandArguments h behind first.2
      exact ⟨by simp only [first.1, others.1, Bool.or_false], others.2⟩
    · exact declines_demandArguments h behind plain

theorem declines_demandAll {scope : Scope} (h : scope.FloatFree) :
    ∀ {trees : List Tree} {query : Query}, (∀ tree ∈ trees, tree.FloatFree) →
      query.FloatFree →
      Declines (demandAll scope trees query)
  | [], _, _, plain => ⟨rfl, plain⟩
  | tree :: trees, query, free, plain => by
    obtain ⟨here, behind⟩ := List.forall_mem_cons.1 free
    have first := declines_demand h here plain
    have others := declines_demandAll h behind first.2
    unfold demandAll
    exact ⟨by simp only [first.1, others.1, Bool.or_false], others.2⟩

end

/-- Nothing in a float-free expression demands floating operands. -/
theorem demand_eq_false {scope : Scope} (h : scope.FloatFree) {tree : Tree}
    (free : tree.FloatFree)
    (findings : Findings) : (demand scope tree ⟨none, findings⟩).1 = false := by
  have plain : Query.FloatFree ⟨none, findings⟩ := by rintro _ ⟨⟩
  exact (declines_demand h free plain).1

/-! ### Calls -/

/-- Arguments that fit floating parameters fit integers in their places, unless
one of them is floating. -/
theorem fitsAll_integers {arguments : List (Option String)} {params earlier : List Ty}
    (plain : some "float" ∉ arguments) (fit : fitsAll arguments params)
    (integers : earlier.map Ty.name = params.map fun param =>
      if param.isFloat then "int" else param.name) : fitsAll arguments earlier := by
  induction arguments generalizing params earlier with
  | nil =>
    cases params with
    | nil =>
      cases earlier with
      | nil => rfl
      | cons ty types => cases integers
    | cons param params => cases fit
  | cons argument arguments ih =>
    cases params with
    | nil => cases fit
    | cons param params =>
      cases earlier with
      | nil => cases integers
      | cons ty types =>
        rw [List.mem_cons, not_or] at plain
        obtain ⟨first, others⟩ := Bool.and_eq_true_iff.1 fit
        simp only [List.map_cons, List.cons.injEq] at integers
        refine Bool.and_eq_true_iff.2 ⟨?_, ih plain.2 others integers.2⟩
        cases argument with
        | none => rfl
        | some type =>
          have apart : type ≠ "float" := fun same => plain.1 (by rw [same])
          simp only [fits, Option.all_some, Bool.or_eq_true, Bool.and_eq_true,
            decide_eq_true_eq, integers.1, Ty.isFloat] at first ⊢
          grind

/-- Where integers are preferred, arguments that are not floating find an
overload without floating parameters. -/
theorem plain_of_prefersIntegers {arguments : List (Option String)}
    (plain : some "float" ∉ arguments) {before overloads : List Signature}
    {found : Signature} (prefers : prefersIntegers before overloads)
    (none : ∀ signature ∈ before, fitsAll arguments signature.params = false)
    (first : overloads.find? (fun signature => fitsAll arguments signature.params) = some found) :
    ∀ param ∈ found.params, param.isFloat = false := by
  induction overloads generalizing before with
  | nil => cases first
  | cons signature others ih =>
    obtain ⟨here, behind⟩ := Bool.and_eq_true_iff.1 prefers
    rw [List.find?_cons] at first
    cases fit : fitsAll arguments signature.params with
    | true =>
      rw [fit] at first
      cases first
      rcases Bool.or_eq_true_iff.1 here with unfloating | guarded
      · simpa using unfloating
      · obtain ⟨earlier, listed, integers⟩ := List.any_eq_true.1 guarded
        have fits := fitsAll_integers plain fit (of_decide_eq_true integers)
        rw [none earlier listed] at fits
        cases fits
    | false =>
      rw [fit] at first
      refine ih behind ?_ first
      exact List.forall_mem_append.2 ⟨none, List.forall_mem_singleton.2 fit⟩

/-- The spelling of an argument is no plain floating number and no builtin
variable. -/
theorem argumentType?_ne_float {scope : Scope} (h : scope.FloatFree) {argument : Tree}
    (sound : argument.IsSound) (isArgument : argument.hasKind .assignmentExpression)
    (free : argument.FloatFree) : argumentType? scope argument ≠ some "float" := by
  obtain ⟨children, rfl⟩ := Tree.exists_children_of_hasKind isArgument
  obtain ⟨builtin, number⟩ : (Tree.node .assignmentExpression children).text ∉
        Scope.builtinVariables.map Prod.fst ∧
      isPlainFloat (Tree.node .assignmentExpression children).text.toList = false := by
    rcases argument_single_or_compound sound.grammatical sound.words with ⟨token, rfl⟩ | compound
    · have own := free token (by simp)
      have text : (Tree.node .assignmentExpression
          [.node .primaryExpression [.leaf token]]).text = token.text := by
        simp [Tree.text]
      rw [text]
      exact ⟨own.builtin, own.number⟩
    · have words : ∀ name ∈ Scope.builtinVariables.map Prod.fst, IsWord name := by decide
      rw [← Tree.leaves_node .assignmentExpression] at compound
      exact ⟨fun listed => compound.not_isWord (words _ listed),
        compound.isPlainFloat_eq_false⟩
  unfold argumentType?
  dsimp only
  split
  · rename_i found known
    intro isFloat
    have other := (h.lookup? builtin known).name_notMem
    rw [Option.some.inj isFloat] at other
    exact other (by decide)
  · rw [number, if_neg Bool.false_ne_true]
    split_ifs <;> simp

/-- No call expects a floating argument. -/
theorem callFlags_eq_false {scope : Scope} (h : scope.FloatFree) {children : List Tree}
    (sound : (Tree.node .functionCall children).IsSound)
    (free : (Tree.node .functionCall children).FloatFree) :
    ∀ flag ∈ callFlags scope (.node .functionCall children), flag = false := by
  unfold callFlags
  cases found : (Tree.node .functionCall children).callName?.bind fun name =>
    floatFlags? scope name
      ((Tree.node .functionCall children).arguments.map (argumentType? scope)) with
  | none => exact List.forall_mem_nil _
  | some flags =>
    obtain ⟨name, named, found⟩ := Option.bind_eq_some_iff.1 found
    obtain ⟨token, listed, rfl⟩ := Tree.exists_token_of_callName? named
    obtain ⟨signature, first, rfl⟩ := Option.map_eq_some_iff.1 found
    have plain : some "float" ∉
        (Tree.node .functionCall children).arguments.map (argumentType? scope) := by
      rw [List.mem_map]
      rintro ⟨argument, member, isFloat⟩
      obtain ⟨member, isArgument⟩ := List.mem_filter.1 member
      exact argumentType?_ne_float h (sound.child member) isArgument (free.child member) isFloat
    refine List.forall_mem_map.2 ?_
    rw [Scope.overloads, List.find?_append, Option.or_eq_some_iff] at first
    rcases first with declared | ⟨-, builtin⟩
    · have member := (List.mem_filter.1 (List.mem_of_find?_eq_some declared)).1
      exact fun param listed => (h.params signature member param listed).isFloat_eq_false
    · rw [h.catalog] at builtin
      exact plain_of_prefersIntegers plain (free token listed).overloads (List.forall_mem_nil _)
        builtin

end Inference

end ShaderDialect
