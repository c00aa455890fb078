import Mathlib.Data.List.Induction
import Mathlib.Tactic.ByContra
import ShaderDialect.Conversion
import ShaderDialect.Proofs.OverloadResolution

/-!
# Constructors of structs

A struct that is declared again replaces the type of its name, but its
constructor comes behind those of the earlier versions. So a call with the fields
of the current version may be taken for one of an earlier version: the first
version that takes these fields decides, and `float` takes an `int`. Here a scope
is looked at after any history of operations on it.
-/

namespace ShaderDialect

/-- No builtin type is a struct. -/
theorem Ty.builtin?_ne_struct (name own : String) (fields : List (String × Ty)) :
    Ty.builtin? name ≠ some (.struct own fields) := by
  intro found
  rcases List.mem_append.1 (mem_of_builtin? found).1 with isPrimitive | isVector
  · obtain ⟨_, -, same⟩ := List.mem_map.1 isPrimitive
    cases same
  · obtain ⟨_, -, isVector⟩ := List.mem_flatMap.1 isVector
    obtain ⟨_, -, same⟩ := List.mem_map.1 isVector
    cases same

namespace Scope

/-! ### Histories -/

/-- What can be done to a scope. -/
inductive Operation where
  | push
  | pop
  | declare (declared : Variable)
  | declareFunction (signature : Signature)
  | declareStruct (ty : Ty)

namespace Operation

def apply : Operation → Scope → Scope
  | push, scope => scope.push
  | pop, scope => scope.pop
  | declare declared, scope => scope.declare declared
  | declareFunction signature, scope => scope.declareFunction signature
  | declareStruct ty, scope => scope.declareStruct ty

/-- The type that an operation declares. -/
def declared? : Operation → Option Ty
  | declareStruct ty => if ty.name.isEmpty then none else some ty
  | _ => none

/-- The functions that an operation declares. -/
def signatures : Operation → List Signature
  | declareFunction signature => [signature]
  | declareStruct (.struct name fields) =>
    if (Ty.struct name fields).name.isEmpty then []
    else [{ name, params := fields.map Prod.snd, result := .struct name fields }]
  | _ => []

/-- The types of the fields, where an operation declares a struct under the given
name. -/
def version? (name : String) : Operation → Option (List Ty)
  | declareStruct (.struct own fields) =>
    if own = name then some (fields.map Prod.snd) else none
  | _ => none

theorem catalog_apply (operation : Operation) (scope : Scope) :
    (operation.apply scope).catalog = scope.catalog := by
  cases operation with
  | declare declared => exact catalog_declare scope declared
  | declareStruct ty => exact catalog_declareStruct scope ty
  | _ => rfl

theorem functions_apply (operation : Operation) (scope : Scope) :
    (operation.apply scope).functions = scope.functions ++ operation.signatures := by
  cases operation with
  | push => exact (List.append_nil _).symm
  | pop => exact (List.append_nil _).symm
  | declare declared =>
    rw [apply, functions_declare]
    exact (List.append_nil _).symm
  | declareFunction signature => rfl
  | declareStruct ty =>
    cases ty with
    | struct name fields =>
      simp only [apply, signatures, Scope.declareStruct]
      split
      · exact (List.append_nil _).symm
      · rfl
    | _ =>
      simp only [apply, signatures, Scope.declareStruct, List.append_nil]
      split <;> rfl

theorem structs_apply (operation : Operation) (scope : Scope) :
    (operation.apply scope).structs =
      operation.declared?.toList.map (fun ty => (ty.name, ty)) ++ scope.structs := by
  cases operation with
  | declare declared => exact structs_declare scope declared
  | declareStruct ty =>
    simp only [apply, declared?, Scope.declareStruct]
    split
    · rfl
    · cases ty <;> rfl
  | _ => rfl

/-- Apart from functions of the name, an operation declares the name with the
parameters of a version. -/
theorem params_signatures (operation : Operation) {name : String} (nonempty : name ≠ "")
    (apart : ∀ signature, operation = declareFunction signature → signature.name ≠ name) :
    (operation.signatures.filter (·.name = name)).map Signature.params =
      (operation.version? name).toList := by
  cases operation with
  | declareFunction signature => simp [signatures, version?, apart signature rfl]
  | declareStruct ty =>
    cases ty with
    | struct own fields =>
      simp only [signatures, version?]
      split
      · rename_i empty
        have other : own ≠ name := by
          rintro rfl
          exact nonempty (by simpa [Ty.name] using empty)
        simp [other]
      · by_cases same : own = name <;> simp [same]
    | _ => rfl
  | _ => rfl

theorem eq_of_declared? {operation : Operation} {ty : Ty}
    (h : operation.declared? = some ty) :
    operation = declareStruct ty ∧ ty.name ≠ "" := by
  cases operation with
  | declareStruct own =>
    simp only [declared?] at h
    split at h
    · cases h
    · rename_i isName
      cases h
      exact ⟨rfl, by simpa using isName⟩
  | _ => cases h

/-- Only a type that is declared is a version. -/
theorem version?_eq_none {operation : Operation} {name : String} (nonempty : name ≠ "")
    (other : ∀ ty ∈ operation.declared?, ty.name ≠ name) :
    operation.version? name = none := by
  cases operation with
  | declareStruct ty =>
    cases ty with
    | struct own fields =>
      refine if_neg fun same => ?_
      have isName : (Ty.struct own fields).name.isEmpty = false := by
        simpa [Ty.name, same, String.isEmpty_iff] using nonempty
      exact other (.struct own fields) (by simp [declared?, isName]) same
    | _ => rfl
  | _ => rfl

end Operation

/-- The scope after some operations. -/
def applyAll (scope : Scope) (operations : List Operation) : Scope :=
  operations.foldl (fun scope operation => operation.apply scope) scope

theorem applyAll_concat (scope : Scope) (operations : List Operation)
    (operation : Operation) :
    scope.applyAll (operations ++ [operation]) =
      operation.apply (scope.applyAll operations) := by
  simp [applyAll]

theorem catalog_applyAll (scope : Scope) (operations : List Operation) :
    (scope.applyAll operations).catalog = scope.catalog := by
  induction operations using List.reverseRecOn with
  | nil => rfl
  | append_singleton operations operation ih =>
    rw [applyAll_concat, Operation.catalog_apply, ih]

/-- Functions are kept in the order of their declaration. -/
theorem functions_applyAll (scope : Scope) (operations : List Operation) :
    (scope.applyAll operations).functions =
      scope.functions ++ operations.flatMap Operation.signatures := by
  induction operations using List.reverseRecOn with
  | nil => exact (List.append_nil _).symm
  | append_singleton operations operation ih =>
    rw [applyAll_concat, Operation.functions_apply, ih, List.flatMap_append,
      List.flatMap_singleton, List.append_assoc]

/-- The scope after a history of operations, from the start of a shader. -/
def run (catalog : Catalog) (history : List Operation) : Scope :=
  (initial catalog).applyAll history

/-! ### Versions of a struct -/

/-- The field types of all structs that a history declares under a name, the earliest
first. -/
def versions (name : String) (history : List Operation) : List (List Ty) :=
  history.filterMap (Operation.version? name)

theorem versions_concat (name : String) (history : List Operation)
    (operation : Operation) :
    versions name (history ++ [operation]) =
      versions name history ++ (operation.version? name).toList := by
  cases found : operation.version? name <;> simp [versions, found]

section Versions

variable {catalog : Catalog} {history : List Operation} {name own : String}
  {fields : List (String × Ty)}

/-- The constructors of a name are those of its versions, in the order of their
declaration. -/
theorem params_overloads_run (nonempty : name ≠ "")
    (apart : ∀ signature, .declareFunction signature ∈ history → signature.name ≠ name)
    (foreign : catalog.overloads name = []) :
    ((run catalog history).overloads name).map Signature.params =
      versions name history := by
  rw [overloads, run, catalog_applyAll, functions_applyAll]
  simp only [initial, foreign, List.nil_append, List.append_nil]
  induction history with
  | nil => rfl
  | cons operation history ih =>
    have here := operation.params_signatures nonempty fun signature same =>
      apart signature (same ▸ List.mem_cons_self)
    have behind :=
      ih fun signature listed => apart signature (List.mem_cons_of_mem _ listed)
    rw [List.flatMap_cons, List.filter_append, List.map_append, here, behind, versions,
      versions, List.filterMap_cons]
    cases operation.version? name <;> rfl

theorem getLast?_versions_of_lookup
    (found : (run catalog history).structs.lookup name = some (.struct own fields)) :
    name ≠ "" ∧ (versions name history).getLast? = some (fields.map Prod.snd) := by
  induction history using List.reverseRecOn with
  | nil => cases found
  | append_singleton history operation ih =>
    rw [run, applyAll_concat, Operation.structs_apply] at found
    rw [versions_concat]
    cases declares : operation.declared? with
    | none =>
      rw [declares] at found
      obtain ⟨nonempty, last⟩ := ih found
      rw [Operation.version?_eq_none nonempty (by simp [declares]), Option.toList_none,
        List.append_nil]
      exact ⟨nonempty, last⟩
    | some ty =>
      rw [declares, Option.toList_some, List.map_singleton, List.singleton_append,
        List.lookup_cons] at found
      by_cases same : name = ty.name
      · rw [beq_iff_eq.2 same] at found
        cases found
        obtain ⟨rfl, nonempty⟩ := Operation.eq_of_declared? declares
        subst same
        exact ⟨nonempty, by simp [Operation.version?]⟩
      · rw [beq_eq_false_iff_ne.2 same] at found
        obtain ⟨nonempty, last⟩ := ih found
        have other : ∀ known ∈ operation.declared?, known.name ≠ name := by
          simpa [declares] using fun equal => same equal.symm
        rw [Operation.version?_eq_none nonempty other, Option.toList_none,
          List.append_nil]
        exact ⟨nonempty, last⟩

/-- The type of a name is that of the last version. -/
theorem getLast?_versions (known : (run catalog history).type? name = some (.struct own fields)) :
    name ≠ "" ∧ (versions name history).getLast? = some (fields.map Prod.snd) := by
  rw [type?] at known
  rcases Option.or_eq_some_iff.1 known with builtin | ⟨-, declared⟩
  · exact absurd builtin (Ty.builtin?_ne_struct name own fields)
  · exact getLast?_versions_of_lookup declared

end Versions

end Scope

/-! ### Calls with the fields of the current version -/

/-- Parameters that take arguments of the given types: of the same names, but
`float` may stand where an argument is `int`. -/
def Takes (types params : List Ty) : Prop :=
  List.Forall₂ (fun ty param => ty.name = param.name ∨ ty.name = "int" ∧
    param.name = "float")
    types params

theorem fitsAll_iff_takes {types params : List Ty} :
    Inference.fitsAll (types.map fun ty => some ty.name) params ↔ Takes types params := by
  rw [Inference.fitsAll_iff, List.forall₂_map_left_iff, List.forall₂_map_right_iff]
  simp [Compatible, Takes]

theorem takes_of_names {types params : List Ty}
    (same : params.map Ty.name = types.map Ty.name) :
    Takes types params := by
  have equal : List.Forall₂ Eq (types.map Ty.name) (params.map Ty.name) :=
    List.forall₂_eq_eq_eq ▸ same.symm
  rw [List.forall₂_map_left_iff, List.forall₂_map_right_iff] at equal
  exact equal.imp fun _ _ => Or.inl

/-- Where an `int` is taken for a `float`, this shows in the flags. -/
theorem Takes.isFloat_iff {types params : List Ty} (h : Takes types params) :
    params.map Ty.isFloat = types.map Ty.isFloat ↔
      params.map Ty.name = types.map Ty.name := by
  induction h with
  | nil => simp
  | @cons ty param types params here behind ih =>
    rw [List.map_cons, List.map_cons, List.map_cons, List.map_cons, List.cons.injEq,
      List.cons.injEq, ih]
    rcases here with same | ⟨isInt, isFloat⟩
    · simp [Ty.isFloat, same]
    · simp [Ty.isFloat, isInt, isFloat]

/-- Every version that takes the given types under other names, because it has
`float` in place of an `int`, comes behind one of their names. -/
def Preceded (types : List Ty) (versions : List (List Ty)) : Prop :=
  ∀ before wider after, versions = before ++ wider :: after → Takes types wider →
    wider.map Ty.name ≠ types.map Ty.name →
    ∃ params ∈ before, params.map Ty.name = types.map Ty.name

/-- The first element that satisfies one predicate satisfies a narrower one exactly
if every other element that satisfies the wider one comes behind one of the narrower. -/
theorem find?_narrow_iff {α : Type} {wide : α → Bool} {narrow : α → Prop}
    {list : List α} {found : α} (first : list.find? wide = some found)
    (implies : ∀ a, narrow a → wide a) :
    narrow found ↔ ∀ before other after, list = before ++ other :: after → wide other →
      ¬ narrow other → ∃ a ∈ before, narrow a := by
  obtain ⟨isWide, front, behind, rfl, refused⟩ := List.find?_eq_some_iff_append.1 first
  constructor
  · rintro isNarrow before other after shape otherWide notNarrow
    rcases List.append_eq_append_iff.1 shape with ⟨middle, rfl, rest⟩ |
      ⟨middle, rfl, rest⟩
    · cases middle with
      | nil =>
        cases rest
        exact absurd isNarrow notNarrow
      | cons a middle =>
        cases rest
        exact ⟨found, by simp, isNarrow⟩
    · cases middle with
      | nil =>
        cases rest
        exact absurd isNarrow notNarrow
      | cons a middle =>
        cases rest
        simpa [otherWide] using refused other (by simp)
  · intro preceded
    by_contra notNarrow
    obtain ⟨a, listed, isNarrow⟩ := preceded front found behind rfl isWide notNarrow
    simpa [implies a isNarrow] using refused a listed

namespace Scope

open Inference

/-- A call with the current fields of a struct always finds a constructor, that of
the first version which takes them. Its parameters are named like the fields, and
the arguments are flagged like the fields, exactly if every version that has `float`
in place of an `int` field comes behind one named like the fields. -/
theorem constructor_of_fields {catalog : Catalog} {history : List Operation}
    {name own : String} {fields : List (String × Ty)}
    (apart : ∀ signature, .declareFunction signature ∈ history → signature.name ≠ name)
    (foreign : catalog.overloads name = [])
    (known : (run catalog history).type? name = some (.struct own fields)) :
    let types := fields.map Prod.snd
    let arguments := types.map fun ty => some ty.name
    ∃ signature,
      ((run catalog history).overloads name).find? (fitsAll arguments ·.params) =
        some signature ∧
      signature.params ∈ versions name history ∧ Takes types signature.params ∧
      (signature.params.map Ty.name = types.map Ty.name ↔
        Preceded types (versions name history)) ∧
      (floatFlags? (run catalog history) name arguments = some (types.map Ty.isFloat) ↔
        Preceded types (versions name history)) := by
  intro types arguments
  obtain ⟨nonempty, last⟩ := getLast?_versions known
  have params := params_overloads_run nonempty apart foreign
  have current : types ∈ versions name history := List.mem_of_getLast? last
  have fitting : ((versions name history).find? (fitsAll arguments)).isSome :=
    List.find?_isSome.2 ⟨types, current, fitsAll_iff_takes.2 (takes_of_names rfl)⟩
  obtain ⟨selected, first⟩ := Option.isSome_iff_exists.1 fitting
  have among := first
  rw [← params, List.find?_map] at among
  obtain ⟨signature, found, rfl⟩ := Option.map_eq_some_iff.1 among
  have takes := fitsAll_iff_takes.1 (List.find?_some first)
  have named : signature.params.map Ty.name = types.map Ty.name ↔
      Preceded types (versions name history) := by
    rw [find?_narrow_iff first fun params same => fitsAll_iff_takes.2 (takes_of_names same)]
    simp only [Preceded, ← fitsAll_iff_takes]
    rfl
  refine ⟨signature, found, List.mem_of_find?_eq_some first, takes, named, ?_⟩
  have flags : floatFlags? (run catalog history) name arguments =
      some (signature.params.map Ty.isFloat) := by
    rw [floatFlags?]
    exact congrArg (Option.map fun overload : Signature => overload.params.map Ty.isFloat) found
  rw [flags, Option.some.injEq, takes.isFloat_iff, named]

theorem constructor_of_fields_again : ∃ history signature,
    versions "S" history = [[.float], [.primitive "int"]] ∧
      (∀ signature, .declareFunction signature ∈ history → signature.name ≠ "S") ∧
      Catalog.bundled.overloads "S" = [] ∧
      (run Catalog.bundled history).type? "S" =
        some (.struct "S" [("a", .primitive "int")]) ∧
      ((run Catalog.bundled history).overloads "S").find? (fitsAll [some "int"] ·.params) =
        some signature ∧
      (signature.params.map Ty.name = ["int"] ↔
        Preceded [.primitive "int"] [[.float], [.primitive "int"]]) ∧
      (floatFlags? (run Catalog.bundled history) "S" [some "int"] = some [false] ↔
        Preceded [.primitive "int"] [[.float], [.primitive "int"]]) := by
  have foreign : Catalog.bundled.overloads "S" = [] :=
    List.isEmpty_iff.1 (by decide +kernel)
  obtain ⟨signature, found, -, -, named, flagged⟩ :=
    @constructor_of_fields Catalog.bundled
      [.declareStruct (.struct "S" [("a", .float)]), .push,
        .declareStruct (.struct "S" [("a", .primitive "int")])] "S" "S" [("a", .primitive "int")]
      (by simp) foreign rfl
  exact ⟨_, signature, rfl, by simp, foreign, rfl, found, named, flagged⟩

end Scope

/-- So a struct that hides another one is built by the constructor of the hidden one. -/
theorem convert_hidden_struct :
    (convert Catalog.bundled
        "struct S { float a; }; void main() { struct S { int a; }; S s = S(1); }").toOption.map
      Conversion.text =
      some "struct S { float a; }; void main() { struct S { int a; }; S s = S(1.0); }" ∧
    (convert Catalog.bundled "void main() { struct S { int a; }; S s = S(1); }").toOption.map
      Conversion.text = some "void main() { struct S { int a; }; S s = S(1); }" := by
  decide +kernel

end ShaderDialect
