import Mathlib.Data.List.Forall2
import ShaderDialect.Catalog.Bundled
import ShaderDialect.Inference.Call

/-!
# Resolution of overloads

The first overload that accepts the arguments of a call decides, and declared
overloads come before builtin ones, the earliest first. So a declaration counts
for the calls that its signature accepts and no declared overload accepted before;
for all other calls nothing changes. Here scopes and catalogs are arbitrary, and
the types of arguments may be unknown.
-/

namespace ShaderDialect

/-- An argument can be passed for a parameter of the named type. If the type of the
argument is known, it is that type, or an `int` is passed for a `float`. -/
def Compatible (argument : Option String) (param : String) : Prop :=
  ∀ type, argument = some type → type = param ∨ type = "int" ∧ param = "float"

/-- A signature accepts as many arguments as it has parameters, each compatible with
its parameter. -/
def Signature.Accepts (signature : Signature) (arguments : List (Option String)) : Prop :=
  List.Forall₂ Compatible arguments (signature.params.map Ty.name)

namespace Inference

theorem fits_iff {argument : Option String} {param : Ty} :
    fits argument param ↔ Compatible argument param.name := by
  cases argument with
  | none => simp [fits, Compatible]
  | some type => simp [fits, Compatible, Ty.isFloat]

theorem fitsAll_iff {arguments : List (Option String)} {params : List Ty} :
    fitsAll arguments params ↔ List.Forall₂ Compatible arguments (params.map Ty.name) := by
  induction arguments generalizing params with
  | nil => cases params <;> simp [fitsAll]
  | cons argument arguments ih =>
    cases params with
    | nil => simp [fitsAll]
    | cons param params =>
      rw [fitsAll, Bool.and_eq_true, fits_iff, ih, List.map_cons, List.forall₂_cons]

theorem fitsAll_iff_accepts {arguments : List (Option String)} {signature : Signature} :
    fitsAll arguments signature.params ↔ signature.Accepts arguments :=
  fitsAll_iff

end Inference

namespace Signature

instance (signature : Signature) (arguments : List (Option String)) :
    Decidable (signature.Accepts arguments) :=
  decidable_of_iff _ Inference.fitsAll_iff_accepts

/-- Only the names of the parameters' types matter. -/
theorem Accepts.of_names {signature other : Signature}
    {arguments : List (Option String)} (h : signature.Accepts arguments)
    (same : other.params.map Ty.name = signature.params.map Ty.name) :
    other.Accepts arguments := by
  rw [Accepts, same]
  exact h

end Signature

namespace Scope

open Inference

/-- No declared overload of a name accepts the arguments. -/
def Refuses (scope : Scope) (name : String) (arguments : List (Option String)) : Prop :=
  ∀ declared ∈ scope.functions, declared.name = name → ¬ declared.Accepts arguments

instance (scope : Scope) (name : String) (arguments : List (Option String)) :
    Decidable (scope.Refuses name arguments) :=
  inferInstanceAs (Decidable (∀ declared ∈ scope.functions, _ → ¬ _))

/-- The first declared overload of a name that accepts the arguments. -/
def firstDeclared? (scope : Scope) (name : String) (arguments : List (Option String)) :
    Option Signature :=
  (scope.functions.filter (·.name = name)).find? (fitsAll arguments ·.params)

theorem firstDeclared?_eq_none_iff {scope : Scope} {name : String}
    {arguments : List (Option String)} :
    scope.firstDeclared? name arguments = none ↔ scope.Refuses name arguments := by
  simp [firstDeclared?, Refuses, ← fitsAll_iff_accepts]

/-- Nothing in front of the first declared overload that accepts the arguments does so. -/
theorem exists_of_firstDeclared? {scope : Scope} {name : String}
    {arguments : List (Option String)} {first : Signature}
    (h : scope.firstDeclared? name arguments = some first) :
    ∃ before after, scope.functions = before ++ first :: after ∧ first.name = name ∧
      first.Accepts arguments ∧
      ∀ earlier ∈ before, earlier.name = name → ¬ earlier.Accepts arguments := by
  rw [firstDeclared?, List.find?_filter, List.find?_eq_some_iff_append] at h
  obtain ⟨own, before, after, shape, refused⟩ := h
  rw [decide_eq_true_eq, decide_eq_true_eq, fitsAll_iff_accepts] at own
  refine ⟨before, after, shape, own.1, own.2, fun earlier listed named accepts => ?_⟩
  simpa [named, fitsAll_iff_accepts.2 accepts] using refused earlier listed

theorem firstDeclared?_declareFunction (scope : Scope) (signature : Signature)
    (name : String) (arguments : List (Option String)) :
    (scope.declareFunction signature).firstDeclared? name arguments =
      (scope.firstDeclared? name arguments).or
        (if name = signature.name ∧ signature.Accepts arguments then some signature else none) := by
  rw [firstDeclared?, declareFunction, List.filter_append, List.find?_append,
    ← firstDeclared?]
  congr 1
  by_cases same : name = signature.name
  · by_cases accepts : signature.Accepts arguments
    · simp [same, accepts, fitsAll_iff_accepts.2 accepts]
    · have misfit := mt fitsAll_iff_accepts.1 accepts
      simp [same, accepts, misfit]
  · have apart : ¬ signature.name = name := fun equal => same equal.symm
    simp [same, apart]

/-- Declared overloads come first, builtin ones are tried only behind them. -/
theorem floatFlags?_eq (scope : Scope) (name : String)
    (arguments : List (Option String)) :
    floatFlags? scope name arguments =
      ((scope.firstDeclared? name arguments).or
        ((scope.catalog.overloads name).find? (fitsAll arguments ·.params))).map
          (·.params.map Ty.isFloat) := by
  rw [floatFlags?, overloads, List.find?_append, firstDeclared?]

theorem floatFlags?_of_declared {scope : Scope} {name : String}
    {arguments : List (Option String)} {first : Signature}
    (h : scope.firstDeclared? name arguments = some first) :
    floatFlags? scope name arguments = some (first.params.map Ty.isFloat) := by
  rw [floatFlags?_eq, h, Option.some_or, Option.map_some]

/-- A declaration decides the calls of its name that it accepts and no declared
overload accepted before. -/
theorem floatFlags?_declareFunction (scope : Scope) (signature : Signature)
    (name : String) (arguments : List (Option String)) :
    floatFlags? (scope.declareFunction signature) name arguments =
      if name = signature.name ∧ signature.Accepts arguments ∧
          scope.Refuses name arguments then
        some (signature.params.map Ty.isFloat)
      else floatFlags? scope name arguments := by
  rw [floatFlags?_eq, firstDeclared?_declareFunction]
  cases declared : scope.firstDeclared? name arguments with
  | some first =>
    have accepted : ¬ scope.Refuses name arguments := by
      rw [← firstDeclared?_eq_none_iff, declared]
      exact Option.some_ne_none first
    rw [Option.some_or, Option.some_or, Option.map_some,
      if_neg fun decides => accepted decides.2.2, floatFlags?_of_declared declared]
  | none =>
    have refused := firstDeclared?_eq_none_iff.1 declared
    by_cases own : name = signature.name ∧ signature.Accepts arguments
    · rw [if_pos own, if_pos ⟨own.1, own.2, refused⟩]
      rfl
    · rw [if_neg own, if_neg fun decides => own ⟨decides.1, decides.2.1⟩,
        floatFlags?_eq, declared]
      rfl

/-- What a declaration changes: the calls of its name that it accepts and no declared
overload accepted before. A signature that is declared again under the same names
changes nothing. Where a declared overload accepts a call, the first such one decides,
whatever is builtin. -/
theorem declaration_decides (scope : Scope) (signature : Signature) :
    (∀ name arguments, floatFlags? (scope.declareFunction signature) name arguments =
      if name = signature.name ∧ signature.Accepts arguments ∧
          scope.Refuses name arguments then
        some (signature.params.map Ty.isFloat)
      else floatFlags? scope name arguments) ∧
    (∀ earlier ∈ scope.functions, earlier.name = signature.name →
      earlier.params.map Ty.name = signature.params.map Ty.name →
      ∀ name arguments, floatFlags? (scope.declareFunction signature) name arguments =
        floatFlags? scope name arguments) ∧
    ∀ name arguments, ¬ scope.Refuses name arguments →
      ∃ before first after, scope.functions = before ++ first :: after ∧
        first.name = name ∧
        first.Accepts arguments ∧
        (∀ earlier ∈ before, earlier.name = name → ¬ earlier.Accepts arguments) ∧
        ∀ catalog, floatFlags? { scope with catalog } name arguments =
          some (first.params.map Ty.isFloat) := by
  refine ⟨floatFlags?_declareFunction scope signature, ?_, ?_⟩
  · intro earlier listed sameName sameParams name arguments
    rw [floatFlags?_declareFunction, if_neg]
    rintro ⟨rfl, accepts, refused⟩
    exact refused earlier listed sameName (accepts.of_names sameParams)
  · intro name arguments accepted
    obtain ⟨first, declared⟩ :=
      Option.ne_none_iff_exists'.1 fun none =>
        accepted (firstDeclared?_eq_none_iff.1 none)
    obtain ⟨before, after, shape, named, accepts, refused⟩ :=
      exists_of_firstDeclared? declared
    exact ⟨before, first, after, shape, named, accepts, refused, fun catalog =>
      @floatFlags?_of_declared { scope with catalog } name arguments first declared⟩

/-- A shader's own `sin` of an `int` decides the calls of `sin` with an `int`, which the
builtin one took before. Its definition, which comes behind its prototype, changes nothing. -/
theorem declaration_decides_sin :
    let own : Signature :=
      { name := "sin", params := [.primitive "int"], result := .float }
    let scope := initial Catalog.bundled
    floatFlags? scope "sin" [some "int"] = some [true] ∧
      floatFlags? (scope.declareFunction own) "sin" [some "int"] = some [false] ∧
      floatFlags? (scope.declareFunction own) "sin" [some "float"] = some [true] ∧
      floatFlags? ((scope.declareFunction own).declareFunction own) "sin" [none] =
        floatFlags? (scope.declareFunction own) "sin" [none] ∧
      floatFlags? (scope.declareFunction own) "sin" [none] = some [false] := by
  intro own scope
  obtain ⟨changed, -, -⟩ := declaration_decides scope own
  obtain ⟨-, again, -⟩ := declaration_decides (scope.declareFunction own) own
  have before : floatFlags? scope "sin" [some "int"] = some [true] := by decide +kernel
  have builtin : floatFlags? scope "sin" [some "float"] = some [true] := by decide +kernel
  refine ⟨before, ?_, ?_, again own (by simp [declareFunction]) rfl rfl "sin" [none], ?_⟩
  · rw [changed, if_pos (by decide)]
    rfl
  · rw [changed, if_neg (by decide), builtin]
  · rw [changed, if_pos (by decide)]
    rfl

end Scope

end ShaderDialect
