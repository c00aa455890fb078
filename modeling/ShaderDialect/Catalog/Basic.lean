import ShaderDialect.Catalog.Signature
import ShaderDialect.Error

/-!
# Catalogs

A catalog lists the overloads of the builtin functions. It is read from a text
with one signature per line; lines that are no signatures are skipped.
-/

namespace ShaderDialect

/-- Signatures in runs of one name, each run under its name. -/
def Signature.runs : List Signature → List (String × List Signature)
  | [] => []
  | signature :: signatures =>
    match runs signatures with
    | [] => [(signature.name, [signature])]
    | (name, run) :: others =>
      if signature.name = name then (name, signature :: run) :: others
      else (signature.name, [signature]) :: (name, run) :: others

theorem Signature.flatMap_runs (signatures : List Signature) (name : String) :
    ((runs signatures).flatMap fun (known, run) => if known = name then run else []) =
      signatures.filter (·.name = name) := by
  induction signatures with
  | nil => rfl
  | cons signature signatures ih =>
    rw [runs, List.filter_cons, ← ih]
    split
    · by_cases same : signature.name = name <;> simp_all
    · rename_i known run others shape
      by_cases joined : signature.name = known
      · subst joined
        by_cases same : signature.name = name <;> simp_all
      · by_cases same : signature.name = name <;> simp_all

/-- The signatures of a catalog in order. A name is looked up among the runs,
which are much fewer. -/
structure Catalog where
  signatures : List Signature
  runs : List (String × List Signature)
  runs_eq : runs = Signature.runs signatures

namespace Catalog

def ofSignatures (signatures : List Signature) : Catalog where
  signatures
  runs := Signature.runs signatures
  runs_eq := rfl

/-- The overloads of a name in the order of the list. -/
def overloads (catalog : Catalog) (name : String) : List Signature :=
  catalog.runs.flatMap fun (known, run) => if known = name then run else []

theorem overloads_eq_filter (catalog : Catalog) (name : String) :
    catalog.overloads name = catalog.signatures.filter (·.name = name) := by
  rw [overloads, catalog.runs_eq, Signature.flatMap_runs]

def contains (catalog : Catalog) (name : String) : Bool :=
  ! (catalog.overloads name).isEmpty

/-- The number of all overloads. -/
def size (catalog : Catalog) : Nat :=
  catalog.signatures.length

/-- The overloads of the signatures among `lines`, the first of which has the
given number. -/
def readLines (number : Nat) : List (List Char) → Except CatalogError (List Signature)
  | [] => .ok []
  | line :: lines =>
    match WrittenSignature.ofLine? line with
    | none => readLines (number + 1) lines
    | some written =>
      match written.expand with
      | .error type => .error (.unknownType number type written.name)
      | .ok signatures => (readLines (number + 1) lines).map (signatures ++ ·)

/-- Read a catalog. The first line with an unknown type fails it, and so does
a text without any signature. -/
def ofText (text : String) : Except CatalogError Catalog :=
  match readLines 1 (lines text.toList) with
  | .error cause => .error cause
  | .ok [] => .error .noSignatures
  | .ok signatures => .ok (ofSignatures signatures)

end Catalog

end ShaderDialect
