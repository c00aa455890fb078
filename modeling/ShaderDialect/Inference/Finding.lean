import ShaderDialect.Error

/-!
# Findings

What could not be resolved is reported at a token and left as it is; it never
stops the work. An expression is looked at more than once, so the same finding
can be reported again and again: findings are a log of all reports.
-/

namespace ShaderDialect

inductive Problem where
  | unresolvedIdentifier (name : String)
  | unknownType (name : String)
  | unknownParameterType (type : String)
  | member (cause : Error)
deriving DecidableEq

def Problem.message : Problem → String
  | .unresolvedIdentifier name => "unresolved identifier '" ++ name ++ "'"
  | .unknownType name => "unknown type '" ++ name ++ "'"
  | .unknownParameterType type =>
    "unknown parameter type '" ++ type ++ "', assuming float"
  | .member cause => cause.message

/-- A problem at the token of the given number. -/
structure Finding where
  token : Nat
  problem : Problem
deriving DecidableEq

/-- Everything that was reported, in order. -/
structure Findings where
  reports : Array Finding

namespace Findings

def empty : Findings :=
  ⟨#[]⟩

def toList (findings : Findings) : List Finding :=
  findings.reports.toList

def report (findings : Findings) (finding : Finding) : Findings :=
  ⟨findings.reports.push finding⟩

@[simp] theorem toList_empty : empty.toList = [] := rfl

@[simp] theorem toList_report (findings : Findings) (finding : Finding) :
    (findings.report finding).toList = findings.toList ++ [finding] :=
  Array.toList_push

end Findings

end ShaderDialect
