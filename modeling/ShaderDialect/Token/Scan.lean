import ShaderDialect.Token.Basic
import ShaderDialect.Token.Literal
import ShaderDialect.Token.Vocabulary

/-!
# Cutting one token

`scan?` reads the token at the front of a text that starts with no hidden
text. Numbers are tried before words and marks, a floating literal before an
integer, so that `1.5` is one number and `.` alone a mark.
-/

namespace ShaderDialect.Token

/-- The class of a word by its spelling. -/
def wordKind (word : String) : TokenKind :=
  if word = "true" || word = "false" then .boolLiteral
  else if Vocabulary.isReserved word then .keyword
  else .identifier

/-- The class of an integer literal by its suffix. -/
def intKind (read : List Char) : TokenKind :=
  if read.getLast? = some 'u' || read.getLast? =
    some 'U' then .uintLiteral else .intLiteral

/-- The first mark of `marks` that the text starts with. -/
def mark? (marks : List String) (cs : List Char) : Option (List Char × List Char) :=
  marks.findSome? fun mark =>
    if mark.toList.isPrefixOf cs then some (mark.toList, cs.drop mark.toList.length) else none

/-- The class and characters of the first token of `cs`, and the rest. -/
def scan? (cs : List Char) : Option (TokenKind × List Char × List Char) :=
  match Literal.float? cs with
  | some (read, rest) => some (.floatLiteral, read, rest)
  | none =>
    match Literal.int? cs with
    | some (read, rest) => some (intKind read, read, rest)
    | none =>
      match Literal.word? cs with
      | some (read, rest) => some (wordKind (String.ofList read), read, rest)
      | none =>
        match mark? Vocabulary.operators cs with
        | some (read, rest) => some (.punct, read, rest)
        | none => none

theorem mark?_append {marks : List String} {cs read rest : List Char}
    (h : mark? marks cs = some (read, rest)) :
    read ++ rest = cs ∧ ∃ mark ∈ marks, mark.toList = read := by
  obtain ⟨mark, listed, found⟩ := List.exists_of_findSome?_eq_some h
  split at found
  · rename_i fits
    simp only [Option.some.injEq, Prod.mk.injEq] at found
    obtain ⟨rfl, rfl⟩ := found
    obtain ⟨tail, rfl⟩ := List.isPrefixOf_iff_prefix.1 fits
    exact ⟨by simp, mark, listed, rfl⟩
  · simp at found

theorem operators_ne_nil {mark : String} (h : mark ∈ Vocabulary.operators) :
    mark.toList ≠ [] := by
  revert mark
  decide

/-- A token is never empty, and it is the front of the text. -/
theorem scan?_append {cs read rest : List Char} {kind : TokenKind}
    (h : scan? cs = some (kind, read, rest)) : read ++ rest = cs ∧ read ≠ [] := by
  unfold scan? at h
  split at h
  · rename_i found
    simp only [Option.some.injEq, Prod.mk.injEq] at h
    obtain ⟨-, rfl, rfl⟩ := h
    exact Literal.float?_append found
  · split at h
    · rename_i found
      simp only [Option.some.injEq, Prod.mk.injEq] at h
      obtain ⟨-, rfl, rfl⟩ := h
      exact Literal.int?_append found
    · split at h
      · rename_i found
        simp only [Option.some.injEq, Prod.mk.injEq] at h
        obtain ⟨-, rfl, rfl⟩ := h
        exact Literal.word?_append found
      · split at h
        · rename_i found
          simp only [Option.some.injEq, Prod.mk.injEq] at h
          obtain ⟨-, rfl, rfl⟩ := h
          obtain ⟨whole, mark, listed, rfl⟩ := mark?_append found
          exact ⟨whole, operators_ne_nil listed⟩
        · simp at h

theorem scan?_length {cs read rest : List Char} {kind : TokenKind}
    (h : scan? cs = some (kind, read, rest)) : rest.length < cs.length := by
  obtain ⟨rfl, nonempty⟩ := scan?_append h
  have := List.length_pos_iff.2 nonempty
  simp
  omega

end ShaderDialect.Token
