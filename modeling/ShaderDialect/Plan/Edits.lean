import Std.Data.TreeMap
import ShaderDialect.Error
import ShaderDialect.Token.Stream

/-!
# Edits

Edits give some tokens a new spelling; the empty one deletes a token. The
first spelling that a token gets is kept. Applying edits to a source changes
these tokens and nothing else: gaps and all other tokens are copied.
-/

namespace ShaderDialect

/-- New spellings by token number. -/
structure Edits where
  spellings : Std.TreeMap Nat String

namespace Edits

def empty : Edits :=
  ⟨∅⟩

def get? (edits : Edits) (token : Nat) : Option String :=
  edits.spellings[token]?

/-- Plan a spelling for a token that has none yet. -/
def replace (edits : Edits) (token : Nat) (text : String) : Edits :=
  ⟨edits.spellings.insertIfNew token text⟩

/-- Of several spellings planned for one token, the first counts. -/
theorem get?_replace (edits : Edits) (token other : Nat) (text : String) :
    (edits.replace token text).get? other =
      if other = token then some ((edits.get? token).getD text) else edits.get? other := by
  rw [get?, replace, Std.TreeMap.getElem?_insertIfNew]
  by_cases same : other = token
  · subst same
    by_cases known : other ∈ edits.spellings
    · simp [get?, known]
    · simp [get?, known]
  · have apart : ¬ token = other := fun h => same h.symm
    simp [get?, apart, same]

def delete (edits : Edits) (token : Nat) : Edits :=
  edits.replace token ""

/-- Delete the tokens from `first` up to and including `last`. -/
def deleteRange (edits : Edits) (first last : Nat) : Edits :=
  (List.range' first (last + 1 - first)).foldl delete edits

def size (edits : Edits) : Nat :=
  edits.spellings.size

def isEmpty (edits : Edits) : Bool :=
  edits.spellings.isEmpty

/-- The edits by ascending token number. -/
def toList (edits : Edits) : List (Nat × String) :=
  edits.spellings.toList

/-- Apply edits to the text `cs`, which starts at byte `offset`, given the
lexemes from there on. Their ranges must lie one behind the other, and on
character boundaries of the text. -/
def spliceFrom (edits : Edits) (offset : Nat) :
    List Lexeme → List Char → Except SpliceError (List Char)
  | [], cs => .ok cs
  | lexeme :: lexemes, cs =>
    let misfit : SpliceError :=
      { token := lexeme.index, start := lexeme.start, stop := lexeme.stop }
    if offset ≤ lexeme.start ∧ lexeme.start ≤ lexeme.stop then
      match splitBytes? (lexeme.start - offset) cs with
      | none => .error misfit
      | some (gap, visible) =>
        match splitBytes? (lexeme.stop - lexeme.start) visible with
        | none => .error misfit
        | some (own, rest) =>
          let text := ((edits.get? lexeme.index).map String.toList).getD own
          (spliceFrom edits lexeme.stop lexemes rest).map (gap ++ text ++ ·)
    else .error misfit

/-- Apply edits to a text that has its tokens where `stream` has them. -/
def splice (edits : Edits) (stream : TokenStream) (text : String) :
    Except SpliceError String :=
  (spliceFrom edits 0 stream.lexemes text.toList).map String.ofList

end Edits

end ShaderDialect
