import ShaderDialect.Text.Lines
import ShaderDialect.Token.Literal
import ShaderDialect.Type.Builtin

/-!
# Signatures

A signature is a concrete overload. It is written on one line as a result
type, a name and parameters in parentheses; what follows the closing
parenthesis is not looked at. A written signature may use a placeholder that
stands for each member of a family of types, and then makes one overload per
member.
-/

namespace ShaderDialect

/-- One overload of a function. -/
structure Signature where
  name : String
  params : List Ty
  result : Ty

/-- A signature as written, with the names of its types. -/
structure WrittenSignature where
  result : String
  name : String
  params : List String
deriving DecidableEq

namespace WrittenSignature

def isBlank (c : Char) : Bool :=
  c = ' ' || c = '\t'

/-- Words that may stand before the type of a parameter. -/
def parameterQualifiers : List String :=
  ["in", "out", "inout", "const", "highp", "mediump", "lowp"]

theorem word_length {cs read rest : List Char}
    (h : Literal.word? cs = some (read, rest)) :
    rest.length < cs.length := by
  obtain ⟨rfl, nonempty⟩ := Literal.word?_append h
  have := List.length_pos_iff.2 nonempty
  simp
  omega

/-- One or more words with blanks between them. Blanks that no word follows
are left in the rest. -/
def words? (cs : List Char) : Option (List String × List Char) :=
  match h : Literal.word? cs with
  | none => none
  | some (read, rest) =>
    have : (rest.dropWhile isBlank).length < cs.length :=
      Nat.lt_of_le_of_lt (List.dropWhile_suffix isBlank).length_le (word_length h)
    let word := String.ofList read
    if rest.head?.any isBlank then
      match words? (rest.dropWhile isBlank) with
      | some (others, after) => some (word :: others, after)
      | none => some ([word], rest)
    else some ([word], rest)
termination_by cs.length

theorem length_words?_lt {cs rest : List Char} {words : List String}
    (h : words? cs = some (words, rest)) : rest.length < cs.length := by
  fun_induction words? cs generalizing words rest with
  | case1 => simp at h
  | case2 cs read tail found shorter word _ others after inner =>
    rename_i ih
    simp only [Option.some.injEq, Prod.mk.injEq] at h
    obtain ⟨-, rfl⟩ := h
    exact Nat.lt_trans (ih inner) shorter
  | case3 cs read tail found _ _ _ _ =>
    simp only [Option.some.injEq, Prod.mk.injEq] at h
    obtain ⟨-, rfl⟩ := h
    exact word_length found
  | case4 cs read tail found _ _ =>
    simp only [Option.some.injEq, Prod.mk.injEq] at h
    obtain ⟨-, rfl⟩ := h
    exact word_length found

/-- A parameter gives the type that its first word names which is no
qualifier. Where all words are qualifiers the type is nameless. -/
def parameter? (cs : List Char) : Option (String × List Char) :=
  (words? (cs.dropWhile isBlank)).map fun (words, rest) =>
    ((words.find? (! parameterQualifiers.contains ·)).getD "", rest.dropWhile isBlank)

theorem length_parameter?_lt {cs rest : List Char} {type : String}
    (h : parameter? cs = some (type, rest)) : rest.length < cs.length := by
  simp only [parameter?, Option.map_eq_some_iff, Prod.exists, Prod.mk.injEq] at h
  obtain ⟨words, after, found, -, rfl⟩ := h
  exact Nat.lt_of_le_of_lt (List.dropWhile_suffix isBlank).length_le
    (Nat.lt_of_lt_of_le (length_words?_lt found) (List.dropWhile_suffix isBlank).length_le)

/-- One or more parameters with commas between them. -/
def parameters? (cs : List Char) : Option (List String × List Char) :=
  match h : parameter? cs with
  | none => none
  | some (type, ',' :: more) =>
    have : more.length < cs.length :=
      Nat.lt_trans (Nat.lt_succ_self _) (length_parameter?_lt h)
    (parameters? more).map fun (types, after) => (type :: types, after)
  | some (type, rest) => some ([type], rest)
termination_by cs.length

/-- The parameters between parentheses, where `void` alone stands for none. A
blank is not enough between the parentheses. -/
def parenthesized? : List Char → Option (List String)
  | '(' :: ')' :: _ => some []
  | '(' :: cs =>
    match parameters? cs with
    | some (types, ')' :: _) => some (if types = ["void"] then [] else types)
    | _ => none
  | _ => none

/-- The signature that a line starts with, if it does. -/
def ofLine? (line : List Char) : Option WrittenSignature := do
  let (result, rest) ← Literal.word? (line.dropWhile isBlank)
  if rest.head?.any isBlank then
    let (name, rest) ← Literal.word? (rest.dropWhile isBlank)
    let params ← parenthesized? (rest.dropWhile isBlank)
    return { result := String.ofList result, name := String.ofList name, params }
  else none

/-- The placeholders and the types they stand for. -/
def families : List (String × List String) :=
  [("genType", ["float", "vec2", "vec3", "vec4"]), ("matType", ["mat2", "mat3", "mat4"])]

/-- The first family whose placeholder a signature mentions. -/
def family? (written : WrittenSignature) : Option (String × List String) :=
  families.find? fun (placeholder, _) =>
    written.result = placeholder || written.params.contains placeholder

/-- The type of the given name, or the name if there is none. -/
def resolve (name : String) : Except String Ty :=
  match Ty.builtin? name with
  | some ty => .ok ty
  | none => .error name

/-- The overload under a renaming of types, or the first type name without a
type; the result is looked up before the parameters. -/
def instantiate (written : WrittenSignature) (rename : String → String) :
    Except String Signature := do
  let result ← resolve (rename written.result)
  let params ← written.params.mapM fun param => resolve (rename param)
  return { name := written.name, params, result }

/-- All overloads of a written signature, in the order of the family. -/
def expand (written : WrittenSignature) : Except String (List Signature) :=
  match written.family? with
  | none => (written.instantiate id).map ([·])
  | some (placeholder, members) =>
    members.mapM fun member =>
      written.instantiate fun name => if name = placeholder then member else name

end WrittenSignature

end ShaderDialect
