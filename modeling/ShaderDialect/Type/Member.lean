import ShaderDialect.Type.Basic

/-!
# Members of types

A member of a struct is a field. A member of a vector is a swizzle: letters
of one of three sets, each selecting a component by its place in the set, in
any order and with repetitions. Nothing else has members.
-/

namespace ShaderDialect.Ty

/-- The letters that select components, by component. The sets may be mixed. -/
def swizzleSets : List (List Char) :=
  [['x', 'y', 'z', 'w'], ['r', 'g', 'b', 'a'], ['s', 't', 'p', 'q']]

/-- The component that a letter selects. -/
def component? (letter : Char) : Option Nat :=
  swizzleSets.findSome? fun set => set.findIdx? (· = letter)

/-- The first letter that selects no component of a vector decides. -/
def checkSwizzle (element : Ty) (size : Nat) : List Char → Except SwizzleError Unit
  | [] => .ok ()
  | letter :: letters =>
    match component? letter with
    | none => .error (.invalidLetter letter)
    | some component =>
      if component < size then checkSwizzle element size letters
      else .error (.outOfRange letter (vector element size).name)

/-- The type of a swizzle: the element for one letter, else the vector of that
length. -/
def swizzle (element : Ty) (size : Nat) (letters : String) : Except Error Ty :=
  if letters.isEmpty then .error (.swizzle .empty)
  else
    match checkSwizzle element size letters.toList with
    | .error cause => .error (.swizzle cause)
    | .ok () =>
      if letters.length = 1 then .ok element
      else if 4 < letters.length then .error (.swizzle (.tooLong letters))
      else
        match vector? element letters.length with
        | .error cause => .error (.type cause)
        | .ok ty => .ok ty

/-- The type of a member. -/
def member (ty : Ty) (field : String) : Except Error Ty :=
  match ty with
  | .primitive name => .error (.type (.noFields name field))
  | .struct name fields =>
    match fields.lookup field with
    | some ty => .ok ty
    | none => .error (.type (.noField name field))
  | .vector element size => swizzle element size field

/-- The type of an element of a vector, or of a column of a square matrix. -/
def element? : Ty → Option Ty
  | .vector element _ => some element
  | .primitive "mat2" => some (.vector float 2)
  | .primitive "mat3" => some (.vector float 3)
  | .primitive "mat4" => some (.vector float 4)
  | _ => none

end ShaderDialect.Ty
