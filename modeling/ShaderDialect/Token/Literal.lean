/-!
# Words and numbers

Readers for the spellings that are described by classes of characters. Each
returns the characters it read and the rest, and reads as far as the class
goes. All classes are ASCII.
-/

namespace ShaderDialect.Literal

def isDigit (c : Char) : Bool :=
  '0' ≤ c && c ≤ '9'

def isHexDigit (c : Char) : Bool :=
  isDigit c || ('a' ≤ c && c ≤ 'f') || ('A' ≤ c && c ≤ 'F')

def isLetter (c : Char) : Bool :=
  ('a' ≤ c && c ≤ 'z') || ('A' ≤ c && c ≤ 'Z')

def isWordStart (c : Char) : Bool :=
  isLetter c || c = '_'

def isWordPart (c : Char) : Bool :=
  isWordStart c || isDigit c

/-- A nonempty run of characters of one class. -/
def run? (p : Char → Bool) (cs : List Char) : Option (List Char × List Char) :=
  if (cs.takeWhile p).isEmpty then none else some (cs.takeWhile p, cs.dropWhile p)

/-- A letter or underscore, then letters, digits and underscores. -/
def word? : List Char → Option (List Char × List Char)
  | c :: cs =>
    if isWordStart c then some (c :: cs.takeWhile isWordPart, cs.dropWhile isWordPart) else none
  | [] => none

/-- An optional sign before an exponent's digits. -/
def sign : List Char → List Char × List Char
  | '+' :: cs => (['+'], cs)
  | '-' :: cs => (['-'], cs)
  | cs => ([], cs)

/-- A decimal exponent, read only when it has digits. -/
def exponent? : List Char → Option (List Char × List Char)
  | e :: cs =>
    if e = 'e' || e = 'E' then
      (run? isDigit (sign cs).2).map fun (digits, rest) =>
        (e :: (sign cs).1 ++ digits, rest)
    else none
  | [] => none

/-- The suffixes of a floating literal; the long ones come first. -/
def floatSuffix : List Char → List Char × List Char
  | 'l' :: 'f' :: cs => (['l', 'f'], cs)
  | 'L' :: 'F' :: cs => (['L', 'F'], cs)
  | 'f' :: cs => (['f'], cs)
  | 'F' :: cs => (['F'], cs)
  | cs => ([], cs)

/-- Digits around a point with an optional exponent, or digits with an
exponent. A point alone is no number. -/
def mantissa? (cs : List Char) : Option (List Char × List Char) :=
  let whole := cs.takeWhile isDigit
  match cs.dropWhile isDigit with
  | '.' :: rest =>
    let fraction := rest.takeWhile isDigit
    if whole.isEmpty && fraction.isEmpty then none
    else
      let (exponent, after) :=
        (exponent? (rest.dropWhile isDigit)).getD ([], rest.dropWhile isDigit)
      some (whole ++ '.' :: fraction ++ exponent, after)
  | rest =>
    if whole.isEmpty then none
    else (exponent? rest).map fun (exponent, after) => (whole ++ exponent, after)

def float? (cs : List Char) : Option (List Char × List Char) :=
  (mantissa? cs).map fun (number, rest) =>
    (number ++ (floatSuffix rest).1, (floatSuffix rest).2)

/-- The suffix of an unsigned literal. -/
def unsignedSuffix : List Char → List Char × List Char
  | 'u' :: cs => (['u'], cs)
  | 'U' :: cs => (['U'], cs)
  | cs => ([], cs)

/-- Hexadecimal digits after their mark. -/
def hexadecimal? : List Char → Option (List Char × List Char)
  | '0' :: x :: cs =>
    if x = 'x' || x = 'X' then
      (run? isHexDigit cs).map fun (digits, rest) => ('0' :: x :: digits, rest)
    else none
  | _ => none

/-- Digits, hexadecimal where they can be read so, with the unsigned suffix
when one follows. -/
def int? (cs : List Char) : Option (List Char × List Char) :=
  ((hexadecimal? cs).or (run? isDigit cs)).map fun (number, rest) =>
    (number ++ (unsignedSuffix rest).1, (unsignedSuffix rest).2)

theorem run?_append {p : Char → Bool} {cs read rest : List Char}
    (h : run? p cs = some (read, rest)) : read ++ rest = cs ∧ read ≠ [] := by
  simp only [run?] at h
  split at h
  · simp at h
  · simp only [Option.some.injEq, Prod.mk.injEq] at h
    obtain ⟨rfl, rfl⟩ := h
    exact ⟨List.takeWhile_append_dropWhile, fun empty => ‹¬ _› (by rw [empty]; rfl)⟩

theorem word?_append {cs read rest : List Char} (h : word? cs = some (read, rest)) :
    read ++ rest = cs ∧ read ≠ [] := by
  unfold word? at h
  split at h
  · split at h
    · simp only [Option.some.injEq, Prod.mk.injEq] at h
      obtain ⟨rfl, rfl⟩ := h
      simp [List.takeWhile_append_dropWhile]
    · simp at h
  · simp at h

theorem sign_append (cs : List Char) : (sign cs).1 ++ (sign cs).2 = cs := by
  unfold sign
  split <;> rfl

theorem exponent?_append {cs read rest : List Char}
    (h : exponent? cs = some (read, rest)) :
    read ++ rest = cs := by
  unfold exponent? at h
  split at h
  · rename_i e cs
    split at h
    · simp only [Option.map_eq_some_iff, Prod.exists, Prod.mk.injEq] at h
      obtain ⟨digits, after, found, rfl, rfl⟩ := h
      have digits_eq := (run?_append found).1
      have sign_eq := sign_append cs
      rw [← digits_eq] at sign_eq
      simp [sign_eq]
    · simp at h
  · simp at h

theorem floatSuffix_append (cs : List Char) :
    (floatSuffix cs).1 ++ (floatSuffix cs).2 = cs := by
  unfold floatSuffix
  split <;> rfl

theorem unsignedSuffix_append (cs : List Char) :
    (unsignedSuffix cs).1 ++ (unsignedSuffix cs).2 = cs := by
  unfold unsignedSuffix
  split <;> rfl

theorem getD_exponent?_append (cs : List Char) :
    ((exponent? cs).getD ([], cs)).1 ++ ((exponent? cs).getD ([], cs)).2 = cs := by
  cases h : exponent? cs with
  | none => rfl
  | some pair =>
    obtain ⟨read, rest⟩ := pair
    exact exponent?_append h

theorem mantissa?_append {cs read rest : List Char}
    (h : mantissa? cs = some (read, rest)) :
    read ++ rest = cs ∧ read ≠ [] := by
  have whole := List.takeWhile_append_dropWhile (p := isDigit) (l := cs)
  unfold mantissa? at h
  simp only at h
  split at h
  · rename_i after found
    rw [found] at whole
    have fraction := List.takeWhile_append_dropWhile (p := isDigit) (l := after)
    have exponent := getD_exponent?_append (after.dropWhile isDigit)
    split at h
    · simp at h
    · simp only [Option.some.injEq, Prod.mk.injEq] at h
      obtain ⟨rfl, rfl⟩ := h
      refine ⟨?_, by simp⟩
      simp only [List.append_assoc, List.cons_append]
      rw [exponent, fraction, whole]
  · split at h
    · simp at h
    · rename_i nonempty
      simp only [Option.map_eq_some_iff, Prod.exists, Prod.mk.injEq] at h
      obtain ⟨exponent, after, found, rfl, rfl⟩ := h
      refine ⟨?_, fun empty => nonempty ?_⟩
      · rw [List.append_assoc, exponent?_append found, whole]
      · simp [(List.append_eq_nil_iff.1 empty).1]

theorem float?_append {cs read rest : List Char} (h : float? cs = some (read, rest)) :
    read ++ rest = cs ∧ read ≠ [] := by
  simp only [float?, Option.map_eq_some_iff, Prod.exists, Prod.mk.injEq] at h
  obtain ⟨number, after, found, rfl, rfl⟩ := h
  obtain ⟨number_eq, nonempty⟩ := mantissa?_append found
  exact ⟨by rw [List.append_assoc, floatSuffix_append, number_eq], by simp [nonempty]⟩

theorem hexadecimal?_append {cs read rest : List Char}
    (h : hexadecimal? cs = some (read, rest)) : read ++ rest = cs ∧ read ≠ [] := by
  unfold hexadecimal? at h
  split at h
  · split at h
    · simp only [Option.map_eq_some_iff, Prod.exists, Prod.mk.injEq] at h
      obtain ⟨digits, after, found, rfl, rfl⟩ := h
      simp [(run?_append found).1]
    · simp at h
  · simp at h

theorem int?_append {cs read rest : List Char} (h : int? cs = some (read, rest)) :
    read ++ rest = cs ∧ read ≠ [] := by
  simp only [int?, Option.map_eq_some_iff, Prod.exists, Prod.mk.injEq] at h
  obtain ⟨number, after, found, rfl, rfl⟩ := h
  have number_eq : number ++ after = cs ∧ number ≠ [] := by
    rcases Option.or_eq_some_iff.1 found with found | ⟨_, found⟩
    · exact hexadecimal?_append found
    · exact run?_append found
  exact ⟨by rw [List.append_assoc, unsignedSuffix_append, number_eq.1], by simp [number_eq.2]⟩

end ShaderDialect.Literal
