import Mathlib.Computability.Language
import ShaderDialect.Proofs.Partition

/-!
# The spellings of tokens

The spellings of tokens are a regular language, given here as one language for
each kind of token and built from runs of characters and fixed texts. A reader
finds the longest spelling that a text starts with. One after the other, readers
find the longest spelling of both parts if no second part begins with a character
that would go on with the first. The first one that fits finds the longest
spelling of either kind if no spelling of the first kind begins one of the second.
-/

namespace ShaderDialect

/-! ### Spellings -/

namespace Lexicon

open Literal

/-- Nonempty runs of characters of one class. -/
def run (p : Char → Bool) : Language Char :=
  {cs | cs ≠ [] ∧ ∀ c ∈ cs, p c}

/-- The given texts. -/
def oneOf (texts : List String) : Language Char :=
  {cs | ∃ text ∈ texts, text.toList = cs}

/-- A letter or underscore, then letters, digits and underscores. -/
def word : Language Char :=
  {cs | ∃ c rest, cs = c :: rest ∧ isWordStart c ∧ ∀ d ∈ rest, isWordPart d}

def exponent : Language Char :=
  oneOf ["e", "E"] * (oneOf ["+", "-", ""] * run isDigit)

/-- Digits, a point, and perhaps more digits. -/
def pointed : Language Char :=
  run isDigit * (oneOf ["."] * ((1 + run isDigit) * (1 + exponent)))

/-- A point and digits. -/
def fractional : Language Char :=
  oneOf ["."] * (run isDigit * (1 + exponent))

/-- Digits without a point, which must have an exponent. -/
def scaled : Language Char :=
  run isDigit * exponent

def real : Language Char :=
  pointed + (fractional + scaled)

def float : Language Char :=
  real * oneOf ["lf", "LF", "f", "F", ""]

/-- Hexadecimal digits behind their mark, or digits. -/
def integer : Language Char :=
  oneOf ["0x", "0X"] * run isHexDigit + run isDigit

/-- Integers, which may have the mark of an unsigned one. -/
def integral : Language Char :=
  integer * oneOf ["u", "U", ""]

/-- All spellings of tokens. -/
def token : Language Char :=
  float + (integral + (word + oneOf Vocabulary.operators))

/-- The spellings of the tokens of one kind. -/
def ofKind : TokenKind → Language Char
  | .identifier => {cs | cs ∈ word ∧ cs ∉ oneOf ["true", "false"] ∧
      ¬ Vocabulary.isReserved (String.ofList cs)}
  | .keyword => {cs | cs ∈ word ∧ Vocabulary.isReserved (String.ofList cs)}
  | .intLiteral => integer
  | .uintLiteral => integer * oneOf ["u", "U"]
  | .floatLiteral => float
  | .boolLiteral => oneOf ["true", "false"]
  | .punct => oneOf Vocabulary.operators
  | .finish => 0

/-! ### Reading as far as possible -/

/-- What reading a text comes to: the longest of some spellings that the text
starts with, and the rest. Nothing is found where the text starts with none. -/
def Finds (spellings : Language Char) (cs : List Char) :
    Option (List Char × List Char) → Prop
  | none => ∀ text ∈ spellings, ¬ text <+: cs
  | some (read, rest) => cs = read ++ rest ∧ read ∈ spellings ∧
      ∀ text ∈ spellings, text <+: cs → text.length ≤ read.length

/-- No spelling of the second language starts with a character that would go on
with one of the first. -/
def Apart (first second : Language Char) : Prop :=
  ∀ text c more tail, text ∈ first → text ++ c :: more ∈ first → c :: tail ∉ second

/-- No spelling of the first language begins one of the second, or is one. -/
def Before (first second : Language Char) : Prop :=
  ∀ text ∈ first, ∀ text' ∈ second, ¬ text <+: text'

/-- Every spelling starts with a character of the class. -/
def StartsIn (p : Char → Bool) (spellings : Language Char) : Prop :=
  ∀ text ∈ spellings, ∃ c rest, text = c :: rest ∧ p c

namespace StartsIn

variable {p q : Char → Bool} {first second : Language Char}

theorem mul (h : StartsIn p first) : StartsIn p (first * second) := by
  intro text member
  obtain ⟨text, inside, tail, -, rfl⟩ := Language.mem_mul.1 member
  obtain ⟨c, rest, rfl, holds⟩ := h text inside
  exact ⟨c, rest ++ tail, rfl, holds⟩

theorem add (h : StartsIn p first) (h' : StartsIn p second) :
    StartsIn p (first + second) := by
  rintro text (inside | inside)
  · exact h text inside
  · exact h' text inside

theorem imp (h : StartsIn p first) (wider : ∀ c, p c → q c) : StartsIn q first := by
  intro text inside
  obtain ⟨c, rest, rfl, holds⟩ := h text inside
  exact ⟨c, rest, rfl, wider c holds⟩

theorem stops (h : StartsIn p first) (outside : ∀ c, p c → q c = false) :
    ∀ text ∈ first, Stops q text := by
  intro text inside d front
  obtain ⟨c, rest, rfl, holds⟩ := h text inside
  obtain rfl : c = d := by simpa using front
  exact outside c holds

theorem finds_none (h : StartsIn p first) {cs : List Char} (stops : Stops p cs) :
    Finds first cs none := by
  rintro text inside ⟨rest, rfl⟩
  obtain ⟨c, tail, rfl, holds⟩ := h text inside
  rw [stops c rfl] at holds
  cases holds

/-- Spellings that start differently. -/
theorem before (h : StartsIn p first) (outside : ∀ text ∈ second, Stops p text) :
    Before first second :=
  fun text inside text' behind => h.finds_none (outside text' behind) text inside

end StartsIn

/-- All characters of the spellings are of the class. -/
def Within (p : Char → Bool) (spellings : Language Char) : Prop :=
  ∀ text ∈ spellings, ∀ c ∈ text, p c

namespace Within

variable {p : Char → Bool} {first second : Language Char}

theorem mul (h : Within p first) (h' : Within p second) : Within p (first * second) := by
  intro text member c listed
  obtain ⟨text, inside, tail, behind, rfl⟩ := Language.mem_mul.1 member
  rcases List.mem_append.1 listed with listed | listed
  · exact h text inside c listed
  · exact h' tail behind c listed

theorem add (h : Within p first) (h' : Within p second) : Within p (first + second) := by
  rintro text (inside | inside)
  · exact h text inside
  · exact h' text inside

theorem optional (h : Within p first) : Within p (1 + first) := by
  rintro text (rfl | inside) c listed
  · cases listed
  · exact h text inside c listed

/-- Spellings with a character that others never have. -/
theorem before (h : Within p second) (foreign : ∀ text ∈ first, ∃ c ∈ text, p c = false) :
    Before first second := by
  rintro text inside text' behind ⟨rest, rfl⟩
  obtain ⟨c, listed, stranger⟩ := foreign text inside
  rw [h _ behind c (List.mem_append_left rest listed)] at stranger
  cases stranger

end Within

theorem apart_of_length {first : Language Char} (size : Nat)
    (same : ∀ text ∈ first, text.length = size) (second : Language Char) :
    Apart first second := by
  intro text c more tail inside longer
  have lengths := (same _ longer).trans (same _ inside).symm
  simp at lengths

theorem apart_of_class {first second : Language Char} (p : Char → Bool)
    (inside : Within p first) (outside : ∀ text ∈ second, Stops p text) :
    Apart first second := by
  intro text c more tail _ longer behind
  have holds := inside _ longer c (by simp)
  rw [outside _ behind c rfl] at holds
  cases holds

namespace Finds

variable {first second : Language Char} {cs read rest : List Char}
  {found found' : Option (List Char × List Char)}

/-- One part after the other. -/
theorem mul (h : Finds first cs (some (read, rest))) (h' : Finds second rest found)
    (apart : Apart first second) :
    Finds (first * second) cs (found.map fun part => (read ++ part.1, part.2)) := by
  obtain ⟨rfl, inFirst, longest⟩ := h
  -- A spelling that has a second part has the longest first part.
  have split : ∀ text ∈ first, ∀ c tail, c :: tail ∈ second →
    text ++ c :: tail <+: read ++ rest →
      text = read ∧ c :: tail <+: rest := by
    intro text inside c tail behind fits
    have shorter := longest text inside ((List.prefix_append _ _).trans fits)
    obtain ⟨more, rfl⟩ :=
      List.prefix_of_prefix_length_le ((List.prefix_append _ _).trans fits)
        (List.prefix_append read rest) shorter
    rw [List.append_assoc, List.prefix_append_right_inj] at fits
    cases more with
    | nil => exact ⟨(List.append_nil _).symm, fits⟩
    | cons d more =>
      obtain ⟨rfl, -⟩ := List.cons_prefix_cons.1 fits
      exact absurd behind (apart text c more tail inside inFirst)
  cases found with
  | none =>
    intro text member fits
    obtain ⟨text, inside, tail, behind, rfl⟩ := Language.mem_mul.1 member
    cases tail with
    | nil => exact h' [] behind List.nil_prefix
    | cons c tail => exact h' _ behind (split text inside c tail behind fits).2
  | some part =>
    obtain ⟨own, rest⟩ := part
    obtain ⟨rfl, inSecond, longest'⟩ := h'
    refine ⟨(List.append_assoc _ _ _).symm, Language.append_mem_mul inFirst inSecond, ?_⟩
    intro text member fits
    obtain ⟨text, inside, tail, behind, rfl⟩ := Language.mem_mul.1 member
    rw [List.length_append, List.length_append]
    cases tail with
    | nil =>
      have shorter := longest text inside (by simpa using fits)
      exact Nat.add_le_add shorter (Nat.zero_le _)
    | cons c tail =>
      obtain ⟨rfl, fitsBehind⟩ := split text inside c tail behind fits
      exact Nat.add_le_add_left (longest' _ behind fitsBehind) _

theorem mul_of_none (h : Finds first cs none) : Finds (first * second) cs none := by
  intro text member fits
  obtain ⟨text, inside, tail, -, rfl⟩ := Language.mem_mul.1 member
  exact h text inside ((List.prefix_append _ _).trans fits)

/-- Of two kinds the first one that fits. -/
theorem add (h : Finds first cs found) (h' : Finds second cs found')
    (before : Before first second) : Finds (first + second) cs (found.or found') := by
  cases found with
  | none =>
    cases found' with
    | none =>
      rintro text (inside | inside)
      · exact h text inside
      · exact h' text inside
    | some part =>
      obtain ⟨shape, inside, longest⟩ := h'
      refine ⟨shape, Or.inr inside, ?_⟩
      rintro text (inside | inside) fits
      · exact absurd fits (h text inside)
      · exact longest text inside fits
  | some part =>
    obtain ⟨rfl, inFirst, longest⟩ := h
    refine ⟨rfl, Or.inl inFirst, ?_⟩
    rintro text (inside | inside) fits
    · exact longest text inside fits
    · refine Nat.le_of_not_le fun longer => before _ inFirst text inside ?_
      exact List.prefix_of_prefix_length_le (List.prefix_append _ _) fits longer

/-- A spelling is read to its end. -/
theorem whole (h : Finds first cs found) (inside : cs ∈ first) :
    found = some (cs, []) := by
  cases found with
  | none => exact absurd (List.prefix_refl cs) (h cs inside)
  | some part =>
    obtain ⟨read, rest⟩ := part
    obtain ⟨rfl, -, longest⟩ := h
    have short := longest _ inside (List.prefix_refl _)
    rw [List.length_append] at short
    obtain rfl : rest = [] := List.length_eq_zero_iff.1 (by omega)
    rw [List.append_nil]

theorem eq_none_of_before (h : Finds first cs found) (before : Before first second)
    (inside : cs ∈ second) : found = none := by
  cases found with
  | none => rfl
  | some part =>
    obtain ⟨rfl, own, -⟩ := h
    exact absurd (List.prefix_append _ _) (before _ own _ inside)

/-- A part that may be missing. -/
theorem optional (h : Finds first cs found) :
    Finds (1 + first) cs (some (found.getD ([], cs))) := by
  cases found with
  | none =>
    refine ⟨rfl, Or.inl rfl, ?_⟩
    rintro text (rfl | inside) fits
    · exact Nat.le_refl _
    · exact absurd fits (h text inside)
  | some part =>
    obtain ⟨shape, inside, longest⟩ := h
    refine ⟨shape, Or.inr inside, ?_⟩
    rintro text (rfl | inside) fits
    · exact Nat.zero_le _
    · exact longest text inside fits

end Finds

/-! ### The parts of tokens -/

theorem length_le_takeWhile {p : Char → Bool} {text cs : List Char}
    (all : ∀ c ∈ text, p c)
    (fits : text <+: cs) : text.length ≤ (cs.takeWhile p).length := by
  obtain ⟨rest, rfl⟩ := fits
  rw [List.takeWhile_append_of_pos all, List.length_append]
  exact Nat.le_add_right _ _

theorem startsIn_run (p : Char → Bool) : StartsIn p (run p) := by
  rintro text ⟨nonempty, all⟩
  obtain ⟨c, rest, rfl⟩ := List.exists_cons_of_ne_nil nonempty
  exact ⟨c, rest, rfl, all c List.mem_cons_self⟩

theorem finds_run (p : Char → Bool) (cs : List Char) : Finds (run p) cs (run? p cs) := by
  cases found : run? p cs with
  | none => exact (startsIn_run p).finds_none (run?_eq_none.1 found)
  | some part =>
    obtain ⟨read, rest⟩ := part
    obtain ⟨rfl, nonempty, all, stops⟩ := run?_eq_some found
    refine ⟨rfl, ⟨nonempty, all⟩, ?_⟩
    rintro text ⟨-, all'⟩ fits
    have longest := length_le_takeWhile all' fits
    rwa [stops.takeWhile_append all] at longest

theorem mem_oneOf {texts : List String} {cs : List Char} :
    cs ∈ oneOf texts ↔ ∃ text ∈ texts, text.toList = cs :=
  Iff.rfl

theorem oneOf_cons (text : String) (texts : List String) :
    oneOf (text :: texts) = oneOf [text] + oneOf texts := by
  ext cs
  rw [Language.mem_add]
  simp [mem_oneOf]

theorem mark?_cons (mark : String) (marks : List String) (cs : List Char) :
    Token.mark? (mark :: marks) cs =
      (Token.mark? [mark] cs).or (Token.mark? marks cs) := by
  by_cases fits : mark.toList <+: cs <;> simp [Token.mark?, fits]

theorem finds_singleton (mark : String) (cs : List Char) :
    Finds (oneOf [mark]) cs (Token.mark? [mark] cs) := by
  cases found : Token.mark? [mark] cs with
  | none =>
    rintro text ⟨own, listed, rfl⟩
    exact Token.mark?_eq_none.1 found own listed
  | some part =>
    obtain ⟨shape, own, listed, read⟩ := Token.mark?_append found
    refine ⟨shape.symm, ⟨own, listed, read⟩, ?_⟩
    rintro text ⟨other, listed', rfl⟩ -
    rw [← read, List.mem_singleton.1 listed, List.mem_singleton.1 listed']

/-- Of some texts the first that fits, if none of them stands before one that it
begins. -/
theorem finds_mark? {marks : List String}
    (ordered : marks.Pairwise fun earlier later => ¬ earlier.toList <+: later.toList)
    (cs : List Char) : Finds (oneOf marks) cs (Token.mark? marks cs) := by
  induction ordered with
  | nil => rintro text ⟨mark, ⟨⟩, -⟩
  | @cons mark marks first others ih =>
    rw [oneOf_cons, mark?_cons]
    refine (finds_singleton mark cs).add ih ?_
    rintro text ⟨own, listed, rfl⟩ text' ⟨other, later, rfl⟩
    rw [List.mem_singleton.1 listed]
    exact first other later

theorem mark?_cons_of_not {mark : String} {cs : List Char} (marks : List String)
    (misfit : ∀ rest, cs ≠ mark.toList ++ rest) :
    Token.mark? (mark :: marks) cs = Token.mark? marks cs := by
  have none : Token.mark? [mark] cs = none := by
    refine Token.mark?_eq_none.2 fun other listed fits => ?_
    obtain ⟨rest, rfl⟩ := List.mem_singleton.1 listed ▸ fits
    exact misfit rest rfl
  rw [mark?_cons, none, Option.none_or]

theorem finds_sign (cs : List Char) :
    Finds (oneOf ["+", "-", ""]) cs (some ((sign cs).1, (sign cs).2)) := by
  have same : Token.mark? ["+", "-", ""] cs = some (sign cs) := by
    unfold sign
    split
    · rfl
    · rfl
    · rename_i plus minus
      rw [mark?_cons_of_not _ plus, mark?_cons_of_not _ minus]
      rfl
  exact same ▸ finds_mark? (by decide) cs

theorem finds_unsignedSuffix (cs : List Char) :
    Finds (oneOf ["u", "U", ""]) cs (some ((unsignedSuffix cs).1, (unsignedSuffix cs).2)) := by
  have same : Token.mark? ["u", "U", ""] cs = some (unsignedSuffix cs) := by
    unfold unsignedSuffix
    split
    · rfl
    · rfl
    · rename_i small large
      rw [mark?_cons_of_not _ small, mark?_cons_of_not _ large]
      rfl
  exact same ▸ finds_mark? (by decide) cs

theorem finds_floatSuffix (cs : List Char) :
    Finds (oneOf ["lf", "LF", "f", "F", ""]) cs
      (some ((floatSuffix cs).1, (floatSuffix cs).2)) := by
  have same : Token.mark? ["lf", "LF", "f", "F", ""] cs = some (floatSuffix cs) := by
    unfold floatSuffix
    split
    · rfl
    · rfl
    · rfl
    · rfl
    · rename_i long longUpper short shortUpper
      rw [mark?_cons_of_not _ long, mark?_cons_of_not _ longUpper,
        mark?_cons_of_not _ short, mark?_cons_of_not _ shortUpper]
      rfl
  exact same ▸ finds_mark? (by decide) cs

theorem stops_oneOf {texts : List String} {p : Char → Bool}
    (outside : texts.all fun text => text.toList.head?.all (! p ·)) :
    ∀ text ∈ oneOf texts, Stops p text := by
  rintro _ ⟨text, listed, rfl⟩ c first
  have stopped := List.all_eq_true.1 outside text listed
  simpa [first] using stopped

theorem startsIn_oneOf {texts : List String} {p : Char → Bool}
    (starts : texts.all fun text => text.toList.head?.any p) :
    StartsIn p (oneOf texts) := by
  rintro _ ⟨text, listed, rfl⟩
  have holds := List.all_eq_true.1 starts text listed
  cases chars : text.toList with
  | nil => simp [chars] at holds
  | cons c rest => exact ⟨c, rest, rfl, by simpa [chars] using holds⟩

theorem within_oneOf {texts : List String} {p : Char → Bool}
    (all : texts.all fun text => text.toList.all p) : Within p (oneOf texts) := by
  rintro _ ⟨text, listed, rfl⟩
  exact List.all_eq_true.1 (List.all_eq_true.1 all text listed)

theorem within_run (p : Char → Bool) : Within p (run p) :=
  fun _ inside => inside.2

/-- A run has none of some characters outside of its class. -/
theorem within_run_of_outside {p : Char → Bool} {chars : List Char}
    (outside : chars.all (! p ·)) : Within (! chars.contains ·) (run p) := by
  rintro text ⟨-, all⟩ c listed
  rw [Bool.not_eq_true', Bool.eq_false_iff]
  intro inside
  have stranger := List.all_eq_true.1 outside c (List.contains_iff_mem.1 inside)
  rw [all c listed] at stranger
  cases stranger

theorem stops_optional {p : Char → Bool} {spellings : Language Char}
    (outside : ∀ text ∈ spellings, Stops p text) :
    ∀ text ∈ 1 + spellings, Stops p text := by
  rintro text (rfl | inside)
  · rintro c ⟨⟩
  · exact outside text inside

theorem length_oneOf {texts : List String} {size : Nat}
    (same : ∀ text ∈ texts, text.toList.length = size) :
    ∀ text ∈ oneOf texts, text.length = size := by
  rintro _ ⟨text, listed, rfl⟩
  exact same text listed

end Lexicon

end ShaderDialect
