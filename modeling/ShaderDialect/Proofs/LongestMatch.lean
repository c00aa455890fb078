import ShaderDialect.Proofs.Lexicon
import ShaderDialect.Proofs.Relexing

/-!
# The longest token

A token is cut by reading its parts one after the other, each as far as it goes,
and the first kind that fits is taken. This finds the longest spelling of any
kind. An exponent without digits is given up, and then the number before it is
the longest; a point is a mark only where no number starts with it.
-/

namespace ShaderDialect

namespace Lexicon

open Literal

/-! ### Numbers -/

/-- The characters that begin an exponent. -/
def isExponentMark (c : Char) : Bool :=
  c = 'e' || c = 'E'

theorem startsIn_exponent : StartsIn isExponentMark exponent :=
  StartsIn.mul (startsIn_oneOf (by decide))

theorem finds_exponent? (cs : List Char) : Finds exponent cs (exponent? cs) := by
  cases cs with
  | nil => exact startsIn_exponent.finds_none (by decide)
  | cons e cs =>
    rw [exponent?]
    split
    · rename_i isMark
      have marked : Finds (oneOf ["e", "E"]) (e :: cs) (some ([e], cs)) := by
        rcases (by simpa using isMark : e = 'e' ∨ e = 'E') with rfl | rfl
        · exact finds_mark? (by decide) ('e' :: cs)
        · exact finds_mark? (by decide) ('E' :: cs)
      have digits := (finds_sign cs).mul (finds_run isDigit _)
        (apart_of_class (! isDigit ·) (within_oneOf (by decide))
          ((startsIn_run _).stops (by simp)))
      have whole := marked.mul digits (apart_of_length 1 (length_oneOf (by decide)) _)
      rwa [Option.map_map] at whole
    · rename_i noMark
      refine startsIn_exponent.finds_none ?_
      rintro c ⟨⟩
      exact Bool.eq_false_iff.2 noMark

theorem isDigit_of_isExponentMark (c : Char) (h : isExponentMark c) :
    isDigit c = false := by
  rcases (by simpa [isExponentMark] using h : c = 'e' ∨ c = 'E') with rfl | rfl <;> decide

theorem finds_point (rest : List Char) :
    Finds (oneOf ["."]) ('.' :: rest) (some (['.'], rest)) :=
  finds_mark? (by decide) ('.' :: rest)

theorem apart_digits_exponent : Apart (run isDigit) exponent :=
  apart_of_class isDigit (within_run _) (startsIn_exponent.stops isDigit_of_isExponentMark)

theorem startsIn_point (behind : Language Char) :
    StartsIn (· = '.') (oneOf ["."] * behind) :=
  StartsIn.mul (startsIn_oneOf (by decide))

theorem isDigit_of_eq_point (c : Char) (h : decide (c = '.') = true) :
    isDigit c = false := by
  rw [of_decide_eq_true h]
  decide

theorem ne_point_of_isDigit (c : Char) (h : isDigit c) : decide (c = '.') = false := by
  rw [decide_eq_false_iff_not]
  rintro rfl
  cases h

theorem stops_of_ne_point {cs : List Char} (h : cs.head? ≠ some '.') :
    Stops (· = '.') cs := by
  intro c front
  rw [decide_eq_false_iff_not]
  rintro rfl
  exact h front

theorem apart_digits_point (behind : Language Char) :
    Apart (run isDigit) (oneOf ["."] * behind) :=
  apart_of_class isDigit (within_run _) ((startsIn_point behind).stops isDigit_of_eq_point)

theorem apart_point (behind : Language Char) : Apart (oneOf ["."]) behind :=
  apart_of_length 1 (length_oneOf (by decide)) behind

/-- Digits that may be missing, with an exponent that may be missing. -/
theorem finds_fraction (cs : List Char) :
    Finds ((1 + run isDigit) * (1 + exponent)) cs
      (some (cs.takeWhile isDigit ++
          ((exponent? (cs.dropWhile isDigit)).getD ([], cs.dropWhile isDigit)).1,
        ((exponent? (cs.dropWhile isDigit)).getD ([], cs.dropWhile isDigit)).2)) := by
  have read : (run? isDigit cs).getD ([], cs) =
      (cs.takeWhile isDigit, cs.dropWhile isDigit) := by
    cases found : run? isDigit cs with
    | none =>
      have stops := run?_eq_none.1 found
      rw [Option.getD_none, stops.takeWhile_eq_nil, stops.dropWhile_eq_self]
    | some part =>
      obtain ⟨digits, rest⟩ := part
      obtain ⟨rfl, -, all, stops⟩ := run?_eq_some found
      rw [Option.getD_some, stops.takeWhile_append all, stops.dropWhile_append all]
  have digits := read ▸ (finds_run isDigit cs).optional
  exact digits.mul (finds_exponent? _).optional (apart_of_class isDigit (within_run _).optional
    (stops_optional (startsIn_exponent.stops isDigit_of_isExponentMark)))

theorem startsIn_pointed : StartsIn isDigit pointed :=
  (startsIn_run isDigit).mul

theorem startsIn_scaled : StartsIn isDigit scaled :=
  (startsIn_run isDigit).mul

/-- An exponent has none of some characters, if its marks and digits are none of
them. -/
theorem within_exponent {chars : List Char} (digits : chars.all (! isDigit ·))
    (marks : ["e", "E"].all fun text => text.toList.all (! chars.contains ·))
    (signs : ["+", "-", ""].all fun text => text.toList.all (! chars.contains ·)) :
    Within (! chars.contains ·) exponent :=
  (within_oneOf marks).mul ((within_oneOf signs).mul (within_run_of_outside digits))

theorem before_fractional : Before fractional scaled :=
  (startsIn_point _).before (startsIn_scaled.stops ne_point_of_isDigit)

theorem mem_pointed_point {text : List Char} (h : text ∈ pointed) : '.' ∈ text := by
  obtain ⟨digits, -, _, behind, rfl⟩ := Language.mem_mul.1 h
  obtain ⟨c, rest, rfl, point⟩ := startsIn_point _ _ behind
  rw [← of_decide_eq_true point]
  exact List.mem_append_right _ List.mem_cons_self

theorem before_pointed : Before pointed (fractional + scaled) := by
  have scale : Within (! ['.'].contains ·) scaled :=
    (within_run_of_outside (by decide)).mul (within_exponent (by decide) (by decide) (by decide))
  have lacksPoint :=
    scale.before fun text inside => ⟨'.', mem_pointed_point inside, by decide⟩
  have otherStart :=
    startsIn_pointed.before
      ((startsIn_point (run isDigit * (1 + exponent))).stops isDigit_of_eq_point)
  rintro text inside text' (behind | behind)
  · exact otherStart text inside text' behind
  · exact lacksPoint text inside text' behind

/-- A number that starts with digits. -/
theorem finds_mantissa?_of_digits {cs whole rest : List Char}
    (found : run? isDigit cs = some (whole, rest)) : Finds real cs (mantissa? cs) := by
  have digits := found ▸ finds_run isDigit cs
  obtain ⟨rfl, nonempty, all, stops⟩ := run?_eq_some found
  have noFraction : Finds fractional (whole ++ rest) none := by
    refine (startsIn_point _).finds_none ?_
    obtain ⟨c, tail, rfl⟩ := List.exists_cons_of_ne_nil nonempty
    rintro d ⟨⟩
    exact ne_point_of_isDigit c (all c List.mem_cons_self)
  have scale := digits.mul (finds_exponent? rest) apart_digits_exponent
  by_cases point : rest.head? = some '.'
  · obtain ⟨behind, rfl⟩ := List.head?_eq_some_iff.1 point
    have digits' : ∀ c ∈ behind.takeWhile isDigit, isDigit c := fun c member =>
      List.all_eq_true.1 List.all_takeWhile c member
    have value := mantissa?_point all digits' (fun empty => absurd empty nonempty)
      (stops_dropWhile isDigit behind)
    rw [List.takeWhile_append_dropWhile, List.append_assoc] at value
    have read := digits.mul
      ((finds_point behind).mul (finds_fraction behind) (apart_point _)) (apart_digits_point _)
    rw [value]
    exact read.add (noFraction.add scale before_fractional) before_pointed
  · have noPoint := digits.mul ((startsIn_point _).finds_none (stops_of_ne_point point))
      (apart_digits_point ((1 + run isDigit) * (1 + exponent)))
    rw [mantissa?_digits all nonempty stops point]
    exact Finds.add noPoint (noFraction.add scale before_fractional) before_pointed

/-- A number that starts with its point. -/
theorem finds_mantissa?_of_point (behind : List Char) :
    Finds fractional ('.' :: behind) (mantissa? ('.' :: behind)) := by
  have digits := finds_run isDigit behind
  cases found : run? isDigit behind with
  | none =>
    have stops := run?_eq_none.1 found
    have value : mantissa? ('.' :: behind) = none := by
      have point : isDigit '.' = false := by decide
      simp [mantissa?, point, stops.takeWhile_eq_nil]
    rw [found] at digits
    rw [value]
    exact (finds_point behind).mul digits.mul_of_none (apart_point _)
  | some part =>
    obtain ⟨fraction, rest⟩ := part
    rw [found] at digits
    obtain ⟨rfl, nonempty, all, stops⟩ := run?_eq_some found
    have value :=
      mantissa?_point (by simp : ∀ c ∈ [], isDigit c) all (fun _ => nonempty) stops
    rw [List.nil_append, List.nil_append] at value
    rw [value]
    exact (finds_point _).mul (digits.mul (finds_exponent? rest).optional
      (apart_of_class isDigit (within_run _)
        (stops_optional (startsIn_exponent.stops isDigit_of_isExponentMark)))) (apart_point _)

theorem finds_mantissa? (cs : List Char) : Finds real cs (mantissa? cs) := by
  cases found : run? isDigit cs with
  | some part => exact finds_mantissa?_of_digits found
  | none =>
    have stops := run?_eq_none.1 found
    have fraction : Finds fractional cs (mantissa? cs) := by
      by_cases point : cs.head? = some '.'
      · obtain ⟨behind, rfl⟩ := List.head?_eq_some_iff.1 point
        exact finds_mantissa?_of_point behind
      · have value : mantissa? cs = none := by
          unfold mantissa?
          rw [stops.takeWhile_eq_nil, stops.dropWhile_eq_self]
          split
          · exact absurd rfl point
          · rfl
        rw [value]
        exact (startsIn_point _).finds_none (stops_of_ne_point point)
    have number := (startsIn_pointed.finds_none stops).add
      (fraction.add (startsIn_scaled.finds_none stops) before_fractional) before_pointed
    rwa [Option.or_none] at number

/-- A number has none of some characters, if its digits, its point and the marks of its
exponent are none of them. -/
theorem within_real {chars : List Char} (digits : chars.all (! isDigit ·))
    (points : ["."].all fun text => text.toList.all (! chars.contains ·))
    (marks : ["e", "E"].all fun text => text.toList.all (! chars.contains ·))
    (signs : ["+", "-", ""].all fun text => text.toList.all (! chars.contains ·)) :
    Within (! chars.contains ·) real := by
  have whole : Within (! chars.contains ·) (run isDigit) := within_run_of_outside digits
  have point : Within (! chars.contains ·) (oneOf ["."]) := within_oneOf points
  have scale : Within (! chars.contains ·) exponent := within_exponent digits marks signs
  exact (whole.mul (point.mul (whole.optional.mul scale.optional))).add
    ((point.mul (whole.mul scale.optional)).add (whole.mul scale))

theorem finds_float? (cs : List Char) : Finds float cs (float? cs) := by
  have number := finds_mantissa? cs
  unfold float?
  cases found : mantissa? cs with
  | none => exact Finds.mul_of_none (found ▸ number)
  | some part =>
    rw [found] at number
    exact number.mul (finds_floatSuffix part.2)
      (apart_of_class (! ['l', 'L', 'f', 'F'].contains ·)
        (within_real (by decide) (by decide) (by decide) (by decide)) (stops_oneOf (by decide)))

theorem finds_hexadecimal? (cs : List Char) :
    Finds (oneOf ["0x", "0X"] * run isHexDigit) cs (hexadecimal? cs) := by
  have unmarked : (∀ x rest, cs = '0' :: x :: rest → ¬ (x = 'x' ∨ x = 'X')) →
      Finds (oneOf ["0x", "0X"]) cs none := by
    rintro misfit _ ⟨mark, listed, rfl⟩ ⟨rest, rfl⟩
    rcases (by simpa using listed : mark = "0x" ∨ mark = "0X") with rfl | rfl
    · exact misfit 'x' rest rfl (Or.inl rfl)
    · exact misfit 'X' rest rfl (Or.inr rfl)
  unfold hexadecimal?
  split
  · rename_i x cs
    split
    · rename_i isMark
      have marked : Finds (oneOf ["0x", "0X"]) ('0' :: x :: cs) (some (['0', x], cs)) := by
        rcases (by simpa using isMark : x = 'x' ∨ x = 'X') with rfl | rfl
        · exact finds_mark? (by decide) ('0' :: 'x' :: cs)
        · exact finds_mark? (by decide) ('0' :: 'X' :: cs)
      exact marked.mul (finds_run isHexDigit cs) (apart_of_length 2 (length_oneOf (by decide)) _)
    · rename_i noMark
      refine (unmarked ?_).mul_of_none
      rintro y rest ⟨⟩
      simpa using noMark
  · rename_i other
    exact (unmarked fun x rest shape => absurd shape (other x rest)).mul_of_none

theorem mem_hexadecimal_mark {text : List Char}
    (h : text ∈ oneOf ["0x", "0X"] * run isHexDigit) :
    ∃ x rest, text = '0' :: x :: rest ∧ (x = 'x' ∨ x = 'X') := by
  obtain ⟨_, ⟨mark, listed, rfl⟩, digits, -, rfl⟩ := Language.mem_mul.1 h
  rcases (by simpa using listed : mark = "0x" ∨ mark = "0X") with rfl | rfl
  · exact ⟨'x', digits, rfl, Or.inl rfl⟩
  · exact ⟨'X', digits, rfl, Or.inr rfl⟩

theorem isDigit_of_hexadecimal_mark {x : Char} (h : x = 'x' ∨ x = 'X') :
    isDigit x = false := by
  rcases h with rfl | rfl <;> decide

theorem before_hexadecimal :
    Before (oneOf ["0x", "0X"] * run isHexDigit) (run isDigit) := by
  refine (within_run isDigit).before fun text inside => ?_
  obtain ⟨x, rest, rfl, isMark⟩ := mem_hexadecimal_mark inside
  exact ⟨x, by simp, isDigit_of_hexadecimal_mark isMark⟩

theorem within_integer {chars : List Char} (digits : chars.all (! isDigit ·))
    (hexDigits : chars.all (! isHexDigit ·))
    (marks : ["0x", "0X"].all fun text => text.toList.all (! chars.contains ·)) :
    Within (! chars.contains ·) integer :=
  ((within_oneOf marks).mul (within_run_of_outside hexDigits)).add (within_run_of_outside digits)

theorem finds_int? (cs : List Char) : Finds integral cs (int? cs) := by
  have number : Finds integer cs ((hexadecimal? cs).or (run? isDigit cs)) :=
    (finds_hexadecimal? cs).add (finds_run isDigit cs) before_hexadecimal
  unfold int?
  cases found : (hexadecimal? cs).or (run? isDigit cs) with
  | none => exact Finds.mul_of_none (found ▸ number)
  | some part =>
    rw [found] at number
    exact number.mul (finds_unsignedSuffix part.2)
      (apart_of_class (! ['u', 'U'].contains ·) (within_integer (by decide) (by decide) (by decide))
        (stops_oneOf (by decide)))

theorem startsIn_word : StartsIn isWordStart word := by
  rintro text ⟨c, rest, rfl, isStart, -⟩
  exact ⟨c, rest, rfl, isStart⟩

theorem finds_word? (cs : List Char) : Finds word cs (word? cs) := by
  cases found : word? cs with
  | none => exact startsIn_word.finds_none (word?_eq_none.1 found)
  | some part =>
    unfold word? at found
    split at found
    · split at found
      · rename_i c cs isStart
        cases found
        refine ⟨by simp, ⟨c, _, rfl, isStart, List.all_eq_true.1 List.all_takeWhile⟩, ?_⟩
        rintro text ⟨d, rest, rfl, -, all⟩ fits
        exact Nat.succ_le_succ (length_le_takeWhile all (List.cons_prefix_cons.1 fits).2)
      · cases found
    · cases found

/-! ### Kinds of tokens -/

/-- The characters that make a number a floating one. -/
def isFloatMark (c : Char) : Bool :=
  c = '.' || isExponentMark c

theorem exists_digits_of_mem_real {text : List Char} (h : text ∈ real) :
    ∃ digits c rest, text = digits ++ c :: rest ∧ (∀ d ∈ digits, isDigit d) ∧
      isFloatMark c := by
  rcases h with inside | inside | inside
  · obtain ⟨digits, whole, tail, behind, rfl⟩ := Language.mem_mul.1 inside
    obtain ⟨c, rest, rfl, point⟩ := startsIn_point _ tail behind
    exact ⟨digits, c, rest, rfl, whole.2, by simp [isFloatMark, of_decide_eq_true point]⟩
  · obtain ⟨c, rest, rfl, point⟩ := startsIn_point _ text inside
    exact ⟨[], c, rest, rfl, by simp, by simp [isFloatMark, of_decide_eq_true point]⟩
  · obtain ⟨digits, whole, tail, behind, rfl⟩ := Language.mem_mul.1 inside
    obtain ⟨c, rest, rfl, isMark⟩ := startsIn_exponent tail behind
    exact ⟨digits, c, rest, rfl, whole.2, by simp [isFloatMark, isMark]⟩

/-- Behind the digits of an integer no point and no exponent stands. -/
theorem stops_dropWhile_of_mem_integral {text : List Char}
    (h : text ∈ integral) : Stops isFloatMark (text.dropWhile isDigit) := by
  obtain ⟨number, inside, suffix, behind, rfl⟩ := Language.mem_mul.1 h
  rcases inside with inside | inside
  · obtain ⟨x, rest, rfl, isMark⟩ := mem_hexadecimal_mark inside
    have zero : isDigit '0' = true := by decide
    have notDigit := isDigit_of_hexadecimal_mark isMark
    simp only [List.cons_append, List.dropWhile_cons, zero, notDigit, if_true,
      Bool.false_eq_true, if_false]
    rintro c ⟨⟩
    rcases isMark with rfl | rfl <;> decide
  · have stops : Stops isDigit suffix := stops_oneOf (by decide) suffix behind
    rw [stops.dropWhile_append inside.2]
    exact stops_oneOf (by decide) suffix behind

theorem isDigit_of_isFloatMark (c : Char) (h : isFloatMark c) : isDigit c = false := by
  rcases (by simpa [isFloatMark] using h : c = '.' ∨ isExponentMark c) with rfl | isMark
  · decide
  · exact isDigit_of_isExponentMark c isMark

theorem before_float_integral : Before float integral := by
  rintro text inside text' behind ⟨rest, rfl⟩
  obtain ⟨number, isReal, suffix, -, rfl⟩ := Language.mem_mul.1 inside
  obtain ⟨digits, c, tail, rfl, all, isMark⟩ := exists_digits_of_mem_real isReal
  have mark : Stops isDigit (c :: (tail ++ suffix ++ rest)) := by
    rintro d ⟨⟩
    exact isDigit_of_isFloatMark c isMark
  have stops := stops_dropWhile_of_mem_integral behind
  rw [List.append_assoc, List.append_assoc, List.cons_append, ← List.append_assoc tail,
    mark.dropWhile_append all] at stops
  rw [stops c rfl] at isMark
  cases isMark

theorem startsIn_float : StartsIn (fun c => isDigit c || c = '.') float := by
  have digits : ∀ c, isDigit c → (isDigit c || decide (c = '.')) := by simp +contextual
  have point : ∀ c, decide (c = '.') = true → (isDigit c || decide (c = '.')) := by
    simp +contextual
  exact ((startsIn_pointed.imp digits).add
    (((startsIn_point _).imp point).add (startsIn_scaled.imp digits))).mul

theorem exists_digit_of_mem_float {text : List Char} (h : text ∈ float) :
    ∃ c ∈ text, (! isDigit c) = false := by
  have some_digit : ∀ digits ∈ run isDigit, ∃ c ∈ digits, (! isDigit c) = false := by
    intro digits inside
    obtain ⟨c, rest, rfl, digit⟩ := startsIn_run isDigit digits inside
    exact ⟨c, List.mem_cons_self, by rw [digit]; rfl⟩
  obtain ⟨number, isReal, suffix, -, rfl⟩ := Language.mem_mul.1 h
  suffices found : ∃ c ∈ number, (! isDigit c) = false by
    obtain ⟨c, listed, digit⟩ := found
    exact ⟨c, List.mem_append_left _ listed, digit⟩
  rcases isReal with inside | inside | inside
  · obtain ⟨digits, whole, tail, -, rfl⟩ := Language.mem_mul.1 inside
    obtain ⟨c, listed, digit⟩ := some_digit digits whole
    exact ⟨c, List.mem_append_left _ listed, digit⟩
  · obtain ⟨point, -, tail, behind, rfl⟩ := Language.mem_mul.1 inside
    obtain ⟨digits, whole, scale, -, rfl⟩ := Language.mem_mul.1 behind
    obtain ⟨c, listed, digit⟩ := some_digit digits whole
    exact ⟨c, List.mem_append_right _ (List.mem_append_left _ listed), digit⟩
  · obtain ⟨digits, whole, tail, -, rfl⟩ := Language.mem_mul.1 inside
    obtain ⟨c, listed, digit⟩ := some_digit digits whole
    exact ⟨c, List.mem_append_left _ listed, digit⟩

theorem startsIn_integral : StartsIn isDigit integral :=
  StartsIn.mul ((StartsIn.mul (startsIn_oneOf (by decide))).add (startsIn_run isDigit))

theorem before_word : Before word (oneOf Vocabulary.operators) :=
  startsIn_word.before (stops_oneOf (by decide))

theorem before_integral : Before integral (word + oneOf Vocabulary.operators) := by
  have words : Before integral word :=
    startsIn_integral.before (startsIn_word.stops fun _ => isDigit_of_isWordStart)
  have marks : Before integral (oneOf Vocabulary.operators) :=
    startsIn_integral.before (stops_oneOf (by decide))
  rintro text inside text' (behind | behind)
  · exact words text inside text' behind
  · exact marks text inside text' behind

theorem before_float : Before float (integral + (word + oneOf Vocabulary.operators)) := by
  have words : Before float word := by
    refine startsIn_float.before (startsIn_word.stops fun c isStart => ?_)
    rw [isDigit_of_isWordStart isStart, Bool.false_or, decide_eq_false_iff_not]
    rintro rfl
    revert isStart
    decide
  have marks : Before float (oneOf Vocabulary.operators) :=
    (within_oneOf (by decide)).before fun _ => exists_digit_of_mem_float
  rintro text inside text' (behind | behind | behind)
  · exact before_float_integral text inside text' behind
  · exact words text inside text' behind
  · exact marks text inside text' behind

theorem finds_operator (cs : List Char) :
    Finds (oneOf Vocabulary.operators) cs (Token.mark? Vocabulary.operators cs) :=
  finds_mark? (by decide) cs

/-- A token is the longest spelling that its text starts with. -/
theorem finds_scan? (cs : List Char) :
    Finds token cs ((Token.scan? cs).map Prod.snd) := by
  have choice := (finds_float? cs).add ((finds_int? cs).add
    ((finds_word? cs).add (finds_operator cs) before_word) before_integral) before_float
  have same : (Token.scan? cs).map Prod.snd = (float? cs).or ((int? cs).or
      ((word? cs).or (Token.mark? Vocabulary.operators cs))) := by
    unfold Token.scan?
    cases float? cs with
    | some part => rfl
    | none =>
      cases int? cs with
      | some part => rfl
      | none =>
        cases word? cs with
        | some part => rfl
        | none => cases Token.mark? Vocabulary.operators cs <;> rfl
  rwa [same]

theorem intKind_of_mem_integer {text : List Char} (h : text ∈ integer) :
    Token.intKind text = .intLiteral := by
  have unsuffixed : ∀ c ∈ ['u', 'U'], text.getLast? ≠ some c := by
    intro c isMark last
    have inside : (! ['u', 'U'].contains c) = true :=
      within_integer (by decide) (by decide) (by decide) text h c (List.mem_of_getLast? last)
    rw [List.contains_iff_mem.2 isMark] at inside
    cases inside
  simp [Token.intKind, unsuffixed 'u' (by simp), unsuffixed 'U' (by simp)]

theorem intKind_of_mem_unsigned {text : List Char}
    (h : text ∈ integer * oneOf ["u", "U"]) :
    Token.intKind text = .uintLiteral := by
  obtain ⟨number, -, _, ⟨mark, listed, rfl⟩, rfl⟩ := Language.mem_mul.1 h
  rcases (by simpa using listed : mark = "u" ∨ mark = "U") with rfl | rfl <;>
    simp [Token.intKind]

theorem mem_integral_iff {text : List Char} :
    text ∈ integral ↔ text ∈ ofKind .intLiteral ∨ text ∈ ofKind .uintLiteral := by
  constructor
  · intro h
    obtain ⟨number, inside, suffix, ⟨mark, listed, rfl⟩, rfl⟩ := Language.mem_mul.1 h
    rcases (by simpa using listed : mark = "u" ∨ mark = "U" ∨ mark = "") with
      rfl | rfl | rfl
    · exact Or.inr (Language.append_mem_mul inside ⟨"u", by simp, rfl⟩)
    · exact Or.inr (Language.append_mem_mul inside ⟨"U", by simp, rfl⟩)
    · exact Or.inl (show number ++ [] ∈ integer by rwa [List.append_nil])
  · rintro (inside | inside)
    · exact Language.mem_mul.2 ⟨text, inside, [], ⟨"", by simp, rfl⟩, List.append_nil _⟩
    · obtain ⟨number, isInteger, _, ⟨mark, listed, rfl⟩, rfl⟩ := Language.mem_mul.1 inside
      exact Language.append_mem_mul isInteger ⟨mark, List.mem_append_left [""] listed, rfl⟩

theorem mem_ofKind_intKind {text : List Char} (h : text ∈ integral) :
    text ∈ ofKind (Token.intKind text) := by
  rcases mem_integral_iff.1 h with signed | unsigned
  · rwa [intKind_of_mem_integer signed]
  · rwa [intKind_of_mem_unsigned unsigned]

theorem mem_ofKind_wordKind {text : List Char} (h : text ∈ word) :
    text ∈ ofKind (Token.wordKind (String.ofList text)) := by
  unfold Token.wordKind
  split
  · rename_i truth
    rcases (by simpa using truth : String.ofList text = "true" ∨
      String.ofList text = "false")
      with spelled | spelled
    · exact ⟨"true", by simp, by rw [← spelled, String.toList_ofList]⟩
    · exact ⟨"false", by simp, by rw [← spelled, String.toList_ofList]⟩
  · rename_i noTruth
    split
    · rename_i reserved
      exact ⟨h, reserved⟩
    · rename_i free
      refine ⟨h, ?_, free⟩
      rintro ⟨truth, listed, rfl⟩
      simp_all

theorem wordKind_of_mem_keyword {text : List Char} (h : text ∈ ofKind .keyword) :
    Token.wordKind (String.ofList text) = .keyword := by
  have reserved : Vocabulary.isReserved (String.ofList text) := h.2
  have noTruth : ¬ (String.ofList text = "true" ∨ String.ofList text = "false") := by
    rintro (spelled | spelled)
    · rw [spelled] at reserved
      revert reserved
      decide
    · rw [spelled] at reserved
      revert reserved
      decide
  simp [Token.wordKind, noTruth, reserved]

theorem wordKind_of_mem_identifier {text : List Char} (h : text ∈ ofKind .identifier) :
    Token.wordKind (String.ofList text) = .identifier := by
  obtain ⟨-, noTruth, free⟩ := h
  have spelled : ∀ truth ∈ ["true", "false"], String.ofList text ≠ truth := by
    rintro truth listed same
    exact noTruth ⟨truth, listed, by rw [← same, String.toList_ofList]⟩
  simp [Token.wordKind, spelled "true" (by simp), spelled "false" (by simp), free]

theorem mem_word_of_mem_boolLiteral {text : List Char} (h : text ∈ ofKind .boolLiteral) :
    text ∈ word ∧ Token.wordKind (String.ofList text) = .boolLiteral := by
  obtain ⟨truth, listed, rfl⟩ := h
  rcases (by simpa using listed : truth = "true" ∨ truth = "false") with rfl | rfl
  · exact ⟨⟨'t', "rue".toList, rfl, by decide, List.all_eq_true.1 (by decide)⟩, by decide⟩
  · exact ⟨⟨'f', "alse".toList, rfl, by decide, List.all_eq_true.1 (by decide)⟩, by decide⟩

end Lexicon

namespace Token

open Lexicon

variable {text cs read rest : List Char} {kind : TokenKind}

/-- What is cut is of its kind. -/
theorem mem_ofKind_of_scan? (h : scan? cs = some (kind, read, rest)) :
    read ∈ ofKind kind := by
  rcases scan?_cases h with
    ⟨found, rfl⟩ | ⟨-, found, rfl⟩ | ⟨-, -, found, rfl⟩ | ⟨-, -, -, found, rfl⟩
  · exact (found ▸ finds_float? cs).2.1
  · exact mem_ofKind_intKind (found ▸ finds_int? cs).2.1
  · exact mem_ofKind_wordKind (found ▸ finds_word? cs).2.1
  · exact (found ▸ finds_operator cs).2.1

theorem scan?_of_mem_float (h : text ∈ float) :
    scan? text = some (.floatLiteral, text, []) := by
  simp only [scan?, (finds_float? text).whole h]

theorem scan?_of_mem_integral (h : text ∈ integral) :
    scan? text = some (intKind text, text, []) := by
  have noFloat := (finds_float? text).eq_none_of_before before_float (Or.inl h)
  simp only [scan?, noFloat, (finds_int? text).whole h]

theorem scan?_of_mem_word (h : text ∈ word) :
    scan? text = some (wordKind (String.ofList text), text, []) := by
  have noFloat := (finds_float? text).eq_none_of_before before_float (Or.inr (Or.inl h))
  have noInteger := (finds_int? text).eq_none_of_before before_integral (Or.inl h)
  simp only [scan?, noFloat, noInteger, (finds_word? text).whole h]

theorem scan?_of_mem_operators (h : text ∈ oneOf Vocabulary.operators) :
    scan? text = some (.punct, text, []) := by
  have noFloat := (finds_float? text).eq_none_of_before before_float (Or.inr (Or.inr h))
  have noInteger := (finds_int? text).eq_none_of_before before_integral (Or.inr h)
  have noWord := (finds_word? text).eq_none_of_before before_word h
  simp only [scan?, noFloat, noInteger, noWord, (finds_operator text).whole h]

/-- A spelling is one token of its kind. -/
theorem scan?_of_mem_ofKind (h : text ∈ ofKind kind) :
    scan? text = some (kind, text, []) := by
  cases kind with
  | identifier => exact wordKind_of_mem_identifier h ▸ scan?_of_mem_word h.1
  | keyword => exact wordKind_of_mem_keyword h ▸ scan?_of_mem_word h.1
  | intLiteral =>
    exact intKind_of_mem_integer h ▸ scan?_of_mem_integral (mem_integral_iff.2 (Or.inl h))
  | uintLiteral =>
    exact intKind_of_mem_unsigned h ▸ scan?_of_mem_integral (mem_integral_iff.2 (Or.inr h))
  | floatLiteral => exact scan?_of_mem_float h
  | boolLiteral =>
    obtain ⟨inside, truth⟩ := mem_word_of_mem_boolLiteral h
    exact truth ▸ scan?_of_mem_word inside
  | punct => exact scan?_of_mem_operators h
  | finish => cases h

/-- The kinds share no spelling. -/
theorem kind_unique {kind' : TokenKind} (h : text ∈ ofKind kind)
    (h' : text ∈ ofKind kind') :
    kind' = kind := by
  have same := (scan?_of_mem_ofKind h').symm.trans (scan?_of_mem_ofKind h)
  cases same
  rfl

/-- No kind has a longer spelling. -/
theorem length_le_of_scan? {kind' : TokenKind} (h : scan? cs = some (kind, read, rest))
    (inside : text ∈ ofKind kind') (fits : text <+: cs) : text.length ≤ read.length := by
  have isToken := finds_scan? text
  have longest := finds_scan? cs
  rw [scan?_of_mem_ofKind inside] at isToken
  rw [h] at longest
  exact longest.2.2 text isToken.2.1 fits

end Token

namespace TokenStream

open Lexicon

theorem cutFrom_of_mem {source : String} {stream : TokenStream}
    (cut : ofSource source = .ok stream) {lexeme : Lexeme}
    (listed : lexeme ∈ stream.lexemes) :
    lexeme.CutFrom source.toList := by
  rcases lexed_lexemesFrom (LineTable.ofText source.toList) 0 0 source.toList with
    ⟨lexemes, read, reads⟩ | ⟨_, _, _, _, _, _, _, failed⟩
  · obtain ⟨whole, shape, parts⟩ := reads.partition [] rfl
    obtain rfl : source.toList = whole := by simpa using shape
    rw [ofSource_eq_ok read] at cut
    cases cut
    exact parts.cut lexeme listed
  · rw [ofSource_eq_error failed] at cut
    cases cut

/-- Every token of a source is the longest spelling of any kind that the source
has from the start of the token, and it is of the one kind that has its spelling. -/
theorem longest_match {source : String} {stream : TokenStream}
    (cut : ofSource source = .ok stream) {lexeme : Lexeme}
    (listed : lexeme ∈ stream.lexemes) :
    lexeme.text.toList ∈ ofKind lexeme.kind ∧
      (∀ kind, lexeme.text.toList ∈ ofKind kind → kind = lexeme.kind) ∧
      ∃ rest, Spans source.toList lexeme.start lexeme.stop lexeme.text.toList rest ∧
        ∀ kind, ∀ text ∈ ofKind kind, text <+: lexeme.text.toList ++ rest →
          text.length ≤ lexeme.text.toList.length := by
  obtain ⟨rest, span, read⟩ := (cutFrom_of_mem cut listed).token
  have own := Token.mem_ofKind_of_scan? read
  refine ⟨own, fun kind inside => Token.kind_unique own inside, rest, span, ?_⟩
  exact fun kind text inside fits => Token.length_le_of_scan? read inside fits

theorem longest_match_numbers :
    ∃ stream lexeme, ofSource "a.5e+3lf-0x1Fu" = .ok stream ∧ lexeme ∈ stream.lexemes ∧
      lexeme.kind = .floatLiteral ∧ ".5e+3lf".toList ∈ ofKind .floatLiteral ∧
      ∃ rest, Spans "a.5e+3lf-0x1Fu".toList 1 8 ".5e+3lf".toList rest ∧
        ∀ kind, ∀ text ∈ ofKind kind, text <+: ".5e+3lf".toList ++ rest →
          text.length ≤ 7 := by
  have read : (ofSource "a.5e+3lf-0x1Fu").toOption.bind (·.lexemes[1]?) =
      some ⟨⟨1, .floatLiteral, ".5e+3lf"⟩, 1, 8, ⟨1, 2⟩⟩ := by
    decide +kernel
  obtain ⟨stream, found, second⟩ := Option.bind_eq_some_iff.1 read
  cases cut : ofSource "a.5e+3lf-0x1Fu" with
  | error cause => simp [cut, Except.toOption] at found
  | ok stream' =>
    obtain rfl : stream' = stream := by simpa [cut, Except.toOption] using found
    have listed := List.mem_of_getElem? second
    obtain ⟨spelled, -, rest, span, longest⟩ := longest_match cut listed
    exact ⟨_, _, rfl, listed, rfl, spelled, rest, span, longest⟩

end TokenStream

end ShaderDialect
