import ShaderDialect.Proofs.Lexing

/-!
# Edited texts

Converting a shader puts `.0` behind the digits of some literals and deletes
some tokens. `Edited cs cs'` says that `cs'` is `cs` with such changes. Literals
grow behind a digit only, and tokens are cut out only behind a seam: a blank, a
mark of one character that starts no longer token, or the end of a block
comment. No reader of tokens looks past a digit or a seam behind its own
characters, so a token in front of an edited text is read as before.
-/

namespace ShaderDialect

/-- Marks that are a token whatever follows them, and after which a declaration
may stand. -/
def isSeal (c : Char) : Bool :=
  [';', ':', '(', ')', '\x7b', '\x7d'].contains c

/-- Characters that no token and no hidden text reaches across. -/
def isSeam (c : Char) : Bool :=
  Hidden.isBlank c || isSeal c

/-- The second text is the first one with `.0` behind some of its digits, and
without some of the text behind its seams. What is cut out has no line end in
it, and no line end is made of the two halves of one by cutting. -/
inductive Edited : List Char → List Char → Prop where
  | nil : Edited [] []
  | keep {c : Char} {cs cs' : List Char} (h : Edited cs cs') : Edited (c :: cs) (c :: cs')
  | widen {c : Char} {cs cs' : List Char} (isDigit : Literal.isDigit c) (h : Edited cs cs') :
      Edited (c :: cs) (c :: '.' :: '0' :: cs')
  | cut {c : Char} {removed cs cs' : List Char} (seam : isSeam c)
      (inLine : ∀ d ∈ removed, ! Hidden.isLineEnd d) (apart : c = '\r' →
        cs'.head? ≠ some '\n')
      (h : Edited cs cs') : Edited (c :: (removed ++ cs)) (c :: cs')
  | cutComment {removed cs cs' : List Char} (inLine : ∀ d ∈ removed, ! Hidden.isLineEnd d)
      (h : Edited cs cs') : Edited ('*' :: '/' :: (removed ++ cs)) ('*' :: '/' :: cs')

namespace Edited

theorem refl (cs : List Char) : Edited cs cs := by
  induction cs with
  | nil => exact .nil
  | cons c cs ih => exact .keep ih

theorem append {cs cs' : List Char} (h : Edited cs cs') (before : List Char) :
    Edited (before ++ cs) (before ++ cs') := by
  induction before with
  | nil => exact h
  | cons c before ih => exact .keep ih

theorem append_widen {cs cs' digits : List Char} (h : Edited cs cs')
    (nonempty : digits ≠ []) (isDigit : ∀ c ∈ digits, Literal.isDigit c) :
    Edited (digits ++ cs) (digits ++ '.' :: '0' :: cs') := by
  induction digits with
  | nil => exact absurd rfl nonempty
  | cons c digits ih =>
    cases digits with
    | nil => exact .widen (isDigit c List.mem_cons_self) h
    | cons d digits =>
      exact .keep (ih (List.cons_ne_nil _ _) fun c member =>
        isDigit c (List.mem_cons_of_mem _ member))

theorem head?_eq {cs cs' : List Char} (h : Edited cs cs') : cs'.head? = cs.head? := by
  cases h <;> rfl

theorem nil_left {cs' : List Char} (h : Edited [] cs') : cs' = [] := by
  cases h
  rfl

end Edited

/-- Characters behind which a text may be edited. -/
def isEditable (c : Char) : Bool :=
  Literal.isDigit c || isSeam c || c = '*'

namespace Edited

theorem cons_left {c : Char} {cs cs' : List Char} (h : Edited (c :: cs) cs')
    (kept : isEditable c = false) : ∃ tail, cs' = c :: tail ∧ Edited cs tail := by
  cases h with
  | keep h => exact ⟨_, rfl, h⟩
  | widen isDigit h => simp [isEditable, isDigit] at kept
  | cut seam _ _ h => simp [isEditable, seam] at kept
  | cutComment _ h => cases kept

theorem cons_right {c : Char} {cs cs' : List Char} (h : Edited cs (c :: cs'))
    (kept : isEditable c = false) : ∃ tail, cs = c :: tail ∧ Edited tail cs' := by
  cases h with
  | keep h => exact ⟨_, rfl, h⟩
  | widen isDigit h => simp [isEditable, isDigit] at kept
  | cut seam _ _ h => simp [isEditable, seam] at kept
  | cutComment _ h => cases kept

/-- Two characters that end a line stood together before. -/
theorem lineEnd_right {cs cs' : List Char} (h : Edited cs ('\r' :: '\n' :: cs')) :
    ∃ tail, cs = '\r' :: '\n' :: tail := by
  cases h with
  | keep h =>
    obtain ⟨tail, rfl⟩ := List.head?_eq_some_iff.1 h.head?_eq.symm
    exact ⟨tail, rfl⟩
  | cut _ _ apart _ => exact absurd rfl (apart rfl)

/-- Dropping characters of a class to which the inserted and the cut ones
belong. -/
theorem dropWhile {cs cs' : List Char} (h : Edited cs cs') {p : Char → Bool}
    (digits : ∀ c, Literal.isDigit c → p c) (point : p '.')
    (inLine : ∀ c, ! Hidden.isLineEnd c → p c) :
    Edited (cs.dropWhile p) (cs'.dropWhile p) := by
  induction h with
  | nil => exact .nil
  | @keep c cs cs' h ih =>
    by_cases holds : p c
    · simpa [holds] using ih
    · simpa [holds] using h.keep
  | @widen c cs cs' isDigit h ih =>
    simpa [digits c isDigit, point, digits '0' (by decide)] using ih
  | @cut c removed cs cs' seam here apart h ih =>
    by_cases holds : p c
    · have dropped :=
        @List.dropWhile_append_of_pos _ p removed cs fun d member =>
          inLine d (here d member)
      simpa [holds, dropped] using ih
    · simpa [holds] using h.cut seam here apart
  | @cutComment removed cs cs' here h ih =>
    have dropped :=
      @List.dropWhile_append_of_pos _ p removed cs fun d member =>
        inLine d (here d member)
    simpa [inLine '*' (by decide), inLine '/' (by decide), dropped] using ih

end Edited

/-- The text does not start with a character of a class. -/
def Stops (p : Char → Bool) (cs : List Char) : Prop :=
  ∀ c, cs.head? = some c → p c = false

instance (p : Char → Bool) (cs : List Char) : Decidable (Stops p cs) :=
  decidable_of_iff (cs.head?.all (! p ·)) (by cases cs <;> simp [Stops])

theorem stops_dropWhile (p : Char → Bool) (cs : List Char) :
    Stops p (cs.dropWhile p) := by
  intro c found
  have stopped := List.head?_dropWhile_not p cs
  simpa [found] using stopped

theorem Stops.edited {p : Char → Bool} {cs cs' : List Char} (stops : Stops p cs)
    (h : Edited cs cs') : Stops p cs' := by
  rw [Stops, h.head?_eq]
  exact stops

theorem Stops.takeWhile_eq_nil {p : Char → Bool} {cs : List Char} (stops : Stops p cs) :
    cs.takeWhile p = [] := by
  cases cs with
  | nil => rfl
  | cons c cs => simp [stops c rfl]

theorem Stops.dropWhile_eq_self {p : Char → Bool} {cs : List Char} (stops : Stops p cs) :
    cs.dropWhile p = cs := by
  cases cs with
  | nil => rfl
  | cons c cs => simp [stops c rfl]

theorem Stops.takeWhile_append {p : Char → Bool} {cs before : List Char}
    (stops : Stops p cs)
    (all : ∀ c ∈ before, p c) : (before ++ cs).takeWhile p = before := by
  rw [List.takeWhile_append_of_pos all, stops.takeWhile_eq_nil, List.append_nil]

theorem Stops.dropWhile_append {p : Char → Bool} {cs before : List Char}
    (stops : Stops p cs)
    (all : ∀ c ∈ before, p c) : (before ++ cs).dropWhile p = cs := by
  rw [List.dropWhile_append_of_pos all, stops.dropWhile_eq_self]

namespace Literal

theorem run?_eq_some {p : Char → Bool} {cs read rest : List Char}
    (h : run? p cs = some (read, rest)) :
    cs = read ++ rest ∧ read ≠ [] ∧ (∀ c ∈ read, p c) ∧ Stops p rest := by
  obtain ⟨whole, nonempty⟩ := run?_append h
  refine ⟨whole.symm, nonempty, ?_⟩
  unfold run? at h
  split at h
  · cases h
  · cases h
    exact ⟨fun c member => List.all_eq_true.1 List.all_takeWhile c member,
      stops_dropWhile p cs⟩

theorem run?_append_of_stops {p : Char → Bool} {read rest : List Char}
    (nonempty : read ≠ []) (all : ∀ c ∈ read, p c) (stops : Stops p rest) :
    run? p (read ++ rest) = some (read, rest) := by
  rw [run?, stops.takeWhile_append all, stops.dropWhile_append all]
  simp [nonempty]

theorem run?_eq_none {p : Char → Bool} {cs : List Char} :
    run? p cs = none ↔ Stops p cs := by
  cases cs with
  | nil => simp [run?, Stops]
  | cons c cs =>
    by_cases holds : p c <;> simp [run?, Stops, holds]

theorem run?_edited {p : Char → Bool} {cs read rest rest' : List Char}
    (h : run? p cs = some (read, rest)) (edited : Edited rest rest') :
    run? p (read ++ rest') = some (read, rest') := by
  obtain ⟨-, nonempty, all, stops⟩ := run?_eq_some h
  exact run?_append_of_stops nonempty all (stops.edited edited)

theorem word?_edited {cs read rest rest' : List Char} (h : word? cs = some (read, rest))
    (edited : Edited rest rest') : word? (read ++ rest') = some (read, rest') := by
  cases cs with
  | nil => cases h
  | cons c cs =>
    by_cases isStart : isWordStart c
    · rw [word?, if_pos isStart] at h
      cases h
      have all : ∀ c ∈ cs.takeWhile isWordPart, isWordPart c := fun c member =>
        List.all_eq_true.1 List.all_takeWhile c member
      have stops := (stops_dropWhile isWordPart cs).edited edited
      simp [word?, isStart, stops.takeWhile_append all, stops.dropWhile_append all]
    · rw [word?, if_neg isStart] at h
      cases h

/-- Nothing is edited behind a sign. -/
theorem sign_edited {cs cs' : List Char} (h : Edited cs cs') :
    (sign cs').1 = (sign cs).1 ∧ Edited (sign cs).2 (sign cs').2 := by
  unfold sign
  split
  · obtain ⟨tail, rfl, edited⟩ := h.cons_right (by decide)
    exact ⟨rfl, edited⟩
  · obtain ⟨tail, rfl, edited⟩ := h.cons_right (by decide)
    exact ⟨rfl, edited⟩
  · rename_i notPlus notMinus
    split
    · obtain ⟨tail, rfl, -⟩ := h.cons_left (by decide)
      exact absurd rfl (notPlus tail)
    · obtain ⟨tail, rfl, -⟩ := h.cons_left (by decide)
      exact absurd rfl (notMinus tail)
    · exact ⟨rfl, h⟩

theorem exponent?_edited {cs read rest rest' : List Char}
    (h : exponent? cs = some (read, rest))
    (edited : Edited rest rest') : exponent? (read ++ rest') = some (read, rest') := by
  cases cs with
  | nil => cases h
  | cons e cs =>
    by_cases isMark : (e = 'e' || e = 'E') = true
    · rw [exponent?, if_pos isMark] at h
      obtain ⟨⟨digits, rest⟩, found, same⟩ := Option.map_eq_some_iff.1 h
      cases same
      have shape : cs = (sign cs).1 ++ (digits ++ rest) := by
        rw [(run?_append found).1, sign_append]
      have editedText := (edited.append digits).append (sign cs).1
      rw [← shape] at editedText
      have sameSign := (sign_edited editedText).1
      have tail := sign_append ((sign cs).1 ++ (digits ++ rest'))
      rw [sameSign] at tail
      have again := run?_edited found edited
      simp only [List.cons_append, List.append_assoc]
      rw [exponent?, if_pos isMark, List.append_cancel_left tail, again, sameSign]
      rfl
    · rw [exponent?, if_neg isMark] at h
      cases h

theorem exponent?_eq_none {cs cs' : List Char} (h : exponent? cs = none)
    (edited : Edited cs cs') :
    exponent? cs' = none := by
  cases cs with
  | nil =>
    rw [edited.nil_left]
    rfl
  | cons e cs =>
    by_cases isMark : (e = 'e' || e = 'E') = true
    · have kept : isEditable e = false := by
        rcases Bool.or_eq_true_iff.1 isMark with same | same <;>
          rw [of_decide_eq_true same] <;> decide
      obtain ⟨tail, rfl, behind⟩ := edited.cons_left kept
      rw [exponent?, if_pos isMark, Option.map_eq_none_iff, run?_eq_none] at h ⊢
      exact h.edited (sign_edited behind).2
    · cases edited <;> rw [exponent?, if_neg isMark]

theorem floatSuffix_edited {cs rest' : List Char}
    (edited : Edited (floatSuffix cs).2 rest') :
    floatSuffix ((floatSuffix cs).1 ++ rest') = ((floatSuffix cs).1, rest') := by
  revert edited
  unfold floatSuffix
  split
  · exact fun _ => rfl
  · exact fun _ => rfl
  · exact fun _ => rfl
  · exact fun _ => rfl
  · rename_i notLower notUpper notF notF'
    intro edited
    change floatSuffix rest' = ([], rest')
    unfold floatSuffix
    split
    · obtain ⟨tail, rfl, behind⟩ := edited.cons_right (by decide)
      obtain ⟨tail, rfl, -⟩ := behind.cons_right (by decide)
      exact absurd rfl (notLower tail)
    · obtain ⟨tail, rfl, behind⟩ := edited.cons_right (by decide)
      obtain ⟨tail, rfl, -⟩ := behind.cons_right (by decide)
      exact absurd rfl (notUpper tail)
    · obtain ⟨tail, rfl, -⟩ := edited.cons_right (by decide)
      exact absurd rfl (notF tail)
    · obtain ⟨tail, rfl, -⟩ := edited.cons_right (by decide)
      exact absurd rfl (notF' tail)
    · rfl

theorem unsignedSuffix_edited {cs rest' : List Char}
    (edited : Edited (unsignedSuffix cs).2 rest') :
    unsignedSuffix ((unsignedSuffix cs).1 ++ rest') = ((unsignedSuffix cs).1, rest') := by
  revert edited
  unfold unsignedSuffix
  split
  · exact fun _ => rfl
  · exact fun _ => rfl
  · rename_i notLower notUpper
    intro edited
    change unsignedSuffix rest' = ([], rest')
    unfold unsignedSuffix
    split
    · obtain ⟨tail, rfl, -⟩ := edited.cons_right (by decide)
      exact absurd rfl (notLower tail)
    · obtain ⟨tail, rfl, -⟩ := edited.cons_right (by decide)
      exact absurd rfl (notUpper tail)
    · rfl

/-- A number with a point: its parts are read back. -/
theorem mantissa?_point {whole fraction rest : List Char}
    (digits : ∀ c ∈ whole, isDigit c) (digits' : ∀ c ∈ fraction, isDigit c)
    (nonempty : whole = [] → fraction ≠ []) (stops : Stops isDigit rest) :
    mantissa? (whole ++ '.' :: (fraction ++ rest)) =
      some (whole ++ '.' :: fraction ++ ((exponent? rest).getD ([], rest)).1,
        ((exponent? rest).getD ([], rest)).2) := by
  have point : Stops isDigit ('.' :: (fraction ++ rest)) := by
    rintro c ⟨⟩
    decide
  unfold mantissa?
  simp only [point.takeWhile_append digits, point.dropWhile_append digits,
    stops.takeWhile_append digits', stops.dropWhile_append digits']
  rw [if_neg (by simpa using nonempty)]

/-- Digits without a point are a number where an exponent follows. -/
theorem mantissa?_digits {whole rest : List Char} (digits : ∀ c ∈ whole, isDigit c)
    (nonempty : whole ≠ []) (stops : Stops isDigit rest)
    (noPoint : rest.head? ≠ some '.') :
    mantissa? (whole ++ rest) =
      (exponent? rest).map fun (exponent, after) => (whole ++ exponent, after) := by
  unfold mantissa?
  simp only [stops.takeWhile_append digits, stops.dropWhile_append digits]
  split
  · simp at noPoint
  · simp [nonempty]

/-- An exponent, or its absence, is read back. -/
theorem getD_exponent?_edited {cs rest' : List Char}
    (edited : Edited ((exponent? cs).getD ([], cs)).2 rest') :
    Edited cs (((exponent? cs).getD ([], cs)).1 ++ rest') ∧
      (exponent? (((exponent? cs).getD ([], cs)).1 ++ rest')).getD
          ([], ((exponent? cs).getD ([], cs)).1 ++ rest') =
        (((exponent? cs).getD ([], cs)).1, rest') := by
  cases found : exponent? cs with
  | none =>
    rw [found] at edited
    refine ⟨edited, ?_⟩
    change (exponent? rest').getD ([], rest') = ([], rest')
    rw [exponent?_eq_none found edited]
    rfl
  | some pair =>
    rw [found] at edited
    refine ⟨?_, ?_⟩
    · have whole := exponent?_append found
      have editedText := edited.append pair.1
      rwa [Option.getD_some, whole] at editedText
    · rw [Option.getD_some, exponent?_edited found edited]
      rfl

theorem mantissa?_edited {cs number after after' : List Char}
    (h : mantissa? cs = some (number, after)) (edited : Edited after after') :
    mantissa? (number ++ after') = some (number, after') := by
  have whole := List.takeWhile_append_dropWhile (p := isDigit) (l := cs)
  have digits : ∀ c ∈ cs.takeWhile isDigit, isDigit c := fun c member =>
    List.all_eq_true.1 List.all_takeWhile c member
  have stops := stops_dropWhile isDigit cs
  unfold mantissa? at h
  simp only at h
  split at h
  · rename_i tail shape
    have digits' : ∀ c ∈ tail.takeWhile isDigit, isDigit c := fun c member =>
      List.all_eq_true.1 List.all_takeWhile c member
    split at h
    · cases h
    · rename_i nonempty
      cases h
      obtain ⟨editedTail, read⟩ := getD_exponent?_edited edited
      have stops' := (stops_dropWhile isDigit tail).edited editedTail
      have again := mantissa?_point digits digits' (by simpa using nonempty) stops'
      rw [read] at again
      simpa using again
  · rename_i noPoint
    split at h
    · cases h
    · rename_i nonempty
      obtain ⟨⟨exponent, after⟩, found, same⟩ := Option.map_eq_some_iff.1 h
      cases same
      have editedTail := edited.append exponent
      rw [exponent?_append found] at editedTail
      have headless : (exponent ++ after').head? ≠ some '.' := by
        rw [editedTail.head?_eq]
        intro found
        obtain ⟨tail, shape⟩ := List.head?_eq_some_iff.1 found
        exact noPoint tail shape
      have again :=
        mantissa?_digits digits (by simpa using nonempty) (stops.edited editedTail) headless
      rw [exponent?_edited found edited] at again
      simpa using again

theorem float?_edited {cs read rest rest' : List Char} (h : float? cs = some (read, rest))
    (edited : Edited rest rest') : float? (read ++ rest') = some (read, rest') := by
  obtain ⟨⟨number, after⟩, found, same⟩ := Option.map_eq_some_iff.1 h
  cases same
  have editedText := edited.append (floatSuffix after).1
  rw [floatSuffix_append] at editedText
  simp only [float?, List.append_assoc, mantissa?_edited found editedText,
    Option.map_some, floatSuffix_edited edited]

/-- What starts with neither a digit nor a point is no floating literal. -/
theorem float?_eq_none_of_stops {cs : List Char} (stops : Stops isDigit cs)
    (noPoint : cs.head? ≠ some '.') : float? cs = none := by
  rw [float?, Option.map_eq_none_iff, mantissa?]
  simp only [stops.takeWhile_eq_nil, stops.dropWhile_eq_self]
  split
  · simp at noPoint
  · rfl

theorem hexadecimal?_eq_none_of_ne {c x : Char} {cs : List Char}
    (h : ¬ (c = '0' ∧ (x = 'x' ∨ x = 'X'))) : hexadecimal? (c :: x :: cs) = none := by
  unfold hexadecimal?
  split
  · simp_all
  · rfl

theorem int?_eq_none_of_stops {cs : List Char} (stops : Stops isDigit cs) :
    int? cs = none := by
  have notHex : hexadecimal? cs = none := by
    cases cs with
    | nil => rfl
    | cons c cs =>
      have notZero : c ≠ '0' := by
        rintro rfl
        exact absurd (stops '0' rfl) (by decide)
      cases cs with
      | nil =>
        unfold hexadecimal?
        split <;> simp_all
      | cons x cs => exact hexadecimal?_eq_none_of_ne fun isMark => notZero isMark.1
  rw [int?, Option.map_eq_none_iff, notHex, Option.none_or]
  exact run?_eq_none.2 stops

theorem hexadecimal?_edited {cs number rest rest' : List Char}
    (h : hexadecimal? cs = some (number, rest)) (edited : Edited rest rest') :
    hexadecimal? (number ++ rest') = some (number, rest') := by
  obtain ⟨x, tail, digits, rfl, rfl, isMark, found⟩ := hexadecimal?_eq_some h
  simp [hexadecimal?, isMark, run?_edited found edited]

theorem hexadecimal?_eq_none {digits rest rest' : List Char} (nonempty : digits ≠ [])
    (all : ∀ c ∈ digits, isDigit c) (h : hexadecimal? (digits ++ rest) = none)
    (edited : Edited rest rest') : hexadecimal? (digits ++ rest') = none := by
  match digits with
  | [] => exact absurd rfl nonempty
  | c :: d :: digits =>
    have isDigit := all d (by simp)
    refine hexadecimal?_eq_none_of_ne ?_
    rintro ⟨-, rfl | rfl⟩ <;> exact absurd isDigit (by decide)
  | [c] =>
    match rest with
    | [] =>
      rw [edited.nil_left]
      exact h
    | x :: rest =>
      by_cases isMark : c = '0' ∧ (x = 'x' ∨ x = 'X')
      · obtain ⟨rfl, isMark⟩ := isMark
        have kept : isEditable x = false := by
          rcases isMark with rfl | rfl <;> decide
        obtain ⟨tail, rfl, behind⟩ := edited.cons_left kept
        simp only [List.singleton_append, hexadecimal?, isMark, Bool.or_eq_true,
          decide_eq_true_eq, if_true, Option.map_eq_none_iff, run?_eq_none] at h ⊢
        exact h.edited behind
      · cases edited <;> exact hexadecimal?_eq_none_of_ne isMark

theorem int?_edited {cs read rest rest' : List Char} (h : int? cs = some (read, rest))
    (edited : Edited rest rest') : int? (read ++ rest') = some (read, rest') := by
  obtain ⟨⟨number, after⟩, found, same⟩ := Option.map_eq_some_iff.1 h
  cases same
  have editedText := edited.append (unsignedSuffix after).1
  rw [unsignedSuffix_append] at editedText
  have again : ((hexadecimal? (number ++ ((unsignedSuffix after).1 ++ rest'))).or
      (run? isDigit (number ++ ((unsignedSuffix after).1 ++ rest')))) =
      some (number, (unsignedSuffix after).1 ++ rest') := by
    rcases Option.or_eq_some_iff.1 found with found | ⟨notHex, found⟩
    · rw [hexadecimal?_edited found editedText]
      rfl
    · obtain ⟨rfl, nonempty, all, stops⟩ := run?_eq_some found
      rw [hexadecimal?_eq_none nonempty all notHex editedText, Option.none_or]
      exact run?_edited found editedText
  simp only [int?, List.append_assoc, again, Option.map_some,
    unsignedSuffix_edited edited]

/-- An integer literal starts with all the digits at the front of the text. -/
theorem exists_digits_of_int? {cs read rest : List Char}
    (h : int? cs = some (read, rest)) :
    cs.takeWhile isDigit ≠ [] ∧ ∃ more, read = cs.takeWhile isDigit ++ more := by
  obtain ⟨⟨number, after⟩, found, same⟩ := Option.map_eq_some_iff.1 h
  cases same
  rcases Option.or_eq_some_iff.1 found with found | ⟨-, found⟩
  · obtain ⟨x, tail, digits, rfl, rfl, isMark, -⟩ := hexadecimal?_eq_some found
    have notDigit : isDigit x = false := by rcases isMark with rfl | rfl <;> decide
    have zero : isDigit '0' = true := by decide
    simp [zero, notDigit]
  · obtain ⟨rfl, nonempty, all, stops⟩ := run?_eq_some found
    rw [stops.takeWhile_append all]
    exact ⟨nonempty, _, rfl⟩

/-- A literal of digits alone ends where the digits end. -/
theorem stops_of_int? {cs read rest : List Char} (h : int? cs = some (read, rest))
    (decimal : ∀ c ∈ read, isDigit c) : Stops isDigit rest := by
  obtain ⟨⟨number, after⟩, found, same⟩ := Option.map_eq_some_iff.1 h
  cases same
  have noSuffix : (unsignedSuffix after).1 = [] := by
    rcases Token.unsignedSuffix_cases after with none | marked | marked
    · exact none
    · exact absurd (decimal 'u' (by simp [marked])) (by decide)
    · exact absurd (decimal 'U' (by simp [marked])) (by decide)
  have same := unsignedSuffix_append after
  rw [noSuffix, List.nil_append] at same
  rw [same]
  rcases Option.or_eq_some_iff.1 found with found | ⟨-, found⟩
  · obtain ⟨x, tail, digits, -, rfl, isMark, -⟩ := hexadecimal?_eq_some found
    have digit := decimal x (by simp)
    rcases isMark with rfl | rfl <;> exact absurd digit (by decide)
  · exact (run?_eq_some found).2.2.2

/-- Digits are no floating literal where neither a point nor an exponent
follows. -/
theorem float?_eq_none_iff {digits rest : List Char} (all : ∀ c ∈ digits, isDigit c)
    (nonempty : digits ≠ []) (stops : Stops isDigit rest) :
    float? (digits ++ rest) = none ↔ rest.head? ≠ some '.' ∧ exponent? rest = none := by
  rw [float?, Option.map_eq_none_iff]
  by_cases point : rest.head? = some '.'
  · obtain ⟨tail, rfl⟩ := List.head?_eq_some_iff.1 point
    have digits' : ∀ c ∈ tail.takeWhile isDigit, isDigit c := fun c member =>
      List.all_eq_true.1 List.all_takeWhile c member
    have read := mantissa?_point all digits' (fun none => absurd none nonempty)
      (stops_dropWhile isDigit tail)
    rw [List.takeWhile_append_dropWhile] at read
    simp [read]
  · rw [mantissa?_digits all nonempty stops point]
    simp [point]

theorem float?_eq_none_of_int? {cs read rest rest' : List Char} (h : float? cs = none)
    (int : int? cs = some (read, rest)) (edited : Edited rest rest') :
    float? (read ++ rest') = none := by
  obtain ⟨nonempty, more, shape⟩ := exists_digits_of_int? int
  have all : ∀ c ∈ cs.takeWhile isDigit, isDigit c := fun c member =>
    List.all_eq_true.1 List.all_takeWhile c member
  have whole := List.takeWhile_append_dropWhile (p := isDigit) (l := cs)
  have tail : cs.dropWhile isDigit = more ++ rest := by
    have text := (int?_append int).1
    rw [← whole, shape, List.append_assoc] at text
    exact (List.append_cancel_left text).symm
  have stops := stops_dropWhile isDigit cs
  have editedTail := edited.append more
  rw [← tail] at editedTail
  rw [← whole, float?_eq_none_iff all nonempty stops] at h
  rw [shape, List.append_assoc, float?_eq_none_iff all nonempty (stops.edited editedTail),
    editedTail.head?_eq]
  exact ⟨h.1, exponent?_eq_none h.2 editedTail⟩

theorem float?_point {cs : List Char} : float? ('.' :: cs) = none ↔ Stops isDigit cs := by
  have point : isDigit '.' = false := by decide
  cases cs with
  | nil => simp [float?, mantissa?, point, Stops]
  | cons c cs =>
    by_cases digit : isDigit c <;> simp [float?, mantissa?, point, Stops, digit]

theorem word?_eq_none {cs : List Char} : word? cs = none ↔ Stops isWordStart cs := by
  cases cs with
  | nil => simp [word?, Stops]
  | cons c cs => by_cases isStart : isWordStart c <;> simp [word?, Stops, isStart]

theorem int?_eq_none {cs : List Char} : int? cs = none ↔ Stops isDigit cs := by
  refine ⟨fun h => ?_, int?_eq_none_of_stops⟩
  rw [int?, Option.map_eq_none_iff, Option.or_eq_none_iff] at h
  exact run?_eq_none.1 h.2

end Literal

namespace Token

/-- Whether a mark ends at the first character behind which a text may be
edited. -/
def isTight : List Char → Bool
  | [] => true
  | c :: mark =>
    ! Literal.isDigit c && (! isSeam c || mark.isEmpty) &&
      (c ≠ '*' || mark.head? ≠ some '/') &&
      isTight mark

/-- A tight mark is the front of an edited text if and only if it is the front
of the text. -/
theorem isPrefixOf_edited {mark cs cs' : List Char} (tight : isTight mark)
    (edited : Edited cs cs') :
    mark.isPrefixOf cs' = mark.isPrefixOf cs := by
  induction mark generalizing cs cs' with
  | nil => simp
  | cons c mark ih =>
    simp only [isTight, Bool.and_eq_true, Bool.or_eq_true, Bool.not_eq_true',
      List.isEmpty_iff, ne_eq, decide_eq_true_eq] at tight
    obtain ⟨⟨⟨notDigit, seamless⟩, noComment⟩, behind⟩ := tight
    cases edited with
    | nil => rfl
    | keep edited => simp [List.isPrefixOf, ih behind edited]
    | @widen d cs cs' isDigit edited =>
      have apart : (c == d) = false := by
        rw [beq_eq_false_iff_ne]
        rintro rfl
        rw [notDigit] at isDigit
        cases isDigit
      simp [List.isPrefixOf, apart]
    | @cut d removed cs cs' seam _ _ edited =>
      by_cases same : c = d
      · subst same
        obtain rfl : mark = [] := seamless.resolve_left (by simp [seam])
        simp
      · simp [List.isPrefixOf, beq_eq_false_iff_ne.2 same]
    | @cutComment removed cs cs' _ edited =>
      by_cases same : c = '*'
      · have noSlash := noComment.resolve_left fun apart => apart same
        cases mark with
        | nil => simp [List.isPrefixOf]
        | cons d mark =>
          have apart : (d == '/') = false := by simpa using noSlash
          simp [List.isPrefixOf, apart]
      · simp [List.isPrefixOf, beq_eq_false_iff_ne.2 same]

theorem mark?_edited {marks : List String} {cs cs' read rest : List Char}
    (tight : ∀ mark ∈ marks, isTight mark.toList) (edited : Edited cs cs')
    (h : mark? marks cs = some (read, rest)) :
    mark? marks cs' = some (read, cs'.drop read.length) := by
  induction marks with
  | nil => cases h
  | cons mark marks ih =>
    have same := isPrefixOf_edited (tight mark List.mem_cons_self) edited
    have behind := ih fun mark member => tight mark (List.mem_cons_of_mem _ member)
    unfold mark? at h behind ⊢
    rw [List.findSome?_cons, same]
    rw [List.findSome?_cons] at h
    by_cases fits : mark.toList.isPrefixOf cs
    · rw [if_pos fits] at h ⊢
      cases h
      rfl
    · rw [if_neg fits] at h ⊢
      exact behind h

theorem isTight_operators {mark : String} (h : mark ∈ Vocabulary.operators) :
    isTight mark.toList := by
  revert mark
  decide

/-- A text that starts with no digit and no floating literal. -/
theorem float?_eq_none_edited {cs cs' : List Char} (noFloat : Literal.float? cs = none)
    (noInt : Literal.int? cs = none) (edited : Edited cs cs') :
    Literal.float? cs' = none := by
  by_cases point : cs.head? = some '.'
  · obtain ⟨tail, rfl⟩ := List.head?_eq_some_iff.1 point
    obtain ⟨tail', rfl, behind⟩ := edited.cons_left (by decide)
    rw [Literal.float?_point] at noFloat ⊢
    exact noFloat.edited behind
  · exact Literal.float?_eq_none_of_stops ((Literal.int?_eq_none.1 noInt).edited edited)
      (edited.head?_eq ▸ point)

/-- A mark is read as before wherever the text is edited behind it. -/
theorem scan?_punct {cs read rest rest' : List Char} (noFloat : Literal.float? cs = none)
    (noInt : Literal.int? cs = none) (noWord : Literal.word? cs = none)
    (mark : mark? Vocabulary.operators cs = some (read, rest))
    (edited : Edited cs (read ++ rest')) :
    scan? (read ++ rest') = some (.punct, read, rest') := by
  have noInt' := Literal.int?_eq_none.2 ((Literal.int?_eq_none.1 noInt).edited edited)
  have noWord' := Literal.word?_eq_none.2 ((Literal.word?_eq_none.1 noWord).edited edited)
  have mark' := mark?_edited (fun _ => isTight_operators) edited mark
  rw [List.drop_left] at mark'
  simp [scan?, float?_eq_none_edited noFloat noInt edited, noInt', noWord', mark']

/-- A token in front of an edited text is read as before. -/
theorem scan?_edited {cs read rest rest' : List Char} {kind : TokenKind}
    (h : scan? cs = some (kind, read, rest)) (edited : Edited rest rest') :
    scan? (read ++ rest') = some (kind, read, rest') := by
  have editedText := edited.append read
  rw [(scan?_append h).1] at editedText
  rcases scan?_cases h with ⟨float, rfl⟩ | ⟨noFloat, int, rfl⟩ |
    ⟨noFloat, noInt, word, rfl⟩ |
    ⟨noFloat, noInt, noWord, mark, rfl⟩
  · simp [scan?, Literal.float?_edited float edited]
  · simp [scan?, Literal.float?_eq_none_of_int? noFloat int edited,
      Literal.int?_edited int edited]
  · have noInt' :=
      Literal.int?_eq_none.2 ((Literal.int?_eq_none.1 noInt).edited editedText)
    simp [scan?, float?_eq_none_edited noFloat noInt editedText, noInt',
      Literal.word?_edited word edited]
  · exact scan?_punct noFloat noInt noWord mark editedText

/-- Digits with `.0` behind them are a floating literal, if no floating suffix
follows. -/
theorem scan?_widen {cs read rest rest' : List Char}
    (h : scan? cs = some (.intLiteral, read, rest))
    (decimal : ∀ c ∈ read, Literal.isDigit c)
    (plain : (Literal.floatSuffix rest).1 = []) (edited : Edited rest rest') :
    scan? (read ++ '.' :: '0' :: rest') =
      some (.floatLiteral, read ++ ['.', '0'], rest') := by
  obtain ⟨whole, nonempty⟩ := scan?_append h
  rcases scan?_cases h with ⟨-, isFloat⟩ | ⟨noFloat, int, -⟩ | ⟨-, -, -, isWord⟩ |
    ⟨-, -, -, -, isMark⟩
  · cases isFloat
  · have stops := Literal.stops_of_int? int decimal
    rw [← whole, Literal.float?_eq_none_iff decimal nonempty stops] at noFloat
    have noExponent := Literal.exponent?_eq_none noFloat.2 edited
    have zero : ∀ c ∈ ['0'], Literal.isDigit c := List.forall_mem_singleton.2 rfl
    have read := Literal.mantissa?_point decimal zero (by simp) (stops.edited edited)
    have suffix := Literal.floatSuffix_append rest
    rw [plain, List.nil_append] at suffix
    have noSuffix := Literal.floatSuffix_edited (suffix.symm ▸ edited)
    rw [plain, List.nil_append] at noSuffix
    rw [noExponent] at read
    simp only [List.singleton_append, Option.getD_none, List.append_nil] at read
    simp [scan?, Literal.float?, read, noSuffix]
  · unfold wordKind at isWord
    split_ifs at isWord
  · cases isMark

end Token

end ShaderDialect
