import ShaderDialect.Catalog.Basic

/-!
# Lines of signatures

A line is read with the line feed that ends it. No reader of signatures looks at a
line feed or at what stands behind it, so a catalog is the same as if its text were
split at the line feeds.
-/

namespace ShaderDialect

/-! ### Line feeds -/

section LineFeed

variable (cs tail : List Char)

theorem takeWhile_append_cons {p : Char → Bool} {c : Char} (stop : p c = false) :
    (cs ++ c :: tail).takeWhile p = cs.takeWhile p := by
  induction cs with
  | nil => simp [stop]
  | cons d cs ih => simp [List.takeWhile_cons, ih]

theorem dropWhile_append_cons {p : Char → Bool} {c : Char} (stop : p c = false) :
    (cs ++ c :: tail).dropWhile p = cs.dropWhile p ++ c :: tail := by
  induction cs with
  | nil => simp [stop]
  | cons d cs ih =>
    simp only [List.cons_append, List.dropWhile_cons, ih]
    split <;> rfl

namespace WrittenSignature

theorem head?_append_lineFeed {c : Char} (other : c ≠ '\n') :
    (cs ++ '\n' :: tail).head? = some c ↔ cs.head? = some c := by
  cases cs with
  | nil => simp [other.symm]
  | cons d cs => rfl

theorem word?_append_lineFeed : Literal.word? (cs ++ '\n' :: tail) =
    (Literal.word? cs).map (Prod.map id (· ++ '\n' :: tail)) := by
  cases cs with
  | nil => rfl
  | cons c cs =>
    rw [List.cons_append, Literal.word?, Literal.word?, takeWhile_append_cons cs tail (by decide),
      dropWhile_append_cons cs tail (by decide)]
    split <;> rfl

theorem dropBlanks_append_lineFeed :
    (cs ++ '\n' :: tail).dropWhile isBlank = cs.dropWhile isBlank ++ '\n' :: tail :=
  dropWhile_append_cons cs tail (by decide)

theorem startsBlank_append_lineFeed :
    (cs ++ '\n' :: tail).head?.any isBlank = cs.head?.any isBlank := by
  cases cs with
  | nil => rfl
  | cons c cs => rfl

theorem words?_of_none {cs : List Char} (none : Literal.word? cs = .none) :
    words? cs = .none := by
  rw [words?]
  split
  · rfl
  · rename_i found
    cases none.symm.trans found

/-- The words that begin with a given one. -/
theorem words?_of_word {cs read rest : List Char}
    (found : Literal.word? cs = some (read, rest)) :
    words? cs = some (if rest.head?.any isBlank then
        ((words? (rest.dropWhile isBlank)).map (Prod.map (String.ofList read :: ·) id)).getD
          ([String.ofList read], rest)
      else ([String.ofList read], rest)) := by
  rw [words?]
  split
  · rename_i none
    cases none.symm.trans found
  · rename_i found'
    cases found.symm.trans found'
    dsimp only
    split
    · split <;> simp_all
    · rfl

theorem words?_append_lineFeed :
    words? (cs ++ '\n' :: tail) = (words? cs).map (Prod.map id (· ++ '\n' :: tail)) := by
  induction size : cs.length using Nat.strongRecOn generalizing cs with
  | ind size ih =>
    subst size
    have extended := word?_append_lineFeed cs tail
    cases found : Literal.word? cs with
    | none =>
      rw [found] at extended
      rw [words?_of_none found, words?_of_none extended]
      rfl
    | some word =>
      obtain ⟨read, rest⟩ := word
      rw [found] at extended
      have shorter :=
        Nat.lt_of_le_of_lt (List.dropWhile_suffix isBlank).length_le (word_length found)
      rw [words?_of_word found, words?_of_word extended, id, startsBlank_append_lineFeed,
        dropBlanks_append_lineFeed, ih _ shorter _ rfl]
      cases words? (rest.dropWhile isBlank) with
      | none => split <;> rfl
      | some words => split <;> rfl

theorem parameter?_append_lineFeed :
    parameter? (cs ++ '\n' :: tail) =
      (parameter? cs).map (Prod.map id (· ++ '\n' :: tail)) := by
  rw [parameter?, parameter?, dropBlanks_append_lineFeed, words?_append_lineFeed,
    Option.map_map, Option.map_map]
  congr 1
  funext words
  exact Prod.ext rfl (dropBlanks_append_lineFeed words.2 tail)

theorem parameters?_of_none {cs : List Char} (none : parameter? cs = .none) :
    parameters? cs = .none := by
  rw [parameters?]
  split <;> simp_all

theorem parameters?_of_comma {cs more : List Char} {type : String}
    (found : parameter? cs = some (type, ',' :: more)) :
    parameters? cs = (parameters? more).map (Prod.map (type :: ·) id) := by
  rw [parameters?]
  split
  · simp_all
  · rename_i found'
    cases found.symm.trans found'
    rfl
  · simp_all

theorem parameters?_of_last {cs rest : List Char} {type : String}
    (found : parameter? cs = some (type, rest)) (last : rest.head? ≠ some ',') :
    parameters? cs = some ([type], rest) := by
  rw [parameters?]
  split
  · simp_all
  · rename_i found'
    cases found.symm.trans found'
    exact absurd rfl last
  · simp_all

theorem parameters?_append_lineFeed :
    parameters? (cs ++ '\n' :: tail) =
      (parameters? cs).map (Prod.map id (· ++ '\n' :: tail)) := by
  induction size : cs.length using Nat.strongRecOn generalizing cs with
  | ind size ih =>
    subst size
    have extended := parameter?_append_lineFeed cs tail
    cases found : parameter? cs with
    | none =>
      rw [found] at extended
      rw [parameters?_of_none found, parameters?_of_none extended]
      rfl
    | some param =>
      obtain ⟨type, rest⟩ := param
      rw [found] at extended
      by_cases comma : rest.head? = some ','
      · obtain ⟨more, rfl⟩ := List.head?_eq_some_iff.1 comma
        have shorter := Nat.lt_trans (Nat.lt_succ_self _) (length_parameter?_lt found)
        rw [parameters?_of_comma found, parameters?_of_comma extended]
        refine (congrArg _ (ih _ shorter more rfl)).trans ?_
        rw [Option.map_map, Option.map_map]
        rfl
      · have last := mt (head?_append_lineFeed rest tail (by decide)).1 comma
        rw [parameters?_of_last found comma, parameters?_of_last extended last]
        rfl

theorem parenthesized?_eq_none {cs : List Char} (other : cs.head? ≠ some '(') :
    parenthesized? cs = none := by
  unfold parenthesized?
  split <;> simp_all

theorem parenthesized?_of_parameters {cs : List Char} (params : cs.head? ≠ some ')') :
    parenthesized? ('(' :: cs) = (parameters? cs).bind fun found =>
      if found.2.head? = some ')' then some (if found.1 = ["void"] then [] else found.1)
      else none := by
  rw [parenthesized?.eq_2 _ (by rintro _ rfl; exact params rfl)]
  split
  · simp_all
  · rename_i other
    cases read : parameters? cs with
    | none => rfl
    | some found =>
      refine (if_neg fun close => ?_).symm
      obtain ⟨more, close⟩ := List.head?_eq_some_iff.1 close
      exact other found.1 more (read.trans (congrArg some (Prod.ext rfl close)))

theorem parenthesized?_append_lineFeed :
    parenthesized? (cs ++ '\n' :: tail) = parenthesized? cs := by
  by_cases opens : cs.head? = some '('
  · obtain ⟨cs, rfl⟩ := List.head?_eq_some_iff.1 opens
    by_cases closes : cs.head? = some ')'
    · obtain ⟨cs, rfl⟩ := List.head?_eq_some_iff.1 closes
      rfl
    · have closes' := mt (head?_append_lineFeed cs tail (by decide)).1 closes
      rw [List.cons_append, parenthesized?_of_parameters closes,
        parenthesized?_of_parameters closes', parameters?_append_lineFeed]
      cases parameters? cs with
      | none => rfl
      | some found =>
        simp only [Option.map_some, Option.bind_some, Prod.map, id,
          head?_append_lineFeed found.2 tail (by decide : ')' ≠ '\n')]
  · have opens' := mt (head?_append_lineFeed cs tail (by decide)).1 opens
    rw [parenthesized?_eq_none opens, parenthesized?_eq_none opens']

/-- What stands behind a line feed is not looked at, nor is the line feed. -/
theorem ofLine?_append_lineFeed : ofLine? (cs ++ '\n' :: tail) = ofLine? cs := by
  simp only [ofLine?, dropBlanks_append_lineFeed, word?_append_lineFeed]
  cases Literal.word? (cs.dropWhile isBlank) with
  | none => rfl
  | some result =>
    simp only [Option.map_some, Option.bind_eq_bind, Option.bind_some, Prod.map, id,
      startsBlank_append_lineFeed, dropBlanks_append_lineFeed, word?_append_lineFeed]
    cases Literal.word? (result.2.dropWhile isBlank) with
    | none => rfl
    | some name =>
      simp only [Option.map_some, Option.bind_some, Prod.map, id,
        dropBlanks_append_lineFeed, parenthesized?_append_lineFeed]


end WrittenSignature

end LineFeed

/-! ### Lines -/

theorem lines_of_not_mem {cs : List Char} (single : '\n' ∉ cs) (nonempty : cs ≠ []) :
    lines cs = [cs] := by
  induction cs with
  | nil => exact absurd rfl nonempty
  | cons c cs ih =>
    rw [List.mem_cons, not_or] at single
    rw [lines, if_neg (Ne.symm single.1)]
    cases cs with
    | nil => rfl
    | cons d cs => rw [ih single.2 (List.cons_ne_nil d cs)]

theorem lines_append_lineFeed {line : List Char} (single : '\n' ∉ line)
    (rest : List Char) :
    lines (line ++ '\n' :: rest) = (line ++ ['\n']) :: lines rest := by
  induction line with
  | nil => rfl
  | cons c line ih =>
    rw [List.mem_cons, not_or] at single
    rw [List.cons_append, lines, if_neg (Ne.symm single.1), ih single.2]
    rfl

/-- For a catalog, lines are what stands between line feeds. -/
theorem Catalog.readLines_lines (number : Nat) (cs : List Char) :
    readLines number (lines cs) = readLines number (cs.splitOn '\n') := by
  induction size : cs.length using Nat.strongRecOn generalizing number cs with
  | ind size ih =>
    subst size
    by_cases several : '\n' ∈ cs
    · obtain ⟨line, rest, rfl, single⟩ := List.eq_append_cons_of_mem several
      have shorter : rest.length < (line ++ '\n' :: rest).length := by
        simp
        omega
      rw [lines_append_lineFeed single, List.splitOn_append_cons_self_of_not_mem single,
        readLines, readLines, WrittenSignature.ofLine?_append_lineFeed line [],
        ih _ shorter _ rest rfl]
    · rw [List.splitOn_eq_singleton several]
      cases cs with
      | nil => rfl
      | cons c cs => rw [lines_of_not_mem several (List.cons_ne_nil c cs)]

end ShaderDialect
