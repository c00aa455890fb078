import ShaderDialect.Proofs.EditedText

/-!
# Hidden text around edits

Hidden text in front of an edited text is read as before, and editing makes no
hidden text of what was none.
-/

namespace ShaderDialect

namespace Hidden

theorem blanks?_edited {cs piece rest rest' : List Char}
    (h : blanks? cs = some (piece, rest))
    (edited : Edited rest rest') : blanks? (piece ++ rest') = some (piece, rest') :=
  Literal.run?_edited (p := isBlank) h edited

theorem blanks?_eq_none {cs cs' : List Char} (h : blanks? cs = none)
    (edited : Edited cs cs') :
    blanks? cs' = none :=
  Literal.run?_eq_none.2 ((Literal.run?_eq_none (p := isBlank).1 h).edited edited)

/-- Whether what is behind a line comment ends the line: a carriage return
alone does not. -/
def endsLine : List Char → Bool
  | '\r' :: '\n' :: _ => true
  | '\r' :: _ => false
  | _ => true

theorem endsLine_cons {c : Char} (h : c ≠ '\r') (cs : List Char) :
    endsLine (c :: cs) = true := by
  unfold endsLine
  split <;> simp_all

theorem endsLine_return (cs : List Char) :
    endsLine ('\r' :: cs) = (cs.head? == some '\n') := by
  cases cs with
  | nil => rfl
  | cons c cs =>
    by_cases isFeed : c = '\n'
    · subst isFeed
      rfl
    · simp [endsLine, isFeed]

theorem endsLine_edited {cs cs' : List Char} (edited : Edited cs cs') :
    endsLine cs' = endsLine cs := by
  cases cs with
  | nil => rw [edited.nil_left]
  | cons c cs =>
    by_cases isReturn : c = '\r'
    · subst isReturn
      cases edited with
      | keep behind => rw [endsLine_return, endsLine_return, behind.head?_eq]
      | widen isDigit _ => exact absurd isDigit (by decide)
      | @cut _ removed cs cs' _ inLine apart behind =>
        have apart' : (removed ++ cs).head? ≠ some '\n' := by
          cases removed with
          | nil =>
            rw [List.nil_append, ← behind.head?_eq]
            exact apart rfl
          | cons d removed =>
            rintro ⟨⟩
            exact absurd (inLine '\n' List.mem_cons_self) (by decide)
        rw [endsLine_return, endsLine_return, beq_eq_false_iff_ne.2 (apart rfl),
          beq_eq_false_iff_ne.2 apart']
    · cases edited <;> rw [endsLine_cons isReturn, endsLine_cons isReturn]

theorem lineComment?_slashes (cs : List Char) :
    lineComment? ('/' :: '/' :: cs) =
      if endsLine (cs.dropWhile (! isLineEnd ·)) then
        some ('/' :: '/' :: cs.takeWhile (! isLineEnd ·), cs.dropWhile (! isLineEnd ·))
      else none := by
  rw [lineComment?]
  split <;> rename_i shape <;> simp_all [endsLine]

theorem lineComment?_eq_some {cs piece rest : List Char}
    (h : lineComment? cs = some (piece, rest)) :
    ∃ body, piece = '/' :: '/' :: body ∧ (∀ c ∈ body, ! isLineEnd c) ∧
      Stops (! isLineEnd ·) rest ∧ endsLine rest := by
  have shape : ∃ text, cs = '/' :: '/' :: text := by
    unfold lineComment? at h
    split at h
    · exact ⟨_, rfl⟩
    · cases h
  obtain ⟨text, rfl⟩ := shape
  rw [lineComment?_slashes] at h
  split at h
  · rename_i ends
    cases h
    exact ⟨_, rfl, fun c member => List.all_eq_true.1 List.all_takeWhile c member,
      stops_dropWhile _ text, ends⟩
  · cases h

theorem lineComment?_edited {cs piece rest rest' : List Char}
    (h : lineComment? cs = some (piece, rest)) (edited : Edited rest rest') :
    lineComment? (piece ++ rest') = some (piece, rest') := by
  obtain ⟨body, rfl, all, stops, ends⟩ := lineComment?_eq_some h
  have stops' := stops.edited edited
  rw [← endsLine_edited edited] at ends
  simp only [List.cons_append]
  rw [lineComment?_slashes, stops'.takeWhile_append all, stops'.dropWhile_append all,
    if_pos ends]

theorem digit_not_lineEnd (c : Char) (digit : Literal.isDigit c) : ! isLineEnd c := by
  cases isEnd : isLineEnd c with
  | false => rfl
  | true =>
    rcases Bool.or_eq_true_iff.1 isEnd with same | same <;>
      rw [of_decide_eq_true same] at digit <;>
      exact absurd digit (by decide)

theorem lineComment?_eq_none {cs cs' : List Char} (h : lineComment? cs = none)
    (edited : Edited cs cs') : lineComment? cs' = none := by
  cases found : lineComment? cs' with
  | none => rfl
  | some pair =>
    obtain ⟨body, shape, -, -, -⟩ := lineComment?_eq_some found
    obtain ⟨rfl, -⟩ := lineComment?_append found
    rw [shape] at edited
    obtain ⟨tail, rfl, behind⟩ := edited.cons_right (by decide)
    obtain ⟨text, rfl, inside⟩ := behind.cons_right (by decide)
    have same := endsLine_edited
      (inside.dropWhile (p := (! isLineEnd ·)) digit_not_lineEnd (by decide) fun _ inLine => inLine)
    rw [shape, List.cons_append, List.cons_append, lineComment?_slashes] at found
    rw [lineComment?_slashes] at h
    simp_all

theorem blockEnd?_cons {c : Char} {cs : List Char}
    (apart : ¬ (c = '*' ∧ cs.head? = some '/')) :
    blockEnd? (c :: cs) = (blockEnd? cs).map fun (body, rest) => (c :: body, rest) := by
  rw [blockEnd?]
  rintro tail rfl rfl
  exact apart ⟨rfl, rfl⟩

theorem blockEnd?_cons_eq_none {c : Char} {cs : List Char} :
    blockEnd? (c :: cs) = none ↔ ¬ (c = '*' ∧ cs.head? = some '/') ∧
    blockEnd? cs = none := by
  by_cases closes : c = '*' ∧ cs.head? = some '/'
  · obtain ⟨rfl, slash⟩ := closes
    obtain ⟨tail, rfl⟩ := List.head?_eq_some_iff.1 slash
    simp [blockEnd?]
  · simp [blockEnd?_cons closes, closes]

/-- A block comment ends in its own mark, whatever is behind it. -/
theorem blockEnd?_append_right {cs body rest : List Char}
    (h : blockEnd? cs = some (body, rest))
    (rest' : List Char) : body ≠ [] ∧ blockEnd? (body ++ rest') = some (body, rest') := by
  fun_induction blockEnd? cs generalizing body rest with
  | case1 cs =>
    cases h
    exact ⟨List.cons_ne_nil _ _, rfl⟩
  | case2 c cs apart ih =>
    obtain ⟨⟨tail, after⟩, found, same⟩ := Option.map_eq_some_iff.1 h
    cases same
    obtain ⟨nonempty, again⟩ := ih found
    have text := blockEnd?_append found
    have open_ : ¬ (c = '*' ∧ (tail ++ rest').head? = some '/') := by
      rintro ⟨rfl, slash⟩
      cases tail with
      | nil => exact nonempty rfl
      | cons d tail =>
        cases slash
        exact apart _ rfl text.symm
    refine ⟨List.cons_ne_nil _ _, ?_⟩
    rw [List.cons_append, blockEnd?_cons open_, again]
    rfl
  | case3 => cases h

theorem blockEnd?_eq_none_of_append {before cs : List Char}
    (h : blockEnd? (before ++ cs) = none) :
    blockEnd? cs = none := by
  induction before with
  | nil => exact h
  | cons c before ih => exact ih (blockEnd?_cons_eq_none.1 h).2

theorem blockEnd?_eq_none {cs cs' : List Char} (h : blockEnd? cs = none)
    (edited : Edited cs cs') :
    blockEnd? cs' = none := by
  induction edited with
  | nil => exact h
  | keep edited ih =>
    rw [blockEnd?_cons_eq_none] at h ⊢
    rw [edited.head?_eq]
    exact ⟨h.1, ih h.2⟩
  | @widen c cs cs' isDigit edited ih =>
    rw [blockEnd?_cons_eq_none] at h
    simp only [blockEnd?_cons_eq_none]
    refine ⟨?_, by simp, by simp, ih h.2⟩
    rintro ⟨-, slash⟩
    cases slash
  | @cut c removed cs cs' seam _ _ edited ih =>
    rw [blockEnd?_cons_eq_none] at h ⊢
    refine ⟨?_, ih (blockEnd?_eq_none_of_append h.2)⟩
    rintro ⟨rfl, -⟩
    exact absurd seam (by decide)
  | cutComment _ _ _ => cases h

theorem blockComment?_edited {cs piece rest : List Char}
    (h : blockComment? cs = some (piece, rest))
    (rest' : List Char) : blockComment? (piece ++ rest') = some (piece, rest') := by
  unfold blockComment? at h
  split at h
  · obtain ⟨⟨body, rest⟩, found, same⟩ := Option.map_eq_some_iff.1 h
    cases same
    simp [blockComment?, (blockEnd?_append_right found rest').2]
  · cases h

theorem blockComment?_eq_none {cs cs' : List Char} (h : blockComment? cs = none)
    (edited : Edited cs cs') : blockComment? cs' = none := by
  unfold blockComment?
  split
  · rename_i text'
    obtain ⟨tail, rfl, behind⟩ := edited.cons_right (by decide)
    have noEnd : blockEnd? text' = none := by
      cases behind with
      | keep inside =>
        rw [blockComment?, Option.map_eq_none_iff] at h
        exact blockEnd?_eq_none h inside
      | widen isDigit _ => exact absurd isDigit (by decide)
      | cut seam _ _ _ => exact absurd seam (by decide)
      | cutComment _ inside =>
        rw [blockComment?, Option.map_eq_none_iff, blockEnd?_cons_eq_none] at h
        rw [blockEnd?_cons_eq_none]
        exact ⟨by simp, blockEnd?_eq_none (blockEnd?_eq_none_of_append h.2) inside⟩
    rw [noEnd]
    rfl
  · rfl

theorem directiveBody_lineEnd {c : Char} (isEnd : isLineEnd c) (cs : List Char) :
    directiveBody (c :: cs) = ([], c :: cs) := by
  have notSlash : c ≠ '\\' := by
    rintro rfl
    exact absurd isEnd (by decide)
  rw [directiveBody, if_pos isEnd]
  · exact fun _ same => absurd same notSlash
  · exact fun _ same => absurd same notSlash

/-- A directive ends where it did before any text that starts with the same
character, as long as no line end of two characters comes in. -/
theorem directiveBody_append_right {cs rest' : List Char}
    (head : rest'.head? = (directiveBody cs).2.head?)
    (lineEnd : ∀ tail', rest' = '\r' :: '\n' :: tail' →
      ∃ tail, (directiveBody cs).2 = '\r' :: '\n' :: tail) :
    directiveBody ((directiveBody cs).1 ++ rest') = ((directiveBody cs).1, rest') := by
  fun_induction directiveBody cs with
  | case1 cs body rest found ih =>
    rw [found] at ih
    rw [List.cons_append, List.cons_append, List.cons_append, directiveBody,
      ih head lineEnd]
  | case2 cs body rest found ih =>
    rw [found] at ih
    rw [List.cons_append, List.cons_append, directiveBody, ih head lineEnd]
  | case3 c cs _ _ isEnd =>
    obtain ⟨tail, rfl⟩ := List.head?_eq_some_iff.1 head
    exact directiveBody_lineEnd isEnd tail
  | case4 c cs notReturn notFeed notEnd body rest found ih =>
    rw [found] at ih
    have text := directiveBody_append cs
    rw [found] at text
    rw [List.cons_append, directiveBody, if_neg notEnd, ih head lineEnd]
    · intro tail' isSlash shape
      obtain ⟨tail, rfl⟩ : ∃ tail, cs = '\r' :: '\n' :: tail := by
        rw [← text]
        match body, shape with
        | [], shape => exact lineEnd tail' shape
        | [d], shape =>
          obtain ⟨rfl, rfl⟩ := List.cons.inj shape
          obtain ⟨tail, rest_eq⟩ := List.head?_eq_some_iff.1 head.symm
          exact ⟨tail, by simpa using rest_eq⟩
        | d :: e :: body, shape =>
          simp only [List.cons_append, List.cons.injEq] at shape
          obtain ⟨rfl, rfl, -⟩ := shape
          exact ⟨body ++ rest, rfl⟩
      exact notReturn tail isSlash rfl
    · intro tail' isSlash shape
      have first : (body ++ rest').head? = (body ++ rest).head? := by
        rw [List.head?_append, head, ← List.head?_append]
      rw [shape, text] at first
      obtain ⟨tail, rfl⟩ := List.head?_eq_some_iff.1 first.symm
      exact notFeed tail isSlash rfl
  | case5 =>
    obtain rfl := List.head?_eq_none_iff.1 head
    rfl

theorem directiveBody_edited {cs rest' : List Char}
    (edited : Edited (directiveBody cs).2 rest') :
    directiveBody ((directiveBody cs).1 ++ rest') = ((directiveBody cs).1, rest') := by
  refine directiveBody_append_right edited.head?_eq fun tail' shape => ?_
  rw [shape] at edited
  exact edited.lineEnd_right

theorem directive?_edited {cs piece rest rest' : List Char}
    (h : directive? cs = some (piece, rest))
    (edited : Edited rest rest') : directive? (piece ++ rest') = some (piece, rest') := by
  unfold directive? at h
  split at h
  · cases h
    simp [directive?, directiveBody_edited edited]
  · cases h

theorem directive?_eq_none {cs cs' : List Char} (h : directive? cs = none)
    (edited : Edited cs cs') :
    directive? cs' = none := by
  unfold directive?
  split
  · obtain ⟨tail, rfl, -⟩ := edited.cons_right (by decide)
    cases h
  · rfl

/-- A piece of hidden text in front of an edited text is read as before. -/
theorem piece?_edited {cs piece rest rest' : List Char}
    (h : piece? cs = some (piece, rest))
    (edited : Edited rest rest') : piece? (piece ++ rest') = some (piece, rest') := by
  have editedText := edited.append piece
  rw [(piece?_append h).1] at editedText
  simp only [piece?, Option.or_eq_some_iff, Option.or_eq_none_iff] at h ⊢
  rcases h with ((found | ⟨noBlank, found⟩) | ⟨⟨noBlank, noLine⟩, found⟩) |
    ⟨⟨⟨noBlank, noLine⟩, noBlock⟩, found⟩
  · exact Or.inl (Or.inl (Or.inl (blanks?_edited found edited)))
  · exact Or.inl (Or.inl (Or.inr
      ⟨blanks?_eq_none noBlank editedText, lineComment?_edited found edited⟩))
  · exact Or.inl (Or.inr ⟨⟨blanks?_eq_none noBlank editedText,
      lineComment?_eq_none noLine editedText⟩, blockComment?_edited found rest'⟩)
  · exact Or.inr ⟨⟨⟨blanks?_eq_none noBlank editedText, lineComment?_eq_none noLine editedText⟩,
      blockComment?_eq_none noBlock editedText⟩, directive?_edited found edited⟩

/-- No hidden text appears by editing. -/
theorem piece?_eq_none {cs cs' : List Char} (h : piece? cs = none)
    (edited : Edited cs cs') :
    piece? cs' = none := by
  simp only [piece?, Option.or_eq_none_iff] at h ⊢
  obtain ⟨⟨⟨noBlank, noLine⟩, noBlock⟩, noDirective⟩ := h
  exact ⟨⟨⟨blanks?_eq_none noBlank edited, lineComment?_eq_none noLine edited⟩,
    blockComment?_eq_none noBlock edited⟩, directive?_eq_none noDirective edited⟩

theorem skip_of_none {cs : List Char} (h : piece? cs = none) : skip cs = ([], cs) := by
  rw [skip]
  split
  · rfl
  · rename_i found
    rw [h] at found
    cases found

theorem skip_of_some {cs piece rest : List Char} (h : piece? cs = some (piece, rest)) :
    skip cs = (piece ++ (skip rest).1, (skip rest).2) := by
  rw [skip]
  split
  · rename_i found
    rw [h] at found
    cases found
  · rename_i found
    rw [h] at found
    cases found
    rfl

/-- Hidden text in front of an edited text is skipped as before. -/
theorem skip_edited {cs rest' : List Char} (edited : Edited (skip cs).2 rest') :
    skip ((skip cs).1 ++ rest') = ((skip cs).1, rest') := by
  fun_induction skip cs with
  | case1 cs none => exact skip_of_none (piece?_eq_none none edited)
  | case2 cs piece rest found _ gap after skipped ih =>
    rw [skipped] at ih
    have text := skip_append rest
    rw [skipped] at text
    have editedText := Edited.append edited gap
    rw [text] at editedText
    rw [List.append_assoc, skip_of_some (piece?_edited found editedText), ih edited]

/-! ### Gaps

A gap is the hidden text in front of a token. It stays hidden text when the
token is cut out, whatever follows then.
-/

theorem piece?_blank {c : Char} (blank : isBlank c) (cs : List Char) :
    piece? (c :: cs) = some (c :: cs.takeWhile isBlank, cs.dropWhile isBlank) := by
  simp [piece?, blanks?, blank]

theorem skip_blank {c : Char} (blank : isBlank c) (cs : List Char) :
    skip (c :: cs) = (c :: (skip cs).1, (skip cs).2) := by
  rw [skip_of_some (piece?_blank blank cs)]
  by_cases stops : Stops isBlank cs
  · rw [stops.takeWhile_eq_nil, stops.dropWhile_eq_self]
    rfl
  · cases cs with
    | nil => exact absurd nofun stops
    | cons d cs =>
      have blank' : isBlank d := by simpa [Stops] using stops
      rw [skip_of_some (piece?_blank blank' cs)]
      simp [blank']

theorem skip_blanks {piece : List Char} (blank : ∀ c ∈ piece, isBlank c)
    (cs : List Char) :
    skip (piece ++ cs) = (piece ++ (skip cs).1, (skip cs).2) := by
  induction piece with
  | nil => rfl
  | cons c piece ih =>
    rw [List.cons_append, skip_blank (blank c List.mem_cons_self),
      ih fun c member => blank c (List.mem_cons_of_mem _ member)]
    rfl

theorem isBlank_of_isLineEnd {c : Char} (isEnd : isLineEnd c) : isBlank c := by
  rcases Bool.or_eq_true_iff.1 isEnd with same | same <;>
    rw [of_decide_eq_true same] <;> decide

theorem exists_lineEnd {cs : List Char} (visible : (skip cs).2 ≠ [])
    (stops : Stops (! isLineEnd ·) cs) :
    ∃ c tail, isLineEnd c ∧ cs = c :: tail ∧
      skip cs = (c :: (skip tail).1, (skip tail).2) := by
  cases cs with
  | nil => exact absurd (List.append_eq_nil_iff.1 (skip_append [])).2 visible
  | cons c tail =>
    have isEnd : isLineEnd c := by simpa using stops c rfl
    exact ⟨c, tail, isEnd, rfl, skip_blank (isBlank_of_isLineEnd isEnd) tail⟩

/-- A gap starts with the character that its text starts with. -/
theorem head?_of_head?_skip {c : Char} {cs : List Char} (h : (skip cs).1.head? = some c) :
    cs.head? = some c := by
  rw [← skip_append cs, List.head?_append, h]
  rfl

/-- A line comment in front of a token ends at a line end that is hidden. -/
theorem lineComment?_append_right {cs piece rest : List Char}
    (h : lineComment? cs = some (piece, rest)) (visible : (skip rest).2 ≠ [])
    (after : List Char) :
    (skip rest).1 ≠ [] ∧
      lineComment? (piece ++ ((skip rest).1 ++ after)) =
        some (piece, (skip rest).1 ++ after) := by
  obtain ⟨body, rfl, inLine, stops, ends⟩ := lineComment?_eq_some h
  obtain ⟨c, tail, isEnd, rfl, skipped⟩ := exists_lineEnd visible stops
  rw [skipped]
  refine ⟨List.cons_ne_nil _ _, ?_⟩
  have stops' : Stops (! isLineEnd ·) (c :: ((skip tail).1 ++ after)) := by
    rintro _ ⟨⟩
    simpa using isEnd
  have ends' : endsLine (c :: ((skip tail).1 ++ after)) := by
    by_cases isReturn : c = '\r'
    · subst isReturn
      rw [endsLine_return, beq_iff_eq] at ends ⊢
      obtain ⟨text, rfl⟩ := List.head?_eq_some_iff.1 ends
      rw [skip_blank (by decide)]
      rfl
    · exact endsLine_cons isReturn _
  simp only [List.cons_append]
  rw [lineComment?_slashes, stops'.takeWhile_append inLine, stops'.dropWhile_append inLine,
    if_pos ends']

theorem stops_directiveBody (cs : List Char) :
    Stops (! isLineEnd ·) (directiveBody cs).2 := by
  fun_induction directiveBody cs with
  | case1 cs body rest found ih => simpa [found] using ih
  | case2 cs body rest found ih => simpa [found] using ih
  | case3 c cs _ _ isEnd =>
    rintro _ ⟨⟩
    simpa using isEnd
  | case4 c cs _ _ _ body rest found ih => simpa [found] using ih
  | case5 =>
    intro c found
    cases found

/-- A directive in front of a token ends at a line end that is hidden. It goes
on behind it if the token was all that kept a carriage return and a line feed
apart. -/
theorem directive?_append_right {cs piece rest after : List Char}
    (h : directive? cs = some (piece, rest)) (visible : (skip rest).2 ≠ [])
    (apart : (skip rest).1.getLast? = some '\r' → after.head? ≠ some '\n') :
    (skip rest).1 ≠ [] ∧
      directive? (piece ++ ((skip rest).1 ++ after)) =
        some (piece, (skip rest).1 ++ after) := by
  unfold directive? at h
  split at h
  · rename_i text
    cases h
    obtain ⟨c, tail, isEnd, shape, skipped⟩ :=
      exists_lineEnd visible (stops_directiveBody text)
    rw [skipped] at apart ⊢
    refine ⟨List.cons_ne_nil _ _, ?_⟩
    have read := @directiveBody_append_right text (c :: ((skip tail).1 ++ after))
      (by rw [shape]; rfl) fun tail' lineEnd => by
        obtain ⟨rfl, feed⟩ := List.cons.inj lineEnd
        rw [shape]
        cases gap : (skip tail).1 with
        | nil =>
          rw [gap] at apart feed
          exact absurd (congrArg List.head? feed) (apart rfl)
        | cons d gap' =>
          rw [gap] at feed
          have first : (skip tail).1.head? = some '\n' := by
            rw [gap]
            exact congrArg some (List.cons.inj feed).1
          obtain ⟨text, rfl⟩ := List.head?_eq_some_iff.1 (head?_of_head?_skip first)
          exact ⟨text, rfl⟩
    simp [directive?, read]
  · cases h

/-- The first closing mark ends a block comment. -/
theorem exists_first_blockEnd {cs body rest : List Char}
    (h : blockEnd? cs = some (body, rest)) :
    ∃ before, body = before ++ ['*', '/'] ∧ ¬ ['*', '/'] <:+: before ++ ['*'] := by
  fun_induction blockEnd? cs generalizing body rest with
  | case1 cs =>
    cases h
    exact ⟨[], rfl, by decide⟩
  | case2 c cs apart ih =>
    obtain ⟨⟨tail, after⟩, found, same⟩ := Option.map_eq_some_iff.1 h
    cases same
    obtain ⟨before, rfl, inside⟩ := ih found
    refine ⟨c :: before, rfl, fun closed => ?_⟩
    rcases List.infix_cons_iff.1 closed with ⟨more, shape⟩ | later
    · obtain ⟨rfl, behind⟩ := List.cons.inj shape
      have whole := blockEnd?_append found
      cases before with
      | nil => cases behind
      | cons d before =>
        obtain ⟨rfl, -⟩ := List.cons.inj behind
        exact apart _ rfl whole.symm
    · exact inside later
  | case3 => cases h

theorem exists_blockComment {cs piece rest : List Char}
    (h : blockComment? cs = some (piece, rest)) :
    ∃ before, piece = '/' :: '*' :: (before ++ ['*', '/']) := by
  unfold blockComment? at h
  split at h
  · obtain ⟨⟨body, rest⟩, found, same⟩ := Option.map_eq_some_iff.1 h
    cases same
    obtain ⟨before, rfl, -⟩ := exists_first_blockEnd found
    exact ⟨before, rfl⟩
  · cases h

/-- A piece of a gap is a run of blanks, or it is read as before whatever comes
behind the gap. Then it is a block comment, or the gap goes on. -/
theorem piece?_append_right {cs piece rest after : List Char}
    (h : piece? cs = some (piece, rest)) (visible : (skip rest).2 ≠ [])
    (apart : (skip rest).1.getLast? = some '\r' → after.head? ≠ some '\n') :
    (∀ c ∈ piece, isBlank c) ∨
      ((∃ before, piece = before ++ ['*', '/']) ∨ (skip rest).1 ≠ []) ∧
        piece? (piece ++ ((skip rest).1 ++ after)) =
          some (piece, (skip rest).1 ++ after) := by
  simp only [piece?, Option.or_eq_some_iff, Option.or_eq_none_iff] at h ⊢
  rcases h with ((found | ⟨-, found⟩) | ⟨-, found⟩) | ⟨-, found⟩
  · exact Or.inl (Literal.run?_eq_some (p := isBlank) found).2.2.1
  · obtain ⟨goesOn, again⟩ := lineComment?_append_right found visible after
    obtain ⟨body, rfl, -⟩ := lineComment?_eq_some found
    exact Or.inr ⟨Or.inr goesOn, Or.inl (Or.inl (Or.inr ⟨rfl, again⟩))⟩
  · have again := blockComment?_edited found ((skip rest).1 ++ after)
    obtain ⟨before, rfl⟩ := exists_blockComment found
    exact Or.inr ⟨Or.inl ⟨'/' :: '*' :: before, rfl⟩, Or.inl (Or.inr ⟨⟨rfl, rfl⟩, again⟩)⟩
  · obtain ⟨goesOn, again⟩ := directive?_append_right found visible apart
    have hash : ∃ body, piece = '#' :: body := by
      unfold directive? at found
      split at found
      · cases found
        exact ⟨_, rfl⟩
      · cases found
    obtain ⟨body, rfl⟩ := hash
    exact Or.inr ⟨Or.inr goesOn, Or.inr ⟨⟨⟨rfl, rfl⟩, rfl⟩, again⟩⟩

/-- A gap is hidden text before whatever comes behind it, if it makes no line
end with it. -/
theorem skip_append_right {cs after : List Char} (visible : (skip cs).2 ≠ [])
    (apart : (skip cs).1.getLast? = some '\r' → after.head? ≠ some '\n') :
    skip ((skip cs).1 ++ after) = ((skip cs).1 ++ (skip after).1, (skip after).2) := by
  fun_induction skip cs with
  | case1 cs none => rfl
  | case2 cs piece rest found _ gap behind skipped ih =>
    rw [skipped] at ih
    have apart' : gap.getLast? = some '\r' → after.head? ≠ some '\n' := fun last =>
      apart (by rw [List.getLast?_append, last]; rfl)
    rw [List.append_assoc]
    rcases @piece?_append_right cs piece rest after found (by rwa [skipped]) (by rwa [skipped]) with
      blanks | ⟨-, again⟩
    · rw [skip_blanks blanks, ih visible apart', List.append_assoc]
    · rw [skipped] at again
      rw [skip_of_some again, ih visible apart', List.append_assoc]

/-- A gap ends in a blank or with a block comment. -/
theorem exists_seam {cs : List Char} (visible : (skip cs).2 ≠ [])
    (hidden : (skip cs).1 ≠ []) :
    ∃ before, (∃ c, isBlank c ∧ (skip cs).1 = before ++ [c]) ∨
      (skip cs).1 = before ++ ['*', '/'] := by
  fun_induction skip cs with
  | case1 cs none => exact absurd rfl hidden
  | case2 cs piece rest found _ gap behind skipped ih =>
    rw [skipped] at ih
    by_cases last : gap = []
    · subst last
      rw [List.append_nil]
      rcases @piece?_append_right cs piece rest [] found (by rwa [skipped]) (by simp) with
        blanks | ⟨⟨before, same⟩ | goesOn, -⟩
      · have nonempty := (piece?_append found).2
        exact ⟨piece.dropLast, Or.inl ⟨piece.getLast nonempty, blanks _ (List.getLast_mem nonempty),
          (List.dropLast_concat_getLast nonempty).symm⟩⟩
      · exact ⟨before, Or.inr same⟩
      · rw [skipped] at goesOn
        exact absurd rfl goesOn
    · obtain ⟨before, ⟨c, blank, rfl⟩ | rfl⟩ := ih visible last
      · exact ⟨piece ++ before, Or.inl ⟨c, blank, (List.append_assoc ..).symm⟩⟩
      · exact ⟨piece ++ before, Or.inr (List.append_assoc ..).symm⟩

end Hidden

end ShaderDialect
