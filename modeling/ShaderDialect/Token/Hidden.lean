/-!
# Hidden text

Blanks, comments and directives separate tokens and never become one. Each
reader here returns the characters it read and the rest; together they are the
input again, so what is skipped can be put back byte for byte.
-/

namespace ShaderDialect.Hidden

def isBlank (c : Char) : Bool :=
  c = ' ' || c = '\t' || c = '\r' || c = '\n'

def isLineEnd (c : Char) : Bool :=
  c = '\r' || c = '\n'

/-- A run of blanks, as long as it goes. -/
def blanks? (cs : List Char) : Option (List Char × List Char) :=
  if (cs.takeWhile isBlank).isEmpty then none
  else some (cs.takeWhile isBlank, cs.dropWhile isBlank)

/-- A comment up to the end of its line. A carriage return that no line feed
follows ends no line, so a comment that runs into one is no comment. -/
def lineComment? : List Char → Option (List Char × List Char)
  | '/' :: '/' :: cs =>
    match cs.dropWhile (! isLineEnd ·) with
    | '\r' :: '\n' :: rest =>
      some ('/' :: '/' :: cs.takeWhile (! isLineEnd ·), '\r' :: '\n' :: rest)
    | '\r' :: _ => none
    | rest => some ('/' :: '/' :: cs.takeWhile (! isLineEnd ·), rest)
  | _ => none

/-- The text up to and including the mark that closes a block comment. -/
def blockEnd? : List Char → Option (List Char × List Char)
  | '*' :: '/' :: cs => some (['*', '/'], cs)
  | c :: cs => (blockEnd? cs).map fun (body, rest) => (c :: body, rest)
  | [] => none

/-- A comment between its marks. Without a closing mark there is none. -/
def blockComment? : List Char → Option (List Char × List Char)
  | '/' :: '*' :: cs => (blockEnd? cs).map fun (body, rest) => ('/' :: '*' :: body, rest)
  | _ => none

/-- The rest of a directive: up to the end of its line, where a backslash
before the line end goes on to the next line. -/
def directiveBody : List Char → List Char × List Char
  | '\\' :: '\r' :: '\n' :: cs =>
    let (body, rest) := directiveBody cs
    ('\\' :: '\r' :: '\n' :: body, rest)
  | '\\' :: '\n' :: cs =>
    let (body, rest) := directiveBody cs
    ('\\' :: '\n' :: body, rest)
  | c :: cs =>
    if isLineEnd c then ([], c :: cs)
    else
      let (body, rest) := directiveBody cs
      (c :: body, rest)
  | [] => ([], [])

/-- A directive starts with its hash sign wherever that stands. -/
def directive? : List Char → Option (List Char × List Char)
  | '#' :: cs =>
    let (body, rest) := directiveBody cs
    some ('#' :: body, rest)
  | _ => none

/-- One piece of hidden text at the front of `cs`. -/
def piece? (cs : List Char) : Option (List Char × List Char) :=
  (((blanks? cs).or (lineComment? cs)).or (blockComment? cs)).or (directive? cs)

theorem blanks?_append {cs piece rest : List Char} (h : blanks? cs = some (piece, rest)) :
    piece ++ rest = cs ∧ piece ≠ [] := by
  simp only [blanks?] at h
  split at h
  · simp at h
  · simp only [Option.some.injEq, Prod.mk.injEq] at h
    obtain ⟨rfl, rfl⟩ := h
    exact ⟨List.takeWhile_append_dropWhile, fun empty => ‹¬ _› (by rw [empty]; rfl)⟩

theorem lineComment?_append {cs piece rest : List Char}
    (h : lineComment? cs = some (piece, rest)) : piece ++ rest = cs ∧ piece ≠ [] := by
  unfold lineComment? at h
  split at h
  · rename_i body
    have body_eq :=
      List.takeWhile_append_dropWhile (p := fun c => ! isLineEnd c) (l := body)
    simp only at h
    split at h <;> simp_all
    all_goals
      obtain ⟨rfl, rfl⟩ := h
      simp_all
  · simp at h

theorem blockEnd?_append {cs body rest : List Char}
    (h : blockEnd? cs = some (body, rest)) :
    body ++ rest = cs := by
  fun_induction blockEnd? cs generalizing body rest with
  | case1 cs =>
    simp only [Option.some.injEq, Prod.mk.injEq] at h
    obtain ⟨rfl, rfl⟩ := h
    rfl
  | case2 c cs _ ih =>
    simp only [Option.map_eq_some_iff, Prod.exists, Prod.mk.injEq] at h
    obtain ⟨tail, rest', found, rfl, rfl⟩ := h
    simp [ih found]
  | case3 => simp at h

theorem blockComment?_append {cs piece rest : List Char}
    (h : blockComment? cs = some (piece, rest)) : piece ++ rest = cs ∧ piece ≠ [] := by
  unfold blockComment? at h
  split at h
  · simp only [Option.map_eq_some_iff, Prod.exists, Prod.mk.injEq] at h
    obtain ⟨body, rest', found, rfl, rfl⟩ := h
    simp [blockEnd?_append found]
  · simp at h

theorem directiveBody_append (cs : List Char) :
    (directiveBody cs).1 ++ (directiveBody cs).2 = cs := by
  fun_induction directiveBody cs <;> simp_all

theorem directive?_append {cs piece rest : List Char}
    (h : directive? cs = some (piece, rest)) : piece ++ rest = cs ∧ piece ≠ [] := by
  unfold directive? at h
  split at h
  · rename_i body
    simp only [Option.some.injEq, Prod.mk.injEq] at h
    obtain ⟨rfl, rfl⟩ := h
    simp [directiveBody_append]
  · simp at h

/-- A piece of hidden text is never empty, and nothing of the input is lost. -/
theorem piece?_append {cs piece rest : List Char} (h : piece? cs = some (piece, rest)) :
    piece ++ rest = cs ∧ piece ≠ [] := by
  simp only [piece?, Option.or_eq_some_iff, Option.or_eq_none_iff] at h
  rcases h with ((h | ⟨_, h⟩) | ⟨_, h⟩) | ⟨_, h⟩
  · exact blanks?_append h
  · exact lineComment?_append h
  · exact blockComment?_append h
  · exact directive?_append h

theorem piece?_length {cs piece rest : List Char} (h : piece? cs = some (piece, rest)) :
    rest.length < cs.length := by
  obtain ⟨rfl, nonempty⟩ := piece?_append h
  have := List.length_pos_iff.2 nonempty
  simp
  omega

/-- All hidden text at the front of `cs`, and what follows it. -/
def skip (cs : List Char) : List Char × List Char :=
  match h : piece? cs with
  | none => ([], cs)
  | some (piece, rest) =>
    have : rest.length < cs.length := piece?_length h
    let (gap, after) := skip rest
    (piece ++ gap, after)
termination_by cs.length

theorem skip_append (cs : List Char) : (skip cs).1 ++ (skip cs).2 = cs := by
  fun_induction skip cs with
  | case1 => simp
  | case2 cs piece rest h _ gap after hskip ih =>
    rw [hskip] at ih
    simp only at ih
    simp [ih, (piece?_append h).1]

theorem length_skip_le (cs : List Char) : (skip cs).2.length ≤ cs.length := by
  have := congrArg List.length (skip_append cs)
  simp at this
  omega

end ShaderDialect.Hidden
