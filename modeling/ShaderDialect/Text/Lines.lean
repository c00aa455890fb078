/-!
# Lines

A text cut after each of its line feeds. The lines keep their line feeds, so
that together they are the text again.
-/

namespace ShaderDialect

/-- The lines of a text, each with the line feed that ends it. -/
def lines : List Char → List (List Char)
  | [] => []
  | c :: cs =>
    if c = '\n' then [c] :: lines cs
    else
      match lines cs with
      | [] => [[c]]
      | line :: rest => (c :: line) :: rest

theorem flatten_lines (cs : List Char) : (lines cs).flatten = cs := by
  induction cs with
  | nil => rfl
  | cons c cs ih =>
    simp only [lines]
    split
    · simp [ih]
    · split
      · rename_i empty
        rw [empty] at ih
        simp at ih
        simp [← ih]
      · rename_i found
        rw [found] at ih
        simp only [List.flatten_cons] at ih
        simp [ih]

end ShaderDialect
