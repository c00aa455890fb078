/-!
# Byte offsets and positions

A source text is a list of characters, and every offset into it counts UTF-8
bytes. `LineTable.position` turns an offset into a one-based line and column;
for offsets in ascending order, `LineTable.advance` keeps what has been passed.
Only a line feed ends a line; a carriage return is an ordinary character of
its line.
-/

namespace ShaderDialect

/-- Number of bytes of the UTF-8 form of `cs`. -/
def byteSize (cs : List Char) : Nat :=
  cs.foldr (fun c size => c.utf8Size + size) 0

@[simp] theorem byteSize_nil : byteSize [] = 0 := rfl

@[simp] theorem byteSize_cons (c : Char) (cs : List Char) :
    byteSize (c :: cs) = c.utf8Size + byteSize cs := rfl

@[simp] theorem byteSize_append (as bs : List Char) :
    byteSize (as ++ bs) = byteSize as + byteSize bs := by
  induction as with
  | nil => simp
  | cons c cs ih => simp [ih, Nat.add_assoc]

theorem byteSize_pos {cs : List Char} (nonempty : cs ≠ []) : 0 < byteSize cs := by
  cases cs with
  | nil => exact absurd rfl nonempty
  | cons c cs =>
    rw [byteSize_cons]
    exact Nat.add_pos_left (Char.utf8Size_pos c) _

/-- Cut `cs` after its first `n` bytes. There is no cut inside a character,
and none past the end. -/
def splitBytes? : Nat → List Char → Option (List Char × List Char)
  | 0, cs => some ([], cs)
  | _ + 1, [] => none
  | n + 1, c :: cs =>
    if c.utf8Size ≤ n + 1 then
      (splitBytes? (n + 1 - c.utf8Size) cs).map fun (before, after) =>
        (c :: before, after)
    else none

theorem splitBytes?_append (before after : List Char) :
    splitBytes? (byteSize before) (before ++ after) = some (before, after) := by
  induction before with
  | nil => simp [splitBytes?]
  | cons c cs ih =>
    have positive := Char.utf8Size_pos c
    obtain ⟨n, size⟩ : ∃ n, byteSize (c :: cs) = n + 1 :=
      Nat.exists_eq_succ_of_ne_zero (by simp; omega)
    rw [size, List.cons_append, splitBytes?, ← size]
    simp [ih]

theorem append_of_splitBytes? {n : Nat} {cs before after : List Char}
    (h : splitBytes? n cs = some (before, after)) :
    before ++ after = cs ∧ byteSize before = n := by
  fun_induction splitBytes? n cs generalizing before after with
  | case1 cs => simp_all
  | case2 => simp at h
  | case3 n c cs fits ih =>
    simp only [Option.map_eq_some_iff, Prod.exists, Prod.mk.injEq] at h
    obtain ⟨tail, rest, found, rfl, rfl⟩ := h
    obtain ⟨rfl, size⟩ := ih found
    simp [size]
    omega
  | case4 => simp at h

/-- A place in a source text. Both numbers start at one, the column counts
bytes, and both are 32-bit words. -/
structure Position where
  line : UInt32
  column : UInt32
deriving DecidableEq

/-- The text shown for something found at a position. -/
def Position.describe (position : Position) (message : String) : String :=
  toString position.line.toNat ++ ":" ++ toString position.column.toNat ++ ": " ++ message

/-- The offsets at which the lines after the first one start, when the text
itself starts at `offset`. -/
def lineStarts (offset : Nat) : List Char → List Nat
  | [] => []
  | c :: cs =>
    let next := offset + c.utf8Size
    if c = '\n' then next :: lineStarts next cs else lineStarts next cs

/-- The lines of one text, seen from one of them: how many lines are before it,
where it starts, and where the lines after it start. -/
structure LineTable where
  before : Nat
  start : Nat
  later : List Nat

namespace LineTable

/-- The lines of a text, seen from the first one. -/
def ofText (cs : List Char) : LineTable :=
  ⟨0, 0, lineStarts 0 cs⟩

/-- The last line of `later` that starts at or before an offset, else the line
that starts at `start`. -/
def seek (offset before start : Nat) : List Nat → LineTable
  | [] => ⟨before, start, []⟩
  | next :: later =>
    if next ≤ offset then seek offset (before + 1) next later
    else ⟨before, start, next :: later⟩

/-- Go on to the line of an offset, which may lie past the end of the text.
There is no way back to an earlier line. -/
def advance (table : LineTable) (offset : Nat) : LineTable :=
  seek offset table.before table.start table.later

/-- Line and column of a byte offset that is not before the line from which
the table sees the text. -/
def position (table : LineTable) (offset : Nat) : Position :=
  let line := table.advance offset
  { line := (line.before + 1).toUInt32
    column := (offset - line.start + 1).toUInt32 }

theorem seek_seek {offset further : Nat} (h : offset ≤ further) (before start : Nat)
    (later : List Nat) :
    (seek offset before start later).advance further =
      seek further before start later := by
  induction later generalizing before start with
  | nil => rfl
  | cons next later ih =>
    rw [seek]
    split
    · rename_i passed
      rw [ih, seek, if_pos (Nat.le_trans passed h)]
    · rfl

/-- On the way to an offset one may stop at an earlier one. -/
theorem position_advance {offset further : Nat} (h : offset ≤ further)
    (table : LineTable) :
    (table.advance offset).position further = table.position further := by
  simp only [position]
  rw [show (table.advance offset).advance further = table.advance further from seek_seek h _ _ _]

end LineTable

end ShaderDialect
