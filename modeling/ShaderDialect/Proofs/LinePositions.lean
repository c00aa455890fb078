import Mathlib.Data.List.DropRight
import ShaderDialect.Proofs.SplicedBytes

/-!
# Lines and columns of bytes

The table of lines is made from characters, but offsets count bytes, and they may lie
inside a character or behind the end of the text. Position and offset say the same
nevertheless: the line counts the line feeds among the bytes before the offset, and the
column the bytes behind the last of these.
-/

namespace ShaderDialect

/-- The byte that ends a line. No character but the line feed has it among its bytes. -/
def lineFeed : UInt8 := 10

theorem lineFeed_notMem {c : Char} (other : c ≠ '\n') :
    lineFeed ∉ String.utf8EncodeChar c := by
  have ofNat_ne : ∀ n, n % 256 ≠ 10 → lineFeed ≠ UInt8.ofNat n := by
    intro n different same
    exact different (by simpa [lineFeed] using (congrArg UInt8.toNat same).symm)
  have notFeed : c.val.toNat ≠ 10 :=
    fun same => other (Char.ext (UInt32.toNat_inj.1 same))
  -- All bytes of a longer encoding are at least 128.
  unfold String.utf8EncodeChar
  dsimp only
  split_ifs with ascii <;> simp only [List.mem_cons, List.not_mem_nil, or_false, not_or]
  · exact ofNat_ne _ (by omega)
  · exact ⟨ofNat_ne _ (by omega), ofNat_ne _ (by omega)⟩
  · exact ⟨ofNat_ne _ (by omega), ofNat_ne _ (by omega), ofNat_ne _ (by omega)⟩
  · exact ⟨ofNat_ne _ (by omega), ofNat_ne _ (by omega), ofNat_ne _ (by omega),
      ofNat_ne _ (by omega)⟩

/-! ### Line starts of bytes -/

/-- Where lines start behind the line feeds of some bytes, the first of which is at
`offset`. -/
def byteStarts (offset : Nat) : List UInt8 → List Nat
  | [] => []
  | byte :: bytes =>
    if byte = lineFeed then (offset + 1) :: byteStarts (offset + 1) bytes
    else byteStarts (offset + 1) bytes

theorem byteStarts_append (offset : Nat) (bytes bytes' : List UInt8) :
    byteStarts offset (bytes ++ bytes') =
      byteStarts offset bytes ++ byteStarts (offset + bytes.length) bytes' := by
  induction bytes generalizing offset with
  | nil => rfl
  | cons byte bytes ih =>
    have shift : offset + (byte :: bytes).length = offset + 1 + bytes.length := by
      rw [List.length_cons]
      omega
    rw [List.cons_append, byteStarts, byteStarts, ih, shift]
    split_ifs <;> rfl

theorem byteStarts_eq_nil {bytes : List UInt8} (none : lineFeed ∉ bytes) (offset : Nat) :
    byteStarts offset bytes = [] := by
  induction bytes generalizing offset with
  | nil => rfl
  | cons byte bytes ih =>
    rw [List.mem_cons, not_or] at none
    rw [byteStarts, if_neg (Ne.symm none.1), ih none.2]

/-- The table that is made from characters has the line starts of the bytes. -/
theorem lineStarts_eq (offset : Nat) (cs : List Char) :
    lineStarts offset cs = byteStarts offset (encode cs) := by
  induction cs generalizing offset with
  | nil => rfl
  | cons c cs ih =>
    rw [lineStarts, encode, List.flatMap_cons, ← encode, byteStarts_append,
      String.length_utf8EncodeChar, ih]
    by_cases feed : c = '\n'
    · subst feed
      rfl
    · rw [if_neg feed, byteStarts_eq_nil (lineFeed_notMem feed), List.nil_append]

theorem length_byteStarts (offset : Nat) (bytes : List UInt8) :
    (byteStarts offset bytes).length = bytes.count lineFeed := by
  induction bytes generalizing offset with
  | nil => rfl
  | cons byte bytes ih =>
    rw [byteStarts, List.count_cons]
    split_ifs <;> simp_all

theorem mem_byteStarts {offset start : Nat} {bytes : List UInt8}
    (listed : start ∈ byteStarts offset bytes) :
    offset < start ∧ start ≤ offset + bytes.length := by
  induction bytes generalizing offset with
  | nil => cases listed
  | cons byte bytes ih =>
    rw [byteStarts] at listed
    rw [List.length_cons]
    split_ifs at listed
    · rcases List.mem_cons.1 listed with rfl | later
      · omega
      · have := ih later
        omega
    · have := ih listed
      omega

theorem pairwise_byteStarts (offset : Nat) (bytes : List UInt8) :
    (byteStarts offset bytes).Pairwise (· < ·) := by
  induction bytes generalizing offset with
  | nil => exact .nil
  | cons byte bytes ih =>
    rw [byteStarts]
    split_ifs
    · exact .cons (fun start later => (mem_byteStarts later).1) (ih _)
    · exact ih _

/-- The last line start is behind the last line feed. -/
theorem getLastD_byteStarts (bytes : List UInt8) :
    (byteStarts 0 bytes).getLastD 0 = (bytes.rdropWhile (· ≠ lineFeed)).length := by
  induction bytes using List.reverseRecOn with
  | nil => rfl
  | append_singleton bytes byte ih =>
    rw [byteStarts_append, List.rdropWhile_concat]
    by_cases feed : byte = lineFeed
    · simp [byteStarts, feed]
    · simpa [byteStarts, feed] using ih

/-! ### Looking up an offset -/

/-- Line starts that are passed are counted, and the last of them is kept. -/
theorem LineTable.seek_append {offset : Nat} {passed ahead : List Nat}
    (below : ∀ next ∈ passed, next ≤ offset) (above : ∀ next ∈ ahead, offset < next)
    (before start : Nat) :
    seek offset before start (passed ++ ahead) =
      ⟨before + passed.length, passed.getLastD start, ahead⟩ := by
  induction passed generalizing before start with
  | nil =>
    cases ahead with
    | nil => rfl
    | cons next ahead =>
      have short := above next List.mem_cons_self
      rw [List.nil_append, seek, if_neg (Nat.not_le.2 short)]
      rfl
  | cons next passed ih =>
    rw [List.forall_mem_cons] at below
    rw [List.cons_append, seek, if_pos below.1, ih below.2, List.length_cons,
      Nat.add_right_comm, Nat.add_assoc, List.getLastD_cons]

/-- How many line feeds there are among the bytes before an offset. -/
def feedsBefore (bytes : List UInt8) (offset : Nat) : Nat :=
  (bytes.take offset).count lineFeed

/-- The offset behind the last line feed before an offset, or zero if there is none. -/
def lineStart (bytes : List UInt8) (offset : Nat) : Nat :=
  ((bytes.take offset).rdropWhile (· ≠ lineFeed)).length

theorem lineStart_le (bytes : List UInt8) (offset : Nat) :
    lineStart bytes offset ≤ offset :=
  Nat.le_trans (List.rdropWhile_prefix _ _).length_le (List.length_take_le _ _)

/-- Line and column of an offset are numbers that a position has room for. -/
def InRange (bytes : List UInt8) (offset : Nat) : Prop :=
  1 + feedsBefore bytes offset < UInt32.size ∧
  1 + offset - lineStart bytes offset < UInt32.size

theorem inRange_of_lt {bytes : List UInt8} {offset : Nat}
    (small : offset + 1 < UInt32.size) :
    InRange bytes offset := by
  have feeds : feedsBefore bytes offset ≤ offset :=
    Nat.le_trans List.count_le_length (List.length_take_le _ _)
  constructor <;> omega

instance (bytes : List UInt8) (offset : Nat) : Decidable (InRange bytes offset) :=
  inferInstanceAs (Decidable (_ ∧ _))

namespace LineTable

/-- The line of an offset, from the bytes of the text. -/
theorem advance_ofText (cs : List Char) (offset : Nat) :
    ((ofText cs).advance offset).before = feedsBefore (encode cs) offset ∧
      ((ofText cs).advance offset).start = lineStart (encode cs) offset := by
  have below : ∀ next ∈ byteStarts 0 ((encode cs).take offset), next ≤ offset := by
    intro next listed
    have inside := (mem_byteStarts listed).2
    rw [List.length_take] at inside
    omega
  have above : ∀ next ∈ byteStarts (0 + ((encode cs).take offset).length) ((encode cs).drop offset),
      offset < next := by
    intro next listed
    have behind := mem_byteStarts listed
    rw [List.length_take, List.length_drop] at behind
    omega
  have split : lineStarts 0 cs = byteStarts 0 ((encode cs).take offset) ++
      byteStarts (0 + ((encode cs).take offset).length) ((encode cs).drop offset) := by
    rw [lineStarts_eq, ← byteStarts_append, List.take_append_drop]
  have found := seek_append below above 0 0
  rw [← split, length_byteStarts, getLastD_byteStarts, Nat.zero_add] at found
  exact ⟨congrArg before found, congrArg start found⟩

theorem position_ofText (cs : List Char) (offset : Nat) :
    (ofText cs).position offset =
      { line := (feedsBefore (encode cs) offset + 1).toUInt32
        column := (offset - lineStart (encode cs) offset + 1).toUInt32 } := by
  obtain ⟨lines, start⟩ := advance_ofText cs offset
  rw [position, lines, start]

/-- In a text of one line the column goes on. -/
theorem position_of_notMem {cs : List Char} (oneLine : '\n' ∉ cs) (offset : Nat) :
    (ofText cs).position offset = { line := 1, column := (offset + 1).toUInt32 } := by
  have none : ∀ offset, lineStarts offset cs = [] := by
    induction cs with
    | nil => exact fun _ => rfl
    | cons c cs ih =>
      intro offset
      rw [List.mem_cons, not_or] at oneLine
      rw [lineStarts, if_neg (Ne.symm oneLine.1), ih oneLine.2]
  rw [ofText, none]
  rfl

theorem toNat_position {cs : List Char} {offset : Nat}
    (fits : InRange (encode cs) offset) :
    ((ofText cs).position offset).line.toNat = 1 + feedsBefore (encode cs) offset ∧
      ((ofText cs).position offset).column.toNat =
        1 + offset - lineStart (encode cs) offset := by
  obtain ⟨lines, columns⟩ := fits
  have start := lineStart_le (encode cs) offset
  have shift : offset - lineStart (encode cs) offset + 1 =
      1 + offset - lineStart (encode cs) offset := by
    omega
  rw [position_ofText, shift, Nat.add_comm _ 1]
  exact ⟨UInt32.toNat_ofNat_of_lt' lines, UInt32.toNat_ofNat_of_lt' columns⟩

theorem before_le_seek (offset before start : Nat) (later : List Nat) :
    before ≤ (seek offset before start later).before := by
  induction later generalizing before start with
  | nil => exact Nat.le_refl _
  | cons next later ih =>
    rw [seek]
    split
    · exact Nat.le_trans (Nat.le_succ _) (ih _ _)
    · exact Nat.le_refl _

/-- A line is known by its number. -/
theorem seek_start_eq {offset offset' before start : Nat} {later : List Nat}
    (same : (seek offset before start later).before = (seek offset' before start later).before) :
    (seek offset before start later).start = (seek offset' before start later).start := by
  induction later generalizing before start with
  | nil => rfl
  | cons next later ih =>
    have further := before_le_seek offset (before + 1) next later
    have further' := before_le_seek offset' (before + 1) next later
    simp only [seek] at same ⊢
    split_ifs at same ⊢
    · exact ih same
    · dsimp only at same
      omega
    · dsimp only at same
      omega
    · rfl

/-- Two offsets on one line have one line start. -/
theorem lineStart_eq_of_feedsBefore_eq {cs : List Char} {offset offset' : Nat}
    (same : feedsBefore (encode cs) offset = feedsBefore (encode cs) offset') :
    lineStart (encode cs) offset = lineStart (encode cs) offset' := by
  -- Both line starts are found in one table, where the number of a line has one start.
  obtain ⟨lines, start⟩ := advance_ofText cs offset
  obtain ⟨lines', start'⟩ := advance_ofText cs offset'
  rw [← start, ← start']
  exact seek_start_eq (lines.trans (same.trans lines'.symm))

end LineTable

theorem feedsBefore_mono (bytes : List UInt8) {offset offset' : Nat}
    (le : offset ≤ offset') :
    feedsBefore bytes offset ≤ feedsBefore bytes offset' :=
  (List.take_prefix_take_left le).sublist.count_le lineFeed

/-- The order of positions: by line, and on one line by column. -/
def Position.Precedes (position other : Position) : Prop :=
  position.line < other.line ∨ position.line = other.line ∧ position.column < other.column

theorem Position.not_precedes (position : Position) : ¬ position.Precedes position := by
  rintro (less | ⟨-, less⟩)
  · exact UInt32.lt_irrefl _ less
  · exact UInt32.lt_irrefl _ less

namespace LineTable

variable {cs : List Char} {offset offset' : Nat}

theorem precedes_of_lt (fits : InRange (encode cs) offset)
    (fits' : InRange (encode cs) offset') (lt : offset < offset') :
    ((ofText cs).position offset).Precedes ((ofText cs).position offset') := by
  obtain ⟨line, column⟩ := toNat_position fits
  obtain ⟨line', column'⟩ := toNat_position fits'
  have start := lineStart_le (encode cs) offset
  rcases Nat.lt_or_eq_of_le (feedsBefore_mono (encode cs) (Nat.le_of_lt lt)) with fewer | same
  · left
    rw [UInt32.lt_iff_toNat_lt, line, line']
    omega
  · right
    have starts := lineStart_eq_of_feedsBefore_eq same
    rw [← UInt32.toNat_inj, UInt32.lt_iff_toNat_lt, line, line', column, column']
    omega

theorem position_injective (fits : InRange (encode cs) offset)
    (fits' : InRange (encode cs) offset')
    (same : (ofText cs).position offset = (ofText cs).position offset') :
    offset = offset' := by
  rcases Nat.lt_trichotomy offset offset' with lt | equal | gt
  · exact absurd (same ▸ precedes_of_lt fits fits' lt) (Position.not_precedes _)
  · exact equal
  · exact absurd (same ▸ precedes_of_lt fits' fits gt) (Position.not_precedes _)

end LineTable

/-! ### Searching the line starts -/

theorem getElem?_getLastD_take {later : List Nat} {count : Nat}
    (short : count ≤ later.length) (start : Nat) :
    (start :: later)[count]? = some ((later.take count).getLastD start) := by
  induction later generalizing start count with
  | nil =>
    obtain rfl := Nat.le_zero.1 short
    rfl
  | cons next later ih =>
    cases count with
    | zero => rfl
    | succ count =>
      rw [List.getElem?_cons_succ, List.take_succ_cons, List.getLastD_cons]
      exact ih (Nat.le_of_succ_le_succ short) next

namespace LineTable

variable {cs : List Char} {offset index : Nat}

/-- Where all lines start, the first one included. -/
def starts (table : LineTable) : List Nat :=
  table.start :: table.later

theorem pairwise_starts (cs : List Char) : (ofText cs).starts.Pairwise (· < ·) := by
  have shape : (ofText cs).starts = 0 :: byteStarts 0 (encode cs) := by
    rw [starts, ofText, lineStarts_eq]
  rw [shape]
  exact .cons (fun start listed => (mem_byteStarts listed).1) (pairwise_byteStarts 0 _)

/-- The line of an offset is known by the line starts around it. -/
theorem position_of_split (short : index < (ofText cs).starts.length)
    (below : ∀ start ∈ (ofText cs).starts.take (index + 1), start ≤ offset)
    (above : ∀ start ∈ (ofText cs).starts.drop (index + 1), offset < start) :
    ∃ start, (ofText cs).starts[index]? = some start ∧ (ofText cs).position offset =
      { line := (index + 1).toUInt32, column := (offset - start + 1).toUInt32 } := by
  have short' : index ≤ (lineStarts 0 cs).length := Nat.le_of_lt_succ short
  have line :=
    @seek_append offset ((lineStarts 0 cs).take index) ((lineStarts 0 cs).drop index)
      (fun start listed => below start (List.mem_cons_of_mem _ listed)) above 0 0
  rw [List.take_append_drop, List.length_take_of_le short', Nat.zero_add] at line
  refine ⟨_, getElem?_getLastD_take short' 0, ?_⟩
  rw [position, show (ofText cs).advance offset = _ from line]

/-- An offset at which a line starts is the first one of that line. -/
theorem position_of_hit (hit : (ofText cs).starts[index]? = some offset) :
    (ofText cs).position offset = { line := (index + 1).toUInt32, column := 1 } := by
  obtain ⟨short, isStart⟩ := List.getElem?_eq_some_iff.1 hit
  have ordered := List.pairwise_iff_getElem.1 (pairwise_starts cs)
  have below : ∀ start ∈ (ofText cs).starts.take (index + 1), start ≤ offset := by
    intro start listed
    obtain ⟨i, inside, rfl⟩ := List.mem_take_iff_getElem.1 listed
    rcases Nat.lt_or_eq_of_le (by omega : i ≤ index) with earlier | rfl
    · exact isStart ▸ Nat.le_of_lt (ordered i index (by omega) short earlier)
    · exact Nat.le_of_eq isStart
  have above : ∀ start ∈ (ofText cs).starts.drop (index + 1), offset < start := by
    intro start listed
    obtain ⟨i, inside, rfl⟩ := List.mem_drop_iff_getElem.1 listed
    exact isStart ▸ ordered index (index + 1 + i) short (by omega) (by omega)
  obtain ⟨start, found, position⟩ := position_of_split short below above
  obtain rfl := Option.some.inj (hit.symm.trans found)
  rw [position, Nat.sub_self]
  rfl

/-- The place at which an offset that starts no line would have to be inserted is behind a
line start, which is that of its line. -/
theorem position_of_miss (short : index ≤ (ofText cs).starts.length)
    (below : ∀ start ∈ (ofText cs).starts.take index, start < offset)
    (above : ∀ start ∈ (ofText cs).starts.drop index, offset < start) :
    0 < index ∧ ∃ start, (ofText cs).starts[index - 1]? = some start ∧ start < offset ∧
      (ofText cs).position offset =
        { line := index.toUInt32, column := (offset - start + 1).toUInt32 } := by
  cases index with
  | zero => exact absurd (above 0 List.mem_cons_self) (Nat.not_lt_zero _)
  | succ index =>
    obtain ⟨start, found, position⟩ := position_of_split (Nat.lt_of_succ_le short)
      (fun start listed => Nat.le_of_lt (below start listed)) above
    have listed : start ∈ (ofText cs).starts.take (index + 1) :=
      List.mem_of_getElem? ((List.getElem?_take_of_lt (Nat.lt_succ_self index)).trans found)
    exact ⟨Nat.succ_pos _, start, found, below start listed, position⟩

end LineTable

/-! ### Tokens -/

namespace TokenStream

variable {source : String} {stream : TokenStream} (cut : ofSource source = .ok stream)

include cut

theorem position_finish : stream.finish.position =
    (LineTable.ofText source.toList).position stream.finish.start := by
  simp only [ofSource, bind, Except.bind, pure, Except.pure] at cut
  split at cut
  · cases cut
  · cases cut
    rfl

/-- Every token has the position of its first byte, the end mark that of the end. -/
theorem position_of_mem_toList {lexeme : Lexeme} (listed : lexeme ∈ stream.toList) :
    lexeme.position = (LineTable.ofText source.toList).position lexeme.start := by
  rcases List.mem_append.1 listed with isToken | isFinish
  · exact position_of_ofSource cut lexeme isToken
  · obtain rfl := List.mem_singleton.1 isFinish
    exact position_finish cut

theorem pairwise_start_toList : stream.toList.Pairwise (·.start < ·.start) := by
  have lexed := lexed_of_ofSource cut
  refine List.pairwise_append.2 ⟨lexed.pairwise_start, List.pairwise_singleton _ _, ?_⟩
  intro lexeme listed finish isFinish
  obtain rfl := List.mem_singleton.1 isFinish
  have inside := (lexed.start_mem lexeme listed).2
  rwa [Nat.zero_add, ← finish_of_ofSource cut] at inside

/-- No two tokens start at one offset. -/
theorem start_ne {i j : Nat} (different : i ≠ j) {lexeme other : Lexeme}
    (found : stream.toList[i]? = some lexeme) (found' : stream.toList[j]? = some other) :
    lexeme.start ≠ other.start := by
  have ordered := List.pairwise_iff_getElem.1 (pairwise_start_toList cut)
  obtain ⟨below, rfl⟩ := List.getElem?_eq_some_iff.1 found
  obtain ⟨below', rfl⟩ := List.getElem?_eq_some_iff.1 found'
  rcases Nat.lt_or_gt_of_ne different with lt | gt
  · exact Nat.ne_of_lt (ordered i j below below' lt)
  · exact Nat.ne_of_gt (ordered j i below' below gt)

/-- In a text of less than four gigabytes no two tokens have one position. -/
theorem positionOf_inj (small : byteSize source.toList < UInt32.size) {i j : Nat}
    (inside : i < stream.lexemes.length) (inside' : j < stream.lexemes.length)
    (same : stream.positionOf i = stream.positionOf j) : i = j := by
  have found : ∀ {i : Nat} (inside : i < stream.lexemes.length),
      stream.toList[i]? = some stream.lexemes[i] ∧
        InRange (encode source.toList) stream.lexemes[i].start := by
    intro i inside
    have start := ((lexed_of_ofSource cut).start_mem _ (List.getElem_mem inside)).2
    refine ⟨by simp [toList, List.getElem?_append_left, inside], inRange_of_lt (by omega)⟩
  obtain ⟨here, fits⟩ := found inside
  obtain ⟨here', fits'⟩ := found inside'
  rw [positionOf_eq inside, positionOf_eq inside',
    position_of_ofSource cut _ (List.getElem_mem inside),
    position_of_ofSource cut _ (List.getElem_mem inside')] at same
  by_contra different
  exact start_ne cut different here here' (LineTable.position_injective fits fits' same)

end TokenStream

open LineTable

/-- Line and column of any offset, also of one inside a character or behind the end: one
more than the line feeds before the offset, and one more than the bytes behind the last of
these. A search of the line starts that finds the offset finds its line; one that does not
ends behind the start of its line. Offsets and positions are in the same order, so no two
tokens have one position. -/
theorem position_by_bytes (source : String) :
    (∀ offset, InRange (utf8 source) offset →
      ((ofText source.toList).position offset).line.toNat =
        1 + feedsBefore (utf8 source) offset ∧
      ((ofText source.toList).position offset).column.toNat =
        1 + offset - lineStart (utf8 source) offset) ∧
    (∀ offset, lineStart (utf8 source) offset ≤ offset) ∧
    (ofText source.toList).starts.Pairwise (· < ·) ∧
    (∀ offset index, (ofText source.toList).starts[index]? = some offset →
      (ofText source.toList).position offset =
        { line := (index + 1).toUInt32, column := 1 }) ∧
    (∀ offset index, index ≤ (ofText source.toList).starts.length →
      (∀ start ∈ (ofText source.toList).starts.take index, start < offset) →
      (∀ start ∈ (ofText source.toList).starts.drop index, offset < start) →
      0 < index ∧ ∃ start, (ofText source.toList).starts[index - 1]? = some start ∧
        start < offset ∧ (ofText source.toList).position offset =
          { line := index.toUInt32, column := (offset - start + 1).toUInt32 }) ∧
    (∀ offset offset', InRange (utf8 source) offset → InRange (utf8 source) offset' →
      (offset < offset' → ((ofText source.toList).position offset).Precedes
        ((ofText source.toList).position offset')) ∧
      ((ofText source.toList).position offset = (ofText source.toList).position offset' →
        offset = offset')) ∧
    ∀ stream, TokenStream.ofSource source = .ok stream →
      ∀ (i j : Nat) (lexeme other : Lexeme), i ≠ j → stream.toList[i]? = some lexeme →
        stream.toList[j]? = some other → InRange (utf8 source) lexeme.start →
        InRange (utf8 source) other.start → lexeme.position ≠ other.position := by
  rw [utf8_eq_encode]
  refine ⟨fun offset => toNat_position, lineStart_le _, pairwise_starts _,
    fun offset index => position_of_hit, fun offset index => position_of_miss,
    fun offset offset' fits fits' =>
      ⟨precedes_of_lt fits fits', position_injective fits fits'⟩, ?_⟩
  intro stream cut i j lexeme other different found found' fits fits' same
  rw [TokenStream.position_of_mem_toList cut (List.mem_of_getElem? found),
    TokenStream.position_of_mem_toList cut (List.mem_of_getElem? found')] at same
  exact TokenStream.start_ne cut different found found' (position_injective fits fits' same)

/-- Offsets inside a character, at the start of a line and behind the end. -/
theorem position_by_bytes_wide :
    ((ofText "é\nb".toList).position 1).line.toNat = 1 ∧
      ((ofText "é\nb".toList).position 1).column.toNat = 2 ∧
      (ofText "é\nb".toList).position 3 = { line := 2, column := 1 } ∧
      ((ofText "é\nb".toList).position 9).line.toNat = 2 ∧
      ((ofText "é\nb".toList).position 9).column.toNat = 7 ∧
      ((ofText "é\nb".toList).position 3).Precedes ((ofText "é\nb".toList).position 9) := by
  obtain ⟨numbers, -, -, hit, -, order, -⟩ := position_by_bytes "é\nb"
  have inside : InRange (utf8 "é\nb") 1 := by decide +kernel
  have starts : InRange (utf8 "é\nb") 3 := by decide +kernel
  have behind : InRange (utf8 "é\nb") 9 := by decide +kernel
  obtain ⟨line, column⟩ := numbers 1 inside
  obtain ⟨line', column'⟩ := numbers 9 behind
  refine ⟨line.trans (by decide +kernel), column.trans (by decide +kernel), ?_,
    line'.trans (by decide +kernel), column'.trans (by decide +kernel),
    (order 3 9 starts behind).1 (by decide)⟩
  exact hit 3 1 (by decide +kernel)

end ShaderDialect
