import ShaderDialect.Proofs.LineFeeds
import ShaderDialect.Shader.File

/-!
# Taking out the version line

The version line is looked for among the lines of a text, whatever they stand in,
while tokens are cut without regard to lines. So what is left of the text is read
as before if the line starts and ends in the same layer of hidden text: the layer
then goes on behind the line as it did before it, and the tokens that are lost are
those of the line itself. A version directive that stands on a line of its own has
none.
-/

namespace ShaderDialect

open Hidden

namespace Lexed

variable {index offset : Nat} {cs : List Char} {lexemes : List Lexeme}

theorem readsAs (h : Lexed [] index offset cs lexemes) :
    ReadsAs cs (lexemes.map (·.spelling)) := by
  induction h with
  | finish hidden => exact .finish hidden
  | lexeme position scanned others ih => exact .token scanned ih

theorem stop_le (h : Lexed [] index offset cs lexemes) :
    ∀ lexeme ∈ lexemes, lexeme.stop ≤ offset + byteSize cs := by
  induction h with
  | finish hidden => simp
  | @lexeme index offset cs read rest kind lexemes position scanned others ih =>
    have size : byteSize cs = byteSize (skip cs).1 + (byteSize read + byteSize rest) := by
      rw [← byteSize_append, (Token.scan?_append scanned).1, ← byteSize_append,
        skip_append]
    refine List.forall_mem_cons.2 ⟨?_, fun lexeme later => ?_⟩
    · dsimp only
      omega
    · have := ih lexeme later
      omega

/-- The lexemes of a text are those behind its first piece of hidden text. -/
theorem of_piece? (h : Lexed [] index offset cs lexemes) {piece tail : List Char}
    (read : piece? cs = some (piece, tail)) :
    Lexed [] index (offset + byteSize piece) tail lexemes := by
  have skipped := skip_of_some read
  cases h with
  | finish hidden =>
    rw [skipped] at hidden
    exact .finish hidden
  | lexeme position scanned others =>
    simp only [skipped, byteSize_append, ← Nat.add_assoc] at scanned others ⊢
    exact .lexeme position scanned others

end Lexed

/-- A line feed stands behind a front of the text or in it. -/
theorem split_at_lineFeed {read tail front rest : List Char}
    (h : read ++ tail = front ++ '\n' :: rest) :
    (∃ front', front = read ++ front' ∧ tail = front' ++ '\n' :: rest) ∨
      ∃ more, read = front ++ '\n' :: more ∧ rest = more ++ tail := by
  rcases List.append_eq_append_iff.1 h with behind | ⟨inside, rfl, shape⟩
  · exact .inl behind
  · cases inside with
    | nil => exact .inl ⟨[], by simp, shape.symm⟩
    | cons c more =>
      obtain ⟨rfl, rfl⟩ := List.cons.inj shape
      exact .inr ⟨more, rfl, rfl⟩

/-- A layer of the text covers a line feed, and `rest` stands behind it. -/
inductive Breaks (layer : Layer) : List Char → List Char → Prop where
  | here {cs front more tail : List Char}
      (read : layer.read? cs = some (front ++ '\n' :: more, tail)) :
        Breaks layer cs (more ++ tail)
  | hidden {cs piece tail rest : List Char} (read : piece? cs = some (piece, tail))
      (behind : Breaks layer tail rest) : Breaks layer cs rest
  | token {cs read tail rest : List Char} {kind : TokenKind} (visible : piece? cs = none)
      (scanned : Token.scan? cs = some (kind, read, tail)) (behind : Breaks layer tail rest) :
      Breaks layer cs rest

/-- A line of the text starts at `rest`, or ends before it, in a layer: a line feed
of the layer stands there, or the text starts or ends. No comment is open at its
start or at its end. -/
def LineBreak (layer : Layer) (cs rest : List Char) : Prop :=
  Breaks layer cs rest ∨ (layer = .blanks ∧ rest = cs) ∨ (layer ≠ .comment ∧ rest = [])

/-- A piece of hidden text that covers a line feed is of some layer. -/
theorem exists_layer {cs piece tail : List Char} (h : piece? cs = some (piece, tail))
    (feed : '\n' ∈ piece) : ∃ layer : Layer, layer.read? cs = some (piece, tail) := by
  simp only [piece?, Option.or_eq_some_iff] at h
  rcases h with ((h | ⟨-, h⟩) | ⟨-, h⟩) | ⟨-, h⟩
  · exact ⟨.blanks, h⟩
  · obtain ⟨body, rfl, inLine, -⟩ := lineComment?_eq_some h
    have inside : '\n' ∈ body := by simpa using feed
    exact absurd (inLine _ inside) (by decide)
  · exact ⟨.comment, h⟩
  · exact ⟨.directive, h⟩

/-- Every line feed of a text that can be cut is covered by a layer. -/
theorem exists_breaks {front rest : List Char} {index offset : Nat}
    {lexemes : List Lexeme}
    (lexed : Lexed [] index offset (front ++ '\n' :: rest) lexemes) :
    ∃ layer, Breaks layer (front ++ '\n' :: rest) rest := by
  induction size : front.length using Nat.strongRecOn generalizing front index offset lexemes with
  | _ n ih =>
    subst size
    cases read : piece? (front ++ '\n' :: rest) with
    | some part =>
      obtain ⟨piece, tail⟩ := part
      obtain ⟨whole, nonempty⟩ := piece?_append read
      rcases split_at_lineFeed whole with ⟨front', rfl, rfl⟩ | ⟨more, rfl, rfl⟩
      · have shorter : front'.length < (piece ++ front').length := by
          simpa using List.length_pos_iff.2 nonempty
        obtain ⟨layer, behind⟩ := ih _ shorter (lexed.of_piece? read) rfl
        exact ⟨layer, .hidden read behind⟩
      · obtain ⟨layer, covers⟩ := exists_layer read (by simp)
        exact ⟨layer, .here covers⟩
    | none =>
      cases lexed with
      | finish hidden =>
        rw [skip_of_none read] at hidden
        simp at hidden
      | @lexeme _ _ _ word tail kind lexemes position scanned others =>
        rw [skip_of_none read] at scanned
        obtain ⟨whole, nonempty⟩ := Token.scan?_append scanned
        rcases split_at_lineFeed whole with ⟨front', rfl, rfl⟩ | ⟨more, rfl, rfl⟩
        · have shorter : front'.length < (word ++ front').length := by
            simpa using List.length_pos_iff.2 nonempty
          obtain ⟨layer, behind⟩ := ih _ shorter others rfl
          exact ⟨layer, .token read scanned behind⟩
        · exact absurd (Token.inLine_scan? scanned '\n' (by simp)) (by decide)

/-! ### Lexemes on both sides of a break -/

/-- The lexemes of a text `front ++ rest` in front of a break and behind it. -/
structure Split (layer : Layer) (offset : Nat) (front rest : List Char)
    (earlier later : List Lexeme) : Prop where
  before : ∀ lexeme ∈ earlier, lexeme.stop ≤ offset + byteSize front
  behind : ∀ lexeme ∈ later, offset + byteSize front ≤ lexeme.start
  reads : ∃ body tail, layer.resume? rest = some (body, tail) ∧
    ReadsAs tail (later.map (·.spelling))

/-- What is in front of a break is read as before when only some of the text behind
it is left, in which the layer goes on. -/
def Replays (layer : Layer) (front rest : List Char) (earlier : List Lexeme) : Prop :=
  ∀ {rest' body tail : List Char} {spellings : List (TokenKind × String)},
  rest' <:+ rest →
    layer.resume? rest' = some (body, tail) → ReadsAs tail spellings →
      ReadsAs (front ++ rest') (earlier.map (·.spelling) ++ spellings)

theorem ReadsAs.of_piece? {cs piece tail : List Char}
    {spellings : List (TokenKind × String)} (h : ReadsAs tail spellings)
    (read : piece? cs = some (piece, tail)) :
    ReadsAs cs spellings :=
  h.of_skip_eq (by rw [skip_of_some read])

theorem skip_dropWhile_isBlank (cs : List Char) :
    (skip (cs.dropWhile isBlank)).2 = (skip cs).2 := by
  have blank : ∀ c ∈ cs.takeWhile isBlank, isBlank c :=
    List.all_eq_true.1 List.all_takeWhile
  have whole := skip_blanks blank (cs.dropWhile isBlank)
  rw [List.takeWhile_append_dropWhile] at whole
  rw [whole]

section Step

variable {layer : Layer} {index offset : Nat} {cs piece front rest : List Char}
    {lexeme : Lexeme}
  {earlier later lexemes : List Lexeme}

/-- All lexemes stand behind a piece that covers the break. -/
theorem Split.of_read? {more tail : List Char}
    (read : layer.read? cs = some (front ++ '\n' :: more, tail))
    (lexed : Lexed [] index offset cs lexemes) :
    Split layer offset (front ++ ['\n']) (more ++ tail) [] lexemes := by
  have behind := lexed.of_piece? (Layer.piece?_of_read? read)
  refine ⟨by simp, fun lexeme member => ?_, more, tail, Layer.resume?_of_read? read,
    behind.readsAs⟩
  have start := (behind.start_mem lexeme member).1
  simp only [byteSize_append, byteSize_cons, byteSize_nil] at start ⊢
  omega

theorem Replays.of_read? {more tail : List Char}
    (read : layer.read? cs = some (front ++ '\n' :: more, tail)) :
    Replays layer (front ++ ['\n']) rest [] := by
  intro rest' body tail' spellings _ resumed reads
  have covered := Layer.read?_covered read rest'
  rw [resumed] at covered
  rw [List.append_assoc]
  exact reads.of_piece? (Layer.piece?_of_read? covered)

/-- The same lexemes in a text with more in front. -/
theorem Split.append (h : Split layer (offset + byteSize piece) front rest earlier later) :
    Split layer offset (piece ++ front) rest earlier later := by
  refine ⟨fun lexeme member => ?_, fun lexeme member => ?_, h.reads⟩
  · have := h.before lexeme member
    rw [byteSize_append]
    omega
  · have := h.behind lexeme member
    rw [byteSize_append]
    omega

theorem Split.cons (h : Split layer offset front rest earlier later)
    (first : lexeme.stop ≤ offset + byteSize front) :
    Split layer offset front rest (lexeme :: earlier) later :=
  ⟨List.forall_mem_cons.2 ⟨first, h.before⟩, h.behind, h.reads⟩

theorem Replays.of_piece? (h : Replays layer (front ++ ['\n']) rest earlier)
    (read : piece? cs = some (piece, front ++ '\n' :: rest)) :
    Replays layer (piece ++ (front ++ ['\n'])) rest earlier := by
  intro rest' body tail spellings shorter resumed reads
  have behind := h shorter resumed reads
  rw [List.append_assoc] at behind
  rw [List.append_assoc, List.append_assoc]
  exact behind.of_piece? (piece?_lineFeed read rest')

theorem Replays.of_scan? {read : List Char} {kind : TokenKind}
    (h : Replays layer (front ++ ['\n']) rest earlier) (visible : piece? cs = none)
    (scanned : Token.scan? cs = some (kind, read, front ++ '\n' :: rest))
    (spelled : lexeme.spelling = (kind, String.ofList read)) :
    Replays layer (read ++ (front ++ ['\n'])) rest (lexeme :: earlier) := by
  intro rest' body tail spellings shorter resumed reads
  have behind := h shorter resumed reads
  rw [List.append_assoc, List.singleton_append] at behind
  have hides : piece? (read ++ (front ++ '\n' :: rest')) = none := by
    rw [← List.append_assoc]
    refine piece?_eq_none_lineFeed ?_ shorter
    rwa [List.append_assoc, (Token.scan?_append scanned).1]
  rw [List.append_assoc, List.append_assoc, List.singleton_append, List.map_cons, spelled]
  refine .token ?_ behind
  rw [skip_of_none hides]
  exact Token.scan?_lineFeed scanned rest'

end Step

/-- A break parts the lexemes of a text. What is in front of it is read up to the
break whatever is left behind. -/
theorem Breaks.exists_split {layer : Layer} {cs rest : List Char}
    (h : Breaks layer cs rest) {index offset : Nat} {lexemes : List Lexeme}
    (lexed : Lexed [] index offset cs lexemes) :
    ∃ front earlier later, cs = front ++ ['\n'] ++ rest ∧ lexemes = earlier ++ later ∧
      Split layer offset (front ++ ['\n']) rest earlier later ∧
      Replays layer (front ++ ['\n']) rest earlier := by
  induction h generalizing index offset lexemes with
  | @here cs front more tail read =>
    exact ⟨front, [], lexemes, by simp [Layer.append_of_read? read], rfl, .of_read? read lexed,
      Replays.of_read? read⟩
  | @hidden cs piece tail rest read _ ih =>
    obtain ⟨front, earlier, later, rfl, rfl, split, replays⟩ := ih (lexed.of_piece? read)
    rw [List.append_assoc] at read
    refine ⟨piece ++ front, earlier, later, by simp [← (piece?_append read).1], rfl, ?_⟩
    rw [List.append_assoc]
    exact ⟨split.append, Replays.of_piece? @replays read⟩
  | @token cs read tail rest kind visible scanned _ ih =>
    cases lexed with
    | finish hidden =>
      rw [skip_of_none visible] at hidden
      cases hidden
      cases scanned
    | lexeme position scanned' others =>
      simp only [skip_of_none visible, byteSize_nil, Nat.add_zero] at scanned' others ⊢
      cases scanned.symm.trans scanned'
      obtain ⟨front, earlier, later, rfl, rfl, split, replays⟩ := ih others
      rw [List.append_assoc] at scanned
      refine ⟨read ++ front, _ :: earlier,
        later, by simp [← (Token.scan?_append scanned).1], rfl, ?_⟩
      rw [List.append_assoc]
      refine ⟨split.append.cons ?_, Replays.of_scan? @replays visible scanned rfl⟩
      simp only [byteSize_append]
      omega

/-! ### Breaks at the ends of a line -/

section Line

variable {layer : Layer} {cs rest : List Char} {index offset : Nat}
    {lexemes : List Lexeme}

theorem resume_blanks (reads : ReadsAs cs (lexemes.map (·.spelling))) :
    ∃ body tail, Layer.resume? .blanks cs = some (body, tail) ∧
      ReadsAs tail (lexemes.map (·.spelling)) :=
  ⟨_, _, rfl, reads.of_skip_eq (skip_dropWhile_isBlank cs)⟩

/-- A line that is not at the end of the text starts at a break. -/
theorem LineBreak.exists_start (h : LineBreak layer cs rest) (nonempty : rest ≠ [])
    (lexed : Lexed [] index offset cs lexemes) :
    ∃ front earlier later, cs = front ++ rest ∧ lexemes = earlier ++ later ∧
      Split layer offset front rest earlier later ∧ Replays layer front rest earlier := by
  rcases h with breaks | ⟨rfl, rfl⟩ | ⟨-, rfl⟩
  · obtain ⟨front, parts⟩ := breaks.exists_split lexed
    exact ⟨front ++ ['\n'], parts⟩
  · have behind : ∀ lexeme ∈ lexemes, offset ≤ lexeme.start :=
      fun lexeme member => (lexed.start_mem lexeme member).1
    refine ⟨[], [], lexemes, rfl, rfl, ⟨by simp, behind, resume_blanks lexed.readsAs⟩, ?_⟩
    intro rest' body tail spellings _ resumed reads
    cases resumed
    exact reads.of_skip_eq (skip_dropWhile_isBlank rest').symm
  · exact absurd rfl nonempty

/-- A line ends at a break. At the end of the text there is nothing left to go on
with. -/
theorem LineBreak.exists_stop (h : LineBreak layer cs rest)
    (lexed : Lexed [] index offset cs lexemes) :
    ∃ front earlier later, cs = front ++ rest ∧ lexemes = earlier ++ later ∧
      Split layer offset front rest earlier later := by
  by_cases finished : layer ≠ .comment ∧ rest = []
  · obtain ⟨noComment, rfl⟩ := finished
    have resumed : layer.resume? [] = some ([], []) := by
      cases layer with
      | blanks => rfl
      | comment => exact absurd rfl noComment
      | directive => rfl
    exact ⟨cs, lexemes, [], by simp, by simp, lexed.stop_le, by simp, [], [], resumed,
      .finish (List.append_eq_nil_iff.1 (skip_append [])).2⟩
  · rcases h with breaks | ⟨rfl, rfl⟩ | ended
    · obtain ⟨front, earlier, later, text, same, split, -⟩ := breaks.exists_split lexed
      exact ⟨front ++ ['\n'], earlier, later, text, same, split⟩
    · have nonempty : rest ≠ [] := fun empty => finished ⟨by decide, empty⟩
      obtain ⟨front, earlier, later, text, same, split, -⟩ :=
        LineBreak.exists_start (.inr (.inl ⟨rfl, rfl⟩)) nonempty lexed
      exact ⟨front, earlier, later, text, same, split⟩
    · exact absurd ended finished

end Line

/-- The lexemes that do not stand in a range of bytes are those in front of it and
those behind it. -/
theorem filter_outside {start stop : Nat} {earlier later earlier' later' : List Lexeme}
    (same : earlier ++ later = earlier' ++ later')
    (ascending : ∀ lexeme ∈ earlier ++ later, lexeme.start < lexeme.stop)
    (le : start ≤ stop) (before : ∀ lexeme ∈ earlier, lexeme.stop ≤ start)
    (behind : ∀ lexeme ∈ later, start ≤ lexeme.start)
    (before' : ∀ lexeme ∈ earlier', lexeme.stop ≤ stop)
    (behind' : ∀ lexeme ∈ later', stop ≤ lexeme.start) :
    (earlier ++ later).filter (fun lexeme => lexeme.stop ≤ start ∨ stop ≤ lexeme.start) =
      earlier ++ later' := by
  have front : earlier.filter (fun lexeme => lexeme.stop ≤ start ∨ stop ≤ lexeme.start) = earlier :=
    List.filter_eq_self.2 fun lexeme member =>
      decide_eq_true (.inl (before lexeme member))
  have back : later'.filter (fun lexeme => lexeme.stop ≤ start ∨ stop ≤ lexeme.start) =
      later' :=
    List.filter_eq_self.2 fun lexeme member =>
      decide_eq_true (.inr (behind' lexeme member))
  rcases List.append_eq_append_iff.1 same with ⟨middle, rfl, rfl⟩ | ⟨middle, rfl, rfl⟩
  · have none : middle.filter (fun lexeme => lexeme.stop ≤ start ∨ stop ≤ lexeme.start) = [] := by
      refine List.filter_eq_nil_iff.2 fun lexeme member outside => ?_
      have longer := ascending lexeme (by simp [member])
      have := behind lexeme (by simp [member])
      have := before' lexeme (by simp [member])
      rcases of_decide_eq_true outside with _ | _ <;> omega
    rw [List.filter_append, List.filter_append, front, none, back, List.nil_append]
  · have empty : middle = [] := by
      refine List.eq_nil_iff_forall_not_mem.2 fun lexeme member => ?_
      have longer := ascending lexeme (by simp [member])
      have := before lexeme (by simp [member])
      have := behind' lexeme (by simp [member])
      omega
    subst empty
    rw [List.nil_append] at back ⊢
    rw [List.filter_append, front, back]

/-! ### Lines -/

theorem ne_nil_of_isVersionLine {line : List Char} (h : isVersionLine line) :
    line ≠ [] := by
  rintro rfl
  exact absurd h (by decide)

/-- Without a version line nothing is taken out. -/
theorem stripVersion_of_none {source : String}
    (h : ∀ line ∈ lines source.toList, isVersionLine line = false) :
    stripVersion source = source := by
  rw [stripVersion, List.eraseP_of_forall_not (by simpa using h), flatten_lines,
    String.ofList_toList]

theorem stripVersion_of_lines {source : String} {earlier later : List (List Char)}
    {line : List Char} (cut : lines source.toList = earlier ++ line :: later)
    (first : ∀ line ∈ earlier, isVersionLine line = false)
    (isVersion : isVersionLine line) :
    stripVersion source = String.ofList (earlier.flatten ++ later.flatten) := by
  rw [stripVersion, cut, List.eraseP_append_right _ (by simpa using first),
    List.eraseP_cons_of_pos isVersion, List.flatten_append]

/-- Every line but the last ends in a line feed. -/
theorem getLast?_of_lines {cs line next : List Char} {earlier later : List (List Char)}
    (cut : lines cs = earlier ++ line :: next :: later) : line.getLast? = some '\n' := by
  induction cs generalizing earlier line with
  | nil => simp [lines] at cut
  | cons c cs ih =>
    rw [lines] at cut
    split at cut
    · rename_i isFeed
      cases earlier with
      | nil =>
        obtain ⟨rfl, -⟩ := List.cons.inj cut
        rw [isFeed]
        rfl
      | cons first earlier => exact ih (List.cons.inj cut).2
    · split at cut
      · have short := congrArg List.length cut
        simp at short
        omega
      · rename_i inner others found
        cases earlier with
        | nil =>
          obtain ⟨rfl, rfl⟩ := List.cons.inj cut
          have last := @ih inner [] (by simpa using found)
          rw [List.getLast?_cons, last]
          rfl
        | cons first earlier =>
          obtain ⟨-, rfl⟩ := List.cons.inj cut
          exact @ih line (inner :: earlier) (by simpa using found)

/-- A line that is one directive: blanks, a hash sign and what follows it up to the
end of the line, which no backslash carries on. -/
def IsDirectiveLine (line : List Char) : Prop :=
  ∃ gap body ending, line = gap ++ '#' :: (body ++ ending) ∧ (∀ c ∈ gap, isBlank c) ∧
    (∀ c ∈ body, ! isLineEnd c) ∧ body.getLast? ≠ some '\\' ∧
    ending ∈ [[], ['\n'], ['\r', '\n']]

theorem directiveBody_line {body rest : List Char} (inLine : ∀ c ∈ body, ! isLineEnd c)
    (ends : body.getLast? ≠ some '\\') (stops : Stops (! isLineEnd ·) rest) :
    directiveBody (body ++ rest) = (body, rest) := by
  induction body with
  | nil =>
    cases rest with
    | nil => rfl
    | cons c rest => exact directiveBody_lineEnd (by simpa using stops c rfl) rest
  | cons c body ih =>
    obtain ⟨own, others⟩ := List.forall_mem_cons.1 inLine
    have inside : isLineEnd c = false := by simpa using own
    -- A backslash has a character of the directive behind it.
    have apart : c = '\\' → ∃ d body', body = d :: body' ∧ isLineEnd d = false := by
      rintro rfl
      cases body with
      | nil => exact absurd rfl ends
      | cons d body => exact ⟨d, body, rfl, by simpa using others d List.mem_cons_self⟩
    have later : body.getLast? ≠ some '\\' := by
      cases body with
      | nil => simp
      | cons d body => simpa using ends
    rw [List.cons_append, directiveBody, if_neg (by simp [inside]), ih others later]
    · intro tail isSlash shape
      obtain ⟨d, body', rfl, notEnd⟩ := apart isSlash
      obtain ⟨rfl, -⟩ := List.cons.inj shape
      exact absurd notEnd (by decide)
    · intro tail isSlash shape
      obtain ⟨d, body', rfl, notEnd⟩ := apart isSlash
      obtain ⟨rfl, -⟩ := List.cons.inj shape
      exact absurd notEnd (by decide)

/-- A line that is one directive is hidden. -/
theorem skip_directiveLine {line rest : List Char} (h : IsDirectiveLine line)
    (ended : line.getLast? = some '\n' ∨ rest = []) :
    (skip (line ++ rest)).2 = (skip rest).2 := by
  obtain ⟨gap, body, ending, rfl, blank, inLine, ends, listed⟩ := h
  have marks : ending = [] ∨ ending = ['\n'] ∨ ending = ['\r', '\n'] := by
    simpa using listed
  have blanks : ∀ c ∈ ending, isBlank c := by
    rw [← List.all_eq_true]
    rcases marks with rfl | rfl | rfl <;> decide
  have stops : Stops (! isLineEnd ·) (ending ++ rest) := by
    rcases marks with rfl | rfl | rfl
    · rcases ended with last | rfl
      · have last : body.getLast?.getD '#' = '\n' := by
          simpa [List.getLast?_cons] using last
        cases found : body.getLast? with
        | none => simp [found] at last
        | some c =>
          obtain rfl : c = '\n' := by simpa [found] using last
          exact absurd (inLine '\n' (List.mem_of_getLast? found)) (by decide)
      · nofun
    · rintro _ ⟨⟩
      decide
    · rintro _ ⟨⟩
      decide
  have read : piece? ('#' :: (body ++ (ending ++ rest))) =
      some ('#' :: body, ending ++ rest) := by
    rw [piece?_hash, directive?, directiveBody_line inLine ends stops]
  have text : gap ++ '#' :: (body ++ ending) ++ rest =
      gap ++ '#' :: (body ++ (ending ++ rest)) := by
    simp
  rw [text, skip_blanks blank, skip_of_some read, skip_blanks blanks]

/-! ### The tokens of the text that is left -/

section Strip

variable {cs before line after : List Char} {lexemes : List Lexeme}

/-- The text without a line that starts and ends in one layer has the tokens in
front of the line and those behind it. -/
theorem exists_outside (lexed : Lexed [] 0 0 (before ++ (line ++ after)) lexemes)
    (ascending : ∀ lexeme ∈ lexemes, lexeme.start < lexeme.stop) (nonempty : line ≠ [])
    {layer : Layer} (starts : LineBreak layer (before ++ (line ++ after)) (line ++ after))
    (stops : LineBreak layer (before ++ (line ++ after)) after) :
    ReadsAs (before ++ after)
      ((lexemes.filter fun lexeme => lexeme.stop ≤ byteSize before ∨
        byteSize before + byteSize line ≤ lexeme.start).map (·.spelling)) := by
  obtain ⟨front, earlier, later, text, rfl, split, replays⟩ :=
    starts.exists_start (by simp [nonempty]) lexed
  obtain ⟨front', earlier', later', text', same, split'⟩ := stops.exists_stop lexed
  obtain rfl := List.append_cancel_right text
  obtain rfl : before ++ line = front' := by
    rw [← List.append_assoc] at text'
    exact List.append_cancel_right text'
  obtain ⟨body, tail, resumed, reads⟩ := split'.reads
  have size : byteSize (before ++ line) = byteSize before + byteSize line :=
    byteSize_append _ _
  rw [filter_outside same ascending (Nat.le_add_right _ _) (by simpa using split.before)
    (by simpa using split.behind) (by simpa [size] using split'.before)
    (by simpa [size] using split'.behind), List.map_append]
  exact replays (List.suffix_append line after) resumed reads

/-- The text without a line of its own for a directive has all tokens. -/
theorem readsAs_without_directiveLine
    (lexed : Lexed [] 0 0 (before ++ (line ++ after)) lexemes) (nonempty : line ≠ [])
    (starts : LineBreak .blanks (before ++ (line ++ after)) (line ++ after))
    (isDirective : IsDirectiveLine line)
    (ended : line.getLast? = some '\n' ∨ after = []) :
    ReadsAs (before ++ after) (lexemes.map (·.spelling)) := by
  obtain ⟨front, earlier, later, text, rfl, split, replays⟩ :=
    starts.exists_start (by simp [nonempty]) lexed
  obtain rfl := List.append_cancel_right text
  obtain ⟨body, tail, resumed, reads⟩ := split.reads
  cases resumed
  rw [List.map_append]
  refine replays (List.suffix_append line after) rfl (reads.of_skip_eq ?_)
  rw [skip_dropWhile_isBlank, skip_dropWhile_isBlank, skip_directiveLine isDirective ended]

end Strip

/-- A line of a text that can be cut starts in a layer. -/
theorem exists_lineBreak {cs : List Char} {earlier later : List (List Char)}
    {index offset : Nat} {lexemes : List Lexeme}
    (lexed : Lexed [] index offset cs lexemes)
    (cut : lines cs = earlier ++ later) : ∃ layer, LineBreak layer cs later.flatten := by
  have text : cs = earlier.flatten ++ later.flatten := by
    rw [← List.flatten_append, ← cut, flatten_lines]
  rcases List.eq_nil_or_concat earlier with rfl | ⟨others, last, rfl⟩
  · exact ⟨.blanks, .inr (.inl ⟨rfl, text.symm⟩)⟩
  · cases later with
    | nil => exact ⟨.blanks, .inr (.inr ⟨by decide, rfl⟩)⟩
    | cons line later =>
      have feed := @getLast?_of_lines cs last line others later (by simpa using cut)
      obtain ⟨front, rfl⟩ := List.getLast?_eq_some_iff.1 feed
      have shape : cs = others.flatten ++ front ++ '\n' :: (line :: later).flatten := by
        simpa using text
      rw [shape] at lexed ⊢
      obtain ⟨layer, breaks⟩ := exists_breaks lexed
      exact ⟨layer, .inl breaks⟩

/-- Taking out the first version line of a text that can be cut. The line starts in
some layer of hidden text and ends in some layer. If they are the same, what is left
can be cut, and it has the tokens that do not stand in the line; so it has the same
tokens exactly when none does. This is so for a directive on a line of its own that
stands in no comment and no other directive. -/
theorem stripVersion_keeps_tokens {source : String} {stream : TokenStream}
    (cut : TokenStream.ofSource source = .ok stream) :
    ((∀ line ∈ lines source.toList, isVersionLine line = false) →
      stripVersion source = source) ∧
    ∀ (earlier later : List (List Char)) (line : List Char),
      lines source.toList = earlier ++ line :: later →
      (∀ line ∈ earlier, isVersionLine line = false) → isVersionLine line = true →
      stripVersion source = String.ofList (earlier.flatten ++ later.flatten) ∧
      (∃ layer layer', LineBreak layer source.toList (line ++ later.flatten) ∧
        LineBreak layer' source.toList later.flatten) ∧
      (∀ layer, LineBreak layer source.toList (line ++ later.flatten) →
        LineBreak layer source.toList later.flatten →
        ∃ stripped, TokenStream.ofSource (stripVersion source) = .ok stripped ∧
          stripped.tokens.map Token.spelling =
            (stream.lexemes.filter fun lexeme => lexeme.stop ≤ byteSize earlier.flatten ∨
              byteSize earlier.flatten + byteSize line ≤ lexeme.start).map (·.spelling) ∧
          (stripped.tokens.map Token.spelling = stream.tokens.map Token.spelling ↔
            ∀ lexeme ∈ stream.lexemes, lexeme.stop ≤ byteSize earlier.flatten ∨
              byteSize earlier.flatten + byteSize line ≤ lexeme.start)) ∧
      (LineBreak .blanks source.toList (line ++ later.flatten) → IsDirectiveLine line →
        ∃ stripped, TokenStream.ofSource (stripVersion source) = .ok stripped ∧
          stripped.tokens.map Token.spelling = stream.tokens.map Token.spelling) := by
  have lexed := TokenStream.lexed_of_ofSource cut
  have tokens : stream.tokens.map Token.spelling = stream.lexemes.map (·.spelling) := by
    rw [TokenStream.tokens, List.map_map]
    rfl
  refine ⟨stripVersion_of_none, fun earlier later line split first isVersion => ?_⟩
  have text : source.toList = earlier.flatten ++ (line ++ later.flatten) := by
    rw [← flatten_lines source.toList, split, List.flatten_append, List.flatten_cons]
  have stripped := stripVersion_of_lines split first isVersion
  have nonempty := ne_nil_of_isVersionLine isVersion
  refine ⟨stripped, ?_, fun layer starts stops => ?_, fun starts isDirective => ?_⟩
  · obtain ⟨layer, starts⟩ := exists_lineBreak lexed split
    have split' : lines source.toList = (earlier ++ [line]) ++ later := by
      simpa using split
    obtain ⟨layer', stops⟩ := exists_lineBreak lexed split'
    exact ⟨layer, layer', by simpa using starts, stops⟩
  · have ascending : ∀ lexeme ∈ stream.lexemes, lexeme.start < lexeme.stop :=
      fun lexeme listed => (TokenStream.cutFrom_of_mem cut listed).ascending
    rw [text] at lexed starts stops
    obtain ⟨left, found, same⟩ :=
      TokenStream.exists_ofSource (exists_outside lexed ascending nonempty starts stops)
    refine ⟨left, stripped ▸ found, same, ?_⟩
    rw [same, tokens]
    constructor
    · intro all
      have full := congrArg List.length all
      rw [List.length_map, List.length_map, List.length_filter_eq_length_iff] at full
      exact fun lexeme listed => of_decide_eq_true (full lexeme listed)
    · intro all
      rw [List.filter_eq_self.2 fun lexeme listed => decide_eq_true (all lexeme listed)]
  · have ended : line.getLast? = some '\n' ∨ later.flatten = [] := by
      cases later with
      | nil => exact .inr rfl
      | cons next later => exact .inl (getLast?_of_lines split)
    rw [text] at lexed starts
    obtain ⟨left, found, same⟩ := TokenStream.exists_ofSource
      (readsAs_without_directiveLine lexed nonempty starts isDirective ended)
    exact ⟨left, stripped ▸ found, same.trans tokens.symm⟩

/-- A version directive on a line of its own, and one that is commented out. -/
theorem stripVersion_keeps_tokens_header :
    (∃ stream stripped,
      TokenStream.ofSource "// header\n  #version\t330 core\r\nvoid f();" = .ok stream ∧
      TokenStream.ofSource "// header\nvoid f();" = .ok stripped ∧
      stripped.tokens.map Token.spelling = stream.tokens.map Token.spelling) ∧
    ∃ stream stripped,
      TokenStream.ofSource "/* was\n#version 120\n*/ float x;" = .ok stream ∧
      TokenStream.ofSource "/* was\n*/ float x;" = .ok stripped ∧
      stripped.tokens.map Token.spelling = stream.tokens.map Token.spelling := by
  constructor
  · have read : (TokenStream.ofSource "// header\n  #version\t330 core\r\nvoid f();").toOption.map
        (·.lexemes.length) = some 5 := by
      decide +kernel
    obtain ⟨stream, cut, -⟩ := exists_of_map_toOption read
    obtain ⟨text, -, -, keeps⟩ := (stripVersion_keeps_tokens cut).2 ["// header\n".toList]
      ["void f();".toList] "  #version\t330 core\r\n".toList (by decide +kernel)
      (List.forall_mem_singleton.2 (by decide +kernel)) (by decide +kernel)
    have starts : Breaks .blanks "// header\n  #version\t330 core\r\nvoid f();".toList
        ([' ', ' '] ++ "#version\t330 core\r\nvoid f();".toList) :=
      .hidden (by decide +kernel : piece? _ = some ("// header".toList,
        "\n  #version\t330 core\r\nvoid f();".toList))
        (.here (by decide +kernel : Layer.read? .blanks _ = some ([] ++ '\n' :: [' ', ' '],
          "#version\t330 core\r\nvoid f();".toList)))
    obtain ⟨stripped, found, same⟩ := keeps (.inl starts)
      ⟨[' ', ' '], "version\t330 core".toList, ['\r', '\n'], by decide +kernel,
        List.all_eq_true.1 (by decide +kernel), List.all_eq_true.1 (by decide +kernel),
        by decide +kernel, by decide⟩
    exact ⟨stream, stripped, cut, by rwa [text] at found, same⟩
  · have read : (TokenStream.ofSource "/* was\n#version 120\n*/ float x;").toOption.map
        (·.lexemes.all fun lexeme => decide (lexeme.stop ≤ 7 ∨ 20 ≤ lexeme.start)) =
          some true := by
      decide +kernel
    obtain ⟨stream, cut, outside⟩ := exists_of_map_toOption read
    obtain ⟨text, -, keeps, -⟩ := (stripVersion_keeps_tokens cut).2 ["/* was\n".toList]
      ["*/ float x;".toList] "#version 120\n".toList (by decide +kernel)
      (List.forall_mem_singleton.2 (by decide +kernel)) (by decide +kernel)
    have starts : Breaks .comment "/* was\n#version 120\n*/ float x;".toList
        ("#version 120\n*/".toList ++ " float x;".toList) :=
      .here (by decide +kernel : Layer.read? .comment _ = some ("/* was".toList ++ '\n' ::
        "#version 120\n*/".toList, " float x;".toList))
    have stops : Breaks .comment "/* was\n#version 120\n*/ float x;".toList
        ("*/".toList ++ " float x;".toList) :=
      .here (by decide +kernel : Layer.read? .comment _ =
        some ("/* was\n#version 120".toList ++ '\n' :: "*/".toList, " float x;".toList))
    obtain ⟨stripped, found, -, same⟩ := keeps .comment (.inl starts) (.inl stops)
    refine ⟨stream, stripped, cut, by rwa [text] at found, same.2 fun lexeme listed => ?_⟩
    exact of_decide_eq_true (List.all_eq_true.1 outside lexeme listed)

/-- The line with the end of a comment is taken out, and the comment is open: its
text becomes tokens. -/
theorem stripVersion_comment_end :
    stripVersion "/* was:\n#version 120 */\nvoid main() \x7b\x7d\n" =
      "/* was:\nvoid main() \x7b\x7d\n" ∧
    (TokenStream.ofSource "/* was:\n#version 120 */\nvoid main() \x7b\x7d\n").toOption.map
      (·.tokens.map Token.text) = some ["void", "main", "(", ")", "\x7b", "\x7d"] ∧
    (TokenStream.ofSource "/* was:\nvoid main() \x7b\x7d\n").toOption.map
      (·.tokens.map Token.text) =
      some ["/", "*", "was", ":", "void", "main", "(", ")", "\x7b", "\x7d"] := by
  decide +kernel

end ShaderDialect
