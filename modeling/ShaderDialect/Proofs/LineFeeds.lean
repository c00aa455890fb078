import ShaderDialect.Proofs.SignatureLines
import ShaderDialect.Proofs.SpacedTokens

/-!
# Line feeds in a text

A line feed stands in no token. It stands in a run of blanks, in a comment or in
a directive, and what covers it decides how the text behind it is read. All that
is read in front of it stays the same when the text behind it changes, as long as
no comment is closed by the change.
-/

namespace ShaderDialect

namespace Hidden

/-! ### Pieces in front of a line feed -/

section Front

variable {cs piece front rest : List Char}

theorem head?_append_lineFeed (front rest rest' : List Char) :
    (front ++ '\n' :: rest').head? = (front ++ '\n' :: rest).head? := by
  cases front <;> rfl

theorem stops_append_lineFeed {p : Char → Bool} (h : Stops p (front ++ '\n' :: rest))
    (rest' : List Char) : Stops p (front ++ '\n' :: rest') := by
  rw [Stops, head?_append_lineFeed front rest rest']
  exact h

theorem endsLine_append_lineFeed (front rest rest' : List Char) :
    endsLine (front ++ '\n' :: rest') = endsLine (front ++ '\n' :: rest) := by
  cases front with
  | nil => rfl
  | cons c front =>
    by_cases isReturn : c = '\r'
    · subst isReturn
      rw [List.cons_append, List.cons_append, endsLine_return, endsLine_return,
        head?_append_lineFeed front rest rest']
    · rw [List.cons_append, List.cons_append, endsLine_cons isReturn,
        endsLine_cons isReturn]

/-! The first characters tell what hidden text there can be. -/

theorem piece?_of_blanks? {part : List Char × List Char} (h : blanks? cs = some part) :
    piece? cs = some part := by
  simp [piece?, h]

theorem piece?_slashes (text : List Char) :
    piece? ('/' :: '/' :: text) = lineComment? ('/' :: '/' :: text) := by
  have noBlanks : blanks? ('/' :: '/' :: text) = none := rfl
  simp [piece?, noBlanks, blockComment?, directive?]

theorem piece?_slashStar (text : List Char) :
    piece? ('/' :: '*' :: text) = blockComment? ('/' :: '*' :: text) := by
  have noBlanks : blanks? ('/' :: '*' :: text) = none := rfl
  simp [piece?, noBlanks, lineComment?, directive?]

theorem piece?_hash (text : List Char) :
    piece? ('#' :: text) = directive? ('#' :: text) := by
  have noBlanks : blanks? ('#' :: text) = none := rfl
  simp [piece?, noBlanks, lineComment?, blockComment?]

theorem piece?_lineComment_lineFeed
    (h : lineComment? cs = some (piece, front ++ '\n' :: rest)) (rest' : List Char) :
    piece? (piece ++ (front ++ '\n' :: rest')) =
      some (piece, front ++ '\n' :: rest') := by
  obtain ⟨body, rfl, inLine, stops, ends⟩ := lineComment?_eq_some h
  have stops' := stops_append_lineFeed stops rest'
  rw [← endsLine_append_lineFeed front rest rest'] at ends
  rw [List.cons_append, List.cons_append, piece?_slashes, lineComment?_slashes,
    stops'.takeWhile_append inLine, stops'.dropWhile_append inLine, if_pos ends]

theorem exists_returnFeed {rest' tail' : List Char}
    (h : front ++ '\n' :: rest' = '\r' :: '\n' :: tail') (rest : List Char) :
    ∃ tail, front ++ '\n' :: rest = '\r' :: '\n' :: tail := by
  rcases front with _ | ⟨c, _ | ⟨d, front⟩⟩
  · cases h
  · cases h
    exact ⟨rest, rfl⟩
  · cases h
    exact ⟨front ++ '\n' :: rest, rfl⟩

theorem piece?_directive_lineFeed
    (h : directive? cs = some (piece, front ++ '\n' :: rest)) (rest' : List Char) :
    piece? (piece ++ (front ++ '\n' :: rest')) =
      some (piece, front ++ '\n' :: rest') := by
  unfold directive? at h
  split at h
  · rename_i text
    obtain ⟨rfl, behind⟩ := Prod.mk.inj (Option.some.inj h)
    have read := @directiveBody_append_right text (front ++ '\n' :: rest')
      (by rw [behind, head?_append_lineFeed front rest rest'])
      fun _ shape => behind ▸ exists_returnFeed shape rest
    rw [List.cons_append, piece?_hash, directive?, read]
  · cases h

theorem piece?_blockComment_append (h : blockComment? cs = some (piece, rest))
    (rest' : List Char) :
    piece? (piece ++ rest') = some (piece, rest') := by
  have again := blockComment?_edited h rest'
  unfold blockComment? at h
  split at h
  · obtain ⟨part, -, same⟩ := Option.map_eq_some_iff.1 h
    cases same
    rwa [List.cons_append, List.cons_append, piece?_slashStar]
  · cases h

/-- A piece of hidden text in front of a line feed is read whatever comes behind
the line feed. -/
theorem piece?_lineFeed (h : piece? cs = some (piece, front ++ '\n' :: rest))
    (rest' : List Char) :
    piece? (piece ++ (front ++ '\n' :: rest')) =
      some (piece, front ++ '\n' :: rest') := by
  simp only [piece?, Option.or_eq_some_iff] at h
  rcases h with ((h | ⟨-, h⟩) | ⟨-, h⟩) | ⟨-, h⟩
  · obtain ⟨-, nonempty, blank, stops⟩ := Literal.run?_eq_some (p := isBlank) h
    exact piece?_of_blanks?
      (Literal.run?_append_of_stops nonempty blank (stops_append_lineFeed stops rest'))
  · exact piece?_lineComment_lineFeed h rest'
  · exact piece?_blockComment_append h _
  · exact piece?_directive_lineFeed h rest'

theorem blockEnd?_eq_none_lineFeed {rest' : List Char}
    (h : blockEnd? (front ++ '\n' :: rest) = none)
    (shorter : rest' <:+ rest) : blockEnd? (front ++ '\n' :: rest') = none := by
  induction front with
  | nil =>
    obtain ⟨removed, rfl⟩ := shorter
    have behind := (blockEnd?_cons_eq_none.1 h).2
    exact blockEnd?_cons_eq_none.2 ⟨by simp, blockEnd?_eq_none_of_append behind⟩
  | cons c front ih =>
    rw [List.cons_append, blockEnd?_cons_eq_none] at h ⊢
    rw [head?_append_lineFeed front rest rest']
    exact ⟨h.1, ih h.2⟩

theorem lineComment?_eq_none_lineFeed
    (h : lineComment? ('/' :: '/' :: (front ++ '\n' :: rest)) = none)
    (rest' : List Char) :
    lineComment? ('/' :: '/' :: (front ++ '\n' :: rest')) = none := by
  rw [lineComment?_slashes, dropWhile_append_cons front _ (by decide)] at h ⊢
  rw [endsLine_append_lineFeed _ rest rest']
  split at h
  · cases h
  · rename_i goesOn
    rw [if_neg goesOn]

theorem blockComment?_eq_none_lineFeed {rest' : List Char}
    (h : blockComment? ('/' :: '*' :: (front ++ '\n' :: rest)) = none)
    (shorter : rest' <:+ rest) :
    blockComment? ('/' :: '*' :: (front ++ '\n' :: rest')) = none := by
  rw [blockComment?, Option.map_eq_none_iff] at h ⊢
  exact blockEnd?_eq_none_lineFeed h shorter

/-- Where no hidden text begins, none does when some of the text behind a line
feed is taken away. -/
theorem piece?_eq_none_lineFeed {rest' : List Char}
    (h : piece? (front ++ '\n' :: rest) = none)
    (shorter : rest' <:+ rest) : piece? (front ++ '\n' :: rest') = none := by
  cases front with
  | nil =>
    rw [List.nil_append, piece?_blank (by decide)] at h
    cases h
  | cons c front =>
    rw [List.cons_append] at h ⊢
    have notBlank : isBlank c = false := by
      refine Bool.eq_false_iff.2 fun blank => ?_
      rw [piece?_blank blank] at h
      cases h
    have notHash : c ≠ '#' := by
      rintro rfl
      rw [piece?_hash] at h
      cases h
    by_cases slash : c = '/'
    · subst slash
      rcases front with _ | ⟨d, front⟩
      · refine piece?_eq_none_of_front notBlank notHash fun _ => ?_
        rintro _ ⟨⟩
        decide
      · rw [List.cons_append] at h ⊢
        by_cases isLine : d = '/'
        · subst isLine
          rw [piece?_slashes] at h ⊢
          exact lineComment?_eq_none_lineFeed h rest'
        by_cases isBlock : d = '*'
        · subst isBlock
          rw [piece?_slashStar] at h ⊢
          exact blockComment?_eq_none_lineFeed h shorter
        refine piece?_eq_none_of_front notBlank notHash fun _ => ?_
        rintro _ ⟨⟩
        simp [isLine, isBlock]
    · exact piece?_eq_none_of_front notBlank notHash fun isSlash => absurd isSlash slash

end Front

/-! ### What covers a line feed -/

/-- Hidden text in which a line feed can stand. -/
inductive Layer where
  | blanks
  | comment
  | directive
deriving DecidableEq

namespace Layer

/-- One piece of a layer at the front of a text. -/
def read? : Layer → List Char → Option (List Char × List Char)
  | .blanks, cs => blanks? cs
  | .comment, cs => blockComment? cs
  | .directive, cs => directive? cs

/-- How a piece goes on behind a line feed that it covers. -/
def resume? : Layer → List Char → Option (List Char × List Char)
  | .blanks, cs => some (cs.takeWhile isBlank, cs.dropWhile isBlank)
  | .comment, cs => blockEnd? cs
  | .directive, cs => some (directiveBody cs)

theorem piece?_of_read? {layer : Layer} {cs : List Char} {part : List Char × List Char}
    (h : layer.read? cs = some part) : piece? cs = some part := by
  cases layer with
  | blanks => exact piece?_of_blanks? h
  | comment =>
    have whole := (blockComment?_append h).1
    have again := piece?_blockComment_append h part.2
    rwa [whole] at again
  | directive =>
    change directive? cs = some part at h
    unfold directive? at h
    split at h
    · rwa [piece?_hash]
    · cases h

end Layer

theorem blockEnd?_covered {cs front more tail : List Char}
    (h : blockEnd? cs = some (front ++ '\n' :: more, tail)) (rest : List Char) :
    blockEnd? (front ++ '\n' :: rest) =
      (blockEnd? rest).map fun part => (front ++ '\n' :: part.1, part.2) := by
  fun_induction blockEnd? cs generalizing front with
  | case1 cs =>
    have closes := congrArg (fun part => '\n' ∈ part.1) (Option.some.inj h)
    simp at closes
  | case2 c cs apart ih =>
    obtain ⟨⟨body, after⟩, found, same⟩ := Option.map_eq_some_iff.1 h
    obtain ⟨shape, rfl⟩ := Prod.mk.inj same
    cases front with
    | nil => exact blockEnd?_cons (by simp)
    | cons d front =>
      obtain ⟨rfl, rfl⟩ := List.cons.inj shape
      have open_ : ¬ (c = '*' ∧ (front ++ '\n' :: rest).head? = some '/') := by
        rintro ⟨rfl, slash⟩
        have text := blockEnd?_append found
        cases front with
        | nil => cases slash
        | cons d front =>
          cases slash
          exact apart _ rfl text.symm
      rw [List.cons_append, blockEnd?_cons open_, ih found, Option.map_map]
      rfl
  | case3 => cases h

theorem directiveBody_covered {cs front more : List Char}
    (h : (directiveBody cs).1 = front ++ '\n' :: more) (rest : List Char) :
    directiveBody (front ++ '\n' :: rest) =
      (front ++ '\n' :: (directiveBody rest).1, (directiveBody rest).2) := by
  fun_induction directiveBody cs generalizing front with
  | case1 cs body after found ih =>
    rw [found] at ih
    rcases front with _ | ⟨c, _ | ⟨d, _ | ⟨e, front⟩⟩⟩
    · cases h
    · cases h
    · cases h
      rfl
    · simp only [List.cons_append, List.cons.injEq] at h
      obtain ⟨rfl, rfl, rfl, h⟩ := h
      simp only [List.cons_append, directiveBody, ih h]
  | case2 cs body after found ih =>
    rw [found] at ih
    rcases front with _ | ⟨c, _ | ⟨d, front⟩⟩
    · cases h
    · cases h
      rfl
    · simp only [List.cons_append, List.cons.injEq] at h
      obtain ⟨rfl, rfl, h⟩ := h
      simp only [List.cons_append, directiveBody, ih h]
  | case3 c cs _ _ isEnd => simp at h
  | case4 c cs noReturn noFeed inLine body after found ih =>
    have text := directiveBody_append cs
    rw [found] at ih text
    cases front with
    | nil =>
      cases h
      exact absurd rfl inLine
    | cons d front =>
      obtain ⟨rfl, rfl⟩ := List.cons.inj h
      have text : cs = front ++ '\n' :: (more ++ after) := by simpa using text.symm
      rw [List.cons_append, directiveBody, if_neg inLine, ih rfl]
      · rfl
      · intro tail isSlash shape
        obtain ⟨tail', shape'⟩ := exists_returnFeed shape (more ++ after)
        exact noReturn tail' isSlash (text.trans shape')
      · intro tail isSlash shape
        have first := congrArg List.head? shape
        rw [head?_append_lineFeed front (more ++ after) rest, ← text] at first
        obtain ⟨tail', shape'⟩ := List.head?_eq_some_iff.1 first
        exact noFeed tail' isSlash shape'
  | case5 => simp at h

/-- A piece that covers a line feed is read up to it whatever comes behind, and
goes on from there. -/
theorem Layer.read?_covered {layer : Layer} {cs front more tail : List Char}
    (h : layer.read? cs = some (front ++ '\n' :: more, tail)) (rest : List Char) :
    layer.read? (front ++ '\n' :: rest) =
      (layer.resume? rest).map fun part => (front ++ '\n' :: part.1, part.2) := by
  cases layer with
  | blanks =>
    obtain ⟨-, -, blank, -⟩ := Literal.run?_eq_some (p := isBlank) h
    have before : ∀ c ∈ front, isBlank c :=
      fun c member => blank c (List.mem_append_left _ member)
    have feed : isBlank '\n' := by decide
    simp [read?, resume?, blanks?, List.takeWhile_append_of_pos before,
      List.dropWhile_append_of_pos before, feed]
  | comment =>
    change blockComment? cs = _ at h
    unfold blockComment? at h
    split at h
    · obtain ⟨⟨body, after⟩, found, same⟩ := Option.map_eq_some_iff.1 h
      obtain ⟨shape, rfl⟩ := Prod.mk.inj same
      rcases front with _ | ⟨c, _ | ⟨d, front⟩⟩
      · cases shape
      · cases shape
      · simp only [List.cons_append, List.cons.injEq] at shape
        obtain ⟨rfl, rfl, rfl⟩ := shape
        simp only [read?, resume?, List.cons_append, blockComment?,
          blockEnd?_covered found, Option.map_map]
        rfl
    · cases h
  | directive =>
    change directive? cs = _ at h
    unfold directive? at h
    split at h
    · obtain ⟨shape, -⟩ := Prod.mk.inj (Option.some.inj h)
      cases front with
      | nil => cases shape
      | cons c front =>
        obtain ⟨rfl, inside⟩ := List.cons.inj shape
        simp only [read?, resume?, List.cons_append, directive?,
          directiveBody_covered inside, Option.map_some]
    · cases h

theorem Layer.append_of_read? {layer : Layer} {cs front more tail : List Char}
    (h : layer.read? cs = some (front ++ '\n' :: more, tail)) :
    cs = front ++ '\n' :: (more ++ tail) := by
  simpa using (piece?_append (piece?_of_read? h)).1.symm

theorem Layer.resume?_of_read? {layer : Layer} {cs front more tail : List Char}
    (h : layer.read? cs = some (front ++ '\n' :: more, tail)) :
    layer.resume? (more ++ tail) = some (more, tail) := by
  have covered := read?_covered h (more ++ tail)
  rw [← append_of_read? h, h] at covered
  obtain ⟨⟨body, tail'⟩, resumed, same⟩ := Option.map_eq_some_iff.1 covered.symm
  simp only [Prod.mk.injEq, List.append_cancel_left_eq, List.cons.injEq, true_and] at same
  rw [resumed, same.1, same.2]

end Hidden

/-! ### Tokens in front of a line feed -/

theorem isPrefix_front {text front rest : List Char} (h : text <+: front ++ '\n' :: rest)
    (inLine : '\n' ∉ text) : text <+: front := by
  have cut : front ++ ['\n'] <+: front ++ '\n' :: rest := ⟨rest, by simp⟩
  rcases List.prefix_or_prefix_of_prefix h cut with inside | longer
  · rcases List.prefix_concat_iff.1 inside with rfl | inside
    · exact absurd (by simp) inLine
    · exact inside
  · exact absurd (longer.subset (by simp)) inLine

open Lexicon in
/-- A token in front of a line feed is cut whatever comes behind the line feed. -/
theorem Token.scan?_lineFeed {cs read front rest : List Char} {kind : TokenKind}
    (h : scan? cs = some (kind, read, front ++ '\n' :: rest)) (rest' : List Char) :
    scan? (read ++ (front ++ '\n' :: rest')) =
      some (kind, read, front ++ '\n' :: rest') := by
  have own := mem_ofKind_of_scan? h
  have longest := finds_scan? cs
  have found := finds_scan? (read ++ (front ++ '\n' :: rest'))
  rw [h] at longest
  cases scanned : scan? (read ++ (front ++ '\n' :: rest')) with
  | none =>
    rw [scanned] at found
    exact absurd (List.prefix_append _ _) (found read (mem_token_of_mem_ofKind own))
  | some part =>
    obtain ⟨kind', read', behind⟩ := part
    rw [scanned] at found
    obtain ⟨text, inside, longest'⟩ := found
    have le := longest' read (mem_token_of_mem_ofKind own) (List.prefix_append _ _)
    -- The token found stands in front of the line feed, so the text had it before.
    have ge : read'.length ≤ read.length := by
      refine longest.2.2 read' inside ?_
      have fits : read' <+: (read ++ front) ++ '\n' :: rest' := ⟨behind, by simp [text]⟩
      have inLine : '\n' ∉ read' := fun feed =>
        absurd (within_token read' inside '\n' feed) (by decide)
      obtain ⟨more, shape⟩ := isPrefix_front fits inLine
      rw [longest.1, ← List.append_assoc, ← shape, List.append_assoc]
      exact List.prefix_append _ _
    obtain ⟨rfl, rfl⟩ := List.append_inj text.symm (Nat.le_antisymm ge le)
    rw [kind_unique own (mem_ofKind_of_scan? scanned)]

end ShaderDialect
