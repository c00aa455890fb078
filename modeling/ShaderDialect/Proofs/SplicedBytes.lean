import ShaderDialect.Proofs.Splicing

/-!
# Splicing into any text

The lexemes of one source say where edits go, but the text that is edited may be
another one. Its characters may take several bytes each, so a lexeme may lie across
a character of the text or behind its end. Edits are spliced in exactly if no lexeme
does, and the first one that does is what the error names. The result is described
on bytes: planned ranges are replaced, from the last one to the first so that the
others stay where they are, and nothing else changes.
-/

namespace ShaderDialect

/-! ### Bytes of a text -/

/-- The bytes of a text. -/
def utf8 (text : String) : List UInt8 :=
  text.toByteArray.data.toList

/-- The bytes of some characters. -/
def encode (cs : List Char) : List UInt8 :=
  cs.flatMap String.utf8EncodeChar

@[simp] theorem encode_append (cs cs' : List Char) :
    encode (cs ++ cs') = encode cs ++ encode cs' :=
  List.flatMap_append

@[simp] theorem length_encode (cs : List Char) : (encode cs).length = byteSize cs := by
  induction cs with
  | nil => rfl
  | cons c cs ih =>
    rw [encode, List.flatMap_cons, List.length_append, String.length_utf8EncodeChar,
      ← encode, ih, byteSize_cons]

theorem utf8_eq_encode (text : String) : utf8 text = encode text.toList := by
  rw [utf8, ← String.ofList_toList (s := text), String.toByteArray_ofList,
    List.utf8Encode, List.data_toByteArray, String.toList_ofList, encode]

theorem utf8_injective {text other : String} (same : utf8 text = utf8 other) :
    text = other :=
  String.toByteArray_inj.1 (ByteArray.ext (Array.toList_inj.1 same))

theorem utf8ByteSize_eq (text : String) : text.utf8ByteSize = byteSize text.toList := by
  rw [← length_encode, ← utf8_eq_encode, utf8, ← String.size_toByteArray]
  rfl

/-- A character of the text begins at byte `n`, or the text ends there. -/
def BoundaryAt (cs : List Char) (n : Nat) : Prop :=
  ∃ before after, before ++ after = cs ∧ byteSize before = n

theorem isValid_iff_boundaryAt {text : String} {n : Nat} :
    String.Pos.Raw.IsValid text ⟨n⟩ ↔ BoundaryAt text.toList n := by
  rw [String.Pos.Raw.isValid_iff_exists_append]
  constructor
  · rintro ⟨before, after, rfl, place⟩
    refine ⟨before.toList, after.toList, (String.toList_append).symm, ?_⟩
    rw [← utf8ByteSize_eq]
    exact (congrArg String.Pos.Raw.byteIdx place).symm
  · rintro ⟨before, after, shape, rfl⟩
    refine ⟨String.ofList before, String.ofList after, ?_, ?_⟩
    · rw [← String.ofList_append, shape, String.ofList_toList]
    · rw [String.rawEndPos, utf8ByteSize_eq, String.toList_ofList]

/-- Boundaries behind the front of a text are those of the rest. -/
theorem boundaryAt_append {front cs : List Char} {n : Nat} :
    BoundaryAt (front ++ cs) (byteSize front + n) ↔ BoundaryAt cs n := by
  constructor
  · rintro ⟨before, after, shape, size⟩
    rcases List.append_eq_append_iff.1 shape with ⟨more, rfl, rfl⟩ | ⟨more, rfl, rfl⟩
    · -- The boundary is not before the end of the front, so it is there.
      rw [byteSize_append] at size
      obtain rfl : n = 0 := by omega
      exact ⟨[], cs, rfl, rfl⟩
    · rw [byteSize_append] at size
      exact ⟨more, after, rfl, by omega⟩
  · rintro ⟨before, after, rfl, rfl⟩
    exact ⟨front ++ before, after, List.append_assoc _ _ _, byteSize_append _ _⟩

/-! ### Replacing ranges of bytes -/

/-- The bytes from `start` up to `stop` replaced by others. -/
def replaceBytes (start stop : Nat) (new bytes : List UInt8) : List UInt8 :=
  bytes.take start ++ new ++ bytes.drop stop

theorem replaceBytes_append (before own after new : List UInt8) :
    replaceBytes before.length (before.length + own.length) new (before ++ own ++ after) =
      before ++ new ++ after := by
  have front : (before ++ own ++ after).take before.length = before := by
    rw [List.append_assoc, List.take_left]
  have back : (before ++ own ++ after).drop (before.length + own.length) = after := by
    rw [← List.length_append, List.drop_left]
  rw [replaceBytes, front, back]

/-- The range of every lexeme that has a new spelling replaced by it, the last one first. -/
def Edits.replaceRanges (edits : Edits) (lexemes : List Lexeme) (bytes : List UInt8) :
    List UInt8 :=
  lexemes.foldr (fun lexeme bytes =>
    ((edits.get? lexeme.index).map fun new =>
      replaceBytes lexeme.start lexeme.stop (utf8 new) bytes).getD bytes) bytes

/-- A lexeme fits a text if it begins and ends where characters of the text do. -/
def Lexeme.Fits (lexeme : Lexeme) (text : String) : Prop :=
  String.Pos.Raw.IsValid text ⟨lexeme.start⟩ ∧ String.Pos.Raw.IsValid text ⟨lexeme.stop⟩

instance (lexeme : Lexeme) (text : String) : Decidable (lexeme.Fits text) :=
  inferInstanceAs (Decidable (_ ∧ _))

theorem Lexeme.fits_iff {lexeme : Lexeme} {text : String} :
    lexeme.Fits text ↔
      BoundaryAt text.toList lexeme.start ∧ BoundaryAt text.toList lexeme.stop := by
  rw [Fits, isValid_iff_boundaryAt, isValid_iff_boundaryAt]

/-- If some lexeme does not fit a text, there is a first one that does not. -/
theorem exists_first_misfit {text : String} {lexemes : List Lexeme}
    (misfit : ¬ ∀ lexeme ∈ lexemes, lexeme.Fits text) :
    ∃ before lexeme after, lexemes = before ++ lexeme :: after ∧
      (∀ earlier ∈ before, earlier.Fits text) ∧ ¬ lexeme.Fits text := by
  cases found : lexemes.find? (fun lexeme => ! decide (lexeme.Fits text)) with
  | none => exact absurd (by simpa using List.find?_eq_none.1 found) misfit
  | some lexeme =>
    obtain ⟨first, before, after, shape, earlier⟩ := List.find?_eq_some_iff_append.1 found
    exact ⟨before, lexeme, after, shape, by simpa using earlier, by simpa using first⟩

/-- Where the last of the lexemes stops, or `offset` if there is none. -/
def lastStop (offset : Nat) (lexemes : List Lexeme) : Nat :=
  (lexemes.getLast?.map (·.stop)).getD offset

theorem lastStop_cons (offset : Nat) (lexeme : Lexeme) (lexemes : List Lexeme) :
    lastStop offset (lexeme :: lexemes) = lastStop lexeme.stop lexemes := by
  rw [lastStop, lastStop, List.getLast?_cons]
  cases lexemes.getLast? with
  | none => rfl
  | some last => rfl

/-- Lexemes that lie one behind the other from byte `offset` on. -/
def Ascending (offset : Nat) : List Lexeme → Prop
  | [] => True
  | lexeme :: lexemes =>
    offset ≤ lexeme.start ∧ lexeme.start ≤ lexeme.stop ∧ Ascending lexeme.stop lexemes

theorem Lexed.ascending {index offset : Nat} {cs : List Char} {lexemes : List Lexeme}
    (h : Lexed [] index offset cs lexemes) : Ascending offset lexemes := by
  induction h with
  | finish hidden => trivial
  | lexeme position scanned others ih =>
    exact ⟨Nat.le_add_right _ _, Nat.le_add_right _ _, ih⟩

namespace Edits

variable {edits : Edits} {offset : Nat} {front cs : List Char} {lexeme : Lexeme}
  {lexemes : List Lexeme}

/-- One lexeme that lies on boundaries is passed, with its new spelling if it has one. -/
theorem exists_spliceFrom_cons (size : byteSize front = offset)
    (ahead : offset ≤ lexeme.start) (ascends : lexeme.start ≤ lexeme.stop)
    (starts : BoundaryAt (front ++ cs) lexeme.start)
    (stops : BoundaryAt (front ++ cs) lexeme.stop) :
    ∃ gap own rest, cs = gap ++ own ++ rest ∧ byteSize (front ++ gap) = lexeme.start ∧
      byteSize (front ++ gap ++ own) = lexeme.stop ∧
      edits.spliceFrom offset (lexeme :: lexemes) cs =
        (edits.spliceFrom lexeme.stop lexemes rest).map
          (gap ++ ((edits.get? lexeme.index).map String.toList).getD own ++ ·) := by
  subst size
  obtain ⟨gapSize, start_eq⟩ := Nat.exists_eq_add_of_le ahead
  rw [start_eq, boundaryAt_append] at starts
  obtain ⟨gap, visible, rfl, rfl⟩ := starts
  obtain ⟨ownSize, stop_eq⟩ := Nat.exists_eq_add_of_le ascends
  rw [stop_eq, start_eq, ← byteSize_append, ← List.append_assoc,
    boundaryAt_append] at stops
  obtain ⟨own, rest, rfl, rfl⟩ := stops
  refine ⟨gap, own,
    rest, by simp, by simp [start_eq], by simp [stop_eq, start_eq, Nat.add_assoc], ?_⟩
  have gapSplit : splitBytes? (lexeme.start - byteSize front) (gap ++ (own ++ rest)) =
      some (gap, own ++ rest) := by
    rw [start_eq, Nat.add_sub_cancel_left, splitBytes?_append]
  have ownSplit : splitBytes? (lexeme.stop - lexeme.start) (own ++ rest) =
      some (own, rest) := by
    rw [stop_eq, Nat.add_sub_cancel_left, splitBytes?_append]
  simp only [spliceFrom, ahead, ascends, and_self, if_true, gapSplit, ownSplit]

/-- Edits come to a stop at a lexeme that does not lie on boundaries. -/
theorem spliceFrom_eq_error (size : byteSize front = offset)
    (ahead : offset ≤ lexeme.start) (ascends : lexeme.start ≤ lexeme.stop)
    (misfit : ¬ (BoundaryAt (front ++ cs) lexeme.start ∧ BoundaryAt (front ++ cs) lexeme.stop)) :
    edits.spliceFrom offset (lexeme :: lexemes) cs =
      .error { token := lexeme.index, start := lexeme.start, stop := lexeme.stop } := by
  subst size
  rw [spliceFrom, if_pos ⟨ahead, ascends⟩]
  split
  · rfl
  · rename_i gap visible gapSplit
    obtain ⟨rfl, gapSize⟩ := append_of_splitBytes? gapSplit
    have start_eq : lexeme.start = byteSize (front ++ gap) := by
      rw [byteSize_append]
      omega
    split
    · rfl
    · rename_i own rest ownSplit
      obtain ⟨rfl, ownSize⟩ := append_of_splitBytes? ownSplit
      refine absurd ⟨⟨front ++ gap, own ++ rest, by simp, start_eq.symm⟩,
        ⟨front ++ gap ++ own, rest, by simp, ?_⟩⟩ misfit
      rw [byteSize_append, ← start_eq]
      omega

/-- A lexeme with its new spelling, and all behind it replaced already. -/
theorem replaceRanges_cons {gap own result : List Char} {bytes : List UInt8}
    (start_eq : byteSize (front ++ gap) = lexeme.start)
    (stop_eq : byteSize (front ++ gap ++ own) = lexeme.stop)
    (replaced : edits.replaceRanges lexemes bytes = encode (front ++ gap ++ own) ++ encode result) :
    edits.replaceRanges (lexeme :: lexemes) bytes =
      encode front ++ encode (gap ++ ((edits.get? lexeme.index).map String.toList).getD own ++
        result) := by
  have unfolded : edits.replaceRanges (lexeme :: lexemes) bytes =
      ((edits.get? lexeme.index).map fun new => replaceBytes lexeme.start lexeme.stop (utf8 new)
        (edits.replaceRanges lexemes bytes)).getD (edits.replaceRanges lexemes bytes) :=
    rfl
  rw [unfolded, replaced]
  cases edits.get? lexeme.index with
  | none => simp
  | some new =>
    have range :=
      replaceBytes_append (encode (front ++ gap)) (encode own) (encode result) (utf8 new)
    rw [length_encode, length_encode, ← byteSize_append, start_eq, stop_eq,
      ← encode_append] at range
    rw [Option.map_some, Option.getD_some, range, utf8_eq_encode]
    simp

/-- Lexemes that all lie on boundaries are passed. What comes out has the bytes of the
text with the planned ranges replaced, less those in front, and ends as the text does. -/
theorem exists_spliceFrom (ascending : Ascending offset lexemes)
    (size : byteSize front = offset) (fit : ∀ lexeme ∈ lexemes,
      BoundaryAt (front ++ cs) lexeme.start ∧ BoundaryAt (front ++ cs) lexeme.stop) :
    ∃ result, edits.spliceFrom offset lexemes cs = .ok result ∧
      edits.replaceRanges lexemes (encode (front ++ cs)) = encode front ++ encode result ∧
      (encode (front ++ cs)).drop (lastStop offset lexemes) <:+ encode result := by
  induction lexemes generalizing offset front cs with
  | nil =>
    have behind : (encode (front ++ cs)).drop (lastStop offset []) = encode cs := by
      rw [encode_append, show lastStop offset [] = offset from rfl, ← size,
        ← length_encode, List.drop_left]
    exact ⟨cs, rfl, encode_append front cs, behind ▸ List.suffix_refl _⟩
  | cons lexeme lexemes ih =>
    obtain ⟨ahead, ascends, later⟩ := ascending
    obtain ⟨⟨starts, stops⟩, others⟩ := List.forall_mem_cons.1 fit
    obtain ⟨gap, own, rest, rfl, start_eq, stop_eq, step⟩ :=
      @exists_spliceFrom_cons edits offset front cs lexeme lexemes size ahead ascends starts stops
    have whole : front ++ gap ++ own ++ rest = front ++ (gap ++ own ++ rest) := by simp
    rw [← whole] at others ⊢
    obtain ⟨result, spliced, replaced, trailing⟩ := ih later stop_eq others
    refine ⟨_, by rw [step, spliced]; rfl, replaceRanges_cons start_eq stop_eq replaced, ?_⟩
    rw [lastStop_cons, encode_append _ result]
    exact List.suffix_append_of_suffix trailing

/-- The first lexeme that does not lie on boundaries is where edits come to a stop. -/
theorem spliceFrom_append_eq_error {before after : List Lexeme}
    (ascending : Ascending offset (before ++ lexeme :: after))
    (size : byteSize front = offset) (fit : ∀ earlier ∈ before,
      BoundaryAt (front ++ cs) earlier.start ∧ BoundaryAt (front ++ cs) earlier.stop)
    (misfit : ¬ (BoundaryAt (front ++ cs) lexeme.start ∧ BoundaryAt (front ++ cs) lexeme.stop)) :
    edits.spliceFrom offset (before ++ lexeme :: after) cs =
      .error { token := lexeme.index, start := lexeme.start, stop := lexeme.stop } := by
  induction before generalizing offset front cs with
  | nil =>
    obtain ⟨ahead, ascends, -⟩ := ascending
    exact spliceFrom_eq_error size ahead ascends misfit
  | cons earlier before ih =>
    obtain ⟨ahead, ascends, later⟩ := ascending
    obtain ⟨⟨starts, stops⟩, others⟩ := List.forall_mem_cons.1 fit
    obtain ⟨gap, own, rest, rfl, -, stop_eq, step⟩ :=
      @exists_spliceFrom_cons edits offset front cs
        earlier (before ++ lexeme :: after) size ahead ascends starts stops
    have whole : front ++ gap ++ own ++ rest = front ++ (gap ++ own ++ rest) := by simp
    rw [← whole] at others misfit
    rw [List.cons_append, step, ih later stop_eq others misfit]
    rfl

/-- With no new spelling, no range is replaced. -/
theorem replaceRanges_of_isEmpty (none : edits.isEmpty = true) (lexemes : List Lexeme)
    (bytes : List UInt8) : edits.replaceRanges lexemes bytes = bytes := by
  have unplanned : ∀ token, edits.get? token = .none := fun token =>
    Std.TreeMap.getElem?_of_isEmpty none
  induction lexemes with
  | nil => rfl
  | cons lexeme lexemes ih =>
    rw [replaceRanges, List.foldr_cons, ← replaceRanges, ih, unplanned, Option.map_none,
      Option.getD_none]

section Stream

variable {source : String} {stream : TokenStream}

/-- Edits are spliced into a text that every lexeme fits. -/
theorem exists_splice_of_fits (cut : TokenStream.ofSource source = .ok stream)
    (edits : Edits) {text : String}
    (fit : ∀ lexeme ∈ stream.lexemes, lexeme.Fits text) :
    ∃ result, edits.splice stream text = .ok result ∧
      utf8 result = edits.replaceRanges stream.lexemes (utf8 text) ∧
      (utf8 text).drop (lastStop 0 stream.lexemes) <:+ utf8 result := by
  obtain ⟨result, spliced, replaced, trailing⟩ :=
    @exists_spliceFrom edits 0 [] text.toList stream.lexemes
      (TokenStream.lexed_of_ofSource cut).ascending rfl
      fun lexeme listed => Lexeme.fits_iff.1 (fit lexeme listed)
  rw [List.nil_append, ← utf8_eq_encode] at replaced trailing
  have bytes : utf8 (String.ofList result) = encode result := by
    rw [utf8_eq_encode, String.toList_ofList]
  refine ⟨String.ofList result, by rw [splice, spliced]; rfl, ?_, bytes ▸ trailing⟩
  rw [bytes, replaced]
  rfl

/-- Edits are not spliced into a text that some lexeme does not fit, and the first such
lexeme is the cause. -/
theorem splice_eq_error (cut : TokenStream.ofSource source = .ok stream) (edits : Edits)
    {text : String} {before after : List Lexeme} {lexeme : Lexeme}
    (shape : stream.lexemes = before ++ lexeme :: after)
    (fit : ∀ earlier ∈ before, earlier.Fits text) (misfit : ¬ lexeme.Fits text) :
    edits.splice stream text =
      .error { token := lexeme.index, start := lexeme.start, stop := lexeme.stop } := by
  have ascending := (TokenStream.lexed_of_ofSource cut).ascending
  rw [shape] at ascending
  have stuck :=
    @spliceFrom_append_eq_error edits 0 [] text.toList lexeme before after ascending rfl
      (fun earlier listed => Lexeme.fits_iff.1 (fit earlier listed))
      fun fits => misfit (Lexeme.fits_iff.2 fits)
  rw [splice, shape, stuck]
  rfl

/-- Edits for the lexemes of one source are spliced into any text that all of these fit,
and into no other. An internal error names the first one that does not fit. Else the
planned ranges of bytes are replaced and no other byte is, the text behind the last lexeme
is kept, and with nothing planned the text comes out as it is. -/
theorem exists_splice_iff_fits (cut : TokenStream.ofSource source = .ok stream)
    (edits : Edits) (text : String) :
    ((∃ result, edits.splice stream text = .ok result) ↔
        ∀ lexeme ∈ stream.lexemes, lexeme.Fits text) ∧
    (∀ before lexeme after, stream.lexemes = before ++ lexeme :: after →
      (∀ earlier ∈ before, earlier.Fits text) → ¬ lexeme.Fits text →
      ∃ cause, edits.splice stream text = .error cause ∧ cause.token = lexeme.index ∧
        (Error.splice cause).kind = .internal ∧
        cause.message = "token tok" ++ toString lexeme.index ++ " at " ++
          toString lexeme.start ++ ".." ++ toString lexeme.stop ++
          " does not fit the source text") ∧
    ∀ result, edits.splice stream text = .ok result →
      utf8 result = edits.replaceRanges stream.lexemes (utf8 text) ∧
      (utf8 text).drop (lastStop 0 stream.lexemes) <:+ utf8 result ∧
      (edits.isEmpty = true → result = text) := by
  have fits_of_ok : ∀ result, edits.splice stream text = .ok result →
      ∀ lexeme ∈ stream.lexemes, lexeme.Fits text := by
    intro result spliced
    refine Decidable.byContradiction fun misfit => ?_
    obtain ⟨before, lexeme, after, shape, earlier, first⟩ := exists_first_misfit misfit
    rw [splice_eq_error cut edits shape earlier first] at spliced
    cases spliced
  refine ⟨⟨?_, fun fit => ?_⟩, ?_, ?_⟩
  · rintro ⟨result, spliced⟩
    exact fits_of_ok result spliced
  · obtain ⟨result, spliced, -⟩ := exists_splice_of_fits cut edits fit
    exact ⟨result, spliced⟩
  · intro before lexeme after shape earlier first
    exact ⟨_, splice_eq_error cut edits shape earlier first, rfl, rfl, rfl⟩
  · intro result spliced
    obtain ⟨result', spliced', replaced, trailing⟩ :=
      exists_splice_of_fits cut edits (fits_of_ok result spliced)
    obtain rfl : result = result' := by
      rw [spliced] at spliced'
      exact Except.ok.inj spliced'
    refine ⟨replaced, trailing, fun none => utf8_injective ?_⟩
    rw [replaced, replaceRanges_of_isEmpty none]

/-- Two tokens with two bytes between them, for which another text has one character. A
text that ends where the second token begins is refused. -/
theorem exists_splice_iff_fits_wide : ∃ stream, TokenStream.ofSource "a  b" = .ok stream ∧
    (empty.replace 1 "1.0").splice stream "xéyé" = .ok "xé1.0é" ∧
    ¬ ∃ result, (empty.replace 1 "1.0").splice stream "aé" = .ok result := by
  have read : ((TokenStream.ofSource "a  b").toOption.any fun stream => decide
      ((∀ lexeme ∈ stream.lexemes, lexeme.Fits "xéyé") ∧
        (empty.replace 1 "1.0").replaceRanges stream.lexemes (utf8 "xéyé") =
          utf8 "xé1.0é" ∧
        ¬ ∀ lexeme ∈ stream.lexemes, lexeme.Fits "aé")) = true := by
    decide +kernel
  cases cut : TokenStream.ofSource "a  b" with
  | error cause => simp [cut, Except.toOption] at read
  | ok stream =>
    rw [cut] at read
    obtain ⟨fit, bytes, misfit⟩ := of_decide_eq_true read
    obtain ⟨passed, -, replaced⟩ :=
      exists_splice_iff_fits cut (empty.replace 1 "1.0") "xéyé"
    obtain ⟨refused, -⟩ := exists_splice_iff_fits cut (empty.replace 1 "1.0") "aé"
    obtain ⟨result, spliced⟩ := passed.2 fit
    obtain rfl : result = "xé1.0é" :=
      utf8_injective ((replaced result spliced).1.trans bytes)
    exact ⟨stream, rfl, spliced, fun exists_result => misfit (refused.1 exists_result)⟩

end Stream

end Edits

end ShaderDialect
