import ShaderDialect.Conversion
import ShaderDialect.Proofs.Lexing

/-!
# Splicing

The lexemes of a source lie one behind the other, on character boundaries, so
edits can always be spliced in. `weave` puts the gaps of a text and the spellings
of its tokens together by turns; what comes out of a conversion is such a text,
with the gaps of its source.
-/

namespace ShaderDialect

/-- The characters from byte `start` up to byte `stop`, if characters begin at
both. -/
def sliceBytes? (start stop : Nat) (cs : List Char) : Option (List Char) :=
  if start ≤ stop then do
    let (_, behind) ← splitBytes? start cs
    let (part, _) ← splitBytes? (stop - start) behind
    return part
  else none

theorem sliceBytes?_append (before part after : List Char) :
    sliceBytes? (byteSize before) (byteSize before + byteSize part) (before ++ part ++ after) =
      some part := by
  rw [sliceBytes?, if_pos (Nat.le_add_right _ _), List.append_assoc, splitBytes?_append,
    Nat.add_sub_cancel_left]
  simp [splitBytes?_append]

/-- Gaps and spellings by turns. -/
def weave : List (List Char) → List String → List Char
  | gap :: gaps, text :: texts => gap ++ text.toList ++ weave gaps texts
  | gaps, _ => gaps.flatten

namespace TokenStream

/-- The byte ranges before, between and behind the lexemes. -/
def gapRanges (stream : TokenStream) : List (Nat × Nat) :=
  (0 :: stream.lexemes.map (·.stop)).zip (stream.lexemes.map (·.start) ++ [stream.finish.start])

theorem finish_of_ofSource {source : String} {stream : TokenStream}
    (h : ofSource source = .ok stream) :
    stream.finish.start = byteSize source.toList := by
  simp only [ofSource, bind, Except.bind, pure, Except.pure] at h
  split at h
  · cases h
  · cases h
    rfl

end TokenStream

/-- The spelling that a token gets, which is its own where none is planned. -/
def Edits.textOf (edits : Edits) (token : Token) : String :=
  (edits.get? token.index).getD token.text

namespace Lexed

/-- One token after the gap in front of it is spliced. -/
theorem spliceFrom_cons (edits : Edits) {index offset : Nat}
    {cs read rest rest' : List Char} {kind : TokenKind} {lexemes : List Lexeme}
    {position : Position}
    (scanned : Token.scan? (Hidden.skip cs).2 = some (kind, read, rest))
    (spliced : edits.spliceFrom (offset + byteSize (Hidden.skip cs).1 + byteSize read)
      lexemes rest = .ok rest') :
    edits.spliceFrom offset
        ({ index, kind, text := String.ofList read
           start := offset + byteSize (Hidden.skip cs).1
           stop := offset + byteSize (Hidden.skip cs).1 + byteSize read
           position } :: lexemes) cs =
      .ok ((Hidden.skip cs).1 ++ (((edits.get? index).map String.toList).getD read ++ rest')) := by
  have gap := splitBytes?_append (Hidden.skip cs).1 (Hidden.skip cs).2
  have token := splitBytes?_append read rest
  rw [Hidden.skip_append] at gap
  rw [(Token.scan?_append scanned).1] at token
  simp [Edits.spliceFrom, gap, token, spliced, Except.map]

/-- A text is its gaps and tokens by turns, all of which lie in it where their
ranges say. Edits change its tokens alone. -/
theorem exists_gaps {index offset : Nat} {cs : List Char} {lexemes : List Lexeme}
    (h : Lexed [] index offset cs lexemes) {front : List Char}
    (size : byteSize front = offset) :
    ∃ gaps,
      ((offset :: lexemes.map (·.stop)).zip
          (lexemes.map (·.start) ++ [offset + byteSize cs])).map
        (fun (start, stop) => sliceBytes? start stop (front ++ cs)) = gaps.map some ∧
      (∀ lexeme ∈ lexemes,
        sliceBytes? lexeme.start lexeme.stop (front ++ cs) = some lexeme.text.toList) ∧
      cs = weave gaps (lexemes.map (·.text)) ∧
      ∀ edits : Edits, edits.spliceFrom offset lexemes cs =
        .ok (weave gaps (lexemes.map fun lexeme => edits.textOf lexeme.toToken)) := by
  induction h generalizing front with
  | @finish index offset cs hidden =>
    subst size
    refine ⟨[cs], ?_, by simp, by simp [weave], fun edits => by simp [weave, Edits.spliceFrom]⟩
    simpa using sliceBytes?_append front cs []
  | @lexeme index offset cs read rest kind lexemes position scanned others ih =>
    subst size
    have shape : (Hidden.skip cs).1 ++ read ++ rest = cs := by
      rw [List.append_assoc, (Token.scan?_append scanned).1, Hidden.skip_append]
    generalize gap_eq : (Hidden.skip cs).1 = gap at shape ih
    have passed : byteSize (front ++ gap ++ read) =
        byteSize front + byteSize gap + byteSize read := by
      simp [Nat.add_assoc]
    obtain ⟨gaps, slices, texts, woven, spliced⟩ := ih passed
    have whole : front ++ gap ++ read ++ rest = front ++ cs := by simp [← shape]
    have finish : byteSize front + byteSize gap + byteSize read + byteSize rest =
        byteSize front + byteSize cs := by
      simp [← shape, Nat.add_assoc]
    rw [whole] at slices texts
    rw [finish] at slices
    have first : sliceBytes? (byteSize front) (byteSize front + byteSize gap) (front ++ cs) =
        some gap := by
      rw [← whole, List.append_assoc (front ++ gap)]
      exact sliceBytes?_append front gap (read ++ rest)
    have own : sliceBytes? (byteSize front + byteSize gap)
      (byteSize front + byteSize gap + byteSize read)
        (front ++ cs) = some read := by
      rw [← whole, ← byteSize_append]
      exact sliceBytes?_append (front ++ gap) read rest
    refine ⟨gap :: gaps, ?_, ?_, ?_, fun edits => ?_⟩
    · simpa [first] using slices
    · intro lexeme member
      rcases List.mem_cons.1 member with rfl | later
      · simpa using own
      · exact texts lexeme later
    · rw [List.map_cons, weave, String.toList_ofList, ← woven, shape]
    · subst gap_eq
      rw [spliceFrom_cons edits scanned (spliced edits), List.map_cons, weave,
        Edits.textOf, List.append_assoc]
      cases edits.get? index with
      | none => simp
      | some text => simp

end Lexed

/-- Without new spellings, a text comes out as it is. -/
theorem Edits.splice_of_none {edits : Edits} {source : String} {stream : TokenStream}
    (cut : TokenStream.ofSource source = .ok stream)
    (unplanned : ∀ lexeme ∈ stream.lexemes, edits.get? lexeme.index = none) :
    edits.splice stream source = .ok source := by
  obtain ⟨gaps, -, -, woven, spliced⟩ :=
    (TokenStream.lexed_of_ofSource cut).exists_gaps (show byteSize [] = 0 from rfl)
  have texts : stream.lexemes.map (fun lexeme => edits.textOf lexeme.toToken) =
      stream.lexemes.map (·.text) :=
    List.map_congr_left fun lexeme member => by rw [Edits.textOf, unplanned lexeme member]; rfl
  rw [splice, spliced, texts, ← woven]
  simp [Except.map]

theorem convert_eq_ok {catalog : Catalog} {source text : String} {tree : SyntaxTree}
    (read : SyntaxTree.ofSource source = .ok tree)
    (spliced : (Plan.ofTree catalog tree.root).edits.splice tree.stream source = .ok text) :
    convert catalog source =
      .ok { text, diagnostics := tree.diagnose (Plan.ofTree catalog tree.root).findings } := by
  simp only [convert, read, spliced]

theorem exists_convert_of_spliceFrom {catalog : Catalog} {source : String}
    {tree : SyntaxTree} {cs : List Char} (read : SyntaxTree.ofSource source = .ok tree)
    (spliced : (Plan.ofTree catalog tree.root).edits.spliceFrom 0 tree.stream.lexemes
      source.toList =
      .ok cs) :
    ∃ conversion, convert catalog source = .ok conversion ∧
      conversion.text = String.ofList cs := by
  have text : (Plan.ofTree catalog tree.root).edits.splice tree.stream source =
      .ok (String.ofList cs) := by
    rw [Edits.splice, spliced, Except.map]
  exact ⟨_, convert_eq_ok read text, rfl⟩

end ShaderDialect
