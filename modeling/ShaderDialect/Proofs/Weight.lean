import ShaderDialect.Proofs.Readback

/-!
# The weight of a text

A promotion puts a point into a run of digits that had none, and a deletion takes
characters out of the text. So count the characters that are neither digits nor
points, and the runs of digits without a point: a conversion that changes a text
makes it lighter. This needs nothing of what the new text is read as, since what
a token leaves behind it is told by the tokens of the old text.
-/

namespace ShaderDialect

/-- The characters of plain decimal numbers. -/
def isNumeric (c : Char) : Bool :=
  Literal.isDigit c || c = '.'

/-- How a text goes on: outside of a run of digits and points, in one without a
point so far, or in one that has a point. -/
inductive Phase where
  | outside
  | plain
  | pointed
deriving DecidableEq

namespace Phase

def next (phase : Phase) (c : Char) : Phase :=
  if c = '.' then .pointed
  else if Literal.isDigit c then if phase = .outside then .plain else phase
  else .outside

/-- A run without a point is counted where it ends. -/
def pending : Phase → Nat
  | plain => 1
  | _ => 0

/-- The number of runs of digits without a point that end in a text, and of its
characters outside of such runs. -/
def weight : Phase → List Char → Nat
  | phase, [] => phase.pending
  | phase, c :: cs =>
    if isNumeric c then weight (phase.next c) cs else phase.pending + 1 + weight .outside cs

theorem next_of_not_isNumeric {c : Char} (h : isNumeric c = false) (phase : Phase) :
    phase.next c = .outside := by
  rw [isNumeric, Bool.or_eq_false_iff, decide_eq_false_iff_not] at h
  simp [next, h]

theorem weight_le_length (phase : Phase) (cs : List Char) :
    phase.weight cs ≤ cs.length + phase.pending := by
  induction cs generalizing phase with
  | nil => simp [weight]
  | cons c cs ih =>
    rw [weight, List.length_cons]
    split
    · have below := ih (phase.next c)
      have small : (phase.next c).pending ≤ 1 := by cases phase.next c <;> simp [pending]
      omega
    · have below : weight .outside cs ≤ cs.length + 0 := ih .outside
      omega

/-- A point in front makes a text lighter, and a digit in front heavier. -/
theorem weight_mono (cs : List Char) :
    weight .pointed cs ≤ weight .outside cs ∧ weight .outside cs ≤ weight .plain cs := by
  induction cs with
  | nil => simp [weight, pending]
  | cons c cs ih =>
    simp only [weight]
    split
    · by_cases point : c = '.'
      · simp [next, point]
      · by_cases digit : Literal.isDigit c
        · simpa [next, point, digit] using ih.1.trans ih.2
        · simp [next, point, digit]
    · simp [pending]

theorem weight_outside_of_stops {cs : List Char} (stops : Stops Literal.isDigit cs) :
    weight .outside cs = weight .pointed cs := by
  cases cs with
  | nil => rfl
  | cons c cs =>
    have notDigit := stops c rfl
    simp [weight, next, notDigit, pending]

theorem weight_plain_of_stops {cs : List Char} (stops : Stops isNumeric cs) :
    weight .plain cs = 1 + weight .outside cs := by
  cases cs with
  | nil => rfl
  | cons c cs =>
    have notNumeric := stops c rfl
    simp only [weight, notNumeric, pending]
    simp
    omega

/-- What a text in front adds to the weight. -/
theorem exists_weight_append (phase : Phase) (front : List Char) :
    ∃ cost, ((∃ c ∈ front, isNumeric c = false) → 0 < cost) ∧
      ∀ cs, phase.weight (front ++ cs) = cost + (front.foldl next phase).weight cs := by
  induction front generalizing phase with
  | nil => exact ⟨0, by simp, by simp⟩
  | cons c front ih =>
    obtain ⟨cost, positive, same⟩ := ih (phase.next c)
    by_cases numeric : isNumeric c
    · refine ⟨cost, fun listed => positive ?_, fun cs => ?_⟩
      · simpa [numeric] using listed
      · rw [List.cons_append, weight, if_pos numeric, same, List.foldl_cons]
    · have outside := next_of_not_isNumeric (Bool.eq_false_iff.2 numeric) phase
      refine ⟨phase.pending + 1 + cost, by omega, fun cs => ?_⟩
      rw [List.cons_append, weight, if_neg numeric, ← outside, same, List.foldl_cons]
      omega

/-- Behind a character that is no part of a number, the text is outside of one. -/
theorem foldl_next_concat {c : Char} (h : isNumeric c = false) (front : List Char)
    (phase : Phase) :
    (front ++ [c]).foldl next phase = .outside := by
  rw [List.foldl_append]
  exact next_of_not_isNumeric h _

theorem weight_digits {digits : List Char} (all : ∀ c ∈ digits, Literal.isDigit c)
    {phase : Phase} (inside : phase ≠ .outside) (cs : List Char) :
    phase.weight (digits ++ cs) = phase.weight cs := by
  induction digits with
  | nil => rfl
  | cons c digits ih =>
    obtain ⟨digit, others⟩ := List.forall_mem_cons.1 all
    have notPoint : c ≠ '.' := by
      rintro rfl
      exact absurd digit (by decide)
    rw [List.cons_append, weight, if_pos (by simp [isNumeric, digit]), next,
      if_neg notPoint, if_pos digit, if_neg inside]
    exact ih others

/-- A run of digits is heavier than the same run with a point behind it. -/
theorem weight_promoted {digits : List Char} (all : ∀ c ∈ digits, Literal.isDigit c)
    (nonempty : digits ≠ []) (cs : List Char) :
    weight .outside (digits ++ cs) = weight .plain cs ∧
      weight .outside (digits ++ '.' :: '0' :: cs) = weight .pointed cs := by
  obtain ⟨c, digits, rfl⟩ := List.exists_cons_of_ne_nil nonempty
  obtain ⟨digit, others⟩ := List.forall_mem_cons.1 all
  have notPoint : c ≠ '.' := by
    rintro rfl
    exact absurd digit (by decide)
  have first : ∀ cs, weight .outside (c :: cs) = weight .plain cs := by
    intro cs
    rw [weight, if_pos (by simp [isNumeric, digit]), next, if_neg notPoint, if_pos digit,
      if_pos rfl]
  have inside : Phase.plain ≠ .outside := by decide
  rw [List.cons_append, List.cons_append, first, first, weight_digits others inside,
    weight_digits others inside]
  exact ⟨rfl, rfl⟩

end Phase

/-! ### What follows a token -/

theorem Stops.mono {p q : Char → Bool} {cs : List Char} (stops : Stops p cs)
    (sub : ∀ c, q c → p c) : Stops q cs := by
  intro c first
  refine Bool.eq_false_iff.2 fun holds => ?_
  have fails := stops c first
  rw [sub c holds] at fails
  cases fails

namespace Literal

theorem stops_of_exponent? {cs read rest : List Char}
    (h : exponent? cs = some (read, rest)) :
    Stops isDigit rest := by
  unfold exponent? at h
  split at h
  · split_ifs at h
    obtain ⟨⟨digits, after⟩, found, same⟩ := Option.map_eq_some_iff.1 h
    cases same
    exact (run?_eq_some found).2.2.2
  · cases h

theorem stops_of_mantissa? {cs number rest : List Char}
    (h : mantissa? cs = some (number, rest)) :
    Stops isDigit rest := by
  unfold mantissa? at h
  dsimp only at h
  split at h
  · rename_i tail shape
    split_ifs at h
    cases h
    cases found : exponent? (tail.dropWhile isDigit) with
    | none => exact stops_dropWhile isDigit tail
    | some pair => exact stops_of_exponent? found
  · split_ifs at h
    obtain ⟨⟨exponent, after⟩, found, same⟩ := Option.map_eq_some_iff.1 h
    cases same
    exact stops_of_exponent? found

/-- A floating suffix ends with a letter. -/
theorem floatSuffix_cases (cs : List Char) :
    floatSuffix cs = ([], cs) ∨
      ∃ before c, (floatSuffix cs).1 = before ++ [c] ∧ isNumeric c = false := by
  unfold floatSuffix
  split
  · exact Or.inr ⟨['l'], 'f', rfl, by decide⟩
  · exact Or.inr ⟨['L'], 'F', rfl, by decide⟩
  · exact Or.inr ⟨[], 'f', rfl, by decide⟩
  · exact Or.inr ⟨[], 'F', rfl, by decide⟩
  · exact Or.inl rfl

theorem unsignedSuffix_cases (cs : List Char) :
    unsignedSuffix cs = ([], cs) ∨ ∃ c, (unsignedSuffix cs).1 = [c] ∧
    isNumeric c = false := by
  unfold unsignedSuffix
  split
  · exact Or.inr ⟨'u', rfl, by decide⟩
  · exact Or.inr ⟨'U', rfl, by decide⟩
  · exact Or.inl rfl

end Literal

/-- A token that ends like a number goes on as far as there are digits. -/
theorem Token.stops_of_scan? {cs read rest : List Char} {kind : TokenKind}
    (h : scan? cs = some (kind, read, rest)) :
    Stops Literal.isDigit rest ∨
      ∃ before c, read = before ++ [c] ∧ isNumeric c = false := by
  rcases scan?_cases h with ⟨float, -⟩ | ⟨-, int, -⟩ | ⟨-, -, word, -⟩ |
    ⟨noFloat, -, -, mark, -⟩
  · obtain ⟨⟨number, after⟩, found, same⟩ := Option.map_eq_some_iff.1 float
    cases same
    rcases Literal.floatSuffix_cases after with none | ⟨before, c, suffix, letter⟩
    · rw [none]
      exact Or.inl (Literal.stops_of_mantissa? found)
    · exact Or.inr ⟨number ++ before, c, by rw [suffix, List.append_assoc], letter⟩
  · obtain ⟨⟨number, after⟩, found, same⟩ := Option.map_eq_some_iff.1 int
    cases same
    rcases Literal.unsignedSuffix_cases after with none | ⟨c, suffix, letter⟩
    · rw [none]
      rcases Option.or_eq_some_iff.1 found with found | ⟨-, found⟩
      · obtain ⟨x, tail, digits, -, -, -, run⟩ := Literal.hexadecimal?_eq_some found
        have stops := (Literal.run?_eq_some run).2.2.2
        exact Or.inl (stops.mono fun c digit => by simp [Literal.isHexDigit, digit])
      · exact Or.inl (Literal.run?_eq_some found).2.2.2
    · exact Or.inr ⟨number, c, by rw [suffix], letter⟩
  · unfold Literal.word? at word
    split at word
    · split_ifs at word
      cases word
      exact Or.inl ((stops_dropWhile _ _).mono fun c digit => by simp [Literal.isWordPart, digit])
    · cases word
  · obtain ⟨rfl, operator, listed, rfl⟩ := mark?_append mark
    have ends : ∀ mark ∈ Vocabulary.operators, mark.toList = ['.'] ∨
        mark.toList.getLast?.any (! isNumeric ·) := by decide +kernel
    rcases ends operator listed with point | ends
    · rw [point, List.singleton_append] at noFloat
      exact Or.inl (Literal.float?_point.1 noFloat)
    · obtain ⟨c, last, other⟩ := (Option.any_eq_true _ _).1 ends
      obtain ⟨before, shape⟩ := List.getLast?_eq_some_iff.1 last
      exact Or.inr ⟨before, c, shape, by simpa using other⟩

/-! ### Edits of one token -/

namespace Phase

/-- A gap ends outside of all numbers. -/
theorem foldl_next_gap {cs : List Char} (visible : (Hidden.skip cs).2 ≠ [])
    (hidden : (Hidden.skip cs).1 ≠ []) (phase : Phase) :
    (Hidden.skip cs).1.foldl next phase = .outside := by
  obtain ⟨before, ⟨c, blank, gap⟩ | gap⟩ := Hidden.exists_seam visible hidden
  · rw [gap]
    refine foldl_next_concat ?_ before phase
    simp only [Hidden.isBlank, Bool.or_eq_true, decide_eq_true_eq] at blank
    rcases blank with ((rfl | rfl) | rfl) | rfl <;> decide
  · rw [gap, List.append_cons before '*' ['/']]
    exact foldl_next_concat (by decide) _ phase

/-- Behind hidden text a text is outside of all numbers, and otherwise where it
was. -/
theorem foldl_next_skip {cs : List Char} (visible : (Hidden.skip cs).2 ≠ [])
    (phase : Phase) :
    (Hidden.skip cs).1.foldl next phase = .outside ∨
      (Hidden.skip cs).1 = [] ∧ (Hidden.skip cs).1.foldl next phase = phase := by
  by_cases hidden : (Hidden.skip cs).1 = []
  · exact Or.inr ⟨hidden, by rw [hidden]; rfl⟩
  · exact Or.inl (foldl_next_gap visible hidden phase)

variable {read rest : List Char} {kind : TokenKind}

/-- Where a token ends like a number, none goes on behind it. -/
theorem outside_or_stops (scanned : Token.scan? (read ++ rest) = some (kind, read, rest))
    (phase : Phase) : read.foldl next phase = .outside ∨ Stops Literal.isDigit rest := by
  rcases Token.stops_of_scan? scanned with stops | ⟨before, c, rfl, other⟩
  · exact Or.inr stops
  · exact Or.inl (foldl_next_concat other before phase)

/-- Without a token in front of it, a text is no heavier. -/
theorem weight_deleted (scanned : Token.scan? (read ++ rest) = some (kind, read, rest)) :
    weight .outside rest ≤ weight .outside (read ++ rest) ∧
      ((∃ c ∈ read, isNumeric c = false) →
        weight .outside rest < weight .outside (read ++ rest)) := by
  obtain ⟨cost, positive, same⟩ := exists_weight_append .outside read
  have behind : weight .outside rest ≤ (read.foldl next .outside).weight rest := by
    rcases outside_or_stops scanned .outside with ends | stops
    · rw [ends]
    · cases read.foldl next .outside with
      | outside => exact le_rfl
      | plain => exact (weight_mono rest).2
      | pointed => exact (weight_outside_of_stops stops).le
  rw [same]
  exact ⟨by omega, fun listed => by have := positive listed; omega⟩

/-- With a promoted literal in front of it, a text is lighter. -/
theorem weight_widened {rest' : List Char}
    (scanned : Token.scan? (read ++ rest) = some (.intLiteral, read, rest))
    (decimal : ∀ c ∈ read, Literal.isDigit c)
    (below : weight .outside rest' ≤ weight .outside rest) :
    weight .outside (read ++ '.' :: '0' :: rest') < weight .outside (read ++ rest) := by
  have nonempty := (Token.scan?_append scanned).2
  have stops : Stops isNumeric rest := by
    rcases Token.scan?_cases scanned with
      ⟨-, isFloat⟩ | ⟨noFloat, int, -⟩ | ⟨-, -, -, isWord⟩ | ⟨-, -, -, -, isMark⟩
    · cases isFloat
    · have digits := Literal.stops_of_int? int decimal
      have point := ((Literal.float?_eq_none_iff decimal nonempty digits).1 noFloat).1
      intro c first
      rw [isNumeric, digits c first, Bool.false_or, decide_eq_false_iff_not]
      rintro rfl
      exact point first
    · unfold Token.wordKind at isWord
      split_ifs at isWord
    · cases isMark
  rw [(weight_promoted decimal nonempty rest).1, (weight_promoted decimal nonempty rest').2,
    weight_plain_of_stops stops]
  have lighter := (weight_mono rest').1
  omega

/-- The new text is no heavier than the old one, and lighter if something
shows. -/
structure Relieves (phase : Phase) (cs cs' : List Char) (shows : Prop) : Prop where
  le : phase.weight cs' ≤ phase.weight cs
  lt : shows → phase.weight cs' < phase.weight cs

namespace Relieves

variable {rest' : List Char} {shows shows' : Prop}

theorem mono {phase : Phase} (h : phase.Relieves rest rest' shows)
    (narrower : shows' → shows) :
    phase.Relieves rest rest' shows' :=
  ⟨h.le, fun here => h.lt (narrower here)⟩

theorem append {phase : Phase} {front : List Char}
    (h : (front.foldl next phase).Relieves rest rest' shows) :
    phase.Relieves (front ++ rest) (front ++ rest') shows := by
  obtain ⟨cost, -, same⟩ := exists_weight_append phase front
  refine ⟨?_, fun here => ?_⟩
  · rw [same, same]
    exact Nat.add_le_add_left h.le cost
  · rw [same, same]
    exact Nat.add_lt_add_left (h.lt here) cost

theorem delete (scanned : Token.scan? (read ++ rest) = some (kind, read, rest))
    (h : outside.Relieves rest rest' shows) :
    outside.Relieves (read ++ rest) rest'
      ((∃ c ∈ read, isNumeric c = false) ∨ shows) := by
  obtain ⟨smaller, lighter⟩ := weight_deleted scanned
  refine ⟨h.le.trans smaller, ?_⟩
  rintro (counted | later)
  · exact h.le.trans_lt (lighter counted)
  · exact (h.lt later).trans_le smaller

theorem promote (scanned : Token.scan? (read ++ rest) = some (.intLiteral, read, rest))
    (decimal : ∀ c ∈ read, Literal.isDigit c) (h : outside.Relieves rest rest' shows) :
    outside.Relieves (read ++ rest) (read ++ '.' :: '0' :: rest') True := by
  have lighter := weight_widened scanned decimal h.le
  exact ⟨lighter.le, fun _ => lighter⟩

end Relieves

end Phase

/-! ### Edits of a text -/

/-- An edit that shows in the weight: a promotion, or the deletion of a token
that is no plain number. -/
def Edits.Lightens (edits : Edits) (lexeme : Lexeme) : Prop :=
  ∃ text, edits.get? lexeme.index = some text ∧
    (text = "" → ∃ c ∈ lexeme.text.toList, isNumeric c = false)

theorem isNumeric_of_isSeal {c : Char} (h : isSeal c) : isNumeric c = false := by
  simp only [isSeal, List.contains_iff_mem, List.mem_cons, List.not_mem_nil,
    or_false] at h
  rcases h with rfl | rfl | rfl | rfl | rfl | rfl <;> decide

theorem isNumeric_of_isWordStart {c : Char} (h : Literal.isWordStart c) :
    isNumeric c = false := by
  rw [isNumeric, Literal.isDigit_of_isWordStart h, Bool.false_or, decide_eq_false_iff_not]
  rintro rfl
  exact absurd h (by decide)

namespace Lexed

/-- A token that stays right in front of a deleted one is no number. -/
theorem outside_of_touching {edits : Edits} {index offset : Nat} {read rest : List Char}
    {kind : TokenKind} {lexeme : Lexeme} {lexemes : List Lexeme}
    (others : Lexed [] index offset rest lexemes)
    (scanned : Token.scan? (read ++ rest) = some (kind, read, rest))
    (spelling : lexeme.text = String.ofList read)
    (kept : edits.get? lexeme.index ≠ some "")
    (isSealed : edits.Sealed (lexeme :: lexemes)) (phase : Phase) :
    ∀ next ∈ lexemes.head?, edits.get? next.index = some "" → (Hidden.skip rest).1 = [] →
      read.foldl Phase.next phase = .outside := by
  intro next first deleted touching
  cases others with
  | finish hidden => cases first
  | @lexeme _ _ _ read' rest' _ lexemes position scanned' others =>
    cases first
    have shape := Hidden.skip_append rest
    rw [touching, List.nil_append, ← (Token.scan?_append scanned').1] at shape
    obtain ⟨c, sealing, rfl, -⟩ :=
      exists_seal scanned spelling kept isSealed deleted (by simpa using shape.symm)
    exact Phase.foldl_next_concat (isNumeric_of_isSeal sealing) [] phase

/-- Edits make no text heavier, and lighter those in which they show. -/
theorem exists_relieves_splice {edits : Edits} {index offset : Nat} {cs : List Char}
    {lexemes : List Lexeme} (h : Lexed [] index offset cs lexemes)
    (rewrites : edits.Rewrites lexemes) (isSealed : edits.Sealed lexemes)
    {phase : Phase} (fresh : phase = .outside ∨ Stops Literal.isDigit cs)
    (start : ∀ next ∈ lexemes.head?, edits.get? next.index = some "" →
      (Hidden.skip cs).1 = [] →
      phase = .outside) :
    ∃ cs', edits.spliceFrom offset lexemes cs = .ok cs' ∧
      phase.Relieves cs cs' (∃ lexeme ∈ lexemes, edits.Lightens lexeme) := by
  induction h generalizing phase with
  | @finish index offset cs hidden => exact ⟨cs, rfl, le_rfl, by simp⟩
  | @lexeme index offset cs read rest kind lexemes position scanned others ih =>
    have visible := Token.ne_nil_of_scan? scanned
    obtain ⟨whole, nonempty⟩ := Token.scan?_append scanned
    have text : cs = (Hidden.skip cs).1 ++ (read ++ rest) := by
      rw [whole, Hidden.skip_append]
    have rescanned := scanned
    rw [← whole] at rescanned
    replace ih :=
      @ih (fun lexeme member => rewrites lexeme (List.mem_cons_of_mem _ member)) isSealed.tail
    have place := Phase.foldl_next_skip visible phase
    obtain ⟨here, behind⟩ : ∃ here, (Hidden.skip cs).1.foldl Phase.next phase =
      here := ⟨_, rfl⟩
    rw [behind] at place
    suffices step : ∃ rest', edits.spliceFrom (offset + byteSize (Hidden.skip cs).1 + byteSize read)
        lexemes rest = .ok rest' ∧
        here.Relieves (read ++ rest) (((edits.get? index).map String.toList).getD read ++ rest')
          (edits.Lightens _ ∨ ∃ lexeme ∈ lexemes, edits.Lightens lexeme) by
      obtain ⟨rest', spliced, below⟩ := step
      have relieves := Phase.Relieves.append (behind ▸ below)
      rw [← text] at relieves
      exact ⟨_, spliceFrom_cons edits scanned spliced,
        relieves.mono (List.exists_mem_cons_iff ..).1⟩
    cases planned : edits.get? index with
    | none =>
      obtain ⟨rest', spliced, below⟩ := ih (Phase.outside_or_stops rescanned here)
        (others.outside_of_touching rescanned rfl (by simp [planned]) isSealed here)
      refine ⟨rest', spliced, below.append.mono ?_⟩
      rintro (⟨text, found, -⟩ | later)
      · cases planned.symm.trans found
      · exact later
    | some text =>
      obtain ⟨rest', spliced, below⟩ := @ih .outside (Or.inl rfl) (fun _ _ _ _ => rfl)
      refine ⟨rest', spliced, ?_⟩
      obtain rfl | ⟨rfl, decimal, rfl⟩ := rewrites _ List.mem_cons_self text planned
      · obtain rfl : here = .outside := by
          rcases place with outside | ⟨hidden, same⟩
          · exact outside
          · exact same.trans (start _ rfl planned hidden)
        refine (below.delete rescanned).mono (Or.imp_left ?_)
        rintro ⟨text, found, counted⟩
        cases planned.symm.trans found
        simpa using counted rfl
      · rw [String.toList_ofList] at decimal
        obtain rfl : here = .outside := by
          rcases place with outside | ⟨hidden, same⟩
          · exact outside
          · refine same.trans (fresh.resolve_right fun stops => ?_)
            obtain ⟨c, digits, rfl⟩ := List.exists_cons_of_ne_nil nonempty
            rw [text, hidden] at stops
            exact Bool.eq_false_iff.1 (stops c rfl) (decimal c List.mem_cons_self)
        rw [Option.map_some, Option.getD_some, String.toList_append, String.toList_ofList,
          List.append_assoc]
        exact (below.promote rescanned decimal).mono fun _ => trivial

end Lexed

end ShaderDialect
