import ShaderDialect.Proofs.SignatureLines

/-!
# Catalogs from texts

Which catalog a text makes is read off its lines. A line that is no signature adds
nothing. Any other one stands for signatures without placeholders, and a text is
refused at the first line that brings a type which is not builtin. So the overloads of a
name are what its lines stand for, line after line, and two lists that are put one
below the other make a catalog with the overloads of both.
-/

namespace ShaderDialect

/-! ### Signatures without placeholders -/

namespace WrittenSignature

/-- The names of all types that a signature mentions. -/
def types (written : WrittenSignature) : List String :=
  written.result :: written.params

def rename (written : WrittenSignature) (f : String → String) : WrittenSignature :=
  { written with result := f written.result, params := written.params.map f }

/-- Every mention of one type replaced by another one. -/
def substitute (written : WrittenSignature) (placeholder member : String) :
    WrittenSignature :=
  written.rename fun type => if type = placeholder then member else type

/-- What a written signature stands for: itself, or one signature for each member of
the first family whose placeholder it mentions. -/
def expansions (written : WrittenSignature) : List WrittenSignature :=
  if "genType" ∈ written.types then
    ["float", "vec2", "vec3", "vec4"].map (written.substitute "genType")
  else if "matType" ∈ written.types then
    ["mat2", "mat3", "mat4"].map (written.substitute "matType")
  else [written]

/-- All that a written signature stands for has builtin types. -/
def Known (written : WrittenSignature) : Prop :=
  ∀ concrete ∈ written.expansions, ∀ type ∈ concrete.types, (Ty.builtin? type).isSome

instance (written : WrittenSignature) : Decidable written.Known :=
  inferInstanceAs (Decidable (∀ concrete ∈ written.expansions, ∀ type ∈ concrete.types, _))

/-- A type that a written signature brings and that is not builtin. -/
def Unknown (written : WrittenSignature) (type : String) : Prop :=
  (∃ concrete ∈ written.expansions, type ∈ concrete.types) ∧ Ty.builtin? type = none

theorem Unknown.not_known {written : WrittenSignature} {type : String}
    (unknown : written.Unknown type) : ¬ written.Known := by
  obtain ⟨⟨concrete, listed, mentioned⟩, other⟩ := unknown
  intro known
  have := known concrete listed type mentioned
  simp [other] at this

theorem mentions_eq (written : WrittenSignature) (placeholder : String) :
    (decide (written.result = placeholder) || written.params.contains placeholder) =
      decide (placeholder ∈ written.types) := by
  rw [List.contains_eq_mem, ← Bool.decide_or]
  exact decide_eq_decide.2 (by rw [types, List.mem_cons, eq_comm])

theorem family?_eq (written : WrittenSignature) :
    written.family? =
      if "genType" ∈ written.types then some ("genType", ["float", "vec2", "vec3", "vec4"])
      else if "matType" ∈ written.types then some ("matType", ["mat2", "mat3", "mat4"])
      else none := by
  simp only [family?, families, mentions_eq, List.find?_cons, List.find?_nil]
  by_cases general : "genType" ∈ written.types
  · simp [general]
  · by_cases matrix : "matType" ∈ written.types <;> simp [general, matrix]

/-- Members of a family are put in by renamings. -/
theorem exists_renamings_of_members (written : WrittenSignature) (placeholder : String)
    {members : List String} (nonempty : members ≠ []) :
    ∃ renamings : List (String → String), renamings ≠ [] ∧
      members.map (written.substitute placeholder) = renamings.map written.rename ∧
      (members.mapM fun member =>
          written.instantiate fun name => if name = placeholder then member else name) =
        renamings.mapM written.instantiate := by
  refine ⟨members.map fun member name => if name = placeholder then member else name,
    by simpa using nonempty, ?_, ?_⟩
  · rw [List.map_map]
    rfl
  · rw [List.mapM_map]
    rfl

/-- A signature is expanded by renamings of its types. -/
theorem exists_renamings (written : WrittenSignature) :
    ∃ renamings : List (String → String), renamings ≠ [] ∧
      written.expansions = renamings.map written.rename ∧
      written.expand = renamings.mapM written.instantiate := by
  rw [expansions, expand, family?_eq]
  split
  · exact written.exists_renamings_of_members "genType" (List.cons_ne_nil _ _)
  · split
    · exact written.exists_renamings_of_members "matType" (List.cons_ne_nil _ _)
    · refine ⟨[id], by simp, by simp [rename], ?_⟩
      rw [List.mapM_cons]
      cases written.instantiate id with
      | error type => rfl
      | ok signature => rfl

theorem expansions_ne_nil (written : WrittenSignature) : written.expansions ≠ [] := by
  obtain ⟨renamings, nonempty, expansions_eq, -⟩ := written.exists_renamings
  rw [expansions_eq]
  simpa using nonempty

theorem name_of_mem_expansions {written concrete : WrittenSignature}
    (listed : concrete ∈ written.expansions) : concrete.name = written.name := by
  obtain ⟨renamings, -, expansions_eq, -⟩ := written.exists_renamings
  rw [expansions_eq] at listed
  obtain ⟨f, -, rfl⟩ := List.mem_map.1 listed
  rfl

/-- Signatures of one name stand for signatures of that name. -/
theorem filter_flatMap_expansions (signatures : List WrittenSignature) (name : String) :
    (signatures.flatMap expansions).filter (·.name = name) =
      (signatures.filter (·.name = name)).flatMap expansions := by
  induction signatures with
  | nil => rfl
  | cons written signatures ih =>
    rw [List.flatMap_cons, List.filter_append, ih]
    by_cases same : written.name = name
    · have all : written.expansions.filter (·.name = name) = written.expansions :=
        List.filter_eq_self.2 fun concrete listed => by
          simp [name_of_mem_expansions listed, same]
      rw [all, List.filter_cons_of_pos (by simpa using same), List.flatMap_cons]
    · have none : written.expansions.filter (·.name = name) = [] :=
        List.filter_eq_nil_iff.2 fun concrete listed => by
          simp [name_of_mem_expansions listed, same]
      rw [none, List.filter_cons_of_neg (by simpa using same), List.nil_append]

end WrittenSignature

/-! ### Signatures of builtin types -/

/-- A signature as it is written in full. -/
def Signature.written (signature : Signature) : WrittenSignature where
  result := signature.result.name
  name := signature.name
  params := signature.params.map Ty.name

/-- A signature all of whose types are the builtin ones of their names. -/
def Signature.Builtin (signature : Signature) : Prop :=
  ∀ ty ∈ signature.result :: signature.params, Ty.builtin? ty.name = some ty

theorem Signature.types_written (signature : Signature) :
    signature.written.types = (signature.result :: signature.params).map Ty.name :=
  rfl

theorem Signature.Builtin.isSome {signature : Signature} (builtin : signature.Builtin)
    {type : String} (mentioned : type ∈ signature.written.types) :
    (Ty.builtin? type).isSome := by
  rw [signature.types_written] at mentioned
  obtain ⟨ty, listed, rfl⟩ := List.mem_map.1 mentioned
  rw [builtin ty listed]
  rfl

/-- A list is known from its image under a map that tells its members apart. -/
theorem eq_of_map_eq {α β : Type} {f : α → β} {P : α → Prop}
    (tells : ∀ a b, P a → P b → f a = f b → a = b) {items others : List α}
    (all : ∀ item ∈ items, P item) (all' : ∀ item ∈ others, P item)
    (same : items.map f = others.map f) : items = others := by
  induction items generalizing others with
  | nil => exact (List.map_eq_nil_iff.1 same.symm).symm
  | cons item items ih =>
    cases others with
    | nil => cases same
    | cons other others =>
      obtain ⟨first, rest⟩ := List.cons.inj same
      rw [List.forall_mem_cons] at all all'
      rw [tells item other all.1 all'.1 first, ih all.2 all'.2 rest]

theorem Signature.eq_of_written {signature other : Signature}
    (builtin : signature.Builtin) (builtin' : other.Builtin)
    (same : signature.written = other.written) :
    signature = other := by
  have types : signature.result :: signature.params = other.result :: other.params := by
    refine eq_of_map_eq (fun ty ty' known known' named => ?_) builtin builtin'
      (congrArg WrittenSignature.types same)
    rw [named, known'] at known
    exact (Option.some.inj known).symm
  have name : signature.name = other.name := congrArg WrittenSignature.name same
  obtain ⟨result, params⟩ := List.cons.inj types
  cases signature
  cases other
  simp_all

/-- A traversal gives the image of every item, or the first error of one. -/
theorem mapM_cases {α β γ ε : Type} {f : α → Except ε β} {view : β → γ} {expected : α → γ}
    (agrees : ∀ item value, f item = .ok value → view value = expected item)
    (items : List α) :
    (∃ values, items.mapM f = .ok values ∧ values.map view = items.map expected ∧
      ∀ value ∈ values, ∃ item ∈ items, f item = .ok value) ∨
    ∃ item ∈ items, ∃ cause, f item = .error cause ∧ items.mapM f = .error cause := by
  induction items with
  | nil => exact .inl ⟨[], rfl, rfl, by simp⟩
  | cons item items ih =>
    rw [List.mapM_cons]
    cases first : f item with
    | error cause => exact .inr ⟨item, List.mem_cons_self, cause, first, rfl⟩
    | ok value =>
      rcases ih with ⟨values, read, viewed, sources⟩ |
        ⟨other, listed, cause, failed, read⟩
      · refine .inl ⟨value :: values, by rw [read]; rfl, ?_, ?_⟩
        · rw [List.map_cons, List.map_cons, viewed, agrees item value first]
        · rw [List.forall_mem_cons]
          refine ⟨⟨item, List.mem_cons_self, first⟩, fun other listed => ?_⟩
          obtain ⟨source, isSource, found⟩ := sources other listed
          exact ⟨source, List.mem_cons_of_mem _ isSource, found⟩
      · exact .inr ⟨other, List.mem_cons_of_mem _ listed, cause,
          failed, by rw [read]; rfl⟩

namespace WrittenSignature

theorem resolve_eq_ok {name : String} {ty : Ty} (read : resolve name = .ok ty) :
    ty.name = name ∧ Ty.builtin? ty.name = some ty := by
  cases known : Ty.builtin? name with
  | none =>
    rw [resolve, known] at read
    cases read
  | some ty' =>
    rw [resolve, known] at read
    cases read
    have named := (Ty.mem_of_builtin? known).2
    exact ⟨named, named.symm ▸ known⟩

theorem resolve_eq_error {name type : String} (read : resolve name = .error type) :
    type = name ∧ Ty.builtin? name = none := by
  cases known : Ty.builtin? name with
  | none =>
    rw [resolve, known] at read
    cases read
    exact ⟨rfl, rfl⟩
  | some ty =>
    rw [resolve, known] at read
    cases read

/-- An overload has the renamed types, unless one of them is not builtin. -/
theorem instantiate_cases (written : WrittenSignature) (f : String → String) :
    (∃ signature, written.instantiate f = .ok signature ∧
      signature.written = written.rename f ∧ signature.Builtin) ∨
    ∃ type ∈ (written.rename f).types, Ty.builtin? type = none ∧
      written.instantiate f = .error type := by
  unfold instantiate
  cases first : resolve (f written.result) with
  | error type =>
    obtain ⟨rfl, unknown⟩ := resolve_eq_error first
    exact .inr ⟨_, List.mem_cons_self, unknown, rfl⟩
  | ok result =>
    obtain ⟨named, known⟩ := resolve_eq_ok first
    have renamed : ∀ param ty, resolve (f param) = .ok ty → ty.name = f param :=
      fun _ _ read => (resolve_eq_ok read).1
    rcases mapM_cases renamed written.params with
      ⟨params, read, names, sources⟩ | ⟨param, listed, type, failed, read⟩
    · refine .inl ⟨{ name := written.name, params, result }, by rw [read]; rfl, ?_, ?_⟩
      · rw [Signature.written, rename, named, names]
      · refine List.forall_mem_cons.2 ⟨known, fun ty listed => ?_⟩
        obtain ⟨param, -, found⟩ := sources ty listed
        exact (resolve_eq_ok found).2
    · obtain ⟨rfl, unknown⟩ := resolve_eq_error failed
      exact .inr ⟨_, List.mem_cons_of_mem _ (List.mem_map_of_mem listed),
        unknown, by rw [read]; rfl⟩

/-- The overloads of a signature are all it stands for, unless a type is not builtin. -/
theorem expand_cases (written : WrittenSignature) :
    (∃ signatures, written.expand = .ok signatures ∧
      signatures.map Signature.written = written.expansions ∧
      ∀ signature ∈ signatures, signature.Builtin) ∨
    ∃ type, written.Unknown type ∧ written.expand = .error type := by
  obtain ⟨renamings, -, expansions_eq, expand_eq⟩ := written.exists_renamings
  have instantiated : ∀ f signature, written.instantiate f = .ok signature →
      signature.written = written.rename f ∧ signature.Builtin := by
    intro f signature made
    rcases written.instantiate_cases f with ⟨other, made', whole⟩ | ⟨type, -, -, failed⟩
    · rw [made] at made'
      cases made'
      exact whole
    · rw [made] at failed
      cases failed
  rw [expand_eq, expansions_eq]
  rcases mapM_cases (fun f signature made => (instantiated f signature made).1) renamings with
    ⟨signatures, read, names, sources⟩ | ⟨f, listed, type, failed, read⟩
  · refine .inl ⟨signatures, read, names, fun signature member => ?_⟩
    obtain ⟨f, -, made⟩ := sources signature member
    exact (instantiated f signature made).2
  · rcases written.instantiate_cases f with ⟨other, made, -⟩ |
      ⟨type', mentioned, unknown, failed'⟩
    · rw [failed] at made
      cases made
    · rw [failed] at failed'
      cases failed'
      refine .inr ⟨type, ⟨⟨written.rename f, ?_, mentioned⟩, unknown⟩, read⟩
      rw [expansions_eq]
      exact List.mem_map_of_mem listed

theorem known_of_builtin {written : WrittenSignature} {signatures : List Signature}
    (names : signatures.map Signature.written = written.expansions)
    (builtin : ∀ signature ∈ signatures, signature.Builtin) : written.Known := by
  intro concrete listed type mentioned
  rw [← names] at listed
  obtain ⟨signature, member, rfl⟩ := List.mem_map.1 listed
  exact (builtin signature member).isSome mentioned

end WrittenSignature

namespace Catalog

/-! ### Catalogs -/

/-- The signatures among the lines of a text, as written. -/
def writtenIn (text : String) : List WrittenSignature :=
  (text.toList.splitOn '\n').filterMap WrittenSignature.ofLine?

theorem writtenIn_append (text more : String) :
    writtenIn (text ++ "\n" ++ more) = writtenIn text ++ writtenIn more := by
  have chars : (text ++ "\n" ++ more).toList = text.toList ++ '\n' :: more.toList := by
    rw [String.toList_append, String.toList_append, List.append_assoc]
    rfl
  rw [writtenIn, chars, List.splitOn_append_cons_self, List.filterMap_append, writtenIn,
    writtenIn]

/-- Lines are read up to the first signature that brings a type which is not builtin. -/
theorem readLines_cases (number : Nat) (lines : List (List Char)) :
    (∃ signatures, readLines number lines = .ok signatures ∧
      (∀ written ∈ lines.filterMap WrittenSignature.ofLine?, written.Known) ∧
      signatures.map Signature.written =
        (lines.filterMap WrittenSignature.ofLine?).flatMap WrittenSignature.expansions ∧
      ∀ signature ∈ signatures, signature.Builtin) ∨
    ∃ before line after written type, lines = before ++ line :: after ∧
      (∀ earlier ∈ before.filterMap WrittenSignature.ofLine?, earlier.Known) ∧
      WrittenSignature.ofLine? line = some written ∧ written.Unknown type ∧
      readLines number lines =
        .error (.unknownType (number + before.length) type written.name) := by
  induction lines generalizing number with
  | nil => exact .inl ⟨[], rfl, by simp, rfl, by simp⟩
  | cons line lines ih =>
    rw [readLines]
    cases parsed : WrittenSignature.ofLine? line with
    | none =>
      rw [List.filterMap_cons_none parsed]
      rcases ih (number + 1) with whole |
        ⟨before, bad, after, written, type, rfl, known, others⟩
      · exact .inl whole
      · refine .inr ⟨line :: before, bad, after, written, type, rfl, ?_, ?_⟩
        · rwa [List.filterMap_cons_none parsed]
        · rwa [List.length_cons, Nat.add_comm before.length, ← Nat.add_assoc]
    | some written =>
      rw [List.filterMap_cons_some parsed]
      rcases written.expand_cases with ⟨own, expanded, names, builtin⟩ |
        ⟨type, unknown, failed⟩
      · have known := WrittenSignature.known_of_builtin names builtin
        rcases ih (number + 1) with
          ⟨signatures, read, others, names', builtin'⟩ |
          ⟨before, bad, after, written', type, rfl, earlier, parsed', unknown, failed⟩
        · refine .inl ⟨own ++ signatures, by simp only [expanded, read]; rfl,
            List.forall_mem_cons.2 ⟨known, others⟩, ?_, ?_⟩
          · rw [List.map_append, names, names', List.flatMap_cons]
          · exact List.forall_mem_append.2 ⟨builtin, builtin'⟩
        · refine .inr ⟨line :: before, bad, after, written', type, rfl, ?_, parsed',
            unknown, ?_⟩
          · rw [List.filterMap_cons_some parsed]
            exact List.forall_mem_cons.2 ⟨known, earlier⟩
          · simp only [expanded, failed, List.length_cons, Nat.add_comm before.length,
              ← Nat.add_assoc]
            rfl
      · exact .inr ⟨[], line, lines, written, type, rfl, by simp, parsed, unknown,
          by simp only [failed]; rfl⟩

/-- A text makes a catalog, has no signature, or brings a type which is not builtin. -/
theorem ofText_cases (text : String) :
    (∃ catalog, ofText text = .ok catalog ∧ writtenIn text ≠ [] ∧
      (∀ written ∈ writtenIn text, written.Known) ∧
      catalog.signatures.map Signature.written =
        (writtenIn text).flatMap WrittenSignature.expansions ∧
      ∀ signature ∈ catalog.signatures, signature.Builtin) ∨
    (ofText text = .error .noSignatures ∧ writtenIn text = []) ∨
    ∃ before line after written type, text.toList.splitOn '\n' = before ++ line :: after ∧
      (∀ earlier ∈ before.filterMap WrittenSignature.ofLine?, earlier.Known) ∧
      WrittenSignature.ofLine? line = some written ∧ written.Unknown type ∧
      ofText text = .error (.unknownType (before.length + 1) type written.name) := by
  rw [ofText, readLines_lines]
  rcases readLines_cases 1 (text.toList.splitOn '\n') with
    ⟨signatures, read, known, names, builtin⟩ |
    ⟨before, line, after, written, type, shape, earlier, parsed, unknown, failed⟩
  · rw [← writtenIn] at known names
    cases signatures with
    | nil =>
      refine .inr (.inl ⟨by rw [read], ?_⟩)
      cases listed : writtenIn text with
      | nil => rfl
      | cons written others =>
        rw [listed, List.flatMap_cons] at names
        exact absurd (List.append_eq_nil_iff.1 names.symm).1 written.expansions_ne_nil
    | cons signature signatures =>
      refine .inl ⟨ofSignatures (signature :: signatures), by rw [read], ?_, known, names, builtin⟩
      intro none
      rw [none] at names
      cases names
  · refine .inr (.inr ⟨before, line, after, written, type, shape, earlier, parsed, unknown, ?_⟩)
    rw [failed, Nat.add_comm 1]

theorem exists_ofText_iff (text : String) :
    (∃ catalog, ofText text = .ok catalog) ↔
      writtenIn text ≠ [] ∧ ∀ written ∈ writtenIn text, written.Known := by
  rcases ofText_cases text with ⟨catalog, read, nonempty, known, -⟩ | ⟨failed, none⟩ |
    ⟨before, line, after, written, type, shape, -, parsed, unknown, failed⟩
  · exact ⟨fun _ => ⟨nonempty, known⟩, fun _ => ⟨catalog, read⟩⟩
  · simp [failed, none]
  · have listed : written ∈ writtenIn text := by
      rw [writtenIn, shape]
      exact List.mem_filterMap.2 ⟨line, by simp, parsed⟩
    constructor
    · rintro ⟨catalog, read⟩
      cases failed.symm.trans read
    · rintro ⟨-, known⟩
      exact absurd (known written listed) unknown.not_known

section Accepted

variable {text : String} {catalog : Catalog}

theorem signatures_of_ofText (read : ofText text = .ok catalog) :
    catalog.signatures.map Signature.written =
        (writtenIn text).flatMap WrittenSignature.expansions ∧
      ∀ signature ∈ catalog.signatures, signature.Builtin := by
  rcases ofText_cases text with
    ⟨catalog', read', -, -, whole⟩ | ⟨failed, -⟩ | ⟨_, _, _, _, _, -, -, -, -, failed⟩
  · cases read.symm.trans read'
    exact whole
  · cases read.symm.trans failed
  · cases read.symm.trans failed

theorem map_written_overloads (read : ofText text = .ok catalog) (name : String) :
    (catalog.overloads name).map Signature.written =
      ((writtenIn text).filter (·.name = name)).flatMap WrittenSignature.expansions := by
  rw [overloads_eq_filter, ← WrittenSignature.filter_flatMap_expansions,
    ← (signatures_of_ofText read).1, List.filter_map]
  rfl

theorem builtin_of_mem_overloads (read : ofText text = .ok catalog) {name : String}
    {signature : Signature} (listed : signature ∈ catalog.overloads name) :
    signature.Builtin := by
  rw [overloads_eq_filter] at listed
  exact (signatures_of_ofText read).2 signature (List.mem_filter.1 listed).1

theorem size_of_ofText (read : ofText text = .ok catalog) :
    catalog.size = ((writtenIn text).map (·.expansions.length)).foldr (· + ·) 0 := by
  rw [size, ← List.length_map (f := Signature.written), (signatures_of_ofText read).1,
    List.length_flatMap]
  rfl

end Accepted

/-- One list of signatures below another. -/
theorem exists_ofText_append {text more : String} {first second : Catalog}
    (read : ofText text = .ok first) (read' : ofText more = .ok second) :
    ∃ both, ofText (text ++ "\n" ++ more) = .ok both ∧
      ∀ name, both.overloads name = first.overloads name ++ second.overloads name := by
  obtain ⟨nonempty, known⟩ := (exists_ofText_iff text).1 ⟨first, read⟩
  obtain ⟨-, known'⟩ := (exists_ofText_iff more).1 ⟨second, read'⟩
  have accepted := exists_ofText_iff (text ++ "\n" ++ more)
  rw [writtenIn_append, List.forall_mem_append] at accepted
  obtain ⟨both, readBoth⟩ :=
    accepted.2 ⟨List.append_ne_nil_of_left_ne_nil nonempty _, known, known'⟩
  refine ⟨both, readBoth, fun name => ?_⟩
  -- Builtin overloads are known from their spellings, and these are put one below the other.
  refine eq_of_map_eq (fun _ _ => Signature.eq_of_written)
    (fun _ => builtin_of_mem_overloads readBoth) ?_ ?_
  · exact List.forall_mem_append.2
      ⟨fun _ => builtin_of_mem_overloads read, fun _ => builtin_of_mem_overloads read'⟩
  · rw [List.map_append, map_written_overloads readBoth, map_written_overloads read,
      map_written_overloads read', writtenIn_append, List.filter_append,
      List.flatMap_append]

/-- A text makes a catalog exactly if some line is a signature and all that its lines
stand for has builtin types. Else it has no signature, or its first line with another type
is named. The overloads of a name are what its lines stand for, in their order, and none
mentions a placeholder. One list below another gives the overloads of the one, then those
of the other. -/
theorem ofText_by_lines (text : String) :
    ((∃ catalog, ofText text = .ok catalog) ↔
      writtenIn text ≠ [] ∧ ∀ written ∈ writtenIn text, written.Known) ∧
    (∀ cause, ofText text = .error cause →
      (cause = .noSignatures ∧ writtenIn text = []) ∨
      ∃ before line after written type,
        text.toList.splitOn '\n' = before ++ line :: after ∧
        (∀ earlier ∈ before.filterMap WrittenSignature.ofLine?, earlier.Known) ∧
        WrittenSignature.ofLine? line = some written ∧ written.Unknown type ∧
        cause = .unknownType (before.length + 1) type written.name) ∧
    (∀ catalog, ofText text = .ok catalog →
      (∀ name, (catalog.overloads name).map Signature.written =
          ((writtenIn text).filter (·.name = name)).flatMap WrittenSignature.expansions ∧
        ∀ signature ∈ catalog.overloads name, signature.Builtin ∧
          "genType" ∉ signature.written.types ∧ "matType" ∉ signature.written.types) ∧
      catalog.size = ((writtenIn text).map (·.expansions.length)).foldr (· + ·) 0) ∧
    ∀ more first second, ofText text = .ok first → ofText more = .ok second →
      ∃ both, ofText (text ++ "\n" ++ more) = .ok both ∧
        ∀ name, both.overloads name = first.overloads name ++ second.overloads name := by
  refine ⟨exists_ofText_iff text, fun cause failed => ?_, fun catalog read => ⟨fun name =>
    ⟨map_written_overloads read name, fun signature listed => ?_⟩, size_of_ofText read⟩,
    fun more first second => exists_ofText_append⟩
  · rcases ofText_cases text with ⟨catalog, read, -⟩ | ⟨failed', none⟩ |
      ⟨before, line, after, written, type, shape, earlier, parsed, unknown, failed'⟩
    · cases failed.symm.trans read
    · cases failed.symm.trans failed'
      exact .inl ⟨rfl, none⟩
    · cases failed.symm.trans failed'
      exact .inr ⟨before, line, after, written, type, shape, earlier, parsed,
        unknown, rfl⟩
  · have builtin := builtin_of_mem_overloads read listed
    refine ⟨builtin, fun mentioned => ?_, fun mentioned => ?_⟩
    · exact absurd (builtin.isSome mentioned) (by decide)
    · exact absurd (builtin.isSome mentioned) (by decide)

/-- A line with a placeholder, and below it another list with a line that is skipped. -/
theorem ofText_by_lines_step : ∃ first second both,
    ofText "genType step(float edge, genType x)" = .ok first ∧
    ofText "no signature\nfloat step(in vec2 x);" = .ok second ∧
    ofText ("genType step(float edge, genType x)" ++ "\n" ++
      "no signature\nfloat step(in vec2 x);") = .ok both ∧
    (both.overloads "step").map Signature.written =
      [⟨"float", "step", ["float", "float"]⟩, ⟨"vec2", "step", ["float", "vec2"]⟩,
        ⟨"vec3", "step", ["float", "vec3"]⟩, ⟨"vec4", "step", ["float", "vec4"]⟩,
        ⟨"float", "step", ["vec2"]⟩] := by
  have above : writtenIn "genType step(float edge, genType x)" =
      [⟨"genType", "step", ["float", "genType"]⟩] := by
    decide +kernel
  have below : writtenIn "no signature\nfloat step(in vec2 x);" =
      [⟨"float", "step", ["vec2"]⟩] := by
    decide +kernel
  obtain ⟨accepted, -, overloads, appended⟩ :=
    ofText_by_lines "genType step(float edge, genType x)"
  obtain ⟨accepted', -, overloads', -⟩ :=
    ofText_by_lines "no signature\nfloat step(in vec2 x);"
  rw [above] at accepted overloads
  rw [below] at accepted' overloads'
  obtain ⟨first, read⟩ := accepted.2 (by decide)
  obtain ⟨second, read'⟩ := accepted'.2 (by decide)
  obtain ⟨both, readBoth, joined⟩ := appended _ first second read read'
  refine ⟨first, second, both, read, read', readBoth, ?_⟩
  rw [joined, List.map_append, ((overloads first read).1 "step").1,
    ((overloads' second read').1 "step").1]
  decide

end Catalog

end ShaderDialect
