import Mathlib.Data.List.Induction
import ShaderDialect.Proofs.LinePositions
import ShaderDialect.Proofs.Totality

/-!
# What the diagnostics show

A walk lists what it finds, known or not. The diagnostics are that list at the
positions of its tokens, each entry where it first comes up. In a text of less
than four gigabytes no two tokens have one position, and no two problems of one
token have one message. So every finding is shown there, and at one token only.
-/

namespace ShaderDialect

/-! ### First occurrences -/

section FirstOccurrences

variable {α β : Type} [BEq α] [LawfulBEq α] [BEq β] [LawfulBEq β]

theorem eraseDups_concat_of_mem {items : List α} {item : α} (known : item ∈ items) :
    (items ++ [item]).eraseDups = items.eraseDups := by
  simp [List.eraseDups_append, List.removeAll, known]

theorem eraseDups_concat_of_notMem {items : List α} {item : α} (new : item ∉ items) :
    (items ++ [item]).eraseDups = items.eraseDups ++ [item] := by
  simp [List.eraseDups_append, List.removeAll, new, List.eraseDups_cons]

theorem nodup_eraseDups (items : List α) : items.eraseDups.Nodup := by
  induction items using List.reverseRecOn with
  | nil => exact List.nodup_nil
  | append_singleton items item ih =>
    by_cases known : item ∈ items
    · rwa [eraseDups_concat_of_mem known]
    · rw [eraseDups_concat_of_notMem known, List.nodup_append]
      refine ⟨ih, by simp, fun other member single listed same => known ?_⟩
      rw [← List.mem_singleton.1 listed, ← same]
      exact List.mem_eraseDups.1 member

/-- What is seen of different items is different, so it first occurs where they do. -/
theorem eraseDups_map {f : α → β} {items : List α}
    (apart : ∀ item ∈ items, ∀ other ∈ items, f item = f other → item = other) :
    (items.map f).eraseDups = items.eraseDups.map f := by
  induction items using List.reverseRecOn with
  | nil => rfl
  | append_singleton items item ih =>
    have earlier := ih fun item member other member' =>
      apart item (List.mem_append_left _ member) other (List.mem_append_left _ member')
    rw [List.map_append, List.map_singleton]
    by_cases known : item ∈ items
    · rw [eraseDups_concat_of_mem known, eraseDups_concat_of_mem (List.mem_map_of_mem known),
        earlier]
    · have new : f item ∉ items.map f := by
        intro seen
        obtain ⟨other, member, same⟩ := List.mem_map.1 seen
        exact known (apart other (List.mem_append_left _ member) item (by simp) same ▸ member)
      rw [eraseDups_concat_of_notMem known, eraseDups_concat_of_notMem new, earlier,
        List.map_append, List.map_singleton]

theorem eraseDups_isPrefix {items items' : List α} (h : items <+: items') :
    items.eraseDups <+: items'.eraseDups := by
  obtain ⟨more, rfl⟩ := h
  rw [List.eraseDups_append]
  exact List.prefix_append _ _

end FirstOccurrences

/-- Reporting keeps of a list what stands in it first. -/
theorem Diagnostic.shown_eq_eraseDups (reported : List Diagnostic) :
    shown reported = reported.eraseDups := by
  induction reported using List.reverseRecOn with
  | nil => rfl
  | append_singleton reported diagnostic ih =>
    rw [shown, List.foldl_append, List.foldl_cons, List.foldl_nil, ← shown, ih, report]
    by_cases known : diagnostic ∈ reported
    · rw [if_pos (List.mem_eraseDups.2 known), eraseDups_concat_of_mem known]
    · rw [if_neg (fun member => known (List.mem_eraseDups.1 member)),
        eraseDups_concat_of_notMem known]

/-! ### Messages tell the problems of a token apart -/

/-- Texts whose first characters differ somewhere are different, whatever
follows. -/
theorem append_ne_append {first first' : String} (rest rest' : String)
    (clash : ¬ first.toList <+: first'.toList ∧ ¬ first'.toList <+: first.toList) :
    first ++ rest ≠ first' ++ rest' := by
  intro same
  have chars : first.toList ++ rest.toList = first'.toList ++ rest'.toList := by
    rw [← String.toList_append, same, String.toList_append]
  rcases Nat.le_total first.toList.length first'.toList.length with le | le
  · exact clash.1 (List.prefix_of_prefix_length_le ⟨_, chars⟩ (List.prefix_append _ _) le)
  · exact clash.2 (List.prefix_of_prefix_length_le ⟨_, chars.symm⟩ (List.prefix_append _ _) le)

theorem eq_of_framed {first last name name' : String}
    (same : first ++ (name ++ last) = first ++ (name' ++ last)) : name = name' :=
  (String.append_left_inj last).1 ((String.append_right_inj first).1 same)

theorem SwizzleError.message_inj {cause cause' : SwizzleError}
    (same : cause.message = cause'.message) :
    cause = cause' := by
  have letter : ∀ (c c' : Char) (rest rest' : String),
      c.toString ++ rest = c'.toString ++ rest' → c = c' ∧ rest = rest' := by
    intro c c' rest rest' same
    simpa [String.toList_inj] using congrArg String.toList same
  unfold message at same
  cases cause <;> cases cause' <;> simp only [String.append_assoc] at same
  case empty.empty => rfl
  case invalidLetter.invalidLetter c c' =>
    rw [(letter _ _ _ _ ((String.append_right_inj _).1 same)).1]
  case outOfRange.outOfRange c vector c' vector' =>
    obtain ⟨rfl, rest⟩ := letter _ _ _ _ ((String.append_right_inj _).1 same)
    rw [(String.append_right_inj _).1 rest]
  case tooLong.tooLong swizzle swizzle' =>
    rw [eq_of_framed same]
  case empty.invalidLetter | empty.outOfRange | empty.tooLong | invalidLetter.empty
      | outOfRange.empty | tooLong.empty =>
    rw [← @String.append_empty "empty swizzle"] at same
    exact absurd same (append_ne_append _ _ (by decide))
  all_goals exact absurd same (append_ne_append _ _ (by decide))

/-- The fields that an error speaks of are all the given one, and it is not
about a size. -/
def TypeError.Concerns (field : String) : TypeError → Prop
  | .noVectorOf _ => True
  | .vectorSize _ => False
  | .noField _ field' => field' = field
  | .noFields _ field' => field' = field

theorem TypeError.message_inj {field : String} {cause cause' : TypeError}
    (h : cause.Concerns field) (h' : cause'.Concerns field)
    (same : cause.message = cause'.message) :
    cause = cause' := by
  unfold message at same
  cases cause <;> cases cause' <;> simp only [Concerns, String.append_assoc] at same h h'
  case noVectorOf.noVectorOf =>
    rw [eq_of_framed same]
  case noField.noField =>
    rw [h, h'] at same ⊢
    rw [eq_of_framed same]
  case noFields.noFields =>
    rw [h, h'] at same ⊢
    rw [eq_of_framed same]
  all_goals exact absurd same (append_ne_append _ _ (by decide))

theorem Error.message_type (cause : TypeError) :
    (Error.type cause).message = "Type error: " ++ cause.message :=
  congrArg (· ++ cause.message) (by decide : "Type error" ++ ": " = "Type error: ")

theorem Error.message_swizzle (cause : SwizzleError) :
    (Error.swizzle cause).message = "Swizzle error: " ++ cause.message :=
  congrArg (· ++ cause.message) (by decide : "Swizzle error" ++ ": " = "Swizzle error: ")

namespace Ty

theorem vector?_eq_error {element : Ty} {size : Nat} {cause : TypeError}
    (h : element.vector? size = .error cause) (fits : 2 ≤ size ∧ size ≤ 4) :
    cause = .noVectorOf element.name := by
  unfold vector? at h
  split at h
  · cases h
    rfl
  · simp [fits] at h

/-- A swizzle fails by its letters, or for want of a vector type. -/
theorem swizzle_eq_error {element : Ty} {size : Nat} {letters : String} {cause : Error}
    (h : swizzle element size letters = .error cause) :
    cause = .type (.noVectorOf element.name) ∨ ∃ cause', cause = .swizzle cause' := by
  unfold swizzle at h
  split at h
  · cases h
    exact .inr ⟨_, rfl⟩
  · rename_i nonempty
    split at h
    · cases h
      exact .inr ⟨_, rfl⟩
    · split_ifs at h with single long
      · cases h
        exact .inr ⟨_, rfl⟩
      · split at h
        · rename_i cause' failed
          cases h
          have some : letters.length ≠ 0 := by
            rintro none
            exact nonempty (by simpa [String.isEmpty_iff] using none)
          rw [vector?_eq_error failed ⟨by omega, by omega⟩]
          exact .inl rfl
        · cases h

/-- Why a type has no member of a name. -/
theorem member_eq_error {owner : Ty} {field : String} {cause : Error}
    (h : owner.member field = .error cause) :
    (∃ cause' : TypeError, cause'.Concerns field ∧ cause = .type cause') ∨
      ∃ cause' : SwizzleError, cause = .swizzle cause' := by
  unfold member at h
  split at h
  · cases h
    exact .inl ⟨.noFields _ field, rfl, rfl⟩
  · split at h
    · cases h
    · cases h
      exact .inl ⟨.noField _ field, rfl, rfl⟩
  · rcases swizzle_eq_error h with rfl | failed
    · exact .inl ⟨.noVectorOf _, trivial, rfl⟩
    · exact .inr failed

/-- Members of one name that are missing for different reasons are reported with
different messages. -/
theorem member_message_inj {owner owner' : Ty} {field : String} {cause cause' : Error}
    (h : owner.member field = .error cause) (h' : owner'.member field = .error cause')
    (same : cause.message = cause'.message) : cause = cause' := by
  rcases member_eq_error h with ⟨cause, concerns, rfl⟩ | ⟨cause, rfl⟩ <;>
    rcases member_eq_error h' with ⟨cause', concerns', rfl⟩ | ⟨cause', rfl⟩
  · rw [TypeError.message_inj concerns concerns' ((String.append_right_inj _).1 same)]
  · rw [Error.message_type, Error.message_swizzle] at same
    exact absurd same (append_ne_append _ _ (by decide))
  · rw [Error.message_type, Error.message_swizzle] at same
    exact absurd same (append_ne_append _ _ (by decide))
  · rw [SwizzleError.message_inj ((String.append_right_inj _).1 same)]

theorem message_of_member {owner : Ty} {field : String} {cause : Error}
    (h : owner.member field = .error cause) :
    ∃ detail, cause.message = "Type error: " ++ detail ∨
      cause.message = "Swizzle error: " ++ detail := by
  rcases member_eq_error h with ⟨cause, -, rfl⟩ | ⟨cause, rfl⟩
  · exact ⟨_, .inl (Error.message_type cause)⟩
  · exact ⟨_, .inr (Error.message_swizzle cause)⟩

end Ty

theorem Problem.message_inj {token : Token} {problem problem' : Problem}
    (h : problem.ArisesAt token) (h' : problem'.ArisesAt token)
    (same : problem.message = problem'.message) :
    problem = problem' := by
  unfold message at same
  cases problem <;> cases problem' <;> simp only [String.append_assoc] at same
  case unresolvedIdentifier.unresolvedIdentifier =>
    rw [eq_of_framed same]
  case unknownType.unknownType =>
    rw [eq_of_framed same]
  case unknownParameterType.unknownParameterType =>
    rw [eq_of_framed same]
  case member.member cause cause' =>
    obtain ⟨owner, missing⟩ := h cause rfl
    obtain ⟨owner', missing'⟩ := h' cause' rfl
    rw [Ty.member_message_inj missing missing' same]
  case unresolvedIdentifier.member | unknownType.member | unknownParameterType.member =>
    obtain ⟨owner, missing⟩ := h' _ rfl
    obtain ⟨detail, headed | headed⟩ := Ty.message_of_member missing <;>
      exact absurd (same.trans headed) (append_ne_append _ _ (by decide))
  case member.unresolvedIdentifier | member.unknownType | member.unknownParameterType =>
    obtain ⟨owner, missing⟩ := h _ rfl
    obtain ⟨detail, headed | headed⟩ := Ty.message_of_member missing <;>
      exact absurd (headed.symm.trans same) (append_ne_append _ _ (by decide))
  all_goals exact absurd same (append_ne_append _ _ (by decide))

/-! ### Findings at their tokens -/

/-- The message of a finding, at the number of its token. -/
def Finding.item (finding : Finding) : Nat × String :=
  (finding.token, finding.problem.message)

namespace TokenStream

/-- A message at the position of a token. -/
def diagnosticAt (stream : TokenStream) (item : Nat × String) : Diagnostic :=
  ⟨stream.positionOf item.1, item.2⟩

/-- The diagnostics are the given messages at the tokens of the given numbers. -/
def Shows (stream : TokenStream) (items : List (Nat × String))
    (diagnostics : List Diagnostic) :
    Prop :=
  (∀ item ∈ items, item.1 < stream.lexemes.length) ∧
    items.map stream.diagnosticAt = diagnostics

section Small

variable {source : String} {stream : TokenStream} (cut : ofSource source = .ok stream)
  (small : byteSize source.toList < UInt32.size)

include cut small

theorem diagnosticAt_inj {item other : Nat × String}
    (inside : item.1 < stream.lexemes.length)
    (inside' : other.1 < stream.lexemes.length)
    (same : stream.diagnosticAt item = stream.diagnosticAt other) : item = other := by
  obtain ⟨position, message⟩ := Diagnostic.mk.inj same
  exact Prod.ext (positionOf_inj cut small inside inside' position) message

/-- Diagnostics show one sequence of tokens and messages. -/
theorem Shows.unique {items others : List (Nat × String)} {diagnostics : List Diagnostic}
    (h : stream.Shows items diagnostics) (h' : stream.Shows others diagnostics) :
    items = others := by
  obtain ⟨inside, rfl⟩ := h
  obtain ⟨inside', same⟩ := h'
  induction items generalizing others with
  | nil => exact (List.map_eq_nil_iff.1 same).symm
  | cons item items ih =>
    obtain ⟨other, others, rfl, first, rest⟩ := List.map_eq_cons_iff.1 same
    obtain ⟨here, behind⟩ := List.forall_mem_cons.1 inside
    obtain ⟨here', behind'⟩ := List.forall_mem_cons.1 inside'
    rw [diagnosticAt_inj cut small here' here first, ih behind behind' rest]

end Small

end TokenStream

namespace SyntaxTree

/-- What a walk finds in a tree: its findings at their tokens, each where it first
comes up. -/
def found (tree : SyntaxTree) (catalog : Catalog) : List (Nat × String) :=
  ((Plan.ofTree catalog tree.root).findings.toList.map Finding.item).eraseDups

theorem diagnose_eq_eraseDups (tree : SyntaxTree) (findings : Findings) :
    tree.diagnose findings =
      ((findings.toList.map Finding.item).map tree.stream.diagnosticAt).eraseDups := by
  rw [← Diagnostic.shown_eq_eraseDups, List.map_map]
  rfl

section Small

variable {source : String} {tree : SyntaxTree} (h : ofSource source = .ok tree)
  (small : byteSize source.toList < UInt32.size) (catalog : Catalog)

include h small

/-- The diagnostics of a plan show what the walk found. -/
theorem shows_diagnose_iff {items : List (Nat × String)} :
    tree.stream.Shows items (tree.diagnose (Plan.ofTree catalog tree.root).findings) ↔
      items = tree.found catalog := by
  obtain ⟨cut, -⟩ := ofSource_eq_ok h
  have inside : ∀ item ∈ (Plan.ofTree catalog tree.root).findings.toList.map Finding.item,
      item.1 < tree.stream.lexemes.length := by
    intro item member
    obtain ⟨finding, listed, rfl⟩ := List.mem_map.1 member
    exact (inRange h catalog).finding listed
  have shows : tree.stream.Shows (tree.found catalog)
      (tree.diagnose (Plan.ofTree catalog tree.root).findings) := by
    refine ⟨fun item member => inside item (List.mem_eraseDups.1 member), ?_⟩
    rw [diagnose_eq_eraseDups, found]
    refine (eraseDups_map fun item member other member' => ?_).symm
    exact TokenStream.diagnosticAt_inj cut small (inside item member) (inside other member')
  exact ⟨fun other => other.unique cut small shows, fun same => same ▸ shows⟩

/-- No finding is hidden by another. -/
theorem diagnose_eq_map :
    tree.diagnose (Plan.ofTree catalog tree.root).findings =
      ((Plan.ofTree catalog tree.root).findings.toList.eraseDups.map Finding.item).map
        tree.stream.diagnosticAt := by
  obtain ⟨-, -, leaves, counted⟩ := ofSource_spec h
  have known : (tree.root.leaves.map Token.index).Nodup := by
    rw [leaves, counted]
    exact List.nodup_range
  rw [diagnose_eq_eraseDups, List.map_map, List.map_map]
  refine eraseDups_map fun finding member finding' member' same => ?_
  obtain ⟨token, listed, own, arises⟩ :=
    Plan.findings_ofTree catalog tree.root finding member
  obtain ⟨token', listed', own', arises'⟩ :=
    Plan.findings_ofTree catalog tree.root finding' member'
  have item := TokenStream.diagnosticAt_inj (ofSource_eq_ok h).1 small
    ((inRange h catalog).finding member) ((inRange h catalog).finding member') same
  obtain ⟨index, message⟩ := Prod.mk.inj item
  have equal : token = token' :=
    List.inj_on_of_nodup_map known listed listed' (by rw [own, own', index])
  subst equal
  have problem := Problem.message_inj arises arises' message
  cases finding
  cases finding'
  simp_all only

end Small

end SyntaxTree

end ShaderDialect
