import Mathlib.Data.List.Forall2
import ShaderDialect.Type.Member

/-!
# Swizzles

A swizzle of a vector is one to four letters, each of which selects a component
that the vector has, whichever set the letter is of. A swizzle of a swizzle is a
swizzle of the vector itself: each letter of the second one stands for the letter
that the first one has at the selected component.
-/

namespace ShaderDialect.Ty

/-! ### Letters -/

/-- The letter stands at the place of the component in one of the sets. -/
def Selects (letter : Char) (component : Nat) : Prop :=
  ∃ set ∈ ["xyzw", "rgba", "stpq"], set.toList[component]? = some letter

instance (letter : Char) (component : Nat) : Decidable (Selects letter component) :=
  inferInstanceAs (Decidable (∃ set ∈ _, _))

theorem component?_eq_some_iff {letter : Char} {component : Nat} :
    component? letter = some component ↔ Selects letter component := by
  constructor
  · intro found
    obtain ⟨set, listed, place⟩ := List.exists_of_findSome?_eq_some found
    obtain ⟨inside, isLetter, -⟩ := List.findIdx?_eq_some_iff_getElem.1 place
    have here : set[component]? = some letter := by
      rw [List.getElem?_eq_getElem inside, of_decide_eq_true isLetter]
    simp only [swizzleSets, List.mem_cons, List.not_mem_nil, or_false] at listed
    rcases listed with rfl | rfl | rfl
    · exact ⟨"xyzw", by simp, here⟩
    · exact ⟨"rgba", by simp, here⟩
    · exact ⟨"stpq", by simp, here⟩
  · rintro ⟨set, listed, place⟩
    -- No letter is in two sets, so the first set that has it is the one.
    have all : ["xyzw", "rgba", "stpq"].all (fun set =>
        (List.range 4).all fun i => set.toList[i]?.all (component? · = some i)) =
            true := by
      decide
    have short : component < 4 := by
      have inside := (List.getElem?_eq_some_iff.1 place).1
      simp only [List.mem_cons, List.not_mem_nil, or_false] at listed
      rcases listed with rfl | rfl | rfl <;> exact inside
    have own := List.all_eq_true.1 (List.all_eq_true.1 all set listed) component
      (List.mem_range.2 short)
    simpa [place] using own

theorem Selects.unique {letter : Char} {component other : Nat}
    (h : Selects letter component) (h' : Selects letter other) : component = other :=
  Option.some.inj ((component?_eq_some_iff.2 h).symm.trans (component?_eq_some_iff.2 h'))

theorem checkSwizzle_eq_ok_iff {element : Ty} {size : Nat} {letters : List Char} :
    checkSwizzle element size letters = .ok () ↔
      ∀ letter ∈ letters, ∃ component < size, Selects letter component := by
  induction letters with
  | nil => simp [checkSwizzle]
  | cons letter letters ih =>
    rw [checkSwizzle, List.forall_mem_cons]
    cases found : component? letter with
    | none =>
      have nowhere : ¬ ∃ component < size, Selects letter component := by
        rintro ⟨component, -, selects⟩
        cases found.symm.trans (component?_eq_some_iff.2 selects)
      simp [nowhere]
    | some component =>
      have selects := component?_eq_some_iff.1 found
      by_cases inside : component < size
      · have here : ∃ component < size, Selects letter component :=
          ⟨component, inside, selects⟩
        simp [inside, here, ih]
      · have nowhere : ¬ ∃ component < size, Selects letter component := by
          rintro ⟨other, below, selects'⟩
          exact inside (selects.unique selects' ▸ below)
        simp [inside, nowhere]

/-! ### Vectors -/

/-- The name of a vector ends in a digit. -/
theorem exists_digit_name (element : Ty) (size : Nat) :
    ∃ digit ∈ (vector element size).name.toList.getLast?, digit.isDigit := by
  have nonempty : Nat.toDigits 10 size ≠ [] := Nat.toDigits_ne_nil
  refine ⟨(Nat.toDigits 10 size).getLast nonempty, ?_,
    Nat.isDigit_of_mem_toDigits (by decide) (by decide) (List.getLast_mem nonempty)⟩
  rw [name, Nat.toString_eq_ofList_toDigits, String.toList_append, String.toList_ofList,
    List.getLast?_append_of_ne_nil _ nonempty,
    List.getLast?_eq_getLast_of_ne_nil nonempty]
  rfl

theorem mem_of_vectorStem? {name : String} (known : vectorStem? name ≠ none) :
    name ∈ ["float", "bool", "int"] := by
  unfold vectorStem? at known
  split at known <;> simp_all

/-- There are no vectors of vectors. -/
theorem vectorStem?_vector (element : Ty) (size : Nat) :
    vectorStem? (vector element size).name = none := by
  refine Decidable.byContradiction fun known => ?_
  obtain ⟨digit, last, isDigit⟩ := exists_digit_name element size
  have letters : ["float", "bool", "int"].all (·.toList.getLast?.all (! ·.isDigit)) =
      true := by
    decide
  have isLetter := List.all_eq_true.1 letters _ (mem_of_vectorStem? known)
  rw [Option.mem_def.1 last, Option.all_some, isDigit] at isLetter
  cases isLetter

theorem vector?_eq_ok {element v : Ty} {size : Nat}
    (made : vector? element size = .ok v) :
    vectorStem? element.name ≠ none ∧ v = vector element size ∧ 2 ≤ size ∧ size ≤ 4 := by
  unfold vector? at made
  split at made
  · cases made
  · rename_i stem known
    split at made
    · rename_i bounds
      cases made
      exact ⟨by simp [known], rfl, by simpa using bounds⟩
    · cases made

theorem vector?_of_size {element : Ty} {size : Nat}
    (known : vectorStem? element.name ≠ none) (large : 2 ≤ size) (small : size ≤ 4) :
    vector? element size = .ok (vector element size) := by
  obtain ⟨stem, known⟩ := Option.ne_none_iff_exists'.1 known
  simp [vector?, known, large, small]

/-! ### Swizzles of vectors -/

/-- One to four letters, each of which selects one of so many components. -/
def IsSwizzle (size : Nat) (letters : String) : Prop :=
  1 ≤ letters.length ∧ letters.length ≤ 4 ∧
    ∀ letter ∈ letters.toList, ∃ component < size, Selects letter component

/-- What so many components of a vector make: one is an element, several are a vector. -/
def selection (element : Ty) (length : Nat) : Ty :=
  if length = 1 then element else vector element length

/-- A swizzle has a type, and nothing else has. -/
theorem swizzle_cases {element : Ty} (known : vectorStem? element.name ≠ none)
    (size : Nat) (letters : String) :
    (IsSwizzle size letters ∧
      swizzle element size letters = .ok (selection element letters.length)) ∨
    (¬ IsSwizzle size letters ∧
      ∃ cause, swizzle element size letters = .error (.swizzle cause)) := by
  unfold swizzle
  split
  · rename_i empty
    refine .inr ⟨?_, .empty, rfl⟩
    rintro ⟨long, -⟩
    rw [String.isEmpty_iff.1 empty] at long
    cases long
  · rename_i nonempty
    cases checked : checkSwizzle element size letters.toList with
    | error cause =>
      refine .inr ⟨?_, cause, rfl⟩
      rintro ⟨-, -, inside⟩
      cases checked.symm.trans (checkSwizzle_eq_ok_iff.2 inside)
    | ok =>
      have inside := checkSwizzle_eq_ok_iff.1 checked
      have long : 1 ≤ letters.length :=
        Nat.pos_of_ne_zero fun none =>
          nonempty (String.isEmpty_iff.2 (String.length_eq_zero_iff.1 none))
      dsimp only
      by_cases single : letters.length = 1
      · rw [if_pos single]
        exact .inl ⟨⟨long, by omega, inside⟩, by rw [selection, if_pos single]⟩
      · rw [if_neg single]
        by_cases tooLong : 4 < letters.length
        · rw [if_pos tooLong]
          exact .inr ⟨fun fits => Nat.not_le.2 tooLong fits.2.1, _, rfl⟩
        · rw [if_neg tooLong, vector?_of_size known (by omega) (by omega)]
          exact .inl ⟨⟨long, by omega, inside⟩, by rw [selection, if_neg single]⟩

theorem swizzle_eq_ok_iff {element t : Ty} (known : vectorStem? element.name ≠ none)
    {size : Nat} {letters : String} : swizzle element size letters = .ok t ↔
      IsSwizzle size letters ∧ t = selection element letters.length := by
  rcases swizzle_cases known size letters with ⟨fits, found⟩ | ⟨misfit, cause, found⟩
  · rw [found]
    simp [fits, eq_comm]
  · rw [found]
    simp [misfit]

/-! ### Swizzles of swizzles -/

/-- Each letter of the second swizzle replaced by the letter that the first one has at
the component which it selects. -/
def Composed (first second composed : List Char) : Prop :=
  List.Forall₂ (fun letter replaced =>
    ∃ component, Selects letter component ∧
      first[component]? = some replaced) second composed

theorem exists_composed {first second : List Char}
    (inside : ∀ letter ∈ second, ∃ component < first.length, Selects letter component) :
    ∃ composed, Composed first second composed := by
  induction second with
  | nil => exact ⟨[], .nil⟩
  | cons letter second ih =>
    rw [List.forall_mem_cons] at inside
    obtain ⟨⟨component, below, selects⟩, behind⟩ := inside
    obtain ⟨composed, rest⟩ := ih behind
    exact ⟨first[component] :: composed,
      .cons ⟨component, selects, List.getElem?_eq_getElem below⟩ rest⟩

namespace Composed

variable {first second composed : List Char}

theorem unique {other : List Char} (h : Composed first second composed)
    (h' : Composed first second other) : composed = other := by
  induction h generalizing other with
  | nil =>
    cases h'
    rfl
  | cons here behind ih =>
    cases h' with
    | cons here' behind' =>
      obtain ⟨component, selects, found⟩ := here
      obtain ⟨component', selects', found'⟩ := here'
      obtain rfl := selects.unique selects'
      rw [Option.some.inj (found.symm.trans found'), ih behind']

/-- Only letters of the first swizzle are left. -/
theorem subset (h : Composed first second composed) : composed ⊆ first := by
  induction h with
  | nil => exact List.nil_subset _
  | cons here behind ih =>
    obtain ⟨component, -, found⟩ := here
    exact List.cons_subset.2 ⟨List.mem_of_getElem? found, ih⟩

end Composed

theorem IsSwizzle.composed {size other : Nat} {first second composed : String}
    (h : IsSwizzle size first) (h' : IsSwizzle other second)
    (replaced : Composed first.toList second.toList composed.toList) :
    IsSwizzle size composed ∧ composed.length = second.length := by
  have same : composed.length = second.length := by
    rw [← String.length_toList, ← String.length_toList]
    exact replaced.length_eq.symm
  have inside := fun letter listed => h.2.2 letter (replaced.subset listed)
  exact ⟨⟨same ▸ h'.1, same ▸ h'.2.1, inside⟩, same⟩

/-- The swizzles of a vector are the words of one to four letters that all select
components of it. One letter gives the element, more a vector of that many elements,
and every failure is one of the swizzle. The swizzle of a swizzle that is a vector has
the type of their composition. -/
theorem swizzle_laws {element : Ty} {size : Nat}
    (made : vector? element size = .ok (vector element size)) :
    (∀ letters t, swizzle element size letters = .ok t ↔
      (1 ≤ letters.length ∧ letters.length ≤ 4 ∧
        ∀ letter ∈ letters.toList, ∃ component < size, Selects letter component) ∧
      t = if letters.length = 1 then element else vector element letters.length) ∧
    (∀ letters error, swizzle element size letters = .error error →
      error.kind = .swizzle) ∧
    ∀ first second inner length t,
      swizzle element size first = .ok (vector inner length) →
      swizzle inner length second = .ok t →
      ∃ composed, Composed first.toList second.toList composed.toList ∧
        swizzle element size composed = .ok t ∧
        ∀ other, Composed first.toList second.toList other.toList → other = composed := by
  obtain ⟨known, -⟩ := vector?_eq_ok made
  refine ⟨fun letters t => swizzle_eq_ok_iff known, fun letters error failed => ?_, ?_⟩
  · rcases swizzle_cases known size letters with ⟨-, found⟩ | ⟨-, cause, found⟩
    · cases failed.symm.trans found
    · cases failed.symm.trans found
      rfl
  · intro first second inner length t found found'
    obtain ⟨fits, shape⟩ := (swizzle_eq_ok_iff known).1 found
    -- A single letter gives the element, which is no vector.
    have several : first.length ≠ 1 := by
      intro single
      rw [selection, if_pos single] at shape
      exact known (shape ▸ vectorStem?_vector inner length)
    rw [selection, if_neg several] at shape
    cases shape
    obtain ⟨fits', rfl⟩ := (swizzle_eq_ok_iff known).1 found'
    obtain ⟨composed, replaced⟩ :=
      exists_composed (String.length_toList (s := first) ▸ fits'.2.2)
    rw [← String.toList_ofList (l := composed)] at replaced
    obtain ⟨whole, same⟩ := fits.composed fits' replaced
    refine ⟨.ofList composed, replaced, (swizzle_eq_ok_iff known).2 ⟨whole, by rw [same]⟩, ?_⟩
    intro other replaced'
    exact String.toList_inj.1 (replaced'.unique replaced)

/-- The blue, green and red of a color, and of these the first and the last, with the
sets mixed. -/
theorem swizzle_laws_mixed :
    swizzle float 4 "bgr" = .ok (vector float 3) ∧
    swizzle float 3 "sz" = .ok (vector float 2) ∧
      swizzle float 4 "br" = .ok (vector float 2) := by
  obtain ⟨-, -, composes⟩ := @swizzle_laws float 4 rfl
  obtain ⟨composed, -, found, only⟩ :=
    composes "bgr" "sz" float 3 (vector float 2) rfl rfl
  have replaced : Composed "bgr".toList "sz".toList "br".toList :=
    .cons ⟨0, by decide, rfl⟩ (.cons ⟨2, by decide, rfl⟩ .nil)
  rw [only "br" replaced]
  exact ⟨rfl, rfl, found⟩

end ShaderDialect.Ty
