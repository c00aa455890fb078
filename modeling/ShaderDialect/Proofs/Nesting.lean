import Mathlib.Data.List.DropRight
import Mathlib.Data.List.Infix
import ShaderDialect.Proofs.Constructors
import ShaderDialect.Proofs.Scoping

/-!
# Frames that open and close

Whatever is declared between the opening of a frame and its closing, the frames from
before are there again afterwards. In between, and after any operations at all, a name
stands for the latest declaration in the innermost open frame that has one. The global
frame is never closed: to close one frame too many changes nothing.
-/

namespace ShaderDialect.Scope

namespace Operation

def isPush : Operation → Bool
  | push => true
  | _ => false

def isPop : Operation → Bool
  | pop => true
  | _ => false

end Operation

/-! ### Brackets -/

/-- How many frames some operations open. -/
def opened (operations : List Operation) : Nat :=
  operations.countP Operation.isPush

/-- How many frames some operations close. -/
def closed (operations : List Operation) : Nat :=
  operations.countP Operation.isPop

/-- Operations that close no frame but those they have opened. -/
def Inside (operations : List Operation) : Prop :=
  ∀ front, front <+: operations → closed front ≤ opened front

instance (operations : List Operation) : Decidable (Inside operations) :=
  decidable_of_iff (∀ front ∈ operations.inits, closed front ≤ opened front)
    (by simp only [Inside, List.mem_inits])

/-- Operations that close just the frames which they have opened. -/
structure Balanced (operations : List Operation) : Prop where
  inside : Inside operations
  settled : closed operations = opened operations

theorem opened_concat (operations : List Operation) (operation : Operation) :
    opened (operations ++ [operation]) = opened operations + operation.isPush.toNat := by
  cases operation <;> simp [opened, Operation.isPush]

theorem closed_concat (operations : List Operation) (operation : Operation) :
    closed (operations ++ [operation]) = closed operations + operation.isPop.toNat := by
  cases operation <;> simp [closed, Operation.isPop]

theorem Inside.front {operations front : List Operation} (h : Inside operations)
    (isFront : front <+: operations) : Inside front :=
  fun _ shorter => h _ (shorter.trans isFront)

/-! ### Frames of a scope -/

section Frames

variable {scope : Scope}

theorem pop_of_depth (single : scope.depth = 1) : scope.pop = scope := by
  have empty : scope.locals = [] := by simpa [depth, frames] using single
  rw [pop, empty, List.tail_nil, ← empty]

theorem frames_pop (several : 1 < scope.depth) :
    scope.pop.frames = scope.frames.tail := by
  obtain ⟨frame, rest, locals⟩ := List.exists_cons_of_ne_nil (l := scope.locals) (by
    intro empty
    simp [depth, frames, empty] at several)
  simp [frames, pop, locals]

theorem frames_declareStruct (scope : Scope) (ty : Ty) :
    (scope.declareStruct ty).frames = scope.frames := by
  unfold declareStruct
  split
  · rfl
  · cases ty <;> rfl

theorem depth_pos (scope : Scope) : 1 ≤ scope.depth := by
  simp [depth, frames]

end Frames

/-- What one operation does to the frames. -/
theorem frames_apply (operation : Operation) (scope : Scope) :
    (operation = .push ∧ (operation.apply scope).frames = [] :: scope.frames) ∨
    (operation = .pop ∧ 1 < scope.depth ∧ (operation.apply scope).frames = scope.frames.tail) ∨
    (∃ declared, operation = .declare declared ∧
      (operation.apply scope).frames = scope.frames.modifyHead (declared :: ·)) ∨
    ((operation = .pop → scope.depth = 1) ∧ operation ≠ .push ∧
      (∀ declared, operation ≠ .declare declared) ∧
      (operation.apply scope).frames = scope.frames) := by
  cases operation with
  | push => exact .inl ⟨rfl, frames_push scope⟩
  | pop =>
    rcases Nat.lt_or_eq_of_le scope.depth_pos with several | single
    · exact .inr (.inl ⟨rfl, several, frames_pop several⟩)
    · refine .inr (.inr (.inr ⟨fun _ => single.symm, by simp, by simp, ?_⟩))
      exact congrArg frames (pop_of_depth single.symm)
  | declare declared =>
    exact .inr (.inr (.inl ⟨declared, rfl, frames_declare scope declared⟩))
  | declareFunction signature => exact .inr (.inr (.inr ⟨by simp, by simp, by simp, rfl⟩))
  | declareStruct ty =>
    exact .inr (.inr (.inr ⟨by simp, by simp, by simp, frames_declareStruct scope ty⟩))

/-- In a frame of their own, operations leave the frames from before as they are. -/
theorem exists_inner (scope : Scope) {operations : List Operation}
    (inside : Inside operations) :
    ∃ inner, (scope.push.applyAll operations).frames = inner ++ scope.frames ∧
      inner.length + closed operations = opened operations + 1 := by
  induction operations using List.reverseRecOn with
  | nil => exact ⟨[[]], rfl, rfl⟩
  | append_singleton operations operation ih =>
    obtain ⟨inner, shape, size⟩ := ih (inside.front (List.prefix_append _ _))
    have before := inside _ (List.prefix_append operations [operation])
    have behind := inside _ List.prefix_rfl
    rw [opened_concat, closed_concat] at behind
    rw [opened_concat, closed_concat, applyAll_concat]
    cases inner with
    | nil =>
      -- The frame in which the operations begin is not theirs to close.
      rw [List.length_nil] at size
      omega
    | cons top rest =>
      rw [List.length_cons] at size
      rcases frames_apply operation (scope.push.applyAll operations) with
        ⟨rfl, frames⟩ | ⟨rfl, -, frames⟩ | ⟨declared, rfl, frames⟩ | ⟨surplus, noPush, -, frames⟩
      · refine ⟨[] :: top :: rest, by rw [frames, shape]; rfl, ?_⟩
        rw [List.length_cons, List.length_cons]
        change _ + 1 + 1 + (_ + 0) = _ + 1 + 1
        omega
      · refine ⟨rest, by rw [frames, shape]; rfl, ?_⟩
        change _ + (_ + 1) = _ + 0 + 1
        omega
      · exact ⟨(declared :: top) :: rest, by rw [frames, shape]; rfl, size⟩
      · refine ⟨top :: rest, by rw [frames, shape], ?_⟩
        cases operation with
        | push => exact absurd rfl noPush
        | pop =>
          have single := surplus rfl
          rw [depth, shape, List.length_append, List.length_cons] at single
          have global := scope.depth_pos
          rw [depth] at global
          omega
        | _ => exact size

/-- Brackets bring back the frames from before. -/
theorem frames_brackets (scope : Scope) {operations : List Operation}
    (h : Balanced operations) :
    (scope.applyAll (.push :: operations ++ [.pop])).frames = scope.frames := by
  obtain ⟨inner, shape, size⟩ := scope.exists_inner h.inside
  have settled := h.settled
  obtain ⟨frame, rfl⟩ : ∃ frame, inner = [frame] := List.length_eq_one_iff.1 (by omega)
  have several : 1 < (scope.push.applyAll operations).depth := by
    rw [depth, shape, List.singleton_append, List.length_cons]
    exact Nat.succ_lt_succ scope.depth_pos
  rw [applyAll_concat]
  exact (frames_pop several).trans (congrArg List.tail shape)

/-! ### Open declarations -/

/-- The declaration behind `before` is one of the operations, and its frame is still
open: the depth was never smaller since. -/
def OpenDeclaration (scope : Scope) (operations before : List Operation)
    (declared : Variable) :
    Prop :=
  ∃ after, operations = before ++ .declare declared :: after ∧
    ∀ front, front <+: after →
      (scope.applyAll before).depth ≤
        (scope.applyAll (before ++ .declare declared :: front)).depth

theorem depth_declare (scope : Scope) (declared : Variable) :
    (scope.declare declared).depth = scope.depth := by
  rw [depth, frames_declare, List.length_modifyHead, depth]

section Open

variable {scope : Scope} {operations before : List Operation} {declared : Variable}

theorem OpenDeclaration.depth_le (h : OpenDeclaration scope operations before declared) :
    (scope.applyAll before).depth ≤ (scope.applyAll operations).depth := by
  obtain ⟨after, rfl, stays⟩ := h
  exact stays after List.prefix_rfl

theorem OpenDeclaration.length_lt (h : OpenDeclaration scope operations before declared) :
    before.length < operations.length := by
  obtain ⟨after, rfl, -⟩ := h
  simp

theorem openDeclaration_concat {operation : Operation} :
    OpenDeclaration scope (operations ++ [operation]) before declared ↔
      (OpenDeclaration scope operations before declared ∧
        (scope.applyAll before).depth ≤
          (scope.applyAll (operations ++ [operation])).depth) ∨
      (before = operations ∧ operation = .declare declared) := by
  constructor
  · rintro ⟨after, shape, stays⟩
    rcases List.eq_nil_or_concat after with rfl | ⟨after, last, rfl⟩
    · obtain ⟨rfl, same⟩ := List.append_inj' shape rfl
      exact .inr ⟨rfl, List.singleton_inj.1 same⟩
    · rw [List.concat_eq_append] at shape stays
      rw [← List.cons_append, ← List.append_assoc] at shape
      obtain ⟨rfl, same⟩ := List.append_inj' shape rfl
      obtain rfl := List.singleton_inj.1 same
      refine .inl ⟨⟨after, rfl, fun front isFront => ?_⟩, ?_⟩
      · exact stays front (isFront.trans (List.prefix_append _ _))
      · simpa using stays _ List.prefix_rfl
  · rintro (⟨⟨after, rfl, stays⟩, still⟩ | ⟨rfl, rfl⟩)
    · refine ⟨after ++ [operation], by simp, fun front isFront => ?_⟩
      rcases List.prefix_concat_iff.1 isFront with rfl | shorter
      · simpa using still
      · exact stays front shorter
    · refine ⟨[], rfl, fun front isFront => ?_⟩
      rw [List.prefix_nil.1 isFront, applyAll_concat]
      exact Nat.le_of_eq (depth_declare _ declared).symm

end Open

/-! ### What a name stands for -/

/-- The variable of a name in some frames, the innermost first. -/
def lookupIn (frames : List Frame) (name : String) : Option Variable :=
  frames.findSome? fun frame => frame.find? (·.name = name)

theorem rtake_cons {α : Type} (a : α) (list : List α) (n : Nat) :
    (a :: list).rtake n = if n ≤ list.length then list.rtake n else a :: list := by
  unfold List.rtake
  split_ifs with short
  · rw [List.length_cons, Nat.succ_sub short, List.drop_succ_cons]
  · rw [List.length_cons, Nat.sub_eq_zero_of_le (by omega), List.drop_zero]

theorem rtake_of_length_le {α : Type} {list : List α} {n : Nat} (long : list.length ≤ n) :
    list.rtake n = list := by
  rw [List.rtake, Nat.sub_eq_zero_of_le long, List.drop_zero]

/-- An operation changes what a name stands for in the outermost frames only if it declares
the name in one of them. -/
theorem lookupIn_rtake_apply (operation : Operation) (scope : Scope) (name : String)
    {count : Nat} (high : count ≤ (operation.apply scope).depth)
    (other : ∀ declared, operation = .declare declared → declared.name = name →
      count < scope.depth) :
    lookupIn ((operation.apply scope).frames.rtake count) name =
      lookupIn (scope.frames.rtake (min count scope.depth)) name := by
  obtain ⟨top, below, shape⟩ := List.exists_cons_of_ne_nil scope.frames_ne_nil
  have size : scope.depth = below.length + 1 := by rw [depth, shape, List.length_cons]
  rw [depth] at high
  rcases frames_apply operation scope with
    ⟨rfl, after⟩ | ⟨rfl, -, after⟩ | ⟨declared, rfl, after⟩ | ⟨-, -, -, after⟩
  · rw [after, rtake_cons]
    split_ifs with inside
    · rw [← depth] at inside
      rw [Nat.min_eq_left inside]
    · rw [← depth] at inside
      rw [Nat.min_eq_right (by omega), rtake_of_length_le (Nat.le_refl scope.depth)]
      rfl
  · rw [after, shape, List.tail_cons] at high
    rw [after, shape, List.tail_cons, Nat.min_eq_left (by omega), rtake_cons, if_pos high]
  · rw [after, shape, List.modifyHead_cons] at high
    rw [after, shape, List.modifyHead_cons, Nat.min_eq_left (size ▸ high), rtake_cons,
      rtake_cons]
    split_ifs with inside
    · rfl
    · have different : declared.name ≠ name := fun named => by
        have := other declared rfl named
        omega
      simp [lookupIn, List.findSome?_cons, different]
  · rw [after, ← depth] at high
    rw [after, Nat.min_eq_left high]

/-- The answer is the last and innermost one of some declarations, or another if there
are none. -/
def Decides (scope : Scope) (candidate : List Operation → Variable → Prop)
    (answer otherwise : Option Variable) : Prop :=
  (∃ before declared, candidate before declared ∧ answer = some declared ∧
    ∀ before' declared', candidate before' declared' →
      (scope.applyAll before').depth ≤ (scope.applyAll before).depth ∧
        before'.length ≤ before.length) ∨
  ((∀ before declared, ¬ candidate before declared) ∧ answer = otherwise)

theorem Decides.congr {scope : Scope}
    {candidate candidate' : List Operation → Variable → Prop}
    {answer answer' otherwise : Option Variable}
    (h : Decides scope candidate answer otherwise)
    (same : ∀ before declared, candidate' before declared ↔ candidate before declared)
    (sameAnswer : answer' = answer) : Decides scope candidate' answer' otherwise := by
  obtain rfl : candidate' = candidate := funext fun before => funext fun declared =>
    propext (same before declared)
  exact sameAnswer ▸ h

/-- What one more operation does to the open declarations of a name. -/
theorem openDeclaration_concat_iff {scope : Scope} {operations before : List Operation}
    {operation : Operation} {declared : Variable} {name : String} {count : Nat}
    (high : count ≤ (scope.applyAll (operations ++ [operation])).depth)
    (other : ∀ declared, operation = .declare declared → declared.name = name →
      count < (scope.applyAll operations).depth) :
    (OpenDeclaration scope (operations ++ [operation]) before declared ∧
        declared.name = name ∧ (scope.applyAll before).depth ≤ count) ↔
      OpenDeclaration scope operations before declared ∧
        declared.name = name ∧
        (scope.applyAll before).depth ≤ min count (scope.applyAll operations).depth := by
  rw [openDeclaration_concat]
  constructor
  · rintro ⟨⟨isOpen, -⟩ | ⟨rfl, rfl⟩, named, small⟩
    · exact ⟨isOpen, named, Nat.le_min.2 ⟨small, isOpen.depth_le⟩⟩
    · exact absurd small (Nat.not_le.2 (other declared rfl named))
  · rintro ⟨isOpen, named, small⟩
    rw [Nat.le_min] at small
    exact ⟨.inl ⟨isOpen, Nat.le_trans small.1 high⟩, named, small.1⟩

/-- The outermost frames decide by the declarations that were made in them. The frames in
which the operations begin are among these. -/
theorem decides_rtake (scope : Scope) (name : String) {operations : List Operation}
    (keeps : ∀ front, front <+: operations → scope.depth ≤ (scope.applyAll front).depth)
    {count : Nat} (low : scope.depth ≤ count)
    (high : count ≤ (scope.applyAll operations).depth) :
    Decides scope
      (fun before declared => OpenDeclaration scope operations before declared ∧
        declared.name = name ∧ (scope.applyAll before).depth ≤ count)
      (lookupIn ((scope.applyAll operations).frames.rtake count) name) (scope.lookup? name) := by
  -- To close a frame leaves the frames below it, so all counts of frames are needed at once.
  induction operations using List.reverseRecOn generalizing count with
  | nil =>
    refine .inr ⟨fun before declared found => absurd found.1.length_lt (Nat.not_lt_zero _), ?_⟩
    obtain rfl : count = scope.depth := Nat.le_antisymm high low
    exact congrArg (lookupIn · name) (rtake_of_length_le (Nat.le_refl _))
  | append_singleton operations operation ih =>
    have reached := keeps operations (List.prefix_append _ _)
    have behind :=
      @ih (fun front isFront => keeps front (isFront.trans (List.prefix_append _ _)))
        (min count (scope.applyAll operations).depth) (Nat.le_min.2 ⟨low, reached⟩)
        (Nat.min_le_right _ _)
    by_cases new : ∃ declared, operation = .declare declared ∧ declared.name = name ∧
        (scope.applyAll operations).depth ≤ count
    · obtain ⟨declared, rfl, named, inside⟩ := new
      refine .inl ⟨operations, declared,
        ⟨openDeclaration_concat.2 (.inr ⟨rfl, rfl⟩), named, inside⟩, ?_, ?_⟩
      · have whole : ((scope.applyAll operations).declare declared).frames.length ≤
            count := by
          rwa [← depth, depth_declare]
        rw [applyAll_concat, Operation.apply, rtake_of_length_le whole]
        exact (lookup?_declare _ declared name).trans (if_pos named)
      · rintro before declared' ⟨isOpen, -⟩
        rcases openDeclaration_concat.1 isOpen with ⟨isOpen, -⟩ | ⟨rfl, -⟩
        · exact ⟨isOpen.depth_le, Nat.le_of_lt isOpen.length_lt⟩
        · exact ⟨Nat.le_refl _, Nat.le_refl _⟩
    · have other : ∀ declared, operation = .declare declared → declared.name = name →
          count < (scope.applyAll operations).depth := fun declared same named =>
        Nat.lt_of_not_le fun inside => new ⟨declared, same, named, inside⟩
      refine behind.congr (fun before declared => openDeclaration_concat_iff high other) ?_
      rw [applyAll_concat] at high ⊢
      exact lookupIn_rtake_apply operation _ name high other

/-- A name stands for the latest declaration of it in the innermost open frame that has
one, and where no open frame has one, for what it stood for at the start. -/
def Shows (scope : Scope) (operations : List Operation) (name : String) : Prop :=
  (∃ before declared, OpenDeclaration scope operations before declared ∧
    declared.name = name ∧
    (scope.applyAll operations).lookup? name = some declared ∧
    ∀ before' declared', OpenDeclaration scope operations before' declared' →
      declared'.name = name →
      (scope.applyAll before').depth < (scope.applyAll before).depth ∨
        (scope.applyAll before').depth = (scope.applyAll before).depth ∧
          before'.length ≤ before.length) ∨
  ((∀ before declared, OpenDeclaration scope operations before declared → declared.name ≠ name) ∧
    (scope.applyAll operations).lookup? name = scope.lookup? name)

theorem shows_of_keeps (scope : Scope) {operations : List Operation}
    (keeps : ∀ front, front <+: operations → scope.depth ≤ (scope.applyAll front).depth)
    (name : String) : scope.Shows operations name := by
  have whole : lookupIn ((scope.applyAll operations).frames.rtake (scope.applyAll operations).depth)
      name = (scope.applyAll operations).lookup? name :=
    congrArg (lookupIn · name) (rtake_of_length_le (Nat.le_refl _))
  rcases scope.decides_rtake name keeps (keeps operations List.prefix_rfl) (Nat.le_refl _) with
    ⟨before, declared, ⟨isOpen, named, -⟩, found, last⟩ | ⟨none, found⟩
  · refine .inl ⟨before, declared, isOpen, named, whole ▸ found, ?_⟩
    intro before' declared' isOpen' named'
    obtain ⟨outer, earlier⟩ := last before' declared' ⟨isOpen', named', isOpen'.depth_le⟩
    rcases Nat.lt_or_eq_of_le outer with outer | same
    · exact .inl outer
    · exact .inr ⟨same, earlier⟩
  · exact .inr ⟨fun before declared isOpen named =>
      none before declared ⟨isOpen, named, isOpen.depth_le⟩, whole ▸ found⟩

/-! ### Main result -/

theorem depth_le_of_inside (scope : Scope) {operations : List Operation}
    (inside : Inside operations) (front : List Operation)
    (isFront : front <+: .push :: operations) :
    scope.depth ≤ (scope.applyAll front).depth := by
  rcases List.prefix_cons_iff.1 isFront with rfl | ⟨front, rfl, shorter⟩
  · exact Nat.le_refl _
  · obtain ⟨inner, shape, -⟩ := scope.exists_inner (inside.front shorter)
    have frames : (scope.applyAll (.push :: front)).frames = inner ++ scope.frames :=
      shape
    rw [depth, depth, frames, List.length_append]
    exact Nat.le_add_left _ _

/-- From the start of a shader, no operations leave the frame in which they begin. -/
theorem shows_initial (catalog : Catalog) (history : List Operation) (name : String) :
    (initial catalog).Shows history name :=
  (initial catalog).shows_of_keeps (fun _ _ => depth_pos _) name

theorem lookup?_initial (catalog : Catalog) {name type : String} {isArray : Bool}
    (listed : (name, type, isArray) ∈ builtinVariables) :
    ∃ ty, Ty.builtin? type = some ty ∧
      (initial catalog).lookup? name = some { name, ty, isArray } := by
  simp only [builtinVariables, List.mem_cons, Prod.mk.injEq, List.not_mem_nil,
    or_false] at listed
  rcases listed with ⟨rfl, rfl, rfl⟩ | ⟨rfl, rfl, rfl⟩ | ⟨rfl, rfl, rfl⟩ |
    ⟨rfl, rfl, rfl⟩ |
    ⟨rfl, rfl, rfl⟩ | ⟨rfl, rfl, rfl⟩ | ⟨rfl, rfl, rfl⟩ | ⟨rfl, rfl, rfl⟩ <;>
    exact ⟨_, rfl, rfl⟩

/-- Between the opening of a frame and its closing, any operations may stand that close
just the frames they open: afterwards every name stands for what it stood for before, at
the same depth. In between, a name stands for its latest declaration in the innermost open
frame that has one. After any operations at all the global frame is open, to close it
changes nothing, and a builtin variable is there unless it is declared again. -/
theorem brackets_restore (scope : Scope) (catalog : Catalog) :
    (∀ operations, Balanced operations →
      (∀ name, (scope.applyAll (.push :: operations ++ [.pop])).lookup? name =
        scope.lookup? name) ∧
      (scope.applyAll (.push :: operations ++ [.pop])).depth = scope.depth) ∧
    (∀ operations, Inside operations → ∀ name, scope.Shows (.push :: operations) name) ∧
    (∀ operations, 1 ≤ (scope.applyAll operations).depth ∧
      ((scope.applyAll operations).depth = 1 →
        scope.applyAll (operations ++ [.pop]) = scope.applyAll operations)) ∧
    ∀ history, (∀ name, (initial catalog).Shows history name) ∧
      ∀ name type isArray, (name, type, isArray) ∈ builtinVariables →
        (∃ declared, (run catalog history).lookup? name = some declared) ∧
        ((∀ declared, .declare declared ∈ history → declared.name ≠ name) →
          ∃ ty, Ty.builtin? type = some ty ∧
            (run catalog history).lookup? name = some { name, ty, isArray }) := by
  refine ⟨fun operations h => ?_, fun operations inside name => ?_, fun operations => ?_,
    fun history => ⟨?_, ?_⟩⟩
  · have restored := scope.frames_brackets h
    exact ⟨fun name => congrArg (lookupIn · name) restored, congrArg List.length restored⟩
  · exact scope.shows_of_keeps (scope.depth_le_of_inside inside) name
  · refine ⟨depth_pos _, fun single => ?_⟩
    rw [applyAll_concat]
    exact pop_of_depth single
  · exact shows_initial catalog history
  · intro name type isArray listed
    obtain ⟨ty, known, builtin⟩ := lookup?_initial catalog listed
    rcases shows_initial catalog history name with
      ⟨before, declared, ⟨after, rfl, -⟩, named, found, -⟩ | ⟨-, found⟩
    · exact ⟨⟨declared, found⟩, fun none => absurd named (none declared (by simp))⟩
    · rw [builtin] at found
      exact ⟨⟨_, found⟩, fun _ => ⟨ty, known, found⟩⟩

/-- An inner frame hides a variable twice over and gives it back. Behind it the global frame
is closed once too often. -/
theorem brackets_restore_hidden :
    let integer : Variable := { name := "x", ty := .primitive "int", isArray := false }
    let array : Variable := { name := "x", ty := .float, isArray := true }
    let scope := (initial Catalog.bundled).declare integer
    let operations : List Operation := [.declare array, .push, .declare integer, .pop]
    Balanced operations ∧ (scope.applyAll (.push :: operations)).lookup? "x" = some array ∧
      (scope.applyAll (.push :: operations ++ [.pop])).lookup? "x" = some integer ∧
      ∃ ty, Ty.builtin? "vec4" = some ty ∧
        (run Catalog.bundled [.pop, .declare array, .pop]).lookup? "gl_FragColor" =
          some { name := "gl_FragColor", ty, isArray := false } := by
  intro integer array scope operations
  have balanced : Balanced operations := ⟨by decide, by decide⟩
  obtain ⟨restored, -, -, builtin⟩ := brackets_restore scope Catalog.bundled
  refine ⟨balanced, rfl, ((restored operations balanced).1 "x").trans rfl, ?_⟩
  exact ((builtin [.pop, .declare array, .pop]).2 "gl_FragColor" "vec4" false (by decide)).2
    (by simp [array])

end ShaderDialect.Scope
