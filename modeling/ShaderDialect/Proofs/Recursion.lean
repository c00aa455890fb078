import ShaderDialect.Proofs.Lookahead

/-!
# Repetition and nesting end by themselves

The number of tokens that are left bounds every loop and every nesting of the
grammar. The bounds are never felt. A loop stops because its condition fails or
a round of it does, and each round reads a token. A production that refers back
to itself does so behind a token only, so that what it reads is determined by
its own equation: there is one solution, with or without a bound.
-/

namespace ShaderDialect.Grammar

theorem uses_of_local {ahead used : Nat} {p q : Production}
    (h : Local [] ahead used p q) :
    Uses used p :=
  fun s trees s' run => ((h s).uses trees s' run).2

/-! ### Loops -/

/-- How a loop without a bound runs: round after round while its condition
holds. A loop that goes on for ever runs to no result. -/
inductive Loops (condition : State → Bool) (p : Production) :
    State → Except Failure (List Tree × State) → Prop
  | stop {s : State} (finished : condition s = false) : Loops condition p s (.ok ([], s))
  | fail {s : State} {failure : Failure} (holds : condition s) (failed : p s = .error failure) :
      Loops condition p s (.error failure)
  | round {s s' : State} {trees : List Tree} {result : Except Failure (List Tree × State)}
      (holds : condition s) (read : p s = .ok (trees, s')) (others : Loops condition p s' result) :
      Loops condition p s (result.map fun others => (trees ++ others.1, others.2))

theorem loops_rounds {condition : State → Bool} {p : Production}
    (present : ∀ s, condition s → 1 ≤ s.left) (uses : Uses 1 p) {n : Nat} {s : State}
    (enough : s.left ≤ n) : Loops condition p s (rounds condition p n s) := by
  induction n generalizing s with
  | zero =>
    refine .stop (Bool.eq_false_iff.2 fun holds => ?_)
    have := present s holds
    omega
  | succ n ih =>
    cases holds : condition s with
    | false =>
      have stays : rounds condition p (n + 1) s = .ok ([], s) := by
        simp only [rounds, look, holds]
        rfl
      exact stays ▸ .stop holds
    | true =>
      have unfolded : rounds condition p (n + 1) s =
          (do let first ← p; let others ← rounds condition p n; return first ++ others) s := by
        simp only [rounds, look, holds, if_true]
      rw [unfolded]
      cases read : p s with
      | error failure =>
        rw [bind_eq_error.2 (Or.inl read)]
        exact .fail holds read
      | ok pair =>
        obtain ⟨trees, s'⟩ := pair
        have others := ih (s := s') (by have := uses s trees s' read; omega)
        have joined :
            (do let first ← p; let others ← rounds condition p n; return first ++ others) s =
              (rounds condition p n s').map fun others =>
                (trees ++ others.1, others.2) := by
          simp only [bind, StateT.bind, Except.bind, read]
          cases rounds condition p n s' <;> rfl
        exact joined ▸ .round holds read others

/-- The bound of a loop is never felt. -/
theorem loops_many {condition : State → Bool} {p : Production}
    (present : ∀ s, condition s → 1 ≤ s.left) (uses : Uses 1 p) (s : State) :
    Loops condition p s (many condition p s) :=
  loops_rounds present uses (Nat.le_refl _)

/-! ### Equations with one solution -/

/-- Both productions read the same wherever at most `n` tokens are left. -/
def Same (n : Nat) (p q : Production) : Prop :=
  ∀ s, s.left ≤ n → p s = q s

section Nesting

variable {ι : Type} {step : (ι → Production) → ι → Production}
    {bounded : Nat → ι → Production}
  {expected : Expectation}

/-- As many levels of nesting as there are tokens. -/
def deepest (bounded : Nat → ι → Production) (i : ι) : Production :=
  look fun s => bounded s.left i

/-- Productions that refer back to each other behind a token only, and the same
productions with a bound. -/
structure Nests (step : (ι → Production) → ι → Production)
    (bounded : Nat → ι → Production) (expected : Expectation) : Prop where
  none : ∀ i s, bounded 0 i s = fail expected s
  more : ∀ depth i s, bounded (depth + 1) i s = step (bounded depth) i s
  atEnd : ∀ inner i s, s.left = 0 → step inner i s = fail expected s
  behind : ∀ n inner, (∀ i, Same n (inner i) (deepest bounded i)) →
    ∀ i, Same (n + 1) (step inner i) (step (deepest bounded) i)

/-- More levels than tokens make no difference. -/
theorem Nests.bounded_eq (h : Nests step bounded expected) {n depth : Nat} {i : ι}
    {s : State} (few : s.left ≤ n) (enough : s.left ≤ depth) :
    bounded depth i s = step (deepest bounded) i s := by
  induction n generalizing depth i s with
  | zero =>
    rw [h.atEnd _ i s (Nat.le_zero.1 few)]
    cases depth with
    | zero => exact h.none i s
    | succ depth => rw [h.more, h.atEnd _ i s (Nat.le_zero.1 few)]
  | succ n ih =>
    cases depth with
    | zero => rw [h.none, h.atEnd _ i s (Nat.le_zero.1 enough)]
    | succ depth =>
      rw [h.more]
      refine h.behind (min n depth) (bounded depth) (fun i s left => ?_) i s (by omega)
      exact (ih (by omega) (by omega)).trans (ih (by omega) (Nat.le_refl _)).symm

/-- The bounded productions are the one solution of the equation without a
bound. -/
theorem Nests.eq_step_iff (h : Nests step bounded expected) (inner : ι → Production) :
    inner = step inner ↔ inner = deepest bounded := by
  have solves : deepest bounded = step (deepest bounded) :=
    funext fun i => funext fun s => h.bounded_eq (Nat.le_refl s.left) (Nat.le_refl _)
  refine ⟨fun equation => ?_, fun same => same ▸ solves⟩
  -- Where one token more is left, both read what the equation says of fewer tokens.
  have agree : ∀ n i, Same n (inner i) (deepest bounded i) := by
    intro n
    induction n with
    | zero =>
      intro i s left
      rw [equation, solves, h.atEnd _ i s (Nat.le_zero.1 left),
        h.atEnd _ i s (Nat.le_zero.1 left)]
    | succ n ih =>
      intro i s left
      rw [equation, solves]
      exact h.behind n inner ih i s left
  exact funext fun i => funext fun s => agree s.left i s (Nat.le_refl _)

/-- The same for a single production. -/
theorem Nests.eq_iff {step : Production → Production} {bounded : Nat → Production}
    (h : Nests (fun inner (_ : Unit) => step (inner ())) (fun depth _ => bounded depth) expected)
    (inner : Production) : inner = step inner ↔ inner = look fun s => bounded s.left := by
  have iff := h.eq_step_iff fun _ => inner
  simpa only [funext_iff, deepest, forall_const] using iff

/-- A failure at the first part is the failure of the whole. -/
theorem bind_of_fail {p : Production} {f : List Tree → Production} {s : State}
    (h : p s = fail expected s) : (p >>= f) s = fail expected s :=
  bind_eq_error.2 (Or.inl h)

end Nesting

/-! ### One rule for each combinator -/

/-- Both productions read the same wherever at most `n` tokens are left, and
`used` tokens or more. -/
structure Agreed (n used : Nat) (p q : Production) : Prop where
  same : Same n p q
  uses : Uses used q

section Combinators

variable {n m used used' : Nat} {p p' q q' : Production}

theorem Agreed.mono (h : Agreed n used p q) (shorter : m ≤ n) (fewer : used' ≤ used) :
    Agreed m used' p q where
  same s left := h.same s (Nat.le_trans left shorter)
  uses s trees s' run := by
    have := h.uses s trees s' run
    omega

theorem agreed_refl (uses : Uses used p) : Agreed n used p p :=
  ⟨fun _ _ => rfl, uses⟩

theorem agreed_of_local {ahead : Nat} (h : Local [] ahead used p p) : Agreed n used p p :=
  agreed_refl (uses_of_local h)

theorem agreed_pure (trees : List Tree) : Agreed n 0 (pure trees) (pure trees) := by
  refine agreed_refl fun s trees s' run => ?_
  cases run
  exact Nat.le_refl _

theorem agreed_mark (text : String) : Agreed n 1 (mark text) (mark text) :=
  agreed_of_local (local_mark text)

theorem agreed_bind {f g : List Tree → Production} (first : Agreed n used p q)
    (others : ∀ trees, Agreed m used' (f trees) (g trees)) (reach : n ≤ m + used) :
    Agreed n (used + used') (p >>= f) (q >>= g) where
  same s left := by
    have same := first.same s left
    simp only [bind, StateT.bind, Except.bind, same]
    cases read : q s with
    | error failure => rfl
    | ok pair =>
      obtain ⟨trees, s'⟩ := pair
      have least := first.uses s trees s' read
      exact (others trees).same s' (by omega)
  uses s trees s' run := by
    obtain ⟨read, s₁, readFirst, readOthers⟩ := bind_eq_ok.1 run
    have least := first.uses s read s₁ readFirst
    have least' := (others read).uses s₁ trees s' readOthers
    omega

theorem agreed_wrap (kind : NodeKind) (before : List Tree) (inside : Agreed n used p q) :
    Agreed n used (wrap kind before p) (wrap kind before q) :=
  agreed_bind inside (fun _ => agreed_pure _) (Nat.le_add_right _ _)

theorem agreed_node (kind : NodeKind) (inside : Agreed n used p q) :
    Agreed n used (node kind p) (node kind q) :=
  agreed_wrap kind [] inside

theorem agreed_seq_cons {ps qs : List Production} (first : Agreed n used p q)
    (others : Agreed m used' (seq ps) (seq qs)) (reach : n ≤ m + used) :
    Agreed n (used + used') (seq (p :: ps)) (seq (q :: qs)) :=
  agreed_bind first
    (fun _ => agreed_bind others (fun _ => agreed_pure _) (Nat.le_add_right _ _)) reach

theorem agreed_seq_nil : Agreed n 0 (seq []) (seq []) :=
  agreed_pure []

theorem agreed_seq_last (last : Agreed n used p q) : Agreed n used (seq [p]) (seq [q]) :=
  agreed_seq_cons last agreed_seq_nil (Nat.le_add_right _ _)

/-- Behind a mark there is a token less. -/
theorem agreed_behind (text : String) {ps qs : List Production}
    (others : Agreed n used (seq ps) (seq qs)) :
    Agreed (n + 1) 1 (seq (mark text :: ps)) (seq (mark text :: qs)) :=
  (agreed_seq_cons (agreed_mark text) others (Nat.le_refl _)).mono (Nat.le_refl _)
    (Nat.le_add_right _ _)

theorem agreed_before (text : String) (first : Agreed n used p q) :
    Agreed n used (seq [p, mark text]) (seq [q, mark text]) :=
  (agreed_seq_cons first (agreed_seq_last (agreed_mark text)) (Nat.le_add_right _ _)).mono
    (Nat.le_refl _) (Nat.le_add_right _ _)

theorem agreed_look {choose choose' : State → Production}
    (each : ∀ s, Agreed n used (choose s) (choose' s)) :
    Agreed n used (look choose) (look choose') :=
  ⟨fun s left => (each s).same s left, fun s trees s' run => (each s).uses s trees s' run⟩

theorem agreed_ite {condition : Bool} (yes : Agreed n used p q)
    (no : Agreed n used p' q') :
    Agreed n used (if condition then p else p') (if condition then q else q') := by
  cases condition with
  | true => exact yes
  | false => exact no

theorem agreed_optional (condition : State → Bool) (inside : Agreed n used p q) :
    Agreed n 0 (optional condition p) (optional condition q) :=
  agreed_look fun _ => agreed_ite (inside.mono (Nat.le_refl _) (Nat.zero_le _)) (agreed_pure [])

theorem agreed_rounds (condition : State → Bool) (inside : Agreed n used p q)
    (count : Nat) :
    Agreed n 0 (rounds condition p count) (rounds condition q count) := by
  induction count with
  | zero => exact agreed_pure []
  | succ count ih =>
    refine agreed_look fun _ => agreed_ite ?_ (agreed_pure [])
    exact (agreed_bind inside (fun _ => agreed_bind ih (fun _ => agreed_pure _)
      (Nat.le_add_right _ _)) (Nat.le_add_right _ _)).mono (Nat.le_refl _) (Nat.zero_le _)

theorem agreed_many (condition : State → Bool) (inside : Agreed n used p q) :
    Agreed n 0 (many condition p) (many condition q) :=
  agreed_look fun s => agreed_rounds condition inside s.left

/-- Both ways to go on agree, or there is none. -/
def AgreedNext (n : Nat) (next next' : State → Option (NodeKind × Production)) : Prop :=
  ∀ s, (next s = none ∧ next' s = none) ∨
    ∃ kind p q, next s = some (kind, p) ∧ next' s = some (kind, q) ∧ Agreed n 1 p q

theorem AgreedNext.or {next next' others others' : State → Option (NodeKind × Production)}
    (first : AgreedNext n next next') (second : AgreedNext n others others') :
    AgreedNext n (fun s => (next s).or (others s)) (fun s => (next' s).or (others' s)) := by
  intro s
  rcases first s with ⟨none, none'⟩ | ⟨kind, p, q, goes, goes', inside⟩
  · simpa only [none, none', Option.none_or] using second s
  · exact Or.inr ⟨kind, p, q, by simp [goes], by simp [goes'], inside⟩

theorem agreed_extensions {next next' : State → Option (NodeKind × Production)}
    (each : AgreedNext n next next') (count : Nat) (before : List Tree) :
    Agreed n 0 (extensions next count before) (extensions next' count before) := by
  induction count generalizing before with
  | zero => exact agreed_pure before
  | succ count ih =>
    refine agreed_look fun s => ?_
    rcases each s with ⟨none, none'⟩ | ⟨kind, p, q, some, some', inside⟩
    · rw [none, none']
      exact agreed_pure before
    · rw [some, some']
      exact (agreed_bind (agreed_wrap kind before inside) ih (Nat.le_add_right _ _)).mono
        (Nat.le_refl _) (Nat.zero_le _)

theorem agreed_extend {next next' : State → Option (NodeKind × Production)}
    (first : Agreed n used p q) (each : AgreedNext n next next') :
    Agreed n used (extend p next) (extend q next') :=
  agreed_bind first (fun trees => agreed_look fun s => agreed_extensions each s.left trees)
    (Nat.le_add_right _ _)

theorem agreed_commaList (each : Agreed n 1 p q) :
    Agreed n 1 (commaList p) (commaList q) := by
  have further :=
    agreed_seq_cons (agreed_mark ",") (agreed_seq_last each) (Nat.le_add_right _ _)
  exact agreed_seq_cons each (agreed_seq_last (agreed_many _ further)) (Nat.le_add_right _ _)

theorem agreed_parenList (each : Agreed n 1 p q) :
    Agreed (n + 1) 1 (parenList p) (parenList q) := by
  have items := (agreed_commaList each).mono (Nat.le_refl _) (Nat.zero_le 1)
  exact agreed_behind "(" (agreed_before ")" (agreed_look fun s => agreed_ite
    ((agreed_mark "void").mono (Nat.le_refl _) (Nat.zero_le _))
      (agreed_ite (agreed_pure []) items)))

end Combinators

/-! ### Expressions -/

namespace Expression

/-- One tier over the tiers further in. -/
def level (inner : Tier → Production) : Tier → Production
  | .unary => unary inner
  | .conditional => conditional inner
  | .assignment => assignment inner

section Levels

variable {n : Nat} {inner : Tier → Production} (each : ∀ t, Agreed n 1 (inner t) (tier t))
include each

theorem agreed_expression : Agreed n 1 (expression inner) (expression tier) :=
  agreed_node _ (agreed_commaList (each .assignment))

theorem agreed_arraySpecifiers :
    Agreed n 0 (arraySpecifiers (inner .conditional)) (arraySpecifiers (tier .conditional)) := by
  have size := agreed_before "]" (agreed_optional (! ·.sees "]") (each .conditional))
  exact agreed_many _ (agreed_node _
    ((agreed_behind "[" size).mono (Nat.le_succ n) (Nat.le_refl _)))

theorem agreed_constructor : Agreed (n + 1) 1 (constructor inner) (constructor tier) :=
  agreed_look fun _ => agreed_node _ (agreed_seq_cons (agreed_of_local (local_take _ _))
    (agreed_seq_last (agreed_arraySpecifiers each)) (Nat.le_refl _))

theorem agreed_primary : Agreed (n + 1) 1 (primary inner) (primary tier) := by
  have list := agreed_parenList (each .assignment)
  refine agreed_look fun s => agreed_ite ?literal (agreed_ite ?call (agreed_ite ?name
    (agreed_ite ?constructed (agreed_ite ?parenthesis ?other))))
  case literal => exact agreed_of_local (local_node _ (local_take _ _))
  case call =>
    exact (agreed_node _ (agreed_seq_cons (agreed_of_local local_identifier) (agreed_seq_last list)
      (Nat.le_succ _))).mono (Nat.le_refl _) (by decide)
  case name => exact agreed_of_local (local_node _ local_identifier)
  case constructed =>
    exact (agreed_node _ (agreed_seq_cons (agreed_constructor each) (agreed_seq_last list)
      (Nat.le_succ _))).mono (Nat.le_refl _) (by decide)
  case parenthesis =>
    exact agreed_node _ (agreed_behind "(" (agreed_before ")" (agreed_expression each)))
  case other => exact agreed_refl fun s trees s' run => by cases run

theorem agreedNext_suffix : AgreedNext (n + 1) (suffix inner) (suffix tier) := by
  intro s
  unfold suffix
  split_ifs
  · exact Or.inr ⟨_, _, _, rfl, rfl, agreed_behind "."
      (agreed_of_local (local_seq_last local_identifier))⟩
  · exact Or.inr ⟨_, _, _, rfl, rfl, agreed_behind "[" (agreed_before "]" (agreed_expression each))⟩
  · exact Or.inr ⟨_, _, _, rfl, rfl, agreed_parenList (each .assignment)⟩
  · exact Or.inr ⟨_, _, _, rfl, rfl, agreed_mark "++"⟩
  · exact Or.inr ⟨_, _, _, rfl, rfl, agreed_mark "--"⟩
  · exact Or.inl ⟨rfl, rfl⟩

theorem agreed_unary : Agreed (n + 1) 1 (unary inner) (unary tier) := by
  refine agreed_look fun s => agreed_ite ?_
    (agreed_extend (agreed_primary each) (agreedNext_suffix each))
  exact (agreed_node _ (agreed_seq_cons (agreed_of_local (local_take _ _))
    (agreed_seq_last (each .unary)) (Nat.le_refl _))).mono (Nat.le_refl _) (by decide)

omit each in
theorem agreedNext_joining (row : List String) {p q : Production}
    (operand : Agreed (n + 1) 1 p q) :
    AgreedNext (n + 1) (joining row p) (joining row q) := by
  intro s
  have both := (agreed_seq_cons (agreed_of_local (local_take .expression (isOneOf row)))
    (agreed_seq_last operand) (Nat.le_succ _)).mono (Nat.le_refl _) (by decide : 1 ≤ 1 + 1)
  unfold joining
  split
  · exact Or.inr ⟨_, _, _, rfl, rfl, both⟩
  · exact Or.inl ⟨rfl, rfl⟩

theorem agreedNext_climb (rows : List (List String)) :
    AgreedNext (n + 1) (climb inner rows) (climb tier rows) := by
  induction rows with
  | nil => exact fun s => Or.inl ⟨rfl, rfl⟩
  | cons row tighter ih =>
    exact ih.or (agreedNext_joining row (agreed_extend (agreed_unary each) ih))

theorem agreed_binary (rows : List (List String)) :
    Agreed (n + 1) 1 (binary inner rows) (binary tier rows) :=
  agreed_extend (agreed_unary each) (agreedNext_climb each rows)

theorem agreed_conditional : Agreed (n + 1) 1 (conditional inner) (conditional tier) := by
  refine agreed_bind (agreed_binary each _) (fun trees => agreed_look fun s => agreed_ite ?_
    (agreed_pure trees)) (Nat.le_refl _)
  have branches := agreed_seq_cons (agreed_expression each) (agreed_behind ":"
    (agreed_seq_last (each .assignment))) (Nat.le_add_right_of_le (Nat.le_succ n))
  exact (agreed_wrap _ trees (agreed_behind "?" branches)).mono (Nat.le_succ n) (Nat.zero_le _)

theorem agreed_assignment : Agreed (n + 1) 1 (assignment inner) (assignment tier) := by
  have value := agreed_seq_cons
    (agreed_of_local (local_take .expression (isOneOf Vocabulary.assignmentOperators)))
    (agreed_seq_last (each .assignment)) (Nat.le_succ _)
  exact agreed_node _ (agreed_seq_cons (agreed_conditional each) (agreed_seq_last
    (agreed_optional _ value)) (Nat.le_refl _))

theorem agreed_level (t : Tier) : Agreed (n + 1) 1 (level inner t) (level tier t) := by
  cases t with
  | unary => exact agreed_unary each
  | conditional => exact agreed_conditional each
  | assignment => exact agreed_assignment each

end Levels

section AtEnd

variable {inner : Tier → Production} {s : State} (finished : s.rest = [])
include finished

theorem primary_of_nil : primary inner s = fail .expression s := by
  simp [primary, look, State.seesKind, State.seesTypeName, State.sees, finished]

theorem unary_of_nil : unary inner s = fail .expression s := by
  have none : s.seesAny Vocabulary.unaryOperators = false := by
    simp [State.seesAny, State.sees, finished]
  simp only [unary, look, none]
  exact bind_of_fail (primary_of_nil finished)

theorem binary_of_nil (rows : List (List String)) :
    binary inner rows s = fail .expression s :=
  bind_of_fail (unary_of_nil finished)

theorem level_of_nil (t : Tier) : level inner t s = fail .expression s := by
  have condition : conditional inner s = fail .expression s :=
    bind_of_fail (binary_of_nil finished _)
  cases t with
  | unary => exact unary_of_nil finished
  | conditional => exact condition
  | assignment => exact bind_of_fail (bind_of_fail condition)

end AtEnd

theorem nests_level : Nests level nested .expression where
  none _ _ := rfl
  more _ t _ := by cases t <;> rfl
  atEnd _ t _ finished := level_of_nil (State.rest_eq_nil finished) t
  behind _ _ same t :=
    (agreed_level (fun t => ⟨same t, uses_of_local (local_tier t)⟩) t).same

theorem tier_of_nil {s : State} (finished : s.rest = []) (t : Tier) :
    tier t s = fail .expression s := by
  rw [(nests_level.eq_step_iff tier).2 rfl]
  exact level_of_nil finished t

end Expression

/-! ### Types and initializers -/

namespace TypeSpecifier

theorem agreed_typeSpecifier {n : Nat} {inner : Production}
    (inside : Agreed n 1 inner Grammar.typeSpecifier) :
    Agreed (n + 1) 1 (typeSpecifier inner) (typeSpecifier Grammar.typeSpecifier) := by
  have names : Agreed n 1 _ _ :=
    agreed_before ";" (agreed_of_local (local_commaList local_dimensionedName))
  have member :=
    agreed_node .structMember (agreed_seq_cons (agreed_of_local local_qualifiers)
      (agreed_seq_cons inside names (Nat.le_succ n)) (Nat.le_refl n))
  have struct := agreed_node .structSpecifier (agreed_behind "struct" (agreed_seq_cons
    (agreed_of_local (local_optionalName (local_newTypeName.mono (Nat.zero_le 1) (Nat.le_refl 1))))
    ((agreed_behind "\x7b" (agreed_before "\x7d" (agreed_many (·.isBefore "\x7d") member))).mono
      (Nat.le_succ n) (Nat.le_refl _)) (Nat.le_refl n)))
  exact agreed_node _ (agreed_seq_cons (agreed_look fun s => agreed_ite struct
    (agreed_of_local (local_take _ _))) (agreed_seq_last (agreed_of_local local_arraySpecifiers))
    (Nat.le_refl _))

theorem nests_typeSpecifier :
    Nests (fun inner (_ : Unit) => typeSpecifier (inner ())) (fun depth _ => nested depth)
      .typeName where
  none _ _ := rfl
  more _ _ _ := rfl
  atEnd inner _ s finished := by
    have nothing := State.rest_eq_nil finished
    refine bind_of_fail (bind_of_fail ?_)
    simp [look, State.sees, nothing, take, State.next?_eq_none_iff.2 nothing, fail]
  behind _ _ same _ :=
    (agreed_typeSpecifier ⟨same (), uses_of_local Grammar.local_typeSpecifier⟩).same

end TypeSpecifier

namespace Initializer

theorem agreed_initializer {n : Nat} {inner : Production}
    (inside : Agreed n 1 inner Grammar.initializer) :
    Agreed (n + 1) 1 (initializer inner) (initializer Grammar.initializer) := by
  have further := agreed_seq_cons (agreed_mark ",")
    (agreed_seq_last (agreed_optional (·.isBefore "\x7d") inside)) (Nat.le_succ n)
  have items :=
    agreed_seq_cons inside (agreed_seq_last (agreed_many (·.sees ",") further)) (Nat.le_succ n)
  exact agreed_node _ (agreed_look fun s => agreed_ite
    (agreed_behind "\x7b" (agreed_before "\x7d" (agreed_optional (·.isBefore "\x7d") items)))
    (agreed_of_local (local_tier .assignment)))

theorem nests_initializer :
    Nests (fun inner (_ : Unit) => initializer (inner ())) (fun depth _ => nested depth)
      .expression where
  none _ _ := rfl
  more _ _ _ := rfl
  atEnd inner _ s finished := by
    have nothing := State.rest_eq_nil finished
    refine bind_of_fail ?_
    simp [look, State.sees, nothing, assignment, Expression.tier_of_nil nothing]
  behind _ _ same _ :=
    (agreed_initializer ⟨same (), uses_of_local Grammar.local_initializer⟩).same

end Initializer

/-! ### Statements -/

namespace Statement

section Levels

variable {n : Nat} {inner : Production} (inside : Agreed n 1 inner Grammar.statement)
include inside

theorem agreed_compound :
    Agreed (n + 1) 1 (compound inner) (compound Grammar.statement) :=
  agreed_node _ (agreed_behind "\x7b"
    (agreed_before "\x7d" (agreed_many (·.isBefore "\x7d") inside)))

theorem agreed_selection :
    Agreed (n + 1) 1 (selection inner) (selection Grammar.statement) := by
  have other :=
    agreed_optional (·.sees "else") (agreed_behind "else" (agreed_seq_last inside))
  exact agreed_node _ (agreed_behind "if" (agreed_seq_cons (agreed_of_local local_parenthesized)
    (agreed_seq_cons inside (agreed_seq_last other) (by omega)) (Nat.le_add_right _ _)))

theorem agreed_forLoop :
    Agreed (n + 1) 1 (forLoop inner) (forLoop Grammar.statement) := by
  have head : Agreed n 1 (look fun s =>
    if s.seesDeclaration then declaration none else expressionStatement)
      (look fun s => if s.seesDeclaration then declaration none else expressionStatement) :=
    agreed_look fun _ => agreed_ite (agreed_of_local (local_declaration (by simp)))
      (agreed_of_local local_expressionStatement)
  have condition : Agreed n 0 _ _ := agreed_of_local (local_unless ";" local_expression)
  have step : Agreed n 0 _ _ := agreed_of_local (local_unless ")" local_expression)
  have behind := agreed_seq_cons condition (agreed_behind ";" (agreed_seq_cons step
    (agreed_behind ")" (agreed_seq_last inside)) (by omega))) (by omega)
  exact agreed_node _ (agreed_behind "for"
    ((agreed_behind "(" (agreed_seq_cons head behind (by omega))).mono
      (Nat.le_succ n) (Nat.le_refl _)))

theorem agreed_statement :
    Agreed (n + 1) 1 (statement inner) (statement Grammar.statement) := by
  have loop :=
    agreed_seq_cons (agreed_of_local local_parenthesized) (agreed_seq_last inside)
      (Nat.le_add_right _ _)
  have body := agreed_seq_cons (agreed_of_local local_parenthesized)
    (agreed_seq_last ((agreed_compound inside).mono (Nat.le_succ n) (Nat.le_refl _)))
    (Nat.le_add_right _ _)
  have again : Agreed (n + 1) 1 _ _ :=
    agreed_behind "while" (agreed_before ";" (agreed_of_local local_parenthesized))
  refine agreed_look fun s => agreed_ite (agreed_compound inside)
    (agreed_ite (agreed_selection inside) (agreed_ite ?switch (agreed_ite ?label
      (agreed_ite ?loop (agreed_ite ?repeated (agreed_ite (agreed_forLoop inside)
        (agreed_ite ?jump (agreed_ite ?declared ?evaluated))))))))
  case switch => exact agreed_node _ (agreed_behind "switch" body)
  case label => exact (agreed_of_local local_caseLabel).mono (Nat.le_refl _) (by decide)
  case loop => exact agreed_node _ (agreed_behind "while" loop)
  case repeated =>
    exact agreed_node _ (agreed_behind "do" (agreed_seq_cons inside again (by omega)))
  case jump => exact (agreed_of_local local_jumpStatement).mono (Nat.le_refl _) (by decide)
  case declared => exact agreed_of_local (local_declaration (by simp))
  case evaluated => exact agreed_of_local local_expressionStatement

end Levels

theorem nests_statement :
    Nests (fun inner (_ : Unit) => statement (inner ())) (fun depth _ => nested depth)
      .expression where
  none _ _ := rfl
  more _ _ _ := rfl
  atEnd inner _ s finished := by
    have nothing := State.rest_eq_nil finished
    have failed : expression s = fail .expression s := bind_of_fail (bind_of_fail
      (Expression.tier_of_nil nothing .assignment))
    have evaluated : expressionStatement s = fail .expression s := by
      refine bind_of_fail (bind_of_fail ?_)
      simp [optional, look, State.sees, nothing, failed]
    simp [statement, look, State.sees, State.seesAny, State.seesDeclaration,
      State.seesQualifier, State.seesTypeName, State.seesKind, nothing, evaluated]
  behind _ _ same _ :=
    (agreed_statement ⟨same (), uses_of_local Grammar.local_statement⟩).same

end Statement

end ShaderDialect.Grammar
