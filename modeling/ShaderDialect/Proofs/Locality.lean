import Mathlib.Tactic.ByContra
import ShaderDialect.Proofs.Reading

/-!
# Productions look a little ahead

A production decides by the tokens that it reads and a few more. `Local more
ahead used p q` says how `p` reads a list of tokens, and `q` the same list with
`more` behind it: where `p` fails, it fails at a token of the list; it reads
`used` tokens or more; and where it leaves `ahead` tokens, `q` reads the same
trees, if it reads any. There is one rule for each combinator.
-/

namespace ShaderDialect

namespace Grammar

namespace State

/-- The state with more tokens at the end. -/
def extend (more : List Token) (s : State) : State where
  rest := s.rest ++ more
  typeNames := s.typeNames
  left := s.left + more.length
  left_eq := by rw [List.length_append, s.left_eq]

theorem next?_extend {s after : State} {token : Token} (more : List Token)
    (h : s.next? = some (token, after)) :
    (s.extend more).next? = some (token, after.extend more) := by
  obtain ⟨rest, typeNames, left, left_eq⟩ := s
  cases rest with
  | nil => cases h
  | cons first others =>
    cases h
    subst left_eq
    simp [next?, extend, Nat.add_right_comm]

theorem getElem?_extend {s : State} {i : Nat} (more : List Token) (h : i < s.left) :
    (s.extend more).rest[i]? = s.rest[i]? :=
  List.getElem?_append_left (s.left_eq ▸ h)

theorem head?_extend {s : State} (more : List Token) (h : 1 ≤ s.left) :
    (s.extend more).rest.head? = s.rest.head? := by
  rw [List.head?_eq_getElem?, getElem?_extend more h, List.head?_eq_getElem?]

section Conditions

variable {s : State} (more : List Token)

theorem sees_extend (h : 1 ≤ s.left) (text : String) :
    (s.extend more).sees text = s.sees text := by
  rw [sees, head?_extend more h, sees]

theorem seesSecond_extend (h : 2 ≤ s.left) (text : String) :
    (s.extend more).seesSecond text = s.seesSecond text := by
  rw [seesSecond, getElem?_extend more h, seesSecond]

theorem seesKind_extend (h : 1 ≤ s.left) (kind : TokenKind) :
    (s.extend more).seesKind kind = s.seesKind kind := by
  rw [seesKind, head?_extend more h, seesKind]

theorem seesAny_extend (h : 1 ≤ s.left) (texts : List String) :
    (s.extend more).seesAny texts = s.seesAny texts := by
  have same : (s.extend more).sees = s.sees := funext (sees_extend more h)
  rw [seesAny, same, seesAny]

theorem atEnd_extend (h : 1 ≤ s.left) : (s.extend more).atEnd = s.atEnd := by
  have left := s.left_eq
  cases shape : s.rest with
  | nil =>
    rw [shape, List.length_nil] at left
    omega
  | cons token rest => simp [atEnd, extend, shape]

theorem isBefore_extend (h : 1 ≤ s.left) (text : String) :
    (s.extend more).isBefore text = s.isBefore text := by
  rw [isBefore, sees_extend more h, atEnd_extend more h, isBefore]

theorem seesTypeName_extend (h : 1 ≤ s.left) :
    (s.extend more).seesTypeName = s.seesTypeName := by
  rw [seesTypeName, head?_extend more h, seesTypeName]
  rfl

theorem seesQualifier_extend (h : 2 ≤ s.left) :
    (s.extend more).seesQualifier = s.seesQualifier := by
  rw [seesQualifier, head?_extend more (by omega), getElem?_extend more h, seesQualifier]
  rfl

end Conditions

theorem left_pos_of_isBefore {s : State} {text : String} (h : s.isBefore text) :
    1 ≤ s.left := by
  by_contra none
  simp [isBefore, atEnd, rest_eq_nil (by omega : s.left = 0)] at h

end State

/-- How `p` reads the tokens of `s`, and `q` the same tokens with more behind
them. -/
structure LocalAt (more : List Token) (ahead used : Nat) (s : State)
    (p q : Production) : Prop where
  stops : ∀ failure, p s = .error failure → failure.rest <:+ s.rest
  uses : ∀ trees s', p s = .ok (trees, s') → s'.rest <:+ s.rest ∧ s'.left + used ≤ s.left
  decided : ∀ trees s' r, p s = .ok (trees, s') → q (s.extend more) = .ok r →
    ahead ≤ s'.left → r = (trees, s'.extend more)

def Local (more : List Token) (ahead used : Nat) (p q : Production) : Prop :=
  ∀ s, LocalAt more ahead used s p q

section Combinators

variable {more : List Token} {ahead ahead' used used' : Nat} {s : State}
    {p p' q q' : Production}

theorem LocalAt.mono (h : LocalAt more ahead used s p q) (farther : ahead ≤ ahead')
    (fewer : used' ≤ used) : LocalAt more ahead' used' s p q where
  stops := h.stops
  uses trees s' run := by
    obtain ⟨behind, least⟩ := h.uses trees s' run
    exact ⟨behind, by omega⟩
  decided trees s' r run run' left :=
    h.decided trees s' r run run' (Nat.le_trans farther left)

theorem Local.mono (h : Local more ahead used p q) (farther : ahead ≤ ahead')
    (fewer : used' ≤ used) : Local more ahead' used' p q :=
  fun s => (h s).mono farther fewer

theorem localAt_pure (s : State) (trees : List Tree) :
    LocalAt more 0 0 s (pure trees) (pure trees) where
  stops _ run := by cases run
  uses trees s' run := by
    cases run
    exact ⟨List.suffix_rfl, Nat.le_refl _⟩
  decided trees s' r run run' _ := by
    cases run
    cases run'
    rfl

theorem localAt_fail (s : State) (expected : Expectation) (q : Production) :
    LocalAt more ahead used s (fail expected) q where
  stops failure run := by
    cases run
    exact List.suffix_rfl
  uses _ _ run := by cases run
  decided _ _ _ run := by cases run

/-- A production that always fails agrees with every other one. -/
theorem LocalAt.of_fail (h : LocalAt more ahead used s p q) (expected : Expectation) :
    LocalAt more ahead used s p (fail expected) :=
  ⟨h.stops, h.uses, fun _ _ _ _ run' => by cases run'⟩

theorem localAt_bind {f g : List Tree → Production}
    (first : LocalAt more ahead used s p q)
    (others : ∀ trees s', p s = .ok (trees, s') → LocalAt more ahead' used' s' (f trees) (g trees))
    (reach : ahead ≤ ahead' + used') :
    LocalAt more ahead' (used + used') s (p >>= f) (q >>= g) where
  stops failure run := by
    rcases bind_eq_error.1 run with failed | ⟨trees, s₁, read, failed⟩
    · exact first.stops failure failed
    · exact ((others trees s₁ read).stops failure failed).trans (first.uses trees s₁ read).1
  uses trees s' run := by
    obtain ⟨read, s₁, readFirst, readOthers⟩ := bind_eq_ok.1 run
    obtain ⟨behind, least⟩ := first.uses read s₁ readFirst
    obtain ⟨behind', least'⟩ := (others read s₁ readFirst).uses trees s' readOthers
    exact ⟨behind'.trans behind, by omega⟩
  decided trees s' r run run' left := by
    obtain ⟨read, s₁, readFirst, readOthers⟩ := bind_eq_ok.1 run
    obtain ⟨read', s₁', readFirst', readOthers'⟩ := bind_eq_ok.1 run'
    have least := ((others read s₁ readFirst).uses trees s' readOthers).2
    have same := first.decided read s₁ (read', s₁') readFirst readFirst' (by omega)
    cases same
    exact (others read s₁ readFirst).decided trees s' r readOthers readOthers' left

theorem take_eq_error {expected : Expectation} {f : Token → Bool} {failure : Failure}
    (run : take expected f s = .error failure) : failure.rest = s.rest := by
  unfold take at run
  split at run
  · cases run
    rfl
  · split at run
    · cases run
    · cases run
      rfl

theorem localAt_take {expected : Expectation} {f g : Token → Bool} :
    LocalAt more 0 1 s (take expected f) (take expected g) where
  stops failure run := take_eq_error run ▸ List.suffix_rfl
  uses trees s' run := by
    obtain ⟨token, next, -, -⟩ := take_eq_ok run
    have rest := next?_rest next
    refine ⟨rest ▸ List.suffix_cons _ _, ?_⟩
    simp [s.left_eq, s'.left_eq, rest]
  decided trees s' r run run' _ := by
    obtain ⟨token, next, -, rfl⟩ := take_eq_ok run
    obtain ⟨trees', s₁⟩ := r
    obtain ⟨token', next', -, rfl⟩ := take_eq_ok run'
    rw [State.next?_extend more next] at next'
    cases next'
    rfl

theorem localAt_look {choose choose' : State → Production}
    (h : LocalAt more ahead used s (choose s) (choose' (s.extend more))) :
    LocalAt more ahead used s (look choose) (look choose') :=
  ⟨h.stops, h.uses, h.decided⟩

/-- A choice by a condition that can be told from the tokens which are used and
those ahead. -/
theorem localAt_ite {condition condition' : Bool}
    (same : ahead + used ≤ s.left → condition' = condition)
    (yes : condition = true → LocalAt more ahead used s p q)
    (no : condition = false → LocalAt more ahead used s p' q') :
    LocalAt more ahead used s (if condition then p else p') (if condition' then q else q') := by
  have chosen : LocalAt more ahead used s (if condition then p else p')
      (if condition then q else q') := by
    cases condition with
    | true => exact yes rfl
    | false => exact no rfl
  refine ⟨chosen.stops, chosen.uses, fun trees s' r run run' left => ?_⟩
  have least := (chosen.uses trees s' run).2
  rw [same (by omega)] at run'
  exact chosen.decided trees s' r run run' left

theorem LocalAt.congr (h : LocalAt more ahead used s p q) (same : p' s = p s) :
    LocalAt more ahead used s p' q :=
  ⟨same ▸ h.stops, same ▸ h.uses, same ▸ h.decided⟩

/-- Nothing can be told apart at the end of the tokens. -/
theorem localAt_pure_of_left {trees : List Tree} (empty : s.left = 0) (far : 1 ≤ ahead)
    (q : Production) : LocalAt more ahead 0 s (pure trees) q := by
  have alone : LocalAt more 0 0 s (pure trees) (pure trees) := localAt_pure s trees
  refine ⟨alone.stops, alone.uses, fun trees' s' r run _ left => ?_⟩
  cases run
  omega

theorem localAt_wrap (kind : NodeKind) (before : List Tree)
    (inside : LocalAt more ahead used s p q) :
    LocalAt more ahead used s (wrap kind before p) (wrap kind before q) :=
  localAt_bind inside
    (fun _ s' _ => (localAt_pure s' _).mono (Nat.zero_le ahead) (Nat.le_refl 0)) (Nat.le_refl _)

theorem local_wrap (kind : NodeKind) (before : List Tree)
    (inside : Local more ahead used p q) :
    Local more ahead used (wrap kind before p) (wrap kind before q) :=
  fun s => localAt_wrap kind before (inside s)

theorem local_node (kind : NodeKind) (inside : Local more ahead used p q) :
    Local more ahead used (node kind p) (node kind q) :=
  local_wrap kind [] inside

theorem localAt_append (first : LocalAt more ahead used s p q)
    (others : ∀ trees s', p s = .ok (trees, s') → LocalAt more ahead' used' s' p' q')
    (reach : ahead ≤ ahead' + used') :
    LocalAt more ahead' (used + used') s (do let trees ← p; let others ← p'; return trees ++ others)
      (do let trees ← q; let others ← q'; return trees ++ others) := by
  refine localAt_bind first (fun trees s' read => ?_) reach
  exact localAt_bind (others trees s' read)
    (fun _ s' _ => (localAt_pure s' _).mono (Nat.zero_le ahead') (Nat.le_refl 0)) (Nat.le_refl _)

theorem local_seq_nil (ahead : Nat) : Local more ahead 0 (seq []) (seq []) :=
  fun s => (localAt_pure s []).mono (Nat.zero_le _) (Nat.le_refl _)

theorem local_seq_cons {ps qs : List Production} (first : Local more ahead used p q)
    (others : Local more ahead' used' (seq ps) (seq qs))
    (reach : ahead ≤ ahead' + used') :
    Local more ahead' (used + used') (seq (p :: ps)) (seq (q :: qs)) :=
  fun s => localAt_append (first s) (fun _ s' _ => others s') reach

theorem local_seq_last (last : Local more ahead used p q) :
    Local more ahead used (seq [p]) (seq [q]) :=
  local_seq_cons last (local_seq_nil ahead) (Nat.le_refl _)

theorem local_optional {condition condition' : State → Bool}
    (inside : Local more ahead used p q)
    (same : ∀ s : State, ahead ≤ s.left → condition' (s.extend more) = condition s) :
    Local more ahead 0 (optional condition p) (optional condition' q) :=
  fun s => localAt_look (localAt_ite (same s)
    (fun _ => (inside s).mono (Nat.le_refl _) (Nat.zero_le _))
    (fun _ => (localAt_pure s []).mono (Nat.zero_le _) (Nat.le_refl _)))

/-- A condition that needs a token, and at most `ahead` of them. -/
structure Looks (more : List Token) (ahead : Nat) (condition : State → Bool) : Prop where
  left_pos : ∀ s, condition s → 1 ≤ s.left
  same : ∀ s : State, ahead ≤ s.left → condition (s.extend more) = condition s

theorem localAt_rounds {condition : State → Bool} (looks : Looks more ahead condition)
    (far : 1 ≤ ahead) (inside : Local more ahead 1 p q) {n m : Nat} (s : State)
    (enough : s.left ≤ n) (enough' : s.left ≤ m) :
    LocalAt more ahead 0 s (rounds condition p n) (rounds condition q m) := by
  induction n generalizing m s with
  | zero => exact localAt_pure_of_left (Nat.le_zero.1 enough) far _
  | succ n ih =>
    by_cases empty : s.left = 0
    · have stays : condition s = false :=
        Bool.eq_false_iff.2 fun holds => absurd (looks.left_pos s holds) (by omega)
      refine (localAt_pure_of_left empty far _).congr (p := pure []) ?_
      simp [rounds, look, stays, Grammar.empty]
    · obtain ⟨m, rfl⟩ := Nat.exists_eq_succ_of_ne_zero (by omega : m ≠ 0)
      refine localAt_look (localAt_ite (looks.same s) (fun _ => ?_) (fun _ => ?_))
      · have others : ∀ trees s', p s = .ok (trees, s') →
            LocalAt more ahead 0 s' (rounds condition p n) (rounds condition q m) := by
          intro trees s' read
          have least := ((inside s).uses trees s' read).2
          exact ih s' (by omega) (by omega)
        exact (localAt_append (inside s) others (Nat.le_refl _)).mono (Nat.le_refl _)
          (Nat.zero_le _)
      · exact (localAt_pure s []).mono (Nat.zero_le _) (Nat.le_refl _)

theorem local_many {condition : State → Bool} (looks : Looks more ahead condition)
    (far : 1 ≤ ahead) (inside : Local more ahead 1 p q) :
    Local more ahead 0 (many condition p) (many condition q) :=
  fun s => localAt_look (localAt_rounds looks far inside s (Nat.le_refl _) (Nat.le_add_right _ _))

/-- Both ways to go on are the same, or there is none. -/
def LocalNext (more : List Token)
    (next next' : State → Option (NodeKind × Production)) : Prop :=
  ∀ s, (next s = none ∧ (1 ≤ s.left → next' (s.extend more) = none)) ∨
    ∃ kind p q, 1 ≤ s.left ∧ next s = some (kind, p) ∧
      next' (s.extend more) = some (kind, q) ∧
      Local more 1 1 p q

theorem LocalNext.or {next next' tighter tighter' : State → Option (NodeKind × Production)}
    (each : LocalNext more tighter tighter') (others : LocalNext more next next') :
    LocalNext more (fun s => (tighter s).or (next s)) fun s =>
      (tighter' s).or (next' s) := by
  intro s
  rcases each s with ⟨closed, closed'⟩ | ⟨kind, p, q, left, goes, goes', inside⟩
  · simp only [closed, Option.none_or]
    rcases others s with ⟨closed, none⟩ | ⟨kind, p, q, left, goes, goes', inside⟩
    · exact Or.inl ⟨closed, fun left => by rw [closed' left, none left, Option.none_or]⟩
    · exact Or.inr ⟨kind, p, q, left, goes, by rw [closed' left, goes', Option.none_or], inside⟩
  · exact Or.inr ⟨kind, p, q, left, by simp [goes], by simp [goes'], inside⟩

theorem localAt_extensions {next next' : State → Option (NodeKind × Production)}
    (each : LocalNext more next next') {n m : Nat} (before : List Tree) (s : State)
    (enough : s.left ≤ n) (enough' : s.left ≤ m) :
    LocalAt more 1 0 s (extensions next n before) (extensions next' m before) := by
  induction n generalizing m before s with
  | zero => exact localAt_pure_of_left (Nat.le_zero.1 enough) (Nat.le_refl _) _
  | succ n ih =>
    rcases each s with ⟨none, none'⟩ | ⟨kind, p, q, present, some, some', inside⟩
    · by_cases empty : s.left = 0
      · refine (localAt_pure_of_left empty (Nat.le_refl _) _).congr (p := pure before) ?_
        simp [extensions, look, none]
      · obtain ⟨m, rfl⟩ := Nat.exists_eq_succ_of_ne_zero (by omega : m ≠ 0)
        refine localAt_look ?_
        rw [none, none' (by omega)]
        exact (localAt_pure s before).mono (Nat.zero_le _) (Nat.le_refl _)
    · obtain ⟨m, rfl⟩ := Nat.exists_eq_succ_of_ne_zero (by omega : m ≠ 0)
      refine localAt_look ?_
      rw [some, some']
      have wrapped := local_wrap kind before inside s
      have others : ∀ trees s', wrap kind before p s = .ok (trees, s') →
          LocalAt more 1 0 s' (extensions next n trees) (extensions next' m trees) := by
        intro trees s' read
        have least := (wrapped.uses trees s' read).2
        exact ih trees s' (by omega) (by omega)
      exact (localAt_bind wrapped others (Nat.le_refl _)).mono (Nat.le_refl _) (Nat.zero_le _)

theorem local_extend {next next' : State → Option (NodeKind × Production)}
    (first : Local more 1 used p q) (each : LocalNext more next next') :
    Local more 1 used (extend p next) (extend q next') := by
  intro s
  have others : ∀ (trees : List Tree) (s' : State),
      LocalAt more 1 0 s' (look fun s => extensions next s.left trees)
        (look fun s => extensions next' s.left trees) :=
    fun trees s' => localAt_look
      (localAt_extensions each trees s' (Nat.le_refl _) (Nat.le_add_right _ _))
  exact localAt_bind (first s) (fun trees s' _ => others trees s') (Nat.le_refl _)

end Combinators

/-! ### Tokens and lists -/

section Lists

variable {more : List Token} {used : Nat} {p q : Production}

theorem local_take (expected : Expectation) (f : Token → Bool) :
    Local more 0 1 (take expected f) (take expected f) :=
  fun _ => localAt_take

theorem local_mark (text : String) : Local more 0 1 (mark text) (mark text) :=
  local_take _ _

theorem local_identifier : Local more 0 1 identifier identifier :=
  local_take _ _

theorem newTypeName_eq_ok {s : State} {r : List Tree × State} :
    newTypeName s = .ok r ↔ ∃ trees s', identifier s = .ok (trees, s') ∧
      r = (trees, { s' with
        typeNames := trees.filterMap (·.token?.map Token.text) ++ s'.typeNames }) := by
  unfold newTypeName
  cases identifier s with
  | error failure => simp
  | ok pair =>
    obtain ⟨trees, s'⟩ := pair
    simp [eq_comm]

theorem local_newTypeName : Local more 0 1 newTypeName newTypeName := by
  intro s
  have named : LocalAt more 0 1 s identifier identifier := local_identifier s
  refine ⟨fun failure run => named.stops failure ?_, fun trees s' run => ?_,
    fun trees s' r run run' _ => ?_⟩
  · unfold newTypeName at run
    split at run
    · rename_i failed
      cases run
      exact failed
    · cases run
  · obtain ⟨trees', after, read, same⟩ := newTypeName_eq_ok.1 run
    cases same
    exact named.uses trees after read
  · obtain ⟨trees', after, read, same⟩ := newTypeName_eq_ok.1 run
    obtain ⟨trees'', after', read', rfl⟩ := newTypeName_eq_ok.1 run'
    cases same
    cases named.decided trees after (trees'', after') read read' (Nat.zero_le _)
    rfl

theorem looks_sees (text : String) : Looks more 1 (·.sees text) :=
  ⟨fun _ seen => State.left_pos_of_head? seen, fun _ left => State.sees_extend more left text⟩

/-- What is read unless a mark comes next. -/
theorem local_unless (text : String) (inside : Local more 1 used p q) :
    Local more 1 0 (optional (! ·.sees text) p) (optional (! ·.sees text) q) :=
  local_optional inside fun _ left => by rw [State.sees_extend more left]

theorem local_ifSees (text : String) (inside : Local more 1 used p q) :
    Local more 1 0 (optional (·.sees text) p) (optional (·.sees text) q) :=
  local_optional inside fun _ left => State.sees_extend more left text

theorem local_ifBefore (text : String) (inside : Local more 1 used p q) :
    Local more 1 0 (optional (·.isBefore text) p) (optional (·.isBefore text) q) :=
  local_optional inside fun _ left => State.isBefore_extend more left text

/-- What is repeated as long as a mark comes next. -/
theorem local_while (text : String) (inside : Local more 1 1 p q) :
    Local more 1 0 (many (·.sees text) p) (many (·.sees text) q) :=
  local_many (looks_sees text) (Nat.le_refl _) inside

/-- What is repeated up to a closing mark. -/
theorem local_until (text : String) (inside : Local more 1 1 p q) :
    Local more 1 0 (many (·.isBefore text) p) (many (·.isBefore text) q) :=
  local_many ⟨fun _ before => State.left_pos_of_isBefore before,
    fun _ left => State.isBefore_extend more left text⟩ (Nat.le_refl _) inside

theorem local_commaList (each : Local more 1 1 p q) :
    Local more 1 1 (commaList p) (commaList q) := by
  have further := (local_seq_cons (local_mark ",") (local_seq_last each) (by decide)).mono
    (Nat.le_refl 1) (by decide : 1 ≤ 1 + 1)
  exact local_seq_cons each (local_seq_last (local_while "," further)) (by decide)

theorem State.sees_eq_false {s : State} {text : String} (h : s.sees text) (other : String)
    (apart : text ≠ other) : s.sees other = false := by
  unfold sees at h ⊢
  cases seen : s.rest.head? with
  | none => rfl
  | some token =>
    simp only [seen, Option.any_some, Token.is, Bool.and_eq_true, decide_eq_true_eq] at h ⊢
    simp [h.2, apart]

theorem local_parenList (each : Local more 1 1 p q) :
    Local more 0 2 (parenList p) (parenList q) := by
  have items := local_commaList each
  have inside : Local more 1 0
      (look fun s =>
        if s.sees "void" && s.seesSecond ")" then mark "void"
        else if s.sees ")" then empty
        else commaList p)
      (look fun s =>
        if s.sees "void" && s.seesSecond ")" then mark "void"
        else if s.sees ")" then empty
        else commaList q) := by
    intro s
    refine localAt_look ?_
    by_cases void : s.sees "void" = true
    · -- A lone `void` is told from a type by the token behind it.
      have left := State.left_pos_of_head? void
      rw [State.sees_extend more left, State.sees_extend more left, void,
        State.sees_eq_false void ")" (by decide)]
      have chosen : LocalAt more 1 1 s
          (if true && s.seesSecond ")" then mark "void" else commaList p)
          (if true && (s.extend more).seesSecond ")" then mark "void" else commaList q) :=
        localAt_ite (fun left => by rw [State.seesSecond_extend more left])
          (fun _ => (local_mark "void" s).mono (by decide) (by decide)) (fun _ => items s)
      exact chosen.mono (by decide) (by decide)
    · rw [Bool.not_eq_true] at void
      refine localAt_ite (fun left => ?_) (fun both => ?_) (fun _ => ?_)
      · rw [State.sees_extend more left, void, Bool.false_and, Bool.false_and]
      · simp [void] at both
      · refine localAt_ite (fun left => State.sees_extend more left ")") (fun _ => ?_) (fun _ => ?_)
        · exact (localAt_pure s []).mono (by decide) (by decide)
        · exact (items s).mono (by decide) (by decide)
  exact local_seq_cons (local_mark "(") (local_seq_cons inside (local_seq_last (local_mark ")"))
    (by decide)) (by decide)

end Lists

end Grammar

end ShaderDialect
