import ShaderDialect.Proofs.Reading

/-!
# Climbing through the rows of operators

Operands are joined in one loop: an operator of any of the given rows is read,
and behind it an operand that is joined by tighter rows only. This comes to the
same as one loop for each row, which joins the operands that the tighter rows
have made. The bounds of the loops are never felt, so both are compared without
them.
-/

namespace ShaderDialect.Grammar

/-- What `p` reads is `used` tokens or more. -/
def Uses (used : Nat) (p : Production) : Prop :=
  ∀ s trees s', p s = .ok (trees, s') → s'.left + used ≤ s.left

/-- What is read is taken from the tokens. -/
theorem Reads.uses {p : Production} {form : Form} (h : Reads p form) : Uses 0 p := by
  intro s trees s' run
  have leaves := congrArg List.length (h s trees s' run).leaves
  simp only [Tree.leavesAll_nil, List.nil_append, List.length_append] at leaves
  rw [s.left_eq, s'.left_eq]
  omega

/-! ### Extensions without a bound -/

/-- Every way to go on reads a token. -/
def Consumes (next : State → Option (NodeKind × Production)) : Prop :=
  ∀ s kind p, next s = some (kind, p) → 1 ≤ s.left ∧ Uses 1 p

/-- How a tree is extended without a bound. -/
inductive Extending (next : State → Option (NodeKind × Production)) :
    List Tree → State → Except Failure (List Tree × State) → Prop
  | stop {before : List Tree} {s : State} (finished : next s = none) :
      Extending next before s (.ok (before, s))
  | fail {before : List Tree} {s : State} {kind : NodeKind} {p : Production} {failure : Failure}
      (goes : next s = some (kind, p)) (failed : wrap kind before p s = .error failure) :
      Extending next before s (.error failure)
  | round {before wider : List Tree} {s s' : State} {kind : NodeKind} {p : Production}
      {result : Except Failure (List Tree × State)} (goes : next s = some (kind, p))
      (read : wrap kind before p s = .ok (wider, s')) (others : Extending next wider s' result) :
      Extending next before s result

theorem extending_extensions {next : State → Option (NodeKind × Production)}
    (each : Consumes next) {n : Nat} {before : List Tree} {s : State}
    (enough : s.left ≤ n) :
    Extending next before s (extensions next n before s) := by
  induction n generalizing before s with
  | zero =>
    cases goes : next s with
    | none => exact .stop goes
    | some pair =>
      have := (each s pair.1 pair.2 goes).1
      omega
  | succ n ih =>
    cases goes : next s with
    | none =>
      have stays : extensions next (n + 1) before s = .ok (before, s) := by
        simp only [extensions, look, goes]
        rfl
      exact stays ▸ .stop goes
    | some pair =>
      obtain ⟨kind, p⟩ := pair
      have unfolded : extensions next (n + 1) before s =
          (wrap kind before p >>= extensions next n) s := by
        simp only [extensions, look, goes]
      rw [unfolded]
      cases read : wrap kind before p s with
      | error failure =>
        rw [bind_eq_error.2 (Or.inl read)]
        exact .fail goes read
      | ok pair =>
        obtain ⟨wider, s'⟩ := pair
        obtain ⟨new, inside⟩ := wrap_eq_ok read
        have least := (each s kind p goes).2 s new s' inside
        have joined : (wrap kind before p >>= extensions next n) s =
            extensions next n wider s' := by
          simp only [bind, StateT.bind, Except.bind, read]
        exact joined ▸ .round goes read (ih (by omega))

/-- What `p` reads, extended without a bound. -/
inductive Extended (p : Production) (next : State → Option (NodeKind × Production))
    (s : State) :
    Except Failure (List Tree × State) → Prop
  | fail {failure : Failure} (failed : p s = .error failure) :
      Extended p next s (.error failure)
  | goesOn {trees : List Tree} {s' : State} {result : Except Failure (List Tree × State)}
      (read : p s = .ok (trees, s')) (others : Extending next trees s' result) :
        Extended p next s result

theorem extended_extend {p : Production} {next : State → Option (NodeKind × Production)}
    (each : Consumes next) (s : State) :
    Extended p next s (extend p next s) := by
  cases read : p s with
  | error failure =>
    have failed : extend p next s = .error failure := bind_eq_error.2 (Or.inl read)
    exact failed ▸ .fail read
  | ok pair =>
    obtain ⟨trees, s'⟩ := pair
    have joined : extend p next s = extensions next s'.left trees s' := by
      simp only [extend, bind, StateT.bind, Except.bind, read, look]
    exact joined ▸ .goesOn read (extending_extensions each (Nat.le_refl _))


namespace Extending

variable {next tighter : State → Option (NodeKind × Production)} {before : List Tree}
    {s : State}
  {result : Except Failure (List Tree × State)}

/-- There is one way to extend a tree. -/
theorem unique (h : Extending next before s result)
    {other : Except Failure (List Tree × State)}
    (h' : Extending next before s other) : result = other := by
  induction h with
  | stop finished =>
    cases h' with
    | stop => rfl
    | fail goes => simp [finished] at goes
    | round goes => simp [finished] at goes
  | fail goes failed =>
    cases h' with
    | stop finished => simp [finished] at goes
    | fail goes' failed' =>
      cases goes.symm.trans goes'
      exact failed.symm.trans failed'
    | round goes' read' =>
      cases goes.symm.trans goes'
      cases failed.symm.trans read'
  | round goes read others ih =>
    cases h' with
    | stop finished => simp [finished] at goes
    | fail goes' failed' =>
      cases goes.symm.trans goes'
      cases read.symm.trans failed'
    | round goes' read' others' =>
      cases goes.symm.trans goes'
      cases read.symm.trans read'
      exact ih others'

/-- Where a tree is extended no further, there is no way to go on. -/
theorem finished {wider : List Tree} {s' : State} (h : Extending next before s result)
    (done : result = .ok (wider, s')) : next s' = none := by
  induction h with
  | stop finished =>
    cases done
    exact finished
  | fail => cases done
  | round _ _ _ ih => exact ih done

theorem left_le (each : Consumes next) {wider : List Tree} {s' : State}
    (h : Extending next before s result) (done : result = .ok (wider, s')) :
    s'.left ≤ s.left := by
  induction h with
  | stop =>
    cases done
    exact Nat.le_refl _
  | fail => cases done
  | round goes read _ ih =>
    obtain ⟨new, inside⟩ := wrap_eq_ok read
    have least := (each _ _ _ goes).2 _ _ _ inside
    have others := ih done
    omega

/-- What fails with some ways to go on fails with more of them. -/
theorem or_of_error {failure : Failure} (h : Extending tighter before s result)
    (failed : result = .error failure) :
    Extending (fun s => (tighter s).or (next s)) before s result := by
  induction h with
  | stop => cases failed
  | fail goes fails => exact .fail (by rw [goes, Option.some_or]) fails
  | round goes read _ ih => exact .round (by rw [goes, Option.some_or]) read (ih failed)

/-- The ways that come first are used first. -/
theorem or_of_ok {wider : List Tree} {s' : State}
    {result' : Except Failure (List Tree × State)}
    (h : Extending tighter before s result) (done : result = .ok (wider, s'))
    (others : Extending (fun s => (tighter s).or (next s)) wider s' result') :
    Extending (fun s => (tighter s).or (next s)) before s result' := by
  induction h with
  | stop =>
    cases done
    exact others
  | fail => cases done
  | round goes read _ ih => exact .round (by rw [goes, Option.some_or]) read (ih done)

/-- Ways that are never open need not be looked at. -/
theorem or_of_none
    (closes : ∀ s kind p trees s', next s = some (kind, p) → p s = .ok (trees, s') →
      tighter s' = none)
    (h : Extending next before s result) (closed : tighter s = none) :
    Extending (fun s => (tighter s).or (next s)) before s result := by
  induction h with
  | stop finished => exact .stop (by rw [closed, finished, Option.none_or])
  | fail goes failed => exact .fail (by rw [closed, goes, Option.none_or]) failed
  | round goes read _ ih =>
    obtain ⟨new, inside⟩ := wrap_eq_ok read
    exact .round (by rw [closed, goes, Option.none_or]) read (ih (closes _ _ _ _ _ goes inside))

end Extending

theorem Extended.unique {p : Production} {next : State → Option (NodeKind × Production)}
    {s : State} {result other : Except Failure (List Tree × State)}
    (h : Extended p next s result)
    (h' : Extended p next s other) : result = other := by
  cases h with
  | fail failed =>
    cases h' with
    | fail failed' => exact failed.symm.trans failed'
    | goesOn read => cases failed.symm.trans read
  | goesOn read others =>
    cases h' with
    | fail failed => cases read.symm.trans failed
    | goesOn read' others' =>
      cases read.symm.trans read'
      exact others.unique others'


section Extend

variable {p : Production} {next tighter : State → Option (NodeKind × Production)}

theorem uses_extend {used : Nat} (first : Uses used p) (each : Consumes next) :
    Uses used (extend p next) := by
  intro s trees s' run
  have extended := @extended_extend p next each s
  rw [run] at extended
  cases extended with
  | goesOn read others =>
    have least := first _ _ _ read
    have behind := others.left_le each rfl
    omega

theorem Consumes.or (each : Consumes next) (each' : Consumes tighter) :
    Consumes fun s => (tighter s).or (next s) := by
  intro s kind p goes
  rcases Option.or_eq_some_iff.1 goes with goes | ⟨-, goes⟩
  · exact each' s kind p goes
  · exact each s kind p goes

/-- One loop with two sorts of ways to go on is two loops, one inside the other,
where the outer one leaves the inner one nothing to go on with. -/
theorem extend_or (each : Consumes next) (each' : Consumes tighter)
    (closes : ∀ s kind p trees s', next s = some (kind, p) → p s = .ok (trees, s') →
      tighter s' = none) :
    extend p (fun s => (tighter s).or (next s)) = extend (extend p tighter) next := by
  funext s
  have inner := @extended_extend p tighter each' s
  have outer := @extended_extend (extend p tighter) next each s
  refine (extended_extend (each.or each') s).unique ?_
  generalize extend (extend p tighter) next s = result at outer ⊢
  cases outer with
  | fail failed =>
    rw [failed] at inner
    cases inner with
    | fail failed => exact .fail failed
    | goesOn read inside => exact .goesOn read (inside.or_of_error rfl)
  | goesOn read others =>
    rw [read] at inner
    cases inner with
    | goesOn read inside =>
      exact .goesOn read
        (inside.or_of_ok rfl (others.or_of_none closes (inside.finished rfl)))

theorem extend_none (p : Production) : extend p (fun _ => none) = p := by
  funext s
  have stays : ∀ (n : Nat) (before : List Tree), extensions (fun _ => none) n before =
      pure before := by
    intro n before
    cases n <;> rfl
  simp only [extend, look, stays, bind, StateT.bind, Except.bind]
  cases p s <;> rfl

end Extend

/-! ### Rows of operators -/

namespace Expression

variable {inner : Tier → Production} (operand : Uses 0 (unary inner))

theorem uses_take (expected : Expectation) (p : Token → Bool) :
    Uses 1 (take expected p) := by
  intro s trees s' run
  obtain ⟨token, next, -⟩ := take_eq_ok run
  rw [s.left_eq, s'.left_eq, next?_rest next]
  exact Nat.le_refl _

theorem consumes_joining (row : List String) {p : Production} (uses : Uses 0 p) :
    Consumes (joining row p) := by
  intro s kind q goes
  unfold joining at goes
  split at goes
  · rename_i seen
    cases goes
    refine ⟨State.left_pos_of_seesAny seen, fun s trees s' run => ?_⟩
    obtain ⟨_, s₁, _, read, run⟩ := seq_cons_eq_ok run
    obtain ⟨_, s₂, _, read', done⟩ := seq_cons_eq_ok run
    obtain ⟨-, rfl⟩ := pure_eq_ok.1 done
    have first := uses_take _ _ _ _ _ read
    have others := uses _ _ _ read'
    omega
  · cases goes

include operand

theorem consumes_climb (rows : List (List String)) : Consumes (climb inner rows) := by
  induction rows with
  | nil =>
    intro s kind p goes
    cases goes
  | cons row tighter ih => exact (consumes_joining row (uses_extend operand ih)).or ih

theorem uses_binary (rows : List (List String)) : Uses 0 (binary inner rows) :=
  uses_extend operand (consumes_climb operand rows)

/-- Behind operands joined by some rows stands no operator of these rows. -/
theorem climb_eq_none {rows : List (List String)} {s s' : State} {trees : List Tree}
    (run : binary inner rows s = .ok (trees, s')) : climb inner rows s' = none := by
  have extended := @extended_extend (unary inner) _ (consumes_climb operand rows) s
  rw [show extend (unary inner) (climb inner rows) s = _ from run] at extended
  cases extended with
  | goesOn read others => exact others.finished rfl

omit operand in
theorem binary_nil : binary inner [] = unary inner :=
  extend_none (unary inner)

/-- The operands of a row are what the tighter rows join. -/
theorem binary_cons (row : List String) (tighter : List (List String)) :
    binary inner (row :: tighter) =
      extend (binary inner tighter) (joining row (binary inner tighter)) := by
  refine extend_or (consumes_joining row (uses_binary operand tighter))
    (consumes_climb operand tighter) fun s kind p trees s' goes run => ?_
  unfold joining at goes
  split at goes
  · cases goes
    obtain ⟨_, s₁, _, -, run⟩ := seq_cons_eq_ok run
    obtain ⟨_, s₂, _, read, done⟩ := seq_cons_eq_ok run
    obtain ⟨-, rfl⟩ := pure_eq_ok.1 done
    exact climb_eq_none operand read
  · cases goes

end Expression

end ShaderDialect.Grammar
