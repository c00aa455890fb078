import Mathlib.Data.List.Forall2
import Mathlib.Tactic.ByContra
import ShaderDialect.Proofs.TreeGrammar

/-!
# What productions read

`Reads p form` says of every successful run of `p` that the leaves of the trees
it returns are exactly the tokens it has used, in order, that these trees are
grammatical, and that they have the given form. There is one rule for each
combinator, so a production is treated by the rules for the combinators it is
written with. `ReadsOnto before` is the same for a production that goes on with
trees already read.
-/

namespace ShaderDialect

namespace Tree

theorem leavesAll_append (before after : List Tree) :
    leavesAll (before ++ after) = leavesAll before ++ leavesAll after := by
  induction before with
  | nil => rfl
  | cons tree trees ih => simp [ih]

end Tree

namespace Grammar

/-- The trees `trees` are `before` with the tokens between `s` and `s'`. -/
structure Reading (before : List Tree) (form : Form) (s : State) (trees : List Tree)
    (s' : State) : Prop where
  leaves : Tree.leavesAll before ++ s.rest = Tree.leavesAll trees ++ s'.rest
  grammatical : ∀ tree ∈ trees, tree.Grammatical
  form : form.Matches trees

def ReadsOnto (before : List Tree) (s : State) (p : Production) (form : Form) : Prop :=
  ∀ trees s', p s = .ok (trees, s') → Reading before form s trees s'

/-- What `p` reads where it starts in `s`. -/
def ReadsAt (s : State) (p : Production) (form : Form) : Prop :=
  ReadsOnto [] s p form

def Reads (p : Production) (form : Form) : Prop :=
  ∀ s, ReadsAt s p form

/-- A sequence of two parsers succeeds when both do. -/
theorem bind_eq_ok {α β : Type} {p : Parser α} {f : α → Parser β} {s : State}
    {r : β × State} :
    (p >>= f) s = .ok r ↔ ∃ a s₁, p s = .ok (a, s₁) ∧ f a s₁ = .ok r := by
  simp only [bind, StateT.bind, Except.bind]
  cases p s with
  | error failure => simp
  | ok pair =>
    obtain ⟨a, s₁⟩ := pair
    simp

theorem bind_eq_error {α β : Type} {p : Parser α} {f : α → Parser β} {s : State}
    {failure : Failure} :
    (p >>= f) s = .error failure ↔
      p s = .error failure ∨ ∃ a s₁, p s = .ok (a, s₁) ∧ f a s₁ = .error failure := by
  simp only [bind, StateT.bind, Except.bind]
  cases p s with
  | error failure => simp
  | ok pair =>
    obtain ⟨a, s₁⟩ := pair
    simp

theorem pure_eq_ok {α : Type} {a b : α} {s s' : State} :
    (pure a : Parser α) s = .ok (b, s') ↔ a = b ∧ s = s' := by
  change Except.ok (a, s) = .ok (b, s') ↔ _
  simp

theorem next?_rest {s after : State} {token : Token} (h : s.next? = some (token, after)) :
    s.rest = token :: after.rest :=
  (State.rest_of_next? h).1

namespace State

theorem rest_eq_nil {s : State} (h : s.left = 0) : s.rest = [] :=
  List.length_eq_zero_iff.1 (s.left_eq ▸ h)

theorem left_pos_of_head? {s : State} {condition : Token → Bool}
    (h : s.rest.head?.any condition) :
    1 ≤ s.left := by
  by_contra none
  rw [rest_eq_nil (by omega)] at h
  cases h

theorem left_pos_of_seesAny {s : State} {texts : List String} (h : s.seesAny texts) :
    1 ≤ s.left := by
  obtain ⟨text, -, sees⟩ := List.any_eq_true.1 h
  exact left_pos_of_head? sees

end State

theorem ReadsOnto.mono {before : List Tree} {s : State} {p : Production}
    {form wider : Form} (h : ReadsOnto before s p form)
    (widen : ∀ trees, form.Matches trees → wider.Matches trees) :
    ReadsOnto before s p wider := by
  intro trees s' run
  obtain ⟨leaves, grammatical, matched⟩ := h trees s' run
  exact ⟨leaves, grammatical, widen trees matched⟩

/-! ### Tokens -/

theorem take_eq_ok {s s' : State} {expected : Expectation} {p : Token → Bool}
    {trees : List Tree} (run : take expected p s = .ok (trees, s')) :
    ∃ token, s.next? = some (token, s') ∧ p token ∧ trees = [.leaf token] := by
  unfold take at run
  split at run
  · cases run
  · rename_i token after seen
    split at run
    · rename_i admitted
      cases run
      exact ⟨token, seen, admitted, rfl⟩
    · cases run

theorem readsAt_take {s : State} {expected : Expectation} {p : Token → Bool}
    {tokens : TokenClass}
    (h : ∀ token, s.rest.head? = some token → p token → tokens.admits token) :
    ReadsAt s (take expected p) (.token tokens) := by
  intro trees s' run
  obtain ⟨token, next, admitted, rfl⟩ := take_eq_ok run
  have rest := next?_rest next
  refine ⟨by simp [rest], ?_, token, rfl, h token (by simp [rest]) admitted⟩
  intro tree member
  rw [List.mem_singleton.1 member]
  exact .leaf token

theorem reads_take {expected : Expectation} {p : Token → Bool} {tokens : TokenClass}
    (h : ∀ token, p token → tokens.admits token) :
    Reads (take expected p) (.token tokens) :=
  fun _ => readsAt_take fun token _ => h token

theorem reads_mark_oneOf {text : String} {marks : List String} (h : text ∈ marks) :
    Reads (mark text) (.token (.oneOf marks)) :=
  reads_take fun _ is => List.any_eq_true.2 ⟨text, h, is⟩

theorem reads_mark (text : String) : Reads (mark text) (.mark text) :=
  reads_mark_oneOf (by simp)

theorem reads_identifier : Reads identifier (.token .identifier) :=
  reads_take fun token is => by simpa [TokenClass.admits] using is

theorem reads_newTypeName : Reads newTypeName (.token .identifier) := by
  intro s trees s' run
  unfold newTypeName at run
  cases read : identifier s with
  | error failure => simp [read] at run
  | ok pair =>
    obtain ⟨names, after⟩ := pair
    rw [read] at run
    simp only [Except.ok.injEq, Prod.mk.injEq] at run
    obtain ⟨rfl, rfl⟩ := run
    obtain ⟨leaves, grammatical, matched⟩ := reads_identifier s names after read
    exact ⟨leaves, grammatical, matched⟩

/-! ### Sequences and choices -/

theorem readsOnto_pure {before : List Tree} {s : State} {form : Form}
    (grammatical : ∀ tree ∈ before, tree.Grammatical) (matched : form.Matches before) :
    ReadsOnto before s (pure before) form := by
  intro trees s' run
  obtain ⟨rfl, rfl⟩ := pure_eq_ok.1 run
  exact ⟨rfl, grammatical, matched⟩

theorem readsAt_empty (s : State) : ReadsAt s empty .empty :=
  readsOnto_pure (by simp) rfl

theorem readsOnto_bind {before : List Tree} {s : State} {p : Production}
    {f : List Tree → Production} {form after : Form} (first : ReadsOnto before s p form)
    (others : ∀ trees s', (∀ tree ∈ trees, tree.Grammatical) → form.Matches trees →
      ReadsOnto trees s' (f trees) after) :
    ReadsOnto before s (p >>= f) after := by
  intro trees s' run
  obtain ⟨read, s₁, readFirst, readOthers⟩ := bind_eq_ok.1 run
  obtain ⟨leaves, grammatical, matched⟩ := first read s₁ readFirst
  obtain ⟨leaves', grammatical', matched'⟩ :=
    others read s₁ grammatical matched trees s' readOthers
  exact ⟨leaves.trans leaves', grammatical', matched'⟩

/-- What is read after `before` stands behind it. -/
theorem readsOnto_append {before : List Tree} {s : State} {p : Production}
    {form after : Form} (grammatical : ∀ tree ∈ before, tree.Grammatical)
    (matched : form.Matches before) (others : ReadsAt s p after) :
    ReadsOnto before s (do return before ++ (← p)) (.seq form after) := by
  intro trees s' run
  obtain ⟨new, s₁, read, done⟩ := bind_eq_ok.1 run
  obtain ⟨rfl, rfl⟩ := pure_eq_ok.1 done
  obtain ⟨leaves, grammatical', matched'⟩ := others new s₁ read
  refine ⟨?_, ?_, before, new, rfl, matched, matched'⟩
  · simp only [Tree.leavesAll_nil, List.nil_append] at leaves
    rw [Tree.leavesAll_append, leaves, List.append_assoc]
  · intro tree member
    rcases List.mem_append.1 member with member | member
    · exact grammatical tree member
    · exact grammatical' tree member

theorem readsAt_seq_nil (s : State) : ReadsAt s (seq []) (.all []) :=
  readsOnto_pure (by simp) rfl

theorem readsAt_seq_cons {s : State} {p : Production} {ps : List Production}
    {form : Form} {forms : List Form} (first : ReadsAt s p form)
    (others : Reads (seq ps) (.all forms)) :
    ReadsAt s (seq (p :: ps)) (.all (form :: forms)) :=
  readsOnto_bind first fun _ s' grammatical matched =>
    readsOnto_append grammatical matched (others s')

theorem reads_seq {ps : List Production} {forms : List Form}
    (h : List.Forall₂ Reads ps forms) :
    Reads (seq ps) (.all forms) := by
  induction h with
  | nil => exact readsAt_seq_nil
  | cons first _ ih => exact fun s => readsAt_seq_cons (first s) ih

theorem seq_cons_eq_ok {s s' : State} {trees : List Tree} {p : Production}
    {ps : List Production} (run : seq (p :: ps) s = .ok (trees, s')) :
    ∃ first s₁ others, p s = .ok (first, s₁) ∧ seq ps s₁ = .ok (others, s') := by
  obtain ⟨first, s₁, readFirst, run⟩ := bind_eq_ok.1 run
  obtain ⟨others, s₂, readOthers, done⟩ := bind_eq_ok.1 run
  obtain ⟨-, rfl⟩ := pure_eq_ok.1 done
  exact ⟨first, s₁, others, readFirst, readOthers⟩

theorem readsAt_fail (s : State) (expected : Expectation) (form : Form) :
    ReadsAt s (fail expected) form := by
  intro trees s' run
  simp [fail] at run

theorem readsOnto_look {before : List Tree} {s : State} {choose : State → Production}
    {form : Form}
    (h : ReadsOnto before s (choose s) form) : ReadsOnto before s (look choose) form :=
  h

theorem readsAt_look {s : State} {choose : State → Production} {form : Form}
    (h : ReadsAt s (choose s) form) : ReadsAt s (look choose) form :=
  h

theorem readsAt_optional {s : State} {condition : State → Bool} {p : Production}
    {form : Form} (h : condition s → ReadsAt s p form) :
    ReadsAt s (optional condition p) (.optional form) := by
  apply readsAt_look
  by_cases holds : condition s
  · rw [if_pos holds]
    exact (h holds).mono fun _ => Or.inl
  · rw [if_neg holds]
    exact (readsAt_empty s).mono fun _ => Or.inr

theorem reads_optional {condition : State → Bool} {p : Production} {form : Form}
    (h : Reads p form) : Reads (optional condition p) (.optional form) :=
  fun s => readsAt_optional fun _ => h s

/-! ### Repetitions -/

theorem readsAt_rounds {condition : State → Bool} {p : Production} {form : Form}
    (h : ∀ s, condition s → ReadsAt s p form) (n : Nat) (s : State) :
    ReadsAt s (rounds condition p n) (.many form) := by
  induction n generalizing s with
  | zero => exact readsOnto_pure (by simp) ⟨[], rfl, by simp⟩
  | succ n ih =>
    apply readsAt_look
    by_cases holds : condition s
    · rw [if_pos holds]
      refine readsOnto_bind (h s holds) fun before s' grammatical matched => ?_
      refine (readsOnto_append grammatical matched (ih s')).mono ?_
      rintro _ ⟨first, others, rfl, firstMatched, parts, rfl, matched⟩
      exact ⟨first :: parts, rfl, by simpa using ⟨firstMatched, matched⟩⟩
    · rw [if_neg holds]
      exact (readsAt_empty s).mono fun _ none => ⟨[], none, by simp⟩

theorem readsAt_many {s : State} {condition : State → Bool} {p : Production}
    {form : Form} (h : ∀ s, condition s → ReadsAt s p form) :
    ReadsAt s (many condition p) (.many form) :=
  readsAt_rounds h s.left s

theorem reads_many {condition : State → Bool} {p : Production} {form : Form}
    (h : Reads p form) : Reads (many condition p) (.many form) :=
  fun _ => readsAt_many fun s _ => h s

theorem reads_commaList {item : Production} {form : Form} (h : Reads item form) :
    Reads (commaList item) (.commaList form) :=
  reads_seq (.cons h (.cons (reads_many (reads_seq (.cons (reads_mark ",") (.cons h .nil)))) .nil))

theorem reads_parenList {item : Production} {form : Form} (h : Reads item form) :
    Reads (parenList item) (.parenList form) := by
  refine reads_seq (.cons (reads_mark "(") (.cons (fun s => ?_) (.cons (reads_mark ")") .nil)))
  apply readsAt_look
  split
  · exact (reads_mark "void" s).mono fun _ => Or.inl
  · split
    · exact (readsAt_empty s).mono fun _ => Or.inr ∘ Or.inl
    · exact (reads_commaList h s).mono fun _ => Or.inr ∘ Or.inr ∘ Or.inl

/-! ### Nodes -/

theorem Form.matches_all_singleton {form : Form} {trees : List Tree} :
    (Form.all [form]).Matches trees ↔ form.Matches trees := by
  simp [Form.all, Form.Matches]

theorem wrap_eq_ok {s s' : State} {trees : List Tree} {kind : NodeKind}
    {before : List Tree} {p : Production}
    (run : wrap kind before p s = .ok (trees, s')) :
    ∃ new, p s = .ok (new, s') := by
  obtain ⟨new, s₁, read, done⟩ := bind_eq_ok.1 run
  obtain ⟨-, rfl⟩ := pure_eq_ok.1 done
  exact ⟨new, read⟩

/-- A node over `before` and what is read after it. -/
theorem readsOnto_wrap {before : List Tree} {s : State} {kind : NodeKind} {p : Production}
    {form target : Form} (grammatical : ∀ tree ∈ before, tree.Grammatical)
    (h : ReadsAt s p form)
    (matched : ∀ new, form.Matches new → kind.form.Matches (before ++ new))
    (hits : ∀ new, form.Matches new → target.Matches [.node kind (before ++ new)]) :
    ReadsOnto before s (wrap kind before p) target := by
  intro trees s' run
  obtain ⟨new, s₁, read, done⟩ := bind_eq_ok.1 run
  obtain ⟨rfl, rfl⟩ := pure_eq_ok.1 done
  obtain ⟨leaves, grammatical', matched'⟩ := h new s₁ read
  refine ⟨?_, ?_, hits new matched'⟩
  · simp only [Tree.leavesAll_nil, List.nil_append] at leaves
    simp [Tree.leavesAll_append, leaves]
  · intro tree member
    rw [List.mem_singleton.1 member]
    refine .node (matched new matched') fun child below => ?_
    rcases List.mem_append.1 below with below | below
    · exact grammatical child below
    · exact grammatical' child below

theorem readsOnto_wrap_node {before : List Tree} {s : State} {kind : NodeKind}
    {kinds : List NodeKind} {p : Production} {form : Form}
    (grammatical : ∀ tree ∈ before, tree.Grammatical) (h : ReadsAt s p form)
    (matched : ∀ new, form.Matches new → kind.form.Matches (before ++ new))
    (listed : kind ∈ kinds) :
    ReadsOnto before s (wrap kind before p) (.node kinds) :=
  readsOnto_wrap grammatical h matched fun new _ => ⟨kind, before ++ new, rfl, listed⟩

theorem readsAt_node {s : State} {kind : NodeKind} {kinds : List NodeKind}
    {p : Production} (h : ReadsAt s p kind.form) (listed : kind ∈ kinds) :
    ReadsAt s (node kind p) (.node kinds) :=
  readsOnto_wrap_node (by simp) h (fun _ matched => matched) listed

theorem reads_node {kind : NodeKind} {kinds : List NodeKind} {p : Production}
    (h : Reads p kind.form) (listed : kind ∈ kinds) : Reads (node kind p) (.node kinds) :=
  fun s => readsAt_node (h s) listed

/-- Nodes put around what has been read keep the form, if one of them does. -/
theorem readsOnto_extensions {next : State → Option (NodeKind × Production)} {form : Form}
    (step : ∀ before s kind p, (∀ tree ∈ before, tree.Grammatical) → form.Matches before →
      next s = some (kind, p) → ReadsOnto before s (wrap kind before p) form)
    (n : Nat) (before : List Tree) (s : State)
    (grammatical : ∀ tree ∈ before, tree.Grammatical) (matched : form.Matches before) :
    ReadsOnto before s (extensions next n before) form := by
  induction n generalizing before s with
  | zero => exact readsOnto_pure grammatical matched
  | succ n ih =>
    intro trees s' run
    simp only [extensions, look] at run
    cases seen : next s with
    | none =>
      rw [seen] at run
      exact readsOnto_pure grammatical matched trees s' run
    | some pair =>
      obtain ⟨kind, p⟩ := pair
      rw [seen] at run
      obtain ⟨wider, s₁, read, others⟩ := bind_eq_ok.1 run
      obtain ⟨leaves, grammatical', matched'⟩ :=
        step before s kind p grammatical matched seen wider s₁ read
      obtain ⟨leaves', grammatical'', matched''⟩ :=
        ih wider s₁ grammatical' matched' trees s' others
      exact ⟨leaves.trans leaves', grammatical'', matched''⟩

theorem reads_extend {p : Production} {next : State → Option (NodeKind × Production)}
    {form : Form} (first : Reads p form)
    (step : ∀ before s kind p, (∀ tree ∈ before, tree.Grammatical) → form.Matches before →
      next s = some (kind, p) → ReadsOnto before s (wrap kind before p) form) :
    Reads (extend p next) form :=
  fun s => readsOnto_bind (first s) fun before s' grammatical matched =>
    readsOnto_extensions step s'.left before s' grammatical matched

end Grammar

end ShaderDialect
