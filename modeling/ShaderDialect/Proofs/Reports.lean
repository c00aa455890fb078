import ShaderDialect.Plan.Walk
import ShaderDialect.Proofs.Redeclaration

/-!
# Where findings come up

`Reports tokens before after` says that `after` is `before` with more findings
behind, all of them at the given tokens. Every query and every step of the walk
reports at the tokens of the tree it looks at, so a walk only adds to the
findings that it starts with.
-/

namespace ShaderDialect

/-- Whether a problem can come up at a token. A member is looked up by the text
of its token. -/
def Problem.ArisesAt (problem : Problem) (token : Token) : Prop :=
  ∀ cause, problem = .member cause → ∃ owner : Ty, owner.member token.text = .error cause

def Finding.ArisesIn (finding : Finding) (tokens : List Token) : Prop :=
  ∃ token ∈ tokens, token.index = finding.token ∧ finding.problem.ArisesAt token

theorem Finding.ArisesIn.mono {finding : Finding} {tokens tokens' : List Token}
    (h : finding.ArisesIn tokens) (inside : tokens ⊆ tokens') :
    finding.ArisesIn tokens' := by
  obtain ⟨token, member, arises⟩ := h
  exact ⟨token, inside member, arises⟩

/-- The later findings are the earlier ones, and more behind them. -/
def Reports (tokens : List Token) (before after : Findings) : Prop :=
  ∃ more, after.toList = before.toList ++ more ∧ ∀ finding ∈ more, finding.ArisesIn tokens

namespace Reports

variable {tokens tokens' : List Token} {before middle after : Findings}

theorem refl (findings : Findings) : Reports tokens findings findings :=
  ⟨[], by simp, by simp⟩

theorem trans (h : Reports tokens before middle) (h' : Reports tokens middle after) :
    Reports tokens before after := by
  obtain ⟨more, same, arise⟩ := h
  obtain ⟨more', same', arise'⟩ := h'
  exact ⟨more ++ more', by rw [same', same, List.append_assoc],
    List.forall_mem_append.2 ⟨arise, arise'⟩⟩

theorem mono (h : Reports tokens before after) (inside : tokens ⊆ tokens') :
    Reports tokens' before after := by
  obtain ⟨more, same, arise⟩ := h
  exact ⟨more, same, fun finding member => (arise finding member).mono inside⟩

theorem report {finding : Finding} (arises : finding.ArisesIn tokens)
    (findings : Findings) :
    Reports tokens findings (findings.report finding) :=
  ⟨[finding], Findings.toList_report _ _, by simpa using arises⟩

end Reports

namespace Tree

theorem childTokens_subset (tree : Tree) : tree.childTokens ⊆ tree.leaves := by
  intro token listed
  obtain ⟨child, member, isLeaf⟩ := List.mem_filterMap.1 listed
  cases tree with
  | leaf token => cases member
  | node kind children =>
    cases child with
    | leaf token' =>
      cases isLeaf
      exact leaves_subset member List.mem_cons_self
    | node => cases isLeaf

theorem mem_leaves_of_identifier? (tree : Tree) {token : Token}
    (h : tree.identifier? = some token) : token ∈ tree.leaves :=
  tree.childTokens_subset (List.mem_of_find?_eq_some h)

theorem mem_leaves_of_firstToken? {tree : Tree} {token : Token}
    (h : tree.firstToken? = some token) :
    token ∈ tree.leaves := by
  rw [firstToken?_eq] at h
  exact List.mem_of_mem_head? h

theorem leaves_subset_of_findChild? {tree child : Tree} {kind : NodeKind}
    (h : tree.findChild? kind = some child) : child.leaves ⊆ tree.leaves := by
  cases tree with
  | leaf token => cases h
  | node _ children => exact leaves_subset (List.mem_of_find?_eq_some h)

end Tree

/-- A problem that is no missing member can come up anywhere. -/
theorem Finding.arisesIn {tokens : List Token} {token : Token} (member : token ∈ tokens)
    {problem : Problem} (other : ∀ cause, problem ≠ .member cause) :
    Finding.ArisesIn ⟨token.index, problem⟩ tokens :=
  ⟨token, member, rfl, fun cause same => absurd same (other cause)⟩

/-! ### Queries -/

namespace Inference

theorem member_arisesIn {tokens : List Token} {field : Token} (listed : field ∈ tokens)
    {owner : Ty} {cause : Error} (missing : owner.member field.text = .error cause) :
    Finding.ArisesIn ⟨field.index, .member cause⟩ tokens := by
  refine ⟨field, listed, rfl, fun cause' same => ⟨owner, ?_⟩⟩
  cases same
  exact missing

mutual

theorem typeOf_arisesIn (scope : Scope) : ∀ (tree : Tree) {finding : Finding},
    typeOf scope tree = .error finding → finding.ArisesIn tree.leaves
  | .leaf _, _, h => by cases h
  | .node kind children, finding, h => by
    have below : ∀ (n : Nat) {finding : Finding},
      typeOfNth scope n children = .error finding →
        finding.ArisesIn (Tree.leavesAll children) :=
          fun n _ => typeOfNth_arisesIn scope n children
    unfold typeOf at h
    cases kind
    case fieldSelection =>
      simp only at h
      split at h
      · cases h
      · rename_i field found
        split at h
        · rename_i failed
          cases h
          exact below 0 failed
        · cases h
        · split at h
          · cases h
          · rename_i missing
            cases h
            exact member_arisesIn (Tree.mem_leaves_of_identifier? _ found) missing
    case indexExpression =>
      simp only at h
      split at h
      · cases h
      · cases inner : typeOfNth scope 0 children with
        | error cause =>
          rw [inner] at h
          cases h
          exact below 0 inner
        | ok ty =>
          rw [inner] at h
          cases h
    case conditionalExpression => exact below 1 h
    case parenExpression => exact below 0 h
    case assignmentExpression => exact below 0 h
    case unaryExpression => exact below 0 h
    case postfixExpression => exact below 0 h
    case expression => exact below _ h
    all_goals cases h

theorem typeOfNth_arisesIn (scope : Scope) :
    ∀ (n : Nat) (trees : List Tree) {finding : Finding},
    typeOfNth scope n trees = .error finding → finding.ArisesIn (Tree.leavesAll trees)
  | _, [], _, h => by
    unfold typeOfNth at h
    cases h
  | n, tree :: trees, finding, h => by
    rw [Tree.leavesAll_cons]
    unfold typeOfNth at h
    split at h
    · split at h
      · exact (typeOf_arisesIn scope tree h).mono (List.subset_append_left _ _)
      · exact (typeOfNth_arisesIn scope _ trees h).mono (List.subset_append_right _ _)
    · exact (typeOfNth_arisesIn scope n trees h).mono (List.subset_append_right _ _)

end

theorem reports_primaryDemand (scope : Scope) (primary : Tree) (query : Query) :
    Reports primary.leaves query.findings (primaryDemand scope primary query).2.findings := by
  unfold primaryDemand
  split
  · exact .refl _
  · rename_i token first
    have listed := primary.childTokens_subset (List.mem_of_mem_head? first)
    split
    · exact .refl _
    · exact .refl _
    · split
      · exact .refl _
      · split
        · exact .report (Finding.arisesIn listed (by simp)) _
        · exact .refl _
    · exact .refl _

theorem reports_memberDemand {tokens : List Token} {field : Option Token}
    (listed : ∀ token, field = some token → token ∈ tokens)
    {owner : Except Finding (Option Ty)}
    (known : ∀ finding, owner = .error finding → finding.ArisesIn tokens)
    (fromOwner : Bool) (query : Query) :
    Reports tokens query.findings (memberDemand field owner fromOwner query).2.findings := by
  unfold memberDemand
  split
  · exact .refl _
  · rename_i field
    split
    · exact .report (known _ rfl) _
    · exact .refl _
    · split
      · exact .refl _
      · rename_i missing
        exact .report (member_arisesIn (listed field rfl) missing) _

mutual

theorem reports_demand (scope : Scope) : ∀ (tree : Tree) (query : Query),
    Reports tree.leaves query.findings (demand scope tree query).2.findings
  | .leaf _, query => .refl _
  | .node kind children, query => by
    have all := reports_demandAll scope children query
    unfold demand
    cases kind
    case primaryExpression => exact reports_primaryDemand scope _ query
    case fieldSelection =>
      refine (reports_demandFirst scope children query).trans ?_
      exact reports_memberDemand
        (fun _ => Tree.mem_leaves_of_identifier? (.node .fieldSelection children))
        (fun _ failed => typeOfNth_arisesIn scope 0 children failed) _ _
    case functionCall => exact reports_demandArguments scope children query
    all_goals exact all

theorem reports_demandFirst (scope : Scope) : ∀ (trees : List Tree) (query : Query),
    Reports (Tree.leavesAll trees) query.findings (demandFirst scope trees query).2.findings
  | [], query => .refl _
  | tree :: trees, query => by
    rw [Tree.leavesAll_cons]
    unfold demandFirst
    split
    · exact (reports_demand scope tree query).mono (List.subset_append_left _ _)
    · exact (reports_demandFirst scope trees query).mono (List.subset_append_right _ _)

theorem reports_demandArguments (scope : Scope) : ∀ (trees : List Tree) (query : Query),
    Reports (Tree.leavesAll trees) query.findings (demandArguments scope trees query).2.findings
  | [], query => .refl _
  | tree :: trees, query => by
    rw [Tree.leavesAll_cons]
    unfold demandArguments
    split
    · exact ((reports_demand scope tree query).mono (List.subset_append_left _ _)).trans
        ((reports_demandArguments scope trees _).mono (List.subset_append_right _ _))
    · exact (reports_demandArguments scope trees query).mono (List.subset_append_right _ _)

theorem reports_demandAll (scope : Scope) : ∀ (trees : List Tree) (query : Query),
    Reports (Tree.leavesAll trees) query.findings (demandAll scope trees query).2.findings
  | [], query => .refl _
  | tree :: trees, query => by
    rw [Tree.leavesAll_cons]
    exact ((reports_demand scope tree query).mono (List.subset_append_left _ _)).trans
      ((reports_demandAll scope trees _).mono (List.subset_append_right _ _))

end

end Inference

/-! ### Declarations -/

theorem reports_namedType (scope : Scope) (specifier : Tree) (findings : Findings) :
    Reports specifier.leaves findings (namedType scope specifier findings).2 := by
  unfold namedType
  split
  · exact .refl _
  · split
    · rename_i first
      exact .report (Finding.arisesIn (Tree.mem_leaves_of_firstToken? first) (by simp)) _
    · exact .refl _

mutual

theorem reports_specifiedType (scope : Scope) : ∀ (tree : Tree) (findings : Findings),
    Reports tree.leaves findings (specifiedType scope tree findings).2
  | .leaf _, findings => .refl _
  | .node kind children, findings => by
    have inner := reports_structAmong scope children findings
    unfold specifiedType
    split <;> rename_i shape <;> rw [shape] at inner
    · exact inner
    · exact inner.trans (reports_namedType scope (.node kind children) _)

theorem reports_structAmong (scope : Scope) : ∀ (trees : List Tree) (findings : Findings),
    Reports (Tree.leavesAll trees) findings (structAmong scope trees findings).2
  | [], findings => .refl _
  | tree :: trees, findings => by
    rw [Tree.leavesAll_cons]
    unfold structAmong
    split
    · exact (reports_structType scope tree findings).mono (List.subset_append_left _ _)
    · exact (reports_structAmong scope trees findings).mono (List.subset_append_right _ _)

theorem reports_structType (scope : Scope) : ∀ (tree : Tree) (findings : Findings),
    Reports tree.leaves findings (structType scope tree findings).2
  | .leaf _, _ => .refl _
  | .node _ children, findings => reports_membersOf scope children findings

theorem reports_membersOf (scope : Scope) : ∀ (trees : List Tree) (findings : Findings),
    Reports (Tree.leavesAll trees) findings (membersOf scope trees findings).2
  | [], findings => .refl _
  | tree :: trees, findings => by
    rw [Tree.leavesAll_cons]
    have later := fun findings =>
      (reports_membersOf scope trees findings).mono (List.subset_append_right tree.leaves _)
    by_cases isMember : tree.hasKind .structMember = true
    · have first := (reports_memberOf scope tree findings).mono
        (List.subset_append_left _ (Tree.leavesAll trees))
      simpa only [membersOf, if_pos isMember] using first.trans (later _)
    · simpa only [membersOf, if_neg isMember] using later findings

theorem reports_memberOf (scope : Scope) : ∀ (tree : Tree) (findings : Findings),
    Reports tree.leaves findings (memberOf scope tree findings).2
  | .leaf _, _ => .refl _
  | .node _ children, findings => reports_specifierAmong scope children findings

theorem reports_specifierAmong (scope : Scope) :
    ∀ (trees : List Tree) (findings : Findings),
    Reports (Tree.leavesAll trees) findings (specifierAmong scope trees findings).2
  | [], findings => .refl _
  | tree :: trees, findings => by
    rw [Tree.leavesAll_cons]
    unfold specifierAmong
    split
    · exact (reports_specifiedType scope tree findings).mono (List.subset_append_left _ _)
    · exact (reports_specifierAmong scope trees findings).mono (List.subset_append_right _ _)

end

theorem Parameter.mem_leaves_of_ofTree? {tree : Tree} {param : Parameter}
    (read : ofTree? tree = some param) :
    ∃ token ∈ tree.leaves, token.index = param.typeToken := by
  simp only [ofTree?, Option.bind_eq_bind, Option.bind_eq_some_iff] at read
  obtain ⟨specifier, found, first, starts, same⟩ := read
  cases same
  exact ⟨first, Tree.leaves_subset_of_findChild? found (Tree.mem_leaves_of_firstToken? starts), rfl⟩

theorem exists_mem_of_mapM {α β : Type} {f : α → Option β} {items : List α}
    {values : List β} (h : items.mapM f = some values) {value : β}
    (listed : value ∈ values) :
    ∃ item ∈ items, f item = some value := by
  induction items generalizing values with
  | nil =>
    cases h
    cases listed
  | cons item items ih =>
    simp only [List.mapM_cons, Option.bind_eq_bind, Option.bind_eq_some_iff] at h
    obtain ⟨first, own, others, rest, same⟩ := h
    cases same
    rcases List.mem_cons.1 listed with rfl | later
    · exact ⟨item, List.mem_cons_self, own⟩
    · obtain ⟨found, member, read⟩ := ih rest later
      exact ⟨found, List.mem_cons_of_mem _ member, read⟩

/-- The types of the parameters of a prototype start at its tokens. -/
theorem Prototype.mem_leaves_of_ofTree? {tree : Tree} {prototype : Prototype}
    (read : ofTree? tree = some prototype) {param : Parameter}
    (listed : param ∈ prototype.params) :
    ∃ token ∈ tree.leaves, token.index = param.typeToken := by
  simp only [ofTree?, Option.bind_eq_bind, Option.bind_eq_some_iff] at read
  obtain ⟨name, -, type, -, specifier, -, params, all, same⟩ := read
  cases same
  obtain ⟨child, member, own⟩ := exists_mem_of_mapM all listed
  obtain ⟨token, inside, starts⟩ := Parameter.mem_leaves_of_ofTree? own
  refine ⟨token, ?_, starts⟩
  cases tree with
  | leaf token => cases member
  | node kind children => exact Tree.leaves_subset (List.mem_of_mem_filter member) inside

theorem reports_declareParameters {tokens : List Token} {params : List Parameter}
    (listed : ∀ param ∈ params, ∃ token ∈ tokens, token.index = param.typeToken)
    (scope : Scope) (findings : Findings) :
    Reports tokens findings (declareParameters scope findings params).2 := by
  induction params generalizing scope findings with
  | nil => exact .refl _
  | cons param params ih =>
    rw [declareParameters]
    refine .trans ?_ (ih (fun param member => listed param (List.mem_cons_of_mem _ member)) _ _)
    split
    · exact .refl _
    · obtain ⟨token, member, starts⟩ := listed param List.mem_cons_self
      rw [← starts]
      exact .report (Finding.arisesIn member (by simp)) _

theorem reports_declareBlock (scope : Scope) (block : Tree) (findings : Findings) :
    Reports block.leaves findings (declareBlock scope block findings).2 := by
  have members : Reports block.leaves findings (membersOf scope block.children findings).2 := by
    cases block with
    | leaf token => exact .refl _
    | node kind children => exact reports_membersOf scope children findings
  unfold declareBlock
  split
  · split
    · dsimp only
      split
      · exact members
      · exact members
    · exact .refl _
  · exact .refl _

/-! ### The walk -/

namespace Plan

theorem reports_storesFloat (state : State) (tree : Tree) :
    Reports tree.leaves state.findings (storesFloat state tree).2.findings := by
  unfold storesFloat
  split
  · split
    · rename_i failed
      cases tree with
      | leaf token => simp [Tree.children, Inference.typeOfNth] at failed
      | node kind children =>
        exact .report (Inference.typeOfNth_arisesIn _ 0 children failed) _
    · exact .refl _
  · exact .refl _

theorem reports_setsFloat (state : State) (tree : Tree) (expectsFloat : Bool) :
    Reports tree.leaves state.findings (setsFloat state tree expectsFloat).2.findings := by
  have stores := reports_storesFloat state tree
  unfold setsFloat
  split
  · exact .refl _
  · split
    · rename_i found
      rwa [found] at stores
    · rename_i found
      rw [found] at stores
      exact stores.trans (Inference.reports_demand _ tree ⟨none, _⟩)

theorem reports_enterDefinition (state : State) (tree : Tree) (context : Bool) :
    Reports tree.leaves state.findings (enterDefinition state tree context).2.findings := by
  unfold enterDefinition
  split
  · exact .refl _
  · rename_i prototype read
    obtain ⟨child, found, read⟩ := Option.bind_eq_some_iff.1 read
    split
    · exact .refl _
    · refine reports_declareParameters (fun param member => ?_) _ _
      obtain ⟨token, inside, starts⟩ := Prototype.mem_leaves_of_ofTree? read member
      exact ⟨token, Tree.leaves_subset_of_findChild? found inside, starts⟩

/-- A declaration is entered without a report. -/
theorem reports_enterDeclaration {tokens : List Token} (state : State) (tree : Tree)
    (context : Bool) :
    Reports tokens state.findings (enterDeclaration state tree context).2.findings := by
  unfold enterDeclaration
  split
  · exact .refl _
  · split
    · exact .refl _
    · split
      · exact .refl _
      · exact .refl _

theorem reports_enter (state : State) (role : Role) (kind : NodeKind) (tree : Tree) :
    Reports tree.leaves state.findings (enter state role kind tree).2.findings := by
  cases role with
  | part context =>
    cases kind
    case assignmentExpression => exact reports_setsFloat state tree false
    case functionDefinition => exact reports_enterDefinition state tree context
    case declaration => exact reports_enterDeclaration state tree context
    all_goals exact .refl _
  | argument expectsFloat => exact reports_setsFloat state tree expectsFloat
  | declarator type typeIsArray => exact .refl _
  | body => exact .refl _

theorem reports_leave (state : State) (role : Role) (kind : NodeKind) (tree : Tree) :
    Reports tree.leaves state.findings (leave state role kind tree).findings := by
  cases role with
  | part context =>
    cases kind
    case structSpecifier => exact reports_structType state.scope tree state.findings
    case interfaceBlock => exact reports_declareBlock state.scope tree state.findings
    all_goals exact .refl _
  | argument expectsFloat => exact .refl _
  | declarator type typeIsArray => exact .refl _
  | body => exact .refl _

theorem reports_after (siblings : Siblings) (child : Tree) (state : State) :
    Reports child.leaves state.findings (siblings.after child state).2.findings := by
  cases siblings with
  | declarators type typeIsArray =>
    unfold Siblings.after
    dsimp only
    split
    · split
      · exact .refl _
      · rename_i found
        exact (reports_specifiedType _ _ _).mono (Tree.leaves_subset_of_findChild? found)
    · exact .refl _
  | _ => exact .refl _

theorem findings_promote (state : State) (token : Token) :
    (promote state token).findings = state.findings := by
  unfold promote
  split
  · rfl
  · rfl

mutual

/-- A walk over a tree reports at its tokens. -/
theorem reports_visit (role : Role) : ∀ (tree : Tree) (state : State),
    Reports tree.leaves state.findings (visit role tree state).findings
  | .leaf token, state => by
    unfold visit
    split
    · rw [findings_promote]
      exact .refl _
    · exact .refl _
  | .node kind children, state => by
    have entering := reports_enter state role kind (.node kind children)
    unfold visit
    split
    · rename_i entered
      rwa [entered] at entering
    · rename_i siblings state' entered
      rw [entered] at entering
      exact (entering.trans (reports_visitAll siblings children state')).trans
        (reports_leave _ role kind (.node kind children))

theorem reports_visitAll (siblings : Siblings) : ∀ (trees : List Tree) (state : State),
    Reports (Tree.leavesAll trees) state.findings (visitAll siblings trees state).findings
  | [], state => .refl _
  | tree :: trees, state => by
    rw [Tree.leavesAll_cons, visitAll]
    have first := (reports_visit (siblings.role tree) tree state).trans
      (reports_after siblings tree _)
    exact (first.mono (List.subset_append_left _ _)).trans
      ((reports_visitAll _ trees _).mono (List.subset_append_right _ _))

end

/-- What a plan finds is found at the tokens of its tree. -/
theorem findings_ofTree (catalog : Catalog) (root : Tree) :
    ∀ finding ∈ (ofTree catalog root).findings.toList, finding.ArisesIn root.leaves := by
  obtain ⟨more, same, arise⟩ := reports_visit (.part false) root (start catalog)
  have all : (ofTree catalog root).findings.toList = more := same
  exact all ▸ arise

end Plan

end ShaderDialect
