/-
# Adjudication

`crates/polis-memory/src/adjudicate.rs`: the screen that keeps a classifier's
proposals to what it was shown, and the rules that decide without a person
whether a queued proposal applies, is refused or goes to a verifier. The
catalog, the stats and the protected nodes are a snapshot (`Facts`); the links
of a split and the events of a supersession are read where the rule is asked.

Unicode's letters and lower case are those of the host's tables (`Unicode`),
and whether two classes are alike is the oracle's answer.

Key definitions: `Unicode.titlesAgree`, `rootOf`, `isDescendant`, `Facts.load`,
`adjudicateStructural`, `expired`, `screen`.
-/
import PolisMemory.Catalog
import PolisMemory.Coldness

namespace PolisMemory

open Tables

/-! ### Titles -/

/-- `char::is_alphanumeric` and `str::to_lowercase`. -/
structure Unicode where
  isAlphanumeric : Char → Bool
  toLowercase : String → String

/-- The words of a title, lowercased, each once. -/
def Unicode.words (u : Unicode) (title : String) : List String :=
  (((title.toList.splitOnP fun c => !u.isAlphanumeric c).filter (· ≠ [])).map fun w =>
    u.toLowercase (String.ofList w)).dedup

/-- `jaccard(a, b) >= TITLE_JACCARD_DUP`. The quotient of two small integers
rounds to at least the double next to 0.8 just where it is at least 4/5. -/
def Unicode.titlesAgree (u : Unicode) (a b : String) : Bool :=
  let shared := ((u.words a).filter (· ∈ u.words b)).length
  let union := (u.words a).length + (u.words b).length - shared
  4 * union ≤ 5 * shared

/-! ### The catalog as a snapshot -/

/-- `Catalog::get`. -/
def getNode (nodes : List NodeRow) (id : String) : Option NodeRow := nodes.find? fun n => n.id = id

/-- The root above a node, followed over at most so many edges. -/
def rootOf (nodes : List NodeRow) : ℕ → String → Option String
  | edges, id =>
    match (getNode nodes id).map NodeRow.parentId, edges with
    | none, _ => none
    | some none, _ => some id
    | some (some _), 0 => none
    | some (some p), edges + 1 => rootOf nodes edges p

/-- How many edges the walks to a root follow. -/
def rootGuard : ℕ := 64

/-- `depth_of`: the edges above a node, counted to 65. -/
def depthOf (nodes : List NodeRow) : ℕ → String → ℕ
  | 0, _ => 0
  | fuel + 1, id =>
    match (getNode nodes id).bind NodeRow.parentId with
    | none => 0
    | some p => depthOf nodes fuel p + 1

/-- `subtree_height`: the edges to the deepest leaf under a node, over 65
levels. -/
def subtreeHeight (nodes : List NodeRow) : ℕ → String → ℕ
  | 0, _ => 0
  | fuel + 1, id =>
    match (kidsOf nodes id).map fun n => subtreeHeight nodes fuel n.id with
    | [] => 0
    | h :: hs => hs.foldl max h + 1

/-- `is_descendant`, over 65 edges. -/
def isDescendant (nodes : List NodeRow) (ancestor : String) : ℕ → String → Bool
  | 0, _ => false
  | fuel + 1, id =>
    match (getNode nodes id).bind NodeRow.parentId with
    | none => false
    | some p => p = ancestor || isDescendant nodes ancestor fuel p

/-- The deepest a promote may leave a node. -/
def maxDepth : ℕ := 4

/-- A split's smallest part, and a merge's smallest partner for the oracle. -/
def minPartLinks : ℕ := 3

/-- The fewest items a branch needs before it is collapsed. -/
def collapseMinItems : ℤ := 5

/-- What a structural verdict needs beside the store. -/
structure Facts where
  catalog : List NodeRow
  stats : String → Option BranchStat
  env : LakeEnvelope
  isProtected : String → Bool

/-- The facts as the queue loads them. -/
def Facts.load (s : Store) : Facts where
  catalog := s.listClassNodes
  stats := subtreeStats s.listClassNodes s.nodeDirectLinkActivity (s.directProtected s.lakeEnvelope)
  env := s.lakeEnvelope
  isProtected := s.directProtected s.lakeEnvelope

/-! ### The rules -/

inductive Verdict
  | apply
  | verify
  | refuse (reason : String)
  deriving DecidableEq, Repr

/-- `promote`: both exist, no cycle, not too deep. -/
def adjudicatePromote (f : Facts) (p : ProposalRow) : Verdict :=
  match p.nodeId with
  | none => .refuse "no node"
  | some node =>
    if (getNode f.catalog node).isNone then .refuse s!"node {node} does not exist"
    else
      match p.parentId with
      | none => .apply
      | some parent =>
        if parent = node then .refuse "cycle: a node cannot parent itself"
        else if (getNode f.catalog parent).isNone then .refuse s!"new parent {parent} does not exist"
        else if isDescendant f.catalog node 65 parent then
          .refuse "cycle: the new parent is inside the node's own subtree"
        else
          let newDepth := depthOf f.catalog 65 parent + 1 + subtreeHeight f.catalog 65 node
          if maxDepth < newDepth then .refuse s!"depth {newDepth} exceeds {maxDepth}" else .apply

/-- What speaks against a split's parts, the first of it. -/
def badPart? (node : String) (own : List ℤ) : List SplitPart → Option String
  | [] => none
  | part :: parts =>
    if part.linkIds.length < minPartLinks then
      some (s!"part \"{part.title}\" has {part.linkIds.length} link(s); " ++
        s!"each part needs {minPartLinks}")
    else
      match part.linkIds.find? fun l => l ∉ own with
      | some bad => some s!"link {bad} does not belong to {node}"
      | none => badPart? node own parts

/-- `split`: two parts or more, each large enough and of the node's links. -/
def adjudicateSplit (s : Store) (p : ProposalRow) : Verdict :=
  match p.nodeId with
  | none => .refuse "no node"
  | some node =>
    if (Extra.asParts p.extra).length < 2 then .refuse "a split needs at least two parts"
    else
      match badPart? node (s.liveLinks node) (Extra.asParts p.extra) with
      | some reason => .refuse reason
      | none => .apply

/-- The roots of some nodes, or the first node that has none. -/
def rootsOf (nodes : List NodeRow) : List String → Except String (List String)
  | [] => .ok []
  | id :: ids =>
    match rootOf nodes rootGuard id with
    | none => .error id
    | some root => (rootsOf nodes ids).map (root :: ·)

/-- How many links a branch has, 0 for one that has no stat. -/
def Facts.items (f : Facts) (id : String) : ℤ := ((f.stats id).map BranchStat.itemCount).getD 0

/-- `merge`: one root; at once where the titles agree, or the parents are the
same and the oracle finds two large enough classes alike. -/
def adjudicateMerge (u : Unicode) (alike : String → String → Bool) (f : Facts) (p : ProposalRow) :
    Verdict :=
  match Extra.asIds p.extra with
  | a :: b :: rest =>
    match rootsOf f.catalog (a :: b :: rest) with
    | .error id => .refuse s!"node {id} does not exist"
    | .ok roots =>
      if roots.any fun r => roots.any fun r' => r ≠ r' then .refuse "cross-root merge"
      else
        match getNode f.catalog a, getNode f.catalog b with
        | some na, some nb =>
          if u.titlesAgree na.title nb.title then .apply
          else if na.parentId = nb.parentId ∧ minPartLinks ≤ f.items a ∧ minPartLinks ≤ f.items b ∧
              alike a b then .apply
          else .verify
        -- both have a root, so both are in the catalog
        | _, _ => .verify
  | _ => .refuse "a merge needs at least two nodes"

/-- `collapse`: large enough, cold, and protected nowhere in the branch. -/
def adjudicateCollapse (f : Facts) (p : ProposalRow) : Verdict :=
  match p.nodeId with
  | none => .refuse "no node"
  | some node =>
    match f.stats node with
    | none => .refuse s!"node {node} does not exist"
    | some stat =>
      if stat.itemCount < collapseMinItems then .refuse "not_cold: too few items to compress"
      else if f.isProtected node || !autoCollapseSafe stat f.env then .refuse "not_cold"
      else .apply

/-- `supersede`: two decisions, at once where they are about one thing. -/
def adjudicateSupersede (s : Store) (p : ProposalRow) : Verdict :=
  match Extra.asPair p.extra with
  | none => .refuse "malformed supersede"
  | some (oldSeq, newSeq) =>
    match s.event? oldSeq, s.event? newSeq with
    | some o, some n =>
      if o.kind ∉ decisionKinds ∨ n.kind ∉ decisionKinds then
        .refuse "only decision events supersede"
      else if o.refKind = n.refKind ∧ o.refId = n.refId ∧ o.refKind.isSome then .apply
      else if o.refKind ≠ n.refKind then .refuse "different subjects"
      else .verify
    | _, _ => .refuse "a seq does not exist"

/-- `adjudicate_structural`. -/
def adjudicateStructural (u : Unicode) (alike : String → String → Bool) (s : Store) (f : Facts)
    (p : ProposalRow) : Verdict :=
  match p.op with
  | .promote => adjudicatePromote f p
  | .split => adjudicateSplit s p
  | .merge => adjudicateMerge u alike f p
  | .collapse => adjudicateCollapse f p
  | .supersede => adjudicateSupersede s p
  | .unknown name => .refuse s!"unknown op {name}"

/-! ### The queue policy -/

/-- `PROPOSAL_TTL_ATTEMPTS`. -/
def proposalTtlAttempts : ℤ := 3

/-- How many runs a proposal waits after its `attempts`-th failed
verification. -/
def backoffRuns (attempts : ℤ) : ℤ :=
  if attempts ≤ 1 then 1 else if attempts = 2 then 2 else 4

/-- Whether a queued proposal has run out of attempts or lake-days. -/
def expired (p : ProposalRow) (lakeNewest : ℤ) : Option String :=
  if proposalTtlAttempts ≤ p.attempts then some s!"{p.attempts} attempts"
  else if p.expiresLakeTs.any (· < lakeNewest) then some "seven lake-days"
  else none

/-! ### The screen -/

/-- What one classifier prompt showed. -/
structure Shown where
  seqs : List ℤ
  hostIds : List String
  nodes : List String

/-- Why a proposal is outside what was shown. -/
def Shown.outside? (shown : Shown) : Proposal → Option String
  | .file parentId _ _ targetId _ _ =>
    if parentId ∉ shown.nodes then some s!"parent {parentId} was not shown"
    else
      match parseI64 targetId with
      | some seq => if seq ∉ shown.seqs then some s!"seq {seq} was not shown" else none
      | none => if targetId ∉ shown.hostIds then some s!"id {targetId} was not shown" else none
  | .create parentId _ _ =>
    if parentId ∉ shown.nodes then some s!"parent {parentId} was not shown" else none
  | .promote nodeId newParentId _ =>
    if nodeId ∉ shown.nodes then some s!"node {nodeId} was not shown"
    else (newParentId.filter fun p => p ∉ shown.nodes).map fun p => s!"parent {p} was not shown"
  | .split nodeId _ _ =>
    if nodeId ∉ shown.nodes then some s!"node {nodeId} was not shown" else none
  | .merge nodeIds _ _ _ =>
    (nodeIds.find? fun n => n ∉ shown.nodes).map fun n => s!"node {n} was not shown"
  | .collapse nodeId _ _ _ =>
    if nodeId ∉ shown.nodes then some s!"node {nodeId} was not shown" else none
  | .supersede _ newSeq _ =>
    if newSeq ∉ shown.seqs then some s!"seq {newSeq} was not shown" else none

/-- Keep the proposals that stay inside what was shown; the others with the
reason. -/
def screen (proposals : List Proposal) (shown : Shown) : List Proposal × List (Proposal × String) :=
  (proposals.filter fun p => (shown.outside? p).isNone,
    proposals.filterMap fun p => (shown.outside? p).map (p, ·))

/-! ### What an accepted proposal is -/

section accepted

variable {u : Unicode} {alike : String → String → Bool} {s : Store} {f : Facts} {p : ProposalRow}

theorem getNode_of_rootOf {nodes : List NodeRow} {edges : ℕ} {id root : String}
    (h : rootOf nodes edges id = some root) : ∃ n, getNode nodes id = some n := by
  cases hn : getNode nodes id with
  | none =>
    unfold rootOf at h
    simp [hn] at h
  | some n => exact ⟨n, rfl⟩

theorem getNode_of_rootsOf {nodes : List NodeRow} : ∀ {ids roots : List String},
    rootsOf nodes ids = .ok roots → ∀ id ∈ ids, ∃ n, getNode nodes id = some n
  | [], _, _, id, hid => by simp at hid
  | x :: ids, roots, h, id, hid => by
    unfold rootsOf at h
    split at h
    · cases h
    rename_i root hroot
    cases hr : rootsOf nodes ids with
    | error e => simp [hr, Except.map] at h
    | ok rest =>
      rcases List.mem_cons.mp hid with rfl | hid
      · exact getNode_of_rootOf hroot
      · exact getNode_of_rootsOf hr id hid

/-- A merge that is not refused names two nodes or more, all in the catalog. -/
theorem adjudicateMerge_accepted (h : ∀ reason, adjudicateMerge u alike f p ≠ .refuse reason) :
    ∃ a b rest, Extra.asIds p.extra = a :: b :: rest ∧
      ∀ id ∈ Extra.asIds p.extra, ∃ n, getNode f.catalog id = some n := by
  unfold adjudicateMerge at h
  split at h
  · rename_i a b rest hids
    split at h
    · exact absurd rfl (h _)
    · rename_i roots hroots
      rw [hids]
      exact ⟨a, b, rest, rfl, getNode_of_rootsOf hroots⟩
  · exact absurd rfl (h _)

/-- A collapse that applies is of a branch that is large enough, cold, and
protected nowhere. -/
theorem adjudicateCollapse_apply (h : adjudicateCollapse f p = .apply) :
    ∃ node stat, p.nodeId = some node ∧ f.stats node = some stat ∧
      collapseMinItems ≤ stat.itemCount ∧ f.isProtected node = false ∧
      autoCollapseSafe stat f.env = true := by
  unfold adjudicateCollapse at h
  split at h
  · cases h
  rename_i node hnode
  split at h
  · cases h
  rename_i stat hstat
  split at h
  · cases h
  rename_i hitems
  split at h
  · cases h
  rename_i hcold
  simp only [Bool.or_eq_true, Bool.not_eq_true', not_or, Bool.not_eq_false, Bool.not_eq_true] at hcold
  exact ⟨node, stat, hnode, hstat, not_lt.mp hitems, hcold.1, hcold.2⟩

end accepted

end PolisMemory
