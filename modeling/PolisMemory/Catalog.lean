/-
# The class catalog's writes

`crates/polis-store/src/catalog.rs` with `observations.rs` and
`supersessions.rs`: staging one parsed proposal (`file` and `create` become
live rows at once, the structural ops queue), applying a queued proposal, and
writing an observation. Each write that a run makes is journaled under it
with the rows its inverse needs, and each destructive step is a retire-mark
stamped with that run.

A function is one transaction: where it fails the store is as before. The
clock (`now`) and who acts are arguments.

Key definitions: `Proposal`, `Store.stageProposal`, `Store.applyPromote`,
`Store.applyCollapse`, `Store.applyMerge`, `Store.applySplit`,
`Store.applySupersede`, `Store.applyClassProposalInRun`,
`Store.insertClassObservationInRun`.
-/
import PolisMemory.Journal

namespace PolisMemory

open Tables

/-! ### Texts -/

/-- Unicode's `White_Space`, what `str::trim` trims. -/
def isWhitespace (c : Char) : Bool :=
  (9 ≤ c.toNat && c.toNat ≤ 13) || (8192 ≤ c.toNat && c.toNat ≤ 8202) ||
    c.toNat ∈ [32, 133, 160, 5760, 8232, 8233, 8239, 8287, 12288]

/-- `str::trim`. -/
def trim (s : String) : String :=
  String.ofList ((s.toList.dropWhile isWhitespace).reverse.dropWhile isWhitespace).reverse

/-- A text without white space is trimmed of nothing. -/
theorem trim_of_none {cs : List Char} (h : ∀ c ∈ cs, isWhitespace c = false) :
    trim (String.ofList cs) = String.ofList cs := by
  have hdrop : ∀ {l : List Char}, (∀ c ∈ l, isWhitespace c = false) → l.dropWhile isWhitespace = l := by
    intro l hl
    cases l with
    | nil => rfl
    | cons c l =>
      have hc := hl c List.mem_cons_self
      rw [List.dropWhile_cons, hc]
      rfl
  unfold trim
  rw [String.toList_ofList, hdrop h, hdrop fun c hc => h c (List.mem_reverse.mp hc),
    List.reverse_reverse]

/-- The value of a non-empty run of decimal digits. -/
def parseDigits (ds : List Char) : Option ℕ :=
  if ds ≠ [] ∧ ds.all Char.isDigit then
    some (ds.foldl (fun n d => 10 * n + (d.toNat - '0'.toNat)) 0)
  else none

/-- `str::parse::<i64>`. -/
def parseI64 (s : String) : Option ℤ :=
  match s.toList with
  | '-' :: ds => (parseDigits ds).bind fun n => if n ≤ 2 ^ 63 then some (-(n : ℤ)) else none
  | '+' :: ds => (parseDigits ds).bind fun n => if n < 2 ^ 63 then some (n : ℤ) else none
  | ds => (parseDigits ds).bind fun n => if n < 2 ^ 63 then some (n : ℤ) else none

/-- `i64::to_string`. -/
def i64ToString (n : ℤ) : String := String.ofList (JsonText.intText n)

theorem parseDigits_toDigits (n : ℕ) : parseDigits (Nat.toDigits 10 n) = some n := by
  have hall : (Nat.toDigits 10 n).all Char.isDigit = true := by
    rw [List.all_eq_true]
    exact fun c hc => JsonText.isDigit_of_mem hc
  unfold parseDigits
  rw [if_pos ⟨Nat.toDigits_ne_nil, hall⟩, ← Nat.ofDigitChars_eq_foldl, Nat.ofDigitChars_ten_toDigits]

/-- A number in the range of an `i64` is read back as it was written. -/
theorem parseI64_i64ToString {n : ℤ} (hlo : -2 ^ 63 ≤ n) (hhi : n < 2 ^ 63) :
    parseI64 (i64ToString n) = some n := by
  unfold parseI64 i64ToString
  rw [String.toList_ofList]
  cases n with
  | negSucc k =>
    have hk : k + 1 ≤ 2 ^ 63 := by omega
    simp only [JsonText.intText, parseDigits_toDigits, Option.bind_some, if_pos hk]
    rfl
  | ofNat k =>
    have hk : k < 2 ^ 63 := by
      have : ((k : ℕ) : ℤ) < 2 ^ 63 := hhi
      exact_mod_cast this
    simp only [JsonText.intText]
    split
    · rename_i ds hds
      exact absurd (JsonText.isDigit_of_mem (n := k) (hds ▸ List.mem_cons_self)) (by decide)
    · rename_i ds hds
      exact absurd (JsonText.isDigit_of_mem (n := k) (hds ▸ List.mem_cons_self)) (by decide)
    · rw [parseDigits_toDigits, Option.bind_some, if_pos hk]
      rfl

theorem le_of_parseI64 {s : String} {n : ℤ} (h : parseI64 s = some n) : -2 ^ 63 ≤ n := by
  unfold parseI64 at h
  split at h <;>
  · obtain ⟨k, -, hk⟩ := Option.bind_eq_some_iff.mp h
    split_ifs at hk with hlt
    cases hk
    have : ((k : ℕ) : ℤ) ≥ 0 := Int.natCast_nonneg k
    omega

/-- The event kinds that a supersession may replace. -/
def decisionKinds : List String := ["resolution", "approval", "review_verdict"]

/-- `PROPOSAL_TTL_LAKE_MS`: seven lake-days. -/
def proposalTtlLakeMs : ℤ := 7 * 24 * 3600 * 1000

/-- A parsed proposal. -/
inductive Proposal
  | file (parentId : String) (subClass : Option String) (targetKind targetId : String)
    (note rationale : Option String)
  | create (parentId title : String) (rationale : Option String)
  | promote (nodeId : String) (newParentId rationale : Option String)
  | split (nodeId : String) (into : List SplitPart) (rationale : Option String)
  | merge (nodeIds : List String) (title parentId rationale : Option String)
  | collapse (nodeId summary : String) (citeSeqs : List ℤ) (rationale : Option String)
  | supersede (oldSeq newSeq : ℤ) (rationale : Option String)
  deriving DecidableEq, Repr

/-- What staging made of a proposal. -/
inductive StagedOutcome
  | skipped
  | node
  | link (createdNode : Bool)
  | structural
  deriving DecidableEq, Repr

/-- What `apply_supersession_locked` decided. -/
inductive SupersessionOutcome
  | applied (effectiveOld newSeq eventSeq : ℤ)
  | rejected (message : String)
  deriving DecidableEq, Repr

/-- The facts for the `taxonomy_reorg` event of an applied proposal. -/
structure AppliedReorg where
  op : StructuralOp
  nodeId : String
  detail : String
  deriving DecidableEq, Repr

namespace Store

/-! ### Rows -/

/-- A new node's row. -/
def newRow (now : ℤ) (kind : NodeKind) (parentId : Option String) (title : String)
    (summary : Option String) (curatedBy : String) (id : String) : NodeRow :=
  ⟨id, parentId, kind, title, summary, none, false, some curatedBy, now, now, none, none, none⟩

/-- Insert a node under a fresh id. -/
def insertNode (h : Host) (s : Store) (mk : String → NodeRow) : Except DbError (Store × String) :=
  match s.nodes.insert? (mk (h.newNodeId s.minted)) with
  | none => .error .constraint
  | some nodes => .ok ({ s with nodes := nodes, minted := s.minted + 1 }, h.newNodeId s.minted)

/-- `UPDATE class_nodes SET parent_id, updated_at`, over some ids. -/
def setParent (s : Store) (now : ℤ) (ids : List String) (parent : Option String) : Store :=
  { s with nodes := s.nodes.update (fun n => n.id ∈ ids) fun n =>
      { n with parentId := parent, updatedAt := now } }

/-- `UPDATE class_nodes SET title, updated_at`. -/
def setTitle (s : Store) (now : ℤ) (id title : String) : Store :=
  { s with nodes := s.nodes.update (fun n => n.id = id) fun n =>
      { n with title := title, updatedAt := now } }

/-- Journal an applied op, if the write is a run's. -/
def journalApplied (s : Store) (run : Option ℤ) (subjects : List Subject) (image : Image) :
    Except DbError Store :=
  match run with
  | none => .ok s
  | some run => s.journalOp run (.applied subjects image none)

/-! ### Staging -/

/-- `COALESCE(MAX(ts), 0)` over the ledger. -/
def lakeNewestTs (s : Store) : ℤ := (s.ledger.rows.map LedgerEventRow.ts).max?.getD 0

/-- Queue a structural proposal; it expires on the lake's own clock. -/
def insertStructural (s : Store) (now : ℤ) (run : Option ℤ) (op : StructuralOp)
    (nodeId parentId title summary : Option String) (extra : Option Extra)
    (rationale : Option String) : Store :=
  { s with proposals := s.proposals.insert fun id =>
      ⟨id, run, op, nodeId, parentId, title, summary, extra, rationale, .proposed, now, 0, none,
        some (s.lakeNewestTs + proposalTtlLakeMs), none⟩ }

/-- Whether a proposal names a source that was forgotten. -/
def namesForgotten (s : Store) : Proposal → Bool
  | .file _ _ _ targetId _ _ => (parseI64 targetId).any s.sourceForgotten
  | .supersede oldSeq newSeq _ => s.sourceForgotten oldSeq || s.sourceForgotten newSeq
  | .collapse _ _ citeSeqs _ => citeSeqs.any s.sourceForgotten
  | _ => false

/-- The first live child of that title. -/
def childTitled? (s : Store) (parentId title : String) : Option String :=
  ((s.nodes.select fun n => n.parentId = some parentId && n.title = title && n.live).map
    NodeRow.id).head?

/-- Make a live child for the classifier. -/
def createChild (h : Host) (s : Store) (now : ℤ) (run : Option ℤ) (parentId title : String) :
    Except DbError (Store × String) := do
  let (s, id) ← s.insertNode h (newRow now .node (some parentId) title none "classifier")
  let s ← s.journalApplied run [.node id] (.create id (some parentId) title)
  return (s, id)

/-- The node a filing's link attaches to, made if need be. -/
def filingNode (h : Host) (s : Store) (now : ℤ) (run : Option ℤ) (parentId : String)
    (subClass : Option String) : Except DbError (Store × String × Bool) :=
  match subClass with
  | none => .ok (s, parentId, false)
  | some sc =>
    if trim sc = "" then .ok (s, parentId, false)
    else
      match s.childTitled? parentId (trim sc) with
      | some id => .ok (s, id, false)
      | none => do
        let (s, id) ← s.createChild h now run parentId (trim sc)
        return (s, id, true)

/-- Attach the link: nothing if it is live, revived if it was retired. -/
def fileLink (s : Store) (now : ℤ) (run : Option ℤ) (node targetKind targetId : String)
    (note : Option String) : Except DbError (Store × Bool) :=
  match s.links.rows.find? fun l => l.dedup = (node, targetKind, targetId) with
  | some l =>
    match l.retiredByRun with
    | none => .ok (s, false)
    | some retiredBy => do
      let s := { s with links := s.links.update (fun r => r.id = l.id) fun r =>
        { r with retiredByRun := none } }
      let s ← s.journalApplied run [.node node, .link l.id]
        (.file l.id node targetKind targetId (some retiredBy))
      return (s, true)
  | none =>
    match s.links.insert? fun id => ⟨id, node, targetKind, targetId, note, now, none, none⟩ with
    | none => .error .constraint
    | some links => do
      let id := s.links.nextId
      let s ← { s with links := links }.journalApplied run [.node node, .link id]
        (.file id node targetKind targetId none)
      return (s, true)

/-- Both seqs are decision events. -/
def areDecisions (s : Store) (seqs : List ℤ) : Bool :=
  seqs.all fun seq => (s.event? seq).any fun e => e.kind ∈ decisionKinds

/-- Stage one parsed proposal. -/
def stageProposal (h : Host) (s : Store) (now : ℤ) (run : Option ℤ) (p : Proposal) :
    Except DbError (Store × StagedOutcome) :=
  if run.any s.runSourceForgotten || s.namesForgotten p then .ok (s, .skipped)
  else
    match p with
    | .create parentId title _ =>
      if !s.nodeExists parentId || (s.childTitled? parentId title).isSome then .ok (s, .skipped)
      else do
        let (s, _) ← s.createChild h now run parentId title
        return (s, .node)
    | .file parentId subClass targetKind targetId note _ =>
      if !s.nodeExists parentId then .ok (s, .skipped)
      else do
        let (s, node, createdNode) ← s.filingNode h now run parentId subClass
        let (s, linked) ← s.fileLink now run node targetKind targetId note
        return (s, if !linked && !createdNode then .skipped else .link createdNode)
    | .promote nodeId newParentId rationale =>
      if !s.nodeExists nodeId then .ok (s, .skipped)
      else .ok (s.insertStructural now run .promote (some nodeId) newParentId none none none
        rationale, .structural)
    | .split nodeId into rationale =>
      if !s.nodeExists nodeId then .ok (s, .skipped)
      else .ok (s.insertStructural now run .split (some nodeId) none none none (some (.parts into))
        rationale, .structural)
    | .merge nodeIds title parentId rationale =>
      if !nodeIds.all s.nodeExists then .ok (s, .skipped)
      else .ok (s.insertStructural now run .merge nodeIds.head? parentId title none
        (some (.ids nodeIds)) rationale, .structural)
    | .collapse nodeId summary citeSeqs rationale =>
      if !s.nodeExists nodeId then .ok (s, .skipped)
      else .ok (s.insertStructural now run .collapse (some nodeId) none none (some summary)
        (some (.seqs citeSeqs)) rationale, .structural)
    | .supersede oldSeq newSeq rationale =>
      if newSeq ≤ oldSeq || !s.areDecisions [oldSeq, newSeq] ||
          !(s.proposals.select fun q => q.op = .supersede && q.status = .proposed &&
            q.extra = some (.pair oldSeq newSeq)).isEmpty then .ok (s, .skipped)
      else .ok (s.insertStructural now run .supersede none none none none
        (some (.pair oldSeq newSeq)) rationale, .structural)

/-! ### Supersession -/

/-- The head of the chain from a seq, followed over at most `hops` edges. -/
def chainHead (s : Store) : ℕ → ℤ → Option ℤ
  | hops, seq =>
    match s.supersessions.get? seq, hops with
    | none, _ => some seq
    | some _, 0 => none
    | some r, hops + 1 => chainHead s hops r.newSeq

/-- How many edges a chain is followed. -/
def maxHops : ℕ := 64

/-- What speaks against "`newSeq` supersedes `oldSeq`" by its kinds. -/
def notDecision? (s : Store) : List ℤ → Option String
  | [] => none
  | seq :: seqs =>
    match s.event? seq with
    | none => some s!"no ledger event #{seq}"
    | some e =>
      if e.kind ∈ decisionKinds then s.notDecision? seqs
      else some s!"#{seq} is a {e.kind} event, not a decision"

/-- The event of a supersession. -/
def supersedeEvent (h : Host) (now oldSeq newSeq : ℤ) (rationale actor : String) : LedgerAppend :=
  ⟨"supersede", actor, now, none, none, none, some "ledger_event", some (toString oldSeq),
    h.decisionPayloadHash [("superseded_by", toString newSeq), ("rationale", rationale)]⟩

/-- Validate and record "decision `newSeq` supersedes decision `oldSeq`". -/
def applySupersession (h : Host) (s : Store) (now oldSeq newSeq : ℤ) (rationale actor : String) :
    Except DbError (Store × SupersessionOutcome) :=
  match s.notDecision? [oldSeq, newSeq] with
  | some message => .ok (s, .rejected message)
  | none =>
    match s.chainHead maxHops oldSeq with
    | none => .ok (s, .rejected "supersession chain too deep")
    | some effectiveOld =>
      if effectiveOld = newSeq then .ok (s, .rejected s!"#{newSeq} is already the chain head")
      else if newSeq ≤ effectiveOld then
        .ok (s, .rejected s!"superseding decision #{newSeq} must come after #{effectiveOld}")
      else
        let a := supersedeEvent h now effectiveOld newSeq rationale actor
        let ev := s.appendedRow h a
        match s.supersessions.insert? ⟨effectiveOld, newSeq, ev.seq, ev.ts⟩ with
        | none => .error .constraint
        | some supersessions =>
          .ok ({ s.append h a with supersessions := supersessions },
            .applied effectiveOld newSeq ev.seq)

/-! ### Applying a queued proposal -/

/-- Re-parent a node, preserving everything on it. -/
def applyPromote (s : Store) (now run : ℤ) (p : ProposalRow) : Except DbError (Store × String) := do
  let node := p.nodeId.getD ""
  let oldParent := (s.nodes.get? node).bind NodeRow.parentId
  let s ← (s.setParent now [node] p.parentId).journalOp run
    (.applied [.node node] (.promote node oldParent p.parentId) none)
  let parent := p.parentId.getD "(root)"
  return (s, s!"→ parent {parent}")

/-- Citation links of a digest to the exact ledger seqs; a repeated seq is
skipped. -/
def cite (now : ℤ) (digest : String) : List ℤ → Store → List ℤ → Store × List ℤ
  | [], s, citations => (s, citations)
  | seq :: seqs, s, citations =>
    match s.links.insert? fun id =>
      ⟨id, digest, "ledger", toString seq, none, now, none, none⟩ with
    | none => cite now digest seqs s citations
    | some links => cite now digest seqs { s with links := links } (citations ++ [s.links.nextId])

/-- Place a digest beside the branch and retire the branch into it. -/
def applyCollapse (h : Host) (s : Store) (now run : ℤ) (actor : String) (p : ProposalRow) :
    Except DbError (Store × String) :=
  let node := p.nodeId.getD ""
  match s.nodes.get? node with
  | none => .error .noRows
  | some row => do
    let (s, digest) ← s.insertNode h (newRow now .digest row.parentId
      (p.title.getD s!"{row.title} (digest)") p.summary actor)
    let (s, citations) := cite now digest (Extra.asSeqs p.extra) s []
    let (s, set) := s.retireNodeSubtree node run (some digest)
    let subjects := [.node node, .node digest] ++ (set.nodes.filter (· ≠ node)).map .node
    let s ← s.journalOp run (.applied subjects (.collapse node digest set citations) none)
    return (s, s!"digest {digest}")

/-- Move one node's links onto the target; one the target already holds stays
behind, marked. -/
def moveLinks (run : ℤ) (target other : String) : List ℤ → Store → MergeImage → Store × MergeImage
  | [], s, m => (s, m)
  | l :: ls, s, m =>
    match s.links.reindex? l fun r => { r with nodeId := target } with
    | some links =>
      moveLinks run target other ls { s with links := links }
        { m with movedLinks := m.movedLinks ++ [(l, other)] }
    | none =>
      moveLinks run target other ls (s.retireLinks run [l])
        { m with leftoverLinks := m.leftoverLinks ++ [l] }

/-- Absorb one live node into the target. -/
def absorbNode (now run : ℤ) (target other : String) (row : NodeRow) (s : Store) (m : MergeImage) :
    Store × MergeImage :=
  let (s, m) := moveLinks run target other (s.liveLinks other) s m
  let obs := s.liveObservations other
  let s := s.retireObservations run obs
  let kids := s.liveChildren other
  let s := s.setParent now kids (some target)
  ({ s with nodes := s.nodes.update (fun n => n.id = other) fun n =>
      { n with retiredByRun := some run, retiredInto := some target } },
    { m with
      observations := m.observations ++ obs
      children := m.children ++ kids.map (·, other)
      absorbed := m.absorbed ++ [(other, row.parentId, row.title)] })

/-- Absorb the other nodes in turn; one that is not live is skipped. -/
def absorb (now run : ℤ) (target : String) :
    List String → Store → MergeImage → List Subject → Store × MergeImage × List Subject
  | [], s, m, subjects => (s, m, subjects)
  | other :: others, s, m, subjects =>
    match s.liveNode? other with
    | none => absorb now run target others s m subjects
    | some row =>
      let (s', m') := absorbNode now run target other row s m
      absorb now run target others s' m'
        (subjects ++ .node other :: (s.liveLinks other).map .link)

/-- Merge the listed nodes into the first; none where there is no first. -/
def applyMerge (s : Store) (now run : ℤ) (p : ProposalRow) :
    Except DbError (Option (Store × String)) :=
  match Extra.asIds p.extra with
  | [] => .ok none
  | target :: others =>
    match s.nodes.get? target with
    | none => .error .noRows
    | some row => do
      let s := match p.title with
        | some title => s.setTitle now target title
        | none => s
      let s := match p.parentId with
        | some parent => s.setParent now [target] (some parent)
        | none => s
      let (s, image, subjects) := absorb now run target others s
        ⟨target, row.title, row.parentId, [], [], [], [], []⟩ [.node target]
      let s ← s.journalOp run (.applied subjects (.merge image) none)
      return some (s, s!"merged {others.length + 1} into {target}")

/-- Move the listed links of a node that are its live own to a part. -/
def moveListed (node part : String) : List ℤ → Store → List ℤ → Store × List ℤ
  | [], s, moved => (s, moved)
  | l :: ls, s, moved =>
    if (s.links.get? l).any fun r => r.nodeId = node && r.live then
      match s.links.reindex? l fun r => { r with nodeId := part } with
      | some links => moveListed node part ls { s with links := links } (moved ++ [l])
      | none => moveListed node part ls s moved
    else moveListed node part ls s moved

/-- Make the parts of a split in turn. -/
def splitInto (h : Host) (now : ℤ) (actor node : String) (parent : Option String) :
    List SplitPart → Store → List CreatedPart → Except DbError (Store × List CreatedPart)
  | [], s, created => .ok (s, created)
  | part :: parts, s, created => do
    let (s, id) ← s.insertNode h (newRow now .node parent part.title none actor)
    let (s, moved) := moveListed node id part.linkIds s []
    splitInto h now actor node parent parts s (created ++ [⟨id, part.title, moved⟩])

/-- Split a node into new siblings of it. -/
def applySplit (h : Host) (s : Store) (now run : ℤ) (actor : String) (p : ProposalRow) :
    Except DbError (Store × String) :=
  let node := p.nodeId.getD ""
  match s.nodes.get? node with
  | none => .error .noRows
  | some row => do
    let (s, created) ← splitInto h now actor node row.parentId (Extra.asParts p.extra) s []
    let s ← s.journalOp run (.applied (.node node :: created.map fun c => .node c.id)
      (.split node row.parentId created) none)
    return (s, s!"split into {created.length}")

/-- Apply a queued supersession; none where it is malformed or rejected. -/
def applySupersede (h : Host) (s : Store) (now run : ℤ) (actor : String) (p : ProposalRow) :
    Except DbError (Option (Store × String)) :=
  match Extra.asPair p.extra with
  | none => .ok none
  | some (oldSeq, newSeq) => do
    match ← s.applySupersession h now oldSeq newSeq (p.rationale.getD "") actor with
    | (_, .rejected _) => return none
    | (s, .applied effectiveOld newSeq eventSeq) =>
      let s ← s.journalOp run (.applied [.seq effectiveOld, .seq newSeq]
        (.supersede effectiveOld newSeq eventSeq) (some eventSeq))
      return some (s, s!"#{effectiveOld} → #{newSeq}")

/-- Mutate the tree as the proposal says; none where it is to be dropped. -/
def applyOp (h : Host) (s : Store) (now run : ℤ) (actor : String) (p : ProposalRow) :
    Except DbError (Option (Store × String)) :=
  match p.op with
  | .promote => some <$> s.applyPromote now run p
  | .collapse => some <$> s.applyCollapse h now run actor p
  | .merge => s.applyMerge now run p
  | .split => some <$> s.applySplit h now run actor p
  | .supersede => s.applySupersede h now run actor p
  | .unknown _ => .ok none

/-- `drop_proposal_locked`. -/
def dropProposal (s : Store) (id : ℤ) : Store :=
  { s with proposals := s.proposals.delete fun p => p.id = id }

/-- Finish the run that was made for one proposal. -/
def finishCuration (s : Store) (run : ℤ) (madeRun : Bool) (id ops : ℤ) : Store :=
  if madeRun then
    { s with runs := s.runs.update (fun r => r.id = run) fun r =>
        { r with
          status := .done
          outcome := some .done
          ops := some ops
          summary := some s!"applied proposal #{id}" } }
  else s

/-- The transaction of an apply. -/
def applyProposal (h : Host) (s : Store) (now run : ℤ) (madeRun : Bool) (actor : String)
    (p : ProposalRow) : Except DbError (Store × Option AppliedReorg) :=
  if p.status ≠ .proposed || s.runSourceForgotten run || p.runId.any s.runSourceForgotten then
    .ok (s, none)
  else do
    match ← s.applyOp h now run actor p with
    | none => return ((s.dropProposal p.id).finishCuration run madeRun p.id 0, none)
    | some (s, detail) =>
      return ((s.dropProposal p.id).finishCuration run madeRun p.id 1,
        some ⟨p.op, p.nodeId.getD "", detail⟩)

/-- Apply a queued proposal, journaled under `run`, else the proposal's own
run, else a `curation` run made here (outside the transaction). -/
def applyClassProposalInRun (h : Host) (s : Store) (now id : ℤ) (actor : String) (run : Option ℤ) :
    Store × Except DbError (Option AppliedReorg) :=
  match s.proposals.get? id with
  | none => (s, .ok none)
  | some p =>
    let (s, run, madeRun) := match run.or p.runId with
      | some run => (s, run, false)
      | none => ((s.insertClassRunWith now .curation none none).1, s.runs.nextId, true)
    match s.applyProposal h now run madeRun actor p with
    | .error e => (s, .error e)
    | .ok (s, applied) => (s, .ok applied)

/-! ### Observations -/

/-- `serde_json` of a list of seqs. -/
def citesJson (seqs : List ℤ) : String := "[" ++ String.intercalate "," (seqs.map toString) ++ "]"

/-- The event of an observation. -/
def observationEvent (h : Host) (now : ℤ) (node summary : String) (citeSeqs : List ℤ)
    (actor : String) : LedgerAppend :=
  ⟨"observation", actor, now, none, none, none, some "class_node", some node,
    h.decisionPayloadHash [("node", node), ("summary", summary), ("cites", citesJson citeSeqs)]⟩

/-- Insert an observation and append its event; none when skipped. -/
def insertClassObservation (h : Host) (s : Store) (now : ℤ) (node summary : String)
    (citeSeqs : List ℤ) (actor : String) : Store × Option ℤ :=
  if citeSeqs = [] || trim summary = "" || citeSeqs.any s.sourceForgotten || !s.nodeExists node ||
      !(s.observations.select fun o => o.nodeId = node && o.summary = summary).isEmpty then (s, none)
  else
    let a := observationEvent h now node summary citeSeqs actor
    let id := s.observations.nextId
    ({ s.append h a with observations := s.observations.insert fun id =>
      ⟨id, node, summary, citeSeqs, some (s.appendedRow h a).seq, false, now, none, none, none⟩ },
      some id)

/-- `insert_class_observation` journaled under a gardener run. -/
def insertClassObservationInRun (h : Host) (s : Store) (now run : ℤ) (node summary : String)
    (citeSeqs : List ℤ) (actor : String) : Except DbError (Store × Option ℤ) :=
  if s.runSourceForgotten run then .ok (s, none)
  else
    match s.insertClassObservation h now node summary citeSeqs actor with
    | (s, none) => .ok (s, none)
    | (s, some id) => do
      let seq := (s.observations.get? id).bind ObservationRow.createdSeq
      let s ← s.journalOp run (.applied [.obs id, .node node]
        (.observe id node (seq.getD 0)) seq)
      return (s, some id)

end Store

end PolisMemory
