/-
# The store's tables

`crates/polis-store/src/schema.rs`: the tables the class catalog, the run
journal, compaction and forgetting work on, as one value. A statement that
would break a key or a unique index has no result, so `Store` is a database
that SQLite accepts.

What the store calls and does not contain (the digest, the archive's codec,
the source of fresh ids, the JSON of a claim) is `Host`. A column that holds
the JSON of a value of ours holds the value here: the subjects, images and
payloads are read back with the decoder they were written for.

Key definitions: `Host`, `NodeRow`, `LinkRow`, `Image`, `Extra`, `Store`.
-/
import PolisMemory.Append
import PolisMemory.Tables

namespace PolisMemory

open Tables

/-! ### Outside the store -/

/-- What the store calls: `sha2`, `flate2`, `uuid` and `serde_json`. -/
structure Host where
  sha256 : String → String
  deflate : String → List UInt8
  inflate : List UInt8 → Option String
  /-- The ids `Uuid::new_v4` will draw, in the order they are asked for. -/
  uuid : ℕ → String
  inflate_deflate : ∀ body, inflate (deflate body) = some body
  uuid_injective : Function.Injective uuid

/-- Fresh node id for a created/staged node. -/
def Host.newNodeId (h : Host) (n : ℕ) : String := "cn-" ++ h.uuid n

theorem Host.newNodeId_injective (h : Host) : Function.Injective h.newNodeId := fun _ _ hab =>
  h.uuid_injective (String.append_right_inj _ |>.mp hab)

/-- An id that does not begin as a fresh one is not fresh. -/
theorem Host.newNodeId_ne (h : Host) (n : ℕ) {id : String} (hid : id.toList.head? ≠ some 'c') :
    h.newNodeId n ≠ id := by
  rintro rfl
  exact hid (by simp [Host.newNodeId, String.toList_append])

/-- Hash a body. -/
def Host.bodyHash (h : Host) (body : String) : String := h.sha256 body

/-- `decision_payload_hash`: the fields in the order given. -/
def Host.decisionPayloadHash (h : Host) (fields : List (String × String)) : String :=
  h.sha256 (String.join (fields.map fun kv => kv.1 ++ "=" ++ kv.2 ++ "\n"))

/-- Three bytes for each character, read back. -/
def unpackChars : List UInt8 → Option (List Char)
  | [] => some []
  | a :: b :: c :: rest =>
    (unpackChars rest).map (Char.ofNat (a.toNat + 256 * b.toNat + 65536 * c.toNat) :: ·)
  | _ => none

theorem unpackChars_pack : ∀ cs : List Char, unpackChars (cs.flatMap fun c =>
    [UInt8.ofNat c.toNat, UInt8.ofNat (c.toNat / 256), UInt8.ofNat (c.toNat / 65536)]) = some cs
  | [] => rfl
  | c :: cs => by
    have hc : c.toNat < 0x110000 := by
      have hv : c.toNat.isValidChar := c.valid
      unfold Nat.isValidChar at hv
      omega
    have hsum : c.toNat % 256 + 256 * (c.toNat / 256 % 256) + 65536 * (c.toNat / 65536 % 256) =
        c.toNat := by omega
    simp only [List.flatMap_cons, List.cons_append, List.nil_append, unpackChars,
      unpackChars_pack cs, Option.map_some, UInt8.toNat_ofNat']
    simp [hsum]

/-- A host to run the model with: a text is its own hash, an archive has three
bytes for each character. -/
def Host.plain : Host where
  sha256 text := text
  deflate body := body.toList.flatMap fun c =>
    [UInt8.ofNat c.toNat, UInt8.ofNat (c.toNat / 256), UInt8.ofNat (c.toNat / 65536)]
  inflate blob := (unpackChars blob).map String.ofList
  uuid n := String.ofList (List.replicate n 'a')
  inflate_deflate body := by simp [unpackChars_pack]
  uuid_injective n m h := by
    have h' : List.replicate n 'a' = List.replicate m 'a' := by
      simpa using congrArg String.toList h
    simpa using congrArg List.length h'

/-- A statement's failure; the caller's transaction rolls back. -/
inductive DbError
  /-- `query_row` found no row. -/
  | noRows
  /-- A key or a unique index has the row already. -/
  | constraint
  | invalid (message : String)
  deriving DecidableEq, Repr

/-- `e.to_string()`. -/
def DbError.text : DbError → String
  | .noRows => "Query returned no rows"
  | .constraint => "UNIQUE constraint failed"
  | .invalid message => "Invalid parameter name: " ++ message

/-! ### The catalog -/

inductive NodeKind
  | node
  | digest
  deriving DecidableEq, Repr

/-- A row of `class_nodes`. -/
structure NodeRow where
  id : String
  parentId : Option String
  kind : NodeKind
  title : String
  summary : Option String
  projectPath : Option String
  pinned : Bool
  curatedBy : Option String
  createdAt : ℤ
  updatedAt : ℤ
  retiredByRun : Option ℤ
  retiredInto : Option String
  lastRecalledAt : Option ℤ
  deriving DecidableEq, Repr

/-- `retired_by_run IS NULL`. -/
def NodeRow.live (n : NodeRow) : Bool := n.retiredByRun.isNone

/-- A row of `class_links`. -/
structure LinkRow where
  id : ℤ
  nodeId : String
  targetKind : String
  targetId : String
  note : Option String
  createdAt : ℤ
  retiredByRun : Option ℤ
  lastRecalledAt : Option ℤ
  deriving DecidableEq, Repr

def LinkRow.live (l : LinkRow) : Bool := l.retiredByRun.isNone

/-- The columns of `idx_class_links_dedup`, which sees retired rows too. -/
abbrev LinkRow.dedup (l : LinkRow) : String × String × String := (l.nodeId, l.targetKind, l.targetId)

theorem LinkRow.id_marked (run : ℤ) (l : LinkRow) :
    ({ l with retiredByRun := some run } : LinkRow).id = l.id := rfl

theorem LinkRow.dedup_marked (run : ℤ) (l : LinkRow) :
    ({ l with retiredByRun := some run } : LinkRow).dedup = l.dedup := rfl

theorem LinkRow.id_unmarked (l : LinkRow) :
    ({ l with retiredByRun := none } : LinkRow).id = l.id := rfl

theorem LinkRow.dedup_unmarked (l : LinkRow) :
    ({ l with retiredByRun := none } : LinkRow).dedup = l.dedup := rfl

theorem LinkRow.id_moved (node : String) (l : LinkRow) :
    ({ l with nodeId := node } : LinkRow).id = l.id := rfl

/-- A row of `class_observations`. -/
structure ObservationRow where
  id : ℤ
  nodeId : String
  summary : String
  citeSeqs : List ℤ
  createdSeq : Option ℤ
  dismissed : Bool
  createdAt : ℤ
  retiredByRun : Option ℤ
  retiredAt : Option ℤ
  retiredReason : Option String
  deriving DecidableEq, Repr

/-- Not marked by a run; the pass's own `retired_at` is another mark. -/
def ObservationRow.live (o : ObservationRow) : Bool := o.retiredByRun.isNone

theorem ObservationRow.id_marked (run : ℤ) (o : ObservationRow) :
    ({ o with retiredByRun := some run } : ObservationRow).id = o.id := rfl

/-! ### The work queue -/

/-- One part of a `split`. -/
structure SplitPart where
  title : String
  linkIds : List ℤ
  deriving DecidableEq, Repr

/-- `extra_json`, by what it decodes as. -/
inductive Extra
  | ids (nodeIds : List String)
  | parts (into : List SplitPart)
  | seqs (citeSeqs : List ℤ)
  | pair (oldSeq newSeq : ℤ)
  deriving DecidableEq, Repr

/-- Decoded as a list of node ids, else empty. -/
def Extra.asIds : Option Extra → List String
  | some (.ids nodeIds) => nodeIds
  | _ => []

/-- Decoded as split parts, else empty. -/
def Extra.asParts : Option Extra → List SplitPart
  | some (.parts into) => into
  | _ => []

/-- Decoded as citations, else empty. -/
def Extra.asSeqs : Option Extra → List ℤ
  | some (.seqs citeSeqs) => citeSeqs
  | _ => []

/-- Decoded as a supersession, if it is one. -/
def Extra.asPair : Option Extra → Option (ℤ × ℤ)
  | some (.pair oldSeq newSeq) => some (oldSeq, newSeq)
  | _ => none

/-- `class_proposals.op`. -/
inductive StructuralOp
  | promote
  | split
  | merge
  | collapse
  | supersede
  | unknown (name : String)
  deriving DecidableEq, Repr

inductive ProposalStatus
  | proposed
  | expired
  deriving DecidableEq, Repr

/-- A row of `class_proposals`. -/
structure ProposalRow where
  id : ℤ
  runId : Option ℤ
  op : StructuralOp
  nodeId : Option String
  parentId : Option String
  title : Option String
  summary : Option String
  extra : Option Extra
  rationale : Option String
  status : ProposalStatus
  createdAt : ℤ
  attempts : ℤ
  nextAfterRun : Option ℤ
  expiresLakeTs : Option ℤ
  lastReason : Option String
  deriving DecidableEq, Repr

/-! ### Runs and their journal -/

/-- `class_runs.outcome`. -/
inductive RunOutcome
  | done
  | error
  | expired
  | skipped
  | interrupted
  | reverted
  | revertedByCanary
  deriving DecidableEq, Repr

inductive RunStatus
  | running
  | done
  | error
  deriving DecidableEq, Repr

/-- `class_runs.mode`. -/
inductive RunMode
  | organize
  | compaction
  | observations
  | revert
  | curation
  deriving DecidableEq, Repr

/-- A row of `class_runs`. -/
structure RunRow where
  id : ℤ
  startedAt : ℤ
  status : RunStatus
  seqFrom : Option ℤ
  seqTo : Option ℤ
  summary : Option String
  error : Option String
  outcome : Option RunOutcome
  ops : Option ℤ
  mode : RunMode
  sourceForgottenAt : Option ℤ
  deriving DecidableEq, Repr

/-- The subject vocabulary. -/
inductive Subject
  | node (id : String)
  | link (id : ℤ)
  | obs (id : ℤ)
  | prompt (id : ℤ)
  | seq (n : ℤ)
  | claim (id : String)
  deriving DecidableEq, Repr

/-- `class_run_ops.op`. -/
inductive OpKind
  | claim
  | file
  | create
  | promote
  | split
  | merge
  | collapse
  | supersede
  | compact
  | observe
  | unknown (name : String)
  deriving DecidableEq, Repr

/-- The journal's name for a queued op. -/
def StructuralOp.kind : StructuralOp → OpKind
  | .promote => .promote
  | .split => .split
  | .merge => .merge
  | .collapse => .collapse
  | .supersede => .supersede
  | .unknown name => .unknown name

/-- A node a split made, with the links it was given. -/
structure CreatedPart where
  id : String
  title : String
  linkIds : List ℤ
  deriving DecidableEq, Repr

/-- What a merge did, for its inverse. -/
structure MergeImage where
  target : String
  oldTitle : String
  oldParent : Option String
  /-- Each absorbed node with its parent and title. -/
  absorbed : List (String × Option String × String)
  /-- Each moved link with the node it came from. -/
  movedLinks : List (ℤ × String)
  leftoverLinks : List ℤ
  /-- Each child that got the target as its parent, with the parent it had. -/
  children : List (String × String)
  observations : List ℤ
  deriving DecidableEq, Repr

/-- The rows a `retire_node_subtree` marked. -/
structure RetiredSet where
  nodes : List String
  links : List ℤ
  observations : List ℤ
  deriving DecidableEq, Repr

/-- `pre_image`: exactly the rows an op's inverse needs. -/
inductive Image
  | claim (claimId : String)
  | file (linkId : ℤ) (nodeId targetKind targetId : String) (revivedFromRun : Option ℤ)
  | create (nodeId : String) (parentId : Option String) (title : String)
  | promote (nodeId : String) (oldParent newParent : Option String)
  | split (nodeId : String) (parentId : Option String) (created : List CreatedPart)
  | merge (image : MergeImage)
  | collapse (nodeId digestId : String) (retired : RetiredSet) (citationLinks : List ℤ)
  | supersede (oldSeq newSeq eventSeq : ℤ)
  | compact (promptId eventSeq : ℤ)
  | observe (observationId : ℤ) (nodeId : String) (eventSeq : ℤ)
  deriving DecidableEq, Repr

/-- The op whose image this is. -/
def Image.op : Image → OpKind
  | .claim .. => .claim
  | .file .. => .file
  | .create .. => .create
  | .promote .. => .promote
  | .split .. => .split
  | .merge .. => .merge
  | .collapse .. => .collapse
  | .supersede .. => .supersede
  | .compact .. => .compact
  | .observe .. => .observe

inductive OpOutcome
  | applied
  | refused
  | expired
  | reverted
  deriving DecidableEq, Repr

/-- A row of `class_run_ops`. -/
structure OpRow where
  runId : ℤ
  opIx : ℤ
  op : OpKind
  subjectIds : List Subject
  outcome : OpOutcome
  reason : Option String
  preImage : Option Image
  postImage : Option Image
  ledgerSeq : Option ℤ
  revertedByRun : Option ℤ
  deriving DecidableEq, Repr

/-- `PRIMARY KEY (run_id, op_ix)`. -/
abbrev OpRow.key (o : OpRow) : ℤ × ℤ := (o.runId, o.opIx)

/-! ### The lake and what is derived from it -/

/-- A row of `prompts`. -/
structure PromptRow where
  id : ℤ
  ts : ℤ
  role : Option String
  projectPath : Option String
  principalId : Option String
  deviceId : Option String
  agentId : Option String
  runId : Option String
  orgId : Option String
  body : String
  bodyHash : String
  gist : Option String
  compactedAt : Option ℤ
  originalBytes : Option ℤ
  gistSource : Option String
  userText : Option String
  deriving DecidableEq, Repr

/-- A row of `prompt_archive`. -/
structure ArchiveRow where
  promptId : ℤ
  bodyHash : String
  algo : String
  originalBytes : ℤ
  blob : List UInt8
  archivedAt : ℤ
  deriving DecidableEq, Repr

/-- A row of `supersessions`. -/
structure SupersessionRow where
  oldSeq : ℤ
  newSeq : ℤ
  eventSeq : ℤ
  createdAt : ℤ
  deriving DecidableEq, Repr

/-- A row of `embeddings`. -/
structure EmbeddingRow where
  targetKind : String
  targetId : ℤ
  chunkIx : ℤ
  charStart : ℤ
  charLen : ℤ
  scale : UInt32
  vec : List UInt8
  model : String
  sourceHash : String
  createdAt : ℤ
  deriving DecidableEq, Repr

/-- The columns of `idx_embeddings_chunk`. -/
abbrev EmbeddingRow.chunk (e : EmbeddingRow) : String × ℤ × ℤ × String :=
  (e.targetKind, e.targetId, e.chunkIx, e.model)

/-- A row of `claim_records`. -/
structure ClaimRecord where
  id : String
  eventSeq : ℤ
  recordedAt : ℤ
  assertionJson : Option String
  retiredAt : Option ℤ
  invalidated : Bool
  deriving DecidableEq, Repr

/-- A row of `claims`, the projection of the records. -/
structure ClaimRow where
  id : String
  subject : String
  predicate : String
  assertionJson : String
  recordedAt : ℤ
  eventSeq : ℤ
  validFrom : ℤ
  validUntil : Option ℤ
  retiredAt : Option ℤ
  principalId : Option String
  agentId : Option String
  runId : Option String
  orgId : Option String
  projectPath : Option String
  deriving DecidableEq, Repr

/-- A row of `claim_sources`. -/
structure ClaimSourceRow where
  claimId : String
  chainId : String
  seq : ℤ
  deriving DecidableEq, Repr

/-- A row of `principals`. -/
structure PrincipalRow where
  principalId : String
  parentId : Option String
  deriving DecidableEq, Repr

/-- A row of `principal_aliases`. -/
structure AliasRow where
  name : String
  principalId : String
  deriving DecidableEq, Repr

/-- A row of `forgotten_sources`. -/
structure ForgottenRow where
  promptId : ℤ
  bodyHash : String
  forgottenAt : ℤ
  deriving DecidableEq, Repr

/-- A row of `redaction_outbox`. -/
structure OutboxRow where
  promptId : ℤ
  createdAt : ℤ
  deriving DecidableEq, Repr

/-- A row of `forgotten_captures`. -/
structure ForgottenCapture where
  targetKind : String
  targetId : ℤ
  deriving DecidableEq, Repr

/-- A row of `decision_evidence`: the event a decision was read from. -/
structure EvidenceRow where
  seq : ℤ
  sourceSeq : ℤ
  deriving DecidableEq, Repr

/-- A row of `note_events`. -/
structure NoteEvent where
  seq : ℤ
  noteId : ℤ
  deriving DecidableEq, Repr

/-- A row of `user_notes`. -/
structure NoteRow where
  id : ℤ
  targetKind : String
  targetId : Option String
  text : String
  deriving DecidableEq, Repr

/-! ### The store -/

/-- The database. -/
structure Store where
  nodes : Table NodeRow.id
  links : IndexedTable LinkRow.id LinkRow.dedup
  observations : AutoTable ObservationRow.id
  proposals : AutoTable ProposalRow.id
  runs : AutoTable RunRow.id
  runOps : Table OpRow.key
  ledger : LedgerTable
  prompts : Table PromptRow.id
  archive : Table ArchiveRow.promptId
  supersessions : Table SupersessionRow.oldSeq
  embeddings : Table EmbeddingRow.chunk
  claimRecords : Table ClaimRecord.id
  claims : Table ClaimRow.id
  claimSources : List ClaimSourceRow
  forgottenSources : Table ForgottenRow.promptId
  redactionOutbox : Table OutboxRow.promptId
  forgottenCaptures : List ForgottenCapture
  decisionEvidence : Table EvidenceRow.seq
  noteEvents : Table NoteEvent.seq
  userNotes : Table NoteRow.id
  principals : Table PrincipalRow.principalId
  principalAliases : Table AliasRow.name
  /-- `polis.revert.horizonRun`. -/
  revertHorizon : Option ℤ
  /-- How many fresh ids were drawn. -/
  minted : ℕ

namespace Store

/-- A database with nothing in it. -/
def empty : Store where
  nodes := ∅
  links := ∅
  observations := ∅
  proposals := ∅
  runs := ∅
  runOps := ∅
  ledger := .empty
  prompts := ∅
  archive := ∅
  supersessions := ∅
  embeddings := ∅
  claimRecords := ∅
  claims := ∅
  claimSources := []
  forgottenSources := ∅
  redactionOutbox := ∅
  forgottenCaptures := []
  decisionEvidence := ∅
  noteEvents := ∅
  userNotes := ∅
  principals := ∅
  principalAliases := ∅
  revertHorizon := none
  minted := 0

/-- The live row of a node. -/
def liveNode? (s : Store) (id : String) : Option NodeRow := (s.nodes.get? id).filter NodeRow.live

/-- `SELECT COUNT(*) … WHERE id = ?1 AND retired_by_run IS NULL`. -/
def nodeExists (s : Store) (id : String) : Bool := (s.liveNode? id).isSome

/-- The ids of a node's live children, in the order of their rows. -/
def liveChildren (s : Store) (id : String) : List String :=
  (s.nodes.select fun n => n.parentId = some id && n.live).map NodeRow.id

/-- The ids of a node's live links. -/
def liveLinks (s : Store) (id : String) : List ℤ :=
  (s.links.select fun l => l.nodeId = id && l.live).map LinkRow.id

/-- The ids of a node's live observations. -/
def liveObservations (s : Store) (id : String) : List ℤ :=
  (s.observations.select fun o => o.nodeId = id && o.live).map ObservationRow.id

/-- The row of a ledger event. -/
def event? (s : Store) (seq : ℤ) : Option LedgerEventRow := s.ledger.rows.find? fun e => e.seq = seq

/-- `append_event`, inside the caller's transaction. -/
def append (h : Host) (s : Store) (a : LedgerAppend) : Store :=
  { s with ledger := appended h.sha256 s.ledger a }

/-- The row that append makes. -/
def appendedRow (h : Host) (s : Store) (a : LedgerAppend) : LedgerEventRow :=
  successor h.sha256 s.ledger.last a

/-- An event is found after an append as before, or it is the appended one. -/
theorem event?_append_eq (h : Host) (s : Store) (x : LedgerAppend) (seq : ℤ) :
    (s.append h x).event? seq =
      (s.event? seq).or (if (s.appendedRow h x).seq = seq then some (s.appendedRow h x) else none) := by
  unfold event?
  show List.find? _ (appended h.sha256 s.ledger x).rows = _
  rw [rows_appended, List.find?_append, List.find?_singleton]
  simp only [decide_eq_true_eq]
  rfl

/-- An event stays when another is appended. -/
theorem event?_append {h : Host} {s : Store} {x : LedgerAppend} {seq : ℤ} {e : LedgerEventRow}
    (he : s.event? seq = some e) : (s.append h x).event? seq = some e := by
  rw [event?_append_eq, he, Option.some_or]

/-- The appended event is found by its seq. -/
theorem event?_appendedRow (h : Host) (s : Store) (x : LedgerAppend) :
    (s.append h x).event? (s.appendedRow h x).seq = some (s.appendedRow h x) := by
  have hbefore : s.event? (s.appendedRow h x).seq = none :=
    List.find?_eq_none.mpr fun r hr => by
      have hlt := lt_successor h.sha256 x r hr
      exact fun heq => hlt.ne (of_decide_eq_true heq)
  rw [event?_append_eq, hbefore, Option.none_or, if_pos rfl]

theorem liveNode?_eq_some {s : Store} {id : String} {n : NodeRow} :
    s.liveNode? id = some n ↔ s.nodes.get? id = some n ∧ n.live = true := by
  rw [liveNode?, Option.filter_eq_some_iff]

theorem nodeExists_iff {s : Store} {id : String} :
    s.nodeExists id = true ↔ ∃ n, s.nodes.get? id = some n ∧ n.live = true := by
  simp only [nodeExists, Option.isSome_iff_exists, liveNode?_eq_some]

theorem mem_liveChildren {s : Store} {id c : String} : c ∈ s.liveChildren id ↔
    ∃ n, s.nodes.get? c = some n ∧ n.parentId = some id ∧ n.live = true := by
  simp only [liveChildren, Table.mem_map_select, Bool.and_eq_true, decide_eq_true_eq]

theorem mem_liveLinks {s : Store} {id : String} {l : ℤ} : l ∈ s.liveLinks id ↔
    ∃ r, s.links.get? l = some r ∧ r.nodeId = id ∧ r.live = true := by
  simp only [liveLinks, Table.mem_map_select, Bool.and_eq_true, decide_eq_true_eq]

theorem mem_liveObservations {s : Store} {id : String} {o : ℤ} : o ∈ s.liveObservations id ↔
    ∃ r, s.observations.get? o = some r ∧ r.nodeId = id ∧ r.live = true := by
  simp only [liveObservations, Table.mem_map_select, Bool.and_eq_true, decide_eq_true_eq]

end Store

end PolisMemory
