/-
# Foreign chains

`crates/polis-store/src/foreign.rs`: what a peer's segments leave behind. An
event that is here stays as it is (`INSERT OR IGNORE`), and so does a prompt;
a note gives way to a newer version of itself. A redaction, and a local
suppression, blanks the capture it names and leaves a marker that a purge of
the chain does not take away.

A function is one transaction: where it fails the store is as before. How many
rows were written is not counted.

Key definitions: `ForeignStore`, `ForeignStore.tombstone`,
`ForeignStore.importForeignSegment`, `ForeignStore.forgetForeignChain`.
-/
import PolisMemory.Coldness
import PolisMemory.Envelope
import PolisMemory.Tables

namespace PolisMemory

open Tables

/-! ### Rows -/

/-- A row of `foreign_chains`. -/
structure ForeignChain where
  chainId : String
  humanId : String
  deviceName : Option String
  displayName : Option String
  headSeq : ℤ
  headHash : String
  forked : Bool
  forkDetail : Option String
  firstImportAt : ℤ
  lastImportAt : ℤ
  deriving DecidableEq, Repr

/-- A row of `foreign_events`. -/
structure ForeignEventRow where
  chainId : String
  event : LedgerEventRow
  deriving DecidableEq, Repr

/-- Its primary key. -/
abbrev ForeignEventRow.key (r : ForeignEventRow) : String × ℤ := (r.chainId, r.event.seq)

/-- A row of `foreign_prompts`. -/
structure ForeignPromptRow where
  id : ℤ
  chainId : String
  seq : ℤ
  promptId : ℤ
  role : String
  bodyHash : String
  redaction : String
  text : Option String
  project : Option String
  tombstoned : Bool
  importedAt : ℤ
  deriving DecidableEq, Repr

/-- Its unique columns beside the id. -/
abbrev ForeignPromptRow.capture (p : ForeignPromptRow) : String × ℤ := (p.chainId, p.seq)

/-- A row of `foreign_notes`, with SQLite's rowid. -/
structure ForeignNoteRow where
  rowid : ℤ
  chainId : String
  noteId : ℤ
  seq : Option ℤ
  targetKind : String
  targetId : Option String
  text : String
  createdAt : ℤ
  deriving DecidableEq, Repr

/-- Its primary key. -/
abbrev ForeignNoteRow.key (n : ForeignNoteRow) : String × ℤ := (n.chainId, n.noteId)

/-- A row of `foreign_principals`. -/
structure ForeignPrincipalRow where
  chainId : String
  card : PrincipalCard
  deriving DecidableEq, Repr

/-- A row of `foreign_redactions`. -/
structure ForeignRedactionRow where
  chainId : String
  eventSeq : ℤ
  targetChain : String
  targetSeq : ℤ
  importedAt : ℤ
  deriving DecidableEq, Repr

/-- Its primary key. -/
abbrev ForeignRedactionRow.key (r : ForeignRedactionRow) : String × ℤ := (r.chainId, r.eventSeq)

/-- A row of `foreign_acks`: the newest seq of our chain that a peer reported. -/
structure ForeignAckRow where
  chainId : String
  ackedSeq : ℤ
  updatedAt : ℤ
  deriving DecidableEq, Repr

/-- A row of `org_acks`. -/
structure OrgAckRow where
  ackerChain : String
  chainId : String
  ackedSeq : ℤ
  updatedAt : ℤ
  deriving DecidableEq, Repr

/-- A row of `foreign_trust`. -/
structure TrustEntry where
  principalId : String
  pubkey : String
  fingerprint : String
  source : String
  displayName : Option String
  addedAt : ℤ
  deriving DecidableEq, Repr

/-- A row of `foreign_subscriptions`. -/
structure SubscriptionRow where
  id : ℤ
  principal : Option String
  project : Option String
  createdAt : ℤ
  deriving DecidableEq, Repr

/-- A row of `foreign_class_nodes`. -/
structure ForeignClassNode where
  chainId : String
  node : PayloadClassNode
  importedAt : ℤ
  deriving DecidableEq, Repr

/-- A row of `foreign_class_links`. -/
structure ForeignClassLink where
  chainId : String
  link : PayloadClassLink
  deriving DecidableEq, Repr

/-- A row of `embeddings` that targets a foreign row. -/
structure ForeignVectorRow where
  targetKind : String
  targetId : ℤ
  chunkIx : ℤ
  model : String
  charStart : ℤ
  charLen : ℤ
  dim : ℤ
  scale : UInt64
  vec : List UInt8
  sourceHash : String
  createdAt : ℤ
  deriving DecidableEq, Repr

/-- The columns of `idx_embeddings_chunk`. -/
abbrev ForeignVectorRow.chunk (e : ForeignVectorRow) : String × ℤ × ℤ × String :=
  (e.targetKind, e.targetId, e.chunkIx, e.model)

/-- A chunk of a text and its vector. -/
structure VectorChunk where
  ix : ℤ
  charStart : ℤ
  charLen : ℤ
  scale : UInt64
  vec : List UInt8
  deriving DecidableEq, Repr

/-- The part of the database that sharing reads and writes. `principals` and
`ledger` are this store's own, and of `polis_meta` the redactions it issued
and the suppression markers. -/
structure ForeignStore where
  principals : Table PrincipalCard.principalId
  ledger : LedgerTable
  chains : Table ForeignChain.chainId
  events : Table ForeignEventRow.key
  prompts : IndexedTable ForeignPromptRow.id ForeignPromptRow.capture
  notes : Table ForeignNoteRow.key
  foreignPrincipals : Table fun r : ForeignPrincipalRow => r.card.principalId
  redactions : Table ForeignRedactionRow.key
  acks : Table ForeignAckRow.chainId
  orgAcks : Table fun r : OrgAckRow => (r.ackerChain, r.chainId)
  trust : Table TrustEntry.principalId
  subscriptions : AutoTable SubscriptionRow.id
  classNodes : Table fun r : ForeignClassNode => (r.chainId, r.node.id)
  classLinks : Table fun r : ForeignClassLink => r
  embeddings : Table ForeignVectorRow.chunk
  /-- `polis.foreignForgotten.{chain}.{seq}`. -/
  markers : Table fun m : String × ℤ => m
  /-- `polis.redaction.{seq}`. -/
  ownRedactions : Table RedactionPayload.eventSeq

/-- A prompt row to write, already at its redaction. -/
structure ForeignPromptInput where
  seq : ℤ
  promptId : ℤ
  role : String
  bodyHash : String
  redaction : String
  text : Option String
  project : Option String
  deriving DecidableEq, Repr

/-- A note row to write. -/
structure ForeignNoteInput where
  noteId : ℤ
  seq : Option ℤ
  targetKind : String
  targetId : Option String
  text : String
  createdAt : ℤ
  deriving DecidableEq, Repr

/-- A redaction the segment carries. -/
structure ForeignRedactionInput where
  eventSeq : ℤ
  targetChain : String
  targetSeq : ℤ
  deriving DecidableEq, Repr

/-- The tombstone a redaction leaves in a foreign body. -/
def tombstoneText : String := "[forgotten]"

/-- The chain and seq that a capture is named by. -/
def isCaptureId (chainId : String) (seq : ℤ) : Bool :=
  chainId.toList.length = 64 && chainId.toList.all (fun c => (hexDigit c).isSome) && 0 < seq

namespace ForeignStore

/-- A database with nothing in it. -/
def empty : ForeignStore where
  principals := ∅
  ledger := .empty
  chains := ∅
  events := ∅
  prompts := ∅
  notes := ∅
  foreignPrincipals := ∅
  redactions := ∅
  acks := ∅
  orgAcks := ∅
  trust := ∅
  subscriptions := ∅
  classNodes := ∅
  classLinks := ∅
  embeddings := ∅
  markers := ∅
  ownRedactions := ∅

/-! ### Tombstones -/

/-- A standalone note keeps its id through edits: the note ids that the event
at `(chain, seq)` names. -/
def namedNotes (s : ForeignStore) (chainId : String) (seq : ℤ) : List ℤ :=
  (s.events.select fun r => r.chainId = chainId && r.event.seq = seq && r.event.kind = "note" &&
    r.event.refKind = some "none").filterMap fun r => r.event.refId.map castInteger

/-- The note rows of a capture. -/
def ofCapture (s : ForeignStore) (chainId : String) (seq : ℤ) (n : ForeignNoteRow) : Bool :=
  n.chainId = chainId && (n.seq = some seq || n.noteId ∈ s.namedNotes chainId seq)

/-- What `tombstone_locked` writes. -/
def suppress (s : ForeignStore) (chainId : String) (seq : ℤ) : ForeignStore :=
  let prompts := (s.prompts.select fun p => p.chainId = chainId && p.seq = seq).map ForeignPromptRow.id
  let notes := (s.notes.select (s.ofCapture chainId seq)).map ForeignNoteRow.rowid
  { s with
    markers := s.markers.upsert (chainId, seq)
    prompts := s.prompts.update (fun p => p.chainId = chainId && p.seq = seq && !p.tombstoned)
      fun p => { p with text := some tombstoneText, redaction := "stub", tombstoned := true }
    embeddings := s.embeddings.delete fun e =>
      (e.targetKind = "foreign_prompt" && e.targetId ∈ prompts) ||
        (e.targetKind = "foreign_note" && e.targetId ∈ notes)
    notes := s.notes.update (fun n => s.ofCapture chainId seq n && n.text ≠ "")
      fun n => { n with text := "" } }

/-- `tombstone_locked`. -/
def tombstone (s : ForeignStore) (chainId : String) (seq : ℤ) : Except String ForeignStore :=
  if !isCaptureId chainId seq then .error "invalid foreign capture identity"
  else .ok (s.suppress chainId seq)

/-- `foreign_capture_tombstoned_locked`. -/
def captureTombstoned (s : ForeignStore) (chainId : String) (seq : ℤ) : Bool :=
  (s.redactions.rows.any fun r =>
    r.chainId = r.targetChain && r.targetChain = chainId && r.targetSeq = seq) ||
    (s.markers.get? (chainId, seq)).isSome

/-- `foreign_note_tombstoned_locked`: the version, or an event that names the
note. -/
def noteTombstoned (s : ForeignStore) (chainId : String) (noteId seq : ℤ) : Bool :=
  s.captureTombstoned chainId seq ||
    s.events.rows.any fun r => r.chainId = chainId && r.event.kind = "note" &&
      r.event.refKind = some "none" && r.event.refId = some (i64ToString noteId) &&
      s.captureTombstoned chainId r.event.seq

/-! ### The import of a segment -/

/-- One event. -/
def importEvent (chainId : String) (s : ForeignStore) (e : LedgerEventRow) : ForeignStore :=
  { s with events := s.events.insertOrIgnore ⟨chainId, e⟩ }

/-- One prompt; a capture that was tombstoned here stays so. -/
def importPrompt (now : ℤ) (chainId : String) (s : ForeignStore) (p : ForeignPromptInput) :
    Except String ForeignStore :=
  let row (id : ℤ) : ForeignPromptRow :=
    ⟨id, chainId, p.seq, p.promptId, p.role, p.bodyHash, p.redaction, p.text, p.project, false, now⟩
  let s' := { s with prompts := s.prompts.insertOrIgnore row }
  if s'.captureTombstoned chainId p.seq then s'.tombstone chainId p.seq else .ok s'

/-- The rowid of a new note. -/
def nextNoteRowid (s : ForeignStore) : ℤ := (s.notes.rows.map ForeignNoteRow.rowid).foldl max 0 + 1

/-- The note row as it is inserted, or set over an older version. -/
def writeNote (s : ForeignStore) (row : ForeignNoteRow) : ForeignStore :=
  match s.notes.get? row.key with
  | none => { s with notes := s.notes.insertOrIgnore { row with rowid := s.nextNoteRowid } }
  | some old =>
    if old.seq.getD 0 < row.seq.getD 0 then
      { s with notes := s.notes.upsert { row with rowid := old.rowid } }
    else s

/-- One note: newer than the row here, it takes its place, without its text if
either version or the note was tombstoned. -/
def importNote (chainId : String) (s : ForeignStore) (n : ForeignNoteInput) :
    Except String ForeignStore :=
  match n.seq with
  | none => .error "foreign notes require a source ledger sequence"
  | some seq =>
    let oldSeq := (s.notes.get? (chainId, n.noteId)).bind ForeignNoteRow.seq
    let blocked := s.noteTombstoned chainId n.noteId seq || oldSeq.any (s.captureTombstoned chainId)
    let s' := s.writeNote ⟨0, chainId, n.noteId, some seq, n.targetKind, n.targetId,
      if blocked then "" else n.text, n.createdAt⟩
    if blocked then s'.tombstone chainId seq else .ok s'

/-- One principal card. -/
def importPrincipal (chainId : String) (s : ForeignStore) (card : PrincipalCard) : ForeignStore :=
  { s with foreignPrincipals := s.foreignPrincipals.insertOrIgnore ⟨chainId, card⟩ }

/-- One redaction: kept, and the capture it names tombstoned. -/
def importRedaction (now : ℤ) (chainId : String) (s : ForeignStore) (r : ForeignRedactionInput) :
    Except String ForeignStore :=
  if r.targetChain ≠ chainId then .error "a foreign chain may redact only its own captures"
  else
    let row := ⟨chainId, r.eventSeq, r.targetChain, r.targetSeq, now⟩
    tombstone { s with redactions := s.redactions.insertOrIgnore row } r.targetChain r.targetSeq

/-- The chain's row after an import. -/
def advanced (old : Option ForeignChain) (c : ForeignChain) : ForeignChain :=
  match old with
  | none => c
  | some old =>
    { old with
      humanId := c.humanId
      deviceName := c.deviceName.or old.deviceName
      displayName := c.displayName.or old.displayName
      headSeq := max old.headSeq c.headSeq
      headHash := if old.headSeq ≤ c.headSeq then c.headHash else old.headHash
      lastImportAt := c.lastImportAt }

/-- The chain's new head. -/
def importHead (s : ForeignStore) (c : ForeignChain) : ForeignStore :=
  { s with chains := s.chains.upsert (advanced (s.chains.get? c.chainId) c) }

/-- `import_foreign_segment`. -/
def importForeignSegment (s : ForeignStore) (now : ℤ) (c : ForeignChain)
    (events : List LedgerEventRow) (prompts : List ForeignPromptInput)
    (notes : List ForeignNoteInput) (principals : List PrincipalCard)
    (redactions : List ForeignRedactionInput) : Except String ForeignStore := do
  let s := events.foldl (importEvent c.chainId) s
  let s ← prompts.foldlM (importPrompt now c.chainId) s
  let s ← notes.foldlM (importNote c.chainId) s
  let s := principals.foldl (importPrincipal c.chainId) s
  let s ← redactions.foldlM (importRedaction now c.chainId) s
  return s.importHead c

/-! ### Chains -/

/-- `mark_foreign_forked`. -/
def markForeignForked (s : ForeignStore) (chainId detail : String) : ForeignStore :=
  { s with
    chains := s.chains.update (fun c => c.chainId = chainId)
      fun c => { c with forked := true, forkDetail := some detail } }

/-- `clear_foreign_fork`. -/
def clearForeignFork (s : ForeignStore) (chainId : String) : ForeignStore :=
  { s with
    chains := s.chains.update (fun c => c.chainId = chainId)
      fun c => { c with forked := false, forkDetail := none } }

/-- `forget_foreign_chain`: everything imported from the chain. The markers
stay. -/
def forgetForeignChain (s : ForeignStore) (chainId : String) : ForeignStore :=
  let prompts := (s.prompts.select fun p => p.chainId = chainId).map ForeignPromptRow.id
  let notes := (s.notes.select fun n => n.chainId = chainId).map ForeignNoteRow.rowid
  { s with
    embeddings := s.embeddings.delete fun e =>
      (e.targetKind = "foreign_prompt" && e.targetId ∈ prompts) ||
        (e.targetKind = "foreign_note" && e.targetId ∈ notes)
    prompts := s.prompts.delete fun p => p.chainId = chainId
    notes := s.notes.delete fun n => n.chainId = chainId
    events := s.events.delete fun r => r.chainId = chainId
    foreignPrincipals := s.foreignPrincipals.delete fun r => r.chainId = chainId
    redactions := s.redactions.delete fun r => r.chainId = chainId
    acks := s.acks.delete fun r => r.chainId = chainId
    chains := s.chains.delete fun c => c.chainId = chainId }

/-! ### Beside the rows -/

/-- `trust_set`: insert only. -/
def trustSet (s : ForeignStore) (e : TrustEntry) : ForeignStore :=
  { s with trust := s.trust.insertOrIgnore e }

/-- `store_foreign_embedding_raw`. -/
def storeForeignEmbeddingRaw (s : ForeignStore) (row : ForeignVectorRow) : ForeignStore :=
  { s with embeddings := s.embeddings.upsert row }

/-- `foreign_embedding_backlog`: the body is one to embed. -/
def toIndex (s : ForeignStore) (model : String) (p : ForeignPromptRow) : Bool :=
  !p.tombstoned && p.text.any (· ≠ "") && !s.embeddings.rows.any fun e =>
    e.targetKind = "foreign_prompt" && e.targetId = p.id && e.model = model &&
      e.sourceHash = p.bodyHash

/-- The index pass over one body of the backlog, with nothing between the
reading of its text and `store_embeddings`. -/
def indexForeign (s : ForeignStore) (now : ℤ) (model : String) (id : ℤ)
    (chunks : List VectorChunk) : ForeignStore :=
  match s.prompts.get? id with
  | none => s
  | some p =>
    if s.toIndex model p then
      { s with
        embeddings := chunks.foldl (fun t c => t.upsert ⟨"foreign_prompt", id, c.ix, model, c.charStart,
            c.charLen, c.vec.length, c.scale, c.vec, p.bodyHash, now⟩)
          (s.embeddings.delete fun e =>
            e.targetKind = "foreign_prompt" && e.targetId = id && e.model = model) }
    else s

/-- `set_foreign_ack`: monotone. -/
def setForeignAck (s : ForeignStore) (now : ℤ) (chainId : String) (ackedSeq : ℤ) : ForeignStore :=
  let acked := ((s.acks.get? chainId).map fun r => max r.ackedSeq ackedSeq).getD ackedSeq
  { s with acks := s.acks.upsert ⟨chainId, acked, now⟩ }

/-- `record_org_ack`: monotone. -/
def recordOrgAck (s : ForeignStore) (now : ℤ) (ackerChain chainId : String) (ackedSeq : ℤ) :
    ForeignStore :=
  let old := s.orgAcks.get? (ackerChain, chainId)
  let acked := (old.map fun r => max r.ackedSeq ackedSeq).getD ackedSeq
  { s with orgAcks := s.orgAcks.upsert ⟨ackerChain, chainId, acked, now⟩ }

/-- `import_foreign_tree`: the latest catalog of a peer replaces the one here. -/
def importForeignTree (s : ForeignStore) (now : ℤ) (chainId : String)
    (nodes : List PayloadClassNode) (links : List PayloadClassLink) : ForeignStore :=
  { s with
    classNodes := nodes.foldl (fun t n => t.upsert ⟨chainId, n, now⟩)
      (s.classNodes.delete fun r => r.chainId = chainId)
    classLinks := links.foldl (fun t l => t.insertOrIgnore ⟨chainId, l⟩)
      (s.classLinks.delete fun r => r.chainId = chainId) }

end ForeignStore

end PolisMemory
