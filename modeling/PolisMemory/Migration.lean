/-
# Attaching to a store

`attach` of `crates/polis-store/src/lib.rs` and what it runs: the statements of
`schema.rs`, `Lexical::ensure` of `lexical.rs`, `provenance`, the traces' and the
decisions' tables, and `verify`. Each statement is a transaction of its own, many
failures are ignored, and a version is stamped after what it stands for.

`SchemaDb` is the database as an attach sees it, `SchemaStmt.run` a statement, `attach`
the program of them.

Key definitions: `SchemaDb`, `SchemaStmt.run`, `attach`.
-/
import PolisMemory.Interruptions

namespace PolisMemory

open Interruptions

/-! ### The schema -/

inductive TableName
  | prompts | ledgerEvents | classNodes | classLinks | classProposals | classRuns | supersessions
  | userNotes | classObservations | planExports | browseEvents | sessionTree | promptArchive
  | embeddings | embeddingIndexState | classRunOps | classCentroids | principals | principalAliases
  | foreignChains | foreignPrincipals | foreignEvents | foreignPrompts | foreignNotes
  | foreignRedactions | foreignAcks | foreignTrust | foreignSubscriptions | foreignClassNodes
  | foreignClassLinks | orgAcks | claimRecords | claims | claimSources | backgroundJobs
  | forgottenSources | forgottenCaptures | redactionOutbox | noteEvents | captureRedactionOutbox
  | modelUsage
  | promptsFts | browseEventsFts | classNodesFts | promptsGrep | browseGrep | foreignPromptsFts
  | polisMeta | polisTraces | decisionEvidence
  deriving DecidableEq, Repr

inductive TriggerName
  | promptsFtsAi | promptsFtsAd | promptsFtsAu | browseEventsAi | browseEventsAd | browseEventsAu
  | classNodesFtsAi | classNodesFtsAd | classNodesFtsAu | promptsGrepAi | promptsGrepAd
  | promptsGrepAu | browseGrepAi
  | foreignPromptsFtsAi | foreignPromptsFtsAd | foreignPromptsFtsAu
  | embeddingsRevisionInsert | embeddingsRevisionUpdate | embeddingsRevisionDelete
  deriving DecidableEq, Repr

/-- The columns added to `prompts` that a later statement names. -/
inductive ColumnName
  | gist | compactedAt | userText | principalId | deviceId | agentId | runId | orgId
  | ftsText | ftsHead | ftsTail
  deriving DecidableEq, Repr

/-- What a statement makes; of the indexes only `idx_prompts_dedup`. -/
inductive SchemaObject
  | table (t : TableName)
  | trigger (t : TriggerName)
  | column (c : ColumnName)
  | promptsDedup
  deriving DecidableEq, Repr

open SchemaObject

/-- `MEMORY_TABLES` -/
def memoryTables : List TableName :=
  [.prompts, .ledgerEvents, .classNodes, .classLinks, .classProposals, .classRuns, .supersessions,
    .userNotes, .classObservations, .planExports, .browseEvents, .sessionTree, .promptArchive,
    .embeddings, .embeddingIndexState, .classRunOps, .classCentroids, .principals,
    .principalAliases, .foreignChains, .foreignPrincipals, .foreignEvents, .foreignPrompts,
    .foreignNotes, .foreignRedactions, .foreignAcks, .foreignTrust, .foreignSubscriptions,
    .foreignClassNodes, .foreignClassLinks, .orgAcks, .claimRecords, .claims, .claimSources,
    .backgroundJobs, .forgottenSources, .forgottenCaptures, .redactionOutbox, .noteEvents,
    .captureRedactionOutbox, .modelUsage]

/-- The full-text tables of the version gate. -/
def versionedTables : List TableName :=
  [.promptsFts, .browseEventsFts, .classNodesFts, .promptsGrep, .browseGrep]

/-- `LEXICAL_TABLES` -/
def lexicalTables : List TableName := versionedTables ++ [.foreignPromptsFts]

/-- The triggers of the version gate. -/
def versionedTriggers : List TriggerName :=
  [.promptsFtsAi, .promptsFtsAd, .promptsFtsAu, .browseEventsAi, .browseEventsAd, .browseEventsAu,
    .classNodesFtsAi, .classNodesFtsAd, .classNodesFtsAu, .promptsGrepAi, .promptsGrepAd,
    .promptsGrepAu, .browseGrepAi]

/-- The other triggers. -/
def plainTriggers : List TriggerName :=
  [.foreignPromptsFtsAi, .foreignPromptsFtsAd, .foreignPromptsFtsAu, .embeddingsRevisionInsert,
    .embeddingsRevisionUpdate, .embeddingsRevisionDelete]

/-- What a full-text table indexes. -/
def contentOf : TableName → TableName
  | .browseEventsFts | .browseGrep => .browseEvents
  | .classNodesFts => .classNodes
  | .foreignPromptsFts => .foreignPrompts
  | _ => .prompts

/-- What an object is as: as this version makes it, or as an earlier one did. -/
inductive Definition
  | earlier
  | current
  deriving DecidableEq, Repr

/-- The database, as an attach sees it. -/
structure SchemaDb where
  defs : SchemaObject → Option Definition
  /-- A full-text table has what its content has. -/
  agrees : TableName → Bool
  /-- `schema_version` -/
  schema : Option String
  /-- `lexical_version` -/
  lexical : Option String
  /-- `corpus_role_version` -/
  corpusRole : Option String
  /-- What the host's settings have for the last two. -/
  legacyLexical : Option String
  legacyCorpusRole : Option String
  hasRows : TableName → Bool
  /-- Two prompts have the same `body_hash` and `claude_session_id`. -/
  twins : Bool

/-- `STORE_SCHEMA_VERSION` -/
def storeSchemaVersion : String := "10"

/-- `LEXICAL_VERSION` -/
def lexicalVersion : String := "2"

/-- `CORPUS_ROLE_VERSION` -/
def corpusRoleVersion : String := "1"

/-- A database with nothing in it. -/
def SchemaDb.empty : SchemaDb where
  defs _ := none
  agrees _ := false
  schema := none
  lexical := none
  corpusRole := none
  legacyLexical := none
  legacyCorpusRole := none
  hasRows _ := false
  twins := false

/-! ### The statements -/

/-- The keys of `polis_meta`. -/
inductive MetaKey
  | schema
  | lexical
  | corpusRole
  deriving DecidableEq, Repr

/-- A statement, with what it names. -/
inductive SchemaStmt
  /-- `CREATE … IF NOT EXISTS` -/
  | create (o : SchemaObject) (needs : List SchemaObject)
  /-- `CREATE` or `ALTER TABLE prompts ADD COLUMN`: fails if it is there. -/
  | createNew (o : SchemaObject) (needs : List SchemaObject)
  /-- `CREATE UNIQUE INDEX IF NOT EXISTS idx_prompts_dedup` -/
  | createUnique
  /-- `DROP … IF EXISTS` -/
  | drop (o : SchemaObject)
  /-- `'rebuild'` -/
  | rebuild (t : TableName) (needs : List SchemaObject)
  /-- Writes rows, or makes an index or a column that no statement names. -/
  | rows (needs : List SchemaObject)
  | read (k : MetaKey)
  | stamp (k : MetaKey)
  /-- Copies the host's version, unless there is one. -/
  | adopt (k : MetaKey)
  | verify
  deriving DecidableEq, Repr

namespace SchemaDb

/-- It is made. -/
def add (db : SchemaDb) (o : SchemaObject) : SchemaDb :=
  { db with
    defs := Function.update db.defs o (some .current)
    agrees := fun t => if o = table t then !db.hasRows (contentOf t) else db.agrees t }

/-- What a statement names is there. -/
def hasAll (db : SchemaDb) (needs : List SchemaObject) : Bool := needs.all fun o => (db.defs o).isSome

end SchemaDb

/-- The database after the statement, or none if it fails. -/
def SchemaStmt.run (s : SchemaStmt) (db : SchemaDb) : Option SchemaDb :=
  match s with
  | .create o needs =>
    if !db.hasAll needs then none else if (db.defs o).isSome then some db else some (db.add o)
  | .createNew o needs =>
    if !db.hasAll needs || (db.defs o).isSome then none else some (db.add o)
  | .createUnique =>
    if (db.defs promptsDedup).isSome then some db
    else if db.twins then none else some (db.add promptsDedup)
  | .drop o => some { db with defs := Function.update db.defs o none }
  | .rebuild t needs =>
    if (db.defs (table t)).isNone || !db.hasAll needs then none
    else some { db with agrees := Function.update db.agrees t true }
  | .rows needs => if db.hasAll needs then some db else none
  | .read _ => some db
  | .stamp .schema => some { db with schema := some storeSchemaVersion }
  | .stamp .lexical => some { db with lexical := some lexicalVersion }
  | .stamp .corpusRole => some { db with corpusRole := some corpusRoleVersion }
  | .adopt .schema => some db
  | .adopt .lexical => some { db with lexical := db.lexical.or db.legacyLexical }
  | .adopt .corpusRole => some { db with corpusRole := db.corpusRole.or db.legacyCorpusRole }
  | .verify => if db.hasAll ((memoryTables ++ lexicalTables).map table) then some db else none

/-! ### The program -/

/-- What an attach asks before it goes on. -/
inductive AttachCond
  | schemaStamped
  | current
  | lexicalBuilt
  | corpusDone
  deriving DecidableEq, Repr

def AttachCond.holds (c : AttachCond) (db : SchemaDb) : Bool :=
  match c with
  | .schemaStamped => db.schema.isSome
  | .current =>
    db.schema = some storeSchemaVersion && db.lexical = some lexicalVersion &&
      db.corpusRole = some corpusRoleVersion
  | .lexicalBuilt => db.lexical = some lexicalVersion
  | .corpusDone => db.corpusRole = some corpusRoleVersion

/-- An instruction, with its question. -/
inductive AttachPart
  | batch (ignored : Bool) (stmts : List SchemaStmt)
  | skipIf (ignored : Bool) (k : MetaKey) (c : AttachCond) (n : ℕ)

def AttachPart.instr : AttachPart → Instr SchemaDb SchemaStmt
  | .batch ignored stmts => .batch ignored stmts
  | .skipIf ignored k c n => .skipIf ignored (.read k) c.holds n

/-- A batch whose failure is the caller's, `?`. -/
def must (stmts : List SchemaStmt) : AttachPart := .batch false stmts

/-- A statement whose failure is ignored, `let _ =`. -/
def best (s : SchemaStmt) : AttachPart := .batch true [s]

/-- `ALTER TABLE prompts ADD COLUMN` -/
def addColumn (c : ColumnName) (needs : List ColumnName) : AttachPart :=
  best (.createNew (column c) (table .prompts :: needs.map column))

/-- As many ignored statements on a table, which no other names. -/
def others (n : ℕ) (t : TableName) : List AttachPart := List.replicate n (best (.rows [table t]))

/-- `CREATE TABLE IF NOT EXISTS` -/
def createTable (t : TableName) : SchemaStmt := .create (table t) []

/-- `CREATE INDEX IF NOT EXISTS` -/
def createIndex (t : TableName) : SchemaStmt := .rows [table t]

/-- `Migration::tables` -/
def tablesParts : List AttachPart :=
  [must [createTable .prompts, .createUnique,
    createTable .ledgerEvents, createIndex .ledgerEvents, createIndex .ledgerEvents,
    createTable .classNodes, createIndex .classNodes, createIndex .classNodes,
    createTable .classLinks, createIndex .classLinks, createIndex .classLinks,
    createTable .classProposals, createIndex .classProposals,
    createTable .classRuns,
    createTable .supersessions, createIndex .supersessions,
    createTable .userNotes, createIndex .userNotes, createIndex .userNotes,
    createTable .classObservations, createIndex .classObservations,
    createTable .planExports, createIndex .planExports,
    createTable .browseEvents, createIndex .browseEvents, createIndex .browseEvents,
    createTable .sessionTree, createIndex .sessionTree, createIndex .sessionTree,
    createIndex .classLinks, createIndex .ledgerEvents, createIndex .ledgerEvents,
    createIndex .ledgerEvents, createIndex .userNotes, createIndex .supersessions]]

/-- The corpus-role backfill. -/
def corpusRoleParts : List AttachPart :=
  [.skipIf true .corpusRole .corpusDone 2, best (.rows [table .prompts]), best (.stamp .corpusRole)]

/-- The scope columns and their indexes. -/
def scopeParts : List AttachPart :=
  [addColumn .principalId [], addColumn .deviceId [], addColumn .agentId [], addColumn .runId [],
    addColumn .orgId []] ++ others 2 .prompts ++ others 7 .browseEvents ++ others 7 .userNotes ++
    others 7 .classNodes ++ others 7 .classObservations ++
    others 1 .prompts ++ others 1 .classNodes ++ others 1 .browseEvents ++ others 1 .userNotes ++
    others 1 .classObservations

/-- The `foreign_*` tables, and the index of their bodies. -/
def sharingParts : List AttachPart :=
  [must [createTable .foreignChains, createTable .foreignPrincipals, createTable .foreignEvents,
    createTable .foreignPrompts, createTable .foreignNotes, createTable .foreignRedactions,
    createTable .foreignAcks, createTable .foreignTrust, createTable .foreignSubscriptions,
    createIndex .foreignPrompts,
    .create (table .foreignPromptsFts) [],
    .create (trigger .foreignPromptsFtsAi) [table .foreignPrompts],
    .create (trigger .foreignPromptsFtsAd) [table .foreignPrompts],
    .create (trigger .foreignPromptsFtsAu) [table .foreignPrompts]]]

/-- `idx_prompts_dedup`, dropped and made over the scope columns too. -/
def dedupParts : List AttachPart :=
  [must [.drop promptsDedup,
    .createNew promptsDedup [table .prompts, column .principalId, column .deviceId, column .agentId,
      column .runId, column .orgId]]]

/-- The claims, the jobs and what is forgotten. -/
def claimParts : List AttachPart :=
  [must [createTable .claimRecords, createTable .claims, createIndex .claims, createIndex .claims,
      createTable .claimSources, createIndex .claimSources,
      createTable .backgroundJobs, createIndex .backgroundJobs,
      createTable .forgottenCaptures, createTable .forgottenSources, createTable .redactionOutbox,
      createTable .noteEvents, createIndex .noteEvents,
      createTable .captureRedactionOutbox, createTable .modelUsage],
    must [.rows [table .forgottenSources, table .prompts, column .gist, column .compactedAt],
      .rows [table .redactionOutbox, table .forgottenSources]],
    must [.rows [table .noteEvents, table .userNotes, table .ledgerEvents]],
    best (.rows [table .classRuns])]

/-- `Migration::additive` -/
def additiveParts : List AttachPart :=
  [addColumn .gist [], addColumn .compactedAt []] ++ others 1 .prompts ++
  [best (.rows [table .prompts, column .gist, column .compactedAt])] ++
  [addColumn .userText []] ++ others 1 .prompts ++ corpusRoleParts ++ others 8 .prompts ++
  [best (createTable .promptArchive)] ++ others 3 .browseEvents ++ others 8 .classRuns ++
  others 2 .classNodes ++ others 1 .classLinks ++ others 1 .classObservations ++
  others 1 .classNodes ++ others 1 .classLinks ++ others 7 .classRuns ++
  [best (createTable .classRunOps),
    must [createTable .principals, createIndex .principals, createTable .principalAliases]] ++
  scopeParts ++ sharingParts ++ [best (createTable .classCentroids)] ++ others 5 .classProposals ++
  others 1 .classNodes ++ others 1 .classLinks ++ others 2 .classObservations ++
  others 1 .classNodes ++ others 1 .classLinks ++ others 1 .polisMeta ++
  [.batch true [createTable .foreignClassNodes, createTable .foreignClassLinks, createTable .orgAcks]] ++
  others 1 .browseEvents ++ others 1 .userNotes ++ others 1 .classObservations ++ dedupParts ++
  claimParts

/-- `Migration::embeddings` -/
def embeddingsParts : List AttachPart :=
  [.batch true [createTable .embeddings, createIndex .embeddings, createIndex .embeddings],
    must [createTable .embeddingIndexState, .rows [table .embeddingIndexState],
      .create (trigger .embeddingsRevisionInsert) [table .embeddings],
      .create (trigger .embeddingsRevisionUpdate) [table .embeddings],
      .create (trigger .embeddingsRevisionDelete) [table .embeddings]]]

/-- The drops of the version gate. -/
def lexicalDrops : List SchemaStmt :=
  [.drop (trigger .promptsFtsAi), .drop (trigger .promptsFtsAd), .drop (trigger .promptsFtsAu),
    .drop (table .promptsFts),
    .drop (trigger .browseEventsAi), .drop (trigger .browseEventsAd),
    .drop (trigger .browseEventsAu), .drop (table .browseEventsFts),
    .drop (trigger .classNodesFtsAi), .drop (trigger .classNodesFtsAd),
    .drop (trigger .classNodesFtsAu), .drop (table .classNodesFts),
    .drop (trigger .promptsGrepAi), .drop (trigger .promptsGrepAd), .drop (trigger .promptsGrepAu),
    .drop (table .promptsGrep),
    .drop (trigger .browseGrepAi), .drop (table .browseGrep)]

/-- What it makes. -/
def lexicalCreates : List SchemaStmt :=
  [.createNew (table .promptsFts) [],
    .createNew (trigger .promptsFtsAi) [table .prompts],
    .createNew (trigger .promptsFtsAd) [table .prompts],
    .createNew (trigger .promptsFtsAu) [table .prompts],
    .createNew (table .browseEventsFts) [],
    .createNew (trigger .browseEventsAi) [table .browseEvents],
    .createNew (trigger .browseEventsAd) [table .browseEvents],
    .createNew (trigger .browseEventsAu) [table .browseEvents],
    .createNew (table .classNodesFts) [],
    .createNew (trigger .classNodesFtsAi) [table .classNodes],
    .createNew (trigger .classNodesFtsAd) [table .classNodes],
    .createNew (trigger .classNodesFtsAu) [table .classNodes],
    .createNew (table .promptsGrep) [],
    .createNew (trigger .promptsGrepAi) [table .prompts],
    .createNew (trigger .promptsGrepAd) [table .prompts],
    .createNew (trigger .promptsGrepAu) [table .prompts],
    .createNew (table .browseGrep) [],
    .createNew (trigger .browseGrepAi) [table .browseEvents]]

/-- `Lexical::ensure` -/
def lexicalParts : List AttachPart :=
  [addColumn .ftsText [.userText, .gist], addColumn .ftsHead [.ftsText], addColumn .ftsTail [.ftsText],
    .skipIf true .lexical .lexicalBuilt 8,
    .batch true lexicalDrops, .batch true lexicalCreates,
    best (.rebuild .promptsFts [column .ftsHead, column .ftsTail]),
    best (.rebuild .browseEventsFts []), best (.rebuild .classNodesFts []),
    best (.rebuild .promptsGrep [column .ftsText]), best (.rebuild .browseGrep []),
    best (.stamp .lexical)]

/-- `migrate_on` -/
def migrateParts : List AttachPart :=
  tablesParts ++ additiveParts ++ embeddingsParts ++ lexicalParts ++
  others 5 .prompts ++ others 1 .browseEvents ++
  [must [createTable .polisTraces, createIndex .polisTraces],
    must [createTable .decisionEvidence, createIndex .decisionEvidence,
      .rows [table .decisionEvidence, table .ledgerEvents, table .prompts]],
    must [.stamp .schema]]

/-- `attach`, from the table of the versions on. -/
def attachParts : List AttachPart :=
  [must [createTable .polisMeta], .skipIf false .schema .schemaStamped 1,
    must [.adopt .lexical, .adopt .corpusRole], .skipIf false .schema .current migrateParts.length] ++
  migrateParts ++ [must [.verify]]

def attach : List (Instr SchemaDb SchemaStmt) := attachParts.map AttachPart.instr

end PolisMemory
