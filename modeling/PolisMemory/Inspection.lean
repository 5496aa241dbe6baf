/-
# Reading the lake by continuations

`list_lake_items_since_scoped` of `crates/polis-store/src/catalog.rs` with the
scope of `principals.rs`, and the continuations of `search_request` in
`crates/polis-memory/src/retrieval.rs`: a cursor names the ledger's head, the
query and a seq; its page is the next items of the scope behind that seq, cut
to the byte budget, and the cursor it returns is behind the last item that was
left.

What `assemble_pack` answers to a request without a cursor is a parameter.
Serving a page also records its latency, its warmth and its trace, none of
which a page reads.

Key definitions: `Lake`, `Lake.listLakeItemsSince`, `Lake.inspectPage`,
`Lake.searchRequest`, `Lake.follow`.
-/
import Mathlib
import PolisMemory.Capture
import PolisMemory.Coldness
import PolisMemory.Notes
import PolisMemory.Packs

namespace PolisMemory

open Tables JsonText

/-! ### The lake -/

/-- The columns of `prompts` that only the readers of the lake read. -/
structure PromptColumns where
  surface : Option String
  origin : Option String
  missionId : Option String
  threadKind : Option String
  threadId : Option String
  parentSessionId : Option String
  model : Option String
  deriving DecidableEq, Repr

/-- The columns a scope is matched with. -/
structure ScopeColumns where
  principalId : Option String
  deviceId : Option String
  agentId : Option String
  runId : Option String
  orgId : Option String
  projectPath : Option String
  deriving DecidableEq, Repr

/-- A row of `browse_events`, in full. -/
structure PageRow extends BrowseEventRow where
  scope : ScopeColumns
  deriving DecidableEq, Repr

/-- `id` of the row. -/
abbrev PageRow.key (be : PageRow) : ℤ := be.id

/-- What the readers of the lake read; the seqs of a ledger start at 1. -/
structure Lake extends NoteStore where
  /-- By the ids of the prompts. -/
  promptColumns : ℤ → PromptColumns
  browseEvents : Table PageRow.key
  fromOne : ∀ e ∈ base.ledger.rows, 1 ≤ e.seq

/-- `is_empty` -/
def ScopeFilter.isEmpty (f : ScopeFilter) : Bool :=
  f.project.isNone && f.roles.isEmpty && f.after.isNone && f.before.isNone && f.principal.isNone &&
    f.agent.isNone && f.run.isNone && f.org.isNone

/-- The events that never are items. -/
def machineKinds : List String := ["router_verdict", "moot_turn", "work_file", "work_claim", "work_close"]

/-- A body as the lists of items show it. -/
def clipBody (body : String) : String :=
  if 4000 < body.toList.length then String.ofList (body.toList.take 4000 ++ ['…']) else body

namespace Lake

variable (lake : Lake)

/-- The identities and the project of `scope_clause_locked`. -/
def admits (f : ScopeFilter) (c : ScopeColumns) : Bool :=
  ((asked f.principal).all fun name =>
    let ids := lake.principalIdSet (trim name)
    c.principalId.any (· ∈ ids) || c.deviceId.any (· ∈ ids) || c.agentId.any (· ∈ ids)) &&
  ((asked f.agent).all fun a => c.agentId = some ((lake.resolveAuthor (trim a)).getD (trim a))) &&
  ((asked f.run).all fun r => c.runId = some (trim r)) &&
  ((asked f.org).all fun o => c.orgId = some (trim o)) &&
  (asked f.project).all fun project => c.projectPath = some (trim project)

/-- `scope_clause_locked` on a row of `prompts`. -/
def admitsPrompt (f : ScopeFilter) (p : PromptRow) : Bool :=
  lake.admits f ⟨p.principalId, p.deviceId, p.agentId, p.runId, p.orgId, p.projectPath⟩ &&
    (f.roles = [] || p.role.getD "user" ∈ f.roles) &&
    (f.after.all fun ts => ts ≤ p.ts) && f.before.all fun ts => p.ts < ts

/-- `scope_clause_locked` on a row of `browse_events`. -/
def admitsPage (f : ScopeFilter) (be : PageRow) : Bool :=
  lake.admits f be.scope && (f.after.all fun ts => ts ≤ be.ts) && f.before.all fun ts => be.ts < ts

/-- The prompt of an event. -/
def promptOf (e : LedgerEventRow) : Option PromptRow := e.promptId.bind lake.base.prompts.get?

/-- The page of an event. -/
def pageOf (e : LedgerEventRow) : Option PageRow :=
  if e.refKind = some "browse_event" then lake.browseEvents.rows.find? fun be => e.refId = some (toString be.id)
  else none

/-- The current note of a note's event. -/
def noteOf (e : LedgerEventRow) : Option UserNoteRow :=
  if e.kind = "note" then
    lake.userNotes.rows.find? fun n =>
      if e.refKind = some "none" then e.refId.map castInteger = some n.id
      else e.refKind = some n.targetKind && e.refId.isSome && e.refId = n.targetId
  else none

/-- The prompt a decision cites. -/
def cited (e : LedgerEventRow) : Option PromptRow := do
  let d ← lake.base.decisionEvidence.get? e.seq
  let src ← lake.base.event? d.sourceSeq
  lake.promptOf src

/-- A note that a version of its history makes the scope of an event. -/
def noteOfVersion (e : LedgerEventRow) (n : UserNoteRow) : Bool :=
  n.seq = some e.seq || (lake.noteEvents.get? e.seq).any fun ne =>
    ne.payloadHash = e.payloadHash && ne.noteId = n.id &&
      NoteStore.refersTo n.toUserNote e = some true

/-- `ledger_scope_clause_locked` -/
def eligible (f : ScopeFilter) (e : LedgerEventRow) : Bool :=
  f.isEmpty || (lake.promptOf e).any (lake.admitsPrompt f) || (lake.pageOf e).any (lake.admitsPage f) ||
    (lake.userNotes.rows.any fun n => lake.noteOfVersion e n && lake.scopeMatches f n) ||
    (lake.cited e).any (lake.admitsPrompt f)

/-- An agent's own text is no item unless the scope asks for the role. -/
def roleGuard (f : ScopeFilter) (e : LedgerEventRow) : Bool :=
  "agent" ∈ f.roles || ((lake.promptOf e).bind PromptRow.role).getD "user" ≠ "agent"

/-- The item of an event. -/
def item (e : LedgerEventRow) : LakeItem :=
  let p := lake.promptOf e
  let cols := p.map fun p => lake.promptColumns p.id
  let body := (((p.map PromptRow.body).filter (· ≠ "")).or (p.bind PromptRow.gist)).or
    (((lake.pageOf e).map fun be => be.text).or ((lake.noteOf e).map fun n => n.text))
  { seq := e.seq
    ts := e.ts
    kind := e.kind
    surface := (cols.bind PromptColumns.surface).or
      ((if e.refKind = some "browse_event" then some "browse_event" else none).or
        (if e.kind = "note" then some "note" else none))
    origin := cols.bind PromptColumns.origin
    role := p.bind PromptRow.role
    sessionId := e.sessionId
    missionId := cols.bind PromptColumns.missionId
    projectPath := p.bind PromptRow.projectPath
    refKind := e.refKind
    refId := e.refId
    body := body.map clipBody
    threadKind := cols.bind PromptColumns.threadKind
    threadId := cols.bind PromptColumns.threadId
    parentSessionId := cols.bind PromptColumns.parentSessionId
    model := cols.bind PromptColumns.model }

/-- An event is an item of the scope. -/
def isItem (f : ScopeFilter) (e : LedgerEventRow) : Bool :=
  e.kind ∉ machineKinds && lake.roleGuard f e && lake.eligible f e

/-- The items of a scope, in the order of their seqs. -/
def items (f : ScopeFilter) : List LakeItem := (lake.base.ledger.rows.filter (lake.isItem f)).map lake.item

/-- `list_lake_items_since_scoped` -/
def listLakeItemsSince (since : ℤ) (limit : ℕ) (f : ScopeFilter) : List LakeItem :=
  ((lake.base.ledger.rows.filter fun e => since < e.seq && lake.isItem f e).take limit).map lake.item

/-- `snapshot_head` -/
def snapshotHead : ℤ × String :=
  (lake.base.ledger.rows.getLast?.map fun e => (e.seq, e.entryHash)).getD (0, "")

end Lake

/-! ### Requests -/

structure SearchRequest where
  q : Option String
  node : Option String
  limit : Option ℤ
  filter : EvidenceFilter
  candidateLimit : Option ℕ
  maxTokens : Option ℕ
  /-- The JSON of the text that it is. -/
  cursor : Option Value
  traceId : Option String

/-- Why a request is refused. -/
structure Rejected where
  reason : String
  deriving DecidableEq, Repr

/-- The hash and the debug text of a request's query. -/
structure SearchHost extends Host where
  /-- `{:?}|{:?}|{:?}|{:?}` -/
  debug : Option String → Option String → EvidenceFilter → ScopeFilter → String

/-- What differs between two calls: the clock and the counter of the process. -/
structure SearchCall where
  startedAt : ℤ
  next : ℕ
  deriving DecidableEq, Repr

/-- `MAX_CONTEXT_BYTES` -/
def maxContextBytes : ℕ := 60000

/-- `clamp_answer_pack_limit` -/
def clampAnswerPackLimit (raw : Option ℤ) : ℕ := (max 1 (min (raw.getD 20) 60)).toNat

namespace SearchRequest

variable (req : SearchRequest)

def limitOf : ℕ := clampAnswerPackLimit req.limit

/-- The byte budget. -/
def maxBytes : ℕ := min (req.maxTokens.getD maxContextBytes) maxContextBytes

/-- The roles of the filter; an unknown one is refused. -/
def roles : Except Rejected (List String) :=
  req.filter.roles.mapM fun r =>
    match parseCorpusRole r with
    | some role => .ok role
    | none => .error ⟨s!"unknown role `{r}`"⟩

/-- The scope of a request, or why it is refused. -/
def resolve (scope : ScopeFilter) : Except Rejected ScopeFilter := do
  let roles ← req.roles
  let f := { scope with roles := roles, after := req.filter.after, before := req.filter.before }
  if (req.q.any fun q => 16384 < q.utf8ByteSize) = true then .error ⟨"query exceeds 16 KiB"⟩
  else if (req.cursor.any fun c => 2048 < c.size) = true then .error ⟨"cursor exceeds 2048 bytes"⟩
  else if (req.traceId.any fun id => 128 < id.utf8ByteSize) = true then
    .error ⟨"traceId exceeds 128 bytes"⟩
  else if (f.after.any fun a => f.before.any fun b => b ≤ a) = true then
    .error ⟨"after must precede before"⟩
  else if req.maxBytes < 1024 then
    .error ⟨"search maxTokens must be at least 1024; use context for smaller budgets"⟩
  else .ok f

/-- The trace id of a call. -/
def traceOf (call : SearchCall) : String :=
  req.traceId.getD "retrieval" ++ "-" ++ toString call.startedAt ++ "-" ++ toString call.next

/-- `inspection_key` -/
def inspectionKey (h : SearchHost) (f : ScopeFilter) : String :=
  h.sha256 (h.debug req.q req.node req.filter f)

/-- `inspection_cursor` on the hash of a pack. -/
def inspectionCursor (h : SearchHost) (f : ScopeFilter) (hash : String) (after : ℤ) : Value :=
  .obj [("after", .int after), ("head", .str hash), ("mode", .str "inspection"),
    ("query", .str (req.inspectionKey h f))]

end SearchRequest

/-! ### Pages -/

/-- The evidence of a pack, counted. -/
def AnswerPack.evidenceCount (p : AnswerPack) : ℕ :=
  p.claims.length + p.promptHits.length + p.browseHits.length + p.notes.length + p.grepHits.length +
    p.sharedHits.length + (p.node.map fun n => n.links.length + n.observations.length).getD 0

namespace Lake

variable (h : SearchHost) (lake : Lake)

/-- The hit of an item. -/
def pageHit (it : LakeItem) : PackPromptHit :=
  ⟨it, (lake.base.supersessions.get? it.seq).map SupersessionRow.newSeq, [], "inspection", []⟩

/-- The report of a page over `rows`, which is followed by another one if there
are more of them than the limit. -/
def pageReport (req : SearchRequest) (f : ScopeFilter) (after : ℤ) (rows : List LakeItem) :
    RetrievalReport where
  version := "inspection-v1"
  candidateLimit := req.limitOf
  candidatesConsidered := rows.length
  candidatesReturned := 0
  snapshotHash := lake.snapshotHead.2
  continuation :=
    if req.limitOf < rows.length then
      some (req.inspectionCursor h f lake.snapshotHead.2
        (((rows.take req.limitOf).getLast?.map LakeItem.seq).getD after))
    else none
  traceId := none
  errors := []
  timingsUs := []
  index := ⟨none, 0, 0, 0⟩

/-- The page over `rows`. -/
def pageOver (req : SearchRequest) (f : ScopeFilter) (after : ℤ) (rows : List LakeItem) : AnswerPack where
  headSeq := lake.snapshotHead.1
  query := req.q
  node := none
  matchedNodes := []
  notes := []
  promptHits := (rows.take req.limitOf).map lake.pageHit
  browseHits := []
  grepHits := []
  armCoverage := []
  truncated := []
  sharedHits := []
  retrieval := lake.pageReport h req f after rows
  claims := []

/-- `inspect_page` -/
def inspectPage (req : SearchRequest) (f : ScopeFilter) (cursor : Value) : Except Rejected AnswerPack :=
  if (cursor.get "mode").bind Value.asStr ≠ some "inspection" ∨
      (cursor.get "head").bind Value.asStr ≠ some lake.snapshotHead.2 ∨
      (cursor.get "query").bind Value.asStr ≠ some (req.inspectionKey h f) then
    .error ⟨"cursor does not match this query, scope, or evidence snapshot"⟩
  else
    match ((cursor.get "after").bind Value.asInt).filter fun n => 0 ≤ n with
    | none => .error ⟨"invalid inspection position"⟩
    | some after => .ok (lake.pageOver h req f after (lake.listLakeItemsSince after (req.limitOf + 1) f))

/-- The continuation of a pack before the budget: a first page that left
something out is continued from the start. -/
def continued (req : SearchRequest) (f : ScopeFilter) (p : AnswerPack) : Option Value :=
  let pool := max req.limitOf (min (req.candidateLimit.getD 200) 200)
  if req.cursor.isNone ∧ (p.truncated ≠ [] ∨ pool ≤ p.retrieval.candidatesConsidered) then
    some (req.inspectionCursor h f p.retrieval.snapshotHash 0)
  else p.retrieval.continuation

/-- The pack with its trace id and its continuation. -/
def traced (req : SearchRequest) (f : ScopeFilter) (call : SearchCall) (p : AnswerPack) : AnswerPack :=
  { p with retrieval := { p.retrieval with
      traceId := some (req.traceOf call)
      continuation := continued h req f p } }

/-- The pack with its count, and behind its last item if it is continued. -/
def answered (req : SearchRequest) (f : ScopeFilter) (p : AnswerPack) : AnswerPack :=
  { p with retrieval := { p.retrieval with
      candidatesReturned := p.evidenceCount
      continuation :=
        if req.cursor.isSome ∧ p.retrieval.continuation.isSome then
          (p.promptHits.getLast?.map fun hit =>
            req.inspectionCursor h f p.retrieval.snapshotHash hit.item.seq).or p.retrieval.continuation
        else p.retrieval.continuation } }

/-- `search_request`; `assembled` is what `assemble_pack` answers. -/
def searchRequest (req : SearchRequest) (scope : ScopeFilter) (call : SearchCall)
    (assembled : Except Rejected AnswerPack) : Except Rejected AnswerPack := do
  let f ← req.resolve scope
  let p ← match req.cursor with
    | some cursor => lake.inspectPage h req f cursor
    | none => assembled
  let p := answered h req f ((traced h req f call p).enforceBudget req.maxBytes)
  if req.maxBytes < p.size then .error ⟨"response metadata exceeds requested budget"⟩ else .ok p

/-- The page of a cursor. -/
def page (req : SearchRequest) (scope : ScopeFilter) (call : SearchCall) (cursor : Value) :
    Except Rejected AnswerPack :=
  lake.searchRequest h { req with cursor := some cursor } scope call (.error ⟨""⟩)

/-- Following the continuations from a cursor, up to `n` pages, the calls
numbered from `i`: the hits, and the cursor that is left. -/
def follow (req : SearchRequest) (scope : ScopeFilter) (calls : ℕ → SearchCall) :
    ℕ → ℕ → Value → Except Rejected (List PackPromptHit × Option Value)
  | 0, _, cursor => .ok ([], some cursor)
  | n + 1, i, cursor =>
    match lake.page h req scope (calls i) cursor with
    | .error e => .error e
    | .ok p =>
      match p.retrieval.continuation with
      | none => .ok (p.promptHits, none)
      | some next => (follow req scope calls n (i + 1) next).map fun out => (p.promptHits ++ out.1, out.2)

end Lake

end PolisMemory
