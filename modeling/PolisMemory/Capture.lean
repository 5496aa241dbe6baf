/-
# Capturing prompts, pages and session links

`crates/polis-store/src/record.rs`: how a row comes into being with its event
on the chain. A prompt and its event are one transaction
(`record_prompt_at_scoped`); a page is inserted by a statement of its own and
its event appended afterwards (`record_browse_event_at`), and so is a session
link, its event recorded as a decision (`record_session_link`). A row that is
there already is not captured again: the same prompt under the same session
and scope, the page a tab shows already, a child that has a parent.

Key definitions: `CaptureStore`, `recordPromptAtScoped`, `recordBrowseEventAt`,
`recordSessionLink`, `Evented`.
-/
import PolisMemory.Adopt
import PolisMemory.Appends
import PolisMemory.Claims
import PolisMemory.Recording

namespace PolisMemory

open Sqlite Sqlite.Prog Tables Attempt

variable (sha256 : String → String)

/-! ### The rows -/

/-- Which mechanism captured a prompt. -/
inductive PromptSource where
  | hook
  | drafterLaunch
  | rustFirstTurn
  | voiceStream
  | api
  deriving DecidableEq, Repr

def PromptSource.asStr : PromptSource → String
  | hook => "hook"
  | drafterLaunch => "drafter_launch"
  | rustFirstTurn => "rust_firstturn"
  | voiceStream => "voice_stream"
  | api => "api"

/-- Whose session a prompt belonged to. -/
inductive Origin where
  | redline
  | foreign
  deriving DecidableEq, Repr

def Origin.asStr : Origin → String
  | redline => "redline"
  | foreign => "external"

/-- What kind of text a prompt is. -/
inductive CorpusRole where
  | user
  | assistant
  | agent
  | system
  deriving DecidableEq, Repr

def CorpusRole.asStr : CorpusRole → String
  | user => "user"
  | assistant => "assistant"
  | agent => "agent"
  | system => "system"

/-- The thread a prompt belongs to. -/
structure ThreadRef where
  threadKind : String
  threadId : String
  parentSessionId : Option String
  deriving DecidableEq, Repr

/-- The full set of fields needed to record a prompt. -/
structure PromptInput where
  source : PromptSource
  origin : Origin
  surface : String
  role : CorpusRole
  sessionId : Option String
  claudeSessionId : Option String
  missionId : Option String
  projectPath : Option String
  body : String
  thread : Option ThreadRef
  author : Option String
  model : Option String
  modelSource : Option String
  userText : Option String
  deriving DecidableEq, Repr

/-- A row of `prompts`, in full. -/
structure CapturedPrompt where
  id : ℤ
  ts : ℤ
  source : String
  origin : String
  surface : String
  role : Option String
  userText : Option String
  sessionId : Option String
  claudeSessionId : Option String
  missionId : Option String
  projectPath : Option String
  body : String
  bodyHash : String
  threadKind : Option String
  threadId : Option String
  parentSessionId : Option String
  model : Option String
  modelSource : Option String
  principalId : Option String
  deviceId : Option String
  agentId : Option String
  runId : Option String
  orgId : Option String
  deriving DecidableEq, Repr

/-- The verbs of a page. -/
inductive BrowseAction where
  | navigate
  | select
  | submit
  | leave
  deriving DecidableEq, Repr

def BrowseAction.asStr : BrowseAction → String
  | navigate => "navigate"
  | select => "select"
  | submit => "submit"
  | leave => "leave"

/-- Fields for recording a page the user landed on. -/
structure BrowseEventInput where
  action : BrowseAction
  browseId : Option String
  url : String
  title : Option String
  text : String
  fromEventId : Option ℤ
  author : Option String
  deriving DecidableEq, Repr

/-- A row of `browse_events`. -/
structure BrowseEventRow where
  id : ℤ
  ts : ℤ
  action : String
  browseId : Option String
  url : String
  title : Option String
  text : String
  contextHash : String
  fromEventId : Option ℤ
  deriving DecidableEq, Repr

/-- A row of `session_tree`. -/
structure SessionLinkRow where
  id : ℤ
  childKind : String
  childId : String
  parentKind : String
  parentId : String
  createdAt : ℤ
  deriving DecidableEq, Repr

/-- The entry of `idx_session_tree_child`. -/
def SessionLinkRow.child (r : SessionLinkRow) : String × String := (r.childKind, r.childId)

/-- The tables of the recorders. -/
structure CaptureStore where
  ledger : LedgerTable
  prompts : AutoTable CapturedPrompt.id
  browseEvents : AutoTable BrowseEventRow.id
  sessionTree : IndexedTable SessionLinkRow.id SessionLinkRow.child
  principals : Table Principal.principalId
  aliases : Table AliasRow.name

/-- The ledger, as a part of the store. -/
def ledgerPart : Part CaptureStore LedgerTable where
  get s := s.ledger
  set t s := { s with ledger := t }
  get_set _ _ := rfl
  set_get _ := rfl
  set_set _ _ _ := rfl

/-! ### Prompts -/

/-- `resolve_author_locked`. -/
def resolveAuthorLocked (author : String) : Attempt CaptureStore (Option String) := do
  let s ← read
  return ((s.aliases.get? author).map AliasRow.principalId).or
    ((s.principals.get? author).map Principal.principalId)

/-- `get_principal_locked`. -/
def getPrincipalLocked (id : String) : Attempt CaptureStore (Option Principal) := do
  let s ← read
  return s.principals.get? id

/-- The parent of an agent's device, if it has one. -/
def parentOf : Option String → Attempt CaptureStore (Option String)
  | none => return none
  | some device => do
    let p ← getPrincipalLocked device
    return p.bind Principal.parentId

/-- The triple a principal's rows carry. -/
def scopeIdsOf (p : Principal) : Attempt CaptureStore ScopeIds :=
  match p.kind with
  | .human | .org => return ⟨some p.principalId, none, none⟩
  | .device => return ⟨p.parentId, some p.principalId, none⟩
  | .agent => do
    let human ← parentOf p.parentId
    return ⟨human, p.parentId, some p.principalId⟩

/-- The triple of a principal by its id. -/
def scopeIdsFor : Option String → Attempt CaptureStore ScopeIds
  | none => return ⟨none, none, none⟩
  | some id => do
    match ← getPrincipalLocked id with
    | none => return ⟨none, none, none⟩
    | some p => scopeIdsOf p

/-- `scope_ids_for_author_locked`. -/
def scopeIdsForAuthorLocked (author : String) : Attempt CaptureStore ScopeIds := do
  let id ← resolveAuthorLocked author
  scopeIdsFor id

/-- The agent a row carries, by its principal if it is an alias. -/
def resolveAgent : Option String → Attempt CaptureStore (Option String)
  | none => return none
  | some id => do
    let resolved ← resolveAuthorLocked id
    return some (resolved.getD id)

/-- The row a prompt is stored as. -/
def promptRow (input : PromptInput) (ts : ℤ) (scope : ScopeFilter) (ids : ScopeIds)
    (agent : Option String) (id : ℤ) : CapturedPrompt where
  id := id
  ts := ts
  source := input.source.asStr
  origin := input.origin.asStr
  surface := input.surface
  role := some input.role.asStr
  userText := input.userText
  sessionId := input.sessionId
  claudeSessionId := input.claudeSessionId.or scope.run
  missionId := input.missionId
  projectPath := input.projectPath.or scope.project
  body := input.body
  bodyHash := sha256 input.body
  threadKind := input.thread.map ThreadRef.threadKind
  threadId := input.thread.map ThreadRef.threadId
  parentSessionId := input.thread.bind ThreadRef.parentSessionId
  model := input.model
  modelSource := input.modelSource
  principalId := ids.principalId.or scope.principal
  deviceId := ids.deviceId
  agentId := agent
  runId := scope.run.or (input.claudeSessionId.or scope.run)
  orgId := scope.org

theorem id_promptRow (input : PromptInput) (ts : ℤ) (scope : ScopeFilter) (ids : ScopeIds)
    (agent : Option String) (n : ℤ) : (promptRow sha256 input ts scope ids agent n).id = n := rfl

/-- The `NOT EXISTS` of the insert: the row names a session, and there is one
with its text under the session and the same role, project and scope. -/
def CaptureStore.promptIsDuplicate (s : CaptureStore) (r : CapturedPrompt) : Bool :=
  r.claudeSessionId.isSome && s.prompts.rows.any fun p =>
    p.bodyHash = r.bodyHash ∧ p.claudeSessionId = r.claudeSessionId ∧
    p.role.getD "user" = r.role.getD "user" ∧ p.projectPath.getD "" = r.projectPath.getD "" ∧
    p.principalId.getD "" = r.principalId.getD "" ∧ p.deviceId.getD "" = r.deviceId.getD "" ∧
    p.agentId.getD "" = r.agentId.getD "" ∧ p.runId.getD "" = r.runId.getD "" ∧
    p.orgId.getD "" = r.orgId.getD ""

/-- The `INSERT` of a prompt: it looks for a duplicate, and writes the row if
there is none. -/
def insertPromptRow (mk : ℤ → CapturedPrompt) (hmk : ∀ n, (mk n).id = n) :
    Attempt CaptureStore (Option ℤ) := do
  let s ← read
  if s.promptIsDuplicate (mk s.prompts.nextId) then return none
  write fun s => { s with prompts := s.prompts.insert mk hmk }
  return some s.prompts.nextId

/-- `insert_prompt_scoped_locked`. -/
def insertPromptScopedLocked (input : PromptInput) (ts : ℤ) (ids : ScopeIds) (scope : ScopeFilter) :
    Attempt CaptureStore (Option ℤ) := do
  let agent ← resolveAgent (ids.agentId.or scope.agent)
  insertPromptRow (promptRow sha256 input ts scope ids agent) (id_promptRow sha256 input ts scope ids agent)

/-- The event of a prompt. -/
def promptAppend (input : PromptInput) (ts : ℤ) (author : String) (id : ℤ) : LedgerAppend where
  kind := EventKind.prompt.asStr
  author := author
  ts := ts
  promptId := some id
  sessionId := input.sessionId
  versionNumber := none
  refKind := none
  refId := none
  payloadHash := sha256 input.body

/-- The event of a row that was inserted. -/
def appendFor (append : ℤ → LedgerAppend) : Option ℤ → Attempt CaptureStore (Option ℤ)
  | none => return none
  | some id => do
    let ev ← onPart ledgerPart (appendEvent sha256 (append id))
    return some ev.seq

/-- `record_prompt_locked`. -/
def recordPromptLocked (input : PromptInput) (ts : ℤ) (author : String) (scope : ScopeFilter) :
    Attempt CaptureStore (Option ℤ) := do
  let ids ← scopeIdsForAuthorLocked author
  let id ← insertPromptScopedLocked sha256 input ts ids scope
  appendFor sha256 (promptAppend sha256 input ts author) id

/-- `record_prompt_at_scoped`: one transaction, or a savepoint in the
caller's. -/
def recordPromptAtScoped (storeAuthor : String) (input : PromptInput) (ts : ℤ) (scope : ScopeFilter) :
    Prog CaptureStore (Except Error (Option ℤ)) :=
  let body := recordPromptLocked sha256 input ts (input.author.getD storeAuthor) scope
  autocommit fun auto => if auto then immediate body.run else savepoint body.run

/-! ### Pages -/

/-- What the tab's last page was. -/
def CaptureStore.lastContextHash (s : CaptureStore) (browseId : Option String) : Option String :=
  (s.browseEvents.rows.filter fun b => b.browseId = browseId).getLast?.map BrowseEventRow.contextHash

/-- The row a page is stored as. -/
def browseEventRow (input : BrowseEventInput) (ts : ℤ) (id : ℤ) : BrowseEventRow where
  id := id
  ts := ts
  action := input.action.asStr
  browseId := input.browseId
  url := input.url
  title := input.title
  text := input.text
  contextHash := sha256 input.text
  fromEventId := input.fromEventId

theorem id_browseEventRow (input : BrowseEventInput) (ts n : ℤ) :
    (browseEventRow sha256 input ts n).id = n := rfl

/-- `insert_browse_event`: none for the page the tab shows already. -/
def insertBrowseEvent (input : BrowseEventInput) (ts : ℤ) : Attempt CaptureStore (Option ℤ) := do
  let s ← read
  if s.lastContextHash input.browseId = some (sha256 input.text) then return none
  write fun s => { s with
    browseEvents := s.browseEvents.insert (browseEventRow sha256 input ts)
      (id_browseEventRow sha256 input ts) }
  return some s.browseEvents.nextId

/-- The event of a page. -/
def browseAppend (input : BrowseEventInput) (ts : ℤ) (author : String) (id : ℤ) : LedgerAppend where
  kind := EventKind.browseEvent.asStr
  author := author
  ts := ts
  promptId := none
  sessionId := none
  versionNumber := none
  refKind := some "browse_event"
  refId := some (toString id)
  payloadHash := sha256 input.text

/-- `record_browse_event_at`. -/
def recordBrowseEventAt (storeAuthor : String) (input : BrowseEventInput) (ts : ℤ) :
    Attempt CaptureStore (Option ℤ) := do
  let id ← insertBrowseEvent sha256 input ts
  appendFor sha256 (browseAppend sha256 input ts (input.author.getD storeAuthor)) id

/-! ### Session links -/

/-- The relation a link records. -/
structure SessionLink where
  childKind : String
  childId : String
  parentKind : String
  parentId : String
  deriving DecidableEq, Repr

/-- The row a link is stored as. -/
def SessionLink.row (l : SessionLink) (createdAt : ℤ) (id : ℤ) : SessionLinkRow :=
  ⟨id, l.childKind, l.childId, l.parentKind, l.parentId, createdAt⟩

theorem SessionLink.id_row (l : SessionLink) (createdAt n : ℤ) : (l.row createdAt n).id = n := rfl

/-- The child is linked already. -/
def CaptureStore.hasParent (s : CaptureStore) (l : SessionLink) : Bool :=
  s.sessionTree.rows.any fun r => r.child = (l.childKind, l.childId)

/-- `insert_session_link`: a child keeps the parent it has. -/
def insertSessionLink (l : SessionLink) (createdAt : ℤ) : Attempt CaptureStore (Option ℤ) := do
  let s ← read
  if s.hasParent l then return none
  write fun s => { s with
    sessionTree := s.sessionTree.insertOrIgnore (l.row createdAt) (l.id_row createdAt) }
  return some s.sessionTree.nextId

/-- The decision a link is recorded as. -/
def SessionLink.decision (l : SessionLink) (id : ℤ) : DecisionInput where
  kind := .sessionLink
  author := none
  sessionId := if l.parentKind = "session" then some l.parentId else none
  refKind := "session_link"
  refId := toString id
  payloadHash := decisionHash sha256 [("child_kind", l.childKind), ("child_id", l.childId),
    ("parent_kind", l.parentKind), ("parent_id", l.parentId)]

/-- The decision of a link that was inserted. -/
def decisionFor (storeAuthor : String) (now : ℤ) (l : SessionLink) :
    Option ℤ → Attempt CaptureStore (Option ℤ)
  | none => return none
  | some id => onPart ledgerPart (recordDecision sha256 storeAuthor now (l.decision sha256 id))

/-- `record_session_link`; the clock is read for the row and for the event. -/
def recordSessionLink (storeAuthor : String) (l : SessionLink) (createdAt now : ℤ) :
    Attempt CaptureStore (Option ℤ) := do
  if trim l.childId = "" ∨ trim l.parentId = "" then return none
  let id ← insertSessionLink l createdAt
  decisionFor sha256 storeAuthor now l id

/-! ### Rows and their events -/

/-- The event of a prompt's row. -/
def isPromptEvent (p : CapturedPrompt) (e : LedgerEventRow) : Prop :=
  e.kind = EventKind.prompt.asStr ∧ e.promptId = some p.id ∧ e.payloadHash = p.bodyHash

/-- The event of a page's row. -/
def isBrowseEvent (b : BrowseEventRow) (e : LedgerEventRow) : Prop :=
  e.kind = EventKind.browseEvent.asStr ∧ e.refKind = some "browse_event" ∧
    e.refId = some (toString b.id) ∧ e.payloadHash = b.contextHash

/-- The event of a link's row. -/
def isLinkEvent (r : SessionLinkRow) (e : LedgerEventRow) : Prop :=
  e.kind = EventKind.sessionLink.asStr ∧ e.refKind = some "session_link" ∧
    e.refId = some (toString r.id) ∧
    e.payloadHash = decisionHash sha256 [("child_kind", r.childKind), ("child_id", r.childId),
      ("parent_kind", r.parentKind), ("parent_id", r.parentId)]

/-- Every row has its event. -/
structure Evented (s : CaptureStore) : Prop where
  prompts : ∀ p ∈ s.prompts.rows, ∃ e ∈ s.ledger.rows, isPromptEvent p e
  browseEvents : ∀ b ∈ s.browseEvents.rows, ∃ e ∈ s.ledger.rows, isBrowseEvent b e
  sessionTree : ∀ r ∈ s.sessionTree.rows, ∃ e ∈ s.ledger.rows, isLinkEvent sha256 r e

end PolisMemory
