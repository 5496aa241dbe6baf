/-
# Adopting a store under an identity

`crates/polis-memory/src/identity.rs`: the key is loaded or created in two
files; then the human, the device and the builtin agents become principals,
every author string the lake has seen gets an alias, a `principal_bind` event
binds the key to the chain once and its payload is kept beside the chain, and
every unscoped row is stamped. `crates/polis-store/src/principals.rs` has the
statements. Each file write and each statement is durable on its own.

Key definitions: `Signer`, `Home`, `Point`, `Identity.loadOrCreate`, `adopt`,
`boot`.
Key theorems: `hexDecode_hexEncode`.
-/
import PolisMemory.Coldness
import PolisMemory.Interruption
import PolisMemory.Subscriptions

namespace PolisMemory

open Interruption Tables

/-- What the holder of a key calls beside what the wire does: `ed25519_dalek`
with the seed. -/
structure Signer extends Wire where
  verifyingKey : List UInt8 → List UInt8
  sign : List UInt8 → String → List UInt8

/-- `hex_encode`. -/
def hexEncode (bytes : List UInt8) : String := String.ofList (bytes.flatMap Wire.byteHex)

/-! ### The state -/

/-- A row of `principals`, in full. -/
structure Principal where
  principalId : String
  kind : PrincipalKind
  pubkey : Option String
  parentId : Option String
  displayName : Option String
  createdAt : ℤ
  deriving DecidableEq, Repr

/-- The human, device and agent a row is stamped with. -/
structure ScopeIds where
  principalId : Option String
  deviceId : Option String
  agentId : Option String
  deriving DecidableEq, Repr

/-- A row of `prompts`, as a stamp sees it. -/
structure ScopedPrompt where
  id : ℤ
  claudeSessionId : Option String
  runId : Option String
  scope : ScopeIds
  deriving DecidableEq, Repr

/-- A row of another table that a ledger event vouches for, by the column the
stamp finds it with. -/
structure ScopedRow where
  key : Option ℤ
  scope : ScopeIds
  deriving DecidableEq, Repr

/-- A row of `class_nodes`, as a stamp sees it. -/
structure ScopedNode where
  curatedBy : Option String
  scope : ScopeIds
  deriving DecidableEq, Repr

/-- A `polis.identity.bind.<device>` entry of the meta table. -/
structure BindRow where
  deviceId : String
  payload : BindPayload
  deriving DecidableEq, Repr

/-- A home: the identity's two files and the store. -/
structure Home where
  keyFile : Option String
  pubFile : Option String
  principals : Table Principal.principalId
  aliases : Table AliasRow.name
  ledger : LedgerTable
  binds : Table BindRow.deviceId
  prompts : List ScopedPrompt
  /-- By their ids. -/
  browseEvents : List ScopedRow
  /-- By the seqs of their latest events. -/
  userNotes : List ScopedRow
  /-- By the seqs of their events. -/
  observations : List ScopedRow
  nodes : List ScopedNode

/-- The tables a stamp visits. -/
inductive Scoped
  | prompts
  | browseEvents
  | userNotes
  | observations
  | nodes
  deriving DecidableEq, Repr

/-- The durable writes: an interruption comes before the first or after one of
these. -/
inductive Point
  /-- The key file is there, no byte in it yet. -/
  | keyFile
  | keyBytes
  | pubFile
  | principal (id : String)
  | alias (name : String)
  | bindEvent
  | bindMeta
  | stamp (table : Scoped) (author : String)
  deriving DecidableEq, Repr

/-- A procedure over a home. -/
abbrev HomeProc := Proc Point Home String

/-! ### The identity -/

/-- `name.strip_prefix("agent:").unwrap_or(name)`. -/
def stripAgent (name : String) : String :=
  if "agent:".toList <+: name.toList then String.ofList (name.toList.drop 6) else name

/-- `agent_id`, in `crates/polis-core/src/identity.rs`. -/
def Wire.agentId (w : Wire) (pubkey : List UInt8) (name : String) : String :=
  w.sha256Bytes (pubkey ++ [0] ++ "agent:".toUTF8.toList ++ name.toUTF8.toList)

/-- The key and the device's name. -/
structure Identity where
  seed : List UInt8
  seed_length : seed.length = 32
  deviceName : String

namespace Identity

variable (w : Signer) (id : Identity)

def pubkey : List UInt8 := w.verifyingKey id.seed

def pubkeyHex : String := hexEncode (id.pubkey w)

def principalId : String := w.principalId (id.pubkey w)

/-- The device's id: the chain id. -/
def deviceId : String := w.deviceId (id.pubkey w) id.deviceName

/-- An agent under this device, its name with the `agent:` prefix or without. -/
def agentId (name : String) : String := w.agentId (id.pubkey w) (stripAgent name)

def signHex (msg : String) : String := hexEncode (w.sign id.seed msg)

def humanCard (login : String) : PrincipalCard :=
  ⟨id.principalId w, .human, some (id.pubkeyHex w), none, some login⟩

def deviceCard : PrincipalCard :=
  ⟨id.deviceId w, .device, none, some (id.principalId w), some id.deviceName⟩

/-- `Identity::load`. -/
def load (dir deviceName : String) : HomeProc (Option Identity) := do
  match ← Proc.read Home.keyFile with
  | none => return none
  | some text =>
    match hexDecode text with
    | none => Proc.fail s!"{dir}/identity.key is not a hex seed"
    | some bytes =>
      if h : bytes.length = 32 then return some ⟨bytes, h, deviceName⟩
      else Proc.fail s!"{dir}/identity.key is not a 32-byte seed"

/-- `Identity::save`: `write_private` opens the key file, created or truncated,
before any byte lands. -/
def save : HomeProc PUnit := do
  Proc.write .keyFile fun h => { h with keyFile := some "" }
  Proc.write .keyBytes fun h => { h with keyFile := some (hexEncode id.seed) }
  Proc.write .pubFile fun h => { h with pubFile := some (id.pubkeyHex w) }

/-- `Identity::load_or_create`, its fresh seed drawn beforehand. -/
def loadOrCreate (dir : String) (fresh : Identity) : HomeProc (Identity × Bool) := do
  match ← load dir fresh.deviceName with
  | some id => return (id, false)
  | none =>
    fresh.save w
    return (fresh, true)

end Identity

/-! ### The statements -/

/-- `principal_row`. -/
def principalRow (card : PrincipalCard) (now : ℤ) : Principal :=
  ⟨card.principalId, card.kind, card.pubkey, card.parentId, card.displayName, now⟩

/-- `PrincipalCard::from`. -/
def Principal.card (p : Principal) : PrincipalCard :=
  ⟨p.principalId, p.kind, p.pubkey, p.parentId, p.displayName⟩

/-- What `upsert_principal` makes of a row that is there. -/
def Principal.over (p old : Principal) : Principal :=
  { p with
    pubkey := p.pubkey.or old.pubkey
    parentId := p.parentId.or old.parentId
    displayName := p.displayName.or old.displayName
    createdAt := old.createdAt }

namespace Home

variable (h : Home)

/-- `upsert_principal`. -/
def upsertPrincipal (p : Principal) : Home :=
  let row := ((h.principals.get? p.principalId).map p.over).getD p
  { h with principals := h.principals.upsert row }

/-- `get_principal`. -/
def getPrincipal (id : String) : Option Principal := h.principals.get? id

/-- `list_principals`. -/
def listPrincipals : List Principal :=
  h.principals.rows.mergeSort fun a b =>
    a.createdAt < b.createdAt || (a.createdAt = b.createdAt && decide (a.principalId ≤ b.principalId))

/-- `set_alias`: insert-only. -/
def setAlias (name principalId : String) : Home :=
  { h with aliases := h.aliases.insertOrIgnore ⟨name, principalId⟩ }

/-- The alias strings of `list_aliases`. -/
def aliasNames : List String := h.aliases.rows.map AliasRow.name

/-- `resolve_author`. -/
def resolveAuthor (author : String) : Option String :=
  ((h.aliases.get? author).map AliasRow.principalId).or
    ((h.principals.get? author).map Principal.principalId)

/-- `scope_ids_for_author`. -/
def scopeIdsForAuthor (author : String) : ScopeIds :=
  match (h.resolveAuthor author).bind h.getPrincipal with
  | none => ⟨none, none, none⟩
  | some p =>
    match p.kind with
    | .human | .org => ⟨some p.principalId, none, none⟩
    | .device => ⟨p.parentId, some p.principalId, none⟩
    | .agent =>
      ⟨(p.parentId.bind h.getPrincipal).bind Principal.parentId, p.parentId, some p.principalId⟩

/-- `distinct_authors`. -/
def distinctAuthors : List String :=
  (h.ledger.rows.map LedgerEventRow.author ++
    (h.nodes.filterMap ScopedNode.curatedBy).filter (· ≠ "")).dedup.mergeSort fun a b => a ≤ b

/-- The hash of the chain's head. -/
def headHash : String := (h.ledger.last.map LedgerEventRow.entryHash).getD genesisPrev

/-- The `principal_bind` events of a device. -/
def bindRows (device : String) : List LedgerEventRow :=
  h.ledger.rows.filter fun e =>
    e.kind = "principal_bind" && e.refKind = some "principal" && e.refId = some device

/-- `bind_seq_for`. -/
def bindSeqFor (device : String) : Option ℤ := (h.bindRows device).getLast?.map LedgerEventRow.seq

/-- `bind_payload_for`. -/
def bindPayloadFor (device : String) : Option BindPayload :=
  (h.binds.get? device).map BindRow.payload

/-- `set_meta` of a bind's payload. -/
def setBind (device : String) (payload : BindPayload) : Home :=
  { h with binds := h.binds.upsert ⟨device, payload⟩ }

/-- The binds an envelope ships: `build` refuses a store whose device has none
among them. -/
def shippedBinds : List BindPayload :=
  (h.listPrincipals.filter fun p => p.kind = .device).filterMap fun p => h.bindPayloadFor p.principalId

/-! ### The stamp -/

/-- The ledger events of an author. -/
def eventsBy (author : String) (p : LedgerEventRow → Bool) : List LedgerEventRow :=
  h.ledger.rows.filter fun e => p e && e.author = author

/-- The keys of a table's rows that an author's events vouch for. -/
def vouched (author : String) : Scoped → List ℤ
  | .prompts => (h.eventsBy author fun e => e.kind = "prompt").filterMap LedgerEventRow.promptId
  | .browseEvents => (h.eventsBy author fun e => e.refKind = some "browse_event").filterMap fun e =>
      e.refId.map castInteger
  | .userNotes => (h.eventsBy author fun e => e.kind = "note").map LedgerEventRow.seq
  | .observations => (h.eventsBy author fun e => e.kind = "observation").map LedgerEventRow.seq
  | .nodes => []

/-- A prompt the stamp of an author visits. -/
def duePrompt (author : String) (r : ScopedPrompt) : Bool :=
  r.scope.principalId = none && r.id ∈ h.vouched author .prompts

/-- A row of another table with events that it visits. -/
def dueRow (table : Scoped) (author : String) (r : ScopedRow) : Bool :=
  r.scope.principalId = none && r.key.any (· ∈ h.vouched author table)

/-- A node that it visits. -/
def dueNode (author : String) (r : ScopedNode) : Bool :=
  r.scope.principalId = none && r.curatedBy = some author

/-- How many rows a stamp changes. -/
def due (author : String) : Scoped → ℕ
  | .prompts => h.prompts.countP (h.duePrompt author)
  | .browseEvents => h.browseEvents.countP (h.dueRow .browseEvents author)
  | .userNotes => h.userNotes.countP (h.dueRow .userNotes author)
  | .observations => h.observations.countP (h.dueRow .observations author)
  | .nodes => h.nodes.countP (dueNode author)

/-- The rows of a table after it. -/
def stampRows (table : Scoped) (author : String) (ids : ScopeIds) (rows : List ScopedRow) :
    List ScopedRow :=
  rows.map fun r => if h.dueRow table author r then { r with scope := ids } else r

/-- The prompts after it. -/
def stampPrompts (author : String) (ids : ScopeIds) : List ScopedPrompt :=
  h.prompts.map fun r =>
    if h.duePrompt author r then { r with scope := ids, runId := r.runId.or r.claudeSessionId } else r

/-- The nodes after it. -/
def stampNodes (author : String) (ids : ScopeIds) : List ScopedNode :=
  h.nodes.map fun r => if dueNode author r then { r with scope := ids } else r

/-- One `UPDATE` of `stamp_unscoped`. -/
def stamp (author : String) (ids : ScopeIds) : Scoped → Home
  | .prompts => { h with prompts := h.stampPrompts author ids }
  | .browseEvents => { h with browseEvents := h.stampRows .browseEvents author ids h.browseEvents }
  | .userNotes => { h with userNotes := h.stampRows .userNotes author ids h.userNotes }
  | .observations => { h with observations := h.stampRows .observations author ids h.observations }
  | .nodes => { h with nodes := h.stampNodes author ids }

/-- The authors `stamp_unscoped` goes through. -/
def stampAuthors : List String :=
  (h.ledger.rows.map LedgerEventRow.author ++
    (h.nodes.filter fun r => r.scope.principalId = none).filterMap ScopedNode.curatedBy).dedup

end Home

/-- Rows per table without a scope. -/
structure StampSummary where
  prompts : ℕ
  browseEvents : ℕ
  userNotes : ℕ
  classNodes : ℕ
  classObservations : ℕ
  deriving DecidableEq, Repr

/-- `unscoped_counts`. -/
def Home.unscopedCounts (h : Home) : StampSummary where
  prompts := h.prompts.countP fun r => r.scope.principalId = none
  browseEvents := h.browseEvents.countP fun r => r.scope.principalId = none
  userNotes := h.userNotes.countP fun r => r.scope.principalId = none
  classNodes := h.nodes.countP fun r => r.scope.principalId = none
  classObservations := h.observations.countP fun r => r.scope.principalId = none

/-- One table's share of a stamp. -/
def stampTable (author : String) (ids : ScopeIds) (table : Scoped) : HomeProc ℕ := do
  let n ← Proc.read fun h => h.due author table
  Proc.write (.stamp table author) fun h => h.stamp author ids table
  return n

/-- One author's round of `stamp_unscoped`. -/
def stampAuthor (author : String) : HomeProc ℕ := do
  let ids ← Proc.read fun h => h.scopeIdsForAuthor author
  if ids = ⟨none, none, none⟩ then return 0
  else
    let prompts ← stampTable author ids .prompts
    let browseEvents ← stampTable author ids .browseEvents
    let userNotes ← stampTable author ids .userNotes
    let observations ← stampTable author ids .observations
    let nodes ← stampTable author ids .nodes
    return prompts + browseEvents + userNotes + observations + nodes

/-- The rounds of `stamp_unscoped`. -/
def stampEach : List String → HomeProc ℕ
  | [] => return 0
  | author :: authors => do
    let n ← stampAuthor author
    let rest ← stampEach authors
    return n + rest

/-- `stamp_unscoped`, its total. -/
def stampUnscoped : HomeProc ℕ := do
  let authors ← Proc.read Home.stampAuthors
  stampEach authors

/-! ### The adoption -/

/-- Where a legacy author string maps. -/
inductive AliasTarget
  | device
  | agent (name : String)
  deriving DecidableEq, Repr

/-- `alias_target`. -/
def aliasTarget (author login : String) : AliasTarget :=
  let a := trim author
  if a = "" ∨ a = "local" ∨ (login ≠ "" ∧ a = login) then .device
  else if a ∈ ["classifier", "keeper", "router"] then .agent a
  else .agent s!"surface:{a}"

/-- `BUILTIN_AGENTS`. -/
def builtinAgents : List String := ["keeper", "classifier", "router", "claude-code", "codex"]

/-- What adopting a store did. -/
structure AdoptReport where
  human : String
  device : String
  deviceName : String
  principalsSeeded : ℕ
  /-- The author strings and the principals they were given this time. -/
  aliasesSeeded : List (String × String)
  bindSeq : ℤ
  alreadyBound : Bool
  stamped : ℕ
  unscoped : StampSummary
  deriving DecidableEq, Repr

section adopt

variable (w : Signer) (id : Identity) (login : String) (now : ℤ)

/-- The `agent` closure of `adopt`. -/
def seedAgent (name : String) : HomeProc String := do
  let agent := id.agentId w name
  Proc.write (.principal agent) fun h => h.upsertPrincipal
    ⟨agent, .agent, none, some (id.deviceId w), some s!"agent:{name}", now⟩
  return agent

/-- The principal an alias is given. -/
def aliasPrincipal : AliasTarget → HomeProc String
  | .device => return id.deviceId w
  | .agent name => seedAgent w id now name

/-- The insert of an alias, and whether it wrote a row. -/
def insertAlias (author target : String) : HomeProc Bool := do
  let seeded ← Proc.read fun h => (h.aliases.get? author).isNone
  Proc.write (.alias author) fun h => h.setAlias author target
  return seeded

/-- One author string's round, with the aliases that were there. -/
def seedAlias (existing : List String) (author : String) : HomeProc (List (String × String)) := do
  if trim author = "" ∨ author ∈ existing then return []
  else
    let known ← Proc.read fun h => h.getPrincipal author
    if known.isSome then return []
    else
      let target ← aliasPrincipal w id now (aliasTarget author login)
      let seeded ← insertAlias author target
      return if seeded then [(author, target)] else []

/-- The rounds for the author strings. -/
def seedAliases (existing : List String) : List String → HomeProc (List (String × String))
  | [] => return []
  | author :: authors => do
    let seeded ← seedAlias w id login now existing author
    let rest ← seedAliases existing authors
    return seeded ++ rest

/-- The author strings ever recorded, the login and `local`. -/
def Home.aliasAuthors (h : Home) : List String :=
  [login, "local"].foldl (fun authors builtin =>
    if builtin ∈ authors then authors else authors ++ [builtin]) h.distinctAuthors

/-- What a bind signs and keeps, at a head. -/
def bindPayload (headHash : String) : BindPayload :=
  ⟨id.humanCard w login, id.deviceCard w, id.deviceId w, headHash,
    id.signHex w (Wire.bindMessage (id.deviceId w) headHash)⟩

/-- The event that commits to it. -/
def bindAppend (payload : BindPayload) : LedgerAppend :=
  ⟨"principal_bind", id.deviceId w, now, none, none, none, some "principal", some (id.deviceId w),
    w.bindHash payload⟩

/-- `append_event`, a transaction of its own. -/
def appendBind (a : LedgerAppend) : HomeProc LedgerEventRow := do
  let row ← Proc.read fun h => successor w.sha256 h.ledger.last a
  Proc.write .bindEvent fun h => { h with ledger := appended w.sha256 h.ledger a }
  return row

/-- The first bind of a device: the event, then the payload it hashes. -/
def newBind : HomeProc ℤ := do
  let headHash ← Proc.read Home.headHash
  let payload := bindPayload w id login headHash
  let row ← appendBind w (bindAppend w id now payload)
  Proc.write .bindMeta fun h => h.setBind (id.deviceId w) payload
  return row.seq

/-- The bind, once per device: its seq, and whether it was there. -/
def bindOnce : HomeProc (ℤ × Bool) := do
  match ← Proc.read fun h => h.bindSeqFor (id.deviceId w) with
  | some seq => return (seq, true)
  | none =>
    let seq ← newBind w id login now
    return (seq, false)

/-- The principals and the aliases: how many principals are new, and the
aliases written. -/
def seedPrincipals : HomeProc (ℕ × List (String × String)) := do
  let before ← Proc.read fun h => h.listPrincipals.length
  Proc.write (.principal (id.principalId w)) fun h =>
    h.upsertPrincipal (principalRow (id.humanCard w login) now)
  Proc.write (.principal (id.deviceId w)) fun h =>
    h.upsertPrincipal (principalRow (id.deviceCard w) now)
  builtinAgents.forM fun name => do
    let _ ← seedAgent w id now name
  let existing ← Proc.read Home.aliasNames
  let authors ← Proc.read (Home.aliasAuthors login)
  let aliases ← seedAliases w id login now existing authors
  let after ← Proc.read fun h => h.listPrincipals.length
  return (after - before, aliases)

/-- `adopt`. -/
def adopt : HomeProc AdoptReport := do
  let (principalsSeeded, aliasesSeeded) ← seedPrincipals w id login now
  let (bindSeq, alreadyBound) ← bindOnce w id login now
  let stamped ← stampUnscoped
  let unscoped ← Proc.read Home.unscopedCounts
  return {
    human := id.principalId w
    device := id.deviceId w
    deviceName := id.deviceName
    principalsSeeded
    aliasesSeeded
    bindSeq
    alreadyBound
    stamped
    unscoped }

end adopt

/-- A call from the command line: `polis init`. -/
structure BootCall where
  dir : String
  login : String
  now : ℤ
  /-- The identity that is created where there is none. -/
  fresh : Identity

/-- The key, then the adoption under it. -/
def boot (w : Signer) (c : BootCall) : HomeProc AdoptReport := do
  let (id, _) ← Identity.loadOrCreate w c.dir c.fresh
  adopt w id c.login c.now

end PolisMemory
