/-
# Claims with a valid time and a recorded time

`crates/polis-store/src/claims.rs` over the types of
`crates/polis-core/src/claims.rs`: a claim is written with its citations, each
of them checked against the evidence (`writeClaim`); it is read as of a valid
and a known time, with what supersedes it by then left out (`queryClaims`); and
the projection is rebuilt from the records (`rebuildClaimProjection`). Which
evidence a reader may see is the scope clause of
`crates/polis-store/src/principals.rs` (`scopeMatches`).

A number is the bits of its `f64`. How `serde_json` writes and reads a claim,
how a number is written out and how a search text is tokenised are given
(`ClaimHost`); a number may be read back as another one.

Key definitions: `ClaimWrite`, `ClaimHost`, `Store.scopeMatches`,
`Store.writeClaim`, `Store.claimEligible`, `Store.queryClaims`,
`Store.rebuildClaimProjection`.
-/
import Mathlib.Data.List.Infix
import PolisMemory.Catalog
import PolisMemory.Codec
import PolisMemory.Compaction

namespace PolisMemory

open Tables

/-! ### What a claim says -/

inductive ClaimPredicate
  | preference
  | projectConfiguration
  | selectedTechnology
  | constraint
  | decision
  | relationship
  deriving DecidableEq, Repr

/-- The predicate's JSON. -/
def ClaimPredicate.json : ClaimPredicate → String
  | .preference => "\"preference\""
  | .projectConfiguration => "\"project_configuration\""
  | .selectedTechnology => "\"selected_technology\""
  | .constraint => "\"constraint\""
  | .decision => "\"decision\""
  | .relationship => "\"relationship\""

/-- `{:?}` of a predicate. -/
def ClaimPredicate.debug : ClaimPredicate → String
  | .preference => "Preference"
  | .projectConfiguration => "ProjectConfiguration"
  | .selectedTechnology => "SelectedTechnology"
  | .constraint => "Constraint"
  | .decision => "Decision"
  | .relationship => "Relationship"

/-- A number is the bits of its `f64`. -/
inductive ClaimValue
  | text (s : String)
  | boolean (b : Bool)
  | number (bits : UInt64)
  deriving DecidableEq, Repr

/-- `f64::is_finite`: the exponent has a zero bit. -/
def f64IsFinite (bits : UInt64) : Bool := (bits >>> 52) &&& 0x7ff ≠ 0x7ff

/-- `==` of finite numbers: the two zeros are equal. -/
def f64Eq (a b : UInt64) : Bool := a = b || (a <<< 1 = 0 && b <<< 1 = 0)

def ClaimValue.isFinite : ClaimValue → Bool
  | .number bits => f64IsFinite bits
  | _ => true

/-- `==` of two values. -/
def ClaimValue.same : ClaimValue → ClaimValue → Bool
  | .text s, .text s' => s = s'
  | .boolean b, .boolean b' => b = b'
  | .number x, .number x' => f64Eq x x'
  | _, _ => false

inductive ClaimRole
  | user
  | assistant
  | agent
  | system
  | tool
  deriving DecidableEq, Repr

inductive ClaimDerivation
  | structured
  | gardener
  deriving DecidableEq, Repr

/-- A citation. -/
structure ClaimSource where
  chainId : String
  seq : ℤ
  role : ClaimRole
  quote : String
  startByte : Option ℕ
  deriving DecidableEq, Repr

structure Scope where
  principal : Option String
  org : Option String
  agent : Option String
  run : Option String
  project : Option String
  includeShared : Bool
  deriving DecidableEq, Repr

structure ClaimWrite where
  id : String
  subject : String
  predicate : ClaimPredicate
  value : ClaimValue
  scope : Scope
  sources : List ClaimSource
  derivation : ClaimDerivation
  validFrom : ℤ
  validUntil : Option ℤ
  supersedes : List String
  contradicts : List String
  organizerRun : Option ℤ
  modelVersion : Option String
  deriving DecidableEq, Repr

/-- What narrows the evidence a claim may rest on. -/
structure EvidenceFilter where
  roles : List String
  after : Option ℤ
  before : Option ℤ
  deriving DecidableEq, Repr

structure ClaimQuery where
  q : Option String
  evidenceFilter : EvidenceFilter
  subject : Option String
  predicate : Option ClaimPredicate
  scope : Scope
  validAt : Option ℤ
  knownAt : Option ℤ
  limit : Option ℕ
  deriving DecidableEq, Repr

/-- A claim, as it is answered. -/
structure Claim where
  assertion : ClaimWrite
  recordedAt : ℤ
  eventSeq : ℤ
  unresolvedAlternatives : List String
  deriving DecidableEq, Repr

/-- `serde_json` on a claim and what else the claims call. -/
structure ClaimHost extends Host where
  encodeClaim : ClaimWrite → String
  decodeClaim : String → Option ClaimWrite
  /-- `f64::to_string`. -/
  numberText : UInt64 → String
  /-- The number that `serde_json` reads from what it wrote. -/
  reread : UInt64 → UInt64
  /-- `str::to_lowercase`. -/
  toLowercase : String → String
  /-- The terms of a search text, if there are any. -/
  ftsTerms : String → Option (List String)
  decode_encode : ∀ w, w.value.isFinite = true → decodeClaim (encodeClaim w) = some { w with
    value := match w.value with
      | .number bits => .number (reread bits)
      | value => value }

namespace ClaimHost

variable (h : ClaimHost)

def supportingText : ClaimValue → String
  | .text s => s
  | .boolean true => "true"
  | .boolean false => "false"
  | .number bits => h.numberText bits

/-- A claim, written and read back. -/
def readBack (w : ClaimWrite) : ClaimWrite :=
  { w with
    value := match w.value with
      | .number bits => .number (h.reread bits)
      | value => value }

def decode (json : String) : Except DbError ClaimWrite :=
  match h.decodeClaim json with
  | some w => .ok w
  | none => .error (.invalid "invalid claim record")

theorem decode_encodeClaim {w : ClaimWrite} (hw : w.value.isFinite = true) :
    h.decode (h.encodeClaim w) = .ok (h.readBack w) := by
  unfold decode
  rw [h.decode_encode w hw]
  rfl

end ClaimHost

/-! ### A host to run the claims with -/

namespace ClaimWrite

/-- Five of the predicates by a number each, the sixth by any other. -/
def predicateCodec : Codec ClaimPredicate :=
  Codec.nat.map
    (fun n => match n with
      | 0 => .preference
      | 1 => .projectConfiguration
      | 2 => .selectedTechnology
      | 3 => .constraint
      | 4 => .decision
      | _ => .relationship)
    (fun p => match p with
      | .preference => 0
      | .projectConfiguration => 1
      | .selectedTechnology => 2
      | .constraint => 3
      | .decision => 4
      | .relationship => 5)
    fun p => by cases p <;> rfl

def roleCodec : Codec ClaimRole :=
  Codec.nat.map
    (fun n => match n with
      | 0 => .user
      | 1 => .assistant
      | 2 => .agent
      | 3 => .system
      | _ => .tool)
    (fun r => match r with
      | .user => 0
      | .assistant => 1
      | .agent => 2
      | .system => 3
      | .tool => 4)
    fun r => by cases r <;> rfl

/-- A text, a boolean or a number, the first of the three that is there. -/
def valueCodec : Codec ClaimValue :=
  (Codec.string.option.prod (Codec.bool.option.prod Codec.nat)).map
    (fun x => match x with
      | (some s, _, _) => .text s
      | (none, some b, _) => .boolean b
      | (none, none, n) => .number (UInt64.ofNat n))
    (fun v => match v with
      | .text s => (some s, none, 0)
      | .boolean b => (none, some b, 0)
      | .number bits => (none, none, bits.toNat))
    fun v => by cases v <;> simp

def sourceCodec : Codec ClaimSource :=
  (Codec.string.prod (Codec.int.prod (roleCodec.prod (Codec.string.prod Codec.nat.option)))).map
    (fun x => ⟨x.1, x.2.1, x.2.2.1, x.2.2.2.1, x.2.2.2.2⟩)
    (fun s => (s.chainId, s.seq, s.role, s.quote, s.startByte)) fun _ => rfl

def scopeCodec : Codec Scope :=
  (Codec.string.option.prod (Codec.string.option.prod (Codec.string.option.prod
    (Codec.string.option.prod (Codec.string.option.prod Codec.bool))))).map
    (fun x => ⟨x.1, x.2.1, x.2.2.1, x.2.2.2.1, x.2.2.2.2.1, x.2.2.2.2.2⟩)
    (fun s => (s.principal, s.org, s.agent, s.run, s.project, s.includeShared)) fun _ => rfl

def codec : Codec ClaimWrite :=
  (Codec.string.prod (Codec.string.prod (predicateCodec.prod (valueCodec.prod (scopeCodec.prod
    (sourceCodec.list.prod (Codec.bool.prod (Codec.int.prod (Codec.int.option.prod
      (Codec.string.list.prod (Codec.string.list.prod (Codec.int.option.prod
        Codec.string.option)))))))))))).map
    (fun (id, subject, predicate, value, scope, sources, gardener, validFrom, validUntil, supersedes,
        contradicts, organizerRun, modelVersion) =>
      ⟨id, subject, predicate, value, scope, sources, if gardener then .gardener else .structured,
        validFrom, validUntil, supersedes, contradicts, organizerRun, modelVersion⟩)
    (fun w => (w.id, w.subject, w.predicate, w.value, w.scope, w.sources, w.derivation = .gardener,
      w.validFrom, w.validUntil, w.supersedes, w.contradicts, w.organizerRun, w.modelVersion))
    fun w => by
      rcases w with ⟨_, _, _, _, _, _, _ | _, _, _, _, _, _, _⟩ <;> rfl

end ClaimWrite

/-- A host that writes claims with a codec and reads every number as it was. -/
def ClaimHost.plain : ClaimHost where
  toHost := Host.plain
  encodeClaim := ClaimWrite.codec.encode
  decodeClaim := ClaimWrite.codec.decode
  numberText bits := toString bits.toNat
  reread bits := bits
  toLowercase text := text
  ftsTerms text := some [text]
  decode_encode w _ := by
    rw [Codec.decode_encode]
    rcases w with ⟨_, _, _, _ | _ | _⟩ <;> rfl

/-! ### The evidence a reader may see -/

/-- The filter a read path binds. -/
structure ScopeFilter where
  principal : Option String
  project : Option String
  roles : List String
  after : Option ℤ
  before : Option ℤ
  agent : Option String
  run : Option String
  org : Option String
  deriving DecidableEq, Repr

def ScopeFilter.fromScope (scope : Scope) : ScopeFilter where
  principal := scope.principal
  project := scope.project
  roles := []
  after := none
  before := none
  agent := scope.agent
  run := scope.run
  org := scope.org

/-- `CorpusRole::parse`, by the name of the role. -/
def parseCorpusRole (value : String) : Option String :=
  let role := String.ofList ((trim value).toList.map Char.toLower)
  if role = "user" ∨ role = "human" then some "user"
  else if role = "assistant" ∨ role = "ai" then some "assistant"
  else if role = "agent" then some "agent"
  else if role = "system" then some "system"
  else none

/-- The filter of a query; an unknown role is refused. -/
def ClaimQuery.filter (q : ClaimQuery) : Except DbError ScopeFilter := do
  let roles ←
    if q.evidenceFilter.roles = [] then .ok ["user", "assistant"]
    else q.evidenceFilter.roles.mapM fun role =>
      match parseCorpusRole role with
      | some role => .ok role
      | none => .error (.invalid s!"unsupported evidence role: {role}")
  return { ScopeFilter.fromScope q.scope with
    roles := roles
    after := q.evidenceFilter.after
    before := q.evidenceFilter.before }

/-- A filter's field, unless it is blank. -/
def asked (field : Option String) : Option String := field.filter fun s => trim s ≠ ""

namespace Store

/-- The alias's principal, else the principal of that id. -/
def resolveAuthor (s : Store) (author : String) : Option String :=
  ((s.principalAliases.get? author).map AliasRow.principalId).or
    ((s.principals.get? author).map PrincipalRow.principalId)

/-- A principal, the children and the grandchildren; only membership is asked. -/
def principalIdSet (s : Store) (idOrAlias : String) : List String :=
  let root := (s.resolveAuthor idOrAlias).getD idOrAlias
  let under (parent : String) : List String :=
    (s.principals.select fun p => p.parentId = some parent).map PrincipalRow.principalId
  root :: (under root).flatMap under ++ under root

/-- `scope_clause_locked` on a row of `prompts`. -/
def scopeMatches (s : Store) (f : ScopeFilter) (p : PromptRow) : Bool :=
  ((asked f.principal).all fun name =>
    let ids := s.principalIdSet (trim name)
    p.principalId.any (· ∈ ids) || p.deviceId.any (· ∈ ids) || p.agentId.any (· ∈ ids)) &&
  ((asked f.agent).all fun a => p.agentId = some ((s.resolveAuthor (trim a)).getD (trim a))) &&
  ((asked f.run).all fun r => p.runId = some (trim r)) &&
  ((asked f.org).all fun o => p.orgId = some (trim o)) &&
  ((asked f.project).all fun project => p.projectPath = some (trim project)) &&
  (f.roles = [] || p.role.getD "user" ∈ f.roles) &&
  (f.after.all fun ts => ts ≤ p.ts) &&
  f.before.all fun ts => p.ts < ts

/-- The prompt whose own event has the seq. -/
def promptAt (s : Store) (seq : ℤ) : Option PromptRow := do
  let e ← s.event? seq
  if e.kind = "prompt" then
    let id ← e.promptId
    s.prompts.get? id
  else none

/-! ### Writing a claim -/

/-- The claim's projection, with its citations. -/
def project (s : Store) (w : ClaimWrite) (json : String) (recordedAt eventSeq : ℤ)
    (retiredAt : Option ℤ) (principal sourceProject : Option String) : Except DbError Store :=
  match s.claims.insert? ⟨w.id, w.subject, w.predicate.json, json, recordedAt, eventSeq, w.validFrom,
      w.validUntil, retiredAt, principal, w.scope.agent, w.scope.run, w.scope.org, sourceProject⟩ with
  | none => .error .constraint
  | some claims =>
    .ok { s with
      claims := claims
      claimSources := w.sources.foldl (fun rows source =>
        if ⟨w.id, source.chainId, source.seq⟩ ∈ rows then rows
        else rows ++ [⟨w.id, source.chainId, source.seq⟩]) s.claimSources }

end Store

/-- The evidence's role, which a citation must name. -/
def evidenceRole (role : Option String) : Option ClaimRole :=
  let role := role.getD "user"
  if role = "user" then some .user
  else if role = "assistant" then some .assistant
  else if role = "agent" then some .agent
  else if role = "system" then some .system
  else if role = "tool" then some .tool
  else none

/-- Whether the passage stands in the evidence, at its byte if one is given. -/
def ClaimSource.supports (source : ClaimSource) (body : String) : Bool :=
  trim source.quote ≠ "" &&
    match source.startByte with
    | some start =>
      (body.toUTF8.toList.drop start).take source.quote.utf8ByteSize = source.quote.toUTF8.toList
    | none => source.quote.toList <:+: body.toList

namespace Store

variable (h : ClaimHost)

/-- The evidence of a citation, as far as the writer may see it. -/
def evidence (s : Store) (f : ScopeFilter) (seq : ℤ) : Option PromptRow :=
  (s.promptAt seq).filter fun p => (s.forgottenSources.get? p.id).isNone && s.scopeMatches f p

/-- One citation checked: its evidence's principal and project, which the first
one's must be. -/
def checkSource (s : Store) (w : ClaimWrite) (first : Option (Option String × Option String))
    (source : ClaimSource) : Except DbError (Option (Option String × Option String)) :=
  match s.evidence (.fromScope w.scope) source.seq with
  | none => .error (.invalid s!"citation {source.seq} is unavailable or outside scope")
  | some p =>
    match evidenceRole p.role with
    | none => .error (.invalid "unknown evidence role")
    | some role =>
      if source.chainId ≠ p.deviceId.getD "local" ∨ source.role ≠ role then
        .error (.invalid "citation chain or role does not match evidence")
      else if ¬ (source.supports p.body = true ∧
          (h.supportingText w.value).toList <:+: source.quote.toList) then
        .error (.invalid "claim value requires an exact supporting passage in every cited source")
      else
        match first with
        | none => .ok (some (p.principalId, p.projectPath))
        | some derived =>
          if derived ≠ (p.principalId, p.projectPath) then
            .error (.invalid "claim sources must share a principal and project")
          else .ok (some derived)

/-- One related claim checked. -/
def checkRelated (s : Store) (w : ClaimWrite) (recordedAt : ℤ)
    (derived : Option String × Option String) (id : String) : Except DbError Unit :=
  match s.claims.get? id with
  | none => .error (.invalid "claim relationship references an unavailable claim")
  | some row => do
    let old ← h.decode row.assertionJson
    if old.subject ≠ w.subject ∨ old.predicate ≠ w.predicate ∨ old.scope ≠ w.scope then
      .error (.invalid "related claims must have the same subject, predicate and scope")
    else if (row.principalId, row.projectPath) ≠ derived then
      .error (.invalid "related claims must belong to the same evidence namespace")
    else if id ∈ w.supersedes ∧ (∃ source ∈ old.sources, source.role = .user) ∧
        (w.derivation ≠ .structured ∨ ¬ ∀ source ∈ w.sources, source.role = .user) then
      .error (.invalid "a derived or assistant claim cannot supersede explicit user evidence")
    else if recordedAt < row.recordedAt then
      .error (.invalid "supersession cannot precede the recorded claim")
    else .ok ()

/-- The run a gardener's claim is written under is running. -/
def organizerActive (s : Store) (run : Option ℤ) : Bool :=
  run.any fun run => (s.runs.get? run).any fun r =>
    r.status = .running && r.outcome ≠ some .reverted && r.outcome ≠ some .revertedByCanary

/-- What is asked of a claim before the store is. -/
def checkClaim (w : ClaimWrite) : Except DbError Unit :=
  if trim w.id = "" ∨ 200 < w.id.utf8ByteSize ∨ trim w.subject = "" ∨ w.sources = [] ∨
      32 < w.sources.length ∨ (w.validUntil.any fun t => t ≤ w.validFrom) = true ∨
      h.supportingText w.value = "" ∨ w.value.isFinite = false then
    .error (.invalid "claim requires an ID, subject, finite value, citations and a valid interval")
  else if w.derivation = .gardener ∧ (w.organizerRun = none ∨ (w.modelVersion.getD "") = "") then
    .error (.invalid "gardener claims require organizerRun and modelVersion")
  else if 64000 < (h.encodeClaim w).utf8ByteSize then
    .error (.invalid "claim exceeds 64000 bytes")
  else .ok ()

/-- The event of a claim. -/
def claimEvent (w : ClaimWrite) (recordedAt : ℤ) (author : String) : LedgerAppend :=
  ⟨"claim", author, recordedAt, none, none, none, some "claim", some w.id,
    h.bodyHash (h.encodeClaim w)⟩

/-- A gardener's claim is journaled under its run. -/
def journalClaim (s : Store) (w : ClaimWrite) (eventSeq : ℤ) : Except DbError Store :=
  match w.derivation, w.organizerRun with
  | .gardener, some run => s.journalOp run (.applied [.claim w.id] (.claim w.id) (some eventSeq))
  | _, _ => .ok s

/-- The claim, its event and its record written; all checks have passed. -/
def insertClaim (s : Store) (w : ClaimWrite) (recordedAt : ℤ) (author : String)
    (derived : Option String × Option String) : Except DbError (Store × Claim) :=
  let a := claimEvent h w recordedAt author
  let ev := s.appendedRow h.toHost a
  let json := h.encodeClaim w
  match s.claimRecords.insert? ⟨w.id, ev.seq, recordedAt, some json, none, false⟩ with
  | none => .error .constraint
  | some records => do
    let s ← project { s.append h.toHost a with claimRecords := records } w json recordedAt ev.seq none
      derived.1 derived.2
    let s ← s.journalClaim w ev.seq
    return (s, ⟨w, recordedAt, ev.seq, []⟩)

/-- Structured projection write. A claim that is here already, with the same
content, is answered as it was recorded. -/
def writeClaim (s : Store) (w : ClaimWrite) (recordedAt : ℤ) (author : String) :
    Except DbError (Store × Claim) := do
  checkClaim h w
  match (s.claimRecords.get? w.id).filter fun r => !r.invalidated with
  | some r =>
    if r.assertionJson ≠ some (h.encodeClaim w) then
      .error (.invalid "claim ID already exists with different content")
    else .ok (s, ⟨w, r.recordedAt, r.eventSeq, []⟩)
  | none =>
    if w.derivation = .gardener ∧ s.organizerActive w.organizerRun = false then
      .error (.invalid "gardener claims require the current running organizer run")
    else
      let first ← w.sources.foldlM (s.checkSource h w) none
      let derived := first.getD (none, none)
      (w.supersedes ++ w.contradicts).forM (s.checkRelated h w recordedAt derived)
      s.insertClaim h w recordedAt author derived

/-! ### Reading claims -/

/-- Whether a citation may be shown: its evidence is there, on its chain, not
forgotten and in the scope. -/
def sourceEligible (s : Store) (f : ScopeFilter) (chainId : String) (seq : ℤ) : Bool :=
  (s.promptAt seq).any fun p => (chainId = "local" || p.deviceId = some chainId) &&
    (s.forgottenSources.get? p.id).isNone && s.scopeMatches f p

/-- Every supporting source is eligible, and there is one. -/
def claimEligible (s : Store) (f : ScopeFilter) (id : String) : Bool :=
  (s.claimSources.any fun c => c.claimId = id) &&
    s.claimSources.all fun c => c.claimId ≠ id || s.sourceEligible f c.chainId c.seq

/-- Known by then, from then on, and not retired as far as was known. -/
def knownClaim (s : Store) (f : ScopeFilter) (valid known : ℤ) (c : ClaimRow) : Bool :=
  c.recordedAt ≤ known && c.validFrom ≤ valid && (c.retiredAt.all fun t => known < t) &&
    s.claimEligible f c.id

/-- The rows of the answer, newest first. -/
def claimRows (s : Store) (q : ClaimQuery) (f : ScopeFilter) (valid known : ℤ) : List ClaimRow :=
  (s.claims.select fun c => s.knownClaim f valid known c && (c.validUntil.all fun t => valid < t) &&
    (q.subject.all fun subject => c.subject = subject) &&
    q.predicate.all fun predicate => c.predicate = predicate.json).mergeSort fun a b =>
      b.recordedAt < a.recordedAt || (a.recordedAt = b.recordedAt && a.id ≤ b.id)

/-- The ids that the claims known by then supersede. -/
def supersededIds (s : Store) (f : ScopeFilter) (valid known : ℤ) : Except DbError (List String) := do
  let related ← (s.claims.select (s.knownClaim f valid known)).mapM fun c => h.decode c.assertionJson
  return related.flatMap ClaimWrite.supersedes

/-- A row, as it is answered. -/
def claimOf (c : ClaimRow) : Except DbError Claim := do
  let w ← h.decode c.assertionJson
  return ⟨w, c.recordedAt, c.eventSeq, []⟩

end Store

namespace Claim

/-- Another value for the same, in the same scope. -/
def alternative (c other : Claim) : Bool :=
  other.assertion.id ≠ c.assertion.id && other.assertion.subject = c.assertion.subject &&
    other.assertion.predicate = c.assertion.predicate && other.assertion.scope = c.assertion.scope &&
    !other.assertion.value.same c.assertion.value

def withAlternatives (claims : List Claim) (c : Claim) : Claim :=
  { c with
    unresolvedAlternatives := (claims.filter c.alternative).map fun other => other.assertion.id }

variable (h : ClaimHost)

/-- How many of the terms are in the claim's text. -/
def score (terms : List String) (c : Claim) : ℕ :=
  let text := h.toLowercase (c.assertion.subject ++ " " ++ c.assertion.predicate.debug ++ " " ++
    h.supportingText c.assertion.value)
  terms.countP fun term => term.toList <:+: text.toList

/-- The claims with a term, the better match first and the newer of two. -/
def ranked (raw : String) (claims : List Claim) : List Claim :=
  let terms := (h.ftsTerms raw).getD [h.toLowercase raw]
  (claims.filter fun c => 0 < c.score h terms).mergeSort fun a b =>
    b.score h terms < a.score h terms ||
      (b.score h terms = a.score h terms && b.recordedAt ≤ a.recordedAt)

end Claim

/-- How many claims are answered at most. -/
def ClaimQuery.bound (q : ClaimQuery) : ℕ := max 1 (min (q.limit.getD 50) 200)

namespace Store

variable (h : ClaimHost)

/-- The answer, before it is cut off. -/
def answerClaims (s : Store) (now : ℤ) (q : ClaimQuery) : Except DbError (List Claim) := do
  let valid := q.validAt.getD now
  let known := q.knownAt.getD now
  let f ← q.filter
  let claims ← (s.claimRows q f valid known).mapM (claimOf h)
  -- a supersession counts from its valid time on, also past its own end
  let superseded ← s.supersededIds h f valid known
  let kept := claims.filter fun c => c.assertion.id ∉ superseded
  let answered := kept.map (Claim.withAlternatives kept)
  match q.q.filter fun raw => trim raw ≠ "" with
  | some raw => return Claim.ranked h raw answered
  | none => return answered

/-- The claims as of a valid and a known time. -/
def queryClaims (s : Store) (now : ℤ) (q : ClaimQuery) : Except DbError (List Claim) := do
  let answered ← s.answerClaims h now q
  return answered.take q.bound

/-! ### Rebuilding the projection -/

/-- The records that are projected, in the order they are replayed. -/
def survivingRecords (s : Store) : List ClaimRecord :=
  (s.claimRecords.select fun r => !r.invalidated).mergeSort fun a b =>
    a.recordedAt < b.recordedAt || (a.recordedAt = b.recordedAt && a.eventSeq ≤ b.eventSeq)

/-- One record projected; the principal and the project are its first
citation's. -/
def replayRecord (s : Store) (r : ClaimRecord) : Except DbError Store :=
  match r.assertionJson with
  | none => .error (.invalid "Invalid column type Null")
  | some json => do
    let w ← h.decode json
    match w.sources with
    | [] => .error (.invalid "index out of bounds")
    | first :: _ =>
      match (s.event? first.seq).bind fun e => e.promptId.bind s.prompts.get? with
      | none => .error .noRows
      | some p => s.project w json r.recordedAt r.eventSeq r.retiredAt p.principalId p.projectPath

/-- The projection, from the records anew; how many there were. -/
def rebuildClaimProjection (s : Store) : Except DbError (Store × ℕ) := do
  let records := s.survivingRecords
  let cleared : Store :=
    { s with
      claims := ∅
      claimSources := s.claimSources.filter fun c =>
        (s.claimRecords.get? c.claimId).all ClaimRecord.invalidated }
  let s ← records.foldlM (replayRecord h) cleared
  return (s, records.length)

end Store

end PolisMemory
