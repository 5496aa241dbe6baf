/-
# Importing an envelope

`import` of `crates/polis-memory/src/sharing.rs`: the envelope is verified,
its redactions and notes matched with their events, the human's key is looked
up (and pinned, on first use), the subscriptions are asked, the segment is
compared with what is held of its chain, and only then are the rows written:
the segment in one transaction, then the vectors, the acks and the catalog.

There is no transaction around the whole. Of the refusals the first three come
before the first write, which is the pin; those that come after it leave the
pin behind (`importEnvelope_refused_iff`).

Key definitions: `Wire.checkPayload`, `Wire.trustHuman`,
`ForeignStore.continuity`, `Wire.importEnvelope`, `Pins`.
Key theorems: `Wire.importEnvelope_cases`, `importEnvelope_refused_iff`.
-/
import PolisMemory.Foreign

namespace PolisMemory

open Tables

/-- How an import is allowed to proceed. -/
structure ImportOptions where
  tofu : Bool
  force : Bool
  localModel : Option String
  deriving DecidableEq, Repr

/-- What an import did. -/
inductive ImportOutcome
  | appended (n : ℕ)
  | noOp
  | ownChain
  deriving DecidableEq, Repr

/-- What an import reports, but for the rows it counts. -/
structure ImportReport where
  outcome : ImportOutcome
  chainId : String
  human : String
  source : String
  fromSeq : ℤ
  toSeq : ℤ
  trustedNow : Option String
  verified : Verified
  deriving DecidableEq, Repr

/-- Why an import fails. -/
inductive ImportError
  | verify (e : VerifyError)
  | notTrusted (principal fingerprint : String)
  | keyChanged (principal trusted offered : String)
  | forked (detail : String)
  | forkedBefore (detail : String)
  | gap (detail : String)
  | notSubscribed (principal : String)
  | store (detail : String)
  deriving DecidableEq, Repr

/-! ### Subscriptions -/

/-- `str::starts_with`. -/
def startsWith (s front : String) : Bool := front.toList.isPrefixOf s.toList

/-- `str::to_ascii_lowercase`. -/
def toAsciiLowercase (s : String) : String := s.map Char.toLower

/-- `subscription_matches`: by human id, prefix of it, or display name; a row
without a principal matches every chain. -/
def subscriptionMatches (row : SubscriptionRow) (human : String) (displayName : Option String) :
    Bool :=
  match (row.principal.map trim).filter (· ≠ "") with
  | none => true
  | some p =>
    let lower := toAsciiLowercase p
    human = p || startsWith human lower || fingerprint human = lower ||
      displayName.any fun d => toAsciiLowercase d = lower

namespace ForeignStore

/-- The subscriptions that match an envelope. -/
def matching (s : ForeignStore) (env : Envelope) : List SubscriptionRow :=
  s.subscriptions.rows.filter fun r =>
    subscriptionMatches r env.header.human.principalId env.header.human.displayName

/-- Some subscription matches, or there are none, or the import is forced. -/
def subscribed (s : ForeignStore) (opts : ImportOptions) (env : Envelope) : Bool :=
  s.subscriptions.rows.isEmpty || !(s.matching env).isEmpty || opts.force

/-- The projects that the matching subscriptions ask for. -/
def projects (s : ForeignStore) (env : Envelope) : List String :=
  ((s.matching env).filterMap SubscriptionRow.project).filter fun p => trim p ≠ ""

/-! ### Continuity -/

/-- `foreign_event_hash`. -/
def foreignEventHash (s : ForeignStore) (chainId : String) (seq : ℤ) : Option String :=
  (s.events.get? (chainId, seq)).map fun r => r.event.entryHash

/-- The event at a seq we hold carries another hash. -/
def rewrittenAt (s : ForeignStore) (chainId : String) (e : LedgerEventRow) : Option String :=
  match s.foreignEventHash chainId e.seq with
  | some ours =>
    if ours = e.entryHash then none
    else some s!"seq {e.seq} here has hash {ours}, the segment carries {e.entryHash} — the peer rewrote history"
  | none => none

/-- The first event up to our head that carries another hash. -/
def rewritten (s : ForeignStore) (chainId : String) (headSeq : ℤ) (events : List LedgerEventRow) :
    Option String :=
  (events.filter fun e => e.seq ≤ headSeq).findSome? (s.rewrittenAt chainId)

/-- What is held of the chain lets the segment in: since when we hold it, and
the first seq that is new. -/
def continuity (s : ForeignStore) (now : ℤ) (env : Envelope) : Except ImportError (ℤ × ℤ) :=
  let h := env.header
  let seg := h.segment
  match s.chains.get? h.chainId with
  | none =>
    if seg.fromSeq ≠ 1 then
      .error (.gap s!"first segment of chain {fingerprint h.chainId} must start at seq 1, this one starts at {seg.fromSeq}")
    else .ok (now, 1)
  | some c =>
    if c.forked then .error (.forkedBefore (c.forkDetail.getD ""))
    else if c.headSeq + 1 < seg.fromSeq then
      .error (.gap s!"we hold chain {fingerprint h.chainId} up to seq {c.headSeq}, the segment starts at {seg.fromSeq} — fetch the segments between first")
    else
      match s.rewritten h.chainId c.headSeq env.events with
      | some detail => .error (.forked detail)
      | none =>
        if seg.fromSeq = c.headSeq + 1 ∧ seg.prevHashAtFrom ≠ c.headHash then
          .error (.forked s!"the segment links onto {seg.prevHashAtFrom} but our head at seq {c.headSeq} is {c.headHash}")
        else .ok (c.firstImportAt, c.headSeq + 1)

end ForeignStore

/-! ### The rows of a segment -/

/-- A redaction's name in the store. -/
def Redaction.name : Redaction → String
  | .full => "full"
  | .gist => "gist"
  | .stub => "stub"

namespace Envelope

/-- The seq of the last event of a prompt. -/
def promptSeq (env : Envelope) (promptId : ℤ) : Option ℤ :=
  ((env.events.filter fun e => e.kind = "prompt" && e.promptId = some promptId).getLast?).map
    LedgerEventRow.seq

/-- The prompt rows: a project filter stubs the rest. -/
def promptInputs (env : Envelope) (projects : List String) : List ForeignPromptInput :=
  env.payload.prompts.filterMap fun p => (env.promptSeq p.id).map fun seq =>
    let keep := projects.isEmpty ||
      p.project.any fun pp => projects.any fun f => pp = f || startsWith pp f
    if keep then ⟨seq, p.id, p.role, p.bodyHash, p.redaction.name, p.text, p.project⟩
    else ⟨seq, p.id, p.role, p.bodyHash, "stub", none, p.project⟩

/-- The note rows whose events the segment has. -/
def noteInputs (env : Envelope) : List ForeignNoteInput :=
  (env.payload.notes.filter fun n => n.seq.any fun q => env.events.any fun e => e.seq = q).map
    fun n => ⟨n.id, n.seq, n.targetKind, n.targetId, n.text, n.createdAt⟩

/-- The redactions whose events the segment has. -/
def redactionInputs (env : Envelope) : List ForeignRedactionInput :=
  (env.payload.redactions.filter fun r => env.events.any fun e => e.seq = r.eventSeq).map
    fun r => ⟨r.eventSeq, r.chainId, r.seq⟩

/-- The chain's row, its head the segment's last event. -/
def chainRow (env : Envelope) (now firstImportAt : ℤ) (last : LedgerEventRow) : ForeignChain where
  chainId := env.header.chainId
  humanId := env.header.human.principalId
  deviceName := env.header.device.displayName
  displayName := env.header.human.displayName
  headSeq := last.seq
  headHash := last.entryHash
  forked := false
  forkDetail := none
  firstImportAt := firstImportAt
  lastImportAt := now

/-- The events from a seq on. -/
def newEvents (env : Envelope) (startSeq : ℤ) : List LedgerEventRow :=
  env.events.filter fun e => startSeq ≤ e.seq

/-- Where a hit from this chain comes from. -/
def source (env : Envelope) : String :=
  match env.header.human.displayName.filter fun n => trim n ≠ "" with
  | some n => "shared:" ++ n
  | none => "shared:" ++ fingerprint env.header.chainId

end Envelope

namespace ForeignStore

/-- `known_principal_kind(chain) == Some(Device)`: a chain this store writes. -/
def isOwnDevice (s : ForeignStore) (chainId : String) : Bool :=
  (s.principals.get? chainId).any fun p => p.kind = .device

/-- The segment's rows, as they are written. -/
def importRows (s : ForeignStore) (now : ℤ) (env : Envelope) (projects : List String)
    (start : ℤ × ℤ) : Except ImportError ForeignStore :=
  match env.events.getLast? with
  | none => .error (.gap "empty segment")
  | some last =>
    match s.importForeignSegment now (env.chainRow now start.1 last) (env.newEvents start.2)
        (env.promptInputs projects) env.noteInputs env.payload.principals env.redactionInputs with
    | .error detail => .error (.store detail)
    | .ok s => .ok s

/-- One vector: kept under the local model only, and only for a body that is
here. -/
def importVector (now : ℤ) (localModel : Option String) (env : Envelope) (s : ForeignStore)
    (v : PayloadVector) : ForeignStore :=
  match (env.promptSeq v.promptId).bind fun seq => s.prompts.byIndex.get? (env.header.chainId, seq) with
  | none => s
  | some row =>
    if localModel ≠ some v.model ∨ row.tombstoned = true ∨ row.text = none then s
    else
      match hexDecode v.vecHex with
      | none => s
      | some bytes =>
        s.storeForeignEmbeddingRaw ⟨"foreign_prompt", row.id, v.chunkIx, v.model, v.charStart,
          v.charLen, v.dim, v.scale, bytes, row.bodyHash, now⟩

/-- One ack: of a chain of ours, and for the relay of any chain. -/
def importAck (now : ℤ) (chainId : String) (s : ForeignStore) (a : String × ℤ) : ForeignStore :=
  let s := if s.isOwnDevice a.1 then s.setForeignAck now chainId a.2 else s
  s.recordOrgAck now chainId a.1 a.2

/-- What is written after the segment: vectors, acks, the peer's catalog. -/
def importRest (s : ForeignStore) (now : ℤ) (opts : ImportOptions) (env : Envelope)
    (startSeq : ℤ) : ForeignStore :=
  let s := env.payload.vectors.foldl (importVector now opts.localModel env) s
  let s := env.payload.acks.foldl (importAck now env.header.chainId) s
  if (env.newEvents startSeq).isEmpty || env.payload.tree.isEmpty then s
  else s.importForeignTree now env.header.chainId env.payload.tree env.payload.treeLinks

/-- `list_ledger_events_asc`. -/
def listLedgerEventsAsc (s : ForeignStore) (after : ℤ) (limit : ℕ) : List LedgerEventRow :=
  (s.ledger.rows.filter fun e => after < e.seq).take limit

/-- The segment sits on our own chain and agrees with it. -/
def ownContinuity (s : ForeignStore) (env : Envelope) : Option VerifyError :=
  let seg := env.header.segment
  let own := s.listLedgerEventsAsc (seg.fromSeq - 1) env.payload.events.length
  let before :=
    if 1 < seg.fromSeq then
      match (s.listLedgerEventsAsc (seg.fromSeq - 2) 1).head? with
      | some b =>
        if b.entryHash = seg.prevHashAtFrom then none
        else some (.continuity s!"seq {b.seq} here has hash {b.entryHash}, the envelope links onto {seg.prevHashAtFrom} — forked")
      | none => some (.continuity s!"this store has no seq {seg.fromSeq - 1}")
    else none
  before.or <| env.events.findSome? fun r =>
    match own.find? fun l => l.seq = r.seq with
    | some l =>
      if l.entryHash = r.entryHash then none
      else some (.continuity s!"seq {r.seq} differs: local {l.entryHash} vs envelope {r.entryHash} — forked")
    | none => none

end ForeignStore

namespace Wire

variable (w : Wire)

/-- Each redaction the payload carries is this chain's and its event is in the
segment. -/
def checkRedaction (env : Envelope) (r : RedactionPayload) : Option VerifyError :=
  if r.chainId ≠ env.header.chainId ∨ ¬ env.payload.events.any fun e =>
      e.seq = r.eventSeq && e.kind = "redaction" && e.payloadHash = w.redactionHash r then
    some (.redactionHashMismatch r.eventSeq)
  else none

/-- The event of a note names its target and commits to its text. -/
def witnesses (n : BundleNote) (e : LedgerEventRow) : Bool :=
  (if n.targetKind = "none" then e.refKind = some "none" && e.refId = some (i64ToString n.id)
    else e.refKind = some n.targetKind && e.refId = n.targetId) &&
  ["note", "star", "unstar"].any fun action =>
    w.decisionPayloadHash [("action", action), ("text", n.text)] = e.payloadHash

/-- Each note the payload carries has its event in the segment. -/
def checkNote (env : Envelope) (n : BundleNote) : Option VerifyError :=
  let event := n.seq.bind fun seq => env.payload.events.find? fun e => e.seq = seq && e.kind = "note"
  if event.any (w.witnesses n) then none
  else some (.schema s!"note {n.id} does not match its source event")

/-- The checks of the payload that the import adds to `verify`. -/
def checkPayload (env : Envelope) : Option VerifyError :=
  (env.payload.redactions.findSome? (w.checkRedaction env)).or
    (env.payload.notes.findSome? (w.checkNote env))

/-- `verify_against`, once `verify` has passed. -/
def verifyAgainst (s : ForeignStore) (env : Envelope) : Except VerifyError Verified :=
  match w.verify env with
  | .error e => .error e
  | .ok v =>
    if !s.isOwnDevice env.header.chainId then .ok v
    else
      match s.ownContinuity env with
      | some e => .error e
      | none => .ok v

/-- The pin of a key on first use. -/
def firstUse (now : ℤ) (human : PrincipalCard) : TrustEntry where
  principalId := human.principalId
  pubkey := human.pubkey.getD ""
  fingerprint := fingerprint human.principalId
  source := "tofu"
  displayName := human.displayName
  addedAt := now

/-- The human's key: known, or pinned on first use, or refused. -/
def trustHuman (now : ℤ) (opts : ImportOptions) (s : ForeignStore) (env : Envelope) :
    Except ImportError (ForeignStore × Option String) :=
  let human := env.header.human
  match s.trust.get? human.principalId with
  | some t =>
    if t.pubkey = human.pubkey.getD "" then .ok (s, none)
    else
      .error (.keyChanged human.principalId
        (fingerprint (w.principalId ((hexDecode t.pubkey).getD []))) (fingerprint human.principalId))
  | none =>
    if !opts.tofu then .error (.notTrusted human.principalId (fingerprint human.principalId))
    else .ok (s.trustSet (firstUse now human), some (fingerprint human.principalId))

/-- The report of an import that went through. -/
def report (env : Envelope) (v : Verified) (outcome : ImportOutcome) (source : String)
    (trustedNow : Option String) : ImportReport :=
  ⟨outcome, env.header.chainId, env.header.human.principalId, source, env.header.segment.fromSeq,
    env.header.segment.toSeq, trustedNow, v⟩

/-- `import`, from the subscriptions on. -/
def importTrusted (now : ℤ) (opts : ImportOptions) (s : ForeignStore) (env : Envelope)
    (v : Verified) (trustedNow : Option String) : ForeignStore × Except ImportError ImportReport :=
  if !s.subscribed opts env then (s, .error (.notSubscribed env.header.human.principalId))
  else
    match s.continuity now env with
    | .error (.forked detail) =>
      (s.markForeignForked env.header.chainId detail, .error (.forked detail))
    | .error e => (s, .error e)
    | .ok start =>
      match s.importRows now env (s.projects env) start with
      | .error e => (s, .error e)
      | .ok s =>
        let fresh := env.newEvents start.2
        (s.importRest now opts env start.2,
          .ok (report env v (if fresh.isEmpty then .noOp else .appended fresh.length) env.source
            trustedNow))

/-- `import`. -/
def importEnvelope (now : ℤ) (opts : ImportOptions) (s : ForeignStore) (env : Envelope) :
    ForeignStore × Except ImportError ImportReport :=
  match w.verify env with
  | .error e => (s, .error (.verify e))
  | .ok v =>
    match w.checkPayload env with
    | some e => (s, .error (.verify e))
    | none =>
      if s.isOwnDevice env.header.chainId then
        match w.verifyAgainst s env with
        | .error e => (s, .error (.verify e))
        | .ok v => (s, .ok (report env v .ownChain "own" none))
      else
        match w.trustHuman now opts s env with
        | .error e => (s, .error e)
        | .ok (s, trustedNow) => importTrusted now opts s env v trustedNow

end Wire

/-- The call comes as far as the segment's transaction, with what is held of
the chain at `start`: everything before it lets the envelope through. -/
structure Wire.Admits (w : Wire) (now : ℤ) (opts : ImportOptions) (s : ForeignStore)
    (env : Envelope) (start : ℤ × ℤ) : Prop where
  verified : (w.verify env).isOk = true
  payload : w.checkPayload env = none
  foreign : s.isOwnDevice env.header.chainId = false
  trusted : (w.trustHuman now opts s env).isOk = true
  subscribed : s.subscribed opts env = true
  continuity : s.continuity now env = .ok start

/-- A result that is not an error. -/
theorem ok_of_isOk {ε α : Type} {x : Except ε α} (h : x.isOk = true) : ∃ a, x = .ok a := by
  cases x with
  | error e => cases h
  | ok a => exact ⟨a, rfl⟩

/-! ### What a refusal leaves behind -/

/-- The store after a refusal that does what it should: as it was, but for the
fork mark of a segment that forks. -/
def ForeignStore.afterRefusal (s : ForeignStore) (env : Envelope) : ImportError → ForeignStore
  | .forked detail => s.markForeignForked env.header.chainId detail
  | _ => s

/-- The chains are as they were, but for the fork mark of one. -/
def ForeignStore.AtMostMarked (s : ForeignStore) (chainId : String)
    (chains : Table ForeignChain.chainId) : Prop :=
  chains = s.chains ∨ ∃ detail, chains = (s.markForeignForked chainId detail).chains

/-- The call comes as far as the pin of a key that is not known yet, and is
allowed to make it. -/
structure Pins (w : Wire) (opts : ImportOptions) (s : ForeignStore) (env : Envelope) : Prop where
  verified : (w.verify env).isOk = true
  payload : w.checkPayload env = none
  foreign : s.isOwnDevice env.header.chainId = false
  unknown : s.trust.get? env.header.human.principalId = none
  tofu : opts.tofu = true

namespace Wire

variable {w : Wire} {now : ℤ} {opts : ImportOptions} {s s' : ForeignStore} {env : Envelope}
  {v : Verified} {trustedNow : Option String} {e : ImportError}

/-- The segment's transaction is all or nothing, and never reports a fork. -/
theorem importRows_error {projects : List String} {start : ℤ × ℤ}
    (h : s.importRows now env projects start = .error e) :
    s.afterRefusal env e = s := by
  unfold ForeignStore.importRows at h
  cases hlast : env.events.getLast? with
  | none =>
    rw [hlast] at h
    cases h
    rfl
  | some last =>
    rw [hlast] at h
    cases hseg : s.importForeignSegment now (env.chainRow now start.1 last) (env.newEvents start.2)
        (env.promptInputs projects) env.noteInputs env.payload.principals env.redactionInputs with
    | error detail =>
      simp only [hseg] at h
      cases h
      rfl
    | ok s' => simp only [hseg, reduceCtorEq] at h

/-- Once the key is trusted a refusal leaves nothing behind. -/
theorem importTrusted_refused
    (h : importTrusted now opts s env v trustedNow = (s', .error e)) :
    s' = s.afterRefusal env e := by
  unfold importTrusted at h
  by_cases hsub : s.subscribed opts env = true
  · rw [hsub] at h
    cases hcont : s.continuity now env with
    | error reason =>
      simp only [hcont, Bool.not_true, Bool.false_eq_true, if_false] at h
      cases reason with
      | forked detail | verify _ | notTrusted _ _ | keyChanged _ _ _ | forkedBefore _ | gap _
      | notSubscribed _ | store _ =>
        cases h
        rfl
    | ok start =>
      simp only [hcont, Bool.not_true, Bool.false_eq_true, if_false] at h
      cases hrows : s.importRows now env (s.projects env) start with
      | error reason =>
        simp only [hrows] at h
        cases h
        exact (importRows_error hrows).symm
      | ok s₁ => simp only [hrows, Prod.mk.injEq, reduceCtorEq, and_false] at h
  · rw [Bool.not_eq_true] at hsub
    simp only [hsub, Bool.not_false, if_true] at h
    cases h
    rfl

/-- A key that is known is not written again. -/
theorem trustHuman_known {x : ForeignStore × Option String}
    (hknown : s.trust.get? env.header.human.principalId ≠ none)
    (h : w.trustHuman now opts s env = .ok x) : x.1 = s := by
  unfold trustHuman at h
  cases ht : s.trust.get? env.header.human.principalId with
  | none => exact absurd ht hknown
  | some t =>
    simp only [ht] at h
    split_ifs at h
    cases h
    rfl

/-- A key that is not known is pinned, if that is allowed. -/
theorem trustHuman_unknown (hunknown : s.trust.get? env.header.human.principalId = none) :
    w.trustHuman now opts s env =
      if opts.tofu then .ok (s.trustSet (firstUse now env.header.human),
        some (fingerprint env.header.human.principalId))
      else .error (.notTrusted env.header.human.principalId
        (fingerprint env.header.human.principalId)) := by
  unfold trustHuman
  simp only [hunknown]
  cases opts.tofu <;> rfl

/-- After the checks that come first the import is that of a trusted key. -/
theorem importEnvelope_trusted (hv : w.verify env = .ok v) (hp : w.checkPayload env = none)
    (hown : s.isOwnDevice env.header.chainId = false) :
    w.importEnvelope now opts s env = match w.trustHuman now opts s env with
      | .error e => (s, .error e)
      | .ok (s, trustedNow) => importTrusted now opts s env v trustedNow := by
  unfold importEnvelope
  simp only [hv, hp, hown, Bool.false_eq_true, if_false]

/-- What comes before the trust leaves the store as it was. -/
theorem importEnvelope_early (h : ¬ ((w.verify env).isOk = true ∧ w.checkPayload env = none ∧
    s.isOwnDevice env.header.chainId = false)) : (w.importEnvelope now opts s env).1 = s ∧
      ∀ e, (w.importEnvelope now opts s env).2 = .error e → s.afterRefusal env e = s := by
  unfold importEnvelope
  cases hv : w.verify env with
  | error e => exact ⟨rfl, fun e he => by cases he; rfl⟩
  | ok v =>
    cases hp : w.checkPayload env with
    | some e => exact ⟨rfl, fun e he => by cases he; rfl⟩
    | none =>
      cases hown : s.isOwnDevice env.header.chainId with
      | false => exact absurd ⟨by rw [hv]; rfl, hp, hown⟩ h
      | true =>
        simp only [if_true]
        cases w.verifyAgainst s env with
        | error e => exact ⟨rfl, fun e he => by cases he; rfl⟩
        | ok v' => exact ⟨rfl, fun e he => by cases he⟩

/-- The trust of a key writes the key alone. -/
theorem trustHuman_ok {x : ForeignStore × Option String} (h : w.trustHuman now opts s env = .ok x) :
    ∃ trust, x.1 = { s with trust := trust } := by
  by_cases hknown : s.trust.get? env.header.human.principalId = none
  · rw [trustHuman_unknown hknown] at h
    split_ifs at h
    cases h
    exact ⟨_, rfl⟩
  · exact ⟨s.trust, trustHuman_known hknown h⟩

/-- Once the key is trusted the rows go in, or nothing changes but a fork
mark. -/
theorem importTrusted_cases (now : ℤ) (opts : ImportOptions) (s : ForeignStore) (env : Envelope)
    (v : Verified) (trustedNow : Option String) :
    (∃ start t r, s.subscribed opts env = true ∧ s.continuity now env = .ok start ∧
        s.importRows now env (s.projects env) start = .ok t ∧
        importTrusted now opts s env v trustedNow = (t.importRest now opts env start.2, .ok r)) ∨
      ∃ chains e, s.AtMostMarked env.header.chainId chains ∧
        importTrusted now opts s env v trustedNow = ({ s with chains := chains }, .error e) := by
  unfold importTrusted
  by_cases hsub : s.subscribed opts env = true
  · rw [hsub]
    simp only [Bool.not_true, Bool.false_eq_true, if_false]
    cases hcont : s.continuity now env with
    | error reason =>
      cases reason with
      | forked detail => exact .inr ⟨_, _, .inr ⟨detail, rfl⟩, rfl⟩
      | verify _ | notTrusted _ _ | keyChanged _ _ _ | forkedBefore _ | gap _ | notSubscribed _
      | store _ => exact .inr ⟨s.chains, _, .inl rfl, rfl⟩
    | ok start =>
      dsimp only
      cases hrows : s.importRows now env (s.projects env) start with
      | error reason => exact .inr ⟨s.chains, _, .inl rfl, rfl⟩
      | ok t => exact .inl ⟨start, t, _, trivial, rfl, hrows, rfl⟩
  · rw [Bool.not_eq_true] at hsub
    rw [hsub]
    exact .inr ⟨s.chains, _, .inl rfl, rfl⟩

/-- **What an import does**: it is admitted and its rows go in, or it leaves
everything but the pinned keys and the fork marks as it was. -/
theorem importEnvelope_cases (w : Wire) (now : ℤ) (opts : ImportOptions) (s : ForeignStore)
    (env : Envelope) :
    (∃ start trust t r, w.Admits now opts s env start ∧
        { s with trust := trust }.importRows now env (s.projects env) start = .ok t ∧
        w.importEnvelope now opts s env = (t.importRest now opts env start.2, .ok r)) ∨
      ((∃ trust chains, s.AtMostMarked env.header.chainId chains ∧
          (w.importEnvelope now opts s env).1 = { s with trust := trust, chains := chains }) ∧
        (s.isOwnDevice env.header.chainId = false → (w.importEnvelope now opts s env).2.isOk = false)) := by
  by_cases hearly : (w.verify env).isOk = true ∧ w.checkPayload env = none ∧
      s.isOwnDevice env.header.chainId = false
  · obtain ⟨hok, hp, hown⟩ := hearly
    obtain ⟨v, hv⟩ := ok_of_isOk hok
    rw [importEnvelope_trusted hv hp hown]
    cases htrust : w.trustHuman now opts s env with
    | error e => exact .inr ⟨⟨s.trust, s.chains, .inl rfl, rfl⟩, fun _ => rfl⟩
    | ok x =>
      obtain ⟨trust, hx⟩ := trustHuman_ok htrust
      obtain ⟨s₀, trustedNow⟩ := x
      dsimp only at hx
      subst hx
      dsimp only
      rcases importTrusted_cases now opts { s with trust := trust } env v trustedNow with
        ⟨start, t, r, hsub, hcont, hrows, heq⟩ | ⟨chains, e, hmarked, heq⟩
      · exact .inl ⟨start, trust, t, r, ⟨hok, hp, hown, by rw [htrust]; rfl, hsub, hcont⟩, hrows, heq⟩
      · rw [heq]
        exact .inr ⟨⟨trust, chains, hmarked, rfl⟩, fun _ => rfl⟩
  · have hsame := (@importEnvelope_early w now opts s env hearly).1
    refine .inr ⟨⟨s.trust, s.chains, .inl rfl, hsame⟩, fun hown => ?_⟩
    unfold importEnvelope
    cases hv : w.verify env with
    | error e => rfl
    | ok v =>
      cases hp : w.checkPayload env with
      | some e => rfl
      | none => exact absurd ⟨by rw [hv]; rfl, hp, hown⟩ hearly

end Wire

@[simp] theorem ForeignStore.trust_afterRefusal (s : ForeignStore) (env : Envelope)
    (e : ImportError) : (s.afterRefusal env e).trust = s.trust := by
  cases e <;> rfl

/-- **A refused import changes nothing but the fork mark of a fork, just when
it does not pin a key on the way.** -/
theorem importEnvelope_refused_iff {w : Wire} {now : ℤ} {opts : ImportOptions}
    {s s' : ForeignStore} {env : Envelope} {e : ImportError}
    (h : w.importEnvelope now opts s env = (s', .error e)) :
    s' = s.afterRefusal env e ↔ ¬ Pins w opts s env := by
  by_cases hearly : (w.verify env).isOk = true ∧ w.checkPayload env = none ∧
      s.isOwnDevice env.header.chainId = false
  · obtain ⟨hok, hp, hown⟩ := hearly
    obtain ⟨v, hv⟩ := ok_of_isOk hok
    rw [Wire.importEnvelope_trusted hv hp hown] at h
    cases ht : s.trust.get? env.header.human.principalId with
    | some t =>
      have hpins : ¬ Pins w opts s env := fun hpins => by rw [hpins.unknown] at ht; cases ht
      refine iff_of_true ?_ hpins
      cases htrust : w.trustHuman now opts s env with
      | error e' =>
        have he' : s.afterRefusal env e' = s := by
          unfold Wire.trustHuman at htrust
          simp only [ht] at htrust
          split_ifs at htrust
          cases htrust
          rfl
        simp only [htrust] at h
        cases h
        exact he'.symm
      | ok x =>
        have hx := Wire.trustHuman_known (by rw [ht]; simp) htrust
        simp only [htrust] at h
        have hs' := Wire.importTrusted_refused h
        rwa [hx] at hs'
    | none =>
      rw [Wire.trustHuman_unknown ht] at h
      by_cases htofu : opts.tofu = true
      · simp only [htofu, if_true] at h
        have hs' := Wire.importTrusted_refused h
        refine iff_of_false (fun hsame => ?_) (fun hpins => hpins ⟨hok, hp, hown, ht, htofu⟩)
        -- the pin is there after the call and was not before
        have htrust := congrArg ForeignStore.trust (hs'.symm.trans hsame)
        simp only [ForeignStore.trust_afterRefusal, ForeignStore.trustSet] at htrust
        have hget := congrArg (·.get? env.header.human.principalId) htrust
        simp only [Table.get?_insertOrIgnore, ht, Option.none_or] at hget
        have hpin : (Wire.firstUse now env.header.human).principalId =
          env.header.human.principalId := rfl
        rw [if_pos hpin] at hget
        cases hget
      · simp only [htofu] at h
        cases h
        exact iff_of_true rfl fun hpins => htofu hpins.tofu
  · obtain ⟨h1, h2⟩ : (w.importEnvelope now opts s env).1 = s ∧
        ∀ e, (w.importEnvelope now opts s env).2 = .error e → s.afterRefusal env e = s :=
      Wire.importEnvelope_early hearly
    rw [h] at h1 h2
    refine iff_of_true ?_ fun hpins => hearly ⟨hpins.verified, hpins.payload, hpins.foreign⟩
    exact h1.trans (h2 e rfl).symm

/-- A segment of a chain nobody holds yet, from its second event on. -/
def lateSegment : Envelope :=
  Wire.plainSigned "a" (Wire.plainPayload
    [Wire.plainEvent genesisPrev 2 "prompt" (some 1) none none "body"])

/-- The error of an import, if it is a gap. -/
def ImportError.gap? : Except ImportError ImportReport → Option String
  | .error (.gap detail) => some detail
  | _ => none

/-- The import of it, on first use. -/
def lateImport : ForeignStore × Except ImportError ImportReport :=
  Wire.plain.importEnvelope 7 ⟨true, false, none⟩ .empty lateSegment

/-- It ends with a gap, and with one key pinned. -/
theorem lateImport_run : (ImportError.gap? lateImport.2).isSome = true ∧
    lateImport.1.trust.rows.length = 1 := by decide +kernel

theorem lateImport_gap : ∃ detail, lateImport.2 = .error (.gap detail) := by
  have hgap := lateImport_run.1
  cases hres : lateImport.2 with
  | ok r => rw [hres] at hgap; cases hgap
  | error e =>
    cases e with
    | gap detail => exact ⟨detail, rfl⟩
    | verify _ | notTrusted _ _ | keyChanged _ _ _ | forkedBefore _ | forked _ | notSubscribed _
    | store _ => rw [hres] at hgap; cases hgap

/-- The statement at that import: refused for the gap, it has pinned the key. -/
theorem importEnvelope_refused_iff_late : ∃ e, lateImport.2 = .error e ∧
    (lateImport.1 = ForeignStore.empty.afterRefusal lateSegment e ↔
      ¬ Pins Wire.plain ⟨true, false, none⟩ .empty lateSegment) := by
  obtain ⟨detail, hgap⟩ := lateImport_gap
  have h : lateImport = (lateImport.1, .error (.gap detail)) := Prod.ext rfl hgap
  exact ⟨_, hgap, importEnvelope_refused_iff h⟩

/-- A refused import that changes a table: the key of a segment that does not
fit stays pinned. -/
theorem lateImport_pinned : ¬ ∀ (w : Wire) (now : ℤ) (opts : ImportOptions) (s s' : ForeignStore)
    (env : Envelope) (e : ImportError), w.importEnvelope now opts s env = (s', .error e) →
      (∀ detail, e ≠ .store detail) → s' = s.afterRefusal env e := by
  intro hclaim
  obtain ⟨detail, hgap⟩ := lateImport_gap
  have hsame : lateImport.1 = .empty :=
    hclaim _ _ _ _ _ _ (.gap detail) (Prod.ext rfl hgap) (fun _ h => by cases h)
  have hpinned := lateImport_run.2
  rw [hsame] at hpinned
  cases hpinned

end PolisMemory
