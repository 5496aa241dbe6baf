/-
# Redactions and their acknowledgement

`crates/polis-memory/src/sharing.rs`, `envelope.rs` and `orgnode.rs`. What is
forgotten here leaves a `redaction` event on the chain, its payload beside it
(`append_redaction`, `append_capture_redaction`). A segment that is exported
carries the redactions of its events and the head of every chain that is held
(`build`); who imports it, or hears it from an org node, keeps for each peer the
newest seq of a chain of ours that the peer reported. A redaction that is past
that seq is one the peer has not acknowledged (`unacknowledged_redactions`).

A recorded ack is a maximum: what a write adds to what is reached is said once
for each of the two tables (`ackReaches_importRest`, `orgReaches_importRest`).

Key definitions: `Wire.appendRedaction`, `Wire.build`,
`ForeignStore.unacknowledgedRedactions`, `AckReport`, `Wire.publish`,
`Wire.recordAcks`.
Key theorems: `redactionEvent_cases`, `not_listed_iff`,
`ackReaches_importRest`, `orgReaches_importRest`.
-/
import PolisMemory.Append
import PolisMemory.Segments

namespace PolisMemory

open Tables

/-! ### The redaction of what was captured here -/

namespace ForeignStore

/-- `prompt_event_seq`. -/
def promptEventSeq (s : ForeignStore) (promptId : ℤ) : Option ℤ :=
  (s.ledger.rows.find? fun e => e.kind = "prompt" && e.promptId = some promptId).map
    LedgerEventRow.seq

/-- `own_redactions`, in the order of its keys. -/
def ownRedactionRows (s : ForeignStore) : List RedactionPayload :=
  s.ownRedactions.rows.mergeSort fun a b =>
    decide (i64ToString a.eventSeq ≤ i64ToString b.eventSeq)

/-- `list_foreign_chains`: `ORDER BY last_import_at DESC, chain_id`. -/
def listForeignChains (s : ForeignStore) : List ForeignChain :=
  s.chains.rows.mergeSort fun a b =>
    decide (b.lastImportAt < a.lastImportAt ∨
      b.lastImportAt = a.lastImportAt ∧ a.chainId ≤ b.chainId)

@[simp] theorem mem_ownRedactionRows {s : ForeignStore} {r : RedactionPayload} :
    r ∈ s.ownRedactionRows ↔ r ∈ s.ownRedactions.rows := List.mem_mergeSort

@[simp] theorem mem_listForeignChains {s : ForeignStore} {c : ForeignChain} :
    c ∈ s.listForeignChains ↔ c ∈ s.chains.rows := List.mem_mergeSort

end ForeignStore

namespace Wire

variable (w : Wire)

/-- The redaction's event, an existing one or a new one, and its payload beside
the chain; with the event's seq. -/
def redactionEvent (s : ForeignStore) (existing : LedgerEventRow → Bool) (a : LedgerAppend)
    (payload : RedactionPayload) : ForeignStore × ℤ :=
  match s.ledger.rows.find? existing with
  | some e => ({ s with ownRedactions := s.ownRedactions.upsert { payload with eventSeq := e.seq } }, e.seq)
  | none =>
    let row := successor w.sha256 s.ledger.last a
    ({ s with
        ledger := appended w.sha256 s.ledger a
        ownRedactions := s.ownRedactions.upsert { payload with eventSeq := row.seq } }, row.seq)

/-- `append_redaction`: none, if the prompt has no event. -/
def appendRedaction (s : ForeignStore) (now : ℤ) (chainId : String) (promptId : ℤ)
    (actor : String) : ForeignStore × Option ℤ :=
  match s.promptEventSeq promptId with
  | none => (s, none)
  | some targetSeq =>
    let payload : RedactionPayload := ⟨chainId, targetSeq, 0⟩
    let hash := w.redactionHash payload
    let out := w.redactionEvent s
      (fun e => e.kind = "redaction" && e.promptId = some promptId && e.payloadHash = hash)
      ⟨"redaction", actor, now, some promptId, none, none, some "prompt", some (i64ToString promptId),
        hash⟩ payload
    (out.1, some out.2)

/-- `append_capture_redaction`: none, if the capture is not queued or has no
event. -/
def appendCaptureRedaction (s : ForeignStore) (now : ℤ) (chainId : String) (targetSeq : ℤ)
    (actor : String) (queued : Bool) : ForeignStore × Option ℤ :=
  if !(queued && s.ledger.rows.any fun e => e.seq = targetSeq) then (s, none)
  else
    let payload : RedactionPayload := ⟨chainId, targetSeq, 0⟩
    let hash := w.redactionHash payload
    let out := w.redactionEvent s (fun e => e.kind = "redaction" && e.payloadHash = hash)
      ⟨"redaction", actor, now, none, none, none, some "ledger_event", some (i64ToString targetSeq),
        hash⟩ payload
    (out.1, some out.2)

/-! ### The export -/

/-- `build`: the ledger from a seq on, the redactions of its events, and the
heads that are held. What it reads elsewhere (bodies, notes, cards, binds,
vectors, the catalog) and what signs it is that of `rest`. The redactions that
the outbox still holds are appended before it. -/
def build (s : ForeignStore) (device : String) (fromSeq : Option ℤ) (rest : Envelope) :
    Except String Envelope :=
  let fromSeq := max (fromSeq.getD 1) 1
  let events := s.listLedgerEventsAsc (max fromSeq 1 - 1) s.ledger.rows.length
  match events.head?, events.getLast? with
  | some first, some last =>
    if !rest.payload.binds.any fun b => b.chainId = device then
      .error "this device is not bound to the chain — run `polis init`"
    else
      let payload := { rest.payload with
        events := events
        redactions := s.ownRedactionRows.filter fun r => events.any fun e => e.seq = r.eventSeq
        acks := s.listForeignChains.map fun c => (c.chainId, c.headSeq) }
      let header := { rest.header with
        schema := envelopeSchema
        chainId := device
        segment := ⟨first.seq, last.seq, first.prevHash, last.entryHash⟩
        payloadSha256 := w.sha256 (w.payloadJson payload) }
      .ok ⟨header, rest.signature, payload⟩
  | _, _ => .error s!"nothing to export from seq {fromSeq}"

end Wire

/-! ### What a peer has not acknowledged -/

/-- A redaction of ours that a peer has not reported to be past. -/
structure UnackedRedaction where
  redactionSeq : ℤ
  targetSeq : ℤ
  peerChain : String
  peerSource : String
  peerAckedSeq : Option ℤ
  deriving DecidableEq, Repr

/-- `unacknowledged_redactions`. -/
def ForeignStore.unacknowledgedRedactions (s : ForeignStore) : List UnackedRedaction :=
  s.ownRedactionRows.flatMap fun r => s.listForeignChains.filterMap fun p =>
    let acked := (s.acks.get? p.chainId).map ForeignAckRow.ackedSeq
    if acked.all (· < r.eventSeq) then
      some ⟨r.eventSeq, r.seq, p.chainId, p.displayName.getD (fingerprint p.chainId), acked⟩
    else none

/-! ### The org node -/

/-- What a device tells an org node of the chains it holds. -/
structure AckReport where
  ackerChain : String
  acks : List (String × ℤ)
  time : ℤ
  signature : String
  deriving DecidableEq, Repr

/-- `signed_line`: the report without its signature, as JSON. -/
def AckReport.signedLine (r : AckReport) : String :=
  let ack (a : String × ℤ) : List Char :=
    '[' :: JsonText.quoted a.1 ++ ',' :: JsonText.intText a.2 ++ [']']
  String.ofList <|
    '\x7b' :: JsonText.quoted "ackerChain" ++ ':' :: JsonText.quoted r.ackerChain ++
      ',' :: JsonText.quoted "acks" ++ ":[".toList ++ List.intercalate [','] (r.acks.map ack) ++
        "],".toList ++ JsonText.quoted "at" ++ ':' :: JsonText.intText r.time ++ ['\x7d']

/-- Why an org node refuses, the error of its own import apart. -/
inductive RelayError
  | imported (e : ImportError)
  | ownChain
  | notKept (detail : String)
  | unknownAcker (chain : String)
  | untrusted (human : String)
  | badSignature
  deriving DecidableEq, Repr

namespace Wire

variable (w : Wire)

/-- `publish` of an org node: the import every peer runs, the bytes kept for
relay (`kept`), and the node's own ack. -/
def publish (now : ℤ) (tofu : Bool) (device : String) (kept : Except String Unit)
    (s : ForeignStore) (env : Envelope) : ForeignStore × Except RelayError ImportReport :=
  match w.importEnvelope now ⟨tofu, true, none⟩ s env with
  | (s, .error e) => (s, .error (.imported e))
  | (s, .ok report) =>
    if report.outcome = .ownChain then (s, .error .ownChain)
    else
      match kept with
      | .error detail => (s, .error (.notKept detail))
      | .ok () =>
        (s.recordOrgAck now device env.header.chainId env.header.segment.toSeq, .ok report)

/-- `record_acks`: of a chain the node holds, signed with the key it trusts. -/
def recordAcks (now : ℤ) (s : ForeignStore) (report : AckReport) :
    Except RelayError ForeignStore :=
  match s.chains.get? report.ackerChain with
  | none => .error (.unknownAcker (fingerprint report.ackerChain))
  | some chain =>
    match s.trust.get? chain.humanId with
    | none => .error (.untrusted (fingerprint chain.humanId))
    | some trust =>
      if !w.verifyHex trust.pubkey report.signedLine report.signature then .error .badSignature
      else .ok (report.acks.foldl (fun s a => s.recordOrgAck now report.ackerChain a.1 a.2) s)

end Wire

/-- `acks_for`: what the org node relays of the acks of a chain. -/
def ForeignStore.acksFor (s : ForeignStore) (chainId : String) : List (String × ℤ) :=
  (s.orgAcks.select fun r => r.chainId = chainId).map fun r => (r.ackerChain, r.ackedSeq)

/-! ### What the acks reach -/

namespace ForeignStore

/-- The peer has reported the seq, or a later one, of a chain of ours. -/
def AckReaches (s : ForeignStore) (peer : String) (q : ℤ) : Prop :=
  s.acks.Reaches ForeignAckRow.ackedSeq peer q

/-- The relay knows of the peer that it is at the seq of the chain, or past
it. -/
def OrgReaches (s : ForeignStore) (peer chainId : String) (q : ℤ) : Prop :=
  s.orgAcks.Reaches OrgAckRow.ackedSeq (peer, chainId) q

variable {s t : ForeignStore} {now : ℤ} {c peer chainId : String} {n q : ℤ}

/-- **A redaction is listed for a chain that is held just when no ack of the
peer reaches it.** -/
theorem not_listed_iff {r : RedactionPayload} {p : ForeignChain} (hr : r ∈ s.ownRedactions.rows)
    (hp : p ∈ s.chains.rows) :
    (∀ u ∈ s.unacknowledgedRedactions, ¬ (u.redactionSeq = r.eventSeq ∧ u.peerChain = p.chainId)) ↔
      s.AckReaches p.chainId r.eventSeq := by
  have hlisted : (∃ u ∈ s.unacknowledgedRedactions,
      u.redactionSeq = r.eventSeq ∧ u.peerChain = p.chainId) ↔
        ((s.acks.get? p.chainId).map ForeignAckRow.ackedSeq).all (· < r.eventSeq) = true := by
    unfold unacknowledgedRedactions
    simp only [List.mem_flatMap, List.mem_filterMap, Option.ite_none_right_eq_some,
      Option.some.injEq, mem_ownRedactionRows, mem_listForeignChains]
    constructor
    · rintro ⟨u, ⟨r', -, p', -, hacked, rfl⟩, hseq, hchain⟩
      dsimp only at hseq hchain
      rwa [hseq, hchain] at hacked
    · intro hacked
      exact ⟨_, ⟨r, hr, p, hp, hacked, rfl⟩, rfl, rfl⟩
  rw [← not_iff_not]
  push Not
  rw [hlisted, AckReaches, Table.Reaches]
  cases hget : s.acks.get? p.chainId with
  | none => simp
  | some row => simp

theorem ackReaches_setForeignAck : (s.setForeignAck now c n).AckReaches peer q ↔
    s.AckReaches peer q ∨ c = peer ∧ q ≤ n := Table.reaches_upsert rfl

theorem orgReaches_recordOrgAck {a : String} : (s.recordOrgAck now c a n).OrgReaches peer chainId q ↔
    s.OrgReaches peer chainId q ∨ (c, a) = (peer, chainId) ∧ q ≤ n := Table.reaches_upsert rfl

theorem isOwnDevice_importAck (a : String × ℤ) :
    (importAck now c s a).isOwnDevice chainId = s.isOwnDevice chainId := by
  unfold importAck
  dsimp only
  split_ifs <;> rfl

theorem ackReaches_importAck (a : String × ℤ) : (importAck now c s a).AckReaches peer q ↔
    s.AckReaches peer q ∨ c = peer ∧ s.isOwnDevice a.1 = true ∧ q ≤ a.2 := by
  unfold importAck
  dsimp only
  change (if s.isOwnDevice a.1 = true then s.setForeignAck now c a.2 else s).AckReaches peer q ↔ _
  by_cases hown : s.isOwnDevice a.1 = true
  · rw [if_pos hown, ackReaches_setForeignAck]
    simp [hown]
  · rw [if_neg hown]
    simp [hown]

theorem orgReaches_importAck (a : String × ℤ) : (importAck now c s a).OrgReaches peer chainId q ↔
    s.OrgReaches peer chainId q ∨ (c, a.1) = (peer, chainId) ∧ q ≤ a.2 := by
  unfold importAck
  dsimp only
  rw [orgReaches_recordOrgAck]
  split_ifs <;> rfl

/-- The acks of an envelope, one after another. -/
theorem ackReaches_importAcks {acks : List (String × ℤ)} :
    (acks.foldl (importAck now c) s).AckReaches peer q ↔
      s.AckReaches peer q ∨ c = peer ∧ ∃ a ∈ acks, s.isOwnDevice a.1 = true ∧ q ≤ a.2 := by
  induction acks generalizing s with
  | nil => simp
  | cons a acks ih =>
    rw [List.foldl_cons, ih, ackReaches_importAck, List.exists_mem_cons_iff]
    simp only [isOwnDevice_importAck]
    tauto

theorem orgReaches_importAcks {acks : List (String × ℤ)} :
    (acks.foldl (importAck now c) s).OrgReaches peer chainId q ↔
      s.OrgReaches peer chainId q ∨ c = peer ∧ ∃ a ∈ acks, a.1 = chainId ∧ q ≤ a.2 := by
  induction acks generalizing s with
  | nil => simp
  | cons a acks ih =>
    rw [List.foldl_cons, ih, orgReaches_importAck, List.exists_mem_cons_iff, Prod.mk.injEq]
    tauto

/-- The tables of the acks are not those of the vectors and the catalog. -/
theorem acks_importRest (s : ForeignStore) (opts : ImportOptions) (env : Envelope) (startSeq : ℤ) :
    ∃ t : ForeignStore, (t.acks, t.orgAcks, t.principals) = (s.acks, s.orgAcks, s.principals) ∧
      (s.importRest now opts env startSeq).acks =
        (env.payload.acks.foldl (importAck now env.header.chainId) t).acks ∧
      (s.importRest now opts env startSeq).orgAcks =
        (env.payload.acks.foldl (importAck now env.header.chainId) t).orgAcks := by
  refine ⟨env.payload.vectors.foldl (importVector now opts.localModel env) s, ?_, ?_⟩
  · refine foldl_keeps (f := fun t : ForeignStore => (t.acks, t.orgAcks, t.principals)) fun s v => ?_
    unfold importVector
    split
    · rfl
    · split_ifs
      · rfl
      · split <;> rfl
  · unfold importRest
    dsimp only
    split_ifs <;> exact ⟨rfl, rfl⟩

/-- **What an import adds to the acks**: those of this store's own device
chains, for the chain of the envelope. -/
theorem ackReaches_importRest {opts : ImportOptions} {env : Envelope} {startSeq : ℤ} :
    (s.importRest now opts env startSeq).AckReaches peer q ↔ s.AckReaches peer q ∨
      env.header.chainId = peer ∧ ∃ a ∈ env.payload.acks, s.isOwnDevice a.1 = true ∧ q ≤ a.2 := by
  obtain ⟨t, ht, hacks, -⟩ := @acks_importRest now s opts env startSeq
  simp only [Prod.mk.injEq] at ht
  obtain ⟨htacks, -, hprincipals⟩ := ht
  have hown (x : String) : t.isOwnDevice x = s.isOwnDevice x := by
    rw [isOwnDevice, isOwnDevice, hprincipals]
  have hreach := @ackReaches_importAcks t now env.header.chainId peer q env.payload.acks
  unfold AckReaches at hreach ⊢
  rw [hacks, hreach, htacks]
  simp only [hown]

theorem orgReaches_importRest {opts : ImportOptions} {env : Envelope} {startSeq : ℤ} :
    (s.importRest now opts env startSeq).OrgReaches peer chainId q ↔ s.OrgReaches peer chainId q ∨
      env.header.chainId = peer ∧ ∃ a ∈ env.payload.acks, a.1 = chainId ∧ q ≤ a.2 := by
  obtain ⟨t, ht, -, horg⟩ := @acks_importRest now s opts env startSeq
  simp only [Prod.mk.injEq] at ht
  obtain ⟨-, htorg, -⟩ := ht
  have hreach := @orgReaches_importAcks t now env.header.chainId peer chainId q env.payload.acks
  unfold OrgReaches at hreach ⊢
  rw [horg, hreach, htorg]

/-- The acks of a report, one after another. -/
theorem orgReaches_recordOrgAcks {acks : List (String × ℤ)} :
    (acks.foldl (fun s a => s.recordOrgAck now c a.1 a.2) s).OrgReaches peer chainId q ↔
      s.OrgReaches peer chainId q ∨ c = peer ∧ ∃ a ∈ acks, a.1 = chainId ∧ q ≤ a.2 := by
  induction acks generalizing s with
  | nil => simp
  | cons a acks ih =>
    rw [List.foldl_cons, ih, orgReaches_recordOrgAck, List.exists_mem_cons_iff, Prod.mk.injEq]
    tauto

end ForeignStore

/-! ### What a redaction writes -/

section

variable {w : Wire} {s : ForeignStore} {existing : LedgerEventRow → Bool} {a : LedgerAppend}
  {payload : RedactionPayload}

/-- The redaction of an event that is there writes its payload again; a new
one follows the head. -/
theorem redactionEvent_cases (w : Wire) (s : ForeignStore) (existing : LedgerEventRow → Bool)
    (a : LedgerAppend) (payload : RedactionPayload) :
    (∃ e ∈ s.ledger.rows, existing e = true ∧ (w.redactionEvent s existing a payload).1 =
        { s with ownRedactions := s.ownRedactions.upsert { payload with eventSeq := e.seq } }) ∨
      (w.redactionEvent s existing a payload).1 =
        { s with
          ledger := appended w.sha256 s.ledger a
          ownRedactions := s.ownRedactions.upsert
            { payload with eventSeq := (successor w.sha256 s.ledger.last a).seq } } := by
  unfold Wire.redactionEvent
  cases hfind : s.ledger.rows.find? existing with
  | none => exact .inr rfl
  | some e =>
    exact .inl ⟨e, List.mem_of_find?_eq_some hfind, List.find?_some hfind, rfl⟩

/-- A redaction writes the ledger and the payloads beside it. -/
theorem redactionEvent_eq (w : Wire) (s : ForeignStore) (existing : LedgerEventRow → Bool)
    (a : LedgerAppend) (payload : RedactionPayload) : ∃ ledger ownRedactions,
      (w.redactionEvent s existing a payload).1 =
        { s with ledger := ledger, ownRedactions := ownRedactions } := by
  rcases redactionEvent_cases w s existing a payload with ⟨e, -, -, heq⟩ | heq
  · exact ⟨s.ledger, _, heq⟩
  · exact ⟨_, _, heq⟩

end

end PolisMemory
