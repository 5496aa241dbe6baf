/-
# The signed envelope

`crates/polis-memory/src/envelope.rs`: a contiguous segment of one device's
chain, what the policy lets out of the bodies it names, and a header signed
with the human's key. `verify` reads the bytes alone: the ids derive from the
key, the signature covers the header and the header the payload, the chain is
bound to the device, every event recomputes and follows the one before it.

What other packages compute is a field of `Wire`: the digest, the Ed25519
check, and `serde_json` on the structures that are signed or hashed whole.

Key definitions: `Envelope`, `Wire`, `Wire.walkEvents`, `Wire.verify`.
Key theorems: `Wire.walkEvents_eq_none`, `Wire.verify_ok`.
-/
import PolisMemory.Catalog

namespace PolisMemory

open HashChain JsonText

/-- `ENVELOPE_SCHEMA`. -/
def envelopeSchema : String := "polis.bundle/2"

/-- What a principal is. -/
inductive PrincipalKind
  | human
  | device
  | agent
  | org
  deriving DecidableEq, Repr

/-- A `principals` row without its clock. -/
structure PrincipalCard where
  principalId : String
  kind : PrincipalKind
  pubkey : Option String
  parentId : Option String
  displayName : Option String
  deriving DecidableEq, Repr

/-- A contiguous run of one chain. -/
structure Segment where
  fromSeq : ℤ
  toSeq : ℤ
  prevHashAtFrom : String
  headHash : String
  deriving DecidableEq, Repr

/-- How much of a prompt body ships. -/
inductive Bodies
  | auto
  | full
  | gist
  | stub
  deriving DecidableEq, Repr

/-- What the export was allowed to carry. -/
structure Policy where
  roles : List String
  bodies : Bodies
  tree : Bool
  browse : Bool
  deriving DecidableEq, Repr

/-- The header line. -/
structure Header where
  schema : String
  chainId : String
  device : PrincipalCard
  human : PrincipalCard
  orgId : Option String
  segment : Segment
  policy : Policy
  payloadSha256 : String
  exportedAt : ℤ
  deriving DecidableEq, Repr

/-- A body in full, its gist, or neither. -/
inductive Redaction
  | full
  | gist
  | stub
  deriving DecidableEq, Repr

/-- A prompt body at its redaction. -/
structure PayloadPrompt where
  id : ℤ
  role : String
  bodyHash : String
  redaction : Redaction
  text : Option String
  project : Option String
  deriving DecidableEq, Repr

/-- A user note, as it is exported. -/
structure BundleNote where
  id : ℤ
  seq : Option ℤ
  targetKind : String
  targetId : Option String
  text : String
  starred : Bool
  createdAt : ℤ
  updatedAt : ℤ
  deriving DecidableEq, Repr

/-- The signed binding of a chain to its device. -/
structure BindPayload where
  human : PrincipalCard
  device : PrincipalCard
  chainId : String
  headHash : String
  signature : String
  deriving DecidableEq, Repr

/-- A vector that ships beside a full body. -/
structure PayloadVector where
  promptId : ℤ
  model : String
  dim : ℤ
  chunkIx : ℤ
  charStart : ℤ
  charLen : ℤ
  scale : UInt64
  vecHex : String
  deriving DecidableEq, Repr

/-- What a `redaction` event commits to, and the event's own seq. -/
structure RedactionPayload where
  chainId : String
  seq : ℤ
  eventSeq : ℤ
  deriving DecidableEq, Repr

/-- A class node of the exporter's catalog. -/
structure PayloadClassNode where
  id : String
  parentId : Option String
  kind : String
  title : String
  summary : Option String
  deriving DecidableEq, Repr

/-- A pointer from an exported class into the lake. -/
structure PayloadClassLink where
  nodeId : String
  targetKind : String
  targetId : String
  deriving DecidableEq, Repr

/-- What the header's digest covers. -/
structure Payload where
  events : List LedgerEventRow
  prompts : List PayloadPrompt
  notes : List BundleNote
  principals : List PrincipalCard
  aliases : List (String × String)
  binds : List BindPayload
  vectors : List PayloadVector
  redactions : List RedactionPayload
  /-- For each peer chain the exporter holds, the newest seq of it. -/
  acks : List (String × ℤ)
  tree : List PayloadClassNode
  treeLinks : List PayloadClassLink
  deriving DecidableEq, Repr

/-- A signed segment. -/
structure Envelope where
  header : Header
  signature : String
  payload : Payload
  deriving DecidableEq, Repr

/-- The events in the order of their seqs. -/
def Envelope.events (env : Envelope) : List LedgerEventRow :=
  sortedEvents ⟨env.header.segment.headHash, env.payload.events⟩

/-- What the two ends of an exchange call: `sha2`, `ed25519` and
`serde_json`. -/
structure Wire extends Host where
  sha256Bytes : List UInt8 → String
  verifySig : List UInt8 → String → List UInt8 → Bool
  headerJson : Header → String
  payloadJson : Payload → String
  bindJson : BindPayload → String

/-! ### Ids -/

/-- One hexadecimal digit. -/
def hexDigit (c : Char) : Option ℕ :=
  if '0' ≤ c ∧ c ≤ '9' then some (c.toNat - 48)
  else if 'a' ≤ c ∧ c ≤ 'f' then some (c.toNat - 87)
  else if 'A' ≤ c ∧ c ≤ 'F' then some (c.toNat - 55)
  else none

/-- `u8::from_str_radix` on two characters: a sign may stand for the first. -/
def hexPair (a b : Char) : Option UInt8 :=
  if a = '+' then (hexDigit b).map UInt8.ofNat
  else (hexDigit a).bind fun x => (hexDigit b).map fun y => UInt8.ofNat (16 * x + y)

/-- The bytes of a text of hexadecimal digits. -/
def hexBytes : List Char → Option (List UInt8)
  | [] => some []
  | [_] => none
  | a :: b :: rest => (hexPair a b).bind fun x => (hexBytes rest).map (x :: ·)

/-- `hex_decode`. -/
def hexDecode (s : String) : Option (List UInt8) := hexBytes (trim s).toList

/-- The first 16 characters of an id. -/
def fingerprint (principalId : String) : String := String.ofList (principalId.toList.take 16)

namespace Wire

variable (w : Wire)

/-- `principal_id`. -/
def principalId (pubkey : List UInt8) : String := w.sha256Bytes pubkey

/-- `device_id`. -/
def deviceId (pubkey : List UInt8) (name : String) : String :=
  w.sha256Bytes (pubkey ++ [0] ++ "device:".toUTF8.toList ++ name.toUTF8.toList)

/-- `Identity::verify_hex`. -/
def verifyHex (pubkeyHex msg signatureHex : String) : Bool :=
  match hexDecode pubkeyHex, hexDecode signatureHex with
  | some pk, some sig => w.verifySig pk msg sig
  | _, _ => false

/-- `bind_message`. -/
def bindMessage (chainId headHash : String) : String := s!"polis.bind/1\n{chainId}\n{headHash}"

/-- `BindPayload::payload_hash`. -/
def bindHash (b : BindPayload) : String := w.sha256 (w.bindJson b)

/-- `RedactionPayload::payload_hash`: the event's own seq is not part of it. -/
def redactionHash (r : RedactionPayload) : String :=
  w.sha256 (String.ofList (obj [("chainId", .str r.chainId), ("seq", .int r.seq)]))

end Wire

/-! ### Verification -/

/-- Why an envelope is refused. -/
inductive VerifyError
  | schema (detail : String)
  | idMismatch
  | deviceMismatch
  | badSignature
  | noBind
  | badBindSignature
  | payloadHash
  | eventHash (seq : ℤ)
  | linkage (seq : ℤ)
  | segment (detail : String)
  | bindHashMismatch (seq : ℤ)
  | bodyHash (id : ℤ)
  | continuity (detail : String)
  | redactionHashMismatch (seq : ℤ)
  deriving DecidableEq, Repr

/-- What a verified envelope says of itself. -/
structure Verified where
  chainId : String
  human : String
  deviceName : String
  fromSeq : ℤ
  toSeq : ℤ
  headHash : String
  events : ℕ
  prompts : ℕ
  fullBodies : ℕ
  binds : ℕ
  deriving DecidableEq, Repr

namespace Wire

variable (w : Wire)

/-- 1: the human is their key. -/
def verifyHuman (h : Header) : Except VerifyError (String × List UInt8) :=
  match h.human.pubkey with
  | none => .error .idMismatch
  | some hex =>
    match hexDecode hex with
    | none => .error .idMismatch
    | some pubkey =>
      if w.principalId pubkey ≠ h.human.principalId ∨ h.human.kind ≠ .human then .error .idMismatch
      else .ok (hex, pubkey)

/-- 2: the device derives from the key and its name, and is the chain. -/
def verifyDevice (h : Header) (pubkey : List UInt8) : Except VerifyError String :=
  match h.device.displayName with
  | none => .error .deviceMismatch
  | some name =>
    if h.device.kind ≠ .device ∨ h.device.parentId ≠ some h.human.principalId ∨
        w.deviceId pubkey name ≠ h.device.principalId ∨ h.device.principalId ≠ h.chainId then
      .error .deviceMismatch
    else .ok name

/-- 5: a bind for this chain, signed by the same key. -/
def verifyBind (env : Envelope) (pubkeyHex : String) : Option VerifyError :=
  match env.payload.binds.find? fun b => b.chainId = env.header.chainId with
  | none => some .noBind
  | some b =>
    if b.device.principalId ≠ env.header.chainId ∨
        b.human.principalId ≠ env.header.human.principalId then some .noBind
    else if !w.verifyHex pubkeyHex (bindMessage b.chainId b.headHash) b.signature then
      some .badBindSignature
    else none

/-- 6: every event recomputes and links, from `prev` and `prevSeq` on. -/
def walkEvents : String → ℤ → List LedgerEventRow → Option VerifyError
  | _, _, [] => none
  | prev, prevSeq, e :: rest =>
    if e.seq ≠ prevSeq + 1 then some (.segment s!"gap before seq {e.seq}")
    else if e.prevHash ≠ prev then some (.linkage e.seq)
    else if computeEntryHash w.sha256 e.prevHash (canonicalOf e) ≠ e.entryHash then
      some (.eventHash e.seq)
    else walkEvents e.entryHash e.seq rest

/-- 6: the segment is what it says. -/
def verifySegment (env : Envelope) : Option VerifyError :=
  let seg := env.header.segment
  match env.events.head?, env.events.getLast? with
  | some first, some last =>
    if first.seq ≠ seg.fromSeq ∨ last.seq ≠ seg.toSeq then
      some (.segment s!"events span {first.seq}..{last.seq} but the header says {seg.fromSeq}..{seg.toSeq}")
    else if first.prevHash ≠ seg.prevHashAtFrom then some (.linkage first.seq)
    else
      match w.walkEvents first.prevHash (first.seq - 1) env.events with
      | some e => some e
      | none =>
        if last.entryHash ≠ seg.headHash then
          some (.segment "head hash disagrees with the last event")
        else none
  | _, _ => some (.segment "no events")

/-- 7: a bind event commits to a bind the envelope carries. -/
def verifyBindEvents (env : Envelope) : Option VerifyError :=
  (env.events.find? fun e => e.kind = "principal_bind" && e.refId = some env.header.chainId &&
    !env.payload.binds.any fun b => w.bindHash b = e.payloadHash).map (.bindHashMismatch ·.seq)

/-- 7b: a redaction event commits to a payload the envelope carries. -/
def verifyRedactionEvents (env : Envelope) : Option VerifyError :=
  (env.events.find? fun e => e.kind = "redaction" && !env.payload.redactions.any fun r =>
    r.eventSeq = e.seq && w.redactionHash r = e.payloadHash).map (.redactionHashMismatch ·.seq)

/-- 8: a full text hashes to its body hash, and a prompt event carries it. -/
def verifyBody (env : Envelope) (p : PayloadPrompt) : Option VerifyError :=
  if p.redaction = .full && p.text.any (fun text => w.sha256 text ≠ p.bodyHash) then
    some (.bodyHash p.id)
  else
    match env.events.find? fun e => e.kind = "prompt" && e.promptId = some p.id with
    | some e => if e.payloadHash ≠ p.bodyHash then some (.bodyHash p.id) else none
    | none => none

/-- `verify`: an envelope from its bytes alone. -/
def verify (env : Envelope) : Except VerifyError Verified :=
  let h := env.header
  if h.schema ≠ envelopeSchema then .error (.schema h.schema)
  else
    match w.verifyHuman h with
    | .error e => .error e
    | .ok (pubkeyHex, pubkey) =>
      match w.verifyDevice h pubkey with
      | .error e => .error e
      | .ok name =>
        if !w.verifyHex pubkeyHex (w.headerJson h) env.signature then .error .badSignature
        else if w.sha256 (w.payloadJson env.payload) ≠ h.payloadSha256 then .error .payloadHash
        else
          match (w.verifyBind env pubkeyHex).or <| (w.verifySegment env).or <|
              (w.verifyBindEvents env).or <| (w.verifyRedactionEvents env).or <|
                env.payload.prompts.findSome? (w.verifyBody env) with
          | some e => .error e
          | none =>
            .ok ⟨h.chainId, h.human.principalId, name, h.segment.fromSeq, h.segment.toSeq,
              h.segment.headHash, env.events.length, env.payload.prompts.length,
              env.payload.prompts.countP fun p => p.redaction = .full && p.text.isSome,
              env.payload.binds.length⟩

/-- The events of a walk that passes are a chain, their seqs one after
another. -/
theorem walkEvents_eq_none : ∀ {prev : String} {prevSeq : ℤ} {events : List LedgerEventRow},
    w.walkEvents prev prevSeq events = none ↔
      Chain (rowShape w.sha256) prev events ∧
        events.map LedgerEventRow.seq = seqsFrom (prevSeq + 1) events.length
  | _, _, [] => by simp [walkEvents, Chain, seqsFrom]
  | prev, prevSeq, e :: rest => by
    unfold walkEvents Chain
    rw [List.map_cons, List.length_cons, seqsFrom, List.cons.injEq, rowShape_prev, rowShape_good,
      rowShape_entry]
    by_cases hseq : e.seq = prevSeq + 1
    · by_cases hprev : e.prevHash = prev
      · by_cases hgood : computeEntryHash w.sha256 e.prevHash (canonicalOf e) = e.entryHash
        · rw [if_neg (not_not.mpr hseq), if_neg (not_not.mpr hprev), if_neg (not_not.mpr hgood),
            walkEvents_eq_none, hseq]
          tauto
        · rw [if_neg (not_not.mpr hseq), if_neg (not_not.mpr hprev), if_pos hgood]
          simp [hgood]
      · rw [if_neg (not_not.mpr hseq), if_pos hprev]
        simp [hprev]
    · rw [if_pos hseq]
      simp [hseq]

/-! ### A wire to run the model with -/

/-- The two hexadecimal digits of a byte. -/
def byteHex (b : UInt8) : List Char := [Nat.digitChar (b.toNat / 16), Nat.digitChar (b.toNat % 16)]

/-- Texts are their own hashes, bytes are written out in 64 digits, and a
signature is the key. -/
def plain : Wire where
  toHost := Host.plain
  sha256Bytes bytes :=
    String.ofList (bytes.flatMap byteHex ++ List.replicate (64 - 2 * bytes.length) '0')
  verifySig pubkey _ sig := pubkey = sig
  headerJson _ := "header"
  payloadJson _ := "payload"
  bindJson _ := "bind"

/-- The human with the key `a1`. -/
def plainHuman : PrincipalCard := ⟨plain.principalId [0xa1], .human, some "a1", none, some "ann"⟩

/-- Her device of a name. -/
def plainDevice (name : String) : PrincipalCard :=
  ⟨plain.deviceId [0xa1] name, .device, none, some plainHuman.principalId, some name⟩

/-- An event after another. -/
def plainEvent (prevHash : String) (seq : ℤ) (kind : String) (promptId : Option ℤ)
    (refKind refId : Option String) (payloadHash : String) : LedgerEventRow :=
  let ev : CanonicalEvent := ⟨seq, seq, kind, "ann", promptId, none, none, refKind, refId, payloadHash⟩
  ⟨seq, seq, kind, "ann", promptId, none, none, refKind, refId, payloadHash, prevHash,
    computeEntryHash plain.sha256 prevHash ev⟩

/-- What a device signs: a payload with the bind of its chain. -/
def plainSigned (name : String) (payload : Payload) : Envelope :=
  let device := plainDevice name
  let first := payload.events.head?
  let last := payload.events.getLast?
  let seq (e : Option LedgerEventRow) : ℤ := (e.map LedgerEventRow.seq).getD 0
  { header :=
      { schema := envelopeSchema
        chainId := device.principalId
        device := device
        human := plainHuman
        orgId := none
        segment := ⟨seq first, seq last, (first.map LedgerEventRow.prevHash).getD "",
          (last.map LedgerEventRow.entryHash).getD ""⟩
        policy := ⟨["user"], .auto, false, false⟩
        payloadSha256 := "payload"
        exportedAt := 0 }
    signature := "a1"
    payload := { payload with
      binds := [⟨plainHuman, device, device.principalId, genesisPrev, "a1"⟩] } }

/-- Events alone. -/
def plainPayload (events : List LedgerEventRow) : Payload :=
  ⟨events, [], [], [], [], [], [], [], [], [], []⟩

end Wire

end PolisMemory
