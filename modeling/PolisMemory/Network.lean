/-
# A network of stores

Stores that publish segments of their device chains, import each other's,
relay them as an org node, report what they hold, and redact: `envelope.rs`,
`sharing.rs`, `sync.rs` and `orgnode.rs` of `crates/polis-memory`. Whatever is
sent stays in flight, so that it arrives in any order, late, twice or never.

A device chain is written by one store (`Network.owner`). A store may have
several device chains, and a home that is copied goes on as another device with
the ledger, the redactions and the acks of the first.

What a head says of a chain is that every redaction up to it was imported
(`Network.Held`), and an ack says it of the store that writes the peer's chain
(`Network.Claim`). Both outlast whatever the network does later: a new
redaction is past the head its writer had.

Key definitions: `Node`, `Network`, `NodeStep`, `NetworkStep`, `Network.Held`,
`Network.NodeSound`, `Network.Sound`.
Key theorems: `Held.mono`, `Claim.knows`, `NodeSound.mono`.
-/
import PolisMemory.Acks
import PolisMemory.Tombstones

namespace PolisMemory

open Tables ForeignStore

/-! ### The stores and what is in flight -/

/-- A store, the device it writes as, and the redactions its imports brought
it so far. -/
structure Node where
  store : ForeignStore
  device : String
  imported : List ForeignRedactionInput

/-- The seq of the last event. -/
def Node.head (n : Node) : ℤ := (n.store.ledger.last.map LedgerEventRow.seq).getD 0

/-- The stores of a network, the one that writes each device chain, and what
was sent: segments, ack reports, and acks an org node relays (of whom, of which
chain, up to which seq). -/
structure Network (ι : Type) where
  node : ι → Option Node
  owner : String → Option ι
  envelopes : List Envelope
  reports : List AckReport
  relayed : List (String × String × ℤ)

/-- A redaction as an import takes it. -/
def RedactionPayload.input (r : RedactionPayload) : ForeignRedactionInput :=
  ⟨r.eventSeq, r.chainId, r.seq⟩

/-- `upsert_principal`. -/
def ForeignStore.upsertPrincipal (s : ForeignStore) (card : PrincipalCard) : ForeignStore :=
  let old := s.principals.get? card.principalId
  { s with
    principals := s.principals.upsert
      { card with
        pubkey := card.pubkey.or (old.bind PrincipalCard.pubkey)
        parentId := card.parentId.or (old.bind PrincipalCard.parentId)
        displayName := card.displayName.or (old.bind PrincipalCard.displayName) } }

/-! ### What one store does -/

/-- What a store does on its own. -/
inductive NodeStep
  | enroll (card : PrincipalCard)
  /-- Any event but a redaction. -/
  | append (a : LedgerAppend)
  | redact (now : ℤ) (promptId : ℤ) (actor : String)
  | redactCapture (now : ℤ) (targetSeq : ℤ) (actor : String) (queued : Bool)
  | importing (now : ℤ) (opts : ImportOptions) (env : Envelope)
  /-- The import of an org node, which relays the segment. -/
  | relay (now : ℤ) (tofu : Bool) (kept : Except String Unit) (env : Envelope)
  /-- An org node hears a report. -/
  | record (now : ℤ) (report : AckReport)
  /-- A device hears what an org node relays of its chain: the acker and the
  seq. -/
  | fetch (now : ℤ) (ack : String × String × ℤ)
  | purge (chainId : String)
  | tombstone (chainId : String) (seq : ℤ)
  | index (now : ℤ) (model : String) (id : ℤ) (chunks : List VectorChunk)
  | clearFork (chainId : String)
  | settle (trust : Table TrustEntry.principalId) (subscriptions : AutoTable SubscriptionRow.id)

/-- The step hears nothing of what was sent. -/
def NodeStep.alone : NodeStep → Bool
  | .importing _ _ _ | .relay _ _ _ _ | .record _ _ | .fetch _ _ => false
  | _ => true

namespace Node

/-- An import, and what it adds to the redactions that were imported. -/
def receive (w : Wire) (n : Node) (now : ℤ) (opts : ImportOptions) (env : Envelope) : Node :=
  let out := w.importEnvelope now opts n.store env
  { n with
    store := out.1
    imported :=
      if !n.store.isOwnDevice env.header.chainId && out.2.isOk then n.imported ++ env.redactionInputs
      else n.imported }

/-- One step. -/
def step (w : Wire) (n : Node) : NodeStep → Node
  | .enroll card => { n with store := n.store.upsertPrincipal card }
  | .append a =>
    if a.kind = "redaction" then n
    else { n with store := { n.store with ledger := appended w.sha256 n.store.ledger a } }
  | .redact now promptId actor =>
    { n with store := (w.appendRedaction n.store now n.device promptId actor).1 }
  | .redactCapture now targetSeq actor queued =>
    { n with store := (w.appendCaptureRedaction n.store now n.device targetSeq actor queued).1 }
  | .importing now opts env => n.receive w now opts env
  | .relay now tofu kept env =>
    { n.receive w now ⟨tofu, true, none⟩ env with
      store := (w.publish now tofu n.device kept n.store env).1 }
  | .record now report =>
    match w.recordAcks now n.store report with
    | .error _ => n
    | .ok s => { n with store := s }
  | .fetch now ack =>
    if ack.2.1 = n.device ∧ ack.1 ≠ n.device then
      { n with store := n.store.setForeignAck now ack.1 ack.2.2 }
    else n
  | .purge chainId => { n with store := n.store.forgetForeignChain chainId }
  | .tombstone chainId seq =>
    match n.store.tombstone chainId seq with
    | .error _ => n
    | .ok s => { n with store := s }
  | .index now model id chunks => { n with store := n.store.indexForeign now model id chunks }
  | .clearFork chainId => { n with store := n.store.clearForeignFork chainId }
  | .settle trust subscriptions =>
    { n with store := { n.store with
        trust := trust
        subscriptions := subscriptions } }

end Node

/-! ### What the network does -/

/-- What a store does with what was sent. -/
inductive Hearing
  | importing (now : ℤ) (opts : ImportOptions)
  | relay (now : ℤ) (tofu : Bool) (kept : Except String Unit)
  | record (now : ℤ)
  | fetch (now : ℤ)

/-- What happens in a network. -/
inductive NetworkStep (ι : Type)
  /-- A new store with a device of its own. -/
  | found (i : ι) (card : PrincipalCard)
  /-- A home is copied and goes on as another device. -/
  | copy (i j : ι) (card : PrincipalCard)
  /-- A store goes on as another device, or as one it was before. -/
  | adopt (i : ι) (card : PrincipalCard)
  | act (i : ι) (st : NodeStep)
  /-- One of the segments, reports or acks that were sent arrives. -/
  | deliver (i : ι) (k : ℕ) (h : Hearing)
  | publish (i : ι) (fromSeq : Option ℤ) (rest : Envelope)
  | report (i : ι) (time : ℤ) (signature : String)
  /-- An org node relays the acks of a chain. -/
  | serve (i : ι) (chainId : String)

namespace Network

variable {ι : Type}

/-- No store yet. -/
def empty : Network ι := ⟨fun _ => none, fun _ => none, [], [], []⟩

/-- What a step hears was sent. -/
def Heard (x : Network ι) : NodeStep → Prop
  | .importing _ _ env => env ∈ x.envelopes
  | .relay _ _ _ env => env ∈ x.envelopes
  | .record _ report => report ∈ x.reports
  | .fetch _ ack => ack ∈ x.relayed
  | _ => True

/-- The step that hears the message of a number. -/
def hear (x : Network ι) (k : ℕ) : Hearing → Option NodeStep
  | .importing now opts => x.envelopes[k]?.map (.importing now opts)
  | .relay now tofu kept => x.envelopes[k]?.map (.relay now tofu kept)
  | .record now => x.reports[k]?.map (.record now)
  | .fetch now => x.relayed[k]?.map (.fetch now)

variable [DecidableEq ι]

/-- The network with a store in another state. -/
def put (x : Network ι) (i : ι) (n : Node) : Network ι :=
  { x with node := Function.update x.node i (some n) }

/-- The store writes its device's chain from here on. -/
def join (x : Network ι) (i : ι) (n : Node) : Network ι :=
  { x.put i n with owner := Function.update x.owner n.device (some i) }

/-- One step; nothing happens where there is no such store, the device is
another's, or nothing was sent under the number. -/
def step (w : Wire) (x : Network ι) : NetworkStep ι → Network ι
  | .found i card =>
    if (x.node i).isNone && (x.owner card.principalId).isNone then
      x.join i ⟨ForeignStore.empty.upsertPrincipal card, card.principalId, []⟩
    else x
  | .copy i j card =>
    match x.node i with
    | none => x
    | some n =>
      if (x.node j).isNone && (x.owner card.principalId).isNone then
        x.join j { n with
          store := n.store.upsertPrincipal card
          device := card.principalId }
      else x
  | .adopt i card =>
    match x.node i with
    | none => x
    | some n =>
      if (x.owner card.principalId).all (· = i) then
        x.join i { n with
          store := n.store.upsertPrincipal card
          device := card.principalId }
      else x
  | .act i st =>
    match x.node i with
    | none => x
    | some n => if st.alone then x.put i (n.step w st) else x
  | .deliver i k h =>
    match x.node i, x.hear k h with
    | some n, some st => x.put i (n.step w st)
    | _, _ => x
  | .publish i fromSeq rest =>
    match x.node i with
    | none => x
    | some n =>
      match w.build n.store n.device fromSeq rest with
      | .error _ => x
      | .ok env => { x with envelopes := env :: x.envelopes }
  | .report i time signature =>
    match x.node i with
    | none => x
    | some n =>
      let acks := n.store.listForeignChains.map fun c => (c.chainId, c.headSeq)
      { x with reports := ⟨n.device, acks, time, signature⟩ :: x.reports }
  | .serve i chainId =>
    match x.node i with
    | none => x
    | some n =>
      { x with relayed := (n.store.acksFor chainId).map (fun a => (a.1, chainId, a.2)) ++ x.relayed }

/-- Steps in a row. -/
def run (w : Wire) (x : Network ι) (steps : List (NetworkStep ι)) : Network ι :=
  steps.foldl (step w) x

end Network

/-! ### What the stores know of each other -/

namespace Network

variable {ι : Type} {x y : Network ι} {imported imported' : List ForeignRedactionInput} {a b : String}
  {m q : ℤ} {r : RedactionPayload}

/-- Every redaction of the chain, up to a seq that its writer has, was
imported. -/
def Held (x : Network ι) (imported : List ForeignRedactionInput) (a : String) (m : ℤ) : Prop :=
  ∃ k o, x.owner a = some k ∧ x.node k = some o ∧ m ≤ o.head ∧
    ∀ r ∈ o.store.ownRedactions.rows, r.chainId = a → r.eventSeq ≤ m → r.input ∈ imported

/-- The store that writes the chain `b` has imported every redaction of the
chain `a` up to a seq. -/
def Claim (x : Network ι) (b a : String) (m : ℤ) : Prop :=
  ∃ k o, x.owner b = some k ∧ x.node k = some o ∧ x.Held o.imported a m

/-- The store that writes the chain `b` has imported the redaction. -/
def Knows (x : Network ι) (b : String) (r : RedactionPayload) : Prop :=
  ∃ k o, x.owner b = some k ∧ x.node k = some o ∧ r.input ∈ o.imported

/-- The redaction is one that the writer of its chain has issued. -/
def Issued (x : Network ι) (r : RedactionPayload) : Prop :=
  ∃ k o, x.owner r.chainId = some k ∧ x.node k = some o ∧ r ∈ o.store.ownRedactions.rows

theorem Held.le (h : x.Held imported a m) (hq : q ≤ m) : x.Held imported a q := by
  obtain ⟨k, o, hk, ho, hm, hall⟩ := h
  exact ⟨k, o, hk, ho, hq.trans hm, fun r hr hra hrq => hall r hr hra (hrq.trans hq)⟩

theorem Held.subset (h : x.Held imported a m) (hsub : ∀ r ∈ imported, r ∈ imported') :
    x.Held imported' a m := by
  obtain ⟨k, o, hk, ho, hm, hall⟩ := h
  exact ⟨k, o, hk, ho, hm, fun r hr hra hrm => hsub _ (hall r hr hra hrm)⟩

theorem Claim.le (h : x.Claim b a m) (hq : q ≤ m) : x.Claim b a q := by
  obtain ⟨k, o, hk, ho, hheld⟩ := h
  exact ⟨k, o, hk, ho, hheld.le hq⟩

/-- A redaction of the chain that the claim reaches is known. -/
theorem Claim.knows (h : x.Claim b r.chainId m) (hr : x.Issued r) (hm : r.eventSeq ≤ m) :
    x.Knows b r := by
  obtain ⟨k, o, hk, ho, k', o', hk', ho', -, hall⟩ := h
  obtain ⟨k'', o'', hk'', ho'', hmem⟩ := hr
  rw [hk', Option.some.injEq] at hk''
  subst hk''
  rw [ho', Option.some.injEq] at ho''
  subst ho''
  exact ⟨k, o, hk, ho, hall r hmem rfl hm⟩

end Network

/-- What a store only gains: events, redactions past its head, imports. -/
structure Node.Grows (n n' : Node) : Prop where
  head : n.head ≤ n'.head
  own : ∀ r ∈ n.store.ownRedactions.rows, r ∈ n'.store.ownRedactions.rows
  past : ∀ r ∈ n'.store.ownRedactions.rows, r ∈ n.store.ownRedactions.rows ∨ n.head < r.eventSeq
  imported : ∀ r ∈ n.imported, r ∈ n'.imported

theorem Node.Grows.refl (n : Node) : n.Grows n :=
  ⟨le_rfl, fun _ hr => hr, fun _ hr => .inl hr, fun _ hr => hr⟩

namespace Network

variable {ι : Type}

/-- Chains keep their writers, and stores grow. -/
structure Grows (x y : Network ι) : Prop where
  owner : ∀ a i, x.owner a = some i → y.owner a = some i
  node : ∀ i n, x.node i = some n → ∃ n', y.node i = some n' ∧ n.Grows n'

variable {x y : Network ι} {imported : List ForeignRedactionInput} {a b : String} {m : ℤ}
  {r : RedactionPayload}

/-- What was held stays held: a new redaction is past what the writer had. -/
theorem Held.mono (h : x.Held imported a m) (hxy : x.Grows y) : y.Held imported a m := by
  obtain ⟨k, o, hk, ho, hm, hall⟩ := h
  obtain ⟨o', ho', hgrows⟩ := hxy.node k o ho
  refine ⟨k, o', hxy.owner a k hk, ho', hm.trans hgrows.head, fun r hr hra hrm => ?_⟩
  rcases hgrows.past r hr with hold | hnew
  · exact hall r hold hra hrm
  · omega

theorem Claim.mono (h : x.Claim b a m) (hxy : x.Grows y) : y.Claim b a m := by
  obtain ⟨k, o, hk, ho, hheld⟩ := h
  obtain ⟨o', ho', hgrows⟩ := hxy.node k o ho
  exact ⟨k, o', hxy.owner b k hk, ho', (hheld.mono hxy).subset hgrows.imported⟩

theorem Knows.mono (h : x.Knows b r) (hxy : x.Grows y) : y.Knows b r := by
  obtain ⟨k, o, hk, ho, hmem⟩ := h
  obtain ⟨o', ho', hgrows⟩ := hxy.node k o ho
  exact ⟨k, o', hxy.owner b k hk, ho', hgrows.imported _ hmem⟩

theorem Issued.mono (h : x.Issued r) (hxy : x.Grows y) : y.Issued r := by
  obtain ⟨k, o, hk, ho, hmem⟩ := h
  obtain ⟨o', ho', hgrows⟩ := hxy.node k o ho
  exact ⟨k, o', hxy.owner _ k hk, ho', hgrows.own r hmem⟩

/-! ### The invariant -/

/-- What a store may have in a network. -/
structure NodeSound (w : Wire) (x : Network ι) (n : Node) : Prop where
  nonneg : 0 ≤ n.head
  own : ∀ r ∈ n.store.ownRedactions.rows, 0 < r.eventSeq ∧ r.eventSeq ≤ n.head ∧ x.Issued r
  event : ∀ e ∈ n.store.ledger.rows, e.kind = "redaction" →
    ∃ r ∈ n.store.ownRedactions.rows, r.eventSeq = e.seq ∧ w.redactionHash r = e.payloadHash
  chains : ∀ c ∈ n.store.chains.rows, x.Held n.imported c.chainId c.headSeq
  acks : ∀ peer, ∀ r ∈ n.store.ownRedactions.rows, n.store.AckReaches peer r.eventSeq →
    x.Knows peer r
  orgAcks : ∀ peer a q, n.store.OrgReaches peer a q → x.Claim peer a q
  guarded : Guarded "" [] none n.store
  marked : ∀ r ∈ n.imported, n.store.Marked r.targetChain r.targetSeq

/-- What a segment says that was sent. -/
def EnvelopeSound (x : Network ι) (env : Envelope) : Prop :=
  ∃ k o, x.owner env.header.chainId = some k ∧ x.node k = some o ∧
    (∀ e ∈ env.payload.events, e.seq ≤ o.head) ∧
    (∀ r ∈ o.store.ownRedactions.rows, (∃ e ∈ env.payload.events, e.seq = r.eventSeq) →
      r ∈ env.payload.redactions) ∧
    ∀ a ∈ env.payload.acks, x.Claim env.header.chainId a.1 a.2

/-- The stores and everything in flight. -/
structure Sound (w : Wire) (x : Network ι) : Prop where
  device : ∀ i n, x.node i = some n → x.owner n.device = some i
  node : ∀ i n, x.node i = some n → x.NodeSound w n
  envelope : ∀ env ∈ x.envelopes, x.EnvelopeSound env
  report : ∀ report ∈ x.reports, ∀ a ∈ report.acks, x.Claim report.ackerChain a.1 a.2
  relayed : ∀ ack ∈ x.relayed, x.Claim ack.1 ack.2.1 ack.2.2

variable {w : Wire} {n n' : Node} {env : Envelope}

theorem NodeSound.mono (h : x.NodeSound w n) (hxy : x.Grows y) : y.NodeSound w n where
  nonneg := h.nonneg
  own r hr := by
    obtain ⟨hpos, hle, hissued⟩ := h.own r hr
    exact ⟨hpos, hle, hissued.mono hxy⟩
  event := h.event
  chains c hc := (h.chains c hc).mono hxy
  acks peer r hr hreach := (h.acks peer r hr hreach).mono hxy
  orgAcks peer a q hreach := (h.orgAcks peer a q hreach).mono hxy
  guarded := h.guarded
  marked := h.marked

theorem EnvelopeSound.mono (h : x.EnvelopeSound env) (hxy : x.Grows y) : y.EnvelopeSound env := by
  obtain ⟨k, o, hk, ho, hevents, hredactions, hacks⟩ := h
  obtain ⟨o', ho', hgrows⟩ := hxy.node k o ho
  refine ⟨k, o', hxy.owner _ k hk, ho', fun e he => (hevents e he).trans hgrows.head,
    fun r hr hin => ?_, fun a ha => (hacks a ha).mono hxy⟩
  rcases hgrows.past r hr with hold | hnew
  · exact hredactions r hold hin
  · obtain ⟨e, he, hseq⟩ := hin
    have hle := hevents e he
    omega

/-- A store that lost some of its chains and acks, or got new cards, vectors,
suppressions or settings. -/
theorem NodeSound.lose (h : x.NodeSound w n) (hledger : n'.store.ledger = n.store.ledger)
    (hown : n'.store.ownRedactions = n.store.ownRedactions)
    (hchains : ∀ c ∈ n'.store.chains.rows, ∃ c' ∈ n.store.chains.rows,
      c'.chainId = c.chainId ∧ c'.headSeq = c.headSeq)
    (hacks : ∀ peer q, n'.store.AckReaches peer q → n.store.AckReaches peer q)
    (horg : n'.store.orgAcks = n.store.orgAcks) (hguarded : Guarded "" [] none n'.store)
    (hmarkers : n.store.MarkersGrow n'.store) (himported : n'.imported = n.imported) :
    x.NodeSound w n' := by
  have hhead : n'.head = n.head := by rw [Node.head, Node.head, hledger]
  constructor
  · rw [hhead]
    exact h.nonneg
  · rw [hown, hhead]
    exact h.own
  · rw [hown, hledger]
    exact h.event
  · intro c hc
    obtain ⟨c', hc', hid, hseq⟩ := hchains c hc
    rw [himported, ← hid, ← hseq]
    exact h.chains c' hc'
  · rw [hown]
    exact fun peer r hr hreach => h.acks peer r hr (hacks peer _ hreach)
  · unfold OrgReaches
    rw [horg]
    exact h.orgAcks
  · exact hguarded
  · rw [himported]
    exact fun r hr => hmarkers _ _ (h.marked r hr)

end Network

end PolisMemory
