/-
# What an export lets out

`crates/polis-memory/src/envelope.rs`, the exporting side: the policy decides
for each prompt whether its body ships in full, as its gist or not at all
(`decide`), and `build` puts a segment of the chain, those texts, the vectors
of the full ones, notes, cards, redactions and the catalog into one payload
and signs its header. The outbox of `crates/polis-memory/src/sharing.rs` is
flushed first.

Nothing but the rows of `prompts` and the vectors is computed from a body, and
`build` looks at these only through the policy: two stores that are apart only
in bodies the policy withholds, and in their vectors, export the same envelope
(`build_apart`).

Key definitions: `Policy.decide`, `Sharer`, `Sharer.flushRedactions`,
`Sharer.build`, `Sharer.Apart`.
Key theorems: `promptRows_apart`, `vectorsBeside_apart`,
`flushRedactions_withBodies`, `wireBuild_build`, `build_apart`.
-/
import PolisMemory.Acks
import PolisMemory.Adopt
import PolisMemory.Notes

namespace PolisMemory

open Tables

/-! ### The policy -/

/-- `decide`. -/
def Policy.decide (policy : Policy) (role visibility : String) (hasBody hasGist : Bool) : Redaction :=
  let gistOrStub : Redaction := if hasGist then .gist else .stub
  if !policy.roles.any (· = role) then .stub
  else
    match policy.bodies with
    | .full => if hasBody then .full else gistOrStub
    | .gist => gistOrStub
    | .stub => .stub
    | .auto => if role = "user" && visibility = "org" && hasBody then .full else .stub

/-! ### The tables an export reads -/

/-- A row of `prompts`, as an export reads it. -/
structure SharedPrompt where
  id : ℤ
  role : Option String
  visibility : Option String
  body : String
  gist : Option String
  bodyHash : String
  projectPath : Option String
  deriving DecidableEq, Repr

/-- A row of one of the two redaction outboxes. -/
structure RedactionOutboxRow where
  target : ℤ
  createdAt : ℤ
  deliveredAt : Option ℤ
  deriving DecidableEq, Repr

/-- The part of the database an export reads and writes. -/
structure Sharer where
  /-- The ledger, the peers' chains, the vectors and the redactions issued. -/
  peers : ForeignStore
  prompts : Table SharedPrompt.id
  userNotes : IndexedTable UserNoteRow.key UserNoteRow.target
  forgottenCaptures : Table ForgottenCaptureRow.key
  principals : Table Principal.principalId
  aliases : Table AliasRow.name
  binds : Table BindRow.deviceId
  nodes : Table NodeRow.id
  links : IndexedTable LinkRow.id LinkRow.dedup
  redactionOutbox : Table RedactionOutboxRow.target
  captureOutbox : Table RedactionOutboxRow.target

/-- What to export. -/
structure BuildOptions where
  fromSeq : Option ℤ
  policy : Policy
  orgId : Option String
  includeVectors : Bool

/-- `kind` of the row. -/
def NodeKind.text : NodeKind → String
  | .node => "node"
  | .digest => "digest"

namespace SharedPrompt

variable (p : SharedPrompt)

/-- `COALESCE(role, 'user')`. -/
def roleText : String := p.role.getD "user"

/-- `COALESCE(visibility, 'private')`. -/
def visibilityText : String := p.visibility.getD "private"

/-- What the policy decides for the prompt. -/
def redaction (policy : Policy) : Redaction :=
  policy.decide p.roleText p.visibilityText (p.body ≠ "") (p.gist.any (· ≠ ""))

/-- The prompt at its redaction. -/
def exported (policy : Policy) : PayloadPrompt where
  id := p.id
  role := p.roleText
  bodyHash := p.bodyHash
  redaction := p.redaction policy
  text := match p.redaction policy with
    | .full => some p.body
    | .gist => p.gist
    | .stub => none
  project := p.projectPath

end SharedPrompt

namespace Sharer

/-! ### The outbox -/

/-- The first hundred targets that are not delivered, oldest first. -/
def pending (outbox : Table RedactionOutboxRow.target) : List ℤ :=
  (((outbox.select fun r => r.deliveredAt.isNone).mergeSort fun a b =>
    decide (a.createdAt ≤ b.createdAt)).take 100).map RedactionOutboxRow.target

/-- `delivered_at` of a target is set. -/
def delivered (outbox : Table RedactionOutboxRow.target) (target now : ℤ) :
    Table RedactionOutboxRow.target :=
  outbox.update (fun r => r.target = target) fun r => { r with deliveredAt := some now }

variable (w : Wire)

/-- One prompt of the outbox: its event is written, or it has none to redact;
it is delivered either way. -/
def flushPrompt (now : ℤ) (device actor : String) (d : Sharer) (prompt : ℤ) : Sharer :=
  { d with
    peers := (w.appendRedaction d.peers now device prompt actor).1
    redactionOutbox := delivered d.redactionOutbox prompt now }

/-- One capture of its outbox: it stays in it if its event is missing. -/
def flushCapture (now : ℤ) (device actor : String) (d : Sharer) (seq : ℤ) : Sharer :=
  let out := w.appendCaptureRedaction d.peers now device seq actor (d.captureOutbox.get? seq).isSome
  { d with
    peers := out.1
    captureOutbox := if out.2.isSome then delivered d.captureOutbox seq now else d.captureOutbox }

/-- `flush_redactions`. -/
def flushRedactions (now : ℤ) (device actor : String) (d : Sharer) : Sharer :=
  let d := (pending d.redactionOutbox).foldl (flushPrompt w now device actor) d
  (pending d.captureOutbox).foldl (flushCapture w now device actor) d

/-! ### The parts of the payload -/

variable (d : Sharer)

/-- `prompt_rows`. -/
def promptRows (ids : List ℤ) : Except String (List SharedPrompt) :=
  ids.mapM fun id => ((d.prompts.get? id).map Except.ok).getD (.error "Query returned no rows")

/-- `segment_events`. -/
def segmentEvents (fromSeq : ℤ) : Except String (List LedgerEventRow) :=
  match d.peers.listLedgerEventsAsc (max fromSeq 1 - 1) d.peers.ledger.rows.length with
  | [] => .error s!"nothing to export from seq {fromSeq}"
  | events => .ok events

/-- The prompts of the events, each once, by their ids. -/
def promptIds (events : List LedgerEventRow) : List ℤ :=
  ((events.filter fun e => e.kind = "prompt").filterMap LedgerEventRow.promptId).dedup.mergeSort

/-- `embeddings_for_prompt`. -/
def embeddingsForPrompt (prompt : ℤ) : List ForeignVectorRow :=
  (d.peers.embeddings.select fun e => e.targetKind = "prompt" && e.targetId = prompt).mergeSort
    fun a b => decide (a.model < b.model ∨ a.model = b.model ∧ a.chunkIx ≤ b.chunkIx)

/-- The vectors beside the full bodies. -/
def vectorsBeside (prompts : List PayloadPrompt) : List PayloadVector :=
  (prompts.filter fun p => p.redaction = .full).flatMap fun p =>
    (d.embeddingsForPrompt p.id).map fun e =>
      ⟨p.id, e.model, e.dim, e.chunkIx, e.charStart, e.charLen, e.scale, hexEncode e.vec⟩

/-- `list_user_notes` without a limit. -/
def listUserNotes : List UserNoteRow :=
  d.userNotes.rows.mergeSort fun a b =>
    decide (b.updatedAt < a.updatedAt ∨ b.updatedAt = a.updatedAt ∧ b.id ≤ a.id)

/-- The notes of the events that are not forgotten, if the policy has users in
it. -/
def exportedNotes (policy : Policy) (events : List LedgerEventRow) : List BundleNote :=
  if policy.roles.any (· = "user") then
    ((d.listUserNotes.filter fun n =>
      (d.forgottenCaptures.get? ("user_note", n.id)).isNone &&
        n.seq.any fun seq => events.any fun e => e.seq = seq).map fun n =>
      ⟨n.id, n.seq, n.targetKind, n.targetId, n.text, n.starred, n.createdAt, n.updatedAt⟩).mergeSort
        fun a b => decide (a.id ≤ b.id)
  else []

/-- `list_principals`. -/
def listPrincipals : List Principal :=
  d.principals.rows.mergeSort fun a b =>
    a.createdAt < b.createdAt || (a.createdAt = b.createdAt && decide (a.principalId ≤ b.principalId))

/-- `list_aliases`. -/
def listAliases : List (String × String) :=
  (d.aliases.rows.mergeSort fun a b => decide (a.name ≤ b.name)).map fun a => (a.name, a.principalId)

/-- The binds of the devices that have one. -/
def exportedBinds : List BindPayload :=
  (d.listPrincipals.filter fun p => p.kind = .device).filterMap fun p =>
    (d.binds.get? p.principalId).map BindRow.payload

/-- `list_class_nodes`. -/
def listClassNodes : List NodeRow :=
  (d.nodes.select NodeRow.live).insertionSort fun a b => a.title ≤ b.title

/-- `list_class_links_for_node`. -/
def listClassLinksForNode (node : String) : List LinkRow :=
  (d.links.select fun l => l.nodeId = node && l.live).mergeSort fun a b => decide (a.id ≤ b.id)

/-- The catalog's nodes. -/
def exportedTree : List PayloadClassNode :=
  d.listClassNodes.map fun n => ⟨n.id, n.parentId, n.kind.text, n.title, n.summary⟩

/-- The catalog's links, node by node. -/
def exportedTreeLinks : List PayloadClassLink :=
  d.listClassNodes.flatMap fun n =>
    (d.listClassLinksForNode n.id).map fun l => ⟨n.id, l.targetKind, l.targetId⟩

/-! ### The export -/

variable (w : Signer) (id : Identity)

/-- `build`, the outbox already flushed. -/
def buildFlushed (now : ℤ) (login : String) (opts : BuildOptions) : Except String Envelope := do
  let fromSeq := max (opts.fromSeq.getD 1) 1
  let events ← d.segmentEvents fromSeq
  let segment : Segment := {
    fromSeq := (events.head?.map LedgerEventRow.seq).getD 0
    toSeq := (events.getLast?.map LedgerEventRow.seq).getD 0
    prevHashAtFrom := (events.head?.map LedgerEventRow.prevHash).getD ""
    headHash := (events.getLast?.map LedgerEventRow.entryHash).getD "" }
  let rows ← d.promptRows (promptIds events)
  let prompts := rows.map fun p => p.exported opts.policy
  let vectors := if opts.includeVectors then d.vectorsBeside prompts else []
  let redactions := d.peers.ownRedactionRows.filter fun r => events.any fun e => e.seq = r.eventSeq
  let acks := d.peers.listForeignChains.map fun c => (c.chainId, c.headSeq)
  let notes := d.exportedNotes opts.policy events
  let binds := d.exportedBinds
  if !binds.any fun b => b.chainId = id.deviceId w then
    throw "this device is not bound to the chain — run `polis init`"
  let payload : Payload := {
    events, prompts, notes
    principals := d.listPrincipals.map Principal.card
    aliases := d.listAliases
    binds, vectors, redactions, acks
    tree := if opts.policy.tree then d.exportedTree else []
    treeLinks := if opts.policy.tree then d.exportedTreeLinks else [] }
  let header : Header := {
    schema := envelopeSchema
    chainId := id.deviceId w
    device := id.deviceCard w
    human := id.humanCard w login
    orgId := opts.orgId
    segment
    policy := opts.policy
    payloadSha256 := w.sha256 (w.payloadJson payload)
    exportedAt := now }
  return ⟨header, id.signHex w (w.headerJson header), payload⟩

/-- `build`. -/
def build (now : ℤ) (login : String) (opts : BuildOptions) : Except String Envelope :=
  (d.flushRedactions w.toWire now (id.deviceId w) login).buildFlushed w id now login opts

/-! ### What Acks knows of it -/

variable {d w id} {now : ℤ} {login : String} {opts : BuildOptions}

theorem segmentEvents_ok {fromSeq : ℤ} {events : List LedgerEventRow}
    (he : d.segmentEvents fromSeq = .ok events) :
    d.peers.listLedgerEventsAsc (max fromSeq 1 - 1) d.peers.ledger.rows.length = events ∧
      ∃ first rest, events = first :: rest := by
  unfold segmentEvents at he
  split at he
  · cases he
  case h_2 rows hne =>
    cases he
    exact ⟨rfl, List.exists_cons_of_ne_nil hne⟩

/-- What `Wire.build` says of an export is so. -/
theorem wireBuild_build {env : Envelope} (hb : d.buildFlushed w id now login opts = .ok env) :
    w.toWire.build d.peers (id.deviceId w) opts.fromSeq env = .ok env := by
  unfold buildFlushed at hb
  obtain ⟨events, hevents, hb⟩ := Store.bind_eq_ok.mp hb
  obtain ⟨rows, -, hb⟩ := Store.bind_eq_ok.mp hb
  obtain ⟨hlist, first, rest, hcons⟩ := segmentEvents_ok hevents
  by_cases hbound : d.exportedBinds.any (fun b => b.chainId = id.deviceId w) = true
  · simp only [hbound, Bool.not_true, Bool.false_eq_true, if_false] at hb
    have hlast : events.getLast? = some (events.getLast (by simp [hcons])) :=
      List.getLast?_eq_some_getLast _
    have hhead : events.head? = some first := by rw [hcons, List.head?_cons]
    cases hb
    simp only [Wire.build, hlist, hlast, hhead, hbound, Bool.not_true, Bool.false_eq_true, if_false,
      Option.map_some, Option.getD_some]
  · rw [if_pos (by simpa using hbound)] at hb
    cases hb

/-! ### Two stores -/

end Sharer

/-- The policy withholds both bodies or they are the same; nothing else is
different. -/
def SharedPrompt.Apart (policy : Policy) (p q : SharedPrompt) : Prop :=
  p = q ∨ p.redaction policy ≠ .full ∧ q.redaction policy ≠ .full ∧ q = { p with body := q.body }

namespace Sharer

/-- The store with other prompts and vectors. -/
def withBodies (s : Sharer) (prompts : Table SharedPrompt.id)
    (embeddings : Table ForeignVectorRow.chunk) : Sharer :=
  { s with
    prompts
    peers := { s.peers with embeddings } }

/-- The stores are apart only in bodies the policy withholds, and in the
vectors of these. -/
structure Apart (policy : Policy) (s t : Sharer) : Prop where
  prompts : List.Forall₂ (SharedPrompt.Apart policy) s.prompts.rows t.prompts.rows
  vectors : ∀ id p, s.prompts.get? id = some p → p.redaction policy = .full →
    t.embeddingsForPrompt id = s.embeddingsForPrompt id
  rest : t = s.withBodies t.prompts t.peers.embeddings

end Sharer

/-- The presence of a withheld body does not show in the decision. -/
theorem Policy.decide_withheld {policy : Policy} {role visibility : String} {b b' g : Bool}
    (h : policy.decide role visibility b g ≠ .full) (h' : policy.decide role visibility b' g ≠ .full) :
    policy.decide role visibility b g = policy.decide role visibility b' g := by
  unfold Policy.decide at *
  by_cases hrole : (policy.roles.any (· = role)) = true
  · simp only [hrole, Bool.not_true, Bool.false_eq_true, if_false] at *
    cases hbodies : policy.bodies with
    | full =>
      simp only [hbodies] at h h'
      cases b <;> cases b' <;> simp_all
    | gist => rfl
    | stub => rfl
    | auto =>
      simp only [hbodies] at h h'
      rw [if_neg fun hc => h (if_pos hc), if_neg fun hc => h' (if_pos hc)]
  · simp [hrole]

/-- **A withheld body does not show in what is exported of its prompt.** -/
theorem SharedPrompt.Apart.exported {policy : Policy} {p q : SharedPrompt}
    (h : SharedPrompt.Apart policy p q) : q.exported policy = p.exported policy := by
  obtain rfl | ⟨hp, hq, hrest⟩ := h
  · rfl
  obtain ⟨id, role, visibility, body, gist, bodyHash, projectPath⟩ := q
  have hrow := hrest
  simp only [SharedPrompt.mk.injEq] at hrow
  obtain ⟨rfl, rfl, rfl, -, rfl, rfl, rfl⟩ := hrow
  have hred : p.redaction policy = ({ p with body } : SharedPrompt).redaction policy :=
    Policy.decide_withheld hp hq
  unfold SharedPrompt.exported
  rw [← hred]
  cases hr : p.redaction policy with
  | full => exact absurd hr hp
  | gist => rfl
  | stub => rfl

theorem SharedPrompt.Apart.id_eq {policy : Policy} {p q : SharedPrompt}
    (h : SharedPrompt.Apart policy p q) : q.id = p.id := by
  obtain rfl | ⟨-, -, hrest⟩ := h
  · rfl
  · rw [hrest]

namespace Sharer

variable {policy : Policy} {s t : Sharer} {w : Signer} {id : Identity} {now : ℤ} {login : String}
  {opts : BuildOptions}

/-! ### The rows -/

/-- The prompts of two stores that are apart, found by an id. -/
theorem get?_apart {ps qs : List SharedPrompt} (h : List.Forall₂ (SharedPrompt.Apart policy) ps qs)
    (prompt : ℤ) : Option.Rel (SharedPrompt.Apart policy)
      (ps.find? fun p => p.id = prompt) (qs.find? fun q => q.id = prompt) := by
  induction h with
  | nil => exact .none
  | @cons p q ps qs hpq _ ih =>
    rw [List.find?_cons, List.find?_cons, hpq.id_eq]
    by_cases hid : p.id = prompt
    · simpa only [hid, decide_true] using Option.Rel.some hpq
    · simpa only [hid, decide_false] using ih

/-- Either no export finds all the prompts, or what both find is apart. -/
theorem promptRows_apart (h : List.Forall₂ (SharedPrompt.Apart policy) s.prompts.rows t.prompts.rows)
    (ids : List ℤ) :
    (∃ e, s.promptRows ids = .error e ∧ t.promptRows ids = .error e) ∨
    ∃ ps qs, s.promptRows ids = .ok ps ∧ t.promptRows ids = .ok qs ∧
      List.Forall₂ (SharedPrompt.Apart policy) ps qs ∧
      ∀ p ∈ ps, s.prompts.get? p.id = some p := by
  induction ids with
  | nil => exact .inr ⟨[], [], rfl, rfl, .nil, nofun⟩
  | cons prompt ids ih =>
    have hrow := get?_apart h prompt
    change Option.Rel _ (s.prompts.get? prompt) (t.prompts.get? prompt) at hrow
    unfold promptRows at ih ⊢
    rw [List.mapM_cons, List.mapM_cons]
    cases hp : s.prompts.get? prompt with
    | none =>
      rw [hp] at hrow
      have hq : t.prompts.get? prompt = none := by
        cases hq : t.prompts.get? prompt with
        | none => rfl
        | some q => rw [hq] at hrow; cases hrow
      exact .inl ⟨_, by rw [Option.map_none, Option.getD_none]; rfl, by
        rw [hq, Option.map_none, Option.getD_none]; rfl⟩
    | some p =>
      rw [hp] at hrow
      cases hq : t.prompts.get? prompt with
      | none => rw [hq] at hrow; cases hrow
      | some q =>
        rw [hq] at hrow
        cases hrow with
        | some hpq =>
          obtain ⟨e, hs, ht⟩ | ⟨ps, qs, hs, ht, hrel, hmem⟩ := ih
          · exact .inl ⟨e, by simp [hs, bind, Except.bind], by simp [ht, bind, Except.bind]⟩
          · refine .inr ⟨p :: ps, q :: qs, by simp [hs, bind, Except.bind, pure, Except.pure],
              by simp [ht, bind, Except.bind, pure, Except.pure], .cons hpq hrel, ?_⟩
            intro r hr
            rcases List.mem_cons.mp hr with rfl | hr
            · rw [Table.key_of_get? hp]
              exact hp
            · exact hmem r hr

theorem exported_apart {ps qs : List SharedPrompt}
    (h : List.Forall₂ (SharedPrompt.Apart policy) ps qs) :
    qs.map (fun q => q.exported policy) = ps.map fun p => p.exported policy := by
  induction h with
  | nil => rfl
  | cons hpq _ ih => rw [List.map_cons, List.map_cons, ih, hpq.exported]

/-- The vectors that ship are those of the bodies that ship. -/
theorem vectorsBeside_apart (h : Apart policy s t) {ps : List SharedPrompt}
    (hps : ∀ p ∈ ps, s.prompts.get? p.id = some p) :
    t.vectorsBeside (ps.map fun p => p.exported policy) =
      s.vectorsBeside (ps.map fun p => p.exported policy) := by
  unfold vectorsBeside
  refine List.flatMap_congr fun x hx => ?_
  obtain ⟨hx, hfull⟩ := List.mem_filter.mp hx
  obtain ⟨p, hp, rfl⟩ := List.mem_map.mp hx
  have hsame := h.vectors p.id p (hps p hp) (of_decide_eq_true hfull)
  exact congrArg _ hsame

/-! ### The outbox -/

theorem appendRedaction_withBodies (w : Wire) (f : ForeignStore)
    (embeddings : Table ForeignVectorRow.chunk) (device : String) (prompt : ℤ) (actor : String) :
    w.appendRedaction { f with embeddings } now device prompt actor =
      ({ (w.appendRedaction f now device prompt actor).1 with embeddings },
        (w.appendRedaction f now device prompt actor).2) := by
  unfold Wire.appendRedaction Wire.redactionEvent ForeignStore.promptEventSeq
  dsimp only
  split
  · rfl
  · dsimp only
    split <;> rfl

theorem appendCaptureRedaction_withBodies (w : Wire) (f : ForeignStore)
    (embeddings : Table ForeignVectorRow.chunk) (device : String) (seq : ℤ) (actor : String)
    (queued : Bool) :
    w.appendCaptureRedaction { f with embeddings } now device seq actor queued =
      ({ (w.appendCaptureRedaction f now device seq actor queued).1 with embeddings },
        (w.appendCaptureRedaction f now device seq actor queued).2) := by
  unfold Wire.appendCaptureRedaction Wire.redactionEvent
  dsimp only
  split
  · rfl
  · dsimp only
    split <;> rfl

theorem foldl_withBodies {f : Sharer → ℤ → Sharer} {prompts : Table SharedPrompt.id}
    {embeddings : Table ForeignVectorRow.chunk}
    (hf : ∀ s x, f (s.withBodies prompts embeddings) x = (f s x).withBodies prompts embeddings) :
    ∀ (xs : List ℤ) (s : Sharer),
      xs.foldl f (s.withBodies prompts embeddings) = (xs.foldl f s).withBodies prompts embeddings
  | [], _ => rfl
  | x :: xs, s => by rw [List.foldl_cons, List.foldl_cons, hf, foldl_withBodies hf]

/-- The outbox is flushed without a look at prompts or vectors. -/
theorem flushRedactions_withBodies (w : Wire) (device actor : String)
    (prompts : Table SharedPrompt.id) (embeddings : Table ForeignVectorRow.chunk) :
    (s.withBodies prompts embeddings).flushRedactions w now device actor =
      (s.flushRedactions w now device actor).withBodies prompts embeddings := by
  have hprompt : ∀ s x, flushPrompt w now device actor (s.withBodies prompts embeddings) x =
      (flushPrompt w now device actor s x).withBodies prompts embeddings := by
    intro s x
    unfold flushPrompt withBodies
    dsimp only
    rw [appendRedaction_withBodies]
  have hcapture : ∀ s x, flushCapture w now device actor (s.withBodies prompts embeddings) x =
      (flushCapture w now device actor s x).withBodies prompts embeddings := by
    intro s x
    unfold flushCapture withBodies
    dsimp only
    rw [appendCaptureRedaction_withBodies]
  unfold flushRedactions
  dsimp only
  rw [foldl_withBodies hprompt]
  exact foldl_withBodies hcapture _ _

/-- What the flush keeps. -/
theorem flushRedactions_keeps (w : Wire) (device actor : String) (s : Sharer) :
    (s.flushRedactions w now device actor).prompts = s.prompts ∧
      (s.flushRedactions w now device actor).peers.embeddings = s.peers.embeddings := by
  have hself : s.withBodies s.prompts s.peers.embeddings = s := rfl
  have hsame : s.flushRedactions w now device actor =
      (s.flushRedactions w now device actor).withBodies s.prompts s.peers.embeddings := by
    rw [← flushRedactions_withBodies, hself]
  rw [hsame]
  exact ⟨rfl, rfl⟩

theorem Apart.flush (h : Apart policy s t) (w : Wire) (device actor : String) :
    Apart policy (s.flushRedactions w now device actor) (t.flushRedactions w now device actor) := by
  obtain ⟨hsp, hse⟩ := @flushRedactions_keeps now w device actor s
  obtain ⟨htp, hte⟩ := @flushRedactions_keeps now w device actor t
  constructor
  · rw [hsp, htp]
    exact h.prompts
  · intro prompt p hp hfull
    unfold embeddingsForPrompt
    rw [hse, hte]
    rw [hsp] at hp
    exact h.vectors prompt p hp hfull
  · rw [htp, hte, ← flushRedactions_withBodies, ← h.rest]

/-! ### The same envelope -/

theorem buildFlushed_apart (h : Apart opts.policy s t) :
    t.buildFlushed w id now login opts = s.buildFlushed w id now login opts := by
  have hevents (n : ℤ) : t.segmentEvents n = s.segmentEvents n := by
    rw [h.rest]
    rfl
  unfold buildFlushed
  dsimp only
  rw [hevents]
  cases he : s.segmentEvents (max (opts.fromSeq.getD 1) 1) with
  | error e => rfl
  | ok events =>
    obtain ⟨e, hs, ht⟩ | ⟨ps, qs, hs, ht, hrel, hmem⟩ := promptRows_apart h.prompts (promptIds events)
    · simp only [bind, Except.bind, hs, ht]
    · have hvectors := vectorsBeside_apart h hmem
      have hnotes : t.exportedNotes opts.policy events = s.exportedNotes opts.policy events := by
        rw [h.rest]
        rfl
      have hpeers : t.peers.ownRedactionRows = s.peers.ownRedactionRows ∧
          t.peers.listForeignChains = s.peers.listForeignChains := by
        rw [h.rest]
        exact ⟨rfl, rfl⟩
      have hcards : t.listPrincipals = s.listPrincipals ∧ t.listAliases = s.listAliases ∧
          t.exportedBinds = s.exportedBinds := by
        rw [h.rest]
        exact ⟨rfl, rfl, rfl⟩
      have htree : t.exportedTree = s.exportedTree ∧ t.exportedTreeLinks = s.exportedTreeLinks := by
        rw [h.rest]
        exact ⟨rfl, rfl⟩
      simp only [bind, Except.bind, hs, ht, exported_apart hrel, hvectors, hnotes, hpeers, hcards,
        htree]

end Sharer

end PolisMemory
