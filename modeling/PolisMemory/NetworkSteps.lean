/-
# What a store of the network keeps

Each step of a store keeps what a store may have in a network
(`Network.NodeSound`), if no ack of one own chain is counted for a redaction of
another: a redaction is appended past every recorded ack, an import and a relayed
ack reach only redactions of the chain they are of, or ones that were reached
before.

Key definitions: `Node.Meets`.
Key theorems: `Sound.held_segment`, `Sound.receive`, `Sound.redact`,
`Sound.act`.
-/
import PolisMemory.Network

namespace PolisMemory

open Tables ForeignStore

/-! ### The condition of a step -/

namespace Node

variable (w : Wire) (n : Node)

/-- A redaction that appends an event does so past every recorded ack. -/
def RedactMeets (s' : ForeignStore) : Prop :=
  s'.ledger = n.store.ledger ∨ ∀ peer, ¬ n.store.AckReaches peer (n.head + 1)

/-- An own redaction that an ack of one own chain reaches is on that chain, or
was reached before. -/
def FetchMeets (ack : String × String × ℤ) : Prop :=
  ∀ r ∈ n.store.ownRedactions.rows, r.eventSeq ≤ ack.2.2 →
    r.chainId = ack.2.1 ∨ n.store.AckReaches ack.1 r.eventSeq

/-- An own redaction that an ack of the segment reaches is on the chain of the
ack, or was reached before, or is reached by an ack of its own chain; and the
segment brings no event of a tombstoned capture for a note that is here with
text. -/
def ImportMeets (now : ℤ) (opts : ImportOptions) (env : Envelope) : Prop :=
  ∀ start, w.Admits now opts n.store env start → n.store.Covers env start.2 ∧
    ∀ a ∈ env.payload.acks, n.store.isOwnDevice a.1 = true →
      ∀ r ∈ n.store.ownRedactions.rows, r.eventSeq ≤ a.2 →
        r.chainId = a.1 ∨ n.store.AckReaches env.header.chainId r.eventSeq ∨
          ∃ a' ∈ env.payload.acks, a'.1 = r.chainId ∧ r.eventSeq ≤ a'.2

/-- The condition of a step. -/
def Meets : NodeStep → Prop
  | .redact now promptId actor =>
    n.RedactMeets (w.appendRedaction n.store now n.device promptId actor).1
  | .redactCapture now targetSeq actor queued =>
    n.RedactMeets (w.appendCaptureRedaction n.store now n.device targetSeq actor queued).1
  | .importing now opts env => n.ImportMeets w now opts env
  | .relay now tofu _ env => n.ImportMeets w now ⟨tofu, true, none⟩ env
  | .fetch _ ack => n.FetchMeets ack
  | _ => True

end Node

/-! ### The redactions of a store -/

theorem redactionHash_inj {w : Wire} (hsha : Function.Injective w.sha256) {r r' : RedactionPayload}
    (h : w.redactionHash r = w.redactionHash r') : r.chainId = r'.chainId ∧ r.seq = r'.seq := by
  have htext := congrArg String.toList (hsha h)
  simp only [String.toList_ofList] at htext
  have hvalues := (JsonText.obj_suffix "chainId" ["seq"] [.str r.chainId, .int r.seq]
    [.str r'.chainId, .int r'.seq] [] [] rfl rfl htext).2
  simp only [List.cons.injEq, JsonText.Scalar.str.injEq, JsonText.Scalar.int.injEq,
    and_true] at hvalues
  exact hvalues

theorem ledger_last_appended (sha256 : String → String) (t : LedgerTable) (a : LedgerAppend) :
    (appended sha256 t a).last = some (successor sha256 t.last a) := by
  rw [LedgerTable.last, rows_appended, List.getLast?_append, List.getLast?_singleton, Option.some_or]

namespace Network

variable {ι : Type} {x y : Network ι} {w : Wire} {n n' : Node} {env : Envelope} {now : ℤ}
  {payload : RedactionPayload} {a : LedgerAppend} {existing : LedgerEventRow → Bool}

/-- What a redaction writes: the payload of an event that is there once more,
or the next event with its payload. -/
theorem NodeSound.redactionEvent_cases (h : x.NodeSound w n) (hsha : Function.Injective w.sha256)
    (hexisting : ∀ e, existing e = true →
      e.kind = "redaction" ∧ e.payloadHash = w.redactionHash payload) :
    ((w.redactionEvent n.store existing a payload).1.ledger = n.store.ledger ∧
        ∀ r, r ∈ (w.redactionEvent n.store existing a payload).1.ownRedactions.rows ↔
          r ∈ n.store.ownRedactions.rows) ∨
      ((w.redactionEvent n.store existing a payload).1.ledger = appended w.sha256 n.store.ledger a ∧
        ∀ r, r ∈ (w.redactionEvent n.store existing a payload).1.ownRedactions.rows ↔
          r ∈ n.store.ownRedactions.rows ∨ r = { payload with eventSeq := n.head + 1 }) := by
  rcases PolisMemory.redactionEvent_cases w n.store existing a payload with
    ⟨e, he, hhit, heq⟩ | heq
  · -- the event has its payload already, and it is this one
    obtain ⟨hkind, hhash⟩ := hexisting e hhit
    obtain ⟨r₀, hr₀, hseq, hhash₀⟩ := h.event e he hkind
    obtain ⟨hchain, htarget⟩ := redactionHash_inj hsha (hhash₀.trans hhash)
    have hsame : r₀ = { payload with eventSeq := e.seq } := by
      rw [← hseq, ← hchain, ← htarget]
    rw [heq]
    refine .inl ⟨rfl, fun r => ?_⟩
    rw [← hsame, Table.mem_rows, Table.mem_rows, Table.get?_upsert]
    by_cases hkey : r₀.eventSeq = r.eventSeq
    · rw [if_pos hkey, ← hkey, Table.mem_rows.mp hr₀]
    · rw [if_neg hkey]
  · rw [heq]
    refine .inr ⟨rfl, fun r => ?_⟩
    have hnext : (successor w.sha256 n.store.ledger.last a).seq = n.head + 1 := rfl
    rw [hnext, Table.mem_rows, Table.mem_rows, Table.get?_upsert]
    by_cases hkey : n.head + 1 = r.eventSeq
    · rw [if_pos hkey, Option.some.injEq]
      constructor
      · exact fun hr => .inr hr.symm
      · rintro (hr | rfl)
        · have hle := (h.own r (Table.mem_rows.mpr hr)).2.1
          omega
        · rfl
    · rw [if_neg hkey]
      constructor
      · exact .inl
      · rintro (hr | rfl)
        · exact hr
        · exact absurd rfl hkey

/-- The event and its payload, or its payload once more. -/
theorem NodeSound.grows_redact (h : x.NodeSound w n) (hsha : Function.Injective w.sha256)
    (hexisting : ∀ e, existing e = true →
      e.kind = "redaction" ∧ e.payloadHash = w.redactionHash payload) :
    n.Grows { n with store := (w.redactionEvent n.store existing a payload).1 } := by
  rcases h.redactionEvent_cases hsha (a := a) hexisting with ⟨hledger, hown⟩ | ⟨hledger, hown⟩
  · refine ⟨?_, fun r hr => (hown r).mpr hr, fun r hr => .inl ((hown r).mp hr), fun _ hr => hr⟩
    simp only [Node.head, hledger]
    exact le_rfl
  · refine ⟨?_, fun r hr => (hown r).mpr (.inl hr), fun r hr => ?_, fun _ hr => hr⟩
    · simp only [Node.head, hledger, ledger_last_appended, Option.map_some, Option.getD_some]
      have hnext : (successor w.sha256 n.store.ledger.last a).seq = n.head + 1 := rfl
      rw [hnext, Node.head]
      omega
    · rcases (hown r).mp hr with hold | rfl
      · exact .inl hold
      · refine .inr ?_
        change n.head < n.head + 1
        omega

theorem NodeSound.redact (h : y.NodeSound w n) (hsha : Function.Injective w.sha256)
    (hexisting : ∀ e, existing e = true →
      e.kind = "redaction" ∧ e.payloadHash = w.redactionHash payload)
    (ha : a.payloadHash = w.redactionHash payload)
    (hmeets : n.RedactMeets (w.redactionEvent n.store existing a payload).1)
    (hn' : n' = { n with store := (w.redactionEvent n.store existing a payload).1 })
    (hissued : ∀ r ∈ n'.store.ownRedactions.rows, r.chainId = payload.chainId → y.Issued r) :
    y.NodeSound w n' := by
  obtain ⟨ledger, own, hstore⟩ := redactionEvent_eq w n.store existing a payload
  have hcases := h.redactionEvent_cases hsha (a := a) hexisting
  unfold Node.RedactMeets at hmeets
  rw [hstore] at hcases hmeets hn'
  subst hn'
  dsimp only at hcases hissued hmeets
  have hguarded : Guarded "" [] none { n.store with ledger := ledger, ownRedactions := own } :=
    h.guarded.of_tables rfl
  rcases hcases with ⟨rfl, hown⟩ | ⟨rfl, hown⟩
  · exact ⟨h.nonneg, fun r hr => h.own r ((hown r).mp hr), fun e he hkind => by
      obtain ⟨r, hr, hre⟩ := h.event e he hkind
      exact ⟨r, (hown r).mpr hr, hre⟩, h.chains,
      fun peer r hr hreach => h.acks peer r ((hown r).mp hr) hreach, h.orgAcks, hguarded, h.marked⟩
  · have hhead : Node.head { n with store := { n.store with
        ledger := appended w.sha256 n.store.ledger a
        ownRedactions := own } } = n.head + 1 := by
      simp only [Node.head, ledger_last_appended, Option.map_some, Option.getD_some]
      rfl
    have hnonneg := h.nonneg
    have hfresh : ∀ peer, ¬ n.store.AckReaches peer (n.head + 1) := by
      rcases hmeets with hsame | hfresh
      · -- the ledger has one more event
        have hrows := congrArg (fun t => t.rows.length) hsame
        simp [rows_appended] at hrows
      · exact hfresh
    refine ⟨?_, fun r hr => ?_, fun e he hkind => ?_, h.chains, fun peer r hr hreach => ?_, h.orgAcks,
      hguarded, h.marked⟩
    · rw [hhead]
      omega
    · rw [hhead]
      rcases (hown r).mp hr with hold | rfl
      · obtain ⟨hpos, hle, hiss⟩ := h.own r hold
        exact ⟨hpos, by omega, hiss⟩
      · refine ⟨?_, le_rfl, hissued _ hr rfl⟩
        change 0 < n.head + 1
        omega
    · change e ∈ (appended w.sha256 n.store.ledger a).rows at he
      rw [rows_appended, List.mem_append, List.mem_singleton] at he
      rcases he with he | rfl
      · obtain ⟨r, hr, hre⟩ := h.event e he hkind
        exact ⟨r, (hown r).mpr (.inl hr), hre⟩
      · exact ⟨_, (hown _).mpr (.inr rfl), rfl, ha.symm⟩
    · rcases (hown r).mp hr with hold | rfl
      · exact h.acks peer r hold hreach
      · exact absurd hreach (hfresh peer)

/-! ### Imports -/

theorem mem_events {env : Envelope} {e : LedgerEventRow} : e ∈ env.events ↔ e ∈ env.payload.events :=
  (sortedEvents_perm _).mem_iff

/-- A seq of a verified segment is that of one of its events. -/
theorem exists_event {env : Envelope} (hseg : env.SegmentOk w) {last : LedgerEventRow}
    (hlast : env.events.getLast? = some last) {q : ℤ} (hfrom : env.header.segment.fromSeq ≤ q)
    (hto : q ≤ last.seq) : ∃ e ∈ env.events, e.seq = q := by
  have hend := seq_of_getLast? hseg.seqs hlast
  have hmem : q ∈ env.events.map LedgerEventRow.seq := by
    rw [hseg.seqs, mem_seqsFrom]
    omega
  obtain ⟨e, he, hseq⟩ := List.mem_map.mp hmem
  exact ⟨e, he, hseq⟩

/-- **After the rows of a segment went in, every redaction of its chain up to
the segment's last event is imported.** -/
theorem Sound.held_segment (hx : x.Sound w) (h : x.NodeSound w n) (henv : x.EnvelopeSound env)
    {opts : ImportOptions} {start : ℤ × ℤ} (hadmits : w.Admits now opts n.store env start)
    {last : LedgerEventRow} (hlast : env.events.getLast? = some last) :
    x.Held (n.imported ++ env.redactionInputs) env.header.chainId last.seq := by
  obtain ⟨v, hv⟩ := ok_of_isOk hadmits.verified
  have hseg := Envelope.segment_of_verify hv
  obtain ⟨k, o, hk, ho, hevents, hredactions, -⟩ := henv
  refine ⟨k, o, hk, ho, hevents last (mem_events.mp (List.mem_of_getLast? hlast)),
    fun r hr hchain hle => ?_⟩
  have hpos := ((hx.node k o ho).own r hr).1
  have hcarried : env.header.segment.fromSeq ≤ r.eventSeq →
      r.input ∈ n.imported ++ env.redactionInputs := by
    intro hfrom
    obtain ⟨e, he, hseq⟩ := exists_event hseg hlast hfrom hle
    refine List.mem_append_right _ (List.mem_map.mpr ⟨r, List.mem_filter.mpr ⟨?_, ?_⟩, rfl⟩)
    · exact hredactions r hr ⟨e, mem_events.mp he, hseq⟩
    · exact List.any_eq_true.mpr ⟨e, he, decide_eq_true hseq⟩
  rcases continuity_ok hadmits.continuity with ⟨-, hfrom, -⟩ | ⟨c, hc, -, hfrom, -⟩
  · exact hcarried (by omega)
  · by_cases hold : r.eventSeq ≤ c.headSeq
    · -- it came before
      have hid : c.chainId = env.header.chainId := Table.key_of_get? hc
      have hheld := h.chains c (Table.get?_eq_some.mp hc).1
      rw [hid] at hheld
      obtain ⟨k', o', hk', ho', -, hall⟩ := hheld
      rw [hk, Option.some.injEq] at hk'
      subst hk'
      rw [ho, Option.some.injEq] at ho'
      subst ho'
      exact List.mem_append_left _ (hall r hr hchain hold)
    · exact hcarried (by omega)

/-- A chain's new head is one of the two. -/
theorem headSeq_advanced (old : Option ForeignChain) (c : ForeignChain) :
    (advanced old c).headSeq = c.headSeq ∧ (∀ o ∈ old, o.headSeq ≤ c.headSeq) ∨
      ∃ o ∈ old, (advanced old c).headSeq = o.headSeq ∧ c.headSeq ≤ o.headSeq := by
  cases old with
  | none => exact .inl ⟨rfl, fun o ho => by cases ho⟩
  | some o =>
    rcases le_total o.headSeq c.headSeq with hle | hle
    · refine .inl ⟨max_eq_right hle, fun o' ho' => ?_⟩
      cases ho'
      exact hle
    · exact .inr ⟨o, rfl, max_eq_left hle, hle⟩

theorem headSeq_of_marked {s : ForeignStore} {chainId : String} {chains : Table ForeignChain.chainId}
    (h : s.AtMostMarked chainId chains) {c : ForeignChain} (hc : c ∈ chains.rows) :
    ∃ c' ∈ s.chains.rows, c'.chainId = c.chainId ∧ c'.headSeq = c.headSeq := by
  rcases h with rfl | ⟨detail, rfl⟩
  · exact ⟨c, hc, rfl, rfl⟩
  · obtain ⟨c', hc', rfl⟩ := List.mem_map.mp hc
    refine ⟨c', hc', ?_⟩
    split_ifs <;> exact ⟨rfl, rfl⟩

/-- The chains of an import that went in: that of the segment is held up to
its last event. -/
theorem Sound.held_importRows (hx : x.Sound w) (h : x.NodeSound w n) (henv : x.EnvelopeSound env)
    {opts : ImportOptions} {start : ℤ × ℤ} (hadmits : w.Admits now opts n.store env start)
    {trust : Table TrustEntry.principalId} {projects : List String} {t : ForeignStore}
    (ht : { n.store with trust := trust }.importRows now env projects start = .ok t) :
    x.Held (n.imported ++ env.redactionInputs) env.header.chainId env.header.segment.toSeq ∧
      ∀ c ∈ t.chains.rows, x.Held (n.imported ++ env.redactionInputs) c.chainId c.headSeq := by
  have hold : ∀ c ∈ n.store.chains.rows,
      x.Held (n.imported ++ env.redactionInputs) c.chainId c.headSeq :=
    fun c hc => (h.chains c hc).subset fun r hr => List.mem_append_left _ hr
  obtain ⟨last, hlast, hchains⟩ := chains_importRows ht
  have hheld := hx.held_segment h henv hadmits hlast
  obtain ⟨v, hv⟩ := ok_of_isOk hadmits.verified
  have hto := (Envelope.segment_of_verify hv).toSeq last hlast
  refine ⟨hto ▸ hheld, fun c hc => ?_⟩
  rw [hchains] at hc
  rcases Table.mem_upsert hc with rfl | ⟨hc, -⟩
  · have hid : (advanced (n.store.chains.get? env.header.chainId)
        (env.chainRow now start.1 last)).chainId = env.header.chainId :=
      advanced_chainId fun o ho => Table.key_of_get? ho
    have hrow : (env.chainRow now start.1 last).headSeq = last.seq := rfl
    rcases headSeq_advanced (n.store.chains.get? env.header.chainId) (env.chainRow now start.1 last) with
      ⟨hseq, -⟩ | ⟨o, ho, hseq, -⟩
    · change x.Held _ (advanced (n.store.chains.get? env.header.chainId) _).chainId
        (advanced (n.store.chains.get? env.header.chainId) _).headSeq
      rw [hid, hseq, hrow]
      exact hheld
    · change x.Held _ (advanced (n.store.chains.get? env.header.chainId) _).chainId
        (advanced (n.store.chains.get? env.header.chainId) _).headSeq
      have hkey : o.chainId = env.header.chainId := Table.key_of_get? ho
      rw [hid, hseq, ← hkey]
      exact hold o (Table.get?_eq_some.mp ho).1
  · exact hold c hc

/-- **An import keeps what a store may have**; and where it goes through, the
segment's redactions are imported. -/
theorem Sound.receive (hx : x.Sound w) (h : x.NodeSound w n) (henv : x.EnvelopeSound env)
    {opts : ImportOptions} (hmeets : n.ImportMeets w now opts env) :
    n.Grows (n.receive w now opts env) ∧ x.NodeSound w (n.receive w now opts env) ∧
      (n.store.isOwnDevice env.header.chainId = false →
        (w.importEnvelope now opts n.store env).2.isOk = true →
          x.Held (n.receive w now opts env).imported env.header.chainId env.header.segment.toSeq) := by
  obtain ⟨hguarded, hgrow, hmarks⟩ := h.guarded.importEnvelope
    fun start hadmits => (hmeets start hadmits).1
  rcases Wire.importEnvelope_cases w now opts n.store env with
    ⟨start, trust, t, report, hadmits, hrows, heq⟩ | ⟨⟨trust, chains, hmarked, heq⟩, hrefused⟩
  · have hforeign := hadmits.foreign
    rw [heq] at hguarded hgrow hmarks
    have hreceive : n.receive w now opts env =
        { n with
          store := t.importRest now opts env start.2
          imported := n.imported ++ env.redactionInputs } := by
      unfold Node.receive
      rw [heq, hforeign]
      rfl
    have hbesides := besides_importRows hrows
    have howned : (t.importRest now opts env start.2).owned = t.owned := t.owned_importRest opts env start.2
    simp only [besides, owned, Prod.mk.injEq] at hbesides howned
    obtain ⟨hprincipals, hledger, hacks, horg, -, hown⟩ := hbesides
    obtain ⟨-, hledger', -, hown'⟩ := howned
    have hchains' : (t.importRest now opts env start.2).chains = t.chains :=
      congrArg Prod.fst (t.chainTables_importRest opts env start.2)
    obtain ⟨hto, hchains⟩ := hx.held_importRows h henv hadmits hrows
    have hdevice (c : String) : t.isOwnDevice c = n.store.isOwnDevice c := by
      rw [isOwnDevice, isOwnDevice, hprincipals]
    obtain ⟨-, -, -, -, -, -, hclaims⟩ := henv
    rw [hreceive]
    refine ⟨⟨?_, ?_, ?_, fun r hr => List.mem_append_left _ hr⟩, ?_, fun _ _ => hto⟩
    · simp only [Node.head, hledger', hledger, le_refl]
    · simp only [hown', hown, imp_self, implies_true]
    · simp only [hown', hown]
      exact fun r hr => .inl hr
    · constructor
      · simp only [Node.head, hledger', hledger]
        exact h.nonneg
      · simp only [Node.head, hledger', hledger, hown', hown]
        exact h.own
      · simp only [hledger', hledger, hown', hown]
        exact h.event
      · simp only [hchains']
        exact hchains
      · intro peer r hr hreach
        simp only [hown', hown] at hr
        obtain ⟨-, -, hissued⟩ := h.own r hr
        dsimp only at hreach
        rw [ackReaches_importRest] at hreach
        rcases hreach with hreach | ⟨rfl, a, ha, hdev, hle⟩
        · unfold AckReaches at hreach
          rw [hacks] at hreach
          exact h.acks peer r hr hreach
        · rw [hdevice] at hdev
          rcases (hmeets start hadmits).2 a ha hdev r hr hle with hchain | hreach | ⟨a', ha', hchain, hle'⟩
          · have hclaim := hclaims a ha
            rw [← hchain] at hclaim
            exact hclaim.knows hissued hle
          · exact h.acks _ r hr hreach
          · have hclaim := hclaims a' ha'
            rw [hchain] at hclaim
            exact hclaim.knows hissued hle'
      · intro peer c q hreach
        dsimp only at hreach
        rw [orgReaches_importRest] at hreach
        rcases hreach with hreach | ⟨rfl, a, ha, rfl, hle⟩
        · unfold OrgReaches at hreach
          rw [horg] at hreach
          exact h.orgAcks peer c q hreach
        · exact (hclaims a ha).le hle
      · exact hguarded
      · intro r hr
        rcases List.mem_append.mp hr with hr | hr
        · exact hgrow _ _ (h.marked r hr)
        · exact hmarks hforeign rfl r hr
  · rw [heq] at hguarded hgrow
    have himported : (n.receive w now opts env).imported = n.imported := by
      unfold Node.receive
      dsimp only
      cases hdev : n.store.isOwnDevice env.header.chainId with
      | true => rfl
      | false => rw [hrefused hdev]; rfl
    have hstore : (n.receive w now opts env).store = { n.store with trust := trust, chains := chains } := heq
    refine ⟨⟨?_, ?_, ?_, ?_⟩, ?_, fun hdev hok => ?_⟩
    · simp only [Node.head, hstore, le_refl]
    · simp only [hstore, imp_self, implies_true]
    · simp only [hstore]
      exact fun r hr => .inl hr
    · rw [himported]
      exact fun r hr => hr
    · refine h.lose ?_ ?_ ?_ ?_ ?_ ?_ ?_ himported
      · rw [hstore]
      · rw [hstore]
      · rw [hstore]
        exact fun c hc => headSeq_of_marked hmarked hc
      · rw [hstore]
        exact fun _ _ hreach => hreach
      · rw [hstore]
      · rw [hstore]
        exact hguarded
      · rw [hstore]
        exact hgrow
    · rw [hrefused hdev] at hok
      cases hok

/-! ### The other steps of a store -/

/-- An event that is not a redaction. -/
theorem NodeSound.append (h : x.NodeSound w n) (ha : a.kind ≠ "redaction")
    (hn' : n' = { n with store := { n.store with ledger := appended w.sha256 n.store.ledger a } }) :
    n.Grows n' ∧ x.NodeSound w n' := by
  have hhead : n'.head = n.head + 1 := by
    rw [hn']
    simp only [Node.head, ledger_last_appended, Option.map_some, Option.getD_some]
    rfl
  have hnonneg := h.nonneg
  subst hn'
  refine ⟨⟨by omega, fun _ hr => hr, fun _ hr => .inl hr, fun _ hr => hr⟩, ?_⟩
  refine ⟨by omega, fun r hr => ?_, fun e he hkind => ?_, h.chains, h.acks, h.orgAcks,
    h.guarded.of_tables rfl, h.marked⟩
  · obtain ⟨hpos, hle, hissued⟩ := h.own r hr
    exact ⟨hpos, by omega, hissued⟩
  · change e ∈ (appended w.sha256 n.store.ledger a).rows at he
    rw [rows_appended, List.mem_append, List.mem_singleton] at he
    rcases he with he | rfl
    · exact h.event e he hkind
    · exact absurd hkind ha

/-- More acks of chains that the network bears out. -/
theorem NodeSound.hear (h : x.NodeSound w n) {orgAcks : Table fun r : OrgAckRow => (r.ackerChain, r.chainId)}
    (horg : ∀ peer a q, { n.store with orgAcks := orgAcks }.OrgReaches peer a q → x.Claim peer a q) :
    x.NodeSound w { n with store := { n.store with orgAcks := orgAcks } } :=
  ⟨h.nonneg, h.own, h.event, h.chains, h.acks, horg, h.guarded.of_tables rfl, h.marked⟩

/-- The org node's import, and its own ack. -/
theorem Sound.relay (hx : x.Sound w) {i : ι} (hn : x.node i = some n) (henv : x.EnvelopeSound env)
    {tofu : Bool} (hmeets : n.ImportMeets w now ⟨tofu, true, none⟩ env) (kept : Except String Unit)
    (hn' : n' = n.step w (.relay now tofu kept env)) (hxy : n.Grows n' → x.Grows y)
    (hy : y.node i = some n') : n.Grows n' ∧ y.NodeSound w n' := by
  obtain ⟨hgrows, hsound, hto⟩ := hx.receive (hx.node i n hn) henv hmeets
  have hforeign : ∀ report, (w.importEnvelope now ⟨tofu, true, none⟩ n.store env).2 = .ok report →
      report.outcome ≠ .ownChain → n.store.isOwnDevice env.header.chainId = false := by
    intro report hok houtcome
    rw [← Bool.not_eq_true]
    intro hown
    refine houtcome ?_
    unfold Wire.importEnvelope at hok
    cases hv : w.verify env with
    | error e => simp only [hv, reduceCtorEq] at hok
    | ok v =>
      cases hp : w.checkPayload env with
      | some e => simp only [hv, hp, reduceCtorEq] at hok
      | none =>
        simp only [hv, hp, hown, if_true] at hok
        cases hag : w.verifyAgainst n.store env with
        | error e => simp only [hag, reduceCtorEq] at hok
        | ok v' =>
          simp only [hag, Except.ok.injEq] at hok
          rw [← hok]
          rfl
  have hpublish : (w.publish now tofu n.device kept n.store env).1 =
        (n.receive w now ⟨tofu, true, none⟩ env).store ∨
      (n.store.isOwnDevice env.header.chainId = false ∧
        (w.importEnvelope now ⟨tofu, true, none⟩ n.store env).2.isOk = true ∧
        (w.publish now tofu n.device kept n.store env).1 =
          (n.receive w now ⟨tofu, true, none⟩ env).store.recordOrgAck now n.device env.header.chainId
            env.header.segment.toSeq) := by
    have hstore : (n.receive w now ⟨tofu, true, none⟩ env).store =
      (w.importEnvelope now ⟨tofu, true, none⟩ n.store env).1 := rfl
    rw [hstore]
    unfold Wire.publish
    cases hout : w.importEnvelope now ⟨tofu, true, none⟩ n.store env with
    | mk s res =>
      rw [hout] at hforeign
      cases res with
      | error e => exact .inl rfl
      | ok report =>
        dsimp only at hforeign ⊢
        by_cases hown : report.outcome = .ownChain
        · rw [if_pos hown]
          exact .inl rfl
        · rw [if_neg hown]
          cases kept with
          | error detail => exact .inl rfl
          | ok u => exact .inr ⟨hforeign report rfl hown, rfl, rfl⟩
  have hstep : n' = { n.receive w now ⟨tofu, true, none⟩ env with
      store := (w.publish now tofu n.device kept n.store env).1 } := hn'
  rcases hpublish with hsame | ⟨hdev, hok, hrecord⟩
  · rw [hsame] at hstep
    have heq : n' = n.receive w now ⟨tofu, true, none⟩ env := hstep
    rw [heq] at hxy ⊢
    exact ⟨hgrows, hsound.mono (hxy hgrows)⟩
  · rw [hrecord] at hstep
    have hgrows' : n.Grows n' := by
      rw [hstep]
      exact ⟨hgrows.head, hgrows.own, hgrows.past, hgrows.imported⟩
    refine ⟨hgrows', ?_⟩
    have hxy' := hxy hgrows'
    have hheld := (hto hdev hok).mono hxy'
    have hsound' := hsound.mono hxy'
    have himported : n'.imported = (n.receive w now ⟨tofu, true, none⟩ env).imported := by rw [hstep]
    have hdevice := hxy'.owner _ _ (hx.device i n hn)
    have hall : y.NodeSound w { n.receive w now ⟨tofu, true, none⟩ env with
        store := (n.receive w now ⟨tofu, true, none⟩ env).store.recordOrgAck now n.device
          env.header.chainId env.header.segment.toSeq } := by
      refine hsound'.hear fun peer c q hreach => ?_
      rcases orgReaches_recordOrgAck.mp hreach with hold | ⟨hkey, hle⟩
      · exact hsound'.orgAcks peer c q hold
      · obtain ⟨rfl, rfl⟩ := Prod.mk.inj hkey
        refine ⟨i, n', hdevice, hy, ?_⟩
        rw [himported]
        exact hheld.le hle
    rwa [hstep]

/-- A store that keeps its ledger, its redactions and its imports. -/
theorem grows_of_eq (hledger : n'.store.ledger = n.store.ledger)
    (hown : n'.store.ownRedactions = n.store.ownRedactions) (himported : n'.imported = n.imported) :
    n.Grows n' := by
  refine ⟨?_, ?_, ?_, ?_⟩
  · rw [Node.head, Node.head, hledger]
  · rw [hown]
    exact fun _ hr => hr
  · rw [hown]
    exact fun _ hr => .inl hr
  · rw [himported]
    exact fun _ hr => hr

/-- The steps that take chains, acks or bodies away, or that are about none of
them. -/
theorem NodeSound.quiet (h : x.NodeSound w n) (st : NodeStep) (hst : match st with
      | .enroll _ | .purge _ | .tombstone _ _ | .index _ _ _ _ | .clearFork _ | .settle _ _ => True
      | _ => False) : n.Grows (n.step w st) ∧ x.NodeSound w (n.step w st) := by
  have hsame : ∀ {s : ForeignStore}, s.chains = n.store.chains → ∀ c ∈ s.chains.rows,
      ∃ c' ∈ n.store.chains.rows, c'.chainId = c.chainId ∧ c'.headSeq = c.headSeq := by
    intro s hs c hc
    rw [hs] at hc
    exact ⟨c, hc, rfl, rfl⟩
  cases st with
  | enroll card =>
    exact ⟨grows_of_eq rfl rfl rfl, h.lose rfl rfl (hsame rfl) (fun _ _ hreach => hreach) rfl
      (h.guarded.of_tables rfl) (fun _ _ hm => hm) rfl⟩
  | purge chainId =>
    refine ⟨grows_of_eq rfl rfl rfl, h.lose rfl rfl (fun c hc => ?_) (fun peer q hreach => ?_) rfl
      (h.guarded.forgetForeignChain chainId) (fun _ _ hm => hm) rfl⟩
    · exact ⟨c, (Table.mem_delete.mp hc).1, rfl, rfl⟩
    · obtain ⟨r, hr, hle⟩ := hreach
      change (n.store.acks.delete _).get? peer = some r at hr
      rw [Table.get?_delete] at hr
      exact ⟨r, (Option.filter_eq_some_iff.mp hr).1, hle⟩
  | tombstone chainId seq =>
    cases hs : n.store.tombstone chainId seq with
    | error e =>
      have hstep : n.step w (.tombstone chainId seq) = n := by simp only [Node.step, hs]
      rw [hstep]
      exact ⟨.refl n, h⟩
    | ok s =>
      have hstep : n.step w (.tombstone chainId seq) = { n with store := s } := by
        simp only [Node.step, hs]
      have hguarded := (h.guarded.tombstone (fun _ hb => by cases hb) hs).1
      have hmarkers := markersGrow_tombstone hs
      have hsuppress : s = n.store.suppress chainId seq := by
        unfold ForeignStore.tombstone at hs
        split_ifs at hs
        cases hs
        rfl
      rw [hstep]
      subst hsuppress
      exact ⟨grows_of_eq rfl rfl rfl, h.lose rfl rfl (hsame rfl) (fun _ _ hreach => hreach) rfl
        hguarded hmarkers rfl⟩
  | index now model id chunks =>
    obtain ⟨embeddings, heq⟩ : ∃ embeddings, n.store.indexForeign now model id chunks =
        { n.store with embeddings := embeddings } := by
      unfold ForeignStore.indexForeign
      split
      · exact ⟨_, rfl⟩
      · split_ifs
        · exact ⟨_, rfl⟩
        · exact ⟨_, rfl⟩
    have hguarded : Guarded "" [] none (n.store.indexForeign now model id chunks) :=
      h.guarded.indexForeign model id chunks
    have hstep : n.step w (.index now model id chunks) =
        { n with store := { n.store with embeddings := embeddings } } := by
      rw [← heq]
      rfl
    rw [heq] at hguarded
    rw [hstep]
    exact ⟨grows_of_eq rfl rfl rfl, h.lose rfl rfl (hsame rfl) (fun _ _ hreach => hreach) rfl hguarded
      (fun _ _ hm => hm) rfl⟩
  | clearFork chainId =>
    refine ⟨grows_of_eq rfl rfl rfl, h.lose rfl rfl (fun c hc => ?_) (fun _ _ hreach => hreach) rfl
      (h.guarded.of_tables rfl) (fun _ _ hm => hm) rfl⟩
    obtain ⟨c', hc', rfl⟩ := List.mem_map.mp hc
    refine ⟨c', hc', ?_⟩
    split_ifs <;> exact ⟨rfl, rfl⟩
  | settle trust subscriptions =>
    exact ⟨grows_of_eq rfl rfl rfl, h.lose rfl rfl (hsame rfl) (fun _ _ hreach => hreach) rfl
      (h.guarded.of_tables rfl) (fun _ _ hm => hm) rfl⟩
  | append _ | redact _ _ _ | redactCapture _ _ _ _ | importing _ _ _ | relay _ _ _ _ | record _ _
  | fetch _ _ => exact hst.elim

/-- A redaction by a store that writes the chain it is on. -/
theorem Sound.redact (hx : x.Sound w) (hsha : Function.Injective w.sha256) {i : ι}
    (hn : x.node i = some n) (hexisting : ∀ e, existing e = true →
      e.kind = "redaction" ∧ e.payloadHash = w.redactionHash payload)
    (ha : a.payloadHash = w.redactionHash payload) (hdevice : payload.chainId = n.device)
    (hmeets : n.RedactMeets (w.redactionEvent n.store existing a payload).1)
    (hn' : n' = { n with store := (w.redactionEvent n.store existing a payload).1 })
    (hxy : n.Grows n' → x.Grows y) (hy : y.node i = some n') :
    n.Grows n' ∧ y.NodeSound w n' := by
  have h := hx.node i n hn
  have hgrows : n.Grows n' := hn' ▸ h.grows_redact hsha hexisting
  refine ⟨hgrows, (h.mono (hxy hgrows)).redact hsha hexisting ha hmeets hn' fun r hr hchain => ?_⟩
  refine ⟨i, n', ?_, hy, hr⟩
  rw [hchain, hdevice]
  exact (hxy hgrows).owner _ _ (hx.device i n hn)

/-- **What a store may have is kept by every step that meets its condition.** -/
theorem Sound.act (hx : x.Sound w) (hsha : Function.Injective w.sha256) {i : ι}
    (hn : x.node i = some n) {st : NodeStep} (hheard : x.Heard st) (hmeets : n.Meets w st)
    (hxy : n.Grows (n.step w st) → x.Grows y) (hy : y.node i = some (n.step w st)) :
    n.Grows (n.step w st) ∧ y.NodeSound w (n.step w st) := by
  have h := hx.node i n hn
  have hstays : n.step w st = n → n.Grows (n.step w st) ∧ y.NodeSound w (n.step w st) := by
    intro heq
    have hgrows : n.Grows (n.step w st) := by
      rw [heq]
      exact .refl n
    refine ⟨hgrows, ?_⟩
    have hsound := h.mono (hxy hgrows)
    rwa [heq]
  have hquiet : n.Grows (n.step w st) ∧ x.NodeSound w (n.step w st) →
      n.Grows (n.step w st) ∧ y.NodeSound w (n.step w st) :=
    fun hboth => ⟨hboth.1, hboth.2.mono (hxy hboth.1)⟩
  cases st with
  | enroll card => exact hquiet (h.quiet _ trivial)
  | purge chainId => exact hquiet (h.quiet _ trivial)
  | tombstone chainId seq => exact hquiet (h.quiet _ trivial)
  | index now model id chunks => exact hquiet (h.quiet _ trivial)
  | clearFork chainId => exact hquiet (h.quiet _ trivial)
  | settle trust subscriptions => exact hquiet (h.quiet _ trivial)
  | append a =>
    by_cases hkind : a.kind = "redaction"
    · exact hstays (by simp only [Node.step, hkind, if_true])
    · exact hquiet (h.append hkind (by simp only [Node.step, hkind, if_false]))
  | redact now promptId actor =>
    cases htarget : n.store.promptEventSeq promptId with
    | none => exact hstays (by simp only [Node.step, Wire.appendRedaction, htarget])
    | some targetSeq =>
      unfold Node.Meets at hmeets
      simp only [Wire.appendRedaction, htarget] at hmeets
      refine hx.redact hsha hn (fun e he => ?_) rfl rfl hmeets ?_ hxy hy
      · simp only [Bool.and_eq_true, decide_eq_true_eq] at he
        exact ⟨he.1.1, he.2⟩
      · simp only [Node.step, Wire.appendRedaction, htarget]
  | redactCapture now targetSeq actor queued =>
    by_cases hqueued : (queued && n.store.ledger.rows.any fun e => e.seq = targetSeq) = true
    · unfold Node.Meets at hmeets
      simp only [Wire.appendCaptureRedaction, hqueued, Bool.not_true, Bool.false_eq_true,
        if_false] at hmeets
      refine hx.redact hsha hn (fun e he => ?_) rfl rfl hmeets ?_ hxy hy
      · simp only [Bool.and_eq_true, decide_eq_true_eq] at he
        exact he
      · simp only [Node.step, Wire.appendCaptureRedaction, hqueued, Bool.not_true, Bool.false_eq_true,
          if_false]
    · rw [Bool.not_eq_true] at hqueued
      exact hstays (by simp only [Node.step, Wire.appendCaptureRedaction, hqueued, Bool.not_false, if_true])
  | importing now opts env =>
    obtain ⟨hgrows, hsound, -⟩ := hx.receive h (hx.envelope env hheard) hmeets
    exact hquiet ⟨hgrows, hsound⟩
  | relay now tofu kept env =>
    exact hx.relay hn (hx.envelope env hheard) hmeets kept rfl hxy hy
  | record now report =>
    cases hrecord : w.recordAcks now n.store report with
    | error e => exact hstays (by simp only [Node.step, hrecord])
    | ok s =>
      have hs : s = report.acks.foldl (fun s a => s.recordOrgAck now report.ackerChain a.1 a.2)
          n.store := by
        unfold Wire.recordAcks at hrecord
        split at hrecord
        · cases hrecord
        · split at hrecord
          · cases hrecord
          · split_ifs at hrecord
            cases hrecord
            rfl
      obtain ⟨orgAcks, horg⟩ : ∃ orgAcks, s = { n.store with orgAcks := orgAcks } := by
        have hfold : ∀ (acks : List (String × ℤ)) (t : ForeignStore), ∃ orgAcks,
            acks.foldl (fun s a => s.recordOrgAck now report.ackerChain a.1 a.2) t =
              { t with orgAcks := orgAcks } := by
          intro acks
          induction acks with
          | nil => exact fun t => ⟨t.orgAcks, rfl⟩
          | cons a acks ih =>
            intro t
            obtain ⟨orgAcks, heq⟩ := ih (t.recordOrgAck now report.ackerChain a.1 a.2)
            exact ⟨orgAcks, heq⟩
        rw [hs]
        exact hfold report.acks n.store
      have hstep : n.step w (.record now report) =
          { n with store := { n.store with orgAcks := orgAcks } } := by
        simp only [Node.step, hrecord, horg]
      have hreach : ∀ peer c q, { n.store with orgAcks := orgAcks }.OrgReaches peer c q →
          x.Claim peer c q := by
        intro peer c q hreach
        rw [← horg, hs] at hreach
        rcases orgReaches_recordOrgAcks.mp hreach with hold | ⟨rfl, a, ha, rfl, hle⟩
        · exact h.orgAcks peer c q hold
        · exact (hx.report report hheard a ha).le hle
      refine hquiet ?_
      rw [hstep]
      exact ⟨grows_of_eq rfl rfl rfl, h.hear hreach⟩
  | fetch now ack =>
    by_cases hcond : ack.2.1 = n.device ∧ ack.1 ≠ n.device
    · have hstep : n.step w (.fetch now ack) =
          { n with store := n.store.setForeignAck now ack.1 ack.2.2 } := by
        simp only [Node.step, hcond, ne_eq, not_false_eq_true, and_self, if_true]
      refine hquiet ?_
      rw [hstep]
      refine ⟨grows_of_eq rfl rfl rfl, h.nonneg, h.own, h.event, h.chains, fun peer r hr hreach => ?_,
        h.orgAcks, h.guarded.of_tables rfl, h.marked⟩
      rcases ackReaches_setForeignAck.mp hreach with hold | ⟨rfl, hle⟩
      · exact h.acks peer r hr hold
      · rcases hmeets r hr hle with hchain | hold
        · have hclaim := hx.relayed ack hheard
          rw [← hchain] at hclaim
          exact hclaim.knows (h.own r hr).2.2 hle
        · exact h.acks _ r hr hold
    · exact hstays (by simp only [Node.step, hcond, if_false])

end Network

end PolisMemory
