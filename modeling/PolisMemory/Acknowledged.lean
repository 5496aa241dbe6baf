/-
# Acknowledged redactions

An ack is kept by the chain of the peer alone, whichever own chain it was for.
Of a redaction on one device chain a peer that is past its seq on another has
heard nothing, and yet is not listed; a home that was copied meets this
(`copiedHome_unheard`). While every step meets its condition, a peer that is not
listed has imported the redaction and holds nothing of its target
(`acknowledged_imported`).

Key definitions: `Network.RunMeets`.
Key theorems: `Sound.step`, `Sound.run`, `acknowledged_imported`.
-/
import PolisMemory.NetworkSteps

namespace PolisMemory

open Tables ForeignStore

/-! ### Runs -/

namespace Network

variable {ι : Type} {x y : Network ι} {w : Wire} {n n' : Node} {i : ι}

/-- What was in flight is borne out by a network that grew. -/
theorem Sound.of_grows (hx : x.Sound w) (hxy : x.Grows y)
    (hdevice : ∀ j m, y.node j = some m → y.owner m.device = some j)
    (hnode : ∀ j m, y.node j = some m → x.node j = some m ∨ y.NodeSound w m)
    (henvelopes : y.envelopes = x.envelopes) (hreports : y.reports = x.reports)
    (hrelayed : y.relayed = x.relayed) : y.Sound w where
  device := hdevice
  node j m hm := by
    rcases hnode j m hm with hold | hsound
    · exact (hx.node j m hold).mono hxy
    · exact hsound
  envelope env henv := (hx.envelope env (henvelopes ▸ henv)).mono hxy
  report report hreport a ha := (hx.report report (hreports ▸ hreport) a ha).mono hxy
  relayed ack hack := (hx.relayed ack (hrelayed ▸ hack)).mono hxy

/-- More in flight that the network bears out. -/
theorem Sound.send (hx : x.Sound w) {envelopes : List Envelope} {reports : List AckReport}
    {relayed : List (String × String × ℤ)} (henvelope : ∀ env ∈ envelopes, x.EnvelopeSound env)
    (hreport : ∀ report ∈ reports, ∀ a ∈ report.acks, x.Claim report.ackerChain a.1 a.2)
    (hrelayed : ∀ ack ∈ relayed, x.Claim ack.1 ack.2.1 ack.2.2) :
    Sound w { x with
      envelopes := envelopes
      reports := reports
      relayed := relayed } := by
  have hsame : x.Grows { x with
      envelopes := envelopes
      reports := reports
      relayed := relayed } := ⟨fun _ _ hk => hk, fun _ n hn => ⟨n, hn, .refl n⟩⟩
  exact ⟨hx.device, fun i n hn => (hx.node i n hn).mono hsame,
    fun env henv => (henvelope env henv).mono hsame,
    fun report hrep a ha => (hreport report hrep a ha).mono hsame,
    fun ack hack => (hrelayed ack hack).mono hsame⟩

theorem heard_of_alone {st : NodeStep} (h : st.alone = true) : x.Heard st := by
  cases st with
  | importing _ _ _ | relay _ _ _ _ | record _ _ | fetch _ _ => cases h
  | enroll _ | append _ | redact _ _ _ | redactCapture _ _ _ _ | purge _ | tombstone _ _
  | index _ _ _ _ | clearFork _ | settle _ _ => trivial

theorem heard_of_hear {k : ℕ} {h : Hearing} {st : NodeStep} (hh : x.hear k h = some st) :
    x.Heard st := by
  cases h with
  | importing now opts | relay now tofu kept | record now | fetch now =>
    obtain ⟨m, hm, rfl⟩ := Option.map_eq_some_iff.mp hh
    exact List.mem_of_getElem? hm

theorem device_step (n : Node) (st : NodeStep) : (n.step w st).device = n.device := by
  cases st with
  | append a =>
    unfold Node.step
    dsimp only
    split_ifs <;> rfl
  | fetch now ack =>
    unfold Node.step
    dsimp only
    split_ifs <;> rfl
  | record now report =>
    unfold Node.step
    dsimp only
    split <;> rfl
  | tombstone chainId seq =>
    unfold Node.step
    dsimp only
    split <;> rfl
  | enroll _ | redact _ _ _ | redactCapture _ _ _ _ | importing _ _ _ | relay _ _ _ _ | purge _
  | index _ _ _ _ | clearFork _ | settle _ _ => rfl

/-- A store under another device. -/
theorem NodeSound.enrolled (h : x.NodeSound w n) (card : PrincipalCard) : x.NodeSound w
    { n with
      store := n.store.upsertPrincipal card
      device := card.principalId } :=
  h.lose rfl rfl (fun c hc => ⟨c, hc, rfl, rfl⟩) (fun _ _ hreach => hreach) rfl
    (h.guarded.of_tables rfl) (fun _ _ hm => hm) rfl

/-- A store with nothing in it. -/
theorem nodeSound_new (card : PrincipalCard) : x.NodeSound w
    ⟨ForeignStore.empty.upsertPrincipal card, card.principalId, []⟩ where
  nonneg := le_rfl
  own _ hr := by cases hr
  event _ he := by cases he
  chains _ hc := by cases hc
  acks _ _ hr := by cases hr
  orgAcks _ _ _ hreach := by
    obtain ⟨_, hr, -⟩ := hreach
    cases hr
  guarded := by
    have hempty : Guarded "" [] none ForeignStore.empty.uncaptured := guarded_uncaptured _
    exact hempty.of_tables rfl
  marked _ hr := by cases hr

theorem le_head {e : LedgerEventRow} (he : e ∈ n.store.ledger.rows) : e.seq ≤ n.head := by
  unfold Node.head
  cases hlast : n.store.ledger.last with
  | none =>
    have hnil : n.store.ledger.rows = [] := List.getLast?_eq_none_iff.mp hlast
    rw [hnil] at he
    cases he
  | some last => exact LedgerTable.le_last hlast he

theorem build_ok {s : ForeignStore} {device : String} {fromSeq : Option ℤ} {rest env : Envelope}
    (h : w.build s device fromSeq rest = .ok env) : env.header.chainId = device ∧
      (∀ e ∈ env.payload.events, e ∈ s.ledger.rows) ∧
      env.payload.redactions = s.ownRedactionRows.filter
        (fun r => env.payload.events.any fun e => e.seq = r.eventSeq) ∧
      env.payload.acks = s.listForeignChains.map fun c => (c.chainId, c.headSeq) := by
  unfold Wire.build at h
  dsimp only at h
  split at h
  · split_ifs at h
    cases h
    refine ⟨rfl, fun e he => ?_, rfl, rfl⟩
    exact (List.mem_filter.mp (List.mem_of_mem_take he)).1
  · cases h

/-- The heads that a store reports are claims that the network bears out. -/
theorem Sound.claims (hx : x.Sound w) (hn : x.node i = some n) {a : String × ℤ}
    (ha : a ∈ n.store.listForeignChains.map fun c => (c.chainId, c.headSeq)) :
    x.Claim n.device a.1 a.2 := by
  obtain ⟨c, hc, rfl⟩ := List.mem_map.mp ha
  exact ⟨i, n, hx.device i n hn, hn, (hx.node i n hn).chains c (mem_listForeignChains.mp hc)⟩

theorem sound_empty : (empty : Network ι).Sound w where
  device _ _ hn := by cases hn
  node _ _ hn := by cases hn
  envelope _ henv := by cases henv
  report _ hreport := by cases hreport
  relayed _ hack := by cases hack

variable [DecidableEq ι]

/-- The condition of a step of the network: that of the store whose step it
is. -/
def StepMeets (w : Wire) (x : Network ι) : NetworkStep ι → Prop
  | .act i st => ∀ n, x.node i = some n → n.Meets w st
  | .deliver i k h => ∀ n st, x.node i = some n → x.hear k h = some st → n.Meets w st
  | _ => True

/-- Every step of the run meets its condition. -/
def RunMeets (w : Wire) : Network ι → List (NetworkStep ι) → Prop
  | _, [] => True
  | x, st :: steps => x.StepMeets w st ∧ RunMeets w (x.step w st) steps

theorem node_put (x : Network ι) (i j : ι) (n : Node) :
    (x.put i n).node j = if j = i then some n else x.node j := by
  unfold put
  dsimp only
  by_cases hj : j = i
  · subst hj
    rw [Function.update_self, if_pos rfl]
  · rw [Function.update_of_ne hj, if_neg hj]

/-- A store that grows lets the network grow, whatever chain it writes next,
if that is nobody else's. -/
theorem grows_join (hn : ∀ n, x.node i = some n → n.Grows n')
    (howner : ∀ k, x.owner n'.device = some k → k = i) : x.Grows (x.join i n') where
  owner a k hk := by
    change Function.update x.owner n'.device (some i) a = some k
    by_cases ha : a = n'.device
    · subst ha
      rw [Function.update_self, howner k hk]
    · rw [Function.update_of_ne ha, hk]
  node j m hm := by
    have hnode : (x.join i n').node j = (x.put i n').node j := rfl
    rw [hnode, node_put]
    by_cases hj : j = i
    · subst hj
      rw [if_pos rfl]
      exact ⟨n', rfl, hn m hm⟩
    · rw [if_neg hj]
      exact ⟨m, hm, .refl m⟩

theorem grows_put (hn : x.node i = some n) (hgrows : n.Grows n') : x.Grows (x.put i n') where
  owner _ _ hk := hk
  node j m hm := by
    rw [node_put]
    by_cases hj : j = i
    · subst hj
      rw [hn, Option.some.injEq] at hm
      subst hm
      rw [if_pos rfl]
      exact ⟨n', rfl, hgrows⟩
    · rw [if_neg hj]
      exact ⟨m, hm, .refl m⟩

theorem Sound.put (hx : x.Sound w) (hn : x.node i = some n) (hdevice : n'.device = n.device)
    (hgrows : n.Grows n') (hsound : (x.put i n').NodeSound w n') : (x.put i n').Sound w := by
  refine hx.of_grows (grows_put hn hgrows) (fun j m hm => ?_) (fun j m hm => ?_) rfl rfl rfl
  · rw [node_put] at hm
    by_cases hj : j = i
    · subst hj
      rw [if_pos rfl, Option.some.injEq] at hm
      subst hm
      rw [hdevice]
      exact hx.device _ n hn
    · rw [if_neg hj] at hm
      exact hx.device j m hm
  · rw [node_put] at hm
    by_cases hj : j = i
    · subst hj
      rw [if_pos rfl, Option.some.injEq] at hm
      subst hm
      exact .inr hsound
    · rw [if_neg hj] at hm
      exact .inl hm

/-- A step of one store. -/
theorem Sound.act_put (hx : x.Sound w) (hsha : Function.Injective w.sha256) (hn : x.node i = some n)
    {st : NodeStep} (hheard : x.Heard st) (hmeets : n.Meets w st) :
    (x.put i (n.step w st)).Sound w := by
  have hput : (x.put i (n.step w st)).node i = some (n.step w st) := by rw [node_put, if_pos rfl]
  obtain ⟨hgrows, hsound⟩ := hx.act hsha hn hheard hmeets (fun hgrows => grows_put hn hgrows) hput
  exact hx.put hn (device_step n st) hgrows hsound

theorem Sound.join (hx : x.Sound w) (hn : ∀ n, x.node i = some n → n.Grows n')
    (howner : ∀ k, x.owner n'.device = some k → k = i) (hsound : (x.join i n').NodeSound w n') :
    (x.join i n').Sound w := by
  have hgrows := grows_join hn howner
  have hnode (j : ι) : (x.join i n').node j = if j = i then some n' else x.node j := node_put x i j n'
  refine hx.of_grows hgrows (fun j m hm => ?_) (fun j m hm => ?_) rfl rfl rfl
  · rw [hnode] at hm
    by_cases hj : j = i
    · subst hj
      rw [if_pos rfl, Option.some.injEq] at hm
      subst hm
      exact Function.update_self ..
    · rw [if_neg hj] at hm
      exact hgrows.owner _ _ (hx.device j m hm)
  · rw [hnode] at hm
    by_cases hj : j = i
    · subst hj
      rw [if_pos rfl, Option.some.injEq] at hm
      subst hm
      exact .inr hsound
    · rw [if_neg hj] at hm
      exact .inl hm

/-- **Every step that meets its condition keeps the network sound.** -/
theorem Sound.step (hx : x.Sound w) (hsha : Function.Injective w.sha256) {st : NetworkStep ι}
    (hst : x.StepMeets w st) : (x.step w st).Sound w := by
  unfold Network.step
  cases st with
  | found i card =>
    dsimp only
    split_ifs with hfree
    · rw [Bool.and_eq_true, Option.isNone_iff_eq_none, Option.isNone_iff_eq_none] at hfree
      refine hx.join (fun n hn => ?_) (fun k hk => ?_) (nodeSound_new card)
      · rw [hfree.1] at hn
        cases hn
      · change x.owner card.principalId = some k at hk
        rw [hfree.2] at hk
        cases hk
    · exact hx
  | copy i j card =>
    dsimp only
    cases hn : x.node i with
    | none => exact hx
    | some n =>
      dsimp only
      split_ifs with hfree
      · rw [Bool.and_eq_true, Option.isNone_iff_eq_none, Option.isNone_iff_eq_none] at hfree
        have howner : ∀ k, x.owner card.principalId = some k → k = j := by
          intro k hk
          rw [hfree.2] at hk
          cases hk
        have hfresh : ∀ m, x.node j = some m → m.Grows { n with
            store := n.store.upsertPrincipal card
            device := card.principalId } := by
          intro m hm
          rw [hfree.1] at hm
          cases hm
        exact hx.join hfresh howner
          (((hx.node i n hn).enrolled card).mono (grows_join hfresh howner))
      · exact hx
  | adopt i card =>
    dsimp only
    cases hn : x.node i with
    | none => exact hx
    | some n =>
      dsimp only
      split_ifs with hfree
      · have howner : ∀ k, x.owner card.principalId = some k → k = i := by
          intro k hk
          rw [hk] at hfree
          exact of_decide_eq_true hfree
        have hgrows : ∀ m, x.node i = some m → m.Grows { n with
            store := n.store.upsertPrincipal card
            device := card.principalId } := by
          intro m hm
          rw [hn, Option.some.injEq] at hm
          subst hm
          exact grows_of_eq rfl rfl rfl
        exact hx.join hgrows howner
          (((hx.node i n hn).enrolled card).mono (grows_join hgrows howner))
      · exact hx
  | act i st =>
    dsimp only
    cases hn : x.node i with
    | none => exact hx
    | some n =>
      dsimp only
      split_ifs with halone
      · exact hx.act_put hsha hn (heard_of_alone halone) (hst n hn)
      · exact hx
  | deliver i k h =>
    dsimp only
    cases hn : x.node i with
    | none => exact hx
    | some n =>
      cases hh : x.hear k h with
      | none => exact hx
      | some st => exact hx.act_put hsha hn (heard_of_hear hh) (hst n st hn hh)
  | publish i fromSeq rest =>
    dsimp only
    cases hn : x.node i with
    | none => exact hx
    | some n =>
      dsimp only
      cases hbuild : w.build n.store n.device fromSeq rest with
      | error e => exact hx
      | ok env =>
        refine hx.send (fun env' henv' => ?_) hx.report hx.relayed
        rcases List.mem_cons.mp henv' with rfl | henv'
        · obtain ⟨hchain, hevents, hredactions, hacks⟩ := build_ok hbuild
          refine ⟨i, n, hchain ▸ hx.device i n hn, hn, fun e he => le_head (hevents e he),
            fun r hr hin => ?_, fun a ha => ?_⟩
          · obtain ⟨e, he, hseq⟩ := hin
            rw [hredactions, List.mem_filter, mem_ownRedactionRows]
            exact ⟨hr, List.any_eq_true.mpr ⟨e, he, decide_eq_true hseq⟩⟩
          · rw [hacks] at ha
            rw [hchain]
            exact hx.claims hn ha
        · exact hx.envelope env' henv'
  | report i time signature =>
    dsimp only
    cases hn : x.node i with
    | none => exact hx
    | some n =>
      refine hx.send hx.envelope (fun report hreport a ha => ?_) hx.relayed
      rcases List.mem_cons.mp hreport with rfl | hreport
      · exact hx.claims hn ha
      · exact hx.report report hreport a ha
  | serve i chainId =>
    dsimp only
    cases hn : x.node i with
    | none => exact hx
    | some n =>
      refine hx.send hx.envelope hx.report fun ack hack => ?_
      rcases List.mem_append.mp hack with hack | hack
      · obtain ⟨a, ha, rfl⟩ := List.mem_map.mp hack
        obtain ⟨r, hr, rfl⟩ := List.mem_map.mp ha
        obtain ⟨hget, hchain⟩ := Table.mem_select.mp hr
        have hid : r.chainId = chainId := of_decide_eq_true hchain
        rw [hid] at hget
        exact (hx.node i n hn).orgAcks _ _ _ ⟨r, hget, le_rfl⟩
      · exact hx.relayed ack hack

theorem Sound.run (hx : x.Sound w) (hsha : Function.Injective w.sha256)
    {steps : List (NetworkStep ι)} (hsteps : x.RunMeets w steps) : (x.run w steps).Sound w := by
  induction steps generalizing x with
  | nil => exact hx
  | cons st steps ih =>
    obtain ⟨hst, hrest⟩ := hsteps
    exact ih (hx.step hsha hst) hrest

/-- The condition of a run, step by step. -/
theorem runMeets_of_take {steps : List (NetworkStep ι)} (h : ∀ k st, steps[k]? = some st →
    (x.run w (steps.take k)).StepMeets w st) : x.RunMeets w steps := by
  induction steps generalizing x with
  | nil => trivial
  | cons st steps ih =>
    refine ⟨h 0 st rfl, ih fun k st' hst' => ?_⟩
    have hnext := h (k + 1) st' hst'
    rwa [List.take_succ_cons] at hnext

end Network

open Network in
/-- **A peer that is not listed has imported the redaction.** In every network
of stores that grew from none, by steps in which no ack of one own chain is
counted for a redaction of another, and no import brings the event of a
tombstoned capture for a note that is here with text: if a redaction of a store
is not listed for a chain it holds, the store that writes the chain has
imported it and holds nothing of its target. -/
theorem acknowledged_imported {ι : Type} [DecidableEq ι] (w : Wire)
    (hsha : Function.Injective w.sha256) (steps : List (NetworkStep ι))
    (hsteps : (empty : Network ι).RunMeets w steps) (i : ι) (n : Node)
    (hn : ((empty : Network ι).run w steps).node i = some n) (r : RedactionPayload)
    (hr : r ∈ n.store.ownRedactions.rows) (p : ForeignChain) (hp : p ∈ n.store.chains.rows)
    (hunlisted : ∀ u ∈ n.store.unacknowledgedRedactions,
      ¬ (u.redactionSeq = r.eventSeq ∧ u.peerChain = p.chainId)) :
    ∃ k peer, ((empty : Network ι).run w steps).owner p.chainId = some k ∧
      ((empty : Network ι).run w steps).node k = some peer ∧ r.input ∈ peer.imported ∧
        peer.store.Blank r.chainId r.seq := by
  have hx : ((empty : Network ι).run w steps).Sound w := sound_empty.run hsha hsteps
  have hreach := (not_listed_iff hr hp).mp hunlisted
  obtain ⟨k, peer, hk, hpeer, himported⟩ := (hx.node i n hn).acks p.chainId r hr hreach
  have hsound := hx.node k peer hpeer
  exact ⟨k, peer, hk, hpeer, himported, hsound.guarded.blank (hsound.marked _ himported)⟩

/-! ### Two stores, and a copied home -/

/-- What a device signs. -/
def deviceRest (name : String) : Envelope := Wire.plainSigned name (Wire.plainPayload [])

/-- An event of a kind, and the prompt it is about. -/
def eventOf (kind : String) (ts : ℤ) (promptId : Option ℤ) : LedgerAppend :=
  ⟨kind, "ann", ts, promptId, none, none, none, none, "body"⟩

/-- The payload of the redaction of the first capture of a chain. -/
def firstRedaction (name : String) : RedactionPayload := ⟨(Wire.plainDevice name).principalId, 1, 2⟩

/-- One store redacts, the other imports it and says so. -/
def heardRun : List (NetworkStep Bool) :=
  [.found false (Wire.plainDevice "a"), .found true (Wire.plainDevice "b"),
    .act false (.append (eventOf "prompt" 1 (some 1))), .publish false none (deviceRest "a"),
    .act false (.redact 2 1 "ann"), .publish false (some 2) (deviceRest "a"),
    .deliver true 1 (.importing 7 ⟨true, false, none⟩),
    .deliver true 0 (.importing 7 ⟨true, false, none⟩),
    .act true (.append (eventOf "prompt" 1 (some 1))), .publish true none (deviceRest "b"),
    .deliver false 0 (.importing 8 ⟨true, false, none⟩)]

/-- The state after it. -/
def heardNetwork : Network Bool := Network.empty.run .plain heardRun

/-- The state after its first steps. -/
def heardUpTo (k : ℕ) : Network Bool := Network.empty.run .plain (heardRun.take k)

/-- The step meets its condition where nobody holds a note, redacts before any
ack came, and has redactions of one chain alone. -/
def bareStep {ι : Type} (x : Network ι) : NetworkStep ι → Bool
  | .deliver i k (.importing _ _) => (x.node i).all fun n => x.envelopes[k]?.all fun env =>
    n.store.notes.rows.isEmpty && env.payload.notes.isEmpty && n.store.ownRedactions.rows.all fun r =>
      env.payload.acks.all fun a => r.chainId = a.1
  | .deliver _ _ _ => false
  | .act i (.redact _ _ _) => (x.node i).all fun n => n.store.acks.rows.isEmpty
  | .act _ (.append _) => true
  | .act _ _ => false
  | _ => true

theorem stepMeets_of_bare {ι : Type} {w : Wire} {x : Network ι} {st : NetworkStep ι}
    (h : bareStep x st = true) : x.StepMeets w st := by
  cases st with
  | found _ _ | copy _ _ _ | adopt _ _ | publish _ _ _ | report _ _ _ | serve _ _ => trivial
  | act i st =>
    intro n hn
    cases st with
    | append a => trivial
    | redact now promptId actor =>
      simp only [bareStep, hn, Option.all_some, List.isEmpty_iff] at h
      refine .inr fun peer hreach => ?_
      obtain ⟨r, hr, -⟩ := hreach
      have hmem := (Table.get?_eq_some.mp hr).1
      rw [h] at hmem
      cases hmem
    | enroll _ | redactCapture _ _ _ _ | importing _ _ _ | relay _ _ _ _ | record _ _ | fetch _ _
    | purge _ | tombstone _ _ | index _ _ _ _ | clearFork _ | settle _ _ => cases h
  | deliver i k hearing =>
    intro n st hn hh
    cases hearing with
    | relay _ _ _ | record _ | fetch _ => cases h
    | importing now opts =>
      obtain ⟨env, henv, rfl⟩ := Option.map_eq_some_iff.mp hh
      simp only [bareStep, hn, henv, Option.all_some, Bool.and_eq_true, List.isEmpty_iff,
        List.all_eq_true, decide_eq_true_eq] at h
      obtain ⟨⟨hrows, hnotes⟩, hacks⟩ := h
      have hinputs : env.noteInputs = [] := by
        rw [Envelope.noteInputs, hnotes]
        rfl
      refine fun start _ => ⟨⟨fun e _ _ m hm => ?_, fun i hi => ?_⟩,
        fun a ha _ r hr _ => .inl (hacks r hr a ha)⟩
      · rw [hrows] at hm
        cases hm
      · rw [hinputs] at hi
        cases hi

theorem heardNetwork_run : (heardNetwork.node false).any (fun n =>
    n.store.ownRedactions.rows = [firstRedaction "a"] &&
      n.store.chains.rows.map ForeignChain.chainId = [(Wire.plainDevice "b").principalId] &&
        n.store.unacknowledgedRedactions = []) = true ∧
    (List.range heardRun.length).all (fun k => heardRun[k]?.all (bareStep (heardUpTo k))) = true := by
  decide +kernel

theorem heardRun_meets : (Network.empty : Network Bool).RunMeets .plain heardRun := by
  refine Network.runMeets_of_take fun k st hst => stepMeets_of_bare ?_
  have hlt : k < heardRun.length := (List.getElem?_eq_some_iff.mp hst).1
  have hbare := List.all_eq_true.mp heardNetwork_run.2 k (List.mem_range.mpr hlt)
  rw [hst] at hbare
  exact hbare

/-- What the evaluation of a run says of a store. -/
theorem exists_of_any {n? : Option Node} {r : RedactionPayload} {peer : String}
    (h : n?.any (fun n => n.store.ownRedactions.rows = [r] &&
      n.store.chains.rows.map ForeignChain.chainId = [peer] &&
        n.store.unacknowledgedRedactions = []) = true) :
    ∃ n, n? = some n ∧ r ∈ n.store.ownRedactions.rows ∧ n.store.unacknowledgedRedactions = [] ∧
      ∃ p ∈ n.store.chains.rows, p.chainId = peer := by
  cases n? with
  | none => cases h
  | some n =>
    simp only [Option.any_some, Bool.and_eq_true, decide_eq_true_eq] at h
    obtain ⟨⟨hown, hchains⟩, hlisted⟩ := h
    refine ⟨n, rfl, ?_, hlisted, List.mem_map.mp ?_⟩
    · rw [hown]
      exact List.mem_singleton.mpr rfl
    · rw [hchains]
      exact List.mem_singleton.mpr rfl

/-- The redaction is not listed, and was heard. -/
theorem acknowledged_imported_heard : ∃ k peer,
    heardNetwork.owner (Wire.plainDevice "b").principalId = some k ∧
      heardNetwork.node k = some peer ∧ (firstRedaction "a").input ∈ peer.imported ∧
        peer.store.Blank (firstRedaction "a").chainId (firstRedaction "a").seq := by
  obtain ⟨n, hn, hr, hlisted, p, hp, hid⟩ := exists_of_any heardNetwork_run.1
  rw [← hid]
  rw [heardNetwork] at hn ⊢
  exact acknowledged_imported .plain (fun _ _ h => h) heardRun heardRun_meets false n hn
    (firstRedaction "a") hr p hp fun u hu => by
      rw [hlisted] at hu
      cases hu

/-- A home is copied and goes on as the device `c`; the two redact and append
apart; the copy counts the ack of the first chain. -/
def copiedHomeRun : List (NetworkStep (Fin 3)) :=
  [.found 0 (Wire.plainDevice "a"), .found 1 (Wire.plainDevice "b"),
    .act 0 (.append (eventOf "prompt" 1 (some 1))), .publish 0 none (deviceRest "a"),
    .copy 0 2 (Wire.plainDevice "c"), .act 0 (.append (eventOf "resolution" 2 none)),
    .publish 0 (some 2) (deviceRest "a"), .deliver 1 1 (.importing 7 ⟨true, false, none⟩),
    .deliver 1 0 (.importing 7 ⟨true, false, none⟩),
    .act 1 (.append (eventOf "prompt" 1 (some 1))), .publish 1 none (deviceRest "b"),
    .act 2 (.redact 2 1 "ann"), .deliver 2 0 (.importing 8 ⟨true, false, none⟩)]

/-- The state after it. -/
def copiedHome : Network (Fin 3) := Network.empty.run .plain copiedHomeRun

theorem copiedHome_run : (copiedHome.node 2).any (fun n =>
    n.store.ownRedactions.rows = [firstRedaction "c"] &&
      n.store.chains.rows.map ForeignChain.chainId = [(Wire.plainDevice "b").principalId] &&
        n.store.unacknowledgedRedactions = []) = true ∧
    copiedHome.owner (Wire.plainDevice "b").principalId = some 1 ∧
    (copiedHome.node 1).any (fun n => n.imported = []) = true := by
  decide +kernel

/-- The copy lists nobody, and the peer has heard of nothing. -/
theorem copiedHome_unheard : ¬ ∀ (w : Wire), Function.Injective w.sha256 →
    ∀ (steps : List (NetworkStep (Fin 3))) (i : Fin 3) (n : Node),
      ((Network.empty : Network (Fin 3)).run w steps).node i = some n →
    ∀ r ∈ n.store.ownRedactions.rows, ∀ p ∈ n.store.chains.rows,
      (∀ u ∈ n.store.unacknowledgedRedactions,
        ¬ (u.redactionSeq = r.eventSeq ∧ u.peerChain = p.chainId)) →
      ∃ k peer, ((Network.empty : Network (Fin 3)).run w steps).owner p.chainId = some k ∧
        ((Network.empty : Network (Fin 3)).run w steps).node k = some peer ∧
          r.input ∈ peer.imported ∧ peer.store.Blank r.chainId r.seq := by
  intro hclaim
  obtain ⟨hrun, howner, hpeer⟩ := copiedHome_run
  obtain ⟨n, hn, hr, hlisted, p, hp, hid⟩ := exists_of_any hrun
  rw [copiedHome] at hn howner hpeer
  obtain ⟨k, peer, hk, hnode, himported, -⟩ := hclaim .plain (fun _ _ h => h) copiedHomeRun 2 n hn
    (firstRedaction "c") hr p hp fun u hu => by
      rw [hlisted] at hu
      cases hu
  rw [hid, howner, Option.some.injEq] at hk
  subst hk
  rw [hnode] at hpeer
  simp only [Option.any_some, decide_eq_true_eq] at hpeer
  rw [hpeer] at himported
  cases himported

end PolisMemory
