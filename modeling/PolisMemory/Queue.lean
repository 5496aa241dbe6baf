/-
# The work queue

`process_queue` of `crates/polis-memory/src/organize.rs`: every due proposal
is expired, deferred, applied, refused or put by for its verifier, in the
order of the queue; then each verifier's batch is applied, refused or
deferred by its reply. The facts are loaded once, before the first of them.

An error of one write is logged and the queue goes on. What comes from
outside is an argument (`Surroundings`): the clock, which nodes the canary
quarantines, the oracle, the two verifiers' replies. Beside what it returns
the run lists the calls of `apply_one`, each with the store it was made in.

Key definitions: `Store.recordCurate`, `Store.recordReorg`, `processQueue`.
Key theorems: `processQueue_ind`.
-/
import PolisMemory.Adjudicate

namespace PolisMemory

open Tables

/-- `CLASSIFIER_ACTOR`. -/
def classifierActor : String := "classifier"

namespace Store

/-! ### What the queue writes -/

/-- `record_reorg`: a `taxonomy_reorg` event. -/
def recordReorg (h : Host) (s : Store) (now : ℤ) (actor op node detail : String) : Store :=
  s.append h ⟨"taxonomy_reorg", actor, now, none, none, none, some "class_node", some node,
    h.decisionPayloadHash [("op", op), ("node", node), ("detail", detail)]⟩

/-- `record_curate`: a `class_curate` event, if there is none like it. -/
def recordCurate (h : Host) (s : Store) (now : ℤ) (actor node action detail : String) : Store :=
  let hash := h.decisionPayloadHash [("action", action), ("node", node), ("detail", detail)]
  if s.ledger.rows.any fun e => e.kind = "class_curate" && e.refKind = some "class_node" &&
      e.refId = some node && e.payloadHash = hash then s
  else s.append h ⟨"class_curate", actor, now, none, none, none, some "class_node", some node, hash⟩

/-- `defer_proposal`. -/
def deferProposal (s : Store) (id attempts nextAfterRun : ℤ) (reason : String) : Store :=
  { s with proposals := s.proposals.update (fun p => p.id = id && p.status = .proposed) fun p =>
      { p with attempts := attempts, nextAfterRun := some nextAfterRun, lastReason := some reason } }

/-- `let _ = journal_op`. -/
def tryJournal (s : Store) (run : ℤ) (rec : OpRecord) : Store :=
  match s.journalOp run rec with
  | .ok s' => s'
  | .error _ => s

/-- The proposals that are due, oldest first. -/
def listDueProposals (s : Store) (run : ℤ) : List ProposalRow :=
  (s.proposals.select fun p => p.status = .proposed && p.nextAfterRun.all (· ≤ run)).insertionSort
    fun a b => a.id ≤ b.id

end Store

/-- An op's name in the queue. -/
def StructuralOp.name : StructuralOp → String
  | .promote => "promote"
  | .split => "split"
  | .merge => "merge"
  | .collapse => "collapse"
  | .supersede => "supersede"
  | .unknown name => name

/-- `prop_subjects`. -/
def propSubjects (p : ProposalRow) : List Subject :=
  match p.op with
  | .merge => (Extra.asIds p.extra).map .node
  | .supersede =>
    match Extra.asPair p.extra with
    | some (oldSeq, newSeq) => [.seq oldSeq, .seq newSeq]
    | none => []
  | _ => (p.nodeId.toList).map .node

/-- One entry of a verifier's reply. -/
structure SupersedeVerdict where
  proposalId : ℤ
  apply : Bool
  /-- `confidence >= SUPERSEDE_CONFIDENCE_MIN`. -/
  confident : Bool
  /-- The confidence to two places. -/
  confidence : String
  reason : String
  deriving DecidableEq, Repr

/-- What the queue takes from outside. -/
structure Surroundings where
  unicode : Unicode
  /-- The oracle's cosine is known and at least `CENTROID_COS`. -/
  alike : String → String → Bool
  /-- When a proposal is handled. -/
  clock : ℤ → ℤ
  quarantined : String → Bool
  supersedeReply : Except String (List SupersedeVerdict)
  mergeReply : Except String (List SupersedeVerdict)

structure QueueOutcome where
  applied : ℕ
  refused : ℕ
  expired : ℕ
  deferred : ℕ
  superseded : ℕ
  verifierCalls : ℕ
  deriving DecidableEq, Repr

/-- The queue under way. -/
structure QueueRun where
  store : Store
  out : QueueOutcome
  toVerify : List ProposalRow
  /-- The calls of `apply_one`, each with the store it was made in. -/
  applies : List (Store × ProposalRow)

section queue

variable (h : Host) (w : Surroundings) (run : ℤ)

/-- The journal's line for a proposal that leaves the queue, its event, and
the queue without it. -/
def dropWith (p : ProposalRow) (rec : Store.OpRecord) (action detail : String) (s : Store) : Store :=
  ((s.tryJournal run rec).recordCurate h (w.clock p.id) classifierActor (p.nodeId.getD "") action
    detail).dropProposal p.id

/-- `apply_one`. -/
def applyOne (q : QueueRun) (p : ProposalRow) : QueueRun :=
  let q' := { q with applies := q.applies ++ [(q.store, p)] }
  match q.store.applyClassProposalInRun h (w.clock p.id) p.id classifierActor (some run) with
  | (s, .ok (some a)) =>
    if a.op = .supersede then
      { q' with
        store := s
        out := { q.out with superseded := q.out.superseded + 1, applied := q.out.applied + 1 } }
    else
      { q' with
        store := s.recordReorg h (w.clock p.id) classifierActor a.op.name a.nodeId a.detail
        out := { q.out with applied := q.out.applied + 1 } }
  | (s, .ok none) => { q' with store := s, out := { q.out with refused := q.out.refused + 1 } }
  | (s, .error _) => { q' with store := s }

/-- `refuse_one`. -/
def refuseOne (q : QueueRun) (p : ProposalRow) (reason : String) : QueueRun :=
  { q with
    store := dropWith h w run p (.refused p.op.kind (propSubjects p) reason) "refuse"
      s!"{p.op.name}: {reason}" q.store
    out := { q.out with refused := q.out.refused + 1 } }

/-- `defer_one`: park the proposal, or expire it at its last attempt. -/
def deferOne (q : QueueRun) (p : ProposalRow) (reason : String) : QueueRun :=
  let attempts := p.attempts + 1
  if proposalTtlAttempts ≤ attempts then
    { q with
      store := dropWith h w run p
        (.expired p.op.kind (propSubjects p) s!"{attempts} attempts; last: {reason}") "expire"
        s!"{p.op.name}: {attempts} attempts" q.store
      out := { q.out with expired := q.out.expired + 1 } }
  else
    { q with
      store := q.store.deferProposal p.id attempts (run + backoffRuns attempts) reason
      out := { q.out with deferred := q.out.deferred + 1 } }

/-- One due proposal. -/
def handleOne (f : Facts) (lakeNewest : ℤ) (q : QueueRun) (p : ProposalRow) : QueueRun :=
  match expired p lakeNewest with
  | some why =>
    { q with
      store := dropWith h w run p (.expired p.op.kind (propSubjects p) why) "expire"
        s!"{p.op.name}: {why}" q.store
      out := { q.out with expired := q.out.expired + 1 } }
  | none =>
    if (propSubjects p).any fun x => match x with
      | .node n => w.quarantined n
      | _ => false then
      { q with
        store := q.store.deferProposal p.id p.attempts (run + 1) "quarantined by the canary"
        out := { q.out with deferred := q.out.deferred + 1 } }
    else
      match adjudicateStructural w.unicode w.alike q.store f p with
      | .apply => applyOne h w run q p
      | .verify => { q with toVerify := q.toVerify ++ [p] }
      | .refuse reason => refuseOne h w run q p reason

/-- One proposal of a verifier's batch. -/
def settleOne (reply : Except String (List SupersedeVerdict)) (q : QueueRun) (p : ProposalRow) :
    QueueRun :=
  match reply with
  | .error e => deferOne h w run q p s!"verifier unavailable: {e}"
  | .ok verdicts =>
    match verdicts.find? fun v => v.proposalId = p.id with
    | none => deferOne h w run q p "no verdict"
    | some v =>
      if v.apply && v.confident then applyOne h w run q p
      else refuseOne h w run q p s!"verifier refuted (confidence {v.confidence}): {v.reason}"

/-- A verifier's batch, if there is one. -/
def settleBatch (reply : Except String (List SupersedeVerdict)) (batch : List ProposalRow)
    (q : QueueRun) : QueueRun :=
  match batch with
  | [] => q
  | _ => batch.foldl (settleOne h w run reply)
      { q with out := { q.out with verifierCalls := q.out.verifierCalls + 1 } }

/-- `process_queue`. -/
def processQueue (s : Store) : QueueRun :=
  let q := (s.listDueProposals run).foldl (handleOne h w run (Facts.load s) s.lakeNewestTs)
    ⟨s, ⟨0, 0, 0, 0, 0, 0⟩, [], []⟩
  let q := settleBatch h w run w.supersedeReply (q.toVerify.filter fun p => p.op = .supersede) q
  settleBatch h w run w.mergeReply (q.toVerify.filter fun p => p.op ≠ .supersede) q

end queue

/-! ### What the queue keeps -/

/-- The tables of the catalog, and the lake's events up to new ones. -/
structure SameCatalog (s s' : Store) : Prop where
  nodes : s'.nodes = s.nodes
  links : s'.links = s.links
  observations : s'.observations = s.observations
  minted : s'.minted = s.minted

theorem SameCatalog.refl (s : Store) : SameCatalog s s := ⟨rfl, rfl, rfl, rfl⟩

theorem SameCatalog.trans {s₁ s₂ s₃ : Store} (h : SameCatalog s₁ s₂) (h' : SameCatalog s₂ s₃) :
    SameCatalog s₁ s₃ :=
  ⟨h'.nodes.trans h.nodes, h'.links.trans h.links, h'.observations.trans h.observations,
    h'.minted.trans h.minted⟩

/-- What the queue leaves as it was but by an apply: the catalog, the user's
notes, and of each proposal that stays, what it proposes. -/
structure Quiet (s s' : Store) : Prop extends SameCatalog s s' where
  userNotes : s'.userNotes = s.userNotes
  proposals : ∀ {id p'}, s'.proposals.get? id = some p' →
    ∃ p, s.proposals.get? id = some p ∧ p'.op = p.op ∧ p'.nodeId = p.nodeId

theorem Quiet.refl (s : Store) : Quiet s s := ⟨.refl s, rfl, fun hp => ⟨_, hp, rfl, rfl⟩⟩

theorem Quiet.trans {s₁ s₂ s₃ : Store} (h : Quiet s₁ s₂) (h' : Quiet s₂ s₃) : Quiet s₁ s₃ where
  toSameCatalog := h.toSameCatalog.trans h'.toSameCatalog
  userNotes := h'.userNotes.trans h.userNotes
  proposals {_ _} hp := by
    obtain ⟨p', hp', hop', hnode'⟩ := h'.proposals hp
    obtain ⟨p, hp, hop, hnode⟩ := h.proposals hp'
    exact ⟨p, hp, hop'.trans hop, hnode'.trans hnode⟩

namespace Store

theorem quiet_recordCurate (h : Host) (s : Store) (now : ℤ) (actor node action detail : String) :
    Quiet s (s.recordCurate h now actor node action detail) := by
  unfold recordCurate
  dsimp only
  split_ifs <;> exact ⟨⟨rfl, rfl, rfl, rfl⟩, rfl, fun hp => ⟨_, hp, rfl, rfl⟩⟩

theorem quiet_recordReorg (h : Host) (s : Store) (now : ℤ) (actor op node detail : String) :
    Quiet s (s.recordReorg h now actor op node detail) :=
  ⟨⟨rfl, rfl, rfl, rfl⟩, rfl, fun hp => ⟨_, hp, rfl, rfl⟩⟩

theorem quiet_journalOp {s s' : Store} {run : ℤ} {rec : OpRecord}
    (hj : s.journalOp run rec = .ok s') : Quiet s s' := by
  unfold journalOp at hj
  split_ifs at hj
  · cases hj
    exact .refl s
  · split at hj
    · cases hj
    · cases hj
      exact ⟨⟨rfl, rfl, rfl, rfl⟩, rfl, fun hp => ⟨_, hp, rfl, rfl⟩⟩

theorem quiet_tryJournal (s : Store) (run : ℤ) (rec : OpRecord) : Quiet s (s.tryJournal run rec) := by
  unfold tryJournal
  cases hj : s.journalOp run rec with
  | error e => exact .refl s
  | ok s' => exact quiet_journalOp hj

theorem quiet_dropProposal (s : Store) (id : ℤ) : Quiet s (s.dropProposal id) := by
  refine ⟨⟨rfl, rfl, rfl, rfl⟩, rfl, fun {k p'} hp => ?_⟩
  have hget : (s.dropProposal id).proposals.get? k = _ := Table.get?_delete
  rw [hget, Option.filter_eq_some_iff] at hp
  exact ⟨p', hp.1, rfl, rfl⟩

theorem quiet_deferProposal (s : Store) (id attempts nextAfterRun : ℤ) (reason : String) :
    Quiet s (s.deferProposal id attempts nextAfterRun reason) := by
  refine ⟨⟨rfl, rfl, rfl, rfl⟩, rfl, fun {k p'} hp => ?_⟩
  rw [deferProposal, AutoTable.toTable_update, Table.get?_update] at hp
  obtain ⟨p₀, hp₀, rfl⟩ := Option.map_eq_some_iff.mp hp
  refine ⟨p₀, hp₀, ?_⟩
  split_ifs <;> exact ⟨rfl, rfl⟩

theorem quiet_finishCuration (s : Store) (run : ℤ) (made : Bool) (id ops : ℤ) :
    Quiet s (s.finishCuration run made id ops) := by
  cases made <;> exact ⟨⟨rfl, rfl, rfl, rfl⟩, rfl, fun hp => ⟨_, hp, rfl, rfl⟩⟩

/-- A supersession writes the ledger and its own table. -/
theorem applySupersession_ok {h : Host} {s s' : Store} {now oldSeq newSeq : ℤ}
    {rationale actor : String} {outcome : SupersessionOutcome}
    (hs : s.applySupersession h now oldSeq newSeq rationale actor = .ok (s', outcome)) :
    s' = s ∨ ∃ a supersessions, s' = { s.append h a with supersessions := supersessions } := by
  unfold applySupersession at hs
  split at hs
  · cases hs
    exact .inl rfl
  split at hs
  · cases hs
    exact .inl rfl
  split_ifs at hs
  · cases hs
    exact .inl rfl
  · cases hs
    exact .inl rfl
  dsimp only at hs
  split at hs
  · cases hs
  · cases hs
    exact .inr ⟨_, _, rfl⟩

/-- What an apply under a run does beside its op leaves the catalog. -/
theorem applied_cases (h : Host) (s : Store) (now id run : ℤ) (actor : String) :
    Quiet s (s.applyClassProposalInRun h now id actor (some run)).1 ∨
      ∃ p s₁ detail, s.proposals.get? id = some p ∧
        s.applyOp h now run actor p = .ok (some (s₁, detail)) ∧
        Quiet s₁ (s.applyClassProposalInRun h now id actor (some run)).1 := by
  unfold applyClassProposalInRun
  split
  · exact .inl (.refl s)
  rename_i p hp
  simp only [Option.some_or]
  split
  · exact .inl (.refl s)
  rename_i s' applied hs
  unfold applyProposal at hs
  split_ifs at hs
  · cases hs
    exact .inl (.refl s)
  obtain ⟨r, hop, hs⟩ := bind_eq_ok.mp hs
  cases r with
  | none =>
    cases hs
    exact .inl ((s.quiet_dropProposal p.id).trans (quiet_finishCuration _ run false p.id 0))
  | some r =>
    obtain ⟨s₁, detail⟩ := r
    cases hs
    exact .inr ⟨p, s₁, detail, hp, hop,
      (s₁.quiet_dropProposal p.id).trans (quiet_finishCuration _ run false p.id 1)⟩

end Store

theorem quiet_dropWith (h : Host) (w : Surroundings) (run : ℤ) (p : ProposalRow)
    (rec : Store.OpRecord) (action detail : String) (s : Store) :
    Quiet s (dropWith h w run p rec action detail s) := by
  have h1 := s.quiet_tryJournal run rec
  have h2 := (s.tryJournal run rec).quiet_recordCurate h (w.clock p.id) classifierActor
    (p.nodeId.getD "") action detail
  exact (h1.trans h2).trans (Store.quiet_dropProposal _ p.id)

/-- An apply of the queue is the store's, but for its event. -/
theorem quiet_applyOne (h : Host) (w : Surroundings) (run : ℤ) (q : QueueRun) (p : ProposalRow) :
    Quiet (q.store.applyClassProposalInRun h (w.clock p.id) p.id classifierActor (some run)).1
        (applyOne h w run q p).store ∧
      (applyOne h w run q p).applies = q.applies ++ [(q.store, p)] := by
  unfold applyOne
  dsimp only
  split
  · rename_i s a heq
    rw [heq]
    split_ifs
    · exact ⟨.refl s, rfl⟩
    · exact ⟨s.quiet_recordReorg h (w.clock p.id) classifierActor _ _ _, rfl⟩
  · rename_i s heq
    rw [heq]
    exact ⟨.refl s, rfl⟩
  · rename_i s e heq
    rw [heq]
    exact ⟨.refl s, rfl⟩

/-- A proposal that the queue may apply: due, and a collapse only on the
verdict over the facts. -/
structure Admitted (run : ℤ) (s : Store) (p : ProposalRow) : Prop where
  due : p ∈ s.listDueProposals run
  collapse : p.op = .collapse → adjudicateCollapse (Facts.load s) p = .apply

section induction

variable {h : Host} {w : Surroundings} {run : ℤ} {s : Store} {P : QueueRun → Prop}

/-- What every step that applies nothing keeps, and every apply of an admitted
proposal. -/
structure QueueInv (h : Host) (w : Surroundings) (run : ℤ) (s : Store) (P : QueueRun → Prop) :
    Prop where
  quiet : ∀ {q q' : QueueRun}, Quiet q.store q'.store → q'.applies = q.applies → P q → P q'
  apply : ∀ {q : QueueRun} {p : ProposalRow}, Admitted run s p → P q → P (applyOne h w run q p)

theorem toVerify_applyOne (q : QueueRun) (p : ProposalRow) :
    (applyOne h w run q p).toVerify = q.toVerify := by
  unfold applyOne
  dsimp only
  split
  · split_ifs <;> rfl
  · rfl
  · rfl

theorem toVerify_settleOne (reply : Except String (List SupersedeVerdict)) (q : QueueRun)
    (p : ProposalRow) : (settleOne h w run reply q p).toVerify = q.toVerify := by
  have hdefer : ∀ reason, (deferOne h w run q p reason).toVerify = q.toVerify := by
    intro reason
    unfold deferOne
    dsimp only
    split_ifs <;> rfl
  unfold settleOne
  split
  · exact hdefer _
  split
  · exact hdefer _
  split_ifs
  · exact toVerify_applyOne q p
  · rfl

theorem toVerify_settleBatch (reply : Except String (List SupersedeVerdict))
    (batch : List ProposalRow) (q : QueueRun) :
    (settleBatch h w run reply batch q).toVerify = q.toVerify := by
  have hfold : ∀ (ps : List ProposalRow) (q : QueueRun),
      (ps.foldl (settleOne h w run reply) q).toVerify = q.toVerify := by
    intro ps
    induction ps with
    | nil => exact fun _ => rfl
    | cons p ps ih => exact fun q => (ih _).trans (toVerify_settleOne reply q p)
  unfold settleBatch
  split
  · rfl
  · exact hfold _ _

theorem QueueInv.refuseOne (hP : QueueInv h w run s P) {q : QueueRun} (p : ProposalRow)
    (reason : String) (hq : P q) : P (refuseOne h w run q p reason) :=
  hP.quiet (quiet_dropWith h w run p _ _ _ q.store) rfl hq

theorem QueueInv.deferOne (hP : QueueInv h w run s P) {q : QueueRun} (p : ProposalRow)
    (reason : String) (hq : P q) : P (deferOne h w run q p reason) := by
  unfold PolisMemory.deferOne
  dsimp only
  split_ifs
  · exact hP.quiet (quiet_dropWith h w run p _ _ _ q.store) rfl hq
  · exact hP.quiet (q := q) (q.store.quiet_deferProposal p.id _ _ _) rfl hq

/-- A verdict to apply admits the proposal, and so does one to verify. -/
theorem admitted_of_verdict {s' : Store} {p : ProposalRow} (hdue : p ∈ s.listDueProposals run)
    (hv : adjudicateStructural w.unicode w.alike s' (Facts.load s) p = .apply ∨
      adjudicateStructural w.unicode w.alike s' (Facts.load s) p = .verify) : Admitted run s p := by
  refine ⟨hdue, fun hop => ?_⟩
  simp only [adjudicateStructural, hop] at hv
  refine hv.resolve_right fun hverify => ?_
  unfold adjudicateCollapse at hverify
  split at hverify
  · cases hverify
  split at hverify
  · cases hverify
  split_ifs at hverify

theorem QueueInv.handleOne (hP : QueueInv h w run s P) (lakeNewest : ℤ) {q : QueueRun}
    {p : ProposalRow} (hdue : p ∈ s.listDueProposals run)
    (hq : P q ∧ ∀ v ∈ q.toVerify, Admitted run s v) :
    P (handleOne h w run (Facts.load s) lakeNewest q p) ∧
      ∀ v ∈ (PolisMemory.handleOne h w run (Facts.load s) lakeNewest q p).toVerify,
        Admitted run s v := by
  unfold PolisMemory.handleOne
  split
  · exact ⟨hP.quiet (quiet_dropWith h w run p _ _ _ q.store) rfl hq.1, hq.2⟩
  split_ifs
  · exact ⟨hP.quiet (q := q) (q.store.quiet_deferProposal p.id _ _ _) rfl hq.1, hq.2⟩
  split
  · rename_i hv
    rw [toVerify_applyOne]
    exact ⟨hP.apply (admitted_of_verdict hdue (.inl hv)) hq.1, hq.2⟩
  · rename_i hv
    refine ⟨hP.quiet (.refl q.store) rfl hq.1, fun v hm => ?_⟩
    rcases List.mem_append.mp hm with hm | hm
    · exact hq.2 v hm
    · rw [List.mem_singleton.mp hm]
      exact admitted_of_verdict hdue (.inr hv)
  · exact ⟨hP.refuseOne p _ hq.1, hq.2⟩

theorem QueueInv.settleOne (hP : QueueInv h w run s P)
    (reply : Except String (List SupersedeVerdict)) {q : QueueRun} {p : ProposalRow}
    (hp : Admitted run s p) (hq : P q) : P (settleOne h w run reply q p) := by
  unfold PolisMemory.settleOne
  split
  · exact hP.deferOne p _ hq
  split
  · exact hP.deferOne p _ hq
  split_ifs
  · exact hP.apply hp hq
  · exact hP.refuseOne p _ hq

theorem QueueInv.foldl {Q : QueueRun → Prop} {step : QueueRun → ProposalRow → QueueRun} :
    ∀ (ps : List ProposalRow) {q : QueueRun},
      (∀ {q : QueueRun}, ∀ p ∈ ps, Q q → Q (step q p)) → Q q → Q (ps.foldl step q)
  | [], _, _, hq => hq
  | p :: ps, _, hstep, hq => by
    apply foldl ps fun p' hp' => hstep p' (List.mem_cons_of_mem p hp')
    exact hstep p List.mem_cons_self hq

theorem QueueInv.settleBatch (hP : QueueInv h w run s P)
    (reply : Except String (List SupersedeVerdict)) {batch : List ProposalRow} {q : QueueRun}
    (hbatch : ∀ p ∈ batch, Admitted run s p) (hq : P q) : P (settleBatch h w run reply batch q) := by
  unfold PolisMemory.settleBatch
  split
  · exact hq
  · apply QueueInv.foldl _ fun p hp => hP.settleOne reply (hbatch p hp)
    exact hP.quiet (.refl q.store) rfl hq

/-- What holds before the first proposal and is kept by each step holds after
the last. -/
theorem processQueue_ind (hP : QueueInv h w run s P) (hs : P ⟨s, ⟨0, 0, 0, 0, 0, 0⟩, [], []⟩) :
    P (processQueue h w run s) := by
  have hstart : P ⟨s, ⟨0, 0, 0, 0, 0, 0⟩, [], []⟩ ∧ ∀ v ∈ ([] : List ProposalRow),
      Admitted run s v := ⟨hs, by simp⟩
  have hfirst := QueueInv.foldl (Q := fun q => P q ∧ ∀ v ∈ q.toVerify, Admitted run s v)
    (s.listDueProposals run) (fun p hp hq => hP.handleOne s.lakeNewestTs hp hq) hstart
  refine hP.settleBatch _ (fun p hp => ?_) (hP.settleBatch _ (fun p hp => ?_) hfirst.1)
  · rw [toVerify_settleBatch] at hp
    exact hfirst.2 p (List.mem_of_mem_filter hp)
  · exact hfirst.2 p (List.mem_of_mem_filter hp)

end induction

end PolisMemory
