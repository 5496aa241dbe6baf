/-
# The turns of the work queue

`process_queue` of `crates/polis-memory/src/organize.rs` again, as the list of its
turns: one for each due proposal, in the pass over the queue, and one more for each
proposal of a verifier's batch. A run that the deadline of `organize_once` cuts off
ends where a verifier is awaited, so it has got as far as the pass, as the
supersessions, or through both batches (`Reach`).

A turn touches one row of the queue (`onlyRow_step`), and makes one of four things
of it (`Outcome`): it expires it with one line of the journal, parks it for a later
run, takes it off the queue, or leaves it as it is and journals nothing.

Key definitions: `Entry`, `runTurns`, `queueUntil`, `Outcome`, `Handled`.
Key theorems: `handled_handle`, `handled_settle`, `toVerify_spec`.
-/
import PolisMemory.InFlight
import PolisMemory.Queue

namespace PolisMemory
namespace QueueHistory

open Store Tables

/-! ### The turns of a run -/

/-- When a proposal comes up: in the pass over the queue, or in a batch, under the
verifier's reply. -/
inductive Turn
  | handle
  | settle (reply : Except String (List SupersedeVerdict))

/-- How far a run got. -/
inductive Reach
  | due
  | supersedes
  | merges
  deriving DecidableEq, Repr

/-- One turn of a run that started at the lake time `lake`. -/
structure Entry where
  w : Surroundings
  run : ℤ
  lake : ℤ
  turn : Turn
  proposal : ProposalRow
  before : QueueRun
  after : QueueRun

section turns

variable (h : Host) (w : Surroundings) (run : ℤ)

def Turn.step (f : Facts) (lake : ℤ) : Turn → QueueRun → ProposalRow → QueueRun
  | .handle => handleOne h w run f lake
  | .settle reply => settleOne h w run reply

/-- The turns of a list of proposals. -/
def trace (f : Facts) (lake : ℤ) (turn : Turn) : QueueRun → List ProposalRow → List Entry
  | _, [] => []
  | q, p :: ps =>
    ⟨w, run, lake, turn, p, q, turn.step h w run f lake q p⟩ ::
      trace f lake turn (turn.step h w run f lake q p) ps

/-- The queue before the first turn. -/
def startQueue (s : Store) : QueueRun := ⟨s, ⟨0, 0, 0, 0, 0, 0⟩, [], []⟩

/-- The queue after the pass. -/
def afterDue (s : Store) : QueueRun :=
  (s.listDueProposals run).foldl (handleOne h w run (Facts.load s) s.lakeNewestTs) (startQueue s)

def supersedeBatch (q : QueueRun) : List ProposalRow := q.toVerify.filter fun p => p.op = .supersede

def mergeBatch (q : QueueRun) : List ProposalRow := q.toVerify.filter fun p => p.op ≠ .supersede

/-- The queue after the supersessions' batch. -/
def afterSupersedes (s : Store) : QueueRun :=
  settleBatch h w run w.supersedeReply (supersedeBatch (afterDue h w run s)) (afterDue h w run s)

/-- The queue of a run that got so far. -/
def queueUntil (s : Store) : Reach → QueueRun
  | .due => afterDue h w run s
  | .supersedes => afterSupersedes h w run s
  | .merges => settleBatch h w run w.mergeReply (mergeBatch (afterSupersedes h w run s))
      (afterSupersedes h w run s)

/-- A run that was not cut off is `process_queue`. -/
theorem queueUntil_merges (s : Store) : queueUntil h w run s .merges = processQueue h w run s := rfl

/-- A verifier is called. -/
def called (q : QueueRun) : QueueRun :=
  { q with out := { q.out with verifierCalls := q.out.verifierCalls + 1 } }

/-- The turns of the pass. -/
def dueTurns (s : Store) : List Entry :=
  trace h w run (Facts.load s) s.lakeNewestTs .handle (startQueue s) (s.listDueProposals run)

def supersedeTurns (s : Store) : List Entry :=
  trace h w run (Facts.load s) s.lakeNewestTs (.settle w.supersedeReply)
    (called (afterDue h w run s)) (supersedeBatch (afterDue h w run s))

def mergeTurns (s : Store) : List Entry :=
  trace h w run (Facts.load s) s.lakeNewestTs (.settle w.mergeReply)
    (called (afterSupersedes h w run s)) (mergeBatch (afterSupersedes h w run s))

/-- The turns of a run that got so far. -/
def runTurns (s : Store) : Reach → List Entry
  | .due => dueTurns h w run s
  | .supersedes => dueTurns h w run s ++ supersedeTurns h w run s
  | .merges => dueTurns h w run s ++ supersedeTurns h w run s ++ mergeTurns h w run s

end turns

/-! ### What a turn is -/

/-- One of the subjects is quarantined. -/
def touchesQuarantine (w : Surroundings) (p : ProposalRow) : Bool :=
  (propSubjects p).any fun x => match x with
    | .node n => w.quarantined n
    | _ => false

namespace Entry

/-- A verifier left the proposal undecided: it failed, or gave no verdict on it. -/
def undecided (e : Entry) : Bool :=
  match e.turn with
  | .handle => false
  | .settle (.error _) => true
  | .settle (.ok verdicts) => (verdicts.find? fun v => v.proposalId = e.proposal.id).isNone

/-- The proposal comes up while one of its subjects is quarantined. -/
def quarantined (e : Entry) : Bool :=
  match e.turn with
  | .handle => touchesQuarantine e.w e.proposal
  | .settle _ => false

/-- The proposal reaches the limit or its lake-time expiry. -/
def Reached (e : Entry) : Prop :=
  match e.turn with
  | .handle => (expired e.proposal e.lake).isSome
  | .settle _ => e.undecided ∧ proposalTtlAttempts ≤ e.proposal.attempts + 1

/-- The turn is counted as a deferral. -/
def Defers (e : Entry) : Prop := e.after.out.deferred = e.before.out.deferred + 1

/-- The turn is counted as an expiry. -/
def Expires (e : Entry) : Prop := e.after.out.expired = e.before.out.expired + 1

/-- The turn calls `apply_one`. -/
def Applies (e : Entry) : Prop := e.after.applies ≠ e.before.applies

/-- What the turn adds to the journal. -/
def journaled (e : Entry) : List OpRow :=
  e.after.store.runOps.rows.drop e.before.store.runOps.rows.length

end Entry

/-- A proposal as `list_due_proposals` reads it. -/
structure Due (run : ℤ) (s : Store) (p : ProposalRow) : Prop where
  row : s.proposals.get? p.id = some p
  queued : p.status = .proposed
  due : p.nextAfterRun.all (· ≤ run) = true

/-- Of the queue no other row, and no run, is touched. -/
structure OnlyRow (id : ℤ) (s s' : Store) : Prop where
  others : ∀ k, k ≠ id → s'.proposals.get? k = s.proposals.get? k
  nextId : s'.proposals.nextId = s.proposals.nextId
  runs : s'.runs = s.runs

/-- What a turn makes of its proposal. -/
inductive Outcome (e : Entry) : Prop
  | expired (reached : e.Reached) (counted : e.Expires) (undeferred : ¬e.Defers)
      (unapplied : ¬e.Applies)
      (gone : e.after.store.proposals.get? e.proposal.id = none)
      (line : ∃ why, e.after.store.runOps.rows = e.before.store.runOps.rows ++
        [e.before.store.opRow e.run
          (.expired e.proposal.op.kind (propSubjects e.proposal) why)])
  | parked (unreached : ¬e.Reached) (uncounted : ¬e.Expires) (deferred : e.Defers)
      (unapplied : ¬e.Applies) (cause : e.undecided = true ∨ e.quarantined = true)
      (row : ∃ p' n, e.after.store.proposals.get? e.proposal.id = some p' ∧ p'.status = .proposed ∧
        p'.attempts = e.proposal.attempts + (if e.undecided then 1 else 0) ∧
        p'.nextAfterRun = some n ∧ e.run < n)
      (silent : e.after.store.runOps = e.before.store.runOps)
  | left (unreached : ¬e.Reached) (uncounted : ¬e.Expires) (undeferred : ¬e.Defers)
      (decided : e.undecided = false ∧ e.quarantined = false)
      (gone : e.after.store.proposals.get? e.proposal.id = none)
  | kept (unreached : ¬e.Reached) (uncounted : ¬e.Expires) (undeferred : ¬e.Defers)
      (decided : e.undecided = false ∧ e.quarantined = false)
      (row : e.after.store.proposals.get? e.proposal.id = some e.proposal)
      (silent : e.after.store.runOps = e.before.store.runOps)

/-- A turn of a proposal that is due. -/
structure Handled (e : Entry) : Prop where
  due : Due e.run e.before.store e.proposal
  only : OnlyRow e.proposal.id e.before.store e.after.store
  fresh : e.Applies → expired e.proposal e.lake = none
  outcome : Outcome e

/-! ### What writes no row of the queue -/

/-- The queue and the runs. -/
structure SameQueue (s s' : Store) : Prop where
  proposals : s'.proposals = s.proposals
  runs : s'.runs = s.runs

theorem SameQueue.refl (s : Store) : SameQueue s s := ⟨rfl, rfl⟩

theorem SameQueue.trans {s₁ s₂ s₃ : Store} (h : SameQueue s₁ s₂) (h' : SameQueue s₂ s₃) :
    SameQueue s₁ s₃ :=
  ⟨h'.proposals.trans h.proposals, h'.runs.trans h.runs⟩

theorem sameQueue_of_lake {s s' : Store} (hl : SameLake s s') : SameQueue s s' :=
  ⟨hl.proposals, hl.runs⟩

theorem sameQueue_journalOp {s s' : Store} {run : ℤ} {rec : OpRecord}
    (hj : s.journalOp run rec = .ok s') : SameQueue s s' := by
  obtain ⟨ops, rfl, -⟩ := journalOp_ok hj
  exact ⟨rfl, rfl⟩

theorem sameQueue_tryJournal (s : Store) (run : ℤ) (rec : OpRecord) :
    SameQueue s (s.tryJournal run rec) :=
  sameQueue_journalOp (journalOp_eq_tryJournal s run rec)

theorem recordCurate_cases (h : Host) (s : Store) (now : ℤ) (actor node action detail : String) :
    s.recordCurate h now actor node action detail = s ∨
      ∃ a, s.recordCurate h now actor node action detail = s.append h a := by
  unfold recordCurate
  dsimp only
  split_ifs
  · exact .inl rfl
  · exact .inr ⟨_, rfl⟩

theorem sameQueue_recordCurate (h : Host) (s : Store) (now : ℤ)
    (actor node action detail : String) :
    SameQueue s (s.recordCurate h now actor node action detail) := by
  rcases recordCurate_cases h s now actor node action detail with hc | ⟨a, hc⟩
  · rw [hc]
    exact .refl s
  · rw [hc]
    exact ⟨rfl, rfl⟩

section applied

variable {h : Host} {s s' : Store} {now run : ℤ} {actor detail : String} {p : ProposalRow}

theorem sameQueue_supersede (ha : s.applySupersede h now run actor p = .ok (some (s', detail))) :
    SameQueue s s' := by
  unfold applySupersede at ha
  split at ha
  · cases ha
  obtain ⟨⟨s₁, outcome⟩, hs, ha⟩ := bind_eq_ok.mp ha
  cases outcome with
  | rejected message => cases ha
  | applied effectiveOld newSeq eventSeq =>
    obtain ⟨s₂, hj, ha⟩ := bind_eq_ok.mp ha
    cases ha
    have hsame : SameQueue s s₁ := by
      rcases applySupersession_ok hs with rfl | ⟨a, supersessions, rfl⟩
      · exact .refl s₁
      · exact ⟨rfl, rfl⟩
    exact hsame.trans (sameQueue_journalOp hj)

/-- No op touches the queue. -/
theorem sameQueue_applyOp (ha : s.applyOp h now run actor p = .ok (some (s', detail))) :
    SameQueue s s' := by
  unfold applyOp at ha
  split at ha
  case h_1 =>
    obtain ⟨r, hr, heq⟩ := map_eq_ok ha
    cases heq
    exact (sameQueue_of_lake (s.sameLake_catalog _ _ _ _)).trans
      (sameQueue_journalOp (applyPromote_ok hr))
  case h_2 =>
    obtain ⟨r, hr, heq⟩ := map_eq_ok ha
    cases heq
    obtain ⟨image, subjects, s₁, -, hlake, hj⟩ := within_collapse hr
    exact (sameQueue_of_lake hlake).trans (sameQueue_journalOp hj)
  case h_3 =>
    obtain ⟨image, subjects, s₁, -, hlake, hj⟩ := within_merge ha
    exact (sameQueue_of_lake hlake).trans (sameQueue_journalOp hj)
  case h_4 =>
    obtain ⟨r, hr, heq⟩ := map_eq_ok ha
    cases heq
    obtain ⟨image, subjects, s₁, -, hlake, hj⟩ := within_split hr
    exact (sameQueue_of_lake hlake).trans (sameQueue_journalOp hj)
  case h_5 => exact sameQueue_supersede ha
  case h_6 => cases ha

/-- An apply under a run leaves the store, or drops the proposal. -/
theorem applyInRun_cases (h : Host) (s : Store) (now id run : ℤ) (actor : String) :
    (s.applyClassProposalInRun h now id actor (some run)).1 = s ∨
      ∃ s₁, SameQueue s s₁ ∧
        (s.applyClassProposalInRun h now id actor (some run)).1 = s₁.dropProposal id := by
  unfold applyClassProposalInRun
  split
  · exact .inl rfl
  rename_i p hp
  have hid : p.id = id := Table.key_of_get? hp
  simp only [Option.some_or]
  split
  · exact .inl rfl
  rename_i s' applied hs
  unfold applyProposal at hs
  split_ifs at hs
  · cases hs
    exact .inl rfl
  obtain ⟨r, hop, hs⟩ := bind_eq_ok.mp hs
  cases r with
  | none =>
    cases hs
    exact .inr ⟨s, .refl s, by rw [hid]; rfl⟩
  | some r =>
    obtain ⟨s₁, detail⟩ := r
    cases hs
    exact .inr ⟨s₁, sameQueue_applyOp hop, by rw [hid]; rfl⟩

end applied

/-! ### What writes one -/

theorem OnlyRow.of_same {id : ℤ} {s s' : Store} (hs : SameQueue s s') : OnlyRow id s s' :=
  ⟨fun k _ => by rw [hs.proposals], by rw [hs.proposals], hs.runs⟩

theorem OnlyRow.trans {id : ℤ} {s₁ s₂ s₃ : Store} (h : OnlyRow id s₁ s₂) (h' : OnlyRow id s₂ s₃) :
    OnlyRow id s₁ s₃ :=
  ⟨fun k hk => (h'.others k hk).trans (h.others k hk), h'.nextId.trans h.nextId,
    h'.runs.trans h.runs⟩

theorem get?_dropProposal (s : Store) (id k : ℤ) :
    (s.dropProposal id).proposals.get? k = if k = id then none else s.proposals.get? k := by
  have hget : (s.dropProposal id).proposals.get? k = _ := Table.get?_delete
  rw [hget]
  cases hp : s.proposals.get? k with
  | none => simp
  | some p =>
    have hid : p.id = k := Table.key_of_get? hp
    by_cases hk : k = id <;> simp [Option.filter, hid, hk]

theorem onlyRow_dropProposal (s : Store) (id : ℤ) : OnlyRow id s (s.dropProposal id) :=
  ⟨fun k hk => by rw [get?_dropProposal, if_neg hk], rfl, rfl⟩

theorem get?_deferProposal (s : Store) (id attempts n : ℤ) (reason : String) (k : ℤ) :
    (s.deferProposal id attempts n reason).proposals.get? k =
      (s.proposals.get? k).map fun p =>
        if p.id = id && p.status = .proposed then
          { p with attempts := attempts, nextAfterRun := some n, lastReason := some reason }
        else p := by
  rw [deferProposal, AutoTable.toTable_update, Table.get?_update]

theorem onlyRow_deferProposal (s : Store) (id attempts n : ℤ) (reason : String) :
    OnlyRow id s (s.deferProposal id attempts n reason) := by
  refine ⟨fun k hk => ?_, rfl, rfl⟩
  rw [get?_deferProposal]
  cases hp : s.proposals.get? k with
  | none => rfl
  | some p =>
    have hid : p.id ≠ id := by
      rw [show p.id = k from Table.key_of_get? hp]
      exact hk
    simp [hid]

section steps

variable {h : Host} {w : Surroundings} {run : ℤ}

theorem onlyRow_dropWith (p : ProposalRow) (rec : OpRecord) (action detail : String) (s : Store) :
    OnlyRow p.id s (dropWith h w run p rec action detail s) := by
  have hsame := (sameQueue_tryJournal s run rec).trans
    (sameQueue_recordCurate h (s.tryJournal run rec) (w.clock p.id) classifierActor
      (p.nodeId.getD "") action detail)
  exact (OnlyRow.of_same hsame).trans (onlyRow_dropProposal _ p.id)

theorem gone_dropWith (p : ProposalRow) (rec : OpRecord) (action detail : String) (s : Store) :
    (dropWith h w run p rec action detail s).proposals.get? p.id = none := by
  rw [dropWith, get?_dropProposal, if_pos rfl]

/-- What leaves the queue leaves one line of the journal. -/
theorem rows_dropWith (p : ProposalRow) (rec : OpRecord) (action detail : String) {s : Store}
    (hf : s.runSourceForgotten run = false) :
    (dropWith h w run p rec action detail s).runOps.rows = s.runOps.rows ++ [s.opRow run rec] := by
  obtain ⟨ops, hj, hrows⟩ := journalOp_eq s run rec hf
  have htry : s.tryJournal run rec = { s with runOps := ops } := by rw [tryJournal, hj]
  rw [← hrows]
  change ((s.tryJournal run rec).recordCurate h (w.clock p.id) classifierActor
    (p.nodeId.getD "") action detail).runOps.rows = ops.rows
  rcases recordCurate_cases h (s.tryJournal run rec) (w.clock p.id) classifierActor
    (p.nodeId.getD "") action detail with hc | ⟨a, hc⟩
  · rw [hc, htry]
  · rw [hc, htry]
    rfl

/-- What `apply_one` makes of the row: nothing, or none. -/
theorem applyOne_cases {q : QueueRun} {p : ProposalRow} :
    ((applyOne h w run q p).store.proposals = q.store.proposals ∧
        (applyOne h w run q p).store.runOps = q.store.runOps ∨
      (applyOne h w run q p).store.proposals.get? p.id = none) ∧
    OnlyRow p.id q.store (applyOne h w run q p).store ∧
    (applyOne h w run q p).out.expired = q.out.expired ∧
    (applyOne h w run q p).out.deferred = q.out.deferred := by
  have hcases := applyInRun_cases h q.store (w.clock p.id) p.id run classifierActor
  generalize hr : q.store.applyClassProposalInRun h (w.clock p.id) p.id classifierActor
    (some run) = r at hcases
  have hrow : (r.1.proposals = q.store.proposals ∧ r.1.runOps = q.store.runOps ∨
      r.1.proposals.get? p.id = none) ∧ OnlyRow p.id q.store r.1 := by
    rcases hcases with hsame | ⟨s₁, hsame, hdrop⟩
    · rw [hsame]
      exact ⟨.inl ⟨rfl, rfl⟩, .of_same (.refl q.store)⟩
    · rw [hdrop]
      refine ⟨.inr ?_, (OnlyRow.of_same hsame).trans (onlyRow_dropProposal s₁ p.id)⟩
      rw [get?_dropProposal, if_pos rfl]
  unfold applyOne
  rw [hr]
  rcases r with ⟨s, _ | _ | a⟩
  · exact ⟨hrow.1, hrow.2, rfl, rfl⟩
  · exact ⟨hrow.1, hrow.2, rfl, rfl⟩
  · dsimp only
    split_ifs
    · exact ⟨hrow.1, hrow.2, rfl, rfl⟩
    · exact ⟨hrow.1, hrow.2.trans (.of_same ⟨rfl, rfl⟩), rfl, rfl⟩

theorem onlyRow_deferOne (q : QueueRun) (p : ProposalRow) (reason : String) :
    OnlyRow p.id q.store (deferOne h w run q p reason).store := by
  unfold deferOne
  dsimp only
  split_ifs
  · exact onlyRow_dropWith p _ _ _ q.store
  · exact onlyRow_deferProposal q.store p.id _ _ _

theorem onlyRow_refuseOne (q : QueueRun) (p : ProposalRow) (reason : String) :
    OnlyRow p.id q.store (refuseOne h w run q p reason).store :=
  onlyRow_dropWith p _ _ _ q.store

theorem onlyRow_handleOne (f : Facts) (lake : ℤ) (q : QueueRun) (p : ProposalRow) :
    OnlyRow p.id q.store (handleOne h w run f lake q p).store := by
  unfold handleOne
  split
  · exact onlyRow_dropWith p _ _ _ q.store
  split_ifs
  · exact onlyRow_deferProposal q.store p.id _ _ _
  split
  · exact applyOne_cases.2.1
  · exact .of_same (.refl q.store)
  · exact onlyRow_refuseOne q p _

theorem onlyRow_settleOne (reply : Except String (List SupersedeVerdict)) (q : QueueRun)
    (p : ProposalRow) : OnlyRow p.id q.store (settleOne h w run reply q p).store := by
  unfold settleOne
  split
  · exact onlyRow_deferOne q p _
  split
  · exact onlyRow_deferOne q p _
  split_ifs
  · exact applyOne_cases.2.1
  · exact onlyRow_refuseOne q p _

/-- **A turn** touches its own proposal's row only. -/
theorem onlyRow_step (f : Facts) (lake : ℤ) (turn : Turn) (q : QueueRun) (p : ProposalRow) :
    OnlyRow p.id q.store (turn.step h w run f lake q p).store := by
  cases turn with
  | handle => exact onlyRow_handleOne f lake q p
  | settle reply => exact onlyRow_settleOne reply q p

end steps

/-! ### What comes of a turn -/

theorem lt_backoff (run attempts : ℤ) : run < run + backoffRuns attempts := by
  unfold backoffRuns
  split_ifs <;> omega

section outcomes

variable {h : Host} {e : Entry}

theorem outcome_of_drop {why action detail : String}
    (hf : e.before.store.runSourceForgotten e.run = false) (hr : e.Reached)
    (hs : e.after = { e.before with
      store := dropWith h e.w e.run e.proposal
        (.expired e.proposal.op.kind (propSubjects e.proposal) why) action detail e.before.store
      out := { e.before.out with expired := e.before.out.expired + 1 } }) : Outcome e := by
  refine .expired hr ?_ ?_ ?_ ?_ ⟨why, ?_⟩
  · rw [Entry.Expires, hs]
  · rw [Entry.Defers, hs]
    simp
  · rw [Entry.Applies, hs]
    simp
  · rw [hs]
    apply gone_dropWith
  · rw [hs]
    exact rows_dropWith e.proposal _ action detail hf

theorem outcome_of_defer {attempts n : ℤ} {reason : String}
    (hd : Due e.run e.before.store e.proposal) (hu : ¬e.Reached)
    (hcause : e.undecided = true ∨ e.quarantined = true)
    (hatt : attempts = e.proposal.attempts + (if e.undecided then 1 else 0)) (hn : e.run < n)
    (hs : e.after = { e.before with
      store := e.before.store.deferProposal e.proposal.id attempts n reason
      out := { e.before.out with deferred := e.before.out.deferred + 1 } }) : Outcome e := by
  have hrow : e.after.store.proposals.get? e.proposal.id = some { e.proposal with
      attempts := attempts, nextAfterRun := some n, lastReason := some reason } := by
    rw [hs, get?_deferProposal, hd.row]
    simp [hd.queued]
  refine .parked hu ?_ ?_ ?_ hcause ⟨_, n, hrow, hd.queued, hatt, rfl, hn⟩ ?_
  · rw [Entry.Expires, hs]
    simp
  · rw [Entry.Defers, hs]
  · rw [Entry.Applies, hs]
    simp
  · rw [hs]
    rfl

/-- A turn that counts neither an expiry nor a deferral. -/
theorem outcome_of_decided (hd : Due e.run e.before.store e.proposal) (hu : ¬e.Reached)
    (hdec : e.undecided = false ∧ e.quarantined = false)
    (hx : e.after.out.expired = e.before.out.expired)
    (hp : e.after.out.deferred = e.before.out.deferred)
    (hrow : e.after.store.proposals = e.before.store.proposals ∧
        e.after.store.runOps = e.before.store.runOps ∨
      e.after.store.proposals.get? e.proposal.id = none) : Outcome e := by
  have hexp : ¬e.Expires := by
    rw [Entry.Expires, hx]
    simp
  have hdef : ¬e.Defers := by
    rw [Entry.Defers, hp]
    simp
  rcases hrow with ⟨hsame, hsilent⟩ | hgone
  · exact .kept hu hexp hdef hdec (hsame ▸ hd.row) hsilent
  · exact .left hu hexp hdef hdec hgone

end outcomes

section handled

variable {h : Host} {w : Surroundings} {run : ℤ} {q : QueueRun} {p : ProposalRow}

theorem handleOne_expired (f : Facts) {lake : ℤ} {why : String} (hx : expired p lake = some why) :
    handleOne h w run f lake q p = { q with
      store := dropWith h w run p (.expired p.op.kind (propSubjects p) why) "expire"
        s!"{p.op.name}: {why}" q.store
      out := { q.out with expired := q.out.expired + 1 } } := by
  rw [handleOne, hx]

theorem handleOne_quarantined (f : Facts) {lake : ℤ} (hx : expired p lake = none)
    (hq : touchesQuarantine w p = true) : handleOne h w run f lake q p = { q with
      store := q.store.deferProposal p.id p.attempts (run + 1) "quarantined by the canary"
      out := { q.out with deferred := q.out.deferred + 1 } } := by
  rw [handleOne, hx]
  exact if_pos hq

theorem handleOne_judged (f : Facts) {lake : ℤ} (hx : expired p lake = none)
    (hq : touchesQuarantine w p = false) : handleOne h w run f lake q p =
      match adjudicateStructural w.unicode w.alike q.store f p with
      | .apply => applyOne h w run q p
      | .verify => { q with toVerify := q.toVerify ++ [p] }
      | .refuse reason => refuseOne h w run q p reason := by
  rw [handleOne, hx]
  exact if_neg (ne_true_of_eq_false hq)

/-- **A turn of the pass.** -/
theorem handled_handle (f : Facts) (lake : ℤ) (hd : Due run q.store p)
    (hf : q.store.runSourceForgotten run = false) :
    Handled ⟨w, run, lake, .handle, p, q, handleOne h w run f lake q p⟩ := by
  have honly := @onlyRow_handleOne h w run f lake q p
  cases hx : expired p lake with
  | some why =>
    have hstep := @handleOne_expired h w run q p f lake why hx
    have hreached : (expired p lake).isSome = true := by rw [hx]; rfl
    refine ⟨hd, honly, fun ha => absurd ?_ ha, outcome_of_drop hf hreached hstep⟩
    rw [hstep]
  | none =>
    refine ⟨hd, honly, fun _ => hx, ?_⟩
    have hun : ¬(expired p lake).isSome = true := by simp [hx]
    cases hq : touchesQuarantine w p with
    | true =>
      have hstep := @handleOne_quarantined h w run q p f lake hx hq
      have hatt : p.attempts = p.attempts + 0 := (add_zero _).symm
      exact outcome_of_defer hd hun (.inr hq) hatt (lt_add_one run) hstep
    | false =>
      rw [handleOne_judged f hx hq]
      split
      · obtain ⟨hrow, -, hex, hde⟩ := @applyOne_cases h w run q p
        exact outcome_of_decided hd hun ⟨rfl, hq⟩ hex hde hrow
      · exact outcome_of_decided hd hun ⟨rfl, hq⟩ rfl rfl (.inl ⟨rfl, rfl⟩)
      · exact outcome_of_decided hd hun ⟨rfl, hq⟩ rfl rfl (.inr (gone_dropWith p _ _ _ q.store))

/-- A turn that leaves its proposal undecided. -/
theorem outcome_deferOne {reply : Except String (List SupersedeVerdict)} {lake : ℤ}
    (hd : Due run q.store p) (hf : q.store.runSourceForgotten run = false) {reason : String}
    {e : Entry} (he : e = ⟨w, run, lake, .settle reply, p, q, deferOne h w run q p reason⟩)
    (hund : e.undecided = true) : Outcome e := by
  subst he
  by_cases hlim : proposalTtlAttempts ≤ p.attempts + 1
  · have hstep : deferOne h w run q p reason = { q with
        store := dropWith h w run p (.expired p.op.kind (propSubjects p)
          s!"{p.attempts + 1} attempts; last: {reason}") "expire"
          s!"{p.op.name}: {p.attempts + 1} attempts" q.store
        out := { q.out with expired := q.out.expired + 1 } } := if_pos hlim
    exact outcome_of_drop hf ⟨hund, hlim⟩ hstep
  · have hstep : deferOne h w run q p reason = { q with
        store := q.store.deferProposal p.id (p.attempts + 1)
          (run + backoffRuns (p.attempts + 1)) reason
        out := { q.out with deferred := q.out.deferred + 1 } } := if_neg hlim
    have hatt : p.attempts + 1 = p.attempts + (if Entry.undecided ⟨w, run, lake, .settle reply, p, q,
        deferOne h w run q p reason⟩ then 1 else 0) := by
      rw [hund]
      rfl
    exact outcome_of_defer hd (fun hr => hlim hr.2) (.inl hund) hatt (lt_backoff run _) hstep

/-- **A turn of a batch**, of a proposal that was within its lake-days. -/
theorem handled_settle (lake : ℤ) (reply : Except String (List SupersedeVerdict))
    (hd : Due run q.store p) (hf : q.store.runSourceForgotten run = false)
    (hx : expired p lake = none) :
    Handled ⟨w, run, lake, .settle reply, p, q, settleOne h w run reply q p⟩ := by
  refine ⟨hd, onlyRow_settleOne reply q p, fun _ => hx, ?_⟩
  cases reply with
  | error message => exact outcome_deferOne hd hf rfl rfl
  | ok verdicts =>
    cases hv : verdicts.find? fun v => v.proposalId = p.id with
    | none =>
      have hund : (verdicts.find? fun v => v.proposalId = p.id).isNone = true := by rw [hv]; rfl
      have hstep : settleOne h w run (.ok verdicts) q p = deferOne h w run q p "no verdict" := by
        simp only [settleOne, hv]
      rw [hstep]
      exact outcome_deferOne hd hf rfl hund
    | some v =>
      have hund : (verdicts.find? fun v => v.proposalId = p.id).isNone = false := by rw [hv]; rfl
      have hstep : settleOne h w run (.ok verdicts) q p =
          if v.apply && v.confident then applyOne h w run q p
          else refuseOne h w run q p
            s!"verifier refuted (confidence {v.confidence}): {v.reason}" := by
        simp only [settleOne, hv]
      have hun : ∀ after : QueueRun,
          ¬(⟨w, run, lake, .settle (.ok verdicts), p, q, after⟩ : Entry).Reached :=
        fun after hr => ne_true_of_eq_false hund hr.1
      rw [hstep]
      split_ifs
      · obtain ⟨hrow, -, hex, hde⟩ := @applyOne_cases h w run q p
        exact outcome_of_decided hd (hun _) ⟨hund, rfl⟩ hex hde hrow
      · exact outcome_of_decided hd (hun _) ⟨hund, rfl⟩ rfl rfl
          (.inr (gone_dropWith p _ _ _ q.store))

end handled

/-! ### What waits for a verifier -/

section foldl

variable {h : Host} {w : Surroundings} {run : ℤ} (f : Facts) (lake : ℤ)

/-- The turns of some proposals leave the rows of the others. -/
theorem get?_foldl (turn : Turn) {k : ℤ} : ∀ (ps : List ProposalRow) (q : QueueRun),
    k ∉ ps.map ProposalRow.id →
    (ps.foldl (turn.step h w run f lake) q).store.proposals.get? k = q.store.proposals.get? k
  | [], _, _ => rfl
  | p :: ps, q, hk => by
    rw [List.map_cons, List.mem_cons, not_or] at hk
    rw [List.foldl_cons, get?_foldl turn ps _ hk.2]
    exact (onlyRow_step f lake turn q p).others k hk.1

theorem runs_foldl (turn : Turn) : ∀ (ps : List ProposalRow) (q : QueueRun),
    (ps.foldl (turn.step h w run f lake) q).store.runs = q.store.runs
  | [], _ => rfl
  | p :: ps, q => by
    rw [List.foldl_cons, runs_foldl turn ps]
    exact (onlyRow_step f lake turn q p).runs

theorem toVerify_handleOne (q : QueueRun) (p : ProposalRow) :
    (handleOne h w run f lake q p).toVerify = q.toVerify ∨
      (handleOne h w run f lake q p).toVerify = q.toVerify ++ [p] ∧
        (handleOne h w run f lake q p).store = q.store ∧ expired p lake = none := by
  unfold handleOne
  split
  · exact .inl rfl
  rename_i hx
  split_ifs
  · exact .inl rfl
  split
  · exact .inl (toVerify_applyOne q p)
  · exact .inr ⟨rfl, rfl, hx⟩
  · exact .inl rfl

/-- **What the pass puts by** are due proposals within their lake-days, whose rows
it leaves. -/
theorem toVerify_spec : ∀ (ps : List ProposalRow) (q : QueueRun), (ps.map ProposalRow.id).Nodup →
    ∃ vs, (ps.foldl (handleOne h w run f lake) q).toVerify = q.toVerify ++ vs ∧ vs.Sublist ps ∧
      ∀ v ∈ vs, expired v lake = none ∧
        (ps.foldl (handleOne h w run f lake) q).store.proposals.get? v.id =
          q.store.proposals.get? v.id
  | [], q, _ => ⟨[], (List.append_nil _).symm, .slnil, by simp⟩
  | p :: ps, q, hnodup => by
    obtain ⟨hp, hrest⟩ := List.nodup_cons.mp hnodup
    obtain ⟨vs, hto, hsub, hvs⟩ := toVerify_spec ps (handleOne h w run f lake q p) hrest
    have hothers := (@onlyRow_step h w run f lake .handle q p).others
    have hback : ∀ v ∈ vs, expired v lake = none ∧
        ((p :: ps).foldl (handleOne h w run f lake) q).store.proposals.get? v.id =
          q.store.proposals.get? v.id := by
      intro v hv
      have hne : v.id ≠ p.id := fun heq => hp (heq ▸ List.mem_map_of_mem (hsub.subset hv))
      exact ⟨(hvs v hv).1, (hvs v hv).2.trans (hothers v.id hne)⟩
    rcases @toVerify_handleOne h w run f lake q p with hq | ⟨hq, hs, hx⟩
    · exact ⟨vs, by rw [List.foldl_cons, hto, hq], hsub.cons p, hback⟩
    · refine ⟨p :: vs, ?_, hsub.cons_cons p, fun v hv => ?_⟩
      · rw [List.foldl_cons, hto, hq, List.append_assoc]
        rfl
      rcases List.mem_cons.mp hv with rfl | hv
      · refine ⟨hx, ?_⟩
        have hsame := @get?_foldl h w run f lake .handle v.id ps (handleOne h w run f lake q v) hp
        rw [hs] at hsame
        exact hsame
      · exact hback v hv

end foldl

end QueueHistory
end PolisMemory
