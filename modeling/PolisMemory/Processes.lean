/-
# Processes on one database

Several processes share the database. A statement outside a transaction is
its own transaction, and so is a whole `BEGIN IMMEDIATE`; between two of them
any other process may commit. `revert_run` reads the run, the horizon, its ops
and the later ops in four statements before its transaction begins; an apply
reads the proposal first; `journal_op` reads twice and then inserts; and
`compact_prompt_body_in_run` commits the swap before it journals it.

One process, the writer, journals, applies and finishes; every process may
call `revert_run`.

Key definitions: `Store.revertUndo`, `OpenCall.exec`, `World.turn`.
Key theorems: `Store.revertRun_eq`, `Store.revertUndo_owed`.
-/
import PolisMemory.History

namespace PolisMemory

open Tables Store

namespace Store

/-! ### The transaction of a revert -/

/-- The newest later run whose applied ops share a subject with the ops read. -/
def laterTouching (s : Store) (run : ℤ) (ops : List OpRow) : Option ℤ :=
  let mine := ops.flatMap OpRow.subjectIds
  let later := (s.runOps.select fun o => run < o.runId && o.outcome = .applied).insertionSort
    fun a b => b.runId ≤ a.runId
  (later.find? fun o => o.subjectIds.any (· ∈ mine)).map OpRow.runId

theorem laterRunTouching_eq (s : Store) (run : ℤ) :
    s.laterRunTouching run = s.laterTouching run (s.appliedOps run) := rfl

/-- The transaction of `revert_run`, over the ops read before it began. -/
def revertUndo (h : Host) (s : Store) (now run : ℤ) (actor : String) (ops : List OpRow) :
    Except String (Store × RevertReceipt) :=
  let (s, byRun) := s.insertClassRunWith now .revert none none
  match undoOps h now run byRun ops.reverse s with
  | .error reason => .error reason
  | .ok s =>
    let a := revertEvent h now run byRun ops.length actor
    .ok ((s.append h a).settleRevert run byRun ops.length,
      ⟨run, ops.length, (s.appendedRow h a).seq, byRun⟩)

/-- A revert that nothing interrupts is its reads and its transaction. -/
theorem revertRun_eq (h : Host) (s : Store) (now run : ℤ) (actor : String) :
    s.revertRun h now run actor = match s.revertRefusal run with
      | some reason => .error reason
      | none => s.revertUndo h now run actor (s.appliedOps run) := by
  unfold revertRun revertUndo
  cases s.revertRefusal run with
  | some reason => rfl
  | none =>
    simp only [insertClassRunWith]
    cases undoOps h now run s.runs.nextId (s.appliedOps run).reverse _ with
    | error reason => rfl
    | ok s' => simp only [List.length_reverse]

end Store

/-! ### Calls in flight -/

/-- What a `revert_run` in flight does next. -/
inductive RevertPhase
  | run
  | horizon
  | ops
  | later (ops : List OpRow)
  | undo (ops : List OpRow)

/-- What a `journal_op` in flight does next. -/
inductive JournalPhase
  | forgotten
  | opIx
  | insert (opIx : ℤ)

/-- A call in flight. A `journal` that is owed belongs to a compaction that
has committed. -/
inductive OpenCall
  | revert (now run : ℤ) (actor : String) (phase : RevertPhase)
  | write (st : HistoryStep)
  | apply (now run : ℤ) (actor : String) (p : ProposalRow)
  | journal (run : ℤ) (rec : OpRecord) (owed : Bool) (phase : JournalPhase)

/-- A call before its first statement. -/
def HistoryStep.begin : HistoryStep → OpenCall
  | .revert now run actor => .revert now run actor .run
  | .journal run rec => .journal run rec false .forgotten
  | st => .write st

/-- What one statement leaves: the store, what remains of the call, and the
step of the history that it committed. -/
structure Executed where
  store : Store
  call : Option OpenCall
  done : Option HistoryStep

/-- The call returns and has written nothing. -/
def Executed.returned (s : Store) : Executed := ⟨s, none, none⟩

/-- The next statement of a `revert_run`. -/
def RevertPhase.exec (h : Host) (s : Store) (now run : ℤ) (actor : String) : RevertPhase → Executed
  | .run =>
    match s.runs.get? run with
    | none => .returned s
    | some r =>
      if r.outcome = some .reverted ∨ r.outcome = some .revertedByCanary then .returned s
      else ⟨s, some (.revert now run actor .horizon), none⟩
  | .horizon =>
    if s.revertHorizon.any (run ≤ ·) then .returned s
    else ⟨s, some (.revert now run actor .ops), none⟩
  | .ops =>
    if s.appliedOps run = [] then .returned s
    else ⟨s, some (.revert now run actor (.later (s.appliedOps run))), none⟩
  | .later seen =>
    if (s.laterTouching run seen).isSome then .returned s
    else ⟨s, some (.revert now run actor (.undo seen)), none⟩
  | .undo seen =>
    match s.revertUndo h now run actor seen with
    | .error _ => .returned s
    | .ok (s', _) => ⟨s', none, some (.revert now run actor)⟩

/-- The next statement of a `journal_op`. -/
def JournalPhase.exec (s : Store) (run : ℤ) (rec : OpRecord) (owed : Bool) :
    JournalPhase → Executed
  | .forgotten =>
    if s.runSourceForgotten run then .returned s
    else ⟨s, some (.journal run rec owed .opIx), none⟩
  | .opIx => ⟨s, some (.journal run rec owed (.insert (s.nextOpIx run))), none⟩
  | .insert ix =>
    match s.runOps.insert? { s.opRow run rec with opIx := ix } with
    | none => .returned s
    | some ops =>
      ⟨{ s with runOps := ops }, none, if owed then none else some (.journal run rec)⟩

/-- The next statement of a call. -/
def OpenCall.exec (h : Host) (s : Store) : OpenCall → Executed
  | .revert now run actor phase => phase.exec h s now run actor
  | .journal run rec owed phase => phase.exec s run rec owed
  -- the transaction asks for the status again, and for nothing else of the row
  | .apply now run actor p =>
    match s.proposals.get? p.id with
    | none => .returned s
    | some q =>
      match s.applyProposal h now run false actor { p with status := q.status } with
      | .error _ => .returned s
      | .ok (s', _) => ⟨s', none, some (.write run (.apply now p.id actor))⟩
  | .write (.write run (.apply now id actor)) =>
    match s.proposals.get? id with
    | none => .returned s
    | some p => ⟨s, some (.apply now run actor p), none⟩
  | .write (.write run (.compact now prompt gist gistSource actor)) =>
    match s.compactPromptBody h now prompt gist "cold" gistSource actor true with
    | .error _ => .returned s
    | .ok (s', none) => .returned s'
    | .ok (s', some seq) =>
      ⟨s', some (.journal run (.applied [.prompt prompt] (.compact prompt seq) (some seq)) true
        .forgotten), some (.write run (.compact now prompt gist gistSource actor))⟩
  | .write st => ⟨st.exec h s, none, some st⟩

/-- The store once the call has journaled what it owes. -/
def Store.settle (s : Store) : Option OpenCall → Store
  | some (.journal run rec true _) => s.tryJournal run rec
  | _ => s

/-! ### The world -/

/-- The database, the call each process has in flight, and what was committed
so far, each step with the store it was committed in. -/
structure World (ι : Type*) where
  store : Store
  calls : ι → Option OpenCall
  log : List (Store × HistoryStep)

/-- A process calls `revert_run`, the writer makes a call, or a process
executes the next statement of its call. -/
inductive Turn (ι : Type*)
  | revert (i : ι) (now run : ℤ) (actor : String)
  | write (st : HistoryStep)
  | next (i : ι)

namespace World

variable {ι : Type*}

def start (s : Store) : World ι := ⟨s, fun _ => none, []⟩

variable [DecidableEq ι]

/-- A process that is idle makes a call. -/
def call (w : World ι) (i : ι) (st : HistoryStep) : World ι :=
  match w.calls i with
  | some _ => w
  | none => { w with calls := Function.update w.calls i (some st.begin) }

/-- A process executes the next statement of its call. -/
def next (h : Host) (w : World ι) (i : ι) : World ι :=
  match w.calls i with
  | none => w
  | some c =>
    let e := c.exec h w.store
    ⟨e.store, Function.update w.calls i e.call,
      w.log ++ (e.done.map fun st => (w.store, st)).toList⟩

def turn (h : Host) (writer : ι) (w : World ι) : Turn ι → World ι
  | .revert i now run actor => w.call i (.revert now run actor)
  | .write st => w.call writer st
  | .next i => w.next h i

/-- The world after a schedule. -/
def run (h : Host) (writer : ι) (turns : List (Turn ι)) (w : World ι) : World ι :=
  turns.foldl (turn h writer) w

omit [DecidableEq ι]

/-- The calls that committed, in that order. -/
def history (w : World ι) : List HistoryStep := w.log.map Prod.snd

/-- The run a step of the log reverted. -/
def revertedBy : HistoryStep → Option ℤ
  | .revert _ run _ => some run
  | _ => none

/-- The runs that were reverted. -/
def reverted (w : World ι) : List ℤ := w.history.filterMap revertedBy

/-- The store with the row that the writer's compaction still owes the
journal. -/
def settled (w : World ι) (writer : ι) : Store := w.store.settle (w.calls writer)

end World

/-! ### What an undo does not look at -/

namespace Store

/-- The store with another journal and another queue. -/
def withBooks (s : Store) (ops : Table OpRow.key) (proposals : AutoTable ProposalRow.id) : Store :=
  { s with runOps := ops, proposals := proposals }

section

variable {h : Host} {ops : Table OpRow.key} {proposals : AutoTable ProposalRow.id}

@[simp] theorem links_withBooks (s : Store) : (s.withBooks ops proposals).links = s.links := rfl

theorem moveLinksBack_withBooks : ∀ (moves : List (ℤ × String)) (s : Store),
    moveLinksBack moves (s.withBooks ops proposals) =
      (moveLinksBack moves s).map fun s => s.withBooks ops proposals
  | [], _ => rfl
  | (l, node) :: moves, s => by
    rw [moveLinksBack, moveLinksBack, links_withBooks]
    cases s.links.reindex? l fun r => { r with nodeId := node } with
    | none => rfl
    | some links => exact moveLinksBack_withBooks moves { s with links := links }

theorem movePartBack_withBooks (node part : String) : ∀ (ls : List ℤ) (s : Store),
    movePartBack node part ls (s.withBooks ops proposals) =
      (movePartBack node part ls s).map fun s => s.withBooks ops proposals
  | [], _ => rfl
  | l :: ls, s => by
    rw [movePartBack, movePartBack, links_withBooks]
    split_ifs
    · cases s.links.reindex? l fun r => { r with nodeId := node } with
      | none => rfl
      | some links => exact movePartBack_withBooks node part ls { s with links := links }
    · exact movePartBack_withBooks node part ls s

theorem unsplit_withBooks (byRun : ℤ) (node : String) : ∀ (created : List CreatedPart) (s : Store),
    unsplit byRun node created (s.withBooks ops proposals) =
      (unsplit byRun node created s).map fun s => s.withBooks ops proposals
  | [], _ => rfl
  | c :: created, s => by
    rw [unsplit, unsplit, movePartBack_withBooks]
    cases movePartBack node c.id c.linkIds s with
    | error e => rfl
    | ok s₁ => exact unsplit_withBooks byRun node created (s₁.retireMade byRun c.id)

theorem reparentBack_withBooks : ∀ (cs : List (String × String)) (s : Store),
    reparentBack cs (s.withBooks ops proposals) = (reparentBack cs s).withBooks ops proposals
  | [], _ => rfl
  | (child, parent) :: cs, s => by
    rw [reparentBack, reparentBack]
    exact reparentBack_withBooks cs { s with nodes := s.nodes.update (fun n => n.id = child) fun n =>
      { n with parentId := some parent } }

theorem unmerge_withBooks (s : Store) (run : ℤ) (m : MergeImage) :
    (s.withBooks ops proposals).unmerge run m =
      (s.unmerge run m).map fun s => s.withBooks ops proposals := by
  have hmove := @moveLinksBack_withBooks ops proposals m.movedLinks
    { s with nodes := s.nodes.update (fun n => n.id = m.target) fun n =>
      { n with title := m.oldTitle, parentId := m.oldParent } }
  unfold unmerge
  dsimp only
  change (moveLinksBack m.movedLinks (({ s with nodes := s.nodes.update (fun n => n.id = m.target) fun n =>
      { n with title := m.oldTitle, parentId := m.oldParent } } : Store).withBooks ops proposals) >>= _) = _
  rw [hmove]
  cases moveLinksBack m.movedLinks _ with
  | error e => rfl
  | ok s₁ =>
    change Except.ok ((reparentBack m.children (s₁.withBooks ops proposals)).unretire run _) = _
    rw [reparentBack_withBooks]
    rfl

theorem restorePromptBody_withBooks (s : Store) (prompt : ℤ) :
    (s.withBooks ops proposals).restorePromptBody h prompt =
      (s.restorePromptBody h prompt).map fun r => (r.1.withBooks ops proposals, r.2) := by
  have hforgotten : (s.withBooks ops proposals).forgottenSources = s.forgottenSources := rfl
  have harchive : (s.withBooks ops proposals).archive = s.archive := rfl
  have hprompts : (s.withBooks ops proposals).prompts = s.prompts := rfl
  unfold restorePromptBody
  rw [hforgotten, harchive]
  by_cases hf : (s.forgottenSources.get? prompt).isSome = true
  · rw [if_pos hf, if_pos hf]
    rfl
  rw [if_neg hf, if_neg hf]
  cases s.archive.get? prompt with
  | none => rfl
  | some a =>
    dsimp only
    by_cases halgo : a.algo ≠ archiveAlgo
    · rw [if_pos halgo, if_pos halgo]
      rfl
    rw [if_neg halgo, if_neg halgo]
    cases h.inflate a.blob with
    | none => rfl
    | some body =>
      dsimp only
      rw [hprompts]
      split_ifs <;> rfl

/-- No inverse reads the journal or the queue, and none writes them. -/
theorem invertOp_withBooks (s : Store) (now run byRun : ℤ) (pre : Option Image) :
    (s.withBooks ops proposals).invertOp h now run byRun pre =
      (s.invertOp h now run byRun pre).map fun s => s.withBooks ops proposals := by
  have hmapError : ∀ x : Except DbError Store,
      (x.map fun s => s.withBooks ops proposals).mapError DbError.text =
        (x.mapError DbError.text).map fun s => s.withBooks ops proposals := by
    rintro (e | s) <;> rfl
  cases pre with
  | none => rfl
  | some image =>
    cases image with
    | claim id =>
      unfold invertOp retireClaim
      dsimp only
      change Except.ok (if s.claimRetires id now = true then _ else _) = _
      split_ifs <;> rfl
    | file link node kind target revived => cases revived <;> rfl
    | create node parent title => rfl
    | promote node oldParent newParent => rfl
    | split node parent created =>
      change ((unsplit byRun node created _).mapError _) = _
      rw [unsplit_withBooks, hmapError]
      rfl
    | merge m =>
      change ((unmerge _ run m).mapError _) = _
      rw [unmerge_withBooks, hmapError]
      rfl
    | collapse node digest set citationLinks => rfl
    | supersede oldSeq newSeq eventSeq => rfl
    | compact prompt seq =>
      unfold invertOp
      dsimp only
      rw [restorePromptBody_withBooks]
      rcases s.restorePromptBody h prompt with e | ⟨s₁, _ | _⟩ <;> rfl
    | observe id node seq => rfl

/-- An undo leaves the queue. -/
theorem proposals_invertOp {s s' : Store} {now run byRun : ℤ} {pre : Option Image}
    (hs : s.invertOp h now run byRun pre = .ok s') : s'.proposals = s.proposals := by
  have heq := @invertOp_withBooks h s.runOps s.proposals s now run byRun pre
  change s.invertOp h now run byRun pre = _ at heq
  rw [hs] at heq
  have hself : s' = s'.withBooks s.runOps s.proposals := Except.ok.inj heq
  rw [hself]
  rfl

theorem proposals_undoOps {now run byRun : ℤ} : ∀ {l : List OpRow} {s s' : Store},
    undoOps h now run byRun l s = .ok s' → s'.proposals = s.proposals
  | [], s, s', hs => by
    cases hs
    rfl
  | o :: l, s, s', hs => by
    rw [undoOps] at hs
    split at hs
    · cases hs
    · rename_i s₁ hinv
      have hqueue := proposals_invertOp hinv
      exact (proposals_undoOps hs).trans hqueue

/-- Ops are undone the same with one more row in the journal, if it is not
theirs. -/
theorem undoOps_owed {now run byRun : ℤ} {r : OpRow} : ∀ {l : List OpRow} {s s' : Store}
    {ops : Table OpRow.key}, undoOps h now run byRun l s = .ok s' → r.key ∉ l.map OpRow.key →
    ops.rows = s.runOps.rows ++ [r] →
    ∃ ops', undoOps h now run byRun l (s.withBooks ops s.proposals) =
        .ok (s'.withBooks ops' s'.proposals) ∧ ops'.rows = s'.runOps.rows ++ [r]
  | [], s, s', ops, hs, _, hops => by
    cases hs
    exact ⟨ops, rfl, hops⟩
  | o :: l, s, s', ops, hs, hkey, hops => by
    rw [List.map_cons, List.mem_cons, not_or] at hkey
    rw [undoOps] at hs
    split at hs
    · cases hs
    rename_i s₁ hinv
    have hget : ops.get? o.key = s.runOps.get? o.key := by
      rw [Table.get?_of_rows_append hops, if_neg hkey.1, Option.or_none]
    have hinv' : (s.withBooks ops s.proposals).invertOp h now run byRun
        ((ops.get? o.key).bind OpRow.preImage) = .ok (s₁.withBooks ops s.proposals) := by
      rw [invertOp_withBooks, hget, hinv]
      rfl
    have hbooks := sameBooks_invertOp hinv
    have hrows : ((s₁.withBooks ops s.proposals).markReverted o byRun).runOps.rows =
        (s₁.markReverted o byRun).runOps.rows ++ [r] := by
      change ops.rows.map _ = s₁.runOps.rows.map _ ++ [r]
      rw [hops, hbooks.runOps, List.map_append, List.map_singleton, if_neg (by simpa using hkey.1)]
    have hqueue : s.proposals = s₁.proposals := (proposals_invertOp hinv).symm
    obtain ⟨ops', hundo, hops'⟩ := undoOps_owed hs hkey.2 hrows
    change undoOps h now run byRun l
      ((s₁.withBooks ops s₁.proposals).markReverted o byRun) = _ at hundo
    refine ⟨ops', ?_, hops'⟩
    rw [undoOps]
    change (match (s.withBooks ops s.proposals).invertOp h now run byRun
        ((ops.get? o.key).bind OpRow.preImage) with
      | .error _ => _
      | .ok s => _) = _
    rw [hinv', hqueue]
    exact hundo

/-- When the transaction of a revert goes through, and with what. -/
theorem revertUndo_eq_ok {s s' : Store} {now run : ℤ} {actor : String} {seen : List OpRow}
    {receipt : RevertReceipt} : s.revertUndo h now run actor seen = .ok (s', receipt) ↔
      ∃ t, undoOps h now run s.runs.nextId seen.reverse
          (s.insertClassRunWith now .revert none none).1 = .ok t ∧
        s' = (t.append h (revertEvent h now run s.runs.nextId seen.length actor)).settleRevert run
          s.runs.nextId seen.length ∧
        receipt = ⟨run, seen.length, (t.appendedRow h (revertEvent h now run s.runs.nextId
          seen.length actor)).seq, s.runs.nextId⟩ := by
  unfold revertUndo
  simp only [insertClassRunWith]
  split
  · rename_i reason hundo
    simp [hundo]
  · rename_i t hundo
    simp only [hundo, Except.ok.injEq, Prod.mk.injEq, exists_eq_left']
    exact and_congr eq_comm eq_comm

/-- The same for the whole transaction. -/
theorem revertUndo_owed {s s' : Store} {now run : ℤ} {actor : String} {seen : List OpRow}
    {receipt : RevertReceipt} {r : OpRow} {ops : Table OpRow.key}
    (hok : s.revertUndo h now run actor seen = .ok (s', receipt))
    (hkey : r.key ∉ seen.map OpRow.key) (hops : ops.rows = s.runOps.rows ++ [r]) :
    ∃ ops', ({ s with runOps := ops } : Store).revertUndo h now run actor seen =
        .ok ({ s' with runOps := ops' }, receipt) ∧ ops'.rows = s'.runOps.rows ++ [r] := by
  obtain ⟨t, hundo, rfl, rfl⟩ := revertUndo_eq_ok.mp hok
  have hkey' : r.key ∉ seen.reverse.map OpRow.key := by simpa using hkey
  obtain ⟨ops', hundo', hops'⟩ := undoOps_owed hundo hkey' hops
  exact ⟨ops', revertUndo_eq_ok.mpr ⟨_, hundo', rfl, rfl⟩, hops'⟩

end

end Store

end PolisMemory
