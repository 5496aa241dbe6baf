/-
# Changes under a run, statement by statement

`crates/polis-store/src/compaction.rs`, `observations.rs` and `runs.rs`: the
two calls that change the store under a gardener run and journal what they
did. `compact_prompt_body_in_run` commits the swap with a `COMMIT` of its own
and journals it afterwards, in autocommit; `insert_class_observation_in_run`
does both in one transaction, and nothing for a run whose source was
forgotten.

The statements of a forget, each of which ends the call where it fails, are
one write here; so is the marker file's.

Key definitions: `journalOpLocked`, `compactPromptBodyInRun`,
`insertClassObservationInRun`, `InRunCall`, `ChangeJournaled`.
-/
import PolisMemory.Appends
import PolisMemory.Catalog
import PolisMemory.Compaction

namespace PolisMemory

open Sqlite Sqlite.Prog Tables Attempt

variable (h : Host)

/-- The ledger, as a part of the store. -/
def storeLedger : Part Store LedgerTable where
  get s := s.ledger
  set t s := { s with ledger := t }
  get_set _ _ := rfl
  set_get _ := rfl
  set_set _ _ _ := rfl

/-- The `INSERT` of an entry. -/
def Store.insertOp (row : OpRow) (s : Store) : Option Store :=
  (s.runOps.insert? row).map fun ops => { s with runOps := ops }

/-- The entry, at the run's next index. -/
def journalNext (run : ℤ) (rec : Store.OpRecord) : Attempt Store ℤ := do
  let s ← read
  exec (Store.insertOp (s.opRow run rec))
  return s.nextOpIx run

/-- `journal_op_locked`: 0 for a run whose source was forgotten. -/
def journalOpLocked (run : ℤ) (rec : Store.OpRecord) : Attempt Store ℤ := do
  let s ← read
  if s.runSourceForgotten run then return 0
  journalNext run rec

/-! ### Compaction -/

/-- The archive's statement: a `cold` body is written, best-effort, an earlier
one deleted for any other reason. -/
def archiveBody (now : ℤ) (p : PromptRow) (reason : String) : Attempt Store PUnit :=
  let statement := write fun s => { s with archive := s.archiveFor h now p reason true }
  if reason = "cold" then bestEffort statement else statement

/-- What `forget` does before the body goes. -/
def forgetBody (now : ℤ) (p : PromptRow) (reason : String) : Attempt Store PUnit :=
  if reason = "forget" then exec fun s => (s.forgetPrompt p.id p.bodyHash now).toOption
  else pure ⟨⟩

/-- The `UPDATE` of the prompt. -/
def Store.swapPrompt (s : Store) (now : ℤ) (p : PromptRow) (gist reason gistSource : String) : Store :=
  { s with
    prompts := s.prompts.update (fun q => q.id = p.id && (q.gist = none || reason = "forget"))
      (PromptRow.compacted now gist reason gistSource)
      (PromptRow.id_compacted now gist reason gistSource) }

/-- The swap, and the event that proves it. -/
def swapRow (now : ℤ) (p : PromptRow) (gist reason gistSource actor : String) :
    Attempt Store (Option ℤ) := do
  write fun s => s.swapPrompt now p gist reason gistSource
  let ev ← onPart storeLedger (appendEvent h.sha256 (Store.compactionEvent h now p gist reason actor))
  return some ev.seq

/-- What comes after the archive. -/
def swapBody (now : ℤ) (p : PromptRow) (gist reason gistSource actor : String) :
    Attempt Store (Option ℤ) := do
  forgetBody now p reason
  swapRow h now p gist reason gistSource actor

/-- Compact the row that was found. -/
def compactRow (now : ℤ) (gist reason gistSource actor : String) :
    Option PromptRow → Attempt Store (Option ℤ)
  | none => return none
  | some p => do
    archiveBody h now p reason
    swapBody h now p gist reason gistSource actor

/-- `compact_prompt_body_in_transaction`. -/
def compactPromptBodyInTransaction (now prompt : ℤ) (gist reason gistSource actor : String) :
    Attempt Store (Option ℤ) := do
  let s ← read
  compactRow h now gist reason gistSource actor (s.warmPrompt? prompt reason)

/-- `compact_prompt_body_locked`. -/
def compactPromptBodyLocked (now prompt : ℤ) (gist reason gistSource actor : String) :
    Attempt Store (Option ℤ) :=
  let body := (compactPromptBodyInTransaction h now prompt gist reason gistSource actor).run
  ExceptT.mk (autocommit fun auto => if auto then batch body else body)

/-- The entry of a compaction. -/
def compactionRecord (prompt seq : ℤ) : Store.OpRecord :=
  .applied [.prompt prompt] (.compact prompt seq) (some seq)

/-- Journal a compaction, if there was one. -/
def journalCompaction (run prompt : ℤ) : Option ℤ → Attempt Store (Option ℤ)
  | none => return none
  | some seq => do
    let _ ← journalOpLocked run (compactionRecord prompt seq)
    return some seq

/-- `compact_prompt_body_in_run`. -/
def compactPromptBodyInRun (now run prompt : ℤ) (gist reason gistSource actor : String) :
    Attempt Store (Option ℤ) := do
  let seq ← compactPromptBodyLocked h now prompt gist reason gistSource actor
  journalCompaction run prompt seq

/-! ### Observations -/

/-- Whether one of the cited sources was forgotten. -/
def anyForgotten : List ℤ → Attempt Store Bool
  | [] => return false
  | seq :: seqs => do
    let s ← read
    if s.sourceForgotten seq then return true
    anyForgotten seqs

/-- The row of an observation and its event. -/
def insertObservationRow (now : ℤ) (node summary : String) (citeSeqs : List ℤ) (actor : String)
    (id : ℤ) : Attempt Store (Option ℤ) := do
  write fun s => { s with observations := s.observations.insert fun id =>
    ⟨id, node, summary, citeSeqs, none, false, now, none, none, none⟩ }
  let ev ← onPart storeLedger
    (appendEvent h.sha256 (Store.observationEvent h now node summary citeSeqs actor))
  write fun s => { s with observations := s.observations.update (fun o => o.id = id) fun o =>
    { o with createdSeq := some ev.seq } }
  return some id

/-- The observation, unless its node is not there or has it. -/
def insertObservationOn (now : ℤ) (node summary : String) (citeSeqs : List ℤ) (actor : String) :
    Attempt Store (Option ℤ) := do
  let s ← read
  if !s.nodeExists node then return none
  let s ← read
  if !(s.observations.select fun o => o.nodeId = node && o.summary = summary).isEmpty then
    return none
  insertObservationRow h now node summary citeSeqs actor s.observations.nextId

/-- `insert_class_observation_locked`. -/
def insertClassObservationLocked (now : ℤ) (node summary : String) (citeSeqs : List ℤ)
    (actor : String) : Attempt Store (Option ℤ) := do
  if citeSeqs = [] ∨ trim summary = "" then return none
  if ← anyForgotten citeSeqs then return none
  insertObservationOn h now node summary citeSeqs actor

/-- Journal an observation, if there is one. -/
def journalObservation (run : ℤ) (node : String) : Option ℤ → Attempt Store (Ending (Option ℤ))
  | none => return .commit none
  | some id => do
    let s ← read
    let seq := (s.observations.get? id).bind ObservationRow.createdSeq
    let _ ← journalOpLocked run
      (.applied [.obs id, .node node] (.observe id node (seq.getD 0)) seq)
    return .commit (some id)

/-- The transaction of an observation under a run. -/
def observeInRun (now run : ℤ) (node summary : String) (citeSeqs : List ℤ) (actor : String) :
    Attempt Store (Ending (Option ℤ)) := do
  let s ← read
  if s.runSourceForgotten run then return .drop none
  let row ← insertClassObservationLocked h now node summary citeSeqs actor
  journalObservation run node row

/-- `insert_class_observation_in_run`. -/
def insertClassObservationInRun (now run : ℤ) (node summary : String) (citeSeqs : List ℤ)
    (actor : String) : Prog Store (Except Error (Option ℤ)) :=
  transaction (observeInRun h now run node summary citeSeqs actor).run

/-! ### Calls -/

/-- What a run changes. -/
inductive RunChange where
  | compact (prompt : ℤ) (gist reason gistSource actor : String)
  | observe (node summary : String) (citeSeqs : List ℤ) (actor : String)

/-- A call, with what befalls its statements. -/
structure InRunCall where
  run : ℤ
  now : ℤ
  change : RunChange
  faults : ℕ → Fault

/-- The call's code. -/
def InRunCall.prog (call : InRunCall) : Prog Store (Except Error (Option ℤ)) :=
  match call.change with
  | .compact prompt gist reason gistSource actor =>
    (compactPromptBodyInRun h call.now call.run prompt gist reason gistSource actor).run
  | .observe node summary citeSeqs actor =>
    insertClassObservationInRun h call.now call.run node summary citeSeqs actor

/-- What is committed after a call on a connection in autocommit. -/
def InRunCall.leaves (call : InRunCall) (s : Store) (v : ℕ) : Store :=
  ((call.prog h).run (Turn.alone call.faults) 0 (Conn.idle s v)).2.1.committed

/-- The journal has an entry it had not: an applied op with the image that
undoes it. -/
def NewEntry (s s' : Store) (run : ℤ) (subjectIds : List Subject) (image : Image) (seq : ℤ) : Prop :=
  ∃ o, s.runOps.get? o.key = none ∧ s'.runOps.get? o.key = some o ∧ o.runId = run ∧
    o.op = image.op ∧ o.subjectIds = subjectIds ∧ o.outcome = .applied ∧ o.preImage = some image ∧
    o.ledgerSeq = some seq ∧ o.revertedByRun = none

/-- The ledger has an event it had not. -/
def NewEvent (s s' : Store) (kind : String) (seq : ℤ) : Prop :=
  s.event? seq = none ∧ ∃ e, s'.event? seq = some e ∧ e.kind = kind

/-- The change is in the store, and its inverse in the run's journal. -/
def ChangeJournaled (s s' : Store) (run : ℤ) : RunChange → Prop
  | .compact prompt gist _ _ _ => ∃ p seq, s'.prompts.get? prompt = some p ∧ p.gist = some gist ∧
      p.body = "" ∧ NewEvent s s' "compaction" seq ∧
      NewEntry s s' run [.prompt prompt] (.compact prompt seq) seq
  | .observe node summary citeSeqs _ => ∃ o seq, s.observations.get? o.id = none ∧
      s'.observations.get? o.id = some o ∧ o.nodeId = node ∧ o.summary = summary ∧
      o.citeSeqs = citeSeqs ∧ o.createdSeq = some seq ∧ NewEvent s s' "observation" seq ∧
      NewEntry s s' run [.obs o.id, .node node] (.observe o.id node seq) seq

/-- The change and its journal entry are both there, or the store is as it
was. -/
def InRunCall.Together (call : InRunCall) (s s' : Store) : Prop :=
  s' = s ∨ ChangeJournaled s s' call.run call.change

end PolisMemory
