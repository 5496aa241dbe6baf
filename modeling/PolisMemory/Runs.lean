/-
# Undoing a run

`crates/polis-store/src/runs.rs`, the reading half: `revert_run` walks a run's
applied ops newest first in one transaction and undoes each from its image;
it refuses, as data, what it cannot undo. `vacuum_retired` deletes what was
retired by runs past the horizon and drops their images.

Key definitions: `Store.invertOp`, `Store.revertRun`, `Store.vacuumRetired`.
-/
import Mathlib.Data.List.Sort
import PolisMemory.Catalog
import PolisMemory.Compaction

namespace PolisMemory

open Tables

/-- An op's name in the journal. -/
def OpKind.name : OpKind → String
  | .claim => "claim"
  | .file => "file"
  | .create => "create"
  | .promote => "promote"
  | .split => "split"
  | .merge => "merge"
  | .collapse => "collapse"
  | .supersede => "supersede"
  | .compact => "compact"
  | .observe => "observe"
  | .unknown name => name

namespace Store

/-! ### The inverse of one op -/

/-- Clear the marks one run made on the given rows. -/
def unretire (s : Store) (run : ℤ) (set : RetiredSet) : Store :=
  { s with
    nodes := s.nodes.update (fun n => n.id ∈ set.nodes && n.retiredByRun = some run) fun n =>
      { n with retiredByRun := none, retiredInto := none }
    links := s.links.update (fun l => l.id ∈ set.links && l.retiredByRun = some run)
      (fun l => { l with retiredByRun := none }) LinkRow.id_unmarked LinkRow.dedup_unmarked
    observations := s.observations.update
      (fun o => o.id ∈ set.observations && o.retiredByRun = some run) fun o =>
      { o with retiredByRun := none } }

/-- Retire a node that the op made, if it is live. -/
def retireMade (s : Store) (byRun : ℤ) (id : String) : Store :=
  { s with nodes := s.nodes.update (fun n => n.id = id && n.live) fun n =>
      { n with retiredByRun := some byRun } }

/-- Put links back on the nodes they came from, one after the other. -/
def moveLinksBack : List (ℤ × String) → Store → Except DbError Store
  | [], s => .ok s
  | (l, node) :: moves, s =>
    match s.links.reindex? l (fun r => { r with nodeId := node }) (LinkRow.id_moved node) with
    | none => .error .constraint
    | some links => moveLinksBack moves { s with links := links }

/-- Put a part's links back on the node they came from, those that are still
on the part. -/
def movePartBack (node part : String) : List ℤ → Store → Except DbError Store
  | [], s => .ok s
  | l :: ls, s =>
    if (s.links.get? l).any fun r => r.nodeId = part then
      match s.links.reindex? l (fun r => { r with nodeId := node }) (LinkRow.id_moved node) with
      | none => .error .constraint
      | some links => movePartBack node part ls { s with links := links }
    else movePartBack node part ls s

/-- Undo the parts of a split, in the order they were made. -/
def unsplit (byRun : ℤ) (node : String) : List CreatedPart → Store → Except DbError Store
  | [], s => .ok s
  | c :: created, s => do
    let s ← movePartBack node c.id c.linkIds s
    unsplit byRun node created (s.retireMade byRun c.id)

/-- Give the children back their parents, one after the other. -/
def reparentBack : List (String × String) → Store → Store
  | [], s => s
  | (child, parent) :: cs, s =>
    reparentBack cs { s with nodes := s.nodes.update (fun n => n.id = child) fun n =>
      { n with parentId := some parent } }

/-- Undo a merge. -/
def unmerge (s : Store) (run : ℤ) (m : MergeImage) : Except DbError Store := do
  let s := { s with nodes := s.nodes.update (fun n => n.id = m.target) fun n =>
    { n with title := m.oldTitle, parentId := m.oldParent } }
  let s ← moveLinksBack m.movedLinks s
  let s := reparentBack m.children s
  return s.unretire run ⟨m.absorbed.map fun a => a.1, m.leftoverLinks, m.observations⟩

/-- The inverse of one op, from its image; a text aborts the whole revert. -/
def invertOp (h : Host) (s : Store) (now run byRun : ℤ) (pre : Option Image) : Except String Store :=
  match pre with
  | none => .error "no pre-image (vacuumed or never journaled)"
  | some (.claim id) => .ok (s.retireClaim h id now "gardener_revert")
  | some (.file link _ _ _ revivedFromRun) =>
    match revivedFromRun with
    | some r => .ok { s with
        links := s.links.update (fun l => l.id = link) (fun l => { l with retiredByRun := some r })
          (LinkRow.id_marked r) (LinkRow.dedup_marked r) }
    | none => .ok { s with links := s.links.delete fun l => l.id = link }
  | some (.create node _ _) => .ok (s.retireMade byRun node)
  | some (.promote node oldParent _) =>
    .ok { s with nodes := s.nodes.update (fun n => n.id = node) fun n =>
      { n with parentId := oldParent } }
  | some (.split node _ created) => (unsplit byRun node created s).mapError DbError.text
  | some (.merge m) => (s.unmerge run m).mapError DbError.text
  | some (.collapse _ digest set citationLinks) =>
    let s := s.retireMade byRun digest
    let s := { s with
      links := s.links.update (fun l => l.id ∈ citationLinks && l.live)
        (fun l => { l with retiredByRun := some byRun }) (LinkRow.id_marked byRun)
        (LinkRow.dedup_marked byRun) }
    .ok (s.unretire run set)
  | some (.supersede oldSeq _ eventSeq) =>
    .ok { s with supersessions := s.supersessions.delete fun r =>
      r.oldSeq = oldSeq && r.eventSeq = eventSeq }
  | some (.compact prompt _) =>
    match s.restorePromptBody h prompt with
    | .error e => .error e.text
    | .ok (s, true) => .ok s
    | .ok (_, false) => .error (s!"prompt {prompt} has no archived body to restore " ++
        "(forgotten, or compacted before the archive existed)")
  | some (.observe id _ _) =>
    .ok { s with
      observations := s.observations.update (fun o => o.id = id && o.live)
        (fun o => { o with retiredByRun := some byRun }) (ObservationRow.id_marked byRun) }

/-! ### The whole run -/

/-- A run's journal, oldest op first. -/
def listRunOps (s : Store) (run : ℤ) : List OpRow :=
  (s.runOps.select fun o => o.runId = run).insertionSort fun a b => a.opIx ≤ b.opIx

/-- The ops of a run that count. -/
def appliedOps (s : Store) (run : ℤ) : List OpRow :=
  (s.listRunOps run).filter fun o => o.outcome = .applied

/-- The newest later run whose applied ops share a subject. -/
def laterRunTouching (s : Store) (run : ℤ) : Option ℤ :=
  let mine := (s.appliedOps run).flatMap OpRow.subjectIds
  let later := (s.runOps.select fun o => run < o.runId && o.outcome = .applied).insertionSort
    fun a b => b.runId ≤ a.runId
  (later.find? fun o => o.subjectIds.any (· ∈ mine)).map OpRow.runId

/-- What speaks against reverting a run, before anything is written. -/
def revertRefusal (s : Store) (run : ℤ) : Option String :=
  match s.runs.get? run with
  | none => some s!"no run #{run}"
  | some r =>
    if r.outcome = some .reverted ∨ r.outcome = some .revertedByCanary then
      some s!"run #{run} was already reverted"
    else if s.revertHorizon.any (run ≤ ·) then
      some (s!"run #{run} is past the revert horizon (retired rows vacuumed through run " ++
        s!"#{s.revertHorizon.getD 0})")
    else if s.appliedOps run = [] then some s!"run #{run} has nothing to revert"
    else (s.laterRunTouching run).map fun k =>
      s!"revert run #{k} first — it touched what run #{run} touched"

/-- Mark an op as undone. -/
def markReverted (s : Store) (o : OpRow) (byRun : ℤ) : Store :=
  { s with runOps := s.runOps.update (fun r => r.key = o.key) fun r =>
      { r with outcome := .reverted, revertedByRun := some byRun } }

/-- Undo the ops in the order given, each from the image the journal has. -/
def undoOps (h : Host) (now run byRun : ℤ) : List OpRow → Store → Except String Store
  | [], s => .ok s
  | o :: ops, s =>
    match s.invertOp h now run byRun ((s.runOps.get? o.key).bind OpRow.preImage) with
    | .error reason =>
      .error s!"op {o.opIx} ({o.op.name}) of run #{run}: {reason}"
    | .ok s => undoOps h now run byRun ops (s.markReverted o byRun)

/-- What `revert_run` did. -/
structure RevertReceipt where
  runId : ℤ
  revertedOps : ℕ
  eventSeq : ℤ
  revertRunId : ℤ
  deriving DecidableEq, Repr

/-- The event of a revert. -/
def revertEvent (h : Host) (now run byRun : ℤ) (ops : ℕ) (actor : String) : LedgerAppend :=
  ⟨"gardener_revert", actor, now, none, none, none, some "class_run", some (toString run),
    h.decisionPayloadHash [("run", toString run), ("ops_reverted", toString ops),
      ("by_run", toString byRun)]⟩

/-- The two run rows after a revert: the run is reverted, the revert done. -/
def settleRevert (s : Store) (run byRun : ℤ) (ops : ℕ) : Store :=
  { s with runs := (s.runs.update (fun r => r.id = run) fun r =>
        { r with outcome := some .reverted }).update (fun r => r.id = byRun) fun r =>
      { r with
        status := .done
        outcome := some .done
        ops := some ops
        summary := some s!"reverted run #{run}: {ops} op(s)" } }

/-- Undo one run; a text says why not, and then nothing has changed. -/
def revertRun (h : Host) (s : Store) (now run : ℤ) (actor : String) :
    Except String (Store × RevertReceipt) :=
  match s.revertRefusal run with
  | some reason => .error reason
  | none =>
    let ops := (s.appliedOps run).reverse
    let (s, byRun) := s.insertClassRunWith now .revert none none
    match undoOps h now run byRun ops s with
    | .error reason => .error reason
    | .ok s =>
      let a := revertEvent h now run byRun ops.length actor
      .ok ((s.append h a).settleRevert run byRun ops.length,
        ⟨run, ops.length, (s.appendedRow h a).seq, byRun⟩)

/-! ### The vacuum -/

/-- How many runs back a revert stays possible. -/
def revertHorizonRuns : ℤ := 50

/-- `COALESCE(MAX(id), 0)` over the runs. -/
def maxRun (s : Store) : ℤ := (s.runs.rows.map RunRow.id).foldl max 0

/-- Delete the rows retired by runs past the horizon and drop the images of
their journal. -/
def vacuumRetired (s : Store) (olderThanRuns : ℤ) : Store :=
  let horizon := s.maxRun - max olderThanRuns 0
  if horizon ≤ 0 ∨ horizon ≤ s.revertHorizon.getD 0 then s
  else
    { s with
      links := s.links.delete fun l => l.retiredByRun.any (· ≤ horizon)
      observations := s.observations.delete fun o => o.retiredByRun.any (· ≤ horizon)
      nodes := s.nodes.delete fun n => n.retiredByRun.any (· ≤ horizon)
      runOps := s.runOps.update (fun o => o.runId ≤ horizon) fun o =>
        { o with preImage := none, postImage := none }
      revertHorizon := some horizon }

end Store

end PolisMemory
