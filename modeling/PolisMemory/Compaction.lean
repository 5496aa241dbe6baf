/-
# Compacting, restoring and forgetting a prompt

`crates/polis-store/src/compaction.rs`: `compact_prompt_body` swaps a prompt's
body for a gist. With reason `cold` the deflated original is archived first,
and `restore_prompt_body` puts it back after checking it against its hash.
With reason `forget` nothing is archived, an earlier archive is deleted, and
everything derived from the prompt that copies its words is released too; any
other reason archives nothing and deletes the archive.

The archive's write is best-effort in the code: a failure is logged and the
body released all the same. Whether it goes through is the flag `archived`.
The marker file beside the database and the centroid cache are not modelled.

Key definitions: `Store.compactPromptBody`, `Store.compactPromptBodyInRun`,
`Store.forgetPrompt`, `Store.forgetDerivedCopies`, `Store.restorePromptBody`.
-/
import PolisMemory.Journal

namespace PolisMemory

open Tables

/-- The codec `prompt_archive.blob` is written with. -/
def archiveAlgo : String := "deflate"

/-- What a derived text is replaced by. -/
def forgottenSource : String := "[forgotten source]"

/-- The integers of a payload, as `json_tree` finds them. -/
def Extra.ints : Extra → List ℤ
  | .ids _ => []
  | .parts into => into.flatMap SplitPart.linkIds
  | .seqs citeSeqs => citeSeqs
  | .pair oldSeq newSeq => [oldSeq, newSeq]

/-- The texts of a payload. -/
def Extra.texts : Extra → List String
  | .ids nodeIds => nodeIds
  | .parts into => into.map SplitPart.title
  | .seqs _ => []
  | .pair _ _ => []

/-- Whether a run's window holds one of the seqs; an open window holds none. -/
def RunRow.windowHolds (r : RunRow) (seqs : List ℤ) : Bool :=
  match r.seqFrom, r.seqTo with
  | some seqFrom, some seqTo => seqs.any fun seq => seqFrom ≤ seq && seq ≤ seqTo
  | _, _ => false

/-- An observation whose words were released. -/
abbrev ObservationRow.redact (ts : ℤ) (o : ObservationRow) : ObservationRow :=
  { o with
    summary := forgottenSource
    dismissed := true
    retiredAt := some ts
    retiredReason := some "forgotten source" }

/-- The prompt's row after the swap. -/
abbrev PromptRow.compacted (now : ℤ) (gist reason gistSource : String) (p : PromptRow) : PromptRow :=
  { p with
    gist := some gist
    body := ""
    compactedAt := some now
    originalBytes := some (p.originalBytes.getD p.body.utf8ByteSize)
    gistSource := some gistSource
    userText := if reason = "forget" then none else p.userText }

theorem PromptRow.id_compacted (now : ℤ) (gist reason gistSource : String) (p : PromptRow) :
    (p.compacted now gist reason gistSource).id = p.id := rfl

/-- The prompt's row after its words are put back. -/
abbrev PromptRow.restored (body : String) (p : PromptRow) : PromptRow :=
  { p with
    body := body
    gist := none
    compactedAt := none
    originalBytes := none
    gistSource := none }

theorem PromptRow.id_restored (body : String) (p : PromptRow) : (p.restored body).id = p.id := rfl

namespace Store

/-! ### Claims -/

/-- The claims that cite a prompt's own event. -/
def claimsCiting (s : Store) (prompt : ℤ) : List String :=
  let seqs := (s.ledger.rows.filter fun e => e.promptId = some prompt && e.kind = "prompt").map
    LedgerEventRow.seq
  (s.claimSources.filter fun c => c.seq ∈ seqs).map ClaimSourceRow.claimId

/-- Remove all copied assertion text of the claims that cite a prompt. -/
def invalidatePromptClaims (s : Store) (prompt : ℤ) : Store :=
  { s with
    claimRecords := s.claimRecords.update (fun c => c.id ∈ s.claimsCiting prompt) fun c =>
      { c with assertionJson := none, invalidated := true }
    claims := s.claims.delete fun c => c.id ∈ s.claimsCiting prompt }

/-- Whether `retire_claim_locked` changes a record. -/
def claimRetires (s : Store) (id : String) (recordedAt : ℤ) : Bool :=
  (s.claimRecords.get? id).any fun c => c.retiredAt = none && c.recordedAt ≤ recordedAt

/-- Retire a claim; its retirement is an event of its own. -/
def retireClaim (h : Host) (s : Store) (id : String) (recordedAt : ℤ) (author : String) : Store :=
  let s' := { s with
    claimRecords := s.claimRecords.update
      (fun c => c.id = id && c.retiredAt = none && c.recordedAt ≤ recordedAt)
      fun c => { c with retiredAt := some recordedAt }
    claims := s.claims.update
      (fun c => c.id = id && c.retiredAt = none && c.recordedAt ≤ recordedAt)
      fun c => { c with retiredAt := some recordedAt } }
  if s.claimRetires id recordedAt then
    s'.append h ⟨"claim_retired", author, recordedAt, none, none, none, some "claim", some id,
      h.bodyHash id⟩
  else s'

/-! ### Releasing derived copies -/

/-- The link kinds whose target is a ledger seq. -/
def seqKinds : List String :=
  ["prompt", "decision", "ledger", "resolution", "approval", "review_verdict", "note", "user_note",
    "revision", "browse_event"]

/-- The link kinds that can point at a prompt or a decision read from one. -/
def promptKinds : List String :=
  ["prompt", "decision", "ledger", "resolution", "approval", "review_verdict"]

/-- The links that point at one of the seqs. -/
def linksInto (s : Store) (kinds : List String) (seqs : List ℤ) : List LinkRow :=
  s.links.select fun l => l.targetKind ∈ kinds && l.targetId ∈ seqs.map toString

/-- The observations that cite one of the seqs. -/
def observationsCiting (s : Store) (seqs : List ℤ) : List ObservationRow :=
  s.observations.select fun o => o.citeSeqs.any (· ∈ seqs)

/-- The nodes such links and observations are on. -/
def nodesOver (s : Store) (seqs : List ℤ) : List String :=
  (s.linksInto seqKinds seqs).map LinkRow.nodeId ++
    (s.observationsCiting seqs).map ObservationRow.nodeId

/-- What a journal row may name that is derived from the source. -/
def subjectsOver (s : Store) (origin : Subject) (seqs : List ℤ) : List Subject :=
  seqs.map .seq ++ [origin] ++ (s.nodesOver seqs).map .node ++
    (s.linksInto seqKinds seqs).map (fun l => .link l.id) ++
    (s.observationsCiting seqs).map fun o => .obs o.id

/-- The runs that read one of the seqs or touched what is derived from it. -/
def runsOver (s : Store) (origin : Subject) (seqs : List ℤ) : List ℤ :=
  (s.runs.select fun r => r.windowHolds seqs).map RunRow.id ++
    (s.runOps.select fun o => o.subjectIds.any (· ∈ s.subjectsOver origin seqs)).map OpRow.runId

/-- The queued proposals that may repeat the source. -/
def proposalsOver (s : Store) (origin : Subject) (seqs : List ℤ) : List ProposalRow :=
  s.proposals.select fun p =>
    p.runId.any (· ∈ s.runsOver origin seqs) ||
    p.nodeId.any (· ∈ s.nodesOver seqs) || p.parentId.any (· ∈ s.nodesOver seqs) ||
    p.extra.any fun x => x.ints.any (· ∈ seqs) || x.texts.any (· ∈ s.nodesOver seqs)

/-- The runs whose images go, those of the proposals among them. -/
def forgottenRuns (s : Store) (origin : Subject) (seqs : List ℤ) : List ℤ :=
  s.runsOver origin seqs ++ (s.proposalsOver origin seqs).filterMap ProposalRow.runId

/-- Release copied organizer text and disable deferred work that could
reintroduce it. -/
def forgetDerivedCopies (s : Store) (origin : Subject) (seqs : List ℤ) (ts : ℤ) : Store :=
  let links := (s.linksInto seqKinds seqs).map LinkRow.id
  let obs := (s.observationsCiting seqs).map ObservationRow.id
  let nodes := s.nodesOver seqs
  let proposals := (s.proposalsOver origin seqs).map ProposalRow.id
  let runs := s.forgottenRuns origin seqs
  { s with
    proposals := s.proposals.update (fun p => p.id ∈ proposals) fun p =>
      { p with
        title := none
        summary := none
        extra := none
        rationale := none
        lastReason := some "forgotten source"
        status := .expired
        nextAfterRun := none }
    runOps := s.runOps.update (fun o => o.runId ∈ runs) fun o =>
      { o with reason := none, preImage := none, postImage := none }
    runs := s.runs.update (fun r => r.id ∈ runs) fun r =>
      { r with summary := some forgottenSource, error := none, sourceForgottenAt := some ts }
    links := s.links.update (fun l => l.id ∈ links) fun l => { l with note := none }
    observations := s.observations.update (fun o => o.id ∈ obs) (ObservationRow.redact ts)
    nodes := s.nodes.update (fun n => n.kind = .digest && n.id ∈ nodes) fun n =>
      { n with summary := none } }

/-- The events about a prompt, its own and those read from them. -/
def seqsOfPrompt (s : Store) (prompt : ℤ) : List ℤ :=
  (s.ledger.rows.filter fun e => s.promptOf e = some prompt).map LedgerEventRow.seq

/-- What `forget` does before the body goes. -/
def forgetPrompt (s : Store) (prompt : ℤ) (bodyHash : String) (ts : ℤ) : Except DbError Store :=
  match s.forgottenSources.insert? ⟨prompt, bodyHash, ts⟩ with
  | none => .error .constraint
  | some forgotten =>
    let seqs := s.seqsOfPrompt prompt
    let s := { s with
      forgottenSources := forgotten
      redactionOutbox := (s.redactionOutbox.insert? ⟨prompt, ts⟩).getD s.redactionOutbox
      embeddings := s.embeddings.delete fun e => e.targetKind = "prompt" && e.targetId = prompt }
    let s := s.forgetDerivedCopies (.prompt prompt) seqs ts
    let s := { s with
      observations := s.observations.update (fun o => o.citeSeqs.any (· ∈ seqs))
        (ObservationRow.redact ts)
      links := s.links.update
        (fun l => l.targetKind ∈ promptKinds && l.targetId ∈ seqs.map toString)
        fun l => { l with note := none } }
    .ok (s.invalidatePromptClaims prompt)

/-! ### Compaction -/

/-- The prompt's row, if it can be compacted for this reason. -/
def warmPrompt? (s : Store) (prompt : ℤ) (reason : String) : Option PromptRow :=
  (s.prompts.get? prompt).filter fun p =>
    (p.gist = none || reason = "forget") && (s.forgottenSources.get? prompt).isNone

theorem warmPrompt?_iff {s : Store} {prompt : ℤ} {reason : String} {p : PromptRow} :
    s.warmPrompt? prompt reason = some p ↔ s.prompts.get? prompt = some p ∧
      (p.gist = none ∨ reason = "forget") ∧ s.forgottenSources.get? prompt = none := by
  unfold warmPrompt?
  rw [Option.filter_eq_some_iff]
  simp

/-- The archive after a compaction: the row written (if the write goes
through) for `cold`, deleted for any other reason. -/
def archiveFor (h : Host) (s : Store) (now : ℤ) (p : PromptRow) (reason : String) (archived : Bool) :
    Table ArchiveRow.promptId :=
  if reason = "cold" then
    if archived then
      s.archive.upsert
        ⟨p.id, p.bodyHash, archiveAlgo, p.body.utf8ByteSize, h.deflate p.body, now⟩
    else s.archive
  else s.archive.delete fun a => a.promptId = p.id

/-- The event that proves the swap. -/
def compactionEvent (h : Host) (now : ℤ) (p : PromptRow) (gist reason actor : String) :
    LedgerAppend :=
  ⟨"compaction", actor, now, some p.id, none, none, some "prompt", some (toString p.id),
    h.decisionPayloadHash [("original_body_hash", p.bodyHash), ("gist_hash", h.bodyHash gist),
      ("reason", reason)]⟩

/-- Swap a prompt's body for a gist; the event's seq, or none where there is
no such warm prompt. -/
def compactPromptBody (h : Host) (s : Store) (now : ℤ) (prompt : ℤ)
    (gist reason gistSource actor : String) (archived : Bool) :
    Except DbError (Store × Option ℤ) :=
  match s.warmPrompt? prompt reason with
  | none => .ok (s, none)
  | some p => do
    let s := { s with archive := s.archiveFor h now p reason archived }
    let s ← if reason = "forget" then s.forgetPrompt prompt p.bodyHash now else .ok s
    let s := { s with
      prompts := s.prompts.update
        (fun q => q.id = prompt && (q.gist = none || reason = "forget"))
        (PromptRow.compacted now gist reason gistSource) }
    let a := compactionEvent h now p gist reason actor
    return (s.append h a, some (s.appendedRow h a).seq)

/-- `compact_prompt_body` journaled under a gardener run. -/
def compactPromptBodyInRun (h : Host) (s : Store) (now run prompt : ℤ)
    (gist reason gistSource actor : String) (archived : Bool) :
    Except DbError (Store × Option ℤ) := do
  let (s, seq) ← s.compactPromptBody h now prompt gist reason gistSource actor archived
  match seq with
  | none => return (s, none)
  | some seq =>
    let s ← s.journalOp run (.applied [.prompt prompt] (.compact prompt seq) (some seq))
    return (s, some seq)

/-! ### Restoring -/

/-- Restore a cold-compacted prompt's original body from the archive. -/
def restorePromptBody (h : Host) (s : Store) (prompt : ℤ) : Except DbError (Store × Bool) :=
  if (s.forgottenSources.get? prompt).isSome then .ok (s, false)
  else
    match s.archive.get? prompt with
    | none => .ok (s, false)
    | some a =>
      if a.algo ≠ archiveAlgo then
        .error (.invalid s!"prompt {prompt}: unknown archive codec `{a.algo}`")
      else
        match h.inflate a.blob with
        | none => .error (.invalid s!"prompt {prompt}: inflate failed")
        | some body =>
          if h.bodyHash body ≠ a.bodyHash then
            .error (.invalid s!"prompt {prompt}: archived body does not match its recorded hash")
          else if (s.prompts.get? prompt).any fun p => p.bodyHash = a.bodyHash then
            .ok ({ s with
              prompts := s.prompts.update (fun p => p.id = prompt && p.bodyHash = a.bodyHash)
                (PromptRow.restored body)
              archive := s.archive.delete fun a => a.promptId = prompt }, true)
          else .ok (s, false)

end Store

end PolisMemory
