/-
# A change under a run and its journal entry

An observation and its entry are committed together, or neither is. A
compaction's swap is committed before its entry is written: the entry is
missing where a statement after the `COMMIT` fails, where the run's source was
forgotten, or is by this very forget, and where the archive's best-effort
write rolls the transaction back and the swap goes on in autocommit. For every
call the change and its entry are there together, or neither, if and only if
none of these happens (`inRun_together_iff`).

Key definitions: `Store.Forgets`, `SwapGoes`, `SwapLoose`, `EntryGoes`,
`InRunCall.Meets`.
Key theorems: `eval_swapBody`, `run_compactPromptBodyLocked`,
`run_journalOpLocked`, `eval_insertClassObservationLocked`,
`inRun_together_iff`.
-/
import PolisMemory.InRun

namespace PolisMemory

open Sqlite Sqlite.Prog Sqlite.Prog.Turn Sqlite.Conn Tables Attempt

variable {h : Host} {s s' t w : Store} {now run prompt seq : ℤ}
  {gist reason gistSource actor : String} {p : PromptRow}

namespace Store

/-! ### What a swap makes of the store -/

/-- Forgetting the prompt marks the run. -/
def Forgets (s : Store) (run prompt : ℤ) : Prop :=
  (s.runs.get? run).isSome = true ∧ run ∈ s.forgottenRuns (.prompt prompt) (s.seqsOfPrompt prompt)

/-- What is left of a journal, of the runs and of the lake's own rows before
the body goes. -/
structure Released (s t : Store) (prompt : ℤ) (forgets : Prop) : Prop where
  ledger : t.ledger = s.ledger
  prompts : t.prompts = s.prompts
  ops : ∀ k, t.runOps.get? k = none ↔ s.runOps.get? k = none
  runs : ∀ run, t.runSourceForgotten run = true ↔
    s.runSourceForgotten run = true ∨ forgets ∧ s.Forgets run prompt

theorem Released.refl (s : Store) (prompt : ℤ) {forgets : Prop} (hno : ¬ forgets) :
    Released s s prompt forgets :=
  ⟨rfl, rfl, fun _ => Iff.rfl, fun _ => ⟨.inl, fun h => h.elim id fun h => absurd h.1 hno⟩⟩

theorem runOps_forgetDerivedCopies (s : Store) (origin : Subject) (seqs : List ℤ) (ts : ℤ) (k : ℤ × ℤ) :
    (s.forgetDerivedCopies origin seqs ts).runOps.get? k = none ↔ s.runOps.get? k = none := by
  unfold forgetDerivedCopies
  simp only [Table.get?_update, Option.map_eq_none_iff]

theorem released_forgetPrompt {bodyHash : String} {ts : ℤ} {forgets : Prop} (hyes : forgets)
    (hok : s.forgetPrompt prompt bodyHash ts = .ok t) : Released s t prompt forgets := by
  unfold forgetPrompt at hok
  cases hins : s.forgottenSources.insert? ⟨prompt, bodyHash, ts⟩ with
  | none =>
    rw [hins] at hok
    cases hok
  | some forgotten =>
    rw [hins] at hok
    cases hok
    refine ⟨rfl, rfl, fun k => ?_, fun run => ?_⟩
    · exact runOps_forgetDerivedCopies _ (.prompt prompt) _ ts k
    · change ((s.runs.update (fun r => r.id ∈ s.forgottenRuns (.prompt prompt) (s.seqsOfPrompt prompt))
        fun r => { r with
          summary := some forgottenSource, error := none, sourceForgottenAt := some ts }).get? run).any
            (fun r => r.sourceForgottenAt.isSome) = true ↔ _
      rw [AutoTable.toTable_update, Table.get?_update, runSourceForgotten, Forgets]
      cases hrun : s.runs.get? run with
      | none => simp
      | some r =>
        have hid : r.id = run := Table.key_of_get? hrun
        by_cases hmem : run ∈ s.forgottenRuns (.prompt prompt) (s.seqsOfPrompt prompt)
        · simp [hid, hmem, hyes]
        · simp [hid, hmem]

/-- The swap is made: the body gone, its event there, the journal as it was. -/
structure Swapped (s w : Store) (prompt : ℤ) (gist reason : String) (seq : ℤ) : Prop where
  body : ∃ q, w.prompts.get? prompt = some q ∧ q.gist = some gist ∧ q.body = ""
  event : NewEvent s w "compaction" seq
  ops : ∀ k, w.runOps.get? k = none ↔ s.runOps.get? k = none
  runs : ∀ run, w.runSourceForgotten run = true ↔
    s.runSourceForgotten run = true ∨ reason = "forget" ∧ s.Forgets run prompt

theorem newEvent_append (h : Host) {s t : Store} (hledger : t.ledger = s.ledger) (a : LedgerAppend) :
    NewEvent s (t.append h a) a.kind (t.appendedRow h a).seq := by
  have hsame : s.event? (t.appendedRow h a).seq = t.event? (t.appendedRow h a).seq := by
    unfold event?
    rw [hledger]
  refine ⟨hsame.trans (List.find?_eq_none.mpr fun r hr => ?_), t.appendedRow h a,
    event?_appendedRow h t a, rfl⟩
  exact fun heq => (lt_successor h.sha256 a r hr).ne (of_decide_eq_true heq)

theorem warmPrompt?_eq_some (hp : s.warmPrompt? prompt reason = some p) :
    s.prompts.get? prompt = some p ∧ p.id = prompt ∧ (p.gist = none ∨ reason = "forget") ∧
      s.forgottenSources.get? prompt = none := by
  obtain ⟨hget, hwarm⟩ := warmPrompt?_iff.mp hp
  exact ⟨hget, Table.key_of_get? hget, hwarm⟩

/-- A forget of a prompt that was not forgotten goes through. -/
theorem forgetPrompt_isOk (hfree : s.forgottenSources.get? prompt = none) (bodyHash : String) (ts : ℤ) :
    ∃ t, s.forgetPrompt prompt bodyHash ts = .ok t := by
  have hkey : s.forgottenSources.get? (ForgottenRow.promptId ⟨prompt, bodyHash, ts⟩) = none := hfree
  obtain ⟨forgotten, hins, -⟩ := Table.insert?_of_free hkey
  unfold forgetPrompt
  rw [hins]
  exact ⟨_, rfl⟩

end Store

open Store

/-! ### The swap, in a transaction -/

/-- How many statements follow the archive's, up to the event's `INSERT`. -/
def swapSteps (reason : String) : ℕ := if reason = "forget" then 4 else 3

theorem stops_forgetBody (now : ℤ) (p : PromptRow) (reason : String) :
    Stops (forgetBody now p reason).run := by
  unfold forgetBody
  split_ifs
  · exact stops_exec _
  · exact stops_pure _

theorem stops_swapBody (h : Host) (now : ℤ) (p : PromptRow) (gist reason gistSource actor : String) :
    Stops (swapBody h now p gist reason gistSource actor).run :=
  stops_bind (stops_forgetBody now p reason) fun _ => stops_bind (stops_write _) fun _ =>
    stops_bind (stops_append h.sha256 storeLedger _) fun _ => stops_pure _

/-- What a forget does before the body goes, if it is one. -/
theorem eval_forgetBody (now : ℤ) (hp : s.warmPrompt? prompt reason = some p) (a : Table ArchiveRow.promptId) :
    ∃ t, (forgetBody now p reason).run.eval { s with archive := a } = .ok (⟨⟩, t) ∧
      Released s t prompt (reason = "forget") ∧
      (forgetBody now p reason).run.steps { s with archive := a } = (if reason = "forget" then 1 else 0) ∧
      (if reason = "forget" then { s with archive := a }.forgetPrompt prompt p.bodyHash now
        else .ok { s with archive := a }) = .ok t := by
  obtain ⟨-, rfl, -, hfree⟩ := warmPrompt?_eq_some hp
  unfold forgetBody
  by_cases hreason : reason = "forget"
  · simp only [if_pos hreason]
    have hfree' : { s with archive := a }.forgottenSources.get? p.id = none := hfree
    obtain ⟨t, ht⟩ := forgetPrompt_isOk hfree' p.bodyHash now
    have hsome : ({ s with archive := a }.forgetPrompt p.id p.bodyHash now).toOption = some t := by
      rw [ht]
      rfl
    have hreleased := released_forgetPrompt hreason ht
    refine ⟨t, ?_, ⟨hreleased.ledger, hreleased.prompts, hreleased.ops, hreleased.runs⟩, ?_, ht⟩
    · simp [Attempt.exec, eval, hsome]
    · simp [Attempt.exec, steps, hsome]
  · simp only [if_neg hreason]
    have hruns := (Released.refl s p.id hreason).runs
    exact ⟨_, rfl, ⟨rfl, rfl, fun _ => Iff.rfl, hruns⟩, rfl, rfl⟩

/-- The prompt's row swapped, and its event. -/
theorem eval_swapRow (h : Host) (t : Store) (now : ℤ) (p : PromptRow) (gist reason gistSource actor : String) :
    let a := compactionEvent h now p gist reason actor
    let u := t.swapPrompt now p gist reason gistSource
    (swapRow h now p gist reason gistSource actor).run.eval t =
        .ok (some (u.appendedRow h a).seq, u.append h a) ∧
      (swapRow h now p gist reason gistSource actor).run.steps t = 3 := by
  intro a u
  have happend := stops_append h.sha256 storeLedger a
  have hevent : (onPart storeLedger (appendEvent h.sha256 a)).run.eval u =
      .ok (u.appendedRow h a, u.append h a) := eval_append h.sha256 storeLedger a u
  constructor
  · unfold swapRow
    rw [eval_bind (stops_write _), eval_write]
    change (onPart storeLedger (appendEvent h.sha256 a) >>= fun ev =>
      (pure (some ev.seq) : Attempt Store (Option ℤ))).run.eval u = _
    rw [eval_bind happend, hevent]
    rfl
  · unfold swapRow
    rw [steps_bind (stops_write _) _ (eval_write _ t), steps_bind happend _ hevent,
      steps_onPart storeLedger (stops_appendEvent h.sha256 a), steps_appendEvent]
    rfl

theorem get?_swapPrompt (now : ℤ) (gist gistSource : String) (hget : t.prompts.get? p.id = some p)
    (hgist : p.gist = none ∨ reason = "forget") :
    (t.swapPrompt now p gist reason gistSource).prompts.get? p.id =
      some (p.compacted now gist reason gistSource) := by
  unfold swapPrompt
  dsimp only
  rw [Table.get?_update, hget, Option.map_some, if_pos]
  simpa using hgist

/-- **What a swap makes of the store**, statement by statement: what
`compact_prompt_body` makes of it. -/
theorem eval_swapBody (h : Host) (now : ℤ) (hp : s.warmPrompt? prompt reason = some p)
    (gist gistSource actor : String) (archived : Bool) :
    let s₀ := { s with archive := s.archiveFor h now p reason archived }
    let swap := (swapBody h now p gist reason gistSource actor).run
    ∃ w seq, swap.eval s₀ = .ok (some seq, w) ∧ Swapped s w prompt gist reason seq ∧
      swap.steps s₀ = swapSteps reason ∧
      s.compactPromptBody h now prompt gist reason gistSource actor archived = .ok (w, some seq) := by
  intro s₀ swap
  obtain ⟨t, ht, hreleased, hsteps, hpure⟩ := eval_forgetBody now hp
    (s.archiveFor h now p reason archived)
  obtain ⟨hget, rfl, hgist, -⟩ := warmPrompt?_eq_some hp
  obtain ⟨heval, hrow⟩ := eval_swapRow h t now p gist reason gistSource actor
  have hprompt : t.prompts.get? p.id = some p := by rw [hreleased.prompts, hget]
  let u := t.swapPrompt now p gist reason gistSource
  let a := compactionEvent h now p gist reason actor
  have hledger : u.ledger = s.ledger := hreleased.ledger
  refine ⟨u.append h a, (u.appendedRow h a).seq, ?_, ⟨?_, ?_, hreleased.ops, hreleased.runs⟩, ?_, ?_⟩
  · exact (eval_bind (stops_forgetBody now p reason) _ s₀).trans (by rw [ht]; exact heval)
  · exact ⟨p.compacted now gist reason gistSource, get?_swapPrompt now gist gistSource hprompt hgist, rfl, rfl⟩
  · exact newEvent_append h hledger a
  · exact (steps_bind (stops_forgetBody now p reason) _ ht).trans (by
      rw [hsteps, hrow, swapSteps]
      split_ifs <;> rfl)
  · unfold compactPromptBody
    rw [hp]
    by_cases hreason : reason = "forget"
    · rw [if_pos hreason] at hpure
      dsimp only
      rw [if_pos hreason, hpure]
      rfl
    · rw [if_neg hreason] at hpure
      cases hpure
      dsimp only
      rw [if_neg hreason]
      rfl

/-! ### The swap's transaction -/

/-- The archive's statement lets the transaction go on. -/
def ArchiveGoes (reason : String) (fault : Fault) : Prop :=
  if reason = "cold" then fault ≠ .aborted else fault = .none

/-- The archive's statement goes through or is skipped, ends the code, or rolls
the transaction back and is skipped. -/
theorem run_archiveBody (h : Host) (faults : ℕ → Fault) (n : ℕ) (s : Store) (v : ℕ) (w : Store)
    (now : ℤ) (p : PromptRow) (reason : String) :
    let out := (archiveBody h now p reason).run.run (Turn.alone faults) n (Conn.writer s v w)
    (ArchiveGoes reason (faults n) ∧ ∃ archived, out =
        (.ok ⟨⟩, Conn.writer s v { w with archive := w.archiveFor h now p reason archived }, n + 1)) ∨
      (¬ ArchiveGoes reason (faults n) ∧ reason ≠ "cold" ∧
        ∃ e c, (c = Conn.idle s v ∨ ∃ w', c = Conn.writer s v w') ∧ out = (.error e, c, n + 1)) ∨
      (reason = "cold" ∧ faults n = .aborted ∧ out = (.ok ⟨⟩, Conn.idle s v, n + 1)) := by
  unfold archiveBody ArchiveGoes
  let statement : Store → Store := fun s => { s with archive := s.archiveFor h now p reason true }
  by_cases hcold : reason = "cold"
  · simp only [if_pos hcold, run_bestEffort]
    cases hf : faults n with
    | none =>
      rw [run_write_none s w v statement hf]
      exact .inl ⟨nofun, true, rfl⟩
    | refused e =>
      rw [run_write_refused s w v statement hf]
      refine .inl ⟨nofun, false, ?_⟩
      have hkept : w.archiveFor h now p reason false = w.archive := by
        rw [archiveFor, if_pos hcold, if_neg Bool.false_ne_true]
      rw [hkept]
    | aborted =>
      rw [run_write_aborted s w v statement hf]
      exact .inr (.inr ⟨hcold, rfl, rfl⟩)
  · simp only [if_neg hcold]
    cases hf : faults n with
    | none => exact .inl ⟨rfl, true, run_write_none s w v statement hf⟩
    | refused e =>
      exact .inr (.inl ⟨nofun, hcold, e, _, .inr ⟨w, rfl⟩, run_write_refused s w v statement hf⟩)
    | aborted =>
      exact .inr (.inl ⟨nofun, hcold, .failed, _, .inl rfl, run_write_aborted s w v statement hf⟩)

/-- The swap, the archive's statement behind it. -/
theorem run_swapBody (h : Host) (faults : ℕ → Fault) (n v : ℕ) (now : ℤ)
    (hp : s.warmPrompt? prompt reason = some p) (gist gistSource actor : String) (archived : Bool) :
    let out := (swapBody h now p gist reason gistSource actor).run.run (Turn.alone faults) n
      (Conn.writer s v { s with archive := s.archiveFor h now p reason archived })
    ((∀ i < swapSteps reason, faults (n + i) = .none) ∧ ∃ w seq, Swapped s w prompt gist reason seq ∧
        out = (.ok (some seq), Conn.writer s v w, n + swapSteps reason)) ∨
      ((∃ i < swapSteps reason, faults (n + i) ≠ .none) ∧
        ∃ e c m, (c = Conn.idle s v ∨ ∃ w, c = Conn.writer s v w) ∧ out = (.error e, c, m)) := by
  obtain ⟨w, seq, heval, hswapped, hsteps, -⟩ := eval_swapBody h now hp gist gistSource actor archived
  have hrun := (stops_swapBody h now p gist reason gistSource actor).run_steps faults s v _ n _ w heval
  rw [hsteps] at hrun
  exact hrun.imp_left fun ⟨hall, hrun⟩ => ⟨hall, w, seq, hswapped, hrun⟩

/-- The swap in autocommit, after the transaction was rolled back: it is
committed by its own `UPDATE`. -/
theorem run_swapBody_loose (h : Host) (faults : ℕ → Fault) (n : ℕ) (s : Store) (v : ℕ) (now : ℤ)
    (p : PromptRow) (gist gistSource actor : String) :
    let a := compactionEvent h now p gist "cold" actor
    let u := s.swapPrompt now p gist "cold" gistSource
    let out := (swapBody h now p gist "cold" gistSource actor).run.run (Turn.alone faults) n (Conn.idle s v)
    (faults n = .none ∧ ((∃ seq m, out = (.ok (some seq), Conn.idle (u.append h a) (v + 2), m)) ∨
        ∃ e c m, c.committed = u ∧ out = (.error e, c, m))) ∨
      (faults n ≠ .none ∧ ∃ e, out = (.error e, Conn.idle s v, n + 1)) := by
  intro a u out
  have hout : out = (swapRow h now p gist "cold" gistSource actor).run.run (Turn.alone faults) n
    (Conn.idle s v) := rfl
  rw [hout]
  unfold swapRow
  rcases run_write faults n s v (fun s => s.swapPrompt now p gist "cold" gistSource) (fun _ =>
    onPart storeLedger (appendEvent h.sha256 a) >>= fun ev =>
      (pure (some ev.seq) : Attempt Store (Option ℤ))) with ⟨hn, hrun⟩ | ⟨hn, e, hrun⟩
  · refine .inl ⟨hn, ?_⟩
    rw [hrun]
    rcases run_append h.sha256 storeLedger faults (n + 1) u (v + 1) a with
      ⟨-, m, happend⟩ | ⟨-, e, c, m, happend, hc⟩
    · exact .inl ⟨_, m, run_bind_ok happend _⟩
    · exact .inr ⟨e, c, m, hc, run_bind_error happend _⟩
  · exact .inr ⟨hn, e, hrun⟩

theorem swapPrompt_ne (now : ℤ) (gist gistSource : String) (hp : s.warmPrompt? prompt "cold" = some p) :
    (s.swapPrompt now p gist "cold" gistSource).prompts ≠ s.prompts := by
  obtain ⟨hget, rfl, hgist, -⟩ := warmPrompt?_eq_some hp
  intro heq
  have hswapped := get?_swapPrompt now gist gistSource hget hgist
  rw [heq, hget] at hswapped
  have hnone : p.gist = none := hgist.resolve_right (by decide)
  have hsome := congrArg (Option.map PromptRow.gist) hswapped
  rw [Option.map_some, Option.map_some, hnone] at hsome
  cases hsome

/-- The prompt is found. -/
def Found (s : Store) (prompt : ℤ) (reason : String) (faults : ℕ → Fault) : Prop :=
  (∃ p, s.warmPrompt? prompt reason = some p) ∧ faults 0 = .none ∧ faults 1 = .none

/-- The swap is committed: every statement goes through, a `cold` archive's
apart. -/
def SwapGoes (s : Store) (prompt : ℤ) (reason : String) (faults : ℕ → Fault) : Prop :=
  Found s prompt reason faults ∧ ArchiveGoes reason (faults 2) ∧
    (∀ i < swapSteps reason, faults (3 + i) = .none) ∧ faults (3 + swapSteps reason) = .none

/-- The archive's write rolls the transaction back, and the `UPDATE` goes
through in autocommit. -/
def SwapLoose (s : Store) (prompt : ℤ) (reason : String) (faults : ℕ → Fault) : Prop :=
  Found s prompt reason faults ∧ reason = "cold" ∧ faults 2 = .aborted ∧ faults 3 = .none

/-- **How a compaction ends**: the swap is committed, or nothing is; or it is
committed by its own `UPDATE`, and there is an error. -/
theorem run_compactPromptBodyLocked (h : Host) (faults : ℕ → Fault) (s : Store) (v : ℕ) (now prompt : ℤ)
    (gist reason gistSource actor : String) :
    let out := (compactPromptBodyLocked h now prompt gist reason gistSource actor).run.run
      (Turn.alone faults) 0 (Conn.idle s v)
    (SwapGoes s prompt reason faults ∧ ∃ w seq, Swapped s w prompt gist reason seq ∧
        out = (.ok (some seq), Conn.idle w (v + 1), 4 + swapSteps reason)) ∨
      (SwapLoose s prompt reason faults ∧ ∃ e c m, c.committed ≠ s ∧ c.committed.runOps = s.runOps ∧
        out = (.error e, c, m)) ∨
      (¬ SwapGoes s prompt reason faults ∧ ¬ SwapLoose s prompt reason faults ∧
        ∃ r c m, (r = .ok none ∨ ∃ e, r = .error e) ∧ c.committed = s ∧ out = (r, c, m)) := by
  intro out
  let body := compactPromptBodyInTransaction h now prompt gist reason gistSource actor
  have hout : out = (batch body.run).run (Turn.alone faults) 0 (Conn.idle s v) := rfl
  have hquit (hno : ¬ Found s prompt reason faults) :
      ¬ SwapGoes s prompt reason faults ∧ ¬ SwapLoose s prompt reason faults :=
    ⟨fun h => hno h.1, fun h => hno h.1⟩
  -- an error of the code: nothing is committed
  have hfail {e : Error} {c : Conn Store} {m : ℕ} (hc : c = Conn.idle s v ∨ ∃ w, c = Conn.writer s v w)
      (hbody : out = (batchEnd (.error e)).run (Turn.alone faults) m c) :
      ∃ (r : Except Error (Option ℤ)) (c : Conn Store) (m : ℕ),
        (r = .ok none ∨ ∃ e, r = .error e) ∧ c.committed = s ∧ out = (r, c, m) := by
    obtain ⟨c', m', hend, hsame⟩ := run_batchEnd_error (ρ := Option ℤ) faults m c e
    refine ⟨_, c', m', .inr ⟨e, rfl⟩, ?_, hbody.trans hend⟩
    rw [hsame]
    rcases hc with rfl | ⟨w, rfl⟩ <;> rfl
  rcases run_batch faults 0 s v body.run with ⟨h0, hbatch⟩ | ⟨h0, e, m, hbatch⟩
  · rcases run_read_writer faults 1 s v s with ⟨h1, hread⟩ | ⟨h1, e, c, hc, hread⟩
    · have hrow : body.run.run (Turn.alone faults) 1 (Conn.writer s v s) =
          (compactRow h now gist reason gistSource actor (s.warmPrompt? prompt reason)).run.run
            (Turn.alone faults) 2 (Conn.writer s v s) := run_bind_ok hread _
      rw [hrow] at hbatch
      cases hwarm : s.warmPrompt? prompt reason with
      | none =>
        rw [hwarm] at hbatch
        obtain ⟨hno, hloose⟩ := hquit fun ⟨⟨p, hp⟩, _⟩ => nomatch hwarm.symm.trans hp
        refine .inr (.inr ⟨hno, hloose, ?_⟩)
        rcases run_batchEnd_ok faults 2 s v s (none : Option ℤ) with ⟨-, hend⟩ | ⟨-, e, c, m, hend, hc⟩
        · exact ⟨_, _, _, .inl rfl, rfl, hout.trans (hbatch.trans hend)⟩
        · exact ⟨_, c, m, .inr ⟨e, rfl⟩, hc, hout.trans (hbatch.trans hend)⟩
      | some p =>
        rw [hwarm] at hbatch
        have hfound : Found s prompt reason faults := ⟨⟨p, hwarm⟩, h0, h1⟩
        let swap := swapBody h now p gist reason gistSource actor
        have hcompact : compactRow h now gist reason gistSource actor (some p) =
          archiveBody h now p reason >>= fun _ => swap := rfl
        rw [hcompact] at hbatch
        rcases run_archiveBody h faults 2 s v s now p reason with
          ⟨hgoes, archived, harchive⟩ | ⟨hgoes, hcold, e, c, hc, harchive⟩ | ⟨hcold, haborted, harchive⟩
        · rw [run_bind_ok harchive] at hbatch
          have hloose : ¬ SwapLoose s prompt reason faults := by
            rintro ⟨-, hcold, haborted, -⟩
            rw [ArchiveGoes, if_pos hcold] at hgoes
            exact hgoes haborted
          rcases run_swapBody h faults 3 v now hwarm gist gistSource actor archived with
            ⟨hall, w, seq, hswapped, hswap⟩ | ⟨⟨i, hi, hbad⟩, e, c, m, hc, hswap⟩
          · rw [hswap] at hbatch
            rcases run_batchEnd_ok faults (3 + swapSteps reason) s v w (some seq) with
              ⟨hcommit, hend⟩ | ⟨hcommit, e, c, m, hend, hc⟩
            · refine .inl ⟨⟨hfound, hgoes, hall, hcommit⟩, w, seq, hswapped, ?_⟩
              rw [hout, hbatch, hend, Nat.add_right_comm]
            · exact .inr (.inr ⟨fun h => hcommit h.2.2.2, hloose, _, c, m, .inr ⟨e, rfl⟩, hc,
                hout.trans (hbatch.trans hend)⟩)
          · rw [hswap] at hbatch
            exact .inr (.inr ⟨fun h => hbad (h.2.2.1 i hi), hloose, hfail hc (hout.trans hbatch)⟩)
        · rw [run_bind_error harchive] at hbatch
          exact .inr (.inr ⟨fun h => hgoes h.2.1, fun h => hcold h.2.1, hfail hc (hout.trans hbatch)⟩)
        · rw [run_bind_ok harchive] at hbatch
          have hgoes : ¬ SwapGoes s prompt reason faults := by
            rintro ⟨-, hgoes, -⟩
            rw [ArchiveGoes, if_pos hcold] at hgoes
            exact hgoes haborted
          subst hcold
          have hne := swapPrompt_ne now gist gistSource hwarm
          rcases run_swapBody_loose h faults 3 s v now p gist gistSource actor with
            ⟨h3, ⟨seq, m, hswap⟩ | ⟨e, c, m, hc, hswap⟩⟩ | ⟨h3, e, hswap⟩
          · rw [hswap] at hbatch
            obtain ⟨e, c, m', hend, hc⟩ := run_batchEnd_auto faults m _ (v + 2) (some seq)
            refine .inr (.inl ⟨⟨hfound, rfl, haborted, h3⟩, e, c, m', ?_, ?_,
              hout.trans (hbatch.trans hend)⟩)
            · rw [hc]
              intro heq
              have hprompts := congrArg Store.prompts heq
              exact hne hprompts
            · rw [hc]
              rfl
          · rw [hswap] at hbatch
            obtain ⟨c', m', hend, hsame⟩ := run_batchEnd_error (ρ := Option ℤ) faults m c e
            refine .inr (.inl ⟨⟨hfound, rfl, haborted, h3⟩, e, c', m', ?_, ?_,
              hout.trans (hbatch.trans hend)⟩)
            · rw [hsame, hc]
              exact fun heq => hne (congrArg Store.prompts heq)
            · rw [hsame, hc]
              rfl
          · rw [hswap] at hbatch
            exact .inr (.inr ⟨hgoes, fun h => h3 h.2.2.2, hfail (.inl rfl) (hout.trans hbatch)⟩)
    · have hbody := run_bind_error hread fun s =>
        compactRow h now gist reason gistSource actor (s.warmPrompt? prompt reason)
      have hbody : body.run.run (Turn.alone faults) 1 (Conn.writer s v s) = (.error e, c, 2) := hbody
      rw [hbody] at hbatch
      obtain ⟨hno, hloose⟩ := hquit fun hf => h1 hf.2.2
      exact .inr (.inr ⟨hno, hloose, hfail hc (hout.trans hbatch)⟩)
  · obtain ⟨hno, hloose⟩ := hquit fun hf => h0 hf.2.1
    exact .inr (.inr ⟨hno, hloose, .error e, Conn.idle s v, m, .inr ⟨e, rfl⟩, rfl, hout.trans hbatch⟩)

/-! ### The entry -/

/-- The journal takes an op of a run whose source was not forgotten. -/
theorem journalOp_some (w : Store) {run : ℤ} (rec : OpRecord) (hf : w.runSourceForgotten run = false) :
    ∃ w', w.insertOp (w.opRow run rec) = some w' ∧ w.journalOp run rec = .ok w' := by
  obtain ⟨ops, hj, -⟩ := journalOp_eq w run rec hf
  unfold journalOp at hj ⊢
  unfold insertOp
  rw [hf] at hj ⊢
  cases hins : w.runOps.insert? (w.opRow run rec) with
  | none =>
    rw [hins] at hj
    cases hj
  | some ops => exact ⟨_, rfl, rfl⟩

/-- The entry of an op, in autocommit: it is written where no statement fails
and the run's source was not forgotten; else nothing is. -/
theorem run_journalOpLocked (faults : ℕ → Fault) (n : ℕ) (w : Store) (v : ℕ) (run : ℤ) (rec : OpRecord) :
    let out := (journalOpLocked run rec).run.run (Turn.alone faults) n (Conn.idle w v)
    (w.runSourceForgotten run = false ∧ (∀ i < 3, faults (n + i) = .none) ∧
        ∃ ix w' m, w.journalOp run rec = .ok w' ∧ out = (.ok ix, Conn.idle w' (v + 1), m)) ∨
      (¬ (w.runSourceForgotten run = false ∧ ∀ i < 3, faults (n + i) = .none) ∧
        ∃ r m, out = (r, Conn.idle w v, m)) := by
  intro out
  have hbad {i : ℕ} (hi : i < 3) (hn : faults (n + i) ≠ .none) :
      ¬ (w.runSourceForgotten run = false ∧ ∀ i < 3, faults (n + i) = .none) := fun h => hn (h.2 i hi)
  let guarded (s : Store) : Attempt Store ℤ :=
    if s.runSourceForgotten run = true then pure 0 else journalNext run rec
  rcases run_read faults n w v guarded with ⟨h0, hread⟩ | ⟨h0, e, hread⟩
  · have hread : out = (guarded w).run.run (Turn.alone faults) (n + 1) (Conn.idle w v) := hread
    rw [hread]
    cases hf : w.runSourceForgotten run with
    | true =>
      have hguard : guarded w = pure 0 := if_pos hf
      rw [hguard]
      exact .inr ⟨fun h => (nomatch h.1), .ok 0, n + 1, rfl⟩
    | false =>
      have hguard : guarded w = journalNext run rec := if_neg (by rw [hf]; exact Bool.false_ne_true)
      rw [hguard]
      obtain ⟨w', hins, hj⟩ := journalOp_some w rec hf
      let insert (s : Store) : Attempt Store ℤ :=
        Attempt.exec (insertOp (s.opRow run rec)) >>= fun _ => pure (s.nextOpIx run)
      rcases run_read faults (n + 1) w v insert with ⟨h1, hread'⟩ | ⟨h1, e, hread'⟩
      · rcases run_exec faults (n + 2) v (insertOp (w.opRow run rec)) hins
          (fun _ => (pure (w.nextOpIx run) : Attempt Store ℤ)) with ⟨h2, hexec⟩ | ⟨h2, e, hexec⟩
        · refine .inl ⟨rfl, fun i hi => ?_, _, w', _, hj, hread'.trans hexec⟩
          have hi : i = 0 ∨ i = 1 ∨ i = 2 := by omega
          rcases hi with rfl | rfl | rfl
          · exact h0
          · exact h1
          · exact h2
        · exact .inr ⟨hf ▸ hbad (by decide) h2, .error e, _, hread'.trans hexec⟩
      · exact .inr ⟨hf ▸ hbad (by decide) h1, .error e, _, hread'⟩
  · exact .inr ⟨hbad (i := 0) (by decide) h0, .error e, _, hread⟩

/-- What the journal's entry is. -/
theorem newEntry_journalOp {image : Image} {subjectIds : List Subject}
    (hops : ∀ k, w.runOps.get? k = none → s.runOps.get? k = none)
    (hf : w.runSourceForgotten run = false)
    (hj : w.journalOp run (.applied subjectIds image (some seq)) = .ok t) :
    NewEntry s t run subjectIds image seq ∧ t.ledger = w.ledger ∧ t.prompts = w.prompts ∧
      t.observations = w.observations := by
  let row := w.opRow run (.applied subjectIds image (some seq))
  obtain ⟨w', hsome, hj'⟩ := journalOp_some w (.applied subjectIds image (some seq)) hf
  obtain ⟨ops, hins, rfl⟩ := Option.map_eq_some_iff.mp hsome
  rw [hj'] at hj
  cases hj
  have hfree : w.runOps.get? row.key = none := (Table.insert?_eq_some.mp hins).1
  have hget : ops.get? row.key = some row := by rw [Table.get?_insert? hins, if_pos rfl]
  exact ⟨⟨row, hops _ hfree, hget, rfl, rfl, rfl, rfl, rfl, rfl, rfl⟩, rfl, rfl, rfl⟩

/-! ### Observations -/

theorem stops_journalOpLocked (run : ℤ) (rec : OpRecord) : Stops (journalOpLocked run rec).run := by
  refine stops_bind stops_read fun s => ?_
  split
  · exact stops_pure _
  · exact stops_bind stops_read fun s => stops_bind (stops_exec _) fun _ => stops_pure _

theorem stops_anyForgotten (seqs : List ℤ) : Stops (anyForgotten seqs).run := by
  induction seqs with
  | nil => exact stops_pure _
  | cons seq seqs ih =>
    refine stops_bind stops_read fun s => ?_
    split
    · exact stops_pure _
    · exact ih

/-- The look over the cited sources. -/
theorem eval_anyForgotten (seqs : List ℤ) (s : Store) :
    (anyForgotten seqs).run.eval s = .ok (seqs.any s.sourceForgotten, s) := by
  induction seqs with
  | nil => rfl
  | cons seq seqs ih =>
    have hread : (anyForgotten (seq :: seqs)).run.eval s =
        (if s.sourceForgotten seq then pure true else anyForgotten seqs).run.eval s := rfl
    rw [hread, List.any_cons]
    cases s.sourceForgotten seq with
    | true => rfl
    | false =>
      rw [if_neg Bool.false_ne_true, ih, Bool.false_or]

theorem stops_insertObservationRow (h : Host) (now : ℤ) (node summary : String) (citeSeqs : List ℤ)
    (actor : String) (id : ℤ) : Stops (insertObservationRow h now node summary citeSeqs actor id).run :=
  stops_bind (stops_write _) fun _ => stops_bind (stops_append h.sha256 storeLedger _) fun _ =>
    stops_bind (stops_write _) fun _ => stops_pure _

theorem stops_insertObservationOn (h : Host) (now : ℤ) (node summary : String) (citeSeqs : List ℤ)
    (actor : String) : Stops (insertObservationOn h now node summary citeSeqs actor).run := by
  refine stops_bind stops_read fun s => ?_
  split
  · exact stops_pure _
  · refine stops_bind stops_read fun s => ?_
    split
    · exact stops_pure _
    · exact stops_insertObservationRow h now node summary citeSeqs actor _

theorem stops_insertClassObservationLocked (h : Host) (now : ℤ) (node summary : String)
    (citeSeqs : List ℤ) (actor : String) :
    Stops (insertClassObservationLocked h now node summary citeSeqs actor).run := by
  unfold insertClassObservationLocked
  split
  · exact stops_pure _
  · refine stops_bind (stops_anyForgotten citeSeqs) fun any => ?_
    split
    · exact stops_pure _
    · exact stops_insertObservationOn h now node summary citeSeqs actor

theorem stops_observeInRun (h : Host) (now run : ℤ) (node summary : String) (citeSeqs : List ℤ)
    (actor : String) : Stops (observeInRun h now run node summary citeSeqs actor).run := by
  refine stops_bind stops_read fun s => ?_
  split
  · exact stops_pure _
  · refine stops_bind (stops_insertClassObservationLocked h now node summary citeSeqs actor) fun row => ?_
    cases row with
    | none => exact stops_pure _
    | some id =>
      exact stops_bind stops_read fun s => stops_bind (stops_journalOpLocked run _) fun _ => stops_pure _

/-- The row and its event, statement by statement. -/
theorem eval_insertObservationRow (h : Host) (s : Store) (now : ℤ) (node summary : String)
    (citeSeqs : List ℤ) (actor : String) :
    let a := observationEvent h now node summary citeSeqs actor
    let id := s.observations.nextId
    (insertObservationRow h now node summary citeSeqs actor id).run.eval s = .ok (some id,
      { s.append h a with observations := s.observations.insert fun id =>
        ⟨id, node, summary, citeSeqs, some (s.appendedRow h a).seq, false, now, none, none, none⟩ }) := by
  intro a id
  let u : Store := { s with observations := s.observations.insert fun id =>
    ⟨id, node, summary, citeSeqs, none, false, now, none, none, none⟩ }
  have hevent : (onPart storeLedger (appendEvent h.sha256 a)).run.eval u =
      .ok (u.appendedRow h a, u.append h a) := eval_append h.sha256 storeLedger a u
  unfold insertObservationRow
  rw [eval_bind (stops_write _), eval_write]
  change ((onPart storeLedger (appendEvent h.sha256 a) >>= fun ev => write (fun s => { s with
    observations := s.observations.update (fun o => o.id = id) fun o =>
      { o with createdSeq := some ev.seq } }) >>= fun _ =>
        (pure (some id) : Attempt Store (Option ℤ)))).run.eval u = _
  rw [eval_bind (stops_append h.sha256 storeLedger a), hevent]
  change Except.ok (some id, { u.append h a with
    observations := u.observations.update (fun o => o.id = id) fun o =>
      { o with createdSeq := some (u.appendedRow h a).seq } }) = _
  have hrow : u.observations.update (fun o => o.id = id) (fun o =>
      { o with createdSeq := some (u.appendedRow h a).seq }) = s.observations.insert fun id =>
        ⟨id, node, summary, citeSeqs, some (s.appendedRow h a).seq, false, now, none, none, none⟩ :=
    AutoTable.update_insert fun _ => rfl
  rw [hrow]
  rfl

/-- **What an observation makes of the store**, statement by statement: what
`insert_class_observation` makes of it. -/
theorem eval_insertClassObservationLocked (h : Host) (s : Store) (now : ℤ) (node summary : String)
    (citeSeqs : List ℤ) (actor : String) :
    let out := s.insertClassObservation h now node summary citeSeqs actor
    (insertClassObservationLocked h now node summary citeSeqs actor).run.eval s = .ok (out.2, out.1) := by
  intro out
  unfold insertClassObservationLocked
  by_cases hblank : citeSeqs = [] ∨ trim summary = ""
  · have hout : out = (s, none) := if_pos (by simpa using .inl (.inl (.inl hblank)))
    rw [if_pos hblank, hout]
    rfl
  rw [if_neg hblank, eval_bind (stops_anyForgotten citeSeqs), eval_anyForgotten]
  change (if citeSeqs.any s.sourceForgotten = true then pure none else
    insertObservationOn h now node summary citeSeqs actor : Attempt Store (Option ℤ)).run.eval s = _
  by_cases hany : citeSeqs.any s.sourceForgotten = true
  · have hout : out = (s, none) := if_pos (by simpa using .inl (.inl (.inr (by simpa using hany))))
    rw [if_pos hany, hout]
    rfl
  rw [if_neg hany]
  change (if (!s.nodeExists node) = true then pure none else read >>= fun s =>
    if (!(s.observations.select fun o => o.nodeId = node && o.summary = summary).isEmpty) = true then pure none
    else insertObservationRow h now node summary citeSeqs actor s.observations.nextId :
      Attempt Store (Option ℤ)).run.eval s = _
  by_cases hnode : (!s.nodeExists node) = true
  · have hout : out = (s, none) := if_pos (by simpa using .inl (.inr (by simpa using hnode)))
    rw [if_pos hnode, hout]
    rfl
  rw [if_neg hnode]
  change (if (!(s.observations.select fun o => o.nodeId = node && o.summary = summary).isEmpty) = true
    then pure none
    else insertObservationRow h now node summary citeSeqs actor s.observations.nextId :
      Attempt Store (Option ℤ)).run.eval s = _
  by_cases hdup : (!(s.observations.select fun o => o.nodeId = node && o.summary = summary).isEmpty) = true
  · have hout : out = (s, none) := if_pos (by simpa using .inr (by simpa using hdup))
    rw [if_pos hdup, hout]
    rfl
  · have hout : out = _ := if_neg (by
      simp only [Bool.or_eq_true, decide_eq_true_eq, not_or]
      exact ⟨⟨⟨not_or.mp hblank, hany⟩, hnode⟩, hdup⟩)
    rw [if_neg hdup, hout]
    exact eval_insertObservationRow h s now node summary citeSeqs actor

theorem eval_journalOpLocked (w : Store) {run : ℤ} (rec : OpRecord)
    (hf : w.runSourceForgotten run = false) : ∃ w', w.journalOp run rec = .ok w' ∧
      (journalOpLocked run rec).run.eval w = .ok (w.nextOpIx run, w') := by
  obtain ⟨w', hins, hj⟩ := journalOp_some w rec hf
  refine ⟨w', hj, ?_⟩
  have hread : (journalOpLocked run rec).run.eval w = (if w.runSourceForgotten run = true then pure 0
      else journalNext run rec : Attempt Store ℤ).run.eval w := rfl
  rw [hread, if_neg (by rw [hf]; exact Bool.false_ne_true), journalNext, eval_bind stops_read, eval_read]
  dsimp only [Except.bind]
  rw [eval_bind (stops_exec _), eval_exec hins]
  rfl

theorem eval_journalObservation (node : String) {o : ObservationRow}
    (hrow : w.observations.get? o.id = some o) (hseq : o.createdSeq = some seq)
    (hf : w.runSourceForgotten run = false) :
    ∃ w', w.journalOp run (.applied [.obs o.id, .node node] (.observe o.id node seq) (some seq)) = .ok w' ∧
      (journalObservation run node (some o.id)).run.eval w = .ok (.commit (some o.id), w') := by
  obtain ⟨w', hj, heval⟩ := eval_journalOpLocked w
    (.applied [.obs o.id, .node node] (.observe o.id node seq) (some seq)) hf
  refine ⟨w', hj, ?_⟩
  have hcreated : (w.observations.get? o.id).bind ObservationRow.createdSeq = some seq := by
    rw [hrow, Option.bind_some, hseq]
  rw [journalObservation, eval_bind stops_read, eval_read]
  dsimp only [Except.bind]
  rw [hcreated, Option.getD_some, eval_bind (stops_journalOpLocked run _), heval]
  rfl

/-- Nothing of an observation that is skipped. -/
theorem insertClassObservation_cases (h : Host) (s : Store) (now : ℤ) (node summary : String)
    (citeSeqs : List ℤ) (actor : String) :
    let a := observationEvent h now node summary citeSeqs actor
    s.insertClassObservation h now node summary citeSeqs actor = (s, none) ∨
      s.insertClassObservation h now node summary citeSeqs actor =
        ({ s.append h a with observations := s.observations.insert fun id =>
          ⟨id, node, summary, citeSeqs, some (s.appendedRow h a).seq, false, now, none, none, none⟩ },
          some s.observations.nextId) := by
  unfold insertClassObservation
  split_ifs
  · exact .inl rfl
  · exact .inr rfl

/-- **What an observation under a run commits**: nothing, or its row, its event
and its entry. -/
theorem eval_observeInRun (h : Host) (s : Store) (now run : ℤ) (node summary : String)
    (citeSeqs : List ℤ) (actor : String) {r : Option ℤ}
    (heval : (observeInRun h now run node summary citeSeqs actor).run.eval s = .ok (.commit r, t)) :
    t = s ∨ ChangeJournaled s t run (.observe node summary citeSeqs actor) := by
  have hread : (observeInRun h now run node summary citeSeqs actor).run.eval s =
      (if s.runSourceForgotten run = true then pure (.drop none)
      else insertClassObservationLocked h now node summary citeSeqs actor >>= journalObservation run node :
        Attempt Store (Ending (Option ℤ))).run.eval s := rfl
  rw [hread] at heval
  cases hf : s.runSourceForgotten run with
  | true =>
    rw [if_pos hf] at heval
    cases heval
  | false =>
    rw [if_neg (by rw [hf]; exact Bool.false_ne_true),
      eval_bind (stops_insertClassObservationLocked h now node summary citeSeqs actor),
      eval_insertClassObservationLocked] at heval
    rcases insertClassObservation_cases h s now node summary citeSeqs actor with hout | hout
    · rw [hout] at heval
      cases heval
      exact .inl rfl
    · rw [hout] at heval
      let a := observationEvent h now node summary citeSeqs actor
      let o : ObservationRow := ⟨s.observations.nextId, node, summary, citeSeqs,
        some (s.appendedRow h a).seq, false, now, none, none, none⟩
      let w : Store := { s.append h a with
        observations := s.observations.insert fun id =>
          ⟨id, node, summary, citeSeqs, some (s.appendedRow h a).seq, false, now, none, none, none⟩ }
      have hrow : w.observations.get? o.id = some o := by
        change (s.observations.insert _).get? s.observations.nextId = _
        rw [AutoTable.get?_insert, if_pos rfl]
      have hforgotten : w.runSourceForgotten run = false := hf
      obtain ⟨w', hj, hjournal⟩ := eval_journalObservation node hrow rfl hforgotten
      have ht : t = w' := by
        have hboth := hjournal.symm.trans heval
        cases hboth
        rfl
      have hops : ∀ k, w.runOps.get? k = none → s.runOps.get? k = none := fun _ h => h
      obtain ⟨hentry, hledger, -, hobs⟩ := newEntry_journalOp hops hforgotten hj
      subst ht
      refine .inr ⟨o, (s.appendedRow h a).seq, s.observations.get?_nextId, ?_, rfl, rfl, rfl, rfl, ?_, hentry⟩
      · rw [hobs]
        exact hrow
      · obtain ⟨hnew, e, he, hkind⟩ := newEvent_append h (s := s) (t := s) rfl a
        refine ⟨hnew, e, ?_, hkind⟩
        unfold event? at he ⊢
        rw [hledger]
        exact he

/-! ### Every call -/

/-- The entry of a compaction is written: the run's source was not forgotten
and is not by this forget, and no statement of the journal fails. -/
def EntryGoes (s : Store) (run prompt : ℤ) (reason : String) (faults : ℕ → Fault) : Prop :=
  s.runSourceForgotten run = false ∧ ¬ (reason = "forget" ∧ s.Forgets run prompt) ∧
    ∀ i < 3, faults (4 + swapSteps reason + i) = .none

/-- A compaction's swap is not made in autocommit, and where it is committed
its entry is written. -/
def InRunCall.Meets (call : InRunCall) (s : Store) : Prop :=
  match call.change with
  | .compact prompt _ reason _ _ => ¬ SwapLoose s prompt reason call.faults ∧
      (SwapGoes s prompt reason call.faults → EntryGoes s call.run prompt reason call.faults)
  | .observe .. => True

/-- A journal without new entries undoes nothing new. -/
theorem not_changeJournaled (hops : ∀ k, t.runOps.get? k = none ↔ s.runOps.get? k = none)
    (run : ℤ) (change : RunChange) : ¬ ChangeJournaled s t run change := by
  have hno {subjectIds : List Subject} {image : Image} {seq : ℤ} :
      ¬ NewEntry s t run subjectIds image seq := by
    rintro ⟨o, hold, hnew, -⟩
    rw [(hops _).mpr hold] at hnew
    cases hnew
  intro hmade
  cases change with
  | compact prompt gist reason gistSource actor =>
    obtain ⟨_, _, -, -, -, -, hentry⟩ := hmade
    exact hno hentry
  | observe node summary citeSeqs actor =>
    obtain ⟨_, _, -, -, -, -, -, -, -, hentry⟩ := hmade
    exact hno hentry

theorem SwapGoes.not_loose {faults : ℕ → Fault} (hgoes : SwapGoes s prompt reason faults) :
    ¬ SwapLoose s prompt reason faults := by
  rintro ⟨-, hcold, haborted, -⟩
  have harchive := hgoes.2.1
  rw [ArchiveGoes, if_pos hcold] at harchive
  exact harchive haborted

/-- The run's source is not forgotten after the swap. -/
theorem Store.Swapped.runs_false (hswapped : Swapped s w prompt gist reason seq) :
    w.runSourceForgotten run = false ↔
      s.runSourceForgotten run = false ∧ ¬ (reason = "forget" ∧ s.Forgets run prompt) := by
  rw [← Bool.not_eq_true, hswapped.runs run, not_or, Bool.not_eq_true]

/-- A compaction under a run. -/
theorem compact_together_iff (h : Host) (faults : ℕ → Fault) (s : Store) (v : ℕ) (now run prompt : ℤ)
    (gist reason gistSource actor : String) :
    let call : InRunCall := ⟨run, now, .compact prompt gist reason gistSource actor, faults⟩
    call.Together s (call.leaves h s v) ↔ call.Meets s := by
  intro call
  let locked := compactPromptBodyLocked h now prompt gist reason gistSource actor
  have hleaves : call.leaves h s v = ((locked >>= journalCompaction run prompt).run.run
    (Turn.alone faults) 0 (Conn.idle s v)).2.1.committed := rfl
  rcases run_compactPromptBodyLocked h faults s v now prompt gist reason gistSource actor with
    ⟨hgoes, w, seq, hswapped, hrun⟩ | ⟨hloose, e, c, m, hne, hops, hrun⟩ |
      ⟨hgoes, hloose, r, c, m, hr, hc, hrun⟩
  · -- the swap is committed, and the journal's statements follow
    have hmeets : call.Meets s ↔ EntryGoes s run prompt reason faults :=
      ⟨fun h => h.2 hgoes, fun h => ⟨hgoes.not_loose, fun _ => h⟩⟩
    let entry := compactionRecord prompt seq
    have hjournal : call.leaves h s v = ((journalOpLocked run entry >>= fun _ =>
        (pure (some seq) : Attempt Store (Option ℤ))).run.run (Turn.alone faults)
          (4 + swapSteps reason) (Conn.idle w (v + 1))).2.1.committed := by
      rw [hleaves, run_bind_ok hrun]
      rfl
    rw [hmeets]
    rcases run_journalOpLocked faults (4 + swapSteps reason) w (v + 1) run entry with
      ⟨hf, hall, ix, w', m, hj, hentry⟩ | ⟨hno, r, m, hentry⟩
    · rw [run_bind_ok hentry] at hjournal
      have hleft : call.leaves h s v = w' := hjournal
      obtain ⟨hmark, hledger, hprompts, -⟩ := newEntry_journalOp (fun k => (hswapped.ops k).mp) hf hj
      obtain ⟨hfree, hnot⟩ := hswapped.runs_false.mp hf
      refine ⟨fun _ => ⟨hfree, hnot, hall⟩, fun _ => .inr ?_⟩
      rw [hleft]
      obtain ⟨q, hq, hgist, hbody⟩ := hswapped.body
      obtain ⟨hnew, e, he, hkind⟩ := hswapped.event
      refine ⟨q, seq, hprompts ▸ hq, hgist, hbody, ⟨hnew, e, ?_, hkind⟩, hmark⟩
      unfold event? at he ⊢
      rw [hledger]
      exact he
    · have hleft : call.leaves h s v = w := by
        rw [hjournal]
        cases r with
        | ok ix => rw [run_bind_ok hentry]; rfl
        | error e => rw [run_bind_error hentry]; rfl
      refine ⟨fun htogether => ?_, fun hgoes => absurd ?_ hno⟩
      · rw [hleft] at htogether
        rcases htogether with hsame | hmade
        · obtain ⟨hnew, e, he, -⟩ := hswapped.event
          rw [hsame, hnew] at he
          cases he
        · exact absurd hmade (not_changeJournaled hswapped.ops run _)
      · exact ⟨hswapped.runs_false.mpr ⟨hgoes.1, hgoes.2.1⟩, hgoes.2.2⟩
  · rw [run_bind_error hrun] at hleaves
    refine ⟨fun htogether => ?_, fun hmeets => absurd hloose hmeets.1⟩
    rw [hleaves] at htogether
    rcases htogether with hsame | hmade
    · exact absurd hsame hne
    · exact absurd hmade (not_changeJournaled (fun k => by rw [hops]) run _)
  · have hsame : call.leaves h s v = s := by
      rw [hleaves]
      rcases hr with rfl | ⟨e, rfl⟩
      · rw [run_bind_ok hrun]
        exact hc
      · rw [run_bind_error hrun]
        exact hc
    exact ⟨fun _ => ⟨hloose, fun h => absurd h hgoes⟩, fun _ => .inl hsame⟩

/-- **A change under a run and its journal entry are there together, or
neither**, if and only if the call meets its condition: an observation always;
a compaction where its swap is not made in autocommit and, where the swap is
committed, the run's source is not forgotten and the journal's statements go
through. -/
theorem inRun_together_iff (h : Host) (call : InRunCall) (s : Store) (v : ℕ) :
    call.Together s (call.leaves h s v) ↔ call.Meets s := by
  obtain ⟨run, now, change, faults⟩ := call
  cases change with
  | compact prompt gist reason gistSource actor =>
    exact compact_together_iff h faults s v now run prompt gist reason gistSource actor
  | observe node summary citeSeqs actor =>
    refine iff_of_true ?_ trivial
    let call : InRunCall := ⟨run, now, .observe node summary citeSeqs actor, faults⟩
    have hleaves : call.leaves h s v = ((transaction (observeInRun h now run node summary citeSeqs
      actor).run).run (Turn.alone faults) 0 (Conn.idle s v)).2.1.committed := rfl
    rcases run_transaction (stops_observeInRun h now run node summary citeSeqs actor) faults s v 0 with
      ⟨r, t, m, heval, hrun⟩ | ⟨r, m, hrun⟩
    · rw [hrun] at hleaves
      have hmade := eval_observeInRun h s now run node summary citeSeqs actor heval
      rw [InRunCall.Together, hleaves]
      exact hmade
    · rw [hrun] at hleaves
      exact .inl hleaves

/-! ### A compaction without its entry -/

/-- A warm prompt, and a run whose source was forgotten. -/
def coldUnderForgotten : Store :=
  { Store.empty with
    prompts := (∅ : Table PromptRow.id).upsert ⟨1, 10, none, none, none, none, none, none, none, "words",
      "words", none, none, none, none, none⟩
    runs := (∅ : AutoTable RunRow.id).insert fun id => ⟨id, 20, .running, none, none, none, none, none,
      none, .compaction, some 30⟩ }

/-- The prompt compacted under the run, nothing failing. -/
def compactCold : InRunCall := ⟨1, 40, .compact 1 "gist" "cold" "agent" "keeper", fun _ => .none⟩

/-- The body is gone, and the journal has no entry. -/
theorem compactCold_not_together :
    ¬ compactCold.Together coldUnderForgotten (compactCold.leaves Host.plain coldUnderForgotten 0) := by
  have hnone : (compactCold.leaves Host.plain coldUnderForgotten 0).runOps.rows = [] := rfl
  rintro (hsame | ⟨_, _, -, -, -, -, o, -, hnew, -⟩)
  · have hlen := congrArg (fun s : Store => s.ledger.rows.length) hsame
    revert hlen
    decide
  · have hmem := (Table.get?_eq_some.mp hnew).1
    rw [hnone] at hmem
    exact absurd hmem List.not_mem_nil

end PolisMemory
