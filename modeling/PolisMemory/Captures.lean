/-
# A capture and its event

A prompt's row and its event are committed together or not at all. A page's or
a link's row is committed by its own `INSERT`; an event that then fails leaves
it without one, and as the row is there the capture is not made again. In a
history of calls every failing call leaves the store as it was, every row has
its event and every failing call goes through when it is tried again, if and
only if no statement after such an `INSERT` fails (`captures_atomic_iff`).

Key definitions: `CaptureCall`, `CaptureCall.Atomic`, `CaptureCall.Meets`.
Key theorems: `eval_recordPromptLocked`, `run_appendFor`, `CaptureCall.cases`,
`captures_atomic_iff`.
-/
import PolisMemory.Capture

namespace PolisMemory

open Sqlite Sqlite.Prog Sqlite.Prog.Turn Sqlite.Conn Tables Attempt

variable (sha256 : String → String)

/-! ### The events of rows that are inserted -/

/-- The event of a row that was inserted. -/
theorem run_appendFor (faults : ℕ → Fault) (n : ℕ) (s : CaptureStore) (v : ℕ)
    (append : ℤ → LedgerAppend) (id : ℤ) :
    (AppendGoes (fun m => faults (m + n)) ∧
        ∃ r m, (appendFor sha256 append (some id)).run.run (Turn.alone faults) n (Conn.idle s v) =
          (.ok r, Conn.idle { s with ledger := appended sha256 s.ledger (append id) } (v + 1), m)) ∨
      (¬ AppendGoes (fun m => faults (m + n)) ∧
        ∃ e c m, (appendFor sha256 append (some id)).run.run (Turn.alone faults) n (Conn.idle s v) =
          (.error e, c, m) ∧ c.committed = s) := by
  have hbind : (appendFor sha256 append (some id)).run = Prog.bind (onPart ledgerPart
      (appendEvent sha256 (append id))).run (orStop fun ev => ret (.ok (some ev.seq))) := bind_run _ _
  rw [hbind, run_bind]
  rcases run_append sha256 ledgerPart faults n s v (append id) with ⟨hgoes, m, h⟩ | ⟨hgoes, e, c, m, h, hc⟩
  · rw [h]
    exact .inl ⟨hgoes, _, _, rfl⟩
  · rw [h]
    exact .inr ⟨hgoes, e, c, _, rfl, hc⟩

/-- The look lets the decision's event be found, or appended. -/
def DecisionGoes (t : LedgerTable) (k : DecisionKey) (faults : ℕ → Fault) : Prop :=
  faults 0 = .none ∧ (eventsOf t k = [] → AppendGoes fun m => faults (m + 1))

/-- A decision recorded in autocommit: its event is there afterwards, or there
is an error and nothing is committed. -/
theorem run_recordDecision (faults : ℕ → Fault) (t : LedgerTable) (v : ℕ) (storeAuthor : String)
    (now : ℤ) (d : DecisionInput) :
    let out := (recordDecision sha256 storeAuthor now d).run (Turn.alone faults) 0 (Conn.idle t v)
    (DecisionGoes t d.key faults ∧ (∃ r, out.1 = .ok r) ∧ ∃ t' v', out.2.1 = Conn.idle t' v' ∧
        t.rows <+: t'.rows ∧ eventsOf t' d.key ≠ []) ∨
      (¬ DecisionGoes t d.key faults ∧ (∃ e, out.1 = .error e) ∧ out.2.1.committed = t) := by
  simp only [recordDecision, decisionEventExists, bind_eq, select_bind, Prog.bind, Prog.run]
  cases hf : faults 0 with
  | refused e =>
    have hnot : ¬ DecisionGoes t d.key faults := fun h =>
      Fault.refused_ne_none e (hf.symm.trans h.1)
    refine .inr ⟨hnot, ?_⟩
    simp [Turn.alone, hf, Turn.before, Conn.idle, Conn.query, Prog.bind, Prog.run]
  | aborted =>
    have hnot : ¬ DecisionGoes t d.key faults := fun h =>
      Fault.aborted_ne_none (hf.symm.trans h.1)
    refine .inr ⟨hnot, ?_⟩
    simp [Turn.alone, hf, Turn.before, Conn.idle, Conn.query, Prog.bind, Prog.run]
  | none =>
    have hquery : ((Turn.alone faults 0).before (Conn.idle t v)).query
        (Turn.alone faults 0 : Turn LedgerTable).fault = (Conn.idle t v, .ok t) := by
      simp [Turn.alone, hf, Turn.before, Conn.idle, Conn.query, Conn.sees]
    rw [hquery]
    by_cases hthere : 0 < (eventsOf t d.key).length
    · have hne := List.ne_nil_of_length_pos hthere
      simp only [pure_eq, Prog.bind, decide_eq_true hthere, Prog.run]
      exact .inl ⟨⟨hf, fun h => absurd h hne⟩, ⟨_, rfl⟩, t, v, rfl, List.prefix_rfl, hne⟩
    · have hnil : eventsOf t d.key = [] :=
        List.eq_nil_of_length_eq_zero (Nat.eq_zero_of_not_pos hthere)
      have hshift := run_shift (Turn.alone faults) 1 (appendEvent sha256 (d.append storeAuthor now)) 0
        (Conn.idle t v)
      have hidle := run_appendEvent_idle sha256 (fun m => faults (m + 1)) t v (d.append storeAuthor now)
      have halone : (PolisMemory.alone fun m => faults (m + 1)) = fun m => Turn.alone faults (m + 1) :=
        rfl
      have hconn : PolisMemory.idle t v = Conn.idle t v := rfl
      rw [halone, hconn] at hidle
      simp only [pure_eq, Prog.bind, decide_eq_false hthere, run_bind]
      rw [hshift]
      dsimp only at hidle ⊢
      generalize (appendEvent sha256 (d.append storeAuthor now)).run
        (fun m => Turn.alone faults (m + 1)) 0 (Conn.idle t v) = out at hidle ⊢
      obtain ⟨r, c, m⟩ := out
      rcases hidle with ⟨hgoes, hr, hc⟩ | ⟨hgoes, ⟨e, hr⟩, hc⟩
      · dsimp only at hr hc
        rw [hr, hc]
        have hrows := rows_appended sha256 t (d.append storeAuthor now)
        refine .inl ⟨⟨hf, fun _ => hgoes⟩, ⟨_, rfl⟩, _, _, rfl, hrows ▸ List.prefix_append _ _, ?_⟩
        exact eventsOf_ne_nil_of_names hrows ((appends_append d storeAuthor now).names sha256 t.last)
      · dsimp only at hr hc
        rw [hr]
        exact .inr ⟨fun h => hgoes (h.2 hnil), ⟨e, rfl⟩, hc⟩

/-- The decision of a link that was inserted. -/
theorem run_decisionFor (faults : ℕ → Fault) (n : ℕ) (s : CaptureStore) (v : ℕ)
    (storeAuthor : String) (now : ℤ) (l : SessionLink) (id : ℤ) :
    let k := (l.decision sha256 id).key
    (DecisionGoes s.ledger k (fun m => faults (m + n)) ∧
        ∃ r t' v' m, (decisionFor sha256 storeAuthor now l (some id)).run.run (Turn.alone faults) n
            (Conn.idle s v) = (.ok r, Conn.idle { s with ledger := t' } v', m) ∧
          s.ledger.rows <+: t'.rows ∧ eventsOf t' k ≠ []) ∨
      (¬ DecisionGoes s.ledger k (fun m => faults (m + n)) ∧
        ∃ e c m, (decisionFor sha256 storeAuthor now l (some id)).run.run (Turn.alone faults) n
          (Conn.idle s v) = (.error e, c, m) ∧ c.committed = s) := by
  have hshift := run_shift (Turn.alone faults) n
    (recordDecision sha256 storeAuthor now (l.decision sha256 id)) 0 (Conn.idle s.ledger v)
  rw [Nat.zero_add] at hshift
  have hrun := run_recordDecision sha256 (fun m => faults (m + n)) s.ledger v storeAuthor now
    (l.decision sha256 id)
  have halone : (Turn.alone fun m => faults (m + n) : ℕ → Turn LedgerTable) =
    fun m => Turn.alone faults (m + n) := rfl
  rw [halone] at hrun
  have hon : (decisionFor sha256 storeAuthor now l (some id)).run.run (Turn.alone faults) n
      (Conn.idle s v) =
        let out := Prog.run (Turn.alone faults) n
          (recordDecision sha256 storeAuthor now (l.decision sha256 id)) (Conn.idle s.ledger v)
        (out.1, ledgerPart.conn s out.2.1, out.2.2) := run_onPart ledgerPart faults _ n s v
  rw [hon, hshift]
  dsimp only at hrun ⊢
  generalize (recordDecision sha256 storeAuthor now (l.decision sha256 id)).run
    (fun m => Turn.alone faults (m + n)) 0 (Conn.idle s.ledger v) = out at hrun ⊢
  obtain ⟨r, c, m⟩ := out
  rcases hrun with ⟨hgoes, ⟨r', hr⟩, t', v', hc, hgrown, hthere⟩ | ⟨hgoes, ⟨e, hr⟩, hc⟩
  · dsimp only at hr hc
    rw [hr, hc]
    exact .inl ⟨hgoes, r', t', v', m + n, rfl, hgrown, hthere⟩
  · dsimp only at hr hc
    rw [hr]
    refine .inr ⟨hgoes, e, ledgerPart.conn s c, m + n, rfl, ?_⟩
    change { s with ledger := c.committed } = s
    rw [hc]

/-! ### Prompts -/

variable {s s' : CaptureStore}

theorem reads_resolveAuthorLocked (author : String) : Reads (resolveAuthorLocked author) :=
  .bind .read fun _ => .pure _

theorem reads_getPrincipalLocked (id : String) : Reads (getPrincipalLocked id) :=
  .bind .read fun _ => .pure _

theorem reads_scopeIdsOf (p : Principal) : Reads (scopeIdsOf p) := by
  unfold scopeIdsOf
  cases p.kind with
  | human => exact .pure _
  | org => exact .pure _
  | device => exact .pure _
  | agent =>
    refine .bind ?_ fun _ => .pure _
    cases p.parentId with
    | none => exact .pure _
    | some device => exact .bind (reads_getPrincipalLocked device) fun _ => .pure _

theorem reads_scopeIdsForAuthorLocked (author : String) : Reads (scopeIdsForAuthorLocked author) := by
  refine .bind (reads_resolveAuthorLocked author) fun id => ?_
  cases id with
  | none => exact .pure _
  | some id =>
    refine .bind (reads_getPrincipalLocked id) fun p => ?_
    cases p with
    | none => exact .pure _
    | some p => exact reads_scopeIdsOf p

theorem reads_resolveAgent (id : Option String) : Reads (resolveAgent id) := by
  cases id with
  | none => exact .pure _
  | some id => exact .bind (reads_resolveAuthorLocked id) fun _ => .pure _

theorem stops_insertPromptRow (mk : ℤ → CapturedPrompt) (hmk : ∀ n, (mk n).id = n) :
    Stops (insertPromptRow mk hmk).run := by
  refine stops_bind stops_read fun s => ?_
  split
  · exact stops_pure _
  · exact stops_bind (stops_write _) fun _ => stops_pure _

theorem stops_appendFor (append : ℤ → LedgerAppend) (id : Option ℤ) :
    Stops (appendFor sha256 append id).run := by
  cases id with
  | none => exact stops_pure _
  | some id =>
    exact stops_bind (stops_append sha256 ledgerPart (append id)) fun _ => stops_pure _

theorem stops_insertPromptScopedLocked (input : PromptInput) (ts : ℤ) (ids : ScopeIds)
    (scope : ScopeFilter) : Stops (insertPromptScopedLocked sha256 input ts ids scope).run :=
  stops_bind (reads_resolveAgent _).stops fun _ => stops_insertPromptRow _ _

theorem stops_recordPromptLocked (input : PromptInput) (ts : ℤ) (author : String)
    (scope : ScopeFilter) : Stops (recordPromptLocked sha256 input ts author scope).run :=
  stops_bind (reads_scopeIdsForAuthorLocked author).stops fun ids =>
    stops_bind (stops_insertPromptScopedLocked sha256 input ts ids scope) fun _ =>
      stops_appendFor sha256 _ _

theorem eval_insertPromptRow (mk : ℤ → CapturedPrompt) (hmk : ∀ n, (mk n).id = n) (s : CaptureStore) :
    (insertPromptRow mk hmk).run.eval s =
      if s.promptIsDuplicate (mk s.prompts.nextId) then .ok (none, s)
      else .ok (some s.prompts.nextId, { s with prompts := s.prompts.insert mk hmk }) := by
  rw [insertPromptRow, eval_bind stops_read]
  change (if _ then pure none else _ : Attempt CaptureStore (Option ℤ)).run.eval s = _
  split_ifs
  · rfl
  · rw [eval_bind (stops_write _)]
    rfl

theorem eval_appendFor (append : ℤ → LedgerAppend) (id : ℤ) (s : CaptureStore) :
    ∃ seq, (appendFor sha256 append (some id)).run.eval s =
      .ok (some seq, { s with ledger := appended sha256 s.ledger (append id) }) := by
  refine ⟨(successor sha256 s.ledger.last (append id)).seq, ?_⟩
  rw [appendFor, eval_bind (stops_append sha256 ledgerPart (append id)), eval_append]
  rfl

/-- **What recording a prompt makes of the store**: nothing of one that is
there, else its row with its event. -/
theorem eval_recordPromptLocked (input : PromptInput) (ts : ℤ) (author : String) (scope : ScopeFilter)
    (s : CaptureStore) : ∃ ids agent,
      let mk := promptRow sha256 input ts scope ids agent
      let out := (recordPromptLocked sha256 input ts author scope).run.eval s
      (s.promptIsDuplicate (mk s.prompts.nextId) = true ∧ out = .ok (none, s)) ∨
        ∃ seq, out = .ok (some seq, { s with
          prompts := s.prompts.insert mk (id_promptRow sha256 input ts scope ids agent)
          ledger := appended sha256 s.ledger (promptAppend sha256 input ts author s.prompts.nextId) }) := by
  obtain ⟨ids, hids⟩ := (reads_scopeIdsForAuthorLocked author).eval s
  obtain ⟨agent, hagent⟩ := (reads_resolveAgent (ids.agentId.or scope.agent)).eval s
  refine ⟨ids, agent, ?_⟩
  have hinsert : (insertPromptScopedLocked sha256 input ts ids scope).run.eval s =
      (insertPromptRow (promptRow sha256 input ts scope ids agent)
        (id_promptRow sha256 input ts scope ids agent)).run.eval s := by
    rw [insertPromptScopedLocked, eval_bind (reads_resolveAgent _).stops, hagent]
    rfl
  have hbody : (recordPromptLocked sha256 input ts author scope).run.eval s =
      ((insertPromptRow (promptRow sha256 input ts scope ids agent)
        (id_promptRow sha256 input ts scope ids agent)).run.eval s).bind fun out =>
          (appendFor sha256 (promptAppend sha256 input ts author) out.1).run.eval out.2 := by
    rw [recordPromptLocked, eval_bind (reads_scopeIdsForAuthorLocked author).stops, hids]
    change (insertPromptScopedLocked sha256 input ts ids scope >>= _).run.eval s = _
    rw [eval_bind (stops_insertPromptScopedLocked sha256 input ts ids scope), hinsert]
  dsimp only
  rw [hbody, eval_insertPromptRow]
  split_ifs with hdup
  · exact .inl ⟨hdup, rfl⟩
  · obtain ⟨seq, hseq⟩ := eval_appendFor sha256 (promptAppend sha256 input ts author)
      s.prompts.nextId { s with
        prompts := s.prompts.insert (promptRow sha256 input ts scope ids agent)
          (id_promptRow sha256 input ts scope ids agent) }
    exact .inr ⟨seq, hseq⟩

/-! ### Calls -/

/-- What a recorder is asked to capture. -/
inductive Capture where
  | prompt (input : PromptInput) (ts : ℤ) (scope : ScopeFilter)
  | browse (input : BrowseEventInput) (ts : ℤ)
  | link (l : SessionLink) (createdAt now : ℤ)

/-- The recorder. -/
def Capture.prog (storeAuthor : String) : Capture → Prog CaptureStore (Except Error (Option ℤ))
  | .prompt input ts scope => recordPromptAtScoped sha256 storeAuthor input ts scope
  | .browse input ts => (recordBrowseEventAt sha256 storeAuthor input ts).run
  | .link l createdAt now => (recordSessionLink sha256 storeAuthor l createdAt now).run

/-- The capture has its row, with its event; a link without both ids has
nothing to capture. -/
def Captured (s : CaptureStore) : Capture → Prop
  | .prompt input _ scope => ∃ p ∈ s.prompts.rows, p.bodyHash = sha256 input.body ∧
      p.claudeSessionId = input.claudeSessionId.or scope.run ∧ ∃ e ∈ s.ledger.rows, isPromptEvent p e
  | .browse input _ => ∃ b ∈ s.browseEvents.rows, b.browseId = input.browseId ∧
      b.contextHash = sha256 input.text ∧ ∃ e ∈ s.ledger.rows, isBrowseEvent b e
  | .link l _ _ => trim l.childId = "" ∨ trim l.parentId = "" ∨ ∃ r ∈ s.sessionTree.rows,
      r.child = (l.childKind, l.childId) ∧ ∃ e ∈ s.ledger.rows, isLinkEvent sha256 r e

/-- A call of a recorder, and what befalls its statements. -/
structure CaptureCall where
  storeAuthor : String
  capture : Capture
  faults : ℕ → Fault

/-- A call's result and the connection after it. -/
def CaptureCall.run (call : CaptureCall) (c : Conn CaptureStore) :
    Except Error (Option ℤ) × Conn CaptureStore :=
  let out := (call.capture.prog sha256 call.storeAuthor).run (Turn.alone call.faults) 0 c
  (out.1, out.2.1)

/-- The same call again, every statement let through. -/
def CaptureCall.retry (call : CaptureCall) : CaptureCall := { call with faults := fun _ => .none }

/-- Once the row of a page or a link is inserted, no statement of its event
fails. -/
def CaptureCall.Meets (call : CaptureCall) (s : CaptureStore) : Prop :=
  match call.capture with
  | .prompt .. => True
  | .browse input _ =>
    s.lastContextHash input.browseId ≠ some (sha256 input.text) → call.faults 0 = .none →
      call.faults 1 = .none → AppendGoes fun m => call.faults (m + 2)
  | .link l _ _ =>
    ¬ (trim l.childId = "" ∨ trim l.parentId = "") → s.hasParent l = false →
      call.faults 0 = .none → call.faults 1 = .none →
      DecisionGoes s.ledger (l.decision sha256 s.sessionTree.nextId).key fun m => call.faults (m + 2)

/-- What must hold of a call: if it returns an error the store is as it was,
and trying again makes the capture; every row has its event. -/
structure CaptureCall.Atomic (call : CaptureCall) (c : Conn CaptureStore) : Prop where
  unchanged : ∀ e, (call.run sha256 c).1 = .error e →
    (call.run sha256 c).2.committed = c.committed ∧ (call.run sha256 c).2.isAuto = true
  evented : Evented sha256 (call.run sha256 c).2.committed
  retried : ∀ e, (call.run sha256 c).1 = .error e →
    let again := call.retry.run sha256 (call.run sha256 c).2
    (∃ r, again.1 = .ok r) ∧ Captured sha256 again.2.committed call.capture

/-- It holds of every call of a history. -/
def CapturesAtomic : List CaptureCall → Conn CaptureStore → Prop
  | [], _ => True
  | call :: calls, c => call.Atomic sha256 c ∧ CapturesAtomic calls (call.run sha256 c).2

/-- Every call of a history meets the condition. -/
def CapturesMeet : List CaptureCall → Conn CaptureStore → Prop
  | [], _ => True
  | call :: calls, c => call.Meets sha256 c.committed ∧ CapturesMeet calls (call.run sha256 c).2

/-- The call goes through, its capture made and every row with its event, or a
statement fails and the store is as it was. -/
def Goes (p : Prog CaptureStore (Except Error (Option ℤ))) (faults : ℕ → Fault) (s : CaptureStore)
    (v : ℕ) (made : CaptureStore → Prop) : Prop :=
  (∃ r s' v' m, p.run (Turn.alone faults) 0 (Conn.idle s v) = (.ok r, Conn.idle s' v', m) ∧
      Evented sha256 s' ∧ made s') ∨
    ((∃ n, faults n ≠ .none) ∧
      ∃ e m, p.run (Turn.alone faults) 0 (Conn.idle s v) = (.error e, Conn.idle s v, m))

/-- The call leaves a row that it inserted without its event. -/
def Leaves (p : Prog CaptureStore (Except Error (Option ℤ))) (faults : ℕ → Fault) (s : CaptureStore)
    (v : ℕ) : Prop :=
  ∃ e c m, p.run (Turn.alone faults) 0 (Conn.idle s v) = (.error e, c, m) ∧ c.committed ≠ s

variable {sha256}

theorem evented_prompt (hs : Evented sha256 s) (input : PromptInput) (ts : ℤ) (author : String)
    (scope : ScopeFilter) (ids : ScopeIds) (agent : Option String) :
    let s' := { s with
      prompts := s.prompts.insert (promptRow sha256 input ts scope ids agent)
        (id_promptRow sha256 input ts scope ids agent)
      ledger := appended sha256 s.ledger (promptAppend sha256 input ts author s.prompts.nextId) }
    Evented sha256 s' ∧ Captured sha256 s' (.prompt input ts scope) := by
  have hrows := rows_appended sha256 s.ledger (promptAppend sha256 input ts author s.prompts.nextId)
  have hgrown : s.ledger.rows <+: (appended sha256 s.ledger
      (promptAppend sha256 input ts author s.prompts.nextId)).rows := hrows ▸ List.prefix_append _ _
  have hevent : ∃ e ∈ (appended sha256 s.ledger
      (promptAppend sha256 input ts author s.prompts.nextId)).rows,
      isPromptEvent (promptRow sha256 input ts scope ids agent s.prompts.nextId) e := by
    rw [hrows]
    exact ⟨_, List.mem_append_right _ (List.mem_singleton_self _), rfl, rfl, rfl⟩
  intro s'
  constructor
  · refine ⟨fun p hp => ?_, fun b hb => ?_, fun r hr => ?_⟩
    · rcases List.mem_append.mp hp with hp | hp
      · obtain ⟨e, he, hev⟩ := hs.prompts p hp
        exact ⟨e, hgrown.subset he, hev⟩
      · rw [List.mem_singleton.mp hp]
        exact hevent
    · obtain ⟨e, he, hev⟩ := hs.browseEvents b hb
      exact ⟨e, hgrown.subset he, hev⟩
    · obtain ⟨e, he, hev⟩ := hs.sessionTree r hr
      exact ⟨e, hgrown.subset he, hev⟩
  · exact ⟨_, List.mem_append_right _ (List.mem_singleton_self _), rfl, rfl, hevent⟩

theorem goes_prompt (hs : Evented sha256 s) (faults : ℕ → Fault) (v : ℕ) (storeAuthor : String)
    (input : PromptInput) (ts : ℤ) (scope : ScopeFilter) :
    Goes sha256 (recordPromptAtScoped sha256 storeAuthor input ts scope) faults s v
      fun s' => Captured sha256 s' (.prompt input ts scope) := by
  have hstops := stops_recordPromptLocked sha256 input ts (input.author.getD storeAuthor) scope
  obtain ⟨ids, agent, heval⟩ := eval_recordPromptLocked sha256 input ts
    (input.author.getD storeAuthor) scope s
  have hgood : ∃ r s', (recordPromptLocked sha256 input ts (input.author.getD storeAuthor) scope).run.eval s =
      .ok (r, s') ∧ Evented sha256 s' ∧ Captured sha256 s' (.prompt input ts scope) := by
    rcases heval with ⟨hdup, h⟩ | ⟨seq, h⟩
    · refine ⟨none, s, h, hs, ?_⟩
      -- the row it duplicates has its event
      have hany := ((Bool.and_eq_true _ _).mp hdup).2
      obtain ⟨p, hp, hsame⟩ := List.any_eq_true.mp hany
      have hsame := of_decide_eq_true hsame
      exact ⟨p, hp, hsame.1, hsame.2.1, hs.prompts p hp⟩
    · exact ⟨some seq, _, h, evented_prompt hs input ts _ scope ids agent⟩
  obtain ⟨r, s', hok, hev, hmade⟩ := hgood
  have hauto : (recordPromptAtScoped sha256 storeAuthor input ts scope).run (Turn.alone faults) 0
      (Conn.idle s v) = (immediate (recordPromptLocked sha256 input ts (input.author.getD storeAuthor)
        scope).run).run (Turn.alone faults) 0 (Conn.idle s v) := rfl
  rw [Goes, hauto]
  rcases run_immediate hstops faults s v 0 with ⟨r', s'', m, hok', hrun⟩ | ⟨e, m, hrun⟩
  · rw [hok] at hok'
    cases hok'
    exact .inl ⟨r, s', v + 1, m, hrun, hev, hmade⟩
  · refine .inr ⟨?_, e, m, hrun⟩
    by_contra hquiet
    push Not at hquiet
    obtain ⟨m', hrun'⟩ := run_immediate_quiet hstops hok v 0
    rw [funext hquiet, hrun'] at hrun
    cases hrun

theorem evented_browse (hs : Evented sha256 s) (input : BrowseEventInput) (ts : ℤ) (author : String) :
    let s' := { s with
      browseEvents := s.browseEvents.insert (browseEventRow sha256 input ts)
        (id_browseEventRow sha256 input ts)
      ledger := appended sha256 s.ledger (browseAppend sha256 input ts author s.browseEvents.nextId) }
    Evented sha256 s' ∧ Captured sha256 s' (.browse input ts) := by
  have hrows := rows_appended sha256 s.ledger (browseAppend sha256 input ts author s.browseEvents.nextId)
  have hgrown : s.ledger.rows <+: (appended sha256 s.ledger
      (browseAppend sha256 input ts author s.browseEvents.nextId)).rows := hrows ▸ List.prefix_append _ _
  have hevent : ∃ e ∈ (appended sha256 s.ledger
      (browseAppend sha256 input ts author s.browseEvents.nextId)).rows,
      isBrowseEvent (browseEventRow sha256 input ts s.browseEvents.nextId) e := by
    rw [hrows]
    exact ⟨_, List.mem_append_right _ (List.mem_singleton_self _), rfl, rfl, rfl, rfl⟩
  intro s'
  constructor
  · refine ⟨fun p hp => ?_, fun b hb => ?_, fun r hr => ?_⟩
    · obtain ⟨e, he, hev⟩ := hs.prompts p hp
      exact ⟨e, hgrown.subset he, hev⟩
    · rcases List.mem_append.mp hb with hb | hb
      · obtain ⟨e, he, hev⟩ := hs.browseEvents b hb
        exact ⟨e, hgrown.subset he, hev⟩
      · rw [List.mem_singleton.mp hb]
        exact hevent
    · obtain ⟨e, he, hev⟩ := hs.sessionTree r hr
      exact ⟨e, hgrown.subset he, hev⟩
  · exact ⟨_, List.mem_append_right _ (List.mem_singleton_self _), rfl, rfl, hevent⟩

/-- A page: the call meets the condition and goes through or leaves the store,
or it does not and leaves the page without its event. -/
theorem browse_cases (hs : Evented sha256 s) (faults : ℕ → Fault) (v : ℕ) (storeAuthor : String)
    (input : BrowseEventInput) (ts : ℤ) :
    let call : CaptureCall := ⟨storeAuthor, .browse input ts, faults⟩
    let p := (recordBrowseEventAt sha256 storeAuthor input ts).run
    (call.Meets sha256 s ∧ Goes sha256 p faults s v fun s' => Captured sha256 s' (.browse input ts)) ∨
      (¬ call.Meets sha256 s ∧ Leaves p faults s v) := by
  intro call p
  have hp : p = (read >>= fun s => (if s.lastContextHash input.browseId = some (sha256 input.text) then
      pure none else write (fun s => { s with
        browseEvents := s.browseEvents.insert (browseEventRow sha256 input ts)
          (id_browseEventRow sha256 input ts) }) >>= fun _ => pure (some s.browseEvents.nextId)) >>=
      appendFor sha256 (browseAppend sha256 input ts (input.author.getD storeAuthor))).run := by
    change (insertBrowseEvent sha256 input ts >>= appendFor sha256 _).run = _
    rw [insertBrowseEvent, Attempt.bind_assoc]
  rw [hp]
  rcases run_read faults 0 s v _ with ⟨h0, hrun⟩ | ⟨h0, e, hrun⟩
  · by_cases hdup : s.lastContextHash input.browseId = some (sha256 input.text)
    · refine .inl ⟨fun h => absurd hdup h, .inl ⟨none, s, v, 1, ?_, hs, ?_⟩⟩
      · rw [hrun, if_pos hdup]
        rfl
      · -- the page the tab shows has its event
        obtain ⟨b, hb, hhash⟩ := Option.map_eq_some_iff.mp hdup
        obtain ⟨hmem, hid⟩ := List.mem_filter.mp (List.mem_of_getLast? hb)
        exact ⟨b, hmem, of_decide_eq_true hid, hhash, hs.browseEvents b hmem⟩
    · rw [if_neg hdup, Attempt.bind_assoc] at hrun
      obtain ⟨hev, hmade⟩ := evented_browse hs input ts (input.author.getD storeAuthor)
      rcases run_write faults 1 s v (fun s => { s with
        browseEvents := s.browseEvents.insert (browseEventRow sha256 input ts)
          (id_browseEventRow sha256 input ts) }) (fun _ => appendFor sha256 (browseAppend sha256 input ts
            (input.author.getD storeAuthor)) (some s.browseEvents.nextId)) with ⟨h1, hwrite⟩ | ⟨h1, e, hwrite⟩
      · rcases run_appendFor sha256 faults 2 { s with
          browseEvents := s.browseEvents.insert (browseEventRow sha256 input ts)
            (id_browseEventRow sha256 input ts) } (v + 1) (browseAppend sha256 input ts
            (input.author.getD storeAuthor)) s.browseEvents.nextId with
          ⟨hgoes, r, m, happend⟩ | ⟨hgoes, e, c, m, happend, hc⟩
        · exact .inl ⟨fun _ _ _ => hgoes, .inl ⟨r, _, _, m, hrun.trans (hwrite.trans happend), hev, hmade⟩⟩
        · refine .inr ⟨fun h => hgoes (h hdup h0 h1), e, c, m, hrun.trans (hwrite.trans happend), ?_⟩
          rw [hc]
          intro heq
          have hlen := congrArg (fun s : CaptureStore => s.browseEvents.rows.length) heq
          simp at hlen
      · refine .inl ⟨fun _ _ h => absurd h h1, .inr ⟨⟨1, h1⟩, e, _, hrun.trans hwrite⟩⟩
  · exact .inl ⟨fun _ h => absurd h h0, .inr ⟨⟨0, h0⟩, e, _, hrun⟩⟩

theorem rows_insertLink {l : SessionLink} (hfree : s.hasParent l = false) (createdAt : ℤ) :
    (s.sessionTree.insertOrIgnore (l.row createdAt) (l.id_row createdAt)).rows =
      s.sessionTree.rows ++ [l.row createdAt s.sessionTree.nextId] := by
  rw [IndexedTable.rows_insertOrIgnore, if_neg]
  intro hmem
  obtain ⟨r, hr, hchild⟩ := List.mem_map.mp hmem
  have hno := List.any_eq_false.mp hfree r hr
  exact hno (decide_eq_true hchild)

theorem evented_link (hs : Evented sha256 s) {l : SessionLink} (hfree : s.hasParent l = false)
    (createdAt now : ℤ) {t' : LedgerTable} (hgrown : s.ledger.rows <+: t'.rows)
    (hthere : eventsOf t' (l.decision sha256 s.sessionTree.nextId).key ≠ []) :
    let s' := { s with
      sessionTree := s.sessionTree.insertOrIgnore (l.row createdAt) (l.id_row createdAt)
      ledger := t' }
    Evented sha256 s' ∧ Captured sha256 s' (.link l createdAt now) := by
  have hevent : ∃ e ∈ t'.rows, isLinkEvent sha256 (l.row createdAt s.sessionTree.nextId) e := by
    obtain ⟨e, he⟩ := List.exists_mem_of_ne_nil _ hthere
    obtain ⟨hmem, hname⟩ := List.mem_filter.mp he
    simp only [DecisionKey.names, decide_eq_true_eq] at hname
    exact ⟨e, hmem, hname⟩
  have hrows := rows_insertLink hfree createdAt
  intro s'
  constructor
  · refine ⟨fun p hp => ?_, fun b hb => ?_, fun r hr => ?_⟩
    · obtain ⟨e, he, hev⟩ := hs.prompts p hp
      exact ⟨e, hgrown.subset he, hev⟩
    · obtain ⟨e, he, hev⟩ := hs.browseEvents b hb
      exact ⟨e, hgrown.subset he, hev⟩
    · change r ∈ (s.sessionTree.insertOrIgnore _ _).rows at hr
      rw [hrows] at hr
      rcases List.mem_append.mp hr with hr | hr
      · obtain ⟨e, he, hev⟩ := hs.sessionTree r hr
        exact ⟨e, hgrown.subset he, hev⟩
      · rw [List.mem_singleton.mp hr]
        exact hevent
  · refine .inr (.inr ⟨l.row createdAt s.sessionTree.nextId, ?_, rfl, hevent⟩)
    change _ ∈ (s.sessionTree.insertOrIgnore _ _).rows
    rw [hrows]
    exact List.mem_append_right _ (List.mem_singleton_self _)

/-- A session link: the same. -/
theorem link_cases (hs : Evented sha256 s) (faults : ℕ → Fault) (v : ℕ) (storeAuthor : String)
    (l : SessionLink) (createdAt now : ℤ) :
    let call : CaptureCall := ⟨storeAuthor, .link l createdAt now, faults⟩
    let p := (recordSessionLink sha256 storeAuthor l createdAt now).run
    (call.Meets sha256 s ∧ Goes sha256 p faults s v fun s' => Captured sha256 s' (.link l createdAt now)) ∨
      (¬ call.Meets sha256 s ∧ Leaves p faults s v) := by
  intro call p
  by_cases hblank : trim l.childId = "" ∨ trim l.parentId = ""
  · refine .inl ⟨fun h => absurd hblank h, .inl ⟨none, s, v, 0, ?_, hs, ?_⟩⟩
    · change (recordSessionLink sha256 storeAuthor l createdAt now).run.run _ _ _ = _
      rw [recordSessionLink, if_pos hblank]
      rfl
    · exact hblank.elim .inl fun h => .inr (.inl h)
  have hp : p = (read >>= fun s => (if s.hasParent l = true then pure none else
      write (fun s => { s with
        sessionTree := s.sessionTree.insertOrIgnore (l.row createdAt) (l.id_row createdAt) }) >>=
        fun _ => pure (some s.sessionTree.nextId)) >>= decisionFor sha256 storeAuthor now l).run := by
    change (recordSessionLink sha256 storeAuthor l createdAt now).run = _
    rw [recordSessionLink, if_neg hblank]
    change (insertSessionLink l createdAt >>= decisionFor sha256 storeAuthor now l).run = _
    rw [insertSessionLink, Attempt.bind_assoc]
  rw [hp]
  rcases run_read faults 0 s v _ with ⟨h0, hrun⟩ | ⟨h0, e, hrun⟩
  · by_cases hdup : s.hasParent l = true
    · refine .inl ⟨fun _ h => absurd (h.symm.trans hdup) Bool.false_ne_true,
        .inl ⟨none, s, v, 1, ?_, hs, ?_⟩⟩
      · rw [hrun, if_pos hdup]
        rfl
      · -- the link the child has, has its event
        obtain ⟨r, hr, hchild⟩ := List.any_eq_true.mp hdup
        exact .inr (.inr ⟨r, hr, of_decide_eq_true hchild, hs.sessionTree r hr⟩)
    · rw [if_neg hdup, Attempt.bind_assoc] at hrun
      have hfree : s.hasParent l = false := Bool.not_eq_true _ ▸ hdup
      have hrows := rows_insertLink hfree createdAt
      rcases run_write faults 1 s v (fun s => { s with
        sessionTree := s.sessionTree.insertOrIgnore (l.row createdAt) (l.id_row createdAt) })
          (fun _ => decisionFor sha256 storeAuthor now l (some s.sessionTree.nextId)) with
          ⟨h1, hwrite⟩ | ⟨h1, e, hwrite⟩
      · rcases run_decisionFor sha256 faults 2 { s with
          sessionTree := s.sessionTree.insertOrIgnore (l.row createdAt) (l.id_row createdAt) } (v + 1)
            storeAuthor now l s.sessionTree.nextId with
          ⟨hgoes, r, t', v', m, hdecide, hgrown, hthere⟩ | ⟨hgoes, e, c, m, hdecide, hc⟩
        · obtain ⟨hev, hmade⟩ := evented_link hs hfree createdAt now hgrown hthere
          exact .inl ⟨fun _ _ _ _ => hgoes,
            .inl ⟨r, _, v', m, hrun.trans (hwrite.trans hdecide), hev, hmade⟩⟩
        · refine .inr ⟨fun h => hgoes (h hblank hfree h0 h1), e, c, m,
            hrun.trans (hwrite.trans hdecide), ?_⟩
          rw [hc]
          intro heq
          have hlen := congrArg (fun s : CaptureStore => s.sessionTree.rows.length) heq
          simp [hrows] at hlen
      · exact .inl ⟨fun _ _ _ h => absurd h h1, .inr ⟨⟨1, h1⟩, e, _, hrun.trans hwrite⟩⟩
  · exact .inl ⟨fun _ _ h => absurd h h0, .inr ⟨⟨0, h0⟩, e, _, hrun⟩⟩

/-- **What a call does**: it meets the condition and goes through or leaves the
store as it was, or it does not and leaves a row without its event. -/
theorem CaptureCall.cases (hs : Evented sha256 s) (call : CaptureCall) (v : ℕ) :
    let p := call.capture.prog sha256 call.storeAuthor
    (call.Meets sha256 s ∧ Goes sha256 p call.faults s v fun s' => Captured sha256 s' call.capture) ∨
      (¬ call.Meets sha256 s ∧ Leaves p call.faults s v) := by
  obtain ⟨storeAuthor, capture, faults⟩ := call
  cases capture with
  | prompt input ts scope => exact .inl ⟨trivial, goes_prompt hs faults v storeAuthor input ts scope⟩
  | browse input ts => exact browse_cases hs faults v storeAuthor input ts
  | link l createdAt now => exact link_cases hs faults v storeAuthor l createdAt now

/-- A call whose statements are all let through goes through. -/
theorem CaptureCall.retry_goes (hs : Evented sha256 s) (call : CaptureCall) (v : ℕ) :
    (∃ r, (call.retry.run sha256 (Conn.idle s v)).1 = .ok r) ∧
      Captured sha256 (call.retry.run sha256 (Conn.idle s v)).2.committed call.capture := by
  have hgoes : AppendGoes fun _ => .none := ⟨1, rfl, rfl, rfl, rfl⟩
  have hmeets : call.retry.Meets sha256 s := by
    obtain ⟨storeAuthor, capture, faults⟩ := call
    cases capture with
    | prompt input ts scope => trivial
    | browse input ts => exact fun _ _ _ => hgoes
    | link l createdAt now => exact fun _ _ _ _ => ⟨rfl, fun _ => hgoes⟩
  rcases call.retry.cases hs v with ⟨-, h⟩ | ⟨h, -⟩
  · rcases h with ⟨r, s', v', m, hrun, -, hmade⟩ | ⟨⟨n, hn⟩, -⟩
    · have hcall : call.retry.run sha256 (Conn.idle s v) = (.ok r, Conn.idle s' v') := by
        rw [CaptureCall.run, hrun]
      rw [hcall]
      exact ⟨⟨r, rfl⟩, hmade⟩
    · exact absurd rfl hn
  · exact absurd hmeets h

variable (sha256)

/-- **Captures are atomic exactly where the events go through.** In a history
of calls on a store whose rows have their events, every call that returns an
error leaves the store as it was and goes through when it is tried again, and
every row always has its event, if and only if in every call no statement
fails between the insert of a page's or a link's row and the end of its
event. -/
theorem captures_atomic_iff {s : CaptureStore} (hs : Evented sha256 s) (v : ℕ)
    (calls : List CaptureCall) :
    CapturesAtomic sha256 calls (Conn.idle s v) ↔ CapturesMeet sha256 calls (Conn.idle s v) := by
  induction calls generalizing s v with
  | nil => exact Iff.rfl
  | cons call calls ih =>
    rw [CapturesAtomic, CapturesMeet]
    rcases call.cases hs v with ⟨hmeets, hgoes⟩ | ⟨hmeets, e, c, m, hrun, hc⟩
    · have hmeets : call.Meets sha256 (Conn.idle s v).committed := hmeets
      rcases hgoes with ⟨r, s', v', m, hrun, hev, -⟩ | ⟨-, e, m, hrun⟩
      · have hcall : call.run sha256 (Conn.idle s v) = (.ok r, Conn.idle s' v') := by
          rw [CaptureCall.run, hrun]
        have hatomic : call.Atomic sha256 (Conn.idle s v) := by
          refine ⟨fun e he => ?_, ?_, fun e he => ?_⟩
          · rw [hcall] at he
            cases he
          · rw [hcall]
            exact hev
          · rw [hcall] at he
            cases he
        rw [hcall, ih hev v']
        exact ⟨fun h => ⟨hmeets, h.2⟩, fun h => ⟨hatomic, h.2⟩⟩
      · have hcall : call.run sha256 (Conn.idle s v) = (.error e, Conn.idle s v) := by
          rw [CaptureCall.run, hrun]
        have hatomic : call.Atomic sha256 (Conn.idle s v) := by
          refine ⟨fun _ _ => ?_, ?_, fun _ _ => ?_⟩
          · rw [hcall]
            exact ⟨rfl, rfl⟩
          · rw [hcall]
            exact hs
          · rw [hcall]
            exact call.retry_goes hs v
        rw [hcall, ih hs v]
        exact ⟨fun h => ⟨hmeets, h.2⟩, fun h => ⟨hatomic, h.2⟩⟩
    · have hcall : call.run sha256 (Conn.idle s v) = (.error e, c) := by
        rw [CaptureCall.run, hrun]
      refine ⟨fun h => absurd (h.1.unchanged e ?_).1 ?_, fun h => absurd h.1 hmeets⟩
      · rw [hcall]
      · rw [hcall]
        exact hc

/-! ### A page whose event fails -/

/-- A store nothing was captured in. -/
def CaptureStore.empty : CaptureStore := ⟨.empty, ∅, ∅, ∅, ∅, ∅⟩

theorem evented_empty : Evented sha256 .empty where
  prompts _ hp := absurd hp List.not_mem_nil
  browseEvents _ hb := absurd hb List.not_mem_nil
  sessionTree _ hr := absurd hr List.not_mem_nil

/-- A page the user landed on. -/
def landing (faults : ℕ → Fault) : CaptureCall :=
  ⟨"ada", .browse ⟨.navigate, some "tab", "u", none, "page", none, none⟩ 1, faults⟩

/-- The page is inserted, then its event's `BEGIN IMMEDIATE` fails. -/
def eventFails (n : ℕ) : Fault := if n = 2 then .refused .failed else .none

/-- The call returns an error and leaves the page without an event. -/
theorem pageWithoutEvent_not_atomic :
    ¬ CapturesAtomic id [landing eventFails] (Conn.idle CaptureStore.empty 0) := by
  intro h
  have hsame := (h.1.unchanged .failed rfl).1
  have hlen := congrArg (fun s : CaptureStore => s.browseEvents.rows.length) hsame
  revert hlen
  decide

theorem captures_atomic_landing : Evented id CaptureStore.empty ∧
    CapturesAtomic id [landing fun _ => .none] (Conn.idle CaptureStore.empty 0) := by
  have hgoes : AppendGoes fun _ => .none := ⟨1, rfl, rfl, rfl, rfl⟩
  exact ⟨evented_empty id, (captures_atomic_iff id (evented_empty id) 0 _).mpr
    ⟨fun _ _ _ => hgoes, trivial⟩⟩

end PolisMemory
