/-
# Decisions recorded by several processes

`crates/polis-store/src/record.rs`: `record_decision` looks for an event of
the same kind, reference and payload hash, and appends one if there is none;
`record_work_event` is a decision about a work item. The look is a `SELECT` of
its own and the append a transaction of its own, so another process can commit
the same decision between the two, and the ledger holds it twice
(`bothRecord_not_once`).

It does not where no process commits a decision while another one, having
found none, is yet to begin its append; what a call reports as recorded is in
the ledger in every run (`decisions_once`).

Key definitions: `recordDecision`, `recordWorkEvent`, `Once`, `World.Apart`,
`RecordAt`.
Key theorems: `World.RecordInv.step`, `decisions_once`.
-/
import PolisMemory.AppendRuns
import PolisMemory.Catalog

namespace PolisMemory

open Sqlite Sqlite.Prog Sqlite.Sess

variable (sha256 : String → String)

/-! ### The calls -/

/-- What kind of event a ledger row is. -/
inductive EventKind where
  | prompt
  | revision
  | resolution
  | approval
  | reopen
  | reviewVerdict
  | pin
  | sourceTrust
  | taxonomyReorg
  | classCurate
  | compaction
  | captureForgotten
  | browseEvent
  | sessionLink
  | supersede
  | observation
  | note
  | workFile
  | workClaim
  | workClose
  | mootTurn
  | routerVerdict
  | gardenerRevert
  | gardenerRegression
  | principalBind
  | redaction
  deriving DecidableEq, Repr

/-- Every kind's wire string. -/
def EventKind.asStr : EventKind → String
  | prompt => "prompt"
  | revision => "revision"
  | resolution => "resolution"
  | approval => "approval"
  | reopen => "reopen"
  | reviewVerdict => "review_verdict"
  | pin => "pin"
  | sourceTrust => "source_trust"
  | taxonomyReorg => "taxonomy_reorg"
  | classCurate => "class_curate"
  | compaction => "compaction"
  | captureForgotten => "capture_forgotten"
  | browseEvent => "browse_event"
  | sessionLink => "session_link"
  | supersede => "supersede"
  | observation => "observation"
  | note => "note"
  | workFile => "work_file"
  | workClaim => "work_claim"
  | workClose => "work_close"
  | mootTurn => "moot_turn"
  | routerVerdict => "router_verdict"
  | gardenerRevert => "gardener_revert"
  | gardenerRegression => "gardener_regression"
  | principalBind => "principal_bind"
  | redaction => "redaction"

/-- A decision or curation signal referencing an existing row. -/
structure DecisionInput where
  kind : EventKind
  author : Option String
  sessionId : Option String
  refKind : String
  refId : String
  payloadHash : String
  deriving DecidableEq, Repr

/-- What a decision is the same as another by. -/
structure DecisionKey where
  kind : String
  refKind : String
  refId : String
  payloadHash : String
  deriving DecidableEq, Repr

def DecisionInput.key (d : DecisionInput) : DecisionKey :=
  ⟨d.kind.asStr, d.refKind, d.refId, d.payloadHash⟩

/-- The `WHERE` of `decision_event_exists`; a row without a reference is of no
decision. -/
def DecisionKey.names (k : DecisionKey) (row : LedgerEventRow) : Bool :=
  row.kind = k.kind ∧ row.refKind = some k.refKind ∧ row.refId = some k.refId ∧
    row.payloadHash = k.payloadHash

/-- The events of a decision: what `COUNT(*)` counts. -/
def eventsOf (t : LedgerTable) (k : DecisionKey) : List LedgerEventRow := t.rows.filter k.names

/-- `decision_event_exists`. -/
def decisionEventExists (k : DecisionKey) : Prog LedgerTable (Except Error Bool) := do
  match ← select with
  | .error e => return .error e
  | .ok t => return .ok (0 < (eventsOf t k).length)

/-- The event of a decision. -/
def DecisionInput.append (d : DecisionInput) (storeAuthor : String) (now : ℤ) : LedgerAppend where
  kind := d.kind.asStr
  author := d.author.getD storeAuthor
  ts := now
  promptId := none
  sessionId := d.sessionId
  versionNumber := none
  refKind := some d.refKind
  refId := some d.refId
  payloadHash := d.payloadHash

/-- `record_decision`: the new `seq`, or `none` for a decision that is there
already. -/
def recordDecision (storeAuthor : String) (now : ℤ) (d : DecisionInput) :
    Prog LedgerTable (Except Error (Option ℤ)) := do
  match ← decisionEventExists d.key with
  | .error e => return .error e
  | .ok true => return .ok none
  | .ok false =>
    match ← appendEvent sha256 (d.append storeAuthor now) with
    | .error e => return .error e
    | .ok ev => return .ok (some ev.seq)

/-- `decision_payload_hash`: the fields in the order given. -/
def decisionHash (fields : List (String × String)) : String :=
  sha256 (String.join (fields.map fun kv => kv.1 ++ "=" ++ kv.2 ++ "\n"))

/-- A work-item lifecycle act, at the row's own `updated_at`. -/
structure WorkAct where
  kind : EventKind
  itemId : String
  actor : Option String
  detail : Option String
  updatedAt : ℤ
  deriving DecidableEq, Repr

/-- The decision a work act is recorded as; its author is the actor, if one is
named. -/
def WorkAct.decision (a : WorkAct) : DecisionInput where
  kind := a.kind
  author := (a.actor.map trim).filter fun s => s ≠ ""
  sessionId := none
  refKind := "work_item"
  refId := a.itemId
  payloadHash := decisionHash sha256 [("item", a.itemId), ("action", a.kind.asStr),
    ("actor", a.actor.getD ""), ("detail", a.detail.getD ""), ("at", toString a.updatedAt)]

/-- `record_work_event`: an item without an id is not recorded. -/
def recordWorkEvent (storeAuthor : String) (now : ℤ) (a : WorkAct) :
    Prog LedgerTable (Except Error (Option ℤ)) :=
  if trim a.itemId = "" then return .ok none
  else recordDecision sha256 storeAuthor now (a.decision sha256)

/-- What a process is asked to record. -/
inductive RecordCall where
  | decision (storeAuthor : String) (now : ℤ) (d : DecisionInput)
  | work (storeAuthor : String) (now : ℤ) (a : WorkAct)

/-- A call that returns no error reports its decision as recorded, by itself
or before. -/
def reported (k : DecisionKey) (r : Except Error (Option ℤ)) : Option DecisionKey :=
  r.toOption.map fun _ => k

/-- A call's program, and the decision it reports as recorded. -/
def recordProg : RecordCall → Prog LedgerTable (Option DecisionKey)
  | .decision storeAuthor now d => do
    return reported d.key (← recordDecision sha256 storeAuthor now d)
  | .work storeAuthor now a => do
    let r ← recordWorkEvent sha256 storeAuthor now a
    return if trim a.itemId = "" then none else reported (a.decision sha256).key r

/-- No decision has two events. -/
def Once (t : LedgerTable) : Prop := ∀ k, (eventsOf t k).length ≤ 1

/-! ### The points of a call -/

/-- After the append: the decision is reported if it went through. -/
def recordDone (k : DecisionKey) (r : Option LedgerEventRow) : Prog LedgerTable (Option DecisionKey) :=
  ret (r.map fun _ => k)

/-- The look was in vain and the append of its own is yet to begin. -/
def recordBegin (k : DecisionKey) (a : LedgerAppend) (attempts : ℕ) :
    Prog LedgerTable (Option DecisionKey) :=
  (beginFirst sha256 a attempts).bind (recordDone k)

/-- The head is yet to be read. -/
def recordRead (k : DecisionKey) (a : LedgerAppend) (own : Bool) :
    Prog LedgerTable (Option DecisionKey) :=
  (readHead sha256 a own).bind (recordDone k)

/-- The event is yet to be inserted. -/
def recordInsert (k : DecisionKey) (a : LedgerAppend) (own : Bool) (t : LedgerTable) :
    Prog LedgerTable (Option DecisionKey) :=
  (insertAfter sha256 a own t).bind (recordDone k)

/-- The event is inserted, or not, and its transaction yet to end. -/
def recordEnd (k : DecisionKey) (own : Bool) (r : Except Error LedgerEventRow) :
    Prog LedgerTable (Option DecisionKey) :=
  (conclude own r).bind (recordDone k)

/-- The look for the event, and on. -/
def recordLook (k : DecisionKey) (a : LedgerAppend) : Prog LedgerTable (Option DecisionKey) :=
  query fun
    | .error _ => ret none
    | .ok t =>
      if 0 < (eventsOf t k).length then ret (some k)
      else autocommit fun auto =>
        if auto then recordBegin sha256 k a busyAttempts else recordRead sha256 k a false

theorem recordDecision_bind (storeAuthor : String) (now : ℤ) (d : DecisionInput) :
    ((recordDecision sha256 storeAuthor now d).bind fun r => ret (reported d.key r)) =
      recordLook sha256 d.key (d.append storeAuthor now) := by
  have happend : (clientProg sha256 (.append (d.append storeAuthor now))).bind (recordDone d.key) =
      autocommit fun auto => if auto then recordBegin sha256 d.key (d.append storeAuthor now)
        busyAttempts else recordRead sha256 d.key (d.append storeAuthor now) false := by
    rw [appendEvent_bind]
    simp only [Prog.bind]
    congr 1
    funext auto
    cases auto <;> rfl
  simp only [recordDecision, decisionEventExists, bind_eq, select_bind, Prog.bind, recordLook]
  congr 1
  funext r
  cases r with
  | error e => rfl
  | ok t =>
    simp only [pure_eq, Prog.bind]
    by_cases hk : 0 < (eventsOf t d.key).length
    · rw [if_pos hk, decide_eq_true hk]
      rfl
    · rw [if_neg hk, decide_eq_false hk, ← happend]
      simp only [clientProg, bind_eq, bind_assoc]
      congr 1
      funext r
      cases r <;> rfl

/-- The append is of the decision. -/
def Appends (k : DecisionKey) (a : LedgerAppend) : Prop :=
  a.kind = k.kind ∧ a.refKind = some k.refKind ∧ a.refId = some k.refId ∧
    a.payloadHash = k.payloadHash

theorem appends_append (d : DecisionInput) (storeAuthor : String) (now : ℤ) :
    Appends d.key (d.append storeAuthor now) := ⟨rfl, rfl, rfl, rfl⟩

theorem Appends.names {k : DecisionKey} {a : LedgerAppend} (h : Appends k a)
    (head : Option LedgerEventRow) : k.names (successor sha256 head a) = true := by
  obtain ⟨h1, h2, h3, h4⟩ := h
  simp [DecisionKey.names, successor, h1, h2, h3, h4]

theorem DecisionKey.eq_of_names {k k' : DecisionKey} {row : LedgerEventRow}
    (h : k.names row = true) (h' : k'.names row = true) : k = k' := by
  simp only [DecisionKey.names, decide_eq_true_eq] at h h'
  obtain ⟨h1, h2, h3, h4⟩ := h
  obtain ⟨h1', h2', h3', h4'⟩ := h'
  cases k
  cases k'
  simp only [DecisionKey.mk.injEq]
  exact ⟨h1.symm.trans h1', Option.some.inj (h2.symm.trans h2'),
    Option.some.inj (h3.symm.trans h3'), h4.symm.trans h4'⟩

variable {t t' : LedgerTable} {k k' : DecisionKey} {row : LedgerEventRow}

theorem eventsOf_append (hrows : t'.rows = t.rows ++ [row]) (k : DecisionKey) :
    eventsOf t' k = eventsOf t k ++ if k.names row then [row] else [] := by
  rw [eventsOf, hrows, List.filter_append, eventsOf, List.filter_singleton]
  cases k.names row <;> rfl

/-- A decision that has an event keeps it while rows are added. -/
theorem eventsOf_ne_nil_of_prefix (h : t.rows <+: t'.rows) (hk : eventsOf t k ≠ []) :
    eventsOf t' k ≠ [] := by
  obtain ⟨l, hl⟩ := h
  rw [eventsOf, ← hl, List.filter_append]
  intro hnil
  exact hk (List.append_eq_nil_iff.mp hnil).1

theorem eventsOf_ne_nil_of_names (hrows : t'.rows = t.rows ++ [row]) (hk : k.names row = true) :
    eventsOf t' k ≠ [] := by
  rw [eventsOf_append hrows, if_pos hk]
  exact List.append_ne_nil_of_right_ne_nil _ (List.cons_ne_nil _ _)

/-- **An event of a decision that has none leaves every decision at most
one.** -/
theorem Once.append (h : Once t) (hrows : t'.rows = t.rows ++ [row]) (hrow : k.names row = true)
    (hk : eventsOf t k = []) : Once t' := by
  intro k'
  rw [eventsOf_append hrows]
  by_cases hk' : k'.names row = true
  · rw [DecisionKey.eq_of_names hk' hrow, hk, if_pos hrow]
    exact le_refl _
  · rw [if_neg hk', List.append_nil]
    exact h k'

/-! ### The proof outline -/

/-- The session of a recording process. -/
abbrev RecordSess := Sess LedgerTable DecisionKey

variable (apart joined : Prop)

/-- Between two calls a connection is in autocommit, or was left in the
transaction of an append whose `COMMIT` was refused. -/
def Resting (x : RecordSess) : Prop :=
  x.conn.isAuto = true ∨ joined ∧ ∃ t, x.conn.tx = .writing t

/-- A connection is in autocommit, or works on a copy that has grown from what
is committed and holds what the transaction reported. -/
def Sane (x : RecordSess) : Prop :=
  (x.conn.tx = .reader .auto ∧ x.pending = []) ∨
    ∃ t, x.conn.tx = .writing t ∧ x.conn.locked = false ∧ (apart → Once t) ∧
      x.conn.committed.rows <+: t.rows ∧ ∀ k ∈ x.pending, eventsOf t k ≠ []

/-- The transaction works on `t`, in which the decision has no event; one of
the append's own began from what is committed. -/
structure Works (own : Bool) (k : DecisionKey) (t : LedgerTable) (x : RecordSess) : Prop where
  tx : x.conn.tx = .writing t
  began : own = true → t = x.conn.committed ∧ x.pending = []
  left : own = false → joined
  absent : apart → eventsOf t k = []

/-- What holds between two statements of a recording process. -/
inductive RecordAt : Prog LedgerTable (Option DecisionKey) → RecordSess → Prop
  | looks {k : DecisionKey} {a : LedgerAppend} {x : RecordSess} (hk : Appends k a)
    (hx : Resting joined x) : RecordAt (recordLook sha256 k a) x
  | begins {k : DecisionKey} {a : LedgerAppend} (attempts : ℕ) {x : RecordSess} (hk : Appends k a)
    (hx : x.conn.isAuto = true) (habsent : apart → eventsOf x.conn.committed k = []) :
    RecordAt (recordBegin sha256 k a attempts) x
  | reads {k : DecisionKey} {a : LedgerAppend} (own : Bool) {t : LedgerTable} {x : RecordSess}
    (hk : Appends k a) (hx : Works apart joined own k t x) : RecordAt (recordRead sha256 k a own) x
  | inserts {k : DecisionKey} {a : LedgerAppend} (own : Bool) {t : LedgerTable} {x : RecordSess}
    (hk : Appends k a) (hx : Works apart joined own k t x) :
    RecordAt (recordInsert sha256 k a own t) x
  | commits {k : DecisionKey} {row : LedgerEventRow} {t : LedgerTable} {x : RecordSess}
    (hrow : k.names row = true) (hx : x.conn.tx = .writing t)
    (hrows : t.rows = x.conn.committed.rows ++ [row]) (hp : x.pending = []) :
    RecordAt (recordEnd k true (.ok row)) x
  | rollsBack {k : DecisionKey} (e : Error) {x : RecordSess} (hp : x.pending = []) :
    RecordAt (recordEnd k true (.error e)) x

/-- A step of a recording process: it leaves a sane connection at a point
whose assertion holds, commits only what it inserted, reports only what is
committed and takes no lock that is held. -/
structure RecordStep (p : Prog LedgerTable (Option DecisionKey)) (x : RecordSess)
    (out : Option (Prog LedgerTable (Option DecisionKey)) × RecordSess) : Prop where
  points : ∀ q, out.1 = some q → RecordAt sha256 apart joined q out.2
  rests : out.1 = none → Resting joined out.2
  sane : Sane apart out.2
  committed : out.2.conn.committed = x.conn.committed ∨
    ∃ k row t, p = recordEnd k true (.ok row) ∧ k.names row = true ∧ x.conn.tx = .writing t ∧
      out.2.conn.committed = t ∧ t.rows = x.conn.committed.rows ++ [row]
  acked : ∀ k ∈ out.2.acked, k ∈ x.acked ∨ eventsOf out.2.conn.committed k ≠ []
  locked : x.conn.locked = true → ∀ s, out.2.conn.tx ≠ .writing s

/-! ### Each statement leads on -/

variable {sha256 apart joined} {x : RecordSess} {a : LedgerAppend}
  {p : Prog LedgerTable (Option DecisionKey)} {next : Option (Prog LedgerTable (Option DecisionKey))}

/-- The connection back in autocommit, with nothing committed. -/
def freed (x : RecordSess) : RecordSess := ⟨{ x.conn with tx := .reader .auto }, [], x.acked⟩

theorem Sane.after_self (hx : Sane apart x) : x.after x.conn false = x := by
  unfold after
  rcases hx with ⟨htx, hp⟩ | ⟨t, htx, -⟩
  · rw [if_pos (Conn.isAuto_iff.mpr htx), if_neg Bool.false_ne_true, ← hp]
  · rw [if_neg (by simp [Conn.isAuto, htx])]

/-- A statement that leaves the connection as it was. -/
theorem RecordStep.kept (hx : Sane apart x) (hp : ∀ q, next = some q → RecordAt sha256 apart joined q x)
    (hr : next = none → Resting joined x) : RecordStep sha256 apart joined p x (next, x) where
  points := hp
  rests := hr
  sane := hx
  committed := .inl rfl
  acked k hk := .inl hk
  locked hl s hs := by
    rcases hx with ⟨htx, -⟩ | ⟨t, -, hfree, -⟩
    · rw [htx] at hs
      cases hs
    · rw [hfree] at hl
      cases hl

/-- A statement that ends the transaction, with nothing committed. -/
theorem RecordStep.rolledBack (hp : ∀ q, next = some q → RecordAt sha256 apart joined q (freed x)) :
    RecordStep sha256 apart joined p x (next, freed x) where
  points := hp
  rests _ := .inl rfl
  sane := .inl ⟨rfl, rfl⟩
  committed := .inl rfl
  acked k hk := .inl hk
  locked _ s hs := by cases hs

theorem resume_recordBegin (k : DecisionKey) (a : LedgerAppend) (attempts : ℕ) (x : RecordSess) :
    resume id (recordBegin sha256 k a attempts) x = (some (recordBegin sha256 k a attempts), x) := by
  unfold recordBegin beginFirst
  rfl

theorem step_looks (hx : Sane apart x) (hk : Appends k a) (hr : Resting joined x) (fault : Fault) :
    RecordStep sha256 apart joined (recordLook sha256 k a) x
      (turn id fault x (recordLook sha256 k a)) := by
  cases fault with
  | refused e =>
    change RecordStep sha256 apart joined _ x (none, x.after x.conn false)
    rw [hx.after_self]
    exact .kept hx (fun _ hq => by cases hq) fun _ => hr
  | aborted => exact .rolledBack fun _ hq => by cases hq
  | none =>
    rcases hx with ⟨htx, hp⟩ | ⟨t, htx, hfree, honce, hgrown, hpend⟩
    · have hauto : x.conn.isAuto = true := Conn.isAuto_iff.mpr htx
      have hx : Sane apart x := .inl ⟨htx, hp⟩
      have hquery : x.conn.query .none = (x.conn, .ok x.conn.committed) := by
        simp [Conn.query, Conn.sees, htx]
      simp only [recordLook, turn, hquery, hx.after_self]
      by_cases hthere : 0 < (eventsOf x.conn.committed k).length
      · have hreport : (resume id (ret (some k)) x : Option (Prog LedgerTable _) × RecordSess) =
            (none, { x with acked := x.acked ++ [k] }) := by
          simp [finish, hauto]
        rw [if_pos hthere, hreport]
        refine ⟨(fun _ hq => by cases hq), fun _ => hr, .inl ⟨htx, hp⟩, .inl rfl, fun k' hk' => ?_,
          fun _ s hs => ?_⟩
        · rcases List.mem_append.mp hk' with h | h
          · exact .inl h
          · rw [List.mem_singleton.mp h]
            exact .inr (List.ne_nil_of_length_pos hthere)
        · cases htx.symm.trans hs
      · have hnone : eventsOf x.conn.committed k = [] :=
          List.eq_nil_of_length_eq_zero (Nat.eq_zero_of_not_pos hthere)
        rw [if_neg hthere, resume_autocommit, hauto, if_pos rfl, resume_recordBegin]
        refine .kept hx (fun q hq => ?_) fun h => by cases h
        cases hq
        exact .begins busyAttempts hk hauto fun _ => hnone
    · have hx : Sane apart x := .inr ⟨t, htx, hfree, honce, hgrown, hpend⟩
      have hauto : x.conn.isAuto = false := by simp [Conn.isAuto, htx]
      have hquery : x.conn.query .none = (x.conn, .ok t) := by
        simp [Conn.query, Conn.sees, htx]
      have hjoined : joined := by
        rcases hr with h | ⟨h, -⟩
        · rw [hauto] at h
          cases h
        · exact h
      simp only [recordLook, turn, hquery, hx.after_self]
      by_cases hthere : 0 < (eventsOf t k).length
      · have hreport : (resume id (ret (some k)) x : Option (Prog LedgerTable _) × RecordSess) =
            (none, { x with pending := x.pending ++ [k] }) := by
          simp [finish, hauto]
        rw [if_pos hthere, hreport]
        refine ⟨(fun _ hq => by cases hq), fun _ => hr,
          .inr ⟨t, htx, hfree, honce, hgrown, fun k' hk' => ?_⟩, .inl rfl, fun k' hk' => .inl hk',
          fun hl => ?_⟩
        · rcases List.mem_append.mp hk' with h | h
          · exact hpend k' h
          · rw [List.mem_singleton.mp h]
            exact List.ne_nil_of_length_pos hthere
        · rw [hfree] at hl
          cases hl
      · have hnone : eventsOf t k = [] :=
          List.eq_nil_of_length_eq_zero (Nat.eq_zero_of_not_pos hthere)
        rw [if_neg hthere, resume_autocommit, hauto, if_neg Bool.false_ne_true]
        refine .kept hx (fun q hq => ?_) fun h => by cases h
        cases hq
        exact .reads false hk ⟨htx, (fun h => by cases h), fun _ => hjoined, fun _ => hnone⟩

variable (sha256) in
/-- Where a `BEGIN IMMEDIATE` leads, by its outcome and the attempts left. -/
def afterBegin (k : DecisionKey) (a : LedgerAppend) :
    Option Error → ℕ → Option (Prog LedgerTable (Option DecisionKey))
  | none, _ => some (recordRead sha256 k a true)
  | some .busy, attempts + 1 => some (recordBegin sha256 k a attempts)
  | _, _ => none

theorem turn_recordBegin (fault : Fault) (attempts : ℕ) :
    turn id fault x (recordBegin sha256 k a attempts) =
      (afterBegin sha256 k a (x.conn.exec fault (.beginTx true)).2 attempts,
        x.after (x.conn.exec fault (.beginTx true)).1 false) := by
  rw [recordBegin, beginFirst.eq_def]
  simp only [Prog.bind, turn, isPublished]
  rcases h : (x.conn.exec fault (.beginTx true)).2 with _ | _ | _
  · rfl
  · cases attempts with
    | zero => rfl
    | succ attempts => exact resume_recordBegin k a attempts _
  · rfl

theorem step_begins (hx : Sane apart x) (hc : apart → Once x.conn.committed) (hk : Appends k a)
    (attempts : ℕ)
    (hauto : x.conn.isAuto = true) (habsent : apart → eventsOf x.conn.committed k = [])
    (fault : Fault) :
    RecordStep sha256 apart joined (recordBegin sha256 k a attempts) x
      (turn id fault x (recordBegin sha256 k a attempts)) := by
  have htx := Conn.isAuto_iff.mp hauto
  have hp : x.pending = [] := by
    rcases hx with ⟨-, hp⟩ | ⟨t, h, -⟩
    · exact hp
    · rw [htx] at h
      cases h
  -- a `BEGIN IMMEDIATE` that fails leaves the connection in autocommit
  have hfails : ∀ e, RecordStep sha256 apart joined (recordBegin sha256 k a attempts) x
      (afterBegin sha256 k a (some e) attempts, x) := by
    rintro (_ | _)
    · cases attempts with
      | zero => exact .kept hx (fun _ hq => by cases hq) fun _ => .inl hauto
      | succ attempts =>
        refine .kept hx (fun q hq => ?_) fun h => by cases h
        cases hq
        exact .begins attempts hk hauto habsent
    · exact .kept hx (fun _ hq => by cases hq) fun _ => .inl hauto
  rw [turn_recordBegin]
  cases fault with
  | refused e =>
    simp only [Conn.exec, hx.after_self]
    exact hfails e
  | aborted =>
    have hself : ({ x.conn with tx := .reader .auto } : Conn LedgerTable) = x.conn := by rw [← htx]
    simp only [Conn.exec, hself, hx.after_self]
    exact hfails .failed
  | none =>
    by_cases hl : x.conn.locked = true
    · have hexec : x.conn.exec .none (.beginTx true) = (x.conn, some .busy) := by
        simp [Conn.exec, Conn.execBegin, hauto, hl]
      rw [hexec]
      simp only [hx.after_self]
      exact hfails .busy
    · have hexec : x.conn.exec .none (.beginTx true) =
          ({ x.conn with tx := .writing x.conn.committed }, none) := by
        simp [Conn.exec, Conn.execBegin, hauto, hl]
      rw [hexec]
      refine ⟨fun q hq => ?_, (fun h => by cases h),
        .inr ⟨x.conn.committed, rfl, ?_, ?_, List.prefix_rfl, ?_⟩, .inl rfl, fun k hk => .inl hk,
        fun h => absurd h hl⟩
      · cases hq
        exact .reads true hk ⟨rfl, fun _ => ⟨rfl, hp⟩, (fun h => by cases h), habsent⟩
      · exact Bool.not_eq_true _ ▸ hl
      · exact hc
      · intro k' hk'
        change k' ∈ x.pending at hk'
        rw [hp] at hk'
        cases hk'

theorem Works.sane {own : Bool} (hx : Sane apart x) (hw : Works apart joined own k t x) :
    x.conn.locked = false ∧ (apart → Once t) ∧ x.conn.committed.rows <+: t.rows ∧
      ∀ k ∈ x.pending, eventsOf t k ≠ [] := by
  rcases hx with ⟨htx, -⟩ | ⟨t', htx, h⟩
  · exact absurd (htx.symm.trans hw.tx) nofun
  · cases htx.symm.trans hw.tx
    exact h

/-- After an error an append of its own rolls back, and a joined one returns. -/
theorem step_error {own : Bool} (hx : Sane apart x) (hw : Works apart joined own k t x) (e : Error) :
    RecordStep sha256 apart joined p x (resume id (recordEnd k own (.error e)) x) ∧
      RecordStep sha256 apart joined p x (resume id (recordEnd k own (.error e)) (freed x)) := by
  cases own with
  | false => exact ⟨.kept hx nofun fun _ => .inr ⟨hw.left rfl, t, hw.tx⟩, .rolledBack nofun⟩
  | true =>
    constructor
    · refine .kept hx (fun q hq => ?_) nofun
      cases hq
      exact .rollsBack e (hw.began rfl).2
    · refine .rolledBack fun q hq => ?_
      cases hq
      exact .rollsBack e rfl

theorem step_reads {own : Bool} (hx : Sane apart x) (hk : Appends k a)
    (hw : Works apart joined own k t x) (fault : Fault) :
    RecordStep sha256 apart joined (recordRead sha256 k a own) x
      (turn id fault x (recordRead sha256 k a own)) := by
  cases fault with
  | refused e =>
    change RecordStep sha256 apart joined _ x
      (resume id (recordEnd k own (.error e)) (x.after x.conn false))
    rw [hx.after_self]
    exact (step_error hx hw e).1
  | aborted => exact (step_error hx hw .failed).2
  | none =>
    have hquery : x.conn.query .none = (x.conn, .ok t) := by
      simp [Conn.query, Conn.sees, hw.tx]
    have hturn : turn id .none x (recordRead sha256 k a own) =
        (some (recordInsert sha256 k a own t), x) := by
      simp only [recordRead, readHead, Prog.bind, turn, hquery, hx.after_self]
      rfl
    rw [hturn]
    refine .kept hx (fun q hq => ?_) fun h => by cases h
    cases hq
    exact .inserts own hk hw

theorem step_inserts {own : Bool} (hx : Sane apart x) (hk : Appends k a)
    (hw : Works apart joined own k t x) (fault : Fault) :
    RecordStep sha256 apart joined (recordInsert sha256 k a own t) x
      (turn id fault x (recordInsert sha256 k a own t)) := by
  cases fault with
  | refused e =>
    change RecordStep sha256 apart joined _ x
      (resume id (recordEnd k own (.error e)) (x.after x.conn false))
    rw [hx.after_self]
    exact (step_error hx hw e).1
  | aborted => exact (step_error hx hw .failed).2
  | none =>
    obtain ⟨hfree, honce, hgrown, hpend⟩ := hw.sane hx
    obtain ⟨t', hins, hrows⟩ := insert_successor sha256 t a
    have hname := hk.names sha256 t.last
    have hexec : x.conn.exec .none (.write fun cur => cur.insert (successor sha256 t.last a)) =
        ({ x.conn with tx := .writing t' }, none) := by
      simp [Conn.exec, Conn.execWrite, Conn.workOn, hw.tx, hins]
    have honce' : apart → Once t' := fun h => (honce h).append hrows hname (hw.absent h)
    have hgrown' : x.conn.committed.rows <+: t'.rows :=
      hgrown.trans (hrows ▸ List.prefix_append _ _)
    have hpend' : ∀ k' ∈ x.pending, eventsOf t' k' ≠ [] := fun k' hk' =>
      eventsOf_ne_nil_of_prefix (hrows ▸ List.prefix_append _ _) (hpend k' hk')
    have hlocked : x.conn.locked = true → ∀ s, Tx.writing t' ≠ .writing s := fun h => by
      rw [hfree] at h
      cases h
    cases own with
    | true =>
      obtain ⟨rfl, hp⟩ := hw.began rfl
      have hturn : turn id .none x (recordInsert sha256 k a true x.conn.committed) =
          (some (recordEnd k true (.ok (successor sha256 x.conn.committed.last a))),
            { x with conn := { x.conn with tx := .writing t' } }) := by
        simp only [recordInsert, insertAfter, Prog.bind, turn, hexec]
        rfl
      rw [hturn]
      refine ⟨fun q hq => ?_, (fun h => by cases h),
        .inr ⟨t', rfl, hfree, honce', hgrown', hpend'⟩, .inl rfl, fun k hk => .inl hk, hlocked⟩
      cases hq
      exact .commits hname rfl hrows hp
    | false =>
      have hturn : turn id .none x (recordInsert sha256 k a false t) =
          (none, { x with conn := { x.conn with tx := .writing t' }, pending := x.pending ++ [k] }) := by
        simp only [recordInsert, insertAfter, Prog.bind, turn, hexec]
        rfl
      rw [hturn]
      refine ⟨(fun _ hq => by cases hq), fun _ => .inr ⟨hw.left rfl, t', rfl⟩,
        .inr ⟨t', rfl, hfree, honce', hgrown', fun k' hk' => ?_⟩, .inl rfl, fun k hk => .inl hk,
        hlocked⟩
      rcases List.mem_append.mp hk' with h | h
      · exact hpend' k' h
      · rw [List.mem_singleton.mp h]
        exact eventsOf_ne_nil_of_names hrows hname

/-- The `COMMIT`: one that is refused leaves the connection in its
transaction. -/
theorem step_commits (hx : Sane apart x) (hrow : k.names row = true)
    (htx : x.conn.tx = .writing t) (hrows : t.rows = x.conn.committed.rows ++ [row])
    (hp : x.pending = []) (fault : Fault) (hrefused : ∀ e, fault = .refused e → joined) :
    RecordStep sha256 apart joined (recordEnd k true (.ok row)) x
      (turn id fault x (recordEnd k true (.ok row))) := by
  cases fault with
  | refused e =>
    change RecordStep sha256 apart joined _ x (none, x.after x.conn false)
    rw [hx.after_self]
    exact .kept hx (fun _ hq => by cases hq) fun _ => .inr ⟨hrefused e rfl, t, htx⟩
  | aborted => exact .rolledBack fun _ hq => by cases hq
  | none =>
    have hexec : x.conn.exec .none .commit =
        (⟨t, x.conn.version + 1, .reader .auto, x.conn.locked⟩, none) := by
      simp [Conn.exec, Conn.execCommit, htx]
    have hturn : turn id .none x (recordEnd k true (.ok row)) =
        (none, ⟨⟨t, x.conn.version + 1, .reader .auto, x.conn.locked⟩, [], x.acked ++ [k]⟩) := by
      simp [recordEnd, conclude, recordDone, Prog.bind, turn, hexec, after, isPublished, Conn.isAuto,
        hp, finish]
    rw [hturn]
    refine ⟨(fun _ hq => by cases hq), fun _ => .inl rfl, .inl ⟨rfl, rfl⟩,
      .inr ⟨k, row, t, rfl, hrow, htx, rfl, hrows⟩, fun k' hk' => ?_, fun _ s hs => by cases hs⟩
    rcases List.mem_append.mp hk' with h | h
    · exact .inl h
    · rw [List.mem_singleton.mp h]
      exact .inr (eventsOf_ne_nil_of_names hrows hrow)

theorem step_rollsBack (hx : Sane apart x) (e : Error) (fault : Fault) :
    RecordStep sha256 apart joined (recordEnd k true (.error e)) x
      (turn id fault x (recordEnd k true (.error e))) := by
  by_cases hauto : x.conn.isAuto = true
  · have hexec : x.conn.exec fault .rollback = (x.conn, some .failed) := by
      simp [Conn.exec, hauto]
    have hturn : turn id fault x (recordEnd k true (.error e)) = (none, x.after x.conn false) := by
      simp only [recordEnd, conclude, Prog.bind, bind_eq, stmt_bind, turn, hexec]
      rfl
    rw [hturn, hx.after_self]
    exact .kept hx (fun _ hq => by cases hq) fun _ => .inl hauto
  · have hexec : x.conn.exec fault .rollback = ({ x.conn with tx := .reader .auto }, none) := by
      simp [Conn.exec, hauto]
    have hturn : turn id fault x (recordEnd k true (.error e)) = (none, freed x) := by
      simp only [recordEnd, conclude, Prog.bind, bind_eq, stmt_bind, turn, hexec]
      rfl
    rw [hturn]
    exact .rolledBack fun _ hq => by cases hq

/-! ### Runs -/

variable (sha256 apart joined) {ι : Type} [DecidableEq ι]

/-- Recording processes on one database. -/
abbrev RecordWorld (ι : Type) := World ι LedgerTable DecisionKey (Option DecisionKey)

/-- The process has inserted an event of the decision and is about to commit
it. -/
def Committing (w : RecordWorld ι) (i : ι) (k : DecisionKey) : Prop :=
  ∃ row, w.proc i = some (recordEnd k true (.ok row))

/-- The process has found no event of the decision and its append is yet to
begin. -/
def Waiting (w : RecordWorld ι) (i : ι) (k : DecisionKey) : Prop :=
  ∃ a attempts, w.proc i = some (recordBegin sha256 k a attempts)

/-- No process commits a decision while another one that has found no event of
it is yet to begin its append. -/
def Apart (w : RecordWorld ι) : Event ι RecordCall → Prop
  | .start .. => True
  | .turn i _ => ∀ k, Committing w i k → ∀ j, j ≠ i → ¬ Waiting sha256 w j k

/-- No `COMMIT` is refused. -/
def CommitsPass (w : RecordWorld ι) : Event ι RecordCall → Prop
  | .start .. => True
  | .turn i fault => ∀ k, Committing w i k → ∀ e, fault ≠ .refused e

/-- Every event does, in the world it comes in. -/
def Along (P : RecordWorld ι → Event ι RecordCall → Prop) :
    List (Event ι RecordCall) → RecordWorld ι → Prop
  | [], _ => True
  | e :: events, w => P w e ∧ Along P events (w.step id (recordProg sha256) e)

/-- What holds of the processes between two statements. -/
structure RecordHolds (w : RecordWorld ι) : Prop where
  once : apart → Once w.committed
  reported : ∀ k ∈ w.acked, eventsOf w.committed k ≠ []
  sane : ∀ i, Sane apart (w.sess i)
  points : ∀ i p, w.proc i = some p → RecordAt sha256 apart joined p (w.sess i)
  rests : ∀ i, w.proc i = none → Resting joined (w.sess i)

variable {sha256 apart joined} {w : RecordWorld ι} {i j : ι}
  {out : Option (Prog LedgerTable (Option DecisionKey)) × RecordSess}

theorem Resting.moved {x' : RecordSess} (h : Resting joined x) (htx : x'.conn.tx = x.conn.tx) :
    Resting joined x' := by
  have hauto : x'.conn.isAuto = x.conn.isAuto := by
    unfold Conn.isAuto
    rw [htx]
  unfold Resting
  rwa [hauto, htx]

theorem Sane.moved {x' : RecordSess} (h : Sane apart x) (htx : x'.conn.tx = x.conn.tx)
    (hp : x'.pending = x.pending)
    (hc : ∀ t, x.conn.tx = .writing t → x'.conn.committed = x.conn.committed)
    (hl : ∀ t, x'.conn.tx = .writing t → x'.conn.locked = false) : Sane apart x' := by
  rcases h with ⟨h, hpend⟩ | ⟨t, ht, -, honce, hgrown, hpend⟩
  · exact .inl ⟨htx.trans h, hp.trans hpend⟩
  · refine .inr ⟨t, htx.trans ht, hl t (htx.trans ht), honce, ?_, ?_⟩
    · rwa [hc t ht]
    · rwa [hp]

/-- Another connection's step leaves an assertion, if no working copy's base
moved under it and no decision it waits for was committed. -/
theorem RecordAt.moved {x' : RecordSess} (h : RecordAt sha256 apart joined p x)
    (htx : x'.conn.tx = x.conn.tx) (hp : x'.pending = x.pending)
    (hc : ∀ t, x.conn.tx = .writing t → x'.conn.committed = x.conn.committed)
    (hb : ∀ k a attempts, p = recordBegin sha256 k a attempts → apart →
      eventsOf x.conn.committed k = [] → eventsOf x'.conn.committed k = []) :
    RecordAt sha256 apart joined p x' := by
  have hauto : x'.conn.isAuto = x.conn.isAuto := by
    unfold Conn.isAuto
    rw [htx]
  have hworks : ∀ {own k t}, Works apart joined own k t x → Works apart joined own k t x' :=
    fun {own k t} hw => ⟨htx.trans hw.tx, fun h => ⟨(hw.began h).1.trans (hc t hw.tx).symm,
      hp.trans (hw.began h).2⟩, hw.left, hw.absent⟩
  cases h with
  | looks hk hx => exact .looks hk (hx.moved htx)
  | begins attempts hk hx habsent =>
    exact .begins attempts hk (hauto.trans hx) fun h => hb _ _ _ rfl h (habsent h)
  | reads own hk hw => exact .reads own hk (hworks hw)
  | inserts own hk hw => exact .inserts own hk (hworks hw)
  | commits hrow hx hrows hpend =>
    exact .commits hrow (htx.trans hx) (hc _ hx ▸ hrows) (hp.trans hpend)
  | rollsBack e hpend => exact .rollsBack e (hp.trans hpend)

/-- While one connection holds the lock no other one commits. -/
theorem RecordStep.committed_of_writing (hs : RecordStep sha256 apart joined p (w.sess i) out)
    (hij : i ≠ j) {t : LedgerTable} (ht : w.tx j = .writing t) :
    out.2.conn.committed = w.committed := by
  rcases hs.committed with h | ⟨_, _, s, -, -, hx, -⟩
  · exact h
  · have hlock : (w.sess i).conn.locked = true := by
      simp [World.sess, World.lock_of_writing ht, hij.symm]
    have hfree : (w.sess i).conn.locked = false := World.not_locked_of_writing hx
    rw [hlock] at hfree
    cases hfree

/-- **One step keeps it**, if the process does not commit a decision that
another one waits for. -/
theorem RecordHolds.put (hw : RecordHolds sha256 apart joined w)
    (hs : RecordStep sha256 apart joined p (w.sess i) out)
    (hapart : apart → ∀ k row, p = recordEnd k true (.ok row) →
      ∀ j, j ≠ i → ¬ Waiting sha256 w j k) :
    RecordHolds sha256 apart joined (w.put i out) := by
  have htxi : ((w.put i out).sess i).conn.tx = out.2.conn.tx := World.tx_put_self w i out
  have hpendi : ((w.put i out).sess i).pending = out.2.pending := Function.update_self ..
  have hproci : (w.put i out).proc i = out.1 := Function.update_self ..
  have htx : ∀ j, i ≠ j → ((w.put i out).sess j).conn.tx = (w.sess j).conn.tx := fun j hij =>
    World.tx_put_of_ne hij hs.locked
  have hpend : ∀ j, i ≠ j → ((w.put i out).sess j).pending = (w.sess j).pending := fun j hij =>
    Function.update_of_ne (Ne.symm hij) _ _
  have hproc : ∀ j, i ≠ j → (w.put i out).proc j = w.proc j := fun j hij =>
    Function.update_of_ne (Ne.symm hij) _ _
  refine ⟨fun h => ?_, fun k hk => ?_, fun j => ?_, fun j q hq => ?_, fun j hq => ?_⟩
  · change Once out.2.conn.committed
    rcases hs.committed with hc | ⟨k, row, t, -, -, ht, hc, -⟩
    · rw [hc]
      exact hw.once h
    · rw [hc]
      rcases hw.sane i with ⟨h', -⟩ | ⟨t', h', -, honce, -⟩
      · exact absurd (h'.symm.trans ht) nofun
      · cases h'.symm.trans ht
        exact honce h
  · refine (hs.acked k hk).elim (fun h => ?_) id
    have hk' := hw.reported k h
    rcases hs.committed with hc | ⟨_, row, t, -, -, -, hc, hrows⟩
    · change eventsOf out.2.conn.committed k ≠ []
      rw [hc]
      exact hk'
    · refine eventsOf_ne_nil_of_prefix ?_ hk'
      change w.committed.rows <+: out.2.conn.committed.rows
      rw [hc, hrows]
      exact List.prefix_append _ _
  · by_cases hij : i = j
    · subst hij
      exact hs.sane.moved htxi hpendi (fun _ _ => rfl) fun t h => World.not_locked_of_writing h
    · exact (hw.sane j).moved (htx j hij) (hpend j hij) (fun t h => hs.committed_of_writing hij h)
        fun t h => World.not_locked_of_writing h
  · by_cases hij : i = j
    · subst hij
      rw [hproci] at hq
      exact (hs.points q hq).moved htxi hpendi (fun _ _ => rfl) fun _ _ _ _ _ h => h
    · rw [hproc j hij] at hq
      refine (hw.points j q hq).moved (htx j hij) (hpend j hij)
        (fun t h => hs.committed_of_writing hij h) fun k a attempts hqk h hk => ?_
      change eventsOf out.2.conn.committed k = []
      rcases hs.committed with hc | ⟨k', row, t, hp, hrow, -, hc, hrows⟩
      · rw [hc]
        exact hk
      · -- the process commits another decision than this one waits for
        have hne : k.names row ≠ true := fun hname => by
          rw [DecisionKey.eq_of_names hrow hname] at hp
          exact hapart h k row hp j (Ne.symm hij) ⟨a, attempts, hqk ▸ hq⟩
        rw [hc, eventsOf_append hrows, if_neg hne, List.append_nil]
        exact hk
  · by_cases hij : i = j
    · subst hij
      rw [hproci] at hq
      exact (hs.rests hq).moved htxi
    · rw [hproc j hij] at hq
      exact (hw.rests j hq).moved (htx j hij)

variable (sha256) in
/-- What a call does first: look for its decision, if it has one to record. -/
theorem resume_recordProg (call : RecordCall) (x : RecordSess) :
    (∃ k a, Appends k a ∧
      resume id (recordProg sha256 call) x = (some (recordLook sha256 k a), x)) ∨
    resume id (recordProg sha256 call) x = (none, x) := by
  cases call with
  | decision storeAuthor now d =>
    refine .inl ⟨d.key, d.append storeAuthor now, appends_append d storeAuthor now, ?_⟩
    rw [← recordDecision_bind]
    rfl
  | work storeAuthor now act =>
    by_cases hid : trim act.itemId = ""
    · right
      simp only [recordProg, recordWorkEvent, if_pos hid]
      rfl
    · refine .inl ⟨(act.decision sha256).key, (act.decision sha256).append storeAuthor now,
        appends_append _ storeAuthor now, ?_⟩
      rw [← recordDecision_bind]
      simp only [recordProg, recordWorkEvent, if_neg hid]
      rfl

/-- **One event keeps it.** -/
theorem RecordHolds.step (hw : RecordHolds sha256 apart joined w) (e : Event ι RecordCall)
    (hapart : apart → Apart sha256 w e) (hpass : joined ∨ CommitsPass w e) :
    RecordHolds sha256 apart joined (w.step id (recordProg sha256) e) := by
  cases e with
  | start i call =>
    simp only [World.step]
    split
    · exact hw
    · rename_i hidle
      have hstep : RecordStep sha256 apart joined (ret none) (w.sess i)
          (resume id (recordProg sha256 call) (w.sess i)) := by
        rcases resume_recordProg sha256 call (w.sess i) with ⟨k, a, hk, h⟩ | h
        · rw [h]
          refine .kept (hw.sane i) (fun q hq => ?_) fun h => by cases h
          cases hq
          exact .looks hk (hw.rests i hidle)
        · rw [h]
          exact .kept (hw.sane i) (fun _ hq => by cases hq) fun _ => hw.rests i hidle
      exact hw.put hstep fun _ k row h => by cases h
  | turn i fault =>
    simp only [World.step]
    split
    · rename_i p hp
      have hstep : RecordStep sha256 apart joined p (w.sess i) (turn id fault (w.sess i) p) := by
        have hsane := hw.sane i
        have hat := hw.points i p hp
        cases hat with
        | looks hk hr => exact step_looks hsane hk hr fault
        | begins attempts hk hauto habsent =>
          exact step_begins hsane hw.once hk attempts hauto habsent fault
        | reads own hk hworks => exact step_reads hsane hk hworks fault
        | inserts own hk hworks => exact step_inserts hsane hk hworks fault
        | @commits k row t _ hrow htx hrows hpend =>
          refine step_commits hsane hrow htx hrows hpend fault fun e he => ?_
          exact hpass.elim id fun h => absurd he (h k ⟨row, hp⟩ e)
        | rollsBack e hpend => exact step_rollsBack hsane e fault
      refine hw.put hstep fun h k row hk j hj => hapart h k ⟨row, hk ▸ hp⟩ j hj
    · exact hw

theorem RecordHolds.along (events : List (Event ι RecordCall)) :
    ∀ {w : RecordWorld ι}, RecordHolds sha256 apart joined w →
      (apart → Along sha256 (Apart sha256) events w) →
      (joined ∨ Along sha256 CommitsPass events w) →
      RecordHolds sha256 apart joined (events.foldl (World.step id (recordProg sha256)) w) := by
  induction events with
  | nil => exact fun hw _ _ => hw
  | cons e events ih =>
    intro w hw hapart hpass
    refine ih (hw.step e (fun h => (hapart h).1) (hpass.imp_right And.left)) (fun h => (hapart h).2)
      (hpass.imp_right And.right)

/-- Nothing that was reported waits for a transaction, if none was left open. -/
theorem RecordHolds.pending (hw : RecordHolds sha256 apart False w) (i : ι) : w.pending i = [] := by
  have hauto : (w.sess i).conn.isAuto = true → w.pending i = [] := fun h => by
    rcases hw.sane i with ⟨-, hp⟩ | ⟨t, htx, -⟩
    · exact hp
    · exact absurd ((Conn.isAuto_iff.mp h).symm.trans htx) nofun
  have hrests : Resting False (w.sess i) → w.pending i = [] := fun h =>
    h.elim hauto fun h => h.1.elim
  have hworks : ∀ {own k t}, Works apart False own k t (w.sess i) → w.pending i = [] :=
    fun {own k t} h => by
      cases own with
      | false => exact (h.left rfl).elim
      | true => exact (h.began rfl).2
  cases hp : w.proc i with
  | none => exact hrests (hw.rests i hp)
  | some p =>
    cases hw.points i p hp with
    | looks hk h => exact hrests h
    | begins attempts hk h habsent => exact hauto h
    | reads own hk h => exact hworks h
    | inserts own hk h => exact hworks h
    | commits hrow htx hrows hpend => exact hpend
    | rollsBack e hpend => exact hpend

variable (sha256)

/-- **Decisions are recorded once.** In every run of recording processes on a
ledger without repeats, where no process commits a decision while another one
that has found none is yet to begin its append, the ledger holds at most one
event of each decision. In every run at all, whatever is reported as recorded
in autocommit, or in a transaction that has committed, is there; and where no
`COMMIT` is refused nothing is reported in any other. -/
theorem decisions_once (t : LedgerTable) (ht : Once t) (events : List (Event ι RecordCall)) :
    let w : RecordWorld ι := World.run id (recordProg sha256) t events
    (Along sha256 (Apart sha256) events (World.init t : RecordWorld ι) → Once w.committed) ∧
      (∀ k ∈ w.acked, eventsOf w.committed k ≠ []) ∧
      (Along sha256 CommitsPass events (World.init t : RecordWorld ι) →
        ∀ i, w.pending i = []) := by
  have hinit : ∀ apart joined, RecordHolds sha256 apart joined (World.init t : RecordWorld ι) :=
    fun _ _ => ⟨fun _ => ht, fun _ h => absurd h List.not_mem_nil, fun _ => .inl ⟨rfl, rfl⟩,
      fun _ _ h => (nomatch h), fun _ _ => .inl rfl⟩
  refine ⟨fun h => ?_, ?_, fun h => ?_⟩
  · exact ((hinit True True).along events (fun _ => h) (.inl trivial)).once trivial
  · exact ((hinit False True).along events False.elim (.inl trivial)).reported
  · exact ((hinit False False).along events False.elim (.inr h)).pending

/-! ### Two processes that record the same decision -/

/-- An approval, recorded at a given time. -/
def approves (now : ℤ) : RecordCall :=
  .decision "ada" now ⟨.approval, none, some "s", "plan", "p", "h"⟩

/-- Both look before either appends. -/
def bothRecord : List (Event Bool RecordCall) :=
  [.start false (approves 1), .start true (approves 2), .turn false .none, .turn true .none] ++
    List.replicate 4 (.turn false .none) ++ List.replicate 4 (.turn true .none)

/-- Two processes both look, find nothing and append: the decision has two
events. -/
theorem bothRecord_not_once :
    ¬ Once (World.run id (recordProg id) LedgerTable.empty bothRecord : RecordWorld Bool).committed := by
  intro h
  have htwo := h ⟨"approval", "plan", "p", "h"⟩
  revert htwo
  decide +kernel

/-- One after the other. -/
def recordInTurn : List (Event Bool RecordCall) :=
  .start false (approves 1) :: List.replicate 5 (.turn false .none) ++
    [.start true (approves 2), .turn true .none]

theorem decisions_once_inTurn :
    Once LedgerTable.empty ∧ Once (World.run id (recordProg id) LedgerTable.empty recordInTurn :
      RecordWorld Bool).committed := by
  have hempty : Once LedgerTable.empty := fun _ => Nat.zero_le 1
  have halone : ∀ (w : RecordWorld Bool) i, w.proc (!i) = none → Apart id w (.turn i .none) := by
    rintro w i h k - j hj ⟨a, attempts, hp⟩
    rw [Bool.eq_not_of_ne hj, h] at hp
    cases hp
  refine ⟨hempty, (decisions_once id LedgerTable.empty hempty recordInTurn).1 ?_⟩
  exact ⟨trivial, halone _ _ rfl, halone _ _ rfl, halone _ _ rfl, halone _ _ rfl, halone _ _ rfl,
    trivial, halone _ _ rfl, trivial⟩

end PolisMemory
