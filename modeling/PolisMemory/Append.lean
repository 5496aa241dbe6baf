/-
# The append to the chain

`crates/polis-store/src/ledger.rs`: `append_event` joins the caller's open
transaction, or opens one of its own with `BEGIN IMMEDIATE`, retried while the
file is locked; the head is read, the next event hashed and inserted inside
it, and an own transaction is committed, or rolled back after an error.

An error from the own `COMMIT` is returned without a rollback. Where SQLite
refuses the `COMMIT` and leaves the transaction open, the connection stays in
it and later appends join it; in a history of calls that is the only way the
call breaks its contract (`historyMeets_iff`).

Key definitions: `appendInTxn`, `appendEvent`, `successor`, `CommitRefused`,
`HistoryMeets`.
Key theorems: `run_beginImmediate`, `run_appendEvent_auto`.
-/
import PolisMemory.Bundle
import PolisMemory.Sqlite

namespace PolisMemory

open Sqlite Sqlite.Prog

variable (sha256 : String → String)

/-- How many times a `BEGIN IMMEDIATE` that finds the file locked is retried. -/
def busyAttempts : ℕ := 8

/-- The row that follows the head that was read. -/
def successor (head : Option LedgerEventRow) (a : LedgerAppend) : LedgerEventRow :=
  let prevSeq := (head.map LedgerEventRow.seq).getD 0
  let prevHash := (head.map LedgerEventRow.entryHash).getD genesisPrev
  let canon : CanonicalEvent := ⟨prevSeq + 1, a.ts, a.kind, a.author, a.promptId, a.sessionId,
    a.versionNumber, a.refKind, a.refId, a.payloadHash⟩
  ⟨canon.seq, a.ts, a.kind, a.author, a.promptId, a.sessionId, a.versionNumber, a.refKind, a.refId,
    a.payloadHash, prevHash, computeEntryHash sha256 prevHash canon⟩

/-- `append_in_txn`: the head is read, the next event inserted. -/
def appendInTxn (a : LedgerAppend) : Prog LedgerTable (Except Error LedgerEventRow) := do
  match ← select with
  | .error e => return .error e
  | .ok t =>
    let row := successor sha256 t.last a
    match ← stmt (.write fun t => t.insert row) with
    | some e => return .error e
    | none => return .ok row

/-- `BEGIN IMMEDIATE`, with the retries left. -/
def beginImmediate : ℕ → Prog LedgerTable (Option Error)
  | 0 => stmt (.beginTx true)
  | attempts + 1 => do
    match ← stmt (.beginTx true) with
    | some .busy => beginImmediate attempts
    | e => return e

/-- `append_event`. -/
def appendEvent (a : LedgerAppend) : Prog LedgerTable (Except Error LedgerEventRow) := do
  if !(← isAutocommit) then appendInTxn sha256 a
  else match ← beginImmediate busyAttempts with
    | some e => return .error e
    | none =>
      match ← appendInTxn sha256 a with
      | .ok row =>
        match ← stmt .commit with
        | some e => return .error e
        | none => return .ok row
      | .error e =>
        let _ ← stmt .rollback
        return .error e

/-! ### The next row -/

theorem recomputes_successor (head : Option LedgerEventRow) (a : LedgerAppend) :
    recomputes sha256 (successor sha256 head a) = true := by
  simp [recomputes, successor, canonicalOf]

theorem lt_successor {t : LedgerTable} (a : LedgerAppend) :
    ∀ x ∈ t.rows, x.seq < (successor sha256 t.last a).seq := by
  intro x hx
  cases h : t.last with
  | none =>
    have : t.rows = [] := List.getLast?_eq_none_iff.mp h
    simp [this] at hx
  | some r =>
    have := LedgerTable.le_last h hx
    simp only [successor, Option.map_some, Option.getD_some]
    omega

/-- The next row always has a place, at the end. -/
theorem insert_successor (t : LedgerTable) (a : LedgerAppend) :
    ∃ t', t.insert (successor sha256 t.last a) = some t' ∧
      t'.rows = t.rows ++ [successor sha256 t.last a] :=
  Option.map_eq_some_iff.mp (LedgerTable.insert_last (lt_successor sha256 a))

/-- The ledger after an append that went through. -/
def appended (t : LedgerTable) (a : LedgerAppend) : LedgerTable :=
  (t.insert (successor sha256 t.last a)).getD t

theorem rows_appended (t : LedgerTable) (a : LedgerAppend) :
    (appended sha256 t a).rows = t.rows ++ [successor sha256 t.last a] := by
  obtain ⟨t', hins, hrows⟩ := insert_successor sha256 t a
  rw [appended, hins, Option.getD_some, hrows]

/-! ### A call, statement by statement -/

/-- The statements of a call, no other connection between them. -/
def alone (faults : ℕ → Fault) (n : ℕ) : Turn LedgerTable := ⟨none, false, faults n⟩

/-- A connection in autocommit. -/
def idle (t : LedgerTable) (version : ℕ) : Conn LedgerTable := ⟨t, version, .reader .auto, false⟩

/-- A connection that holds the write lock. -/
def writer (t : LedgerTable) (version : ℕ) (work : LedgerTable) : Conn LedgerTable :=
  ⟨t, version, .writing work, false⟩

@[simp] theorem isAuto_idle (t : LedgerTable) (v : ℕ) : (idle t v).isAuto = true := rfl

/-- It is what a call of `append_event` commits, nothing befalling it. -/
theorem run_appendEvent_quiet (t : LedgerTable) (v : ℕ) (a : LedgerAppend) :
    ((appendEvent sha256 a).run (alone fun _ => .none) 0 (idle t v)).2.1 =
      idle (appended sha256 t a) (v + 1) := by
  obtain ⟨w', hins, -⟩ := insert_successor sha256 t a
  simp [appendEvent, appendInTxn, beginImmediate, busyAttempts, Prog.run, Prog.bind, Turn.before,
    alone, idle, Conn.isAuto, Conn.exec, Conn.execBegin, Conn.query, Conn.sees, Conn.execWrite,
    Conn.workOn, Conn.execCommit, appended, hins]

/-- The statement after the `BEGIN IMMEDIATE` that is let through; none if
the attempts run out or one fails otherwise. -/
def beginsAt (faults : ℕ → Fault) : ℕ → ℕ → Option ℕ
  | 0, n => if faults n = .none then some (n + 1) else none
  | attempts + 1, n =>
    match faults n with
    | .none => some (n + 1)
    | .refused .busy => beginsAt faults attempts (n + 1)
    | _ => none

theorem run_beginImmediate (faults : ℕ → Fault) (t : LedgerTable) (v : ℕ) :
    ∀ attempts n : ℕ, match beginsAt faults attempts n with
      | some m => (beginImmediate attempts).run (alone faults) n (idle t v) =
          (none, writer t v t, m)
      | none => ∃ e m, (beginImmediate attempts).run (alone faults) n (idle t v) =
          (some e, idle t v, m)
  | 0, n => by
    cases h : faults n with
    | none => simp [beginsAt, h, beginImmediate, stmt, run, Turn.before, alone, idle, writer,
        Conn.exec, Conn.execBegin, Conn.isAuto]
    | refused e => simp [beginsAt, h, beginImmediate, stmt, run, Turn.before, alone, idle, Conn.exec]
    | aborted => simp [beginsAt, h, beginImmediate, stmt, run, Turn.before, alone, idle, Conn.exec]
  | attempts + 1, n => by
    cases h : faults n with
    | none => simp [beginsAt, h, beginImmediate, run, Turn.before, alone, idle, writer,
        Conn.exec, Conn.execBegin, Conn.isAuto]
    | aborted => simp [beginsAt, h, beginImmediate, run, Turn.before, alone, idle, Conn.exec]
    | refused e =>
      cases e with
      | failed => simp [beginsAt, h, beginImmediate, run, Turn.before, alone, idle, Conn.exec]
      | busy =>
        have ih := run_beginImmediate faults t v attempts (n + 1)
        simpa [beginsAt, h, beginImmediate, run, Turn.before, alone, idle, Conn.exec] using ih

theorem run_appendInTxn (faults : ℕ → Fault) (t w : LedgerTable) (v n : ℕ) (a : LedgerAppend) :
    if faults n = .none ∧ faults (n + 1) = .none then
      ∃ w', w'.rows = w.rows ++ [successor sha256 w.last a] ∧
        (appendInTxn sha256 a).run (alone faults) n (writer t v w) =
          (.ok (successor sha256 w.last a), writer t v w', n + 2)
    else ∃ e c m, (c = writer t v w ∨ c = idle t v) ∧
      (appendInTxn sha256 a).run (alone faults) n (writer t v w) = (.error e, c, m) := by
  obtain ⟨w', hins, hrows⟩ := insert_successor sha256 w a
  cases h : faults n with
  | refused e =>
    simp [h, appendInTxn, run, Turn.before, alone, writer, idle, Conn.query]
  | aborted =>
    simp [h, appendInTxn, run, Turn.before, alone, writer, idle, Conn.query]
  | none =>
    cases h1 : faults (n + 1) with
    | none =>
      refine (if_pos ⟨rfl, rfl⟩).mpr ⟨w', hrows, ?_⟩
      simp [h, h1, hins, appendInTxn, run, Turn.before, alone, writer, Conn.query, Conn.sees, Conn.exec,
        Conn.execWrite, Conn.workOn]
    | refused e =>
      simp [h, h1, appendInTxn, run, Turn.before, alone, writer, idle, Conn.query, Conn.sees, Conn.exec]
    | aborted =>
      simp [h, h1, appendInTxn, run, Turn.before, alone, writer, idle, Conn.query, Conn.sees, Conn.exec]

/-- The `COMMIT` of a call is refused and its transaction left open: the
`BEGIN`, the head's `SELECT` and the `INSERT` went through, the `COMMIT` did
not. -/
def CommitRefused (faults : ℕ → Fault) : Prop :=
  ∃ m, beginsAt faults busyAttempts 0 = some m ∧ faults m = .none ∧ faults (m + 1) = .none ∧
    ∃ e, faults (m + 2) = .refused e

/-- **What a call that owns its transaction does.** It commits the next row
and returns it, or returns an error with the table and the connection as they
were; unless its `COMMIT` is refused, which leaves the connection in the
transaction. -/
theorem run_appendEvent_auto (faults : ℕ → Fault) (t : LedgerTable) (v : ℕ) (a : LedgerAppend) :
    ∃ w' : LedgerTable, w'.rows = t.rows ++ [successor sha256 t.last a] ∧
      let out := (appendEvent sha256 a).run (alone faults) 0 (idle t v)
      (CommitRefused faults ∧ (∃ e, out.1 = .error e) ∧ out.2.1 = writer t v w') ∨
      (¬ CommitRefused faults ∧ (∃ e, out.1 = .error e) ∧ out.2.1 = idle t v) ∨
      (¬ CommitRefused faults ∧ out.1 = .ok (successor sha256 t.last a) ∧
        out.2.1 = idle w' (v + 1)) := by
  have hbegin := run_beginImmediate faults t v busyAttempts 0
  cases hb : beginsAt faults busyAttempts 0 with
  | none =>
    simp only [hb] at hbegin
    obtain ⟨e, m, hrun⟩ := hbegin
    obtain ⟨w', -, hrows⟩ := insert_successor sha256 t a
    refine ⟨w', hrows, .inr (.inl ?_)⟩
    simp only [appendEvent, bind_eq, isAutocommit_bind, run, isAuto_idle, Bool.not_true,
      Bool.false_eq_true, if_false, run_bind, hrun]
    exact ⟨fun ⟨_, h, _⟩ => by simp [hb] at h, ⟨e, rfl⟩, rfl⟩
  | some m =>
    simp only [hb] at hbegin
    have happend := run_appendInTxn sha256 faults t t v m a
    by_cases hok : faults m = .none ∧ faults (m + 1) = .none
    · rw [if_pos hok] at happend
      obtain ⟨w', hrows, hrun⟩ := happend
      refine ⟨w', hrows, ?_⟩
      simp only [appendEvent, bind_eq, isAutocommit_bind, run, isAuto_idle, Bool.not_true,
        Bool.false_eq_true, if_false, run_bind, hbegin, hrun, stmt_bind]
      have hrefused : CommitRefused faults ↔ ∃ e, faults (m + 2) = .refused e :=
        ⟨fun ⟨m', h, h1, h2, h3⟩ => by cases hb.symm.trans h; exact h3,
          fun h => ⟨m, hb, hok.1, hok.2, h⟩⟩
      rw [hrefused]
      cases hc : faults (m + 2) with
      | none => exact .inr (.inr (by simp [run, Turn.before, alone, writer, idle, hc, Conn.exec,
          Conn.execCommit]))
      | refused e => exact .inl (by simp [run, Turn.before, alone, writer, hc, Conn.exec])
      | aborted => exact .inr (.inl (by simp [run, Turn.before, alone, writer, idle, hc, Conn.exec]))
    · rw [if_neg hok] at happend
      obtain ⟨e, c, m', hc, hrun⟩ := happend
      obtain ⟨w', -, hrows⟩ := insert_successor sha256 t a
      refine ⟨w', hrows, .inr (.inl ?_)⟩
      simp only [appendEvent, bind_eq, isAutocommit_bind, run, isAuto_idle, Bool.not_true,
        Bool.false_eq_true, if_false, run_bind, hbegin, hrun, stmt_bind]
      refine ⟨fun ⟨m', h, h1, h2, h3⟩ => by cases hb.symm.trans h; exact hok ⟨h1, h2⟩, ⟨e, rfl⟩, ?_⟩
      rcases hc with rfl | rfl
      · simp [run, Turn.before, writer, idle, Conn.exec, Conn.isAuto]
      · simp [run, Turn.before, alone, idle, Conn.exec, Conn.isAuto]

/-! ### A history of calls on one connection -/

/-- A call of `append_event` and what befalls its statements. -/
structure Call where
  event : LedgerAppend
  faults : ℕ → Fault

/-- A call's result and the connection after it. -/
def Call.run (call : Call) (c : Conn LedgerTable) :
    Except Error LedgerEventRow × Conn LedgerTable :=
  let out := (appendEvent sha256 call.event).run (alone call.faults) 0 c
  (out.1, out.2.1)

/-- The next call that returns a row has committed it after the head of
`base`. -/
def NextIsDurable (base : LedgerTable) : Conn LedgerTable → List Call → Prop
  | _, [] => True
  | c, call :: calls =>
    match call.run sha256 c with
    | (.error _, c') => NextIsDurable base c' calls
    | (.ok row, c') => row = successor sha256 base.last call.event ∧
        c'.committed.rows = base.rows ++ [row] ∧ c'.isAuto = true

/-- After an error the table is unchanged, the connection is in no
transaction, and the next call that returns a row has committed it. -/
def CallMeets (c : Conn LedgerTable) (call : Call) (calls : List Call) : Prop :=
  ∀ e, (call.run sha256 c).1 = .error e →
    (call.run sha256 c).2.committed = c.committed ∧ (call.run sha256 c).2.isAuto = true ∧
      NextIsDurable sha256 c.committed (call.run sha256 c).2 calls

/-- Every call of the history that owns its transaction meets its contract. -/
def HistoryMeets : Conn LedgerTable → List Call → Prop
  | _, [] => True
  | c, call :: calls => (c.isAuto = true → CallMeets sha256 c call calls) ∧
      HistoryMeets (call.run sha256 c).2 calls

/-- No call of the history that owns its transaction has its `COMMIT` refused
and the transaction left open. -/
def NeverRefused : Conn LedgerTable → List Call → Prop
  | _, [] => True
  | c, call :: calls => (c.isAuto = true → ¬ CommitRefused call.faults) ∧
      NeverRefused (call.run sha256 c).2 calls

theorem run_call_idle (call : Call) (t : LedgerTable) (v : ℕ) :
    ∃ w' : LedgerTable, w'.rows = t.rows ++ [successor sha256 t.last call.event] ∧
      ((CommitRefused call.faults ∧ ∃ e, call.run sha256 (idle t v) = (.error e, writer t v w')) ∨
      (¬ CommitRefused call.faults ∧ ∃ e, call.run sha256 (idle t v) = (.error e, idle t v)) ∨
      (¬ CommitRefused call.faults ∧ call.run sha256 (idle t v) =
        (.ok (successor sha256 t.last call.event), idle w' (v + 1)))) := by
  obtain ⟨w', hrows, h⟩ := run_appendEvent_auto sha256 call.faults t v call.event
  refine ⟨w', hrows, ?_⟩
  rcases h with ⟨hr, ⟨e, he⟩, hc⟩ | ⟨hr, ⟨e, he⟩, hc⟩ | ⟨hr, he, hc⟩
  · exact .inl ⟨hr, e, Prod.ext he hc⟩
  · exact .inr (.inl ⟨hr, e, Prod.ext he hc⟩)
  · exact .inr (.inr ⟨hr, Prod.ext he hc⟩)

/-- Where no `COMMIT` is refused the next row returned is committed. -/
theorem nextIsDurable_of_neverRefused (t : LedgerTable) (v : ℕ) : ∀ calls : List Call,
    NeverRefused sha256 (idle t v) calls → NextIsDurable sha256 t (idle t v) calls
  | [], _ => trivial
  | call :: calls, ⟨hno, hrest⟩ => by
    obtain ⟨w', hrows, ⟨hr, -⟩ | ⟨-, e, h⟩ | ⟨-, h⟩⟩ := run_call_idle sha256 call t v
    · exact absurd hr (hno rfl)
    · rw [h] at hrest
      simp only [NextIsDurable, h]
      exact nextIsDurable_of_neverRefused t v calls hrest
    · simp only [NextIsDurable, h]
      exact ⟨trivial, hrows, rfl⟩

/-- **Calls that own their transactions meet their contract exactly while no
`COMMIT` is refused with its transaction left open.** -/
theorem historyMeets_iff (calls : List Call) : ∀ (t : LedgerTable) (v : ℕ),
    HistoryMeets sha256 (idle t v) calls ↔ NeverRefused sha256 (idle t v) calls := by
  induction calls with
  | nil => exact fun _ _ => Iff.rfl
  | cons call calls ih =>
    intro t v
    obtain ⟨w', hrows, ⟨hr, e, h⟩ | ⟨hr, e, h⟩ | ⟨hr, h⟩⟩ := run_call_idle sha256 call t v
    · -- the error leaves the connection in the transaction
      refine ⟨fun hm => ?_, fun hn => absurd hr (hn.1 rfl)⟩
      obtain ⟨-, hauto, -⟩ := hm.1 rfl e (by rw [h])
      rw [h] at hauto
      cases hauto
    · rw [HistoryMeets, NeverRefused, h, ih]
      refine and_congr_left fun hn => ⟨fun _ _ => hr, fun _ _ e' _ => ?_⟩
      rw [h]
      exact ⟨rfl, rfl, nextIsDurable_of_neverRefused sha256 t v calls hn⟩
    · rw [HistoryMeets, NeverRefused, h, ih]
      refine and_congr_left fun _ => ⟨fun _ _ => hr, fun _ _ e' he' => ?_⟩
      rw [h] at he'
      cases he'

/-- The first event of the two, its call's `COMMIT` refused as busy, and then
the second, nothing befalling it. -/
def refusedThenJoined : List Call :=
  [⟨⟨"prompt", "user", 10, none, none, none, none, none, "p"⟩,
      fun n => if n = 3 then .refused .busy else .none⟩,
    ⟨⟨"resolution", "user", 20, none, none, none, none, none, "p"⟩, fun _ => .none⟩]

/-- The first call returns an error and leaves the connection in its
transaction; the second returns the second event, and nothing is committed. -/
theorem refusedThenJoined_not_meets :
    ¬ HistoryMeets twoDigest (idle .empty 0) refusedThenJoined ∧
      ∃ first second : Call, refusedThenJoined = [first, second] ∧
        let c := (first.run twoDigest (idle .empty 0)).2
        c.isAuto = false ∧ (second.run twoDigest c).1.toOption = twoEvents.rows[1]? ∧
          (second.run twoDigest c).2.committed = .empty := by
  refine ⟨fun hm => ?_, _, _, rfl, rfl, ?_, rfl⟩
  · obtain ⟨-, hauto, -⟩ := hm.1 rfl .busy rfl
    exact absurd hauto (by decide)
  · decide +kernel

end PolisMemory
