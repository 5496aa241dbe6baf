/-
# Transactions of one connection

A connection that no other one disturbs, its statements failing as they will.
Code inside a transaction stops at the first statement that fails
(`Prog.Stops`); what it does where none fails is a function of the state it
began from (`Prog.eval`). Run between `BEGIN IMMEDIATE` and `COMMIT`, rolled
back after an error, such code is all or nothing (`Prog.run_immediate`).

A program on a part of the state runs on the whole as it does on the part
(`Prog.run_zoom`).

Key definitions: `Prog.eval`, `Prog.Stops`, `Prog.immediate`,
`Prog.transaction`, `Prog.zoom`.
Key theorems: `Prog.Stops.run`, `Prog.Stops.run_steps`, `Prog.run_immediate`,
`Prog.run_transaction`, `Prog.run_shift`, `Prog.run_zoom`.
-/
import PolisMemory.Sqlite
import Mathlib.Tactic.SplitIfs

namespace Sqlite

variable {σ τ ρ υ : Type}

/-- The statements of a connection, no other one between them. -/
def Prog.Turn.alone (faults : ℕ → Fault) (n : ℕ) : Prog.Turn σ := ⟨none, false, faults n⟩

/-- A connection in autocommit. -/
def Conn.idle (s : σ) (version : ℕ) : Conn σ := ⟨s, version, .reader .auto, false⟩

/-- A connection that holds the write lock. -/
def Conn.writer (s : σ) (version : ℕ) (work : σ) : Conn σ := ⟨s, version, .writing work, false⟩

open Prog.Turn Conn

namespace Prog

/-! ### Inside a transaction -/

/-- What a program inside a transaction makes of the state, every statement
let through: its result and the state after it. -/
def eval : Prog σ (Except Error ρ) → σ → Except Error (ρ × σ)
  | ret (.ok r), s => .ok (r, s)
  | ret (.error e), _ => .error e
  | autocommit k, s => (k false).eval s
  | query k, s => (k (.ok s)).eval s
  | exec (.write f) k, s =>
    match f s with
    | some s' => (k none).eval s'
    | none => .error .failed
  | exec _ _, _ => .error .failed

/-- The program only reads and writes, and ends at the first statement that
fails. -/
inductive Stops : Prog σ (Except Error ρ) → Prop
  | ret (r : Except Error ρ) : Stops (ret r)
  | autocommit {k : Bool → Prog σ (Except Error ρ)} (hk : Stops (k false)) : Stops (autocommit k)
  | query {k : Except Error σ → Prog σ (Except Error ρ)}
    (he : ∀ e, ∃ e', k (.error e) = .ret (.error e')) (hk : ∀ s, Stops (k (.ok s))) : Stops (query k)
  | write {f : σ → Option σ} {k : Option Error → Prog σ (Except Error ρ)}
    (he : ∀ e, ∃ e', k (some e) = .ret (.error e')) (hk : Stops (k none)) : Stops (exec (.write f) k)

/-- Go on with a result, or end with an error. -/
def orStop (f : ρ → Prog σ (Except Error υ)) : Except Error ρ → Prog σ (Except Error υ)
  | .error e => ret (.error e)
  | .ok r => f r

theorem Stops.bind {p : Prog σ (Except Error ρ)} {f : ρ → Prog σ (Except Error υ)} (hp : Stops p)
    (hf : ∀ r, Stops (f r)) : Stops (p.bind (orStop f)) := by
  induction hp with
  | ret r =>
    cases r with
    | error e => exact .ret _
    | ok r => exact hf r
  | autocommit _ ih => exact .autocommit ih
  | query he _ ih =>
    refine .query (fun e => ?_) ih
    obtain ⟨e', h⟩ := he e
    exact ⟨e', by rw [h]; rfl⟩
  | write he _ ih =>
    refine .write (fun e => ?_) ih
    obtain ⟨e', h⟩ := he e
    exact ⟨e', by rw [h]; rfl⟩

theorem Stops.eval_bind {p : Prog σ (Except Error ρ)} (hp : Stops p)
    (f : ρ → Prog σ (Except Error υ)) :
    ∀ s, (p.bind (orStop f)).eval s = (p.eval s).bind fun out => (f out.1).eval out.2 := by
  induction hp with
  | ret r => cases r <;> exact fun _ => rfl
  | autocommit _ ih => exact ih
  | query _ _ ih => exact fun s => ih s s
  | @write g k _ _ ih =>
    intro s
    simp only [Prog.bind, eval]
    cases g s with
    | none => rfl
    | some s' => exact ih s'

/-- **What runs inside a transaction** either ends with what `eval` makes of
the state, or with an error: then the transaction is still open, or gone. -/
theorem Stops.run {p : Prog σ (Except Error ρ)} (hp : Stops p) (faults : ℕ → Fault) (s : σ) (v : ℕ) :
    ∀ w n, (∃ r w' m, p.eval w = .ok (r, w') ∧
        p.run (alone faults) n (writer s v w) = (.ok r, writer s v w', m)) ∨
      ∃ e c m, (c = idle s v ∨ ∃ w', c = writer s v w') ∧
        p.run (alone faults) n (writer s v w) = (.error e, c, m) := by
  induction hp with
  | ret r =>
    intro w n
    cases r with
    | ok r => exact .inl ⟨r, w, n, rfl, rfl⟩
    | error e => exact .inr ⟨e, writer s v w, n, .inr ⟨w, rfl⟩, rfl⟩
  | autocommit _ ih => exact ih
  | @query k he _ ih =>
    intro w n
    cases hf : faults n with
    | none =>
      have hrun : (Prog.query k).run (alone faults) n (writer s v w) =
          (k (.ok w)).run (alone faults) (n + 1) (writer s v w) := by
        simp [Prog.run, alone, hf, Turn.before, writer, Conn.query, Conn.sees]
      rw [hrun]
      exact ih w w (n + 1)
    | refused e =>
      obtain ⟨e', h⟩ := he e
      refine .inr ⟨e', writer s v w, n + 1, .inr ⟨w, rfl⟩, ?_⟩
      simp [Prog.run, alone, hf, Turn.before, writer, Conn.query, h]
    | aborted =>
      obtain ⟨e', h⟩ := he .failed
      refine .inr ⟨e', idle s v, n + 1, .inl rfl, ?_⟩
      simp [Prog.run, alone, hf, Turn.before, writer, idle, Conn.query, h]
  | @write g k he _ ih =>
    intro w n
    cases hf : faults n with
    | none =>
      cases hg : g w with
      | none =>
        obtain ⟨e', h⟩ := he .failed
        refine .inr ⟨e', writer s v w, n + 1, .inr ⟨w, rfl⟩, ?_⟩
        simp [Prog.run, alone, hf, Turn.before, writer, Conn.exec, Conn.execWrite, Conn.workOn, hg, h]
      | some w' =>
        have hrun : (Prog.exec (.write g) k).run (alone faults) n (writer s v w) =
            (k none).run (alone faults) (n + 1) (writer s v w') := by
          simp [Prog.run, alone, hf, Turn.before, writer, Conn.exec, Conn.execWrite, Conn.workOn, hg]
        rw [hrun, eval, hg]
        exact ih w' (n + 1)
    | refused e =>
      obtain ⟨e', h⟩ := he e
      refine .inr ⟨e', writer s v w, n + 1, .inr ⟨w, rfl⟩, ?_⟩
      simp [Prog.run, alone, hf, Turn.before, writer, Conn.exec, h]
    | aborted =>
      obtain ⟨e', h⟩ := he .failed
      refine .inr ⟨e', idle s v, n + 1, .inl rfl, ?_⟩
      simp [Prog.run, alone, hf, Turn.before, writer, idle, Conn.exec, h]

/-- How many statements a program makes in a transaction where none fails. -/
def steps : Prog σ (Except Error ρ) → σ → ℕ
  | ret _, _ => 0
  | autocommit k, s => (k false).steps s
  | query k, s => (k (.ok s)).steps s + 1
  | exec (.write f) k, s =>
    match f s with
    | some s' => (k none).steps s' + 1
    | none => 1
  | exec _ _, _ => 1

theorem Stops.steps_bind {p : Prog σ (Except Error ρ)} (hp : Stops p)
    (f : ρ → Prog σ (Except Error υ)) : ∀ s r s', p.eval s = .ok (r, s') →
      (p.bind (orStop f)).steps s = p.steps s + (f r).steps s' := by
  induction hp with
  | ret r =>
    intro s r' s' h
    cases r with
    | ok r =>
      cases h
      exact (Nat.zero_add _).symm
    | error e => cases h
  | autocommit _ ih => exact ih
  | query _ _ ih =>
    intro s r s' h
    have ih := ih s s r s' h
    simp only [Prog.bind, steps]
    rw [ih, Nat.add_right_comm]
  | @write g k _ _ ih =>
    intro s r s' h
    simp only [Prog.bind, steps]
    rw [eval] at h
    cases hg : g s with
    | none =>
      rw [hg] at h
      cases h
    | some x =>
      rw [hg] at h
      have ih := ih x r s' h
      simp only
      rw [ih, Nat.add_right_comm]

/-- What befalls the statements after one that was let through. -/
theorem steps_succ {faults : ℕ → Fault} {n k : ℕ} {ok bad : Prop} (hf : faults n = .none)
    (h : ((∀ i < k, faults (n + 1 + i) = .none) ∧ ok) ∨
      ((∃ i < k, faults (n + 1 + i) ≠ .none) ∧ bad)) :
    ((∀ i < k + 1, faults (n + i) = .none) ∧ ok) ∨
      ((∃ i < k + 1, faults (n + i) ≠ .none) ∧ bad) := by
  rcases h with ⟨hall, hok⟩ | ⟨⟨i, hi, hbad⟩, h⟩
  · refine .inl ⟨fun i hi => ?_, hok⟩
    cases i with
    | zero => exact hf
    | succ i =>
      have hnone := hall i (Nat.lt_of_succ_lt_succ hi)
      rwa [Nat.add_assoc, Nat.add_comm 1] at hnone
  · refine .inr ⟨⟨i + 1, Nat.succ_lt_succ hi, ?_⟩, h⟩
    rwa [Nat.add_assoc, Nat.add_comm 1] at hbad

/-- Code that `eval` has a result for ends with that result exactly where none
of its statements fails. -/
theorem Stops.run_steps {p : Prog σ (Except Error ρ)} (hp : Stops p) (faults : ℕ → Fault) (s : σ)
    (v : ℕ) : ∀ w n r w', p.eval w = .ok (r, w') →
      ((∀ i < p.steps w, faults (n + i) = .none) ∧
        p.run (alone faults) n (writer s v w) = (.ok r, writer s v w', n + p.steps w)) ∨
      ((∃ i < p.steps w, faults (n + i) ≠ .none) ∧
        ∃ e c m, (c = idle s v ∨ ∃ w', c = writer s v w') ∧
          p.run (alone faults) n (writer s v w) = (.error e, c, m)) := by
  induction hp with
  | ret r =>
    intro w n r' w' h
    cases r with
    | ok r =>
      cases h
      exact .inl ⟨fun i hi => absurd hi (Nat.not_lt_zero i), rfl⟩
    | error e => cases h
  | autocommit _ ih => exact ih
  | @query k he _ ih =>
    intro w n r w' h
    cases hf : faults n with
    | none =>
      have hrun : (Prog.query k).run (alone faults) n (writer s v w) =
          (k (.ok w)).run (alone faults) (n + 1) (writer s v w) := by
        simp [Prog.run, alone, hf, Turn.before, writer, Conn.query, Conn.sees]
      have ih := ih w w (n + 1) r w' h
      rw [Nat.add_right_comm] at ih
      rw [hrun]
      exact steps_succ hf ih
    | refused e =>
      obtain ⟨e', h'⟩ := he e
      refine .inr ⟨⟨0, Nat.succ_pos _, by simp [hf]⟩, e', writer s v w, n + 1, .inr ⟨w, rfl⟩, ?_⟩
      simp [Prog.run, alone, hf, Turn.before, writer, Conn.query, h']
    | aborted =>
      obtain ⟨e', h'⟩ := he .failed
      refine .inr ⟨⟨0, Nat.succ_pos _, by simp [hf]⟩, e', idle s v, n + 1, .inl rfl, ?_⟩
      simp [Prog.run, alone, hf, Turn.before, writer, idle, Conn.query, h']
  | @write g k he _ ih =>
    intro w n r w' h
    rw [eval] at h
    cases hg : g w with
    | none =>
      rw [hg] at h
      cases h
    | some x =>
      rw [hg] at h
      have hsteps : (Prog.exec (.write g) k).steps w = (k none).steps x + 1 := by rw [steps, hg]
      rw [hsteps]
      cases hf : faults n with
      | none =>
        have hrun : (Prog.exec (.write g) k).run (alone faults) n (writer s v w) =
            (k none).run (alone faults) (n + 1) (writer s v x) := by
          simp [Prog.run, alone, hf, Turn.before, writer, Conn.exec, Conn.execWrite, Conn.workOn, hg]
        have ih := ih x (n + 1) r w' h
        rw [Nat.add_right_comm] at ih
        rw [hrun]
        exact steps_succ hf ih
      | refused e =>
        obtain ⟨e', h'⟩ := he e
        refine .inr ⟨⟨0, Nat.succ_pos _, by simp [hf]⟩, e', writer s v w, n + 1, .inr ⟨w, rfl⟩, ?_⟩
        simp [Prog.run, alone, hf, Turn.before, writer, Conn.exec, h']
      | aborted =>
        obtain ⟨e', h'⟩ := he .failed
        refine .inr ⟨⟨0, Nat.succ_pos _, by simp [hf]⟩, e', idle s v, n + 1, .inl rfl, ?_⟩
        simp [Prog.run, alone, hf, Turn.before, writer, idle, Conn.exec, h']

/-- Where no statement fails it ends with what `eval` makes of the state. -/
theorem Stops.run_quiet {p : Prog σ (Except Error ρ)} (hp : Stops p) (s : σ) (v : ℕ) :
    ∀ w n, (∀ r w', p.eval w = .ok (r, w') →
        ∃ m, p.run (alone fun _ => .none) n (writer s v w) = (.ok r, writer s v w', m)) := by
  induction hp with
  | ret r =>
    intro w n r' w' h
    cases r with
    | ok r =>
      cases h
      exact ⟨n, rfl⟩
    | error e => cases h
  | autocommit _ ih => exact ih
  | @query k he _ ih =>
    intro w n r w' h
    have hrun : (Prog.query k).run (alone fun _ => .none) n (writer s v w) =
        (k (.ok w)).run (alone fun _ => .none) (n + 1) (writer s v w) := by
      simp [Prog.run, alone, Turn.before, writer, Conn.query, Conn.sees]
    rw [hrun]
    exact ih w w (n + 1) r w' h
  | @write g k he _ ih =>
    intro w n r w' h
    rw [eval] at h
    cases hg : g w with
    | none =>
      rw [hg] at h
      cases h
    | some x =>
      rw [hg] at h
      have hrun : (Prog.exec (.write g) k).run (alone fun _ => .none) n (writer s v w) =
          (k none).run (alone fun _ => .none) (n + 1) (writer s v x) := by
        simp [Prog.run, alone, Turn.before, writer, Conn.exec, Conn.execWrite, Conn.workOn, hg]
      rw [hrun]
      exact ih x (n + 1) r w' h

/-! ### Immediate transactions -/

/-- `transaction_with_behavior(Immediate)`: the body, then `COMMIT`; what is
dropped uncommitted is rolled back. -/
def immediate (body : Prog σ (Except Error ρ)) : Prog σ (Except Error ρ) := do
  match ← stmt (.beginTx true) with
  | some e => return .error e
  | none =>
    match ← body with
    | .error e =>
      let _ ← stmt .rollback
      return .error e
    | .ok r =>
      match ← stmt .commit with
      | none => return .ok r
      | some e =>
        let _ ← stmt .rollback
        return .error e

/-- How code in a transaction ends that has no error: it commits, or lets the
transaction drop. -/
inductive Ending (ρ : Type) where
  | commit (r : ρ)
  | drop (r : ρ)

/-- `transaction_with_behavior(Immediate)`, the body saying how it ends. -/
def transaction (body : Prog σ (Except Error (Ending ρ))) : Prog σ (Except Error ρ) := do
  match ← stmt (.beginTx true) with
  | some e => return .error e
  | none =>
    match ← body with
    | .error e =>
      let _ ← stmt .rollback
      return .error e
    | .ok (.drop r) =>
      let _ ← stmt .rollback
      return .ok r
    | .ok (.commit r) =>
      match ← stmt .commit with
      | none => return .ok r
      | some e =>
        let _ ← stmt .rollback
        return .error e

/-- A savepoint in a transaction that is open: what the connection sees, put
back after an error. -/
def savepoint (body : Prog σ (Except Error ρ)) : Prog σ (Except Error ρ) := do
  match ← select with
  | .error e => return .error e
  | .ok s =>
    match ← body with
    | .error e =>
      let _ ← stmt (.write fun _ => some s)
      return .error e
    | .ok r => return .ok r

/-- A rollback leaves the connection in autocommit, with nothing committed. -/
theorem run_rollback (faults : ℕ → Fault) {s : σ} {v : ℕ} {c : Conn σ}
    (hc : c = idle s v ∨ ∃ w, c = writer s v w) (n : ℕ) (r : ρ) :
    (exec .rollback fun _ => ret r).run (alone faults) n c = (r, idle s v, n + 1) := by
  rcases hc with rfl | ⟨w, rfl⟩
  · simp [Prog.run, idle, alone, Turn.before, Conn.exec, Conn.isAuto]
  · simp [Prog.run, idle, writer, Turn.before, Conn.exec, Conn.isAuto]

/-- **An immediate transaction is all or nothing**: what `eval` makes of the
state is committed, or there is an error and nothing is. -/
theorem run_immediate {body : Prog σ (Except Error ρ)} (hbody : Stops body) (faults : ℕ → Fault)
    (s : σ) (v n : ℕ) :
    (∃ r s' m, body.eval s = .ok (r, s') ∧
        (immediate body).run (alone faults) n (idle s v) = (.ok r, idle s' (v + 1), m)) ∨
      ∃ e m, (immediate body).run (alone faults) n (idle s v) = (.error e, idle s v, m) := by
  cases hf : faults n with
  | refused e =>
    exact .inr ⟨e, n + 1, by simp [immediate, Prog.run, alone, Turn.before, idle, Conn.exec, hf]⟩
  | aborted =>
    exact .inr ⟨.failed, n + 1, by simp [immediate, Prog.run, alone, Turn.before, idle, Conn.exec, hf]⟩
  | none =>
    have hbegin : ((alone faults n).before (idle s v)).exec (alone faults n : Turn σ).fault
        (.beginTx true) = (writer s v s, none) := by
      simp [alone, hf, Turn.before, idle, writer, Conn.exec, Conn.execBegin, Conn.isAuto]
    rcases hbody.run faults s v s (n + 1) with ⟨r, w, m, heval, hrun⟩ | ⟨e, c, m, hc, hrun⟩
    · cases hm : faults m with
      | none =>
        refine .inl ⟨r, w, m + 1, heval, ?_⟩
        simp only [immediate, bind_eq, stmt_bind, Prog.run, hbegin, run_bind, hrun]
        simp [Prog.run, alone, hm, Turn.before, writer, idle, Conn.exec, Conn.execCommit]
      | refused e =>
        refine .inr ⟨e, m + 2, ?_⟩
        simp only [immediate, bind_eq, stmt_bind, Prog.run, hbegin, run_bind, hrun]
        simp [Prog.run, alone, hm, Turn.before, writer, idle, Conn.exec, Conn.isAuto]
      | aborted =>
        refine .inr ⟨.failed, m + 2, ?_⟩
        simp only [immediate, bind_eq, stmt_bind, Prog.run, hbegin, run_bind, hrun]
        simp [Prog.run, alone, hm, Turn.before, writer, idle, Conn.exec, Conn.isAuto]
    · refine .inr ⟨e, m + 1, ?_⟩
      simp only [immediate, bind_eq, stmt_bind, Prog.run, hbegin, run_bind, hrun]
      exact run_rollback faults hc m _

/-- The same of a body that says how it ends. -/
theorem run_transaction {body : Prog σ (Except Error (Ending ρ))} (hbody : Stops body)
    (faults : ℕ → Fault) (s : σ) (v n : ℕ) :
    (∃ r s' m, body.eval s = .ok (.commit r, s') ∧
        (transaction body).run (alone faults) n (idle s v) = (.ok r, idle s' (v + 1), m)) ∨
      ∃ r m, (transaction body).run (alone faults) n (idle s v) = (r, idle s v, m) := by
  cases hf : faults n with
  | refused e =>
    exact .inr ⟨.error e, n + 1, by simp [transaction, Prog.run, alone, Turn.before, idle, Conn.exec, hf]⟩
  | aborted =>
    exact .inr ⟨.error .failed, n + 1, by
      simp [transaction, Prog.run, alone, Turn.before, idle, Conn.exec, hf]⟩
  | none =>
    have hbegin : ((alone faults n).before (idle s v)).exec (alone faults n : Turn σ).fault
        (.beginTx true) = (writer s v s, none) := by
      simp [alone, hf, Turn.before, idle, writer, Conn.exec, Conn.execBegin, Conn.isAuto]
    rcases hbody.run faults s v s (n + 1) with ⟨r, w, m, heval, hrun⟩ | ⟨e, c, m, hc, hrun⟩
    · cases r with
      | drop r =>
        refine .inr ⟨.ok r, m + 1, ?_⟩
        simp only [transaction, bind_eq, stmt_bind, Prog.run, hbegin, run_bind, hrun]
        exact run_rollback faults (.inr ⟨w, rfl⟩) m _
      | commit r =>
        cases hm : faults m with
        | none =>
          refine .inl ⟨r, w, m + 1, heval, ?_⟩
          simp only [transaction, bind_eq, stmt_bind, Prog.run, hbegin, run_bind, hrun]
          simp [Prog.run, alone, hm, Turn.before, writer, idle, Conn.exec, Conn.execCommit]
        | refused e =>
          refine .inr ⟨.error e, m + 2, ?_⟩
          simp only [transaction, bind_eq, stmt_bind, Prog.run, hbegin, run_bind, hrun]
          simp [Prog.run, alone, hm, Turn.before, writer, idle, Conn.exec, Conn.isAuto]
        | aborted =>
          refine .inr ⟨.error .failed, m + 2, ?_⟩
          simp only [transaction, bind_eq, stmt_bind, Prog.run, hbegin, run_bind, hrun]
          simp [Prog.run, alone, hm, Turn.before, writer, idle, Conn.exec, Conn.isAuto]
    · refine .inr ⟨.error e, m + 1, ?_⟩
      simp only [transaction, bind_eq, stmt_bind, Prog.run, hbegin, run_bind, hrun]
      exact run_rollback faults hc m _

/-- Where no statement fails what `eval` makes of the state is committed. -/
theorem run_immediate_quiet {body : Prog σ (Except Error ρ)} (hbody : Stops body) {s s' : σ} {r : ρ}
    (h : body.eval s = .ok (r, s')) (v n : ℕ) :
    ∃ m, (immediate body).run (alone fun _ => .none) n (idle s v) = (.ok r, idle s' (v + 1), m) := by
  have hbegin : ((alone (fun _ => .none) n).before (idle s v)).exec
      (alone (fun _ => .none) n : Turn σ).fault (.beginTx true) = (writer s v s, none) := by
    simp [alone, Turn.before, idle, writer, Conn.exec, Conn.execBegin, Conn.isAuto]
  obtain ⟨m, hrun⟩ := hbody.run_quiet s v s (n + 1) r s' h
  refine ⟨m + 1, ?_⟩
  simp only [immediate, bind_eq, stmt_bind, Prog.run, hbegin, run_bind, hrun]
  simp [Prog.run, alone, Turn.before, writer, idle, Conn.exec, Conn.execCommit]

/-! ### Transactions of `execute_batch` -/

/-- The end of a transaction of `execute_batch`es: an error of the code rolls
back, one of the `COMMIT` does not. -/
def batchEnd : Except Error ρ → Prog σ (Except Error ρ)
  | .ok r => do
    match ← stmt .commit with
    | some e => return .error e
    | none => return .ok r
  | .error e => do
    let _ ← stmt .rollback
    return .error e

/-- `execute_batch("BEGIN IMMEDIATE")`, the code, `execute_batch("COMMIT")`. -/
def batch (body : Prog σ (Except Error ρ)) : Prog σ (Except Error ρ) := do
  match ← stmt (.beginTx true) with
  | some e => return .error e
  | none => body >>= batchEnd

/-- After an error nothing more is committed. -/
theorem run_batchEnd_error (faults : ℕ → Fault) (n : ℕ) (c : Conn σ)
    (e : Error) :
    ∃ c' m, (batchEnd (.error e : Except Error ρ)).run (alone faults) n c = (.error e, c', m) ∧
      c'.committed = c.committed := by
  obtain ⟨committed, version, tx, locked⟩ := c
  rcases tx with (_ | _ | _) | _
  all_goals exact ⟨_, _, rfl, rfl⟩

/-- A `COMMIT` in autocommit fails. -/
theorem run_batchEnd_auto (faults : ℕ → Fault) (n : ℕ) (s : σ) (v : ℕ) (r : ρ) :
    ∃ e c m, (batchEnd (.ok r)).run (alone faults) n (idle s v) = (.error e, c, m) ∧ c.committed = s := by
  cases hf : faults n with
  | none => exact ⟨.failed, idle s v, n + 1, by
      simp [batchEnd, Prog.run, alone, hf, Turn.before, idle, Conn.exec, Conn.execCommit], rfl⟩
  | refused e => exact ⟨e, idle s v, n + 1, by
      simp [batchEnd, Prog.run, alone, hf, Turn.before, idle, Conn.exec], rfl⟩
  | aborted => exact ⟨.failed, idle s v, n + 1, by
      simp [batchEnd, Prog.run, alone, hf, Turn.before, idle, Conn.exec], rfl⟩

/-- The `COMMIT` goes through, or nothing is committed. -/
theorem run_batchEnd_ok (faults : ℕ → Fault) (n : ℕ) (s : σ) (v : ℕ) (w : σ) (r : ρ) :
    (faults n = .none ∧
        (batchEnd (.ok r)).run (alone faults) n (writer s v w) = (.ok r, idle w (v + 1), n + 1)) ∨
      (faults n ≠ .none ∧ ∃ e c m,
        (batchEnd (.ok r)).run (alone faults) n (writer s v w) = (.error e, c, m) ∧ c.committed = s) := by
  cases hf : faults n with
  | none => exact .inl ⟨rfl, by
      simp [batchEnd, Prog.run, alone, hf, Turn.before, writer, idle, Conn.exec, Conn.execCommit]⟩
  | refused e => exact .inr ⟨Fault.refused_ne_none e, e, writer s v w, n + 1, by
      simp [batchEnd, Prog.run, alone, hf, Turn.before, writer, Conn.exec], rfl⟩
  | aborted => exact .inr ⟨Fault.aborted_ne_none, .failed, idle s v, n + 1, by
      simp [batchEnd, Prog.run, alone, hf, Turn.before, writer, idle, Conn.exec], rfl⟩

/-- The code runs in the transaction, or it is not begun. -/
theorem run_batch (faults : ℕ → Fault) (n : ℕ) (s : σ) (v : ℕ) (body : Prog σ (Except Error ρ)) :
    (faults n = .none ∧ (batch body).run (alone faults) n (idle s v) =
        let out := body.run (alone faults) (n + 1) (writer s v s)
        (batchEnd out.1).run (alone faults) out.2.2 out.2.1) ∨
      (faults n ≠ .none ∧ ∃ e m, (batch body).run (alone faults) n (idle s v) = (.error e, idle s v, m)) := by
  cases hf : faults n with
  | none =>
    refine .inl ⟨rfl, ?_⟩
    have hbegin : ((alone faults n).before (idle s v)).exec (alone faults n : Turn σ).fault
        (.beginTx true) = (writer s v s, none) := by
      simp [alone, hf, Turn.before, idle, writer, Conn.exec, Conn.execBegin, Conn.isAuto]
    simp only [batch, bind_eq, stmt_bind, Prog.run, hbegin, run_bind]
  | refused e => exact .inr ⟨Fault.refused_ne_none e, e, n + 1, by
      simp [batch, Prog.run, alone, hf, Turn.before, idle, Conn.exec]⟩
  | aborted => exact .inr ⟨Fault.aborted_ne_none, .failed, n + 1, by
      simp [batch, Prog.run, alone, hf, Turn.before, idle, Conn.exec]⟩

/-! ### A program further on -/

/-- A program from its `n + k`-th statement on is one from its `n`-th on whose
turns come `k` later. -/
theorem run_shift (turns : ℕ → Turn σ) (k : ℕ) : ∀ (p : Prog σ ρ) (n : ℕ) (c : Conn σ),
    p.run turns (n + k) c =
      let out := p.run (fun m => turns (m + k)) n c
      (out.1, out.2.1, out.2.2 + k)
  | ret _, _, _ => rfl
  | autocommit q, n, c => run_shift turns k (q c.isAuto) n c
  | exec s q, n, c => by
    have ih := run_shift turns k (q (((turns (n + k)).before c).exec (turns (n + k)).fault s).2) (n + 1)
      (((turns (n + k)).before c).exec (turns (n + k)).fault s).1
    rw [Nat.add_right_comm] at ih
    exact ih
  | query q, n, c => by
    have ih := run_shift turns k (q (((turns (n + k)).before c).query (turns (n + k)).fault).2) (n + 1)
      (((turns (n + k)).before c).query (turns (n + k)).fault).1
    rw [Nat.add_right_comm] at ih
    exact ih

/-! ### A program on a part of the state -/

end Prog

/-- A part of a state: what it is, and the state with another in its place. -/
structure Part (σ τ : Type) where
  get : σ → τ
  set : τ → σ → σ
  get_set : ∀ t s, get (set t s) = t
  set_get : ∀ s, set (get s) s = s
  set_set : ∀ t t' s, set t (set t' s) = set t s

namespace Part

variable (l : Part σ τ)

/-- A statement on the part. -/
def stmt : Stmt τ → Stmt σ
  | .beginTx immediate => .beginTx immediate
  | .commit => .commit
  | .rollback => .rollback
  | .write f => .write fun s => (f (l.get s)).map fun t => l.set t s

/-- A reader of the whole, from one of the part and the rest of the state. -/
def reader (s : σ) : Reader τ → Reader σ
  | .auto => .auto
  | .deferred => .deferred
  | .snapshot t v => .snapshot (l.set t s) v

/-- A connection to the whole, from one to the part and the rest of the state. -/
def conn (s : σ) (c : Conn τ) : Conn σ where
  committed := l.set c.committed s
  version := c.version
  tx :=
    match c.tx with
    | .reader r => .reader (l.reader s r)
    | .writing t => .writing (l.set t s)
  locked := c.locked

end Part

namespace Prog

variable (l : Part σ τ)

/-- A program on a part of the state, on the whole. -/
def zoom : Prog τ ρ → Prog σ ρ
  | ret r => ret r
  | autocommit k => autocommit fun b => (k b).zoom
  | exec s k => exec (l.stmt s) fun e => (k e).zoom
  | query k => query fun r => (k (r.map l.get)).zoom

theorem Stops.zoom {p : Prog τ (Except Error ρ)} (hp : Stops p) : Stops (p.zoom l) := by
  induction hp with
  | ret r => exact .ret r
  | autocommit _ ih => exact .autocommit ih
  | query he _ ih =>
    refine .query (fun e => ?_) fun s => ih (l.get s)
    obtain ⟨e', h⟩ := he e
    exact ⟨e', by simp [Except.map, h, Prog.zoom]⟩
  | write he _ ih =>
    refine .write (fun e => ?_) ih
    obtain ⟨e', h⟩ := he e
    exact ⟨e', by simp [h, Prog.zoom]⟩

theorem Stops.eval_zoom {p : Prog τ (Except Error ρ)} (hp : Stops p) :
    ∀ s, (p.zoom l).eval s = (p.eval (l.get s)).map fun out => (out.1, l.set out.2 s) := by
  induction hp with
  | ret r =>
    intro s
    cases r with
    | ok r => simp [Prog.zoom, eval, Except.map, l.set_get]
    | error e => rfl
  | autocommit _ ih => exact ih
  | query _ _ ih =>
    intro s
    exact ih (l.get s) s
  | @write f k _ _ ih =>
    intro s
    simp only [Prog.zoom, Part.stmt, eval]
    cases f (l.get s) with
    | none => rfl
    | some t =>
      have h := ih (l.set t s)
      rw [l.get_set] at h
      simp only [Option.map_some, h, l.set_set]

theorem Stops.steps_zoom {p : Prog τ (Except Error ρ)} (hp : Stops p) :
    ∀ s, (p.zoom l).steps s = p.steps (l.get s) := by
  induction hp with
  | ret r => exact fun _ => rfl
  | autocommit _ ih => exact ih
  | query _ _ ih =>
    intro s
    simp only [Prog.zoom, steps]
    exact congrArg (· + 1) (ih (l.get s) s)
  | @write f k _ _ ih =>
    intro s
    simp only [Prog.zoom, Part.stmt, steps]
    cases f (l.get s) with
    | none => rfl
    | some t =>
      have h := ih (l.set t s)
      rw [l.get_set] at h
      simp only [Option.map_some, h]

variable {l}

theorem isAuto_conn (s : σ) (c : Conn τ) : (l.conn s c).isAuto = c.isAuto := by
  unfold Conn.isAuto Part.conn
  rcases h : c.tx with (_ | _ | _) | _ <;> rfl

theorem workOn_conn (s : σ) (c : Conn τ) (f : τ → Option τ) (t : τ) :
    (l.conn s c).workOn (fun s => (f (l.get s)).map fun t => l.set t s) (l.set t s) =
      (l.conn s (c.workOn f t).1, (c.workOn f t).2) := by
  unfold Conn.workOn
  dsimp only
  rw [l.get_set]
  cases f t with
  | none => rfl
  | some t' =>
    simp only [Option.map_some, l.set_set]
    rfl

theorem exec_conn (s : σ) (c : Conn τ) (fault : Fault) (st : Stmt τ) :
    (l.conn s c).exec fault (l.stmt st) = (l.conn s (c.exec fault st).1, (c.exec fault st).2) := by
  cases st with
  | beginTx immediate =>
    cases fault with
    | none =>
      simp only [Part.stmt, Conn.exec, Conn.execBegin, isAuto_conn]
      have hlocked : (l.conn s c).locked = c.locked := rfl
      rw [hlocked]
      split_ifs <;> rfl
    | refused e => rfl
    | aborted => rfl
  | commit =>
    cases fault with
    | none =>
      obtain ⟨committed, version, tx, locked⟩ := c
      rcases tx with (_ | _ | _) | _ <;> rfl
    | refused e => rfl
    | aborted => rfl
  | rollback =>
    simp only [Part.stmt, Conn.exec, isAuto_conn]
    split_ifs <;> rfl
  | write f =>
    cases fault with
    | refused e => rfl
    | aborted => rfl
    | none =>
      have hwork : ∀ t, (l.conn s c).workOn _ (l.set t s) = _ := workOn_conn s c f
      have hlocked : (l.conn s c).locked = c.locked := rfl
      simp only [Part.stmt, Conn.exec, Conn.execWrite, hlocked]
      rcases htx : c.tx with (_ | _ | ⟨t, v⟩) | t
      · have hconn : (l.conn s c).tx = .reader .auto := by simp [Part.conn, htx, Part.reader]
        rw [hconn]
        dsimp only
        have hcommitted : (l.conn s c).committed = l.set c.committed s := rfl
        rw [hcommitted, l.get_set]
        cases c.locked with
        | true => rfl
        | false =>
          cases f c.committed with
          | none => rfl
          | some t' =>
            simp only [Bool.false_eq_true, if_false, Option.map_some, l.set_set]
            rw [Part.conn, htx]
            rfl
      · have hconn : (l.conn s c).tx = .reader .deferred := by simp [Part.conn, htx, Part.reader]
        rw [hconn]
        dsimp only
        have hcommitted : (l.conn s c).committed = l.set c.committed s := rfl
        rw [hcommitted, hwork]
        split_ifs <;> rfl
      · have hconn : (l.conn s c).tx = .reader (.snapshot (l.set t s) v) := by
          simp [Part.conn, htx, Part.reader]
        have hversion : (l.conn s c).version = c.version := rfl
        rw [hconn]
        dsimp only
        rw [hversion, hwork]
        split_ifs <;> rfl
      · have hconn : (l.conn s c).tx = .writing (l.set t s) := by simp [Part.conn, htx]
        rw [hconn]
        exact hwork t

theorem before_conn (faults : ℕ → Fault) (n : ℕ) (s : σ) (c : Conn τ) :
    (alone faults n).before (l.conn s c) = l.conn s ((alone faults n).before c) := by
  obtain ⟨committed, version, tx, locked⟩ := c
  rcases tx with _ | _ <;> rfl

theorem query_conn (s : σ) (c : Conn τ) (fault : Fault) :
    (l.conn s c).query fault =
      (l.conn s (c.query fault).1, (c.query fault).2.map fun t => l.set t s) := by
  obtain ⟨committed, version, tx, locked⟩ := c
  cases fault with
  | refused e => rfl
  | aborted => rfl
  | none => rcases tx with (_ | _ | _) | _ <;> rfl

/-- **A program on a part runs on the whole as it does on the part.** -/
theorem run_zoom (faults : ℕ → Fault) (s : σ) : ∀ (p : Prog τ ρ) (n : ℕ) (c : Conn τ),
    (p.zoom l).run (alone faults) n (l.conn s c) =
      let out := p.run (alone faults) n c
      (out.1, l.conn s out.2.1, out.2.2)
  | ret _, _, _ => rfl
  | autocommit k, n, c => by
    have ih := run_zoom faults s (k c.isAuto) n c
    simp only [Prog.zoom, Prog.run, isAuto_conn]
    exact ih
  | exec st k, n, c => by
    have ih := run_zoom faults s (k (((alone faults n).before c).exec (faults n) st).2) (n + 1)
      (((alone faults n).before c).exec (faults n) st).1
    simp only [Prog.zoom, Prog.run, before_conn]
    change ((k ((l.conn s _).exec (faults n) (l.stmt st)).2).zoom l).run _ _
      ((l.conn s _).exec (faults n) (l.stmt st)).1 = _
    rw [exec_conn]
    exact ih
  | query k, n, c => by
    have ih := run_zoom faults s (k (((alone faults n).before c).query (faults n)).2) (n + 1)
      (((alone faults n).before c).query (faults n)).1
    have hget : (((l.conn s ((alone faults n).before c)).query (faults n)).2.map l.get) =
        (((alone faults n).before c).query (faults n)).2 := by
      rw [query_conn]
      cases (((alone faults n).before c).query (faults n)).2 with
      | error e => rfl
      | ok t => simp [Except.map, l.get_set]
    simp only [Prog.zoom, Prog.run, before_conn]
    change ((k (((l.conn s _).query (faults n)).2.map l.get)).zoom l).run _ _
      ((l.conn s _).query (faults n)).1 = _
    rw [hget, query_conn]
    exact ih

end Prog

end Sqlite
