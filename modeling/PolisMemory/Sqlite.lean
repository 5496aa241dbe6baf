/-
# Statements and transactions of an SQLite connection

One database value of type `σ`, and a connection to it: in autocommit, or in
a transaction that has read nothing yet, reads a snapshot, or holds the write
lock with its own working copy. A read sees the snapshot or the working copy;
a write needs the lock, which no second connection holds and which a
snapshot gets only while it is still the newest; `COMMIT` publishes the
working copy.

Any statement can fail. A refusal leaves the transaction as it was
(`SQLITE_BUSY`, a constraint, an I/O error on a read); for some errors SQLite
rolls the whole transaction back (`Fault.aborted`). `ROLLBACK` always ends it.

A program is a tree of statements (`Prog`), a monad, so that code that goes
on after each outcome is written as the code it models. `Prog.run` runs one
program on one connection, with what the other connections commit between its
statements.

Key definitions: `Conn`, `Stmt`, `Conn.exec`, `Conn.query`, `Prog`,
`Prog.run`.
Key theorems: `Conn.exec_beginImmediate`, `Conn.query_pins`,
`Conn.exec_write_pinned`, `Prog.run_bind`.
-/
import Mathlib.Data.Nat.Notation
import Mathlib.Tactic.SplitIfs
import Mathlib.Tactic.TypeStar

namespace Sqlite

/-- How a statement fails: the database is locked, or anything else. -/
inductive Error where
  | busy
  | failed
  deriving DecidableEq, Repr

/-- What befalls a statement from outside. -/
inductive Fault where
  | none
  /-- Refused, the transaction as it was. -/
  | refused (e : Error)
  /-- Refused, and the transaction rolled back. -/
  | aborted
  deriving DecidableEq, Repr

theorem Fault.refused_ne_none (e : Error) : Fault.refused e ≠ .none := by
  intro h
  cases h

theorem Fault.aborted_ne_none : Fault.aborted ≠ .none := by
  intro h
  cases h

variable {σ : Type*}

/-- A connection without the write lock: in autocommit, in a transaction that
has read nothing, or reading the snapshot of a version. -/
inductive Reader (σ : Type*) where
  | auto
  | deferred
  | snapshot (s : σ) (version : ℕ)

/-- A connection's transaction. -/
inductive Tx (σ : Type*) where
  | reader (r : Reader σ)
  | writing (work : σ)

/-- A connection, with what it shares with the others. -/
structure Conn (σ : Type*) where
  committed : σ
  version : ℕ
  tx : Tx σ
  /-- Another connection holds the write lock. -/
  locked : Bool

/-- `is_autocommit`. -/
def Conn.isAuto (c : Conn σ) : Bool :=
  match c.tx with
  | .reader .auto => true
  | _ => false

theorem Conn.isAuto_iff {c : Conn σ} : c.isAuto = true ↔ c.tx = .reader .auto := by
  unfold Conn.isAuto
  split
  · rename_i h
    simp [h]
  · rename_i h
    simpa using h

/-- The statements that are not reads. A write that breaks a constraint is
`none`. -/
inductive Stmt (σ : Type*) where
  | beginTx (immediate : Bool)
  | commit
  | rollback
  | write (f : σ → Option σ)

namespace Conn

/-- A write on a working copy. -/
def workOn (c : Conn σ) (f : σ → Option σ) (s : σ) : Conn σ × Option Error :=
  match f s with
  | some s' => ({ c with tx := .writing s' }, none)
  | none => ({ c with tx := .writing s }, some .failed)

/-- `BEGIN`, nothing befalling it. -/
def execBegin (c : Conn σ) (immediate : Bool) : Conn σ × Option Error :=
  if !c.isAuto then (c, some .failed)
  else if !immediate then ({ c with tx := .reader .deferred }, none)
  else if c.locked then (c, some .busy)
  else ({ c with tx := .writing c.committed }, none)

/-- `COMMIT`, nothing befalling it. -/
def execCommit (c : Conn σ) : Conn σ × Option Error :=
  match c.tx with
  | .reader .auto => (c, some .failed)
  | .reader _ => ({ c with tx := .reader .auto }, none)
  | .writing s =>
    ({ c with committed := s, version := c.version + 1, tx := .reader .auto }, none)

/-- A write, nothing befalling it. -/
def execWrite (c : Conn σ) (f : σ → Option σ) : Conn σ × Option Error :=
  match c.tx with
  | .writing s => c.workOn f s
  | .reader r =>
    if c.locked then (c, some .busy)
    else match r with
      | .auto =>
        -- a transaction of its own
        match f c.committed with
        | some s => ({ c with committed := s, version := c.version + 1 }, none)
        | none => (c, some .failed)
      | .deferred => c.workOn f c.committed
      | .snapshot s v => if v = c.version then c.workOn f s else (c, some .busy)

/-- One statement. -/
def exec (c : Conn σ) : Fault → Stmt σ → Conn σ × Option Error
  | _, .rollback =>
    if c.isAuto then (c, some .failed) else ({ c with tx := .reader .auto }, none)
  | .refused e, _ => (c, some e)
  | .aborted, _ => ({ c with tx := .reader .auto }, some .failed)
  | .none, .beginTx immediate => c.execBegin immediate
  | .none, .commit => c.execCommit
  | .none, .write f => c.execWrite f

/-- What a read sees. -/
def sees (c : Conn σ) : σ :=
  match c.tx with
  | .writing s => s
  | .reader (.snapshot s _) => s
  | .reader _ => c.committed

/-- One `SELECT`: the state it sees, which the program then looks into. The
first one of a deferred transaction takes the snapshot. -/
def query (c : Conn σ) : Fault → Conn σ × Except Error σ
  | .refused e => (c, .error e)
  | .aborted => ({ c with tx := .reader .auto }, .error .failed)
  | .none =>
    match c.tx with
    | .reader .deferred => ({ c with tx := .reader (.snapshot c.committed c.version) }, .ok c.sees)
    | _ => (c, .ok c.sees)

/-- From autocommit a `BEGIN IMMEDIATE` gets the lock, or fails and leaves
the connection there. -/
theorem exec_beginImmediate {c : Conn σ} (hc : c.isAuto = true) (fault : Fault) :
    c.exec fault (.beginTx true) = ({ c with tx := .writing c.committed }, none) ∨
      ∃ e c', c.exec fault (.beginTx true) = (c', some e) ∧ c'.isAuto = true := by
  cases fault with
  | refused e => exact .inr ⟨e, c, rfl, hc⟩
  | aborted => exact .inr ⟨.failed, _, rfl, rfl⟩
  | none =>
    cases hl : c.locked with
    | true => exact .inr ⟨.busy, c, by simp [exec, execBegin, hc, hl], hc⟩
    | false => exact .inl (by simp [exec, execBegin, hc, hl])

/-- Inside a transaction a read fails, or pins the connection to what it saw:
as a snapshot, or as the working copy it already had. -/
theorem query_pins {c : Conn σ} (hc : c.isAuto = false) (fault : Fault) :
    (∃ e c', c.query fault = (c', .error e)) ∨
      (∃ s, c.tx = .writing s ∧ c.query fault = (c, .ok s)) ∨
      ∃ c' s v, (∃ r, c.tx = .reader r) ∧ c.query fault = (c', .ok s) ∧
        c'.tx = .reader (.snapshot s v) := by
  cases fault with
  | refused e => exact .inl ⟨e, c, rfl⟩
  | aborted => exact .inl ⟨.failed, _, rfl⟩
  | none =>
    right
    cases h : c.tx with
    | writing s => exact .inl ⟨s, rfl, by simp [query, sees, h]⟩
    | reader r =>
      refine .inr ?_
      cases r with
      | auto => simp [Conn.isAuto, h] at hc
      | deferred =>
        exact ⟨_, c.committed, c.version, ⟨_, rfl⟩, by simp only [query, sees, h]; rfl, rfl⟩
      | snapshot s v => exact ⟨c, s, v, ⟨_, rfl⟩, by simp [query, sees, h], h⟩

/-- A write in a transaction that is pinned to `t` fails, or works on `t`,
which is no outdated snapshot. -/
theorem exec_write_pinned {c : Conn σ} {t : σ}
    (hc : c.tx = .writing t ∨ ∃ v, c.tx = .reader (.snapshot t v)) (g : σ → Option σ)
    (fault : Fault) :
    (∃ e, (c.exec fault (.write g)).2 = some e) ∨
      ∃ t', g t = some t' ∧ c.exec fault (.write g) = ({ c with tx := .writing t' }, none) ∧
        ∀ s v, c.tx = .reader (.snapshot s v) → v = c.version := by
  have hwork : (∃ e, (c.workOn g t).2 = some e) ∨
      ∃ t', g t = some t' ∧ c.workOn g t = ({ c with tx := .writing t' }, none) := by
    unfold workOn
    split
    · rename_i t' ht'
      exact .inr ⟨t', ht', rfl⟩
    · exact .inl ⟨.failed, rfl⟩
  cases fault with
  | refused e => exact .inl ⟨e, rfl⟩
  | aborted => exact .inl ⟨.failed, rfl⟩
  | none =>
    rcases hc with h | ⟨v, h⟩
    · simp only [exec, execWrite, h, reduceCtorEq, false_imp_iff, implies_true, and_true]
      exact hwork
    · simp only [exec, execWrite, h]
      split_ifs with hl hv
      · exact .inl ⟨.busy, rfl⟩
      · refine hwork.imp_right fun ⟨t', h1, h2⟩ => ⟨t', h1, h2, fun s v' hs => ?_⟩
        cases hs
        exact hv
      · exact .inl ⟨.busy, rfl⟩

end Conn

/-! ### Programs -/

/-- A program on one connection. -/
inductive Prog (σ : Type) (ρ : Type) where
  | ret (r : ρ)
  | autocommit (k : Bool → Prog σ ρ)
  | exec (s : Stmt σ) (k : Option Error → Prog σ ρ)
  | query (k : Except Error σ → Prog σ ρ)

namespace Prog

variable {σ ρ τ : Type}

/-- Run one program, then the next on its result. -/
def bind : Prog σ ρ → (ρ → Prog σ τ) → Prog σ τ
  | ret r, f => f r
  | autocommit k, f => autocommit fun b => (k b).bind f
  | exec s k, f => exec s fun e => (k e).bind f
  | query k, f => query fun r => (k r).bind f

instance : Monad (Prog σ) where
  pure := ret
  bind := bind

/-- `conn.is_autocommit()`. -/
def isAutocommit : Prog σ Bool := autocommit ret

/-- `conn.execute_batch` or `conn.execute`. -/
def stmt (s : Stmt σ) : Prog σ (Option Error) := exec s ret

/-- `conn.query_row` or a prepared `SELECT`. -/
def select : Prog σ (Except Error σ) := query ret

@[simp] theorem pure_eq (r : ρ) : (pure r : Prog σ ρ) = ret r := rfl

@[simp] theorem bind_eq (p : Prog σ ρ) (f : ρ → Prog σ τ) : (p >>= f) = p.bind f := rfl

@[simp] theorem isAutocommit_bind (f : Bool → Prog σ τ) :
    (isAutocommit : Prog σ Bool).bind f = autocommit f := rfl

@[simp] theorem stmt_bind (s : Stmt σ) (f : Option Error → Prog σ τ) :
    (stmt s).bind f = exec s f := rfl

@[simp] theorem select_bind (f : Except Error σ → Prog σ τ) : select.bind f = query f := rfl

theorem bind_assoc {υ : Type} : ∀ (p : Prog σ ρ) (f : ρ → Prog σ τ) (g : τ → Prog σ υ),
    (p.bind f).bind g = p.bind fun r => (f r).bind g
  | ret _, _, _ => rfl
  | autocommit k, f, g => congrArg autocommit (funext fun b => bind_assoc (k b) f g)
  | exec s k, f, g => congrArg (exec s) (funext fun e => bind_assoc (k e) f g)
  | query k, f, g => congrArg query (funext fun r => bind_assoc (k r) f g)

/-- What happens at the boundary before a statement, and to the statement. -/
structure Turn (σ : Type) where
  /-- What the other connections commit, if they do. -/
  others : Option (σ → σ)
  /-- Another connection holds the write lock. -/
  locked : Bool
  fault : Fault

/-- A statement left alone. -/
def Turn.quiet : Turn σ := ⟨none, false, .none⟩

/-- The boundary before a statement: while this connection holds the lock no
other one commits. -/
def Turn.before (t : Turn σ) (c : Conn σ) : Conn σ :=
  match c.tx with
  | .writing _ => c
  | .reader _ =>
    match t.others with
    | none => { c with locked := t.locked }
    | some f => { c with committed := f c.committed, version := c.version + 1, locked := t.locked }

/-- A run of a program from its `n`-th statement on: its result, the
connection after it, the number of the next statement. -/
def run (turns : ℕ → Turn σ) : ℕ → Prog σ ρ → Conn σ → ρ × Conn σ × ℕ
  | n, ret r, c => (r, c, n)
  | n, autocommit k, c => (k c.isAuto).run turns n c
  | n, exec s k, c =>
    let out := ((turns n).before c).exec (turns n).fault s
    (k out.2).run turns (n + 1) out.1
  | n, query k, c =>
    let out := ((turns n).before c).query (turns n).fault
    (k out.2).run turns (n + 1) out.1

theorem run_bind (turns : ℕ → Turn σ) : ∀ (n : ℕ) (p : Prog σ ρ) (f : ρ → Prog σ τ) (c : Conn σ),
    (p.bind f).run turns n c =
      (f (p.run turns n c).1).run turns (p.run turns n c).2.2 (p.run turns n c).2.1
  | _, ret _, _, _ => rfl
  | n, autocommit k, f, c => run_bind turns n (k c.isAuto) f c
  | n, exec _ k, f, _ => run_bind turns (n + 1) (k _) f _
  | n, query k, f, _ => run_bind turns (n + 1) (k _) f _

end Prog

end Sqlite
