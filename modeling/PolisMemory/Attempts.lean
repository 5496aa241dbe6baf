/-
# Code that ends at its first error

Code on one connection whose statements each end it where they fail, as a
monad over programs: what it does inside a transaction is what `eval` says of
its parts (`Attempt.eval_bind`), and in autocommit a read sees what is
committed and a write is a transaction of its own (`Attempt.run_read`,
`Attempt.run_exec`).

Key definitions: `Attempt`, `Attempt.Reads`, `Attempt.onPart`.
Key theorems: `Attempt.stops_bind`, `Attempt.eval_bind`, `Attempt.run_read`,
`Attempt.run_exec`.
-/
import PolisMemory.Transactions

namespace Sqlite

open Prog Prog.Turn Conn

variable {σ τ ρ υ : Type}

/-- Code that goes on after each statement that is let through. -/
abbrev Attempt (σ ρ : Type) := ExceptT Error (Prog σ) ρ

namespace Attempt

/-- A `SELECT`. -/
def read : Attempt σ σ := ExceptT.mk select

/-- A write. -/
def exec (f : σ → Option σ) : Attempt σ PUnit :=
  ExceptT.mk (.exec (.write f) fun
    | some e => ret (.error e)
    | none => ret (.ok ⟨⟩))

/-- A write that breaks no constraint. -/
def write (f : σ → σ) : Attempt σ PUnit := exec fun s => some (f s)

/-- Code on a part of the state. -/
def onPart (l : Part σ τ) (p : Prog τ (Except Error ρ)) : Attempt σ ρ := ExceptT.mk (p.zoom l)

/-- The code goes on after an error, which is only logged. -/
def bestEffort (x : Attempt σ PUnit) : Attempt σ PUnit :=
  ExceptT.mk (do
    let _ ← x.run
    return .ok ⟨⟩)

theorem bind_run (x : Attempt σ ρ) (f : ρ → Attempt σ υ) :
    (x >>= f).run = Prog.bind x.run (orStop fun r => (f r).run) := by
  change Prog.bind x.run _ = _
  congr 1
  funext r
  cases r <;> rfl

theorem bind_assoc {ω : Type} (x : Attempt σ ρ) (f : ρ → Attempt σ υ) (g : υ → Attempt σ ω) :
    (x >>= f) >>= g = x >>= fun r => f r >>= g := by
  change ((x >>= f) >>= g).run = (x >>= fun r => f r >>= g).run
  rw [bind_run, bind_run, bind_run, Prog.bind_assoc]
  congr 1
  funext r
  cases r with
  | error e => rfl
  | ok r => exact (bind_run (f r) g).symm

theorem run_bind_ok {turns : ℕ → Turn σ} {n m : ℕ} {c c' : Conn σ} {x : Attempt σ ρ} {r : ρ}
    (h : x.run.run turns n c = (.ok r, c', m)) (f : ρ → Attempt σ υ) :
    (x >>= f).run.run turns n c = (f r).run.run turns m c' := by
  rw [bind_run, run_bind, h]
  rfl

theorem run_bind_error {turns : ℕ → Turn σ} {n m : ℕ} {c c' : Conn σ} {x : Attempt σ ρ} {e : Error}
    (h : x.run.run turns n c = (.error e, c', m)) (f : ρ → Attempt σ υ) :
    (x >>= f).run.run turns n c = (.error e, c', m) := by
  rw [bind_run, run_bind, h]
  rfl

/-! ### Inside a transaction -/

theorem stops_bind {x : Attempt σ ρ} {f : ρ → Attempt σ υ} (hx : Stops x.run)
    (hf : ∀ r, Stops (f r).run) : Stops (x >>= f).run := by
  rw [bind_run]
  exact hx.bind hf

theorem stops_pure (r : ρ) : Stops (pure r : Attempt σ ρ).run := .ret _

theorem stops_read : Stops (read : Attempt σ σ).run := .query (fun e => ⟨e, rfl⟩) fun _ => .ret _

theorem stops_exec (f : σ → Option σ) : Stops (exec f).run := .write (fun e => ⟨e, rfl⟩) (.ret _)

theorem stops_write (f : σ → σ) : Stops (write f).run := stops_exec _

theorem stops_onPart (l : Part σ τ) {p : Prog τ (Except Error ρ)} (hp : Stops p) :
    Stops (onPart l p).run := hp.zoom l

theorem eval_bind {x : Attempt σ ρ} (hx : Stops x.run) (f : ρ → Attempt σ υ) (s : σ) :
    (x >>= f).run.eval s = (x.run.eval s).bind fun out => (f out.1).run.eval out.2 := by
  rw [bind_run]
  exact hx.eval_bind _ s

theorem eval_onPart (l : Part σ τ) {p : Prog τ (Except Error ρ)} (hp : Stops p) (s : σ) :
    (onPart l p).run.eval s = (p.eval (l.get s)).map fun out => (out.1, l.set out.2 s) :=
  hp.eval_zoom l s

@[simp] theorem eval_write (f : σ → σ) (s : σ) : (write f).run.eval s = .ok (⟨⟩, f s) := rfl

@[simp] theorem eval_read (s : σ) : (read : Attempt σ σ).run.eval s = .ok (s, s) := rfl

theorem eval_exec {f : σ → Option σ} {s s' : σ} (h : f s = some s') :
    (exec f).run.eval s = .ok (⟨⟩, s') := by
  simp [exec, eval, h]

@[simp] theorem eval_pure (r : ρ) (s : σ) : (pure r : Attempt σ ρ).run.eval s = .ok (r, s) := rfl

theorem steps_bind {x : Attempt σ ρ} (hx : Stops x.run) (f : ρ → Attempt σ υ) {s s' : σ} {r : ρ}
    (h : x.run.eval s = .ok (r, s')) :
    (x >>= f).run.steps s = x.run.steps s + (f r).run.steps s' := by
  rw [bind_run]
  exact hx.steps_bind _ s r s' h

theorem steps_onPart (l : Part σ τ) {p : Prog τ (Except Error ρ)} (hp : Stops p) (s : σ) :
    (onPart l p).run.steps s = p.steps (l.get s) := hp.steps_zoom l s

/-- The code only looks things up. -/
structure Reads (x : Attempt σ ρ) : Prop where
  stops : Stops x.run
  eval : ∀ s, ∃ r, x.run.eval s = .ok (r, s)

theorem Reads.pure (r : ρ) : Reads (pure r : Attempt σ ρ) := ⟨stops_pure r, fun _ => ⟨r, rfl⟩⟩

theorem Reads.read : Reads (read : Attempt σ σ) := ⟨stops_read, fun s => ⟨s, rfl⟩⟩

theorem Reads.bind {x : Attempt σ ρ} {f : ρ → Attempt σ υ} (hx : Reads x) (hf : ∀ r, Reads (f r)) :
    Reads (x >>= f) where
  stops := stops_bind hx.stops fun r => (hf r).stops
  eval s := by
    obtain ⟨r, hr⟩ := hx.eval s
    obtain ⟨r', hr'⟩ := (hf r).eval s
    refine ⟨r', ?_⟩
    rw [eval_bind hx.stops, hr]
    exact hr'

/-- A `SELECT` in a transaction. -/
theorem run_read_writer (faults : ℕ → Fault) (n : ℕ) (s : σ) (v : ℕ) (w : σ) :
    (faults n = .none ∧ (read : Attempt σ σ).run.run (alone faults) n (writer s v w) =
        (.ok w, writer s v w, n + 1)) ∨
      (faults n ≠ .none ∧ ∃ e c, (c = idle s v ∨ ∃ w', c = writer s v w') ∧
        (read : Attempt σ σ).run.run (alone faults) n (writer s v w) = (.error e, c, n + 1)) := by
  cases hf : faults n with
  | none =>
    refine .inl ⟨rfl, ?_⟩
    simp [read, select, Prog.run, alone, hf, Turn.before, writer, Conn.query, Conn.sees]
  | refused e =>
    refine .inr ⟨Fault.refused_ne_none e, e, writer s v w, .inr ⟨w, rfl⟩, ?_⟩
    simp [read, select, Prog.run, alone, hf, Turn.before, writer, Conn.query]
  | aborted =>
    refine .inr ⟨Fault.aborted_ne_none, .failed, idle s v, .inl rfl, ?_⟩
    simp [read, select, Prog.run, alone, hf, Turn.before, writer, idle, Conn.query]

/-! #### A write that fails or does not -/

section

variable {faults : ℕ → Fault} {n : ℕ} (s w : σ) (v : ℕ) (g : σ → σ)

theorem run_write_none (hf : faults n = .none) :
    (write g).run.run (alone faults) n (writer s v w) = (.ok ⟨⟩, writer s v (g w), n + 1) := by
  simp [write, exec, Prog.run, alone, hf, Turn.before, writer, Conn.exec, Conn.execWrite, Conn.workOn]

theorem run_write_refused {e : Error} (hf : faults n = .refused e) :
    (write g).run.run (alone faults) n (writer s v w) = (.error e, writer s v w, n + 1) := by
  simp [write, exec, Prog.run, alone, hf, Turn.before, writer, Conn.exec]

theorem run_write_aborted (hf : faults n = .aborted) :
    (write g).run.run (alone faults) n (writer s v w) = (.error .failed, idle s v, n + 1) := by
  simp [write, exec, Prog.run, alone, hf, Turn.before, writer, idle, Conn.exec]

end

theorem run_bestEffort (turns : ℕ → Turn σ) (n : ℕ) (c : Conn σ) (x : Attempt σ PUnit) :
    (bestEffort x).run.run turns n c = (.ok ⟨⟩, (x.run.run turns n c).2) := by
  have hbind : (bestEffort x).run = Prog.bind x.run fun _ => ret (.ok ⟨⟩) := rfl
  rw [hbind, run_bind]
  rfl

/-! ### In autocommit -/

/-- A `SELECT` in autocommit: the code goes on with what is committed, or ends
with an error. -/
theorem run_read (faults : ℕ → Fault) (n : ℕ) (s : σ) (v : ℕ) (f : σ → Attempt σ υ) :
    (faults n = .none ∧ (read >>= f).run.run (alone faults) n (idle s v) =
        (f s).run.run (alone faults) (n + 1) (idle s v)) ∨
      (faults n ≠ .none ∧ ∃ e, (read >>= f).run.run (alone faults) n (idle s v) =
        (.error e, idle s v, n + 1)) := by
  have hbind : (read >>= f).run = query (orStop fun s => (f s).run) := bind_run read f
  rw [hbind]
  cases hf : faults n with
  | none =>
    refine .inl ⟨rfl, ?_⟩
    simp only [Prog.run, alone, hf]
    rfl
  | refused e =>
    refine .inr ⟨Fault.refused_ne_none e, e, ?_⟩
    simp only [Prog.run, alone, hf]
    rfl
  | aborted =>
    refine .inr ⟨Fault.aborted_ne_none, .failed, ?_⟩
    simp only [Prog.run, alone, hf]
    rfl

/-- A write in autocommit is a transaction of its own. -/
theorem run_exec (faults : ℕ → Fault) (n : ℕ) {s s' : σ} (v : ℕ) (g : σ → Option σ)
    (hg : g s = some s') (f : PUnit → Attempt σ υ) :
    (faults n = .none ∧ (exec g >>= f).run.run (alone faults) n (idle s v) =
        (f ⟨⟩).run.run (alone faults) (n + 1) (idle s' (v + 1))) ∨
      (faults n ≠ .none ∧ ∃ e, (exec g >>= f).run.run (alone faults) n (idle s v) =
        (.error e, idle s v, n + 1)) := by
  rw [bind_run]
  cases hf : faults n with
  | none =>
    refine .inl ⟨rfl, ?_⟩
    simp [exec, Prog.bind, Prog.run, alone, hf, Turn.before, idle, Conn.exec, Conn.execWrite, hg,
      orStop]
  | refused e =>
    refine .inr ⟨Fault.refused_ne_none e, e, ?_⟩
    simp only [exec, ExceptT.run_mk, Prog.bind, Prog.run, alone, hf]
    rfl
  | aborted =>
    refine .inr ⟨Fault.aborted_ne_none, .failed, ?_⟩
    simp only [exec, ExceptT.run_mk, Prog.bind, Prog.run, alone, hf]
    rfl

theorem run_write (faults : ℕ → Fault) (n : ℕ) (s : σ) (v : ℕ) (g : σ → σ) (f : PUnit → Attempt σ υ) :
    (faults n = .none ∧ (write g >>= f).run.run (alone faults) n (idle s v) =
        (f ⟨⟩).run.run (alone faults) (n + 1) (idle (g s) (v + 1))) ∨
      (faults n ≠ .none ∧ ∃ e, (write g >>= f).run.run (alone faults) n (idle s v) =
        (.error e, idle s v, n + 1)) := run_exec faults n v (fun s => some (g s)) rfl f

/-- Code on a part does on the whole what it does on the part. -/
theorem run_onPart (l : Part σ τ) (faults : ℕ → Fault) (p : Prog τ (Except Error ρ)) (n : ℕ) (s : σ)
    (v : ℕ) :
    (onPart l p).run.run (alone faults) n (idle s v) =
      let out := p.run (alone faults) n (idle (l.get s) v)
      (out.1, l.conn s out.2.1, out.2.2) := by
  have hidle : l.conn s (idle (l.get s) v) = idle s v := by
    simp only [Part.conn, idle, l.set_get]
    rfl
  have h := run_zoom (l := l) faults s p n (idle (l.get s) v)
  rw [hidle] at h
  exact h

end Attempt

end Sqlite
