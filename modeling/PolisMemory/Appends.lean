/-
# The append as a part of other code

A program that appends to the ledger of a larger database. Inside a
transaction the append is one read and one write, and ends the code where one
of them fails; in autocommit it is a transaction of its own, that goes through
(`AppendGoes`) or commits nothing.

Key definitions: `AppendGoes`.
Key theorems: `eval_appendEvent`, `run_appendEvent_idle`, `eval_append`,
`run_append`.
-/
import PolisMemory.Append
import PolisMemory.Attempts

namespace PolisMemory

open Sqlite Sqlite.Prog Sqlite.Prog.Turn Sqlite.Conn Attempt

variable (sha256 : String → String)

/-! ### The append, in a transaction of its own or another's -/

/-- Some attempt to begin goes through, and so do the three statements after
it. -/
def AppendGoes (faults : ℕ → Fault) : Prop :=
  ∃ m, beginsAt faults busyAttempts 0 = some m ∧ faults m = .none ∧ faults (m + 1) = .none ∧
    faults (m + 2) = .none

theorem stops_appendEvent (a : LedgerAppend) : Stops (appendEvent sha256 a) := by
  refine .autocommit (.query (fun e => ⟨e, rfl⟩) fun t => ?_)
  exact .write (fun e => ⟨e, rfl⟩) (.ret _)

theorem eval_appendEvent (a : LedgerAppend) (t : LedgerTable) :
    (appendEvent sha256 a).eval t = .ok (successor sha256 t.last a, appended sha256 t a) := by
  obtain ⟨t', hins, -⟩ := insert_successor sha256 t a
  have happended : appended sha256 t a = t' := by rw [appended, hins, Option.getD_some]
  rw [happended]
  simp [appendEvent, appendInTxn, Prog.bind, eval, hins]

theorem steps_appendEvent (a : LedgerAppend) (t : LedgerTable) :
    (appendEvent sha256 a).steps t = 2 := by
  obtain ⟨t', hins, -⟩ := insert_successor sha256 t a
  simp [appendEvent, appendInTxn, Prog.bind, steps, hins]

/-- The call goes through and commits the next row, or returns an error with
nothing committed. -/
theorem run_appendEvent_idle (faults : ℕ → Fault) (t : LedgerTable) (v : ℕ) (a : LedgerAppend) :
    let out := (appendEvent sha256 a).run (PolisMemory.alone faults) 0 (PolisMemory.idle t v)
    (AppendGoes faults ∧ out.1 = .ok (successor sha256 t.last a) ∧
        out.2.1 = PolisMemory.idle (appended sha256 t a) (v + 1)) ∨
      (¬ AppendGoes faults ∧ (∃ e, out.1 = .error e) ∧ out.2.1.committed = t) := by
  have hbegin := run_beginImmediate faults t v busyAttempts 0
  cases hb : beginsAt faults busyAttempts 0 with
  | none =>
    simp only [hb] at hbegin
    obtain ⟨e, m, hrun⟩ := hbegin
    simp only [appendEvent, bind_eq, isAutocommit_bind, Prog.run, isAuto_idle, Bool.not_true,
      Bool.false_eq_true, if_false, run_bind, hrun]
    have hnot : ¬ AppendGoes faults := by
      rintro ⟨m, h, -⟩
      cases hb.symm.trans h
    exact .inr ⟨hnot, ⟨e, rfl⟩, rfl⟩
  | some m =>
    simp only [hb] at hbegin
    have hgoes : AppendGoes faults ↔ (faults m = .none ∧ faults (m + 1) = .none) ∧
        faults (m + 2) = .none := by
      constructor
      · rintro ⟨m', h, h1, h2, h3⟩
        cases hb.symm.trans h
        exact ⟨⟨h1, h2⟩, h3⟩
      · rintro ⟨⟨h1, h2⟩, h3⟩
        exact ⟨m, hb, h1, h2, h3⟩
    have happend := run_appendInTxn sha256 faults t t v m a
    rw [hgoes]
    by_cases hok : faults m = .none ∧ faults (m + 1) = .none
    · rw [if_pos hok] at happend
      obtain ⟨w', hrows, hrun⟩ := happend
      have hw' : w' = appended sha256 t a := LedgerTable.ext (hrows.trans (rows_appended sha256 t a).symm)
      simp only [appendEvent, bind_eq, isAutocommit_bind, Prog.run, isAuto_idle, Bool.not_true,
        Bool.false_eq_true, if_false, run_bind, hbegin, hrun, stmt_bind, ← hw']
      cases hc : faults (m + 2) with
      | none =>
        exact .inl ⟨⟨hok, rfl⟩, by simp [Prog.run, Turn.before, PolisMemory.alone, PolisMemory.writer,
          PolisMemory.idle, hc, Conn.exec, Conn.execCommit]⟩
      | refused e =>
        exact .inr ⟨fun h => Fault.refused_ne_none e h.2, by simp [Prog.run, Turn.before, PolisMemory.alone,
          PolisMemory.writer, hc, Conn.exec]⟩
      | aborted =>
        exact .inr ⟨fun h => Fault.aborted_ne_none h.2, by simp [Prog.run, Turn.before, PolisMemory.alone,
          PolisMemory.writer, hc, Conn.exec]⟩
    · rw [if_neg hok] at happend
      obtain ⟨e, c, m', hc, hrun⟩ := happend
      simp only [appendEvent, bind_eq, isAutocommit_bind, Prog.run, isAuto_idle, Bool.not_true,
        Bool.false_eq_true, if_false, run_bind, hbegin, hrun, stmt_bind]
      refine .inr ⟨fun h => hok h.1, ⟨e, rfl⟩, ?_⟩
      rcases hc with rfl | rfl
      · simp [Prog.run, Turn.before, PolisMemory.writer, Conn.exec, Conn.isAuto]
      · simp [Prog.run, Turn.before, PolisMemory.alone, PolisMemory.idle, Conn.exec, Conn.isAuto]

/-! ### The ledger of a larger database -/

variable {σ : Type} (l : Part σ LedgerTable)

theorem stops_append (a : LedgerAppend) : Stops (onPart l (appendEvent sha256 a)).run :=
  stops_onPart l (stops_appendEvent sha256 a)

theorem eval_append (a : LedgerAppend) (s : σ) :
    (onPart l (appendEvent sha256 a)).run.eval s =
      .ok (successor sha256 (l.get s).last a, l.set (appended sha256 (l.get s) a) s) := by
  rw [eval_onPart l (stops_appendEvent sha256 a), eval_appendEvent]
  rfl

/-- An append in autocommit goes through, or there is an error and nothing is
committed. -/
theorem run_append (faults : ℕ → Fault) (n : ℕ) (s : σ) (v : ℕ) (a : LedgerAppend) :
    (AppendGoes (fun m => faults (m + n)) ∧
        ∃ m, (onPart l (appendEvent sha256 a)).run.run (Turn.alone faults) n (Conn.idle s v) =
          (.ok (successor sha256 (l.get s).last a),
            Conn.idle (l.set (appended sha256 (l.get s) a) s) (v + 1), m)) ∨
      (¬ AppendGoes (fun m => faults (m + n)) ∧
        ∃ e c m, (onPart l (appendEvent sha256 a)).run.run (Turn.alone faults) n (Conn.idle s v) =
          (.error e, c, m) ∧ c.committed = s) := by
  have hshift := run_shift (Turn.alone faults) n (appendEvent sha256 a) 0 (Conn.idle (l.get s) v)
  rw [Nat.zero_add] at hshift
  rw [run_onPart, hshift]
  have hidle := run_appendEvent_idle sha256 (fun m => faults (m + n)) (l.get s) v a
  have halone : (PolisMemory.alone fun m => faults (m + n)) = fun m => Turn.alone faults (m + n) := rfl
  have hconn : PolisMemory.idle (l.get s) v = Conn.idle (l.get s) v := rfl
  rw [halone, hconn] at hidle
  dsimp only at hidle ⊢
  generalize (appendEvent sha256 a).run (fun m => Turn.alone faults (m + n)) 0
    (Conn.idle (l.get s) v) = out at hidle ⊢
  obtain ⟨r, c, m⟩ := out
  rcases hidle with ⟨hgoes, hr, hc⟩ | ⟨hgoes, ⟨e, hr⟩, hc⟩
  · dsimp only at hr hc
    rw [hr, hc]
    exact .inl ⟨hgoes, m + n, rfl⟩
  · dsimp only at hr hc
    rw [hr]
    refine .inr ⟨hgoes, e, l.conn s c, m + n, rfl, ?_⟩
    change l.set c.committed s = s
    rw [hc, l.set_get]

end PolisMemory
