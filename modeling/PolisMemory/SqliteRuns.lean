/-
# Connections that run side by side

Any number of connections on one database, each running one program after
another, their statements interleaved in any order. One connection at a time
can hold the write lock: the lock is a single value, so two writers cannot be
built.

A program may return a receipt. A receipt returned inside a transaction is
pending until the transaction commits, and is dropped if it rolls back; a
receipt returned in autocommit counts at once. An invariant of the database
and its receipts is kept by every run if every program keeps it at every
statement, relying on what the others cannot do to it: change its
transaction, or anything at all while it holds the lock
(`World.holds_run`).

Key definitions: `Sess`, `World`, `World.step`, `Sess.Good`, `Sess.Rely`,
`Sess.Guar`, `Outline`.
Key theorems: `Sess.exec_sound`, `Sess.query_sound`, `World.rely_put_of_ne`,
`World.holds_step`, `World.holds_run`.
-/
import PolisMemory.Sqlite
import Mathlib.Logic.Function.Basic
import Mathlib.Order.Nat
import Mathlib.Tactic.SplitIfs

namespace Sqlite

variable {ι σ α ρ κ : Type}

/-- Step over the checks of `is_autocommit`, up to the next statement. -/
def Prog.settle : Prog σ ρ → Bool → Prog σ ρ
  | .autocommit k, auto => (k auto).settle auto
  | p, _ => p

/-- A connection and the receipts: those of its open transaction, and all
those whose transactions committed. -/
structure Sess (σ α : Type) where
  conn : Conn σ
  pending : List α
  acked : List α

namespace Sess

/-- A program returns its receipt, if it has one. -/
def finish (x : Sess σ α) : Option α → Sess σ α
  | none => x
  | some a =>
    if x.conn.isAuto then { x with acked := x.acked ++ [a] }
    else { x with pending := x.pending ++ [a] }

/-- The receipts after a statement: a transaction that ended by a `COMMIT`
leaves its own behind, any other drops them. -/
def after (x : Sess σ α) (c : Conn σ) (published : Bool) : Sess σ α :=
  if c.isAuto then ⟨c, [], if published then x.acked ++ x.pending else x.acked⟩
  else ⟨c, x.pending, x.acked⟩

/-- Go on with a program up to its next statement or its end. -/
def resume (receipt : ρ → Option α) (p : Prog σ ρ) (x : Sess σ α) :
    Option (Prog σ ρ) × Sess σ α :=
  match p.settle x.conn.isAuto with
  | .ret r => (none, x.finish (receipt r))
  | p => (some p, x)

@[simp] theorem resume_ret (receipt : ρ → Option α) (r : ρ) (x : Sess σ α) :
    resume receipt (.ret r) x = (none, x.finish (receipt r)) := rfl

@[simp] theorem resume_exec (receipt : ρ → Option α) (s : Stmt σ)
    (k : Option Error → Prog σ ρ) (x : Sess σ α) :
    resume receipt (.exec s k) x = (some (.exec s k), x) := rfl

@[simp] theorem resume_query (receipt : ρ → Option α) (k : Except Error σ → Prog σ ρ)
    (x : Sess σ α) : resume receipt (.query k) x = (some (.query k), x) := rfl

@[simp] theorem resume_autocommit (receipt : ρ → Option α) (k : Bool → Prog σ ρ) (x : Sess σ α) :
    resume receipt (.autocommit k) x = resume receipt (k x.conn.isAuto) x := rfl

/-- The statement is a `COMMIT` that went through. -/
def isPublished (s : Stmt σ) (e : Option Error) : Bool :=
  match s with
  | .commit => e.isNone
  | _ => false

/-- Execute a program's next statement. -/
def turn (receipt : ρ → Option α) (fault : Fault) (x : Sess σ α) :
    Prog σ ρ → Option (Prog σ ρ) × Sess σ α
  | .exec s k =>
    let out := x.conn.exec fault s
    resume receipt (k out.2) (x.after out.1 (isPublished s out.2))
  | .query k =>
    let out := x.conn.query fault
    resume receipt (k out.2) (x.after out.1 false)
  | p => (some p, x)

end Sess

/-- The connections of one database. -/
structure World (ι σ α ρ : Type) where
  committed : σ
  version : ℕ
  /-- Who holds the write lock, and its working copy. -/
  lock : Option (ι × σ)
  reader : ι → Reader σ
  proc : ι → Option (Prog σ ρ)
  pending : ι → List α
  acked : List α

/-- A connection is given a program, or its program executes a statement. -/
inductive Event (ι κ : Type) where
  | start (i : ι) (k : κ)
  | turn (i : ι) (fault : Fault)

namespace World

variable [DecidableEq ι]

/-- A database no one is connected to yet. -/
def init (s : σ) : World ι σ α ρ where
  committed := s
  version := 0
  lock := none
  reader _ := .auto
  proc _ := none
  pending _ := []
  acked := []

/-- The transaction of a connection that holds the lock or is the reader `r`. -/
def txOf (lock : Option (ι × σ)) (r : Reader σ) (i : ι) : Tx σ :=
  match lock with
  | some (j, s) => if j = i then .writing s else .reader r
  | none => .reader r

/-- The lock, once a connection does not hold it. -/
def freed (lock : Option (ι × σ)) (i : ι) : Option (ι × σ) :=
  match lock with
  | some (j, s) => if j = i then none else some (j, s)
  | none => none

theorem txOf_freed_self (lock : Option (ι × σ)) (r : Reader σ) (i : ι) :
    txOf (freed lock i) r i = .reader r := by
  rcases lock with _ | ⟨j, s⟩
  · rfl
  · by_cases h : j = i
    · simp [txOf, freed, h]
    · simp [txOf, freed, h]

theorem txOf_freed_of_ne (lock : Option (ι × σ)) (r : Reader σ) {i j : ι} (hij : i ≠ j) :
    txOf (freed lock i) r j = txOf lock r j := by
  rcases lock with _ | ⟨k, s⟩
  · rfl
  · by_cases h : k = i
    · simp [txOf, freed, h, hij]
    · simp [txOf, freed, h]

/-- The transaction of a connection. -/
def tx (w : World ι σ α ρ) (i : ι) : Tx σ := txOf w.lock (w.reader i) i

/-- What a connection and its program work on. -/
def sess (w : World ι σ α ρ) (i : ι) : Sess σ α where
  conn := ⟨w.committed, w.version, w.tx i, w.lock.any fun l => decide (l.1 ≠ i)⟩
  pending := w.pending i
  acked := w.acked

/-- Put back what a connection's step made of it. -/
def put (w : World ι σ α ρ) (i : ι) (out : Option (Prog σ ρ) × Sess σ α) : World ι σ α ρ where
  committed := out.2.conn.committed
  version := out.2.conn.version
  lock :=
    match out.2.conn.tx with
    | .writing s => some (i, s)
    | .reader _ => freed w.lock i
  reader :=
    match out.2.conn.tx with
    | .writing _ => w.reader
    | .reader r => Function.update w.reader i r
  proc := Function.update w.proc i out.1
  pending := Function.update w.pending i out.2.pending
  acked := out.2.acked

variable (receipt : ρ → Option α) (prog : κ → Prog σ ρ)

/-- One event. A connection that runs a program is not given another. -/
def step (w : World ι σ α ρ) : Event ι κ → World ι σ α ρ
  | .start i k =>
    match w.proc i with
    | some _ => w
    | none => w.put i ((w.sess i).resume receipt (prog k))
  | .turn i fault =>
    match w.proc i with
    | some p => w.put i ((w.sess i).turn receipt fault p)
    | none => w

/-- A run, from a fresh database. -/
def run (s : σ) (events : List (Event ι κ)) : World ι σ α ρ :=
  events.foldl (step receipt prog) (init s)

end World

/-! ### What one connection keeps, and what it can rely on -/

namespace Sess

variable (Inv : σ → List α → Prop)

/-- The invariant holds of what is committed and of a working copy, and a
snapshot of the newest version is what is committed. -/
structure Good (x : Sess σ α) : Prop where
  committed : Inv x.conn.committed x.acked
  work : ∀ s, x.conn.tx = .writing s → Inv s (x.acked ++ x.pending) ∧ x.conn.locked = false
  snapshot : ∀ s v, x.conn.tx = .reader (.snapshot s v) →
    v ≤ x.conn.version ∧ (v = x.conn.version → s = x.conn.committed)
  idle : ∀ r, x.conn.tx = .reader r → x.pending = []

/-- What the others can do to a connection between its statements. -/
structure Rely (x x' : Sess σ α) : Prop where
  tx : x'.conn.tx = x.conn.tx
  pending : x'.pending = x.pending
  mono : x.conn.version ≤ x'.conn.version
  same : x.conn.version = x'.conn.version →
    x'.conn.committed = x.conn.committed ∧ x'.acked = x.acked
  held : ∀ s, x.conn.tx = .writing s → x.conn.version = x'.conn.version

/-- What a connection's own step must not do to the others. -/
structure Guar (x x' : Sess σ α) : Prop where
  mono : x.conn.version ≤ x'.conn.version
  same : x.conn.version = x'.conn.version →
    x'.conn.committed = x.conn.committed ∧ x'.acked = x.acked
  locked : x.conn.locked = true →
    x.conn.version = x'.conn.version ∧ ∀ s, x'.conn.tx ≠ .writing s

/-- A connection's snapshot, if it has one, is still the newest. -/
def Current (c : Conn σ) : Prop := ∀ s v, c.tx = .reader (.snapshot s v) → v = c.version

variable {Inv} {x x' : Sess σ α}

theorem Good.of_rely (hx : Good Inv x) (hr : Rely x x') (hinv : Inv x'.conn.committed x'.acked)
    (hl : ∀ s, x'.conn.tx = .writing s → x'.conn.locked = false) : Good Inv x' where
  committed := hinv
  work s hs := by
    have hxs := hr.tx ▸ hs
    rw [(hr.same (hr.held s hxs)).2, hr.pending]
    exact ⟨(hx.work s hxs).1, hl s hs⟩
  snapshot s v hs := by
    obtain ⟨h1, h2⟩ := hx.snapshot s v (hr.tx ▸ hs)
    refine ⟨h1.trans hr.mono, fun h => ?_⟩
    have hv : x.conn.version = x'.conn.version := le_antisymm hr.mono (h ▸ h1)
    rw [(hr.same hv).1, h2 (h.trans hv.symm)]
  idle r h := hr.pending.trans (hx.idle r (hr.tx ▸ h))

theorem Guar.refl (hx : Good Inv x) : Guar x x where
  mono := le_rfl
  same _ := ⟨rfl, rfl⟩
  locked h := ⟨rfl, fun s hs => by
    rw [(hx.work s hs).2] at h
    cases h⟩

/-- What a current connection sees satisfies the invariant. -/
theorem Good.sees (hx : Good Inv x) (hc : Current x.conn) :
    Inv x.conn.sees (x.acked ++ x.pending) := by
  unfold Conn.sees
  split
  · rename_i s hs
    exact (hx.work s hs).1
  · rename_i s v hs
    rw [(hx.snapshot s v hs).2 (hc s v hs), hx.idle _ hs, List.append_nil]
    exact hx.committed
  · rename_i r _ hr
    rw [hx.idle r hr, List.append_nil]
    exact hx.committed

/-! ### The effects of a statement -/

/-- A statement that is refused. -/
theorem Good.keep (hx : Good Inv x) : Good Inv (x.after x.conn false) ∧
    Guar x (x.after x.conn false) := by
  have h : x.after x.conn false = x := by
    unfold after
    by_cases hauto : x.conn.isAuto = true
    · rw [if_pos hauto, if_neg Bool.false_ne_true, ← hx.idle _ (Conn.isAuto_iff.mp hauto)]
    · rw [if_neg hauto]
  rw [h]
  exact ⟨hx, Guar.refl hx⟩

/-- A transaction that ends without a `COMMIT`, or with nothing to commit. -/
theorem Good.drop (hx : Good Inv x) : Good Inv (x.after { x.conn with tx := .reader .auto } false) ∧
    Guar x (x.after { x.conn with tx := .reader .auto } false) := by
  refine ⟨⟨hx.committed, fun s hs => ?_, fun s v hs => ?_, fun _ _ => rfl⟩,
    ⟨le_rfl, fun _ => ⟨rfl, rfl⟩, fun _ => ⟨rfl, fun s hs => ?_⟩⟩⟩ <;> cases hs

/-- A transaction that ends with its `COMMIT`. -/
theorem Good.publish (hx : Good Inv x) {s : σ} (hs : x.conn.tx = .writing s) :
    let c : Conn σ := ⟨s, x.conn.version + 1, .reader .auto, x.conn.locked⟩
    Good Inv (x.after c true) ∧ Guar x (x.after c true) := by
  refine ⟨⟨(hx.work s hs).1, fun s hs => ?_, fun s v hs => ?_, fun _ _ => rfl⟩,
    ⟨Nat.le_succ _, fun h => absurd h (Nat.ne_of_lt (Nat.lt_succ_self _)), fun h => ?_⟩⟩
  · cases hs
  · cases hs
  · rw [(hx.work s hs).2] at h
    cases h

/-- A transaction that goes on as a reader of what is committed. -/
theorem Good.reads (hx : Good Inv x) (hp : x.pending = []) {r : Reader σ}
    (hr : r = .deferred ∨ r = .snapshot x.conn.committed x.conn.version) :
    Good Inv (x.after { x.conn with tx := .reader r } false) ∧
      Guar x (x.after { x.conn with tx := .reader r } false) := by
  have h : x.after { x.conn with tx := .reader r } false =
      ⟨{ x.conn with tx := .reader r }, x.pending, x.acked⟩ := by
    rcases hr with rfl | rfl <;> rfl
  rw [h]
  refine ⟨⟨hx.committed, fun s hs => ?_, fun s v hs => ?_, fun _ _ => hp⟩,
    ⟨le_rfl, fun _ => ⟨rfl, rfl⟩, fun _ => ⟨rfl, fun s hs => ?_⟩⟩⟩
  · cases hs
  · rcases hr with rfl | rfl
    · cases hs
    · cases hs
      exact ⟨le_rfl, fun _ => rfl⟩
  · cases hs

/-- A transaction that holds the lock from here on. -/
theorem Good.hold (hx : Good Inv x) {s : σ} (hs : Inv s (x.acked ++ x.pending))
    (hl : x.conn.locked = false) :
    Good Inv (x.after { x.conn with tx := .writing s } false) ∧
      Guar x (x.after { x.conn with tx := .writing s } false) := by
  refine ⟨⟨hx.committed, fun s' h => ?_, fun s v h => ?_, fun r h => ?_⟩,
    ⟨le_rfl, fun _ => ⟨rfl, rfl⟩, fun h => ?_⟩⟩
  · cases h
    exact ⟨hs, hl⟩
  · cases h
  · cases h
  · rw [hl] at h
    cases h

/-- A write that is a transaction of its own. -/
theorem good_autocommits (ha : x.conn.tx = .reader .auto) {s : σ}
    (hs : Inv s x.acked) (hl : x.conn.locked = false) :
    let c : Conn σ := { x.conn with committed := s, version := x.conn.version + 1 }
    Good Inv (x.after c false) ∧ Guar x (x.after c false) := by
  have hauto : ({ x.conn with committed := s, version := x.conn.version + 1 } : Conn σ).isAuto
      = true := Conn.isAuto_iff.mpr ha
  simp only [after, hauto, if_true, Bool.false_eq_true, if_false]
  refine ⟨⟨hs, fun s' h => ?_, fun s' v h => ?_, fun _ _ => rfl⟩,
    ⟨Nat.le_succ _, fun h => absurd h (Nat.ne_of_lt (Nat.lt_succ_self _)), fun h => ?_⟩⟩
  · rw [ha] at h
    cases h
  · rw [ha] at h
    cases h
  · rw [hl] at h
    cases h

/-! ### Every statement is sound -/

/-- **Any statement but a write keeps the invariant and the others' reliance;
a write does if what it makes of a current state satisfies it.** -/
theorem exec_sound (hx : Good Inv x) (fault : Fault) (s : Stmt σ)
    (hw : ∀ g s', s = .write g → Current x.conn → g x.conn.sees = some s' →
      Inv s' (x.acked ++ x.pending)) :
    let out := x.conn.exec fault s
    Good Inv (x.after out.1 (isPublished s out.2)) ∧
      Guar x (x.after out.1 (isPublished s out.2)) := by
  cases s with
  | rollback =>
    simp only [Conn.exec]
    split_ifs
    · exact hx.keep
    · exact hx.drop
  | beginTx immediate =>
    cases fault with
    | refused e => exact hx.keep
    | aborted => exact hx.drop
    | none =>
      simp only [Conn.exec, Conn.execBegin]
      split_ifs with hauto himm hlock
      · exact hx.keep
      · simp only [Bool.not_eq_true', Bool.not_eq_false] at hauto
        exact hx.reads (hx.idle _ (Conn.isAuto_iff.mp hauto)) (.inl rfl)
      · exact hx.keep
      · simp only [Bool.not_eq_true', Bool.not_eq_false] at hauto
        refine hx.hold ?_ (Bool.not_eq_true _ ▸ hlock)
        rw [hx.idle _ (Conn.isAuto_iff.mp hauto), List.append_nil]
        exact hx.committed
  | commit =>
    cases fault with
    | refused e => exact hx.keep
    | aborted => exact hx.drop
    | none =>
      simp only [Conn.exec, Conn.execCommit]
      split
      · exact hx.keep
      · rename_i r _ htx
        have hp := hx.idle r htx
        have hd := hx.drop
        simp only [after, isPublished, Option.isNone_none, hp, List.append_nil, ite_self] at hd ⊢
        exact hd
      · rename_i s hs
        exact hx.publish hs
  | write g =>
    cases fault with
    | refused e => exact hx.keep
    | aborted => exact hx.drop
    | none =>
      have hsees : ∀ cur, x.conn.sees = cur → Current x.conn → x.conn.locked = false →
          Good Inv (x.after (x.conn.workOn g cur).1 false) ∧
            Guar x (x.after (x.conn.workOn g cur).1 false) := by
        rintro cur rfl hc hl
        unfold Conn.workOn
        split
        · rename_i s' hs'
          exact hx.hold (hw g s' rfl hc hs') hl
        · exact hx.hold (hx.sees hc) hl
      simp only [Conn.exec, Conn.execWrite, isPublished]
      split
      · rename_i s hs
        refine hsees s (by simp [Conn.sees, hs]) (fun s v h => ?_) (hx.work s hs).2
        rw [hs] at h
        cases h
      · rename_i r hr
        split_ifs with hlock
        · exact hx.keep
        · simp only [Bool.not_eq_true] at hlock
          have hp := hx.idle r hr
          split
          · split
            · rename_i s' hs'
              refine good_autocommits hr ?_ hlock
              have h := hw g s' rfl (fun s v h => ?_) (by simpa [Conn.sees, hr] using hs')
              · rwa [hp, List.append_nil] at h
              · rw [hr] at h
                cases h
            · exact hx.keep
          · refine hsees _ (by simp [Conn.sees, hr]) (fun s v h => ?_) hlock
            rw [hr] at h
            cases h
          · split_ifs with hv
            · refine hsees _ (by simp [Conn.sees, hr]) (fun s v h => ?_) hlock
              rw [hr] at h
              cases h
              exact hv
            · exact hx.keep

/-- A read keeps the invariant and the others' reliance. -/
theorem query_sound (hx : Good Inv x) (fault : Fault) :
    Good Inv (x.after (x.conn.query fault).1 false) ∧
      Guar x (x.after (x.conn.query fault).1 false) := by
  cases fault with
  | refused e => exact hx.keep
  | aborted => exact hx.drop
  | none =>
    simp only [Conn.query]
    split
    · rename_i h
      exact hx.reads (hx.idle _ h) (.inr rfl)
    · exact hx.keep

end Sess

/-! ### Runs -/

section Outline

open Sess

variable (Inv : σ → List α → Prop) (receipt : ρ → Option α) (prog : κ → Prog σ ρ)
variable (At : Prog σ ρ → Sess σ α → Prop)

/-- A step of a connection is sound, and leaves its program at a point whose
assertion holds. -/
def Sound (x : Sess σ α) (out : Option (Prog σ ρ) × Sess σ α) : Prop :=
  Good Inv out.2 ∧ Guar x out.2 ∧ ∀ p, out.1 = some p → At p out.2

variable {Inv At} in
/-- A step that ends its program without a receipt. -/
theorem sound_done {x x' : Sess σ α} (h : Good Inv x' ∧ Guar x x') :
    Sound Inv At x (none, x') :=
  ⟨h.1, h.2, fun _ hp => by cases hp⟩

variable {Inv At} in
/-- A step that leads to another point. -/
theorem sound_next {x x' : Sess σ α} {p : Prog σ ρ} (h : Good Inv x' ∧ Guar x x') (hp : At p x') :
    Sound Inv At x (some p, x') :=
  ⟨h.1, h.2, fun _ h => by cases h; exact hp⟩

/-- A proof outline of the programs: an assertion at each point between two
statements, which the other connections cannot break and each statement
leads on from. -/
structure Outline : Prop where
  stable : ∀ {p x x'}, At p x → Rely x x' → At p x'
  start : ∀ k {x}, Good Inv x → Sound Inv At x (resume receipt (prog k) x)
  turn : ∀ {p x} fault, At p x → Good Inv x → Sound Inv At x (turn receipt fault x p)

namespace World

variable [DecidableEq ι]

/-- The invariant holds, and every connection is good and at a point whose
assertion holds. -/
structure Holds (w : World ι σ α ρ) : Prop where
  committed : Inv w.committed w.acked
  good : ∀ i, Good Inv (w.sess i)
  points : ∀ i p, w.proc i = some p → At p (w.sess i)

theorem lock_of_writing {w : World ι σ α ρ} {i : ι} {s : σ} (h : w.tx i = .writing s) :
    w.lock = some (i, s) := by
  unfold tx txOf at h
  split at h
  · rename_i j s' hl
    split_ifs at h with hij
    cases h
    rw [hl, hij]
  · cases h

theorem not_locked_of_writing {w : World ι σ α ρ} {i : ι} {s : σ} (h : w.tx i = .writing s) :
    (w.sess i).conn.locked = false := by
  simp [sess, lock_of_writing h]

theorem tx_put_self (w : World ι σ α ρ) (i : ι) (out : Option (Prog σ ρ) × Sess σ α) :
    (w.put i out).tx i = out.2.conn.tx := by
  cases h : out.2.conn.tx with
  | writing s => simp [tx, txOf, put, h]
  | reader r => simp [tx, put, h, txOf_freed_self]

/-- A connection's transaction is its own: another one takes the lock only if
it is free. -/
theorem tx_put_of_ne {w : World ι σ α ρ} {i j : ι} (hij : i ≠ j)
    {out : Option (Prog σ ρ) × Sess σ α}
    (hl : (w.sess i).conn.locked = true → ∀ s, out.2.conn.tx ≠ .writing s) :
    (w.put i out).tx j = w.tx j := by
  have hlocked : ∀ s, w.tx j = .writing s → (w.sess i).conn.locked = true := fun s hs => by
    simp [sess, lock_of_writing hs, hij.symm]
  cases htx : out.2.conn.tx with
  | writing s =>
    -- the lock was free, so the other connection was a reader
    have hfree : ∀ s', w.tx j ≠ .writing s' := fun s' hs' => hl (hlocked s' hs') s htx
    cases hj : w.tx j with
    | writing s' => exact absurd hj (hfree s')
    | reader r =>
      have hr : w.reader j = r := by
        unfold tx txOf at hj
        split at hj
        · split_ifs at hj
          exact Tx.reader.inj hj
        · exact Tx.reader.inj hj
      simp [tx, txOf, put, htx, hij, hr]
  | reader r => simp [tx, put, htx, Function.update_of_ne hij.symm, txOf_freed_of_ne _ _ hij]

/-- A connection's own step, put back, is what the step made of it. -/
theorem rely_put_self (w : World ι σ α ρ) (i : ι) (out : Option (Prog σ ρ) × Sess σ α) :
    Rely out.2 ((w.put i out).sess i) :=
  ⟨tx_put_self w i out, by simp [put, sess], le_rfl, fun _ => ⟨rfl, rfl⟩, fun _ _ => rfl⟩

/-- A connection can rely on what another one's step guarantees. -/
theorem rely_put_of_ne {w : World ι σ α ρ} {i j : ι} (hij : i ≠ j)
    {out : Option (Prog σ ρ) × Sess σ α} (hg : Guar (w.sess i) out.2) :
    Rely (w.sess j) ((w.put i out).sess j) := by
  have hlocked : ∀ s, w.tx j = .writing s → (w.sess i).conn.locked = true := fun s hs => by
    simp [sess, lock_of_writing hs, hij.symm]
  exact ⟨tx_put_of_ne hij fun h => (hg.locked h).2,
    by simp [put, sess, Function.update_of_ne hij.symm], hg.mono, hg.same,
    fun s hs => (hg.locked (hlocked s hs)).1⟩

variable {Inv receipt prog At}

theorem holds_put (ho : Outline Inv receipt prog At) {w : World ι σ α ρ} {i : ι}
    {out : Option (Prog σ ρ) × Sess σ α} (hw : w.Holds Inv At)
    (hs : Sound Inv At (w.sess i) out) : (w.put i out).Holds Inv At where
  committed := hs.1.committed
  good j := by
    by_cases hij : i = j
    · subst hij
      exact hs.1.of_rely (rely_put_self w i out) hs.1.committed fun s h => not_locked_of_writing h
    · exact (hw.good j).of_rely (rely_put_of_ne hij hs.2.1) hs.1.committed
        fun s h => not_locked_of_writing h
  points j p hp := by
    by_cases hij : i = j
    · subst hij
      refine ho.stable (hs.2.2 p ?_) (rely_put_self w i out)
      simpa [put] using hp
    · refine ho.stable (hw.points j p ?_) (rely_put_of_ne hij hs.2.1)
      simpa [put, Function.update_of_ne (Ne.symm hij)] using hp

/-- One event keeps it. -/
theorem holds_step (ho : Outline Inv receipt prog At) {w : World ι σ α ρ} (hw : w.Holds Inv At)
    (e : Event ι κ) : (w.step receipt prog e).Holds Inv At := by
  cases e with
  | start i k =>
    simp only [step]
    split
    · exact hw
    · exact holds_put ho hw (ho.start k (hw.good i))
  | turn i fault =>
    simp only [step]
    split
    · rename_i p hp
      exact holds_put ho hw (ho.turn fault (hw.points i p hp) (hw.good i))
    · exact hw

/-- **Every run keeps the invariant**, whatever the connections start and in
whatever order their statements come. -/
theorem holds_run (ho : Outline Inv receipt prog At) {s : σ} (hs : Inv s [])
    (events : List (Event ι κ)) : (run receipt prog s events).Holds Inv At := by
  suffices ∀ w : World ι σ α ρ, w.Holds Inv At →
      (events.foldl (step receipt prog) w).Holds Inv At by
    refine this _ ⟨hs, fun i => ⟨hs, fun s h => ?_, fun s v h => ?_, fun _ _ => rfl⟩,
      fun i p hp => ?_⟩
    · cases h
    · cases h
    · cases hp
  induction events with
  | nil => exact fun _ hw => hw
  | cons e events ih => exact fun w hw => ih _ (holds_step ho hw e)

end World

end Outline

end Sqlite
