/-
# Appends of any number of connections

Connections of several processes append to one ledger, each call in its own
transaction or in one its caller opened, with the caller's other statements
around it; any statement can fail, and the statements come in any order.
Every committed state is a whole ledger: the keys are `1..n`, the rows are
linked and recompute. Every append that returned a row inside a transaction
that committed is in it once (`ledger_whole`).

The proof outline: between the head's `SELECT` and the `INSERT` the
connection is pinned to the state it read, as a snapshot or as its working
copy, and a snapshot that is no longer the newest cannot write.

Key definitions: `Whole`, `ClientCall`, `clientProg`, `At`.
Key theorems: `whole_insert`, `outline`.
-/
import PolisMemory.Append
import PolisMemory.SqliteRuns

namespace PolisMemory

open HashChain Sqlite Sqlite.Prog Sqlite.Sess

variable (sha256 : String → String)

/-! ### Whole ledgers -/

/-- The keys are `1..n`, the rows linked from the genesis hash, and every row
recomputes. -/
structure Whole (t : LedgerTable) : Prop where
  seqs : t.rows.map LedgerEventRow.seq = seqsFrom 1 t.rows.length
  chain : Chain (rowShape sha256) genesisPrev t.rows

theorem whole_empty : Whole sha256 .empty := ⟨rfl, trivial⟩

/-- A whole ledger's next row has the next key. -/
theorem seq_successor {t : LedgerTable} (ht : Whole sha256 t) (a : LedgerAppend) :
    (successor sha256 t.last a).seq = 1 + t.rows.length := by
  cases h : t.last with
  | none =>
    have hn : t.rows = [] := List.getLast?_eq_none_iff.mp h
    simp [successor, hn]
  | some r =>
    have hne : t.rows ≠ [] := fun hn => by simp [LedgerTable.last, hn] at h
    have hr := seq_of_isFullChain ((isFullChain_iff _).mpr ⟨hne, ht.seqs⟩) h
    simp only [successor, Option.map_some, Option.getD_some, hr]
    omega

/-- The next row follows the head. -/
theorem prevHash_successor (t : LedgerTable) (a : LedgerAppend) :
    (successor sha256 t.last a).prevHash = head (rowShape sha256) genesisPrev t.rows := by
  rw [head_eq_getLast?]
  rfl

/-- **A whole ledger stays whole when its next row is inserted.** -/
theorem whole_insert {t t' : LedgerTable} {a : LedgerAppend} (ht : Whole sha256 t)
    (h : t.insert (successor sha256 t.last a) = some t') : Whole sha256 t' := by
  obtain ⟨w, hw, hrows⟩ := insert_successor sha256 t a
  cases h.symm.trans hw
  constructor
  · rw [hrows, List.map_append, ht.seqs, List.length_append, List.length_singleton,
      seqsFrom_concat, List.map_singleton, seq_successor sha256 ht]
  · rw [hrows, chain_append]
    exact ⟨ht.chain, (prevHash_successor sha256 t a), recomputes_successor sha256 _ a, trivial⟩

theorem nodup_rows (t : LedgerTable) : t.rows.Nodup :=
  t.byKey.imp fun h he => by
    rw [he] at h
    exact absurd h (lt_irrefl _)

/-! ### The clients -/

/-- What a connection is asked to do: an append, or a statement of the
caller's around it. -/
inductive ClientCall where
  | append (a : LedgerAppend)
  | beginTx (immediate : Bool)
  | commit
  | rollback
  /-- A read, or a write to another table. -/
  | read
  | write

/-- A call's program, and the row that it returns. -/
def clientProg : ClientCall → Prog LedgerTable (Option LedgerEventRow)
  | .append a => do return (← appendEvent sha256 a).toOption
  | .beginTx immediate => do
    let _ ← stmt (.beginTx immediate)
    return none
  | .commit => do
    let _ ← stmt .commit
    return none
  | .rollback => do
    let _ ← stmt .rollback
    return none
  | .read => do
    let _ ← select
    return none
  | .write => do
    let _ ← stmt (.write some)
    return none

/-! ### The proof outline -/

/-- The ledger is whole and holds every acknowledged row once, in order. -/
def LedgerInv (t : LedgerTable) (acked : List LedgerEventRow) : Prop :=
  Whole sha256 t ∧ acked.Sublist t.rows

/-- What an append does with the outcome of the insert, if the transaction
is its own and if it is not. -/
def conclude : Bool → Except Error LedgerEventRow → Prog LedgerTable (Option LedgerEventRow)
  | true, .ok row => do
    match ← stmt .commit with
    | some _ => return none
    | none => return some row
  | true, .error _ => do
    let _ ← stmt .rollback
    return none
  | false, r => return r.toOption

/-- The insert after the head that was read in `t`. -/
def insertAfter (a : LedgerAppend) (own : Bool) (t : LedgerTable) :
    Prog LedgerTable (Option LedgerEventRow) :=
  exec (.write fun cur => cur.insert (successor sha256 t.last a)) fun
    | some e => conclude own (.error e)
    | none => conclude own (.ok (successor sha256 t.last a))

/-- The head's `SELECT`, and on. -/
def readHead (a : LedgerAppend) (own : Bool) : Prog LedgerTable (Option LedgerEventRow) :=
  query fun
    | .error e => conclude own (.error e)
    | .ok t => insertAfter sha256 a own t

/-- The `BEGIN IMMEDIATE`, and on. -/
def beginFirst (a : LedgerAppend) (attempts : ℕ) : Prog LedgerTable (Option LedgerEventRow) :=
  exec (.beginTx true) fun
    | none => readHead sha256 a true
    | some .busy => match attempts with
      | 0 => ret none
      | attempts + 1 => beginFirst a attempts
    | some .failed => ret none

theorem appendInTxn_bind (a : LedgerAppend) (own : Bool) :
    (appendInTxn sha256 a).bind (conclude own) = readHead sha256 a own := by
  simp only [appendInTxn, readHead, bind_eq, select_bind, Prog.bind]
  congr 1
  funext r
  cases r with
  | error e => rfl
  | ok t =>
    simp only [insertAfter, stmt_bind, Prog.bind]
    congr 1
    funext e
    cases e <;> rfl

theorem beginImmediate_bind (a : LedgerAppend) : ∀ attempts : ℕ,
    ((beginImmediate attempts).bind fun
      | none => readHead sha256 a true
      | some _ => ret none) = beginFirst sha256 a attempts
  | 0 => by
    simp only [beginImmediate, stmt_bind, beginFirst]
    congr 1
    funext e
    rcases e with _ | _ | _ <;> rfl
  | attempts + 1 => by
    simp only [beginImmediate, bind_eq, stmt_bind, Prog.bind, beginFirst]
    congr 1
    funext e
    rcases e with _ | _ | _
    · rfl
    · exact beginImmediate_bind a attempts
    · rfl

theorem appendEvent_bind (a : LedgerAppend) : clientProg sha256 (.append a) =
    autocommit fun auto => if auto then beginFirst sha256 a busyAttempts
      else readHead sha256 a false := by
  simp only [clientProg, appendEvent, bind_eq, isAutocommit_bind, pure_eq, Prog.bind]
  congr 1
  funext auto
  cases auto with
  | false =>
    rw [if_neg Bool.false_ne_true, ← appendInTxn_bind]
    rfl
  | true =>
    rw [if_pos rfl, ← beginImmediate_bind, ← appendInTxn_bind]
    simp only [Bool.not_true, Bool.false_eq_true, if_false, bind_assoc]
    congr 1
    funext e
    cases e with
    | some e => rfl
    | none =>
      simp only [bind_assoc]
      congr 1
      funext r
      cases r with
      | error e => rfl
      | ok row =>
        simp only [conclude, bind_eq, stmt_bind, Prog.bind]
        congr 1
        funext e
        cases e <;> rfl

/-- The session of a ledger's connection. -/
abbrev LedgerSess := Sess LedgerTable LedgerEventRow

/-- The connection reads or works on `t`, whatever the others commit. -/
def PinnedTo (t : LedgerTable) (x : LedgerSess) : Prop :=
  x.conn.tx = .writing t ∨ ∃ v, x.conn.tx = .reader (.snapshot t v)

/-- The transaction is the append's own: it holds the lock, and no other
receipt waits for it. -/
def Owns (x : LedgerSess) : Prop := (∃ t, x.conn.tx = .writing t) ∧ x.pending = []

/-- The statements of a caller: any but a write to the ledger. -/
def Harmless (s : Stmt LedgerTable) : Prop := ∀ g, s = .write g → g = some

/-- What holds between two statements of a client. -/
inductive At : Prog LedgerTable (Option LedgerEventRow) → LedgerSess → Prop
  | begins (a : LedgerAppend) (attempts : ℕ) {x : LedgerSess} (hx : x.conn.isAuto = true) :
    At (beginFirst sha256 a attempts) x
  | reads (a : LedgerAppend) (own : Bool) {x : LedgerSess} (hx : x.conn.isAuto = false)
    (ho : own = true → Owns x) : At (readHead sha256 a own) x
  | inserts (a : LedgerAppend) (own : Bool) {t : LedgerTable} {x : LedgerSess}
    (hx : PinnedTo t x) (ho : own = true → Owns x) : At (insertAfter sha256 a own t) x
  | commits {row : LedgerEventRow} {base t : LedgerTable} {x : LedgerSess}
    (hx : x.conn.tx = .writing t) (hrows : t.rows = base.rows ++ [row])
    (hacked : x.acked.Sublist base.rows) (hp : x.pending = []) : At (conclude true (.ok row)) x
  | executes {s : Stmt LedgerTable} (hs : Harmless s) (x : LedgerSess) :
    At (exec s fun _ => ret none) x
  | selects (x : LedgerSess) : At (query fun _ => ret none) x

theorem at_stable {p : Prog LedgerTable (Option LedgerEventRow)} {x x' : LedgerSess}
    (h : At sha256 p x) (hr : Rely x x') : At sha256 p x' := by
  have howns : Owns x → Owns x' := fun ⟨⟨t, ht⟩, hp⟩ => ⟨⟨t, hr.tx.trans ht⟩, hr.pending.trans hp⟩
  have hauto : x'.conn.isAuto = x.conn.isAuto := by
    unfold Conn.isAuto
    rw [hr.tx]
  cases h with
  | begins a attempts hx => exact .begins a attempts (hauto.trans hx)
  | reads a own hx ho => exact .reads a own (hauto.trans hx) fun h => howns (ho h)
  | inserts a own hx ho =>
    refine .inserts a own ?_ fun h => howns (ho h)
    unfold PinnedTo
    rwa [hr.tx]
  | commits hx hrows hacked hp =>
    refine .commits (hr.tx.trans hx) hrows ?_ (hr.pending.trans hp)
    rwa [(hr.same (hr.held _ hx)).2]
  | executes hs => exact .executes hs _
  | selects => exact .selects _

/-! ### Each statement leads on -/

variable {sha256} {x : LedgerSess}

theorem resume_beginFirst (a : LedgerAppend) (attempts : ℕ) (x : LedgerSess) :
    resume id (beginFirst sha256 a attempts) x = (some (beginFirst sha256 a attempts), x) := by
  unfold beginFirst
  rfl

theorem sound_begins (hx : Good (LedgerInv sha256) x) (hauto : x.conn.isAuto = true)
    (a : LedgerAppend) (attempts : ℕ) (fault : Fault) :
    Sound (LedgerInv sha256) (At sha256) x (turn id fault x (beginFirst sha256 a attempts)) := by
  have hsound := exec_sound hx fault (.beginTx true) (fun g s' h => by cases h)
  rcases Conn.exec_beginImmediate hauto fault with h | ⟨e, c', h, hc'⟩
  · simp only [h] at hsound
    have hown : Owns (x.after { x.conn with tx := .writing x.conn.committed } false) :=
      ⟨⟨_, rfl⟩, hx.idle _ (Conn.isAuto_iff.mp hauto)⟩
    cases attempts with
    | zero =>
      simp only [beginFirst, turn, h]
      exact sound_next hsound (.reads a true rfl fun _ => hown)
    | succ attempts =>
      simp only [beginFirst, turn, h]
      exact sound_next hsound (.reads a true rfl fun _ => hown)
  · simp only [h] at hsound
    have hauto' : (x.after c' false).conn.isAuto = true := by simp [after, hc']
    cases attempts with
    | zero =>
      simp only [beginFirst, turn, h]
      cases e <;> exact sound_done hsound
    | succ attempts =>
      simp only [beginFirst, turn, h]
      cases e with
      | failed => exact sound_done hsound
      | busy =>
        have hnext : At sha256 (beginFirst sha256 a attempts) (x.after c' false) :=
          .begins a attempts hauto'
        rw [resume_beginFirst]
        exact sound_next hsound hnext

theorem sound_executes (hx : Good (LedgerInv sha256) x) {s : Stmt LedgerTable} (hs : Harmless s)
    (fault : Fault) :
    Sound (LedgerInv sha256) (At sha256) x (turn id fault x (exec s fun _ => ret none)) := by
  refine sound_done (exec_sound hx fault s fun g s' hg hc h => ?_)
  rw [hs g hg] at h
  cases h
  exact hx.sees hc

theorem sound_selects (hx : Good (LedgerInv sha256) x) (fault : Fault) :
    Sound (LedgerInv sha256) (At sha256) x (turn id fault x (query fun _ => ret none)) :=
  sound_done (query_sound hx fault)

/-- After an error an append of its own rolls back, and a joined one returns. -/
theorem sound_error {x' : LedgerSess} (own : Bool) (e : Error)
    (h : Good (LedgerInv sha256) x' ∧ Guar x x') :
    Sound (LedgerInv sha256) (At sha256) x (resume id (conclude own (.error e)) x') := by
  cases own with
  | false => exact sound_done h
  | true => exact sound_next h (.executes (fun g hg => by cases hg) _)

theorem sound_reads (hx : Good (LedgerInv sha256) x) (a : LedgerAppend) (own : Bool)
    (hauto : x.conn.isAuto = false) (ho : own = true → Owns x) (fault : Fault) :
    Sound (LedgerInv sha256) (At sha256) x (turn id fault x (readHead sha256 a own)) := by
  have hsound := query_sound hx fault
  simp only [readHead, turn]
  rcases Conn.query_pins hauto fault with ⟨e, c', h⟩ | ⟨t, ht, h⟩ | ⟨c', t, v, ⟨r, hr⟩, h, ht⟩
  · rw [h] at hsound ⊢
    exact sound_error own e hsound
  · rw [h] at hsound ⊢
    have hsame : x.after x.conn false = x := by simp [after, hauto]
    rw [hsame] at hsound ⊢
    exact sound_next hsound (.inserts a own (.inl ht) ho)
  · rw [h] at hsound ⊢
    refine sound_next hsound (.inserts a own (.inr ⟨v, ?_⟩) fun hown => ?_)
    · have hc : c'.isAuto = false := by simp [Conn.isAuto, ht]
      simp [after, hc, ht]
    · -- an append of its own holds the lock
      obtain ⟨⟨t', ht'⟩, -⟩ := ho hown
      rw [hr] at ht'
      cases ht'

theorem sound_inserts (hx : Good (LedgerInv sha256) x) (a : LedgerAppend) (own : Bool)
    {t : LedgerTable} (hpin : PinnedTo t x) (ho : own = true → Owns x) (fault : Fault) :
    Sound (LedgerInv sha256) (At sha256) x (turn id fault x (insertAfter sha256 a own t)) := by
  have hsees : x.conn.sees = t := by
    rcases hpin with h | ⟨v, h⟩ <;> simp [Conn.sees, h]
  have hsound := exec_sound hx fault (.write fun cur => cur.insert (successor sha256 t.last a))
    fun g s' hg hc h => by
      cases hg
      rw [hsees] at h
      have hinv := hx.sees hc
      rw [hsees] at hinv
      obtain ⟨w, hw, hrows⟩ := insert_successor sha256 t a
      cases h.symm.trans hw
      exact ⟨whole_insert sha256 hinv.1 hw, hrows ▸ hinv.2.trans (List.sublist_append_left _ _)⟩
  simp only [insertAfter, turn]
  rcases Conn.exec_write_pinned hpin (fun cur => cur.insert (successor sha256 t.last a)) fault with
    ⟨e, h⟩ | ⟨t', ht', h, hc⟩
  · rw [h]
    exact sound_error own e hsound
  · rw [h] at hsound ⊢
    have hinv := hx.sees hc
    rw [hsees] at hinv
    obtain ⟨w, hw, hrows⟩ := insert_successor sha256 t a
    cases ht'.symm.trans hw
    cases own with
    | true =>
      have hp := (ho rfl).2
      rw [hp, List.append_nil] at hinv
      exact sound_next hsound (.commits rfl hrows hinv.2 hp)
    | false =>
      -- the receipt waits for the caller's transaction
      refine sound_done ⟨⟨hsound.1.committed, fun s hs => ?_, fun s v hs => ?_, fun r hr => ?_⟩,
        ⟨hsound.2.mono, hsound.2.same, hsound.2.locked⟩⟩
      · cases hs
        refine ⟨⟨(hsound.1.work t' rfl).1.1, ?_⟩, (hsound.1.work t' rfl).2⟩
        change (x.acked ++ (x.pending ++ [successor sha256 t.last a])).Sublist t'.rows
        rw [hrows, ← List.append_assoc]
        exact hinv.2.append (List.Sublist.refl _)
      · cases hs
      · cases hr

theorem sound_commits (hx : Good (LedgerInv sha256) x) {row : LedgerEventRow}
    {base t : LedgerTable} (htx : x.conn.tx = .writing t) (hrows : t.rows = base.rows ++ [row])
    (hacked : x.acked.Sublist base.rows) (hp : x.pending = []) (fault : Fault) :
    Sound (LedgerInv sha256) (At sha256) x (turn id fault x (conclude true (.ok row))) := by
  have hsound := exec_sound hx fault .commit fun g s' hg => by cases hg
  cases fault with
  | refused e => exact sound_done hsound
  | aborted => exact sound_done hsound
  | none =>
    have hc : x.conn.exec .none .commit =
        (⟨t, x.conn.version + 1, .reader .auto, x.conn.locked⟩, none) := by
      simp [Conn.exec, Conn.execCommit, htx]
    simp only [hc] at hsound
    -- the row is acknowledged as it is committed
    have hturn : turn id .none x (conclude true (.ok row)) =
        (none, ⟨⟨t, x.conn.version + 1, .reader .auto, x.conn.locked⟩, [], x.acked ++ [row]⟩) := by
      simp [conclude, turn, hc, after, isPublished, Conn.isAuto, hp, finish]
    rw [hturn]
    refine sound_done ⟨⟨⟨(hsound.1.committed).1, ?_⟩, fun s hs => ?_, fun s v hs => ?_,
      fun _ _ => rfl⟩, ⟨hsound.2.mono, fun h => ?_, hsound.2.locked⟩⟩
    · change (x.acked ++ [row]).Sublist t.rows
      rw [hrows]
      exact hacked.append (List.Sublist.refl _)
    · cases hs
    · cases hs
    · exact absurd h (Nat.ne_of_lt (Nat.lt_succ_self _))

variable (sha256)

/-- The statements of every call keep the ledger whole. -/
theorem outline : Outline (LedgerInv sha256) id (clientProg sha256) (At sha256) where
  stable := at_stable sha256
  start k x hx := by
    have hkeep := And.intro hx (Guar.refl hx)
    cases k with
    | append a =>
      have hresume : resume id (clientProg sha256 (.append a)) x =
          resume id (if x.conn.isAuto then beginFirst sha256 a busyAttempts
            else readHead sha256 a false) x := by
        rw [appendEvent_bind]
        rfl
      rw [hresume]
      cases hauto : x.conn.isAuto with
      | true =>
        rw [if_pos rfl, resume_beginFirst]
        exact sound_next hkeep (.begins a _ hauto)
      | false => exact sound_next hkeep (.reads a false hauto fun h => by cases h)
    | beginTx immediate => exact sound_next hkeep (.executes (fun g hg => by cases hg) x)
    | commit => exact sound_next hkeep (.executes (fun g hg => by cases hg) x)
    | rollback => exact sound_next hkeep (.executes (fun g hg => by cases hg) x)
    | read => exact sound_next hkeep (.selects x)
    | write => exact sound_next hkeep (.executes (fun g hg => by cases hg; rfl) x)
  turn fault hp hx := by
    cases hp with
    | begins a attempts hauto => exact sound_begins hx hauto a attempts fault
    | reads a own hauto ho => exact sound_reads hx a own hauto ho fault
    | inserts a own hpin ho => exact sound_inserts hx a own hpin ho fault
    | commits htx hrows hacked hp => exact sound_commits hx htx hrows hacked hp fault
    | executes hs => exact sound_executes hx hs fault
    | selects => exact sound_selects hx fault

/-- **The ledger of any number of connections is whole in every committed
state.** Whatever each connection does, in whatever order their statements
come and whichever of them fail: the keys are `1..n`, each row is linked to
the one before it and recomputes, the rows that were acknowledged inside
transactions that committed are all there, each once and in that order, and
the full verification passes. -/
theorem ledger_whole {ι : Type} [DecidableEq ι] (events : List (Event ι ClientCall)) :
    let w := World.run id (clientProg sha256) LedgerTable.empty events
    w.committed.rows.map LedgerEventRow.seq = seqsFrom 1 w.committed.rows.length ∧
      Chain (rowShape sha256) genesisPrev w.committed.rows ∧
      w.acked.Sublist w.committed.rows ∧ w.committed.rows.Nodup ∧
      (verifyLedgerChain sha256 w.committed).ok = true := by
  intro w
  have hw : w.Holds (LedgerInv sha256) (At sha256) :=
    World.holds_run (outline sha256) ⟨whole_empty sha256, List.Sublist.refl _⟩ events
  obtain ⟨⟨hseqs, hchain⟩, hacked⟩ := hw.committed
  exact ⟨hseqs, hchain, hacked, nodup_rows w.committed,
    (verifyLedgerChain_ok sha256 w.committed).mpr hchain⟩

end PolisMemory
