/-
# The incremental verification and its anchor

`crates/polis-store/src/chain.rs`: `verify_ledger_chain_incremental` checks
only what the chain has grown by since a stored anchor, a `seq` and a head
hash; without an anchor, or where the anchored row is not there any more, it
walks the whole chain and anchors anew. Each of its reads is a statement of
its own, so another connection can append between any two of them.

Its verdict is that of a full verification of the rows it read. The anchor's
two halves come from two reads: an append that falls between them tears it,
and that is the only thing that does
(`verificationsMeet_of_neverDisturbed`).

Key definitions: `LedgerDb`, `verifyLedgerChainIncremental`, `grow`,
`Undisturbed`, `VerifyMeets`, `HistoryEvent`.
Key theorems: `run_incremental`, `walk_eq_verify`, `outcome_sameVerdict`,
`anchored_outcome`, `undisturbed_of_namesRow`.
-/
import PolisMemory.Append

namespace PolisMemory

open HashChain Sqlite Sqlite.Prog

variable (sha256 : String → String)

/-- The ledger and the stored anchor (`VERIFY_LAST_SEQ`, `VERIFY_HEAD_HASH`;
the former is stored as text and parsed). -/
structure LedgerDb where
  ledger : LedgerTable
  verifyLastSeq : Option ℤ
  verifyHeadHash : Option String

/-- `set_meta(VERIFY_LAST_SEQ, …)`; its failure is ignored. -/
def setLastSeq (seq : ℤ) : Prog LedgerDb (Option Error) :=
  stmt (.write fun db => some { db with verifyLastSeq := some seq })

/-- `set_meta(VERIFY_HEAD_HASH, …)`; its failure is ignored. -/
def setHeadHash (hash : String) : Prog LedgerDb (Option Error) :=
  stmt (.write fun db => some { db with verifyHeadHash := some hash })

/-- A read of one `meta` key, none if it fails. -/
def readMeta {β : Type} (f : LedgerDb → Option β) : Prog LedgerDb (Option β) := do
  match ← select with
  | .error _ => return none
  | .ok db => return f db

/-- The whole chain is walked and, if it passes, the anchor moved to its
head: the head's `seq` is read after the rows. -/
def fullAndReanchor : Prog LedgerDb (Except Error ChainVerdict) := do
  match ← select with
  | .error e => return .error e
  | .ok db =>
    let verdict := verifyLedgerChain sha256 db.ledger
    if verdict.ok then
      let at_ := match ← select with
        | .error _ => 0
        | .ok db => maxLedgerSeq db.ledger
      let _ ← setLastSeq at_
      let _ ← setHeadHash (verdict.headHash.getD genesisPrev)
      return .ok verdict
    else return .ok verdict

/-- The anchored row still hashes to what was recorded; `seq` 0 is an empty
chain that was verified. -/
def anchorOk (t : LedgerTable) (anchorSeq : ℤ) (anchorHash : String) : Bool :=
  match (t.rows.find? fun r => decide (r.seq = anchorSeq)).map LedgerEventRow.entryHash with
  | some h => decide (h = anchorHash)
  | none => decide (anchorSeq = 0) && decide (anchorHash = genesisPrev)

/-- The rows after the anchor. -/
def suffix (t : LedgerTable) (anchorSeq : ℤ) : List LedgerEventRow :=
  t.rows.filter fun r => decide (anchorSeq < r.seq)

/-- The walk of the rows after the anchor; if it passes, the anchor moves to
the head `seq` that was read first. -/
def walkSuffix (headSeq anchorSeq : ℤ) (anchorHash : String) :
    Prog LedgerDb (Except Error ChainVerdict) := do
  match ← select with
  | .error e => return .error e
  | .ok db =>
    let verdict := walkChain sha256 anchorHash anchorSeq (some anchorHash)
      (suffix db.ledger anchorSeq)
    if verdict.ok then
      let _ ← setLastSeq headSeq
      let _ ← setHeadHash (verdict.headHash.getD anchorHash)
      return .ok verdict
    else return .ok verdict

/-- The verification from a stored anchor. -/
def fromAnchor (headSeq anchorSeq : ℤ) (anchorHash : String) :
    Prog LedgerDb (Except Error ChainVerdict) := do
  -- a rewound or shrunk chain is not an incremental case
  if anchorSeq > headSeq then fullAndReanchor sha256
  else match ← select with
    | .error e => return .error e
    | .ok db =>
      if !anchorOk db.ledger anchorSeq anchorHash then fullAndReanchor sha256
      else if headSeq = anchorSeq then return .ok ⟨true, headSeq, none, some anchorHash⟩
      else walkSuffix sha256 headSeq anchorSeq anchorHash

/-- `verify_ledger_chain_incremental`. -/
def verifyLedgerChainIncremental : Prog LedgerDb (Except Error ChainVerdict) := do
  match ← select with
  | .error e => return .error e
  | .ok db =>
    let headSeq := maxLedgerSeq db.ledger
    let lastSeq ← readMeta LedgerDb.verifyLastSeq
    let headHash ← readMeta LedgerDb.verifyHeadHash
    match lastSeq, headHash with
    | some anchorSeq, some anchorHash => fromAnchor sha256 headSeq anchorSeq anchorHash
    | _, _ => fullAndReanchor sha256

/-! ### Appends between the statements -/

/-- The database after another connection's appends. -/
def grow (db : LedgerDb) (as : List LedgerAppend) : LedgerDb :=
  { db with ledger := as.foldl (appended sha256) db.ledger }

/-- The appends that another connection commits before each statement. -/
abbrev Gaps := ℕ → List LedgerAppend

/-- The statements of a verification, the appends of `gaps` between them. -/
def between (gaps : Gaps) (n : ℕ) : Turn LedgerDb := ⟨some (grow sha256 · (gaps n)), false, .none⟩

/-- The verifying connection. -/
def verifier (db : LedgerDb) (version : ℕ) : Conn LedgerDb := ⟨db, version, .reader .auto, false⟩

/-- The database that the `n`-th statement finds, if no anchor is stored
before it. -/
def dbAt (db : LedgerDb) (gaps : Gaps) : ℕ → LedgerDb
  | 0 => grow sha256 db (gaps 0)
  | n + 1 => grow sha256 (dbAt db gaps n) (gaps (n + 1))

/-! ### A run of the verification -/

theorem run_select {ρ : Type} (gaps : Gaps) (n : ℕ) (k : Except Error LedgerDb → Prog LedgerDb ρ)
    (db : LedgerDb) (v : ℕ) :
    (query k).run (between sha256 gaps) n (verifier db v) =
      (k (.ok (grow sha256 db (gaps n)))).run (between sha256 gaps) (n + 1)
        (verifier (grow sha256 db (gaps n)) (v + 1)) := rfl

theorem run_readMeta {β ρ : Type} (gaps : Gaps) (n : ℕ) (f : LedgerDb → Option β)
    (k : Option β → Prog LedgerDb ρ) (db : LedgerDb) (v : ℕ) :
    ((readMeta f).bind k).run (between sha256 gaps) n (verifier db v) =
      (k (f (grow sha256 db (gaps n)))).run (between sha256 gaps) (n + 1)
        (verifier (grow sha256 db (gaps n)) (v + 1)) := rfl

/-- The two halves of the anchor, stored one after the other. -/
def storeAnchor (gaps : Gaps) (n : ℕ) (db : LedgerDb) (seq : ℤ) (hash : String) : LedgerDb :=
  ⟨(grow sha256 (grow sha256 db (gaps n)) (gaps (n + 1))).ledger, some seq, some hash⟩

/-- What a full verification returns and leaves, its rows read by the `n`-th
statement. -/
def fullOutcome (gaps : Gaps) (n : ℕ) (db : LedgerDb) : ChainVerdict × LedgerDb :=
  let rows := grow sha256 db (gaps n)
  let head := grow sha256 rows (gaps (n + 1))
  let verdict := verifyLedgerChain sha256 rows.ledger
  if verdict.ok then
    (verdict, storeAnchor sha256 gaps (n + 2) head (maxLedgerSeq head.ledger)
      (verdict.headHash.getD genesisPrev))
  else (verdict, rows)

theorem run_fullAndReanchor (gaps : Gaps) (n : ℕ) (db : LedgerDb) (v : ℕ) :
    ∃ v' m, (fullAndReanchor sha256).run (between sha256 gaps) n (verifier db v) =
      (.ok (fullOutcome sha256 gaps n db).1, verifier (fullOutcome sha256 gaps n db).2 v', m) := by
  unfold fullOutcome
  simp only [fullAndReanchor, bind_eq, select_bind, run_select]
  split_ifs with hok
  · simp only [setLastSeq, setHeadHash, stmt_bind, pure_eq, run]
    exact ⟨_, _, rfl⟩
  · exact ⟨_, _, rfl⟩

/-- What the walk of the suffix returns and leaves, its rows read by the
`n`-th statement. -/
def walkOutcome (gaps : Gaps) (n : ℕ) (db : LedgerDb) (headSeq anchorSeq : ℤ)
    (anchorHash : String) : ChainVerdict × LedgerDb :=
  let rows := grow sha256 db (gaps n)
  let verdict := walkChain sha256 anchorHash anchorSeq (some anchorHash)
    (suffix rows.ledger anchorSeq)
  if verdict.ok then
    (verdict, storeAnchor sha256 gaps (n + 1) rows headSeq (verdict.headHash.getD anchorHash))
  else (verdict, rows)

theorem run_walkSuffix (gaps : Gaps) (n : ℕ) (db : LedgerDb) (v : ℕ) (headSeq anchorSeq : ℤ)
    (anchorHash : String) :
    ∃ v' m, (walkSuffix sha256 headSeq anchorSeq anchorHash).run (between sha256 gaps) n
        (verifier db v) =
      (.ok (walkOutcome sha256 gaps n db headSeq anchorSeq anchorHash).1,
        verifier (walkOutcome sha256 gaps n db headSeq anchorSeq anchorHash).2 v', m) := by
  unfold walkOutcome
  simp only [walkSuffix, bind_eq, select_bind, run_select]
  split_ifs with hok
  · simp only [setLastSeq, setHeadHash, stmt_bind, pure_eq, run]
    exact ⟨_, _, rfl⟩
  · exact ⟨_, _, rfl⟩

/-- Which way an incremental verification goes. -/
inductive Path where
  /-- Back to the full one, its rows read by the `n`-th statement. -/
  | full (n : ℕ)
  /-- Nothing has been added since the anchor. -/
  | same (anchorSeq : ℤ) (anchorHash : String)
  | walk (anchorSeq : ℤ) (anchorHash : String)

/-- The way it goes from `db`. -/
def path (db : LedgerDb) (gaps : Gaps) : Path :=
  match db.verifyLastSeq, db.verifyHeadHash with
  | some anchorSeq, some anchorHash =>
    if anchorSeq > maxLedgerSeq (dbAt sha256 db gaps 0).ledger then .full 3
    else if !anchorOk (dbAt sha256 db gaps 3).ledger anchorSeq anchorHash then .full 4
    else if maxLedgerSeq (dbAt sha256 db gaps 0).ledger = anchorSeq then .same anchorSeq anchorHash
    else .walk anchorSeq anchorHash
  | _, _ => .full 3

/-- What an incremental verification returns and leaves. -/
def outcome (db : LedgerDb) (gaps : Gaps) : ChainVerdict × LedgerDb :=
  match path sha256 db gaps with
  | .full n => fullOutcome sha256 gaps n (dbAt sha256 db gaps (n - 1))
  | .same anchorSeq anchorHash =>
    (⟨true, anchorSeq, none, some anchorHash⟩, dbAt sha256 db gaps 3)
  | .walk anchorSeq anchorHash =>
    walkOutcome sha256 gaps 4 (dbAt sha256 db gaps 3) (maxLedgerSeq (dbAt sha256 db gaps 0).ledger)
      anchorSeq anchorHash

@[simp] theorem grow_verifyLastSeq (db : LedgerDb) (as : List LedgerAppend) :
    (grow sha256 db as).verifyLastSeq = db.verifyLastSeq := rfl

@[simp] theorem grow_verifyHeadHash (db : LedgerDb) (as : List LedgerAppend) :
    (grow sha256 db as).verifyHeadHash = db.verifyHeadHash := rfl

/-- **A run of the incremental verification**, the appends of `gaps` between
its statements. -/
theorem run_incremental (db : LedgerDb) (gaps : Gaps) (v : ℕ) :
    ∃ v' m, (verifyLedgerChainIncremental sha256).run (between sha256 gaps) 0 (verifier db v) =
      (.ok (outcome sha256 db gaps).1, verifier (outcome sha256 db gaps).2 v', m) := by
  simp only [verifyLedgerChainIncremental, bind_eq, select_bind, run_select, run_readMeta,
    grow_verifyLastSeq, grow_verifyHeadHash]
  cases hs : db.verifyLastSeq with
  | none =>
    have hp : path sha256 db gaps = .full 3 := by simp only [path, hs]
    simp only [outcome, hp]
    exact run_fullAndReanchor sha256 gaps 3 _ _
  | some anchorSeq =>
    cases hh : db.verifyHeadHash with
    | none =>
      have hp : path sha256 db gaps = .full 3 := by simp only [path, hs, hh]
      simp only [outcome, hp]
      exact run_fullAndReanchor sha256 gaps 3 _ _
    | some anchorHash =>
      change ∃ v' m, (fromAnchor sha256 (maxLedgerSeq (dbAt sha256 db gaps 0).ledger) anchorSeq
        anchorHash).run (between sha256 gaps) 3 (verifier (dbAt sha256 db gaps 2) (v + 3)) = _
      unfold fromAnchor
      by_cases h1 : anchorSeq > maxLedgerSeq (dbAt sha256 db gaps 0).ledger
      · have hp : path sha256 db gaps = .full 3 := by simp only [path, hs, hh, if_pos h1]
        simp only [outcome, hp, if_pos h1]
        exact run_fullAndReanchor sha256 gaps 3 _ _
      simp only [if_neg h1, bind_eq, select_bind, run_select]
      change ∃ v' m, (if !anchorOk (dbAt sha256 db gaps 3).ledger anchorSeq anchorHash then _
        else _ : Prog LedgerDb (Except Error ChainVerdict)).run (between sha256 gaps) 4
          (verifier (dbAt sha256 db gaps 3) (v + 4)) = _
      by_cases h2 : (!anchorOk (dbAt sha256 db gaps 3).ledger anchorSeq anchorHash) = true
      · have hp : path sha256 db gaps = .full 4 := by
          simp only [path, hs, hh, if_neg h1, if_pos h2]
        simp only [outcome, hp, if_pos h2]
        exact run_fullAndReanchor sha256 gaps 4 _ _
      by_cases h3 : maxLedgerSeq (dbAt sha256 db gaps 0).ledger = anchorSeq
      · have hp : path sha256 db gaps = .same anchorSeq anchorHash := by
          simp only [path, hs, hh, if_neg h1, if_neg h2, if_pos h3]
        simp only [outcome, hp, if_neg h2, if_pos h3]
        rw [h3]
        exact ⟨_, _, rfl⟩
      · have hp : path sha256 db gaps = .walk anchorSeq anchorHash := by
          simp only [path, hs, hh, if_neg h1, if_neg h2, if_neg h3]
        simp only [outcome, hp, if_neg h2, if_neg h3]
        exact run_walkSuffix sha256 gaps 4 _ _ _ _ _

/-! ### The anchored prefix -/

/-- The rows up to the anchor. -/
def upTo (t : LedgerTable) (anchorSeq : ℤ) : List LedgerEventRow :=
  t.rows.filter fun r => decide (r.seq ≤ anchorSeq)

/-- The rows up to the anchor are a chain from the genesis hash, and the last
of them is the anchored one. -/
structure AnchorValid (t : LedgerTable) (anchorSeq : ℤ) (anchorHash : String) : Prop where
  chain : Chain (rowShape sha256) genesisPrev (upTo t anchorSeq)
  last : ∃ r, (upTo t anchorSeq).getLast? = some r ∧ r.seq = anchorSeq ∧ r.entryHash = anchorHash

/-- Rows in the order of their keys are those up to a key and those after. -/
theorem filter_append_filter (s : ℤ) : ∀ {rows : List LedgerEventRow},
    rows.Pairwise (fun a b => a.seq < b.seq) →
      (rows.filter fun r => decide (r.seq ≤ s)) ++ (rows.filter fun r => decide (s < r.seq)) = rows
  | [], _ => rfl
  | r :: rows, h => by
    obtain ⟨hr, hrows⟩ := List.pairwise_cons.mp h
    have ih := filter_append_filter s hrows
    by_cases hs : r.seq ≤ s
    · have hn : ¬ s < r.seq := not_lt.mpr hs
      simp [hs, hn, ih]
    · -- past the key, and so are all the others
      have hall : ∀ x ∈ rows, s < x.seq := fun x hx => (not_le.mp hs).trans (hr x hx)
      have h1 : (rows.filter fun r => decide (r.seq ≤ s)) = [] :=
        List.filter_eq_nil_iff.mpr fun x hx => by simpa using hall x hx
      have h2 : (rows.filter fun r => decide (s < r.seq)) = rows :=
        List.filter_eq_self.mpr fun x hx => by simpa using hall x hx
      simp [hs, not_le.mp hs, h1, h2]

theorem upTo_append_suffix (t : LedgerTable) (s : ℤ) : upTo t s ++ suffix t s = t.rows :=
  filter_append_filter s t.byKey

/-- **The walk of the suffix finds what a full verification finds.** -/
theorem firstBad_suffix {t : LedgerTable} {s : ℤ} {h : String} (ha : AnchorValid sha256 t s h) :
    firstBad (rowShape sha256) genesisPrev t.rows = firstBad (rowShape sha256) h (suffix t s) := by
  obtain ⟨r, hr, -, hh⟩ := ha.last
  rw [← upTo_append_suffix t s, firstBad_append _ ha.chain, head_eq_getLast?, hr]
  simp [rowShape_entry, hh]

theorem mem_of_anchorValid {t : LedgerTable} {s : ℤ} {h : String} (ha : AnchorValid sha256 t s h) :
    ∃ r ∈ t.rows, r.seq = s ∧ r.entryHash = h := by
  obtain ⟨r, hr, hs, hh⟩ := ha.last
  exact ⟨r, (List.mem_filter.mp (List.mem_of_getLast? hr)).1, hs, hh⟩

/-- The anchor at the last row of a chain. -/
theorem anchorValid_last {t : LedgerTable} {r : LedgerEventRow}
    (hc : Chain (rowShape sha256) genesisPrev t.rows) (hr : t.last = some r) :
    AnchorValid sha256 t r.seq r.entryHash := by
  have hall : upTo t r.seq = t.rows :=
    List.filter_eq_self.mpr fun x hx => by simpa using LedgerTable.le_last hr hx
  exact ⟨by rwa [hall], r, by rwa [hall], rfl, rfl⟩

theorem exists_last {t : LedgerTable} (h : t.rows ≠ []) : ∃ r, t.last = some r :=
  Option.ne_none_iff_exists'.mp (mt List.getLast?_eq_none_iff.mp h)

theorem maxLedgerSeq_of_last {t : LedgerTable} {r : LedgerEventRow} (h : t.last = some r) :
    maxLedgerSeq t = r.seq := by
  simp [maxLedgerSeq, h]

theorem suffix_eq_nil {t : LedgerTable} {s : ℤ} (h : maxLedgerSeq t = s) : suffix t s = [] := by
  refine List.filter_eq_nil_iff.mpr fun x hx => ?_
  obtain ⟨r, hr⟩ := exists_last (List.ne_nil_of_mem hx)
  have := LedgerTable.le_last hr hx
  rw [maxLedgerSeq_of_last hr] at h
  simp only [decide_eq_true_eq]
  omega

/-! ### What appends do not change -/

/-- `t'` has more rows, at the end. -/
def Extends (t t' : LedgerTable) : Prop := t.rows <+: t'.rows

theorem extends_appended (t : LedgerTable) (a : LedgerAppend) : Extends t (appended sha256 t a) := by
  obtain ⟨w, hw, hrows⟩ := insert_successor sha256 t a
  simp [Extends, appended, hw, hrows]

theorem extends_grow (db : LedgerDb) : ∀ as : List LedgerAppend,
    Extends db.ledger (grow sha256 db as).ledger := by
  intro as
  induction as generalizing db with
  | nil => exact List.prefix_rfl
  | cons a as ih =>
    exact (extends_appended sha256 db.ledger a).trans (ih { db with ledger := appended sha256 db.ledger a })

theorem upTo_of_extends {t t' : LedgerTable} {s : ℤ} (he : Extends t t') {r : LedgerEventRow}
    (hr : r ∈ t.rows) (hs : r.seq = s) : upTo t' s = upTo t s := by
  obtain ⟨more, hmore⟩ := he
  have hp := t'.byKey
  rw [← hmore] at hp
  have hlt := (List.pairwise_append.mp hp).2.2 r hr
  have hnil : (more.filter fun x => decide (x.seq ≤ s)) = [] :=
    List.filter_eq_nil_iff.mpr fun x hx => by
      have := hlt x hx
      simp only [decide_eq_true_eq]
      omega
  rw [upTo, upTo, ← hmore, List.filter_append, hnil, List.append_nil]

theorem AnchorValid.of_extends {t t' : LedgerTable} {s : ℤ} {h : String}
    (ha : AnchorValid sha256 t s h) (he : Extends t t') : AnchorValid sha256 t' s h := by
  obtain ⟨r, hr, hs, -⟩ := mem_of_anchorValid sha256 ha
  have hu := upTo_of_extends he hr hs
  exact ⟨hu ▸ ha.chain, hu ▸ ha.last⟩

/-! ### The verdict -/

/-- What is compared of two verdicts. -/
def SameVerdict (v w : ChainVerdict) : Prop :=
  v.ok = w.ok ∧ v.firstBadSeq = w.firstBadSeq ∧ v.headHash = w.headHash

/-- The rows a verification read. -/
def readRows (db : LedgerDb) (gaps : Gaps) : LedgerTable :=
  match path sha256 db gaps with
  | .full n => (dbAt sha256 db gaps n).ledger
  | .same _ _ => (dbAt sha256 db gaps 0).ledger
  | .walk _ _ => (dbAt sha256 db gaps 4).ledger

/-- The ledger has rows, and an anchor, if there is one, is valid. -/
structure Anchored (db : LedgerDb) : Prop where
  nonempty : db.ledger.rows ≠ []
  anchor : match db.verifyLastSeq, db.verifyHeadHash with
    | some s, some h => AnchorValid sha256 db.ledger s h
    | none, none => True
    | _, _ => False

theorem walk_eq_verify {t : LedgerTable} {s : ℤ} {h : String} (ha : AnchorValid sha256 t s h) :
    SameVerdict (walkChain sha256 h s (some h) (suffix t s)) (verifyLedgerChain sha256 t) := by
  have hb := firstBad_suffix sha256 ha
  obtain ⟨r, hr, -, hh⟩ := ha.last
  refine ⟨?_, ?_, ?_⟩
  · rw [Bool.eq_iff_iff, walkChain_ok, verifyLedgerChain_ok, ← firstBad_eq_none, ← firstBad_eq_none,
      hb]
  · rw [verifyLedgerChain, walkChain_firstBadSeq, walkChain_firstBadSeq, hb]
  · rw [verifyLedgerChain, walkChain_headHash, walkChain_headHash, hb]
    -- the last row is the suffix's, or the anchored one
    have hlast : (t.rows.getLast?.map LedgerEventRow.entryHash).or none =
        ((suffix t s).getLast?.map LedgerEventRow.entryHash).or (some h) := by
      rw [← upTo_append_suffix t s, List.getLast?_append, hr]
      cases (suffix t s).getLast? <;> simp [hh]
    rw [hlast]

theorem path_cases (db : LedgerDb) (gaps : Gaps) :
    path sha256 db gaps = .full 3 ∨ path sha256 db gaps = .full 4 ∨
      ∃ s h, db.verifyLastSeq = some s ∧ db.verifyHeadHash = some h ∧
        s ≤ maxLedgerSeq (dbAt sha256 db gaps 0).ledger ∧
        ((maxLedgerSeq (dbAt sha256 db gaps 0).ledger = s ∧ path sha256 db gaps = .same s h) ∨
          (maxLedgerSeq (dbAt sha256 db gaps 0).ledger ≠ s ∧ path sha256 db gaps = .walk s h)) := by
  unfold path
  split
  · rename_i s h hs hh
    split_ifs with h1 h2 h3
    · exact .inl rfl
    · exact .inr (.inl rfl)
    · exact .inr (.inr ⟨s, h, hs, hh, not_lt.mp h1, .inl ⟨h3, rfl⟩⟩)
    · exact .inr (.inr ⟨s, h, hs, hh, not_lt.mp h1, .inr ⟨h3, rfl⟩⟩)
  · exact .inl rfl

theorem extends_dbAt (db : LedgerDb) (gaps : Gaps) : ∀ n,
    Extends db.ledger (dbAt sha256 db gaps n).ledger
  | 0 => extends_grow sha256 db (gaps 0)
  | n + 1 => (extends_dbAt db gaps n).trans (extends_grow sha256 _ (gaps (n + 1)))

/-- **An incremental verification's verdict is that of a full one of the rows
it read.** -/
theorem outcome_sameVerdict {db : LedgerDb} (hdb : Anchored sha256 db) (gaps : Gaps) :
    SameVerdict (outcome sha256 db gaps).1
      (verifyLedgerChain sha256 (readRows sha256 db gaps)) := by
  rcases path_cases sha256 db gaps with hp | hp | ⟨s, h, hs, hh, -, ⟨hmax, hp⟩ | ⟨hmax, hp⟩⟩
  · simp only [outcome, readRows, hp, fullOutcome]
    split_ifs <;> exact ⟨rfl, rfl, rfl⟩
  · simp only [outcome, readRows, hp, fullOutcome]
    split_ifs <;> exact ⟨rfl, rfl, rfl⟩
  · have ha := hdb.anchor
    simp only [hs, hh] at ha
    have ha0 := ha.of_extends sha256 (extends_dbAt sha256 db gaps 0)
    have hw := walk_eq_verify sha256 ha0
    simp only [outcome, readRows, hp]
    -- nothing was there after the anchor
    rwa [suffix_eq_nil hmax] at hw
  · have ha := hdb.anchor
    simp only [hs, hh] at ha
    have hw := walk_eq_verify sha256 (ha.of_extends sha256 (extends_dbAt sha256 db gaps 4))
    simp only [outcome, readRows, hp, walkOutcome]
    split_ifs <;> exact hw

/-! ### The anchor -/

/-- The stored anchor names a row: its hash is that of the row with its `seq`. -/
def NamesRow (db : LedgerDb) : Prop :=
  match db.verifyLastSeq, db.verifyHeadHash with
  | some s, some h => ∃ r ∈ db.ledger.rows, r.seq = s ∧ r.entryHash = h
  | none, none => True
  | _, _ => False

/-- No append falls between the two reads the anchor is taken from, where the
rows are a chain and an anchor is stored: the rows and then the head of a
full verification; the head and then the rows of a walk from an anchor. -/
def Undisturbed (db : LedgerDb) (gaps : Gaps) : Prop :=
  Chain (rowShape sha256) genesisPrev (readRows sha256 db gaps).rows →
    match path sha256 db gaps with
    | .full n => gaps (n + 1) = []
    | .same _ _ => True
    | .walk _ _ => gaps 1 = [] ∧ gaps 2 = [] ∧ gaps 3 = [] ∧ gaps 4 = []

theorem Anchored.namesRow {db : LedgerDb} (h : Anchored sha256 db) : NamesRow db := by
  have ha := h.anchor
  unfold NamesRow
  split
  · rename_i s k hs hk
    simp only [hs, hk] at ha
    exact mem_of_anchorValid sha256 ha
  · trivial
  · rename_i h1 h2
    split at ha
    · rename_i s k hs hk
      exact h1 s k hs hk
    · rename_i hs hk
      exact h2 hs hk
    · exact ha

/-- Appends keep a valid anchor. -/
theorem Anchored.of_extends {db db' : LedgerDb} (h : Anchored sha256 db)
    (he : Extends db.ledger db'.ledger) (hs : db'.verifyLastSeq = db.verifyLastSeq)
    (hh : db'.verifyHeadHash = db.verifyHeadHash) : Anchored sha256 db' where
  nonempty hn := h.nonempty (List.prefix_nil.mp (hn ▸ he))
  anchor := by
    have ha := h.anchor
    rw [hs, hh]
    split
    · rename_i s k hs' hk'
      simp only [hs', hk'] at ha
      exact ha.of_extends sha256 he
    · trivial
    · rename_i h1 h2
      split at ha
      · rename_i s k hs' hk'
        exact h1 s k hs' hk'
      · rename_i hs' hk'
        exact h2 hs' hk'
      · exact ha

theorem anchored_dbAt {db : LedgerDb} (h : Anchored sha256 db) (gaps : Gaps) : ∀ n,
    Anchored sha256 (dbAt sha256 db gaps n)
  | 0 => h.of_extends sha256 (extends_grow sha256 db (gaps 0)) rfl rfl
  | n + 1 => (anchored_dbAt h gaps n).of_extends sha256
      (extends_grow sha256 _ (gaps (n + 1))) rfl rfl

/-- An anchor stored at the last row of a chain. -/
theorem anchored_storeAnchor {db : LedgerDb} {r : LedgerEventRow} (gaps : Gaps) (n : ℕ)
    (hc : Chain (rowShape sha256) genesisPrev db.ledger.rows) (hr : db.ledger.last = some r) :
    Anchored sha256 (storeAnchor sha256 gaps n db r.seq r.entryHash) := by
  have he : Extends db.ledger (storeAnchor sha256 gaps n db r.seq r.entryHash).ledger :=
    (extends_grow sha256 db (gaps n)).trans (extends_grow sha256 _ (gaps (n + 1)))
  have hne : db.ledger.rows ≠ [] := List.ne_nil_of_mem (List.mem_of_getLast? hr)
  exact ⟨fun hn => hne (List.prefix_nil.mp (hn ▸ he)),
    (anchorValid_last sha256 hc hr).of_extends sha256 he⟩

theorem grow_nil (db : LedgerDb) : grow sha256 db [] = db := rfl

theorem headHash_of_chain {t : LedgerTable} {r : LedgerEventRow}
    (hc : Chain (rowShape sha256) genesisPrev t.rows) (hr : t.last = some r) :
    (verifyLedgerChain sha256 t).headHash = some r.entryHash := by
  rw [verifyLedgerChain, walkChain_eq_of_chain sha256 hc]
  simp only [LedgerTable.last] at hr
  simp [hr]

/-- A full verification that no append disturbs stores the last row it read. -/
theorem anchored_fullOutcome {db : LedgerDb} (gaps : Gaps) (n : ℕ)
    (hdb : Anchored sha256 (grow sha256 db (gaps n)))
    (hgap : Chain (rowShape sha256) genesisPrev (grow sha256 db (gaps n)).ledger.rows →
      gaps (n + 1) = []) : Anchored sha256 (fullOutcome sha256 gaps n db).2 := by
  unfold fullOutcome
  simp only
  split_ifs with hok
  · have hc := (verifyLedgerChain_ok sha256 _).mp hok
    obtain ⟨r, hr⟩ := exists_last hdb.nonempty
    rw [hgap hc, grow_nil, maxLedgerSeq_of_last hr, headHash_of_chain sha256 hc hr]
    exact anchored_storeAnchor sha256 gaps (n + 2) hc hr
  · exact hdb

/-- What a walk that passes stores. -/
theorem outcome_of_walk {db : LedgerDb} {gaps : Gaps} {s : ℤ} {h : String}
    (hp : path sha256 db gaps = .walk s h)
    (hok : (walkChain sha256 h s (some h) (suffix (dbAt sha256 db gaps 4).ledger s)).ok = true) :
    (outcome sha256 db gaps).2 =
      storeAnchor sha256 gaps 5 (dbAt sha256 db gaps 4) (maxLedgerSeq (dbAt sha256 db gaps 0).ledger)
        ((walkChain sha256 h s (some h)
          (suffix (dbAt sha256 db gaps 4).ledger s)).headHash.getD h) := by
  simp only [outcome, hp]
  exact congrArg Prod.snd (if_pos hok)

/-- What a walk that does not pass leaves. -/
theorem outcome_of_bad_walk {db : LedgerDb} {gaps : Gaps} {s : ℤ} {h : String}
    (hp : path sha256 db gaps = .walk s h)
    (hok : ¬ (walkChain sha256 h s (some h) (suffix (dbAt sha256 db gaps 4).ledger s)).ok = true) :
    (outcome sha256 db gaps).2 = dbAt sha256 db gaps 4 := by
  simp only [outcome, hp]
  exact congrArg Prod.snd (if_neg hok)

/-- **A verification that no append disturbs leaves a valid anchor.** -/
theorem anchored_outcome {db : LedgerDb} (hdb : Anchored sha256 db) {gaps : Gaps}
    (hgap : Undisturbed sha256 db gaps) : Anchored sha256 (outcome sha256 db gaps).2 := by
  unfold Undisturbed readRows at hgap
  rcases path_cases sha256 db gaps with hp | hp | ⟨s, h, hs, hh, hle, ⟨hmax, hp⟩ | ⟨hmax, hp⟩⟩
  · simp only [hp] at hgap
    simp only [outcome, hp]
    exact anchored_fullOutcome sha256 gaps 3 (anchored_dbAt sha256 hdb gaps 3) hgap
  · simp only [hp] at hgap
    simp only [outcome, hp]
    exact anchored_fullOutcome sha256 gaps 4 (anchored_dbAt sha256 hdb gaps 4) hgap
  · simp only [outcome, hp]
    exact anchored_dbAt sha256 hdb gaps 3
  · simp only [hp] at hgap
    have ha := hdb.anchor
    simp only [hs, hh] at ha
    have hw := walk_eq_verify sha256 (ha.of_extends sha256 (extends_dbAt sha256 db gaps 4))
    by_cases hok : (walkChain sha256 h s (some h)
        (suffix (dbAt sha256 db gaps 4).ledger s)).ok = true
    · have hc : Chain (rowShape sha256) genesisPrev (dbAt sha256 db gaps 4).ledger.rows :=
        (verifyLedgerChain_ok sha256 _).mp (hw.1.symm.trans hok)
      obtain ⟨r, hr⟩ := exists_last (anchored_dbAt sha256 hdb gaps 4).nonempty
      obtain ⟨g1, g2, g3, g4⟩ := hgap hc
      have h04 : dbAt sha256 db gaps 0 = dbAt sha256 db gaps 4 := by
        simp only [dbAt, g1, g2, g3, g4, grow_nil]
      rw [outcome_of_walk sha256 hp hok, hw.2.2.trans (headHash_of_chain sha256 hc hr), h04,
        maxLedgerSeq_of_last hr]
      exact anchored_storeAnchor sha256 gaps 5 hc hr
    · rw [outcome_of_bad_walk sha256 hp hok]
      exact anchored_dbAt sha256 hdb gaps 4

/-! ### A torn anchor -/

theorem length_grow (db : LedgerDb) (as : List LedgerAppend) :
    (grow sha256 db as).ledger.rows.length = db.ledger.rows.length + as.length := by
  induction as generalizing db with
  | nil => rfl
  | cons a as ih =>
    obtain ⟨w, hw, hrows⟩ := insert_successor sha256 db.ledger a
    have h := ih { db with ledger := appended sha256 db.ledger a }
    simp only [appended, hw, Option.getD_some, hrows, List.length_append, List.length_singleton] at h
    simp only [grow, List.foldl_cons, appended, hw, Option.getD_some, List.length_cons] at h ⊢
    omega

/-- A row that another connection appended recomputes. -/
theorem good_of_mem_grow {db : LedgerDb} {as : List LedgerAppend} {x : LedgerEventRow}
    (hx : x ∈ (grow sha256 db as).ledger.rows) :
    x ∈ db.ledger.rows ∨ (rowShape sha256).good x = true := by
  induction as generalizing db with
  | nil => exact .inl hx
  | cons a as ih =>
    have hx' : x ∈ (grow sha256 { db with ledger := appended sha256 db.ledger a } as).ledger.rows :=
      hx
    rcases ih hx' with h | h
    · obtain ⟨w, hw, hrows⟩ := insert_successor sha256 db.ledger a
      simp only [appended, hw, Option.getD_some, hrows, List.mem_append, List.mem_singleton] at h
      refine h.imp_right fun he => ?_
      rw [he]
      exact recomputes_successor sha256 _ a
    · exact .inr h

/-- A ledger that ends as a longer one does is the longer one. -/
theorem rows_eq_of_last {t t' : LedgerTable} (he : Extends t t') {r : LedgerEventRow}
    (hr : t.last = some r) (hr' : t'.last = some r) : t'.rows = t.rows := by
  obtain ⟨more, hmore⟩ := he
  rcases List.eq_nil_or_concat' more with rfl | ⟨more, x, rfl⟩
  · rw [← hmore, List.append_nil]
  · have hp := t'.byKey
    have hx : x = r := by
      simp only [LedgerTable.last, ← hmore, ← List.append_assoc, List.getLast?_concat,
        Option.some.injEq] at hr'
      exact hr'
    rw [← hmore] at hp
    have := (List.pairwise_append.mp hp).2.2 r (List.mem_of_getLast? hr) x (by simp)
    rw [hx] at this
    exact absurd this (lt_irrefl _)

/-- The key of one row and the hash of another name no row, if no two rows
that recompute share a hash. -/
theorem eq_of_namesRow (hsha : Function.Injective sha256) {t : LedgerTable}
    {x y : LedgerEventRow} (hx : (rowShape sha256).good x = true)
    (hy : (rowShape sha256).good y = true) (hyt : y ∈ t.rows)
    (h : ∃ z ∈ t.rows, z.seq = y.seq ∧ z.entryHash = x.entryHash) : y = x := by
  obtain ⟨z, hz, hzs, hzh⟩ := h
  rw [LedgerTable.eq_of_seq hz hyt hzs] at hzh
  exact entry_inj sha256 hsha hy hx hzh

theorem mem_of_extends {t t' : LedgerTable} (h : Extends t t') {x : LedgerEventRow}
    (hx : x ∈ t.rows) : x ∈ t'.rows :=
  h.subset hx

theorem good_of_last {t : LedgerTable} (hc : Chain (rowShape sha256) genesisPrev t.rows)
    {r : LedgerEventRow} (hr : r ∈ t.rows) : (rowShape sha256).good r = true :=
  ((chain_iff _ _ _).mp hc).2 r hr

theorem extends_storeAnchor (gaps : Gaps) (n : ℕ) (db : LedgerDb) (s : ℤ) (h : String) :
    Extends db.ledger (storeAnchor sha256 gaps n db s h).ledger :=
  (extends_grow sha256 db (gaps n)).trans (extends_grow sha256 _ (gaps (n + 1)))

theorem gap_of_fullOutcome (hsha : Function.Injective sha256) {db : LedgerDb} {gaps : Gaps} {n : ℕ}
    (hdb : Anchored sha256 (grow sha256 db (gaps n)))
    (hc : Chain (rowShape sha256) genesisPrev (grow sha256 db (gaps n)).ledger.rows)
    (hn : NamesRow (fullOutcome sha256 gaps n db).2) : gaps (n + 1) = [] := by
  have he := extends_grow sha256 (grow sha256 db (gaps n)) (gaps (n + 1))
  obtain ⟨r, hr⟩ := exists_last hdb.nonempty
  obtain ⟨r', hr'⟩ := exists_last
    (hdb.of_extends sha256 he rfl rfl : Anchored sha256 (grow sha256 _ (gaps (n + 1)))).nonempty
  simp only [fullOutcome, if_pos ((verifyLedgerChain_ok sha256 _).mpr hc),
    headHash_of_chain sha256 hc hr, maxLedgerSeq_of_last hr', Option.getD_some] at hn
  have hmem := List.mem_of_getLast? hr'
  have hgood := (good_of_mem_grow sha256 hmem).elim (good_of_last sha256 hc) id
  have hsame : r' = r := eq_of_namesRow sha256 hsha
    (good_of_last sha256 hc (List.mem_of_getLast? hr)) hgood
    (mem_of_extends (extends_storeAnchor sha256 gaps (n + 2) _ r'.seq r.entryHash) hmem) hn
  -- the ledger ends as before, so nothing was appended
  have hlen := congrArg List.length (rows_eq_of_last he hr (hsame ▸ hr'))
  rw [length_grow] at hlen
  exact List.length_eq_zero_iff.mp (by omega)

theorem length_dbAt (db : LedgerDb) (gaps : Gaps) (n : ℕ) :
    (dbAt sha256 db gaps (n + 1)).ledger.rows.length =
      (dbAt sha256 db gaps n).ledger.rows.length + (gaps (n + 1)).length :=
  length_grow sha256 _ _

/-- **A verification whose anchor names a row was not disturbed**, if no two
rows that recompute share a hash. -/
theorem undisturbed_of_namesRow (hsha : Function.Injective sha256) {db : LedgerDb}
    (hdb : Anchored sha256 db) {gaps : Gaps} (hn : NamesRow (outcome sha256 db gaps).2) :
    Undisturbed sha256 db gaps := by
  intro hc
  unfold readRows at hc
  rcases path_cases sha256 db gaps with hp | hp | ⟨s, h, hs, hh, hle, ⟨hmax, hp⟩ | ⟨hmax, hp⟩⟩
  · simp only [outcome, hp] at hn hc ⊢
    exact gap_of_fullOutcome sha256 hsha (anchored_dbAt sha256 hdb gaps 3) hc hn
  · simp only [outcome, hp] at hn hc ⊢
    exact gap_of_fullOutcome sha256 hsha (anchored_dbAt sha256 hdb gaps 4) hc hn
  · simp only [hp]
  · simp only [hp] at hc ⊢
    have ha := hdb.anchor
    simp only [hs, hh] at ha
    have hw := walk_eq_verify sha256 (ha.of_extends sha256 (extends_dbAt sha256 db gaps 4))
    obtain ⟨y, hy⟩ := exists_last (anchored_dbAt sha256 hdb gaps 0).nonempty
    obtain ⟨r, hr⟩ := exists_last (anchored_dbAt sha256 hdb gaps 4).nonempty
    have hok := hw.1.trans ((verifyLedgerChain_ok sha256 _).mpr hc)
    have hhead := hw.2.2.trans (headHash_of_chain sha256 hc hr)
    have h04 : Extends (dbAt sha256 db gaps 0).ledger (dbAt sha256 db gaps 4).ledger :=
      (((extends_grow sha256 _ (gaps 1)).trans (extends_grow sha256 _ (gaps 2))).trans
        (extends_grow sha256 _ (gaps 3))).trans (extends_grow sha256 _ (gaps 4))
    have hmem := mem_of_extends h04 (List.mem_of_getLast? hy)
    rw [outcome_of_walk sha256 hp hok, maxLedgerSeq_of_last hy, hhead] at hn
    have hsame : y = r := eq_of_namesRow sha256 hsha
      (good_of_last sha256 hc (List.mem_of_getLast? hr)) (good_of_last sha256 hc hmem)
      (mem_of_extends (extends_storeAnchor sha256 gaps 5 _ y.seq r.entryHash) hmem) hn
    have hlen := congrArg List.length (rows_eq_of_last h04 hy (hsame ▸ hr))
    have l1 : _ = _ + (gaps 1).length := length_dbAt sha256 db gaps 0
    have l2 : _ = _ + (gaps 2).length := length_dbAt sha256 db gaps 1
    have l3 : _ = _ + (gaps 3).length := length_dbAt sha256 db gaps 2
    have l4 : _ = _ + (gaps 4).length := length_dbAt sha256 db gaps 3
    simp only [zero_add, Nat.reduceAdd] at l1 l2 l3 l4
    refine ⟨?_, ?_, ?_, ?_⟩ <;> exact List.length_eq_zero_iff.mp (by omega)

/-! ### Histories -/

/-- What happens to the ledger: an append, an alteration of rows that were
not anchored yet, a verification with the appends between its statements. -/
inductive HistoryEvent where
  | append (a : LedgerAppend)
  | alter (t : LedgerTable)
  | full
  | incremental (gaps : Gaps)

/-- An alteration that leaves a row, and the anchored prefix as it was. -/
def KeepsAnchored (db : LedgerDb) (t : LedgerTable) : Prop :=
  t.rows ≠ [] ∧ ∀ s, db.verifyLastSeq = some s → upTo t s = upTo db.ledger s

/-- The outcome of an incremental verification, and the database after it. -/
def verifyIn (db : LedgerDb) (gaps : Gaps) : Except Error ChainVerdict × LedgerDb :=
  let out := (verifyLedgerChainIncremental sha256).run (between sha256 gaps) 0 (verifier db 0)
  (out.1, out.2.1.committed)

/-- The database after an event. -/
def HistoryEvent.after (db : LedgerDb) : HistoryEvent → LedgerDb
  | .append a => grow sha256 db [a]
  | .alter t => { db with ledger := t }
  | .full => db
  | .incremental gaps => (verifyIn sha256 db gaps).2

/-- The alterations of a history keep what is anchored when they are made. -/
def Lawful : LedgerDb → List HistoryEvent → Prop
  | _, [] => True
  | db, e :: es => (∀ t, e = .alter t → KeepsAnchored db t) ∧ Lawful (e.after sha256 db) es

/-- The verification returns what a full one of the rows it read returns, and
the anchor after it names a row. -/
def VerifyMeets (db : LedgerDb) (gaps : Gaps) : Prop :=
  (∃ v, (verifyIn sha256 db gaps).1 = .ok v ∧
    SameVerdict v (verifyLedgerChain sha256 (readRows sha256 db gaps))) ∧
  NamesRow (verifyIn sha256 db gaps).2

/-- Every incremental verification of a history meets its contract. -/
def VerificationsMeet : LedgerDb → List HistoryEvent → Prop
  | _, [] => True
  | db, e :: es => (∀ gaps, e = .incremental gaps → VerifyMeets sha256 db gaps) ∧
      VerificationsMeet (e.after sha256 db) es

/-- No incremental verification of a history is disturbed. -/
def NeverDisturbed : LedgerDb → List HistoryEvent → Prop
  | _, [] => True
  | db, e :: es => (∀ gaps, e = .incremental gaps → Undisturbed sha256 db gaps) ∧
      NeverDisturbed (e.after sha256 db) es

theorem verifyIn_eq (db : LedgerDb) (gaps : Gaps) :
    verifyIn sha256 db gaps = (.ok (outcome sha256 db gaps).1, (outcome sha256 db gaps).2) := by
  obtain ⟨v, m, h⟩ := run_incremental sha256 db gaps 0
  rw [verifyIn, h]
  rfl

theorem anchored_alter {db : LedgerDb} (hdb : Anchored sha256 db) {t : LedgerTable}
    (ht : KeepsAnchored db t) : Anchored sha256 { db with ledger := t } where
  nonempty := ht.1
  anchor := by
    have ha := hdb.anchor
    simp only
    split
    · rename_i s k hs hk
      simp only [hs, hk] at ha
      have hu := ht.2 s hs
      exact ⟨hu ▸ ha.chain, hu ▸ ha.last⟩
    · trivial
    · rename_i h1 h2
      split at ha
      · rename_i s k hs hk
        exact h1 s k hs hk
      · rename_i hs hk
        exact h2 hs hk
      · exact ha

theorem anchored_after {db : LedgerDb} (hdb : Anchored sha256 db) (e : HistoryEvent)
    (hl : ∀ t, e = .alter t → KeepsAnchored db t)
    (hu : ∀ gaps, e = .incremental gaps → Undisturbed sha256 db gaps) :
    Anchored sha256 (e.after sha256 db) := by
  cases e with
  | append a => exact hdb.of_extends sha256 (extends_grow sha256 db [a]) rfl rfl
  | alter t => exact anchored_alter sha256 hdb (hl t rfl)
  | full => exact hdb
  | incremental gaps =>
    simp only [HistoryEvent.after, verifyIn_eq]
    exact anchored_outcome sha256 hdb (hu gaps rfl)

theorem verificationsMeet_of_anchored (events : List HistoryEvent) : ∀ {db : LedgerDb},
    Anchored sha256 db → Lawful sha256 db events → NeverDisturbed sha256 db events →
      VerificationsMeet sha256 db events := by
  induction events with
  | nil => exact fun _ _ _ => trivial
  | cons e es ih =>
    intro db hdb hl hu
    have hafter := anchored_after sha256 hdb e hl.1 hu.1
    refine ⟨fun gaps he => ?_, ih hafter hl.2 hu.2⟩
    subst he
    unfold VerifyMeets
    rw [verifyIn_eq]
    exact ⟨⟨_, rfl, outcome_sameVerdict sha256 hdb gaps⟩,
      (anchored_outcome sha256 hdb (hu.1 gaps rfl)).namesRow⟩

theorem neverDisturbed_of_verificationsMeet (hsha : Function.Injective sha256)
    (events : List HistoryEvent) : ∀ {db : LedgerDb}, Anchored sha256 db →
      Lawful sha256 db events → VerificationsMeet sha256 db events →
        NeverDisturbed sha256 db events := by
  induction events with
  | nil => exact fun _ _ _ => trivial
  | cons e es ih =>
    intro db hdb hl hm
    have hu : ∀ gaps, e = .incremental gaps → Undisturbed sha256 db gaps := fun gaps he => by
      have hn := (hm.1 gaps he).2
      rw [verifyIn_eq] at hn
      exact undisturbed_of_namesRow sha256 hsha hdb hn
    exact ⟨hu, ih (anchored_after sha256 hdb e hl.1 hu) hl.2 hm.2⟩

/-- **In a history whose incremental verifications are not disturbed, each
returns what a full verification of the rows it read returns, and the stored
anchor names a row.** Where no two events share a hash, the histories in
which they do are exactly these. -/
theorem verificationsMeet_of_neverDisturbed (t : LedgerTable) (ht : t.rows ≠ [])
    (events : List HistoryEvent) (hl : Lawful sha256 ⟨t, none, none⟩ events) :
    (NeverDisturbed sha256 ⟨t, none, none⟩ events →
      VerificationsMeet sha256 ⟨t, none, none⟩ events) ∧
    (Function.Injective sha256 → VerificationsMeet sha256 ⟨t, none, none⟩ events →
      NeverDisturbed sha256 ⟨t, none, none⟩ events) := by
  have hdb : Anchored sha256 ⟨t, none, none⟩ := ⟨ht, trivial⟩
  exact ⟨verificationsMeet_of_anchored sha256 events hdb hl,
    fun hsha => neverDisturbed_of_verificationsMeet sha256 hsha events hdb hl⟩

/-- A history with no append between the statements of its verifications. -/
theorem neverDisturbed_of_quiet : ∀ {events : List HistoryEvent} {db : LedgerDb},
    (∀ gaps, .incremental gaps ∈ events → ∀ n, gaps n = []) → NeverDisturbed sha256 db events
  | [], _, _ => trivial
  | e :: es, db, h => by
    refine ⟨fun gaps he _ => ?_, neverDisturbed_of_quiet fun gaps hg => h gaps (.tail e hg)⟩
    have hg := h gaps (he ▸ List.mem_cons_self)
    split
    · exact hg _
    · trivial
    · exact ⟨hg 1, hg 2, hg 3, hg 4⟩

/-- A verification that leaves a torn anchor does not meet its contract. -/
theorem not_verificationsMeet_of_torn {db : LedgerDb} {gaps : Gaps} {s : ℤ} {h : String}
    (hs : (verifyIn sha256 db gaps).2.verifyLastSeq = some s)
    (hh : (verifyIn sha256 db gaps).2.verifyHeadHash = some h)
    (hrows : ∀ r ∈ (verifyIn sha256 db gaps).2.ledger.rows, r.seq = s → r.entryHash ≠ h) :
    ¬ VerificationsMeet sha256 db [.incremental gaps] := by
  intro hm
  have hn := (hm.1 gaps rfl).2
  unfold NamesRow at hn
  rw [hs, hh] at hn
  obtain ⟨r, hr, hrs, hrh⟩ := hn
  exact hrows r hr hrs hrh

/-- The first of the two events. -/
def firstEvent : LedgerTable :=
  ⟨[plainRow 1 10 "prompt" genesisPrev
    "2e399490fb34b85cabda38b877296dc387c75ea543277ef6352503993bab1bcf"], by decide⟩

/-- The append of the second. -/
def secondAppend : LedgerAppend := ⟨"resolution", "user", 20, none, none, none, none, none, "p"⟩

/-- A verification, the second event, and a verification of it. -/
theorem verificationsMeet_of_neverDisturbed_twoEvents :
    VerificationsMeet twoDigest ⟨firstEvent, none, none⟩
      [.incremental fun _ => [], .append secondAppend, .incremental fun _ => []] := by
  have hl : Lawful twoDigest ⟨firstEvent, none, none⟩
      [.incremental fun _ => [], .append secondAppend, .incremental fun _ => []] :=
    ⟨nofun, nofun, nofun, trivial⟩
  exact (verificationsMeet_of_neverDisturbed twoDigest firstEvent (by decide) _ hl).1
    (neverDisturbed_of_quiet twoDigest (by simp))

/-- The second event is appended between the rows' read of a full
verification and its read of the head: the anchor gets the second event's
`seq` and the first one's hash. -/
theorem tornAnchor :
    let gaps : Gaps := fun n => if n = 4 then [secondAppend] else []
    Lawful twoDigest ⟨firstEvent, none, none⟩ [.incremental gaps] ∧
      (verifyIn twoDigest ⟨firstEvent, none, none⟩ gaps).2.verifyLastSeq = some 2 ∧
      (verifyIn twoDigest ⟨firstEvent, none, none⟩ gaps).2.verifyHeadHash =
        firstEvent.rows.head?.map LedgerEventRow.entryHash ∧
      ¬ VerificationsMeet twoDigest ⟨firstEvent, none, none⟩ [.incremental gaps] := by
  intro gaps
  have hseq : (verifyIn twoDigest ⟨firstEvent, none, none⟩ gaps).2.verifyLastSeq = some 2 := by
    decide +kernel
  have hhash : (verifyIn twoDigest ⟨firstEvent, none, none⟩ gaps).2.verifyHeadHash =
      firstEvent.rows.head?.map LedgerEventRow.entryHash := by
    decide +kernel
  have hrows : (verifyIn twoDigest ⟨firstEvent, none, none⟩ gaps).2.ledger = twoEvents := by
    decide +kernel
  refine ⟨⟨nofun, trivial⟩, hseq, hhash, not_verificationsMeet_of_torn twoDigest hseq hhash ?_⟩
  rw [hrows]
  decide

end PolisMemory
