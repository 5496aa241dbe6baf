/-
# The windows of the organize runs

`organize_once_with` and `organize_window` of `crates/polis-memory/src/organize.rs`,
by what they do to the windows: a run reads the floor, the head and at most
`MAX_DELTA_ITEMS` items behind the floor, and its row holds the window that it
will have consumed when it is done. A run that fails, is in backoff or is
reverted by the canary gives its window back (`mark_run_canary_reverted`), and one
that is abandoned is never done.

The floor is the greatest end of a window that is done, so an item at or below it
was read by a run that is done and has its window still, and by one alone
(`consumed_once`). What carries this through a history is that the windows that
are kept follow each other from the seq 0 (`Organizer.Follows`). Other writers come
between any two reads, and the canary judges a run before the next one begins.

Key definitions: `Store.lastRunSeqTo`, `Organizer`, `Organizer.begin`, `Organizer.Reach`.
Key theorems: `Organizer.Follows.begins`, `Organizer.Reach.follows`, `consumed_once`,
`backlog_turns`, `sameWindows_exec`.
-/
import PolisMemory.InFlight
import PolisMemory.Pages
import PolisMemory.Spans

namespace PolisMemory

open Tables Spans Store

/-- `MAX_DELTA_ITEMS` -/
def maxDeltaItems : ℕ := 400

/-- A run's window, with the run and its status. -/
structure Window where
  run : ℤ
  status : RunStatus
  lo : ℤ
  hi : ℤ
  deriving DecidableEq, Repr

/-- The window of a run that has one. -/
def RunRow.window (r : RunRow) : Option Window :=
  r.seqTo.map fun hi => ⟨r.id, r.status, r.seqFrom.getD 0, hi⟩

namespace Store

/-- `last_run_seq_to` -/
def lastRunSeqTo (s : Store) : ℤ :=
  ((s.runs.select fun r => r.status = .done).filterMap RunRow.seqTo).max?.getD 0

/-- `mark_run_canary_reverted`, but for the recall. -/
def markRunCanaryReverted (s : Store) (run : ℤ) : Store :=
  { s with runs := s.runs.update (fun r => r.id = run) fun r =>
      { r with
        outcome := some .revertedByCanary
        seqFrom := none
        seqTo := none } }

/-- What an organize run does first: the runs that were abandoned are no longer live. -/
def interruptRuns (s : Store) (now : ℤ) : Store :=
  { s with
    runs := s.runs.update
      (fun r => r.status = .running ∧ r.mode = .organize ∧ r.startedAt < now) fun r =>
        { r with
          status := .error
          outcome := some .interrupted
          error := some "worker interrupted before completion" } }

/-- What it does last, if it could not finish its run. -/
def failRuns (s : Store) (error : String) : Store :=
  { s with
    runs := s.runs.update (fun r => r.status = .running ∧ r.mode = .organize) fun r =>
      { r with
        status := .error
        outcome := some .error
        error := some error } }

/-- The window of a run. -/
def windowOf? (s : Store) (run : ℤ) : Option Window := (s.runs.get? run).bind RunRow.window

/-- The same windows, of the same runs. -/
def SameWindows (s s' : Store) : Prop := ∀ run, s'.windowOf? run = s.windowOf? run

end Store

namespace Lake

/-- `list_lake_items_since` -/
def lakeItemsSince (lake : Lake) (since : ℤ) (limit : ℕ) : List LakeItem :=
  lake.listLakeItemsSince since limit everything

/-- Every item. -/
abbrev everyItem (lake : Lake) : List LakeItem := lake.items everything

/-- With other runs. -/
def setRuns (lake : Lake) (runs : AutoTable RunRow.id) : Lake :=
  { lake with
    base := { lake.base with runs := runs }
    fromOne := lake.fromOne }

/-- The ledger grows, and an event is an item or not for good. -/
structure Grown (lake lake' : Lake) : Prop where
  grows : ∃ new, lake'.base.ledger.rows = lake.base.ledger.rows ++ new
  items : ∀ e ∈ lake.base.ledger.rows, lake'.isItem everything e = lake.isItem everything e

/-- What another writer leaves of the lake: it grows, and no window is touched. -/
structure Beside (lake lake' : Lake) : Prop extends Grown lake lake' where
  windows : lake.base.SameWindows lake'.base

end Lake

/-! ### The organizer -/

/-- The lake, the seqs that each run read, the run that is in flight, and the run that
the canary has still to judge. -/
structure Organizer where
  lake : Lake
  read : ℤ → List ℤ
  inFlight : Option ℤ
  judged : Option ℤ

namespace Organizer

/-- Before the first run. -/
def start (lake : Lake) : Organizer := ⟨lake, fun _ => [], none, none⟩

/-- Where the window ends that the delta consumes. -/
def seqTo (head : ℤ) (delta : List LakeItem) : ℤ :=
  if maxDeltaItems ≤ delta.length then (delta.getLast?.map LakeItem.seq).getD head else head

/-- A run begins: the floor and the head are read in one lake, the delta and all that
comes after it in a later one. -/
def begin (x : Organizer) (later : Lake) (now : ℤ) : Organizer :=
  let floor := x.lake.base.lastRunSeqTo
  let delta := later.lakeItemsSince floor maxDeltaItems
  let hi := seqTo (maxLedgerSeq x.lake.base.ledger) delta
  let inserted := later.base.insertClassRunWith now .organize (some floor) (some hi)
  { lake := later.setRuns inserted.1.runs
    read := Function.update x.read inserted.2 (delta.map LakeItem.seq)
    inFlight := some inserted.2
    judged := none }

/-- The run's row is finished, and the run is no longer in flight; the canary judges
one that has run. -/
def finish (x : Organizer) (run : ℤ) (f : Store.ClassRunFinish) (ran : Bool) : Organizer :=
  { x with
    lake := x.lake.setRuns (x.lake.base.finishClassRunWith run f).runs
    inFlight := none
    judged := if ran then some run else none }

/-- A run in backoff gives its window back; its row is finished, and then again with
the outcome that it has. -/
def backOff (x : Organizer) (run : ℤ) (f f' : Store.ClassRunFinish) : Organizer :=
  let s := (x.lake.base.markRunCanaryReverted run).finishClassRunWith run f
  { x with
    lake := x.lake.setRuns (s.finishClassRunWith run f').runs
    inFlight := none }

/-- A run that failed is finished as one, and must not consume its window. -/
def giveUp (x : Organizer) (run : ℤ) (f : Store.ClassRunFinish) : Organizer :=
  let s := (x.lake.base.finishClassRunWith run f).markRunCanaryReverted run
  { x with
    lake := x.lake.setRuns (s.finishClassRunWith run f).runs
    inFlight := none }

/-- The histories of the organizer, other writers coming between. -/
inductive Reach : Organizer → Prop
  /-- No run is done. -/
  | start {lake : Lake} (hnone : ∀ r ∈ lake.base.runs.rows, r.status ≠ .done) : Reach (start lake)
  | others {x : Organizer} {lake : Lake} (hx : Reach x) (hlake : x.lake.Beside lake) :
      Reach { x with lake := lake }
  /-- The runs that were abandoned are marked. -/
  | interrupts {x : Organizer} (now : ℤ) (hx : Reach x) (hidle : x.inFlight = none) :
      Reach { x with lake := x.lake.setRuns (x.lake.base.interruptRuns now).runs }
  | begins {x : Organizer} {later : Lake} (now : ℤ) (hx : Reach x) (hidle : x.inFlight = none)
      (hlater : x.lake.Beside later) : Reach (x.begin later now)
  /-- The window is consumed, by a run that organized or by the last attempt to. -/
  | finishes {x : Organizer} {run : ℤ} (f : Store.ClassRunFinish) (ran : Bool) (hx : Reach x)
      (hrun : x.inFlight = some run) (hdone : f.status = .done) : Reach (x.finish run f ran)
  /-- The classifier is in backoff. -/
  | backsOff {x : Organizer} {run : ℤ} (f f' : Store.ClassRunFinish) (hx : Reach x)
      (hrun : x.inFlight = some run) : Reach (x.backOff run f f')
  /-- The classifier failed. -/
  | givesUp {x : Organizer} {run : ℤ} (f : Store.ClassRunFinish) (hx : Reach x)
      (hrun : x.inFlight = some run) (herror : f.status = .error) : Reach (x.giveUp run f)
  /-- The deadline is over, or a statement failed. -/
  | fails {x : Organizer} {run : ℤ} (error : String) (hx : Reach x) (hrun : x.inFlight = some run) :
      Reach { x with
        lake := x.lake.setRuns (x.lake.base.failRuns error).runs
        inFlight := none }
  /-- The process is gone. -/
  | crashes {x : Organizer} (hx : Reach x) : Reach { x with inFlight := none }
  /-- The canary has reverted the run. -/
  | canary {x : Organizer} {run : ℤ} (hx : Reach x) (hidle : x.inFlight = none)
      (hrun : x.judged = some run) :
      Reach { x with
        lake := x.lake.setRuns (x.lake.base.markRunCanaryReverted run).runs
        judged := none }

/-! ### What is kept of the windows -/

/-- A window that is consumed. -/
def Kept (x : Organizer) (w : Window) : Prop :=
  x.lake.base.windowOf? w.run = some w ∧ w.status = .done

/-- Every item of the window was read by its run. -/
def Covers (x : Organizer) (w : Window) : Prop :=
  ∀ it ∈ x.lake.everyItem, Inside Window.lo Window.hi it.seq w → it.seq ∈ x.read w.run

/-- The windows that are kept, the newest first, follow each other from the seq 0; each
was read, the one in flight follows them, and the one to be judged is the newest. -/
structure Follows (x : Organizer) (ws : List Window) : Prop where
  chained : Chained Window.lo Window.hi 0 ws
  nodup : ws.Nodup
  kept : ∀ w, w ∈ ws ↔ x.Kept w
  head : top Window.hi 0 ws ≤ maxLedgerSeq x.lake.base.ledger
  covered : ∀ w ∈ ws, x.Covers w
  next : ∀ run, x.inFlight = some run → ∃ w, x.lake.base.windowOf? run = some w ∧
    w.status = .running ∧ w.lo = top Window.hi 0 ws ∧ w.lo ≤ w.hi ∧
    w.hi ≤ maxLedgerSeq x.lake.base.ledger ∧ x.Covers w
  newest : ∀ run, x.judged = some run → ∃ w ws', ws = w :: ws' ∧ w.run = run

end Organizer

/-! ### Windows, statement by statement -/

namespace Store

variable {s s' : Store} {run : ℤ} {w : Window}

theorem run_of_windowOf (h : s.windowOf? run = some w) : w.run = run := by
  obtain ⟨r, hr, hw⟩ := Option.bind_eq_some_iff.mp h
  obtain ⟨hi, -, rfl⟩ := Option.map_eq_some_iff.mp hw
  show r.id = run
  exact Table.key_of_get? hr

/-- A row that is set leaves the windows of the others. -/
theorem windowOf?_of_ne {run' : ℤ} (h : run' ≠ run) {f : RunRow → RunRow}
    {hid : ∀ r, (f r).id = r.id} :
    ({ s with runs := s.runs.update (fun r => r.id = run) f hid } : Store).windowOf? run' =
      s.windowOf? run' := by
  unfold windowOf?
  simp only [AutoTable.toTable_update, Table.get?_update]
  cases hr : s.runs.get? run' with
  | none => rfl
  | some r =>
    have hid : r.id ≠ run := (Table.key_of_get? hr).trans_ne h
    simp [hid]

theorem windowOf?_finish_of_ne {run' : ℤ} (h : run' ≠ run) (f : ClassRunFinish) :
    (s.finishClassRunWith run f).windowOf? run' = s.windowOf? run' := windowOf?_of_ne h

theorem windowOf?_mark_of_ne {run' : ℤ} (h : run' ≠ run) :
    (s.markRunCanaryReverted run).windowOf? run' = s.windowOf? run' := windowOf?_of_ne h

/-- A row that is finished keeps its window. -/
theorem windowOf?_finish (s : Store) (run : ℤ) (f : ClassRunFinish) :
    (s.finishClassRunWith run f).windowOf? run =
      (s.windowOf? run).map fun w => { w with status := f.status } := by
  unfold windowOf? finishClassRunWith
  simp only [AutoTable.toTable_update, Table.get?_update]
  cases hr : s.runs.get? run with
  | none => rfl
  | some r =>
    have hid : r.id = run := Table.key_of_get? hr
    cases hto : r.seqTo <;> simp [RunRow.window, hid, hto]

/-- A window that is given back is gone. -/
theorem windowOf?_mark (s : Store) (run : ℤ) : (s.markRunCanaryReverted run).windowOf? run = none := by
  unfold windowOf? markRunCanaryReverted
  simp only [AutoTable.toTable_update, Table.get?_update]
  cases hr : s.runs.get? run with
  | none => rfl
  | some r =>
    have hid : r.id = run := Table.key_of_get? hr
    simp [RunRow.window, hid]

theorem windowOf?_insert (s : Store) (now : ℤ) (mode : RunMode) (lo hi run : ℤ) :
    (s.insertClassRunWith now mode (some lo) (some hi)).1.windowOf? run =
      if run = s.runs.nextId then some ⟨run, .running, lo, hi⟩ else s.windowOf? run := by
  unfold windowOf? insertClassRunWith
  simp only [AutoTable.get?_insert]
  by_cases hr : run = s.runs.nextId
  · subst hr
    simp [RunRow.window]
  · simp [hr]

end Store

/-! ### The catalog's writers -/

/-- A step of another run: it begins without a window, or finishes a run that has none. -/
def HistoryStep.Windowless (s : Store) : HistoryStep → Prop
  | .start _ _ _ seqTo => seqTo = none
  | .finish run _ => s.windowOf? run = none
  | _ => True

theorem Store.SameWindows.trans {s s' s'' : Store} (h : s.SameWindows s') (h' : s'.SameWindows s'') :
    s.SameWindows s'' := fun run => (h' run).trans (h run)

theorem sameWindows_of_runs {s s' : Store} (h : s'.runs = s.runs) : s.SameWindows s' := fun run => by
  rw [Store.windowOf?, h, Store.windowOf?]

theorem sameWindows_start (s : Store) (now : ℤ) (mode : RunMode) (seqFrom : Option ℤ) :
    s.SameWindows (s.insertClassRunWith now mode seqFrom none).1 := by
  intro run
  unfold Store.windowOf? Store.insertClassRunWith
  simp only [AutoTable.get?_insert]
  by_cases hr : run = s.runs.nextId
  · rw [if_pos hr, hr, s.runs.get?_nextId]
    rfl
  · rw [if_neg hr]

/-- Rows that are set and keep their windows. -/
theorem sameWindows_update {s : Store} {p : RunRow → Bool} {f : RunRow → RunRow}
    {hid : ∀ r, (f r).id = r.id}
    (h : ∀ run r, s.runs.get? run = some r → p r = true → (f r).window = r.window) :
    s.SameWindows { s with runs := s.runs.update p f hid } := by
  intro run
  unfold Store.windowOf?
  simp only [AutoTable.toTable_update, Table.get?_update]
  cases hr : s.runs.get? run with
  | none => rfl
  | some r =>
    by_cases hp : p r = true
    · rw [Option.map_some, if_pos hp]
      exact h run r hr hp
    · rw [Option.map_some, if_neg hp]

theorem seqTo_eq_none {s : Store} {run : ℤ} {r : RunRow} (h : s.windowOf? run = none)
    (hr : s.runs.get? run = some r) : r.seqTo = none := by
  rw [Store.windowOf?, hr, Option.bind_some] at h
  exact Option.map_eq_none_iff.mp h

theorem window_of_none {r r' : RunRow} (h : r.seqTo = none) (hsame : r'.seqTo = r.seqTo) :
    r'.window = r.window := by
  rw [RunRow.window, RunRow.window, hsame, h]
  rfl

theorem sameWindows_finish {s : Store} {run : ℤ} (h : s.windowOf? run = none) (f : Store.ClassRunFinish) :
    s.SameWindows (s.finishClassRunWith run f) := by
  refine sameWindows_update fun run' r hr hp => ?_
  have hid : r.id = run := of_decide_eq_true hp
  exact window_of_none (seqTo_eq_none h (hid ▸ (Table.key_of_get? hr).symm ▸ hr)) rfl

/-- A revert marks the run as reverted, and finishes its own run, which has no window. -/
theorem sameWindows_settle {s : Store} {byRun : ℤ} (h : s.windowOf? byRun = none) (run : ℤ) (ops : ℕ) :
    s.SameWindows (s.settleRevert run byRun ops) := by
  let marked : Store :=
    { s with runs := s.runs.update (fun r => r.id = run) fun r => { r with outcome := some .reverted } }
  have hmark : s.SameWindows marked := sameWindows_update fun _ _ _ _ => rfl
  have hnone : marked.windowOf? byRun = none := (hmark byRun).trans h
  refine hmark.trans (sameWindows_update (s := marked) fun run' r hr hp => ?_)
  have hid : r.id = byRun := of_decide_eq_true hp
  exact window_of_none (seqTo_eq_none hnone (hid ▸ (Table.key_of_get? hr).symm ▸ hr)) rfl

/-- **No other step of the catalog touches a window**: the writes of a run, its journal,
a revert, and the runs without a window. -/
theorem sameWindows_exec (h : Host) {s : Store} {st : HistoryStep} (hst : st.Windowless s) :
    s.SameWindows (st.exec h s) := by
  cases st with
  | start now mode seqFrom seqTo =>
    obtain rfl : seqTo = none := hst
    exact sameWindows_start s now mode seqFrom
  | write run w =>
    obtain ⟨new, hnew⟩ := w.exec_journaled h run s
    exact sameWindows_of_runs hnew.runs
  | journal run rec => exact sameWindows_of_runs (tryJournal_runs s run rec).1
  | finish run f => exact sameWindows_finish hst f
  | revert now run actor =>
    show s.SameWindows (reverted h s now run actor)
    unfold reverted
    split
    · rename_i s' receipt hok
      obtain ⟨-, t, hundo, rfl, -⟩ := revertRun_eq_ok.mp hok
      have hundone : s.SameWindows (t.append h (revertEvent h now run s.runs.nextId
          (s.appliedOps run).length actor)) :=
        (sameWindows_start s now .revert none).trans (sameWindows_of_runs (undoOps_books hundo).1)
      refine hundone.trans (sameWindows_settle ?_ run _)
      rw [hundone, Store.windowOf?, s.runs.get?_nextId]
      rfl
    · exact fun _ => rfl

/-! ### The items of a window -/

theorem le_maxLedgerSeq {t : LedgerTable} {e : LedgerEventRow} (he : e ∈ t.rows) :
    e.seq ≤ maxLedgerSeq t := by
  unfold maxLedgerSeq
  cases hlast : t.last with
  | none =>
    have hnil : t.rows = [] := List.getLast?_eq_none_iff.mp hlast
    rw [hnil] at he
    cases he
  | some r => exact LedgerTable.le_last hlast he

/-- The head is that of an event, or 0. -/
theorem maxLedgerSeq_cases (t : LedgerTable) :
    (∃ r ∈ t.rows, maxLedgerSeq t = r.seq) ∨ t.rows = [] ∧ maxLedgerSeq t = 0 := by
  unfold maxLedgerSeq
  cases hlast : t.last with
  | none => exact .inr ⟨List.getLast?_eq_none_iff.mp hlast, rfl⟩
  | some r => exact .inl ⟨r, List.mem_of_getLast? hlast, rfl⟩

namespace Lake

variable {lake lake' : Lake} {it : LakeItem}

theorem mem_everyItem : it ∈ lake.everyItem ↔
    ∃ e ∈ lake.base.ledger.rows, lake.isItem everything e = true ∧ lake.item e = it := by
  simp only [everyItem, items, List.mem_map, List.mem_filter, and_assoc]

theorem seq_le_head (hit : it ∈ lake.everyItem) : it.seq ≤ maxLedgerSeq lake.base.ledger := by
  obtain ⟨e, he, -, rfl⟩ := mem_everyItem.mp hit
  exact le_maxLedgerSeq he

/-- The seqs are at least 1, so the head does not fall. -/
theorem Grown.head_le (h : lake.Grown lake') :
    maxLedgerSeq lake.base.ledger ≤ maxLedgerSeq lake'.base.ledger := by
  obtain ⟨new, hnew⟩ := h.grows
  obtain ⟨r, hr, hmax⟩ | ⟨-, hmax⟩ := maxLedgerSeq_cases lake.base.ledger
  · rw [hmax]
    exact le_maxLedgerSeq (hnew ▸ List.mem_append_left new hr)
  · rw [hmax]
    obtain ⟨r, hr, hmax'⟩ | ⟨-, hmax'⟩ := maxLedgerSeq_cases lake'.base.ledger
    · have hone := lake'.fromOne r hr
      omega
    · omega

/-- At or below the old head there is nothing new. -/
theorem Grown.old_item (h : lake.Grown lake') (hit : it ∈ lake'.everyItem)
    (hle : it.seq ≤ maxLedgerSeq lake.base.ledger) :
    ∃ old ∈ lake.everyItem, old.seq = it.seq ∧ old.kind = it.kind ∧ old.refKind = it.refKind := by
  obtain ⟨e, he, hitem, rfl⟩ := mem_everyItem.mp hit
  obtain ⟨new, hnew⟩ := h.grows
  rw [seq_item] at hle ⊢
  rcases List.mem_append.mp (hnew ▸ he) with hold | hadded
  · exact ⟨lake.item e, mem_everyItem.mpr ⟨e, hold, (h.items e hold).symm.trans hitem, rfl⟩, rfl, rfl, rfl⟩
  · have hsorted := lake'.base.ledger.byKey
    rw [hnew] at hsorted
    have hone := lake'.fromOne e he
    obtain ⟨r, hr, hmax⟩ | ⟨-, hmax⟩ := maxLedgerSeq_cases lake.base.ledger
    · have hlt : r.seq < e.seq := (List.pairwise_append.mp hsorted).2.2 r hr e hadded
      omega
    · omega

theorem mem_left {after : ℤ} :
    it ∈ lake.left everything after ↔ it ∈ lake.everyItem ∧ after < it.seq := by
  simp only [left, List.mem_filter, decide_eq_true_eq]

theorem lakeItemsSince_eq (since : ℤ) (limit : ℕ) :
    lake.lakeItemsSince since limit = (lake.left everything since).take limit :=
  listLakeItemsSince_eq since limit

/-- What is not behind the last of a delta is in it. -/
theorem mem_delta_of_le {since : ℤ} {limit : ℕ} {last : LakeItem} (hit : it ∈ lake.everyItem)
    (hlo : since < it.seq) (hlast : (lake.lakeItemsSince since limit).getLast? = some last)
    (hle : it.seq ≤ last.seq) : it ∈ lake.lakeItemsSince since limit := by
  rw [lakeItemsSince_eq] at hlast ⊢
  have hleft : it ∈ lake.left everything since := mem_left.mpr ⟨hit, hlo⟩
  have hsorted := lake.left_sorted everything since
  rw [← List.take_append_drop limit (lake.left everything since)] at hleft hsorted
  refine (List.mem_append.mp hleft).resolve_right fun hdrop => ?_
  have hlt := (List.pairwise_append.mp hsorted).2.2 last (List.mem_of_getLast? hlast) it hdrop
  omega

end Lake

namespace Organizer

/-- **A delta covers its window**: it begins at the floor, ends at the head or before,
and every item in it was read. -/
theorem delta_spec {lake : Lake} {floor head : ℤ} (hfloor : floor ≤ head)
    (hhead : head ≤ maxLedgerSeq lake.base.ledger) :
    floor ≤ seqTo head (lake.lakeItemsSince floor maxDeltaItems) ∧
    seqTo head (lake.lakeItemsSince floor maxDeltaItems) ≤ maxLedgerSeq lake.base.ledger ∧
    ∀ it ∈ lake.everyItem, floor < it.seq →
      it.seq ≤ seqTo head (lake.lakeItemsSince floor maxDeltaItems) →
        it ∈ lake.lakeItemsSince floor maxDeltaItems := by
  unfold seqTo
  by_cases hcap : maxDeltaItems ≤ (lake.lakeItemsSince floor maxDeltaItems).length
  · have hne : lake.lakeItemsSince floor maxDeltaItems ≠ [] := by
      intro hnil
      rw [hnil] at hcap
      exact absurd hcap (by decide)
    obtain ⟨last, hlast⟩ := Option.ne_none_iff_exists'.mp (List.getLast?_eq_none_iff.not.mpr hne)
    have hmem : last ∈ lake.left everything floor := by
      have := List.mem_of_getLast? hlast
      rw [Lake.lakeItemsSince_eq] at this
      exact List.mem_of_mem_take this
    rw [if_pos hcap, hlast, Option.map_some, Option.getD_some]
    exact ⟨(Lake.mem_left.mp hmem).2.le, Lake.seq_le_head (Lake.mem_left.mp hmem).1,
      fun it hit hlo hle => Lake.mem_delta_of_le hit hlo hlast hle⟩
  · rw [if_neg hcap]
    refine ⟨hfloor, hhead, fun it hit hlo _ => ?_⟩
    rw [Lake.lakeItemsSince_eq] at hcap ⊢
    rw [List.length_take] at hcap
    rw [List.take_of_length_le (by omega)]
    exact Lake.mem_left.mpr ⟨hit, hlo⟩


/-! ### One step -/

variable {x : Organizer} {ws : List Window} {lake : Lake} {run : ℤ} {w : Window}

/-- The floor is the end of the newest window that is kept. -/
theorem Follows.floor_eq (h : x.Follows ws) : x.lake.base.lastRunSeqTo = top Window.hi 0 ws := by
  refine h.chained.max_eq fun hi => ?_
  simp only [List.mem_filterMap, List.mem_map, Table.select, List.mem_filter, decide_eq_true_eq]
  constructor
  · rintro ⟨r, ⟨hr, hdone⟩, hto⟩
    have hwin : r.window = some ⟨r.id, r.status, r.seqFrom.getD 0, hi⟩ := by
      rw [RunRow.window, hto, Option.map_some]
    refine ⟨⟨r.id, r.status, r.seqFrom.getD 0, hi⟩, (h.kept _).mpr ⟨?_, hdone⟩, rfl⟩
    show (x.lake.base.runs.get? r.id).bind RunRow.window = _
    rw [Table.mem_rows.mp hr, Option.bind_some, hwin]
  · rintro ⟨w, hw, rfl⟩
    obtain ⟨hrow, hdone⟩ := (h.kept w).mp hw
    obtain ⟨r, hr, hwin⟩ := Option.bind_eq_some_iff.mp hrow
    obtain ⟨hi, hto, rfl⟩ := Option.map_eq_some_iff.mp hwin
    exact ⟨r, ⟨(Table.get?_eq_some.mp hr).1, hdone⟩, hto⟩

/-- What was read stays read, whatever comes after. -/
theorem Covers.beside (h : x.Covers w) (hlake : x.lake.Beside lake)
    (hhi : w.hi ≤ maxLedgerSeq x.lake.base.ledger) : ({ x with lake := lake } : Organizer).Covers w := by
  intro it hit hinside
  obtain ⟨old, hold, hseq, -⟩ := hlake.old_item hit (hinside.2.trans hhi)
  rw [← hseq] at hinside ⊢
  exact h old hold hinside

theorem Follows.others (h : x.Follows ws) (hlake : x.lake.Beside lake) :
    ({ x with lake := lake } : Organizer).Follows ws where
  chained := h.chained
  nodup := h.nodup
  kept w := by
    rw [h.kept w]
    show _ ↔ lake.base.windowOf? w.run = some w ∧ _
    rw [hlake.windows w.run]
    rfl
  head := h.head.trans hlake.head_le
  covered w hw := (h.covered w hw).beside hlake ((h.chained.hi_le w hw).trans h.head)
  next run hrun := by
    obtain ⟨w, hw, hstatus, hlo, hle, hhead, hcovers⟩ := h.next run hrun
    exact ⟨w, (hlake.windows run).trans hw, hstatus, hlo, hle, hhead.trans hlake.head_le,
      hcovers.beside hlake hhead⟩
  newest := h.newest

/-- Other runs: the windows that are kept are known, none is in flight. -/
theorem follows_set_runs {runs : AutoTable RunRow.id} {ws' : List Window} (judged : Option ℤ)
    (hchained : Chained Window.lo Window.hi 0 ws') (hnodup : ws'.Nodup)
    (hkept : ∀ w, w ∈ ws' ↔ ({ x.lake.base with runs := runs } : Store).windowOf? w.run = some w ∧
      w.status = .done)
    (hhead : top Window.hi 0 ws' ≤ maxLedgerSeq x.lake.base.ledger) (hcovered : ∀ w ∈ ws', x.Covers w)
    (hnewest : ∀ run, judged = some run → ∃ w ws'', ws' = w :: ws'' ∧ w.run = run) :
    ({ x with
      lake := x.lake.setRuns runs
      inFlight := none
      judged := judged } : Organizer).Follows ws' where
  chained := hchained
  nodup := hnodup
  kept := hkept
  head := hhead
  covered := hcovered
  next run hrun := by cases hrun
  newest := hnewest

/-- Where what is done is the same, so are the windows that are kept. -/
theorem Follows.same_kept (h : x.Follows ws) (runs : AutoTable RunRow.id)
    (hsame : ∀ w, ({ x.lake.base with runs := runs } : Store).windowOf? w.run = some w ∧
      w.status = .done ↔ x.Kept w) :
    ({ x with
      lake := x.lake.setRuns runs
      inFlight := none } : Organizer).Follows ws :=
  follows_set_runs _ h.chained h.nodup (fun w => (h.kept w).trans (hsame w).symm) h.head h.covered h.newest

/-- Marking runs that are not done changes nothing that is kept. -/
theorem kept_update {s : Store} {p : RunRow → Bool} {f : RunRow → RunRow}
    {hid : ∀ r, (f r).id = r.id} (hp : ∀ r, p r = true → r.status ≠ .done)
    (hf : ∀ r, (f r).status ≠ .done) (w : Window) :
    ({ s with runs := s.runs.update p f hid } : Store).windowOf? w.run = some w ∧ w.status = .done ↔
      s.windowOf? w.run = some w ∧ w.status = .done := by
  unfold Store.windowOf?
  simp only [AutoTable.toTable_update, Table.get?_update]
  cases s.runs.get? w.run with
  | none => exact Iff.rfl
  | some r =>
    by_cases hpr : p r = true
    · have hnot : ∀ r' : RunRow, r'.status ≠ .done → ¬ (r'.window = some w ∧ w.status = .done) := by
        rintro r' hr' ⟨hwin, hdone⟩
        obtain ⟨hi, -, rfl⟩ := Option.map_eq_some_iff.mp hwin
        exact hr' hdone
      simp only [Option.map_some, Option.bind_some, if_pos hpr]
      exact iff_of_false (hnot _ (hf r)) (hnot r (hp r hpr))
    · simp only [Option.map_some, Option.bind_some, if_neg hpr]

theorem not_done_of_running {r : RunRow} (h : r.status = .running) : r.status ≠ .done := by
  rw [h]
  decide

theorem Follows.interrupts (h : x.Follows ws) (hidle : x.inFlight = none) (now : ℤ) :
    ({ x with lake := x.lake.setRuns (x.lake.base.interruptRuns now).runs } : Organizer).Follows ws := by
  have hsame := h.same_kept (x.lake.base.interruptRuns now).runs fun w =>
    kept_update (fun _ hr => not_done_of_running (by simpa using hr : _ ∧ _ ∧ _).1) (by simp) w
  rwa [← hidle] at hsame

theorem Follows.fails (h : x.Follows ws) (error : String) :
    ({ x with
      lake := x.lake.setRuns (x.lake.base.failRuns error).runs
      inFlight := none } : Organizer).Follows ws :=
  h.same_kept _ fun w =>
    kept_update (fun _ hr => not_done_of_running (by simpa using hr : _ ∧ _).1) (by simp) w

theorem Follows.crashes (h : x.Follows ws) : ({ x with inFlight := none } : Organizer).Follows ws :=
  h.same_kept _ fun _ => Iff.rfl

/-- Without the window in flight nothing that is kept is changed. -/
theorem Follows.drops (h : x.Follows ws) (hrun : x.inFlight = some run) {runs : AutoTable RunRow.id}
    (hothers : ∀ run', run' ≠ run →
      ({ x.lake.base with runs := runs } : Store).windowOf? run' = x.lake.base.windowOf? run')
    (hgone : ({ x.lake.base with runs := runs } : Store).windowOf? run = none) :
    ({ x with
      lake := x.lake.setRuns runs
      inFlight := none } : Organizer).Follows ws := by
  refine h.same_kept _ fun w => ?_
  by_cases hw : w.run = run
  · obtain ⟨w', hw', hstatus, -⟩ := h.next run hrun
    rw [Kept, hw, hgone, hw']
    refine iff_of_false (fun hnone => by cases hnone.1) ?_
    rintro ⟨heq, hdone⟩
    rw [Option.some.injEq] at heq
    rw [← heq, hstatus] at hdone
    cases hdone
  · rw [Kept, hothers _ hw]

theorem Follows.backsOff (h : x.Follows ws) (hrun : x.inFlight = some run)
    (f f' : Store.ClassRunFinish) : (x.backOff run f f').Follows ws := by
  refine h.drops hrun (fun run' hne => ?_) ?_
  · show (Store.finishClassRunWith _ _ f').windowOf? run' = _
    rw [Store.windowOf?_finish_of_ne hne, Store.windowOf?_finish_of_ne hne,
      Store.windowOf?_mark_of_ne hne]
  · show (Store.finishClassRunWith _ _ f').windowOf? run = _
    rw [Store.windowOf?_finish, Store.windowOf?_finish, Store.windowOf?_mark]
    rfl

theorem Follows.givesUp (h : x.Follows ws) (hrun : x.inFlight = some run)
    (f : Store.ClassRunFinish) : (x.giveUp run f).Follows ws := by
  refine h.drops hrun (fun run' hne => ?_) ?_
  · show (Store.finishClassRunWith _ _ f).windowOf? run' = _
    rw [Store.windowOf?_finish_of_ne hne, Store.windowOf?_mark_of_ne hne,
      Store.windowOf?_finish_of_ne hne]
  · show (Store.finishClassRunWith _ _ f).windowOf? run = _
    rw [Store.windowOf?_finish, Store.windowOf?_mark]
    rfl

/-- Two windows that are kept of one run are one. -/
theorem Follows.eq_of_run (h : x.Follows ws) {v w : Window} (hv : v ∈ ws)
    (hw : x.lake.base.windowOf? v.run = some w) : v = w := by
  have hvw := ((h.kept v).mp hv).1
  rw [hw, Option.some.injEq] at hvw
  exact hvw.symm

/-- The window in flight becomes the newest that is kept. -/
theorem Follows.finishes (h : x.Follows ws) (hrun : x.inFlight = some run) {f : Store.ClassRunFinish}
    (hdone : f.status = .done) (ran : Bool) : ∃ w, x.lake.base.windowOf? run = some w ∧
      (x.finish run f ran).Follows ({ w with status := .done } :: ws) := by
  obtain ⟨w, hw, hstatus, hlo, hle, hhead, hcovers⟩ := h.next run hrun
  have hwrun := Store.run_of_windowOf hw
  have hold : ∀ v ∈ ws, v.run ≠ run := by
    intro v hv hvr
    have hvd := ((h.kept v).mp hv).2
    rw [h.eq_of_run hv (hvr ▸ hw), hstatus] at hvd
    cases hvd
  refine ⟨w, hw, follows_set_runs _ ⟨hlo, hle, h.chained⟩
    (List.nodup_cons.mpr ⟨fun hmem => hold _ hmem hwrun, h.nodup⟩) (fun v => ?_) hhead
    (List.forall_mem_cons.mpr ⟨hcovers, h.covered⟩) ?_⟩
  · show _ ↔ (Store.finishClassRunWith _ _ f).windowOf? v.run = some v ∧ _
    rw [List.mem_cons]
    by_cases hv : v.run = run
    · rw [hv, Store.windowOf?_finish, hw, Option.map_some, hdone, Option.some.injEq]
      constructor
      · rintro (rfl | hmem)
        · exact ⟨rfl, rfl⟩
        · exact absurd hv (hold v hmem)
      · exact fun hv' => .inl hv'.1.symm
    · rw [Store.windowOf?_finish_of_ne hv]
      refine (or_iff_right ?_).trans (h.kept v)
      rintro rfl
      exact hv hwrun
  · intro run' hrun'
    cases ran with
    | false => cases hrun'
    | true =>
      obtain rfl := Option.some.inj hrun'
      exact ⟨_, _, rfl, hwrun⟩

/-- The newest window is given back. -/
theorem Follows.canary (h : x.Follows ws) (hidle : x.inFlight = none) (hrun : x.judged = some run) :
    ∃ ws', ({ x with
      lake := x.lake.setRuns (x.lake.base.markRunCanaryReverted run).runs
      judged := none } : Organizer).Follows ws' := by
  obtain ⟨w, ws', rfl, rfl⟩ := h.newest run hrun
  have hw := ((h.kept w).mp List.mem_cons_self).1
  have hold : ∀ v ∈ ws', v.run ≠ w.run := by
    intro v hv hvr
    have heq := h.eq_of_run (List.mem_cons_of_mem _ hv) (hvr ▸ hw)
    exact (List.nodup_cons.mp h.nodup).1 (heq ▸ hv)
  have hkept : ∀ v, v ∈ ws' ↔
      (x.lake.base.markRunCanaryReverted w.run).windowOf? v.run = some v ∧ v.status = .done := by
    intro v
    by_cases hv : v.run = w.run
    · rw [hv, Store.windowOf?_mark]
      exact iff_of_false (fun hmem => hold v hmem hv) (fun hnone => by cases hnone.1)
    · rw [Store.windowOf?_mark_of_ne hv]
      have hne : v ≠ w := fun heq => hv (congrArg Window.run heq)
      exact ((List.mem_cons.trans (or_iff_right hne)).symm).trans (h.kept v)
  have hhead : top Window.hi 0 ws' ≤ maxLedgerSeq x.lake.base.ledger := by
    calc top Window.hi 0 ws' = w.lo := h.chained.1.symm
      _ ≤ w.hi := h.chained.2.1
      _ ≤ _ := h.head
  have hset := follows_set_runs (x := x) none h.chained.tail (List.nodup_cons.mp h.nodup).2 hkept hhead
    (fun v hv => h.covered v (List.mem_cons_of_mem _ hv)) (fun _ hr => by cases hr)
  simp only [hidle]
  exact ⟨ws', hset⟩

/-- The window of a run that begins. -/
theorem windowOf?_begin (x : Organizer) (later : Lake) (now : ℤ) :
    (x.begin later now).lake.base.windowOf? later.base.runs.nextId =
      some ⟨later.base.runs.nextId, .running, x.lake.base.lastRunSeqTo,
        seqTo (maxLedgerSeq x.lake.base.ledger)
          (later.lakeItemsSince x.lake.base.lastRunSeqTo maxDeltaItems)⟩ :=
  (Store.windowOf?_insert ..).trans (if_pos rfl)

/-- A run begins behind the newest window, with one that its delta covers. -/
theorem Follows.begins (h : x.Follows ws) {later : Lake} (hlater : x.lake.Beside later) (now : ℤ) :
    (x.begin later now).Follows ws := by
  have hnew : ∀ w ∈ ws, w.run ≠ later.base.runs.nextId := by
    intro w hw heq
    have hrow := (hlater.windows w.run).trans ((h.kept w).mp hw).1
    rw [heq, Store.windowOf?, AutoTable.get?_nextId] at hrow
    cases hrow
  have hothers := h.others hlater
  obtain ⟨hlo, hhi, hread⟩ := delta_spec (h.floor_eq ▸ h.head) hlater.head_le
  have hwindow := Store.windowOf?_insert later.base now .organize x.lake.base.lastRunSeqTo
    (seqTo (maxLedgerSeq x.lake.base.ledger)
      (later.lakeItemsSince x.lake.base.lastRunSeqTo maxDeltaItems))
  exact {
    chained := h.chained
    nodup := h.nodup
    kept := fun w => by
      show _ ↔ (Store.insertClassRunWith _ _ _ _ _).1.windowOf? w.run = some w ∧ _
      rw [hwindow]
      by_cases hw : w.run = later.base.runs.nextId
      · rw [if_pos hw]
        refine iff_of_false (fun hmem => hnew w hmem hw) ?_
        rintro ⟨heq, hdone⟩
        rw [← Option.some.inj heq] at hdone
        cases hdone
      · rw [if_neg hw]
        exact hothers.kept w
    head := hothers.head
    covered := fun w hw it hit hinside => by
      have hsame : (x.begin later now).read w.run = x.read w.run := Function.update_of_ne (hnew w hw) _ _
      rw [hsame]
      exact hothers.covered w hw it hit hinside
    next := fun run hrun => by
      obtain rfl := Option.some.inj hrun
      refine ⟨_, windowOf?_begin x later now, rfl, h.floor_eq, hlo, hhi, fun it hit hinside => ?_⟩
      have hself : (x.begin later now).read later.base.runs.nextId =
          (later.lakeItemsSince x.lake.base.lastRunSeqTo maxDeltaItems).map LakeItem.seq :=
        Function.update_self ..
      show it.seq ∈ (x.begin later now).read later.base.runs.nextId
      rw [hself]
      exact List.mem_map_of_mem (hread it hit hinside.1 hinside.2)
    newest := fun run hrun => by cases hrun }

/-! ### Histories -/

/-- **The windows that are kept follow each other**, whatever has happened. -/
theorem Reach.follows (hx : x.Reach) : ∃ ws, x.Follows ws := by
  induction hx with
  | @start lake hnone =>
    refine ⟨[], trivial, List.nodup_nil, fun w => ?_, ?_, ?_, ?_, ?_⟩
    · refine iff_of_false List.not_mem_nil ?_
      rintro ⟨hrow, hdone⟩
      obtain ⟨r, hr, hwin⟩ := Option.bind_eq_some_iff.mp hrow
      obtain ⟨hi, -, rfl⟩ := Option.map_eq_some_iff.mp hwin
      exact hnone r (Table.get?_eq_some.mp hr).1 hdone
    · obtain ⟨r, hr, hmax⟩ | ⟨-, hmax⟩ := maxLedgerSeq_cases lake.base.ledger
      · have hone := lake.fromOne r hr
        exact hmax ▸ (by omega : (0 : ℤ) ≤ r.seq)
      · exact hmax.ge
    · exact fun w hw => by cases hw
    · exact fun run hrun => by cases hrun
    · exact fun run hrun => by cases hrun
  | others hx hlake ih =>
    obtain ⟨ws, h⟩ := ih
    exact ⟨ws, h.others hlake⟩
  | interrupts now hx hidle ih =>
    obtain ⟨ws, h⟩ := ih
    exact ⟨ws, h.interrupts hidle now⟩
  | begins now hx hidle hlater ih =>
    obtain ⟨ws, h⟩ := ih
    exact ⟨ws, h.begins hlater now⟩
  | finishes f ran hx hrun hdone ih =>
    obtain ⟨ws, h⟩ := ih
    obtain ⟨w, -, h'⟩ := h.finishes hrun hdone ran
    exact ⟨_, h'⟩
  | backsOff f f' hx hrun ih =>
    obtain ⟨ws, h⟩ := ih
    exact ⟨ws, h.backsOff hrun f f'⟩
  | givesUp f hx hrun herror ih =>
    obtain ⟨ws, h⟩ := ih
    exact ⟨ws, h.givesUp hrun f⟩
  | fails error hx hrun ih =>
    obtain ⟨ws, h⟩ := ih
    exact ⟨ws, h.fails error⟩
  | crashes hx ih =>
    obtain ⟨ws, h⟩ := ih
    exact ⟨ws, h.crashes⟩
  | canary hx hidle hrun ih =>
    obtain ⟨ws, h⟩ := ih
    exact h.canary hidle hrun

/-! ### Draining a backlog -/

/-- Behind the window of a delta is what the delta left. -/
theorem left_seqTo (lake : Lake) (floor : ℤ) :
    lake.left everything (seqTo (maxLedgerSeq lake.base.ledger) (lake.lakeItemsSince floor maxDeltaItems)) =
      (lake.left everything floor).drop maxDeltaItems := by
  rw [Lake.lakeItemsSince_eq]
  unfold seqTo
  by_cases hcap : maxDeltaItems ≤ (lake.left everything floor).length
  · have hlength : ((lake.left everything floor).take maxDeltaItems).length = maxDeltaItems :=
      List.length_take_of_le hcap
    have hlt : maxDeltaItems - 1 < (lake.left everything floor).length := by
      have hpos : 0 < maxDeltaItems := by decide
      omega
    have hlast : (lake.left everything floor)[maxDeltaItems - 1]? =
        some (lake.left everything floor)[maxDeltaItems - 1] := List.getElem?_eq_getElem hlt
    have hgetLast : ((lake.left everything floor).take maxDeltaItems).getLast? =
        some (lake.left everything floor)[maxDeltaItems - 1] := by
      rw [List.getLast?_eq_getElem?, hlength, List.getElem?_take_of_lt (by decide), hlast]
    rw [if_pos hlength.ge, hgetLast, Option.map_some, Option.getD_some, Lake.left_seq hlast]
    rfl
  · have hnil : lake.left everything (maxLedgerSeq lake.base.ledger) = [] := by
      refine List.filter_eq_nil_iff.mpr fun it hit => ?_
      have hle := Lake.seq_le_head hit
      simpa using hle
    rw [if_neg (by rw [List.length_take]; omega), hnil, List.drop_of_length_le (by omega)]

/-- A run with no other writer beside it, that is done. -/
def turn (now : ℤ) (f : Store.ClassRunFinish) (x : Organizer) : Organizer :=
  (x.begin x.lake now).finish x.lake.base.runs.nextId f true

/-- What the next run would read, and what comes behind it. -/
def backlog (x : Organizer) : List LakeItem := x.lake.left everything x.lake.base.lastRunSeqTo

theorem beside_refl (lake : Lake) : lake.Beside lake :=
  ⟨⟨⟨[], (List.append_nil _).symm⟩, fun _ _ => rfl⟩, fun _ => rfl⟩

theorem Reach.turn (hx : x.Reach) (hidle : x.inFlight = none) {f : Store.ClassRunFinish}
    (hdone : f.status = .done) (now : ℤ) : (x.turn now f).Reach :=
  .finishes f true (.begins now hx hidle (beside_refl x.lake)) rfl hdone

/-- A turn takes the first items of the backlog, as many as a delta holds. -/
theorem backlog_turn (hx : x.Reach) {f : Store.ClassRunFinish} (hdone : f.status = .done) (now : ℤ) :
    (x.turn now f).backlog = x.backlog.drop maxDeltaItems := by
  obtain ⟨ws, h⟩ := hx.follows
  obtain ⟨w, hw, hturn⟩ := (h.begins (beside_refl x.lake) now).finishes rfl hdone true
  have hhi := Option.some.inj ((windowOf?_begin x x.lake now).symm.trans hw)
  have hfloor : (x.turn now f).lake.base.lastRunSeqTo = w.hi := hturn.floor_eq
  rw [backlog, hfloor, ← hhi]
  exact left_seqTo x.lake _

end Organizer

/-- **What is consumed was read, and by one run**: every item at or below the floor is
inside one window that is done and was not given back, and the run of that window read
the item. -/
theorem consumed_once {x : Organizer} (hx : x.Reach) {it : LakeItem} (hit : it ∈ x.lake.everyItem)
    (hle : it.seq ≤ x.lake.base.lastRunSeqTo) :
    ∃ w, (x.Kept w ∧ Inside Window.lo Window.hi it.seq w ∧ it.seq ∈ x.read w.run) ∧
      ∀ v, x.Kept v → Inside Window.lo Window.hi it.seq v → v = w := by
  obtain ⟨ws, h⟩ := hx.follows
  have hpos : 0 < it.seq := by
    obtain ⟨e, he, -, rfl⟩ := Lake.mem_everyItem.mp hit
    have hone := x.lake.fromOne e he
    rw [Lake.seq_item]
    omega
  obtain ⟨w, hw, hinside⟩ := h.chained.exists_inside hpos (h.floor_eq ▸ hle)
  refine ⟨w, ⟨(h.kept w).mp hw, hinside, h.covered w hw it hit hinside⟩, fun v hv hinside' => ?_⟩
  exact h.chained.inside_unique ((h.kept v).mpr hv) hw hinside' hinside

/-- How a run is finished that is done. -/
def windowDone : Store.ClassRunFinish := ⟨.done, "", some 0, some .done, none, some .organize⟩

/-- Two prompts are read by a run that is done. -/
def twoConsumed : Organizer := ((Organizer.start twoPrompts).begin twoPrompts 1).finish 1 windowDone true

theorem consumed_once_two : ∃ w, (twoConsumed.Kept w ∧ Inside Window.lo Window.hi 2 w ∧
    2 ∈ twoConsumed.read w.run) ∧
      ∀ v, twoConsumed.Kept v → Inside Window.lo Window.hi 2 v → v = w :=
  @consumed_once twoConsumed
    (.finishes windowDone true (.begins 1 (.start (by decide)) rfl (Organizer.beside_refl twoPrompts)) rfl rfl)
    (twoPrompts.item (askedEvent 2)) (Lake.mem_everyItem.mpr ⟨askedEvent 2, by decide, by decide, rfl⟩)
    (by decide)

/-- The canary judges the first run after the next one: what the first had read is below
the floor, and in no window. -/
theorem lateCanary_unread :
    let x := ((twoConsumed.begin twoConsumed.lake 2).finish 2 windowDone true).lake.base
    let s := x.markRunCanaryReverted 1
    s.lastRunSeqTo = 2 ∧ s.windowOf? 1 = none ∧ s.windowOf? 2 = some ⟨2, .done, 2, 2⟩ := by
  decide

end PolisMemory
