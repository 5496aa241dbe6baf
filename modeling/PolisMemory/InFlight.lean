/-
# Calls in flight

What a `revert_run` in flight has read of the run, the horizon and the journal
(`OpenCall.Holds`), what a commit of another process must leave of it
(`OpenCall.Kept`), and what each step of the writer and each transaction of a
revert does to the tables that are read. The row that a compaction still owes
the journal does not meet the transaction of a revert (`settle_revertUndo`).

Key definitions: `OpenCall.Sees`, `OpenCall.Kept`, `OpenCall.Holds`, `Commits`.
Key theorems: `Commits.holds`, `HistoryStep.exec_rows`,
`Store.settle_revertUndo`.
-/
import PolisMemory.Processes

namespace PolisMemory

open Tables Store

/-! ### What others must leave -/

/-- A read of a revert sees what it would see with the row that is still owed. -/
def OpenCall.Sees (s settled : Store) : OpenCall → Prop
  | .revert _ run _ .ops => s.appliedOps run = settled.appliedOps run
  | .revert _ run _ (.later seen) =>
    s.laterTouching run seen = none → settled.laterTouching run seen = none
  | _ => True

/-- A commit leaves what a revert in flight has read of the journal. -/
def OpenCall.Kept (s s' : Store) : OpenCall → Prop
  | .revert _ run _ (.later _) => s'.appliedOps run = s.appliedOps run
  | .revert _ run _ (.undo seen) => s'.appliedOps run = s.appliedOps run ∧
    (s.laterTouching run seen = none → s'.laterTouching run seen = none)
  | _ => True

/-- A run is finished with an outcome of its own. -/
def HistoryStep.OwnOutcome : HistoryStep → Prop
  | .finish _ f => f.outcome ≠ some .reverted ∧ f.outcome ≠ some .revertedByCanary
  | _ => True

/-! ### The journal -/

namespace Store

theorem appliedOps_eq_nil {s : Store} {run : ℤ} :
    s.appliedOps run = [] ↔ ∀ o ∈ s.runOps.rows, o.runId = run → o.outcome ≠ .applied := by
  rw [List.eq_nil_iff_forall_not_mem]
  simp only [mem_appliedOps, not_and, ne_eq]

theorem laterTouching_eq_none {s : Store} {run : ℤ} {seen : List OpRow} :
    s.laterTouching run seen = none ↔ ∀ o ∈ s.runOps.rows, run < o.runId → o.outcome = .applied →
      ∀ x ∈ o.subjectIds, x ∉ seen.flatMap OpRow.subjectIds := by
  simp only [laterTouching, Option.map_eq_none_iff, List.find?_eq_none, List.mem_insertionSort,
    Table.select, List.mem_filter, Bool.and_eq_true, decide_eq_true_eq, List.any_eq_true, not_exists,
    not_and, and_imp]

/-- What the transaction of a revert does to the tables the reads look at. -/
structure UndoDone (run : ℤ) (seen : List OpRow) (s s' : Store) : Prop where
  rows : s'.runOps.rows = s.runOps.rows.map fun r =>
    if r.key ∈ seen.map OpRow.key then r.reverted s.runs.nextId else r
  proposals : s'.proposals = s.proposals
  horizon : s'.revertHorizon = s.revertHorizon
  runs : ∀ {k r}, s.runs.get? k = some r →
    ∃ r', s'.runs.get? k = some r' ∧ (k ≠ run → r'.outcome = r.outcome)
  forgotten : ∀ k, s'.runSourceForgotten k = s.runSourceForgotten k

theorem revertUndo_done {h : Host} {s s' : Store} {now run : ℤ} {actor : String}
    {seen : List OpRow} {receipt : RevertReceipt}
    (hok : s.revertUndo h now run actor seen = .ok (s', receipt)) : UndoDone run seen s s' := by
  obtain ⟨t, hundo, rfl, -⟩ := revertUndo_eq_ok.mp hok
  obtain ⟨hruns, hhorizon, hrows⟩ := undoOps_books hundo
  have hqueue := proposals_undoOps hundo
  have hget : ∀ k, ((t.append h (revertEvent h now run s.runs.nextId seen.length actor)).settleRevert
      run s.runs.nextId seen.length).runs.get? k =
      (((if k = s.runs.nextId then some ⟨s.runs.nextId, now, .running, none, none, none, none, none,
        none, .revert, none⟩ else s.runs.get? k).map fun r : RunRow =>
          if r.id = run then { r with outcome := some .reverted } else r).map fun r =>
            if r.id = s.runs.nextId then { r with
              status := .done
              outcome := some .done
              ops := some (seen.length : ℤ)
              summary := some s!"reverted run #{run}: {seen.length} op(s)" } else r) := by
    intro k
    change (AutoTable.update (AutoTable.update t.runs _ _ _) _ _ _).get? k = _
    rw [hruns, AutoTable.toTable_update, Table.get?_update, AutoTable.toTable_update,
      Table.get?_update]
    change ((((AutoTable.insert s.runs _ _).get? k).map _).map _) = _
    rw [AutoTable.get?_insert]
    simp only [decide_eq_true_eq]
  refine ⟨?_, hqueue, hhorizon, ?_, ?_⟩
  · change t.runOps.rows = _
    rw [hrows]
    simp only [List.map_reverse, List.mem_reverse]
    rfl
  · intro k r hr
    have hne : k ≠ s.runs.nextId := by
      rintro rfl
      rw [s.runs.get?_nextId] at hr
      cases hr
    have hid : r.id = k := Table.key_of_get? hr
    refine ⟨_, by rw [hget, if_neg hne, hr, Option.map_some, Option.map_some], fun hk => ?_⟩
    rw [if_neg (show ¬r.id = run by rwa [hid]), if_neg (by rwa [hid])]
  · intro k
    rw [runSourceForgotten, hget, runSourceForgotten]
    by_cases hk : k = s.runs.nextId
    · rw [if_pos hk, hk, s.runs.get?_nextId]
      simp only [Option.map_some, Option.any_some, Option.any_none]
      split_ifs <;> rfl
    · rw [if_neg hk]
      cases s.runs.get? k with
      | none => rfl
      | some r =>
        simp only [Option.map_some, Option.any_some]
        split_ifs <;> rfl

theorem UndoDone.nextOpIx {run : ℤ} {seen : List OpRow} {s s' : Store} (hd : UndoDone run seen s s')
    (k : ℤ) : s'.nextOpIx k = s.nextOpIx k := by
  unfold Store.nextOpIx Table.select
  rw [hd.rows, List.filter_map, List.map_map]
  congr 3
  · funext o
    simp only [Function.comp_apply]
    split_ifs <;> rfl
  · congr 1
    funext o
    simp only [Function.comp_apply]
    split_ifs <;> rfl

end Store

/-! ### What a commit leaves of the reads of others -/

/-- The run is there, and if it is marked as reverted it was reverted since. -/
def Known (s : Store) (reverted : List ℤ) (run : ℤ) : Prop :=
  ∃ r, s.runs.get? run = some r ∧
    (r.outcome ≠ some .reverted ∧ r.outcome ≠ some .revertedByCanary ∨ run ∈ reverted)

/-- The ops read are the run's applied ops, those still owed among them. -/
structure Seen (s settled : Store) (run : ℤ) (seen : List OpRow) : Prop where
  ne : seen ≠ []
  applied : settled.appliedOps run = seen
  rows : ∀ o ∈ seen, o ∈ s.runOps.rows

/-- What a revert in flight has read still holds. -/
def RevertPhase.Holds (s settled : Store) (reverted : List ℤ) (run : ℤ) : RevertPhase → Prop
  | .run => True
  | .horizon => Known settled reverted run
  | .ops => Known settled reverted run ∧ settled.revertHorizon.any (run ≤ ·) = false
  | .later seen => (Known settled reverted run ∧ settled.revertHorizon.any (run ≤ ·) = false) ∧
    Seen s settled run seen
  | .undo seen => (Known settled reverted run ∧ settled.revertHorizon.any (run ≤ ·) = false) ∧
    Seen s settled run seen ∧ settled.laterTouching run seen = none

/-- What a call in flight has read still holds. -/
def OpenCall.Holds (s settled : Store) (reverted : List ℤ) : OpenCall → Prop
  | .revert _ run _ phase => phase.Holds s settled reverted run
  | .write st => st.OwnOutcome ∧ ∀ now run actor, st ≠ .revert now run actor
  | .apply _ _ _ p => s.proposals.get? p.id = some p
  | .journal _ _ _ .forgotten => True
  | .journal run _ _ .opIx => s.runSourceForgotten run = false
  | .journal run _ _ (.insert ix) => s.runSourceForgotten run = false ∧ ix = s.nextOpIx run

def OpenCall.IsRevert : OpenCall → Prop
  | .revert .. => True
  | _ => False

/-- What a commit does to the reads of others. -/
structure Commits (s s' settled settled' : Store) (reverted reverted' : List ℤ) : Prop where
  known : ∀ run, Known settled reverted run → Known settled' reverted' run
  horizon : settled'.revertHorizon = settled.revertHorizon
  rows : ∀ o ∈ settled'.runOps.rows, o ∈ s.runOps.rows → o ∈ s'.runOps.rows

section

variable {s s' t t' : Store} {reverted reverted' : List ℤ}

/-- What the other calls read stays as it was. -/
structure SameInputs (s s' : Store) : Prop where
  proposals : s'.proposals = s.proposals
  forgotten : ∀ run, s'.runSourceForgotten run = s.runSourceForgotten run
  nextOpIx : ∀ run, s'.nextOpIx run = s.nextOpIx run

theorem Store.UndoDone.sameInputs {run : ℤ} {seen : List OpRow} (hd : UndoDone run seen s s') :
    SameInputs s s' := ⟨hd.proposals, hd.forgotten, hd.nextOpIx⟩

theorem Commits.holds_revert (hc : Commits s s' t t' reverted reverted') {now run : ℤ}
    {actor : String} {phase : RevertPhase}
    (hk : (OpenCall.revert now run actor phase).Kept t t')
    (hh : (OpenCall.revert now run actor phase).Holds s t reverted) :
    (OpenCall.revert now run actor phase).Holds s' t' reverted' := by
  have hseen : ∀ {seen}, t'.appliedOps run = t.appliedOps run → Seen s t run seen →
      Seen s' t' run seen := by
    intro seen hsame hs
    have happlied := hsame.trans hs.applied
    refine ⟨hs.ne, happlied, fun o ho => hc.rows o ?_ (hs.rows o ho)⟩
    exact (mem_appliedOps.mp (happlied ▸ ho)).1
  have hpast : Known t reverted run ∧ t.revertHorizon.any (run ≤ ·) = false →
      Known t' reverted' run ∧ t'.revertHorizon.any (run ≤ ·) = false :=
    fun hp => ⟨hc.known run hp.1, by rw [hc.horizon]; exact hp.2⟩
  cases phase with
  | run => trivial
  | horizon => exact hc.known run hh
  | ops => exact hpast hh
  | later seen => exact ⟨hpast hh.1, hseen hk hh.2⟩
  | undo seen => exact ⟨hpast hh.1, hseen hk.1 hh.2.1, hk.2 hh.2.2⟩

theorem Commits.holds (hc : Commits s s' t t' reverted reverted') {c : OpenCall}
    (hin : c.IsRevert ∨ SameInputs s s') (hk : c.Kept t t') (hh : c.Holds s t reverted) :
    c.Holds s' t' reverted' := by
  cases c with
  | revert now run actor phase => exact hc.holds_revert hk hh
  | write st => exact hh
  | apply now run actor p =>
    have hsame := (hin.resolve_left nofun).proposals
    change s'.proposals.get? p.id = some p
    rw [hsame]
    exact hh
  | journal run rec owed phase =>
    have hsame := hin.resolve_left nofun
    cases phase with
    | forgotten => trivial
    | opIx =>
      change s'.runSourceForgotten run = false
      rw [hsame.forgotten]
      exact hh
    | insert ix =>
      change s'.runSourceForgotten run = false ∧ ix = s'.nextOpIx run
      rw [hsame.forgotten, hsame.nextOpIx]
      exact hh

end

/-! ### The steps of the writer -/

/-- A step that is no revert adds rows of its own run. -/
theorem HistoryStep.exec_rows (h : Host) (s : Store) {st : HistoryStep}
    (hst : ∀ now run actor, st ≠ .revert now run actor) :
    ∃ new, (st.exec h s).runOps.rows = s.runOps.rows ++ new ∧
      ∀ o ∈ new, st.writer? = some o.runId := by
  cases st with
  | start now mode seqFrom seqTo => exact ⟨[], (List.append_nil _).symm, by simp⟩
  | finish run f => exact ⟨[], (List.append_nil _).symm, by simp⟩
  | write run w =>
    obtain ⟨new, hnew⟩ := w.exec_journaled h run s
    exact ⟨new, hnew.rows, fun o ho => congrArg some (hnew.own o ho).1.symm⟩
  | journal run rec =>
    obtain ⟨new, hrows, hown⟩ := tryJournal_rows s run rec
    exact ⟨new, hrows, fun o ho => congrArg some (hown o ho).symm⟩
  | revert now run actor => exact absurd rfl (hst now run actor)

theorem tryJournal_runs (s : Store) (run : ℤ) (rec : OpRecord) :
    (s.tryJournal run rec).runs = s.runs ∧
      (s.tryJournal run rec).revertHorizon = s.revertHorizon := by
  unfold tryJournal
  split
  · rename_i s' hj
    obtain ⟨ops, rfl, -⟩ := journalOp_ok hj
    exact ⟨rfl, rfl⟩
  · exact ⟨rfl, rfl⟩

theorem Known.of_runs {s s' : Store} {reverted : List ℤ} {run : ℤ} (hruns : s'.runs = s.runs)
    (hk : Known s reverted run) : Known s' reverted run := by
  rw [Known, hruns]
  exact hk

/-- A step that is no revert marks no run as reverted. -/
theorem HistoryStep.exec_known (h : Host) (s : Store) {st : HistoryStep}
    (hst : ∀ now run actor, st ≠ .revert now run actor) (hown : st.OwnOutcome)
    (reverted : List ℤ) (run : ℤ) (hk : Known s reverted run) : Known (st.exec h s) reverted run := by
  cases st with
  | start now mode seqFrom seqTo =>
    obtain ⟨r, hr, ho⟩ := hk
    refine ⟨r, ?_, ho⟩
    have hne : run ≠ s.runs.nextId := by
      rintro rfl
      rw [s.runs.get?_nextId] at hr
      cases hr
    exact (AutoTable.get?_insert.trans (if_neg hne)).trans hr
  | finish k f =>
    obtain ⟨r, hr, ho⟩ := hk
    change ∃ r, (s.runs.update _ _).get? run = some r ∧ _
    rw [AutoTable.toTable_update, Table.get?_update, hr]
    refine ⟨_, rfl, ?_⟩
    by_cases hid : r.id = k
    · simp only [hid, decide_true, if_true]
      exact .inl hown
    · simp only [hid, decide_false, Bool.false_eq_true, if_false]
      exact ho
  | write k w =>
    obtain ⟨new, hnew⟩ := w.exec_journaled h k s
    exact hk.of_runs hnew.runs
  | journal k rec => exact hk.of_runs (tryJournal_runs s k rec).1
  | revert now k actor => exact absurd rfl (hst now k actor)

theorem HistoryStep.exec_horizon (h : Host) (s : Store) {st : HistoryStep}
    (hst : ∀ now run actor, st ≠ .revert now run actor) :
    (st.exec h s).revertHorizon = s.revertHorizon := by
  cases st with
  | start now mode seqFrom seqTo => rfl
  | finish run f => rfl
  | write run w =>
    obtain ⟨new, hnew⟩ := w.exec_journaled h run s
    exact hnew.horizon
  | journal run rec => exact (tryJournal_runs s run rec).2
  | revert now run actor => exact absurd rfl (hst now run actor)

/-! ### The row that is owed -/

namespace Store

theorem journalOp_eq_tryJournal (s : Store) (run : ℤ) (rec : OpRecord) :
    s.journalOp run rec = .ok (s.tryJournal run rec) := by
  cases hf : s.runSourceForgotten run with
  | true => simp [tryJournal, journalOp, hf]
  | false =>
    obtain ⟨ops, hj, -⟩ := journalOp_eq s run rec hf
    rw [tryJournal, hj]

theorem tryJournal_cases (s : Store) (run : ℤ) (rec : OpRecord) :
    s.runSourceForgotten run = true ∧ s.tryJournal run rec = s ∨
      s.runSourceForgotten run = false ∧ ∃ ops, s.tryJournal run rec = { s with runOps := ops } ∧
        s.runOps.insert? (s.opRow run rec) = some ops := by
  cases hf : s.runSourceForgotten run with
  | true => exact .inl ⟨rfl, by simp [tryJournal, journalOp, hf]⟩
  | false =>
    obtain ⟨ops, hj, hrows⟩ := journalOp_eq s run rec hf
    have hins : s.runOps.insert? (s.opRow run rec) = some ops := by
      rw [journalOp, if_neg (by simp [hf])] at hj
      split at hj
      · cases hj
      · rename_i ops' hins
        injection hj with hj
        have hops : ops' = ops := congrArg Store.runOps hj
        rwa [hops] at hins
    exact .inr ⟨rfl, ops, by simp [tryJournal, hj], hins⟩

/-- The store and the store with the row that is owed: the same, or one row
apart. -/
theorem settle_cases (s : Store) (c : Option OpenCall) :
    s.settle c = s ∧ (∀ run rec phase, c = some (.journal run rec true phase) →
      s.runSourceForgotten run = true) ∨
    ∃ run rec phase, c = some (.journal run rec true phase) ∧ s.runSourceForgotten run = false ∧
      ∃ ops, s.settle c = { s with runOps := ops } ∧
        s.runOps.insert? (s.opRow run rec) = some ops := by
  by_cases howed : ∃ run rec phase, c = some (.journal run rec true phase)
  · obtain ⟨run, rec, phase, rfl⟩ := howed
    rcases s.tryJournal_cases run rec with ⟨hf, hs⟩ | ⟨hf, ops, hs, hins⟩
    · refine .inl ⟨hs, ?_⟩
      rintro run' rec' phase' ⟨⟩
      exact hf
    · exact .inr ⟨run, rec, phase, rfl, hf, ops, hs, hins⟩
  · refine .inl ⟨?_, fun run rec phase hc => absurd ⟨run, rec, phase, hc⟩ howed⟩
    unfold settle
    split
    · exact absurd ⟨_, _, _, rfl⟩ howed
    · rfl

variable {h : Host} {s s' : Store} {c : Option OpenCall}

theorem settle_runs (s : Store) (c : Option OpenCall) :
    (s.settle c).runs = s.runs ∧ (s.settle c).revertHorizon = s.revertHorizon := by
  rcases s.settle_cases c with ⟨hs, -⟩ | ⟨_, _, _, _, _, ops, hs, -⟩
  · rw [hs]
    exact ⟨rfl, rfl⟩
  · rw [hs]
    exact ⟨rfl, rfl⟩

theorem settle_rows (s : Store) (c : Option OpenCall) :
    ∀ o ∈ s.runOps.rows, o ∈ (s.settle c).runOps.rows := by
  intro o ho
  rcases s.settle_cases c with ⟨hs, -⟩ | ⟨_, _, _, _, _, ops, hs, hins⟩
  · rw [hs]
    exact ho
  · rw [hs, (Table.insert?_eq_some.mp hins).2]
    exact List.mem_append_left _ ho

/-- A later run that touched the ops is seen with the owed row too. -/
theorem laterRunTouching_of_settle {run : ℤ} (hl : (s.settle c).laterRunTouching run = none) :
    s.laterRunTouching run = none := by
  rw [laterRunTouching_eq, laterTouching_eq_none] at hl ⊢
  intro o ho hlt ha x hx hm
  refine hl o (s.settle_rows c o ho) hlt ha x hx ?_
  obtain ⟨o', ho', hx'⟩ := List.mem_flatMap.mp hm
  obtain ⟨hrow, hrest⟩ := mem_appliedOps.mp ho'
  exact List.mem_flatMap.mpr ⟨o', mem_appliedOps.mpr ⟨s.settle_rows c o' hrow, hrest⟩, hx'⟩

/-- The transaction of a revert and the row that is owed do not meet. -/
theorem settle_revertUndo {now run : ℤ} {actor : String} {seen : List OpRow}
    {receipt : RevertReceipt} (hok : s.revertUndo h now run actor seen = .ok (s', receipt))
    (hseen : ∀ o ∈ seen, o ∈ s.runOps.rows) :
    (s.settle c).revertUndo h now run actor seen = .ok (s'.settle c, receipt) := by
  have hd := revertUndo_done hok
  rcases s.settle_cases c with ⟨hs, hf⟩ | ⟨k, rec, phase, rfl, hf, ops, hs, hins⟩
  · rw [hs, hok]
    rcases s'.settle_cases c with ⟨hs', -⟩ | ⟨k, rec, phase, hc, hf', -⟩
    · rw [hs']
    · rw [hd.forgotten, hf k rec phase hc] at hf'
      cases hf'
  · obtain ⟨hfree, hrows⟩ := Table.insert?_eq_some.mp hins
    have hkey : (s.opRow k rec).key ∉ seen.map OpRow.key := by
      intro hm
      obtain ⟨o, ho, hk⟩ := List.mem_map.mp hm
      exact Table.get?_eq_none.mp hfree o (hseen o ho) hk
    obtain ⟨ops', hundo, hops'⟩ := revertUndo_owed hok hkey hrows
    rw [hs, hundo]
    rcases s'.settle_cases (some (.journal k rec true phase)) with
      ⟨-, hf'⟩ | ⟨k', rec', phase', heq, -, ops'', hs', hins'⟩
    · have hf' := hf' k rec phase rfl
      rw [hd.forgotten, hf] at hf'
      cases hf'
    · cases heq
      have hrow : s'.opRow k rec = s.opRow k rec := by
        rw [opRow, hd.nextOpIx, opRow]
      have hops : ops' = ops'' := Table.ext (by
        rw [hops', (Table.insert?_eq_some.mp hins').2, hrow])
      rw [hs', hops]

end Store

end PolisMemory
