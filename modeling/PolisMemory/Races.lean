/-
# Reverts in flight

What `revert_run` has checked when its transaction begins may be so no more:
the checks are reads outside the transaction. Where no other process commits
what a revert in flight has read (`Turn.Meets`), every run of the processes is
lawful (`World.Lawful`): a run is reverted once, never under a later run that
touched what it touched, with nothing of it left applied, and the store is
that of the committed calls one after the other.

Two reverts of one run that both pass the checks both go through
(`twoReverts_not_lawful`).

Key definitions: `Turn.Meets`, `World.Lawful`, `World.Inv`.
Key theorems: `World.Inv.turn`, `World.lawful`.
-/
import Mathlib.Data.Fintype.Basic
import PolisMemory.InFlight

namespace PolisMemory

open Tables Store

/-! ### What the schedule keeps apart -/

variable {ι : Type*} [DecidableEq ι]

/-- No other process commits what a revert in flight has read, no revert reads
past a row that is owed, and nothing is written under a run once it is
reverted. -/
def Turn.Meets (h : Host) (writer : ι) (w : World ι) : Turn ι → Prop
  | .revert .. => True
  | .write st => st.OwnOutcome
  | .next i =>
    match w.calls i with
    | none => True
    | some c => c.Sees w.store (w.settled writer) ∧
      (∀ j, j ≠ i → ∀ c' ∈ w.calls j,
        c'.Kept (w.settled writer) ((w.next h i).settled writer)) ∧
      ∀ st ∈ (c.exec h w.store).done, ∀ run ∈ st.writer?, run ∉ w.reverted

/-- Each turn does, in the world it is taken in. -/
def turnsMeet (h : Host) (writer : ι) : List (Turn ι) → World ι → Prop
  | [], _ => True
  | t :: turns, w => t.Meets h writer w ∧ turnsMeet h writer turns (w.turn h writer t)

/-- What must hold of the processes: no run is reverted twice; a revert commits
where no later run touches what its run touched; a reverted run has no op
applied; and the committed calls, one after the other, all go through and give
the store once no call is in flight. -/
structure World.Lawful (h : Host) (s₀ : Store) (w : World ι) : Prop where
  once : w.reverted.Nodup
  apart : ∀ e ∈ w.log, ∀ run, World.revertedBy e.2 = some run → e.1.laterRunTouching run = none
  cleared : ∀ run ∈ w.reverted, w.store.appliedOps run = []
  replayed : (past h w.history s₀).reverted = w.reverted
  serial : (∀ i, w.calls i = none) → (past h w.history s₀).store = w.store

/-! ### The invariant -/

namespace World

/-- What holds of the processes between two statements: the committed calls
lead to the store with the row that is owed, what the calls in flight have read
still holds, and only the writer has a call that is no revert. -/
structure Inv (h : Host) (writer : ι) (s₀ : Store) (w : World ι) : Prop where
  serial : (past h w.history s₀).store = w.settled writer
  replayed : (past h w.history s₀).reverted = w.reverted
  once : w.reverted.Nodup
  apart : ∀ e ∈ w.log, ∀ run, revertedBy e.2 = some run → e.1.laterRunTouching run = none
  cleared : ∀ run ∈ w.reverted, (w.settled writer).appliedOps run = []
  holds : ∀ i, ∀ c ∈ w.calls i, c.Holds w.store (w.settled writer) w.reverted
  reverts : ∀ i, i ≠ writer → ∀ c ∈ w.calls i, c.IsRevert

variable {h : Host} {writer i : ι} {s₀ : Store} {w : World ι} {c : OpenCall}

omit [DecidableEq ι] in
theorem Inv.start (s₀ : Store) : (World.start s₀ : World ι).Inv h writer s₀ where
  serial := rfl
  replayed := rfl
  once := .nil
  apart _ he := absurd he List.not_mem_nil
  cleared _ hrun := absurd hrun List.not_mem_nil
  holds _ c hc := absurd hc (Option.not_mem_none c)
  reverts _ _ c hc := absurd hc (Option.not_mem_none c)

theorem next_eq (hi : w.calls i = some c) : w.next h i =
    ⟨(c.exec h w.store).store, Function.update w.calls i (c.exec h w.store).call,
      w.log ++ ((c.exec h w.store).done.map fun st => (w.store, st)).toList⟩ := by
  simp only [next, hi]

theorem settled_next_self (hi : w.calls writer = some c) : (w.next h writer).settled writer =
    (c.exec h w.store).store.settle (c.exec h w.store).call := by
  rw [settled, next_eq hi]
  simp

theorem settled_next_ne (hi : w.calls i = some c) (hne : i ≠ writer) :
    (w.next h i).settled writer = (c.exec h w.store).store.settle (w.calls writer) := by
  rw [settled, next_eq hi]
  simp [Function.update_of_ne hne.symm]

/-- What the calls have read holds after a statement, if it does of the call
that executed it. -/
theorem Inv.holds_next (hw : w.Inv h writer s₀) (hi : w.calls i = some c)
    (hc : Commits w.store (c.exec h w.store).store (w.settled writer)
      ((w.next h i).settled writer) w.reverted (w.next h i).reverted)
    (hkept : ∀ j, j ≠ i → ∀ c' ∈ w.calls j,
      c'.Kept (w.settled writer) ((w.next h i).settled writer))
    (hin : i ≠ writer → SameInputs w.store (c.exec h w.store).store)
    (hmine : ∀ c' ∈ (c.exec h w.store).call, c'.Holds (c.exec h w.store).store
      ((w.next h i).settled writer) (w.next h i).reverted ∧ (i ≠ writer → c'.IsRevert)) :
    (∀ j, ∀ c' ∈ (w.next h i).calls j, c'.Holds (w.next h i).store
      ((w.next h i).settled writer) (w.next h i).reverted) ∧
    ∀ j, j ≠ writer → ∀ c' ∈ (w.next h i).calls j, c'.IsRevert := by
  have hstore : (w.next h i).store = (c.exec h w.store).store := by rw [next_eq hi]
  have hcalls : (w.next h i).calls = Function.update w.calls i (c.exec h w.store).call := by
    rw [next_eq hi]
  rw [hstore, hcalls]
  constructor
  · intro j c' hc'
    by_cases hj : j = i
    · subst hj
      rw [Function.update_self] at hc'
      exact (hmine c' hc').1
    · rw [Function.update_of_ne hj] at hc'
      refine hc.holds ?_ (hkept j hj c' hc') (hw.holds j c' hc')
      by_cases hiw : i = writer
      · exact .inl (hw.reverts j (hiw ▸ hj) c' hc')
      · exact .inr (hin hiw)
  · intro j hj c' hc'
    by_cases hji : j = i
    · subst hji
      rw [Function.update_self] at hc'
      exact (hmine c' hc').2 hj
    · rw [Function.update_of_ne hji] at hc'
      exact hw.reverts j hj c' hc'

/-- A statement that commits nothing of its own, or the row that was owed. -/
theorem Inv.quiet (hw : w.Inv h writer s₀) (hi : w.calls i = some c)
    (hdone : (c.exec h w.store).done = none)
    (hsettled : (w.next h i).settled writer = w.settled writer)
    (hrows : ∀ o ∈ w.store.runOps.rows, o ∈ (c.exec h w.store).store.runOps.rows)
    (hin : i ≠ writer → SameInputs w.store (c.exec h w.store).store)
    (hmine : ∀ c' ∈ (c.exec h w.store).call, c'.Holds (c.exec h w.store).store
      (w.settled writer) w.reverted ∧ (i ≠ writer → c'.IsRevert)) :
    (w.next h i).Inv h writer s₀ := by
  have hlog : (w.next h i).log = w.log := by
    rw [next_eq hi, hdone]
    exact List.append_nil _
  have hrev : (w.next h i).reverted = w.reverted := by
    rw [reverted, history, hlog, reverted, history]
  have hkept : ∀ (t : Store) (c' : OpenCall), c'.Kept t t := by
    rintro t (⟨_, _, _, _ | _ | _ | _ | _⟩ | _ | _ | _)
    all_goals first | trivial | rfl | exact ⟨rfl, id⟩
  obtain ⟨hholds, hreverts⟩ := hw.holds_next hi
    ⟨fun run hk => by rwa [hsettled, hrev], by rw [hsettled], fun o _ ho => hrows o ho⟩
    (fun j _ c' _ => by rw [hsettled]; exact hkept _ c') hin
    (fun c' hc' => by rw [hsettled, hrev]; exact hmine c' hc')
  refine ⟨?_, ?_, ?_, ?_, ?_, hholds, hreverts⟩
  · rw [history, hlog, hsettled]
    exact hw.serial
  · rw [history, hlog, hrev]
    exact hw.replayed
  · rw [hrev]
    exact hw.once
  · rw [hlog]
    exact hw.apart
  · rw [hrev, hsettled]
    exact hw.cleared

theorem past_snoc (h : Host) (steps : List HistoryStep) (st : HistoryStep) (s : Store) :
    past h (steps ++ [st]) s = (past h steps s).step h st := by
  rw [past, past, List.foldl_append]
  rfl

/-- A statement that commits a call. -/
theorem Inv.commit (hw : w.Inv h writer s₀) (hi : w.calls i = some c) {st : HistoryStep}
    (hdone : (c.exec h w.store).done = some st)
    (hexec : st.exec h (w.settled writer) = (w.next h i).settled writer)
    (hrevert : st.revertedRun? h (w.settled writer) = revertedBy st)
    (honce : ∀ run, revertedBy st = some run →
      run ∉ w.reverted ∧ w.store.laterRunTouching run = none)
    (hcleared : ∀ run ∈ w.reverted ++ (revertedBy st).toList,
      ((w.next h i).settled writer).appliedOps run = [])
    (hc : Commits w.store (c.exec h w.store).store (w.settled writer)
      ((w.next h i).settled writer) w.reverted (w.reverted ++ (revertedBy st).toList))
    (hkept : ∀ j, j ≠ i → ∀ c' ∈ w.calls j,
      c'.Kept (w.settled writer) ((w.next h i).settled writer))
    (hin : i ≠ writer → SameInputs w.store (c.exec h w.store).store)
    (hmine : ∀ c' ∈ (c.exec h w.store).call, c'.Holds (c.exec h w.store).store
      ((w.next h i).settled writer) (w.reverted ++ (revertedBy st).toList) ∧
        (i ≠ writer → c'.IsRevert)) :
    (w.next h i).Inv h writer s₀ := by
  have hlog : (w.next h i).log = w.log ++ [(w.store, st)] := by
    rw [next_eq hi, hdone]
    rfl
  have hhistory : (w.next h i).history = w.history ++ [st] := by
    rw [history, hlog, List.map_append]
    rfl
  have hrev : (w.next h i).reverted = w.reverted ++ (revertedBy st).toList := by
    rw [reverted, hhistory, List.filterMap_append, reverted]
    cases hst : revertedBy st with
    | none => simp [hst]
    | some run => simp [hst]
  rw [← hrev] at hcleared hc hmine
  obtain ⟨hholds, hreverts⟩ := hw.holds_next hi hc hkept hin hmine
  refine ⟨?_, ?_, ?_, ?_, hcleared, hholds, hreverts⟩
  · rw [hhistory, past_snoc, ← hexec, ← hw.serial]
    rfl
  · rw [hhistory, past_snoc, hrev, ← hw.replayed, ← hrevert, ← hw.serial]
    rfl
  · rw [hrev]
    refine List.nodup_append.mpr ⟨hw.once, Option.toList_nodup _, ?_⟩
    rintro run hrun _ hmem rfl
    exact (honce run (Option.mem_toList.mp hmem)).1 hrun
  · rw [hlog]
    intro e he run hrun
    rcases List.mem_append.mp he with he | he
    · exact hw.apart e he run hrun
    · rw [List.mem_singleton.mp he] at hrun ⊢
      exact (honce run hrun).2

/-! ### The statements of a revert -/

theorem settled_next_revert {now run : ℤ} {actor : String} {phase : RevertPhase}
    (hi : w.calls i = some (.revert now run actor phase))
    (he : ∀ c' ∈ (phase.exec h w.store now run actor).call, c'.IsRevert) :
    (w.next h i).settled writer =
      (phase.exec h w.store now run actor).store.settle (w.calls writer) := by
  by_cases hiw : i = writer
  · subst hiw
    rw [settled_next_self hi, hi]
    change Store.settle _ (phase.exec h w.store now run actor).call = _
    cases hcall : (phase.exec h w.store now run actor).call with
    | none => rfl
    | some c' =>
      have hrevert := he c' hcall
      cases c' with
      | revert => rfl
      | write => cases hrevert
      | apply => cases hrevert
      | journal => cases hrevert
  · exact settled_next_ne hi hiw

/-- A read of a revert. -/
theorem Inv.read (hw : w.Inv h writer s₀) {now run : ℤ} {actor : String} {phase : RevertPhase}
    {next : Option OpenCall} (hi : w.calls i = some (.revert now run actor phase))
    (hread : phase.exec h w.store now run actor = ⟨w.store, next, none⟩)
    (hnext : ∀ c' ∈ next, ∃ phase', c' = .revert now run actor phase' ∧
      phase'.Holds w.store (w.settled writer) w.reverted run) : (w.next h i).Inv h writer s₀ := by
  have hexec : (OpenCall.revert now run actor phase).exec h w.store = ⟨w.store, next, none⟩ := hread
  refine hw.quiet hi (by rw [hexec]) ?_ (by rw [hexec]; exact fun o ho => ho)
    (fun _ => by rw [hexec]; exact ⟨rfl, fun _ => rfl, fun _ => rfl⟩) ?_
  · rw [settled_next_revert hi, hread]
    · rfl
    · rw [hread]
      intro c' hc'
      obtain ⟨phase', rfl, -⟩ := hnext c' hc'
      trivial
  · rw [hexec]
    intro c' hc'
    obtain ⟨phase', rfl, hholds⟩ := hnext c' hc'
    exact ⟨hholds, fun _ => trivial⟩

/-- What a revert has checked before its transaction, its reads still holding,
is what `revert_run` checks in one go. -/
theorem revertRefusal_eq_none {s : Store} {reverted : List ℤ} {run : ℤ} (hk : Known s reverted run)
    (hrev : run ∉ reverted) (hpast : s.revertHorizon.any (run ≤ ·) = false)
    (hne : s.appliedOps run ≠ []) (hl : s.laterRunTouching run = none) :
    s.revertRefusal run = none := by
  obtain ⟨r, hr, ho⟩ := hk
  obtain ⟨h1, h2⟩ := ho.resolve_right hrev
  rw [revertRefusal, hr]
  simp only [h1, h2, or_self, if_false, hpast, Bool.false_eq_true, hne, hl, Option.map_none]

/-- A revert leaves no op of its run applied, and applies no other. -/
theorem cleared_revertRun {s s' : Store} {now run : ℤ} {actor : String} {receipt : RevertReceipt}
    (hok : s.revertRun h now run actor = .ok (s', receipt)) {k : ℤ}
    (hk : k = run ∨ s.appliedOps k = []) : s'.appliedOps k = [] := by
  rw [appliedOps_eq_nil, revertRun_rows hok]
  intro o ho hrun
  obtain ⟨r, hr, rfl⟩ := List.mem_map.mp ho
  by_cases hm : r.key ∈ (s.appliedOps run).map OpRow.key
  · rw [if_pos hm]
    exact nofun
  · rw [if_neg hm] at hrun ⊢
    rcases hk with rfl | hk
    · exact fun ha => hm (List.mem_map_of_mem (mem_appliedOps.mpr ⟨hr, hrun, ha⟩))
    · exact appliedOps_eq_nil.mp hk r hr hrun

/-- The transaction of a revert commits. -/
theorem Inv.undo (hw : w.Inv h writer s₀) {now run : ℤ} {actor : String} {seen : List OpRow}
    {s' : Store} {receipt : RevertReceipt}
    (hi : w.calls i = some (.revert now run actor (.undo seen)))
    (hok : w.store.revertUndo h now run actor seen = .ok (s', receipt))
    (hkept : ∀ j, j ≠ i → ∀ c' ∈ w.calls j,
      c'.Kept (w.settled writer) ((w.next h i).settled writer)) :
    (w.next h i).Inv h writer s₀ := by
  obtain ⟨⟨hknown, hpast⟩, hseen, hlater⟩ := hw.holds i _ hi
  have hread : RevertPhase.exec h w.store now run actor (.undo seen) =
      ⟨s', none, some (.revert now run actor)⟩ := by
    simp only [RevertPhase.exec, hok]
  have hexec : (OpenCall.revert now run actor (.undo seen)).exec h w.store =
      ⟨s', none, some (.revert now run actor)⟩ := hread
  have hsettled : (w.next h i).settled writer = s'.settle (w.calls writer) := by
    rw [settled_next_revert hi, hread]
    rw [hread]
    exact fun c' hc' => absurd hc' (Option.not_mem_none c')
  have hnot : run ∉ w.reverted := fun hm => hseen.ne (hseen.applied.symm.trans (hw.cleared run hm))
  have hlater' : (w.settled writer).laterRunTouching run = none := by
    rw [laterRunTouching_eq, hseen.applied]
    exact hlater
  have hundo := settle_revertUndo (c := w.calls writer) hok hseen.rows
  have hrun : (w.settled writer).revertRun h now run actor =
      .ok (s'.settle (w.calls writer), receipt) := by
    have hne : (w.settled writer).appliedOps run ≠ [] := hseen.applied ▸ hseen.ne
    rw [revertRun_eq, revertRefusal_eq_none hknown hnot hpast hne hlater', hseen.applied]
    exact hundo
  have hd := revertUndo_done hok
  have hd' := revertUndo_done hundo
  have hdone : ((OpenCall.revert now run actor (.undo seen)).exec h w.store).done =
      some (.revert now run actor) := by rw [hexec]
  refine hw.commit hi hdone ?_ ?_ ?_ ?_ ?_ hkept ?_ ?_
  · rw [hsettled, HistoryStep.exec, PolisMemory.reverted, hrun]
  · rw [HistoryStep.revertedRun?, hrun]
    rfl
  · rintro k hk
    obtain rfl : run = k := Option.some.inj hk
    exact ⟨hnot, laterRunTouching_of_settle hlater'⟩
  · intro k hk
    rw [hsettled]
    refine cleared_revertRun hrun ?_
    rcases List.mem_append.mp hk with hk | hk
    · exact .inr (hw.cleared k hk)
    · exact .inl (List.mem_singleton.mp hk)
  · rw [hexec, hsettled]
    refine ⟨?_, hd'.horizon, ?_⟩
    · rintro k ⟨r, hr, ho⟩
      obtain ⟨r', hr', hsame⟩ := hd'.runs hr
      refine ⟨r', hr', ?_⟩
      by_cases hk : k = run
      · exact .inr (List.mem_append_right _ (by simp [revertedBy, hk]))
      · rw [hsame hk]
        exact ho.imp id fun hm => List.mem_append_left _ hm
    · -- the row that is owed has a key of its own
      intro o ho ho'
      rcases s'.settle_cases (w.calls writer) with ⟨heq, -⟩ | ⟨k, rec, _, _, _, ops, heq, hins⟩
      · rwa [heq] at ho
      · rw [heq, (Table.insert?_eq_some.mp hins).2] at ho
        refine (List.mem_append.mp ho).resolve_right fun hm => ?_
        have hfree := Table.get?_eq_none.mp (Table.insert?_eq_some.mp hins).1
        rw [← List.mem_singleton.mp hm, hd.rows] at hfree
        refine hfree _ (List.mem_map_of_mem ho') ?_
        split_ifs <;> rfl
  · intro _
    rw [hexec]
    exact hd.sameInputs
  · rw [hexec]
    exact fun c' hc' => absurd hc' (Option.not_mem_none c')

/-- The next statement of a revert. -/
theorem Inv.next_revert (hw : w.Inv h writer s₀) {now run : ℤ} {actor : String} {phase : RevertPhase}
    (hi : w.calls i = some (.revert now run actor phase)) (hm : (Turn.next i).Meets h writer w) :
    (w.next h i).Inv h writer s₀ := by
  have hholds := hw.holds i _ hi
  simp only [Turn.Meets, hi] at hm
  obtain ⟨hsees, hkept, -⟩ := hm
  have hruns : (w.settled writer).runs = w.store.runs := (settle_runs _ _).1
  have hhorizon : (w.settled writer).revertHorizon = w.store.revertHorizon := (settle_runs _ _).2
  have hstop : phase.exec h w.store now run actor = .returned w.store →
      (w.next h i).Inv h writer s₀ := fun hread =>
    hw.read hi hread fun c' hc' => absurd hc' (Option.not_mem_none c')
  cases phase with
  | run =>
    cases hr : w.store.runs.get? run with
    | none => exact hstop (by simp only [RevertPhase.exec, hr])
    | some r =>
      by_cases ho : r.outcome = some .reverted ∨ r.outcome = some .revertedByCanary
      · exact hstop (by simp only [RevertPhase.exec, hr, ho, if_true])
      · have hread : RevertPhase.run.exec h w.store now run actor =
            ⟨w.store, some (.revert now run actor .horizon), none⟩ := by
          simp only [RevertPhase.exec, hr, ho, if_false]
        refine hw.read hi hread ?_
        rintro c' ⟨⟩
        exact ⟨_, rfl, r, by rw [hruns, hr], .inl (not_or.mp ho)⟩
  | horizon =>
    by_cases hp : w.store.revertHorizon.any (run ≤ ·) = true
    · exact hstop (by simp only [RevertPhase.exec, hp, if_true])
    · have hread : RevertPhase.horizon.exec h w.store now run actor =
          ⟨w.store, some (.revert now run actor .ops), none⟩ := by
        simp only [RevertPhase.exec, hp]
        rfl
      refine hw.read hi hread ?_
      rintro c' ⟨⟩
      exact ⟨_, rfl, hholds, by rw [hhorizon]; exact eq_false_of_ne_true hp⟩
  | ops =>
    by_cases hne : w.store.appliedOps run = []
    · exact hstop (by simp only [RevertPhase.exec, hne, if_true])
    · have hread : RevertPhase.ops.exec h w.store now run actor =
          ⟨w.store, some (.revert now run actor (.later (w.store.appliedOps run))), none⟩ := by
        simp only [RevertPhase.exec, hne, if_false]
      refine hw.read hi hread ?_
      rintro c' ⟨⟩
      exact ⟨_, rfl, hholds, hne, hsees.symm, fun o ho => (mem_appliedOps.mp ho).1⟩
  | later seen =>
    cases hl : w.store.laterTouching run seen with
    | some k => exact hstop (by simp only [RevertPhase.exec, hl, Option.isSome_some, if_true])
    | none =>
      have hread : (RevertPhase.later seen).exec h w.store now run actor =
          ⟨w.store, some (.revert now run actor (.undo seen)), none⟩ := by
        simp only [RevertPhase.exec, hl, Option.isSome_none, Bool.false_eq_true, if_false]
      refine hw.read hi hread ?_
      rintro c' ⟨⟩
      exact ⟨_, rfl, hholds.1, hholds.2, hsees hl⟩
  | undo seen =>
    cases hok : w.store.revertUndo h now run actor seen with
    | error reason => exact hstop (by simp only [RevertPhase.exec, hok])
    | ok out => exact hw.undo hi hok hkept

/-! ### The statements of the writer -/

theorem revertedBy_eq_none {st : HistoryStep} (hst : ∀ now run actor, st ≠ .revert now run actor) :
    revertedBy st = none := by
  cases st with
  | revert now run actor => exact absurd rfl (hst now run actor)
  | start => rfl
  | write => rfl
  | journal => rfl
  | finish => rfl

/-- A statement of the writer that commits a call. -/
theorem Inv.write (hw : w.Inv h writer s₀) (hi : w.calls writer = some c)
    (hstore : w.settled writer = w.store) {st : HistoryStep}
    (hdone : (c.exec h w.store).done = some st)
    (hst : ∀ now run actor, st ≠ .revert now run actor) (hown : st.OwnOutcome)
    (hexec : st.exec h w.store = (w.next h writer).settled writer)
    (hrows : ∀ o ∈ w.store.runOps.rows, o ∈ (c.exec h w.store).store.runOps.rows)
    (hm : (Turn.next writer).Meets h writer w)
    (hmine : ∀ c' ∈ (c.exec h w.store).call,
      c'.Holds (c.exec h w.store).store ((w.next h writer).settled writer) w.reverted) :
    (w.next h writer).Inv h writer s₀ := by
  simp only [Turn.Meets, hi] at hm
  obtain ⟨-, hkept, hfree⟩ := hm
  have hnone := revertedBy_eq_none hst
  have hrev : w.reverted ++ (revertedBy st).toList = w.reverted := by
    rw [hnone]
    exact List.append_nil _
  refine hw.commit hi hdone (by rw [hstore]; exact hexec) ?_ ?_ ?_ ?_ hkept
    (fun hne => absurd rfl hne) ?_
  · rw [hnone]
    cases st with
    | revert now run actor => exact absurd rfl (hst now run actor)
    | start => rfl
    | write => rfl
    | journal => rfl
    | finish => rfl
  · rw [hnone]
    exact nofun
  · rw [hrev, ← hexec]
    intro k hk
    obtain ⟨new, hnew, howner⟩ := st.exec_rows h w.store hst
    rw [appliedOps_eq_nil, hnew]
    intro o ho hok
    rcases List.mem_append.mp ho with ho | ho
    · exact appliedOps_eq_nil.mp (hstore ▸ hw.cleared k hk) o ho hok
    · exact absurd (hok ▸ hk) (hfree st hdone o.runId (howner o ho))
  · rw [hrev, ← hexec, hstore]
    exact ⟨fun run hk => st.exec_known h w.store hst hown w.reverted run hk,
      st.exec_horizon h w.store hst, fun o _ ho => hrows o ho⟩
  · rw [hrev]
    exact fun c' hc' => ⟨hmine c' hc', fun hne => absurd rfl hne⟩

/-- A statement of the writer that returns or reads, and owes what it owed. -/
theorem Inv.pass (hw : w.Inv h writer s₀) (hi : w.calls writer = some c) {s' : Store}
    {next : Option OpenCall} (hexec : c.exec h w.store = ⟨s', next, none⟩)
    (hsettled : s'.settle next = w.settled writer)
    (hrows : ∀ o ∈ w.store.runOps.rows, o ∈ s'.runOps.rows)
    (hnext : ∀ c' ∈ next, c'.Holds s' (w.settled writer) w.reverted) :
    (w.next h writer).Inv h writer s₀ := by
  refine hw.quiet hi (by rw [hexec]) ?_ (by rw [hexec]; exact hrows) (fun hne => absurd rfl hne) ?_
  · rw [settled_next_self hi, hexec]
    exact hsettled
  · rw [hexec]
    exact fun c' hc' => ⟨hnext c' hc', fun hne => absurd rfl hne⟩

/-- A statement of an apply. -/
theorem Inv.next_apply (hw : w.Inv h writer s₀) {now run : ℤ} {actor : String} {p : ProposalRow}
    (hi : w.calls writer = some (.apply now run actor p))
    (hm : (Turn.next writer).Meets h writer w) : (w.next h writer).Inv h writer s₀ := by
  have hp : w.store.proposals.get? p.id = some p := hw.holds writer _ hi
  have hstore : w.settled writer = w.store := by rw [settled, hi]; rfl
  cases happly : w.store.applyProposal h now run false actor p with
  | error e =>
    have hexec : (OpenCall.apply now run actor p).exec h w.store = .returned w.store := by
      simp only [OpenCall.exec, hp, happly]
    exact hw.pass hi hexec hstore.symm (fun o ho => ho)
      fun c' hc' => absurd hc' (Option.not_mem_none c')
  | ok out =>
    have hexec : (OpenCall.apply now run actor p).exec h w.store =
        ⟨out.1, none, some (.write run (.apply now p.id actor))⟩ := by
      simp only [OpenCall.exec, hp, happly]
    have hstep : (HistoryStep.write run (.apply now p.id actor)).exec h w.store = out.1 := by
      simp only [HistoryStep.exec, RunWrite.exec, applyClassProposalInRun, hp, Option.some_or, happly]
    obtain ⟨new, hnew, -⟩ := (HistoryStep.write run (.apply now p.id actor)).exec_rows h w.store
      nofun
    have hdone : ((OpenCall.apply now run actor p).exec h w.store).done =
        some (.write run (.apply now p.id actor)) := by rw [hexec]
    refine hw.write hi hstore hdone nofun trivial ?_ ?_ hm ?_
    · rw [settled_next_self hi, hexec, hstep]
      rfl
    · rw [hexec, ← hstep, hnew]
      exact fun o ho => List.mem_append_left _ ho
    · rw [hexec]
      exact fun c' hc' => absurd hc' (Option.not_mem_none c')

/-- A statement of a `journal_op`, whether it is owed or not. -/
theorem Inv.next_journal (hw : w.Inv h writer s₀) {run : ℤ} {rec : OpRecord} {owed : Bool}
    {phase : JournalPhase} (hi : w.calls writer = some (.journal run rec owed phase))
    (hm : (Turn.next writer).Meets h writer w) : (w.next h writer).Inv h writer s₀ := by
  have hholds := hw.holds writer _ hi
  have hsettled : ∀ phase', w.store.settle (some (.journal run rec owed phase')) =
      w.settled writer := by
    intro phase'
    rw [settled, hi]
    cases owed <;> rfl
  cases phase with
  | forgotten =>
    cases hf : w.store.runSourceForgotten run with
    | true =>
      have hexec : (OpenCall.journal run rec owed .forgotten).exec h w.store = .returned w.store := by
        simp only [OpenCall.exec, JournalPhase.exec, hf, if_true]
      refine hw.pass hi hexec ?_ (fun o ho => ho) fun c' hc' => absurd hc' (Option.not_mem_none c')
      rw [← hsettled .forgotten]
      cases owed with
      | false => rfl
      | true =>
        change w.store = w.store.tryJournal run rec
        rw [tryJournal, journalOp, if_pos hf]
    | false =>
      have hexec : (OpenCall.journal run rec owed .forgotten).exec h w.store =
          ⟨w.store, some (.journal run rec owed .opIx), none⟩ := by
        simp only [OpenCall.exec, JournalPhase.exec, hf, Bool.false_eq_true, if_false]
      refine hw.pass hi hexec (hsettled _) (fun o ho => ho) ?_
      rintro c' ⟨⟩
      exact hf
  | opIx =>
    have hexec : (OpenCall.journal run rec owed .opIx).exec h w.store =
        ⟨w.store, some (.journal run rec owed (.insert (w.store.nextOpIx run))), none⟩ := rfl
    refine hw.pass hi hexec (hsettled _) (fun o ho => ho) ?_
    rintro c' ⟨⟩
    exact ⟨hholds, rfl⟩
  | insert ix =>
    obtain ⟨hf, rfl⟩ := hholds
    obtain ⟨ops, hj, hrows⟩ := journalOp_eq w.store run rec hf
    have htry : w.store.tryJournal run rec = { w.store with runOps := ops } := by
      rw [tryJournal, hj]
    have hins : w.store.runOps.insert? { w.store.opRow run rec with opIx := w.store.nextOpIx run } =
        some ops := by
      refine Table.insert?_eq_some.mpr ⟨?_, hrows⟩
      rw [Table.get?_eq_none]
      intro o ho hk
      exact (lt_nextOpIx ho (congrArg Prod.fst hk)).ne (congrArg Prod.snd hk)
    have hmem : ∀ o ∈ w.store.runOps.rows, o ∈ ops.rows := fun o ho => by
      rw [hrows]
      exact List.mem_append_left _ ho
    have hexec : (OpenCall.journal run rec owed (.insert (w.store.nextOpIx run))).exec h w.store =
        ⟨{ w.store with runOps := ops }, none, if owed then none else some (.journal run rec)⟩ := by
      simp only [OpenCall.exec, JournalPhase.exec, hins]
    cases owed with
    | true =>
      refine hw.pass hi hexec ?_ hmem fun c' hc' => absurd hc' (Option.not_mem_none c')
      rw [← hsettled .forgotten]
      exact htry.symm
    | false =>
      have hdone : ((OpenCall.journal run rec false (.insert (w.store.nextOpIx run))).exec h
          w.store).done = some (.journal run rec) := by
        rw [hexec]
        rfl
      refine hw.write hi (hsettled .forgotten).symm hdone (fun _ _ _ h => by cases h) trivial ?_
        (by rw [hexec]; exact hmem) hm ?_
      · rw [settled_next_self hi, hexec]
        exact htry
      · rw [hexec]
        exact fun c' hc' => absurd hc' (Option.not_mem_none c')

/-- A compaction commits, and owes its row. -/
theorem Inv.next_compact (hw : w.Inv h writer s₀) {now run prompt : ℤ}
    {gist gistSource actor : String}
    (hi : w.calls writer = some (.write (.write run (.compact now prompt gist gistSource actor))))
    (hm : (Turn.next writer).Meets h writer w) : (w.next h writer).Inv h writer s₀ := by
  have hstore : w.settled writer = w.store := by rw [settled, hi]; rfl
  cases hc : w.store.compactPromptBody h now prompt gist "cold" gistSource actor true with
  | error e =>
    have hexec : (OpenCall.write (.write run (.compact now prompt gist gistSource actor))).exec h
        w.store = .returned w.store := by
      simp only [OpenCall.exec, hc]
    exact hw.pass hi hexec hstore.symm (fun o ho => ho)
      fun c' hc' => absurd hc' (Option.not_mem_none c')
  | ok out =>
    obtain ⟨s', seq⟩ := out
    have hbooks := (compactPromptBody_cold hc).1
    cases seq with
    | none =>
      have hsame : s' = w.store := by
        unfold compactPromptBody at hc
        split at hc
        · cases hc
          rfl
        · rw [if_neg (by decide)] at hc
          cases hc
      have hexec : (OpenCall.write (.write run (.compact now prompt gist gistSource actor))).exec h
          w.store = .returned w.store := by
        simp only [OpenCall.exec, hc, hsame]
      exact hw.pass hi hexec hstore.symm (fun o ho => ho)
        fun c' hc' => absurd hc' (Option.not_mem_none c')
    | some seq =>
      have hexec : (OpenCall.write (.write run (.compact now prompt gist gistSource actor))).exec h
          w.store = ⟨s', some (.journal run (.applied [.prompt prompt] (.compact prompt seq) (some seq))
            true .forgotten), some (.write run (.compact now prompt gist gistSource actor))⟩ := by
        simp only [OpenCall.exec, hc]
      have hstep : (HistoryStep.write run (.compact now prompt gist gistSource actor)).exec h
          w.store = s'.tryJournal run (.applied [.prompt prompt] (.compact prompt seq) (some seq)) := by
        have hrun : w.store.compactPromptBodyInRun h now run prompt gist "cold" gistSource actor
            true = .ok (s'.tryJournal run (.applied [.prompt prompt] (.compact prompt seq) (some seq)),
              some seq) := by
          unfold Store.compactPromptBodyInRun
          rw [hc]
          change (s'.journalOp run _ >>= _) = _
          rw [journalOp_eq_tryJournal]
          rfl
        simp only [HistoryStep.exec, RunWrite.exec, hrun, committed]
      have hdone : ((OpenCall.write (.write run (.compact now prompt gist gistSource actor))).exec h
          w.store).done = some (.write run (.compact now prompt gist gistSource actor)) := by
        rw [hexec]
      refine hw.write hi hstore hdone nofun trivial ?_ ?_ hm ?_
      · rw [settled_next_self hi, hexec, hstep]
        rfl
      · rw [hexec, hbooks.runOps]
        exact fun o ho => ho
      · rw [hexec]
        rintro c' ⟨⟩
        trivial

/-- The next statement of a call of the writer. -/
theorem Inv.next_write (hw : w.Inv h writer s₀) {st : HistoryStep}
    (hi : w.calls writer = some (.write st)) (hm : (Turn.next writer).Meets h writer w) :
    (w.next h writer).Inv h writer s₀ := by
  have hstore : w.settled writer = w.store := by rw [settled, hi]; rfl
  obtain ⟨hown, hst⟩ := hw.holds writer _ hi
  have hwhole : (OpenCall.write st).exec h w.store = ⟨st.exec h w.store, none, some st⟩ →
      (w.next h writer).Inv h writer s₀ := by
    intro hexec
    obtain ⟨new, hnew, -⟩ := st.exec_rows h w.store hst
    refine hw.write hi hstore (by rw [hexec]) hst hown ?_ ?_ hm ?_
    · rw [settled_next_self hi, hexec]
      rfl
    · rw [hexec, hnew]
      exact fun o ho => List.mem_append_left _ ho
    · rw [hexec]
      exact fun c' hc' => absurd hc' (Option.not_mem_none c')
  cases st with
  | start now mode seqFrom seqTo => exact hwhole rfl
  | journal run rec => exact hwhole rfl
  | finish run f => exact hwhole rfl
  | revert now run actor => exact absurd rfl (hst now run actor)
  | write run rw =>
    cases rw with
    | stage now p => exact hwhole rfl
    | observe now node summary citeSeqs actor => exact hwhole rfl
    | compact now prompt gist gistSource actor => exact hw.next_compact hi hm
    | apply now id actor =>
      cases hp : w.store.proposals.get? id with
      | none =>
        have hexec : (OpenCall.write (.write run (.apply now id actor))).exec h w.store =
            .returned w.store := by
          simp only [OpenCall.exec, hp]
        exact hw.pass hi hexec hstore.symm (fun o ho => ho)
          fun c' hc' => absurd hc' (Option.not_mem_none c')
      | some p =>
        have hexec : (OpenCall.write (.write run (.apply now id actor))).exec h w.store =
            ⟨w.store, some (.apply now run actor p), none⟩ := by
          simp only [OpenCall.exec, hp]
        refine hw.pass hi hexec hstore.symm (fun o ho => ho) ?_
        rintro c' ⟨⟩
        change w.store.proposals.get? p.id = some p
        rw [Table.key_of_get? hp, hp]

/-! ### Every run of the processes -/

/-- A process that makes a call has read nothing yet. -/
theorem Inv.call (hw : w.Inv h writer s₀) {st : HistoryStep} (hown : st.OwnOutcome)
    (hmay : i = writer ∨ st.begin.IsRevert) : (w.call i st).Inv h writer s₀ := by
  cases hi : w.calls i with
  | some c =>
    have hsame : w.call i st = w := by simp only [World.call, hi]
    rw [hsame]
    exact hw
  | none =>
    have hcall : w.call i st = { w with calls := Function.update w.calls i (some st.begin) } := by
      simp only [World.call, hi]
    have hbegin : ∀ s : Store, s.settle (some st.begin) = s := by
      intro s
      cases st <;> rfl
    have hsettled : (w.call i st).settled writer = w.settled writer := by
      rw [hcall, settled, settled]
      by_cases hiw : writer = i
      · subst hiw
        simp only [Function.update_self, hbegin, hi]
        rfl
      · simp only [Function.update_of_ne hiw]
    have hholds : st.begin.Holds w.store (w.settled writer) w.reverted := by
      cases st with
      | start now mode seqFrom seqTo => exact ⟨trivial, nofun⟩
      | write run rw => exact ⟨trivial, nofun⟩
      | journal run rec => trivial
      | finish run f => exact ⟨hown, nofun⟩
      | revert now run actor => trivial
    have hhistory : (w.call i st).history = w.history := by rw [hcall]; rfl
    have hrev : (w.call i st).reverted = w.reverted := by rw [hcall]; rfl
    refine ⟨?_, ?_, ?_, ?_, ?_, ?_, ?_⟩
    · rw [hsettled, hhistory]
      exact hw.serial
    · rw [hrev, hhistory]
      exact hw.replayed
    · rw [hrev]
      exact hw.once
    · rw [hcall]
      exact hw.apart
    · rw [hrev, hsettled]
      exact hw.cleared
    · rw [hsettled, hrev, hcall]
      intro j c hc
      by_cases hj : j = i
      · subst hj
        obtain rfl : st.begin = c := by simpa using hc
        exact hholds
      · exact hw.holds j c (by simpa [Function.update_of_ne hj] using hc)
    · rw [hcall]
      intro j hj c hc
      by_cases hji : j = i
      · subst hji
        obtain rfl : st.begin = c := by simpa using hc
        exact hmay.resolve_left hj
      · exact hw.reverts j hj c (by simpa [Function.update_of_ne hji] using hc)

/-- **One turn** of the processes keeps the invariant. -/
theorem Inv.turn (hw : w.Inv h writer s₀) {t : Turn ι} (hm : t.Meets h writer w) :
    (w.turn h writer t).Inv h writer s₀ := by
  cases t with
  | revert i now run actor => exact hw.call trivial (.inr trivial)
  | write st => exact hw.call hm (.inl rfl)
  | next i =>
    change (w.next h i).Inv h writer s₀
    cases hi : w.calls i with
    | none =>
      have hsame : w.next h i = w := by simp only [World.next, hi]
      rw [hsame]
      exact hw
    | some c =>
      by_cases hiw : i = writer
      · subst hiw
        cases c with
        | revert now run actor phase => exact hw.next_revert hi hm
        | write st => exact hw.next_write hi hm
        | apply now run actor p => exact hw.next_apply hi hm
        | journal run rec owed phase => exact hw.next_journal hi hm
      · have hrevert := hw.reverts i hiw c hi
        cases c with
        | revert now run actor phase => exact hw.next_revert hi hm
        | write st => cases hrevert
        | apply now run actor p => cases hrevert
        | journal run rec owed phase => cases hrevert

theorem Inv.run : ∀ {turns : List (Turn ι)} {w : World ι}, w.Inv h writer s₀ →
    turnsMeet h writer turns w → (w.run h writer turns).Inv h writer s₀
  | [], _, hw, _ => hw
  | _ :: _, _, hw, hm => (hw.turn hm.1).run hm.2

/-- **Every run of the processes is lawful** in each world it reaches, if no
process commits what a revert in flight of another has read. -/
theorem lawful {turns : List (Turn ι)} (hm : turnsMeet h writer turns (World.start s₀)) :
    ((World.start s₀).run h writer turns).Lawful h s₀ := by
  have hw := (Inv.start s₀).run hm
  refine ⟨hw.once, hw.apart, fun run hrun => ?_, hw.replayed, fun hidle => ?_⟩
  · rw [appliedOps_eq_nil]
    exact fun o ho => appliedOps_eq_nil.mp (hw.cleared run hrun) o (settle_rows _ _ o ho)
  · rw [hw.serial, settled, hidle]
    rfl

end World

/-! ### Two reverts of one run -/

instance (s t : Store) (c : OpenCall) : Decidable (c.Sees s t) := by
  unfold OpenCall.Sees
  split <;> infer_instance

instance (s t : Store) (c : OpenCall) : Decidable (c.Kept s t) := by
  unfold OpenCall.Kept
  split <;> infer_instance

instance (st : HistoryStep) : Decidable st.OwnOutcome := by
  unfold HistoryStep.OwnOutcome
  split <;> infer_instance

instance [Fintype ι] (h : Host) (writer : ι) (w : World ι) (t : Turn ι) :
    Decidable (t.Meets h writer w) := by
  unfold Turn.Meets
  split
  · infer_instance
  · infer_instance
  · split <;> infer_instance

instance turnsMeet.decidable [Fintype ι] (h : Host) (writer : ι) :
    ∀ (turns : List (Turn ι)) (w : World ι), Decidable (turnsMeet h writer turns w)
  | [], _ => .isTrue trivial
  | t :: turns, w =>
    haveI := turnsMeet.decidable h writer turns (w.turn h writer t)
    inferInstanceAs (Decidable (_ ∧ _))

/-- A class promoted under another by a run that is done. -/
def onePromote : Store :=
  (past Host.plain (oneProposal 1 (.promote "c" (some "x") none)) fourClasses).store

/-- The second process reverts the run while the first promotes another class
in a run of its own. -/
def revertWhilePromote : List (Turn (Fin 2)) :=
  [.write (.start 2 .organize none none), .next 0, .revert 1 9 1 "user", .next 1, .next 1,
    .write (.write 2 (.stage 2 (.promote "y" (some "t") none))), .next 0, .next 1, .next 1,
    .write (.write 2 (.apply 3 2 classifierActor)), .next 0, .next 1, .next 0]

theorem lawful_revertWhilePromote :
    (World.run Host.plain 0 revertWhilePromote (World.start onePromote)).Lawful Host.plain onePromote :=
  World.lawful (by decide +kernel)

/-- Both processes pass the checks of one revert before either commits it. -/
def twoReverts : List (Turn (Fin 2)) :=
  [.revert 0 9 1 "user", .revert 1 9 1 "cli", .next 0, .next 0, .next 0, .next 0, .next 1, .next 1,
    .next 1, .next 1, .next 0, .next 1]

/-- **Both go through**: the outcome of the run is read before the transaction,
and nothing in the transaction asks for it again. -/
theorem twoReverts_not_lawful :
    (World.run Host.plain 0 twoReverts (World.start onePromote)).reverted = [1, 1] ∧
    ¬(World.run Host.plain 0 twoReverts (World.start onePromote)).Lawful Host.plain onePromote := by
  have htwice : (World.run Host.plain 0 twoReverts (World.start onePromote)).reverted = [1, 1] := by
    decide +kernel
  refine ⟨htwice, fun hl => ?_⟩
  have honce := hl.once
  rw [htwice] at honce
  exact absurd honce (by decide)

end PolisMemory
