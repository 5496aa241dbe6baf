/-
# Histories of runs and reverts

A history is runs that start, write and finish, in any interleaving, and
reverts in any order. Beside the store it says which run wrote which cell of
the catalog and which runs were reverted (`Past`).

`revert_run` looks for later work by the subjects of the ops, and the subjects
of an op are not all it writes: a merge that re-parents a child does not name
it. So a revert that is let through keeps every cell that a later run wrote
only where no image of the later runs names a cell its own images name
(`UndoesApart`).

Key definitions: `HistoryStep`, `Past`, `UndoesApart`.
Key theorems: `revertRun_keeps_later`.
-/
import PolisMemory.Frame

namespace PolisMemory

open Tables Store

/-! ### Histories -/

inductive HistoryStep
  | start (now : ℤ) (mode : RunMode) (seqFrom seqTo : Option ℤ)
  | write (run : ℤ) (w : RunWrite)
  | journal (run : ℤ) (rec : OpRecord)
  | finish (run : ℤ) (f : ClassRunFinish)
  | revert (now run : ℤ) (actor : String)

/-- The store after a revert; one that is refused changes nothing. -/
def reverted (h : Host) (s : Store) (now run : ℤ) (actor : String) : Store :=
  match s.revertRun h now run actor with
  | .ok (s', _) => s'
  | .error _ => s

/-- The store after one step. -/
def HistoryStep.exec (h : Host) (s : Store) : HistoryStep → Store
  | .start now mode seqFrom seqTo => (s.insertClassRunWith now mode seqFrom seqTo).1
  | .write run w => w.exec h run s
  | .journal run rec => s.tryJournal run rec
  | .finish run f => s.finishClassRunWith run f
  | .revert now run actor => reverted h s now run actor

/-- What a step reverts, if it is a revert that goes through. -/
def HistoryStep.revertedRun? (h : Host) (s : Store) : HistoryStep → Option ℤ
  | .revert now run actor => (s.revertRun h now run actor).toOption.map fun _ => run
  | _ => none

/-- The run a step writes under. -/
def HistoryStep.writer? : HistoryStep → Option ℤ
  | .write run _ => some run
  | .journal run _ => some run
  | _ => none

/-- A history so far: the store, the cells each run wrote, and the runs that
were reverted. -/
structure Past where
  store : Store
  wrote : ℤ → Cell → Prop
  reverted : List ℤ

def Past.start (s : Store) : Past := ⟨s, fun _ _ => False, []⟩

def Past.step (h : Host) (p : Past) (st : HistoryStep) : Past where
  store := st.exec h p.store
  wrote run c := p.wrote run c ∨ st.writer? = some run ∧ ¬SameCell p.store (st.exec h p.store) c
  reverted := p.reverted ++ (st.revertedRun? h p.store).toList

/-- A history from a store. -/
def past (h : Host) (steps : List HistoryStep) (s : Store) : Past :=
  steps.foldl (Past.step h) (Past.start s)

/-- What each step keeps, a history keeps. -/
theorem past_ind {h : Host} {P : Past → Prop} (hstep : ∀ p st, P p → P (p.step h st)) {s : Store}
    (hs : P (Past.start s)) (steps : List HistoryStep) : P (past h steps s) := by
  suffices hfold : ∀ (steps : List HistoryStep) (p : Past), P p → P (steps.foldl (Past.step h) p) from
    hfold steps _ hs
  intro steps
  induction steps with
  | nil => exact fun p hp => hp
  | cons st steps ih => exact fun p hp => ih _ (hstep p st hp)

/-! ### The journal of a history -/

theorem tryJournal_rows (s : Store) (run : ℤ) (rec : OpRecord) :
    ∃ new, (s.tryJournal run rec).runOps.rows = s.runOps.rows ++ new ∧ ∀ o ∈ new, o.runId = run := by
  unfold tryJournal
  split
  · rename_i s' hj
    cases hf : s.runSourceForgotten run with
    | true =>
      rw [journalOp, if_pos hf] at hj
      cases hj
      exact ⟨[], (List.append_nil _).symm, by simp⟩
    | false =>
      obtain ⟨ops, hops, hrows⟩ := journalOp_eq s run rec hf
      rw [hops] at hj
      cases hj
      exact ⟨_, hrows, by simp [opRow]⟩
  · exact ⟨[], (List.append_nil _).symm, by simp⟩

theorem sameCatalog_tryJournal (s : Store) (run : ℤ) (rec : OpRecord) :
    SameCatalog s (s.tryJournal run rec) := by
  unfold tryJournal
  split
  · rename_i s' hj
    obtain ⟨ops, rfl, -⟩ := journalOp_ok hj
    exact ⟨rfl, rfl, rfl, rfl⟩
  · exact .refl s

/-- A revert that goes through marks the run's applied ops, and no others. -/
theorem revertRun_rows {h : Host} {s s' : Store} {now run : ℤ} {actor : String}
    {receipt : RevertReceipt} (hok : s.revertRun h now run actor = .ok (s', receipt)) :
    s'.runOps.rows = s.runOps.rows.map fun r =>
      if r.key ∈ (s.appliedOps run).map OpRow.key then r.reverted s.runs.nextId else r := by
  obtain ⟨-, t₁, hundo, rfl, -⟩ := revertRun_eq_ok.mp hok
  obtain ⟨-, -, hrows⟩ := undoOps_books hundo
  change t₁.runOps.rows = _
  rw [hrows]
  simp only [List.map_reverse, List.mem_reverse]
  rfl

theorem mem_appliedOps {s : Store} {run : ℤ} {o : OpRow} :
    o ∈ s.appliedOps run ↔ o ∈ s.runOps.rows ∧ o.runId = run ∧ o.outcome = .applied := by
  simp only [appliedOps, listRunOps, List.mem_filter, List.mem_insertionSort, Table.select,
    decide_eq_true_eq, and_assoc]

/-- An op of another run stays as it is. -/
theorem mem_rows_of_revertRun {h : Host} {s s' : Store} {now run : ℤ} {actor : String}
    {receipt : RevertReceipt} (hok : s.revertRun h now run actor = .ok (s', receipt)) {o : OpRow}
    (ho : o ∈ s.runOps.rows) (hrun : o.runId ≠ run) : o ∈ s'.runOps.rows := by
  rw [revertRun_rows hok]
  refine List.mem_map.mpr ⟨o, ho, if_neg fun hm => hrun ?_⟩
  obtain ⟨o', ho', hkey⟩ := List.mem_map.mp hm
  rw [← (mem_appliedOps.mp ho').2.1]
  exact congrArg Prod.fst hkey.symm

/-- What a run wrote and was not reverted is named by an applied op of its
journal. -/
def Past.Traced (p : Past) : Prop :=
  ∀ r c, p.wrote r c → r ∉ p.reverted →
    ∃ o ∈ p.store.runOps.rows, o.runId = r ∧ o.outcome = .applied ∧ c ∈ o.writes

theorem Past.Traced.step {h : Host} {p : Past} (hp : p.Traced) (st : HistoryStep) :
    (p.step h st).Traced := by
  intro r c hw hr
  have hold : p.wrote r c → ∃ o ∈ p.store.runOps.rows, o.runId = r ∧ o.outcome = .applied ∧
      c ∈ o.writes := fun hw => hp r c hw fun hm => hr (List.mem_append_left _ hm)
  cases st with
  | start now mode seqFrom seqTo =>
    rcases hw with hw | ⟨hw, -⟩
    · exact hold hw
    · cases hw
  | finish run f =>
    rcases hw with hw | ⟨hw, -⟩
    · exact hold hw
    · cases hw
  | write run w =>
    obtain ⟨new, hnew⟩ := w.exec_journaled h run p.store
    change ∃ o ∈ (w.exec h run p.store).runOps.rows, _
    rw [hnew.rows]
    rcases hw with hw | ⟨hrun, hchanged⟩
    · obtain ⟨o, ho, hrest⟩ := hold hw
      exact ⟨o, List.mem_append_left _ ho, hrest⟩
    · obtain rfl : run = r := Option.some.inj hrun
      have hm : c ∈ new.flatMap OpRow.writes := by
        by_contra hc
        exact hchanged (hnew.within c hc)
      obtain ⟨o, ho, hc⟩ := List.mem_flatMap.mp hm
      exact ⟨o, List.mem_append_right _ ho, (hnew.own o ho).1, (hnew.own o ho).2, hc⟩
  | journal run rec =>
    change ∃ o ∈ (p.store.tryJournal run rec).runOps.rows, _
    obtain ⟨new, hrows, -⟩ := tryJournal_rows p.store run rec
    rcases hw with hw | ⟨-, hchanged⟩
    · obtain ⟨o, ho, hrest⟩ := hold hw
      refine ⟨o, ?_, hrest⟩
      rw [hrows]
      exact List.mem_append_left _ ho
    · exact absurd ((sameCatalog_tryJournal p.store run rec).within _ c List.not_mem_nil) hchanged
  | revert now run actor =>
    rcases hw with hw | ⟨hw, -⟩
    swap
    · cases hw
    obtain ⟨o, ho, hor, hoa, hc⟩ := hold hw
    change ∃ o ∈ (PolisMemory.reverted h p.store now run actor).runOps.rows, _
    unfold PolisMemory.reverted
    split
    · rename_i s' receipt hok
      refine ⟨o, mem_rows_of_revertRun hok ho fun heq => hr ?_, hor, hoa, hc⟩
      refine List.mem_append_right _ ?_
      simp only [HistoryStep.revertedRun?, hok, Except.toOption, Option.map_some,
        Option.toList_some, List.mem_singleton]
      exact hor.symm.trans heq
    · exact ⟨o, ho, hor, hoa, hc⟩

/-! ### Later work -/

/-- The cells that undoing a journaled op writes. -/
def OpRow.undoes (o : OpRow) : List Cell := o.preImage.elim [] Image.undoes

/-- No cell that undoing the run writes is named by the image of an applied op
of a later run. -/
def Store.UndoesApart (s : Store) (run : ℤ) : Prop :=
  ∀ o ∈ s.appliedOps run, ∀ o' ∈ s.runOps.rows, run < o'.runId → o'.outcome = .applied →
    ∀ c ∈ o.undoes, c ∉ o'.writes

instance (s : Store) (run : ℤ) : Decidable (s.UndoesApart run) := by
  unfold Store.UndoesApart
  infer_instance

/-- A revert that goes through changes no cell but those the images of the run
name. -/
theorem within_revertRun {h : Host} {s s' : Store} {now run : ℤ} {actor : String}
    {receipt : RevertReceipt} (hok : s.revertRun h now run actor = .ok (s', receipt)) :
    Within ((s.appliedOps run).flatMap OpRow.undoes) s s' := by
  obtain ⟨-, t₁, hundo, rfl, -⟩ := revertRun_eq_ok.mp hok
  have hstart : Within ((s.appliedOps run).flatMap OpRow.undoes) s
      (s.insertClassRunWith now .revert none none).1 :=
    (⟨rfl, rfl, rfl, rfl⟩ : SameCatalog s _).within _
  have hend : ∀ a ops, Within ((s.appliedOps run).flatMap OpRow.undoes) t₁
      ((t₁.append h a).settleRevert run s.runs.nextId ops) := fun a ops =>
    (⟨rfl, rfl, rfl, rfl⟩ : SameCatalog t₁ _).within _
  refine hstart.trans ((within_undoOps (fun o ho image himage c hc => ?_) hundo).trans (hend _ _))
  have ho' := List.mem_reverse.mp ho
  have hrow := Table.mem_rows.mp (mem_appliedOps.mp ho').1
  change (s.runOps.get? o.key).bind OpRow.preImage = some image at himage
  rw [hrow, Option.bind_some] at himage
  refine List.mem_flatMap.mpr ⟨o, ho', ?_⟩
  rw [OpRow.undoes, himage]
  exact hc

/-- **A revert keeps later work**: after any history, a revert of a run that
goes through leaves every cell that a later run wrote and that was not itself
reverted, if the images of the later runs name none of the cells it undoes. -/
theorem revertRun_keeps_later {h : Host} {s₀ s' : Store} {steps : List HistoryStep} {now run : ℤ}
    {actor : String} {receipt : RevertReceipt}
    (hapart : (past h steps s₀).store.UndoesApart run)
    (hok : (past h steps s₀).store.revertRun h now run actor = .ok (s', receipt)) :
    ∀ r c, run < r → (past h steps s₀).wrote r c → r ∉ (past h steps s₀).reverted →
      SameCell (past h steps s₀).store s' c := by
  have htraced : (past h steps s₀).Traced :=
    past_ind (fun p st hp => hp.step st) (fun _ _ hw => hw.elim) steps
  intro r c hlt hw hr
  obtain ⟨o', ho', hor, hoa, hc'⟩ := htraced r c hw hr
  refine within_revertRun hok c fun hm => ?_
  obtain ⟨o, ho, hc⟩ := List.mem_flatMap.mp hm
  exact hapart o ho o' ho' (hor ▸ hlt) hoa c hc hc'

/-! ### A merge of the new parent -/

instance (a b : NodeRow) (f : NodeField) : Decidable (f.Same a b) := by
  cases f <;> exact inferInstanceAs (Decidable (_ = _))

instance (s s' : Store) (c : Cell) : Decidable (SameCell s s' c) :=
  match c with
  | .node id f =>
    match hx : s.nodes.get? id, hy : s'.nodes.get? id with
    | none, none => .isTrue (by simp only [SameCell, hx, hy]; exact .none)
    | some a, some b => decidable_of_iff (f.Same a b) (by simp only [SameCell, hx, hy, Option.rel_some_some])
    | none, some b => .isFalse (by simp only [SameCell, hx, hy]; nofun)
    | some a, none => .isFalse (by simp only [SameCell, hx, hy]; nofun)
  | .link id => inferInstanceAs (Decidable (s'.links.get? id = s.links.get? id))
  | .observation id => inferInstanceAs (Decidable (s'.observations.get? id = s.observations.get? id))

/-- A root with three classes of one title, and a fourth class. -/
def fourClasses : Store :=
  { Store.empty with
    nodes := ⟨[classRow none "repo" "r", classRow (some "r") "auth" "t", classRow (some "r") "Auth" "x",
      classRow (some "r") "AUTH" "y", classRow (some "r") "login" "c"], by decide⟩ }

/-- A run that stages one proposal, applies it and is done. -/
def oneProposal (run : ℤ) (p : Proposal) : List HistoryStep :=
  [.start 1 .organize none none, .write run (.stage 2 p), .write run (.apply 3 run classifierActor),
    .finish run ⟨.done, "", some 1, some .done, none, none⟩]

/-- A class promoted under another by the first run, then two classes merged
by the second. -/
def promoteThenMerge (nodeIds : List String) : Past :=
  past Host.plain (oneProposal 1 (.promote "c" (some "x") none) ++
    oneProposal 2 (.merge nodeIds none none none)) fourClasses

theorem revertRun_keeps_later_apart : ∃ s' receipt,
    (promoteThenMerge ["t", "y"]).store.revertRun Host.plain 9 1 "user" = .ok (s', receipt) ∧
    ∀ r c, 1 < r → (promoteThenMerge ["t", "y"]).wrote r c → r ∉ (promoteThenMerge ["t", "y"]).reverted →
      SameCell (promoteThenMerge ["t", "y"]).store s' c := by
  have hok : ((promoteThenMerge ["t", "y"]).store.revertRun Host.plain 9 1 "user").toOption.isSome =
      true := by decide +kernel
  cases hr : (promoteThenMerge ["t", "y"]).store.revertRun Host.plain 9 1 "user" with
  | error e => simp [hr, Except.toOption] at hok
  | ok out =>
    obtain ⟨s', receipt⟩ := out
    exact ⟨s', receipt, rfl, revertRun_keeps_later (by decide +kernel) hr⟩

/-- **A re-parented child is lost to the revert**: the merge put it under its
target, and the revert of the earlier promote takes it away again. -/
theorem promoteThenMerge_not_kept :
    ((promoteThenMerge ["t", "x"]).store.nodes.get? "c").map NodeRow.parentId = some (some "t") ∧
    (promoteThenMerge ["t", "x"]).wrote 2 (.node "c" .parent) ∧
    2 ∉ (promoteThenMerge ["t", "x"]).reverted ∧
    ∃ s' receipt, (promoteThenMerge ["t", "x"]).store.revertRun Host.plain 9 1 "user" =
        .ok (s', receipt) ∧
      ¬SameCell (promoteThenMerge ["t", "x"]).store s' (.node "c" .parent) := by
  have hwrote : (promoteThenMerge ["t", "x"]).wrote 2 (.node "c" .parent) :=
    .inl (.inr ⟨rfl, by decide +kernel⟩)
  have hlost : ((promoteThenMerge ["t", "x"]).store.revertRun Host.plain 9 1 "user").toOption.any
      (fun out => !decide (SameCell (promoteThenMerge ["t", "x"]).store out.1 (.node "c" .parent))) =
        true := by decide +kernel
  refine ⟨by decide +kernel, hwrote, by decide +kernel, ?_⟩
  cases hr : (promoteThenMerge ["t", "x"]).store.revertRun Host.plain 9 1 "user" with
  | error e => simp [hr, Except.toOption] at hlost
  | ok out =>
    obtain ⟨s', receipt⟩ := out
    exact ⟨s', receipt, rfl, by simpa [hr, Except.toOption] using hlost⟩

end PolisMemory
