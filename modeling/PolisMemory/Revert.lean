/-
# Reverting gardener runs

A gardener run is a run row and the writes made under it, each journaled with
its image (`RunWrite`, `GardenerRun`). From the laws for one op it follows by
induction over the journal that `undo_ops` goes through on whatever covers
the state after the run, and gives what covers the state before it
(`Undoable`); and from that, that `revert_run` accepts the run and restores
it, and that reverting runs newest first restores the state before the first.

What a run needs for that is a condition on each of its writes: a collapse
whose branch does not come back to its own parent (`Loopless`), a merge that
does not pile things on the target before it absorbs the target itself
(`PlainMerge`). And a run with nothing in its journal is not reverted at all.

Key definitions: `RunWrite.exec`, `GardenerRun.exec`, `WellFormed`,
`RunWrite.Meets`, `Restored`.
Key theorems: `undoable_exec`, `revertRun_restores`, `revertAll_restores`.
-/
import PolisMemory.UndoReorg

namespace PolisMemory

open Tables Store

/-! ### The writes of a run -/

/-- A write of a gardener run that its journal records. -/
inductive RunWrite
  | stage (now : ℤ) (p : Proposal)
  | apply (now id : ℤ) (actor : String)
  | observe (now : ℤ) (node summary : String) (citeSeqs : List ℤ) (actor : String)
  | compact (now prompt : ℤ) (gist gistSource actor : String)
  deriving DecidableEq, Repr

/-- The store after a write; a transaction that fails is rolled back. -/
def committed {α : Type} (s : Store) : Except DbError (Store × α) → Store
  | .ok (s', _) => s'
  | .error _ => s

/-- The store after one write of a run. -/
def RunWrite.exec (h : Host) (run : ℤ) (s : Store) : RunWrite → Store
  | .stage now p => committed s (s.stageProposal h now (some run) p)
  | .apply now id actor => (s.applyClassProposalInRun h now id actor (some run)).1
  | .observe now node summary citeSeqs actor =>
    committed s (s.insertClassObservationInRun h now run node summary citeSeqs actor)
  | .compact now prompt gist gistSource actor =>
    committed s (s.compactPromptBodyInRun h now run prompt gist "cold" gistSource actor true)

/-- A gardener run: its row, its writes and how it is finished. -/
structure GardenerRun where
  startedAt : ℤ
  mode : RunMode
  seqFrom : Option ℤ
  seqTo : Option ℤ
  writes : List RunWrite
  summary : String
  ops : ℤ

/-- The store once the run's row is there. -/
def GardenerRun.start (r : GardenerRun) (s : Store) : Store :=
  (s.insertClassRunWith r.startedAt r.mode r.seqFrom r.seqTo).1

/-- The store after a list of writes of one run. -/
def execAll (h : Host) (run : ℤ) : List RunWrite → Store → Store
  | [], s => s
  | w :: ws, s => execAll h run ws (w.exec h run s)

/-- The store after the run. -/
def GardenerRun.exec (h : Host) (r : GardenerRun) (s : Store) : Store :=
  (execAll h s.runs.nextId r.writes (r.start s)).finishClassRun s.runs.nextId r.summary r.ops

/-! ### What a run needs -/

/-- The nodes: the ids still to be drawn are free, a live node is retired into
nothing, and the marks are of runs up to `last`. -/
structure SoundNodes (h : Host) (s : Store) (last : ℤ) : Prop where
  fresh : ∀ k, s.minted ≤ k → s.nodes.get? (h.newNodeId k) = none
  into : ∀ {id a}, s.nodes.get? id = some a → a.live = true → a.retiredInto = none
  marks : ∀ {id a q}, s.nodes.get? id = some a → a.retiredByRun = some q → q ≤ last

/-- A prompt with its words has the hash of its words and no archive. -/
def SoundPrompts (h : Host) (s : Store) : Prop :=
  ∀ id p, s.prompts.get? id = some p → p.gist = none →
    h.bodyHash p.body = p.bodyHash ∧ s.archive.get? id = none

/-- The state of a store between runs. -/
structure WellFormed (h : Host) (s : Store) : Prop where
  nodes : SoundNodes h s s.runs.lastId
  prompts : SoundPrompts h s
  ops : ∀ o ∈ s.runOps.rows, o.runId ≤ s.runs.lastId
  horizon : ∀ k, s.revertHorizon = some k → k ≤ s.runs.lastId

/-- The write can be undone from the image it journals. -/
def RunWrite.Meets (s : Store) : RunWrite → Prop
  | .apply _ id _ => ∀ p, s.proposals.get? id = some p →
    (p.op = .collapse → s.Loopless (p.nodeId.getD "")) ∧
    (p.op = .merge → ∀ target others row, Extra.asIds p.extra = target :: others →
      s.nodes.get? target = some row → s.PlainMerge p target row others)
  | _ => True

/-- Each write can, in the state it is made in. -/
def writesMeet (h : Host) (run : ℤ) : List RunWrite → Store → Prop
  | [], _ => True
  | w :: ws, s => w.Meets s ∧ writesMeet h run ws (w.exec h run s)

/-- The run journals something, and each of its writes can be undone. -/
def GardenerRun.Meets (h : Host) (r : GardenerRun) (s : Store) : Prop :=
  writesMeet h s.runs.nextId r.writes (r.start s) ∧
    ((r.exec h s).runOps.select fun o => o.runId = s.runs.nextId) ≠ []

/-! ### Undoing a journal -/

/-- Undoing the ops, newest first, takes what covers `s'` to what covers `s`. -/
def Undoable (h : Host) (run : ℤ) (s : Store) (ops : List OpRow) (s' : Store) : Prop :=
  ∀ (t : Store) (now byRun : ℤ), Covers run s' t →
    (∀ o ∈ ops, (t.runOps.get? o.key).bind OpRow.preImage = o.preImage) →
    ∃ t', undoOps h now run byRun ops.reverse t = .ok t' ∧ Covers run s t'

/-- The tables a revert reads its plan from. -/
structure SameBooks (s s' : Store) : Prop where
  runs : s'.runs = s.runs
  runOps : s'.runOps = s.runOps
  horizon : s'.revertHorizon = s.revertHorizon

theorem SameBooks.refl (s : Store) : SameBooks s s := ⟨rfl, rfl, rfl⟩

theorem SameBooks.trans {s₁ s₂ s₃ : Store} (h : SameBooks s₁ s₂) (h' : SameBooks s₂ s₃) :
    SameBooks s₁ s₃ :=
  ⟨h'.runs.trans h.runs, h'.runOps.trans h.runOps, h'.horizon.trans h.horizon⟩

theorem undoOps_append (h : Host) (now run byRun : ℤ) : ∀ (ops ops' : List OpRow) (s : Store),
    undoOps h now run byRun (ops ++ ops') s =
      undoOps h now run byRun ops s >>= undoOps h now run byRun ops'
  | [], _, _ => rfl
  | o :: ops, ops', s => by
    rw [List.cons_append, undoOps, undoOps]
    split
    · rfl
    · exact undoOps_append h now run byRun ops ops' _

section books

variable {s s' : Store}

theorem sameBooks_moveLinksBack : ∀ {moves : List (ℤ × String)} {s s' : Store},
    moveLinksBack moves s = .ok s' → SameBooks s s'
  | [], s, s', hs => by
    cases hs
    exact .refl s
  | (l, node) :: moves, s, s', hs => by
    rw [moveLinksBack] at hs
    split at hs
    · cases hs
    · have := sameBooks_moveLinksBack hs
      exact ⟨this.runs, this.runOps, this.horizon⟩

theorem sameBooks_movePartBack {node part : String} : ∀ {ls : List ℤ} {s s' : Store},
    movePartBack node part ls s = .ok s' → SameBooks s s'
  | [], s, s', hs => by
    cases hs
    exact .refl s
  | l :: ls, s, s', hs => by
    rw [movePartBack] at hs
    split at hs
    · split at hs
      · cases hs
      · have := sameBooks_movePartBack hs
        exact ⟨this.runs, this.runOps, this.horizon⟩
    · exact sameBooks_movePartBack hs

theorem sameBooks_unsplit {byRun : ℤ} {node : String} : ∀ {created : List CreatedPart} {s s' : Store},
    unsplit byRun node created s = .ok s' → SameBooks s s'
  | [], s, s', hs => by
    cases hs
    exact .refl s
  | c :: created, s, s', hs => by
    rw [unsplit] at hs
    obtain ⟨s₁, h1, h2⟩ := bind_eq_ok.mp hs
    have := sameBooks_unsplit h2
    exact (sameBooks_movePartBack h1).trans ⟨this.runs, this.runOps, this.horizon⟩

theorem sameBooks_unmerge {run : ℤ} {m : MergeImage} (hs : s.unmerge run m = .ok s') :
    SameBooks s s' := by
  obtain ⟨s₁, h1, h2⟩ := bind_eq_ok.mp hs
  obtain ⟨nodes, hrep, -⟩ := reparentBack_eq m.children s₁
  rw [hrep] at h2
  cases h2
  have := sameBooks_moveLinksBack h1
  exact ⟨this.runs, this.runOps, this.horizon⟩

theorem mapError_eq_ok {ε ε' α : Type} {f : ε → ε'} {x : Except ε α} {a : α}
    (h : x.mapError f = .ok a) : x = .ok a := by
  cases x with
  | error e => cases h
  | ok b => cases h; rfl

theorem sameBooks_restorePromptBody {h : Host} {prompt : ℤ} {done : Bool}
    (hr : s.restorePromptBody h prompt = .ok (s', done)) : SameBooks s s' := by
  unfold restorePromptBody at hr
  split at hr
  · cases hr
    exact .refl s
  split at hr
  · cases hr
    exact .refl s
  split at hr
  · cases hr
  split at hr
  · cases hr
  split at hr
  · cases hr
  split at hr <;> cases hr <;> exact ⟨rfl, rfl, rfl⟩

/-- No inverse writes the journal, the runs or the horizon. -/
theorem sameBooks_invertOp {h : Host} {now run byRun : ℤ} {pre : Option Image}
    (hs : s.invertOp h now run byRun pre = .ok s') : SameBooks s s' := by
  unfold invertOp at hs
  split at hs
  case h_1 => cases hs
  case h_2 =>
    cases hs
    unfold retireClaim
    dsimp only
    split_ifs <;> exact ⟨rfl, rfl, rfl⟩
  case h_3 =>
    split at hs <;> cases hs <;> exact ⟨rfl, rfl, rfl⟩
  case h_4 =>
    cases hs
    exact ⟨rfl, rfl, rfl⟩
  case h_5 =>
    cases hs
    exact ⟨rfl, rfl, rfl⟩
  case h_6 => exact sameBooks_unsplit (mapError_eq_ok hs)
  case h_7 => exact sameBooks_unmerge (mapError_eq_ok hs)
  case h_8 =>
    cases hs
    exact ⟨rfl, rfl, rfl⟩
  case h_9 =>
    cases hs
    exact ⟨rfl, rfl, rfl⟩
  case h_10 =>
    split at hs
    · cases hs
    · rename_i s₁ hr
      cases hs
      exact sameBooks_restorePromptBody hr
    · cases hs
  case h_11 =>
    cases hs
    exact ⟨rfl, rfl, rfl⟩

/-- An op's row once it is undone. -/
def OpRow.reverted (byRun : ℤ) (o : OpRow) : OpRow :=
  { o with outcome := .reverted, revertedByRun := some byRun }

/-- What undoing a list of ops does to the books. -/
theorem undoOps_books {h : Host} {now run byRun : ℤ} : ∀ {ops : List OpRow} {s s' : Store},
    undoOps h now run byRun ops s = .ok s' → s'.runs = s.runs ∧
      s'.revertHorizon = s.revertHorizon ∧ s'.runOps.rows = s.runOps.rows.map fun r =>
        if r.key ∈ ops.map OpRow.key then r.reverted byRun else r
  | [], s, s', hs => by
    cases hs
    simp
  | o :: ops, s, s', hs => by
    rw [undoOps] at hs
    split at hs
    · cases hs
    · rename_i s₁ hinv
      obtain ⟨h1, h2, h3⟩ := sameBooks_invertOp hinv
      obtain ⟨h4, h5, h6⟩ := undoOps_books hs
      refine ⟨h4.trans h1, h5.trans h3, ?_⟩
      rw [h6, markReverted, Table.rows_update, h2, List.map_map]
      refine List.map_congr_left fun r _ => ?_
      have hkey : OpRow.key (if r.key = o.key then r.reverted byRun else r) = r.key := by
        split_ifs <;> rfl
      change (if OpRow.key (if decide (r.key = o.key) = true then r.reverted byRun else r) ∈
        ops.map OpRow.key then _ else _) = _
      simp only [decide_eq_true_eq, hkey, List.map_cons, List.mem_cons]
      by_cases hk : r.key = o.key
      · by_cases hm : r.key ∈ ops.map OpRow.key
        · rw [if_pos hm, if_pos hk, if_pos (.inl hk)]
          rfl
        · rw [if_neg hm, if_pos hk, if_pos (.inl hk)]
          rfl
      · by_cases hm : r.key ∈ ops.map OpRow.key
        · rw [if_pos hm, if_neg hk, if_pos (.inr hm)]
        · rw [if_neg hm, if_neg hk, if_neg (not_or.mpr ⟨hk, hm⟩)]

end books

/-! ### What a write journals -/

/-- What some writes of a run add: rows of its journal, from which they can be
undone. -/
structure Recorded (h : Host) (run : ℤ) (s s' : Store) (new : List OpRow) : Prop where
  rows : s'.runOps.rows = s.runOps.rows ++ new
  own : ∀ o ∈ new, o.runId = run ∧ o.outcome = .applied
  order : new.Pairwise fun o o' => o.opIx < o'.opIx
  later : ∀ o ∈ new, ∀ o' ∈ s.runOps.rows, o'.runId = run → o'.opIx < o.opIx
  undoable : Undoable h run s new s'
  runs : s'.runs = s.runs
  horizon : s'.revertHorizon = s.revertHorizon

section

variable {h : Host} {run : ℤ}

theorem Undoable.append {s s₁ s₂ : Store} {ops ops' : List OpRow} (hu : Undoable h run s ops s₁)
    (hu' : Undoable h run s₁ ops' s₂) : Undoable h run s (ops ++ ops') s₂ := by
  intro t now byRun hc hpre
  obtain ⟨t₁, h1, hc₁⟩ := hu' t now byRun hc fun o ho => hpre o (List.mem_append_right ops ho)
  have hbooks := undoOps_books h1
  obtain ⟨t₂, h2, hc₂⟩ := hu t₁ now byRun hc₁ fun o ho => by
    -- undoing an op leaves its image
    rw [← hpre o (List.mem_append_left ops' ho)]
    simp only [Table.get?, hbooks.2.2, List.find?_map]
    have hcomp : (fun r => decide (OpRow.key r = o.key)) ∘ (fun r =>
        if r.key ∈ ops'.reverse.map OpRow.key then r.reverted byRun else r) =
          fun r => decide (r.key = o.key) := by
      funext r
      simp only [Function.comp_apply]
      split_ifs <;> rfl
    rw [hcomp]
    cases t.runOps.rows.find? fun r => decide (r.key = o.key) with
    | none => rfl
    | some r =>
      simp only [Option.map_some, Option.bind_some]
      split_ifs <;> rfl
  refine ⟨t₂, ?_, hc₂⟩
  rw [List.reverse_append, undoOps_append, h1]
  exact h2

theorem Recorded.trans {s s₁ s₂ : Store} {new new' : List OpRow} (hr : Recorded h run s s₁ new)
    (hr' : Recorded h run s₁ s₂ new') : Recorded h run s s₂ (new ++ new') where
  rows := by rw [hr'.rows, hr.rows, List.append_assoc]
  own o ho := by
    rcases List.mem_append.mp ho with ho | ho
    · exact hr.own o ho
    · exact hr'.own o ho
  order := by
    refine List.pairwise_append.mpr ⟨hr.order, hr'.order, fun o ho o' ho' => ?_⟩
    exact hr'.later o' ho' o (by rw [hr.rows]; exact List.mem_append_right _ ho) (hr.own o ho).1
  later o ho o' ho' hrun := by
    rcases List.mem_append.mp ho with ho | ho
    · exact hr.later o ho o' ho' hrun
    · exact hr'.later o ho o' (by rw [hr.rows]; exact List.mem_append_left _ ho') hrun
  undoable := hr.undoable.append hr'.undoable
  runs := hr'.runs.trans hr.runs
  horizon := hr'.horizon.trans hr.horizon

/-- Nothing that is restored has changed, and nothing was journaled. -/
theorem recorded_quiet {s s' : Store} (hsights : SameSights s s') (hbooks : SameBooks s s') :
    Recorded h run s s' [] where
  rows := by rw [hbooks.runOps, List.append_nil]
  own := by simp
  order := .nil
  later := by simp
  undoable t now byRun hc _ := ⟨t, rfl, hc.congr_left hsights⟩
  runs := hbooks.runs
  horizon := hbooks.horizon

/-- One op and its row in the journal. -/
theorem recorded_op {s s₁ s' : Store} {image : Image} {subjects : List Subject} {seq : Option ℤ}
    (hu : Undoes h run image s s₁) (hbooks : SameBooks s s₁)
    (hf : s.runSourceForgotten run = false)
    (hj : s₁.journalOp run (.applied subjects image seq) = .ok s') :
    Recorded h run s s' [s₁.opRow run (.applied subjects image seq)] := by
  obtain ⟨ops, rfl, hrows⟩ := journalOp_ok hj
  have hf₁ : s₁.runSourceForgotten run = false := by
    rw [runSourceForgotten, hbooks.runs]
    exact hf
  have hrows := hrows hf₁
  refine ⟨?_, ?_, List.pairwise_singleton _ _, ?_, ?_, hbooks.runs, hbooks.horizon⟩
  · rw [hrows, hbooks.runOps]
  · intro o ho
    rw [List.mem_singleton.mp ho]
    exact ⟨rfl, rfl⟩
  · intro o ho o' ho' hrun
    rw [List.mem_singleton.mp ho]
    exact lt_nextOpIx (by rw [hbooks.runOps]; exact ho') hrun
  · intro t now byRun hc hpre
    have himage := hpre _ (List.mem_singleton_self _)
    have hsights : SameSights s₁ { s₁ with runOps := ops } := by constructor <;> rfl
    obtain ⟨t', ht', hc'⟩ := hu t now byRun (hc.congr_left hsights)
    have hsights' : SameSights t'
        (t'.markReverted (s₁.opRow run (.applied subjects image seq)) byRun) := by
      constructor <;> rfl
    refine ⟨_, ?_, hc'.congr_right hsights'⟩
    rw [List.reverse_singleton, undoOps, himage]
    have hundo : t.invertOp h now run byRun
        (s₁.opRow run (.applied subjects image seq)).preImage = .ok t' := ht'
    rw [hundo]
    rfl

theorem Recorded.notForgotten {s s' : Store} {new : List OpRow} (hr : Recorded h run s s' new)
    (hf : s.runSourceForgotten run = false) : s'.runSourceForgotten run = false := by
  rw [runSourceForgotten, hr.runs]
  exact hf

/-- A write keeps the store well-formed if it keeps its nodes and prompts. -/
theorem WellFormed.of_recorded {s s' : Store} {new : List OpRow} (hw : WellFormed h s)
    (hr : Recorded h run s s' new) (hrun : run ≤ s.runs.lastId)
    (hnodes : SoundNodes h s' s.runs.lastId) (hprompts : SoundPrompts h s') : WellFormed h s' where
  nodes := by rw [hr.runs]; exact hnodes
  prompts := hprompts
  ops o ho := by
    rw [hr.runs]
    rw [hr.rows] at ho
    rcases List.mem_append.mp ho with ho | ho
    · exact hw.ops o ho
    · rw [(hr.own o ho).1]
      exact hrun
  horizon k hk := by
    rw [hr.runs]
    exact hw.horizon k (hr.horizon ▸ hk)

end

/-! ### Each write -/

section

variable {h : Host} {run : ℤ}

/-- The state and the run that a write is made in. -/
structure Ready (h : Host) (run : ℤ) (s : Store) : Prop where
  sound : WellFormed h s
  made : run ≤ s.runs.lastId
  remembered : s.runSourceForgotten run = false

/-- What a write does: it journals some ops, and the next can be made. -/
def Step (h : Host) (run : ℤ) (s s' : Store) : Prop :=
  (∃ new, Recorded h run s s' new) ∧ Ready h run s'

theorem Step.refl {s : Store} (hr : Ready h run s) : Step h run s s :=
  ⟨⟨[], recorded_quiet (.refl s) (.refl s)⟩, hr⟩

theorem Step.trans {s₁ s₂ s₃ : Store} (h₁ : Step h run s₁ s₂) (h₂ : Step h run s₂ s₃) :
    Step h run s₁ s₃ := by
  obtain ⟨⟨new, hr⟩, -⟩ := h₁
  obtain ⟨⟨new', hr'⟩, hready⟩ := h₂
  exact ⟨⟨new ++ new', hr.trans hr'⟩, hready⟩

theorem Ready.of_recorded {s s' : Store} {new : List OpRow} (hr : Ready h run s)
    (hrec : Recorded h run s s' new) (hnodes : SoundNodes h s' s.runs.lastId)
    (hprompts : SoundPrompts h s') : Ready h run s' where
  sound := hr.sound.of_recorded hrec hr.made hnodes hprompts
  made := by rw [hrec.runs]; exact hr.made
  remembered := hrec.notForgotten hr.remembered

/-- A write that touches neither the journal nor what a revert restores. -/
theorem step_quiet {s s' : Store} (hr : Ready h run s) (hsights : SameSights s s')
    (hbooks : SameBooks s s') (hminted : s'.minted = s.minted) : Step h run s s' := by
  have hrec : Recorded h run s s' [] := recorded_quiet hsights hbooks
  refine ⟨⟨[], hrec⟩, hr.of_recorded hrec ⟨?_, ?_, ?_⟩ ?_⟩
  · rw [hminted, hsights.nodes]
    exact hr.sound.nodes.fresh
  · rw [hsights.nodes]
    exact hr.sound.nodes.into
  · rw [hsights.nodes]
    exact hr.sound.nodes.marks
  · intro id p hp hg
    rw [hsights.archive]
    exact hr.sound.prompts id p (hsights.prompts ▸ hp) hg

/-- One op and its journal row. -/
theorem step_op {s s₁ s' : Store} {image : Image} {subjects : List Subject} {seq : Option ℤ}
    (hr : Ready h run s) (hu : Undoes h run image s s₁) (hbooks : SameBooks s s₁)
    (hnodes : SoundNodes h s₁ s.runs.lastId) (hprompts : SoundPrompts h s₁)
    (hj : s₁.journalOp run (.applied subjects image seq) = .ok s') : Step h run s s' := by
  have hrec := recorded_op hu hbooks hr.remembered hj
  obtain ⟨ops, rfl, -⟩ := journalOp_ok hj
  exact ⟨⟨_, hrec⟩, hr.of_recorded hrec ⟨hnodes.fresh, hnodes.into, hnodes.marks⟩ hprompts⟩

theorem SoundNodes.congr {s s' : Store} {last : ℤ} (hs : SoundNodes h s last)
    (hnodes : s'.nodes = s.nodes) (hminted : s'.minted = s.minted) : SoundNodes h s' last := by
  constructor
  · rw [hnodes, hminted]
    exact hs.fresh
  · rw [hnodes]
    exact hs.into
  · rw [hnodes]
    exact hs.marks

/-- A new live node keeps the nodes sound. -/
theorem SoundNodes.insertNode {s s' : Store} {last : ℤ} {mk : String → NodeRow} {id : String}
    (hs : SoundNodes h s last) (hmk : ∀ id, (mk id).id = id ∧ (mk id).marks = (none, none))
    (hi : s.insertNode h mk = .ok (s', id)) : SoundNodes h s' last := by
  obtain ⟨rfl, nodes, hins, rfl⟩ := insertNode_ok hi
  have hget : ∀ k, nodes.get? k = _ := fun k => Table.get?_insert? hins
  simp only [(hmk _).1] at hget
  have hmarks := (hmk (h.newNodeId s.minted)).2
  simp only [NodeRow.marks, Prod.mk.injEq] at hmarks
  constructor
  · intro k hk
    have hk : s.minted + 1 ≤ k := hk
    change nodes.get? _ = none
    rw [hget, if_neg]
    · exact hs.fresh k (by omega)
    · intro heq
      have := h.newNodeId_injective heq
      omega
  · intro id a ha hl
    change nodes.get? id = some a at ha
    rw [hget] at ha
    split_ifs at ha with hid
    · cases ha
      exact hmarks.2
    · exact hs.into ha hl
  · intro id a q ha hq
    change nodes.get? id = some a at ha
    rw [hget] at ha
    split_ifs at ha with hid
    · cases ha
      rw [hmarks.1] at hq
      cases hq
    · exact hs.marks ha hq

theorem step_createChild {s s' : Store} {now : ℤ} {parentId title id : String}
    (hr : Ready h run s) (hc : s.createChild h now (some run) parentId title = .ok (s', id)) :
    Step h run s s' := by
  obtain ⟨⟨s₁, id'⟩, hi, hc⟩ := bind_eq_ok.mp hc
  obtain ⟨s₂, hj, hc⟩ := bind_eq_ok.mp hc
  cases hc
  have hnodes := hr.sound.nodes.insertNode (fun _ => ⟨rfl, rfl⟩) hi
  obtain ⟨hid, nodes, hins, rfl⟩ := insertNode_ok hi
  have hsights : SameSights { s with nodes := nodes }
      { s with nodes := nodes, minted := s.minted + 1 } := by constructor <;> rfl
  exact step_op hr ((undoes_create (some parentId) title hins).congr (.refl s) hsights) ⟨rfl, rfl, rfl⟩ hnodes hr.sound.prompts hj

theorem step_filingNode {s s' : Store} {now : ℤ} {parentId node : String} {subClass : Option String}
    {made : Bool} (hr : Ready h run s)
    (hc : s.filingNode h now (some run) parentId subClass = .ok (s', node, made)) :
    Step h run s s' := by
  unfold filingNode at hc
  split at hc
  · cases hc
    exact .refl hr
  split at hc
  · cases hc
    exact .refl hr
  split at hc
  · cases hc
    exact .refl hr
  · obtain ⟨⟨s₁, id⟩, hi, hc⟩ := bind_eq_ok.mp hc
    cases hc
    exact step_createChild hr hi

theorem step_fileLink {s s' : Store} {now : ℤ} {node targetKind targetId : String}
    {note : Option String} {linked : Bool} (hr : Ready h run s)
    (hc : s.fileLink now (some run) node targetKind targetId note = .ok (s', linked)) :
    Step h run s s' := by
  unfold fileLink at hc
  split at hc
  · rename_i l hl
    have hget : s.links.get? l.id = some l :=
      Table.mem_rows.mp (List.mem_of_find?_eq_some hl)
    split at hc
    · cases hc
      exact .refl hr
    · rename_i q hq
      obtain ⟨s₁, hj, hc⟩ := bind_eq_ok.mp hc
      cases hc
      exact step_op hr (undoes_revive node targetKind targetId hget hq) ⟨rfl, rfl, rfl⟩
        (hr.sound.nodes.congr rfl rfl) hr.sound.prompts hj
  · split at hc
    · cases hc
    · rename_i links hins
      obtain ⟨s₁, hj, hc⟩ := bind_eq_ok.mp hc
      cases hc
      exact step_op hr (undoes_link node targetKind targetId hins) ⟨rfl, rfl, rfl⟩
        (hr.sound.nodes.congr rfl rfl) hr.sound.prompts hj

theorem step_stage {s : Store} (hr : Ready h run s) (now : ℤ) (p : Proposal) :
    Step h run s (committed s (s.stageProposal h now (some run) p)) := by
  cases hs : s.stageProposal h now (some run) p with
  | error e => exact .refl hr
  | ok r =>
    obtain ⟨s', out⟩ := r
    change Step h run s s'
    have hquiet : ∀ {op a b c d e f}, Step h run s (s.insertStructural now (some run) op a b c d e f) :=
      fun {op a b c d e f} => step_quiet hr (by constructor <;> rfl) ⟨rfl, rfl, rfl⟩ rfl
    unfold stageProposal at hs
    split at hs
    · cases hs
      exact .refl hr
    cases p with
    | create parentId title rationale =>
      dsimp only at hs
      split at hs
      · cases hs
        exact .refl hr
      · obtain ⟨⟨s₁, id⟩, hc, hs⟩ := bind_eq_ok.mp hs
        cases hs
        exact step_createChild hr hc
    | file parentId subClass targetKind targetId note rationale =>
      dsimp only at hs
      split at hs
      · cases hs
        exact .refl hr
      · obtain ⟨⟨s₁, node, made⟩, hn, hs⟩ := bind_eq_ok.mp hs
        obtain ⟨⟨s₂, linked⟩, hl, hs⟩ := bind_eq_ok.mp hs
        cases hs
        have hstep := step_filingNode hr hn
        exact hstep.trans (step_fileLink hstep.2 hl)
    | promote | split | merge | collapse | supersede =>
      dsimp only at hs
      split at hs <;> cases hs
      · exact .refl hr
      · exact hquiet

/-! The queued ops: each row it leaves is sound. -/

theorem SoundNodes.promote {s : Store} {last : ℤ} (hs : SoundNodes h s last) (now : ℤ)
    (ids : List String) (parent : Option String) : SoundNodes h (s.setParent now ids parent) last := by
  have hrow : ∀ {id a}, (s.setParent now ids parent).nodes.get? id = some a →
      ∃ b, s.nodes.get? id = some b ∧ b.marks = a.marks := by
    intro id a ha
    rw [get?_setParent] at ha
    obtain ⟨b, hb, rfl⟩ := Option.map_eq_some_iff.mp ha
    refine ⟨b, hb, ?_⟩
    split_ifs <;> rfl
  constructor
  · intro k hk
    rw [get?_setParent, hs.fresh k hk, Option.map_none]
  · intro id a ha hl
    obtain ⟨b, hb, hm⟩ := hrow ha
    simp only [NodeRow.marks, Prod.mk.injEq] at hm
    rw [← hm.2]
    exact hs.into hb (by rw [NodeRow.live, hm.1]; exact hl)
  · intro id a q ha hq
    obtain ⟨b, hb, hm⟩ := hrow ha
    simp only [NodeRow.marks, Prod.mk.injEq] at hm
    exact hs.marks hb (hm.1.trans hq)

theorem SoundNodes.collapse {s s' : Store} {last : ℤ} {digest : NodeRow} {ids : List String}
    {set : RetiredSet} {citations : List ℤ} (hs : SoundNodes h s last) (hrun : run ≤ last)
    (hid : digest.id = h.newNodeId s.minted) (hmarks : digest.marks = (none, none))
    (hcol : Collapsed run digest ids s s' set citations) : SoundNodes h s' last := by
  simp only [NodeRow.marks, Prod.mk.injEq] at hmarks
  have hrow : ∀ {id a}, s'.nodes.get? id = some a → a = digest ∨
      ∃ b, s.nodes.get? id = some b ∧ (a = b ∨ a = b.retire run (some digest.id)) := by
    intro id a ha
    by_cases hne : id = digest.id
    · rw [hne, hcol.made, Option.some.injEq] at ha
      exact .inl ha.symm
    · rw [hcol.nodes hne] at ha
      obtain ⟨b, hb, rfl⟩ := Option.map_eq_some_iff.mp ha
      refine .inr ⟨b, hb, ?_⟩
      split_ifs
      · exact .inr rfl
      · exact .inl rfl
  constructor
  · intro k hk
    rw [hcol.minted] at hk
    have hne : h.newNodeId k ≠ digest.id := by
      rw [hid]
      intro heq
      have := h.newNodeId_injective heq
      omega
    rw [hcol.nodes hne, hs.fresh k (by omega), Option.map_none]
  · intro id a ha hl
    rcases hrow ha with rfl | ⟨b, hb, rfl | rfl⟩
    · exact hmarks.2
    · exact hs.into hb hl
    · cases hl
  · intro id a q ha hq
    rcases hrow ha with rfl | ⟨b, hb, rfl | rfl⟩
    · rw [hmarks.1] at hq
      cases hq
    · exact hs.marks hb hq
    · cases hq
      exact hrun

theorem SoundNodes.merge {s s' : Store} {last : ℤ} {now : ℤ} {p : ProposalRow} {target : String}
    {others : List String} (hs : SoundNodes h s last) (hrun : run ≤ last)
    (habs : Absorbed run target others (s.mergeStart now target p) s') : SoundNodes h s' last := by
  obtain ⟨-, hminted, -⟩ := s.sameLake_mergeStart now target p
  have hrow : ∀ {id a}, s'.nodes.get? id = some a → ∃ b, s.nodes.get? id = some b ∧
      (a.marks = b.marks ∨ a.marks = (some run, some target)) := by
    intro id a ha
    cases hb : s.nodes.get? id with
    | none =>
      rw [habs.noNodes (by rw [get?_mergeStart, hb, Option.map_none])] at ha
      cases ha
    | some b =>
      refine ⟨b, rfl, ?_⟩
      have hb' : ∃ b', (s.mergeStart now target p).nodes.get? id = some b' ∧ b'.marks = b.marks := by
        rw [get?_mergeStart, hb]
        refine ⟨_, rfl, ?_⟩
        split_ifs
        · exact marks_mergeStartRow now p b
        · rfl
      obtain ⟨b', hb', hm⟩ := hb'
      obtain ⟨a', ha', hab⟩ := habs.nodes hb'
      obtain rfl : a = a' := Option.some.inj (ha.symm.trans ha')
      rw [hab.marks, ← hm]
      split_ifs
      · exact .inr rfl
      · exact .inl rfl
  constructor
  · intro k hk
    rw [habs.minted, hminted] at hk
    exact habs.noNodes (by rw [get?_mergeStart, hs.fresh k hk, Option.map_none])
  · intro id a ha hl
    obtain ⟨b, hb, hm | hm⟩ := hrow ha <;> simp only [NodeRow.marks, Prod.mk.injEq] at hm
    · rw [hm.2]
      exact hs.into hb (by rw [NodeRow.live, ← hm.1]; exact hl)
    · simp [NodeRow.live, hm.1] at hl
  · intro id a q ha hq
    obtain ⟨b, hb, hm | hm⟩ := hrow ha <;> simp only [NodeRow.marks, Prod.mk.injEq] at hm
    · exact hs.marks hb (hm.1 ▸ hq)
    · rw [hm.1] at hq
      cases hq
      exact hrun

theorem SoundNodes.split {s s' : Store} {last now : ℤ} {actor node : String}
    {parent : Option String} {created : List CreatedPart} (hs : SoundNodes h s last)
    (hsplit : SplitBy h now actor node parent s s' created) : SoundNodes h s' last := by
  have hrow : ∀ {id a}, s'.nodes.get? id = some a → s.nodes.get? id = some a ∨
      a.marks = (none, none) := by
    intro id a ha
    cases hb : s.nodes.get? id with
    | none =>
      obtain ⟨c, -, -, rfl⟩ := hsplit.newNodes hb ha
      exact .inr rfl
    | some b =>
      rw [hsplit.oldNodes hb] at ha
      exact .inl ha
  constructor
  · intro k hk
    have hn := hs.fresh k (hsplit.minted.trans hk)
    cases ha : s'.nodes.get? (h.newNodeId k) with
    | none => rfl
    | some a =>
      obtain ⟨c, hc, hid, -⟩ := hsplit.newNodes hn ha
      obtain ⟨-, j, hj, -, hlt⟩ := hsplit.fresh c hc
      have := h.newNodeId_injective (hj.symm.trans hid)
      omega
  · intro id a ha hl
    rcases hrow ha with hb | hm
    · exact hs.into hb hl
    · exact congrArg Prod.snd hm
  · intro id a q ha hq
    rcases hrow ha with hb | hm
    · exact hs.marks hb hq
    · rw [show a.retiredByRun = none from congrArg Prod.fst hm] at hq
      cases hq

theorem SoundPrompts.congr {s s' : Store} (hs : SoundPrompts h s) (hp : s'.prompts = s.prompts)
    (ha : s'.archive = s.archive) : SoundPrompts h s' := by
  intro id p hget hg
  rw [ha]
  exact hs id p (hp ▸ hget) hg

theorem SameLake.books {s s' : Store} (hl : SameLake s s') : SameBooks s s' :=
  ⟨hl.runs, hl.runOps, hl.revertHorizon⟩

theorem step_promote {s s' : Store} {now : ℤ} {p : ProposalRow} {detail : String}
    (hr : Ready h run s) (ha : s.applyPromote now run p = .ok (s', detail)) : Step h run s s' :=
  step_op hr (undoes_promote now _ _) ⟨rfl, rfl, rfl⟩ (hr.sound.nodes.promote now _ _)
    hr.sound.prompts (applyPromote_ok ha)

theorem step_collapse {s s' : Store} {now : ℤ} {actor detail : String} {p : ProposalRow}
    (hr : Ready h run s) (hloop : s.Loopless (p.nodeId.getD ""))
    (ha : s.applyCollapse h now run actor p = .ok (s', detail)) : Step h run s s' := by
  obtain ⟨row, hrow, hcol⟩ := applyCollapse_ok ha
  obtain ⟨digest, s₁, set, citations, subjects, hdig, hcol, hj⟩ := hcol hloop
  refine step_op hr (undoes_collapse _ hr.sound.nodes.into hcol) hcol.lake.books
    (hr.sound.nodes.collapse hr.made (by rw [hdig, newRow]) (by rw [hdig]; rfl) hcol)
    (hr.sound.prompts.congr hcol.lake.prompts hcol.lake.archive) hj

theorem step_merge {s s' : Store} {now : ℤ} {p : ProposalRow} {detail : String}
    (hr : Ready h run s)
    (hplain : ∀ target others row, Extra.asIds p.extra = target :: others →
      s.nodes.get? target = some row → s.PlainMerge p target row others)
    (ha : s.applyMerge now run p = .ok (some (s', detail))) : Step h run s s' := by
  obtain ⟨target, others, row, s₁, m, subjects, hids, hrow, habs, htr, h1, h2, h3, hj⟩ :=
    applyMerge_ok ha
  have hp := hplain target others row hids hrow
  obtain ⟨hlake, -⟩ := s.sameLake_mergeStart now target p
  have hlake := hlake.trans habs.lake
  exact step_op hr (undoes_merge hrow hr.sound.nodes.into hp habs (htr hp) h1 h2 h3) hlake.books
    (hr.sound.nodes.merge hr.made habs) (hr.sound.prompts.congr hlake.prompts hlake.archive) hj

theorem step_split {s s' : Store} {now : ℤ} {actor detail : String} {p : ProposalRow}
    (hr : Ready h run s) (ha : s.applySplit h now run actor p = .ok (s', detail)) :
    Step h run s s' := by
  obtain ⟨row, s₁, created, subjects, hrow, hsplit, hj⟩ := applySplit_ok ha
  exact step_op hr (undoes_split hrow hsplit) hsplit.lake.books (hr.sound.nodes.split hsplit)
    (hr.sound.prompts.congr hsplit.lake.prompts hsplit.lake.archive) hj

theorem step_supersede {s s' : Store} {now : ℤ} {actor detail : String} {p : ProposalRow}
    (hr : Ready h run s) (ha : s.applySupersede h now run actor p = .ok (some (s', detail))) :
    Step h run s s' := by
  unfold applySupersede at ha
  split at ha
  · cases ha
  rename_i oldSeq newSeq _
  obtain ⟨⟨s₁, out⟩, hs, ha⟩ := bind_eq_ok.mp ha
  cases out with
  | rejected message => cases ha
  | applied effectiveOld newSeq' eventSeq =>
    obtain ⟨s₂, hj, ha⟩ := bind_eq_ok.mp ha
    cases ha
    unfold applySupersession at hs
    split at hs
    · cases hs
    split at hs
    · cases hs
    split at hs
    · cases hs
    split at hs
    · cases hs
    dsimp only at hs
    split at hs
    · cases hs
    rename_i supersessions hins
    cases hs
    refine step_op hr ?_ ?_ (hr.sound.nodes.congr ?_ ?_) (hr.sound.prompts.congr ?_ ?_) hj
    case refine_1 =>
      refine (undoes_supersede hins).congr (.refl s) ?_
      constructor <;> rfl
    all_goals first | exact ⟨rfl, rfl, rfl⟩ | rfl

theorem step_applyOp {s s' : Store} {now : ℤ} {actor detail : String} {p : ProposalRow}
    (hr : Ready h run s)
    (hm : (p.op = .collapse → s.Loopless (p.nodeId.getD "")) ∧
      (p.op = .merge → ∀ target others row, Extra.asIds p.extra = target :: others →
        s.nodes.get? target = some row → s.PlainMerge p target row others))
    (ha : s.applyOp h now run actor p = .ok (some (s', detail))) : Step h run s s' := by
  have hsome : ∀ {x : Except DbError (Store × String)}, some <$> x = .ok (some (s', detail)) →
      x = .ok (s', detail) := by
    intro x hx
    cases x with
    | error e => cases hx
    | ok a => cases hx; rfl
  unfold applyOp at ha
  cases hop : p.op <;> rw [hop] at ha
  case promote => exact step_promote hr (hsome ha)
  case collapse => exact step_collapse hr (hm.1 hop) (hsome ha)
  case merge => exact step_merge hr (hm.2 hop) ha
  case split => exact step_split hr (hsome ha)
  case supersede => exact step_supersede hr ha
  case unknown => cases ha

theorem step_apply {s : Store} (hr : Ready h run s) (now id : ℤ) (actor : String)
    (hm : (RunWrite.apply now id actor).Meets s) :
    Step h run s (s.applyClassProposalInRun h now id actor (some run)).1 := by
  unfold applyClassProposalInRun
  cases hp : s.proposals.get? id with
  | none => exact .refl hr
  | some p =>
    simp only [Option.some_or]
    have hm := hm p hp
    unfold applyProposal
    split_ifs
    · exact .refl hr
    cases ha : s.applyOp h now run actor p with
    | error e => exact .refl hr
    | ok r =>
      have hdrop : ∀ {s₁}, Ready h run s₁ → ∀ n, Step h run s₁
          ((s₁.dropProposal p.id).finishCuration run false p.id n) := fun hr₁ n =>
        step_quiet hr₁ (by constructor <;> rfl) ⟨rfl, rfl, rfl⟩ rfl
      cases r with
      | none => exact hdrop hr 0
      | some r =>
        obtain ⟨s₁, detail⟩ := r
        have hstep := step_applyOp hr hm ha
        exact hstep.trans (hdrop hstep.2 1)

theorem step_observe {s : Store} (hr : Ready h run s) (now : ℤ) (node summary : String)
    (citeSeqs : List ℤ) (actor : String) :
    Step h run s (committed s
      (s.insertClassObservationInRun h now run node summary citeSeqs actor)) := by
  unfold Store.insertClassObservationInRun
  rw [if_neg (by simp [hr.remembered])]
  unfold insertClassObservation
  split_ifs
  · exact .refl hr
  · simp only [bind, Except.bind, pure, Except.pure]
    cases hj : journalOp _ run _ with
    | error e => exact .refl hr
    | ok s₁ =>
      refine step_op hr ?_ ?_ (hr.sound.nodes.congr ?_ ?_) (hr.sound.prompts.congr ?_ ?_) hj
      case refine_1 =>
        refine (@undoes_observe h run s (fun id => ⟨id, node, summary, citeSeqs,
          some (s.appendedRow h (observationEvent h now node summary citeSeqs actor)).seq, false, now,
          none, none, none⟩) (fun _ => rfl) node _).congr (.refl s) ?_
        constructor <;> rfl
      all_goals first | exact ⟨rfl, rfl, rfl⟩ | rfl

theorem step_compact {s : Store} (hr : Ready h run s) (now prompt : ℤ)
    (gist gistSource actor : String) :
    Step h run s (committed s
      (s.compactPromptBodyInRun h now run prompt gist "cold" gistSource actor true)) := by
  unfold Store.compactPromptBodyInRun Store.compactPromptBody
  cases hp : s.warmPrompt? prompt "cold" with
  | none => exact .refl hr
  | some p =>
    obtain ⟨hget, hwarm⟩ := Option.filter_eq_some_iff.mp hp
    obtain rfl := Table.key_of_get? hget
    simp only [Bool.and_eq_true, Bool.or_eq_true, decide_eq_true_eq, Option.isNone_iff_eq_none,
      String.reduceEq, or_false] at hwarm
    obtain ⟨hgist, hforgotten⟩ := hwarm
    obtain ⟨hhash, harchive⟩ := hr.sound.prompts p.id p hget hgist
    simp only [archiveFor, if_true, String.reduceEq, if_false, bind, Except.bind, pure, Except.pure,
      decide_false, Bool.or_false]
    cases hj : journalOp _ run _ with
    | error e => exact .refl hr
    | ok s₁ =>
      refine step_op hr ?_ ?_ (hr.sound.nodes.congr ?_ ?_) ?_ hj
      case refine_2 => exact ⟨rfl, rfl, rfl⟩
      case refine_3 => rfl
      case refine_4 => rfl
      · refine (undoes_compact now p.body.utf8ByteSize _ gist gistSource hget hgist hhash harchive
          hforgotten).congr (.refl s) ?_
        constructor <;> rfl
      · intro id q hq hg
        change _ ∧ (s.archive.upsert _).get? id = none
        simp only [append, Table.get?_update, Option.map_eq_some_iff] at hq
        obtain ⟨q', hq', rfl⟩ := hq
        have hid := Table.key_of_get? hq'
        by_cases hpid : p.id = id
        · subst hpid
          obtain rfl : p = q' := Option.some.inj (hget.symm.trans hq')
          simp [hgist] at hg
        · rw [Table.get?_upsert, if_neg hpid]
          rw [if_neg (by simp [hid, Ne.symm hpid])] at hg ⊢
          exact hr.sound.prompts id q' hq' hg

/-- **One write**: it journals what it needs to be undone. -/
theorem step_exec {s : Store} (hr : Ready h run s) (w : RunWrite) (hm : w.Meets s) :
    Step h run s (w.exec h run s) := by
  cases w with
  | stage now p => exact step_stage hr now p
  | apply now id actor => exact step_apply hr now id actor hm
  | observe now node summary citeSeqs actor => exact step_observe hr now node summary citeSeqs actor
  | compact now prompt gist gistSource actor => exact step_compact hr now prompt gist gistSource actor

end

/-! ### A whole run -/

section

variable {h : Host} {run : ℤ}

theorem step_execAll : ∀ (ws : List RunWrite) {s : Store}, Ready h run s → writesMeet h run ws s →
    Step h run s (execAll h run ws s)
  | [], _, hr, _ => .refl hr
  | w :: ws, s, hr, hm => by
    have hstep := step_exec hr w hm.1
    exact hstep.trans (step_execAll ws hstep.2 hm.2)

/-- A run's row is there, with nothing in its journal. -/
theorem ready_start {s : Store} (hw : WellFormed h s) (r : GardenerRun) :
    Ready h s.runs.nextId (r.start s) := by
  have hlast : s.runs.lastId ≤ s.runs.nextId := (Int.lt_succ _).le
  have hrow : (r.start s).runs.get? s.runs.nextId = some _ :=
    AutoTable.get?_insert.trans (if_pos rfl)
  refine ⟨⟨⟨hw.nodes.fresh, hw.nodes.into, fun ha hq => ?_⟩, hw.prompts, fun o ho => ?_,
    fun k hk => ?_⟩, le_rfl, ?_⟩
  · exact (hw.nodes.marks ha hq).trans hlast
  · exact (hw.ops o ho).trans hlast
  · exact (hw.horizon k hk).trans hlast
  · rw [runSourceForgotten, hrow]
    rfl

/-- What a run did: its journal is what its writes journaled. -/
structure RunDone (h : Host) (r : GardenerRun) (s : Store) (new : List OpRow) : Prop where
  recorded : Recorded h s.runs.nextId (r.start s) (execAll h s.runs.nextId r.writes (r.start s)) new
  sound : WellFormed h (r.exec h s)
  journal : ((r.exec h s).runOps.select fun o => o.runId = s.runs.nextId) = new

theorem GardenerRun.done {s : Store} (hw : WellFormed h s) {r : GardenerRun}
    (hm : writesMeet h s.runs.nextId r.writes (r.start s)) : ∃ new, RunDone h r s new := by
  obtain ⟨⟨new, hrec⟩, hready⟩ := step_execAll r.writes (ready_start hw r) hm
  refine ⟨new, hrec, ?_, ?_⟩
  · obtain ⟨hn, hp, ho, hh⟩ := hready.sound
    exact ⟨⟨hn.fresh, hn.into, hn.marks⟩, hp, ho, hh⟩
  · change List.filter _ (execAll h s.runs.nextId r.writes (r.start s)).runOps.rows = _
    rw [hrec.rows, List.filter_append]
    have hold : (r.start s).runOps.rows.filter (fun o => o.runId = s.runs.nextId) = [] := by
      rw [List.filter_eq_nil_iff]
      intro o ho heq
      have h1 := hw.ops o ho
      have h2 : o.runId = s.runs.nextId := by simpa using heq
      exact absurd h1 (not_le.mpr (h2 ▸ Int.lt_succ s.runs.lastId))
    have hnew : new.filter (fun o => o.runId = s.runs.nextId) = new :=
      List.filter_eq_self.mpr fun o ho => by simpa using (hrec.own o ho).1
    rw [hold, hnew, List.nil_append]

theorem runs_exec {s : Store} {r : GardenerRun} {new : List OpRow} (hd : RunDone h r s new) :
    (r.exec h s).runs.lastId = s.runs.nextId ∧
      (∀ q ≤ s.runs.lastId, (r.exec h s).runs.get? q = s.runs.get? q) ∧
      ∃ row, (r.exec h s).runs.get? s.runs.nextId = some row ∧ row.outcome = some .done := by
  have hruns := hd.recorded.runs
  have hget : ∀ q, (r.exec h s).runs.get? q = ((r.start s).runs.get? q).map fun a =>
      if a.id = s.runs.nextId then
        { a with
          status := .done
          summary := if a.sourceForgottenAt = none then some r.summary else some "[forgotten source]"
          error := none
          outcome := some .done
          ops := some r.ops }
      else a := fun q => by
    simp only [GardenerRun.exec, finishClassRun, AutoTable.toTable_update, Table.get?_update, hruns,
      decide_eq_true_eq]
  refine ⟨?_, fun q hq => ?_, ?_⟩
  · change (execAll h s.runs.nextId r.writes (r.start s)).runs.lastId = _
    rw [hruns]
    rfl
  · have hne : q ≠ s.runs.nextId := by
      rintro rfl
      exact absurd hq (not_le.mpr (Int.lt_succ _))
    have hold : (r.start s).runs.get? q = s.runs.get? q := AutoTable.get?_insert.trans (if_neg hne)
    rw [hget, hold]
    cases hr : s.runs.get? q with
    | none => rfl
    | some row => simp [Table.key_of_get? hr, hne]
  · rw [hget, show (r.start s).runs.get? s.runs.nextId = some _ from
      AutoTable.get?_insert.trans (if_pos rfl), Option.map_some]
    exact ⟨_, rfl, by simp⟩

end

/-! ### Reverting it -/

/-- What a revert of an earlier run needs of the state after later runs were
made and undone: it covers the earlier state, and the books up to then are as
they were. -/
structure Rewound (s t : Store) : Prop where
  covers : ∀ run, Covers run s t
  runs : ∀ q ≤ s.runs.lastId, t.runs.get? q = s.runs.get? q
  last : s.runs.lastId ≤ t.runs.lastId
  ops : ∀ q ≤ s.runs.lastId,
    (t.runOps.select fun o => o.runId = q) = s.runOps.select fun o => o.runId = q
  later : ∀ o ∈ t.runOps.rows, s.runs.lastId < o.runId → o.outcome ≠ .applied
  horizon : t.revertHorizon = s.revertHorizon

theorem Rewound.refl {h : Host} {s : Store} (hw : WellFormed h s) : Rewound s s where
  covers run := .refl run s
  runs _ _ := rfl
  last := le_rfl
  ops _ _ := rfl
  later o ho hlt := absurd (hw.ops o ho) (not_le.mpr hlt)
  horizon := rfl

/-- A run that marks no row of `s` makes no difference to what covers `s`. -/
theorem Covers.of_unmarked {run run' : ℤ} {s t : Store}
    (hm : ∀ {id a}, s.nodes.get? id = some a → a.retiredByRun ≠ some run) (hc : Covers run s t) :
    Covers run' s t :=
  { hc with
    nodes := fun ha => by
      obtain ⟨b, hb, hface, hmarks⟩ := hc.nodes ha
      exact ⟨b, hb, hface, .inl (hmarks.resolve_right fun h => hm ha h.1)⟩ }

section

variable {h : Host}

/-- When a revert goes through, and with what. -/
theorem revertRun_eq_ok {t t' : Store} {now run : ℤ} {actor : String} {receipt : RevertReceipt} :
    t.revertRun h now run actor = .ok (t', receipt) ↔ t.revertRefusal run = none ∧
      ∃ t₁, undoOps h now run t.runs.nextId (t.appliedOps run).reverse
          (t.insertClassRunWith now .revert none none).1 = .ok t₁ ∧
        t' = (t₁.append h (revertEvent h now run t.runs.nextId (t.appliedOps run).length
          actor)).settleRevert run t.runs.nextId (t.appliedOps run).length ∧
        receipt = ⟨run, (t.appliedOps run).length, (t₁.appendedRow h (revertEvent h now run
          t.runs.nextId (t.appliedOps run).length actor)).seq, t.runs.nextId⟩ := by
  unfold revertRun
  cases hrefusal : t.revertRefusal run with
  | some reason => simp
  | none =>
    simp only [insertClassRunWith, List.length_reverse, true_and]
    split
    · rename_i reason hundo
      simp [hundo]
    · rename_i t₁ hundo
      simp only [hundo, Except.ok.injEq, Prod.mk.injEq, exists_eq_left']
      constructor
      · rintro ⟨rfl, rfl⟩
        exact ⟨rfl, rfl⟩
      · rintro ⟨rfl, rfl⟩
        exact ⟨rfl, rfl⟩

/-- **Undoing one run**: the revert goes through, and rewinds to the state
before the run. -/
theorem revertRun_rewinds {s t : Store} {r : GardenerRun} (hw : WellFormed h s) (hm : r.Meets h s)
    (ht : Rewound (r.exec h s) t) (now : ℤ) (actor : String) :
    ∃ t' receipt, t.revertRun h now s.runs.nextId actor = .ok (t', receipt) ∧ Rewound s t' := by
  obtain ⟨new, hd⟩ := GardenerRun.done hw hm.1
  obtain ⟨hlast, hold, row, hrow, houtcome⟩ := runs_exec hd
  have hlt : s.runs.lastId < s.runs.nextId := Int.lt_succ _
  have hjournal : (t.runOps.select fun o => o.runId = s.runs.nextId) = new :=
    (ht.ops _ hlast.ge).trans hd.journal
  have hops : t.appliedOps s.runs.nextId = new := by
    rw [appliedOps, listRunOps, hjournal,
      List.Pairwise.insertionSort_eq (hd.recorded.order.imp fun hlt => hlt.le)]
    exact List.filter_eq_self.mpr fun o ho => by simpa using (hd.recorded.own o ho).2
  have hne : new ≠ [] := hd.journal ▸ hm.2
  have hhorizon : t.revertHorizon = s.revertHorizon := by
    rw [ht.horizon]
    exact hd.recorded.horizon
  have htouch : t.laterRunTouching s.runs.nextId = none := by
    have hnil : (t.runOps.select fun o => s.runs.nextId < o.runId && o.outcome = .applied) = [] := by
      refine List.filter_eq_nil_iff.mpr fun o ho hp => ?_
      simp only [Bool.and_eq_true, decide_eq_true_eq] at hp
      exact ht.later o ho (hlast ▸ hp.1) hp.2
    rw [laterRunTouching, hnil]
    simp
  have hrefusal : t.revertRefusal s.runs.nextId = none := by
    rw [revertRefusal, ht.runs _ hlast.ge, hrow]
    simp only [houtcome, hops, hne, if_false, htouch, Option.map_none]
    rw [if_neg (by simp), if_neg]
    rw [hhorizon]
    cases hk : s.revertHorizon with
    | none => simp
    | some k => simpa using lt_of_le_of_lt (hw.horizon k hk) hlt
  -- the journal is undone, from the images it holds
  have hsights : SameSights t (t.insertClassRunWith now .revert none none).1 := by
    constructor <;> rfl
  have hcover : Covers s.runs.nextId (execAll h s.runs.nextId r.writes (r.start s))
      (t.insertClassRunWith now .revert none none).1 := by
    refine Covers.congr_left ?_ ((ht.covers s.runs.nextId).congr_right hsights)
    constructor <;> rfl
  obtain ⟨t₁, hundo, hc⟩ := hd.recorded.undoable _ now t.runs.nextId hcover fun o ho => by
    have hmem : o ∈ t.runOps.rows := by
      rw [← hjournal] at ho
      exact List.mem_of_mem_filter ho
    change (t.runOps.get? o.key).bind _ = _
    rw [Table.mem_rows.mp hmem]
    rfl
  obtain ⟨hbruns, hbhorizon, hbops⟩ := undoOps_books hundo
  refine ⟨_, _, revertRun_eq_ok.mpr ⟨hrefusal, t₁, hops ▸ hundo, rfl, rfl⟩, ?_⟩
  have hkeys : ∀ o : OpRow, o.key ∈ new.reverse.map OpRow.key → o.runId = s.runs.nextId := by
    intro o ho
    obtain ⟨o', ho', hk⟩ := List.mem_map.mp ho
    have := (hd.recorded.own o' (List.mem_reverse.mp ho')).1
    rw [← this]
    exact (congrArg Prod.fst hk).symm
  constructor
  case covers =>
    intro run
    have hleft : SameSights s (r.start s) := by constructor <;> rfl
    have hcov : Covers s.runs.nextId s t₁ := hc.congr_left hleft
    refine (hcov.congr_right ?_).of_unmarked fun ha hq => ?_
    · constructor <;> rfl
    · exact absurd (hw.nodes.marks ha hq) (not_le.mpr hlt)
  case runs =>
    intro q hq
    have hq1 : q ≠ s.runs.nextId := by
      rintro rfl
      exact absurd hq (not_le.mpr hlt)
    have hq2 : q ≠ t.runs.nextId := by
      rintro rfl
      have := ht.last
      have h2 : t.runs.nextId = t.runs.lastId + 1 := rfl
      omega
    change (AutoTable.update (AutoTable.update t₁.runs _ _ _) _ _ _).get? q = _
    rw [hbruns]
    have hins : (t.insertClassRunWith now .revert none none).1.runs.get? q = t.runs.get? q :=
      AutoTable.get?_insert.trans (if_neg hq2)
    simp only [AutoTable.toTable_update, Table.get?_update]
    rw [hins, ht.runs q (by omega), hold q hq]
    cases hr : s.runs.get? q with
    | none => rfl
    | some row => simp [Table.key_of_get? hr, hq1, hq2]
  case last =>
    change _ ≤ t₁.runs.lastId
    rw [hbruns]
    change _ ≤ t.runs.lastId + 1
    have := ht.last
    omega
  case ops =>
    intro q hq
    have hne : q ≠ s.runs.nextId := by
      rintro rfl
      exact absurd hq (not_le.mpr hlt)
    change t₁.runOps.rows.filter _ = _
    rw [hbops, List.filter_map]
    have hsame : ∀ o ∈ t.runOps.rows.filter (fun o => o.runId = q),
        (if o.key ∈ new.reverse.map OpRow.key then o.reverted t.runs.nextId else o) = o := by
      intro o ho
      have hoq : o.runId = q := by simpa using (List.mem_filter.mp ho).2
      exact if_neg fun hk => hne (hoq.symm.trans (hkeys o hk))
    have hcomp : ((fun o : OpRow => decide (o.runId = q)) ∘ fun o =>
        if o.key ∈ new.reverse.map OpRow.key then o.reverted t.runs.nextId else o) =
          fun o => decide (o.runId = q) := by
      funext o
      simp only [Function.comp_apply]
      split_ifs <;> rfl
    rw [hcomp]
    change List.map _ (t.runOps.rows.filter fun o => o.runId = q) = _
    rw [List.map_congr_left hsame, List.map_id'']
    · change t.runOps.select _ = _
      rw [ht.ops q (by omega)]
      change List.filter _ (execAll h s.runs.nextId r.writes (r.start s)).runOps.rows = _
      rw [hd.recorded.rows, List.filter_append]
      have hnil : new.filter (fun o => o.runId = q) = [] := by
        refine List.filter_eq_nil_iff.mpr fun o ho hoq => hne ?_
        have hoq : o.runId = q := by simpa using hoq
        rw [← (hd.recorded.own o ho).1, hoq]
      rw [hnil, List.append_nil]
      rfl
    · exact fun _ => rfl
  case later =>
    intro o ho hlt'
    change o ∈ t₁.runOps.rows at ho
    rw [hbops] at ho
    obtain ⟨o', ho', rfl⟩ := List.mem_map.mp ho
    by_cases hk : o'.key ∈ new.reverse.map OpRow.key
    · rw [if_pos hk]
      intro h
      cases h
    · rw [if_neg hk] at hlt' ⊢
      refine ht.later o' ho' ?_
      rw [hlast]
      have hne : o'.runId ≠ s.runs.nextId := by
        intro heq
        refine hk (List.mem_map_of_mem (List.mem_reverse.mpr ?_))
        rw [← hjournal]
        exact List.mem_filter.mpr ⟨ho', by simpa using heq⟩
      have h2 : s.runs.nextId = s.runs.lastId + 1 := rfl
      omega
  case horizon =>
    change t₁.revertHorizon = _
    rw [hbhorizon]
    exact hhorizon

end

/-! ### Runs, and their reverts newest first -/

/-- A node's row without its stamp. -/
def NodeRow.unstamped (n : NodeRow) : NodeRow := { n with updatedAt := 0 }

namespace Store

/-- The live row of a link. -/
def liveLink? (s : Store) (id : ℤ) : Option LinkRow := (s.links.get? id).filter LinkRow.live

/-- The live row of an observation. -/
def liveObservation? (s : Store) (id : ℤ) : Option ObservationRow :=
  (s.observations.get? id).filter ObservationRow.live

end Store

/-- What a revert gives back. -/
structure Restored (s t : Store) : Prop where
  nodes : ∀ id, (t.liveNode? id).map NodeRow.unstamped = (s.liveNode? id).map NodeRow.unstamped
  links : ∀ id, t.liveLink? id = s.liveLink? id
  observations : ∀ id, t.liveObservation? id = s.liveObservation? id
  supersessions : ∀ seq, t.supersessions.get? seq = s.supersessions.get? seq
  prompts : ∀ id, (t.prompts.get? id).map (fun p => (p.body, p.gist)) =
    (s.prompts.get? id).map fun p => (p.body, p.gist)
  archive : ∀ id, t.archive.get? id = s.archive.get? id

theorem unstamped_of_face {a b : NodeRow} (hf : b.face = a.face) (hm : b.marks = a.marks) :
    b.unstamped = a.unstamped := by
  cases a
  cases b
  simp only [NodeRow.face, NodeRow.marks, NodeRow.mk.injEq, Prod.mk.injEq] at hf hm
  simp [NodeRow.unstamped, hf, hm]

/-- A store that covers another for every run shows just what it shows. -/
theorem Rewound.restored {h : Host} {s t : Store} (hw : WellFormed h s) (ht : Rewound s t) :
    Restored s t := by
  have hc := ht.covers (s.runs.lastId + 1)
  refine ⟨fun id => ?_, fun id => ?_, fun id => ?_, hc.supersessions, fun id => ?_, hc.archive⟩
  · cases ha : s.nodes.get? id with
    | some a =>
      obtain ⟨b, hb, hface, hmarks⟩ := hc.nodes ha
      have hm : b.marks = a.marks := hmarks.resolve_right fun hq => by
        have := hw.nodes.marks ha hq.1
        omega
      have hl : b.live = a.live := congrArg (fun m : Option ℤ × Option String => m.1.isNone) hm
      rw [liveNode?, liveNode?, hb, ha]
      by_cases hal : a.live = true
      · simp [Option.filter, hl, hal, unstamped_of_face hface hm]
      · simp [Option.filter, hl, hal]
    | none =>
      rw [liveNode?, liveNode?, ha]
      cases hb : t.nodes.get? id with
      | none => rfl
      | some b => simp [Option.filter, hc.newNodes ha hb]
  · cases ha : s.links.get? id with
    | some a => rw [liveLink?, liveLink?, hc.links ha, ha]
    | none =>
      rw [liveLink?, liveLink?, ha]
      cases hb : t.links.get? id with
      | none => rfl
      | some b => simp [Option.filter, (hc.newLinks ha hb).1]
  · cases ha : s.observations.get? id with
    | some a => rw [liveObservation?, liveObservation?, hc.observations ha, ha]
    | none =>
      rw [liveObservation?, liveObservation?, ha]
      cases hb : t.observations.get? id with
      | none => rfl
      | some b => simp [Option.filter, hc.newObservations ha hb]
  · have hwords := congrArg (Option.map fun p : PromptRow => (p.body, p.gist)) (hc.prompts id)
    rw [Option.map_map, Option.map_map] at hwords
    exact hwords

/-- The store after some runs. -/
def runAll (h : Host) : List GardenerRun → Store → Store
  | [], s => s
  | r :: rs, s => runAll h rs (r.exec h s)

/-- The ids the runs get. -/
def runIds (h : Host) : List GardenerRun → Store → List ℤ
  | [], _ => []
  | r :: rs, s => s.runs.nextId :: runIds h rs (r.exec h s)

/-- Each run journals something and can be undone. -/
def allMeet (h : Host) : List GardenerRun → Store → Prop
  | [], _ => True
  | r :: rs, s => r.Meets h s ∧ allMeet h rs (r.exec h s)

/-- Revert some runs, in the order given. -/
def revertAll (h : Host) (now : ℤ → ℤ) (actor : ℤ → String) : List ℤ → Store → Except String Store
  | [], s => .ok s
  | run :: runs, s =>
    match s.revertRun h (now run) run (actor run) with
    | .error reason => .error reason
    | .ok (s, _) => revertAll h now actor runs s

section

variable {h : Host} {now : ℤ → ℤ} {actor : ℤ → String}

theorem revertAll_append : ∀ {runs runs' : List ℤ} {s s' : Store},
    revertAll h now actor runs s = .ok s' →
      revertAll h now actor (runs ++ runs') s = revertAll h now actor runs' s'
  | [], _, _, _, hs => by
    cases hs
    rfl
  | run :: runs, runs', s, s', hs => by
    rw [List.cons_append, revertAll]
    rw [revertAll] at hs
    split at hs
    · cases hs
    · exact revertAll_append hs

theorem revertAll_rewinds : ∀ (rs : List GardenerRun) {s : Store}, WellFormed h s → allMeet h rs s →
    ∃ t, revertAll h now actor (runIds h rs s).reverse (runAll h rs s) = .ok t ∧ Rewound s t
  | [], s, hw, _ => ⟨s, rfl, .refl hw⟩
  | r :: rs, s, hw, hm => by
    obtain ⟨new, hd⟩ := GardenerRun.done hw hm.1.1
    obtain ⟨t, ht, hrew⟩ := revertAll_rewinds rs hd.sound hm.2
    obtain ⟨t', receipt, ht', hrew'⟩ := revertRun_rewinds hw hm.1 hrew (now s.runs.nextId)
      (actor s.runs.nextId)
    refine ⟨t', ?_, hrew'⟩
    rw [runIds, runAll, List.reverse_cons, revertAll_append ht, revertAll, ht']
    rfl

/-- **Reverting runs newest first** goes through and restores the state before
the first of them. -/
theorem revertAll_restores {s : Store} (hw : WellFormed h s) (rs : List GardenerRun)
    (hm : allMeet h rs s) (now : ℤ → ℤ) (actor : ℤ → String) :
    ∃ t, revertAll h now actor (runIds h rs s).reverse (runAll h rs s) = .ok t ∧ Restored s t := by
  obtain ⟨t, ht, hrew⟩ := @revertAll_rewinds h now actor rs s hw hm
  exact ⟨t, ht, hrew.restored hw⟩

end

/-- A live root. -/
def rootRow (id : String) : NodeRow :=
  ⟨id, none, .node, id, none, none, false, none, 0, 0, none, none, none⟩

/-- A store with two roots, a prompt, a link on the second root and a queued
merge. -/
def twoRoots (nodeIds : List String) : Store :=
  { Store.empty with
    nodes := ⟨[rootRow "t", rootRow "a"], by decide⟩
    links := ⟨⟨⟨[⟨1, "a", "prompt", "7", none, 0, none, none⟩], by decide⟩, 1, by decide⟩, by decide⟩
    prompts := ⟨[⟨1, 0, none, none, none, none, none, none, none, "words", "words", none, none, none,
      none, none⟩], by decide⟩
    proposals := ⟨⟨[⟨1, none, .merge, some "t", none, none, none, some (.ids nodeIds), none, .proposed,
      0, 0, none, none, none⟩], by simp⟩, 1, by simp⟩ }

theorem wellFormed_twoRoots (nodeIds : List String) : WellFormed Host.plain (twoRoots nodeIds) := by
  refine ⟨⟨fun k _ => ?_, ?_, ?_⟩, fun id p hp hg => ?_, by simp [twoRoots, Store.empty],
    by simp [twoRoots, Store.empty]⟩
  · have ht := @Host.newNodeId_ne Host.plain k "t" (by decide)
    have ha := @Host.newNodeId_ne Host.plain k "a" (by decide)
    simp [twoRoots, Table.get?, rootRow, ht.symm, ha.symm]
  · intro id a ha _
    have := (Table.get?_eq_some.mp ha).1
    simp only [twoRoots, List.mem_cons, List.not_mem_nil, or_false] at this
    rcases this with rfl | rfl <;> rfl
  · intro id a q ha hq
    have := (Table.get?_eq_some.mp ha).1
    simp only [twoRoots, List.mem_cons, List.not_mem_nil, or_false] at this
    rcases this with rfl | rfl <;> cases hq
  · have := (Table.get?_eq_some.mp hp).1
    simp only [twoRoots, List.mem_cons, List.not_mem_nil, or_false] at this
    subst this
    exact ⟨rfl, rfl⟩

/-- A run that stages, compacts and merges. -/
def mergeRun : GardenerRun :=
  ⟨10, .organize, none, none, [.stage 11 (.create "t" "topic" none),
    .stage 12 (.file "a" none "decision" "8" none none), .compact 13 1 "gist" "model" "gardener",
    .apply 14 1 "gardener"], "merged", 4⟩

theorem revertAll_restores_twoRoots : ∃ t,
    revertAll Host.plain (fun _ => 20) (fun _ => "user")
      (runIds Host.plain [mergeRun] (twoRoots ["t", "a"])).reverse
      (runAll Host.plain [mergeRun] (twoRoots ["t", "a"])) = .ok t ∧
    Restored (twoRoots ["t", "a"]) t := by
  refine revertAll_restores (wellFormed_twoRoots _) [mergeRun] ⟨⟨?_, by decide +kernel⟩, trivial⟩ _ _
  refine ⟨trivial, trivial, trivial, fun p hp => ?_, trivial⟩
  obtain rfl : ⟨1, none, .merge, some "t", none, none, none, some (.ids ["t", "a"]), none, .proposed,
      0, 0, none, none, none⟩ = p := Option.some.inj (Eq.trans (by decide +kernel) hp)
  refine ⟨nofun, fun _ target others row hids _ _ => ?_⟩
  cases hids
  exact ⟨fun hm => absurd hm (by decide), fun _ => nofun⟩

/-- **A merge that names its target twice** is not undone: the link ends on
the target, not on the node it came from. -/
theorem mergeTwice_not_restored : WellFormed Host.plain (twoRoots ["t", "a", "t"]) ∧
    ¬∃ t, revertAll Host.plain (fun _ => 20) (fun _ => "user")
        (runIds Host.plain [mergeRun] (twoRoots ["t", "a", "t"])).reverse
        (runAll Host.plain [mergeRun] (twoRoots ["t", "a", "t"])) = .ok t ∧
      Restored (twoRoots ["t", "a", "t"]) t := by
  refine ⟨wellFormed_twoRoots _, ?_⟩
  rintro ⟨t, ht, hr⟩
  have hlink := hr.links 1
  have hrun : (revertAll Host.plain (fun _ => 20) (fun _ => "user")
      (runIds Host.plain [mergeRun] (twoRoots ["t", "a", "t"])).reverse
      (runAll Host.plain [mergeRun] (twoRoots ["t", "a", "t"]))).toOption.bind
        (fun t => (t.liveLink? 1).map LinkRow.nodeId) = some "t" := by decide +kernel
  rw [ht] at hrun
  simp only [Except.toOption, Option.bind_some, hlink] at hrun
  revert hrun
  decide

end PolisMemory
