/-
# Reverting a filing pass

A filing pass writes the catalog by staging filings alone, which are journaled, but for
one write: the link that a member has in `~inbox` is retired when the model files the
member elsewhere, and that is in no journal. So the revert of a run whose pass refiled no
member restores the catalog (`filed_run_restored`), whatever the embedder and the model
answer.

The vectors that an embedder stores on the way are no part of the catalog; staging does
not read them (`stageProposal_withVectors`), so they are set aside: a pass is a run of
staged writes, and vectors (`Staged`).

Key definitions: `Store.withVectors`, `Staged`, `Polis.Alone`.
Key theorems: `stageProposal_withVectors`, `keeps_placeItem`, `leads_settle_unless`,
`leads_fileTier_staged`, `filed_run_restored`.
-/
import PolisMemory.Placements

namespace PolisMemory

open Tables Keeper

namespace Store

/-! ### Staging does not read the vectors -/

/-- With other vectors. -/
def withVectors (s : Store) (vectors : Table EmbeddingRow.chunk) : Store :=
  { s with embeddings := vectors }

section vectors

variable (vectors : Table EmbeddingRow.chunk) (s : Store) {h : Host} {now : ℤ} {run : Option ℤ}

theorem journalOp_withVectors (run : ℤ) (rec : OpRecord) : (s.withVectors vectors).journalOp run rec =
    (s.journalOp run rec).map fun s' => s'.withVectors vectors := by
  have hforgotten : (s.withVectors vectors).runSourceForgotten run = s.runSourceForgotten run := rfl
  have hrow : (s.withVectors vectors).opRow run rec = s.opRow run rec := rfl
  have hops : (s.withVectors vectors).runOps = s.runOps := rfl
  unfold journalOp
  rw [hforgotten, hrow, hops]
  split_ifs
  · rfl
  · cases s.runOps.insert? (s.opRow run rec) <;> rfl

theorem journalApplied_withVectors (subjects : List Subject) (image : Image) :
    (s.withVectors vectors).journalApplied run subjects image =
      (s.journalApplied run subjects image).map fun s' => s'.withVectors vectors := by
  cases run with
  | none => rfl
  | some run => exact journalOp_withVectors vectors s run (.applied subjects image none)

/-- A write that is journaled last. -/
theorem journaled_withVectors {β : Type} (subjects : List Subject) (image : Image) (b : β) :
    ((s.withVectors vectors).journalApplied run subjects image >>= fun s' => .ok (s', b)) =
      (s.journalApplied run subjects image >>= fun s' => .ok (s', b)).map
        fun r => (r.1.withVectors vectors, r.2) := by
  rw [journalApplied_withVectors]
  cases s.journalApplied run subjects image <;> rfl

theorem insertNode_withVectors (mk : String → NodeRow) : (s.withVectors vectors).insertNode h mk =
    (s.insertNode h mk).map fun r => (r.1.withVectors vectors, r.2) := by
  have hnodes : (s.withVectors vectors).nodes = s.nodes := rfl
  have hminted : (s.withVectors vectors).minted = s.minted := rfl
  unfold insertNode
  rw [hnodes, hminted]
  cases s.nodes.insert? (mk (h.newNodeId s.minted)) <;> rfl

theorem createChild_withVectors (parentId title : String) :
    (s.withVectors vectors).createChild h now run parentId title =
      (s.createChild h now run parentId title).map fun r => (r.1.withVectors vectors, r.2) := by
  unfold createChild
  rw [insertNode_withVectors]
  cases s.insertNode h (newRow now .node (some parentId) title none "classifier") with
  | error e => rfl
  | ok r =>
    exact journaled_withVectors vectors r.1 [.node r.2] (.create r.2 (some parentId) title) r.2

theorem filingNode_withVectors (parentId : String) (subClass : Option String) :
    (s.withVectors vectors).filingNode h now run parentId subClass =
      (s.filingNode h now run parentId subClass).map fun r => (r.1.withVectors vectors, r.2) := by
  cases subClass with
  | none => rfl
  | some title =>
    have hchild : (s.withVectors vectors).childTitled? parentId (trim title) =
        s.childTitled? parentId (trim title) := rfl
    unfold filingNode
    dsimp only
    rw [hchild, createChild_withVectors]
    split_ifs
    · rfl
    · cases s.childTitled? parentId (trim title) with
      | some n => rfl
      | none => cases s.createChild h now run parentId (trim title) <;> rfl

theorem fileLink_withVectors (node targetKind targetId : String) (note : Option String) :
    (s.withVectors vectors).fileLink now run node targetKind targetId note =
      (s.fileLink now run node targetKind targetId note).map fun r => (r.1.withVectors vectors, r.2) := by
  have hlinks : (s.withVectors vectors).links = s.links := rfl
  have hjournaled := fun links subjects image =>
    @journaled_withVectors vectors { s with links := links } run Bool subjects image true
  unfold fileLink
  rw [hlinks]
  cases s.links.rows.find? fun l => l.dedup = (node, targetKind, targetId) with
  | some l =>
    dsimp only
    cases l.retiredByRun with
    | none => rfl
    | some retiredBy =>
      exact hjournaled _ [.node node, .link l.id] (.file l.id node targetKind targetId (some retiredBy))
  | none =>
    dsimp only
    cases s.links.insert? fun id => ⟨id, node, targetKind, targetId, note, now, none, none⟩ with
    | none => rfl
    | some links =>
      exact hjournaled links [.node node, .link s.links.nextId]
        (.file s.links.nextId node targetKind targetId none)

/-- **Staging a filing** leaves the vectors, and does not depend on them. -/
theorem stageProposal_withVectors (parentId targetKind targetId : String)
    (subClass note rationale : Option String) :
    (s.withVectors vectors).stageProposal h now run
        (.file parentId subClass targetKind targetId note rationale) =
      (s.stageProposal h now run (.file parentId subClass targetKind targetId note rationale)).map
        fun r => (r.1.withVectors vectors, r.2) := by
  have hforgotten : (run.any (s.withVectors vectors).runSourceForgotten ||
      (s.withVectors vectors).namesForgotten
        (.file parentId subClass targetKind targetId note rationale)) =
      (run.any s.runSourceForgotten ||
        s.namesForgotten (.file parentId subClass targetKind targetId note rationale)) := rfl
  have hexists : (s.withVectors vectors).nodeExists parentId = s.nodeExists parentId := rfl
  unfold stageProposal
  rw [hforgotten]
  dsimp only
  rw [hexists, filingNode_withVectors]
  split_ifs
  · rfl
  · rfl
  · cases s.filingNode h now run parentId subClass with
    | error e => rfl
    | ok r =>
      have hlink := @fileLink_withVectors vectors r.1 now run r.2.1 targetKind targetId note
      simp only [Except.map, bind, Except.bind, pure, Except.pure, hlink]
      cases r.1.fileLink now run r.2.1 targetKind targetId note <;> rfl

end vectors
end Store

/-! ### A pass as the writes of a run -/

/-- A write that stages a filing. -/
def RunWrite.Files (w : RunWrite) : Prop :=
  ∃ now parentId subClass targetKind targetId note rationale,
    w = .stage now (.file parentId subClass targetKind targetId note rationale)

/-- Staged filings of a run, and vectors. -/
def Staged (h : Host) (run : ℤ) (s s' : Store) : Prop :=
  ∃ ws vectors, (∀ w ∈ ws, RunWrite.Files w) ∧ s' = (execAll h run ws s).withVectors vectors

section staged

variable {h : Host} {run : ℤ}

theorem execAll_append (ws ws' : List RunWrite) (s : Store) :
    execAll h run (ws ++ ws') s = execAll h run ws' (execAll h run ws s) := by
  induction ws generalizing s with
  | nil => rfl
  | cons w ws ih => exact ih (w.exec h run s)

theorem execAll_withVectors {ws : List RunWrite} (hws : ∀ w ∈ ws, RunWrite.Files w) (s : Store)
    (vectors : Table EmbeddingRow.chunk) :
    execAll h run ws (s.withVectors vectors) = (execAll h run ws s).withVectors vectors := by
  induction ws generalizing s with
  | nil => rfl
  | cons w ws ih =>
    obtain ⟨now, parentId, subClass, targetKind, targetId, note, rationale, rfl⟩ :=
      hws w List.mem_cons_self
    have hone : RunWrite.exec h run (s.withVectors vectors) (.stage now (.file parentId subClass targetKind
        targetId note rationale)) = (RunWrite.exec h run s (.stage now (.file parentId subClass targetKind
          targetId note rationale))).withVectors vectors := by
      simp only [RunWrite.exec, Store.stageProposal_withVectors]
      cases s.stageProposal h now (some run) (.file parentId subClass targetKind targetId note rationale) <;>
        rfl
    rw [execAll, hone, ih fun w' hw' => hws w' (List.mem_cons_of_mem _ hw')]
    rfl

instance : IsPreorder Store (Staged h run) where
  refl s := ⟨[], s.embeddings, fun w hw => (by cases hw), rfl⟩
  trans s₁ s₂ s₃ h₁ h₂ := by
    obtain ⟨ws, vectors, hws, rfl⟩ := h₁
    obtain ⟨ws', vectors', hws', rfl⟩ := h₂
    refine ⟨ws ++ ws', vectors', fun w hw => ?_, ?_⟩
    · exact (List.mem_append.mp hw).elim (hws w) (hws' w)
    · rw [execAll_withVectors hws', execAll_append]
      rfl

end staged

namespace Filing

open Passes Staging Store

variable {V C F : Type} {polis : Polis V C F} {run : ℤ} {tree : List NodeRow}

/-- Nobody else writes while a reply is waited for. -/
def Polis.Alone (polis : Polis V C F) : Prop :=
  ∀ agent ∈ polis.agent, ∀ call prompt s, (agent.run call prompt s).2 = s

/-! ### What only stages -/

section keeps

theorem keeps_stageFile (parentId targetKind targetId : String) (subClass note rationale : Option String) :
    Keeps (Staged polis.host run)
      (stage polis run (.file parentId subClass targetKind targetId note rationale)) := by
  refine .tx fun s s' out hstage => ⟨[.stage polis.now (.file parentId subClass targetKind targetId note
    rationale)], s'.embeddings, fun w hw => ?_, ?_⟩
  · exact ⟨_, _, _, _, _, _, _, List.mem_singleton.mp hw⟩
  · show s' = (committed s _).withVectors s'.embeddings
    rw [mapError_eq_ok hstage]
    rfl

theorem keeps_fileNow (nodeId : String) (seq : ℤ) (kind note : String) :
    Keeps (Staged polis.host run) (fileNow polis run nodeId seq kind note) :=
  .bind (keeps_stageFile _ _ _ _ _ _) fun _ => .pure _

theorem keeps_vectors (e : Embedder V C F) (kind : String) (seq : ℤ) :
    Keeps (Staged polis.host run) (e.itemVector kind seq) := by
  unfold Embedder.itemVector
  split_ifs
  · exact .pure none
  · intro s
    refine .bind (.get ?_)
    split
    · exact .pure (refl s)
    · split
      · exact .pure (refl s)
      · exact .bind (.set (.pure ⟨[], _, fun w hw => (by cases hw), rfl⟩))

theorem keeps_walkUnder (root : String) : Keeps (Staged polis.host run) (walkUnder tree root) := by
  unfold walkUnder
  split
  · exact .pure _
  · exact .throw _

theorem keeps_placeItem (w : Sorting C) (item : LakeItem) :
    Keeps (Staged polis.host run) (placeItem polis run tree w item) := by
  unfold placeItem
  split
  · exact .pure _
  refine .bind (keeps_walkUnder _) fun under => ?_
  split
  · exact .pure _
  refine .bind (keeps_vectors _ _ _) fun v => ?_
  split
  · exact .pure _
  unfold placeRanked
  split
  · refine .bind (keeps_fileNow _ _ _ _) fun filed => ?_
    split
    · exact .pure _
    · exact .pure _
  · exact .pure _
  · exact .pure _

theorem keeps_reoffer (centroids : String → Option C) (pending : List Held) (row : InboxLink) :
    Keeps (Staged polis.host run) (reoffer polis tree centroids pending row) := by
  refine .bind .get fun s => ?_
  split
  · exact .pure _
  refine .bind ?_ fun ranked => .pure _
  unfold rankMember
  split
  · exact .pure _
  refine .bind (keeps_vectors _ _ _) fun v => ?_
  split
  · exact .pure _
  · exact .bind (keeps_walkUnder _) fun under => .pure _

theorem keeps_gather (w : Sorting C) : Keeps (Staged polis.host run) (gather polis tree w) := by
  unfold gather
  split
  · exact .pure _
  · exact .bind .get fun s => .foldlM (fun pending row => keeps_reoffer _ pending row) _ _

end keeps

/-! ### What may refile -/

/-- Nothing but stagings since, if no member has been refiled so far. -/
def StagedUnless (h : Host) (run : ℤ) (out : FilingOutcome) (s : Store) (out' : FilingOutcome)
    (s' : Store) : Prop :=
  out'.refiledFromInbox = 0 → out.refiledFromInbox = 0 ∧ Staged h run s s'

section refiled

variable {s : Store}

theorem StagedUnless.of_staged {h : Host} {out out' : FilingOutcome} {s' : Store}
    (hsame : out'.refiledFromInbox = out.refiledFromInbox) (hs : Staged h run s s') :
    StagedUnless h run out s out' s' :=
  fun hzero => ⟨hsame.symm.trans hzero, hs⟩

theorem StagedUnless.trans {h : Host} {out out₁ out₂ : FilingOutcome} {s₁ s₂ : Store}
    (h₁ : StagedUnless h run out s out₁ s₁) (h₂ : StagedUnless h run out₁ s₁ out₂ s₂) :
    StagedUnless h run out s out₂ s₂ := by
  intro hzero
  obtain ⟨hzero₁, hs₂⟩ := h₂ hzero
  obtain ⟨hzero₀, hs₁⟩ := h₁ hzero₁
  exact ⟨hzero₀, IsTrans.trans _ _ _ hs₁ hs₂⟩

/-- A loop of parts that only stage unless they refile. -/
theorem leads_foldlM_unless {σ : Type} {h : Host} {g : FilingOutcome → σ → Pass FilingOutcome}
    (hg : ∀ out x s, Leads (g out x) s (StagedUnless h run out s) fun _ => True) (xs : List σ)
    (out : FilingOutcome) : Leads (xs.foldlM g out) s (StagedUnless h run out s) fun _ => True := by
  refine .foldlM (fun _ out' s' => StagedUnless h run out s out' s') (fun _ x _ out₁ s₁ _ hI => ?_) ?_
  · exact (hg out₁ x s₁).mono (fun _ _ hq => hI.trans hq) fun _ _ => trivial
  · exact .of_staged rfl (refl s)

theorem leads_park_unless (out : FilingOutcome) (p : Held) :
    Leads (park polis run out p) s (StagedUnless polis.host run out s) fun _ => True := by
  unfold park
  split
  · exact .pure (.of_staged rfl (refl s))
  · refine .bind (.bind ((keeps_stageFile _ _ _ _ _ _ s).mono (fun _ s' hs => ?_) fun _ _ => trivial))
    exact .pure (.pure (.of_staged rfl hs))

/-- An item of a batch: only a member's filing is more than a staging. -/
theorem leads_settle_unless (ops : List BatchOp) (out : FilingOutcome) (p : Held) :
    Leads (settle polis run ops out p) s (StagedUnless polis.host run out s) fun _ => True := by
  have hvector : Keeps (Staged polis.host run) (vectorOf polis p.kind p.item.seq) := by
    unfold vectorOf
    split
    · exact .pure none
    · exact keeps_vectors _ _ _
  unfold settle
  split
  · rename_i q nodeId _
    refine .bind ((hvector s).mono (fun _ s₁ hs₁ => ?_) fun _ _ => trivial)
    refine .bind ((keeps_fileNow nodeId _ _ _ s₁).mono (fun filed s₂ hs₂ => ?_) fun _ _ => trivial)
    have hs : Staged polis.host run s s₂ := IsTrans.trans _ _ _ hs₁ hs₂
    split
    · split
      · exact .bind (.modify (.pure fun hzero => absurd hzero (Nat.succ_ne_zero _)))
      · exact .pure (.of_staged rfl hs)
    · exact .pure (.of_staged rfl hs)
  · exact leads_park_unless out p

theorem leads_fileBatch_unless (halone : polis.Alone) {agent : Agent} (hagent : agent ∈ polis.agent)
    (out : FilingOutcome) (batch : List Held) :
    Leads (fileBatch polis run agent tree out batch) s (StagedUnless polis.host run out s)
      fun _ => True := by
  unfold fileBatch
  generalize buildBatchPrompt (batch.map Held.toPending) (titlesOf tree) tree
    (agent.nonce out.llmCalls) = built
  refine .bind (.modifyGet ?_)
  rw [halone agent hagent]
  have hcalled : (out.called built.1).refiledFromInbox = out.refiledFromInbox := rfl
  refine (leads_foldlM_unless (fun out p s => leads_settle_unless _ out p) _ _).mono
    (fun _ _ hq => ?_) fun _ h => h
  exact (StagedUnless.of_staged hcalled (refl s)).trans hq

/-- **A pass that refiles no member** only stages filings. -/
theorem leads_fileTier_staged (halone : polis.Alone) (delta : List LakeItem) (due : Bool) :
    Leads (fileTier polis run tree delta due) s
      (fun out s' => out.refiledFromInbox = 0 → Staged polis.host run s s') fun _ => True := by
  refine .bind (.get (.bind (((Keeps.foldlM (fun w item => keeps_placeItem w item) delta _) s).mono
    (fun w s₁ hs₁ => ?_) fun _ _ => trivial)))
  have hgather : Keeps (Staged polis.host run) (gather polis tree w) := keeps_gather w
  refine .bind ((hgather s₁).mono (fun pending s₂ hs₂ => ?_) fun _ _ => trivial)
  have hs : Staged polis.host run s s₂ := IsTrans.trans _ _ _ hs₁ hs₂
  have hrest : Leads (fileRest polis run tree w pending) s₂ (StagedUnless polis.host run w.out s₂)
      fun _ => True := by
    unfold fileRest
    split
    · exact .pure (.of_staged rfl (refl s₂))
    · split
      · rename_i agent hagent
        exact leads_foldlM_unless (fun out batch s => leads_fileBatch_unless halone hagent out batch) _ _
      · exact leads_foldlM_unless (fun out p s => leads_park_unless out p) _ _
  refine .bind (hrest.mono (fun out s₃ hq => .pure fun hzero => ?_) fun _ _ => trivial)
  exact IsTrans.trans _ _ _ hs (hq hzero).2

end refiled

/-! ### The revert of its run -/

theorem writesMeet_of_files {h : Host} {ws : List RunWrite} (hws : ∀ w ∈ ws, RunWrite.Files w) (s : Store) :
    writesMeet h run ws s := by
  induction ws generalizing s with
  | nil => exact trivial
  | cons w ws ih =>
    obtain ⟨now, parentId, subClass, targetKind, targetId, note, rationale, rfl⟩ :=
      hws w List.mem_cons_self
    exact ⟨trivial, ih (fun w' hw' => hws w' (List.mem_cons_of_mem _ hw')) _⟩

/-- Vectors are nothing that a revert looks at. -/
theorem rewound_withVectors {h : Host} {s : Store} (hs : WellFormed h s)
    (vectors : Table EmbeddingRow.chunk) : Rewound s (s.withVectors vectors) where
  covers run := by
    have hsame : SameSights s (s.withVectors vectors) := ⟨rfl, rfl, rfl, rfl, rfl, rfl, rfl⟩
    exact PolisMemory.Covers.congr_right hsame (.refl run s)
  runs _ _ := rfl
  last := le_rfl
  ops _ _ := rfl
  later o ho hlt := absurd (hs.ops o ho) (not_le.mpr hlt)
  horizon := rfl

/-- **A run whose filing pass refiled no member is undone by its revert**, whatever the
embedder and the model answered: the revert goes through, and the catalog is as it was before
the run. -/
theorem filed_run_restored (halone : polis.Alone) {s s' : Store} {out : FilingOutcome}
    (hs : WellFormed polis.host s) (startedAt : ℤ) (mode : RunMode) (seqFrom seqTo : Option ℤ)
    (delta : List LakeItem) (due : Bool)
    (hpass : fileTier polis s.runs.nextId tree delta due
      (s.insertClassRunWith startedAt mode seqFrom seqTo).1 = .ok out s')
    (hrefiled : out.refiledFromInbox = 0)
    (hfiled : (s'.runOps.select fun o => o.runId = s.runs.nextId) ≠ [])
    (summary : String) (ops now : ℤ) (actor : String) :
    ∃ t receipt, (s'.finishClassRun s.runs.nextId summary ops).revertRun polis.host now s.runs.nextId
        actor = .ok (t, receipt) ∧ Restored s t := by
  obtain ⟨ws, vectors, hws, rfl⟩ := (leads_fileTier_staged halone delta due).returns out s' hpass hrefiled
  let r : GardenerRun := ⟨startedAt, mode, seqFrom, seqTo, ws, summary, ops⟩
  have hmeets : r.Meets polis.host s := ⟨writesMeet_of_files hws _, hfiled⟩
  obtain ⟨new, hdone⟩ := GardenerRun.done hs hmeets.1
  have hrewound : Rewound (r.exec polis.host s) ((r.exec polis.host s).withVectors vectors) :=
    rewound_withVectors hdone.sound vectors
  obtain ⟨t, receipt, hrevert, hback⟩ := revertRun_rewinds hs hmeets hrewound now actor
  exact ⟨t, receipt, hrevert, hback.restored hs⟩

theorem wellFormed_onePrompt : WellFormed Host.plain onePromptParked := by
  refine ⟨⟨fun k _ => ?_, ?_, ?_⟩, ?_, by simp [onePromptParked, Store.empty],
    by simp [onePromptParked, Store.empty]⟩
  · have hroot := @Host.newNodeId_ne Host.plain k generalRootId (by decide)
    have hinbox := @Host.newNodeId_ne Host.plain k "i" (by decide)
    have hclass : Host.plain.newNodeId k ≠ "c" := by
      intro heq
      have hlong := congrArg (fun id : String => id.toList.length) heq
      simp [Host.newNodeId, String.toList_append] at hlong
    simp [onePromptParked, Table.get?, classRow, newRow, hroot.symm, hinbox.symm, hclass.symm]
  · intro id a ha _
    have hmem := (Table.get?_eq_some.mp ha).1
    simp only [onePromptParked, List.mem_cons, List.not_mem_nil, or_false] at hmem
    rcases hmem with rfl | rfl | rfl <;> rfl
  · intro id a q ha hq
    have hmem := (Table.get?_eq_some.mp ha).1
    simp only [onePromptParked, List.mem_cons, List.not_mem_nil, or_false] at hmem
    rcases hmem with rfl | rfl | rfl <;> cases hq
  · intro id p hp _
    cases hp

/-- How many members a pass has refiled, if it returned. -/
def refiled : EStateM.Result Halt Store FilingOutcome → Option ℕ
  | .ok out _ => some out.refiledFromInbox
  | .error _ _ => none

/-- The prompt goes to the inbox in the first run, and is nowhere again after its revert. -/
theorem filed_run_restored_prompt : ∃ out s' t receipt,
    fileTier basicPass 1 onePromptUnfiled.nodes.rows [promptItem] false
      (onePromptUnfiled.insertClassRunWith 5 .organize none none).1 = .ok out s' ∧
    (s'.finishClassRun 1 "filed" 1).revertRun Host.plain 9 1 "user" = .ok (t, receipt) ∧
    Restored onePromptUnfiled t := by
  have hsound := wellFormed_onePrompt
  have hs : WellFormed Host.plain onePromptUnfiled :=
    ⟨⟨hsound.nodes.fresh, hsound.nodes.into, hsound.nodes.marks⟩, hsound.prompts, hsound.ops, hsound.horizon⟩
  have halone : basicPass.Alone := fun agent ha => by cases ha
  have hrun : onePromptUnfiled.runs.nextId = 1 := by decide
  generalize hpass : fileTier basicPass 1 onePromptUnfiled.nodes.rows [promptItem] false
    (onePromptUnfiled.insertClassRunWith 5 .organize none none).1 = result
  have hreturned : refiled result = some 0 ∧
      ((after result).runOps.select fun o => o.runId = 1) ≠ [] := by
    rw [← hpass]
    decide +kernel
  cases result with
  | error e s' => cases hreturned.1
  | ok out s' =>
    rw [← hrun] at hpass
    have hrefiled : out.refiledFromInbox = 0 := Option.some.inj hreturned.1
    have hfiled : (s'.runOps.select fun o => o.runId = onePromptUnfiled.runs.nextId) ≠ [] := by
      rw [hrun]
      exact hreturned.2
    obtain ⟨t, receipt, hrevert, hback⟩ :=
      filed_run_restored halone hs 5 .organize none none [promptItem] false hpass hrefiled hfiled "filed" 1 9 "user"
    rw [hrun] at hrevert
    exact ⟨out, s', t, receipt, rfl, hrevert, hback⟩

/-- **A refiled member is lost to the revert**: its filing is undone, and its link in the
inbox does not come back. -/
theorem refiled_run_not_restored :
    let s' := after (fileTier modelPass 1 onePromptParked.nodes.rows [] false
      (onePromptParked.insertClassRunWith 5 .organize none none).1)
    ∃ t receipt, (s'.finishClassRun 1 "filed" 1).revertRun Host.plain 9 1 "user" = .ok (t, receipt) ∧
      ¬Restored onePromptParked t := by
  intro s'
  have hgone : ((s'.finishClassRun 1 "filed" 1).revertRun Host.plain 9 1 "user").toOption.map
      (fun r => r.1.liveLink? 1) = some none := by decide +kernel
  cases hrevert : (s'.finishClassRun 1 "filed" 1).revertRun Host.plain 9 1 "user" with
  | error e =>
    rw [hrevert] at hgone
    cases hgone
  | ok r =>
    obtain ⟨t, receipt⟩ := r
    rw [hrevert] at hgone
    refine ⟨t, receipt, rfl, fun hback => ?_⟩
    have hlink : none = onePromptParked.liveLink? 1 := (Option.some.inj hgone).symm.trans (hback.links 1)
    exact absurd hlink (by decide)

end Filing
end PolisMemory
