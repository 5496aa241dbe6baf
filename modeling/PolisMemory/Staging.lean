/-
# A batch of proposals, staged under adjudication

`stage_adjudicated` of `crates/polis-memory/src/organize.rs` judges the creates and
filings of a batch before it stages them. The twin rule (`adjudicate_create`) asks
whether a sibling has a title that is the same class; the siblings are those of the
catalog that was loaded before the batch, so a class that the batch itself has made
is no sibling to it. The store's own test is for the same title to the letter.

So two classes of the batch may be twins, and no other two: a batch leaves no twins
if and only if each class it makes is no twin of one that it made before
(`stageAdjudicated_twinFree_iff`).

Key definitions: `adjudicateCreate`, `adjudicateFile`, `stageOne`,
`stageAdjudicated`, `TwinFree`, `makes`, `Apart`, `StepsApart`.
Key theorems: `stageProposal_nodes`, `stageOne_nodes`, `stageOne_twinFree_iff`,
`stageAdjudicated_twinFree_iff`, `deploys_twice`.
-/
import Mathlib.Data.List.Dedup
import PolisMemory.Runs
import PolisMemory.Sourcing

namespace PolisMemory

namespace Staging

open Tables Store

/-! ### The additive rules -/

/-- What the adjudicator decides over a create or a filing. -/
inductive AdditiveVerdict
  | apply
  | refuse (reason : String)
  | redirect (toNode : String) (enqueueMerge : Option (List String))
  deriving DecidableEq, Repr

/-- `Catalog::siblings_under`. -/
def siblingsUnder (catalog : List NodeRow) (parent : String) : List NodeRow :=
  catalog.filter fun n => n.parentId = some parent && n.kind = .node

/-- `adjudicate_create`. -/
def adjudicateCreate (u : Unicode) (catalog : List NodeRow) (parentId title : String) :
    AdditiveVerdict :=
  if (getNode catalog parentId).isNone then .refuse s!"parent {parentId} does not exist"
  else
    match (siblingsUnder catalog parentId).filter fun n => u.titlesAgree n.title title with
    | [] => .apply
    | [twin] => .redirect twin.id none
    | twin :: twins => .redirect twin.id (some ((twin :: twins).map NodeRow.id))

/-- `root_id_for_path`. -/
def rootIdForPath (h : Host) (path : String) : String :=
  "root-" ++ String.ofList ((h.sha256 path).toList.take 12)

/-- `GENERAL_ROOT_ID`. -/
def generalRootId : String := "root-general"

/-- `item_project_path`. -/
def itemProjectPath (s : Store) (seq : ℤ) : Option String :=
  (((s.event? seq).bind LedgerEventRow.promptId).bind s.prompts.get?).bind PromptRow.projectPath

/-- The event kinds that a filing of that kind may target. -/
def kindMatches (targetKind eventKind : String) : Bool :=
  if targetKind = "decision" then
    eventKind ∈ ["decision", "resolution", "approval", "reopen", "review_verdict", "pin",
      "source_trust"]
  else eventKind = targetKind

/-- What speaks against a filing's target. -/
def badTarget? (s : Store) (targetKind targetId : String) : Option String :=
  if targetKind ∈ ["prompt", "revision", "decision", "note", "browse_event"] then
    match parseI64 targetId with
    | none => some s!"target {targetKind}:{targetId} must use a ledger seq"
    | some seq =>
      match s.event? seq with
      | none => some s!"target {targetKind}:{targetId} does not exist"
      | some event =>
        if kindMatches targetKind event.kind then none
        else some s!"target_kind {targetKind} but seq {seq} is a {event.kind}"
  else none

/-- `adjudicate_file`. -/
def adjudicateFile (h : Host) (catalog : List NodeRow) (s : Store)
    (parentId targetKind targetId : String) : AdditiveVerdict :=
  match rootOf catalog rootGuard parentId with
  | none => .refuse s!"parent {parentId} does not exist"
  | some root =>
    match badTarget? s targetKind targetId with
    | some reason => .refuse reason
    | none =>
      if root = generalRootId then .apply
      else if ((parseI64 targetId).bind (itemProjectPath s)).any
          fun project => rootIdForPath h project ≠ root then .refuse "provenance"
      else .apply

/-! ### The batch -/

/-- `StageResult`. -/
structure StageResult where
  stagedLinks : ℕ
  createdNodes : ℕ
  structural : ℕ
  skipped : ℕ
  deriving DecidableEq, Repr

/-- `Staged`. -/
structure Staged where
  result : StageResult
  refused : ℕ
  redirected : ℕ
  mergesEnqueued : ℕ
  deriving DecidableEq, Repr

/-- `Staged::default`. -/
def Staged.zero : Staged := ⟨⟨0, 0, 0, 0⟩, 0, 0, 0⟩

/-- `count_staged`. -/
def countStaged (staged : StagedOutcome) (r : StageResult) : StageResult :=
  match staged with
  | .link createdNode =>
    { r with
      stagedLinks := r.stagedLinks + 1
      createdNodes := if createdNode then r.createdNodes + 1 else r.createdNodes }
  | .node => { r with createdNodes := r.createdNodes + 1 }
  | .structural => { r with structural := r.structural + 1 }
  | .skipped => { r with skipped := r.skipped + 1 }

/-- `op_name`, as the journal's kind of op. -/
def opOf : Proposal → OpKind
  | .file .. => .file
  | .create .. => .create
  | .promote .. => .promote
  | .split .. => .split
  | .merge .. => .merge
  | .collapse .. => .collapse
  | .supersede .. => .supersede

/-- `subjects_of`. -/
def subjectsOf : Proposal → List Subject
  | .file parentId _ _ targetId _ _ => .node parentId :: ((parseI64 targetId).map .seq).toList
  | .create parentId _ _ => [.node parentId]
  | .promote nodeId _ _ => [.node nodeId]
  | .split nodeId _ _ => [.node nodeId]
  | .collapse nodeId _ _ _ => [.node nodeId]
  | .merge nodeIds _ _ _ => nodeIds.map .node
  | .supersede oldSeq newSeq _ => [.seq oldSeq, .seq newSeq]

/-- `refusal_subject`. -/
def refusalSubject : Proposal → String
  | .file parentId _ _ _ _ _ => parentId
  | .create parentId _ _ => parentId
  | .promote nodeId _ _ => nodeId
  | .split nodeId _ _ => nodeId
  | .collapse nodeId _ _ _ => nodeId
  | .merge nodeIds _ _ _ => nodeIds.head?.getD ""
  | .supersede oldSeq _ _ => i64ToString oldSeq

/-- The batch under way: the store, the counts, and the classes to which filings
under a parent and a title are redirected. -/
structure Batch where
  store : Store
  out : Staged
  redirects : List ((String × String) × String)

section batch

variable (h : Host) (u : Unicode) (catalog : List NodeRow) (now : ℤ) (run : Option ℤ)
  (actor : String)

/-- Journal the refusal, and record it. -/
def refuse (p : Proposal) (reason : String) (b : Batch) : Batch :=
  let s := match run with
    | some run => b.store.tryJournal run (.refused (opOf p) (subjectsOf p) reason)
    | none => b.store
  { b with
    store := s.recordCurate h now actor (refusalSubject p) "refuse" s!"{(opOf p).name}: {reason}"
    out := { b.out with refused := b.out.refused + 1 } }

/-- Stage a proposal, and count what came of it. -/
def stage (p : Proposal) (b : Batch) : Except DbError Batch := do
  let (s, outcome) ← b.store.stageProposal h now run p
  return { b with store := s, out := { b.out with result := countStaged outcome b.out.result } }

/-- Where a filing goes: under the twin of its sub-class, or where it says. -/
def filedUnder (b : Batch) (parentId : String) (subClass : Option String) : String × Option String :=
  match (subClass.map trim).filter (· ≠ "") with
  | none => (parentId, subClass)
  | some sc =>
    match b.redirects.find? fun r => r.1 = (parentId, u.toLowercase sc) with
    | some r => (r.2, none)
    | none =>
      match adjudicateCreate u catalog parentId sc with
      | .redirect toNode _ => (toNode, none)
      | _ => (parentId, subClass)

/-- Queue the merge of twins that stand already. -/
def enqueueMerge (title : String) (ids : Option (List String)) (b : Batch) : Except DbError Batch :=
  match ids with
  | none => .ok b
  | some ids => do
    let (s, outcome) ← b.store.stageProposal h now run
      (.merge ids (some title) none (some "twin classes (B3 create rule)"))
    let b := { b with store := s }
    if outcome = .structural then
      return { b with out := { b.out with
        mergesEnqueued := b.out.mergesEnqueued + 1
        result := { b.out.result with structural := b.out.result.structural + 1 } } }
    else return b

/-- One proposal of the batch. -/
def stageOne (b : Batch) (p : Proposal) : Except DbError Batch :=
  match p with
  | .file parentId subClass targetKind targetId note rationale =>
    let (parent, sub) := filedUnder u catalog b parentId subClass
    match adjudicateFile h catalog b.store parent targetKind targetId with
    | .apply => stage h now run (.file parent sub targetKind targetId note rationale) b
    | .refuse reason => .ok (refuse h now run actor p reason b)
    | .redirect _ _ => .ok (refuse h now run actor p "file cannot redirect" b)
  | .create parentId title _ =>
    match adjudicateCreate u catalog parentId title with
    | .apply => stage h now run p b
    | .refuse reason => .ok (refuse h now run actor p reason b)
    | .redirect toNode ids =>
      let b := { b with
        out := { b.out with redirected := b.out.redirected + 1 }
        redirects := ((parentId, u.toLowercase (trim title)), toNode) :: b.redirects }
      enqueueMerge h now run title ids (refuse h now run actor p
        s!"duplicate of {toNode} (title Jaccard ≥ 0.8)" b)
  | .supersede oldSeq newSeq _ =>
    match b.store.event? oldSeq, b.store.event? newSeq with
    | some o, some n =>
      if o.kind ∉ decisionKinds ∨ n.kind ∉ decisionKinds then
        .ok (refuse h now run actor p "only decision events supersede" b)
      else stage h now run p b
    | _, _ => .ok (refuse h now run actor p "a seq does not exist" b)
  | _ => stage h now run p b

/-- The batch, up to the first proposal that the store fails on. -/
def stageAll : List Proposal → Batch → Batch × Option DbError
  | [], b => (b, none)
  | p :: ps, b =>
    match stageOne h u catalog now run actor b p with
    | .error e => (b, some e)
    | .ok b' => stageAll ps b'

end batch

/-- `stage_adjudicated`. -/
def stageAdjudicated (h : Host) (u : Unicode) (s : Store) (now : ℤ) (run : Option ℤ)
    (proposals : List Proposal) (actor : String) : Store × Except DbError Staged :=
  match stageAll h u s.listClassNodes now run actor proposals ⟨s, .zero, []⟩ with
  | (b, none) => (b.store, .ok b.out)
  | (b, some e) => (b.store, .error e)

/-! ### What a step makes -/

/-- The child that staging a proposal makes: its parent and its title. -/
def childOf (s : Store) (run : Option ℤ) (p : Proposal) : Option (String × String) :=
  if run.any s.runSourceForgotten || s.namesForgotten p then none
  else
    match p with
    | .create parentId title _ =>
      if !s.nodeExists parentId || (s.childTitled? parentId title).isSome then none
      else some (parentId, title)
    | .file parentId subClass _ _ _ _ =>
      if !s.nodeExists parentId then none
      else
        match (subClass.map trim).filter (· ≠ "") with
        | none => none
        | some sc => if (s.childTitled? parentId sc).isSome then none else some (parentId, sc)
    | _ => none

/-- The child that a step of the batch makes. -/
def makes (h : Host) (u : Unicode) (catalog : List NodeRow) (run : Option ℤ) (b : Batch)
    (p : Proposal) : Option (String × String) :=
  match p with
  | .file parentId subClass targetKind targetId note rationale =>
    let f := filedUnder u catalog b parentId subClass
    if adjudicateFile h catalog b.store f.1 targetKind targetId = .apply then
      childOf b.store run (.file f.1 f.2 targetKind targetId note rationale)
    else none
  | .create parentId title _ =>
    if adjudicateCreate u catalog parentId title = .apply then childOf b.store run p else none
  | _ => none

/-- The row of a child. -/
def childRow (now : ℤ) (id : String) (child : String × String) : NodeRow :=
  newRow now .node (some child.1) child.2 none "classifier" id

section nodes

variable {h : Host} {u : Unicode} {catalog : List NodeRow} {now : ℤ} {run : Option ℤ} {actor : String}
  {s s' : Store} {b b' : Batch} {p : Proposal}

theorem nodes_journalApplied {subjects : List Subject} {image : Image}
    (hj : s.journalApplied run subjects image = .ok s') : s'.nodes = s.nodes := by
  cases run with
  | none =>
    cases hj
    rfl
  | some run => exact (quiet_journalOp hj).nodes

theorem nodes_createChild {parentId title id : String}
    (hc : s.createChild h now run parentId title = .ok (s', id)) :
    s'.nodes.rows = s.nodes.rows ++ [childRow now id (parentId, title)] := by
  obtain ⟨⟨s₁, id⟩, hi, hc⟩ := bind_eq_ok.mp hc
  obtain ⟨s₂, hj, hc⟩ := bind_eq_ok.mp hc
  cases hc
  obtain ⟨-, nodes, hins, rfl⟩ := insertNode_ok hi
  rw [nodes_journalApplied hj]
  exact (Table.insert?_eq_some.mp hins).2

theorem nodes_fileLink {node targetKind targetId : String} {note : Option String} {linked : Bool}
    (hl : s.fileLink now run node targetKind targetId note = .ok (s', linked)) :
    s'.nodes = s.nodes := by
  unfold fileLink at hl
  split at hl
  · split at hl
    · cases hl
      rfl
    · obtain ⟨s₂, hj, hl⟩ := bind_eq_ok.mp hl
      cases hl
      have hnodes := nodes_journalApplied hj
      exact hnodes
  · split at hl
    · cases hl
    · obtain ⟨s₂, hj, hl⟩ := bind_eq_ok.mp hl
      cases hl
      have hnodes := nodes_journalApplied hj
      exact hnodes

/-- Only a create and a filing make a child. -/
theorem childOf_eq_none (hcreate : ∀ parentId title rationale, p ≠ .create parentId title rationale)
    (hfile : ∀ parentId subClass targetKind targetId note rationale,
      p ≠ .file parentId subClass targetKind targetId note rationale) : childOf s run p = none := by
  unfold childOf
  split_ifs
  · rfl
  · cases p with
    | create parentId title rationale => exact absurd rfl (hcreate parentId title rationale)
    | file parentId subClass targetKind targetId note rationale =>
      exact absurd rfl (hfile parentId subClass targetKind targetId note rationale)
    | _ => rfl

/-- **Staging adds the child it makes** to the classes, and no other row. -/
theorem stageProposal_nodes {out : StagedOutcome} (hp : s.stageProposal h now run p = .ok (s', out)) :
    ∃ id, s'.nodes.rows = s.nodes.rows ++ (childOf s run p).toList.map (childRow now id) := by
  unfold stageProposal at hp
  unfold childOf
  split_ifs at hp ⊢ with hskip
  · cases hp
    exact ⟨"", (List.append_nil _).symm⟩
  · cases p with
    | create parentId title rationale =>
      dsimp only at hp ⊢
      split_ifs at hp ⊢ with hdup
      · cases hp
        exact ⟨"", (List.append_nil _).symm⟩
      · obtain ⟨⟨s₁, id⟩, hc, hp⟩ := bind_eq_ok.mp hp
        cases hp
        exact ⟨id, nodes_createChild hc⟩
    | file parentId subClass targetKind targetId note rationale =>
      dsimp only at hp ⊢
      split_ifs at hp ⊢ with hparent
      · cases hp
        exact ⟨"", (List.append_nil _).symm⟩
      · obtain ⟨⟨s₁, node, made⟩, hn, hp⟩ := bind_eq_ok.mp hp
        obtain ⟨⟨s₂, linked⟩, hl, hp⟩ := bind_eq_ok.mp hp
        cases hp
        rw [nodes_fileLink hl]
        unfold filingNode at hn
        cases subClass with
        | none =>
          cases hn
          exact ⟨"", (List.append_nil _).symm⟩
        | some sc =>
          dsimp only [Option.map_some] at hn ⊢
          by_cases hblank : trim sc = ""
          · rw [if_pos hblank] at hn
            cases hn
            rw [Option.filter_some, if_neg (by simp [hblank])]
            exact ⟨"", (List.append_nil _).symm⟩
          · rw [if_neg hblank] at hn
            rw [Option.filter_some, if_pos (by simp [hblank])]
            dsimp only
            cases hchild : s.childTitled? parentId (trim sc) with
            | some id =>
              rw [hchild] at hn
              cases hn
              exact ⟨"", (List.append_nil _).symm⟩
            | none =>
              rw [hchild] at hn
              obtain ⟨⟨s₃, id⟩, hc, hn⟩ := bind_eq_ok.mp hn
              cases hn
              exact ⟨id, nodes_createChild hc⟩
    | _ =>
      dsimp only at hp
      split_ifs at hp
      all_goals
        cases hp
        exact ⟨"", (List.append_nil _).symm⟩

theorem nodes_refuse {reason : String} :
    (refuse h now run actor p reason b).store.nodes = b.store.nodes := by
  unfold refuse
  dsimp only
  rw [(quiet_recordCurate ..).nodes]
  cases run with
  | none => rfl
  | some run => exact (quiet_tryJournal ..).nodes

theorem nodes_stage (hp : stage h now run p b = .ok b') :
    ∃ id, b'.store.nodes.rows =
      b.store.nodes.rows ++ (childOf b.store run p).toList.map (childRow now id) := by
  obtain ⟨⟨s, out⟩, hs, hp⟩ := bind_eq_ok.mp hp
  cases hp
  exact stageProposal_nodes hs

theorem nodes_enqueueMerge {title : String} {ids : Option (List String)}
    (hp : enqueueMerge h now run title ids b = .ok b') :
    b'.store.nodes.rows = b.store.nodes.rows := by
  unfold enqueueMerge at hp
  cases ids with
  | none =>
    cases hp
    rfl
  | some ids =>
    obtain ⟨⟨s, out⟩, hs, hp⟩ := bind_eq_ok.mp hp
    obtain ⟨id, hnodes⟩ := stageProposal_nodes hs
    rw [childOf_eq_none (by simp) (by simp), Option.toList_none, List.map_nil,
      List.append_nil] at hnodes
    dsimp only at hp
    split_ifs at hp
    · cases hp
      exact hnodes
    · cases hp
      exact hnodes

/-- **A step adds the child it makes** to the classes, and no other row. -/
theorem stageOne_nodes (hp : stageOne h u catalog now run actor b p = .ok b') :
    ∃ id, b'.store.nodes.rows =
      b.store.nodes.rows ++ (makes h u catalog run b p).toList.map (childRow now id) := by
  have hsame : b'.store.nodes.rows = b.store.nodes.rows → ∃ id, b'.store.nodes.rows =
      b.store.nodes.rows ++ (none : Option (String × String)).toList.map (childRow now id) :=
    fun hrows => ⟨"", hrows.trans (List.append_nil _).symm⟩
  unfold stageOne at hp
  unfold makes
  cases p with
  | file parentId subClass targetKind targetId note rationale =>
    dsimp only at hp ⊢
    cases hverdict : adjudicateFile h catalog b.store (filedUnder u catalog b parentId subClass).1
        targetKind targetId with
    | apply =>
      rw [hverdict] at hp
      rw [if_pos rfl]
      exact nodes_stage hp
    | refuse reason =>
      rw [hverdict] at hp
      cases hp
      rw [if_neg (by simp)]
      exact hsame (congrArg Table.rows nodes_refuse)
    | redirect toNode ids =>
      rw [hverdict] at hp
      cases hp
      rw [if_neg (by simp)]
      exact hsame (congrArg Table.rows nodes_refuse)
  | create parentId title rationale =>
    dsimp only at hp ⊢
    cases hverdict : adjudicateCreate u catalog parentId title with
    | apply =>
      rw [hverdict] at hp
      rw [if_pos rfl]
      exact nodes_stage hp
    | refuse reason =>
      rw [hverdict] at hp
      cases hp
      rw [if_neg (by simp)]
      exact hsame (congrArg Table.rows nodes_refuse)
    | redirect toNode ids =>
      rw [hverdict] at hp
      rw [if_neg (by simp)]
      apply hsame
      rw [nodes_enqueueMerge hp, nodes_refuse]
  | supersede oldSeq newSeq rationale =>
    dsimp only at hp ⊢
    split at hp
    · split_ifs at hp
      · cases hp
        exact hsame (congrArg Table.rows nodes_refuse)
      · have hnodes := nodes_stage hp
        rw [childOf_eq_none (by simp) (by simp)] at hnodes
        exact hnodes
    · cases hp
      exact hsame (congrArg Table.rows nodes_refuse)
  | _ =>
    have hnodes := nodes_stage hp
    rw [childOf_eq_none (by simp) (by simp)] at hnodes
    exact hnodes

end nodes

/-! ### Twins -/

/-- Two live classes under one parent whose titles are the same class. -/
def Twins (u : Unicode) (a b : NodeRow) : Prop :=
  (a.live = true ∧ a.kind = .node) ∧ (b.live = true ∧ b.kind = .node) ∧
    a.parentId = b.parentId ∧ u.titlesAgree a.title b.title = true

/-- No two classes are twins. -/
def TwinFree (u : Unicode) (s : Store) : Prop :=
  ∀ a ∈ s.nodes.rows, ∀ b ∈ s.nodes.rows, a ≠ b → ¬ Twins u a b

/-- The child that a step makes is no twin of a class that the batch has made
before. -/
def Apart (h : Host) (u : Unicode) (catalog : List NodeRow) (run : Option ℤ) (b : Batch)
    (p : Proposal) : Prop :=
  ∀ child, makes h u catalog run b p = some child → ∀ n ∈ b.store.nodes.rows, n ∉ catalog →
    n.live = true → n.kind = .node → n.parentId = some child.1 →
      u.titlesAgree n.title child.2 = false

/-- Each step of a batch that the store does not fail on is so, in the state before
it. -/
def StepsApart (h : Host) (u : Unicode) (catalog : List NodeRow) (now : ℤ) (run : Option ℤ)
    (actor : String) : List Proposal → Batch → Prop
  | [], _ => True
  | p :: ps, b =>
    match stageOne h u catalog now run actor b p with
    | .error _ => True
    | .ok b' => Apart h u catalog run b p ∧ StepsApart h u catalog now run actor ps b'

theorem titlesAgree_comm (u : Unicode) (a b : String) : u.titlesAgree a b = u.titlesAgree b a := by
  have hshared : ((u.words a).filter (· ∈ u.words b)).length =
      ((u.words b).filter (· ∈ u.words a)).length := by
    apply List.Perm.length_eq
    apply (List.perm_ext_iff_of_nodup ((List.nodup_dedup _).filter _)
      ((List.nodup_dedup _).filter _)).mpr
    intro w
    simp only [List.mem_filter, decide_eq_true_eq]
    exact and_comm
  unfold Unicode.titlesAgree
  rw [hshared, Nat.add_comm (u.words a).length]

section twins

variable {h : Host} {u : Unicode} {catalog : List NodeRow} {now : ℤ} {run : Option ℤ} {actor : String}
  {s s' : Store} {b b' : Batch} {p : Proposal}

theorem Twins.symm {a b : NodeRow} (h : Twins u a b) : Twins u b a := by
  obtain ⟨ha, hb, hparent, hagree⟩ := h
  rw [titlesAgree_comm] at hagree
  exact ⟨hb, ha, hparent.symm, hagree⟩

/-- One class more leaves no twins if and only if there were none and it is no one's
twin. -/
theorem twinFree_append {n : NodeRow} (hrows : s'.nodes.rows = s.nodes.rows ++ [n]) :
    TwinFree u s' ↔ TwinFree u s ∧ ∀ a ∈ s.nodes.rows, ¬ Twins u a n := by
  have hnew : n ∉ s.nodes.rows := by
    have hnodup := s'.nodes.nodup.of_map
    rw [hrows, List.nodup_append] at hnodup
    intro hmem
    exact hnodup.2.2 n hmem n (List.mem_singleton_self n) rfl
  have hold : ∀ a ∈ s.nodes.rows, a ∈ s'.nodes.rows := by
    intro a ha
    rw [hrows]
    exact List.mem_append_left _ ha
  have hlast : n ∈ s'.nodes.rows := by
    rw [hrows]
    exact List.mem_append_right _ (List.mem_singleton_self n)
  constructor
  · intro hfree
    refine ⟨fun a ha b hb => hfree a (hold a ha) b (hold b hb), fun a ha => ?_⟩
    apply hfree a (hold a ha) n hlast
    rintro rfl
    exact hnew ha
  · rintro ⟨hfree, hapart⟩ a ha b hb hne htwins
    rw [hrows, List.mem_append, List.mem_singleton] at ha hb
    rcases ha with ha | rfl
    · rcases hb with hb | rfl
      · exact hfree a ha b hb hne htwins
      · exact hapart a ha htwins
    · rcases hb with hb | rfl
      · exact hapart b hb htwins.symm
      · exact hne rfl

/-- What the twin rule admits has no twin in the catalog. -/
theorem adjudicateCreate_apply {parentId title : String}
    (hverdict : adjudicateCreate u catalog parentId title = .apply) {n : NodeRow} (hn : n ∈ catalog)
    (hkind : n.kind = .node) (hparent : n.parentId = some parentId) :
    u.titlesAgree n.title title = false := by
  unfold adjudicateCreate at hverdict
  split_ifs at hverdict
  split at hverdict
  · rename_i hnone
    by_contra hagree
    rw [Bool.not_eq_false] at hagree
    have hmem : n ∈ (siblingsUnder catalog parentId).filter fun n => u.titlesAgree n.title title := by
      unfold siblingsUnder
      simp [hn, hkind, hparent, hagree]
    rw [hnone] at hmem
    exact absurd hmem List.not_mem_nil
  · cases hverdict
  · cases hverdict

theorem childOf_create {parentId title : String} {rationale : Option String}
    {child : String × String} (hchild : childOf s run (.create parentId title rationale) = some child) :
    child = (parentId, title) := by
  unfold childOf at hchild
  dsimp only at hchild
  split_ifs at hchild
  exact (Option.some.inj hchild).symm

theorem childOf_file {parentId targetKind targetId : String} {subClass note rationale : Option String}
    {child : String × String}
    (hchild : childOf s run (.file parentId subClass targetKind targetId note rationale) = some child) :
    child.1 = parentId ∧ (subClass.map trim).filter (· ≠ "") = some child.2 := by
  unfold childOf at hchild
  dsimp only at hchild
  split_ifs at hchild
  cases hsub : (subClass.map trim).filter (· ≠ "") with
  | none =>
    rw [hsub] at hchild
    cases hchild
  | some sc =>
    rw [hsub] at hchild
    dsimp only at hchild
    split_ifs at hchild
    obtain rfl := Option.some.inj hchild
    exact ⟨rfl, rfl⟩

/-- A filing that is admitted is under a class of the catalog. -/
theorem adjudicateFile_apply {parentId targetKind targetId : String}
    (hverdict : adjudicateFile h catalog s parentId targetKind targetId = .apply) :
    (getNode catalog parentId).isNone = false := by
  by_contra hnone
  rw [Bool.not_eq_false, Option.isNone_iff_eq_none] at hnone
  have hroot : rootOf catalog rootGuard parentId = none := by
    unfold rootGuard rootOf
    rw [hnone]
    rfl
  unfold adjudicateFile at hverdict
  rw [hroot] at hverdict
  cases hverdict

/-- **What a step makes** has no twin in the catalog. -/
theorem makes_apart {child : String × String} (hmakes : makes h u catalog run b p = some child)
    {n : NodeRow} (hn : n ∈ catalog) (hkind : n.kind = .node) (hparent : n.parentId = some child.1) :
    u.titlesAgree n.title child.2 = false := by
  unfold makes at hmakes
  cases p with
  | create parentId title rationale =>
    dsimp only at hmakes
    split_ifs at hmakes with hverdict
    obtain rfl := childOf_create hmakes
    exact adjudicateCreate_apply hverdict hn hkind hparent
  | file parentId subClass targetKind targetId note rationale =>
    dsimp only at hmakes
    split_ifs at hmakes with hverdict
    obtain ⟨hchild, hsub⟩ := childOf_file hmakes
    have hlive := adjudicateFile_apply hverdict
    have hnone : ∀ parent : String, (parent, (none : Option String)).2 =
        (filedUnder u catalog b parentId subClass).2 → False := by
      intro parent hsubClass
      rw [← hsubClass] at hsub
      cases hsub
    -- only a filing that is redirected nowhere makes a class
    unfold filedUnder at hchild hsub hlive hnone
    cases htitle : (subClass.map trim).filter (· ≠ "") with
    | none =>
      rw [htitle] at hsub
      rw [htitle] at hsub
      cases hsub
    | some sc =>
      rw [htitle] at hchild hsub hlive hnone
      dsimp only at hchild hsub hlive hnone
      cases hfound : b.redirects.find? fun r => r.1 = (parentId, u.toLowercase sc) with
      | some r =>
        rw [hfound] at hnone
        exact (hnone r.2 rfl).elim
      | none =>
        rw [hfound] at hchild hsub hlive hnone
        dsimp only at hchild hsub hlive hnone
        cases hcreate : adjudicateCreate u catalog parentId sc with
        | apply =>
          rw [hcreate] at hchild hsub
          rw [htitle] at hsub
          obtain rfl := Option.some.inj hsub
          rw [hchild] at hparent
          exact adjudicateCreate_apply hcreate hn hkind hparent
        | redirect toNode ids =>
          rw [hcreate] at hnone
          exact (hnone toNode rfl).elim
        | refuse reason =>
          rw [hcreate] at hlive
          unfold adjudicateCreate at hcreate
          rw [if_neg (by rw [hlive]; exact Bool.false_ne_true)] at hcreate
          split at hcreate
          all_goals cases hcreate
  | _ => cases hmakes

/-- A step leaves no twins if and only if there were none and what it makes is no
twin of what the batch made before. -/
theorem stageOne_twinFree_iff (hp : stageOne h u catalog now run actor b p = .ok b') :
    TwinFree u b'.store ↔ TwinFree u b.store ∧ Apart h u catalog run b p := by
  obtain ⟨id, hrows⟩ := stageOne_nodes hp
  unfold Apart
  cases hmakes : makes h u catalog run b p with
  | none =>
    rw [hmakes, Option.toList_none, List.map_nil, List.append_nil] at hrows
    unfold TwinFree
    rw [hrows]
    simp
  | some child =>
    rw [hmakes] at hrows
    rw [twinFree_append hrows]
    refine and_congr_right fun _ => ⟨fun hapart => ?_, fun hapart => ?_⟩
    · intro child' hchild n hn _ hlive hkind hparent
      obtain rfl := Option.some.inj hchild
      by_contra hagree
      rw [Bool.not_eq_false] at hagree
      exact hapart n hn ⟨⟨hlive, hkind⟩, ⟨rfl, rfl⟩, hparent, hagree⟩
    · rintro n hn ⟨⟨hlive, hkind⟩, -, hparent, hagree⟩
      have hdiffer : u.titlesAgree n.title child.2 = false := by
        by_cases hmem : n ∈ catalog
        · exact makes_apart hmakes hmem hkind hparent
        · exact hapart child rfl n hn hmem hlive hkind hparent
      have hagree : u.titlesAgree n.title child.2 = true := hagree
      rw [hdiffer] at hagree
      cases hagree

/-- A batch takes no class away. -/
theorem stageAll_rows (ps : List Proposal) : ∀ b : Batch,
    b.store.nodes.rows <+: (stageAll h u catalog now run actor ps b).1.store.nodes.rows := by
  induction ps with
  | nil => exact fun b => List.prefix_rfl
  | cons p ps ih =>
    intro b
    unfold stageAll
    cases hp : stageOne h u catalog now run actor b p with
    | error e => exact List.prefix_rfl
    | ok b' =>
      obtain ⟨id, hrows⟩ := stageOne_nodes hp
      have hstep : b.store.nodes.rows <+: b'.store.nodes.rows := by
        rw [hrows]
        exact List.prefix_append _ _
      exact hstep.trans (ih b')

theorem TwinFree.of_rows (hrows : s.nodes.rows <+: s'.nodes.rows) (hfree : TwinFree u s') :
    TwinFree u s :=
  fun a ha b hb => hfree a (hrows.subset ha) b (hrows.subset hb)

/-- A batch leaves no twins if and only if each step makes none of what the batch made
before: what one step makes stays. -/
theorem stageAll_twinFree_iff (ps : List Proposal) : ∀ b : Batch, TwinFree u b.store →
    (TwinFree u (stageAll h u catalog now run actor ps b).1.store ↔
      StepsApart h u catalog now run actor ps b) := by
  induction ps with
  | nil => exact fun b hfree => iff_of_true hfree trivial
  | cons p ps ih =>
    intro b hfree
    unfold stageAll StepsApart
    cases hp : stageOne h u catalog now run actor b p with
    | error e => exact iff_of_true hfree trivial
    | ok b' =>
      have hstep := stageOne_twinFree_iff hp
      dsimp only
      by_cases hapart : Apart h u catalog run b p
      · rw [ih b' (hstep.mpr ⟨hfree, hapart⟩)]
        exact (and_iff_right hapart).symm
      · refine iff_of_false (fun hend => ?_) fun hsteps => hapart hsteps.1
        have hnext : TwinFree u b'.store := TwinFree.of_rows (stageAll_rows ps b') hend
        exact hapart (hstep.mp hnext).2

/-- **A batch leaves no twins**, over a catalog without any, if and only if no step
makes a twin of a class that the batch made before. -/
theorem stageAdjudicated_twinFree_iff (h : Host) (u : Unicode) (s : Store) (now : ℤ)
    (run : Option ℤ) (proposals : List Proposal) (actor : String) (hfree : TwinFree u s) :
    TwinFree u (stageAdjudicated h u s now run proposals actor).1 ↔
      StepsApart h u s.listClassNodes now run actor proposals ⟨s, .zero, []⟩ := by
  have hend : (stageAdjudicated h u s now run proposals actor).1 =
      (stageAll h u s.listClassNodes now run actor proposals ⟨s, .zero, []⟩).1.store := by
    unfold stageAdjudicated
    split
    · next hall => rw [hall]
    · next hall => rw [hall]
  rw [hend]
  exact stageAll_twinFree_iff proposals _ hfree

end twins

/-! ### Twins of one batch -/

/-- A root. -/
def oneRoot : Store := { Store.empty with nodes := ⟨[classRow none "repo" "r"], by decide⟩ }

/-- Two classes are asked for under the root. -/
def twoCreates (title title' : String) : List Proposal :=
  [.create "r" title none, .create "r" title' none]

theorem oneRoot_twinFree : TwinFree Unicode.ascii oneRoot := by
  intro a ha b hb hne
  obtain rfl := List.mem_singleton.mp ha
  obtain rfl := List.mem_singleton.mp hb
  exact absurd rfl hne

/-- What the two creates leave. -/
theorem rows_twoCreates_tests :
    (stageAdjudicated Host.plain Unicode.ascii oneRoot 5 none (twoCreates "Deploys" "Tests")
      "agent").1.nodes.rows = [classRow none "repo" "r",
        childRow 5 (Host.plain.newNodeId 0) ("r", "Deploys"),
        childRow 5 (Host.plain.newNodeId 1) ("r", "Tests")] := by
  decide +kernel

theorem deploys_tests_apart :
    StepsApart Host.plain Unicode.ascii oneRoot.listClassNodes 5 none "agent"
      (twoCreates "Deploys" "Tests") ⟨oneRoot, .zero, []⟩ := by
  apply (stageAdjudicated_twinFree_iff Host.plain Unicode.ascii oneRoot 5 none
    (twoCreates "Deploys" "Tests") "agent" oneRoot_twinFree).mp
  unfold TwinFree
  rw [rows_twoCreates_tests]
  unfold Twins
  decide +kernel

/-- Two classes of one batch whose titles are the same but for the letter case. -/
theorem deploys_twice : ¬ ∀ (h : Host) (u : Unicode) (s : Store) (now : ℤ) (run : Option ℤ)
    (proposals : List Proposal) (actor : String), TwinFree u s →
      TwinFree u (stageAdjudicated h u s now run proposals actor).1 := by
  intro hall
  have hfree := hall Host.plain Unicode.ascii oneRoot 5 none (twoCreates "Deploys" "deploys") "agent"
    oneRoot_twinFree
  have hrows : (stageAdjudicated Host.plain Unicode.ascii oneRoot 5 none
      (twoCreates "Deploys" "deploys") "agent").1.nodes.rows =
      [classRow none "repo" "r", childRow 5 (Host.plain.newNodeId 0) ("r", "Deploys"),
        childRow 5 (Host.plain.newNodeId 1) ("r", "deploys")] := by
    decide +kernel
  unfold TwinFree at hfree
  rw [hrows] at hfree
  apply hfree (childRow 5 (Host.plain.newNodeId 0) ("r", "Deploys")) (by simp)
    (childRow 5 (Host.plain.newNodeId 1) ("r", "deploys")) (by simp)
  · decide
  · unfold Twins
    decide +kernel

end Staging

end PolisMemory
