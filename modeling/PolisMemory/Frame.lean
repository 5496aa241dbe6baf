/-
# What an op writes

The catalog is cells: a field of a class node, a link, an observation. The
image an op leaves in the journal names every cell the op wrote
(`Image.writes`) and every cell its inverse will write (`Image.undoes`), and
both keep to them: a write of a run changes no cell but those in the images of
the ops it journals (`RunWrite.exec_journaled`), and undoing an op changes none
but those in its image (`within_invertOp`). This holds of every store, with no
condition on the op.

Key definitions: `Cell`, `SameCell`, `Within`, `Image.writes`, `Image.undoes`.
Key theorems: `RunWrite.exec_journaled`, `within_invertOp`, `within_undoOps`.
-/
import PolisMemory.Sourcing
import PolisMemory.Revert

namespace PolisMemory

open Tables Store

/-! ### Cells -/

/-- The fields of a class node that ops write, and the rest of its row. -/
inductive NodeField
  | parent
  | title
  | updatedAt
  | retiredByRun
  | retiredInto
  | rest
  deriving DecidableEq, Repr

/-- A field of a class node, a link or an observation. -/
inductive Cell
  | node (id : String) (f : NodeField)
  | link (id : ℤ)
  | observation (id : ℤ)
  deriving DecidableEq, Repr

/-- A node's row without the fields that ops write. -/
def NodeRow.rest (n : NodeRow) : NodeRow := { n.face with parentId := none, title := "" }

/-- Two rows have the field alike. -/
def NodeField.Same (a b : NodeRow) : NodeField → Prop
  | .parent => b.parentId = a.parentId
  | .title => b.title = a.title
  | .updatedAt => b.updatedAt = a.updatedAt
  | .retiredByRun => b.retiredByRun = a.retiredByRun
  | .retiredInto => b.retiredInto = a.retiredInto
  | .rest => b.rest = a.rest

theorem NodeField.Same.refl (a : NodeRow) (f : NodeField) : f.Same a a := by
  cases f <;> rfl

theorem NodeField.Same.trans {a b c : NodeRow} {f : NodeField} (h : f.Same a b) (h' : f.Same b c) :
    f.Same a c := by
  cases f <;> exact Eq.trans h' h

/-- Two stores have the cell alike. -/
def SameCell (s s' : Store) : Cell → Prop
  | .node id f => Option.Rel f.Same (s.nodes.get? id) (s'.nodes.get? id)
  | .link id => s'.links.get? id = s.links.get? id
  | .observation id => s'.observations.get? id = s.observations.get? id

theorem rel_map {α : Type} {R : α → α → Prop} {x : Option α} {g : α → α}
    (h : ∀ a, x = some a → R a (g a)) : Option.Rel R x (x.map g) := by
  cases x with
  | none => exact .none
  | some a => exact .some (h a rfl)

theorem SameCell.refl (s : Store) (c : Cell) : SameCell s s c := by
  cases c with
  | node id f =>
    change Option.Rel f.Same (s.nodes.get? id) (s.nodes.get? id)
    cases s.nodes.get? id with
    | none => exact .none
    | some a => exact .some (.refl a f)
  | link id => rfl
  | observation id => rfl

theorem SameCell.trans {s₁ s₂ s₃ : Store} {c : Cell} (h : SameCell s₁ s₂ c)
    (h' : SameCell s₂ s₃ c) : SameCell s₁ s₃ c := by
  cases c with
  | node id f =>
    simp only [SameCell] at h h' ⊢
    revert h h'
    generalize s₁.nodes.get? id = x
    generalize s₂.nodes.get? id = y
    generalize s₃.nodes.get? id = z
    rintro (h | _) (h' | _)
    · exact .some (h.trans h')
    · exact .none
  | link id => exact Eq.trans h' h
  | observation id => exact Eq.trans h' h

/-- Every cell outside the list is alike. -/
def Within (cells : List Cell) (s s' : Store) : Prop := ∀ c ∉ cells, SameCell s s' c

theorem Within.refl (cells : List Cell) (s : Store) : Within cells s s := fun c _ => .refl s c

theorem Within.trans {cells : List Cell} {s₁ s₂ s₃ : Store} (h : Within cells s₁ s₂)
    (h' : Within cells s₂ s₃) : Within cells s₁ s₃ := fun c hc => (h c hc).trans (h' c hc)

theorem Within.mono {cells cells' : List Cell} {s s' : Store} (h : Within cells s s')
    (hsub : cells ⊆ cells') : Within cells' s s' := fun c hc => h c fun hm => hc (hsub hm)

theorem SameCatalog.within {s s' : Store} (h : SameCatalog s s') (cells : List Cell) :
    Within cells s s' := by
  intro c _
  have hrefl := SameCell.refl s c
  cases c with
  | node id f =>
    simp only [SameCell] at hrefl ⊢
    rw [h.nodes]
    exact hrefl
  | link id => simp only [SameCell, h.links]
  | observation id => simp only [SameCell, h.observations]

/-- A change row by row, said for each table. -/
theorem within_of_map {cells : List Cell} {s s' : Store} (gn : String → NodeRow → NodeRow)
    (gl : ℤ → LinkRow → LinkRow) (go : ℤ → ObservationRow → ObservationRow)
    (hn : ∀ id, s'.nodes.get? id = (s.nodes.get? id).map (gn id))
    (hl : ∀ id, s'.links.get? id = (s.links.get? id).map (gl id))
    (ho : ∀ id, s'.observations.get? id = (s.observations.get? id).map (go id))
    (hfn : ∀ id f a, s.nodes.get? id = some a → .node id f ∉ cells → f.Same a (gn id a))
    (hfl : ∀ id a, s.links.get? id = some a → .link id ∉ cells → gl id a = a)
    (hfo : ∀ id a, s.observations.get? id = some a → .observation id ∉ cells → go id a = a) :
    Within cells s s' := by
  intro c hc
  cases c with
  | node id f =>
    simp only [SameCell]
    rw [hn]
    exact rel_map fun a ha => hfn id f a ha hc
  | link id =>
    simp only [SameCell]
    rw [hl]
    cases ha : s.links.get? id with
    | none => rfl
    | some a => rw [Option.map_some, hfl id a ha hc]
  | observation id =>
    simp only [SameCell]
    rw [ho]
    cases ha : s.observations.get? id with
    | none => rfl
    | some a => rw [Option.map_some, hfo id a ha hc]

theorem map_id_get {α : Type} (x : Option α) : x = x.map fun a => a := Option.map_id'.symm

/-- A change of node rows only. -/
theorem within_nodes {cells : List Cell} {s s' : Store} {g : String → NodeRow → NodeRow}
    (hl : s'.links = s.links) (ho : s'.observations = s.observations)
    (hn : ∀ id, s'.nodes.get? id = (s.nodes.get? id).map (g id))
    (hf : ∀ id f a, s.nodes.get? id = some a → .node id f ∉ cells → f.Same a (g id a)) :
    Within cells s s' := by
  refine within_of_map g (fun _ a => a) (fun _ a => a) hn ?_ ?_ hf ?_ ?_
  · exact fun id => hl ▸ map_id_get _
  · exact fun id => ho ▸ map_id_get _
  · exact fun _ _ _ _ => rfl
  · exact fun _ _ _ _ => rfl

/-- A change of one node's row. -/
theorem within_updateNode {cells : List Cell} {s : Store} {x : String} {g : NodeRow → NodeRow}
    {hk : ∀ r, (g r).id = r.id} (hf : ∀ f a, .node x f ∉ cells → f.Same a (g a)) :
    Within cells s { s with nodes := s.nodes.update (fun n => n.id = x) g hk } := by
  refine within_nodes rfl rfl (fun id => Table.get?_update (h := hk)) fun id f a ha hc => ?_
  split_ifs with hm
  · have hid : x = id := (of_decide_eq_true hm).symm.trans (Table.key_of_get? ha)
    subst hid
    exact hf f a hc
  · exact .refl a f

/-- A change of link rows only. -/
theorem within_links {cells : List Cell} {s s' : Store} (hn : s'.nodes = s.nodes)
    (ho : s'.observations = s.observations)
    (hl : ∀ id, .link id ∉ cells → s'.links.get? id = s.links.get? id) : Within cells s s' := by
  intro c hc
  have hrefl := SameCell.refl s c
  cases c with
  | node id f =>
    simp only [SameCell] at hrefl ⊢
    rw [hn]
    exact hrefl
  | link id => exact hl id hc
  | observation id => simp only [SameCell, ho]

/-- A change of observation rows only. -/
theorem within_observations {cells : List Cell} {s s' : Store} (hn : s'.nodes = s.nodes)
    (hl : s'.links = s.links)
    (ho : ∀ id, .observation id ∉ cells → s'.observations.get? id = s.observations.get? id) :
    Within cells s s' := by
  intro c hc
  have hrefl := SameCell.refl s c
  cases c with
  | node id f =>
    simp only [SameCell] at hrefl ⊢
    rw [hn]
    exact hrefl
  | link id => simp only [SameCell, hl]
  | observation id => exact ho id hc

/-! ### What the images name -/

/-- Every field of a node. -/
def nodeCells (id : String) : List Cell :=
  [.node id .parent, .node id .title, .node id .updatedAt, .node id .retiredByRun,
    .node id .retiredInto, .node id .rest]

/-- The marks of a node. -/
def markCells (id : String) : List Cell := [.node id .retiredByRun, .node id .retiredInto]

theorem mem_nodeCells (id : String) (f : NodeField) : Cell.node id f ∈ nodeCells id := by
  cases f <;> simp [nodeCells]

/-- The cells a retired branch was marked in. -/
def RetiredSet.cells (set : RetiredSet) : List Cell :=
  set.nodes.flatMap markCells ++ set.links.map .link ++ set.observations.map .observation

/-- The cells a merge wrote. -/
def MergeImage.writes (m : MergeImage) : List Cell :=
  [.node m.target .title, .node m.target .parent, .node m.target .updatedAt] ++
    m.movedLinks.map (fun l => .link l.1) ++ m.leftoverLinks.map .link ++
    m.observations.map .observation ++
    m.children.flatMap (fun c => [.node c.1 .parent, .node c.1 .updatedAt]) ++
    m.absorbed.flatMap fun a => markCells a.1

/-- The cells an op wrote. -/
def Image.writes : Image → List Cell
  | .file link .. => [.link link]
  | .create node .. => nodeCells node
  | .promote node .. => [.node node .parent, .node node .updatedAt]
  | .split _ _ created => created.flatMap fun c => nodeCells c.id ++ c.linkIds.map .link
  | .merge m => m.writes
  | .collapse _ digest set citations => nodeCells digest ++ citations.map .link ++ set.cells
  | .observe id .. => [.observation id]
  | _ => []

/-- The cells the inverse of an op writes. -/
def Image.undoes : Image → List Cell
  | .file link .. => [.link link]
  | .create node .. => [.node node .retiredByRun]
  | .promote node .. => [.node node .parent]
  | .split _ _ created => created.flatMap fun c => .node c.id .retiredByRun :: c.linkIds.map .link
  | .merge m => [.node m.target .title, .node m.target .parent] ++
      m.movedLinks.map (fun l => .link l.1) ++ m.children.map (fun c => .node c.1 .parent) ++
      RetiredSet.cells ⟨m.absorbed.map fun a => a.1, m.leftoverLinks, m.observations⟩
  | .collapse _ digest set citations =>
    .node digest .retiredByRun :: citations.map .link ++ set.cells
  | .observe id .. => [.observation id]
  | _ => []

/-- The cells that a journaled op wrote. -/
def OpRow.writes (o : OpRow) : List Cell := o.preImage.elim [] Image.writes

/-! ### The rows of each op -/

namespace Store

section ops

variable {h : Host} {s s' : Store} {now run : ℤ}

theorem within_insertNode {mk : String → NodeRow} {id : String} (hmk : ∀ id, (mk id).id = id)
    (hi : s.insertNode h mk = .ok (s', id)) : Within (nodeCells id) s s' := by
  obtain ⟨-, nodes, hins, rfl⟩ := insertNode_ok hi
  intro c hc
  cases c with
  | node id' f =>
    have hne : (mk id).id ≠ id' := by
      rw [hmk]
      rintro rfl
      exact hc (mem_nodeCells id f)
    have hrefl := SameCell.refl s (.node id' f)
    simp only [SameCell] at hrefl ⊢
    rw [Table.get?_insert? hins, if_neg hne]
    exact hrefl
  | link id => rfl
  | observation id => rfl

theorem within_setParent (s : Store) (now : ℤ) (ids : List String) (parent : Option String) :
    Within (ids.flatMap fun id => [.node id .parent, .node id .updatedAt]) s
      (s.setParent now ids parent) := by
  refine within_nodes rfl rfl (fun id => get?_setParent) fun id f a _ hc => ?_
  split_ifs with hm
  · cases f
    case parent => exact absurd (List.mem_flatMap.mpr ⟨id, hm, by simp⟩) hc
    case updatedAt => exact absurd (List.mem_flatMap.mpr ⟨id, hm, by simp⟩) hc
    all_goals rfl
  · exact .refl a f

theorem RetiredBy.within {into : Option String} {ids : List String} {out out' : RetiredSet}
    (hr : RetiredBy run into ids s s' out out') : Within out'.cells s s' := by
  refine within_of_map _ _ _ hr.nodes hr.links hr.observations ?_ ?_ ?_
  · intro id f a _ hc
    split_ifs with hm
    · have hid : id ∈ out'.nodes := by
        rw [hr.outNodes]
        exact List.mem_append_right _ hm.1
      cases f
      case retiredByRun => exact absurd (by simp [RetiredSet.cells, markCells, hid]) hc
      case retiredInto => exact absurd (by simp [RetiredSet.cells, markCells, hid]) hc
      all_goals rfl
    · exact .refl a f
  · intro id a ha hc
    rw [if_neg]
    rintro hm
    have hid : id ∈ out'.links := (hr.outLinks id).mpr (.inr ⟨a, ha, hm⟩)
    exact hc (by simp [RetiredSet.cells, hid])
  · intro id a ha hc
    rw [if_neg]
    rintro hm
    have hid : id ∈ out'.observations := (hr.outObservations id).mpr (.inr ⟨a, ha, hm⟩)
    exact hc (by simp [RetiredSet.cells, hid])

theorem Cited.within {digest : String} {citations citations' : List ℤ}
    (hc : Cited digest s s' citations citations') : Within (citations'.map .link) s s' := by
  refine within_links hc.nodes hc.observations fun id hm => ?_
  cases ha : s.links.get? id with
  | some a => exact hc.old ha
  | none =>
    cases hb : s'.links.get? id with
    | none => rfl
    | some b =>
      obtain ⟨-, -, hid⟩ := hc.new ha hb
      exact absurd (List.mem_map_of_mem hid) hm

theorem within_collapse {actor detail : String} {p : ProposalRow}
    (ha : s.applyCollapse h now run actor p = .ok (s', detail)) :
    ∃ image subjects s₁, Within image.writes s s₁ ∧ SameLake s s₁ ∧
      s₁.journalOp run (.applied subjects image none) = .ok s' := by
  unfold applyCollapse at ha
  dsimp only at ha
  split at ha
  · cases ha
  obtain ⟨⟨s₁, digest⟩, hi, ha⟩ := bind_eq_ok.mp ha
  have hnode := within_insertNode (fun _ => rfl) hi
  obtain ⟨-, nodes, -, rfl⟩ := insertNode_ok hi
  have hcite := cite_eq now digest (Extra.asSeqs p.extra)
    { s with nodes := nodes, minted := s.minted + 1 } []
  have hret := retireNodes_eq run (some digest)
    ((cite now digest (Extra.asSeqs p.extra)
      { s with nodes := nodes, minted := s.minted + 1 } []).1.subtreeWalk walkGuard
        [p.nodeId.getD ""]) (cite now digest (Extra.asSeqs p.extra)
      { s with nodes := nodes, minted := s.minted + 1 } []).1 ⟨[], [], []⟩
  obtain ⟨s₄, hj, hs⟩ := bind_eq_ok.mp ha
  cases hs
  refine ⟨_, _, _, ?_, ?_, hj⟩
  · refine (hnode.mono ?_).trans ((hcite.within.mono ?_).trans (hret.within.mono ?_))
    · exact fun c hc => List.mem_append_left _ (List.mem_append_left _ hc)
    · exact fun c hc => List.mem_append_left _ (List.mem_append_right _ hc)
    · exact fun c hc => List.mem_append_right _ hc
  · exact (s.sameLake_catalog _ _ _ _).trans (hcite.lake.trans hret.lake)

/-- A merge's image names what was written so far, and what absorbing one node
writes. -/
theorem within_absorbNode (now run : ℤ) (target other : String) (row : NodeRow) (s : Store)
    (m : MergeImage) : m.writes ⊆ (absorbNode now run target other row s m).2.writes ∧
      Within (absorbNode now run target other row s m).2.writes s
        (absorbNode now run target other row s m).1 := by
  obtain ⟨moved, leftover, hab⟩ := absorbNode_eq now run target other row s m
  have himage := hab.image
  generalize (absorbNode now run target other row s m).1 = s₁ at hab ⊢
  generalize (absorbNode now run target other row s m).2 = m' at hab himage ⊢
  subst himage
  constructor
  · intro c hc
    simp only [MergeImage.writes, List.map_append, List.flatMap_append, List.mem_append] at hc ⊢
    tauto
  · refine within_of_map _ _ _ hab.nodes hab.links hab.observations ?_ ?_ ?_
    · intro id f a ha hc
      have hid := Table.key_of_get? ha
      have hkid : a.parentId = some other ∧ a.live = true → f ≠ .parent ∧ f ≠ .updatedAt := by
        intro hk
        have hm : id ∈ s.liveChildren other := mem_liveChildren.mpr ⟨a, ha, hk⟩
        constructor <;> rintro rfl <;> exact hc (by simp [MergeImage.writes, hm])
      have hother : a.id = other → f ≠ .retiredByRun ∧ f ≠ .retiredInto := by
        intro ho
        constructor <;> rintro rfl <;>
          exact hc (by simp [MergeImage.writes, markCells, ← ho, hid])
      unfold absorbedRow
      dsimp only
      split_ifs with ho hk hk
      · obtain ⟨h1, h2⟩ := hkid hk
        obtain ⟨h3, h4⟩ := hother ho
        cases f <;> first | rfl | contradiction
      · obtain ⟨h3, h4⟩ := hother ho
        cases f <;> first | rfl | contradiction
      · obtain ⟨h1, h2⟩ := hkid hk
        cases f <;> first | rfl | contradiction
      · exact .refl a f
    · intro id a ha hc
      have hmoved : id ∉ moved := fun hm => hc (by simp [MergeImage.writes, hm])
      have hleft : id ∉ leftover := fun hm => hc (by simp [MergeImage.writes, hm])
      rw [if_neg hmoved, if_neg hleft]
    · intro id a ha hc
      rw [if_neg]
      intro hm
      have hobs : id ∈ s.liveObservations other := (mem_liveObservations_of ha).mpr hm
      exact hc (by simp [MergeImage.writes, hobs])

theorem within_absorb (now run : ℤ) (target : String) : ∀ (others : List String) (s : Store)
    (m : MergeImage) (subjects : List Subject), m.writes ⊆ (absorb now run target others s m subjects).2.1.writes ∧
      Within (absorb now run target others s m subjects).2.1.writes s
        (absorb now run target others s m subjects).1
  | [], s, m, _ => ⟨fun _ hc => hc, .refl _ s⟩
  | other :: others, s, m, subjects => by
    unfold absorb
    cases hl : s.liveNode? other with
    | none => exact within_absorb now run target others s m subjects
    | some row =>
      have hone := within_absorbNode now run target other row s m
      obtain ⟨h1, h2⟩ := within_absorb now run target others (absorbNode now run target other row s m).1
        (absorbNode now run target other row s m).2
        (subjects ++ .node other :: (s.liveLinks other).map .link)
      exact ⟨fun c hc => h1 (hone.1 hc), (hone.2.mono h1).trans h2⟩

theorem within_mergeStart (target : String) (p : ProposalRow) :
    Within [.node target .title, .node target .parent, .node target .updatedAt] s
      (s.mergeStart now target p) := by
  obtain ⟨-, -, hl, ho⟩ := s.sameLake_mergeStart now target p
  refine within_nodes hl ho (fun id => get?_mergeStart) fun id f a _ hc => ?_
  split_ifs with hid
  · subst hid
    unfold mergeStartRow
    cases f
    case title => simp at hc
    case parent => simp at hc
    case updatedAt => simp at hc
    all_goals cases p.title <;> cases p.parentId <;> rfl
  · exact .refl a f

theorem within_merge {p : ProposalRow} {detail : String}
    (ha : s.applyMerge now run p = .ok (some (s', detail))) :
    ∃ image subjects s₁, Within image.writes s s₁ ∧ SameLake s s₁ ∧
      s₁.journalOp run (.applied subjects image none) = .ok s' := by
  unfold applyMerge at ha
  split at ha
  · cases ha
  rename_i target others hids
  split at ha
  · cases ha
  rename_i row hrow
  obtain ⟨s₂, hj, hs⟩ := bind_eq_ok.mp ha
  cases hs
  let m : MergeImage := ⟨target, row.title, row.parentId, [], [], [], [], []⟩
  obtain ⟨hsub, hwithin⟩ := within_absorb now run target others (s.mergeStart now target p) m
    [.node target]
  have hlake := (@absorb_absorbed now run target _ others [] _ m [.node target]
    (.refl run target (s.mergeStart now target p))).lake
  refine ⟨.merge (absorb now run target others (s.mergeStart now target p) m [.node target]).2.1,
    (absorb now run target others (s.mergeStart now target p) m [.node target]).2.2,
    (absorb now run target others (s.mergeStart now target p) m [.node target]).1, ?_, ?_, hj⟩
  · refine ((within_mergeStart target p).mono fun c hc => hsub ?_).trans hwithin
    simpa [MergeImage.writes, m] using hc
  · exact (s.sameLake_mergeStart now target p).1.trans hlake

theorem within_split {actor detail : String} {p : ProposalRow}
    (ha : s.applySplit h now run actor p = .ok (s', detail)) :
    ∃ image subjects s₁, Within image.writes s s₁ ∧ SameLake s s₁ ∧
      s₁.journalOp run (.applied subjects image none) = .ok s' := by
  obtain ⟨row, s₁, created, subjects, hrow, hsplit, hj⟩ := applySplit_ok ha
  refine ⟨_, _, s₁, ?_, hsplit.lake, hj⟩
  have hmem : ∀ {part : CreatedPart} {c : Cell}, part ∈ created →
      c ∈ nodeCells part.id ++ part.linkIds.map .link →
      c ∈ (Image.split (p.nodeId.getD "") row.parentId created).writes :=
    fun hp hc => List.mem_flatMap.mpr ⟨_, hp, hc⟩
  intro c hc
  cases c with
  | node id f =>
    have hrefl := SameCell.refl s (.node id f)
    simp only [SameCell] at hrefl ⊢
    cases ha : s.nodes.get? id with
    | some a =>
      rw [hsplit.oldNodes ha, ← ha]
      exact hrefl
    | none =>
      cases hb : s₁.nodes.get? id with
      | none => exact .none
      | some b =>
        obtain ⟨part, hp, rfl, -⟩ := hsplit.newNodes ha hb
        exact absurd (hmem hp (List.mem_append_left _ (mem_nodeCells part.id f))) hc
  | link id =>
    simp only [SameCell]
    cases ha : s.links.get? id with
    | none => exact hsplit.noNew ha
    | some a =>
      rcases hsplit.links ha with hsame | ⟨part, hp, hid, -⟩
      · exact hsame
      · exact absurd (hmem hp (List.mem_append_right _ (List.mem_map_of_mem hid))) hc
  | observation id => simp only [SameCell, hsplit.observations]

/-- What a write of a run does to the journal and to the catalog: it adds
applied ops of the run, and changes no cell but those their images name. -/
structure Journaled (run : ℤ) (s s' : Store) (new : List OpRow) : Prop where
  rows : s'.runOps.rows = s.runOps.rows ++ new
  own : ∀ o ∈ new, o.runId = run ∧ o.outcome = .applied
  runs : s'.runs = s.runs
  horizon : s'.revertHorizon = s.revertHorizon
  within : Within (new.flatMap OpRow.writes) s s'

theorem Journaled.refl (run : ℤ) (s : Store) : Journaled run s s [] :=
  ⟨(List.append_nil _).symm, by simp, rfl, rfl, .refl _ s⟩

theorem Journaled.trans {s₁ s₂ s₃ : Store} {new new' : List OpRow} (h : Journaled run s₁ s₂ new)
    (h' : Journaled run s₂ s₃ new') : Journaled run s₁ s₃ (new ++ new') where
  rows := by rw [h'.rows, h.rows, List.append_assoc]
  own o ho := (List.mem_append.mp ho).elim (h.own o) (h'.own o)
  runs := h'.runs.trans h.runs
  horizon := h'.horizon.trans h.horizon
  within := by
    rw [List.flatMap_append]
    exact (h.within.mono (List.subset_append_left _ _)).trans
      (h'.within.mono (List.subset_append_right _ _))

/-- A write that journals nothing and leaves the catalog. -/
theorem journaled_quiet (hbooks : SameBooks s s') (hsame : SameCatalog s s') :
    Journaled run s s' [] :=
  ⟨by rw [hbooks.runOps, List.append_nil], by simp, hbooks.runs, hbooks.horizon, hsame.within _⟩

/-- A write that journals one op, whose image names what it changed. -/
theorem journaled_op {s₁ : Store} {image : Image} {subjects : List Subject} {seq : Option ℤ}
    (hj : s₁.journalOp run (.applied subjects image seq) = .ok s')
    (hf : s₁.runSourceForgotten run = false) (hbooks : SameBooks s s₁)
    (hwithin : Within image.writes s s₁) : ∃ new, Journaled run s s' new := by
  obtain ⟨ops, rfl, hrows⟩ := journalOp_ok hj
  refine ⟨[s₁.opRow run (.applied subjects image seq)], ?_, ?_, hbooks.runs, hbooks.horizon, ?_⟩
  · rw [← hbooks.runOps]
    exact hrows hf
  · intro o ho
    rw [List.mem_singleton.mp ho]
    exact ⟨rfl, rfl⟩
  · have hcells : [s₁.opRow run (.applied subjects image seq)].flatMap OpRow.writes =
        image.writes := List.append_nil _
    rw [hcells]
    exact hwithin.trans ((⟨rfl, rfl, rfl, rfl⟩ : SameCatalog s₁ _).within _)

theorem runSourceForgotten_congr {s s' : Store} (hruns : s'.runs = s.runs) (run : ℤ) :
    s'.runSourceForgotten run = s.runSourceForgotten run := by
  rw [runSourceForgotten, hruns, runSourceForgotten]

/-- The same for an op that leaves the tables outside the catalog. -/
theorem journaled_lake {s₁ : Store} {image : Image} {subjects : List Subject} {seq : Option ℤ}
    (hf : s.runSourceForgotten run = false)
    (hj : s₁.journalOp run (.applied subjects image seq) = .ok s') (hlake : SameLake s s₁)
    (hwithin : Within image.writes s s₁) : ∃ new, Journaled run s s' new := by
  refine journaled_op hj ?_ ⟨hlake.runs, hlake.runOps, hlake.revertHorizon⟩ hwithin
  rw [runSourceForgotten_congr hlake.runs]
  exact hf

theorem journaled_supersede {actor detail : String} {p : ProposalRow}
    (hf : s.runSourceForgotten run = false)
    (ha : s.applySupersede h now run actor p = .ok (some (s', detail))) :
    ∃ new, Journaled run s s' new := by
  unfold applySupersede at ha
  split at ha
  · cases ha
  obtain ⟨⟨s₁, outcome⟩, hs, ha⟩ := bind_eq_ok.mp ha
  cases outcome with
  | rejected message => cases ha
  | applied effectiveOld newSeq eventSeq =>
    obtain ⟨s₂, hj, ha⟩ := bind_eq_ok.mp ha
    cases ha
    rcases applySupersession_ok hs with rfl | ⟨a, supersessions, rfl⟩
    · exact journaled_op hj hf ⟨rfl, rfl, rfl⟩ (.refl _ _)
    · exact journaled_op hj hf ⟨rfl, rfl, rfl⟩ ((⟨rfl, rfl, rfl, rfl⟩ : SameCatalog s _).within _)

theorem journaled_applyOp {actor detail : String} {p : ProposalRow}
    (hf : s.runSourceForgotten run = false)
    (ha : s.applyOp h now run actor p = .ok (some (s', detail))) :
    ∃ new, Journaled run s s' new := by
  unfold applyOp at ha
  split at ha
  case h_1 =>
    obtain ⟨r, hr, heq⟩ := map_eq_ok ha
    cases heq
    have hwithin := within_setParent s now [p.nodeId.getD ""] p.parentId
    exact journaled_lake hf (applyPromote_ok hr) (s.sameLake_catalog _ _ _ _)
      (hwithin.mono (by simp [Image.writes]))
  case h_2 =>
    obtain ⟨r, hr, heq⟩ := map_eq_ok ha
    cases heq
    obtain ⟨image, subjects, s₁, hwithin, hlake, hj⟩ := within_collapse hr
    exact journaled_lake hf hj hlake hwithin
  case h_3 =>
    obtain ⟨image, subjects, s₁, hwithin, hlake, hj⟩ := within_merge ha
    exact journaled_lake hf hj hlake hwithin
  case h_4 =>
    obtain ⟨r, hr, heq⟩ := map_eq_ok ha
    cases heq
    obtain ⟨image, subjects, s₁, hwithin, hlake, hj⟩ := within_split hr
    exact journaled_lake hf hj hlake hwithin
  case h_5 => exact journaled_supersede hf ha
  case h_6 => cases ha

theorem journalApplied_some {subjects : List Subject} {image : Image} :
    s.journalApplied (some run) subjects image = s.journalOp run (.applied subjects image none) := rfl

theorem journaled_createChild {parentId title id : String} (hf : s.runSourceForgotten run = false)
    (hc : s.createChild h now (some run) parentId title = .ok (s', id)) :
    ∃ new, Journaled run s s' new := by
  obtain ⟨⟨s₁, id⟩, hi, hc⟩ := bind_eq_ok.mp hc
  obtain ⟨s₂, hj, hc⟩ := bind_eq_ok.mp hc
  cases hc
  have hwithin := within_insertNode (fun _ => rfl) hi
  obtain ⟨-, nodes, -, rfl⟩ := insertNode_ok hi
  rw [journalApplied_some] at hj
  exact journaled_lake hf hj (s.sameLake_catalog _ _ _ _) hwithin

theorem journaled_filingNode {parentId node : String} {subClass : Option String} {made : Bool}
    (hf : s.runSourceForgotten run = false)
    (hn : s.filingNode h now (some run) parentId subClass = .ok (s', node, made)) :
    ∃ new, Journaled run s s' new := by
  unfold filingNode at hn
  split at hn
  · cases hn
    exact ⟨[], .refl run s⟩
  split_ifs at hn
  · cases hn
    exact ⟨[], .refl run s⟩
  split at hn
  · cases hn
    exact ⟨[], .refl run s⟩
  · obtain ⟨⟨s₁, id⟩, hc, hn⟩ := bind_eq_ok.mp hn
    cases hn
    exact journaled_createChild hf hc

theorem journaled_fileLink {node targetKind targetId : String} {note : Option String}
    {linked : Bool} (hf : s.runSourceForgotten run = false)
    (hl : s.fileLink now (some run) node targetKind targetId note = .ok (s', linked)) :
    ∃ new, Journaled run s s' new := by
  unfold fileLink at hl
  split at hl
  · rename_i l _
    split at hl
    · cases hl
      exact ⟨[], .refl run s⟩
    · obtain ⟨s₂, hj, hl⟩ := bind_eq_ok.mp hl
      cases hl
      rw [journalApplied_some] at hj
      refine journaled_lake hf hj (s.sameLake_catalog _ _ _ _) (within_links rfl rfl fun id hc => ?_)
      have hne : id ≠ l.id := by
        rintro rfl
        exact hc (by simp [Image.writes])
      rw [IndexedTable.toAutoTable_update, AutoTable.toTable_update, Table.get?_update]
      cases ha : s.links.get? id with
      | none => rfl
      | some a => simp [Table.key_of_get? ha, hne]
  · split at hl
    · cases hl
    rename_i links hins
    obtain ⟨s₂, hj, hl⟩ := bind_eq_ok.mp hl
    cases hl
    rw [journalApplied_some] at hj
    refine journaled_lake hf hj (s.sameLake_catalog _ _ _ _) (within_links rfl rfl fun id hc => ?_)
    have hne : id ≠ s.links.nextId := by
      rintro rfl
      exact hc (by simp [Image.writes])
    change links.get? id = _
    rw [IndexedTable.get?_insert? hins, if_neg hne]

theorem journaled_stage {p : Proposal} {out : StagedOutcome}
    (hs : s.stageProposal h now (some run) p = .ok (s', out)) : ∃ new, Journaled run s s' new := by
  have hqueue : ∀ {op nodeId parentId title summary extra rationale}, ∃ new,
      Journaled run s (s.insertStructural now (some run) op nodeId parentId title summary extra
        rationale) new :=
    fun {_ _ _ _ _ _ _} => ⟨[], journaled_quiet ⟨rfl, rfl, rfl⟩ ⟨rfl, rfl, rfl, rfl⟩⟩
  have hrefl : ∃ new, Journaled run s s new := ⟨[], .refl run s⟩
  unfold stageProposal at hs
  split_ifs at hs with hskip
  · cases hs
    exact hrefl
  have hf : s.runSourceForgotten run = false := by
    simp only [Option.any_some, Bool.or_eq_true, not_or, Bool.not_eq_true] at hskip
    exact hskip.1
  split at hs
  case h_1 =>
    split_ifs at hs
    · cases hs
      exact hrefl
    · obtain ⟨⟨s₁, id⟩, hc, hs⟩ := bind_eq_ok.mp hs
      cases hs
      exact journaled_createChild hf hc
  case h_2 =>
    split_ifs at hs
    · cases hs
      exact hrefl
    · obtain ⟨⟨s₁, node, made⟩, hn, hs⟩ := bind_eq_ok.mp hs
      obtain ⟨⟨s₂, linked⟩, hl, hs⟩ := bind_eq_ok.mp hs
      cases hs
      obtain ⟨new, hnew⟩ := journaled_filingNode hf hn
      obtain ⟨new', hnew'⟩ := journaled_fileLink
        (by rw [runSourceForgotten_congr hnew.runs]; exact hf) hl
      exact ⟨_, hnew.trans hnew'⟩
  all_goals
    split_ifs at hs
    · cases hs
      exact hrefl
    · cases hs
      exact hqueue

theorem journaled_observe {node summary actor : String} {citeSeqs : List ℤ} {out : Option ℤ}
    (hs : s.insertClassObservationInRun h now run node summary citeSeqs actor = .ok (s', out)) :
    ∃ new, Journaled run s s' new := by
  unfold insertClassObservationInRun at hs
  split_ifs at hs with hf
  · cases hs
    exact ⟨[], .refl run s⟩
  have hf' : s.runSourceForgotten run = false := eq_false_of_ne_true hf
  unfold insertClassObservation at hs
  split_ifs at hs
  · cases hs
    exact ⟨[], .refl run s⟩
  · obtain ⟨s₂, hj, hs⟩ := bind_eq_ok.mp hs
    cases hs
    refine journaled_op hj hf' ⟨rfl, rfl, rfl⟩ (within_observations rfl rfl fun id hc => ?_)
    have hne : id ≠ s.observations.nextId := by
      rintro rfl
      exact hc (by simp [Image.writes])
    change (s.observations.insert _).get? id = _
    rw [AutoTable.get?_insert, if_neg hne]

/-- A cold compaction leaves the catalog and the books. -/
theorem compactPromptBody_cold {prompt : ℤ} {gist gistSource actor : String} {out : Option ℤ}
    (hs : s.compactPromptBody h now prompt gist "cold" gistSource actor true = .ok (s', out)) :
    SameBooks s s' ∧ SameCatalog s s' := by
  unfold compactPromptBody at hs
  split at hs
  · cases hs
    exact ⟨.refl s, .refl s⟩
  · rw [if_neg (by decide)] at hs
    cases hs
    exact ⟨⟨rfl, rfl, rfl⟩, rfl, rfl, rfl, rfl⟩

theorem journaled_compact {prompt : ℤ} {gist gistSource actor : String} {out : Option ℤ}
    (hs : s.compactPromptBodyInRun h now run prompt gist "cold" gistSource actor true =
      .ok (s', out)) : ∃ new, Journaled run s s' new := by
  obtain ⟨⟨s₁, seq⟩, hc, hs⟩ := bind_eq_ok.mp hs
  obtain ⟨hbooks, hsame⟩ := compactPromptBody_cold hc
  cases seq with
  | none =>
    cases hs
    exact ⟨[], journaled_quiet hbooks hsame⟩
  | some seq =>
    obtain ⟨s₂, hj, hs⟩ := bind_eq_ok.mp hs
    cases hs
    by_cases hf : s₁.runSourceForgotten run = true
    · rw [journalOp, if_pos hf] at hj
      cases hj
      exact ⟨[], journaled_quiet hbooks hsame⟩
    · exact journaled_op hj (eq_false_of_ne_true hf) hbooks (hsame.within _)

theorem journaled_apply (h : Host) (s : Store) (now id run : ℤ) (actor : String) :
    ∃ new, Journaled run s (s.applyClassProposalInRun h now id actor (some run)).1 new := by
  unfold applyClassProposalInRun
  split
  · exact ⟨[], .refl run s⟩
  rename_i p hp
  simp only [Option.some_or]
  split
  · exact ⟨[], .refl run s⟩
  rename_i s' applied hs
  unfold applyProposal at hs
  split_ifs at hs with hskip
  · cases hs
    exact ⟨[], .refl run s⟩
  have hf : s.runSourceForgotten run = false := by
    simp only [Bool.or_eq_true, not_or, Bool.not_eq_true] at hskip
    exact hskip.1.2
  obtain ⟨r, hop, hs⟩ := bind_eq_ok.mp hs
  have hend : ∀ s₁ : Store, ∀ ops : ℤ, Journaled run s₁
      ((s₁.dropProposal p.id).finishCuration run false p.id ops) [] :=
    fun s₁ ops => journaled_quiet ⟨rfl, rfl, rfl⟩ ⟨rfl, rfl, rfl, rfl⟩
  cases r with
  | none =>
    cases hs
    exact ⟨[], hend s 0⟩
  | some r =>
    obtain ⟨s₁, detail⟩ := r
    cases hs
    obtain ⟨new, hnew⟩ := journaled_applyOp hf hop
    exact ⟨_, hnew.trans (hend s₁ 1)⟩

end ops

end Store

/-- What holds of the store and of what a transaction makes of it holds after
it. -/
theorem committed_ind {α : Type} {s : Store} {x : Except DbError (Store × α)} {P : Store → Prop}
    (hs : P s) (hx : ∀ s' a, x = .ok (s', a) → P s') : P (committed s x) := by
  rcases x with e | ⟨s', a⟩
  · exact hs
  · exact hx s' a rfl

/-- **A write of a run** adds applied ops of the run to the journal, and
changes no cell but those their images name. -/
theorem RunWrite.exec_journaled (h : Host) (run : ℤ) (s : Store) (w : RunWrite) :
    ∃ new, Journaled run s (w.exec h run s) new := by
  have hrefl : ∃ new, Journaled run s s new := ⟨[], .refl run s⟩
  cases w with
  | stage now p => exact committed_ind hrefl fun s' _ hs => journaled_stage hs
  | apply now id actor => exact journaled_apply h s now id run actor
  | observe now node summary citeSeqs actor =>
    exact committed_ind hrefl fun s' _ hs => journaled_observe hs
  | compact now prompt gist gistSource actor =>
    exact committed_ind hrefl fun s' _ hs => journaled_compact hs

/-! ### The rows of each inverse -/

namespace Store

section inverses

variable {h : Host} {s s' : Store} {now run byRun : ℤ}

theorem within_retireMade (byRun : ℤ) (node : String) :
    Within [.node node .retiredByRun] s (s.retireMade byRun node) := by
  refine within_nodes rfl rfl (fun id => get?_retireMade) fun id f a ha hc => ?_
  split_ifs with hm
  · cases f
    case retiredByRun =>
      obtain ⟨rfl, -⟩ := hm
      exact absurd List.mem_cons_self hc
    all_goals rfl
  · exact .refl a f

theorem within_reindex {l : ℤ} {node : String} {links : IndexedTable LinkRow.id LinkRow.dedup}
    (hre : s.links.reindex? l (fun r => { r with nodeId := node }) = some links) :
    Within [.link l] s { s with links := links } := by
  refine within_links rfl rfl fun id hc => ?_
  have hne : id ≠ l := fun heq => hc (by simp [heq])
  change links.get? id = _
  rw [IndexedTable.get?_reindex? hre]
  cases s.links.get? id with
  | none => rfl
  | some a => simp [hne]

theorem within_moveLinksBack : ∀ {moves : List (ℤ × String)} {s s' : Store},
    moveLinksBack moves s = .ok s' → Within (moves.map fun m => .link m.1) s s'
  | [], s, s', hs => by
    cases hs
    exact .refl _ s
  | (l, node) :: moves, s, s', hs => by
    rw [moveLinksBack] at hs
    split at hs
    · cases hs
    rename_i links hre
    have hone := within_reindex hre
    have hrest := within_moveLinksBack hs
    refine (hone.mono fun c hc => ?_).trans (hrest.mono fun c hc => List.mem_cons_of_mem _ hc)
    rw [List.mem_singleton.mp hc]
    exact List.mem_cons_self

theorem within_movePartBack {node part : String} : ∀ {ls : List ℤ} {s s' : Store},
    movePartBack node part ls s = .ok s' → Within (ls.map .link) s s'
  | [], s, s', hs => by
    cases hs
    exact .refl _ s
  | l :: ls, s, s', hs => by
    rw [movePartBack] at hs
    split at hs
    · split at hs
      · cases hs
      rename_i links hre
      have hone := within_reindex hre
      have hrest := within_movePartBack hs
      refine (hone.mono fun c hc => ?_).trans (hrest.mono fun c hc => List.mem_cons_of_mem _ hc)
      rw [List.mem_singleton.mp hc]
      exact List.mem_cons_self
    · exact (within_movePartBack hs).mono fun c hc => List.mem_cons_of_mem _ hc

theorem within_unsplit (node : String) (parent : Option String) :
    ∀ {created : List CreatedPart} {s s' : Store}, unsplit byRun node created s = .ok s' →
      Within (Image.split node parent created).undoes s s'
  | [], s, s', hs => by
    cases hs
    exact .refl _ s
  | c :: created, s, s', hs => by
    rw [unsplit] at hs
    obtain ⟨s₁, hmove, hs⟩ := bind_eq_ok.mp hs
    have hone := within_movePartBack hmove
    have hmade := within_retireMade (s := s₁) byRun c.id
    have hrest := within_unsplit node parent hs
    refine (hone.mono fun x hx => ?_).trans ((hmade.mono fun x hx => ?_).trans
      (hrest.mono fun x hx => ?_))
    · exact List.mem_append_left _ (List.mem_cons_of_mem _ hx)
    · rw [List.mem_singleton.mp hx]
      exact List.mem_append_left _ List.mem_cons_self
    · exact List.mem_append_right _ hx

theorem within_unretire (s : Store) (run : ℤ) (set : RetiredSet) : Within set.cells s (s.unretire run set) := by
  refine within_of_map _ _ _ (fun id => get?_unretire_nodes) (fun id => get?_unretire_links)
    (fun id => get?_unretire_observations) ?_ ?_ ?_
  · intro id f a ha hc
    split_ifs with hm
    · cases f
      case retiredByRun => exact absurd (by simp [RetiredSet.cells, markCells, hm.1]) hc
      case retiredInto => exact absurd (by simp [RetiredSet.cells, markCells, hm.1]) hc
      all_goals rfl
    · exact .refl a f
  · intro id a ha hc
    rw [if_neg]
    rintro hm
    exact hc (by simp [RetiredSet.cells, hm.1])
  · intro id a ha hc
    rw [if_neg]
    rintro hm
    exact hc (by simp [RetiredSet.cells, hm.1])

theorem within_reparentBack : ∀ (cs : List (String × String)) (s : Store),
    Within (cs.map fun c => .node c.1 .parent) s (reparentBack cs s)
  | [], s => .refl _ s
  | (child, parent) :: cs, s => by
    rw [reparentBack]
    have hone : Within [.node child .parent] s { s with
        nodes := s.nodes.update (fun n => n.id = child) fun n => { n with parentId := some parent } } := by
      refine within_updateNode fun f a hc => ?_
      cases f
      case parent => exact absurd List.mem_cons_self hc
      all_goals rfl
    refine (hone.mono fun c hc => ?_).trans ((within_reparentBack cs _).mono fun c hc =>
      List.mem_cons_of_mem _ hc)
    rw [List.mem_singleton.mp hc]
    exact List.mem_cons_self

theorem within_unmerge {m : MergeImage} (hs : s.unmerge run m = .ok s') :
    Within (Image.merge m).undoes s s' := by
  obtain ⟨s₂, hmove, hs⟩ := bind_eq_ok.mp hs
  cases hs
  have htarget : Within [.node m.target .title, .node m.target .parent] s { s with
      nodes := s.nodes.update (fun n => n.id = m.target) fun n =>
        { n with title := m.oldTitle, parentId := m.oldParent } } := by
    refine within_updateNode fun f a hc => ?_
    cases f
    case title => simp at hc
    case parent => simp at hc
    all_goals rfl
  have hkids := within_reparentBack m.children s₂
  have hset := within_unretire (reparentBack m.children s₂) run
    ⟨m.absorbed.map fun a => a.1, m.leftoverLinks, m.observations⟩
  refine (htarget.mono ?_).trans (((within_moveLinksBack hmove).mono ?_).trans
    ((hkids.mono ?_).trans (hset.mono ?_)))
  · exact fun c hc => List.mem_append_left _ (List.mem_append_left _ (List.mem_append_left _ hc))
  · exact fun c hc => List.mem_append_left _ (List.mem_append_left _ (List.mem_append_right _ hc))
  · exact fun c hc => List.mem_append_left _ (List.mem_append_right _ hc)
  · exact fun c hc => List.mem_append_right _ hc

theorem within_restorePromptBody {prompt : ℤ} {done : Bool} (cells : List Cell)
    (hr : s.restorePromptBody h prompt = .ok (s', done)) : Within cells s s' := by
  have hsame : SameCatalog s s' := by
    unfold restorePromptBody at hr
    split at hr
    · cases hr
      exact .refl s
    split at hr
    · cases hr
      exact .refl s
    split at hr
    · cases hr
    split at hr
    · cases hr
    split at hr
    · cases hr
    split at hr <;> cases hr <;> exact ⟨rfl, rfl, rfl, rfl⟩
  exact hsame.within cells

/-- **Undoing an op** changes no cell but those its image names. -/
theorem within_invertOp {image : Image} (hs : s.invertOp h now run byRun (some image) = .ok s') :
    Within image.undoes s s' := by
  unfold invertOp at hs
  cases image with
  | claim id =>
    cases hs
    unfold retireClaim
    dsimp only
    split_ifs <;> exact (⟨rfl, rfl, rfl, rfl⟩ : SameCatalog s _).within _
  | file link node kind target revived =>
    cases revived with
    | none =>
      cases hs
      refine within_links rfl rfl fun id hc => ?_
      have hne : id ≠ link := fun heq => hc (by simp [Image.undoes, heq])
      rw [IndexedTable.toAutoTable_delete, AutoTable.toTable_delete, Table.get?_delete]
      cases ha : s.links.get? id with
      | none => rfl
      | some a => simp [Option.filter, Table.key_of_get? ha, hne]
    | some r =>
      cases hs
      refine within_links rfl rfl fun id hc => ?_
      have hne : id ≠ link := fun heq => hc (by simp [Image.undoes, heq])
      rw [IndexedTable.toAutoTable_update, AutoTable.toTable_update, Table.get?_update]
      cases ha : s.links.get? id with
      | none => rfl
      | some a => simp [Table.key_of_get? ha, hne]
  | create node parent title =>
    cases hs
    exact within_retireMade byRun node
  | promote node old new =>
    cases hs
    refine within_updateNode fun f a hc => ?_
    cases f
    case parent => exact absurd List.mem_cons_self hc
    all_goals rfl
  | split node parent created => exact within_unsplit node parent (mapError_eq_ok hs)
  | merge m => exact within_unmerge (mapError_eq_ok hs)
  | collapse node digest set citations =>
    cases hs
    have hmade := within_retireMade (s := s) byRun digest
    have hcite : Within (citations.map .link) (s.retireMade byRun digest)
        { s.retireMade byRun digest with
          links := (s.retireMade byRun digest).links.update
            (fun l => l.id ∈ citations && l.live) fun l => { l with retiredByRun := some byRun } } := by
      refine within_links rfl rfl fun id hc => ?_
      have hid : id ∉ citations := fun hm => hc (List.mem_map_of_mem hm)
      rw [IndexedTable.toAutoTable_update, AutoTable.toTable_update, Table.get?_update]
      cases ha : (s.retireMade byRun digest).links.get? id with
      | none => rfl
      | some a => simp [Table.key_of_get? ha, hid]
    refine (hmade.mono fun c hc => ?_).trans ((hcite.mono fun c hc => ?_).trans
      ((within_unretire _ run set).mono fun c hc => ?_))
    · rw [List.mem_singleton.mp hc]
      exact List.mem_cons_self
    · exact List.mem_cons_of_mem _ (List.mem_append_left _ hc)
    · exact List.mem_cons_of_mem _ (List.mem_append_right _ hc)
  | supersede old new ev =>
    cases hs
    exact (⟨rfl, rfl, rfl, rfl⟩ : SameCatalog s _).within _
  | compact prompt seq =>
    dsimp only at hs
    split at hs
    · cases hs
    · rename_i s₁ hr
      cases hs
      exact within_restorePromptBody _ hr
    · cases hs
  | observe id node seq =>
    cases hs
    refine within_observations rfl rfl fun o hc => ?_
    have hne : o ≠ id := fun heq => hc (by simp [Image.undoes, heq])
    rw [AutoTable.toTable_update, Table.get?_update]
    cases ha : s.observations.get? o with
    | none => rfl
    | some a => simp [Table.key_of_get? ha, hne]

/-- Undoing some ops changes no cell but those the images of the journal name. -/
theorem within_undoOps {cells : List Cell} : ∀ {ops : List OpRow} {s s' : Store},
    (∀ o ∈ ops, ∀ image, (s.runOps.get? o.key).bind OpRow.preImage = some image →
      image.undoes ⊆ cells) →
    undoOps h now run byRun ops s = .ok s' → Within cells s s'
  | [], s, s', _, hs => by
    cases hs
    exact .refl _ s
  | o :: ops, s, s', hcells, hs => by
    rw [undoOps] at hs
    split at hs
    · cases hs
    rename_i s₁ hinv
    have hbooks := sameBooks_invertOp hinv
    have hone : Within cells s s₁ := by
      cases himage : (s.runOps.get? o.key).bind OpRow.preImage with
      | none =>
        rw [himage] at hinv
        cases hinv
      | some image =>
        rw [himage] at hinv
        exact (within_invertOp hinv).mono (hcells o List.mem_cons_self image himage)
    have hmark : Within cells s₁ (s₁.markReverted o byRun) :=
      (⟨rfl, rfl, rfl, rfl⟩ : SameCatalog s₁ _).within _
    refine hone.trans (hmark.trans (within_undoOps (fun o' ho' image himage => ?_) hs))
    refine hcells o' (List.mem_cons_of_mem _ ho') image ?_
    rw [← himage, markReverted, Table.get?_update, hbooks.runOps]
    cases s.runOps.get? o'.key with
    | none => rfl
    | some r =>
      simp only [Option.map_some, Option.bind_some]
      split_ifs <;> rfl

end inverses

end Store

end PolisMemory
