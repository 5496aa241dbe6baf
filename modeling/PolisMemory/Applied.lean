/-
# What applying a proposal does to the rows

From the loops of `Reorg` to the ops of `apply_class_proposal_in_run`: for
each op the rows after it, from the rows before it, up to the journal's row.
Undoing a run, the shape of the tree and what a collapse retires all start
from these.

Key definitions: `Collapsed`, `Absorbed`, `Traced`.
Key theorems: `applyPromote_ok`, `applyCollapse_ok`, `absorb_absorbed`,
`applyMerge_ok`, `applySplit_ok`.
-/
import Mathlib.Data.List.TakeWhile
import PolisMemory.Reorg

namespace PolisMemory

open Tables

namespace Store

/-- What a journaled op adds: one row, unless the run's source was forgotten. -/
theorem journalOp_ok {s s' : Store} {run : ℤ} {rec : OpRecord} (hj : s.journalOp run rec = .ok s') :
    ∃ ops, s' = { s with runOps := ops } ∧
      (s.runSourceForgotten run = false → ops.rows = s.runOps.rows ++ [s.opRow run rec]) := by
  cases hf : s.runSourceForgotten run with
  | true =>
    rw [journalOp, if_pos hf] at hj
    cases hj
    exact ⟨s.runOps, rfl, fun h => by cases h⟩
  | false =>
    obtain ⟨ops, heq, hrows⟩ := journalOp_eq s run rec hf
    rw [heq] at hj
    cases hj
    exact ⟨ops, rfl, fun _ => hrows⟩

/-! ### Promote -/

theorem get?_setParent {s : Store} {now : ℤ} {ids : List String} {parent : Option String}
    {id : String} : (s.setParent now ids parent).nodes.get? id = (s.nodes.get? id).map fun a =>
      if id ∈ ids then { a with parentId := parent, updatedAt := now } else a := by
  rw [setParent, Table.get?_update]
  cases ha : s.nodes.get? id with
  | none => rfl
  | some a => simp [Table.key_of_get? ha]

theorem applyPromote_ok {s s' : Store} {now run : ℤ} {p : ProposalRow} {detail : String}
    (ha : s.applyPromote now run p = .ok (s', detail)) :
    (s.setParent now [p.nodeId.getD ""] p.parentId).journalOp run
      (.applied [.node (p.nodeId.getD "")] (.promote (p.nodeId.getD "")
        ((s.nodes.get? (p.nodeId.getD "")).bind NodeRow.parentId) p.parentId) none) = .ok s' := by
  obtain ⟨s₁, hj, hs⟩ := bind_eq_ok.mp ha
  cases hs
  exact hj

/-! ### Collapse -/

/-- The walk of a branch does not come back to the node's own parent while it
still pushes what it finds. -/
def Loopless (s : Store) (node : String) : Prop :=
  ∀ row, s.nodes.get? node = some row → ∀ q, row.parentId = some q →
    q ∉ s.subtreeWalk (walkGuard - 1) [node]

/-- The rows after a branch was collapsed into a digest. -/
structure Collapsed (run : ℤ) (digest : NodeRow) (ids : List String) (s s' : Store)
    (set : RetiredSet) (citations : List ℤ) : Prop where
  lake : SameLake s s'
  minted : s'.minted = s.minted + 1
  free : s.nodes.get? digest.id = none
  made : s'.nodes.get? digest.id = some digest
  nodes : ∀ {id}, id ≠ digest.id → s'.nodes.get? id = (s.nodes.get? id).map fun a =>
    if id ∈ ids ∧ a.live = true then a.retire run (some digest.id) else a
  known : ∀ id ∈ ids, s.nodes.get? id ≠ none
  links : ∀ {id a}, s.links.get? id = some a → s'.links.get? id =
    some (if a.nodeId ∈ ids ∧ a.live = true then a.retire run else a)
  newLinks : ∀ {id b}, s.links.get? id = none → s'.links.get? id = some b →
    b.nodeId = digest.id ∧ b.live = true ∧ id ∈ citations
  observations : ∀ id, s'.observations.get? id = (s.observations.get? id).map fun a =>
    if a.nodeId ∈ ids ∧ a.live = true then a.retire run else a
  setNodes : set.nodes = ids
  setLinks : ∀ {id a}, s.links.get? id = some a →
    (id ∈ set.links ↔ a.nodeId ∈ ids ∧ a.live = true)
  noSetLinks : ∀ {id}, s.links.get? id = none → id ∉ set.links
  setObservations : ∀ {id a}, s.observations.get? id = some a →
    (id ∈ set.observations ↔ a.nodeId ∈ ids ∧ a.live = true)
  noSetObservations : ∀ {id}, s.observations.get? id = none → id ∉ set.observations
  citations : ∀ id ∈ citations, s.links.get? id = none

theorem Collapsed.digest_notMem {run : ℤ} {digest : NodeRow} {ids : List String} {s s' : Store}
    {set : RetiredSet} {citations : List ℤ} (h : Collapsed run digest ids s s' set citations) :
    digest.id ∉ ids := fun hm => h.known _ hm h.free

/-- A walk that does not meet the one node whose children differ. -/
theorem subtreeWalk_congr {s s' : Store} {parent : Option String}
    (hkids : ∀ x, parent ≠ some x → s'.liveChildren x = s.liveChildren x) :
    ∀ {n : ℕ} {stack : List String}, (∀ q, parent = some q → q ∉ s.subtreeWalk n stack) →
      s'.subtreeWalk (n + 1) stack = s.subtreeWalk (n + 1) stack
  | 0, [], _ => rfl
  | 0, _ :: _, _ => rfl
  | n + 1, [], _ => rfl
  | n + 1, top :: stack, hq => by
    have htop : parent ≠ some top := fun h => hq top h List.mem_cons_self
    rw [subtreeWalk, subtreeWalk, hkids top htop]
    congr 1
    exact subtreeWalk_congr hkids fun q hp hm => hq q hp (List.mem_cons_of_mem _ hm)

theorem liveChildren_insert {s : Store} {nodes : Table NodeRow.id} {row : NodeRow} {minted : ℕ}
    (hins : s.nodes.insert? row = some nodes) {x : String} (hx : row.parentId ≠ some x) :
    ({ s with nodes := nodes, minted := minted } : Store).liveChildren x = s.liveChildren x := by
  obtain ⟨-, hrows⟩ := Table.insert?_eq_some.mp hins
  simp only [liveChildren, Table.select, hrows, List.filter_append]
  simp [hx]

theorem liveChildren_congr {s s' : Store} (hn : s'.nodes = s.nodes) (x : String) :
    s'.liveChildren x = s.liveChildren x := by rw [liveChildren, hn, liveChildren]

/-- The digest's row, and what is retired into it. -/
theorem applyCollapse_ok {h : Host} {s s' : Store} {now run : ℤ} {actor detail : String}
    {p : ProposalRow} (ha : s.applyCollapse h now run actor p = .ok (s', detail)) :
    ∃ row, s.nodes.get? (p.nodeId.getD "") = some row ∧ (s.Loopless (p.nodeId.getD "") →
      ∃ digest s₁ set citations subjects,
        digest = newRow now .digest row.parentId (p.title.getD s!"{row.title} (digest)") p.summary
          actor (h.newNodeId s.minted) ∧
        Collapsed run digest (s.subtreeWalk walkGuard [p.nodeId.getD ""]) s s₁ set citations ∧
        s₁.journalOp run (.applied subjects (.collapse (p.nodeId.getD "") digest.id set citations)
          none) = .ok s') := by
  unfold applyCollapse at ha
  dsimp only at ha
  split at ha
  · cases ha
  rename_i row hrow
  refine ⟨row, hrow, fun hloop => ?_⟩
  obtain ⟨⟨s₁, digestId⟩, hi, ha⟩ := bind_eq_ok.mp ha
  obtain ⟨hid, nodes, hins, rfl⟩ := insertNode_ok hi
  obtain ⟨s₃, hj, hs⟩ := bind_eq_ok.mp ha
  cases hs
  obtain ⟨digest, hdig, rfl⟩ : ∃ digest : NodeRow, digest = newRow now .digest row.parentId
      (p.title.getD s!"{row.title} (digest)") p.summary actor digestId ∧ digestId = digest.id :=
    ⟨_, rfl, rfl⟩
  have hparent : digest.parentId = row.parentId := by rw [hdig, newRow]
  rw [← hdig] at hins
  obtain ⟨hfree, -⟩ := Table.insert?_eq_some.mp hins
  have hget : ∀ k, nodes.get? k = if digest.id = k then some digest else s.nodes.get? k :=
    fun k => Table.get?_insert? hins
  have hcite := cite_eq now digest.id (Extra.asSeqs p.extra)
    { s with nodes := nodes, minted := s.minted + 1 } []
  generalize hc : cite now digest.id (Extra.asSeqs p.extra)
    { s with nodes := nodes, minted := s.minted + 1 } [] = cited at hcite hj
  obtain ⟨s₂, citations⟩ := cited
  -- the walk sees the digest only if it comes back to its parent
  have hwalk : s₂.subtreeWalk walkGuard [p.nodeId.getD ""] =
      s.subtreeWalk walkGuard [p.nodeId.getD ""] := by
    refine @subtreeWalk_congr s s₂ row.parentId (fun x hx => ?_) (walkGuard - 1) _ (hloop row hrow)
    rw [liveChildren_congr hcite.nodes]
    exact liveChildren_insert hins (hparent ▸ hx)
  have hret := retireNodes_eq run (some digest.id) (s₂.subtreeWalk walkGuard [p.nodeId.getD ""]) s₂
    ⟨[], [], []⟩
  rw [hwalk] at hret
  have hdef : s₂.retireNodeSubtree (p.nodeId.getD "") run (some digest.id) =
      retireNodes run (some digest.id) (s.subtreeWalk walkGuard [p.nodeId.getD ""]) s₂
        ⟨[], [], []⟩ := by
    rw [retireNodeSubtree, hwalk]
  rw [hdef] at hj
  have hknown : ∀ id ∈ s.subtreeWalk walkGuard [p.nodeId.getD ""], s.nodes.get? id ≠ none := by
    intro id hm
    rcases mem_subtreeWalk hm with hm | ⟨a, ha, -⟩
    · rw [List.mem_singleton.mp hm, hrow]
      exact Option.some_ne_none row
    · rw [ha]
      exact Option.some_ne_none a
  refine ⟨digest, _, _, citations, _, hid ▸ hdig, ?_, hj⟩
  have hne : ∀ id ∈ s.subtreeWalk walkGuard [p.nodeId.getD ""], id ≠ digest.id := by
    rintro id hm rfl
    exact hknown _ hm hfree
  have hlinks : ∀ {id a}, s.links.get? id = some a → s₂.links.get? id = some a := hcite.old
  refine ⟨(s.sameLake_catalog _ _ _ _).trans (hcite.lake.trans hret.lake),
    hret.minted.trans hcite.minted, hfree, ?_, fun {id} hid' => ?_, hknown, fun {id a} hl => ?_,
    fun {id b} hn hb => ?_, fun id => ?_, ?_, fun {id a} hl => ?_, fun {id} hn hm => ?_,
    fun {id a} ho => ?_, fun {id} hn hm => ?_, fun id hm => ?_⟩
  · rw [hret.nodes, hcite.nodes, hget, if_pos rfl, Option.map_some,
      if_neg fun hm => hne _ hm.1 rfl]
  · rw [hret.nodes, hcite.nodes, hget, if_neg (Ne.symm hid')]
  · rw [hret.links, hlinks hl, Option.map_some]
  · rw [hret.links, Option.map_eq_some_iff] at hb
    obtain ⟨b', hb', rfl⟩ := hb
    obtain ⟨h1, h2, h3⟩ := hcite.new hn hb'
    rw [if_neg fun hm => hne _ hm.1 h1]
    exact ⟨h1, h2, h3⟩
  · rw [hret.observations, hcite.observations]
  · simp [hret.outNodes]
  · rw [hret.outLinks, hlinks hl]
    simp
  · rw [hret.outLinks] at hm
    obtain ⟨b, hb, hbn, -⟩ := hm.resolve_left (by simp)
    exact hne _ hbn (hcite.new hn hb).1
  · rw [hret.outObservations, hcite.observations, ho]
    simp
  · rw [hret.outObservations, hcite.observations, hn] at hm
    simp at hm
  · simpa using hcite.mem id hm

/-! ### Merge -/

/-- A node was absorbed: it is among those done, and was live. -/
def gone (s : Store) (done : List String) (id : String) : Bool := id ∈ done && s.nodeExists id

/-- A node's row after some nodes were absorbed. -/
structure NodeAfter (run : ℤ) (target : String) (gone : String → Bool) (a b : NodeRow) : Prop where
  face : b.face = { a.face with parentId := b.parentId }
  marks : b.marks = if gone a.id = true then (some run, some target) else a.marks
  parent : b.parentId = a.parentId ∨ (a.live = true ∧ b.parentId = some target)
  parentLive : a.live = true → gone a.id = false →
    b.parentId = if a.parentId.any gone then some target else a.parentId

/-- The rows after some nodes were absorbed into the target. -/
structure Absorbed (run : ℤ) (target : String) (done : List String) (s s' : Store) : Prop where
  lake : SameLake s s'
  minted : s'.minted = s.minted
  nodes : ∀ {id a}, s.nodes.get? id = some a →
    ∃ b, s'.nodes.get? id = some b ∧ NodeAfter run target (s.gone done) a b
  noNodes : ∀ {id}, s.nodes.get? id = none → s'.nodes.get? id = none
  links : ∀ {id a}, s.links.get? id = some a →
    (s'.links.get? id = some a ∧ ¬(a.live = true ∧ s.gone done a.nodeId = true)) ∨
    ((a.live = true ∧ s.gone done a.nodeId = true) ∧
      (s'.links.get? id = some { a with nodeId := target } ∨
        s'.links.get? id = some (a.retire run)))
  noLinks : ∀ {id}, s.links.get? id = none → s'.links.get? id = none
  observations : ∀ id, s'.observations.get? id = (s.observations.get? id).map fun a =>
    if s.gone done a.nodeId = true ∧ a.live = true then a.retire run else a

theorem NodeAfter.live {run : ℤ} {target : String} {gone : String → Bool} {a b : NodeRow}
    (h : NodeAfter run target gone a b) : b.live = (a.live && !gone a.id) := by
  have hm := congrArg Prod.fst h.marks
  by_cases hg : gone a.id = true
  · simp only [hg, if_true, NodeRow.marks] at hm
    simp [NodeRow.live, hm, hg]
  · simp only [hg, NodeRow.marks] at hm
    simp [NodeRow.live, hm, hg]

theorem Absorbed.refl (run : ℤ) (target : String) (s : Store) : Absorbed run target [] s s where
  lake := .refl s
  minted := rfl
  nodes {id a} ha := by
    refine ⟨a, ha, ?_, ?_, .inl rfl, fun _ _ => ?_⟩
    · rfl
    · simp [gone]
    · cases a.parentId <;> simp [gone]
  noNodes := id
  links ha := .inl ⟨ha, by simp [gone]⟩
  noLinks := id
  observations id := by simp [gone]

theorem gone_append {s : Store} {done : List String} {other id : String} :
    s.gone (done ++ [other]) id = (s.gone done id || (id = other && s.nodeExists other)) := by
  by_cases hid : id = other
  · subst hid
    by_cases hx : s.nodeExists id <;> simp [gone, hx]
  · simp [gone, hid]

/-- A node is live after some were absorbed if it was and is not among them. -/
theorem Absorbed.nodeExists {run : ℤ} {target : String} {done : List String} {s s' : Store}
    (h : Absorbed run target done s s') (id : String) :
    s'.nodeExists id = (s.nodeExists id && !s.gone done id) := by
  cases ha : s.nodes.get? id with
  | none => simp [Store.nodeExists, liveNode?, h.noNodes ha, ha]
  | some a =>
    obtain ⟨b, hb, hab⟩ := h.nodes ha
    have hl := hab.live
    rw [Table.key_of_get? ha] at hl
    simp only [Store.nodeExists, liveNode?, hb, ha, Option.filter]
    rw [hl]
    by_cases ha' : a.live = true <;> by_cases hg : s.gone done id = true <;> simp [ha', hg]

theorem Absorbed.gone_of_not_live {run : ℤ} {target : String} {done : List String} {s s' : Store}
    (h : Absorbed run target done s s') {other : String} (hn : s'.nodeExists other = false) :
    s.gone (done ++ [other]) = s.gone done := by
  funext id
  rw [h.nodeExists] at hn
  rw [gone_append]
  by_cases hid : id = other
  · subst hid
    revert hn
    cases s.nodeExists id <;> cases s.gone done id <;> simp
  · simp [hid]

theorem absorbedRow_id (now run : ℤ) (target other : String) (b : NodeRow) :
    (absorbedRow now run target other b).id = b.id := by
  unfold absorbedRow
  dsimp only
  split_ifs <;> rfl

theorem face_absorbedRow (now run : ℤ) (target other : String) (b : NodeRow) :
    (absorbedRow now run target other b).face =
      { b.face with parentId := (absorbedRow now run target other b).parentId } := by
  unfold absorbedRow
  dsimp only
  split_ifs <;> rfl

theorem parentId_absorbedRow (now run : ℤ) (target other : String) (b : NodeRow) :
    (absorbedRow now run target other b).parentId =
      if b.parentId = some other ∧ b.live = true then some target else b.parentId := by
  unfold absorbedRow
  dsimp only
  split_ifs <;> rfl

theorem marks_absorbedRow (now run : ℤ) (target other : String) (b : NodeRow) :
    (absorbedRow now run target other b).marks =
      if b.id = other then (some run, some target) else b.marks := by
  unfold absorbedRow
  dsimp only
  split_ifs <;> rfl

/-- A node's row after one more node was absorbed. -/
theorem NodeAfter.absorb {now run : ℤ} {target other : String} {g g' : String → Bool} {a b : NodeRow}
    (h : NodeAfter run target g a b) (hg : ∀ id, g' id = true ↔ g id = true ∨ id = other)
    (hother : g other = false) (hid : b.id = a.id) :
    NodeAfter run target g' a (absorbedRow now run target other b) := by
  have hbl := h.live
  refine ⟨?_, ?_, ?_, fun hal hgid => ?_⟩
  · rw [face_absorbedRow, h.face]
  · rw [marks_absorbedRow, hid, h.marks]
    by_cases ho : a.id = other
    · rw [if_pos ho, if_pos ((hg _).mpr (.inr ho))]
    · rw [if_neg ho]
      congr 1
      simp [hg, ho]
  · rw [parentId_absorbedRow]
    by_cases hp : b.parentId = some other ∧ b.live = true
    · rw [if_pos hp]
      rw [hbl, Bool.and_eq_true] at hp
      exact .inr ⟨hp.2.1, rfl⟩
    · rw [if_neg hp]
      exact h.parent
  · have hgid' : g a.id = false ∧ a.id ≠ other := by
      have := mt (hg a.id).mpr (by simp [hgid])
      simpa using this
    rw [parentId_absorbedRow, hbl, hal, hgid'.1, h.parentLive hal hgid'.1]
    cases hp : a.parentId with
    | none => simp
    | some q =>
      have hq : g' q = true ↔ g q = true ∨ q = other := hg q
      by_cases hgq : g q = true
      · simp [hq, hgq]
      · by_cases ho : q = other
        · simp [hg, ho, hother]
        · simp [hq, hgq, ho]

/-- One more node. -/
theorem Absorbed.snoc {now run : ℤ} {target other : String} {row : NodeRow} {done : List String}
    {s s₁ s₂ : Store} {m m' : MergeImage} {moved leftover : List ℤ}
    (h : Absorbed run target done s s₁) (hlive : s₁.nodeExists other = true)
    (h' : AbsorbedInto now run target other row s₁ s₂ m m' moved leftover) :
    Absorbed run target (done ++ [other]) s s₂ := by
  have hother : s.nodeExists other = true ∧ s.gone done other = false := by
    rw [h.nodeExists] at hlive
    revert hlive
    cases s.nodeExists other <;> cases s.gone done other <;> simp
  have hgone : ∀ id, s.gone (done ++ [other]) id = true ↔ s.gone done id = true ∨ id = other := by
    intro id
    rw [gone_append]
    simp [hother.1]
  refine ⟨h.lake.trans h'.lake, h'.minted.trans h.minted, fun {id a} ha => ?_, fun {id} hn => ?_,
    fun {id a} ha => ?_, fun {id} hn => ?_, fun id => ?_⟩
  · obtain ⟨b, hb, hab⟩ := h.nodes ha
    refine ⟨_, by rw [h'.nodes, hb, Option.map_some], ?_⟩
    exact hab.absorb hgone hother.2 ((Table.key_of_get? hb).trans (Table.key_of_get? ha).symm)
  · rw [h'.nodes, h.noNodes hn, Option.map_none]
  · -- a link of the absorbed node moves or stays; one already on the target stays there
    have h2 := h'.links id
    have hmem := h'.mem id
    rcases h.links ha with ⟨h1, hn⟩ | ⟨hg, h1 | h1⟩
    · rw [h1, Option.map_some] at h2
      rw [mem_liveLinks_of h1] at hmem
      by_cases ho : a.nodeId = other ∧ a.live = true
      · refine .inr ⟨⟨ho.2, (hgone _).mpr (.inr ho.1)⟩, ?_⟩
        rcases hmem.mp ho with hm | hm
        · rw [if_pos hm] at h2
          exact .inl h2
        · rw [if_neg (fun hm' => h'.disjoint _ hm' hm), if_pos hm] at h2
          exact .inr h2
      · have hm := mt hmem.mpr ho
        rw [not_or] at hm
        rw [if_neg hm.1, if_neg hm.2] at h2
        refine .inl ⟨h2, fun hg => ?_⟩
        rcases (hgone _).mp hg.2 with hg' | hg'
        · exact hn ⟨hg.1, hg'⟩
        · exact ho ⟨hg', hg.1⟩
    · refine .inr ⟨⟨hg.1, (hgone _).mpr (.inl hg.2)⟩, .inl ?_⟩
      rw [h1, Option.map_some] at h2
      by_cases hm : id ∈ moved
      · rw [if_pos hm] at h2
        exact h2
      · rw [if_neg hm, if_neg fun hl => h'.astray id hl _ h1 rfl] at h2
        exact h2
    · refine .inr ⟨⟨hg.1, (hgone _).mpr (.inl hg.2)⟩, .inr ?_⟩
      rw [h1, Option.map_some] at h2
      rw [mem_liveLinks_of h1] at hmem
      have hm := mt hmem.mpr (by simp)
      rw [not_or] at hm
      rw [if_neg hm.1, if_neg hm.2] at h2
      exact h2
  · rw [h'.links, h.noLinks hn, Option.map_none]
  · rw [h'.observations, h.observations, Option.map_map]
    congr 1
    funext a
    by_cases ho : a.nodeId = other
    · by_cases hl : a.live = true <;> simp [hgone, ho, hother.2, hl]
    · by_cases hg : s.gone done a.nodeId = true <;> by_cases hl : a.live = true <;>
        simp [hg, hl, ho, hgone]

/-- A node that is not live is skipped. -/
theorem Absorbed.skip {run : ℤ} {target other : String} {done : List String} {s s' : Store}
    (h : Absorbed run target done s s') (hn : s'.nodeExists other = false) :
    Absorbed run target (done ++ [other]) s s' := by
  refine ⟨h.lake, h.minted, ?_, h.noNodes, ?_, h.noLinks, ?_⟩ <;> rw [h.gone_of_not_live hn]
  · exact h.nodes
  · exact h.links
  · exact h.observations

/-- All of them in turn. -/
theorem absorb_absorbed {now run : ℤ} {target : String} {s₀ : Store} : ∀ (others : List String)
    {done : List String} {s : Store} (m : MergeImage) (subjects : List Subject),
    Absorbed run target done s₀ s →
      Absorbed run target (done ++ others) s₀ (absorb now run target others s m subjects).1
  | [], done, s, m, subjects, h => by
    rw [List.append_nil]
    exact h
  | other :: others, done, s, m, subjects, h => by
    rw [List.append_cons, absorb]
    split
    · rename_i hn
      exact absorb_absorbed others m subjects (h.skip (by rw [nodeExists, hn]; rfl))
    · rename_i row hrow
      obtain ⟨moved, leftover, hone⟩ := absorbNode_eq now run target other row s m
      exact absorb_absorbed others _ _ (h.snoc (by rw [nodeExists, hrow]; rfl) hone)

/-- What stands on the nodes already has its place: their children are among
them, and each of their links has an entry on the target. -/
def Emptied (s : Store) (target : String) (done : List String) : Prop :=
  ∀ x ∈ done, s.nodeExists x = true → (∀ c ∈ s.liveChildren x, c ∈ done) ∧
    ∀ l ∈ s.liveLinks x, ∀ a, s.links.get? l = some a →
      ∃ id b, s.links.get? id = some b ∧ b.dedup = (target, a.targetKind, a.targetId)

/-- The image names each thing that moved with the place it had. -/
structure Traced (run : ℤ) (target : String) (done : List String) (s s' : Store)
    (m : MergeImage) : Prop where
  absorbed : ∀ id, id ∈ m.absorbed.map (fun a => a.1) ↔ s.gone done id = true
  moved : ∀ {l node}, (l, node) ∈ m.movedLinks → ∃ a, s.links.get? l = some a ∧ a.nodeId = node ∧
    s.gone done node = true ∧ s'.links.get? l = some { a with nodeId := target }
  free : ∀ {l node}, (l, node) ∈ m.movedLinks → node ≠ target → ∀ a, s.links.get? l = some a →
    ∀ id b, s.links.get? id = some b → b.dedup ≠ (target, a.targetKind, a.targetId)
  changed : ∀ {l a}, s.links.get? l = some a → s'.links.get? l ≠ some a →
    (s'.links.get? l = some { a with nodeId := target } ∧ (l, a.nodeId) ∈ m.movedLinks) ∨
      (s'.links.get? l = some (a.retire run) ∧ l ∈ m.leftoverLinks)
  leftover : ∀ l ∈ m.leftoverLinks, ∃ a, s.links.get? l = some a ∧ a.live = true ∧
    s'.links.get? l = some (a.retire run)
  observations : ∀ o, o ∈ m.observations ↔
    ∃ a, s.observations.get? o = some a ∧ s.gone done a.nodeId = true ∧ a.live = true
  children : ∀ {c parent}, (c, parent) ∈ m.children →
    ∃ a, s.nodes.get? c = some a ∧ a.parentId = some parent
  reparented : ∀ {c a b}, s.nodes.get? c = some a → s'.nodes.get? c = some b →
    b.parentId ≠ a.parentId → ∃ parent, (c, parent) ∈ m.children
  targetChild : ∀ {parent}, (target, parent) ∈ m.children → s.nodeExists target = true ∧
    ((parent = target ∧ target ∈ done) ∨ parent ∈ done.takeWhile (· ≠ target) ∧
      s.nodeExists parent = true)

theorem Traced.refl (run : ℤ) (target : String) (s : Store) (title : String)
    (parent : Option String) :
    Traced run target [] s s ⟨target, title, parent, [], [], [], [], []⟩ := by
  constructor <;> intros <;> simp_all [gone]

/-- When the target itself is absorbed, all that stands on it is its own. -/
def Settled (target : String) (s s' : Store) : Prop :=
  (∀ l ∈ s'.liveLinks target, ∀ a, s.links.get? l = some a → a.nodeId = target) ∧
    ∀ c ∈ s'.liveChildren target, ∀ a, s.nodes.get? c = some a → a.parentId = some target

theorem Traced.settled {run : ℤ} {target : String} {done : List String} {s s' : Store}
    {m : MergeImage} (h : Absorbed run target done s s') (ht : Traced run target done s s' m)
    (he : s.Emptied target done) : Settled target s s' := by
  constructor
  · intro l hl a ha
    by_contra hne
    obtain ⟨b, hb, hbn, hbl⟩ := mem_liveLinks.mp hl
    have hba : s'.links.get? l ≠ some a := fun hba => by
      rw [hb, Option.some.injEq] at hba
      exact hne (hba ▸ hbn)
    rcases ht.changed ha hba with ⟨h1, hm⟩ | ⟨h1, -⟩
    · obtain ⟨a', ha', -, hg, -⟩ := ht.moved hm
      obtain ⟨hx, hlive⟩ := by simpa only [gone, Bool.and_eq_true, decide_eq_true_eq] using hg
      have hal : a.live = true := by
        rw [hb, Option.some.injEq] at h1
        rw [h1] at hbl
        exact hbl
      obtain ⟨id, c, hc, hd⟩ := (he _ hx hlive).2 l (mem_liveLinks.mpr ⟨a, ha, rfl, hal⟩) a ha
      exact ht.free hm hne a ha id c hc hd
    · rw [hb, Option.some.injEq] at h1
      rw [h1] at hbl
      cases hbl
  · intro c hc a ha
    obtain ⟨b, hb, hbp, hbl⟩ := mem_liveChildren.mp hc
    obtain ⟨b', hb', hab⟩ := h.nodes ha
    obtain rfl : b = b' := Option.some.inj (hb.symm.trans hb')
    have hl := hab.live
    rw [hbl, Table.key_of_get? ha] at hl
    obtain ⟨hal, hgc⟩ : a.live = true ∧ s.gone done c = false := by simpa using hl.symm
    have hp := hab.parentLive hal (by rw [Table.key_of_get? ha]; exact hgc)
    rw [hbp] at hp
    by_contra hne
    obtain ⟨x, hx, hgx⟩ := (Option.any_eq_true _ _).mp
      (show a.parentId.any (s.gone done) = true by
        by_contra hany
        rw [if_neg hany] at hp
        exact hne hp.symm)
    obtain ⟨hxd, hxl⟩ := by simpa only [gone, Bool.and_eq_true, decide_eq_true_eq] using hgx
    have hcd := (he x hxd hxl).1 c (mem_liveChildren.mpr ⟨a, ha, hx, hal⟩)
    have : s.gone done c = true := by
      simp [gone, hcd, nodeExists_iff.mpr ⟨a, ha, hal⟩]
    rw [hgc] at this
    cases this

theorem mem_takeWhile_append {α : Type} {p : α → Bool} {x : α} : ∀ {xs : List α} (ys : List α),
    x ∈ xs.takeWhile p → x ∈ (xs ++ ys).takeWhile p
  | [], _, h => by simp at h
  | y :: xs, ys, h => by
    by_cases hy : p y = true
    · rw [List.cons_append, List.takeWhile_cons_of_pos hy]
      rw [List.takeWhile_cons_of_pos hy] at h
      rcases List.mem_cons.mp h with rfl | h
      · exact List.mem_cons_self
      · exact List.mem_cons_of_mem _ (mem_takeWhile_append ys h)
    · rw [List.takeWhile_cons_of_neg hy] at h
      cases h

/-- One more node. -/
theorem Traced.snoc {now run : ℤ} {target other : String} {row : NodeRow} {done : List String}
    {s s₁ s₂ : Store} {m m' : MergeImage} {moved leftover : List ℤ}
    (h : Absorbed run target done s s₁) (ht : Traced run target done s s₁ m)
    (hlive : s₁.nodeExists other = true)
    (h' : AbsorbedInto now run target other row s₁ s₂ m m' moved leftover)
    (hself : other = target → Settled target s s₁) :
    Traced run target (done ++ [other]) s s₂ m' := by
  have hother : s.nodeExists other = true ∧ s.gone done other = false := by
    rw [h.nodeExists] at hlive
    revert hlive
    cases s.nodeExists other <;> cases s.gone done other <;> simp
  have hgone : ∀ id, s.gone (done ++ [other]) id = true ↔ s.gone done id = true ∨ id = other := by
    intro id
    rw [gone_append]
    simp [hother.1]
  -- a live link of the absorbed node had that node before the merge
  have hown : ∀ l ∈ s₁.liveLinks other, ∃ a, s.links.get? l = some a ∧ a.nodeId = other ∧
      a.live = true ∧ (s₁.links.get? l = some a ∨
        s₁.links.get? l = some { a with nodeId := target }) := by
    intro l hl
    obtain ⟨b, hb, hbn, hbl⟩ := mem_liveLinks.mp hl
    cases ha : s.links.get? l with
    | none => simp [h.noLinks ha] at hb
    | some a =>
      refine ⟨a, rfl, ?_⟩
      rcases h.links ha with ⟨h1, -⟩ | ⟨hg, h1 | h1⟩
      · obtain rfl : b = a := Option.some.inj (hb.symm.trans h1)
        exact ⟨hbn, hbl, .inl h1⟩
      · rw [hb, Option.some.injEq] at h1
        have hot : other = target := by rw [← hbn, h1]
        subst hot
        exact ⟨(hself rfl).1 l hl a ha, hg.1, .inr (by rw [hb, h1])⟩
      · rw [hb, Option.some.injEq] at h1
        rw [h1] at hbl
        cases hbl
  obtain ⟨hlake, hminted, himage, hnodes, hobs, hmem, hdis, hlinks, hfree, hastray⟩ := h'
  rw [himage]
  refine ⟨fun id => ?_, fun {l node} hm => ?_, fun {l node} hm hne a ha id b hb hd => ?_,
    fun {l a} ha hne => ?_, fun l hl => ?_, fun o => ?_, fun {c parent} hc => ?_,
    fun {c a b} ha hb hne => ?_, fun {parent} hm => ?_⟩
  · rw [hgone, ← ht.absorbed, List.map_append, List.mem_append]
    simp
  · rcases List.mem_append.mp hm with hm | hm
    · obtain ⟨a, ha, hn, hg, h1⟩ := ht.moved hm
      refine ⟨a, ha, hn, (hgone _).mpr (.inl hg), ?_⟩
      rw [hlinks, h1, Option.map_some]
      by_cases hl : l ∈ moved
      · rw [if_pos hl]
      · rw [if_neg hl, if_neg fun hl => hastray l hl _ h1 rfl]
    · obtain ⟨l', hl', heq⟩ := List.mem_map.mp hm
      cases heq
      obtain ⟨a, ha, hn, -, h1⟩ := hown l ((hmem l).mpr (.inl hl'))
      refine ⟨a, ha, hn, (hgone _).mpr (.inr rfl), ?_⟩
      rcases h1 with h1 | h1 <;> rw [hlinks, h1, Option.map_some, if_pos hl']
  · rcases List.mem_append.mp hm with hm | hm
    · exact ht.free hm hne a ha id b hb hd
    · obtain ⟨l', hl', heq⟩ := List.mem_map.mp hm
      cases heq
      obtain ⟨a', ha', hn, -, h1⟩ := hown l ((hmem l).mpr (.inl hl'))
      obtain rfl : a = a' := Option.some.inj (ha.symm.trans ha')
      -- an entry that the target had is on the target still
      have hb' : ∃ b', s₁.links.get? id = some b' ∧
          b'.dedup = (target, a.targetKind, a.targetId) := by
        simp only [LinkRow.dedup, Prod.mk.injEq] at hd
        rcases h.links hb with ⟨h2, -⟩ | ⟨-, h2 | h2⟩
        · exact ⟨b, h2, by simp [LinkRow.dedup, hd]⟩
        · exact ⟨_, h2, by simp [LinkRow.dedup, hd]⟩
        · exact ⟨_, h2, by simp [LinkRow.dedup, LinkRow.retire, hd]⟩
      obtain ⟨b', hb', hd'⟩ := hb'
      have hid : id = l := by
        rcases h1 with h1 | h1 <;> exact hfree l hl' _ h1 id b' hb' hd'
      subst hid
      obtain rfl : a = b := Option.some.inj (ha.symm.trans hb)
      simp only [LinkRow.dedup, Prod.mk.injEq] at hd
      exact hne (hn.symm.trans hd.1)
  · by_cases h1 : s₁.links.get? l = some a
    · rw [hlinks, h1, Option.map_some] at hne ⊢
      by_cases hm : l ∈ moved
      · have hn := mem_liveLinks_of h1 |>.mp ((hmem l).mpr (.inl hm))
        rw [if_pos hm, hn.1]
        exact .inl ⟨rfl, List.mem_append_right _ (List.mem_map_of_mem hm)⟩
      · rw [if_neg hm] at hne ⊢
        by_cases hl : l ∈ leftover
        · rw [if_pos hl]
          exact .inr ⟨rfl, List.mem_append_right _ hl⟩
        · rw [if_neg hl] at hne
          exact absurd rfl hne
    · rcases ht.changed ha h1 with ⟨h2, hm⟩ | ⟨h2, hm⟩
      · refine .inl ⟨?_, List.mem_append_left _ hm⟩
        rw [hlinks, h2, Option.map_some]
        by_cases hl : l ∈ moved
        · rw [if_pos hl]
        · rw [if_neg hl, if_neg fun hl => hastray l hl _ h2 rfl]
      · refine .inr ⟨?_, List.mem_append_left _ hm⟩
        have hnot : l ∉ s₁.liveLinks other := by
          rw [mem_liveLinks_of h2]
          simp
        rw [hmem, not_or] at hnot
        rw [hlinks, h2, Option.map_some, if_neg hnot.1, if_neg hnot.2]
  · rcases List.mem_append.mp hl with hl | hl
    · obtain ⟨a, ha, hal, h2⟩ := ht.leftover l hl
      refine ⟨a, ha, hal, ?_⟩
      have hnot : l ∉ s₁.liveLinks other := by
        rw [mem_liveLinks_of h2]
        simp
      rw [hmem, not_or] at hnot
      rw [hlinks, h2, Option.map_some, if_neg hnot.1, if_neg hnot.2]
    · obtain ⟨a, ha, hn, hal, h1⟩ := hown l ((hmem l).mpr (.inr hl))
      refine ⟨a, ha, hal, ?_⟩
      rcases h1 with h1 | h1
      · rw [hlinks, h1, Option.map_some, if_neg fun hm => hdis l hm hl, if_pos hl]
      · exact absurd rfl (hastray l hl _ h1)
  · rw [List.mem_append, ht.observations, mem_liveObservations, h.observations]
    cases ha : s.observations.get? o with
    | none => simp
    | some a =>
      by_cases ho : a.nodeId = other
      · by_cases hl : a.live = true <;> simp [hgone, ho, hother.2, hl]
      · by_cases hg : s.gone done a.nodeId = true <;> by_cases hl : a.live = true <;>
          simp [hg, hl, ho, hgone]
  · rcases List.mem_append.mp hc with hc | hc
    · exact ht.children hc
    · obtain ⟨c', hc', heq⟩ := List.mem_map.mp hc
      cases heq
      obtain ⟨b, hb, hbp, -⟩ := mem_liveChildren.mp hc'
      cases ha : s.nodes.get? c with
      | none => simp [h.noNodes ha] at hb
      | some a =>
        refine ⟨a, rfl, ?_⟩
        obtain ⟨b', hb', hab⟩ := h.nodes ha
        obtain rfl : b = b' := Option.some.inj (hb.symm.trans hb')
        rcases hab.parent with hp | ⟨-, hp⟩
        · rw [← hp, hbp]
        · rw [hbp, Option.some.injEq] at hp
          subst hp
          exact (hself rfl).2 c hc' a ha
  · obtain ⟨b₁, hb₁, -⟩ := h.nodes ha
    rw [hnodes, hb₁, Option.map_some, Option.some.injEq] at hb
    rw [← hb, parentId_absorbedRow] at hne
    by_cases hp : b₁.parentId = some other ∧ b₁.live = true
    · exact ⟨other, List.mem_append_right _
        (List.mem_map_of_mem (mem_liveChildren.mpr ⟨b₁, hb₁, hp⟩))⟩
    · rw [if_neg hp] at hne
      obtain ⟨parent, hc⟩ := ht.reparented ha hb₁ hne
      exact ⟨parent, List.mem_append_left _ hc⟩
  · rcases List.mem_append.mp hm with hm | hm
    · obtain ⟨h1, h2 | h2⟩ := ht.targetChild hm
      · exact ⟨h1, .inl ⟨h2.1, List.mem_append_left _ h2.2⟩⟩
      · exact ⟨h1, .inr ⟨mem_takeWhile_append _ h2.1, h2.2⟩⟩
    · obtain ⟨c', hc', heq⟩ := List.mem_map.mp hm
      cases heq
      obtain ⟨b, hb, -, hbl⟩ := mem_liveChildren.mp hc'
      have htl : s.nodeExists target = true ∧ s.gone done target = false := by
        have := nodeExists_iff.mpr ⟨b, hb, hbl⟩
        rw [h.nodeExists] at this
        simpa using this
      refine ⟨htl.1, ?_⟩
      by_cases hot : other = target
      · exact .inl ⟨hot, by simp [hot]⟩
      · refine .inr ⟨?_, hother.1⟩
        have hnot : ∀ x ∈ done ++ [other], decide (x ≠ target) = true := by
          intro x hx
          rcases List.mem_append.mp hx with hx | hx
          · rw [decide_eq_true_eq]
            rintro rfl
            rw [gone, htl.1] at htl
            simp [hx] at htl
          · rw [List.mem_singleton.mp hx]
            simpa using hot
        rw [List.takeWhile_eq_self_iff.mpr hnot]
        simp

/-- A node that is not live is skipped. -/
theorem Traced.skip {run : ℤ} {target other : String} {done : List String} {s s' : Store}
    {m : MergeImage} (h : Absorbed run target done s s') (ht : Traced run target done s s' m)
    (hn : s'.nodeExists other = false) : Traced run target (done ++ [other]) s s' m := by
  have hgone := h.gone_of_not_live hn
  refine ⟨by rw [hgone]; exact ht.absorbed, by rw [hgone]; exact ht.moved, ht.free, ht.changed,
    ht.leftover, by rw [hgone]; exact ht.observations, ht.children, ht.reparented,
    fun {parent} hm => ?_⟩
  obtain ⟨h1, h2 | h2⟩ := ht.targetChild hm
  · exact ⟨h1, .inl ⟨h2.1, List.mem_append_left _ h2.2⟩⟩
  · exact ⟨h1, .inr ⟨mem_takeWhile_append _ h2.1, h2.2⟩⟩

/-- All of them in turn. -/
theorem absorb_traced {now run : ℤ} {target : String} {s₀ : Store} : ∀ (others : List String)
    {done : List String} {s : Store} {m : MergeImage} (subjects : List Subject),
    (s₀.nodeExists target = true → ∀ pre post, done ++ others = pre ++ target :: post →
      target ∉ pre → s₀.Emptied target pre) →
    Absorbed run target done s₀ s → Traced run target done s₀ s m →
      Traced run target (done ++ others) s₀ (absorb now run target others s m subjects).1
        (absorb now run target others s m subjects).2.1
  | [], done, s, m, subjects, _, _, ht => by
    rw [List.append_nil]
    exact ht
  | other :: others, done, s, m, subjects, he, h, ht => by
    have he' := he
    rw [List.append_cons] at he
    rw [List.append_cons, absorb]
    split
    · rename_i hn
      have hn : s.nodeExists other = false := by rw [nodeExists, hn]; rfl
      exact absorb_traced others subjects he (h.skip hn) (ht.skip h hn)
    · rename_i row hrow
      have hlive : s.nodeExists other = true := by rw [nodeExists, hrow]; rfl
      obtain ⟨moved, leftover, hone⟩ := absorbNode_eq now run target other row s m
      refine absorb_traced others _ he (h.snoc hlive hone) (ht.snoc h hlive hone ?_)
      rintro rfl
      rw [h.nodeExists, Bool.and_eq_true] at hlive
      refine ht.settled h (he' hlive.1 done others rfl fun hd => ?_)
      have := hlive.2
      rw [gone, hlive.1] at this
      simp [hd] at this

/-- The image's head is as the merge began it. -/
theorem absorb_head {now run : ℤ} {target : String} : ∀ (others : List String) (s : Store)
    (m : MergeImage) (subjects : List Subject),
    (absorb now run target others s m subjects).2.1.target = m.target ∧
      (absorb now run target others s m subjects).2.1.oldTitle = m.oldTitle ∧
      (absorb now run target others s m subjects).2.1.oldParent = m.oldParent
  | [], _, _, _ => ⟨rfl, rfl, rfl⟩
  | other :: others, s, m, subjects => by
    rw [absorb]
    split
    · exact absorb_head others s m subjects
    · rename_i row hrow
      obtain ⟨moved, leftover, hone⟩ := absorbNode_eq now run target other row s m
      have himage := hone.image
      have hrest := @absorb_head now run target others
        (absorbNode now run target other row s m).1 (absorbNode now run target other row s m).2
        (subjects ++ .node other :: (s.liveLinks other).map .link)
      rw [show (absorbNode now run target other row s m).2.target = m.target by rw [himage],
        show (absorbNode now run target other row s m).2.oldTitle = m.oldTitle by rw [himage],
        show (absorbNode now run target other row s m).2.oldParent = m.oldParent by rw [himage]]
        at hrest
      exact hrest

/-- The target with its new title and parent, before anything is absorbed. -/
def mergeStart (s : Store) (now : ℤ) (target : String) (p : ProposalRow) : Store :=
  let s := match p.title with
    | some title => s.setTitle now target title
    | none => s
  match p.parentId with
  | some parent => s.setParent now [target] (some parent)
  | none => s

/-- The target's row then. -/
def mergeStartRow (now : ℤ) (p : ProposalRow) (row : NodeRow) : NodeRow :=
  let row := match p.title with
    | some title => { row with title := title, updatedAt := now }
    | none => row
  match p.parentId with
  | some parent => { row with parentId := some parent, updatedAt := now }
  | none => row

theorem get?_setTitle {s : Store} {now : ℤ} {n title id : String} :
    (s.setTitle now n title).nodes.get? id = (s.nodes.get? id).map fun a =>
      if id = n then { a with title := title, updatedAt := now } else a := by
  rw [setTitle, Table.get?_update]
  cases ha : s.nodes.get? id with
  | none => rfl
  | some a => simp [Table.key_of_get? ha]

theorem get?_mergeStart {s : Store} {now : ℤ} {target id : String} {p : ProposalRow} :
    (s.mergeStart now target p).nodes.get? id = (s.nodes.get? id).map fun a =>
      if id = target then mergeStartRow now p a else a := by
  unfold mergeStart mergeStartRow
  cases p.title <;> cases p.parentId <;>
    simp only [get?_setParent, get?_setTitle, Option.map_map, List.mem_singleton] <;>
    cases s.nodes.get? id <;> by_cases hid : id = target <;> simp [hid]

theorem sameLake_mergeStart (s : Store) (now : ℤ) (target : String) (p : ProposalRow) :
    SameLake s (s.mergeStart now target p) ∧ (s.mergeStart now target p).minted = s.minted ∧
      (s.mergeStart now target p).links = s.links ∧
      (s.mergeStart now target p).observations = s.observations := by
  unfold mergeStart
  cases p.title <;> cases p.parentId <;> exact ⟨by constructor <;> rfl, rfl, rfl, rfl⟩

@[simp] theorem live_mergeStartRow (now : ℤ) (p : ProposalRow) (row : NodeRow) :
    (mergeStartRow now p row).live = row.live := by
  unfold mergeStartRow
  cases p.title <;> cases p.parentId <;> rfl

theorem parentId_mergeStartRow (now : ℤ) (p : ProposalRow) (row : NodeRow) :
    (mergeStartRow now p row).parentId = p.parentId.or row.parentId := by
  unfold mergeStartRow
  cases p.title <;> cases p.parentId <;> rfl

theorem nodeExists_mergeStart (s : Store) (now : ℤ) (target : String) (p : ProposalRow)
    (id : String) : (s.mergeStart now target p).nodeExists id = s.nodeExists id := by
  rw [nodeExists, liveNode?, get?_mergeStart, nodeExists, liveNode?]
  cases s.nodes.get? id with
  | none => rfl
  | some a => by_cases hid : id = target <;> cases ha : a.live <;> simp [Option.filter, hid, ha]

/-- A merge that can be undone from its image: what stands on the nodes
absorbed before the target absorbs itself has its place already, and the
target is not reparented twice. -/
def PlainMerge (s : Store) (p : ProposalRow) (target : String) (row : NodeRow)
    (others : List String) : Prop :=
  row.live = true →
    (target ∈ others → ∀ x ∈ others.takeWhile (· ≠ target), s.nodeExists x = true →
      p.parentId.or row.parentId ≠ some x ∧
      (∀ c ∈ s.liveChildren x, c ≠ target → c ∈ others.takeWhile (· ≠ target)) ∧
      ∀ l ∈ s.liveLinks x, ∀ a, s.links.get? l = some a →
        ∃ id b, s.links.get? id = some b ∧ b.dedup = (target, a.targetKind, a.targetId)) ∧
    ∀ x, p.parentId = some x → (x ∈ others.takeWhile (· ≠ target) ∧ s.nodeExists x = true) ∨
      (x = target ∧ target ∈ others) → row.parentId = some x

theorem takeWhile_ne_of_notMem {α : Type} [DecidableEq α] {x : α} {pre post : List α}
    (h : x ∉ pre) : (pre ++ x :: post).takeWhile (· ≠ x) = pre := by
  rw [List.takeWhile_append_of_pos, List.takeWhile_cons_of_neg (by simp), List.append_nil]
  intro y hy
  rw [decide_eq_true_eq]
  rintro rfl
  exact h hy

theorem PlainMerge.emptied {s : Store} {p : ProposalRow} {target : String} {row : NodeRow}
    {pre post : List String} (h : s.PlainMerge p target row (pre ++ target :: post))
    (hrow : s.nodes.get? target = some row) (hlive : row.live = true) (hpre : target ∉ pre)
    (now : ℤ) : (s.mergeStart now target p).Emptied target pre := by
  obtain ⟨-, -, hlinks, -⟩ := s.sameLake_mergeStart now target p
  have h1 := (h hlive).1 (by simp)
  rw [takeWhile_ne_of_notMem hpre] at h1
  intro x hx hxl
  rw [nodeExists_mergeStart] at hxl
  obtain ⟨hparent, hkids, hdup⟩ := h1 x hx hxl
  constructor
  · intro c hc
    obtain ⟨b, hb, hbp, hbl⟩ := mem_liveChildren.mp hc
    rw [get?_mergeStart] at hb
    by_cases hct : c = target
    · subst hct
      rw [hrow, Option.map_some, if_pos rfl, Option.some.injEq] at hb
      rw [← hb, parentId_mergeStartRow] at hbp
      exact absurd hbp hparent
    · simp only [hct, if_false, Option.map_id'] at hb
      exact hkids c (mem_liveChildren.mpr ⟨b, hb, hbp, hbl⟩) hct
  · rw [hlinks]
    intro l hl
    refine hdup l ?_
    rw [liveLinks, hlinks] at hl
    exact hl

theorem applyMerge_ok {s s' : Store} {now run : ℤ} {p : ProposalRow} {detail : String}
    (ha : s.applyMerge now run p = .ok (some (s', detail))) :
    ∃ target others row s₁ m subjects, Extra.asIds p.extra = target :: others ∧
      s.nodes.get? target = some row ∧
      Absorbed run target others (s.mergeStart now target p) s₁ ∧
      (s.PlainMerge p target row others →
        Traced run target others (s.mergeStart now target p) s₁ m) ∧
      m.target = target ∧ m.oldTitle = row.title ∧ m.oldParent = row.parentId ∧
      s₁.journalOp run (.applied subjects (.merge m) none) = .ok s' := by
  unfold applyMerge at ha
  split at ha
  · cases ha
  rename_i target others hids
  split at ha
  · cases ha
  rename_i row hrow
  obtain ⟨s₂, hj, hs⟩ := bind_eq_ok.mp ha
  cases hs
  refine ⟨target, others, row, _, _, _, hids, hrow, absorb_absorbed others _ _ (.refl _ _ _),
    fun hplain => ?_, ?_, ?_, ?_, hj⟩
  · refine absorb_traced others _ (fun hlive pre post heq hpre => ?_) (.refl _ _ _)
      (.refl _ _ _ _ _)
    rw [nodeExists_mergeStart] at hlive
    obtain ⟨row', hrow', hlive⟩ := nodeExists_iff.mp hlive
    obtain rfl : row = row' := Option.some.inj (hrow.symm.trans hrow')
    rw [List.nil_append] at heq
    exact (heq ▸ hplain).emptied hrow hlive hpre now
  · exact (absorb_head others _ _ _).1
  · exact (absorb_head others _ _ _).2.1
  · exact (absorb_head others _ _ _).2.2

/-! ### Split -/

theorem applySplit_ok {h : Host} {s s' : Store} {now run : ℤ} {actor detail : String}
    {p : ProposalRow} (ha : s.applySplit h now run actor p = .ok (s', detail)) :
    ∃ row s₁ created subjects, s.nodes.get? (p.nodeId.getD "") = some row ∧
      SplitBy h now actor (p.nodeId.getD "") row.parentId s s₁ created ∧
      s₁.journalOp run (.applied subjects (.split (p.nodeId.getD "") row.parentId created) none) =
        .ok s' := by
  unfold applySplit at ha
  dsimp only at ha
  split at ha
  · cases ha
  rename_i row hrow
  obtain ⟨⟨s₁, created⟩, hi, ha⟩ := bind_eq_ok.mp ha
  obtain ⟨s₂, hj, hs⟩ := bind_eq_ok.mp ha
  cases hs
  obtain ⟨new, hnew, hsplit⟩ := splitInto_ok (by rw [hrow]; exact Option.some_ne_none row) hi
  rw [List.nil_append] at hnew
  exact ⟨row, s₁, created, _, hrow, hnew ▸ hsplit, hj⟩

end Store

end PolisMemory
