/-
# What the structural ops do to the rows

One lemma for each loop of `apply_class_proposal_in_run` and for
`retire_node_subtree`: what a row is after the loop, from what it was before
it. The inverses, the shape of the tree and the safety of a collapse are all
proved from these.

Key theorems: `retireNodes_eq`, `cite_eq`, `moveLinks_eq`, `absorbNode_eq`,
`splitInto_ok`, `mem_subtreeWalk`.
-/
import PolisMemory.Catalog

namespace PolisMemory

open Tables

/-- `retired_by_run` set on a link. -/
def LinkRow.retire (run : ℤ) (l : LinkRow) : LinkRow := { l with retiredByRun := some run }

/-- `retired_by_run` set on an observation. -/
def ObservationRow.retire (run : ℤ) (o : ObservationRow) : ObservationRow :=
  { o with retiredByRun := some run }

/-- `retired_by_run` and `retired_into` set on a node. -/
def NodeRow.retire (run : ℤ) (into : Option String) (n : NodeRow) : NodeRow :=
  { n with retiredByRun := some run, retiredInto := into }

/-- A node's row without its stamp and its marks. -/
def NodeRow.face (n : NodeRow) : NodeRow :=
  { n with updatedAt := 0, retiredByRun := none, retiredInto := none }

/-- A node's marks. -/
def NodeRow.marks (n : NodeRow) : Option ℤ × Option String := (n.retiredByRun, n.retiredInto)

@[simp] theorem LinkRow.live_retire (run : ℤ) (l : LinkRow) : (l.retire run).live = false := rfl

@[simp] theorem LinkRow.nodeId_retire (run : ℤ) (l : LinkRow) : (l.retire run).nodeId = l.nodeId :=
  rfl

@[simp] theorem ObservationRow.live_retire (run : ℤ) (o : ObservationRow) :
    (o.retire run).live = false := rfl

@[simp] theorem ObservationRow.nodeId_retire (run : ℤ) (o : ObservationRow) :
    (o.retire run).nodeId = o.nodeId := rfl

@[simp] theorem NodeRow.live_retire (run : ℤ) (into : Option String) (n : NodeRow) :
    (n.retire run into).live = false := rfl

/-- The tables outside the catalog are as they were. -/
structure SameLake (s s' : Store) : Prop where
  proposals : s'.proposals = s.proposals
  runs : s'.runs = s.runs
  runOps : s'.runOps = s.runOps
  ledger : s'.ledger = s.ledger
  prompts : s'.prompts = s.prompts
  archive : s'.archive = s.archive
  supersessions : s'.supersessions = s.supersessions
  embeddings : s'.embeddings = s.embeddings
  claimRecords : s'.claimRecords = s.claimRecords
  claims : s'.claims = s.claims
  claimSources : s'.claimSources = s.claimSources
  forgottenSources : s'.forgottenSources = s.forgottenSources
  forgottenCaptures : s'.forgottenCaptures = s.forgottenCaptures
  decisionEvidence : s'.decisionEvidence = s.decisionEvidence
  noteEvents : s'.noteEvents = s.noteEvents
  userNotes : s'.userNotes = s.userNotes
  revertHorizon : s'.revertHorizon = s.revertHorizon

theorem SameLake.refl (s : Store) : SameLake s s := by constructor <;> rfl

theorem SameLake.trans {s₁ s₂ s₃ : Store} (h : SameLake s₁ s₂) (h' : SameLake s₂ s₃) :
    SameLake s₁ s₃ where
  proposals := h'.proposals.trans h.proposals
  runs := h'.runs.trans h.runs
  runOps := h'.runOps.trans h.runOps
  ledger := h'.ledger.trans h.ledger
  prompts := h'.prompts.trans h.prompts
  archive := h'.archive.trans h.archive
  supersessions := h'.supersessions.trans h.supersessions
  embeddings := h'.embeddings.trans h.embeddings
  claimRecords := h'.claimRecords.trans h.claimRecords
  claims := h'.claims.trans h.claims
  claimSources := h'.claimSources.trans h.claimSources
  forgottenSources := h'.forgottenSources.trans h.forgottenSources
  forgottenCaptures := h'.forgottenCaptures.trans h.forgottenCaptures
  decisionEvidence := h'.decisionEvidence.trans h.decisionEvidence
  noteEvents := h'.noteEvents.trans h.noteEvents
  userNotes := h'.userNotes.trans h.userNotes
  revertHorizon := h'.revertHorizon.trans h.revertHorizon

namespace Store

/-- Only the rows of the catalog differ. -/
theorem sameLake_catalog (s : Store) (nodes : Table NodeRow.id)
    (links : IndexedTable LinkRow.id LinkRow.dedup) (observations : AutoTable ObservationRow.id)
    (minted : ℕ) : SameLake s { s with
      nodes := nodes
      links := links
      observations := observations
      minted := minted } := by
  constructor <;> rfl

/-! ### Retiring a subtree -/

/-- A walked node is on the stack it started from or a live child. -/
theorem mem_subtreeWalk {s : Store} {id : String} : ∀ {n : ℕ} {stack : List String},
    id ∈ s.subtreeWalk n stack → id ∈ stack ∨ ∃ a, s.nodes.get? id = some a ∧ a.live = true
  | 0, _, h => by simp [subtreeWalk] at h
  | _ + 1, [], h => by simp [subtreeWalk] at h
  | n + 1, top :: stack, h => by
    rcases List.mem_cons.mp h with rfl | h
    · exact .inl List.mem_cons_self
    · rcases mem_subtreeWalk h with h | h
      · rcases List.mem_append.mp h with h | h
        · obtain ⟨a, ha, -, hl⟩ := mem_liveChildren.mp (List.mem_reverse.mp h)
          exact .inr ⟨a, ha, hl⟩
        · exact .inl (List.mem_cons_of_mem top h)
      · exact .inr h

/-- The rows after the walked nodes were retired, and what was marked. -/
structure RetiredBy (run : ℤ) (into : Option String) (ids : List String) (s s' : Store)
    (out out' : RetiredSet) : Prop where
  lake : SameLake s s'
  minted : s'.minted = s.minted
  nodes : ∀ id, s'.nodes.get? id = (s.nodes.get? id).map fun a =>
    if id ∈ ids ∧ a.live = true then a.retire run into else a
  links : ∀ id, s'.links.get? id = (s.links.get? id).map fun a =>
    if a.nodeId ∈ ids ∧ a.live = true then a.retire run else a
  observations : ∀ id, s'.observations.get? id = (s.observations.get? id).map fun a =>
    if a.nodeId ∈ ids ∧ a.live = true then a.retire run else a
  outNodes : out'.nodes = out.nodes ++ ids
  outLinks : ∀ id, id ∈ out'.links ↔ id ∈ out.links ∨
    ∃ a, s.links.get? id = some a ∧ a.nodeId ∈ ids ∧ a.live = true
  outObservations : ∀ id, id ∈ out'.observations ↔ id ∈ out.observations ∨
    ∃ a, s.observations.get? id = some a ∧ a.nodeId ∈ ids ∧ a.live = true

theorem get?_retireLinks {s : Store} {run : ℤ} {ids : List ℤ} {id : ℤ} :
    (s.retireLinks run ids).links.get? id = (s.links.get? id).map fun a =>
      if id ∈ ids then a.retire run else a := by
  simp only [retireLinks, IndexedTable.toAutoTable_update, AutoTable.toTable_update,
    Table.get?_update]
  cases ha : s.links.get? id with
  | none => rfl
  | some a => simp [Table.key_of_get? ha, LinkRow.retire]

theorem get?_retireObservations {s : Store} {run : ℤ} {ids : List ℤ} {id : ℤ} :
    (s.retireObservations run ids).observations.get? id = (s.observations.get? id).map fun a =>
      if id ∈ ids then a.retire run else a := by
  simp only [retireObservations, AutoTable.toTable_update, Table.get?_update]
  cases ha : s.observations.get? id with
  | none => rfl
  | some a => simp [Table.key_of_get? ha, ObservationRow.retire]

theorem get?_retireNode {s : Store} {run : ℤ} {into : Option String} {n id : String} :
    (s.retireNode run into n).nodes.get? id = (s.nodes.get? id).map fun a =>
      if id = n ∧ a.live = true then a.retire run into else a := by
  simp only [retireNode, Table.get?_update]
  cases ha : s.nodes.get? id with
  | none => rfl
  | some a => simp [Table.key_of_get? ha, NodeRow.retire]

theorem RetiredBy.trans {run : ℤ} {into : Option String} {ids ids' : List String}
    {s s₁ s₂ : Store} {out out₁ out₂ : RetiredSet} (h : RetiredBy run into ids s s₁ out out₁)
    (h' : RetiredBy run into ids' s₁ s₂ out₁ out₂) :
    RetiredBy run into (ids ++ ids') s s₂ out out₂ where
  lake := h.lake.trans h'.lake
  minted := h'.minted.trans h.minted
  nodes id := by
    rw [h'.nodes, h.nodes, Option.map_map]
    congr 1
    funext a
    by_cases hm : id ∈ ids ∧ a.live = true
    · simp [hm]
    · by_cases hm' : id ∈ ids <;> simp_all
  links id := by
    rw [h'.links, h.links, Option.map_map]
    congr 1
    funext a
    by_cases hm : a.nodeId ∈ ids ∧ a.live = true
    · simp [hm]
    · by_cases hm' : a.nodeId ∈ ids <;> simp_all
  observations id := by
    rw [h'.observations, h.observations, Option.map_map]
    congr 1
    funext a
    by_cases hm : a.nodeId ∈ ids ∧ a.live = true
    · simp [hm]
    · by_cases hm' : a.nodeId ∈ ids <;> simp_all
  outNodes := by rw [h'.outNodes, h.outNodes, List.append_assoc]
  outLinks id := by
    rw [h'.outLinks, h.outLinks, h.links, or_assoc]
    refine or_congr_right ?_
    cases s.links.get? id with
    | none => simp
    | some a =>
      by_cases hm : a.nodeId ∈ ids ∧ a.live = true
      · simp [hm]
      · by_cases hm' : a.nodeId ∈ ids <;> simp_all
  outObservations id := by
    rw [h'.outObservations, h.outObservations, h.observations, or_assoc]
    refine or_congr_right ?_
    cases s.observations.get? id with
    | none => simp
    | some a =>
      by_cases hm : a.nodeId ∈ ids ∧ a.live = true
      · simp [hm]
      · by_cases hm' : a.nodeId ∈ ids <;> simp_all

theorem mem_liveLinks_of {s : Store} {n : String} {id : ℤ} {a : LinkRow}
    (ha : s.links.get? id = some a) : id ∈ s.liveLinks n ↔ a.nodeId = n ∧ a.live = true := by
  rw [mem_liveLinks, ha]
  simp

theorem mem_liveObservations_of {s : Store} {n : String} {id : ℤ} {a : ObservationRow}
    (ha : s.observations.get? id = some a) :
    id ∈ s.liveObservations n ↔ a.nodeId = n ∧ a.live = true := by
  rw [mem_liveObservations, ha]
  simp

/-- One walked node. -/
theorem retiredBy_one (run : ℤ) (into : Option String) (n : String) (s : Store) (out : RetiredSet) :
    RetiredBy run into [n] s
      (((s.retireLinks run (s.liveLinks n)).retireObservations run
        (s.liveObservations n)).retireNode run into n) out
      ⟨out.nodes ++ [n], out.links ++ s.liveLinks n, out.observations ++ s.liveObservations n⟩ where
  lake := s.sameLake_catalog _ _ _ s.minted
  minted := rfl
  nodes id := by
    rw [get?_retireNode]
    simp [retireObservations, retireLinks]
  links id := by
    change (s.retireLinks run (s.liveLinks n)).links.get? id = _
    rw [get?_retireLinks]
    cases ha : s.links.get? id with
    | none => rfl
    | some a => simp [mem_liveLinks_of ha]
  observations id := by
    change ((s.retireLinks run (s.liveLinks n)).retireObservations run
      (s.liveObservations n)).observations.get? id = _
    rw [get?_retireObservations]
    change (s.observations.get? id).map _ = _
    cases ha : s.observations.get? id with
    | none => rfl
    | some a => simp [mem_liveObservations_of ha]
  outNodes := rfl
  outLinks id := by simp [mem_liveLinks]
  outObservations id := by simp [mem_liveObservations]

theorem retireNodes_eq (run : ℤ) (into : Option String) : ∀ (ids : List String) (s : Store)
    (out : RetiredSet), RetiredBy run into ids s (retireNodes run into ids s out).1 out
      (retireNodes run into ids s out).2
  | [], s, out => by
    refine ⟨.refl s, rfl, ?_, ?_, ?_, ?_, ?_, ?_⟩ <;> simp [retireNodes]
  | n :: ids, s, out =>
    (retiredBy_one run into n s out).trans (retireNodes_eq run into ids _ _)

/-! ### Citations -/

/-- The rows after a digest's citations were made. -/
structure Cited (digest : String) (s s' : Store) (citations citations' : List ℤ) : Prop where
  lake : SameLake s s'
  minted : s'.minted = s.minted
  nodes : s'.nodes = s.nodes
  observations : s'.observations = s.observations
  old : ∀ {id a}, s.links.get? id = some a → s'.links.get? id = some a
  new : ∀ {id b}, s.links.get? id = none → s'.links.get? id = some b →
    b.nodeId = digest ∧ b.live = true ∧ id ∈ citations'
  mono : ∀ id ∈ citations, id ∈ citations'
  mem : ∀ id ∈ citations', id ∈ citations ∨ s.links.get? id = none

theorem Cited.refl (digest : String) (s : Store) (citations : List ℤ) :
    Cited digest s s citations citations :=
  ⟨.refl s, rfl, rfl, rfl, id, fun hn hb => by simp [hn] at hb, fun _ => id, fun _ => .inl⟩

theorem Cited.trans {digest : String} {s s₁ s₂ : Store} {c c₁ c₂ : List ℤ}
    (h : Cited digest s s₁ c c₁) (h' : Cited digest s₁ s₂ c₁ c₂) : Cited digest s s₂ c c₂ where
  lake := h.lake.trans h'.lake
  minted := h'.minted.trans h.minted
  nodes := h'.nodes.trans h.nodes
  observations := h'.observations.trans h.observations
  old ha := h'.old (h.old ha)
  new := fun {id b} hn hb => by
    cases h1 : s₁.links.get? id with
    | none => exact h'.new h1 hb
    | some b' =>
      obtain rfl : b' = b := Option.some.inj ((h'.old h1).symm.trans hb)
      obtain ⟨h2, h3, h4⟩ := h.new hn h1
      exact ⟨h2, h3, h'.mono _ h4⟩
  mono id hid := h'.mono id (h.mono id hid)
  mem id hid := by
    rcases h'.mem id hid with h1 | h1
    · exact h.mem id h1
    · refine .inr ?_
      cases ha : s.links.get? id with
      | none => rfl
      | some a => simp [h.old ha] at h1

theorem cite_eq (now : ℤ) (digest : String) : ∀ (seqs : List ℤ) (s : Store) (c : List ℤ),
    Cited digest s (cite now digest seqs s c).1 c (cite now digest seqs s c).2
  | [], s, c => .refl digest s c
  | seq :: seqs, s, c => by
    rw [cite]
    split
    · exact cite_eq now digest seqs s c
    · rename_i links hins
      have hget : ∀ id, links.get? id = _ := fun id => IndexedTable.get?_insert? hins
      have hone : Cited digest s { s with links := links } c (c ++ [s.links.nextId]) := by
        refine ⟨s.sameLake_catalog _ _ _ s.minted, rfl, rfl, rfl, ?_, ?_, ?_, ?_⟩
        · intro id a ha
          change links.get? id = some a
          rw [hget, if_neg, ha]
          rintro rfl
          simp [AutoTable.get?_nextId] at ha
        · intro id b hn hb
          change links.get? id = some b at hb
          rw [hget] at hb
          split_ifs at hb with hid
          · cases hb
            exact ⟨rfl, rfl, by simp [hid]⟩
          · simp [hn] at hb
        · exact fun id hid => List.mem_append_left _ hid
        · intro id hid
          rcases List.mem_append.mp hid with hid | hid
          · exact .inl hid
          · rw [List.mem_singleton.mp hid]
            exact .inr s.links.get?_nextId
      exact hone.trans (cite_eq now digest seqs _ _)

/-! ### Absorbing a node -/

/-- The links of an absorbed node: those moved to the target, and those left
behind because the target has their entry. -/
structure MovedTo (run : ℤ) (target : String) (s s' : Store) (ls moved leftover : List ℤ) :
    Prop where
  lake : SameLake s s'
  minted : s'.minted = s.minted
  nodes : s'.nodes = s.nodes
  observations : s'.observations = s.observations
  mem : ∀ l, l ∈ ls ↔ l ∈ moved ∨ l ∈ leftover
  disjoint : ∀ l ∈ moved, l ∉ leftover
  rows : ∀ id, s'.links.get? id = (s.links.get? id).map fun a =>
    if id ∈ moved then { a with nodeId := target }
    else if id ∈ leftover then a.retire run else a
  free : ∀ l ∈ moved, ∀ a, s.links.get? l = some a → ∀ id b, s.links.get? id = some b →
    b.dedup = (target, a.targetKind, a.targetId) → id = l
  astray : ∀ l ∈ leftover, ∀ a, s.links.get? l = some a → a.nodeId ≠ target

theorem moveLinks_eq (run : ℤ) (target other : String) : ∀ (ls : List ℤ), ls.Nodup →
    ∀ (s : Store) (m : MergeImage), ∃ s' moved leftover,
      moveLinks run target other ls s m = (s', { m with
        movedLinks := m.movedLinks ++ moved.map (·, other)
        leftoverLinks := m.leftoverLinks ++ leftover }) ∧
      MovedTo run target s s' ls moved leftover
  | [], _, s, m => by
    refine ⟨s, [], [], by simp [moveLinks], .refl s, rfl, rfl, rfl, ?_, ?_, ?_, ?_, ?_⟩ <;> simp
  | l :: ls, hnd, s, m => by
    obtain ⟨hl, hnd⟩ := List.nodup_cons.mp hnd
    rw [moveLinks]
    split
    · rename_i links hre
      obtain ⟨s', moved, leftover, heq, hm⟩ := moveLinks_eq run target other ls hnd
        { s with links := links } { m with movedLinks := m.movedLinks ++ [(l, other)] }
      obtain ⟨hlake, hminted, hnodes, hobs, hmem, hdis, hrows, hfree, hastray⟩ := hm
      have hget : ∀ id, links.get? id = _ := fun id => IndexedTable.get?_reindex? hre
      have hl1 : l ∉ moved := fun h => hl ((hmem l).mpr (.inl h))
      have hl2 : l ∉ leftover := fun h => hl ((hmem l).mpr (.inr h))
      refine ⟨s', l :: moved, leftover, ?_, (s.sameLake_catalog _ _ _ s.minted).trans hlake,
        hminted, hnodes, hobs, ?_, ?_, ?_, ?_, ?_⟩
      · simp [heq]
      · simp [hmem, or_assoc]
      · intro l' hl'
        rcases List.mem_cons.mp hl' with rfl | hl'
        · exact hl2
        · exact hdis l' hl'
      · intro id
        rw [hrows]
        change (links.get? id).map _ = _
        rw [hget, Option.map_map]
        congr 1
        funext a
        by_cases hid : id = l
        · subst hid
          simp [hl1, hl2]
        · simp [hid]
      · intro l' hl' a ha id b hb hx
        have hb' := hget id
        rw [hb, Option.map_some] at hb'
        rcases List.mem_cons.mp hl' with rfl | hl'
        · have ha' := hget l'
          rw [ha, Option.map_some, if_pos rfl] at ha'
          by_contra hne
          rw [if_neg hne] at hb'
          have := IndexedTable.eq_of_index hb' ha' hx
          subst this
          exact hne ((Table.key_of_get? hb').symm.trans (Table.key_of_get? ha'))
        · have hne : l' ≠ l := fun h => hl ((hmem l).mpr (.inl (h ▸ hl')))
          have ha' := hget l'
          rw [ha, Option.map_some, if_neg hne] at ha'
          refine hfree l' hl' a ha' id _ hb' ?_
          by_cases hid : id = l
          · rw [if_pos hid]
            simp only [LinkRow.dedup, Prod.mk.injEq] at hx
            simp [LinkRow.dedup, hx]
          · rwa [if_neg hid]
      · intro l' hl' a ha
        have hne : l' ≠ l := fun h => hl2 (h ▸ hl')
        refine hastray l' hl' a ?_
        change links.get? l' = some a
        rw [hget, ha, Option.map_some, if_neg hne]
    · rename_i hre
      obtain ⟨s', moved, leftover, heq, hm⟩ := moveLinks_eq run target other ls hnd
        (s.retireLinks run [l]) { m with leftoverLinks := m.leftoverLinks ++ [l] }
      obtain ⟨hlake, hminted, hnodes, hobs, hmem, hdis, hrows, hfree, hastray⟩ := hm
      have hl1 : l ∉ moved := fun h => hl ((hmem l).mpr (.inl h))
      have hl2 : l ∉ leftover := fun h => hl ((hmem l).mpr (.inr h))
      refine ⟨s', moved, l :: leftover, ?_, (s.sameLake_catalog _ _ _ s.minted).trans hlake,
        hminted, hnodes, hobs, ?_, ?_, ?_, ?_, ?_⟩
      · simp [heq]
      · intro l'
        rw [List.mem_cons, List.mem_cons, hmem]
        tauto
      · intro l' hl' hm
        rcases List.mem_cons.mp hm with rfl | hm
        · exact hl1 hl'
        · exact hdis l' hl' hm
      · intro id
        rw [hrows, get?_retireLinks, Option.map_map]
        congr 1
        funext a
        by_cases hid : id = l
        · subst hid
          simp [hl1, hl2]
        · simp [hid]
      · intro l' hl' a ha id b hb hx
        have hne : l' ≠ l := fun h => hl1 (h ▸ hl')
        refine hfree l' hl' a ?_ id (if id ∈ [l] then b.retire run else b) ?_ ?_
        · simp [get?_retireLinks, ha, hne]
        · simp [get?_retireLinks, hb]
        · by_cases hid : id ∈ [l]
          · rw [if_pos hid]
            exact hx
          · rwa [if_neg hid]
      · intro l' hl' a ha
        rcases List.mem_cons.mp hl' with rfl | hl'
        · -- a link of the target itself keeps its entry, which no other row has
          rintro rfl
          obtain ⟨t', ht'⟩ := IndexedTable.reindex?_isSome (t := s.links) (k := l')
            (f := fun r => { r with nodeId := a.nodeId }) (h := fun _ => rfl)
            fun r hr k' r' hr' hx => by
              obtain rfl : a = r := Option.some.inj (ha.symm.trans hr)
              have hrr := IndexedTable.eq_of_index hr' hr hx
              rw [← Table.key_of_get? hr', hrr, Table.key_of_get? hr]
          rw [ht'] at hre
          cases hre
        · have hne : l' ≠ l := fun h => hl2 (h ▸ hl')
          refine hastray l' hl' a ?_
          rw [get?_retireLinks, ha, Option.map_some, if_neg (by simp [hne])]

theorem liveLinks_nodup (s : Store) (n : String) : (s.liveLinks n).Nodup :=
  s.links.nodup.sublist (List.filter_sublist.map LinkRow.id)

/-- A child gets the target as its parent, and the absorbed node its mark. -/
def absorbedRow (now run : ℤ) (target other : String) (a : NodeRow) : NodeRow :=
  let a' := if a.parentId = some other ∧ a.live = true then
    { a with parentId := some target, updatedAt := now } else a
  if a.id = other then a'.retire run (some target) else a'

/-- The rows after one node was absorbed, and what the image says of it. -/
structure AbsorbedInto (now run : ℤ) (target other : String) (row : NodeRow) (s s' : Store)
    (m m' : MergeImage) (moved leftover : List ℤ) : Prop where
  lake : SameLake s s'
  minted : s'.minted = s.minted
  image : m' = { m with
    movedLinks := m.movedLinks ++ moved.map (·, other)
    leftoverLinks := m.leftoverLinks ++ leftover
    observations := m.observations ++ s.liveObservations other
    children := m.children ++ (s.liveChildren other).map (·, other)
    absorbed := m.absorbed ++ [(other, row.parentId, row.title)] }
  nodes : ∀ id, s'.nodes.get? id = (s.nodes.get? id).map (absorbedRow now run target other)
  observations : ∀ id, s'.observations.get? id = (s.observations.get? id).map fun o =>
    if o.nodeId = other ∧ o.live = true then o.retire run else o
  mem : ∀ l, l ∈ s.liveLinks other ↔ l ∈ moved ∨ l ∈ leftover
  disjoint : ∀ l ∈ moved, l ∉ leftover
  links : ∀ id, s'.links.get? id = (s.links.get? id).map fun a =>
    if id ∈ moved then { a with nodeId := target }
    else if id ∈ leftover then a.retire run else a
  free : ∀ l ∈ moved, ∀ a, s.links.get? l = some a → ∀ id b, s.links.get? id = some b →
    b.dedup = (target, a.targetKind, a.targetId) → id = l
  astray : ∀ l ∈ leftover, ∀ a, s.links.get? l = some a → a.nodeId ≠ target

theorem absorbNode_eq (now run : ℤ) (target other : String) (row : NodeRow) (s : Store)
    (m : MergeImage) : ∃ moved leftover, AbsorbedInto now run target other row s
      (absorbNode now run target other row s m).1 m
      (absorbNode now run target other row s m).2 moved leftover := by
  obtain ⟨s₁, moved, leftover, heq, hlake, hminted, hnodes, hobs, hmem, hdis, hrows, hfree,
      hastray⟩ := moveLinks_eq run target other (s.liveLinks other) (liveLinks_nodup s other) s m
  have hkids : ∀ os n, (s₁.retireObservations run os).liveChildren n = s.liveChildren n := by
    intro os n
    change s₁.liveChildren n = _
    rw [liveChildren, hnodes, liveChildren]
  have hlobs : s₁.liveObservations other = s.liveObservations other := by
    rw [liveObservations, hobs, liveObservations]
  refine ⟨moved, leftover, ?_⟩
  rw [absorbNode, heq]
  refine ⟨hlake.trans (s₁.sameLake_catalog _ _ _ s₁.minted), hminted, ?_, fun id => ?_,
    fun id => ?_, hmem, hdis, hrows, hfree, hastray⟩
  · simp [hkids, hlobs]
  · simp only [setParent, Table.get?_update, Option.map_map]
    change (s₁.nodes.get? id).map _ = _
    rw [hnodes]
    cases ha : s.nodes.get? id with
    | none => rfl
    | some a =>
      have hkid : a.id ∈ s.liveChildren other ↔ a.parentId = some other ∧ a.live = true := by
        rw [mem_liveChildren, Table.key_of_get? ha, ha]
        simp
      simp only [Option.map_some, Function.comp_apply, decide_eq_true_eq, hkids, hkid, absorbedRow,
        NodeRow.retire]
      by_cases hp : a.parentId = some other ∧ a.live = true <;> by_cases hid : a.id = other <;>
        simp [hp, hid]
  · change (s₁.retireObservations run (s₁.liveObservations other)).observations.get? id = _
    rw [get?_retireObservations, hlobs, hobs]
    cases ha : s.observations.get? id with
    | none => rfl
    | some a => simp [mem_liveObservations_of ha]

/-! ### Splitting a node -/

/-- The links of a node that were moved to a part. -/
structure ListedTo (node part : String) (s s' : Store) (moved : List ℤ) : Prop where
  lake : SameLake s s'
  minted : s'.minted = s.minted
  nodes : s'.nodes = s.nodes
  observations : s'.observations = s.observations
  own : ∀ l ∈ moved, ∃ a, s.links.get? l = some a ∧ a.nodeId = node ∧ a.live = true
  rows : ∀ id, s'.links.get? id = (s.links.get? id).map fun a =>
    if id ∈ moved then { a with nodeId := part } else a

theorem moveListed_eq {node part : String} (hne : part ≠ node) : ∀ (ls : List ℤ) (s : Store)
    (moved : List ℤ), ∃ s' new, moveListed node part ls s moved = (s', moved ++ new) ∧
      ListedTo node part s s' new
  | [], s, moved =>
    ⟨s, [], by simp [moveListed], .refl s, rfl, rfl, rfl, by simp, by simp⟩
  | l :: ls, s, moved => by
    rw [moveListed]
    split
    · rename_i hown
      obtain ⟨a, ha, hlive⟩ := (Option.any_eq_true _ _).mp hown
      simp only [Bool.and_eq_true, decide_eq_true_eq] at hlive
      split
      · rename_i links hre
        obtain ⟨s', new, heq, hlake, hminted, hnodes, hobs, hnew, hrows⟩ :=
          moveListed_eq hne ls { s with links := links } (moved ++ [l])
        have hget : ∀ id, links.get? id = _ := fun id => IndexedTable.get?_reindex? hre
        have hl : l ∉ new := fun h => by
          obtain ⟨b, hb, hn, -⟩ := hnew l h
          change links.get? l = some b at hb
          rw [hget, ha, Option.map_some, if_pos rfl, Option.some.injEq] at hb
          rw [← hb] at hn
          exact hne hn
        refine ⟨s', l :: new, by simp [heq], (s.sameLake_catalog _ _ _ s.minted).trans hlake,
          hminted, hnodes, hobs, fun l' hl' => ?_, fun id => ?_⟩
        · rcases List.mem_cons.mp hl' with rfl | hl'
          · exact ⟨a, ha, hlive⟩
          · obtain ⟨b, hb, h⟩ := hnew l' hl'
            change links.get? l' = some b at hb
            have hne' : l' ≠ l := fun h => hl (h ▸ hl')
            simp only [hget, hne', if_false, Option.map_id'] at hb
            exact ⟨b, hb, h⟩
        · rw [hrows]
          change (links.get? id).map _ = _
          rw [hget, Option.map_map]
          congr 1
          funext b
          by_cases hid : id = l
          · subst hid
            simp [hl]
          · simp [hid]
      · exact moveListed_eq hne ls s moved
    · exact moveListed_eq hne ls s moved

/-- `insertNode` makes one row, under the next fresh id. -/
theorem insertNode_ok {h : Host} {s s' : Store} {mk : String → NodeRow} {id : String}
    (hi : s.insertNode h mk = .ok (s', id)) : id = h.newNodeId s.minted ∧
      ∃ nodes, s.nodes.insert? (mk id) = some nodes ∧
        s' = { s with nodes := nodes, minted := s.minted + 1 } := by
  unfold insertNode at hi
  split at hi
  · cases hi
  · rename_i nodes hins
    cases hi
    exact ⟨rfl, nodes, hins, rfl⟩

/-- The rows after a split's parts were made. -/
structure SplitBy (h : Host) (now : ℤ) (actor node : String) (parent : Option String)
    (s s' : Store) (new : List CreatedPart) : Prop where
  lake : SameLake s s'
  minted : s.minted ≤ s'.minted
  observations : s'.observations = s.observations
  oldNodes : ∀ {id a}, s.nodes.get? id = some a → s'.nodes.get? id = some a
  newNodes : ∀ {id b}, s.nodes.get? id = none → s'.nodes.get? id = some b →
    ∃ p ∈ new, p.id = id ∧ b = newRow now .node parent p.title none actor p.id
  fresh : ∀ p ∈ new, s.nodes.get? p.id = none ∧
    ∃ k, p.id = h.newNodeId k ∧ s.minted ≤ k ∧ k < s'.minted
  made : ∀ p ∈ new, s'.nodes.get? p.id ≠ none
  noNew : ∀ {id}, s.links.get? id = none → s'.links.get? id = none
  links : ∀ {id a}, s.links.get? id = some a → s'.links.get? id = some a ∨ ∃ p ∈ new,
    id ∈ p.linkIds ∧ a.nodeId = node ∧ a.live = true ∧
      s'.links.get? id = some { a with nodeId := p.id }
  moved : ∀ p ∈ new, ∀ l ∈ p.linkIds, ∃ a, s.links.get? l = some a ∧ a.nodeId = node

theorem SplitBy.refl (h : Host) (now : ℤ) (actor node : String) (parent : Option String)
    (s : Store) : SplitBy h now actor node parent s s [] where
  lake := .refl s
  minted := le_rfl
  observations := rfl
  oldNodes := id
  newNodes hn hb := by simp [hn] at hb
  fresh := by simp
  made := by simp
  noNew := id
  links := .inl
  moved := by simp

theorem SplitBy.trans {host : Host} {now : ℤ} {actor node : String} {parent : Option String}
    {s s₁ s₂ : Store} {new new' : List CreatedPart} (hnode : s.nodes.get? node ≠ none)
    (h : SplitBy host now actor node parent s s₁ new)
    (h' : SplitBy host now actor node parent s₁ s₂ new') :
    SplitBy host now actor node parent s s₂ (new ++ new') where
  lake := h.lake.trans h'.lake
  minted := h.minted.trans h'.minted
  observations := h'.observations.trans h.observations
  oldNodes ha := h'.oldNodes (h.oldNodes ha)
  newNodes := fun {id b} hn hb => by
    cases h1 : s₁.nodes.get? id with
    | none =>
      obtain ⟨p, hp, hid⟩ := h'.newNodes h1 hb
      exact ⟨p, List.mem_append_right new hp, hid⟩
    | some b' =>
      obtain rfl : b' = b := Option.some.inj ((h'.oldNodes h1).symm.trans hb)
      obtain ⟨p, hp, hid⟩ := h.newNodes hn h1
      exact ⟨p, List.mem_append_left new' hp, hid⟩
  fresh p hp := by
    rcases List.mem_append.mp hp with hp | hp
    · obtain ⟨h1, k, hk, hle, hlt⟩ := h.fresh p hp
      exact ⟨h1, k, hk, hle, hlt.trans_le h'.minted⟩
    · obtain ⟨h1, k, hk, hle, hlt⟩ := h'.fresh p hp
      refine ⟨?_, k, hk, h.minted.trans hle, hlt⟩
      cases ha : s.nodes.get? p.id with
      | none => rfl
      | some a => simp [h.oldNodes ha] at h1
  made p hp := by
    rcases List.mem_append.mp hp with hp | hp
    · obtain ⟨b, hb⟩ := Option.ne_none_iff_exists'.mp (h.made p hp)
      rw [h'.oldNodes hb]
      exact Option.some_ne_none b
    · exact h'.made p hp
  noNew hn := h'.noNew (h.noNew hn)
  links := fun {id a} ha => by
    rcases h.links ha with h1 | ⟨p, hp, hid, hn, hl, h1⟩
    · rcases h'.links h1 with h2 | ⟨p, hp, h2⟩
      · exact .inl h2
      · exact .inr ⟨p, List.mem_append_right new hp, h2⟩
    · refine .inr ⟨p, List.mem_append_left new' hp, hid, hn, hl, ?_⟩
      rcases h'.links h1 with h2 | ⟨q, -, -, hq, -⟩
      · exact h2
      · -- a link that was moved is on a new node, not on the one that is split
        have hq : p.id = node := hq
        exact absurd (hq ▸ (h.fresh p hp).1) hnode
  moved p hp l hl := by
    rcases List.mem_append.mp hp with hp | hp
    · exact h.moved p hp l hl
    · obtain ⟨b, hb, hn⟩ := h'.moved p hp l hl
      cases ha : s.links.get? l with
      | none => simp [h.noNew ha] at hb
      | some a =>
        rcases h.links ha with h1 | ⟨q, hq, -, -, -, h1⟩
        · rw [h1, Option.some.injEq] at hb
          exact ⟨a, rfl, hb ▸ hn⟩
        · rw [h1, Option.some.injEq] at hb
          have hn : q.id = node := by rw [← hn, ← hb]
          exact absurd (hn ▸ (h.fresh q hq).1) hnode

theorem splitInto_ok {h : Host} {now : ℤ} {actor node : String} {parent : Option String} :
    ∀ {parts : List SplitPart} {s s' : Store} {created created' : List CreatedPart},
      s.nodes.get? node ≠ none →
      splitInto h now actor node parent parts s created = .ok (s', created') →
      ∃ new, created' = created ++ new ∧ SplitBy h now actor node parent s s' new
  | [], s, s', created, created', _, hs => by
    cases hs
    exact ⟨[], (List.append_nil created).symm, .refl h now actor node parent s⟩
  | part :: parts, s, s', created, created', hnode, hs => by
    rw [splitInto] at hs
    obtain ⟨⟨s₁, id⟩, hi, hs⟩ := bind_eq_ok.mp hs
    obtain ⟨hid, nodes, hins, rfl⟩ := insertNode_ok hi
    obtain ⟨hfree, -⟩ := Table.insert?_eq_some.mp hins
    have hget : ∀ k, nodes.get? k = if id = k then some _ else s.nodes.get? k :=
      fun k => Table.get?_insert? hins
    have hne : id ≠ node := by
      rintro rfl
      exact hnode hfree
    obtain ⟨s₂, moved, heq, hlake, hminted, hnodes, hobs, hown, hrows⟩ :=
      moveListed_eq hne part.linkIds { s with nodes := nodes, minted := s.minted + 1 } []
    dsimp only at hs
    rw [heq] at hs
    have hone : SplitBy h now actor node parent s s₂ [⟨id, part.title, moved⟩] := by
      refine ⟨(s.sameLake_catalog _ _ _ _).trans hlake, ?_, hobs, ?_, ?_, ?_, ?_, ?_, ?_, ?_⟩
      · rw [hminted]
        exact Nat.le_succ _
      · intro k a ha
        rw [hnodes, hget, if_neg, ha]
        rintro rfl
        rw [show s.nodes.get? id = none from hfree] at ha
        cases ha
      · intro k b hn hb
        rw [hnodes, hget] at hb
        split_ifs at hb with hk
        · exact ⟨_, List.mem_singleton_self _, hk, (Option.some.inj hb).symm⟩
        · rw [hn] at hb
          cases hb
      · rintro p hp
        rw [List.mem_singleton.mp hp]
        exact ⟨hfree, s.minted, hid, le_rfl, by rw [hminted]; exact Nat.lt_succ_self _⟩
      · rintro p hp
        rw [List.mem_singleton.mp hp, hnodes, hget, if_pos rfl]
        exact Option.some_ne_none _
      · intro k hn
        rw [hrows]
        simp [hn]
      · intro k a ha
        have hk := hrows k
        change s₂.links.get? k = (s.links.get? k).map _ at hk
        rw [ha, Option.map_some] at hk
        by_cases hm : k ∈ moved
        · rw [if_pos hm] at hk
          obtain ⟨a', ha', hn, hl⟩ := hown k hm
          obtain rfl : a = a' := Option.some.inj (ha.symm.trans ha')
          exact .inr ⟨_, List.mem_singleton_self _, hm, hn, hl, hk⟩
        · rw [if_neg hm] at hk
          exact .inl hk
      · rintro p hp l hl
        rw [List.mem_singleton.mp hp] at hl
        obtain ⟨a, ha, hn, -⟩ := hown l hl
        exact ⟨a, ha, hn⟩
    obtain ⟨a, ha⟩ := Option.ne_none_iff_exists'.mp hnode
    obtain ⟨new, rfl, hrest⟩ := splitInto_ok (by simp [hone.oldNodes ha]) hs
    exact ⟨⟨id, part.title, moved⟩ :: new, by simp, hone.trans hnode hrest⟩

end Store

end PolisMemory
