/-
# Retiring a node with all that hangs on it

`retire_node_subtree` of `crates/polis-store/src/runs.rs` walks the live nodes on and
under a node and retires each with its live links and observations. The walk stops
after 10000 nodes, and nothing says so.

So a branch is retired as it is to be if and only if it has at most 10000 nodes
(`retireNodeSubtree_branch_iff`): of a larger one some node is left as it was.

Key definitions: `InBranch`, `RetiredBranch`.
Key theorems: `subtreeWalk_eq_walk`, `retiredBranch_of_le`,
`retireNodeSubtree_branch_iff`, `wideBranch_left`.
-/
import PolisMemory.Shape

namespace PolisMemory

open Tables Forest

namespace Store

/-- The parent of a live node. -/
def liveParent (s : Store) (id : String) : Option String := (s.liveNode? id).bind NodeRow.parentId

/-- A node is on or under another one, over live nodes. -/
def InBranch (s : Store) (top id : String) : Prop := Above s.liveParent id top

/-- What is left of a branch that was retired, and what is said of it. -/
structure RetiredBranch (s s' : Store) (set : RetiredSet) (top : String) : Prop where
  nodes : ∀ id, s.InBranch top id → ¬ s'.Live id
  links : ∀ l r, s'.links.get? l = some r → s.InBranch top r.nodeId → r.live = false
  observations : ∀ o r, s'.observations.get? o = some r → s.InBranch top r.nodeId → r.live = false
  outside : ∀ id, ¬ s.InBranch top id → s'.nodes.get? id = s.nodes.get? id
  outsideLinks : ∀ l, (∀ r, s.links.get? l = some r → ¬ s.InBranch top r.nodeId) →
    s'.links.get? l = s.links.get? l
  outsideObservations : ∀ o, (∀ r, s.observations.get? o = some r → ¬ s.InBranch top r.nodeId) →
    s'.observations.get? o = s.observations.get? o
  lake : SameLake s s'
  saidNodes : set.nodes.Nodup ∧ ∀ id, id ∈ set.nodes ↔ s.Live id ∧ ¬ s'.Live id
  saidLinks : ∀ l, l ∈ set.links ↔ ∃ r r', s.links.get? l = some r ∧ s'.links.get? l = some r' ∧
    r.live = true ∧ r'.live = false
  saidObservations : ∀ o, o ∈ set.observations ↔ ∃ r r', s.observations.get? o = some r ∧
    s'.observations.get? o = some r' ∧ r.live = true ∧ r'.live = false

section branch

variable {s s' : Store} {top id : String} {run : ℤ} {into : Option String}

theorem liveParent_eq_some {p : String} : s.liveParent id = some p ↔
    ∃ a, s.nodes.get? id = some a ∧ a.live = true ∧ a.parentId = some p := by
  unfold liveParent
  simp only [Option.bind_eq_some_iff, liveNode?_eq_some, and_assoc]

/-- The live children, as the walk pushes them. -/
theorem kids_liveChildren (s : Store) : Kids s.liveParent fun id => (s.liveChildren id).reverse where
  mem := by
    intro a c
    rw [List.mem_reverse, mem_liveChildren, liveParent_eq_some]
    simp only [and_comm]
  nodup a := by
    rw [List.nodup_reverse]
    exact s.nodes.nodup.sublist (List.filter_sublist.map NodeRow.id)

theorem subtreeWalk_eq_walk (s : Store) : ∀ (n : ℕ) (stack : List String),
    s.subtreeWalk n stack = walk (fun id => (s.liveChildren id).reverse) n stack
  | 0, _ => rfl
  | _ + 1, [] => rfl
  | n + 1, top :: stack => by rw [subtreeWalk, walk, subtreeWalk_eq_walk s n]

/-- All of a live node's branch is live. -/
theorem InBranch.live (htop : s.Live top) (h : s.InBranch top id) : s.Live id := by
  rcases Relation.ReflTransGen.cases_head h with rfl | ⟨p, hup, -⟩
  · exact htop
  · obtain ⟨a, ha, hl, -⟩ := liveParent_eq_some.mp hup
    exact nodeExists_iff.mpr ⟨a, ha, hl⟩

theorem branch_subset (htop : s.Live top) :
    {id | s.InBranch top id} ⊆ ((s.nodes.rows.map NodeRow.id).toFinset : Set String) := by
  intro id hid
  obtain ⟨a, ha, -⟩ := nodeExists_iff.mp (InBranch.live htop hid)
  obtain ⟨hmem, rfl⟩ := Table.get?_eq_some.mp ha
  exact List.mem_toFinset.mpr (List.mem_map_of_mem hmem)

theorem finite_branch (htop : s.Live top) : {id | s.InBranch top id}.Finite :=
  (Finset.finite_toSet _).subset (branch_subset htop)

/-- A live node is live afterwards unless it was walked. -/
theorem RetiredBy.live_iff {ids : List String} {out out' : RetiredSet}
    (h : RetiredBy run into ids s s' out out') : s'.Live id ↔ s.Live id ∧ id ∉ ids := by
  simp only [Live, nodeExists_iff, h.nodes, Option.map_eq_some_iff]
  constructor
  · rintro ⟨b, ⟨a, ha, rfl⟩, hl⟩
    by_cases hm : id ∈ ids ∧ a.live = true
    · rw [if_pos hm, NodeRow.live_retire] at hl
      cases hl
    · rw [if_neg hm] at hl
      exact ⟨⟨a, ha, hl⟩, fun hid => hm ⟨hid, hl⟩⟩
  · rintro ⟨⟨a, ha, hl⟩, hid⟩
    exact ⟨a, ⟨a, ha, if_neg fun hm => hid hm.1⟩, hl⟩

/-- What was retired of a table is what it says it was. -/
theorem newly_retired_iff {ρ : Type} {row : Option ρ} {live : ρ → Bool} {retire : ρ → ρ} {P : ρ → Prop}
    [DecidablePred P] (hretire : ∀ r, live (retire r) = false) :
    (∃ r, row = some r ∧ P r ∧ live r = true) ↔ ∃ r r', row = some r ∧
      (row.map fun r => if P r ∧ live r = true then retire r else r) = some r' ∧ live r = true ∧
        live r' = false := by
  constructor
  · rintro ⟨r, rfl, hP, hl⟩
    exact ⟨r, retire r, rfl, congrArg some (if_pos ⟨hP, hl⟩), hl, hretire r⟩
  · rintro ⟨r, r', rfl, hr', hl, hl'⟩
    by_cases hP : P r
    · exact ⟨r, rfl, hP, hl⟩
    · obtain rfl : r = r' := by
        rw [Option.map_some, if_neg fun h => hP h.1] at hr'
        exact Option.some.inj hr'
      rw [hl] at hl'
      cases hl'

/-- Where the walk is the branch, it is retired as it is to be. -/
theorem RetiredBy.branch {ids : List String} {set : RetiredSet} (htop : s.Live top)
    (h : RetiredBy run into ids s s' ⟨[], [], []⟩ set) (hids : ∀ id, id ∈ ids ↔ s.InBranch top id)
    (hnodup : ids.Nodup) : RetiredBranch s s' set top where
  nodes id hid hlive := (h.live_iff.mp hlive).2 ((hids id).mpr hid)
  links l r hr hin := by
    rw [h.links, Option.map_eq_some_iff] at hr
    obtain ⟨a, -, rfl⟩ := hr
    by_cases hm : a.nodeId ∈ ids ∧ a.live = true
    · rw [if_pos hm, LinkRow.live_retire]
    · rw [if_neg hm] at hin ⊢
      exact Bool.eq_false_iff.mpr fun hl => hm ⟨(hids a.nodeId).mpr hin, hl⟩
  observations o r hr hin := by
    rw [h.observations, Option.map_eq_some_iff] at hr
    obtain ⟨a, -, rfl⟩ := hr
    by_cases hm : a.nodeId ∈ ids ∧ a.live = true
    · rw [if_pos hm, ObservationRow.live_retire]
    · rw [if_neg hm] at hin ⊢
      exact Bool.eq_false_iff.mpr fun hl => hm ⟨(hids a.nodeId).mpr hin, hl⟩
  outside id hout := by
    have hid : id ∉ ids := fun hmem => hout ((hids id).mp hmem)
    simp [h.nodes, hid]
  outsideLinks l hout := by
    rw [h.links]
    cases hr : s.links.get? l with
    | none => rfl
    | some r => exact congrArg some (if_neg fun hm => hout r hr ((hids r.nodeId).mp hm.1))
  outsideObservations o hout := by
    rw [h.observations]
    cases hr : s.observations.get? o with
    | none => rfl
    | some r => exact congrArg some (if_neg fun hm => hout r hr ((hids r.nodeId).mp hm.1))
  lake := h.lake
  saidNodes := by
    rw [h.outNodes, List.nil_append]
    refine ⟨hnodup, fun id => ?_⟩
    rw [h.live_iff]
    constructor
    · intro hid
      exact ⟨InBranch.live htop ((hids id).mp hid), fun hlive => hlive.2 hid⟩
    · rintro ⟨hlive, hgone⟩
      by_contra hid
      exact hgone ⟨hlive, hid⟩
  saidLinks l := by
    rw [h.outLinks, h.links]
    simp only [List.not_mem_nil, false_or]
    exact newly_retired_iff (LinkRow.live_retire run)
  saidObservations o := by
    rw [h.outObservations, h.observations]
    simp only [List.not_mem_nil, false_or]
    exact newly_retired_iff (ObservationRow.live_retire run)

theorem retired_walk (s : Store) (top : String) (run : ℤ) (into : Option String) :
    RetiredBy run into (s.subtreeWalk walkGuard [top]) s (s.retireNodeSubtree top run into).1
      ⟨[], [], []⟩ (s.retireNodeSubtree top run into).2 :=
  retireNodes_eq run into _ s ⟨[], [], []⟩

/-- A branch that is not too large is retired. -/
theorem retiredBranch_of_le (htop : s.Live top) (hacyclic : Acyclic s.liveParent top)
    (hle : {id | s.InBranch top id}.ncard ≤ walkGuard) :
    RetiredBranch s (s.retireNodeSubtree top run into).1 (s.retireNodeSubtree top run into).2 top := by
  have hk := s.kids_liveChildren
  apply (s.retired_walk top run into).branch htop
  · intro id
    rw [subtreeWalk_eq_walk]
    exact mem_walk_iff hk hacyclic (finite_branch htop) hle
  · rw [subtreeWalk_eq_walk]
    apply nodup_walk hk
    · intro b hb
      exact List.mem_singleton.mp hb ▸ hacyclic
    · exact List.pairwise_singleton _ _

/-- Of a branch that is too large some node is left. -/
theorem exists_left (htop : s.Live top) (hlt : walkGuard < {id | s.InBranch top id}.ncard) :
    ∃ id, s.InBranch top id ∧ (s.retireNodeSubtree top run into).1.Live id := by
  obtain ⟨id, hid, hout⟩ := @exists_notMem_walk _ s.liveParent top
    (fun id => (s.liveChildren id).reverse) walkGuard hlt
  rw [← subtreeWalk_eq_walk] at hout
  exact ⟨id, hid, (s.retired_walk top run into).live_iff.mpr ⟨InBranch.live htop hid, hout⟩⟩

end branch

/-- **A live branch without a cycle is retired as it is to be**, whole and with nothing
else, if and only if it has at most 10000 nodes. -/
theorem retireNodeSubtree_branch_iff (s : Store) (top : String) (run : ℤ) (into : Option String)
    (htop : s.Live top) (hacyclic : Acyclic s.liveParent top) :
    RetiredBranch s (s.retireNodeSubtree top run into).1 (s.retireNodeSubtree top run into).2 top ↔
      {id | s.InBranch top id}.ncard ≤ walkGuard := by
  refine ⟨fun h => ?_, retiredBranch_of_le htop hacyclic⟩
  by_contra hlt
  obtain ⟨id, hid, hlive⟩ := @exists_left _ _ run into htop (Nat.lt_of_not_le hlt)
  exact h.nodes id hid hlive

end Store

open Store

/-! ### A branch that is too wide -/

/-- A class under the root. -/
def leafRow (k : ℕ) : NodeRow := classRow (some "r") "class" (i64ToString k)

theorem leafRow_id_injective : Function.Injective fun k => (leafRow k).id := by
  intro j k h
  have htext : JsonText.intText (j : ℤ) = JsonText.intText (k : ℤ) := String.ofList_injective h
  exact Int.ofNat.inj (JsonText.intText_injective htext)

theorem leafRow_id_ne (k : ℕ) : (leafRow k).id ≠ "r" := by
  intro h
  have htext : JsonText.intText (k : ℤ) = ['r'] := String.ofList_injective h
  have hmem : 'r' ∈ JsonText.intText (k : ℤ) := by
    rw [htext]
    exact List.mem_singleton_self _
  rcases JsonText.intText_mem hmem with h | h
  · exact absurd h (by decide)
  · exact absurd h (by decide)

/-- A root with so many classes. -/
def wideBranch (n : ℕ) : Store := { Store.empty with
  nodes := ⟨classRow none "repo" "r" :: (List.range n).map leafRow, by
    rw [List.map_cons, List.map_map, List.nodup_cons]
    constructor
    · intro h
      obtain ⟨k, -, hk⟩ := List.mem_map.mp h
      exact leafRow_id_ne k hk
    · exact List.nodup_range.map leafRow_id_injective⟩ }

theorem get?_root (n : ℕ) : (wideBranch n).nodes.get? "r" = some (classRow none "repo" "r") :=
  Table.get?_eq_some.mpr ⟨List.mem_cons_self, rfl⟩

theorem get?_leafRow {n k : ℕ} (hk : k < n) :
    (wideBranch n).nodes.get? (leafRow k).id = some (leafRow k) :=
  Table.get?_eq_some.mpr
    ⟨List.mem_cons_of_mem _ (List.mem_map_of_mem (List.mem_range.mpr hk)), rfl⟩

theorem liveParent_wideBranch {n : ℕ} {id p : String} (h : (wideBranch n).liveParent id = some p) :
    p = "r" := by
  obtain ⟨a, ha, -, hp⟩ := liveParent_eq_some.mp h
  obtain ⟨hmem, -⟩ := Table.get?_eq_some.mp ha
  rcases List.mem_cons.mp hmem with rfl | hmem
  · cases hp
  · obtain ⟨k, -, rfl⟩ := List.mem_map.mp hmem
    exact (Option.some.inj hp).symm

theorem acyclic_wideBranch (n : ℕ) : Acyclic (wideBranch n).liveParent "r" := by
  intro x _ p hp hpx
  obtain rfl := liveParent_wideBranch hp
  have hroot : (wideBranch n).liveParent "r" = none := by
    rw [Option.eq_none_iff_forall_ne_some]
    intro q hq
    obtain ⟨a, ha, -, hparent⟩ := liveParent_eq_some.mp hq
    rw [get?_root] at ha
    cases ha
    cases hparent
  rcases Relation.ReflTransGen.cases_head hpx with rfl | ⟨q, hq, -⟩
  · rw [hroot] at hp
    cases hp
  · have hq : (wideBranch n).liveParent "r" = some q := hq
    rw [hroot] at hq
    cases hq

theorem live_wideBranch (n : ℕ) : (wideBranch n).Live "r" :=
  nodeExists_iff.mpr ⟨_, get?_root n, rfl⟩

theorem lt_ncard_wideBranch (n : ℕ) : n < {id | (wideBranch n).InBranch "r" id}.ncard := by
  have hsub : insert "r" ((fun k => (leafRow k).id) '' (Finset.range n : Set ℕ)) ⊆
      {id | (wideBranch n).InBranch "r" id} := by
    rintro id (rfl | ⟨k, hk, rfl⟩)
    · exact Relation.ReflTransGen.refl
    · exact .single (liveParent_eq_some.mpr ⟨leafRow k, get?_leafRow (Finset.mem_range.mp hk), rfl, rfl⟩)
  have hroot : "r" ∉ (fun k => (leafRow k).id) '' (Finset.range n : Set ℕ) := by
    rintro ⟨k, -, hk⟩
    exact leafRow_id_ne k hk
  have hcard : (insert "r" ((fun k => (leafRow k).id) '' (Finset.range n : Set ℕ))).ncard = n + 1 := by
    rw [Set.ncard_insert_of_notMem hroot ((Finset.range n).finite_toSet.image _),
      Set.ncard_image_of_injective _ leafRow_id_injective, Set.ncard_coe_finset, Finset.card_range]
  have hle := Set.ncard_le_ncard hsub (finite_branch (live_wideBranch n))
  omega

/-- A root with 10000 classes: one of these nodes is left. -/
theorem wideBranch_left : ¬ ∀ (s : Store) (top : String) (run : ℤ) (into : Option String), s.Live top →
    Acyclic s.liveParent top →
      RetiredBranch s (s.retireNodeSubtree top run into).1 (s.retireNodeSubtree top run into).2 top := by
  intro hall
  have h := hall (wideBranch walkGuard) "r" 1 none (live_wideBranch _) (acyclic_wideBranch _)
  obtain ⟨id, hid, hlive⟩ := @exists_left _ _ 1 none (live_wideBranch walkGuard)
    (lt_ncard_wideBranch walkGuard)
  exact h.nodes id hid hlive

/-- A root with one class is retired. -/
theorem narrowBranch_retired : RetiredBranch (wideBranch 1)
    ((wideBranch 1).retireNodeSubtree "r" 1 none).1 ((wideBranch 1).retireNodeSubtree "r" 1 none).2
      "r" := by
  apply (retireNodeSubtree_branch_iff (wideBranch 1) "r" 1 none (live_wideBranch 1)
    (acyclic_wideBranch 1)).mpr
  have hle := Set.ncard_le_ncard (branch_subset (live_wideBranch 1)) (Finset.finite_toSet _)
  rw [Set.ncard_coe_finset] at hle
  have hlen := List.toFinset_card_le ((wideBranch 1).nodes.rows.map NodeRow.id)
  have htwo : ((wideBranch 1).nodes.rows.map NodeRow.id).length = 2 := rfl
  unfold walkGuard
  omega

end PolisMemory
