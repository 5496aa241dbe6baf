/-
# The traversals of the catalog

`nodes_under` and `root_of` in `crates/polis-memory/src/filing.rs`, the walks of
the adjudicator's `Catalog`, and `tree_depth` in `organize.rs`, each as the loop it
is. Over a catalog with any parent links all end but one: the climbs count their
edges and stop, `subtree_height` stops below a depth, and `nodes_under` keeps no
list of what it has seen. It ends, and lists what is under its root once, if and
only if the links up from the root never come back to it (`traversed_iff`); two
promotes of one run can leave a root they do come back to (`crossedRoots_loop`).

Key definitions: `underBody`, `heightWithin`, `Traversed`.
Key theorems: `ends_under_iff`, `traversed_iff`.
-/
import PolisMemory.CatalogSnapshot
import PolisMemory.Forest
import PolisMemory.Loops
import PolisMemory.Shape

namespace PolisMemory
namespace Traversals

open Forest Loops Tables

/-! ### The loops -/

/-- The ids of a node's children, as `nodes_under` groups them. -/
def children (tree : List NodeRow) (id : String) : List String := (kidsOf tree id).map NodeRow.id

/-- A turn of `nodes_under`: what is listed, and the stack with its top first. -/
def underBody (tree : List NodeRow) :
    List String × List String → (List String × List String) ⊕ List String
  | (out, []) => .inr out
  | (out, id :: stack) => .inl (out ++ children tree id, (children tree id).reverse ++ stack)

/-- A turn of `filing::root_of`: the node come to, and the hops. -/
def filingRootBody (tree : List NodeRow) : NodeRow × ℕ → (NodeRow × ℕ) ⊕ Option String
  | (cur, hops) =>
    match cur.parentId with
    | none => .inr (some cur.id)
    | some p =>
      match getNode tree p with
      | none => .inr none
      | some next => if 64 < hops + 1 then .inr none else .inl (next, hops + 1)

/-- A turn of `Catalog::root_of`: the node come to, and the guard. -/
def catalogRootBody (tree : List NodeRow) : NodeRow × ℕ → (NodeRow × ℕ) ⊕ Option String
  | (cur, guard) =>
    match cur.parentId with
    | none => .inr (some cur.id)
    | some p =>
      if 64 < guard + 1 then .inr none
      else
        match getNode tree p with
        | none => .inr none
        | some next => .inl (next, guard + 1)

/-- A turn of `depth_of`: the node come to, and the edges above the first. -/
def depthBody (tree : List NodeRow) : Option NodeRow × ℕ → (Option NodeRow × ℕ) ⊕ ℕ
  | (none, d) => .inr d
  | (some n, d) =>
    match n.parentId with
    | none => .inr d
    | some p => if 64 < d + 1 then .inr (d + 1) else .inl (getNode tree p, d + 1)

/-- A turn of `is_descendant`: the parent come to, and the guard. -/
def descendantBody (tree : List NodeRow) (ancestor : String) :
    Option String × ℕ → (Option String × ℕ) ⊕ Bool
  | (none, _) => .inr false
  | (some p, guard) =>
    if p = ancestor then .inr true
    else if 64 < guard + 1 then .inr false
    else .inl ((getNode tree p).bind NodeRow.parentId, guard + 1)

/-- A turn of `tree_depth`: the parent come to, and the depth. -/
def treeDepthBody (tree : List CatalogSnapshot.ClassNode) :
    Option String × ℕ → (Option String × ℕ) ⊕ ℕ
  | (none, depth) => .inr depth
  | (some pid, depth) =>
    if 12 < depth + 1 then .inr (depth + 1)
    else .inl ((tree.find? fun n => n.id = pid).bind CatalogSnapshot.ClassNode.parentId, depth + 1)

/-- `h` in `subtree_height`, with a stack for so many calls of itself. -/
def heightWithin (nodes : List NodeRow) : ℕ → ℕ → String → Option ℕ
  | 0, _, _ => none
  | calls + 1, depth, id =>
    if 64 < depth then some 0
    else
      ((kidsOf nodes id).mapM fun n => heightWithin nodes calls (depth + 1) n.id).map fun
        | [] => 0
        | h :: hs => hs.foldl max h + 1

/-! ### The climbs -/

section climbs

variable {tree : List NodeRow}

theorem getNode_id {id : String} {n : NodeRow} (h : getNode tree id = some n) : n.id = id := by
  simpa using List.find?_some h

/-- The root above a node is the one above its parent. -/
theorem rootOf_of_get {n : ℕ} {cur : NodeRow} (h : getNode tree cur.id = some cur) :
    rootOf tree n cur.id = match cur.parentId, n with
      | none, _ => some cur.id
      | some _, 0 => none
      | some p, n + 1 => rootOf tree n p := by
  conv_lhs => unfold rootOf
  cases hp : cur.parentId <;> cases n <;> simp [h, hp]

theorem rootOf_of_none {n : ℕ} {id : String} (h : getNode tree id = none) : rootOf tree n id = none := by
  unfold rootOf
  simp [h]

/-- `filing::root_of` gives the root that at most 64 edges lead to. -/
theorem ends_filingRoot {cur : NodeRow} (h : getNode tree cur.id = some cur) :
    Ends (filingRootBody tree) (cur, 0) (rootOf tree rootGuard cur.id) := by
  refine ends_of_budget (fun n s => s.2 + n = 64 ∧ getNode tree s.1.id = some s.1)
    (fun n s => rootOf tree n s.1.id) ?_ ?_ 64 (cur, 0) ⟨rfl, h⟩
  · rintro ⟨cur, hops⟩ ⟨hn, hcur⟩
    simp only at hn hcur
    cases hparent : cur.parentId with
    | none => simp only [filingRootBody, rootOf_of_get hcur, hparent]
    | some p =>
      have hover : 64 < hops + 1 := by omega
      simp only [filingRootBody, rootOf_of_get hcur, hparent, hover, ite_true]
      cases getNode tree p <;> rfl
  · rintro n ⟨cur, hops⟩ ⟨hn, hcur⟩
    simp only at hn hcur
    cases hparent : cur.parentId with
    | none => exact .inl (by simp only [filingRootBody, rootOf_of_get hcur, hparent])
    | some p =>
      have hunder : ¬ 64 < hops + 1 := by omega
      simp only [filingRootBody, rootOf_of_get hcur, hparent, hunder, ite_false]
      cases hp : getNode tree p with
      | none => exact .inl (by rw [rootOf_of_none hp])
      | some next =>
        refine .inr ⟨(next, hops + 1), rfl, ⟨by simp only; omega, ?_⟩, ?_⟩
        · rw [getNode_id hp, hp]
        · rw [getNode_id hp]

/-- `Catalog::root_of` gives the same. -/
theorem ends_catalogRoot {cur : NodeRow} (h : getNode tree cur.id = some cur) :
    Ends (catalogRootBody tree) (cur, 0) (rootOf tree rootGuard cur.id) := by
  refine ends_of_budget (fun n s => s.2 + n = 64 ∧ getNode tree s.1.id = some s.1)
    (fun n s => rootOf tree n s.1.id) ?_ ?_ 64 (cur, 0) ⟨rfl, h⟩
  · rintro ⟨cur, guard⟩ ⟨hn, hcur⟩
    simp only at hn hcur
    cases hparent : cur.parentId with
    | none => simp only [catalogRootBody, rootOf_of_get hcur, hparent]
    | some p =>
      have hover : 64 < guard + 1 := by omega
      simp only [catalogRootBody, rootOf_of_get hcur, hparent, hover, ite_true]
  · rintro n ⟨cur, guard⟩ ⟨hn, hcur⟩
    simp only at hn hcur
    cases hparent : cur.parentId with
    | none => exact .inl (by simp only [catalogRootBody, rootOf_of_get hcur, hparent])
    | some p =>
      have hunder : ¬ 64 < guard + 1 := by omega
      simp only [catalogRootBody, rootOf_of_get hcur, hparent, hunder, ite_false]
      cases hp : getNode tree p with
      | none => exact .inl (by rw [rootOf_of_none hp])
      | some next =>
        refine .inr ⟨(next, guard + 1), rfl, ⟨by simp only; omega, ?_⟩, ?_⟩
        · rw [getNode_id hp, hp]
        · rw [getNode_id hp]

theorem ends_depth (id : String) :
    Ends (depthBody tree) (getNode tree id, 0) (depthOf tree 65 id) := by
  have hdue : depthOf tree 65 id =
      0 + ((getNode tree id).elim 0 fun m => depthOf tree 65 m.id) := by
    cases h : getNode tree id with
    | none => simp [depthOf, h]
    | some m => simp [getNode_id h]
  rw [hdue]
  refine ends_of_budget (fun n s => s.2 + n = 64 ∧ ∀ m, s.1 = some m → getNode tree m.id = some m)
    (fun n s => s.2 + (s.1.elim 0 fun m => depthOf tree (n + 1) m.id)) ?_ ?_ 64 (getNode tree id, 0)
    ⟨rfl, fun m (hm : getNode tree id = some m) => by rw [getNode_id hm, hm]⟩
  · rintro ⟨_ | m, d⟩ ⟨hn, hm⟩
    · rfl
    simp only at hn hm
    simp only [depthBody, Option.elim, depthOf, hm m rfl, Option.bind_some]
    cases m.parentId with
    | none => rfl
    | some p => exact if_pos (by omega)
  · rintro n ⟨_ | m, d⟩ ⟨hn, hm⟩
    · exact .inl rfl
    simp only at hn hm
    rw [depthBody, Option.elim, depthOf, hm m rfl, Option.bind_some]
    cases m.parentId with
    | none => exact .inl rfl
    | some p =>
      refine .inr ⟨(getNode tree p, d + 1), if_neg (by omega),
        ⟨by simp only; omega, fun m (hm : getNode tree p = some m) => by rw [getNode_id hm, hm]⟩, ?_⟩
      cases hp : getNode tree p with
      | none => simp [depthOf, hp]
      | some q =>
        simp only [Option.elim, getNode_id hp]
        omega

theorem ends_descendant (node ancestor : String) :
    Ends (descendantBody tree ancestor) ((getNode tree node).bind NodeRow.parentId, 0)
      (isDescendant tree ancestor 65 node) := by
  have hdue : ∀ n id, isDescendant tree ancestor (n + 1) id =
      ((getNode tree id).bind NodeRow.parentId).elim false fun p =>
        p = ancestor || isDescendant tree ancestor n p := by
    intro n id
    rw [isDescendant]
    cases (getNode tree id).bind NodeRow.parentId <;> rfl
  rw [hdue 64]
  refine ends_of_budget (fun n s => s.2 + n = 64)
    (fun n s => s.1.elim false fun p => p = ancestor || isDescendant tree ancestor n p) ?_ ?_ 64
    ((getNode tree node).bind NodeRow.parentId, 0) rfl
  · rintro ⟨_ | p, guard⟩ hn
    · rfl
    have hover : 64 < guard + 1 := by simp only at hn; omega
    by_cases hp : p = ancestor <;> simp [descendantBody, isDescendant, hp, hover]
  · rintro n ⟨_ | p, guard⟩ hn
    · exact .inl rfl
    simp only at hn
    by_cases hp : p = ancestor
    · exact .inl (by simp [descendantBody, hp])
    · refine .inr ⟨((getNode tree p).bind NodeRow.parentId, guard + 1), ?_, by simp only; omega, ?_⟩
      · rw [descendantBody, if_neg hp, if_neg (by omega)]
      · simp [hp, hdue]

theorem ends_treeDepth (nodes : List CatalogSnapshot.ClassNode) (n : CatalogSnapshot.ClassNode) :
    Ends (treeDepthBody nodes) (n.parentId, 0) (CatalogSnapshot.treeDepth nodes n) := by
  have hdue : CatalogSnapshot.treeDepth nodes n =
      0 + CatalogSnapshot.depthLoop nodes 13 n.parentId := (Nat.zero_add _).symm
  rw [hdue]
  refine ends_of_budget (fun k s => s.2 + k = 12)
    (fun k s => s.2 + CatalogSnapshot.depthLoop nodes (k + 1) s.1) ?_ ?_ 12 (n.parentId, 0) rfl
  · rintro ⟨_ | pid, depth⟩ hk
    · rfl
    · exact if_pos (by simp only at hk; omega)
  · rintro k ⟨_ | pid, depth⟩ hk
    · exact .inl rfl
    · simp only at hk
      refine .inr ⟨_, if_neg (by omega), by simp only; omega, ?_⟩
      simp only [CatalogSnapshot.depthLoop]
      omega

/-- The calls of `h` go no deeper than its guard. -/
theorem heightWithin_eq : ∀ (n depth : ℕ) (id : String), depth + n = 65 →
    heightWithin tree (n + 1) depth id = some (subtreeHeight tree n id)
  | 0, depth, id, h => if_pos (by omega)
  | n + 1, depth, id, h => by
    have hkids : ∀ kids : List NodeRow,
        (kids.mapM fun m => heightWithin tree (n + 1) (depth + 1) m.id) =
          some (kids.map fun m => subtreeHeight tree n m.id) := by
      intro kids
      induction kids with
      | nil => rfl
      | cons m kids ih =>
        rw [List.mapM_cons, heightWithin_eq n (depth + 1) m.id (by omega), ih]
        rfl
    rw [heightWithin, if_neg (by omega), hkids, subtreeHeight]
    cases (kidsOf tree id).map fun m => subtreeHeight tree n m.id <;> rfl

end climbs

/-! ### The nodes under a root -/

/-- A node's parent link. -/
def parentIn (tree : Table NodeRow.id) (id : String) : Option String := (tree.get? id).bind NodeRow.parentId

section under

variable {tree : Table NodeRow.id} {root : String}

theorem parentIn_eq_some {id p : String} :
    parentIn tree id = some p ↔ ∃ n ∈ tree.rows, n.id = id ∧ n.parentId = some p := by
  simp only [parentIn, Option.bind_eq_some_iff, Table.get?_eq_some]
  constructor
  · rintro ⟨n, ⟨hn, hid⟩, hp⟩
    exact ⟨n, hn, hid, hp⟩
  · rintro ⟨n, hn, hid, hp⟩
    exact ⟨n, ⟨hn, hid⟩, hp⟩

theorem mem_children {id c : String} : c ∈ children tree.rows id ↔ parentIn tree c = some id := by
  rw [parentIn_eq_some, children, List.mem_map]
  constructor
  · rintro ⟨n, hn, rfl⟩
    obtain ⟨hmem, hp⟩ := List.mem_filter.mp hn
    exact ⟨n, hmem, rfl, of_decide_eq_true hp⟩
  · rintro ⟨n, hmem, hid, hp⟩
    exact ⟨n, List.mem_filter.mpr ⟨hmem, decide_eq_true hp⟩, hid⟩

/-- The stack's order of the children. -/
theorem kids_children (tree : Table NodeRow.id) :
    Kids (parentIn tree) fun id => (children tree.rows id).reverse where
  mem := by simp only [List.mem_reverse, mem_children, implies_true]
  nodup id := List.nodup_reverse.mpr (tree.nodup.sublist (List.filter_sublist.map NodeRow.id))

/-- The loop leaves when the walk of its stack ends, with the children of all it
popped on its list. -/
theorem ends_under_iff_walk {tree : List NodeRow} {out stack r : List String} :
    Ends (underBody tree) (out, stack) r ↔
      ∃ n, (walk (fun id => (children tree id).reverse) n stack).length < n ∧
        r = out ++ (walk (fun id => (children tree id).reverse) n stack).flatMap (children tree) := by
  constructor
  · intro h
    generalize hs : (out, stack) = s at h
    induction h generalizing out stack with
    | @leave s r hr =>
      subst hs
      cases stack with
      | nil => exact ⟨1, by simp [walk], by simpa [walk] using (Sum.inr.inj hr).symm⟩
      | cons id stack => cases hr
    | @turn s s' r hturn _ ih =>
      subst hs
      cases stack with
      | nil => cases hturn
      | cons id stack =>
        obtain ⟨n, hlt, hout⟩ := ih (Sum.inl.inj hturn)
        refine ⟨n + 1, ?_, ?_⟩
        · rw [walk, List.length_cons]
          omega
        · rw [hout, walk, List.flatMap_cons, List.append_assoc]
  · rintro ⟨n, hlt, rfl⟩
    induction n generalizing out stack with
    | zero => omega
    | succ n ih =>
      cases stack with
      | nil => exact .leave (by simp [underBody, walk])
      | cons id stack =>
        rw [walk, List.length_cons] at hlt
        rw [walk, List.flatMap_cons, ← List.append_assoc]
        exact .turn rfl (ih (by omega))

/-- **`nodes_under` ends** if and only if the links up from its root do not come
back to it. -/
theorem ends_under_iff (tree : Table NodeRow.id) (root : String) :
    (∃ out, Ends (underBody tree.rows) ([root], [root]) out) ↔
      ∀ p, parentIn tree root = some p → ¬ Above (parentIn tree) p root := by
  rw [← exists_walk_lt_iff (kids_children tree) (tree.rows.map NodeRow.id)]
  · simp only [ends_under_iff_walk]
    constructor
    · rintro ⟨out, n, hlt, -⟩
      exact ⟨n, hlt⟩
    · rintro ⟨n, hlt⟩
      exact ⟨_, n, hlt, rfl⟩
  · intro x p hp
    obtain ⟨n, hn, rfl, -⟩ := parentIn_eq_some.mp hp
    exact List.mem_map_of_mem hn

/-- Then it lists what is under the root, each once. -/
theorem under_spec {out : List String} (h : Ends (underBody tree.rows) ([root], [root]) out) :
    out.Nodup ∧ ∀ id, id ∈ out ↔ Above (parentIn tree) id root := by
  have hk := kids_children tree
  have hacyclic := acyclic_iff.mpr ((ends_under_iff tree root).mp ⟨out, h⟩)
  obtain ⟨n, hlt, hout⟩ := ends_under_iff_walk.mp h
  have hperm := walk_perm hlt
  set walked := walk (fun id => (children tree.rows id).reverse) n [root]
  have hout : out.Perm walked := by
    calc out = [root] ++ walked.flatMap (children tree.rows) := hout
      _ |>.Perm ([root] ++ walked.flatMap fun id => (children tree.rows id).reverse) := by
        exact (List.Perm.flatMap_left walked fun id _ => (List.reverse_perm _).symm).append_left [root]
      _ |>.Perm walked := hperm.symm
  have hnodup : walked.Nodup := by
    apply nodup_walk hk
    · intro b hb
      exact List.mem_singleton.mp hb ▸ hacyclic
    · exact List.pairwise_singleton _ _
  refine ⟨hout.nodup_iff.mpr hnodup, fun id => hout.mem_iff.trans ⟨fun hid => ?_, fun hid => ?_⟩⟩
  · obtain ⟨b, hb, hup⟩ := above_of_mem_walk hk hid
    exact List.mem_singleton.mp hb ▸ hup
  · exact mem_walk_of_length_lt hk hlt (List.mem_singleton_self root) hid

end under

/-! ### All of them -/

/-- The traversals end, and `nodes_under` lists each node under its root once. -/
structure Traversed (tree : Table NodeRow.id) (root : String) : Prop where
  under : ∃ out, Ends (underBody tree.rows) ([root], [root]) out ∧ out.Nodup ∧
    ∀ id, id ∈ out ↔ Above (parentIn tree) id root
  filingRoot : ∀ id cur, getNode tree.rows id = some cur →
    Ends (filingRootBody tree.rows) (cur, 0) (rootOf tree.rows rootGuard id)
  catalogRoot : ∀ id cur, getNode tree.rows id = some cur →
    Ends (catalogRootBody tree.rows) (cur, 0) (rootOf tree.rows rootGuard id)
  depth : ∀ id, Ends (depthBody tree.rows) (getNode tree.rows id, 0) (depthOf tree.rows 65 id)
  height : ∀ id, ∃ calls, heightWithin tree.rows calls 0 id = some (subtreeHeight tree.rows 65 id)
  descendant : ∀ node ancestor, Ends (descendantBody tree.rows ancestor)
    ((getNode tree.rows node).bind NodeRow.parentId, 0) (isDescendant tree.rows ancestor 65 node)
  treeDepth : ∀ nodes n,
    Ends (treeDepthBody nodes) (n.parentId, 0) (CatalogSnapshot.treeDepth nodes n)

/-- **The traversals end** over any catalog, and `nodes_under` lists what is under
its root once each, if and only if the links up from that root never come back to it. -/
theorem traversed_iff (tree : Table NodeRow.id) (root : String) :
    Traversed tree root ↔ ∀ p, parentIn tree root = some p → ¬ Above (parentIn tree) p root := by
  refine ⟨fun h => ?_, fun h => ?_⟩
  · obtain ⟨out, hends, -⟩ := h.under
    exact (ends_under_iff tree root).mp ⟨out, hends⟩
  · obtain ⟨out, hends⟩ := (ends_under_iff tree root).mpr h
    exact {
      under := ⟨out, hends, under_spec hends⟩
      filingRoot := fun id cur hcur => by
        obtain rfl := getNode_id hcur
        exact ends_filingRoot hcur
      catalogRoot := fun id cur hcur => by
        obtain rfl := getNode_id hcur
        exact ends_catalogRoot hcur
      depth := ends_depth
      height := fun id => ⟨66, heightWithin_eq 65 0 id rfl⟩
      descendant := ends_descendant
      treeDepth := ends_treeDepth }

/-! ### A root that is moved under itself -/

/-- The general root and a project's, each with a class. -/
def twoRoots : Store := { Store.empty with
  nodes := ⟨[classRow none "~general" "root-general", classRow none "repo" "r",
    classRow (some "root-general") "notes" "x", classRow (some "r") "auth" "y"], by decide⟩ }

/-- Each of the two roots promoted under the other's class. -/
def crossedRoots : Store :=
  let s := (twoRoots.insertClassRunWith 1 .organize none none).1
  match s.stageProposal Host.plain 2 (some 1) (.promote "root-general" (some "y") none) with
  | .error _ => s
  | .ok (s, _) =>
    match s.stageProposal Host.plain 3 (some 1) (.promote "r" (some "x") none) with
    | .error _ => s
    | .ok (s, _) => s

/-- **Two promotes that are each accepted** leave a root on a cycle, and the walk
under it does not end. -/
theorem crossedRoots_loop :
    (processQueue Host.plain aloneSurroundings 1 crossedRoots).out.applied = 2 ∧
    ¬ Traversed (processQueue Host.plain aloneSurroundings 1 crossedRoots).store.nodes "root-general" := by
  refine ⟨by decide +kernel, fun h => ?_⟩
  set tree := (processQueue Host.plain aloneSurroundings 1 crossedRoots).store.nodes
  obtain ⟨out, hends, -⟩ := h.under
  have hroot : parentIn tree "root-general" = some "y" := by decide +kernel
  have hy : parentIn tree "y" = some "r" := by decide +kernel
  have hr : parentIn tree "r" = some "x" := by decide +kernel
  have hx : parentIn tree "x" = some "root-general" := by decide +kernel
  exact (ends_under_iff tree "root-general").mp ⟨out, hends⟩ "y" hroot
    (.head hy (.head hr (.single hx)))

end Traversals
end PolisMemory
