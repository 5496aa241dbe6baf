/-
# Stats rolled up the tree

`subtree_stats_protected` of `crates/polis-core/src/coldness.rs` against what
`BranchStat` says it is: the activity of a node and of all below it. The roll goes
sixty-four levels deep. A node that far below a root gets what it has itself, and
so does one that no root reaches, and what is below it counts for no node: the
stats are whole if and only if there is nothing to add to these
(`subtreeStats_whole_iff`).

The argument is about any sum: `rolled_whole_iff`.

Key definitions: `Under`, `AtDepth`, `IsForest`, `branch`, `wholeStat`.
Key theorems: `whole_eq`, `rolled_whole_iff`, `subtreeStats_whole_iff`,
`deepLink_missed`.
-/
import Mathlib.Algebra.BigOperators.Group.List.Basic
import PolisMemory.Coldness

namespace PolisMemory

/-! ### Nodes below nodes -/

/-- A node, or one below it. -/
inductive Under (nodes : List NodeRow) (n : NodeRow) : NodeRow → Prop
  | refl : Under nodes n n
  | child {p m : NodeRow} : Under nodes n p → m ∈ kidsOf nodes p.id → Under nodes n m

/-- So many levels below a root. -/
inductive AtDepth (nodes : List NodeRow) : ℕ → NodeRow → Prop
  | root {n : NodeRow} : n ∈ nodes → n.parentId = none → AtDepth nodes 0 n
  | child {d : ℕ} {p m : NodeRow} : AtDepth nodes d p → m ∈ kidsOf nodes p.id →
      AtDepth nodes (d + 1) m

/-- The nodes have an id each, and none is below itself. -/
structure IsForest (nodes : List NodeRow) : Prop where
  nodup : (nodes.map NodeRow.id).Nodup
  acyclic : ∀ n ∈ nodes, ∀ m ∈ kidsOf nodes n.id, ¬ Under nodes m n

/-- A node and all below it. -/
noncomputable def branch (nodes : List NodeRow) (n : NodeRow) : List NodeRow :=
  open Classical in nodes.filter fun m => Under nodes n m

variable {nodes : List NodeRow} {n m p q : NodeRow} {d e : ℕ}

theorem mem_kidsOf {id : String} : m ∈ kidsOf nodes id ↔ m ∈ nodes ∧ m.parentId = some id := by
  simp [kidsOf]

theorem mem_branch : m ∈ branch nodes n ↔ m ∈ nodes ∧ Under nodes n m := by
  simp [branch]

theorem Under.mem (h : Under nodes n m) (hn : n ∈ nodes) : m ∈ nodes := by
  cases h with
  | refl => exact hn
  | child _ hm => exact (mem_kidsOf.mp hm).1

theorem Under.trans (hnm : Under nodes n m) (hmp : Under nodes m p) : Under nodes n p := by
  induction hmp with
  | refl => exact hnm
  | child _ hm ih => exact ih.child hm

theorem AtDepth.mem (h : AtDepth nodes d n) : n ∈ nodes := by
  cases h with
  | root hn _ => exact hn
  | child _ hn => exact (mem_kidsOf.mp hn).1

/-- What is below a node and is not the node is below a child of it. -/
theorem Under.eq_or_kid (h : Under nodes n m) : m = n ∨ ∃ k ∈ kidsOf nodes n.id, Under nodes k m := by
  induction h with
  | refl => exact .inl rfl
  | @child p m hp hm ih =>
    rcases ih with rfl | ⟨k, hk, hkp⟩
    · exact .inr ⟨m, hm, .refl⟩
    · exact .inr ⟨k, hk, hkp.child hm⟩

namespace IsForest

variable (hf : IsForest nodes)

include hf

theorem eq_of_id (hn : n ∈ nodes) (hm : m ∈ nodes) (h : n.id = m.id) : n = m :=
  List.inj_on_of_nodup_map hf.nodup hn hm h

/-- A node has one parent. -/
theorem eq_of_kid (hp : p ∈ nodes) (hq : q ∈ nodes) (hmp : m ∈ kidsOf nodes p.id)
    (hmq : m ∈ kidsOf nodes q.id) : p = q := by
  apply hf.eq_of_id hp hq
  have h := (mem_kidsOf.mp hmp).2.symm.trans (mem_kidsOf.mp hmq).2
  exact Option.some.inj h

/-- And so one depth. -/
theorem depth_eq (hd : AtDepth nodes d n) (he : AtDepth nodes e n) : d = e := by
  induction hd generalizing e with
  | root _ hroot =>
    cases he with
    | root => rfl
    | child _ hkid =>
      rw [(mem_kidsOf.mp hkid).2] at hroot
      cases hroot
  | child hp hkid ih =>
    cases he with
    | root _ hroot =>
      rw [(mem_kidsOf.mp hkid).2] at hroot
      cases hroot
    | child hq hkid' =>
      obtain rfl := hf.eq_of_kid hp.mem hq.mem hkid hkid'
      rw [ih hq]

/-- Of two nodes above the same one is above the other. -/
theorem under_total (hp : p ∈ nodes) (hq : q ∈ nodes) (hpm : Under nodes p m)
    (hqm : Under nodes q m) : Under nodes p q ∨ Under nodes q p := by
  induction hpm generalizing q with
  | refl => exact .inr hqm
  | @child r m hpr hm ih =>
    cases hqm with
    | refl => exact .inl (hpr.child hm)
    | @child s _ hqs hm' =>
      obtain rfl := hf.eq_of_kid (hpr.mem hp) (hqs.mem hq) hm hm'
      exact ih hq hqs

/-- What is below a child is below no other. -/
theorem kids_apart (hn : n ∈ nodes) (hp : p ∈ kidsOf nodes n.id) (hq : q ∈ kidsOf nodes n.id)
    (hpm : Under nodes p m) (hqm : Under nodes q m) : p = q := by
  have hmem := fun k (hk : k ∈ kidsOf nodes n.id) => (mem_kidsOf.mp hk).1
  -- below its sibling, a child has its parent below itself
  have hno : ∀ a ∈ kidsOf nodes n.id, ∀ b ∈ kidsOf nodes n.id, Under nodes a b → a = b := by
    intro a ha b hb hab
    cases hab with
    | refl => rfl
    | @child r _ har hbr =>
      obtain rfl := hf.eq_of_kid (har.mem (hmem a ha)) hn hbr hb
      exact absurd har (hf.acyclic r hn a ha)
  rcases hf.under_total (hmem p hp) (hmem q hq) hpm hqm with h | h
  · exact hno p hp q hq h
  · exact (hno q hq p hp h).symm

theorem nodes_nodup : nodes.Nodup := List.Nodup.of_map _ hf.nodup

/-- A branch is its node and the branches of the children. -/
theorem branch_perm (hn : n ∈ nodes) :
    (branch nodes n).Perm (n :: (kidsOf nodes n.id).flatMap (branch nodes)) := by
  have hnodup := hf.nodes_nodup
  have hkids : (kidsOf nodes n.id).Nodup := hnodup.filter _
  have hbelow : ∀ k ∈ kidsOf nodes n.id, n ∉ branch nodes k := by
    intro k hk hmem
    exact hf.acyclic n hn k hk (mem_branch.mp hmem).2
  have hbranch : (branch nodes n).Nodup := hnodup.filter _
  rw [List.perm_ext_iff_of_nodup hbranch]
  · intro m
    rw [mem_branch, List.mem_cons, List.mem_flatMap]
    constructor
    · rintro ⟨hm, hnm⟩
      rcases hnm.eq_or_kid with rfl | ⟨k, hk, hkm⟩
      · exact .inl rfl
      · exact .inr ⟨k, hk, mem_branch.mpr ⟨hm, hkm⟩⟩
    · rintro (rfl | ⟨k, hk, hkm⟩)
      · exact ⟨hn, .refl⟩
      · obtain ⟨hm, hkm⟩ := mem_branch.mp hkm
        exact ⟨hm, (Under.refl.child hk).trans hkm⟩
  · rw [List.nodup_cons]
    constructor
    · intro hmem
      obtain ⟨k, hk, hnk⟩ := List.mem_flatMap.mp hmem
      exact hbelow k hk hnk
    · rw [List.nodup_flatMap]
      refine ⟨fun k _ => hnodup.filter _, hkids.pairwise_of_forall_ne ?_⟩
      intro a ha b hb hab m hma hmb
      exact hab (hf.kids_apart hn ha hb (mem_branch.mp hma).2 (mem_branch.mp hmb).2)

end IsForest

/-! ### Any sum -/

section sums

variable {β : Type} [AddCommMonoid β] {own : NodeRow → β}

/-- The sum over a branch. -/
noncomputable def whole (nodes : List NodeRow) (own : NodeRow → β) (n : NodeRow) : β :=
  ((branch nodes n).map own).sum

/-- A node's own and the wholes of its children. -/
theorem whole_eq (hf : IsForest nodes) (hn : n ∈ nodes) :
    whole nodes own n = own n + ((kidsOf nodes n.id).map (whole nodes own)).sum := by
  have hkids : ∀ ks : List NodeRow, ((ks.flatMap (branch nodes)).map own).sum =
      (ks.map (whole nodes own)).sum := by
    intro ks
    induction ks with
    | nil => rfl
    | cons k ks ih =>
      rw [List.flatMap_cons, List.map_append, List.sum_append, ih, List.map_cons, List.sum_cons]
      rfl
  unfold whole
  rw [((hf.branch_perm hn).map own).sum_eq, List.map_cons, List.sum_cons, hkids]
  rfl

theorem roll_succ (k : ℕ) (n : NodeRow) :
    (roll nodes own (· + ·) (k + 1) n).1 =
      own n + ((kidsOf nodes n.id).map fun m => (roll nodes own (· + ·) k m).1).sum := by
  have hfold : ∀ (rs : List (β × List (String × β))) (b : β),
      rs.foldl (fun sum r => sum + r.1) b = b + (rs.map Prod.fst).sum := by
    intro rs
    induction rs with
    | nil => intro b; simp
    | cons r rs ih =>
      intro b
      rw [List.foldl_cons, ih, List.map_cons, List.sum_cons, add_assoc]
  show (((kidsOf nodes n.id).map (roll nodes own (· + ·) k)).foldl (fun sum r => sum + r.1) (own n))
    = _
  rw [hfold, List.map_map]
  rfl

/-- The entries on the way are those of the nodes below, each at its depth. -/
theorem entry_of_roll : ∀ (k : ℕ) {d : ℕ} {n : NodeRow}, d + k = rollDepth → AtDepth nodes d n →
    ∀ entry ∈ (roll nodes own (· + ·) k n).2, ∃ d' m, AtDepth nodes d' m ∧ d' ≤ rollDepth ∧
      entry = (m.id, (roll nodes own (· + ·) (rollDepth - d') m).1)
  | 0, d, n, hk, hn, entry, he => by
    obtain rfl := List.mem_singleton.mp he
    refine ⟨d, n, hn, by omega, ?_⟩
    rw [show rollDepth - d = 0 by omega]
    rfl
  | k + 1, d, n, hk, hn, entry, he => by
    rcases List.mem_append.mp he with he | he
    · obtain ⟨r, hr, he⟩ := List.mem_flatMap.mp he
      obtain ⟨m, hm, rfl⟩ := List.mem_map.mp hr
      exact entry_of_roll k (by omega) (hn.child hm) entry he
    · obtain rfl := List.mem_singleton.mp he
      refine ⟨d, n, hn, by omega, ?_⟩
      rw [show rollDepth - d = k + 1 by omega]
      rfl

theorem rolledEntries_entry {entry : String × β} (he : entry ∈ rolledEntries nodes own (· + ·)) :
    ∃ d m, AtDepth nodes d m ∧ d ≤ rollDepth ∧
      entry = (m.id, (roll nodes own (· + ·) (rollDepth - d) m).1) := by
  obtain ⟨n, hn, he⟩ := List.mem_flatMap.mp he
  obtain ⟨hn, hroot⟩ := List.mem_filter.mp hn
  exact entry_of_roll rollDepth (Nat.zero_add _) (.root hn (of_decide_eq_true hroot)) entry he

/-- All the entries of a roll that a root reaches are the map's. -/
theorem AtDepth.entries (h : AtDepth nodes d n) (hd : d ≤ rollDepth) :
    ∀ entry ∈ (roll nodes own (· + ·) (rollDepth - d) n).2,
      entry ∈ rolledEntries nodes own (· + ·) := by
  induction h with
  | @root n hn hroot =>
    intro entry he
    exact List.mem_flatMap.mpr ⟨n, List.mem_filter.mpr ⟨hn, decide_eq_true hroot⟩, he⟩
  | @child d p m hp hkid ih =>
    intro entry he
    apply ih (by omega) entry
    rw [show rollDepth - d = rollDepth - (d + 1) + 1 by omega]
    refine List.mem_append_left _ (List.mem_flatMap.mpr ⟨_, List.mem_map_of_mem hkid, he⟩)

theorem mem_roll (k : ℕ) (n : NodeRow) :
    (n.id, (roll nodes own (· + ·) k n).1) ∈ (roll nodes own (· + ·) k n).2 := by
  cases k with
  | zero => exact List.mem_singleton_self _
  | succ k => exact List.mem_append_right _ (List.mem_singleton_self _)

/-- What the map has for a node that a root reaches. -/
theorem rolled_at (hf : IsForest nodes) (h : AtDepth nodes d n) (hd : d ≤ rollDepth) :
    rolled nodes own (· + ·) n.id = some (roll nodes own (· + ·) (rollDepth - d) n).1 := by
  have hentry : (n.id, (roll nodes own (· + ·) (rollDepth - d) n).1) ∈
      (rolledEntries nodes own (· + ·)).reverse :=
    List.mem_reverse.mpr (h.entries hd _ (mem_roll _ n))
  unfold rolled
  split
  case h_1 entry hfind =>
    obtain ⟨e, m, hm, he, rfl⟩ := rolledEntries_entry
      (List.mem_reverse.mp (List.mem_of_find?_eq_some hfind))
    have hid : m.id = n.id := by simpa using List.find?_some hfind
    obtain rfl := hf.eq_of_id hm.mem h.mem hid
    rw [hf.depth_eq hm h]
  case h_2 hfind =>
    have := List.find?_eq_none.mp hfind _ hentry
    simp at this

/-- And for one that none reaches. -/
theorem rolled_deep (hf : IsForest nodes) (hn : n ∈ nodes)
    (hdeep : ∀ d ≤ rollDepth, ¬ AtDepth nodes d n) :
    rolled nodes own (· + ·) n.id = some (own n) := by
  unfold rolled
  split
  case h_1 entry hfind =>
    obtain ⟨d, m, hm, hd, rfl⟩ := rolledEntries_entry
      (List.mem_reverse.mp (List.mem_of_find?_eq_some hfind))
    have hid : m.id = n.id := by simpa using List.find?_some hfind
    obtain rfl := hf.eq_of_id hm.mem hn hid
    exact absurd hm (hdeep d hd)
  case h_2 =>
    have hsome : (nodes.find? fun m => m.id = n.id).isSome := by
      rw [List.find?_isSome]
      exact ⟨n, hn, decide_eq_true rfl⟩
    obtain ⟨m, hm⟩ := Option.isSome_iff_exists.mp hsome
    have hid : m.id = n.id := by simpa using List.find?_some hm
    obtain rfl := hf.eq_of_id (List.mem_of_find?_eq_some hm) hn hid
    rw [hm]
    rfl

/-- **The map has the wholes** if and only if a node has nothing to add to its
own that no root reaches within the depth of the roll. -/
theorem rolled_whole_iff (hf : IsForest nodes) :
    (∀ n ∈ nodes, rolled nodes own (· + ·) n.id = some (whole nodes own n)) ↔
      ∀ n ∈ nodes, (∀ d < rollDepth, ¬ AtDepth nodes d n) → own n = whole nodes own n := by
  constructor
  · intro h n hn hdeep
    have hmap := h n hn
    by_cases hlast : AtDepth nodes rollDepth n
    · rw [rolled_at hf hlast (Nat.le_refl _), Nat.sub_self] at hmap
      exact Option.some.inj hmap
    · rw [rolled_deep hf hn fun d hd hat => ?_] at hmap
      · exact Option.some.inj hmap
      · rcases Nat.lt_or_eq_of_le hd with hlt | rfl
        · exact hdeep d hlt hat
        · exact hlast hat
  · intro h
    -- from the deepest level up
    have hroll : ∀ (k : ℕ) {d : ℕ} {n : NodeRow}, d + k = rollDepth → AtDepth nodes d n →
        (roll nodes own (· + ·) k n).1 = whole nodes own n := by
      intro k
      induction k with
      | zero =>
        intro d n hk hn
        refine h n hn.mem fun e he hat => ?_
        have := hf.depth_eq hn hat
        omega
      | succ k ih =>
        intro d n hk hn
        rw [roll_succ, whole_eq hf hn.mem]
        congr 2
        exact List.map_congr_left fun m hm => ih (by omega) (hn.child hm)
    intro n hn
    by_cases hreached : ∃ d ≤ rollDepth, AtDepth nodes d n
    · obtain ⟨d, hd, hat⟩ := hreached
      rw [rolled_at hf hat hd, hroll (rollDepth - d) (by omega) hat]
    · rw [rolled_deep hf hn fun d hd hat => hreached ⟨d, hd, hat⟩]
      congr 1
      exact h n hn fun d hd hat => hreached ⟨d, Nat.le_of_lt hd, hat⟩

end sums

/-! ### The stats -/

/-- The activity of a node and of all below it. -/
noncomputable def wholeStat (nodes : List NodeRow) (direct : String → ℤ × Option ℤ)
    (isProtected : String → Bool) (n : NodeRow) : BranchStat where
  lastTs := ((branch nodes n).filterMap fun m => (direct m.id).2).max?
  itemCount := ((branch nodes n).map fun m => (direct m.id).1).sum
  pinned := (branch nodes n).any fun m => isProtected m.id

/-- All below a node. -/
noncomputable def below (nodes : List NodeRow) (n : NodeRow) : List NodeRow :=
  (kidsOf nodes n.id).flatMap (branch nodes)

/-- What is below a node adds nothing to what it has itself: no items, no later
date, and no protection. -/
structure AddsNothing (nodes : List NodeRow) (direct : String → ℤ × Option ℤ)
    (isProtected : String → Bool) (n : NodeRow) : Prop where
  items : ((below nodes n).map fun m => (direct m.id).1).sum = 0
  dates : ∀ m ∈ below nodes n, ∀ t ∈ (direct m.id).2, ∃ t' ∈ (direct n.id).2, t ≤ t'
  protection : ∀ m ∈ below nodes n, isProtected m.id = true → isProtected n.id = true

theorem newer_none (a : Option ℤ) : newer a none = a := by
  cases a <;> rfl

theorem newer_comm (a b : Option ℤ) : newer a b = newer b a := by
  cases a <;> cases b <;> simp [newer, max_comm]

theorem newer_assoc (a b c : Option ℤ) : newer (newer a b) c = newer a (newer b c) := by
  cases a <;> cases b <;> cases c <;> simp [newer, max_assoc]

instance : Zero BranchStat := ⟨⟨none, 0, false⟩⟩

instance : Add BranchStat := ⟨BranchStat.add⟩

/-- Stats add up in any order. -/
instance : AddCommMonoid BranchStat where
  nsmul := nsmulRec
  zero_add a := by
    show BranchStat.add ⟨none, 0, false⟩ a = a
    simp [BranchStat.add, newer_comm none, newer_none]
  add_zero a := by
    show BranchStat.add a ⟨none, 0, false⟩ = a
    simp [BranchStat.add, newer_none]
  add_comm a b := by
    show BranchStat.add a b = BranchStat.add b a
    simp [BranchStat.add, newer_comm a.lastTs, add_comm a.itemCount, Bool.or_comm a.pinned]
  add_assoc a b c := by
    show BranchStat.add (BranchStat.add a b) c = BranchStat.add a (BranchStat.add b c)
    simp [BranchStat.add, newer_assoc, add_assoc, Bool.or_assoc]

theorem stat_add (a b : BranchStat) : a + b =
    ⟨newer a.lastTs b.lastTs, a.itemCount + b.itemCount, a.pinned || b.pinned⟩ := rfl

section stats

variable {direct : String → ℤ × Option ℤ} {isProtected : String → Bool}

/-- A sum of stats, field by field. -/
theorem sum_ownStat (ms : List NodeRow) : (ms.map (ownStat direct isProtected)).sum =
    ⟨(ms.filterMap fun m => (direct m.id).2).max?, (ms.map fun m => (direct m.id).1).sum,
      ms.any fun m => isProtected m.id⟩ := by
  induction ms with
  | nil => rfl
  | cons m ms ih =>
    rw [List.map_cons, List.sum_cons, ih, stat_add]
    cases ht : (direct m.id).2 with
    | none =>
      simp [ownStat, ht, newer_comm none, newer_none]
    | some t =>
      cases hmax : (ms.filterMap fun m => (direct m.id).2).max? with
      | none => simp [ownStat, ht, List.max?_cons, hmax, newer]
      | some t' => simp [ownStat, ht, List.max?_cons, hmax, newer]

theorem newer_eq_left {a b : Option ℤ} : newer a b = a ↔ ∀ t ∈ b, ∃ t' ∈ a, t ≤ t' := by
  cases a with
  | none => cases b <;> simp [newer]
  | some a => cases b <;> simp [newer]

/-- Of the newest is true what is true of all. -/
theorem forall_mem_max? {l : List ℤ} {a : Option ℤ} :
    (∀ t ∈ l.max?, ∃ t' ∈ a, t ≤ t') ↔ ∀ t ∈ l, ∃ t' ∈ a, t ≤ t' := by
  constructor
  · intro h t ht
    obtain ⟨top, htop⟩ := Option.isSome_iff_exists.mp
      (List.isSome_max?_of_mem ht)
    obtain ⟨t', ht', hle⟩ := h top htop
    have hmax := (List.max?_eq_some_iff.mp htop).2 t ht
    exact ⟨t', ht', hmax.trans hle⟩
  · intro h t ht
    exact h t (List.max?_mem ht)

/-- A node's own is the whole if and only if what is below adds nothing. -/
theorem own_eq_whole_iff (hf : IsForest nodes) (hn : n ∈ nodes) :
    ownStat direct isProtected n = whole nodes (ownStat direct isProtected) n ↔
      AddsNothing nodes direct isProtected n := by
  have hwhole : whole nodes (ownStat direct isProtected) n = ownStat direct isProtected n +
      ((below nodes n).map (ownStat direct isProtected)).sum := by
    unfold whole
    rw [((hf.branch_perm hn).map _).sum_eq, List.map_cons, List.sum_cons]
    rfl
  rw [hwhole, sum_ownStat, stat_add, BranchStat.mk.injEq, eq_comm, newer_eq_left, forall_mem_max?]
  constructor
  · rintro ⟨hdates, hitems, hprot⟩
    refine ⟨by simpa using hitems, fun m hm t ht => ?_, fun m hm hpm => ?_⟩
    · exact hdates t (List.mem_filterMap.mpr ⟨m, hm, ht⟩)
    · have hany : (below nodes n).any (fun m => isProtected m.id) = true :=
        List.any_eq_true.mpr ⟨m, hm, hpm⟩
      rw [hany, Bool.or_true] at hprot
      exact hprot
  · rintro ⟨hitems, hdates, hprot⟩
    refine ⟨fun t ht => ?_, by simpa using hitems, ?_⟩
    · obtain ⟨m, hm, ht⟩ := List.mem_filterMap.mp ht
      exact hdates m hm t ht
    · cases hany : (below nodes n).any fun m => isProtected m.id with
      | false => simp [ownStat]
      | true =>
        obtain ⟨m, hm, hpm⟩ := List.any_eq_true.mp hany
        simp [ownStat, hprot m hm hpm]

/-- **The stats are whole** if and only if nothing is to be added to a node that
is sixty-four levels or more below a root, or that no root reaches. -/
theorem subtreeStats_whole_iff (hf : IsForest nodes) (direct : String → ℤ × Option ℤ)
    (isProtected : String → Bool) :
    (∀ n ∈ nodes, subtreeStats nodes direct isProtected n.id =
        some (wholeStat nodes direct isProtected n)) ↔
      ∀ n ∈ nodes, (∀ d < rollDepth, ¬ AtDepth nodes d n) →
        AddsNothing nodes direct isProtected n := by
  have hstat : ∀ n, wholeStat nodes direct isProtected n =
      whole nodes (ownStat direct isProtected) n := fun n => (sum_ownStat (branch nodes n)).symm
  have hmap := @rolled_whole_iff nodes _ _ (ownStat direct isProtected) hf
  simp only [hstat]
  rw [show (∀ n ∈ nodes, subtreeStats nodes direct isProtected n.id =
    some (whole nodes (ownStat direct isProtected) n)) ↔ _ from hmap]
  constructor
  · exact fun h n hn hdeep => (own_eq_whole_iff hf hn).mp (h n hn hdeep)
  · exact fun h n hn hdeep => (own_eq_whole_iff hf hn).mpr (h n hn hdeep)

end stats

/-- A node of the classifier's, titled by its id. -/
def plainNode (id : String) (parent : Option String) : NodeRow where
  id := id
  parentId := parent
  kind := .node
  title := id
  summary := none
  projectPath := none
  pinned := false
  curatedBy := none
  createdAt := 0
  updatedAt := 0
  retiredByRun := none
  retiredInto := none
  lastRecalledAt := none

/-- A class and one in it, which is noted. -/
def twoLevels : List NodeRow := [plainNode "class" none, plainNode "sub" (some "class")]

theorem twoLevels_whole :
    subtreeStats twoLevels (fun _ => (1, none)) (fun id => id = "sub") "class" =
      some (wholeStat twoLevels (fun _ => (1, none)) (fun id => id = "sub")
        (plainNode "class" none)) := by
  have hnone : kidsOf twoLevels "sub" = [] := by decide
  have hkids : ∀ n, Under twoLevels (plainNode "sub" (some "class")) n →
      n = plainNode "sub" (some "class") := by
    intro n hn
    induction hn with
    | refl => rfl
    | child _ hm ih =>
      rw [ih, plainNode, hnone] at hm
      cases hm
  have hforest : IsForest twoLevels := by
    refine ⟨by decide, fun n hn m hm hmn => ?_⟩
    have hsub : m = plainNode "sub" (some "class") := by
      obtain ⟨hmem, hparent⟩ := mem_kidsOf.mp hm
      simp only [twoLevels, List.mem_cons, List.not_mem_nil, or_false] at hmem
      rcases hmem with rfl | rfl
      · cases hparent
      · rfl
    subst hsub
    rw [hkids n hmn, plainNode, hnone] at hm
    cases hm
  have hroot : AtDepth twoLevels 0 (plainNode "class" none) := .root List.mem_cons_self rfl
  have hsub : AtDepth twoLevels 1 (plainNode "sub" (some "class")) := hroot.child (by decide)
  refine (subtreeStats_whole_iff hforest _ _).mpr (fun n hn hdeep => ?_) _ List.mem_cons_self
  simp only [twoLevels, List.mem_cons, List.not_mem_nil, or_false] at hn
  rcases hn with rfl | rfl
  · exact absurd hroot (hdeep 0 (by decide))
  · exact absurd hsub (hdeep 1 (by decide))

/-- The id of a node of the line. -/
def lineId (k : ℕ) : String := String.ofList (List.replicate k 'n')

/-- Each node of the line hangs on the one before. -/
def lineNode (k : ℕ) : NodeRow := plainNode (lineId k) (if k = 0 then none else some (lineId (k - 1)))

/-- A line of sixty-six nodes. -/
def line : List NodeRow := (List.range 66).map lineNode

theorem lineId_inj {j k : ℕ} (h : lineId j = lineId k) : j = k := by
  simpa [lineId] using congrArg (fun s => s.toList.length) h

theorem mem_line {k : ℕ} (hk : k < 66) : lineNode k ∈ line :=
  List.mem_map_of_mem (List.mem_range.mpr hk)

/-- The one child of a node of the line. -/
theorem kid_line {j : ℕ} (hm : m ∈ kidsOf line (lineId j)) : m = lineNode (j + 1) := by
  obtain ⟨hmem, hparent⟩ := mem_kidsOf.mp hm
  obtain ⟨k, -, rfl⟩ := List.mem_map.mp hmem
  unfold lineNode plainNode at hparent
  by_cases hk : k = 0
  · simp [hk] at hparent
  · simp only [hk, if_false, Option.some.injEq] at hparent
    have := lineId_inj hparent
    rw [show j + 1 = k by omega]

theorem line_kid {j : ℕ} (hj : j + 1 < 66) : lineNode (j + 1) ∈ kidsOf line (lineId j) :=
  mem_kidsOf.mpr ⟨mem_line hj, rfl⟩

theorem line_forest : IsForest line := by
  refine ⟨?_, fun n hn m hm hmn => ?_⟩
  · unfold line
    rw [List.map_map]
    exact List.nodup_range.map_on fun j _ k _ h => lineId_inj h
  · obtain ⟨j, -, rfl⟩ := List.mem_map.mp hn
    obtain rfl := kid_line hm
    -- further down are only later nodes
    have hlater : ∀ n, Under line (lineNode (j + 1)) n → ∃ k, j < k ∧ n = lineNode k := by
      intro n hn
      induction hn with
      | refl => exact ⟨j + 1, by omega, rfl⟩
      | child _ hm ih =>
        obtain ⟨k, hk, rfl⟩ := ih
        exact ⟨k + 1, by omega, kid_line hm⟩
    obtain ⟨k, hk, heq⟩ := hlater _ hmn
    have := lineId_inj (congrArg NodeRow.id heq)
    omega

theorem line_depth : ∀ k, k < 66 → AtDepth line k (lineNode k)
  | 0, hk => .root (mem_line hk) rfl
  | k + 1, hk => (line_depth k (by omega)).child (line_kid hk)

/-- The last node is noted, and the one above it is not protected. -/
theorem deepLink_missed : ¬ ∀ (nodes : List NodeRow) (direct : String → ℤ × Option ℤ)
    (isProtected : String → Bool), IsForest nodes →
      ∀ n ∈ nodes, subtreeStats nodes direct isProtected n.id =
        some (wholeStat nodes direct isProtected n) := by
  intro h
  have hstat := h line (fun _ => (0, none)) (fun id => id = lineId 65) line_forest (lineNode 64)
    (mem_line (by omega))
  have hmap : subtreeStats line (fun _ => (0, none)) (fun id => id = lineId 65) (lineNode 64).id =
      some (ownStat (fun _ => (0, none)) (fun id => id = lineId 65) (lineNode 64)) :=
    rolled_at line_forest (line_depth 64 (by omega)) (Nat.le_refl _)
  rw [hmap, Option.some.injEq] at hstat
  have hown : lineId 64 ≠ lineId 65 := fun heq => absurd (lineId_inj heq) (by omega)
  have hunder : lineNode 65 ∈ branch line (lineNode 64) :=
    mem_branch.mpr ⟨mem_line (by omega), Under.refl.child (line_kid (by omega))⟩
  have hwhole : (branch line (lineNode 64)).any (fun m => decide (m.id = lineId 65)) = true :=
    List.any_eq_true.mpr ⟨_, hunder, decide_eq_true rfl⟩
  have hpinned : decide (lineId 64 = lineId 65) = true :=
    (congrArg BranchStat.pinned hstat).trans hwhole
  exact hown (of_decide_eq_true hpinned)

end PolisMemory
