/-
# What hangs on live nodes

The catalog is sound if the parent of a live node is a live node, and a live
link or observation hangs on one (`Integral`). Filing, creating and observing
ask for the node they hang something on. A proposal is staged while its nodes
are live and applied later, with no question asked again: a promote may find
its new parent retired, a split or a collapse the parent of its node, a merge
its target. Where the apply finds them live (`ProposalRow.Attaches`), every
write of a run keeps the catalog sound.

Key definitions: `Store.Hung`, `Store.Integral`, `ProposalRow.Attaches`.
Key theorems: `RunWrite.exec_integral`.
-/
import PolisMemory.Shape
import PolisMemory.Frame

namespace PolisMemory

open Tables

namespace Store

/-- What the live rows hang on has the property. -/
structure Hung (P : String → Prop) (s : Store) : Prop where
  parents : ∀ a ∈ s.nodes.rows, a.live = true → ∀ q ∈ a.parentId, P q
  links : ∀ r ∈ s.links.rows, r.live = true → P r.nodeId
  observations : ∀ r ∈ s.observations.rows, r.live = true → P r.nodeId

/-- What the live rows hang on is a live node. -/
def Integral (s : Store) : Prop := s.Hung fun q => s.Live q

section

variable {P Q : String → Prop} {s s' : Store}

theorem Hung.parent (hs : s.Hung P) {id q : String} {a : NodeRow} (ha : s.nodes.get? id = some a)
    (hl : a.live = true) (hq : a.parentId = some q) : P q :=
  hs.parents a (Table.get?_eq_some.mp ha).1 hl q hq

theorem Hung.link (hs : s.Hung P) {l : ℤ} {r : LinkRow} (hr : s.links.get? l = some r)
    (hl : r.live = true) : P r.nodeId :=
  hs.links r (Table.get?_eq_some.mp hr).1 hl

theorem Hung.observation (hs : s.Hung P) {o : ℤ} {r : ObservationRow}
    (hr : s.observations.get? o = some r) (hl : r.live = true) : P r.nodeId :=
  hs.observations r (Table.get?_eq_some.mp hr).1 hl

theorem hung_of_get?
    (hparents : ∀ {id a q}, s.nodes.get? id = some a → a.live = true → a.parentId = some q → P q)
    (hlinks : ∀ {l r}, s.links.get? l = some r → r.live = true → P r.nodeId)
    (hobservations : ∀ {o r}, s.observations.get? o = some r → r.live = true → P r.nodeId) :
    s.Hung P :=
  ⟨fun _ ha hl _ hq => hparents (Table.mem_rows.mp ha) hl hq,
    fun _ hr hl => hlinks (Table.mem_rows.mp hr) hl,
    fun _ hr hl => hobservations (Table.mem_rows.mp hr) hl⟩

theorem Hung.mono (hs : s.Hung P) (hPQ : ∀ q, P q → Q q) : s.Hung Q :=
  ⟨fun a ha hl q hq => hPQ q (hs.parents a ha hl q hq), fun r hr hl => hPQ _ (hs.links r hr hl),
    fun r hr hl => hPQ _ (hs.observations r hr hl)⟩

theorem Hung.congr (hsame : SameCatalog s s') (hs : s.Hung P) : s'.Hung P := by
  refine ⟨?_, ?_, ?_⟩
  · rw [hsame.nodes]
    exact hs.parents
  · rw [hsame.links]
    exact hs.links
  · rw [hsame.observations]
    exact hs.observations

theorem Integral.congr (hsame : SameCatalog s s') (hs : s.Integral) : s'.Integral := by
  have hlive : s'.nodeExists = s.nodeExists := nodeExists_congr hsame
  unfold Integral Live
  rw [hlive]
  exact Hung.congr hsame hs

end

/-! ### Staging and observing -/

section stage

variable {h : Host} {s s' : Store} {now run : ℤ}

/-- A new node under a live parent. -/
theorem integral_insertNode {mk : String → NodeRow} {id : String} (hs : s.Integral)
    (hi : s.insertNode h mk = .ok (s', id)) (hid : ∀ k, (mk k).id = k)
    (hparent : ∀ k, ∀ q ∈ (mk k).parentId, s.Live q) :
    s'.Integral ∧ (∀ q, s.Live q → s'.Live q) ∧ s'.nodes.get? id = some (mk id) := by
  obtain ⟨hmade, nodes, hins, rfl⟩ := insertNode_ok hi
  have hget : ∀ k, nodes.get? k = if (mk id).id = k then some (mk id) else s.nodes.get? k :=
    fun k => Table.get?_insert? hins
  have hlive : ∀ q, s.Live q → ({ s with nodes := nodes, minted := s.minted + 1 } : Store).Live q := by
    intro q hq
    obtain ⟨a, ha, hal⟩ := nodeExists_iff.mp hq
    exact nodeExists_iff.mpr ⟨a, Table.get?_insert?_old hins ha, hal⟩
  refine ⟨hung_of_get? ?_ ?_ ?_, hlive, ?_⟩
  · intro k a q ha hl hq
    change nodes.get? k = some a at ha
    rw [hget] at ha
    split_ifs at ha
    · cases ha
      exact hlive q (hparent id q hq)
    · exact hlive q (hs.parent ha hl hq)
  · exact fun hr hl => hlive _ (hs.link hr hl)
  · exact fun hr hl => hlive _ (hs.observation hr hl)
  · change nodes.get? id = _
    rw [hget, if_pos (hid id)]

theorem sameCatalog_journalApplied {subjects : List Subject} {image : Image}
    (hj : s.journalApplied (some run) subjects image = .ok s') : SameCatalog s s' :=
  sameCatalog_journalOp hj

theorem live_congr (hsame : SameCatalog s s') (q : String) : s'.Live q ↔ s.Live q := by
  rw [Live, nodeExists_congr hsame]

theorem integral_createChild {parentId title id : String} (hs : s.Integral)
    (hp : s.Live parentId) (hc : s.createChild h now (some run) parentId title = .ok (s', id)) :
    s'.Integral ∧ s'.Live id := by
  obtain ⟨⟨s₁, id⟩, hi, hc⟩ := bind_eq_ok.mp hc
  obtain ⟨s₂, hj, hc⟩ := bind_eq_ok.mp hc
  cases hc
  have hsame := sameCatalog_journalApplied hj
  obtain ⟨hint, -, hnew⟩ := integral_insertNode hs hi (fun _ => rfl) fun k q hq => by
    obtain rfl : parentId = q := Option.some.inj hq
    exact hp
  refine ⟨hint.congr hsame, (live_congr hsame id).mpr ?_⟩
  exact nodeExists_iff.mpr ⟨_, hnew, rfl⟩

/-- The node a filing attaches to is live. -/
theorem integral_filingNode {parentId node : String} {subClass : Option String} {made : Bool}
    (hs : s.Integral) (hp : s.Live parentId)
    (hn : s.filingNode h now (some run) parentId subClass = .ok (s', node, made)) :
    s'.Integral ∧ s'.Live node := by
  unfold filingNode at hn
  split at hn
  · cases hn
    exact ⟨hs, hp⟩
  split_ifs at hn
  · cases hn
    exact ⟨hs, hp⟩
  split at hn
  · rename_i id hfound
    cases hn
    refine ⟨hs, ?_⟩
    have hm := List.mem_of_mem_head? hfound
    obtain ⟨a, ha, hrow⟩ := Table.mem_map_select.mp hm
    simp only [Bool.and_eq_true, decide_eq_true_eq] at hrow
    exact nodeExists_iff.mpr ⟨a, ha, hrow.2⟩
  · obtain ⟨⟨s₁, id⟩, hc, hn⟩ := bind_eq_ok.mp hn
    cases hn
    exact integral_createChild hs hp hc

theorem integral_fileLink {node targetKind targetId : String} {note : Option String} {linked : Bool}
    (hs : s.Integral) (hn : s.Live node)
    (hl : s.fileLink now (some run) node targetKind targetId note = .ok (s', linked)) :
    s'.Integral := by
  unfold fileLink at hl
  split at hl
  · rename_i l hfound
    have hdedup : l.dedup = (node, targetKind, targetId) := by simpa using List.find?_some hfound
    obtain ⟨rfl, -⟩ := Prod.mk.inj hdedup
    split at hl
    · cases hl
      exact hs
    · obtain ⟨s₂, hj, hl⟩ := bind_eq_ok.mp hl
      cases hl
      refine Integral.congr (sameCatalog_journalApplied hj) (hung_of_get? ?_ ?_ ?_)
      · exact fun ha hal hq => hs.parent ha hal hq
      · intro k r hr hrl
        rw [IndexedTable.toAutoTable_update, AutoTable.toTable_update, Table.get?_update] at hr
        obtain ⟨r₀, hr₀, rfl⟩ := Option.map_eq_some_iff.mp hr
        by_cases hk : r₀.id = l.id
        · -- the revived link is the one that was found
          have hmem := List.mem_of_find?_eq_some hfound
          have hsame : r₀ = l := List.inj_on_of_nodup_map s.links.nodup
            (Table.get?_eq_some.mp hr₀).1 hmem hk
          subst hsame
          simp only [decide_true, if_true]
          exact hn
        · simp only [hk, decide_false, Bool.false_eq_true, if_false] at hrl ⊢
          exact hs.link hr₀ hrl
      · exact fun hr hrl => hs.observation hr hrl
  · split at hl
    · cases hl
    rename_i links hins
    obtain ⟨s₂, hj, hl⟩ := bind_eq_ok.mp hl
    cases hl
    refine Integral.congr (sameCatalog_journalApplied hj) (hung_of_get? ?_ ?_ ?_)
    · exact fun ha hal hq => hs.parent ha hal hq
    · intro k r hr hrl
      change links.get? k = some r at hr
      rw [IndexedTable.get?_insert? hins] at hr
      split_ifs at hr
      · cases hr
        exact hn
      · exact hs.link hr hrl
    · exact fun hr hrl => hs.observation hr hrl

theorem integral_stage {p : Proposal} {out : StagedOutcome} (hs : s.Integral)
    (hp : s.stageProposal h now (some run) p = .ok (s', out)) : s'.Integral := by
  have hqueue : ∀ {op nodeId parentId title summary extra rationale},
      (s.insertStructural now (some run) op nodeId parentId title summary extra rationale).Integral :=
    fun {_ _ _ _ _ _ _} => Integral.congr (s := s) ⟨rfl, rfl, rfl, rfl⟩ hs
  unfold stageProposal at hp
  split_ifs at hp
  · cases hp
    exact hs
  split at hp
  case h_1 =>
    split_ifs at hp with hskip
    · cases hp
      exact hs
    · obtain ⟨⟨s₁, id⟩, hc, hp⟩ := bind_eq_ok.mp hp
      cases hp
      simp only [Bool.or_eq_true, not_or, Bool.not_eq_true, Bool.not_eq_false'] at hskip
      exact (integral_createChild hs hskip.1 hc).1
  case h_2 =>
    split_ifs at hp with hskip
    · cases hp
      exact hs
    · obtain ⟨⟨s₁, node, made⟩, hn, hp⟩ := bind_eq_ok.mp hp
      obtain ⟨⟨s₂, linked⟩, hl, hp⟩ := bind_eq_ok.mp hp
      cases hp
      simp only [Bool.not_eq_true, Bool.not_eq_false'] at hskip
      obtain ⟨hs₁, hnode⟩ := integral_filingNode hs hskip hn
      exact integral_fileLink hs₁ hnode hl
  all_goals
    split_ifs at hp
    · cases hp
      exact hs
    · cases hp
      exact hqueue

theorem integral_observe {node summary actor : String} {citeSeqs : List ℤ} {out : Option ℤ}
    (hs : s.Integral)
    (ho : s.insertClassObservationInRun h now run node summary citeSeqs actor = .ok (s', out)) :
    s'.Integral := by
  unfold insertClassObservationInRun at ho
  split_ifs at ho
  · cases ho
    exact hs
  unfold insertClassObservation at ho
  split_ifs at ho with hskip
  · cases ho
    exact hs
  · obtain ⟨s₂, hj, ho⟩ := bind_eq_ok.mp ho
    cases ho
    have hlive : s.Live node := by
      simp only [Bool.or_eq_true, not_or, Bool.not_eq_true, Bool.not_eq_false'] at hskip
      exact hskip.1.2
    refine Integral.congr (sameCatalog_journalOp hj) (hung_of_get? ?_ ?_ ?_)
    · exact fun ha hal hq => hs.parent ha hal hq
    · exact fun hr hrl => hs.link hr hrl
    · intro k r hr hrl
      change (s.observations.insert _).get? k = some r at hr
      rw [AutoTable.get?_insert] at hr
      split_ifs at hr
      · cases hr
        exact hlive
      · exact hs.observation hr hrl

end stage

/-! ### Applying -/

theorem integral_promote {s : Store} {now : ℤ} {node : String} {parent : Option String}
    (hs : s.Integral) (hp : s.Live node → ∀ q ∈ parent, s.Live q) :
    (s.setParent now [node] parent).Integral := by
  have hget : ∀ id, (s.setParent now [node] parent).nodes.get? id = _ := fun id => get?_setParent
  have hlive : ∀ q, s.Live q → (s.setParent now [node] parent).Live q := by
    intro q hq
    rw [Live, nodeExists_map (hget q) fun a => by split_ifs <;> rfl]
    exact hq
  refine hung_of_get? ?_ (fun hr hl => hlive _ (hs.link hr hl))
    fun hr hl => hlive _ (hs.observation hr hl)
  intro id a q ha hal hq
  rw [hget] at ha
  obtain ⟨a₀, ha₀, rfl⟩ := Option.map_eq_some_iff.mp ha
  split_ifs at hal hq with hm
  · obtain rfl := List.mem_singleton.mp hm
    exact hlive q (hp ((live_iff ha₀).mpr hal) q hq)
  · exact hlive q (hs.parent ha₀ hal hq)

theorem integral_split {h : Host} {s s' : Store} {now : ℤ} {actor node : String} {row : NodeRow}
    {new : List CreatedPart} (hs : s.Integral) (hrow : s.nodes.get? node = some row)
    (hp : new ≠ [] → ∀ q ∈ s.parentOf node, s.Live q)
    (hsplit : SplitBy h now actor node row.parentId s s' new) : s'.Integral := by
  have hlive : ∀ q, s.Live q → s'.Live q := by
    intro q hq
    obtain ⟨a, ha, hal⟩ := nodeExists_iff.mp hq
    exact nodeExists_iff.mpr ⟨a, hsplit.oldNodes ha, hal⟩
  have hnew : ∀ p ∈ new, s'.Live p.id := by
    intro p hm
    obtain ⟨b, hb⟩ := Option.ne_none_iff_exists'.mp (hsplit.made p hm)
    obtain ⟨p', -, -, rfl⟩ := hsplit.newNodes (hsplit.fresh p hm).1 hb
    exact nodeExists_iff.mpr ⟨_, hb, rfl⟩
  refine hung_of_get? ?_ ?_ ?_
  · intro id a q ha hal hq
    cases ha₀ : s.nodes.get? id with
    | some a₀ =>
      obtain rfl := Option.some.inj ((hsplit.oldNodes ha₀).symm.trans ha)
      exact hlive q (hs.parent ha₀ hal hq)
    | none =>
      obtain ⟨p, hm, -, rfl⟩ := hsplit.newNodes ha₀ ha
      refine hlive q (hp (List.ne_nil_of_mem hm) q ?_)
      rw [parentOf_eq hrow]
      exact hq
  · intro l r hr hl
    cases hr₀ : s.links.get? l with
    | none => simp [hsplit.noNew hr₀] at hr
    | some r₀ =>
      rcases hsplit.links hr₀ with hsame | ⟨p, hm, -, -, -, hmoved⟩
      · obtain rfl := Option.some.inj (hsame.symm.trans hr)
        exact hlive _ (hs.link hr₀ hl)
      · obtain rfl := Option.some.inj (hmoved.symm.trans hr)
        exact hnew p hm
  · intro o r hr hl
    rw [hsplit.observations] at hr
    exact hlive _ (hs.observation hr hl)

/-- The parent of the node stays when the branch goes, and the walk of the
branch reaches all of it. -/
def CollapseAttaches (s : Store) (node : String) : Prop :=
  (∀ q ∈ s.parentOf node, s.Live q ∧ q ∉ s.subtreeWalk walkGuard [node]) ∧
    ∀ x ∈ s.subtreeWalk walkGuard [node], ∀ c ∈ s.liveChildren x,
      c ∈ s.subtreeWalk walkGuard [node]

theorem subtreeWalk_subset_succ (s : Store) : ∀ (n : ℕ) (stack : List String),
    s.subtreeWalk n stack ⊆ s.subtreeWalk (n + 1) stack
  | 0, _ => List.nil_subset _
  | _ + 1, [] => List.nil_subset _
  | n + 1, top :: stack => by
    rw [subtreeWalk, subtreeWalk]
    exact List.cons_subset_cons top (subtreeWalk_subset_succ s n _)

theorem CollapseAttaches.loopless {s : Store} {node : String} (hc : s.CollapseAttaches node) :
    s.Loopless node := by
  intro row hrow q hq hm
  have hparent : q ∈ s.parentOf node := (parentOf_eq hrow).trans hq
  exact (hc.1 q hparent).2 (s.subtreeWalk_subset_succ _ _ hm)

theorem integral_collapse {s s' : Store} {run : ℤ} {node : String} {row digest : NodeRow}
    {set : RetiredSet} {citations : List ℤ} (hs : s.Integral) (hrow : s.nodes.get? node = some row)
    (hc : s.CollapseAttaches node) (hdp : digest.parentId = row.parentId)
    (hdl : digest.live = true)
    (hcol : Collapsed run digest (s.subtreeWalk walkGuard [node]) s s' set citations) :
    s'.Integral := by
  have hdigest : s'.Live digest.id := (live_iff hcol.made).mpr hdl
  -- what is live and not in the branch stays
  have hlive : ∀ q, s.Live q → q ∉ s.subtreeWalk walkGuard [node] → s'.Live q := by
    intro q hq hm
    obtain ⟨a, ha, hal⟩ := nodeExists_iff.mp hq
    have hne : q ≠ digest.id := by
      rintro rfl
      rw [hcol.free] at ha
      cases ha
    have hget := hcol.nodes hne
    rw [ha, Option.map_some, if_neg fun hx => hm hx.1] at hget
    exact nodeExists_iff.mpr ⟨a, hget, hal⟩
  refine hung_of_get? ?_ ?_ ?_
  · intro id a q ha hal hq
    by_cases hid : id = digest.id
    · subst hid
      obtain rfl := Option.some.inj (hcol.made.symm.trans ha)
      obtain ⟨hql, hqm⟩ := hc.1 q (by rw [parentOf_eq hrow, ← hdp]; exact hq)
      exact hlive q hql hqm
    · rw [hcol.nodes hid] at ha
      obtain ⟨a₀, ha₀, rfl⟩ := Option.map_eq_some_iff.mp ha
      split_ifs at hal hq with hm
      · cases hal
      · refine hlive q (hs.parent ha₀ hal hq) fun hqm => ?_
        exact hm ⟨hc.2 q hqm id (mem_liveChildren.mpr ⟨a₀, ha₀, hq, hal⟩), hal⟩
  · intro l r hr hl
    cases hr₀ : s.links.get? l with
    | none =>
      obtain ⟨hn, -, -⟩ := hcol.newLinks hr₀ hr
      exact hn ▸ hdigest
    | some r₀ =>
      obtain rfl := Option.some.inj ((hcol.links hr₀).symm.trans hr)
      split_ifs at hl ⊢ with hm
      · cases hl
      · exact hlive _ (hs.link hr₀ hl) fun hx => hm ⟨hx, hl⟩
  · intro o r hr hl
    rw [hcol.observations] at hr
    obtain ⟨r₀, hr₀, rfl⟩ := Option.map_eq_some_iff.mp hr
    split_ifs at hl ⊢ with hm
    · cases hl
    · exact hlive _ (hs.observation hr₀ hl) fun hx => hm ⟨hx, hl⟩

/-- The target is live and listed once, and the parent it gets is live; or
else nothing live is put on it. -/
def MergeAttaches (s : Store) (target : String) (parent : Option String) (others : List String) :
    Prop :=
  if s.Live target ∧ target ∉ others then ∀ q ∈ parent, s.Live q
  else ∀ x ∈ others, s.Live x → (∀ c ∈ s.liveChildren x, c ∈ others) ∧
    ∀ l ∈ s.liveLinkRows x, x ≠ target ∧ s.HasEntry target l.item

theorem integral_merge {s s' : Store} {now run : ℤ} {p : ProposalRow} {target : String}
    {row : NodeRow} {others : List String} (hs : s.Integral)
    (hrow : s.nodes.get? target = some row) (hm : s.MergeAttaches target p.parentId others)
    (h : Absorbed run target others (s.mergeStart now target p) s') : s'.Integral := by
  obtain ⟨hlive, hparent⟩ := h.shape hrow
  obtain ⟨-, -, hlinks, hobs⟩ := s.sameLake_mergeStart now target p
  have hgone : (s.mergeStart now target p).gone others = s.gone others := by
    funext id
    rw [gone, gone, s.nodeExists_mergeStart]
  have hgone_iff : ∀ id, s.gone others id = true ↔ id ∈ others ∧ s.Live id := by
    simp [gone]
  -- what hangs on a node that is not absorbed hangs on it still
  have hstay : ∀ q, s.Live q → s.gone others q = false → s'.Live q := by
    intro q hq hg
    refine (hlive q).mpr ⟨hq, fun hx => ?_⟩
    rw [(hgone_iff q).mpr ⟨hx, hq⟩] at hg
    cases hg
  refine hung_of_get? ?_ ?_ ?_
  · intro id a q ha hal hq
    have hl' : s'.Live id := (live_iff ha).mpr hal
    obtain ⟨hl, hidm⟩ := (hlive id).mp hl'
    have hpar := hparent id hl'
    rw [parentOf_eq ha, hq] at hpar
    dsimp only at hpar
    obtain ⟨a₀, ha₀, hal₀⟩ := nodeExists_iff.mp hl
    -- the parent before what was absorbed is looked at
    obtain ⟨parent, hdef⟩ : ∃ parent, parent =
      if id = target then p.parentId.or row.parentId else s.parentOf id := ⟨_, rfl⟩
    rw [← hdef] at hpar
    by_cases hg : parent.any (s.gone others) = true
    · rw [if_pos hg] at hpar
      obtain rfl : q = target := Option.some.inj hpar
      by_cases ht : s.Live q ∧ q ∉ others
      · exact (hlive q).mpr ht
      · rw [MergeAttaches, if_neg ht] at hm
        have hid : id ≠ q := fun heq => ht (heq ▸ ⟨hl, hidm⟩)
        rw [if_neg hid, parentOf_eq ha₀] at hdef
        obtain ⟨x, hx, hxg⟩ : ∃ x, parent = some x ∧ s.gone others x = true := by
          cases parent with
          | none => cases hg
          | some x => exact ⟨x, rfl, hg⟩
        obtain ⟨hxm, hxl⟩ := (hgone_iff x).mp hxg
        have hchild := (hm x hxm hxl).1 id (mem_liveChildren.mpr ⟨a₀, ha₀, hdef ▸ hx, hal₀⟩)
        exact absurd hchild hidm
    · rw [if_neg hg] at hpar
      have hnot : s.gone others q = false := by
        rw [← hpar] at hg
        simpa using hg
      refine hstay q ?_ hnot
      by_cases hid : id = target
      · subst hid
        rw [MergeAttaches, if_pos ⟨hl, hidm⟩] at hm
        obtain rfl : a₀ = row := Option.some.inj (ha₀.symm.trans hrow)
        rw [if_pos rfl, ← hpar] at hdef
        cases hpp : p.parentId with
        | some q' =>
          rw [hpp, Option.some_or] at hdef
          exact hm q (hpp.trans hdef.symm)
        | none =>
          rw [hpp, Option.none_or] at hdef
          exact hs.parent ha₀ hal₀ hdef.symm
      · rw [if_neg hid, parentOf_eq ha₀, ← hpar] at hdef
        exact hs.parent ha₀ hal₀ hdef.symm
  · intro l r hr hl
    cases hr₀ : (s.mergeStart now target p).links.get? l with
    | none => simp [h.noLinks hr₀] at hr
    | some r₀ =>
      have hr₁ : s.links.get? l = some r₀ := hlinks ▸ hr₀
      rcases h.links hr₀ with ⟨hsame, hng⟩ | ⟨⟨hl₀, hg⟩, hmoved | hleft⟩
      · obtain rfl := Option.some.inj (hsame.symm.trans hr)
        refine hstay _ (hs.link hr₁ hl) (eq_false_of_ne_true fun hg => hng ⟨hl, ?_⟩)
        rw [hgone]
        exact hg
      · obtain rfl := Option.some.inj (hmoved.symm.trans hr)
        by_cases ht : s.Live target ∧ target ∉ others
        · exact (hlive target).mpr ht
        · -- the target has the entry, so the link has not moved there
          rw [MergeAttaches, if_neg ht] at hm
          rw [hgone, hgone_iff] at hg
          obtain ⟨hxt, l₂, r₂, hr₂, hd₂⟩ := (hm r₀.nodeId hg.1 hg.2).2 r₀
            (mem_liveLinkRows.mpr ⟨(Table.key_of_get? hr₁).symm ▸ hr₁, rfl, hl₀⟩)
          obtain ⟨hn₂, hi₂⟩ := Prod.mk.inj hd₂
          have hrow₂ : ∃ r₃, s'.links.get? l₂ = some r₃ ∧ r₃.dedup = (target, r₀.item) := by
            rcases h.links (hlinks ▸ hr₂ : (s.mergeStart now target p).links.get? l₂ = some r₂) with
              ⟨hs₂, -⟩ | ⟨-, hs₂ | hs₂⟩
            · exact ⟨_, hs₂, hd₂⟩
            · exact ⟨_, hs₂, by rw [LinkRow.dedup, ← hi₂]⟩
            · exact ⟨_, hs₂, hd₂⟩
          obtain ⟨r₃, hr₃, hd₃⟩ := hrow₂
          obtain ⟨rfl, -⟩ := eq_of_dedup hr₃ hr hd₃
          obtain rfl := Option.some.inj (hr₁.symm.trans hr₂)
          exact absurd hn₂ hxt
      · obtain rfl := Option.some.inj (hleft.symm.trans hr)
        cases hl
  · intro o r hr hl
    rw [h.observations, Option.map_eq_some_iff] at hr
    obtain ⟨r₀, hr₀, heq⟩ := hr
    split_ifs at heq with hx
    · rw [← heq] at hl
      cases hl
    · subst heq
      refine hstay _ (hs.observation (hobs ▸ hr₀) hl) (eq_false_of_ne_true fun hg => hx ⟨?_, hl⟩)
      rw [hgone]
      exact hg

end Store

open Store

/-- What the op hangs something on is live when it is applied. -/
def ProposalRow.Attaches (s : Store) (p : ProposalRow) : Prop :=
  match p.op with
  | .promote => s.Live (p.nodeId.getD "") → ∀ q ∈ p.parentId, s.Live q
  | .split => Extra.asParts p.extra ≠ [] → ∀ q ∈ s.parentOf (p.nodeId.getD ""), s.Live q
  | .collapse => s.CollapseAttaches (p.nodeId.getD "")
  | .merge =>
    match Extra.asIds p.extra with
    | [] => True
    | target :: others => s.MergeAttaches target p.parentId others
  | _ => True

/-- The same of the write of a run; a staged op is asked when it is staged. -/
def RunWrite.Attaches (s : Store) : RunWrite → Prop
  | .apply _ id _ => ∀ p ∈ s.proposals.get? id, p.Attaches s
  | _ => True

/-- A split into no parts changes no row. -/
theorem sameCatalog_applySplit {h : Host} {s s' : Store} {now run : ℤ} {actor detail : String}
    {p : ProposalRow} (hparts : Extra.asParts p.extra = [])
    (ha : s.applySplit h now run actor p = .ok (s', detail)) : SameCatalog s s' := by
  unfold applySplit at ha
  dsimp only at ha
  split at ha
  · cases ha
  · rw [hparts] at ha
    obtain ⟨⟨s₁, created⟩, hi, ha⟩ := bind_eq_ok.mp ha
    obtain ⟨s₂, hj, ha⟩ := bind_eq_ok.mp ha
    cases hi
    cases ha
    exact sameCatalog_journalOp hj

theorem integral_applyOp {h : Host} {s s' : Store} {now run : ℤ} {actor detail : String}
    {p : ProposalRow} (hs : s.Integral) (hp : p.Attaches s)
    (ha : s.applyOp h now run actor p = .ok (some (s', detail))) : s'.Integral := by
  unfold applyOp at ha
  unfold ProposalRow.Attaches at hp
  split at ha
  case h_1 hop =>
    rw [hop] at hp
    obtain ⟨r, hr, heq⟩ := map_eq_ok ha
    cases heq
    exact (integral_promote hs hp).congr (sameCatalog_journalOp (applyPromote_ok hr))
  case h_2 hop =>
    rw [hop] at hp
    have hc : s.CollapseAttaches (p.nodeId.getD "") := hp
    obtain ⟨r, hr, heq⟩ := map_eq_ok ha
    cases heq
    obtain ⟨row, hrow, hcol⟩ := applyCollapse_ok hr
    obtain ⟨digest, s₁, set, citations, subjects, hd, hcollapsed, hj⟩ := hcol hc.loopless
    refine (integral_collapse hs hrow hc ?_ ?_ hcollapsed).congr (sameCatalog_journalOp hj)
    · rw [hd]
      rfl
    · rw [hd]
      rfl
  case h_3 hop =>
    obtain ⟨target, others, row, s₁, m, subjects, hids, hrow, habs, -, -, -, -, hj⟩ := applyMerge_ok ha
    rw [hop, hids] at hp
    exact (integral_merge hs hrow hp habs).congr (sameCatalog_journalOp hj)
  case h_4 hop =>
    rw [hop] at hp
    obtain ⟨r, hr, heq⟩ := map_eq_ok ha
    cases heq
    by_cases hparts : Extra.asParts p.extra = []
    · exact hs.congr (sameCatalog_applySplit hparts hr)
    · obtain ⟨row, s₁, created, subjects, hrow, hsplit, hj⟩ := applySplit_ok hr
      exact (integral_split hs hrow (fun _ => hp hparts) hsplit).congr (sameCatalog_journalOp hj)
  case h_5 => exact hs.congr (sameCatalog_applySupersede ha)
  case h_6 => cases ha

/-- **A write of a run keeps the catalog sound** if what it hangs something on
is live. -/
theorem RunWrite.exec_integral {h : Host} {run : ℤ} {s : Store} {w : RunWrite} (hs : s.Integral)
    (hw : w.Attaches s) : (w.exec h run s).Integral := by
  cases w with
  | stage now p => exact committed_ind hs fun s' _ hp => integral_stage hs hp
  | observe now node summary citeSeqs actor =>
    exact committed_ind hs fun s' _ ho => integral_observe hs ho
  | compact now prompt gist gistSource actor =>
    refine committed_ind hs fun s' _ hc => ?_
    obtain ⟨⟨s₁, seq⟩, hc, hrest⟩ := bind_eq_ok.mp hc
    have hsame := (compactPromptBody_cold hc).2
    cases seq with
    | none =>
      cases hrest
      exact hs.congr hsame
    | some seq =>
      obtain ⟨s₂, hj, heq⟩ := bind_eq_ok.mp hrest
      cases heq
      exact (hs.congr hsame).congr (sameCatalog_journalOp hj)
  | apply now id actor =>
    change (s.applyClassProposalInRun h now id actor (some run)).1.Integral
    rcases applied_cases h s now id run actor with hsame | ⟨p, s₁, detail, hp, hop, hsame⟩
    · exact hs.congr hsame.toSameCatalog
    · exact (integral_applyOp hs (hw p hp) hop).congr hsame.toSameCatalog

end PolisMemory
