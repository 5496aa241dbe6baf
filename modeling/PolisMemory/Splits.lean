/-
# What a split makes of a class

A split is accepted if each of its parts lists three ids of the class's live links
or more (`adjudicateSplit`); ids that a part lists twice are counted twice, and so
are ids that two parts list. What is applied moves a link to the first part that
lists it, and moves it once.

So an accepted split deals the listed links out, leaves the others where they are
and loses none, and its parts are as large as they are to be if and only if each
lists three ids that no earlier part lists (`applySplit_partitions_iff`).

Key definitions: `Partitions`, `LargeApart`.
Key theorems: `moveListed_dealt`, `splitInto_parts`, `applySplit_partitions_iff`,
`repeatedLink_small`.
-/
import Mathlib.Data.List.Dedup
import PolisMemory.Shape
import PolisMemory.Sourcing

namespace PolisMemory

open Tables

namespace Store

/-- What a split of a node is to make of the links, under the new nodes of its
parts. -/
structure Partitions (s s' : Store) (node : String) (parts : List SplitPart)
    (created : List CreatedPart) : Prop where
  made : created.map CreatedPart.title = parts.map SplitPart.title
  new : ∀ id, (s.nodes.get? id = none ∧ s'.nodes.get? id ≠ none) ↔ id ∈ created.map CreatedPart.id
  once : (created.flatMap CreatedPart.linkIds).Nodup
  moved : ∀ c ∈ created, ∀ l, l ∈ s'.liveLinks c.id ↔ l ∈ c.linkIds
  large : ∀ c ∈ created, minPartLinks ≤ (s'.liveLinks c.id).length
  stays : ∀ l ∈ s.liveLinks node, (∀ part ∈ parts, l ∉ part.linkIds) → l ∈ s'.liveLinks node
  kept : ∀ l r, s.links.get? l = some r → r.live = true → ∃ r', s'.links.get? l = some r' ∧
    r'.live = true ∧ r'.targetKind = r.targetKind ∧ r'.targetId = r.targetId

/-- Each part lists enough ids that no part before it lists. -/
def LargeApart (parts : List SplitPart) : Prop :=
  ∀ (k : ℕ) (part : SplitPart), parts[k]? = some part → minPartLinks ≤
    (part.linkIds.dedup.filter fun l => l ∉ (parts.take k).flatMap SplitPart.linkIds).length

/-- The rows once some of a node's links were moved to a part. -/
def MovedRows (part : String) (moved : List ℤ) (s s' : Store) : Prop :=
  ∀ id, s'.links.get? id = (s.links.get? id).map fun r =>
    if id ∈ moved then { r with nodeId := part } else r

section moved

variable {node part : String} {s s₁ : Store} {moved : List ℤ} {l : ℤ}

/-- What is still the node's is what it had and is not moved. -/
theorem MovedRows.own_iff (hrows : MovedRows part moved s s₁) (hne : part ≠ node) :
    (s₁.links.get? l).any (fun r => r.nodeId = node && r.live) = true ↔
      l ∈ s.liveLinks node ∧ l ∉ moved := by
  rw [hrows, mem_liveLinks]
  cases hr : s.links.get? l with
  | none => simp
  | some r => by_cases hm : l ∈ moved <;> simp [hm, hne]

/-- One link more can be moved: none of the part's is of its item. -/
theorem MovedRows.reindex?_isSome (hrows : MovedRows part moved s s₁)
    (hfree : ∀ id r, s.links.get? id = some r → r.nodeId ≠ part)
    (hmoved : ∀ l ∈ moved, l ∈ s.liveLinks node) (hlive : l ∈ s.liveLinks node) (hout : l ∉ moved) :
    ∃ links, s₁.links.reindex? l (fun r => { r with nodeId := part }) = some links := by
  refine IndexedTable.reindex?_isSome fun r hr k r' hr' hindex => ?_
  obtain ⟨a, ha, rfl⟩ := Option.map_eq_some_iff.mp ((hrows l).symm.trans hr)
  obtain ⟨b, hb, rfl⟩ := Option.map_eq_some_iff.mp ((hrows k).symm.trans hr')
  rw [if_neg hout] at hindex
  by_cases hk : k ∈ moved
  · -- it was the node's with the same target, so it is the same link
    rw [if_pos hk] at hindex
    obtain ⟨hbn, -⟩ := (mem_liveLinks_of hb).mp (hmoved k hk)
    obtain ⟨han, -⟩ := (mem_liveLinks_of ha).mp hlive
    have htarget : (b.targetKind, b.targetId) = (a.targetKind, a.targetId) :=
      congrArg Prod.snd hindex
    have hdedup : b.dedup = a.dedup := by
      show (b.nodeId, b.targetKind, b.targetId) = (a.nodeId, a.targetKind, a.targetId)
      rw [hbn, han, htarget]
    have heq := s.links.eq_of_index hb ha hdedup
    rw [← Table.key_of_get? hb, ← Table.key_of_get? ha, heq]
  · rw [if_neg hk] at hindex
    exact absurd (congrArg Prod.fst hindex) (hfree k b hb)

/-- And it is then moved too. -/
theorem MovedRows.snoc {links : IndexedTable LinkRow.id LinkRow.dedup}
    (hrows : MovedRows part moved s s₁) (hout : l ∉ moved)
    (hre : s₁.links.reindex? l (fun r => { r with nodeId := part }) = some links) :
    MovedRows part (moved ++ [l]) s { s₁ with links := links } := by
  intro id
  show links.get? id = _
  rw [IndexedTable.get?_reindex? hre, hrows, Option.map_map]
  congr 1
  funext r
  by_cases hid : id = l
  · subst hid
    simp [hout]
  · by_cases hm : id ∈ moved <;> simp [hid, hm]

/-- What the part has then. -/
theorem MovedRows.mem_part (hrows : MovedRows part moved s s₁)
    (hfree : ∀ id r, s.links.get? id = some r → r.nodeId ≠ part)
    (hmoved : ∀ l ∈ moved, l ∈ s.liveLinks node) : l ∈ s₁.liveLinks part ↔ l ∈ moved := by
  rw [mem_liveLinks, hrows]
  constructor
  · rintro ⟨r', hr', hn, -⟩
    obtain ⟨r, hr, rfl⟩ := Option.map_eq_some_iff.mp hr'
    by_contra hm
    rw [if_neg hm] at hn
    exact hfree l r hr hn
  · intro hm
    obtain ⟨r, hr, -, hl⟩ := mem_liveLinks.mp (hmoved l hm)
    refine ⟨_, Option.map_eq_some_iff.mpr ⟨r, hr, rfl⟩, ?_, ?_⟩
    · rw [if_pos hm]
    · rw [if_pos hm]
      exact hl

/-- What the node has then. -/
theorem MovedRows.mem_rest (hrows : MovedRows part moved s s₁) (hne : part ≠ node) :
    l ∈ s₁.liveLinks node ↔ l ∈ s.liveLinks node ∧ l ∉ moved := by
  rw [← hrows.own_iff hne, mem_liveLinks, Option.any_eq_true]
  simp only [Bool.and_eq_true, decide_eq_true_eq]

end moved

/-- **A part takes each listed link of the node once**, where no link was the
part's before. -/
theorem moveListed_dealt {node part : String} {s : Store} (hne : part ≠ node)
    (hfree : ∀ id r, s.links.get? id = some r → r.nodeId ≠ part) :
    ∀ (ls : List ℤ) (s₁ : Store) (moved : List ℤ), MovedRows part moved s s₁ → moved.Nodup →
      (∀ l ∈ moved, l ∈ s.liveLinks node) →
      (moveListed node part ls s₁ moved).2.Nodup ∧ ∀ l, l ∈ (moveListed node part ls s₁ moved).2 ↔
        l ∈ moved ∨ l ∈ ls ∧ l ∈ s.liveLinks node
  | [], s₁, moved, _, hnodup, _ => ⟨hnodup, fun l => by simp [moveListed]⟩
  | l :: ls, s₁, moved, hrows, hnodup, hmoved => by
    have hown := hrows.own_iff (l := l) hne
    rw [moveListed]
    split
    · next hl =>
      obtain ⟨hlive, hout⟩ := hown.mp hl
      obtain ⟨links, hre⟩ := hrows.reindex?_isSome hfree hmoved hlive hout
      rw [hre]
      have hnodup' : (moved ++ [l]).Nodup := by
        rw [List.nodup_append]
        refine ⟨hnodup, List.nodup_singleton l, fun a ha b hb => ?_⟩
        rw [List.mem_singleton.mp hb]
        rintro rfl
        exact hout ha
      have hmoved' : ∀ l' ∈ moved ++ [l], l' ∈ s.liveLinks node := by
        intro l' hl'
        rcases List.mem_append.mp hl' with hl' | hl'
        · exact hmoved l' hl'
        · rw [List.mem_singleton.mp hl']
          exact hlive
      obtain ⟨hnd, hmem⟩ := moveListed_dealt hne hfree ls _ _ (hrows.snoc hout hre) hnodup' hmoved'
      refine ⟨hnd, fun l' => ?_⟩
      rw [hmem, List.mem_append, List.mem_singleton, List.mem_cons]
      constructor
      · rintro ((hl' | rfl) | ⟨hl', hlive'⟩)
        · exact .inl hl'
        · exact .inr ⟨.inl rfl, hlive⟩
        · exact .inr ⟨.inr hl', hlive'⟩
      · rintro (hl' | ⟨rfl | hl', hlive'⟩)
        · exact .inl (.inl hl')
        · exact .inl (.inr rfl)
        · exact .inr ⟨hl', hlive'⟩
    · next hl =>
      obtain ⟨hnd, hmem⟩ := moveListed_dealt hne hfree ls s₁ moved hrows hnodup hmoved
      refine ⟨hnd, fun l' => ?_⟩
      rw [hmem, List.mem_cons]
      constructor
      · rintro (hl' | ⟨hl', hlive⟩)
        · exact .inl hl'
        · exact .inr ⟨.inr hl', hlive⟩
      · rintro (hl' | ⟨rfl | hl', hlive⟩)
        · exact .inl hl'
        · exact .inl (by_contra fun hout => hl (hown.mpr ⟨hlive, hout⟩))
        · exact .inr ⟨hl', hlive⟩

/-- What is still on a node that is not one of the split. -/
theorem SplitBy.liveLinks_eq {h : Host} {now : ℤ} {actor node q : String} {parent : Option String}
    {s s' : Store} {new : List CreatedPart} (hs : SplitBy h now actor node parent s s' new)
    (hq : q ≠ node) (hnew : ∀ c ∈ new, c.id ≠ q) (l : ℤ) : l ∈ s'.liveLinks q ↔ l ∈ s.liveLinks q := by
  cases hr : s.links.get? l with
  | none => simp [mem_liveLinks, hr, hs.noNew hr]
  | some r =>
    rcases hs.links hr with hr' | ⟨c, hc, -, hn, -, hr'⟩
    · simp [mem_liveLinks, hr, hr']
    · have hne : r.nodeId ≠ q := fun heq => hq (heq.symm.trans hn)
      simp [mem_liveLinks, hr, hr', hnew c hc, hne]

/-- What the new node of a part takes: the links the part lists that none before it
does. -/
structure Dealt (s s' : Store) (node : String) (before : List ℤ) (part : SplitPart)
    (c : CreatedPart) : Prop where
  nodup : c.linkIds.Nodup
  live : ∀ l, l ∈ s'.liveLinks c.id ↔ l ∈ c.linkIds
  links : ∀ l, l ∈ c.linkIds ↔ l ∈ part.linkIds ∧ l ∈ s.liveLinks node ∧ l ∉ before

/-- How many links the new node has, where the part lists live links of the node. -/
theorem Dealt.length {s s' : Store} {node : String} {before : List ℤ} {part : SplitPart}
    {c : CreatedPart} (hd : Dealt s s' node before part c)
    (hown : ∀ l ∈ part.linkIds, l ∈ s.liveLinks node) :
    (s'.liveLinks c.id).length = (part.linkIds.dedup.filter fun l => l ∉ before).length := by
  apply List.Perm.length_eq
  rw [List.perm_ext_iff_of_nodup (liveLinks_nodup s' c.id) ((List.nodup_dedup _).filter _)]
  intro l
  rw [hd.live, hd.links, List.mem_filter, List.mem_dedup, decide_eq_true_eq]
  constructor
  · exact fun ⟨hl, _, hout⟩ => ⟨hl, hout⟩
  · exact fun ⟨hl, hout⟩ => ⟨hl, hown l hl, hout⟩

/-- What the parts of a split take: each the links it lists that no part before
it does. -/
theorem splitInto_parts {h : Host} {now : ℤ} {actor node : String} {parent : Option String} :
    ∀ {parts : List SplitPart} {s s' : Store} {created created' : List CreatedPart},
      s.nodes.get? node ≠ none →
      (∀ l r, s.links.get? l = some r → ∀ k, s.minted ≤ k → r.nodeId ≠ h.newNodeId k) →
      splitInto h now actor node parent parts s created = .ok (s', created') →
      ∃ new, created' = created ++ new ∧ SplitBy h now actor node parent s s' new ∧
        new.map CreatedPart.title = parts.map SplitPart.title ∧
        (∀ l, l ∈ s'.liveLinks node ↔ l ∈ s.liveLinks node ∧ ∀ part ∈ parts, l ∉ part.linkIds) ∧
        ∀ (k : ℕ) (part : SplitPart), parts[k]? = some part → ∃ c, new[k]? = some c ∧
          Dealt s s' node ((parts.take k).flatMap SplitPart.linkIds) part c
  | [], s, s', created, created', _, _, hs => by
    cases hs
    exact ⟨[], (List.append_nil created).symm, .refl h now actor node parent s, rfl, by simp, by simp⟩
  | part :: parts, s, s', created, created', hnode, hfresh, hs => by
    rw [splitInto] at hs
    obtain ⟨⟨s₁, id⟩, hi, hs⟩ := bind_eq_ok.mp hs
    obtain ⟨hid, nodes, hins, rfl⟩ := insertNode_ok hi
    have hne : id ≠ node := by
      rintro rfl
      exact hnode (Table.insert?_eq_some.mp hins).1
    have hfree : ∀ l r, s.links.get? l = some r → r.nodeId ≠ id := by
      intro l r hr
      rw [hid]
      exact hfresh l r hr s.minted le_rfl
    dsimp only at hs
    obtain ⟨s₂, moved, heq, hlisted⟩ :=
      moveListed_eq hne part.linkIds { s with nodes := nodes, minted := s.minted + 1 } []
    rw [heq, List.nil_append] at hs
    have hdealt := moveListed_dealt hne hfree part.linkIds
      { s with nodes := nodes, minted := s.minted + 1 } [] (fun k => by simp) List.nodup_nil (by simp)
    rw [heq, List.nil_append] at hdealt
    simp only [List.not_mem_nil, false_or] at hdealt
    obtain ⟨hnodup, hmem⟩ := hdealt
    have hone : SplitBy h now actor node parent s s₂ [⟨id, part.title, moved⟩] := by
      have hrun : splitInto h now actor node parent [part] s [] =
          .ok (s₂, [⟨id, part.title, moved⟩]) := by
        rw [splitInto]
        refine bind_eq_ok.mpr ⟨_, hi, ?_⟩
        dsimp only
        rw [heq, List.nil_append]
        rfl
      obtain ⟨new, hnew, hsplit⟩ := splitInto_ok hnode hrun
      rw [List.nil_append] at hnew
      exact hnew ▸ hsplit
    have hrows : MovedRows id moved s s₂ := hlisted.rows
    -- what the part and the node have now
    have hpart : ∀ l, l ∈ s₂.liveLinks id ↔ l ∈ moved := fun l =>
      hrows.mem_part hfree fun l hm => ((hmem l).mp hm).2
    have hrest : ∀ l, l ∈ s₂.liveLinks node ↔ l ∈ s.liveLinks node ∧ l ∉ part.linkIds := by
      intro l
      rw [hrows.mem_rest hne, hmem]
      tauto
    have hfresh₂ : ∀ l r, s₂.links.get? l = some r → ∀ k, s₂.minted ≤ k →
        r.nodeId ≠ h.newNodeId k := by
      intro l r' hr' k hk
      have hminted : s₂.minted = s.minted + 1 := hlisted.minted
      obtain ⟨r, hr, rfl⟩ := Option.map_eq_some_iff.mp ((hrows l).symm.trans hr')
      by_cases hm : l ∈ moved
      · rw [if_pos hm]
        show id ≠ h.newNodeId k
        intro heq
        have := h.newNodeId_injective (hid.symm.trans heq)
        omega
      · rw [if_neg hm]
        exact hfresh l r hr k (by omega)
    obtain ⟨a, ha⟩ := Option.ne_none_iff_exists'.mp hnode
    have hnode₂ : s₂.nodes.get? node ≠ none := by simp [hone.oldNodes ha]
    obtain ⟨new, rfl, hsplit, htitles, hleft, hparts⟩ := splitInto_parts hnode₂ hfresh₂ hs
    have hlater : ∀ c ∈ new, c.id ≠ id := by
      rintro c hc rfl
      exact hone.made _ (List.mem_singleton_self _) (hsplit.fresh c hc).1
    refine ⟨⟨id, part.title, moved⟩ :: new, by simp, hone.trans hnode hsplit, ?_, fun l => ?_, ?_⟩
    · rw [List.map_cons, List.map_cons, htitles]
    · rw [hleft, hrest, List.forall_mem_cons, and_assoc]
    · intro k p hp
      cases k with
      | zero =>
        obtain rfl := Option.some.inj hp
        refine ⟨_, rfl, ⟨hnodup, fun l => ?_, fun l => ?_⟩⟩
        · rw [hsplit.liveLinks_eq hne hlater, hpart]
        · rw [hmem]
          simp only [List.take_zero, List.flatMap_nil, List.not_mem_nil, not_false_eq_true, and_true]
      | succ k =>
        obtain ⟨c, hc, hdealt⟩ := hparts k p hp
        refine ⟨c, hc, ⟨hdealt.nodup, hdealt.live, fun l => ?_⟩⟩
        rw [hdealt.links, hrest, List.take_succ_cons, List.flatMap_cons, List.mem_append, not_or, and_assoc]

/-! ### An accepted split -/

/-- What an accepted split's parts list are live links of the node. -/
theorem badPart?_eq_none {node : String} {own : List ℤ} : ∀ {parts : List SplitPart},
    badPart? node own parts = none → ∀ part ∈ parts, ∀ l ∈ part.linkIds, l ∈ own
  | [], _, part, hpart => absurd hpart List.not_mem_nil
  | p :: parts, h, part, hpart => by
    unfold badPart? at h
    split at h
    · cases h
    · split at h
      · cases h
      · next hnone =>
        rcases List.mem_cons.mp hpart with rfl | hpart
        · intro l hl
          simpa using List.find?_eq_none.mp hnone l hl
        · exact badPart?_eq_none h part hpart

theorem adjudicateSplit_apply {s : Store} {p : ProposalRow} (h : adjudicateSplit s p = .apply) :
    ∀ part ∈ Extra.asParts p.extra, ∀ l ∈ part.linkIds, l ∈ s.liveLinks (p.nodeId.getD "") := by
  unfold adjudicateSplit at h
  split at h
  · cases h
  · next node hnode =>
    rw [hnode]
    split at h
    · cases h
    · split at h
      · cases h
      · next hnone => exact badPart?_eq_none hnone

theorem applySplit_split {h : Host} {s s' : Store} {now run : ℤ} {actor detail : String}
    {p : ProposalRow} (ha : s.applySplit h now run actor p = .ok (s', detail)) :
    ∃ row s₁ created, s.nodes.get? (p.nodeId.getD "") = some row ∧
      splitInto h now actor (p.nodeId.getD "") row.parentId (Extra.asParts p.extra) s [] =
        .ok (s₁, created) ∧ SameCatalog s₁ s' := by
  unfold applySplit at ha
  dsimp only at ha
  split at ha
  · cases ha
  rename_i row hrow
  obtain ⟨⟨s₁, created⟩, hi, ha⟩ := bind_eq_ok.mp ha
  obtain ⟨s₂, hj, hs⟩ := bind_eq_ok.mp ha
  cases hs
  exact ⟨row, s₁, created, hrow, hi, sameCatalog_journalOp hj⟩

theorem liveLinks_congr {s s' : Store} (h : SameCatalog s s') (q : String) :
    s'.liveLinks q = s.liveLinks q := by
  unfold liveLinks
  rw [h.links]

theorem Partitions.congr {s₁ s₁' s₂ s₂' : Store} {node : String} {parts : List SplitPart}
    {created : List CreatedPart} (h : SameCatalog s₁ s₁') (h' : SameCatalog s₂ s₂')
    (hp : Partitions s₁ s₂ node parts created) : Partitions s₁' s₂' node parts created where
  made := hp.made
  new id := by rw [h.nodes, h'.nodes]; exact hp.new id
  once := hp.once
  moved c hc l := by rw [liveLinks_congr h']; exact hp.moved c hc l
  large c hc := by rw [liveLinks_congr h']; exact hp.large c hc
  stays l hl := by
    rw [liveLinks_congr h] at hl
    rw [liveLinks_congr h']
    exact hp.stays l hl
  kept l r hr := by
    rw [h.links] at hr
    rw [h'.links]
    exact hp.kept l r hr

/-- The split of a node whose parts list its live links. -/
theorem splitInto_partitions_iff {h : Host} {now : ℤ} {actor node : String}
    {parent : Option String} {parts : List SplitPart} {s s' : Store} {created : List CreatedPart}
    (hnode : s.nodes.get? node ≠ none)
    (hfresh : ∀ l r, s.links.get? l = some r → ∀ k, s.minted ≤ k → r.nodeId ≠ h.newNodeId k)
    (hown : ∀ part ∈ parts, ∀ l ∈ part.linkIds, l ∈ s.liveLinks node)
    (hs : splitInto h now actor node parent parts s [] = .ok (s', created)) :
    (∃ created, Partitions s s' node parts created) ↔ LargeApart parts := by
  obtain ⟨new, hnew, hsplit, htitles, hleft, hparts⟩ := splitInto_parts hnode hfresh hs
  rw [List.nil_append] at hnew
  subst hnew
  have hids : ∀ id, (s.nodes.get? id = none ∧ s'.nodes.get? id ≠ none) ↔
      id ∈ created.map CreatedPart.id := by
    intro id
    rw [List.mem_map]
    constructor
    · rintro ⟨hn, hb⟩
      obtain ⟨b, hb⟩ := Option.ne_none_iff_exists'.mp hb
      obtain ⟨c, hc, hid, -⟩ := hsplit.newNodes hn hb
      exact ⟨c, hc, hid⟩
    · rintro ⟨c, hc, rfl⟩
      exact ⟨(hsplit.fresh c hc).1, hsplit.made c hc⟩
  have hlisted : ∀ {k : ℕ} {part : SplitPart}, parts[k]? = some part →
      ∀ l ∈ part.linkIds, l ∈ s.liveLinks node := fun hpart =>
    hown _ (List.mem_of_getElem? hpart)
  constructor
  · rintro ⟨created', hp⟩ k part hpart
    obtain ⟨c, hc, hdealt⟩ := hparts k part hpart
    have hid := (hids c.id).mpr (List.mem_map_of_mem (List.mem_of_getElem? hc))
    obtain ⟨c', hc', hid'⟩ := List.mem_map.mp ((hp.new c.id).mp hid)
    have hlarge := hp.large c' hc'
    rw [hid', hdealt.length (hlisted hpart)] at hlarge
    exact hlarge
  · intro hlarge
    have hlen : created.length = parts.length := by
      simpa using congrArg List.length htitles
    -- each part that was made is one of those listed
    have hback : ∀ (k : ℕ) (c : CreatedPart), created[k]? = some c → ∃ part, parts[k]? = some part ∧
        Dealt s s' node ((parts.take k).flatMap SplitPart.linkIds) part c := by
      intro k c hc
      obtain ⟨hk, -⟩ := List.getElem?_eq_some_iff.mp hc
      have hpart : parts[k]? = some (parts.get ⟨k, by omega⟩) := List.getElem?_eq_getElem _
      obtain ⟨c', hc', hdealt⟩ := hparts k _ hpart
      obtain rfl := Option.some.inj (hc.symm.trans hc')
      exact ⟨_, hpart, hdealt⟩
    have hmade : ∀ c ∈ created, ∃ k part, parts[k]? = some part ∧
        Dealt s s' node ((parts.take k).flatMap SplitPart.linkIds) part c := by
      intro c hc
      obtain ⟨k, hk⟩ := List.mem_iff_getElem?.mp hc
      exact ⟨k, hback k c hk⟩
    refine ⟨created, ⟨htitles, hids, ?_, fun c hc l => ?_, fun c hc => ?_, fun l hl hout => ?_,
      fun l r hr hlive => ?_⟩⟩
    · rw [List.nodup_flatMap]
      constructor
      · intro c hc
        obtain ⟨k, part, -, hdealt⟩ := hmade c hc
        exact hdealt.nodup
      · rw [List.pairwise_iff_getElem]
        intro i j hi hj hij l hl hl'
        obtain ⟨p, hp, hdealt⟩ := hback i _ (List.getElem?_eq_getElem hi)
        obtain ⟨q, -, hdealt'⟩ := hback j _ (List.getElem?_eq_getElem hj)
        apply ((hdealt'.links l).mp hl').2.2
        have hp' : p ∈ parts.take j := by
          apply List.mem_of_getElem? (i := i)
          rw [List.getElem?_take_of_lt hij, hp]
        exact List.mem_flatMap.mpr ⟨p, hp', ((hdealt.links l).mp hl).1⟩
    · obtain ⟨k, part, -, hdealt⟩ := hmade c hc
      exact hdealt.live l
    · obtain ⟨k, part, hpart, hdealt⟩ := hmade c hc
      rw [hdealt.length (hlisted hpart)]
      exact hlarge k part hpart
    · exact (hleft l).mpr ⟨hl, hout⟩
    · rcases hsplit.links hr with hr' | ⟨c, -, -, -, -, hr'⟩
      · exact ⟨r, hr', hlive, rfl, rfl⟩
      · exact ⟨_, hr', hlive, rfl, rfl⟩

/-- **A split deals the links out** as it is to, where it is accepted, if and only
if each part lists enough links that no part before it lists. No link is of a node
whose id is still to be drawn. -/
theorem applySplit_partitions_iff {h : Host} {u : Unicode} {alike : String → String → Bool}
    {f : Facts} {s s' : Store} {now id : ℤ} {actor : String} {run : Option ℤ} {p : ProposalRow}
    {a : AppliedReorg}
    (hfresh : ∀ l r, s.links.get? l = some r → ∀ k, s.minted ≤ k → r.nodeId ≠ h.newNodeId k)
    (hp : s.proposals.get? id = some p) (hop : p.op = .split)
    (hadj : adjudicateStructural u alike s f p = .apply)
    (ha : s.applyClassProposalInRun h now id actor run = (s', .ok (some a))) :
    (∃ created, Partitions s s' (p.nodeId.getD "") (Extra.asParts p.extra) created) ↔
      LargeApart (Extra.asParts p.extra) := by
  obtain ⟨s₀, run', s₁, detail, hsame, happ, hsame'⟩ := applied_op hp ha
  rw [applyOp, hop] at happ
  obtain ⟨⟨s₂, detail'⟩, hsplit, heq⟩ := map_eq_ok happ
  cases heq
  obtain ⟨row, s₃, created, hrow, hinto, hend⟩ := applySplit_split hsplit
  have hadj : adjudicateSplit s p = .apply := by
    unfold adjudicateStructural at hadj
    rw [hop] at hadj
    exact hadj
  have hown := adjudicateSplit_apply hadj
  have hcat := hsame.toSameCatalog
  have hcat' := hend.trans hsame'.toSameCatalog
  rw [← splitInto_partitions_iff (s := s₀) (by rw [hrow]; exact Option.some_ne_none row)
    (by rw [hcat.links, hcat.minted]; exact hfresh)
    (fun part hpart l hl => by rw [liveLinks_congr hcat]; exact hown part hpart l hl) hinto]
  constructor
  · rintro ⟨created, hc⟩
    exact ⟨created, hc.congr hcat (SameCatalog.symm hcat')⟩
  · rintro ⟨created, hc⟩
    exact ⟨created, hc.congr (SameCatalog.symm hcat) hcat'⟩

end Store

open Store

/-- A class with six links and a run that stages a split of it. -/
def stagedSplit (parts : List SplitPart) : Store :=
  let s : Store := { Store.empty with
    nodes := ⟨[classRow none "repo" "r", classRow (some "r") "auth" "b"], nodup_classRows⟩
    links := ⟨⟨⟨[⟨1, "b", "session", "a", none, 0, none, none⟩, ⟨2, "b", "session", "b", none, 0, none, none⟩,
      ⟨3, "b", "session", "c", none, 0, none, none⟩, ⟨4, "b", "session", "d", none, 0, none, none⟩,
      ⟨5, "b", "session", "e", none, 0, none, none⟩, ⟨6, "b", "session", "f", none, 0, none, none⟩],
      by decide⟩, 6, by decide⟩, by decide⟩ }
  match (s.insertClassRunWith 1 .organize none none).1.stageProposal Host.plain 2 (some 1)
      (.split "b" parts none) with
  | .ok (s, _) => s
  | .error _ => s

/-- The split applied. -/
def splitStaged (parts : List SplitPart) : Store × Except DbError (Option AppliedReorg) :=
  (stagedSplit parts).applyClassProposalInRun Host.plain 3 1 classifierActor (some 1)

/-- The proposal that was staged. -/
def splitRow (parts : List SplitPart) : ProposalRow :=
  ⟨1, some 1, .split, some "b", none, none, none, some (.parts parts), none, .proposed,
    2, 0, none, some proposalTtlLakeMs, none⟩

/-- Two parts with three links each. -/
def halves : List SplitPart := [⟨"keys", [1, 2, 3]⟩, ⟨"tokens", [4, 5, 6]⟩]

/-- Two parts of which the first lists one link three times. -/
def repeatedLink : List SplitPart := [⟨"keys", [1, 1, 1]⟩, ⟨"tokens", [2, 3, 4]⟩]

theorem stagedSplit_fresh {parts : List SplitPart}
    (hrows : ∀ r ∈ (stagedSplit parts).links.rows, r.nodeId = "b") :
    ∀ l r, (stagedSplit parts).links.get? l = some r → ∀ k, (stagedSplit parts).minted ≤ k →
      r.nodeId ≠ Host.plain.newNodeId k := by
  intro l r hr k _
  rw [hrows r (Tables.Table.get?_eq_some.mp hr).1]
  exact (Host.plain.newNodeId_ne k (by decide)).symm

theorem halves_partitioned :
    ∃ created, Partitions (stagedSplit halves) (splitStaged halves).1 "b" halves created := by
  have hlarge : LargeApart halves := by
    intro k part hpart
    match k with
    | 0 =>
      obtain rfl := Option.some.inj hpart
      decide
    | 1 =>
      obtain rfl := Option.some.inj hpart
      decide
    | k + 2 => cases hpart
  have hadj : adjudicateStructural Unicode.ascii (fun _ _ => false) (stagedSplit halves)
      (Facts.load (stagedSplit halves)) (splitRow halves) = .apply := by decide +kernel
  have hp : (stagedSplit halves).proposals.get? 1 = some (splitRow halves) := by decide +kernel
  have hrows : ∀ r ∈ (stagedSplit halves).links.rows, r.nodeId = "b" := by decide +kernel
  have ha : (splitStaged halves).2 = .ok (some ⟨.split, "b", "split into 2"⟩) := by decide +kernel
  have happlied : splitStaged halves =
      ((splitStaged halves).1, .ok (some ⟨.split, "b", "split into 2"⟩)) := Prod.ext rfl ha
  exact (applySplit_partitions_iff (stagedSplit_fresh hrows) hp rfl hadj happlied).mpr hlarge

/-- A part that lists one link three times is accepted, and gets one link. -/
theorem repeatedLink_small : ¬ ∀ (h : Host) (u : Unicode) (alike : String → String → Bool)
    (s s' : Store) (now id : ℤ) (actor : String) (run : Option ℤ) (p : ProposalRow)
    (a : AppliedReorg),
    (∀ l r, s.links.get? l = some r → ∀ k, s.minted ≤ k → r.nodeId ≠ h.newNodeId k) →
    s.proposals.get? id = some p → p.op = .split →
    adjudicateStructural u alike s (Facts.load s) p = .apply →
    s.applyClassProposalInRun h now id actor run = (s', .ok (some a)) →
    ∃ created, Partitions s s' (p.nodeId.getD "") (Extra.asParts p.extra) created := by
  intro hall
  have hadj : adjudicateStructural Unicode.ascii (fun _ _ => false) (stagedSplit repeatedLink)
      (Facts.load (stagedSplit repeatedLink)) (splitRow repeatedLink) = .apply := by decide +kernel
  have ha : (splitStaged repeatedLink).2 = .ok (some ⟨.split, "b", "split into 2"⟩) := by
    decide +kernel
  have hp : (stagedSplit repeatedLink).proposals.get? 1 = some (splitRow repeatedLink) := by
    decide +kernel
  have hrows : ∀ r ∈ (stagedSplit repeatedLink).links.rows, r.nodeId = "b" := by decide +kernel
  obtain ⟨created, hc⟩ := hall Host.plain Unicode.ascii (fun _ _ => false)
    (stagedSplit repeatedLink) (splitStaged repeatedLink).1 3 1 classifierActor (some 1)
    (splitRow repeatedLink) ⟨.split, "b", "split into 2"⟩ (stagedSplit_fresh hrows) hp rfl hadj
    (Prod.ext rfl ha)
  have hnew : (stagedSplit repeatedLink).nodes.get? (Host.plain.newNodeId 0) = none ∧
      (splitStaged repeatedLink).1.nodes.get? (Host.plain.newNodeId 0) ≠ none :=
    ⟨by decide +kernel, by decide +kernel⟩
  obtain ⟨c, hmem, hid⟩ := List.mem_map.mp ((hc.new _).mp hnew)
  have hone : (splitStaged repeatedLink).1.liveLinks (Host.plain.newNodeId 0) = [1] := by
    decide +kernel
  have hlarge := hc.large c hmem
  rw [hid, hone] at hlarge
  exact absurd hlarge (by decide)

end PolisMemory
