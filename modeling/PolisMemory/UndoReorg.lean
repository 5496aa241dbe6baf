/-
# Undoing the ops that move a branch

The inverses of `collapse`, `split` and `merge`. A collapse is undone unless
the walk of the branch meets the digest itself, which then comes back as one
of the branch. A split is always undone. A merge puts the links, then the
children back one after the other; each goes where it came from if the image
names each with the node it was on before the merge.

A link that is put back can only collide with a link that is on its home too,
or with one that is still astray; the first the unique index of the old table
excludes, the second that astray links sit where no home is (`Astray`).

Key definitions: `Astray`, `Homing`.
Key theorems: `undoes_collapse`, `undoes_split`, `undoes_merge`.
-/
import PolisMemory.Undo

namespace PolisMemory

open Tables Store

/-! ### Clearing marks -/

theorem get?_unretire_nodes {t : Store} {run : ℤ} {set : RetiredSet} {id : String} :
    (t.unretire run set).nodes.get? id = (t.nodes.get? id).map fun n =>
      if id ∈ set.nodes ∧ n.retiredByRun = some run then
        { n with retiredByRun := none, retiredInto := none } else n := by
  rw [unretire, Table.get?_update]
  cases hn : t.nodes.get? id with
  | none => rfl
  | some n => simp [Table.key_of_get? hn]

theorem get?_unretire_links {t : Store} {run : ℤ} {set : RetiredSet} {id : ℤ} :
    (t.unretire run set).links.get? id = (t.links.get? id).map fun l =>
      if id ∈ set.links ∧ l.retiredByRun = some run then { l with retiredByRun := none } else l := by
  simp only [unretire, IndexedTable.toAutoTable_update, AutoTable.toTable_update, Table.get?_update]
  cases hl : t.links.get? id with
  | none => rfl
  | some l => simp [Table.key_of_get? hl]

theorem get?_unretire_observations {t : Store} {run : ℤ} {set : RetiredSet} {id : ℤ} :
    (t.unretire run set).observations.get? id = (t.observations.get? id).map fun o =>
      if id ∈ set.observations ∧ o.retiredByRun = some run then { o with retiredByRun := none }
      else o := by
  simp only [unretire, AutoTable.toTable_update, Table.get?_update]
  cases ho : t.observations.get? id with
  | none => rfl
  | some o => simp [Table.key_of_get? ho]

/-- The mark of a retired row cleared again. -/
theorem NodeLike.unretire {run : ℤ} {a b : NodeRow} {into : Option String} (hlive : a.live = true)
    (hinto : a.retiredInto = none) (hl : NodeLike run (a.retire run into) b) :
    NodeLike run a (if b.retiredByRun = some run then
      { b with retiredByRun := none, retiredInto := none } else b) := by
  obtain ⟨hface, hmarks⟩ := hl
  have hret : a.retiredByRun = none := by simpa [NodeRow.live] using hlive
  have hm : a.marks = (none, none) := by rw [NodeRow.marks, hret, hinto]
  split_ifs with hb
  · exact ⟨hface, .inl hm.symm⟩
  · refine ⟨hface, .inl ?_⟩
    rcases hmarks with h | ⟨-, h⟩
    · exact absurd (congrArg Prod.fst h) hb
    · rw [h, hm]

/-- A row that was not marked here: at most a mark of the run is cleared. -/
theorem NodeLike.unretire_same {run : ℤ} {a b : NodeRow} (hl : NodeLike run a b) :
    NodeLike run a (if b.retiredByRun = some run then
      { b with retiredByRun := none, retiredInto := none } else b) := by
  obtain ⟨hface, hmarks⟩ := hl
  split_ifs with hb
  · refine ⟨hface, .inr ⟨?_, rfl⟩⟩
    rcases hmarks with h | ⟨h, -⟩
    · rw [← hb]
      exact (congrArg Prod.fst h).symm
    · exact h
  · exact ⟨hface, hmarks⟩

/-! ### Collapse -/

section

variable {h : Host} {run : ℤ} {s : Store}

/-- **Undoing a collapse**: the digest and its citations are retired, the
branch comes back. -/
theorem undoes_collapse {s' : Store} {digest : NodeRow} {ids : List String} {citations : List ℤ}
    {set : RetiredSet} (node : String)
    (hlive : ∀ {id a}, s.nodes.get? id = some a → a.live = true → a.retiredInto = none)
    (hcol : Collapsed run digest ids s s' set citations) :
    Undoes h run (.collapse node digest.id set citations) s s' := by
  intro t now byRun hc
  have hdig := hcol.digest_notMem
  refine ⟨_, rfl, ?_⟩
  constructor
  case nodes =>
    intro id a ha
    have hne : id ≠ digest.id := by
      rintro rfl
      rw [hcol.free] at ha
      cases ha
    have h3 := hcol.nodes hne
    rw [ha, Option.map_some] at h3
    obtain ⟨b, hb, hl⟩ := hc.nodes h3
    rw [get?_unretire_nodes]
    change ∃ b, (((t.retireMade byRun digest.id).nodes.get? id).map _) = some b ∧ _
    rw [get?_retireMade_of_ne hne, hb, Option.map_some]
    refine ⟨_, rfl, ?_⟩
    rw [hcol.setNodes]
    by_cases hid : id ∈ ids
    · simp only [hid, true_and] at hl ⊢
      by_cases hal : a.live = true
      · rw [if_pos hal] at hl
        exact hl.unretire hal (hlive ha hal)
      · rw [if_neg hal] at hl
        exact hl.unretire_same
    · simpa [hid] using hl
  case newNodes =>
    intro id b hn hb
    rw [get?_unretire_nodes] at hb
    obtain ⟨b', hb', rfl⟩ := Option.map_eq_some_iff.mp hb
    change (t.retireMade byRun digest.id).nodes.get? id = some b' at hb'
    have hid : id ∉ set.nodes := by
      rw [hcol.setNodes]
      exact fun hm => hcol.known id hm hn
    rw [if_neg (fun h => hid h.1)]
    by_contra hal
    obtain ⟨hne, hb'⟩ := of_get?_retireMade hb' (by simpa using hal)
    have hn' : s'.nodes.get? id = none := by rw [hcol.nodes hne, hn, Option.map_none]
    exact hal (hc.newNodes hn' hb')
  case links =>
    intro id a ha
    have hb := hc.links (hcol.links ha)
    have hcit : id ∉ citations := fun hm => by
      rw [hcol.citations id hm] at ha
      cases ha
    have hset := hcol.setLinks ha
    obtain rfl := Table.key_of_get? ha
    rw [get?_unretire_links]
    simp only [IndexedTable.toAutoTable_update, AutoTable.toTable_update, Table.get?_update]
    change (((t.links.get? a.id).map _).map _) = _
    rw [hb]
    by_cases hm : a.nodeId ∈ ids ∧ a.live = true
    · have hr : a.retiredByRun = none := by simpa [LinkRow.live] using hm.2
      simp [hm, hset, hcit, LinkRow.retire, ← hr]
    · simp [hm, hset, hcit]
  case newLinks =>
    intro id b hn hb
    rw [get?_unretire_links] at hb
    obtain ⟨b', hb', rfl⟩ := Option.map_eq_some_iff.mp hb
    simp only [IndexedTable.toAutoTable_update, AutoTable.toTable_update, Table.get?_update] at hb'
    change (t.links.get? id).map _ = some b' at hb'
    obtain ⟨c, hct, rfl⟩ := Option.map_eq_some_iff.mp hb'
    have hcid := Table.key_of_get? hct
    rw [if_neg fun hm => hcol.noSetLinks hn hm.1]
    cases h' : s'.links.get? id with
    | none =>
      obtain ⟨h1, h2⟩ := hc.newLinks h' hct
      have h3 : s.nodes.get? c.nodeId = none := by
        by_cases hne : c.nodeId = digest.id
        · rw [hne, hcol.free]
        · rwa [hcol.nodes hne, Option.map_eq_none_iff] at h2
      split_ifs
      · exact ⟨rfl, h3⟩
      · exact ⟨h1, h3⟩
    | some c' =>
      -- a citation, on the digest
      obtain rfl : c = c' := Option.some.inj (hct.symm.trans (hc.links h'))
      obtain ⟨h1, h2, h3⟩ := hcol.newLinks hn h'
      rw [if_pos (by simp [hcid, h3, h2])]
      exact ⟨rfl, by rw [show _ = digest.id from h1, hcol.free]⟩
  case observations =>
    intro id a ha
    have h3 := hcol.observations id
    rw [ha, Option.map_some] at h3
    have hb := hc.observations h3
    have hset := hcol.setObservations ha
    rw [get?_unretire_observations]
    change (t.observations.get? id).map _ = _
    rw [hb, Option.map_some]
    by_cases hm : a.nodeId ∈ ids ∧ a.live = true
    · have hr : a.retiredByRun = none := by simpa [ObservationRow.live] using hm.2
      simp [hm, hset, ObservationRow.retire, ← hr]
    · simp [hm, hset]
  case newObservations =>
    intro id b hn hb
    rw [get?_unretire_observations] at hb
    obtain ⟨b', hb', rfl⟩ := Option.map_eq_some_iff.mp hb
    rw [if_neg fun hm => hcol.noSetObservations hn hm.1]
    have hn' : s'.observations.get? id = none := by rw [hcol.observations, hn, Option.map_none]
    exact hc.newObservations hn' hb'
  case supersessions =>
    intro seq
    rw [← hcol.lake.supersessions]
    exact hc.supersessions seq
  case prompts =>
    intro id
    rw [← hcol.lake.prompts]
    exact hc.prompts id
  case archive =>
    intro id
    rw [← hcol.lake.archive]
    exact hc.archive id
  case forgotten =>
    rw [← hcol.lake.forgottenSources]
    exact hc.forgotten

end

/-! ### Putting links back -/

/-- `L` has the rows of `R`, each on its home or, if its home is none of the
nodes `W`, on one of those; a row beyond `R` is on no node of `P`. -/
structure Astray (R L : IndexedTable LinkRow.id LinkRow.dedup) (W P : String → Prop) : Prop where
  rows : ∀ {id a}, R.get? id = some a → ∃ b, L.get? id = some b ∧ b.targetKind = a.targetKind ∧
    b.targetId = a.targetId ∧ (b.nodeId = a.nodeId ∨ (W b.nodeId ∧ ¬W a.nodeId))
  extra : ∀ {id b}, R.get? id = none → L.get? id = some b → ¬P b.nodeId

section

variable {R L : IndexedTable LinkRow.id LinkRow.dedup} {W P : String → Prop}

/-- The entry of a link's home is free for it: a row at home has another
entry, an astray one is elsewhere. -/
theorem Astray.reindex? (h : Astray R L W P) {l : ℤ} {a : LinkRow} (ha : R.get? l = some a)
    (hhome : W a.nodeId ∨ P a.nodeId) :
    ∃ L', L.reindex? l (fun r => { r with nodeId := a.nodeId }) (fun _ => rfl) = some L' := by
  refine IndexedTable.reindex?_isSome fun r hr k r' hr' hx => ?_
  obtain ⟨b, hb, hkind, htid, hnode⟩ := h.rows ha
  obtain rfl : r = b := Option.some.inj (hr.symm.trans hb)
  by_cases hw : W a.nodeId
  · have hn : r.nodeId = a.nodeId := hnode.resolve_right fun h => h.2 hw
    have hrr : r' = r := IndexedTable.eq_of_index hr' hr (by rw [hx, LinkRow.dedup, LinkRow.dedup, hn])
    rw [← Table.key_of_get? hr', hrr, Table.key_of_get? hr]
  · have hp : P a.nodeId := hhome.resolve_left hw
    simp only [LinkRow.dedup, Prod.mk.injEq] at hx
    cases ha' : R.get? k with
    | none => exact absurd (hx.1 ▸ hp) (h.extra ha' hr')
    | some a' =>
      obtain ⟨b', hb', hkind', htid', hnode'⟩ := h.rows ha'
      obtain rfl : r' = b' := Option.some.inj (hr'.symm.trans hb')
      rcases hnode' with hn | ⟨hw', -⟩
      · have haa : a' = a := IndexedTable.eq_of_index ha' ha (by
          simp only [LinkRow.dedup, Prod.mk.injEq]
          exact ⟨hn.symm.trans hx.1, by rw [← hkind', hx.2.1, hkind], by rw [← htid', hx.2.2, htid]⟩)
        rw [← Table.key_of_get? ha', haa, Table.key_of_get? ha]
      · exact absurd (hx.1 ▸ hw') hw

/-- The other links stay where they are. -/
theorem Astray.step (h : Astray R L W P) {L' : IndexedTable LinkRow.id LinkRow.dedup} {l : ℤ}
    {a : LinkRow} (ha : R.get? l = some a)
    (hL : ∀ id, L'.get? id = (L.get? id).map fun b =>
      if id = l then { b with nodeId := a.nodeId } else b) : Astray R L' W P := by
  constructor
  · intro id a' ha'
    obtain ⟨b, hb, hkind, htid, hnode⟩ := h.rows ha'
    have h1 := hL id
    rw [hb, Option.map_some] at h1
    refine ⟨_, h1, ?_⟩
    by_cases hid : id = l
    · subst hid
      obtain rfl : a = a' := Option.some.inj (ha.symm.trans ha')
      rw [if_pos rfl]
      exact ⟨hkind, htid, .inl rfl⟩
    · rw [if_neg hid]
      exact ⟨hkind, htid, hnode⟩
  · intro id b hn hb
    have hid : id ≠ l := by
      rintro rfl
      rw [ha] at hn
      cases hn
    rw [hL] at hb
    simp only [hid, if_false, Option.map_id'] at hb
    exact h.extra hn hb

/-- Links that are each put back on their home. -/
theorem moveLinksBack_ok : ∀ (moves : List (ℤ × String)) (t : Store), Astray R t.links W P →
    (∀ m ∈ moves, ∃ a, R.get? m.1 = some a ∧ a.nodeId = m.2 ∧ (W m.2 ∨ P m.2)) →
    ∃ links, moveLinksBack moves t = .ok { t with links := links } ∧
      (∀ {id a}, R.get? id = some a → id ∈ moves.map Prod.fst →
        links.get? id = (t.links.get? id).map fun b => { b with nodeId := a.nodeId }) ∧
      ∀ {id}, id ∉ moves.map Prod.fst → links.get? id = t.links.get? id
  | [], t, _, _ => ⟨t.links, rfl, by simp, by simp⟩
  | (l, node) :: moves, t, h, hm => by
    obtain ⟨a, ha, rfl, hhome⟩ := hm _ List.mem_cons_self
    obtain ⟨L', hre⟩ := h.reindex? ha hhome
    have hget : ∀ id, L'.get? id = _ := fun id => IndexedTable.get?_reindex? hre
    obtain ⟨links, heq, hin, hout⟩ := moveLinksBack_ok moves { t with links := L' } (h.step ha hget)
      fun m hm' => hm m (List.mem_cons_of_mem _ hm')
    refine ⟨links, by rw [moveLinksBack, hre]; exact heq, fun {id a'} ha' hid => ?_,
      fun {id} hid => ?_⟩
    · by_cases hmem : id ∈ moves.map Prod.fst
      · rw [hin ha' hmem]
        change (L'.get? id).map _ = _
        rw [hget, Option.map_map]
        congr 1
        funext b
        by_cases hl : id = l <;> simp [hl]
      · rw [hout hmem]
        change L'.get? id = _
        obtain rfl : id = l := by simpa [hmem] using hid
        obtain rfl : a = a' := Option.some.inj (ha.symm.trans ha')
        rw [hget]
        simp
    · rw [List.map_cons, List.mem_cons, not_or] at hid
      rw [hout hid.2]
      change L'.get? id = _
      rw [hget]
      simp [hid.1]

/-- The links of one part. -/
theorem movePartBack_ok {node part : String} (hne : part ≠ node) (hhome : W node ∨ P node) :
    ∀ (ls : List ℤ) (t : Store), Astray R t.links W P →
      (∀ l ∈ ls, ∃ a, R.get? l = some a ∧ a.nodeId = node) →
      ∃ links, movePartBack node part ls t = .ok { t with links := links } ∧ Astray R links W P ∧
        ∀ id, links.get? id = (t.links.get? id).map fun b =>
          if id ∈ ls ∧ b.nodeId = part then { b with nodeId := node } else b
  | [], t, h, _ => ⟨t.links, rfl, h, by simp⟩
  | l :: ls, t, h, hm => by
    obtain ⟨a, ha, rfl⟩ := hm _ List.mem_cons_self
    obtain ⟨b, hb, -⟩ := h.rows ha
    by_cases hpart : b.nodeId = part
    · obtain ⟨L', hre⟩ := h.reindex? ha hhome
      have hget : ∀ id, L'.get? id = _ := fun id => IndexedTable.get?_reindex? hre
      obtain ⟨links, heq, hast, hrows⟩ := movePartBack_ok hne hhome ls { t with links := L' }
        (h.step ha hget) fun l' hl' => hm l' (List.mem_cons_of_mem _ hl')
      refine ⟨links, ?_, hast, fun id => ?_⟩
      · rw [movePartBack, hb, if_pos (by simp [hpart]), hre]
        exact heq
      · rw [hrows]
        change (L'.get? id).map _ = _
        rw [hget, Option.map_map]
        by_cases hid : id = l
        · subst hid
          rw [hb]
          simp [hpart, Ne.symm hne]
        · cases t.links.get? id <;> simp [hid]
    · obtain ⟨links, heq, hast, hrows⟩ := movePartBack_ok hne hhome ls t h fun l' hl' =>
        hm l' (List.mem_cons_of_mem _ hl')
      refine ⟨links, ?_, hast, fun id => ?_⟩
      · rw [movePartBack, hb, if_neg (by simp [hpart])]
        exact heq
      · rw [hrows]
        by_cases hid : id = l
        · subst hid
          rw [hb]
          simp [hpart]
        · cases t.links.get? id <;> simp [hid]

/-- The parts of a split in turn. -/
theorem unsplit_ok {node : String} (byRun : ℤ) (hhome : W node ∨ P node) :
    ∀ (created : List CreatedPart) (t : Store), Astray R t.links W P →
      (∀ c ∈ created, c.id ≠ node) →
      (∀ c ∈ created, ∀ l ∈ c.linkIds, ∃ a, R.get? l = some a ∧ a.nodeId = node) →
      ∃ nodes links, unsplit byRun node created t = .ok { t with nodes := nodes, links := links } ∧
        (∀ id, nodes.get? id = (t.nodes.get? id).map fun b =>
          if id ∈ created.map CreatedPart.id ∧ b.live = true then
            { b with retiredByRun := some byRun } else b) ∧
        ∀ id, links.get? id = (t.links.get? id).map fun b =>
          if ∃ c ∈ created, id ∈ c.linkIds ∧ b.nodeId = c.id then { b with nodeId := node } else b
  | [], t, _, _, _ => ⟨t.nodes, t.links, rfl, by simp, by simp⟩
  | c :: created, t, h, hne, hm => by
    obtain ⟨links₁, heq₁, hast, hrows₁⟩ := movePartBack_ok (hne c List.mem_cons_self) hhome c.linkIds
      t h (hm c List.mem_cons_self)
    obtain ⟨nodes, links, heq, hnodes, hrows⟩ := unsplit_ok byRun hhome created
      (({ t with links := links₁ } : Store).retireMade byRun c.id) hast
      (fun c' hc' => hne c' (List.mem_cons_of_mem _ hc'))
      fun c' hc' => hm c' (List.mem_cons_of_mem _ hc')
    refine ⟨nodes, links, ?_, fun id => ?_, fun id => ?_⟩
    · rw [unsplit, heq₁]
      exact heq
    · rw [hnodes, get?_retireMade, Option.map_map]
      congr 1
      funext b
      have hdead : ({ b with retiredByRun := some byRun } : NodeRow).live = false := rfl
      by_cases hid : id = c.id <;> by_cases hb : b.live = true <;> simp [hid, hb, hdead]
    · rw [hrows]
      change (links₁.get? id).map _ = _
      rw [hrows₁, Option.map_map]
      congr 1
      funext b
      by_cases hid : id ∈ c.linkIds ∧ b.nodeId = c.id
      · have hno : ¬∃ c' ∈ created, id ∈ c'.linkIds ∧ node = c'.id := by
          rintro ⟨c', hc', -, hn⟩
          exact hne c' (List.mem_cons_of_mem _ hc') hn.symm
        simp [hid, hno]
      · simp only [Function.comp_apply, hid, if_false, List.mem_cons, exists_eq_or_imp, false_or]

end

/-! ### Split -/

section

variable {h : Host} {run : ℤ} {s : Store}

/-- **Undoing a split**: the links go back to the node, the parts are
retired. -/
theorem undoes_split {s' : Store} {now : ℤ} {actor node : String} {row : NodeRow}
    {created : List CreatedPart} (hrow : s.nodes.get? node = some row)
    (hsplit : SplitBy h now actor node row.parentId s s' created) :
    Undoes h run (.split node row.parentId created) s s' := by
  intro t now' byRun hc
  have hfresh : ∀ {id a}, s.nodes.get? id = some a → ∀ c ∈ created, c.id ≠ id := by
    rintro id a ha c hc' rfl
    rw [(hsplit.fresh c hc').1] at ha
    cases ha
  have hast : Astray s.links t.links (fun n => ∃ c ∈ created, c.id = n)
      fun n => s.nodes.get? n ≠ none := by
    constructor
    · intro id a ha
      rcases hsplit.links ha with h1 | ⟨c, hc', -, hn, -, h1⟩
      · exact ⟨a, hc.links h1, rfl, rfl, .inl rfl⟩
      · refine ⟨_, hc.links h1, rfl, rfl, .inr ⟨⟨c, hc', rfl⟩, ?_⟩⟩
        rintro ⟨c', hc'', hn'⟩
        exact hfresh hrow c' hc'' (hn'.trans hn)
    · intro id b hn hb hp
      obtain ⟨a, ha⟩ := Option.ne_none_iff_exists'.mp hp
      have := (hc.newLinks (hsplit.noNew hn) hb).2
      rw [hsplit.oldNodes ha] at this
      cases this
  obtain ⟨nodes, links, heq, hnodes, hlinks⟩ := unsplit_ok byRun
    (.inr (by rw [hrow]; exact Option.some_ne_none row)) created t hast (hfresh hrow) hsplit.moved
  refine ⟨_, by rw [invertOp, heq]; rfl, ?_⟩
  constructor
  case nodes =>
    intro id a ha
    obtain ⟨b, hb, hl⟩ := hc.nodes (hsplit.oldNodes ha)
    refine ⟨b, ?_, hl⟩
    change nodes.get? id = _
    rw [hnodes, hb, Option.map_some, if_neg]
    rintro ⟨hm, -⟩
    obtain ⟨c, hc', hid⟩ := List.mem_map.mp hm
    exact hfresh ha c hc' hid
  case newNodes =>
    intro id b hn hb
    change nodes.get? id = some b at hb
    rw [hnodes] at hb
    obtain ⟨b', hb', rfl⟩ := Option.map_eq_some_iff.mp hb
    by_cases hm : id ∈ created.map CreatedPart.id ∧ b'.live = true
    · rw [if_pos hm]
      rfl
    · rw [if_neg hm]
      cases h' : s'.nodes.get? id with
      | none => exact hc.newNodes h' hb'
      | some a =>
        obtain ⟨c, hc', hid, -⟩ := hsplit.newNodes hn h'
        have : id ∈ created.map CreatedPart.id := List.mem_map.mpr ⟨c, hc', hid⟩
        simpa [this] using hm
  case links =>
    intro id a ha
    change links.get? id = _
    rw [hlinks]
    rcases hsplit.links ha with h1 | ⟨c, hc', hid, hn, -, h1⟩
    · rw [hc.links h1, Option.map_some, if_neg]
      rintro ⟨c, hc', hid, hn⟩
      obtain ⟨a', ha', hn'⟩ := hsplit.moved c hc' id hid
      obtain rfl : a = a' := Option.some.inj (ha.symm.trans ha')
      exact hfresh hrow c hc' (hn.symm.trans hn')
    · rw [hc.links h1, Option.map_some, if_pos ⟨c, hc', hid, rfl⟩, ← hn]
  case newLinks =>
    intro id b hn hb
    change links.get? id = some b at hb
    rw [hlinks] at hb
    obtain ⟨b', hb', rfl⟩ := Option.map_eq_some_iff.mp hb
    rw [if_neg]
    · obtain ⟨h1, h2⟩ := hc.newLinks (hsplit.noNew hn) hb'
      refine ⟨h1, ?_⟩
      cases ha : s.nodes.get? b'.nodeId with
      | none => rfl
      | some a => rw [hsplit.oldNodes ha] at h2; cases h2
    · rintro ⟨c, hc', hid, -⟩
      obtain ⟨a, ha, -⟩ := hsplit.moved c hc' id hid
      rw [hn] at ha
      cases ha
  case observations =>
    intro id a ha
    refine hc.observations ?_
    rw [hsplit.observations, ha]
  case newObservations =>
    intro id b hn hb
    have hn' : s'.observations.get? id = none := by rw [hsplit.observations, hn]
    exact hc.newObservations hn' hb
  case supersessions =>
    intro seq
    rw [← hsplit.lake.supersessions]
    exact hc.supersessions seq
  case prompts =>
    intro id
    rw [← hsplit.lake.prompts]
    exact hc.prompts id
  case archive =>
    intro id
    rw [← hsplit.lake.archive]
    exact hc.archive id
  case forgotten =>
    rw [← hsplit.lake.forgottenSources]
    exact hc.forgotten

end

/-! ### Merge -/

/-- Children that are each given back one parent. -/
theorem reparentBack_eq : ∀ (cs : List (String × String)) (t : Store), ∃ nodes,
    reparentBack cs t = { t with nodes := nodes } ∧
      ∀ id parent, (∀ q, (id, q) ∈ cs → some q = parent) →
        nodes.get? id = (t.nodes.get? id).map fun b =>
          if id ∈ cs.map Prod.fst then { b with parentId := parent } else b
  | [], t => ⟨t.nodes, rfl, by simp⟩
  | (c, q) :: cs, t => by
    obtain ⟨nodes, heq, hnodes⟩ := reparentBack_eq cs { t with
      nodes := t.nodes.update (fun n => n.id = c) fun n => { n with parentId := some q } }
    refine ⟨nodes, heq, fun id parent hp => ?_⟩
    rw [hnodes id parent fun q' hq' => hp q' (List.mem_cons_of_mem _ hq'), Table.get?_update,
      Option.map_map]
    cases hb : t.nodes.get? id with
    | none => rfl
    | some b =>
      have hid := Table.key_of_get? hb
      by_cases hc : id = c
      · subst hc
        have hq : some q = parent := hp q List.mem_cons_self
        by_cases hmem : id ∈ cs.map Prod.fst <;> simp [hid, hmem, hq]
      · by_cases hmem : id ∈ cs.map Prod.fst <;> simp [hid, hmem, hc]

section

variable {h : Host} {run : ℤ} {s : Store}

/-- The target's row without what a merge sets on it. -/
theorem face_mergeStartRow (now : ℤ) (p : ProposalRow) (row : NodeRow) :
    { (mergeStartRow now p row).face with title := row.title, parentId := row.parentId } =
      row.face := by
  unfold mergeStartRow
  cases p.title <;> cases p.parentId <;> rfl

theorem marks_mergeStartRow (now : ℤ) (p : ProposalRow) (row : NodeRow) :
    (mergeStartRow now p row).marks = row.marks := by
  unfold mergeStartRow
  cases p.title <;> cases p.parentId <;> rfl

/-- The marks of a node after a merge was undone. -/
theorem marks_unmerged {gone : Prop} [Decidable gone] {a b c : NodeRow} {target : String}
    (hlive : gone → a.marks = (none, none))
    (hb : b.marks = if gone then (some run, some target) else a.marks)
    (hc : c.marks = b.marks ∨ (b.retiredByRun = some run ∧ c.marks = (none, none))) {c' : NodeRow}
    (hc' : c'.marks = c.marks) :
    (if gone ∧ c'.retiredByRun = some run then
      { c' with retiredByRun := none, retiredInto := none } else c').marks = a.marks ∨
    (a.retiredByRun = some run ∧ (if gone ∧ c'.retiredByRun = some run then
      { c' with retiredByRun := none, retiredInto := none } else c').marks = (none, none)) := by
  by_cases hg : gone
  · rw [hlive hg]
    by_cases hr : c'.retiredByRun = some run
    · rw [if_pos ⟨hg, hr⟩]
      exact .inl rfl
    · rw [if_neg fun h => hr h.2, hc']
      rcases hc with h | ⟨-, h⟩
      · rw [hb, if_pos hg] at h
        exact absurd (congrArg Prod.fst (hc'.trans h)) hr
      · exact .inl h
  · rw [if_neg fun h => hg h.1, hc']
    rw [if_neg hg] at hb
    rcases hc with h | ⟨h1, h2⟩
    · exact .inl (h.trans hb)
    · exact .inr ⟨(congrArg Prod.fst hb).symm.trans h1, h2⟩

/-- **Undoing a merge**: the target gets its title and parent back, the links
and the children go where they came from, the absorbed nodes come back. -/
theorem undoes_merge {s' : Store} {now : ℤ} {p : ProposalRow} {target : String} {row : NodeRow}
    {others : List String} {m : MergeImage} (hrow : s.nodes.get? target = some row)
    (hlive : ∀ {id a}, s.nodes.get? id = some a → a.live = true → a.retiredInto = none)
    (hplain : s.PlainMerge p target row others)
    (habs : Absorbed run target others (s.mergeStart now target p) s')
    (htr : Traced run target others (s.mergeStart now target p) s' m)
    (htarget : m.target = target) (htitle : m.oldTitle = row.title)
    (hparent : m.oldParent = row.parentId) : Undoes h run (.merge m) s s' := by
  intro t now' byRun hc
  obtain ⟨hlake, -, hslinks, hsobs⟩ := s.sameLake_mergeStart now target p
  have hsame : ∀ {id a}, s.nodes.get? id = some a → id ≠ target →
      (s.mergeStart now target p).nodes.get? id = some a := fun {id a} ha hne => by
    rw [get?_mergeStart, ha, Option.map_some, if_neg hne]
  have hstart : (s.mergeStart now target p).nodes.get? target = some (mergeStartRow now p row) := by
    rw [get?_mergeStart, hrow, Option.map_some, if_pos rfl]
  have hnone : ∀ {id}, s.nodes.get? id = none → s'.nodes.get? id = none := fun {id} hn =>
    habs.noNodes (by rw [get?_mergeStart, hn, Option.map_none])
  have hsome : ∀ {id}, s'.nodes.get? id = none → s.nodes.get? id = none := fun {id} hn => by
    cases ha : s.nodes.get? id with
    | none => rfl
    | some a =>
      by_cases hid : id = target
      · subst hid
        obtain ⟨b, hb, -⟩ := habs.nodes hstart
        rw [hn] at hb
        cases hb
      · obtain ⟨b, hb, -⟩ := habs.nodes (hsame ha hid)
        rw [hn] at hb
        cases hb
  have hgone : ∀ id, (s.mergeStart now target p).gone others id = s.gone others id := fun id => by
    rw [gone, nodeExists_mergeStart, gone]
  have habs' := habs
  have hL : ∀ {id a}, s.links.get? id = some a → s'.links.get? id = some a ∨
      (s'.links.get? id = some { a with nodeId := target } ∧ (id, a.nodeId) ∈ m.movedLinks) ∨
      (s'.links.get? id = some (a.retire run) ∧ id ∈ m.leftoverLinks) := fun {id a} ha => by
    by_cases h1 : s'.links.get? id = some a
    · exact .inl h1
    · exact .inr (htr.changed (by rw [hslinks, ha]) h1)
  -- the links of `t` are those of `s`, some of them on the target
  have hast : Astray s.links t.links (fun n => n = target) fun n => s.nodes.get? n ≠ none := by
    constructor
    · intro id a ha
      rcases hL ha with h1 | ⟨h1, -⟩ | ⟨h1, -⟩
      · exact ⟨a, hc.links h1, rfl, rfl, .inl rfl⟩
      · refine ⟨_, hc.links h1, rfl, rfl, ?_⟩
        by_cases hn : a.nodeId = target
        · exact .inl hn.symm
        · exact .inr ⟨rfl, hn⟩
      · exact ⟨_, hc.links h1, rfl, rfl, .inl rfl⟩
    · intro id b hn hb hp
      have := (hc.newLinks (habs.noLinks (by rw [hslinks, hn])) hb).2
      exact hp (hsome this)
  have hmoves : ∀ mv ∈ m.movedLinks, ∃ a, s.links.get? mv.1 = some a ∧ a.nodeId = mv.2 ∧
      (mv.2 = target ∨ s.nodes.get? mv.2 ≠ none) := by
    rintro ⟨l, node⟩ hm
    obtain ⟨a, ha, hn, hg, -⟩ := htr.moved hm
    rw [hslinks] at ha
    refine ⟨a, ha, hn, .inr ?_⟩
    rw [hgone, gone, Bool.and_eq_true] at hg
    obtain ⟨b, hb, -⟩ := nodeExists_iff.mp hg.2
    rw [hb]
    exact Option.some_ne_none b
  obtain ⟨links, hlinks, hin, hout⟩ := moveLinksBack_ok m.movedLinks ({ t with
    nodes := t.nodes.update (fun n => n.id = m.target) fun n =>
      { n with title := m.oldTitle, parentId := m.oldParent } } : Store) hast hmoves
  obtain ⟨nodes, hrep, hnodes⟩ := reparentBack_eq m.children ({ t with
    nodes := t.nodes.update (fun n => n.id = m.target) fun n =>
      { n with title := m.oldTitle, parentId := m.oldParent }
    links := links } : Store)
  -- the parent each child gets back is the one it had
  have hback : ∀ {id a}, s.nodes.get? id = some a → ∀ q, (id, q) ∈ m.children →
      some q = a.parentId := by
    intro id a ha q hq
    obtain ⟨a₁, ha₁, hp⟩ := htr.children hq
    by_cases hid : id = target
    · subst hid
      obtain rfl : a = row := Option.some.inj (ha.symm.trans hrow)
      rw [hstart, Option.some.injEq] at ha₁
      rw [← ha₁, parentId_mergeStartRow] at hp
      cases hpp : p.parentId with
      | none =>
        rw [hpp, Option.none_or] at hp
        exact hp.symm
      | some x =>
        rw [hpp, Option.some_or, Option.some.injEq] at hp
        subst hp
        obtain ⟨h1, h2⟩ := htr.targetChild hq
        rw [nodeExists_mergeStart] at h1 h2
        obtain ⟨r, hr, hrl⟩ := nodeExists_iff.mp h1
        obtain rfl : a = r := Option.some.inj (ha.symm.trans hr)
        exact ((hplain hrl).2 x hpp h2.symm).symm
    · rw [hsame ha hid, Option.some.injEq] at ha₁
      rw [ha₁, hp]
  refine ⟨({ t with nodes := nodes, links := links } : Store).unretire run
    ⟨m.absorbed.map fun a => a.1, m.leftoverLinks, m.observations⟩, ?_, ?_⟩
  · simp only [invertOp, unmerge]
    rw [hlinks]
    simp only [bind, Except.bind, pure, Except.pure, Except.mapError]
    rw [hrep]
  constructor
  case nodes =>
    intro id a ha
    have h1 : ∃ a₁, (s.mergeStart now target p).nodes.get? id = some a₁ ∧ a₁.marks = a.marks ∧
        a₁.live = a.live ∧ ((id ≠ target ∧ a₁ = a) ∨
          (id = target ∧ { a₁.face with title := row.title, parentId := row.parentId } = a.face)) := by
      by_cases hid : id = target
      · subst hid
        obtain rfl : a = row := Option.some.inj (ha.symm.trans hrow)
        exact ⟨_, hstart, marks_mergeStartRow _ _ _, live_mergeStartRow _ _ _,
          .inr ⟨rfl, face_mergeStartRow _ _ _⟩⟩
      · exact ⟨a, hsame ha hid, rfl, rfl, .inl ⟨hid, rfl⟩⟩
    obtain ⟨a₁, ha₁, hmarks, hal, hface⟩ := h1
    obtain ⟨b, hb, hab⟩ := habs.nodes ha₁
    obtain ⟨c, hct, hl⟩ := hc.nodes hb
    obtain rfl := Table.key_of_get? hct
    have hcn := hnodes c.id a.parentId (hback ha)
    rw [Table.get?_update, hct, Option.map_some, Option.map_some] at hcn
    simp only [htarget, htitle, hparent, decide_eq_true_eq] at hcn
    have hX : ∀ X, nodes.get? c.id = some X → X.face = a.face ∧ X.marks = c.marks := by
      intro X hX
      rw [hcn, Option.some.injEq] at hX
      rw [← hX]
      have hcface := hl.face.trans hab.face
      rcases hface with ⟨hid, rfl⟩ | ⟨hid, hface⟩
      · rw [if_neg hid]
        by_cases hm : c.id ∈ m.children.map Prod.fst
        · rw [if_pos hm]
          exact ⟨congrArg (fun f : NodeRow => { f with parentId := a₁.parentId }) hcface, rfl⟩
        · rw [if_neg hm]
          refine ⟨?_, rfl⟩
          have hbp : b.parentId = a₁.parentId := by
            by_contra hne
            obtain ⟨q, hq⟩ := htr.reparented ha₁ hb hne
            exact hm (List.mem_map_of_mem hq)
          rw [hcface, hbp]
          rfl
      · obtain rfl : a = row := Option.some.inj (ha.symm.trans (hid ▸ hrow))
        have := congrArg
          (fun f : NodeRow => { f with title := a.title, parentId := a.parentId }) hcface
        rw [if_pos hid]
        by_cases hm : c.id ∈ m.children.map Prod.fst
        · rw [if_pos hm]
          exact ⟨this.trans hface, rfl⟩
        · rw [if_neg hm]
          exact ⟨this.trans hface, rfl⟩
    rw [get?_unretire_nodes]
    change ∃ b, (nodes.get? c.id).map _ = some b ∧ _
    obtain ⟨X, hXn⟩ : ∃ X, nodes.get? c.id = some X := ⟨_, hcn⟩
    obtain ⟨hXf, hXm⟩ := hX X hXn
    rw [hXn, Option.map_some]
    refine ⟨_, rfl, ?_, ?_⟩
    · rw [← hXf]
      split_ifs <;> rfl
    · have hbm := hab.marks
      rw [Table.key_of_get? ha₁, hmarks] at hbm
      have habsorbed := htr.absorbed c.id
      simp only [habsorbed]
      refine @marks_unmerged run _ _ a b c target (fun hg => ?_) hbm hl.marks X hXm
      rw [hgone, gone, Bool.and_eq_true] at hg
      obtain ⟨a', ha', hl'⟩ := nodeExists_iff.mp hg.2
      obtain rfl : a = a' := Option.some.inj (ha.symm.trans ha')
      have hret : a.retiredByRun = none := by simpa [NodeRow.live] using hl'
      rw [NodeRow.marks, hret, hlive ha hl']
  case newNodes =>
    intro id b hn hb
    rw [get?_unretire_nodes] at hb
    obtain ⟨X, hX, rfl⟩ := Option.map_eq_some_iff.mp hb
    have hnot : id ∉ m.absorbed.map fun a => a.1 := by
      rw [htr.absorbed, hgone, gone, Bool.and_eq_true]
      rintro ⟨-, hg⟩
      obtain ⟨a, ha, -⟩ := nodeExists_iff.mp hg
      rw [hn] at ha
      cases ha
    rw [if_neg fun h => hnot h.1]
    have hkid : ∀ q, (id, q) ∉ m.children := by
      intro q hq
      obtain ⟨a, ha, -⟩ := htr.children hq
      rw [get?_mergeStart, hn] at ha
      cases ha
    change nodes.get? id = some X at hX
    rw [hnodes id none fun q hq => absurd hq (hkid q), Table.get?_update, Option.map_map,
      Option.map_eq_some_iff] at hX
    obtain ⟨c, hct, rfl⟩ := hX
    have hcl := hc.newNodes (hnone hn) hct
    simp only [Function.comp_apply]
    split_ifs <;> exact hcl
  case links =>
    intro id a ha
    rw [get?_unretire_links]
    change (links.get? id).map _ = _
    by_cases hm : id ∈ m.movedLinks.map Prod.fst
    · rw [hin ha hm]
      obtain ⟨⟨l, node⟩, hmem, rfl⟩ := List.mem_map.mp hm
      obtain ⟨a', ha', -, -, h1⟩ := htr.moved hmem
      rw [hslinks] at ha'
      obtain rfl : a = a' := Option.some.inj (ha.symm.trans ha')
      change ((t.links.get? l).map _).map _ = _
      rw [hc.links h1, Option.map_some, Option.map_some, if_neg]
      rintro ⟨hl, hr⟩
      obtain ⟨a', ha', hal, -⟩ := htr.leftover l hl
      rw [hslinks] at ha'
      obtain rfl : a = a' := Option.some.inj (ha.symm.trans ha')
      have hr : a.retiredByRun = some run := hr
      simp [LinkRow.live, hr] at hal
    · rw [hout hm]
      change (t.links.get? id).map _ = _
      rcases hL ha with h1 | ⟨-, h1⟩ | ⟨h1, hl⟩
      · rw [hc.links h1, Option.map_some, if_neg]
        rintro ⟨hl, hr⟩
        obtain ⟨a', ha', hal, -⟩ := htr.leftover id hl
        rw [hslinks] at ha'
        obtain rfl : a = a' := Option.some.inj (ha.symm.trans ha')
        simp [LinkRow.live, hr] at hal
      · exact absurd (List.mem_map_of_mem (f := Prod.fst) h1) hm
      · obtain ⟨a', ha', hal, -⟩ := htr.leftover id hl
        rw [hslinks] at ha'
        obtain rfl : a = a' := Option.some.inj (ha.symm.trans ha')
        have hr : a.retiredByRun = none := by simpa [LinkRow.live] using hal
        rw [hc.links h1, Option.map_some, if_pos ⟨hl, rfl⟩, LinkRow.retire, ← hr]
  case newLinks =>
    intro id b hn hb
    rw [get?_unretire_links] at hb
    obtain ⟨c, hct, rfl⟩ := Option.map_eq_some_iff.mp hb
    have hm : id ∉ m.movedLinks.map Prod.fst := by
      rintro hm
      obtain ⟨⟨l, node⟩, hmem, rfl⟩ := List.mem_map.mp hm
      obtain ⟨a, ha, -⟩ := htr.moved hmem
      rw [hslinks, hn] at ha
      cases ha
    have hl : id ∉ m.leftoverLinks := by
      intro hl
      obtain ⟨a, ha, -⟩ := htr.leftover id hl
      rw [hslinks, hn] at ha
      cases ha
    change links.get? id = some c at hct
    rw [hout hm] at hct
    rw [if_neg fun h => hl h.1]
    obtain ⟨h1, h2⟩ := hc.newLinks (habs.noLinks (by rw [hslinks, hn])) hct
    exact ⟨h1, hsome h2⟩
  case observations =>
    intro id a ha
    have h3 := habs.observations id
    rw [hsobs, ha, Option.map_some] at h3
    have hmem := htr.observations id
    rw [hsobs, ha] at hmem
    simp only [Option.some.injEq, exists_eq_left'] at hmem
    rw [get?_unretire_observations]
    change (t.observations.get? id).map _ = _
    rw [hc.observations h3, Option.map_some]
    by_cases hg : (s.mergeStart now target p).gone others a.nodeId = true ∧ a.live = true
    · have hr : a.retiredByRun = none := by simpa [ObservationRow.live] using hg.2
      rw [if_pos hg, if_pos ⟨hmem.mpr hg, rfl⟩, ObservationRow.retire, ← hr]
    · rw [if_neg hg, if_neg fun h => hg (hmem.mp h.1)]
  case newObservations =>
    intro id b hn hb
    rw [get?_unretire_observations] at hb
    obtain ⟨c, hct, rfl⟩ := Option.map_eq_some_iff.mp hb
    have hm : id ∉ m.observations := by
      rw [htr.observations, hsobs, hn]
      simp
    rw [if_neg fun h => hm h.1]
    have hn' : s'.observations.get? id = none := by
      rw [habs.observations, hsobs, hn, Option.map_none]
    exact hc.newObservations hn' hct
  case supersessions =>
    intro seq
    rw [← hlake.supersessions, ← habs.lake.supersessions]
    exact hc.supersessions seq
  case prompts =>
    intro id
    rw [← hlake.prompts, ← habs.lake.prompts]
    exact hc.prompts id
  case archive =>
    intro id
    rw [← hlake.archive, ← habs.lake.archive]
    exact hc.archive id
  case forgotten =>
    rw [← hlake.forgottenSources, ← habs.lake.forgottenSources]
    exact hc.forgotten

end

end PolisMemory
