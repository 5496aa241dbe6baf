/-
# What undoing an op restores

A store `t` covers a store `s` if it has all that `s` shows: every row of the
catalog as it was (but for `updated_at`), the same edges, words and archive,
and beyond that only retired rows that no row of `s` can collide with
(`Covers`). Undoing a run meets stores that cover the state before each op;
the mark of the run that is being undone may then be missing already, since
the inverse of a later op can clear it first.

For each kind of op: if `t` covers the state after the op, the inverse goes
through on `t` and its result covers the state before it (`Undoes`). This
module has the ops that touch one row; `UndoReorg` has the ones that move a
branch.

Key definitions: `NodeLike`, `Covers`, `Undoes`.
Key theorems: `undoes_create`, `undoes_revive`, `undoes_link`,
`undoes_promote`, `undoes_supersede`, `undoes_compact`, `undoes_observe`.
-/
import PolisMemory.Runs
import PolisMemory.Applied

namespace PolisMemory

open Tables Store

/-! ### Covering -/

/-- A prompt's row without the facts of its compaction. -/
def PromptRow.words (p : PromptRow) : PromptRow :=
  { p with compactedAt := none, originalBytes := none, gistSource := none }

/-- `b` stands for `a` while `run` is being undone: a mark of that run may be
gone. -/
structure NodeLike (run : ℤ) (a b : NodeRow) : Prop where
  face : b.face = a.face
  marks : b.marks = a.marks ∨ (a.retiredByRun = some run ∧ b.marks = (none, none))

/-- `t` has all that `s` shows, and more only out of sight. -/
structure Covers (run : ℤ) (s t : Store) : Prop where
  nodes : ∀ {id a}, s.nodes.get? id = some a → ∃ b, t.nodes.get? id = some b ∧ NodeLike run a b
  newNodes : ∀ {id b}, s.nodes.get? id = none → t.nodes.get? id = some b → b.live = false
  links : ∀ {id a}, s.links.get? id = some a → t.links.get? id = some a
  newLinks : ∀ {id b}, s.links.get? id = none → t.links.get? id = some b →
    b.live = false ∧ s.nodes.get? b.nodeId = none
  observations : ∀ {id a}, s.observations.get? id = some a → t.observations.get? id = some a
  newObservations : ∀ {id b}, s.observations.get? id = none → t.observations.get? id = some b →
    b.live = false
  supersessions : ∀ seq, t.supersessions.get? seq = s.supersessions.get? seq
  prompts : ∀ id, (t.prompts.get? id).map PromptRow.words = (s.prompts.get? id).map PromptRow.words
  archive : ∀ id, t.archive.get? id = s.archive.get? id
  forgotten : t.forgottenSources = s.forgottenSources

theorem NodeLike.refl (run : ℤ) (a : NodeRow) : NodeLike run a a := ⟨rfl, .inl rfl⟩

theorem Covers.refl (run : ℤ) (s : Store) : Covers run s s where
  nodes ha := ⟨_, ha, .refl run _⟩
  newNodes hn hb := by simp [hn] at hb
  links := id
  newLinks hn hb := by simp [hn] at hb
  observations := id
  newObservations hn hb := by simp [hn] at hb
  supersessions _ := rfl
  prompts _ := rfl
  archive _ := rfl
  forgotten := rfl

/-- The inverse of an op with this image takes what covers the state after
the op to what covers the state before it. -/
def Undoes (h : Host) (run : ℤ) (image : Image) (s s' : Store) : Prop :=
  ∀ (t : Store) (now byRun : ℤ), Covers run s' t →
    ∃ t', t.invertOp h now run byRun (some image) = .ok t' ∧ Covers run s t'

/-- Nothing that covering looks at has changed. -/
structure SameSights (s s' : Store) : Prop where
  nodes : s'.nodes = s.nodes
  links : s'.links = s.links
  observations : s'.observations = s.observations
  supersessions : s'.supersessions = s.supersessions
  prompts : s'.prompts = s.prompts
  archive : s'.archive = s.archive
  forgotten : s'.forgottenSources = s.forgottenSources

theorem SameSights.refl (s : Store) : SameSights s s := ⟨rfl, rfl, rfl, rfl, rfl, rfl, rfl⟩

theorem Covers.congr_left {run : ℤ} {s s' t : Store} (h : SameSights s s') (hc : Covers run s' t) :
    Covers run s t := by
  obtain ⟨h1, h2, h3, h4, h5, h6, h7⟩ := h
  obtain ⟨c1, c2, c3, c4, c5, c6, c7, c8, c9, c10⟩ := hc
  rw [h1] at c1 c2
  simp only [h1, h2] at c3 c4
  rw [h3] at c5 c6
  rw [h4] at c7
  rw [h5] at c8
  rw [h6] at c9
  rw [h7] at c10
  exact ⟨c1, c2, c3, c4, c5, c6, c7, c8, c9, c10⟩

theorem Covers.congr_right {run : ℤ} {s t t' : Store} (h : SameSights t t') (hc : Covers run s t) :
    Covers run s t' := by
  obtain ⟨h1, h2, h3, h4, h5, h6, h7⟩ := h
  obtain ⟨c1, c2, c3, c4, c5, c6, c7, c8, c9, c10⟩ := hc
  rw [← h1] at c1 c2
  simp only [← h2] at c3 c4
  rw [← h3] at c5 c6
  rw [← h4] at c7
  rw [← h5] at c8
  rw [← h6] at c9
  rw [← h7] at c10
  exact ⟨c1, c2, c3, c4, c5, c6, c7, c8, c9, c10⟩

/-- What the journal and the lake's other tables did does not matter. -/
theorem Undoes.congr {h : Host} {run : ℤ} {image : Image} {s s' u u' : Store}
    (hu : Undoes h run image s s') (hs : SameSights u s) (hs' : SameSights s' u') :
    Undoes h run image u u' := by
  intro t now byRun hc
  obtain ⟨t', ht', hc'⟩ := hu t now byRun (hc.congr_left hs')
  exact ⟨t', ht', hc'.congr_left hs⟩

/-! ### Retiring what an op made -/

theorem get?_retireMade {t : Store} {byRun : ℤ} {n id : String} :
    (t.retireMade byRun n).nodes.get? id = (t.nodes.get? id).map fun b =>
      if id = n ∧ b.live = true then { b with retiredByRun := some byRun } else b := by
  rw [retireMade, Table.get?_update]
  cases hb : t.nodes.get? id with
  | none => rfl
  | some b => simp [Table.key_of_get? hb]

theorem get?_retireMade_of_ne {t : Store} {byRun : ℤ} {n id : String} (hne : id ≠ n) :
    (t.retireMade byRun n).nodes.get? id = t.nodes.get? id := by
  rw [get?_retireMade]
  cases t.nodes.get? id <;> simp [hne]

/-- What is live after it is another node, and was live before. -/
theorem of_get?_retireMade {t : Store} {byRun : ℤ} {n id : String} {b : NodeRow}
    (hb : (t.retireMade byRun n).nodes.get? id = some b) (hlive : b.live = true) :
    id ≠ n ∧ t.nodes.get? id = some b := by
  have hne : id ≠ n := by
    rintro rfl
    rw [get?_retireMade, Option.map_eq_some_iff] at hb
    obtain ⟨a, -, rfl⟩ := hb
    by_cases ha : a.live = true
    · rw [if_pos ⟨rfl, ha⟩] at hlive
      cases hlive
    · rw [if_neg fun h => ha h.2] at hlive
      exact ha hlive
  exact ⟨hne, get?_retireMade_of_ne hne ▸ hb⟩

/-! ### Ops on one row -/

section

variable {h : Host} {run : ℤ} {s : Store}

/-- Retiring a node that is in no row of `s` leaves it covered. -/
theorem Covers.retireMade {t : Store} {byRun : ℤ} {n : String} (hn : s.nodes.get? n = none)
    (hc : Covers run s t) : Covers run s (t.retireMade byRun n) :=
  { hc with
    nodes := fun {id a} ha => by
      have hne : id ≠ n := by
        rintro rfl
        simp [hn] at ha
      rw [get?_retireMade_of_ne hne]
      exact hc.nodes ha
    newNodes := fun hn' hb => by
      by_contra hlive
      exact hlive (hc.newNodes hn' (of_get?_retireMade hb (by simpa using hlive)).2) }

/-- Undoing a `create`: the new node is retired. -/
theorem undoes_create {nodes : Table NodeRow.id} {row : NodeRow} (parent : Option String)
    (title : String) (hins : s.nodes.insert? row = some nodes) :
    Undoes h run (.create row.id parent title) s { s with nodes := nodes } := by
  intro t now byRun hc
  obtain ⟨hfree, -⟩ := Table.insert?_eq_some.mp hins
  have hget : ∀ id, nodes.get? id = if row.id = id then some row else s.nodes.get? id :=
    fun id => Table.get?_insert? hins
  have hold : ∀ {id}, id ≠ row.id → nodes.get? id = s.nodes.get? id := fun hne => by
    rw [hget, if_neg (Ne.symm hne)]
  refine ⟨_, rfl, { hc with nodes := ?_, newNodes := ?_, newLinks := ?_ }⟩
  · intro id a ha
    have hne : id ≠ row.id := by
      rintro rfl
      simp [hfree] at ha
    rw [get?_retireMade_of_ne hne]
    exact hc.nodes ((hold hne).trans ha)
  · intro id b hn hb
    by_contra hlive
    obtain ⟨hne, hb⟩ := of_get?_retireMade hb (by simpa using hlive)
    exact hlive (hc.newNodes ((hold hne).trans hn) hb)
  · intro id b hn hb
    obtain ⟨h1, h2⟩ := hc.newLinks hn hb
    refine ⟨h1, ?_⟩
    have h2 : nodes.get? b.nodeId = none := h2
    rw [hget] at h2
    split_ifs at h2
    exact h2

/-- Undoing a `promote`: the node gets its parent back. -/
theorem undoes_promote (now : ℤ) (node : String) (parent : Option String) :
    Undoes h run (.promote node ((s.nodes.get? node).bind NodeRow.parentId) parent) s
      (s.setParent now [node] parent) := by
  intro t now' byRun hc
  have hget : ∀ id, (s.setParent now [node] parent).nodes.get? id = (s.nodes.get? id).map fun a =>
      if a.id = node then { a with parentId := parent, updatedAt := now } else a := by
    simp [setParent]
  have hnone : ∀ id, (s.setParent now [node] parent).nodes.get? id = none ↔
      s.nodes.get? id = none := fun id => by rw [hget, Option.map_eq_none_iff]
  refine ⟨_, rfl, { hc with nodes := ?_, newNodes := ?_, newLinks := ?_ }⟩
  · intro id a ha
    have ha' := hget id
    rw [ha, Option.map_some] at ha'
    obtain ⟨b, hb, hl⟩ := hc.nodes ha'
    have hid : b.id = a.id := (Table.key_of_get? hb).trans (Table.key_of_get? ha).symm
    refine ⟨_, by rw [Table.get?_update, hb, Option.map_some], ?_⟩
    by_cases hn : a.id = node
    · have hid' : s.nodes.get? node = some a := by rwa [← hn, Table.key_of_get? ha]
      rw [if_pos hn] at hl
      obtain ⟨hf, hm⟩ := hl
      rw [if_pos (by simp [hid, hn])]
      refine ⟨?_, hm⟩
      have hface := congrArg (fun n : NodeRow => { n with parentId := a.parentId }) hf
      simpa [NodeRow.face, hid'] using hface
    · rw [if_neg hn] at hl
      rwa [if_neg (by simp [hid, hn])]
  · intro id b hn hb
    simp only [Table.get?_update, Option.map_eq_some_iff] at hb
    obtain ⟨b, hb, rfl⟩ := hb
    have := hc.newNodes ((hnone id).mpr hn) hb
    split_ifs <;> exact this
  · intro id b hn hb
    obtain ⟨h1, h2⟩ := hc.newLinks hn hb
    exact ⟨h1, (hnone _).mp h2⟩

/-- Undoing a `file` that revived a link: the link gets its mark back. -/
theorem undoes_revive {l : LinkRow} {q : ℤ} (node targetKind targetId : String)
    (hl : s.links.get? l.id = some l) (hq : l.retiredByRun = some q) :
    Undoes h run (.file l.id node targetKind targetId (some q)) s
      { s with links := s.links.update (fun r => r.id = l.id) fun r =>
        { r with retiredByRun := none } } := by
  intro t now byRun hc
  refine ⟨_, rfl, { hc with links := ?_, newLinks := ?_ }⟩
  · intro id a ha
    have hb : t.links.get? id = some (if a.id = l.id then { a with retiredByRun := none } else a) :=
      hc.links (by simp [ha])
    simp only [IndexedTable.toAutoTable_update, AutoTable.toTable_update, Table.get?_update, hb,
      Option.map_some]
    by_cases hid : a.id = l.id
    · have hal : a = l := by
        rw [Table.key_of_get? ha] at hid
        rw [hid, hl] at ha
        exact (Option.some.inj ha).symm
      subst hal
      simp [← hq]
    · simp [hid]
  · intro id b hn hb
    simp only [IndexedTable.toAutoTable_update, AutoTable.toTable_update, Table.get?_update,
      Option.map_eq_some_iff] at hb
    obtain ⟨b, hb, rfl⟩ := hb
    obtain ⟨h1, h2⟩ := hc.newLinks (by simpa using hn) hb
    split_ifs
    · exact ⟨rfl, h2⟩
    · exact ⟨h1, h2⟩

/-- Undoing a `file` that made a link: the link is deleted. -/
theorem undoes_link {links : IndexedTable LinkRow.id LinkRow.dedup} {mk : ℤ → LinkRow}
    {hmk : ∀ n, (mk n).id = n} (node targetKind targetId : String)
    (hins : s.links.insert? mk hmk = some links) :
    Undoes h run (.file s.links.nextId node targetKind targetId none) s
      { s with links := links } := by
  intro t now byRun hc
  have hget : ∀ {id}, id ≠ s.links.nextId → links.get? id = s.links.get? id := fun hne => by
    rw [IndexedTable.get?_insert? hins, if_neg hne]
  refine ⟨_, rfl, { hc with links := ?_, newLinks := ?_ }⟩
  · intro id a ha
    have hne : id ≠ s.links.nextId := by
      rintro rfl
      rw [AutoTable.get?_nextId] at ha
      cases ha
    have hb : t.links.get? id = some a := hc.links ((hget hne).trans ha)
    simp [hb, Table.key_of_get? ha, hne]
  · intro id b hn hb
    simp only [IndexedTable.toAutoTable_delete, AutoTable.toTable_delete, Table.get?_delete,
      Option.filter_eq_some_iff] at hb
    obtain ⟨hb, hne⟩ := hb
    have hne : id ≠ s.links.nextId := by simpa [Table.key_of_get? hb] using hne
    exact hc.newLinks ((hget hne).trans hn) hb

/-- Undoing a supersession: its edge is deleted. -/
theorem undoes_supersede {supersessions : Table SupersessionRow.oldSeq} {r : SupersessionRow}
    (hins : s.supersessions.insert? r = some supersessions) :
    Undoes h run (.supersede r.oldSeq r.newSeq r.eventSeq) s
      { s with supersessions := supersessions } := by
  intro t now byRun hc
  obtain ⟨hfree, -⟩ := Table.insert?_eq_some.mp hins
  refine ⟨_, rfl, { hc with supersessions := fun seq => ?_ }⟩
  have hsup : t.supersessions.get? seq = supersessions.get? seq := hc.supersessions seq
  rw [Table.get?_delete, hsup, Table.get?_insert? hins]
  by_cases hr : r.oldSeq = seq
  · rw [if_pos hr, ← hr, hfree]
    simp
  · rw [if_neg hr]
    cases hs : s.supersessions.get? seq with
    | none => rfl
    | some x => simp [Table.key_of_get? hs, Ne.symm hr]

/-- Undoing an observation: its row is retired. -/
theorem undoes_observe {mk : ℤ → ObservationRow} {hmk : ∀ n, (mk n).id = n} (node : String)
    (seq : ℤ) :
    Undoes h run (.observe s.observations.nextId node seq) s
      { s with observations := s.observations.insert mk hmk } := by
  intro t now byRun hc
  have hget : ∀ {id}, id ≠ s.observations.nextId →
      (s.observations.insert mk hmk).get? id = s.observations.get? id := fun hne => by
    rw [AutoTable.get?_insert, if_neg hne]
  refine ⟨_, rfl, { hc with observations := ?_, newObservations := ?_ }⟩
  · intro id a ha
    have hne : id ≠ s.observations.nextId := by
      rintro rfl
      rw [AutoTable.get?_nextId] at ha
      cases ha
    have hb : t.observations.get? id = some a := hc.observations ((hget hne).trans ha)
    simp [hb, Table.key_of_get? ha, hne]
  · intro id b hn hb
    simp only [AutoTable.toTable_update, Table.get?_update, Option.map_eq_some_iff] at hb
    obtain ⟨b, hb, rfl⟩ := hb
    by_cases hlive : b.live = true
    · have hid : id = s.observations.nextId := by
        by_contra hne
        rw [hc.newObservations ((hget hne).trans hn) hb] at hlive
        cases hlive
      rw [if_pos (by simp [(Table.key_of_get? hb).trans hid, hlive])]
      rfl
    · rw [if_neg (by simp [hlive])]
      simpa using hlive

/-- Undoing a compaction: the words come back from the archive, and the
archive row goes. -/
theorem undoes_compact {p : PromptRow} (now size seq : ℤ) (gist gistSource : String)
    (hp : s.prompts.get? p.id = some p) (hgist : p.gist = none)
    (hhash : h.bodyHash p.body = p.bodyHash) (harchive : s.archive.get? p.id = none)
    (hforgotten : s.forgottenSources.get? p.id = none) :
    Undoes h run (.compact p.id seq) s
      { s with
        archive := s.archive.upsert ⟨p.id, p.bodyHash, archiveAlgo, size, h.deflate p.body, now⟩
        prompts := s.prompts.update (fun q => q.id = p.id && q.gist = none)
          (PromptRow.compacted now gist "cold" gistSource) } := by
  intro t now' byRun hc
  have harch : t.archive.get? p.id =
      some ⟨p.id, p.bodyHash, archiveAlgo, size, h.deflate p.body, now⟩ := by
    rw [hc.archive, Table.get?_upsert, if_pos rfl]
  have hprompt := hc.prompts p.id
  simp only [Table.get?_update, hp, Option.map_some, hgist, decide_true, Bool.and_self,
    if_true] at hprompt
  obtain ⟨q, hq, hwords⟩ := Option.map_eq_some_iff.mp hprompt
  have hqhash : q.words.bodyHash = p.bodyHash := by rw [hwords, PromptRow.words]
  change q.bodyHash = p.bodyHash at hqhash
  have hback : (q.restored p.body).words = p.words := by
    have := congrArg (fun w : PromptRow => { w with body := p.body, gist := none }) hwords
    simpa [PromptRow.words, PromptRow.restored, PromptRow.compacted, ← hgist] using this
  refine ⟨{ t with
      prompts := t.prompts.update (fun r => r.id = p.id && r.bodyHash = p.bodyHash)
        (PromptRow.restored p.body)
      archive := t.archive.delete fun a => a.promptId = p.id }, ?_,
    { hc with prompts := fun id => ?_, archive := fun id => ?_ }⟩
  · have hf : t.forgottenSources.get? p.id = none := by rw [hc.forgotten]; exact hforgotten
    simp [invertOp, restorePromptBody, hf, harch, h.inflate_deflate, hhash, hq, hqhash]
  · rw [Table.get?_update]
    by_cases hid : p.id = id
    · subst hid
      rw [hq, hp]
      simp [Table.key_of_get? hq, hqhash, hback]
    · have hid' := hc.prompts id
      rw [Table.get?_update] at hid'
      cases ht : t.prompts.get? id with
      | none =>
        rw [ht] at hid'
        cases hs : s.prompts.get? id with
        | none => rfl
        | some r => simp [hs] at hid'
      | some r =>
        rw [ht] at hid'
        cases hs : s.prompts.get? id with
        | none => simp [hs] at hid'
        | some r' =>
          rw [hs] at hid'
          simpa [Table.key_of_get? ht, Table.key_of_get? hs, Ne.symm hid] using hid'
  · rw [Table.get?_delete, hc.archive, Table.get?_upsert]
    by_cases hid : p.id = id
    · rw [if_pos hid, ← hid, harchive]
      simp
    · rw [if_neg hid]
      cases hs : s.archive.get? id with
      | none => rfl
      | some a => simp [Table.key_of_get? hs, Ne.symm hid]

end

end PolisMemory
