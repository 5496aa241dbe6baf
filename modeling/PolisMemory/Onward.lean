/-
# What a filing changes

Staging a filing and retiring a link are the writes of the filing tier. Both keep the
classes that are live and the targets of the links, and forget nothing (`Onward`); a
filing leaves every live link live, and its own, so that what is filed stays filed
(`kept_stageFile`). A link may be retired once another, of another class, files its
item (`Kept.refile`).

Key definitions: `Store.Placed`, `Store.Onward`, `Store.Kept`.
Key theorems: `kept_stageFile`, `Kept.refile`.
-/
import PolisMemory.FileDelta
import PolisMemory.Integrity

namespace PolisMemory

open Tables Keeper

/-- A number in the range of an `i64` is cast to itself from its text. -/
theorem castInteger_i64ToString {n : ℤ} (hn : IsI64 n) : castInteger (i64ToString n) = n := by
  have hdigits : ∀ k : ℕ, (((Nat.toDigits 10 k).takeWhile Char.isDigit).foldl
      (fun n d => 10 * n + (d.toNat - '0'.toNat)) 0) = k := by
    intro k
    rw [List.takeWhile_eq_self_iff.mpr fun c hc => JsonText.isDigit_of_mem hc,
      ← Nat.ofDigitChars_eq_foldl, Nat.ofDigitChars_ten_toDigits]
  obtain ⟨hlo, hhi⟩ := hn
  unfold castInteger i64ToString
  rw [String.toList_ofList]
  cases n with
  | negSucc k =>
    rw [JsonText.intText, List.dropWhile_cons_of_neg (by decide)]
    simp only [hdigits]
    omega
  | ofNat k =>
    rw [JsonText.intText]
    have hspace : (Nat.toDigits 10 k).dropWhile (fun c => c = ' ' || (9 ≤ c.toNat && c.toNat ≤ 13)) =
        Nat.toDigits 10 k := by
      cases hd : Nat.toDigits 10 k with
      | nil => rfl
      | cons d ds =>
        have hdigit := JsonText.isDigit_of_mem (n := k) (hd ▸ List.mem_cons_self)
        rw [List.dropWhile_cons_of_neg]
        intro hsp
        simp only [Bool.or_eq_true, decide_eq_true_eq, Bool.and_eq_true] at hsp
        simp only [Char.isDigit, Bool.and_eq_true, decide_eq_true_eq, ge_iff_le,
          UInt32.le_iff_toNat_le] at hdigit
        have hlo : 48 ≤ d.toNat := hdigit.1
        rcases hsp with rfl | hsp
        · exact absurd hlo (by decide)
        · omega
    rw [hspace]
    split
    · rename_i cs hcs
      exact absurd (JsonText.isDigit_of_mem (n := k) (hcs ▸ List.mem_cons_self)) (by decide)
    · rename_i cs hcs
      exact absurd (JsonText.isDigit_of_mem (n := k) (hcs ▸ List.mem_cons_self)) (by decide)
    · simp only [hdigits]
      have hk : (k : ℤ) < 2 ^ 63 := hhi
      show min (k : ℤ) (2 ^ 63 - 1) = k
      omega

namespace Store

/-- A live link of a live class has the item for its target. -/
def Placed (s : Store) (kind : String) (seq : ℤ) : Prop :=
  ∃ l ∈ s.links.rows, l.live = true ∧ l.targetKind = kind ∧ l.targetId = i64ToString seq ∧
    s.Live l.nodeId

/-- The links that are made and retired are the same ones, and sources that were not
forgotten are not. -/
structure Onward (s s' : Store) : Prop where
  live : ∀ q, s.Live q → s'.Live q
  ids : s.links.lastId ≤ s'.links.lastId
  targets : ∀ l' ∈ s'.links.rows, l'.id ≤ s.links.lastId →
    ∃ l ∈ s.links.rows, l.id = l'.id ∧ l.targetKind = l'.targetKind ∧ l.targetId = l'.targetId
  integral : s.Integral → s'.Integral
  sources : ∀ seq, s.sourceForgotten seq = false → s'.sourceForgotten seq = false
  runs : ∀ run, s.runSourceForgotten run = false → s'.runSourceForgotten run = false

/-- And nothing is unfiled. -/
structure Kept (s s' : Store) : Prop extends Onward s s' where
  placed : ∀ kind seq, IsI64 seq → s.Placed kind seq → s'.Placed kind seq

section

variable {s s' s₁ s₂ s₃ : Store}

theorem Onward.refl (s : Store) : Onward s s :=
  ⟨fun _ h => h, le_rfl, fun l hl _ => ⟨l, hl, rfl, rfl, rfl⟩, fun h => h, fun _ h => h, fun _ h => h⟩

theorem Onward.trans (h : Onward s₁ s₂) (h' : Onward s₂ s₃) : Onward s₁ s₃ where
  live q hq := h'.live q (h.live q hq)
  ids := h.ids.trans h'.ids
  targets l₃ hl₃ hle := by
    obtain ⟨l₂, hl₂, hid₂, hkind₂, htarget₂⟩ := h'.targets l₃ hl₃ (hle.trans h.ids)
    obtain ⟨l₁, hl₁, hid₁, hkind₁, htarget₁⟩ := h.targets l₂ hl₂ (hid₂ ▸ hle)
    exact ⟨l₁, hl₁, hid₁.trans hid₂, hkind₁.trans hkind₂, htarget₁.trans htarget₂⟩
  integral hs := h'.integral (h.integral hs)
  sources seq hs := h'.sources seq (h.sources seq hs)
  runs run hs := h'.runs run (h.runs run hs)

instance : IsPreorder Store Kept where
  refl s := ⟨.refl s, fun _ _ _ h => h⟩
  trans _ _ _ h h' :=
    ⟨h.toOnward.trans h'.toOnward,
      fun kind seq hseq hp => h'.placed kind seq hseq (h.placed kind seq hseq hp)⟩

/-- With the live links, what they file is kept. -/
theorem Onward.kept (h : Onward s s') (hlinks : ∀ l ∈ s.links.rows, l.live = true → l ∈ s'.links.rows) :
    Kept s s' where
  toOnward := h
  placed kind seq _ hp := by
    obtain ⟨l, hl, hlive, hkind, hid, hnode⟩ := hp
    exact ⟨l, hlinks l hl hlive, hlive, hkind, hid, h.live _ hnode⟩

end

/-! ### A filing -/

section stage

variable {h : Host} {s s' : Store} {now run : ℤ}

/-- The journal of a run is no link, no class and no source. -/
theorem onward_journalOp {rec : OpRecord} (hj : s.journalOp run rec = .ok s') :
    Onward s s' ∧ s'.links = s.links ∧ s'.nodes = s.nodes := by
  have hsame := sameCatalog_journalOp hj
  obtain ⟨ops, rfl, -⟩ := journalOp_ok hj
  refine ⟨⟨fun q hq => hq, le_rfl, fun l hl _ => ⟨l, hl, rfl, rfl, rfl⟩, ?_, fun _ h => h, fun _ h => h⟩,
    rfl, rfl⟩
  exact Integral.congr hsame

/-- A new class is live, and the links are as they were. -/
theorem onward_createChild {parentId title id : String} (hp : s.Live parentId)
    (hc : s.createChild h now (some run) parentId title = .ok (s', id)) :
    Onward s s' ∧ s'.links = s.links ∧ s'.Live id := by
  have hall := hc
  obtain ⟨⟨s₁, id⟩, hi, hc⟩ := bind_eq_ok.mp hc
  obtain ⟨s₂, hj, hc⟩ := bind_eq_ok.mp hc
  cases hc
  obtain ⟨hon, hlinks, hnodes⟩ := onward_journalOp hj
  obtain ⟨rfl, nodes, hins, rfl⟩ := insertNode_ok hi
  have hget : ∀ k, nodes.get? k = if _ = k then some _ else s.nodes.get? k :=
    fun k => Table.get?_insert? hins
  refine ⟨⟨fun q hq => hon.live q ?_, hon.ids, hon.targets, fun hs => (integral_createChild hs hp hall).1,
    hon.sources, hon.runs⟩, hlinks, ?_⟩
  · obtain ⟨a, ha, hal⟩ := nodeExists_iff.mp hq
    exact nodeExists_iff.mpr ⟨a, Table.get?_insert?_old hins ha, hal⟩
  · apply hon.live
    exact nodeExists_iff.mpr ⟨_, (hget _).trans (if_pos rfl), rfl⟩

/-- The class a filing goes to is live. -/
theorem onward_filingNode {parentId node : String} {subClass : Option String} {made : Bool}
    (hp : s.Live parentId)
    (hn : s.filingNode h now (some run) parentId subClass = .ok (s', node, made)) :
    Onward s s' ∧ s'.links = s.links ∧ s'.Live node ∧
      (subClass = none → s' = s ∧ node = parentId ∧ made = false) := by
  unfold filingNode at hn
  split at hn
  · cases hn
    exact ⟨.refl s, rfl, hp, fun _ => ⟨rfl, rfl, rfl⟩⟩
  split_ifs at hn
  · cases hn
    exact ⟨.refl s, rfl, hp, fun h => by cases h⟩
  split at hn
  · rename_i id hfound
    cases hn
    refine ⟨.refl s, rfl, ?_, fun h => by cases h⟩
    obtain ⟨a, ha, hrow⟩ := Table.mem_map_select.mp (List.mem_of_mem_head? hfound)
    simp only [Bool.and_eq_true, decide_eq_true_eq] at hrow
    exact nodeExists_iff.mpr ⟨a, ha, hrow.2⟩
  · obtain ⟨⟨s₁, id⟩, hc, hn⟩ := bind_eq_ok.mp hn
    cases hn
    obtain ⟨hon, hlinks, hlive⟩ := onward_createChild hp hc
    exact ⟨hon, hlinks, hlive, fun h => by cases h⟩

/-- A link whose mark is written keeps its id and its target. -/
theorem exists_of_mem_update {p : LinkRow → Bool} {f : LinkRow → LinkRow}
    {rows : List LinkRow} {l' : LinkRow} (hid : ∀ r, (f r).id = r.id)
    (hdedup : ∀ r, (f r).dedup = r.dedup) (hl' : l' ∈ rows.map fun r => if p r then f r else r) :
    ∃ l ∈ rows, l.id = l'.id ∧ l.targetKind = l'.targetKind ∧ l.targetId = l'.targetId := by
  obtain ⟨l, hl, rfl⟩ := List.mem_map.mp hl'
  refine ⟨l, hl, ?_⟩
  split_ifs
  · obtain ⟨-, hkind, htarget⟩ := (Prod.mk.injEq _ _ _ _).mp (hdedup l) |>.imp_right (Prod.mk.injEq _ _ _ _).mp
    exact ⟨(hid l).symm, hkind.symm, htarget.symm⟩
  · exact ⟨rfl, rfl, rfl⟩

/-- After a filing its link is live; it says so if the link was not. -/
theorem onward_fileLink {node targetKind targetId : String} {note : Option String} {linked : Bool}
    (hn : s.Live node)
    (hl : s.fileLink now (some run) node targetKind targetId note = .ok (s', linked)) :
    Onward s s' ∧ (∀ l ∈ s.links.rows, l.live = true → l ∈ s'.links.rows) ∧
      (∃ l ∈ s'.links.rows, l.live = true ∧ l.dedup = (node, targetKind, targetId)) ∧
      (linked = true → ∀ l ∈ s.links.rows, l.live = true → l.dedup ≠ (node, targetKind, targetId)) := by
  have hall := hl
  unfold fileLink at hl
  split at hl
  · rename_i l hfound
    have hmem := List.mem_of_find?_eq_some hfound
    have hdedup : l.dedup = (node, targetKind, targetId) := by simpa using List.find?_some hfound
    split at hl
    · rename_i hret
      cases hl
      exact ⟨.refl s, fun l hl _ => hl, ⟨l, hmem, by simp [LinkRow.live, hret], hdedup⟩,
        fun h => by cases h⟩
    · rename_i hret
      obtain ⟨s₂, hj, hl⟩ := bind_eq_ok.mp hl
      cases hl
      obtain ⟨hon, hlinks, -⟩ := onward_journalOp hj
      have hsame : ∀ r ∈ s.links.rows, r.id = l.id → r = l := fun r hr hid =>
        List.inj_on_of_nodup_map s.links.nodup hr hmem hid
      rw [hlinks]
      refine ⟨⟨fun q hq => hon.live q hq, hon.ids, fun l' hl' _ => ?_,
        fun hs => integral_fileLink hs hn hall, hon.sources, hon.runs⟩, ?_, ?_, ?_⟩
      · rw [hlinks] at hl'
        exact exists_of_mem_update (f := fun r => { r with retiredByRun := none }) (fun _ => rfl)
          (fun _ => rfl) hl'
      · intro r hr hlive
        refine List.mem_map.mpr ⟨r, hr, if_neg fun hid => ?_⟩
        rw [hsame r hr (of_decide_eq_true hid), LinkRow.live, hret] at hlive
        cases hlive
      · exact ⟨{ l with retiredByRun := none },
          List.mem_map.mpr ⟨l, hmem, if_pos (decide_eq_true rfl)⟩, rfl, hdedup⟩
      · intro _ r hr hlive heq
        rw [List.inj_on_of_nodup_map s.links.unique hr hmem (heq.trans hdedup.symm), LinkRow.live,
          hret] at hlive
        cases hlive
  · rename_i hnone
    split at hl
    · cases hl
    rename_i links hins
    obtain ⟨s₂, hj, hl⟩ := bind_eq_ok.mp hl
    cases hl
    obtain ⟨hon, hlinks, -⟩ := onward_journalOp hj
    have hauto := IndexedTable.insert?_eq_some.mp hins
    have hrows : links.rows = s.links.rows ++
        [⟨s.links.nextId, node, targetKind, targetId, note, now, none, none⟩] := by
      rw [hauto, AutoTable.rows_insert]
    have hlast : links.lastId = s.links.lastId + 1 := by rw [hauto, AutoTable.lastId_insert]; rfl
    rw [hlinks]
    show _ ∧ (∀ l ∈ s.links.rows, l.live = true → l ∈ links.rows) ∧ (∃ l ∈ links.rows, _) ∧ _
    refine ⟨⟨fun q hq => hon.live q hq, ?_, fun l' hl' hle => ?_,
        fun hs => integral_fileLink hs hn hall, hon.sources, hon.runs⟩, ?_, ?_, ?_⟩
    · have hids : links.lastId ≤ s'.links.lastId := hon.ids
      omega
    · rw [hlinks] at hl'
      change l' ∈ links.rows at hl'
      rw [hrows] at hl'
      rcases List.mem_append.mp hl' with hold | hnew
      · exact ⟨l', hold, rfl, rfl, rfl⟩
      · obtain rfl := List.mem_singleton.mp hnew
        have : s.links.lastId + 1 ≤ s.links.lastId := hle
        omega
    · intro l hl _
      rw [hrows]
      exact List.mem_append_left _ hl
    · exact ⟨_, hrows ▸ List.mem_append_right _ List.mem_cons_self, rfl, rfl⟩
    · intro _ l hl _
      simpa using List.find?_eq_none.mp hnone l hl

/-- **A filing** under a live class: its link is live, and was not if it is counted. -/
theorem kept_stageFile {parentId targetKind targetId : String} {subClass note rationale : Option String}
    {out : StagedOutcome}
    (hp : s.stageProposal h now (some run)
      (.file parentId subClass targetKind targetId note rationale) = .ok (s', out)) :
    Kept s s' ∧ (∀ l ∈ s.links.rows, l.live = true → l ∈ s'.links.rows) ∧
      (s.Live parentId → s.runSourceForgotten run = false →
        (parseI64 targetId).any s.sourceForgotten = false →
        ∃ l ∈ s'.links.rows, l.live = true ∧ l.targetKind = targetKind ∧ l.targetId = targetId ∧
          s'.Live l.nodeId) ∧
      (subClass = none → out ≠ .skipped →
        (∃ l ∈ s'.links.rows, l.live = true ∧ l.dedup = (parentId, targetKind, targetId) ∧
          s'.Live l.nodeId) ∧
        ∀ l ∈ s.links.rows, l.live = true → l.dedup ≠ (parentId, targetKind, targetId)) := by
  unfold stageProposal at hp
  split_ifs at hp with hforgotten
  · cases hp
    refine ⟨refl s, fun l hl _ => hl, fun _ hrun hseq => ?_, fun _ hout => absurd rfl hout⟩
    simp [hrun, namesForgotten, hseq] at hforgotten
  dsimp only at hp
  split_ifs at hp with hexists
  · cases hp
    refine ⟨refl s, fun l hl _ => hl, fun hlive => ?_, fun _ hout => absurd rfl hout⟩
    rw [Live] at hlive
    simp [hlive] at hexists
  · have hparent : s.Live parentId := by simpa [Live] using hexists
    obtain ⟨⟨s₁, node, made⟩, hn, hp⟩ := bind_eq_ok.mp hp
    obtain ⟨⟨s₂, linked⟩, hl, hp⟩ := bind_eq_ok.mp hp
    cases hp
    obtain ⟨hon₁, hlinks₁, hnode, hsame⟩ := onward_filingNode hparent hn
    obtain ⟨hon₂, hlinks₂, ⟨l, hlmem, hllive, hldedup⟩, hfresh⟩ := onward_fileLink hnode hl
    rw [hlinks₁] at hlinks₂ hfresh
    obtain ⟨hlnode, hlkind, hltarget⟩ := (Prod.mk.injEq _ _ _ _).mp hldedup |>.imp_right
      (Prod.mk.injEq _ _ _ _).mp
    have hlive : s₂.Live l.nodeId := hlnode ▸ hon₂.live node hnode
    refine ⟨(hon₁.trans hon₂).kept hlinks₂, hlinks₂,
      fun _ _ _ => ⟨l, hlmem, hllive, hlkind, hltarget, hlive⟩, fun hsub hout => ?_⟩
    obtain ⟨-, rfl, rfl⟩ := hsame hsub
    have hlinked : linked = true := by
      by_contra hno
      simp [hno] at hout
    exact ⟨⟨l, hlmem, hllive, hldedup, hlive⟩, hfresh hlinked⟩

/-- A link is live after a retirement if it was, and is another. -/
theorem live_retireLink {link : ℤ} {into : Option String} {l : LinkRow}
    (hl : l ∈ (s.retireLink link run into).links.rows) (hlive : l.live = true) : l ∈ s.links.rows := by
  obtain ⟨r, hr, heq⟩ := List.mem_map.mp hl
  split_ifs at heq with hp
  · subst heq
    cases hlive
  · exact heq ▸ hr

theorem onward_retireLink (link : ℤ) (into : Option String) : Onward s (s.retireLink link run into) where
  live _ hq := hq
  ids := le_rfl
  targets l' hl' _ := by
    refine exists_of_mem_update (f := fun l => { l with
      retiredByRun := some run
      note := (into.map fun node => "refiled → " ++ node).or l.note }) (fun _ => rfl) (fun _ => rfl) hl'
  integral hs := ⟨hs.parents, fun l hl hlive => hs.links l (live_retireLink hl hlive) hlive, hs.observations⟩
  sources _ h := h
  runs _ h := h

/-- **A member that is filed elsewhere** may lose the link it had in its inbox. -/
theorem Kept.refile {link : ℤ} {into : Option String} {nodeId kind : String} {seq : ℤ}
    (hkept : Kept s s₁) (hlinks : ∀ l ∈ s.links.rows, l.live = true → l ∈ s₁.links.rows)
    (hknown : ∀ l ∈ s.links.rows, l.id = link → l.targetKind = kind ∧ castInteger l.targetId = seq)
    (hnew : ∃ l ∈ s₁.links.rows, l.live = true ∧ l.dedup = (nodeId, kind, i64ToString seq) ∧
      s₁.Live l.nodeId)
    (hfresh : ∀ l ∈ s.links.rows, l.live = true → l.dedup ≠ (nodeId, kind, i64ToString seq)) :
    Kept s (s₁.retireLink link run into) where
  toOnward := hkept.toOnward.trans (onward_retireLink link into)
  placed k n hn hp := by
    have hstays : ∀ l ∈ s₁.links.rows, l.id ≠ link → l ∈ (s₁.retireLink link run into).links.rows :=
      fun l hl hid => List.mem_map.mpr ⟨l, hl, if_neg fun hlink => by simp [hid] at hlink⟩
    obtain ⟨l, hl, hlive, hlkind, hltarget, hnode⟩ := hp
    by_cases hid : l.id = link
    · -- the member's own link: the new one files the same item, and is another
      obtain ⟨hkind, hseq⟩ := hknown l hl hid
      rw [hltarget, castInteger_i64ToString hn] at hseq
      subst hseq
      obtain ⟨l₁, hl₁, hlive₁, hdedup₁, hnode₁⟩ := hnew
      obtain ⟨-, hkind₁, htarget₁⟩ := (Prod.mk.injEq _ _ _ _).mp hdedup₁ |>.imp_right
        (Prod.mk.injEq _ _ _ _).mp
      refine ⟨l₁, hstays l₁ hl₁ fun hid₁ => ?_, hlive₁, ?_, htarget₁, hnode₁⟩
      · have hsame := List.inj_on_of_nodup_map s₁.links.nodup hl₁ (hlinks l hl hlive)
          (hid₁.trans hid.symm)
        exact hfresh l hl hlive (hsame ▸ hdedup₁)
      · rw [hkind₁, ← hkind, hlkind]
    · exact ⟨l, hstays l (hlinks l hl hlive) hid, hlive, hlkind, hltarget, hkept.live _ hnode⟩

end stage

end Store

end PolisMemory
