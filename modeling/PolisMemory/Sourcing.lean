/-
# What a merge and a collapse keep

A merge moves what is on the absorbed nodes to the target, a collapse leaves a
digest where a branch was. Each keeps what was there on a condition that the
code does not ask.

A link moves onto the target unless the target has its entry, and retired rows
keep their entries: the item of such a link is on no live row of the target
afterwards. And a target that is listed again absorbs itself. So a merge keeps
every item and every child just where the target is live, is listed once, and
no entry on it is held by a retired row (`MergeKeeps`).

A digest cites what the proposal cites, whatever is on the branch by the time
it is applied and whether or not the ledger has it (`DigestSourced`).

Key definitions: `MergeKept`, `MergeKeeps`, `DigestSourced`, `CitesBranch`.
Key theorems: `absorb_seated`, `applyMerge_kept_iff`,
`applyCollapse_sourced_iff`.
-/
import PolisMemory.Applied
import PolisMemory.Compaction
import PolisMemory.JsonText
import PolisMemory.Queue

namespace PolisMemory

open Tables

/-- What a link is a link to. -/
abbrev LinkRow.item (l : LinkRow) : String × String := (l.targetKind, l.targetId)

namespace Store

/-! ### The op an apply makes -/

/-- The same catalog, and the same answers about the ledger's events. -/
structure SameSources (s s' : Store) : Prop extends SameCatalog s s' where
  ledger : s'.ledger = s.ledger
  forgotten : s'.sourceForgotten = s.sourceForgotten

/-- An apply that goes through is the op's own change of the catalog. -/
theorem applied_op {h : Host} {s s' : Store} {now id : ℤ} {actor : String} {run : Option ℤ}
    {p : ProposalRow} {a : AppliedReorg} (hp : s.proposals.get? id = some p)
    (ha : s.applyClassProposalInRun h now id actor run = (s', .ok (some a))) :
    ∃ s₀ run' s₁ detail, SameSources s s₀ ∧
      s₀.applyOp h now run' actor p = .ok (some (s₁, detail)) ∧ SameSources s₁ s' := by
  have hcase : ∀ (s₀ : Store) (run' : ℤ) (made : Bool), SameSources s s₀ →
      s₀.applyProposal h now run' made actor p = .ok (s', some a) →
      ∃ s₀ run' s₁ detail, SameSources s s₀ ∧
        s₀.applyOp h now run' actor p = .ok (some (s₁, detail)) ∧ SameSources s₁ s' := by
    intro s₀ run' made hsame hs
    unfold applyProposal at hs
    split_ifs at hs
    · cases hs
    obtain ⟨r, hop, hs⟩ := bind_eq_ok.mp hs
    cases r with
    | none => cases hs
    | some r =>
      obtain ⟨s₁, detail⟩ := r
      cases hs
      refine ⟨s₀, run', s₁, detail, hsame, hop, ?_⟩
      cases made <;> exact ⟨⟨rfl, rfl, rfl, rfl⟩, rfl, rfl⟩
  unfold applyClassProposalInRun at ha
  rw [hp] at ha
  dsimp only at ha
  cases hr : run.or p.runId with
  | some r =>
    simp only [hr] at ha
    split at ha
    · cases ha
    · rename_i s₂ a' hs
      cases ha
      exact hcase s r false ⟨.refl s, rfl, rfl⟩ hs
  | none =>
    simp only [hr] at ha
    split at ha
    · cases ha
    · rename_i s₂ a' hs
      cases ha
      exact hcase (s.insertClassRunWith now .curation none none).1 _ true
        ⟨⟨rfl, rfl, rfl, rfl⟩, rfl, rfl⟩ hs

/-! ### Entries on a target -/

/-- A node has a row for an item, live or retired. -/
def HasEntry (s : Store) (node : String) (item : String × String) : Prop :=
  ∃ l r, s.links.get? l = some r ∧ r.dedup = (node, item)

/-- A node has a live link to an item. -/
def Holds (s : Store) (node : String) (item : String × String) : Prop :=
  ∃ l r, s.links.get? l = some r ∧ r.dedup = (node, item) ∧ r.live = true

theorem Holds.hasEntry {s : Store} {node : String} {item : String × String}
    (h : s.Holds node item) : s.HasEntry node item := by
  obtain ⟨l, r, hr, hd, -⟩ := h
  exact ⟨l, r, hr, hd⟩

/-- An entry has one row. -/
theorem eq_of_dedup {s : Store} {l l' : ℤ} {r r' : LinkRow} (hr : s.links.get? l = some r)
    (hr' : s.links.get? l' = some r') (hd : r.dedup = r'.dedup) : l = l' ∧ r = r' := by
  have heq := IndexedTable.eq_of_index hr hr' hd
  subst heq
  exact ⟨(Table.key_of_get? hr).symm.trans (Table.key_of_get? hr'), rfl⟩

/-- A link that was moved to the target or could not be: the target has its
entry afterwards. -/
theorem moveLinks_seated {run : ℤ} {target other : String} : ∀ (ls : List ℤ), ls.Nodup →
    ∀ (s : Store) (m : MergeImage), ∀ l ∈ ls, ∀ a, s.links.get? l = some a →
      (moveLinks run target other ls s m).1.HasEntry target a.item
  | [], _, _, _, _, hl, _, _ => absurd hl List.not_mem_nil
  | l₀ :: ls, hnd, s, m, l, hl, a, ha => by
    obtain ⟨hl₀, hnd'⟩ := List.nodup_cons.mp hnd
    -- what the target has, it still has after the rest
    have hkeep : ∀ (s₁ : Store) (m₁ : MergeImage), s₁.HasEntry target a.item →
        (moveLinks run target other ls s₁ m₁).1.HasEntry target a.item := by
      rintro s₁ m₁ ⟨l', r, hr, hd⟩
      obtain ⟨s₂, moved, leftover, heq, hm⟩ := moveLinks_eq run target other ls hnd' s₁ m₁
      rw [heq]
      have hrow := hm.rows l'
      rw [hr, Option.map_some] at hrow
      refine ⟨l', _, hrow, ?_⟩
      simp only [LinkRow.dedup, Prod.mk.injEq] at hd
      split_ifs <;> simp [LinkRow.dedup, LinkRow.retire, hd]
    rw [moveLinks]
    split
    · rename_i links hre
      have hget : ∀ k, links.get? k = _ := fun k => IndexedTable.get?_reindex? hre
      by_cases heq : l = l₀
      · subst heq
        apply hkeep
        exact ⟨l, { a with nodeId := target }, by rw [hget, ha, Option.map_some, if_pos rfl], rfl⟩
      · apply moveLinks_seated ls hnd' _ _ l ((List.mem_cons.mp hl).resolve_left heq) a
        change links.get? l = some a
        rw [hget, ha, Option.map_some, if_neg heq]
    · rename_i hre
      by_cases heq : l = l₀
      · subst heq
        apply hkeep
        -- only another row with the entry stops a link
        by_contra hfree
        obtain ⟨links, hlinks⟩ := @IndexedTable.reindex?_isSome LinkRow _ LinkRow.id LinkRow.dedup _
          s.links (fun r => { r with nodeId := target }) l (fun _ => rfl) fun r hr k' r' hr' hd => by
            obtain rfl := Option.some.inj (ha.symm.trans hr)
            by_contra hne
            apply hfree
            refine ⟨k', r', ?_, hd⟩
            rw [get?_retireLinks, hr', Option.map_some, if_neg (by simpa using hne)]
        rw [hlinks] at hre
        cases hre
      · apply moveLinks_seated ls hnd' _ _ l ((List.mem_cons.mp hl).resolve_left heq) a
        rw [get?_retireLinks, ha, Option.map_some, if_neg (by simpa using heq)]

/-- What the target has, it still has after some nodes were absorbed. -/
theorem Absorbed.hasEntry {run : ℤ} {target : String} {done : List String} {s s' : Store}
    (h : Absorbed run target done s s') {item : String × String} (he : s.HasEntry target item) :
    s'.HasEntry target item := by
  obtain ⟨l, r, hr, hd⟩ := he
  simp only [LinkRow.dedup, Prod.mk.injEq] at hd
  rcases h.links hr with ⟨hr', -⟩ | ⟨-, hr' | hr'⟩
  · exact ⟨l, r, hr', by simp [LinkRow.dedup, hd]⟩
  · exact ⟨l, _, hr', by simp [LinkRow.dedup, hd]⟩
  · exact ⟨l, _, hr', by simp [LinkRow.dedup, LinkRow.retire, hd]⟩

/-- The entries of what is live on the absorbed nodes are on the target
afterwards. -/
theorem absorb_seated {now run : ℤ} {target : String} : ∀ (others : List String) (s : Store)
    (m : MergeImage) (subjects : List Subject) {l : ℤ} {a : LinkRow}, s.links.get? l = some a →
      a.live = true → s.gone others a.nodeId = true →
      (absorb now run target others s m subjects).1.HasEntry target a.item
  | [], _, _, _, _, _, _, _, hgone => by simp [gone] at hgone
  | other :: others, s, m, subjects, l, a, ha, hlive, hgone => by
    have hmem : a.nodeId ∈ other :: others ∧ s.nodeExists a.nodeId = true := by
      simpa [gone] using hgone
    rw [absorb]
    split
    · rename_i hn
      have hne : a.nodeId ≠ other := by
        rintro heq
        have := hmem.2
        rw [heq, nodeExists, hn] at this
        cases this
      apply absorb_seated others s m subjects ha hlive
      simp [gone, hmem.2, (List.mem_cons.mp hmem.1).resolve_left hne]
    · rename_i row hrow
      have hrest := @absorb_absorbed now run target _ others [] _
        (absorbNode now run target other row s m).2
        (subjects ++ .node other :: (s.liveLinks other).map .link)
        (.refl run target (absorbNode now run target other row s m).1)
      by_cases heq : a.nodeId = other
      · apply hrest.hasEntry
        have hl : l ∈ s.liveLinks other := mem_liveLinks.mpr ⟨a, ha, heq, hlive⟩
        obtain ⟨l', r, hr, hd⟩ := @moveLinks_seated run target other (s.liveLinks other)
          (liveLinks_nodup s other) s m l hl a ha
        exact ⟨l', r, hr, hd⟩
      · obtain ⟨moved, leftover, hone⟩ := absorbNode_eq now run target other row s m
        have hl : l ∉ s.liveLinks other := by
          intro hl
          obtain ⟨b, hb, hbn, -⟩ := mem_liveLinks.mp hl
          obtain rfl := Option.some.inj (ha.symm.trans hb)
          exact heq hbn
        have hno := mt (hone.mem l).mpr hl
        have ha' : (absorbNode now run target other row s m).1.links.get? l = some a := by
          rw [hone.links, ha, Option.map_some, if_neg fun h => hno (.inl h),
            if_neg fun h => hno (.inr h)]
        apply absorb_seated others _ _ _ ha' hlive
        have hstep : Absorbed run target [other] s (absorbNode now run target other row s m).1 :=
          (Absorbed.refl run target s).snoc (by rw [nodeExists, hrow]; rfl) hone
        rw [gone, hstep.nodeExists, gone]
        simp [hmem.2, heq, (List.mem_cons.mp hmem.1).resolve_left heq]

/-! ### What a merge is to keep -/

theorem mem_liveLinkRows {s : Store} {id : String} {r : LinkRow} : r ∈ s.liveLinkRows id ↔
    s.links.get? r.id = some r ∧ r.nodeId = id ∧ r.live = true := by
  simp only [liveLinkRows, Table.mem_select, Bool.and_eq_true, decide_eq_true_eq]

theorem holds_iff {s : Store} {id : String} {item : String × String} :
    s.Holds id item ↔ ∃ r ∈ s.liveLinkRows id, r.item = item := by
  constructor
  · rintro ⟨l, r, hr, hd, hl⟩
    obtain rfl := Table.key_of_get? hr
    obtain ⟨hn, hi⟩ := Prod.mk.inj hd
    exact ⟨r, mem_liveLinkRows.mpr ⟨hr, hn, hl⟩, hi⟩
  · rintro ⟨r, hr, rfl⟩
    obtain ⟨hget, hn, hl⟩ := mem_liveLinkRows.mp hr
    exact ⟨r.id, r, hget, by rw [LinkRow.dedup, hn], hl⟩

/-- The target is live; an item of a live link on a merged node has one live
link on the target; a live child of an absorbed node that is not merged itself
is a live child of the target. -/
structure MergeKept (s s' : Store) (target : String) (others : List String) : Prop where
  live : s'.nodeExists target = true
  items : ∀ x ∈ target :: others, ∀ l ∈ s.liveLinkRows x,
    ∃! r, r ∈ s'.liveLinkRows target ∧ r.item = l.item
  children : ∀ x ∈ others, s.nodeExists x = true → ∀ c ∈ s.liveChildren x,
    c ∉ target :: others → c ∈ s'.liveChildren target

/-- The target is live and listed once, and an item of a live link on another
listed node has a live link on the target, or has no row there while a live
one of them holds it. -/
structure MergeKeeps (s : Store) (target : String) (others : List String) : Prop where
  live : s.nodeExists target = true
  once : target ∉ others
  items : ∀ x ∈ others, ∀ l ∈ s.liveLinkRows x, s.Holds target l.item ∨
    ¬s.HasEntry target l.item ∧ ∃ y ∈ others, s.nodeExists y = true ∧ s.Holds y l.item

/-- A live link of an item is the only one. -/
theorem existsUnique_of_holds {s : Store} {id : String} {item : String × String}
    (h : s.Holds id item) : ∃! r, r ∈ s.liveLinkRows id ∧ r.item = item := by
  obtain ⟨r, hr, hi⟩ := holds_iff.mp h
  refine ⟨r, ⟨hr, hi⟩, ?_⟩
  rintro r' ⟨hr', hi'⟩
  obtain ⟨hget, hn, -⟩ := mem_liveLinkRows.mp hr
  obtain ⟨hget', hn', -⟩ := mem_liveLinkRows.mp hr'
  exact (eq_of_dedup hget' hget (Prod.ext (hn'.trans hn.symm) (hi'.trans hi.symm))).2

section merge

variable {run : ℤ} {target : String} {others : List String} {s s' : Store}

/-- A live link on the target stays, if the target is not absorbed. -/
theorem Absorbed.holds (h : Absorbed run target others s s') (hn : target ∉ others)
    {item : String × String} (hh : s.Holds target item) : s'.Holds target item := by
  obtain ⟨l, r, hr, hd, hl⟩ := hh
  have hgone : s.gone others r.nodeId = false := by
    rw [show r.nodeId = target from (Prod.mk.inj hd).1]
    simp [gone, hn]
  rcases h.links hr with ⟨hr', -⟩ | ⟨⟨-, hg⟩, -⟩
  · exact ⟨l, r, hr', hd, hl⟩
  · rw [hgone] at hg
    cases hg

/-- A live link on the target was there, or moved there from an absorbed node
that was live. -/
theorem Absorbed.of_holds (h : Absorbed run target others s s') (hn : target ∉ others)
    {item : String × String} (hh : s'.Holds target item) : s.Holds target item ∨
      ¬s.HasEntry target item ∧ ∃ y ∈ others, s.nodeExists y = true ∧ s.Holds y item := by
  obtain ⟨l, r', hr', hd, hl⟩ := hh
  cases hr : s.links.get? l with
  | none => simp [h.noLinks hr] at hr'
  | some r =>
    rcases h.links hr with ⟨hsame, -⟩ | ⟨⟨hlive, hg⟩, hmoved | hleft⟩
    · obtain rfl := Option.some.inj (hsame.symm.trans hr')
      exact .inl ⟨l, r, hr, hd, hl⟩
    · obtain rfl := Option.some.inj (hmoved.symm.trans hr')
      have hy : r.nodeId ∈ others ∧ s.nodeExists r.nodeId = true := by simpa [gone] using hg
      have hitem : r.item = item := (Prod.mk.inj hd).2
      refine .inr ⟨?_, r.nodeId, hy.1, hy.2, l, r, hr, by rw [LinkRow.dedup, ← hitem], hlive⟩
      -- a row of the entry would have stayed beside the moved one
      rintro ⟨l₀, r₀, hr₀, hd₀⟩
      have hr₀n : r₀.nodeId = target := (Prod.mk.inj hd₀).1
      rcases h.links hr₀ with ⟨hsame, -⟩ | ⟨⟨-, hg₀⟩, -⟩
      · obtain ⟨rfl, -⟩ := eq_of_dedup hsame hr' (hd₀.trans hd.symm)
        obtain rfl := Option.some.inj (hr₀.symm.trans hr)
        exact hn (hr₀n ▸ hy.1)
      · simp [gone, hr₀n, hn] at hg₀
    · obtain rfl := Option.some.inj (hleft.symm.trans hr')
      cases hl

/-- What the absorbed nodes hold, the target holds if it had no row for it. -/
theorem Absorbed.holds_of_free (h : Absorbed run target others s s')
    (hseat : ∀ {l a}, s.links.get? l = some a → a.live = true → s.gone others a.nodeId = true →
      s'.HasEntry target a.item) {item : String × String} (hfree : ¬s.HasEntry target item)
    {y : String} (hy : y ∈ others) (hlive : s.nodeExists y = true) (hh : s.Holds y item) :
    s'.Holds target item := by
  obtain ⟨l, a, ha, hd, hl⟩ := hh
  obtain ⟨hn, hi⟩ := Prod.mk.inj hd
  obtain ⟨l', r', hr', hd'⟩ := hseat ha hl (by simp [gone, hn, hy, hlive])
  rw [show a.item = item from hi] at hd'
  cases hr : s.links.get? l' with
  | none => simp [h.noLinks hr] at hr'
  | some r =>
    rcases h.links hr with ⟨hsame, -⟩ | ⟨⟨hrl, -⟩, hmoved | hleft⟩
    · exact absurd ⟨l', r, hr, by rwa [Option.some.inj (hsame.symm.trans hr')]⟩ hfree
    · exact ⟨l', r', hr', hd', by rw [← Option.some.inj (hmoved.symm.trans hr')]; exact hrl⟩
    · refine absurd ⟨l', r, hr, ?_⟩ hfree
      rw [← Option.some.inj (hleft.symm.trans hr')] at hd'
      exact hd'

theorem absorbed_kept_iff {now : ℤ} {p : ProposalRow} {s₀ : Store}
    (h : Absorbed run target others (s₀.mergeStart now target p) s)
    (hseat : ∀ {l a}, s₀.links.get? l = some a → a.live = true →
      s₀.gone others a.nodeId = true → s.HasEntry target a.item) :
    MergeKept s₀ s target others ↔ MergeKeeps s₀ target others := by
  obtain ⟨-, -, hlinks, -⟩ := s₀.sameLake_mergeStart now target p
  have hex := s₀.nodeExists_mergeStart now target p
  have hgone : (s₀.mergeStart now target p).gone others = s₀.gone others := by
    funext id
    rw [gone, gone, hex]
  have hrows : (s₀.mergeStart now target p).liveLinkRows = s₀.liveLinkRows := by
    funext id
    rw [liveLinkRows, hlinks, liveLinkRows]
  have hlive : s.nodeExists target = true ↔ s₀.nodeExists target = true ∧ target ∉ others := by
    rw [h.nodeExists, hgone, gone, hex]
    cases s₀.nodeExists target <;> by_cases ht : target ∈ others <;> simp [ht]
  have hholds : ∀ {y item}, (s₀.mergeStart now target p).Holds y item ↔ s₀.Holds y item := by
    intro y item
    rw [holds_iff, hrows, holds_iff]
  have hentry : ∀ {item}, (s₀.mergeStart now target p).HasEntry target item ↔
      s₀.HasEntry target item := by
    intro item
    rw [HasEntry, hlinks, HasEntry]
  constructor
  · intro hkept
    obtain ⟨hl, hn⟩ := hlive.mp hkept.live
    refine ⟨hl, hn, fun x hx l hmem => ?_⟩
    obtain ⟨r, ⟨hr, hi⟩, -⟩ := hkept.items x (List.mem_cons_of_mem target hx) l hmem
    have hof := h.of_holds hn (holds_iff.mpr ⟨r, hr, hi⟩)
    simpa only [hholds, hentry, hex] using hof
  · intro hkeeps
    refine ⟨hlive.mpr ⟨hkeeps.live, hkeeps.once⟩, fun x hx l hmem => ?_, fun x hx hxl c hc hcn => ?_⟩
    · apply existsUnique_of_holds
      rcases List.mem_cons.mp hx with rfl | hx
      · exact h.holds hkeeps.once (hholds.mpr (holds_iff.mpr ⟨l, hmem, rfl⟩))
      · rcases hkeeps.items x hx l hmem with hh | ⟨hfree, y, hy, hyl, hh⟩
        · exact h.holds hkeeps.once (hholds.mpr hh)
        · apply h.holds_of_free ?_ (mt hentry.mp hfree) hy (by rw [hex, hyl]) (hholds.mpr hh)
          intro l a ha hal hg
          exact hseat (hlinks ▸ ha) hal (hgone ▸ hg)
    · obtain ⟨a, ha, hap, hal⟩ := mem_liveChildren.mp hc
      have hct : c ≠ target := fun heq => hcn (heq ▸ List.mem_cons_self)
      have hco : c ∉ others := fun hm => hcn (List.mem_cons_of_mem target hm)
      have ha' : (s₀.mergeStart now target p).nodes.get? c = some a := by
        rw [get?_mergeStart, ha, Option.map_some, if_neg hct]
      obtain ⟨b, hb, hab⟩ := h.nodes ha'
      have hcg : (s₀.mergeStart now target p).gone others a.id = false := by
        rw [Table.key_of_get? ha, gone]
        simp [hco]
      have hxg : (s₀.mergeStart now target p).gone others x = true := by
        rw [hgone, gone]
        simp [hx, hxl]
      refine mem_liveChildren.mpr ⟨b, hb, ?_, ?_⟩
      · rw [hab.parentLive hal hcg, hap]
        simp [hxg]
      · rw [hab.live, hal, hcg]
        rfl

end merge

/-- The rows a merge changes are those of its absorption. -/
theorem applyMerge_absorb {s s' : Store} {now run : ℤ} {p : ProposalRow} {detail : String}
    (ha : s.applyMerge now run p = .ok (some (s', detail))) :
    ∃ target others m subjects, Extra.asIds p.extra = target :: others ∧
      SameCatalog (absorb now run target others (s.mergeStart now target p) m subjects).1 s' := by
  unfold applyMerge at ha
  split at ha
  · cases ha
  rename_i target others hids
  split at ha
  · cases ha
  rename_i row hrow
  obtain ⟨s₂, hj, hs⟩ := bind_eq_ok.mp ha
  cases hs
  obtain ⟨ops, rfl, -⟩ := journalOp_ok hj
  exact ⟨target, others, _, _, hids, ⟨rfl, rfl, rfl, rfl⟩⟩

section congr

variable {s₁ s₂ t₁ t₂ : Store} {target : String} {others : List String}

theorem liveLinkRows_congr (h : SameCatalog s₁ s₂) : s₂.liveLinkRows = s₁.liveLinkRows := by
  funext x
  rw [liveLinkRows, h.links, liveLinkRows]

theorem nodeExists_congr (h : SameCatalog s₁ s₂) : s₂.nodeExists = s₁.nodeExists := by
  funext x
  rw [nodeExists, liveNode?, h.nodes, nodeExists, liveNode?]

theorem MergeKept.congr (h : SameCatalog s₁ s₂) (h' : SameCatalog t₁ t₂)
    (hk : MergeKept s₁ t₁ target others) : MergeKept s₂ t₂ target others where
  live := by
    rw [nodeExists_congr h']
    exact hk.live
  items := by
    rw [liveLinkRows_congr h, liveLinkRows_congr h']
    exact hk.items
  children x hx hxl c hc hcn := by
    rw [nodeExists_congr h] at hxl
    rw [liveChildren_congr h.nodes] at hc
    rw [liveChildren_congr h'.nodes]
    exact hk.children x hx hxl c hc hcn

theorem MergeKeeps.congr (h : SameCatalog s₁ s₂) (hk : MergeKeeps s₁ target others) :
    MergeKeeps s₂ target others where
  live := by
    rw [nodeExists_congr h]
    exact hk.live
  once := hk.once
  items := by
    unfold HasEntry Holds
    rw [liveLinkRows_congr h, nodeExists_congr h, h.links]
    exact hk.items

end congr

theorem SameCatalog.symm {s s' : Store} (h : SameCatalog s s') : SameCatalog s' s :=
  ⟨h.nodes.symm, h.links.symm, h.observations.symm, h.minted.symm⟩

/-- A merge that is applied keeps what it is to keep just on its condition. -/
theorem applyMerge_kept_iff {h : Host} {s s' : Store} {now id : ℤ} {actor : String}
    {run : Option ℤ} {p : ProposalRow} {a : AppliedReorg} {target : String} {others : List String}
    (hp : s.proposals.get? id = some p) (hop : p.op = .merge)
    (hids : Extra.asIds p.extra = target :: others)
    (ha : s.applyClassProposalInRun h now id actor run = (s', .ok (some a))) :
    MergeKept s s' target others ↔ MergeKeeps s target others := by
  obtain ⟨s₀, run', s₁, detail, hsame, happ, hsame'⟩ := applied_op hp ha
  rw [applyOp, hop] at happ
  obtain ⟨target', others', m, subjects, hids', habs⟩ := applyMerge_absorb happ
  obtain ⟨rfl, rfl⟩ := List.cons.inj (hids.symm.trans hids')
  have hcat := habs.trans hsame'.toSameCatalog
  have habsorbed := @absorb_absorbed now run' target _ others [] _ m subjects
    (.refl run' target (s₀.mergeStart now target p))
  have hiff : MergeKept s₀ (absorb now run' target others (s₀.mergeStart now target p) m subjects).1
      target others ↔ MergeKeeps s₀ target others := by
    refine absorbed_kept_iff habsorbed fun {l b} hb hbl hg => ?_
    refine absorb_seated others _ m subjects (l := l) ?_ hbl ?_
    · rw [(sameLake_mergeStart _ now target p).2.2.1]
      exact hb
    · rw [gone, nodeExists_mergeStart]
      exact hg
  constructor
  · intro hk
    apply MergeKeeps.congr (SameCatalog.symm hsame.toSameCatalog)
    exact hiff.mp (hk.congr hsame.toSameCatalog (SameCatalog.symm hcat))
  · intro hk
    apply MergeKept.congr (SameCatalog.symm hsame.toSameCatalog) hcat
    exact hiff.mpr (hk.congr hsame.toSameCatalog)

end Store

/-! ### What a digest cites -/

/-- A link to a ledger seq. -/
def LinkRow.SeqLink (l : LinkRow) (seq : ℤ) : Prop :=
  l.targetKind ∈ Store.seqKinds ∧ parseI64 l.targetId = some seq

theorem intText_eq_toString (n : ℤ) : JsonText.intText n = (toString n).toList := by
  cases n <;> simp [JsonText.intText, toString, Int.repr, Nat.repr]

theorem toString_injective : Function.Injective (toString : ℤ → String) := by
  intro m n h
  apply JsonText.intText_injective
  rw [intText_eq_toString, intText_eq_toString, h]

namespace Store

/-- Each seq a digest cites has its entry, and a new row is a live citation of
one of them. -/
theorem cite_rows (now : ℤ) (digest : String) : ∀ (seqs : List ℤ) (s : Store) (c : List ℤ),
    (∀ seq ∈ seqs, (cite now digest seqs s c).1.HasEntry digest ("ledger", toString seq)) ∧
    ∀ l r, (cite now digest seqs s c).1.links.get? l = some r → s.links.get? l = some r ∨
      r.nodeId = digest ∧ r.live = true ∧ ∃ seq ∈ seqs, r.item = ("ledger", toString seq)
  | [], s, c => ⟨nofun, fun _ _ hr => .inl hr⟩
  | seq :: seqs, s, c => by
    -- what is cited stays cited
    have hkeep : ∀ (s₁ : Store) (c₁ : List ℤ), s₁.HasEntry digest ("ledger", toString seq) →
        (cite now digest seqs s₁ c₁).1.HasEntry digest ("ledger", toString seq) := by
      rintro s₁ c₁ ⟨l, r, hr, hd⟩
      exact ⟨l, r, (cite_eq now digest seqs s₁ c₁).old hr, hd⟩
    rw [cite]
    split
    · rename_i hins
      obtain ⟨h1, h2⟩ := cite_rows now digest seqs s c
      refine ⟨fun q hq => ?_, fun l r hr => ?_⟩
      · rcases List.mem_cons.mp hq with rfl | hq
        · apply hkeep
          -- only another row with the entry stops a citation
          by_contra hfree
          obtain ⟨links, hlinks⟩ := @IndexedTable.insert?_isSome LinkRow _ LinkRow.id LinkRow.dedup _
            s.links (fun id => ⟨id, digest, "ledger", toString q, none, now, none, none⟩)
            (fun _ => rfl) fun k r hr hd => hfree ⟨k, r, hr, hd⟩
          rw [hlinks] at hins
          cases hins
        · exact h1 q hq
      · rcases h2 l r hr with h | ⟨hn, hl, q, hq, hi⟩
        · exact .inl h
        · exact .inr ⟨hn, hl, q, List.mem_cons_of_mem seq hq, hi⟩
    · rename_i links hins
      have hget : ∀ k, links.get? k = _ := fun k => IndexedTable.get?_insert? hins
      obtain ⟨h1, h2⟩ := cite_rows now digest seqs { s with links := links } (c ++ [s.links.nextId])
      refine ⟨fun q hq => ?_, fun l r hr => ?_⟩
      · rcases List.mem_cons.mp hq with rfl | hq
        · apply hkeep
          exact ⟨s.links.nextId, _, by rw [hget, if_pos rfl], rfl⟩
        · exact h1 q hq
      · rcases h2 l r hr with h | ⟨hn, hl, q, hq, hi⟩
        · change links.get? l = some r at h
          rw [hget] at h
          split_ifs at h with hnew
          · cases h
            exact .inr ⟨rfl, rfl, seq, List.mem_cons_self, rfl⟩
          · exact .inl h
        · exact .inr ⟨hn, hl, q, List.mem_cons_of_mem seq hq, hi⟩

/-- A store with a collapse's digest beside the branch. -/
def withDigest (h : Host) (s : Store) (now : ℤ) (actor : String) (p : ProposalRow) (row : NodeRow) :
    Except DbError (Store × String) :=
  s.insertNode h (newRow now .digest row.parentId (p.title.getD s!"{row.title} (digest)") p.summary
    actor)

/-- The nodes that a collapse retires: the walk from its node, the digest in
its place. -/
def collapsedBranch (h : Host) (s : Store) (now : ℤ) (actor : String) (p : ProposalRow) :
    List String :=
  match s.nodes.get? (p.nodeId.getD "") with
  | none => []
  | some row =>
    match s.withDigest h now actor p row with
    | .error _ => []
    | .ok (s, _) => s.subtreeWalk walkGuard [p.nodeId.getD ""]

/-- A ledger seq of a live link of the branch has a live link on the digest,
and a seq the digest cites is in the ledger and not forgotten. -/
structure DigestSourced (s s' : Store) (digest : String) (branch : List String) : Prop where
  kept : ∀ x ∈ branch, ∀ l ∈ s.liveLinkRows x, ∀ seq, l.SeqLink seq →
    s'.Holds digest ("ledger", toString seq)
  real : ∀ seq, s'.HasEntry digest ("ledger", toString seq) →
    (s'.event? seq).isSome = true ∧ s'.sourceForgotten seq = false

/-- The citations name each ledger seq of a live link of the branch, which
then does not hold the digest itself, and are all of the ledger and not
forgotten. -/
structure CitesBranch (s : Store) (digest : String) (branch : List String) (cites : List ℤ) :
    Prop where
  all : ∀ x ∈ branch, ∀ l ∈ s.liveLinkRows x, ∀ seq, l.SeqLink seq →
    seq ∈ cites ∧ digest ∉ branch
  real : ∀ seq ∈ cites, (s.event? seq).isSome = true ∧ s.sourceForgotten seq = false

/-- The rows a collapse changes: the digest's citations, and the marks of its
branch. -/
theorem applyCollapse_rows {h : Host} {s s' : Store} {now run : ℤ} {actor detail : String}
    {p : ProposalRow} (ha : s.applyCollapse h now run actor p = .ok (s', detail)) :
    ∃ s₁ s₂ s₃ citations out,
      s₁.links = s.links ∧ (∀ {id a}, s.nodes.get? id = some a → s₁.nodes.get? id = some a) ∧
      SameLake s s₁ ∧ cite now (h.newNodeId s.minted) (Extra.asSeqs p.extra) s₁ [] = (s₂, citations) ∧
      RetiredBy run (some (h.newNodeId s.minted)) (s.collapsedBranch h now actor p) s₂ s₃
        ⟨[], [], []⟩ out ∧ SameSources s₃ s' ∧ Quiet s₃ s' := by
  unfold applyCollapse at ha
  dsimp only at ha
  split at ha
  · cases ha
  rename_i row hrow
  obtain ⟨⟨s₁, digest⟩, hi, ha⟩ := bind_eq_ok.mp ha
  have hbranch : s.collapsedBranch h now actor p = s₁.subtreeWalk walkGuard [p.nodeId.getD ""] := by
    unfold collapsedBranch
    rw [hrow]
    dsimp only
    rw [withDigest, hi]
  obtain ⟨rfl, nodes, hins, rfl⟩ := insertNode_ok hi
  obtain ⟨s₄, hj, hs⟩ := bind_eq_ok.mp ha
  cases hs
  have hcite := cite_eq now (h.newNodeId s.minted) (Extra.asSeqs p.extra)
    { s with nodes := nodes, minted := s.minted + 1 } []
  generalize hc : cite now (h.newNodeId s.minted) (Extra.asSeqs p.extra)
    { s with nodes := nodes, minted := s.minted + 1 } [] = cited at hcite hj
  obtain ⟨s₂, citations⟩ := cited
  have hwalk : s₂.subtreeWalk walkGuard [p.nodeId.getD ""] = s.collapsedBranch h now actor p := by
    rw [hbranch]
    exact @subtreeWalk_congr _ s₂ none (fun x _ => liveChildren_congr hcite.nodes x) (walkGuard - 1)
      _ nofun
  have hret := retireNodes_eq run (some (h.newNodeId s.minted))
    (s.collapsedBranch h now actor p) s₂ ⟨[], [], []⟩
  obtain ⟨ops, rfl, -⟩ := journalOp_ok hj
  refine ⟨{ s with nodes := nodes, minted := s.minted + 1 }, s₂, _, citations, _, rfl,
    Table.get?_insert?_old hins, s.sameLake_catalog _ _ _ _, hc, hret, ?_, ?_⟩
  · rw [retireNodeSubtree, hwalk]
    exact ⟨⟨rfl, rfl, rfl, rfl⟩, rfl, rfl⟩
  · rw [retireNodeSubtree, hwalk]
    exact ⟨⟨rfl, rfl, rfl, rfl⟩, rfl, fun hp => ⟨_, hp, rfl, rfl⟩⟩

theorem collapsed_sourced_iff {s s₁ s₂ s₃ s' : Store} {now run : ℤ} {digest : String}
    {branch : List String} {cites : List ℤ} {citations : List ℤ} {out : RetiredSet}
    (hfresh : ∀ l r, s.links.get? l = some r → r.nodeId ≠ digest) (hlinks : s₁.links = s.links)
    (hlake : SameLake s s₁) (hcite : cite now digest cites s₁ [] = (s₂, citations))
    (hret : RetiredBy run (some digest) branch s₂ s₃ ⟨[], [], []⟩ out) (hsame : SameSources s₃ s') :
    DigestSourced s s' digest branch ↔ CitesBranch s digest branch cites := by
  obtain ⟨hseated, hrows⟩ := cite_rows now digest cites s₁ []
  have hcited := cite_eq now digest cites s₁ []
  rw [hcite] at hseated hrows hcited
  have hlake' := hlake.trans (hcited.lake.trans hret.lake)
  have hledger : s'.event? = s.event? := by
    funext seq
    rw [event?, hsame.ledger, hlake'.ledger, event?]
  have hforgotten : s'.sourceForgotten = s.sourceForgotten := by
    rw [hsame.forgotten]
    funext seq
    simp only [sourceForgotten, event?, promptOf, hlake'.ledger, hlake'.decisionEvidence,
      hlake'.forgottenSources, hlake'.forgottenCaptures, hlake'.noteEvents]
  -- a row on the digest is a citation, live unless the digest is in the branch
  have hdigest : ∀ {l r}, s'.links.get? l = some r → r.nodeId = digest →
      (∃ seq ∈ cites, r.item = ("ledger", toString seq)) ∧ (r.live = true → digest ∉ branch) := by
    intro l r hr hn
    rw [hsame.links, hret.links, Option.map_eq_some_iff] at hr
    obtain ⟨r₂, hr₂, hr⟩ := hr
    have hn₂ : r₂.nodeId = digest := by
      rw [← hn, ← hr]
      split_ifs <;> rfl
    have hitem : r.item = r₂.item := by
      rw [← hr]
      split_ifs <;> rfl
    rcases hrows l r₂ hr₂ with h | ⟨-, hl₂, seq, hseq, hi⟩
    · exact absurd hn₂ (hfresh l r₂ (hlinks ▸ h))
    · refine ⟨⟨seq, hseq, hitem.trans hi⟩, fun hl hmem => ?_⟩
      rw [if_pos ⟨hn₂ ▸ hmem, hl₂⟩] at hr
      rw [← hr] at hl
      cases hl
  have hentry : ∀ {seq}, s'.HasEntry digest ("ledger", toString seq) ↔ seq ∈ cites := by
    intro seq
    constructor
    · rintro ⟨l, r, hr, hd⟩
      obtain ⟨hn, hi⟩ := Prod.mk.inj hd
      obtain ⟨⟨q, hq, hi'⟩, -⟩ := hdigest hr hn
      have := toString_injective (Prod.mk.inj (hi.symm.trans hi')).2
      exact this ▸ hq
    · intro hseq
      obtain ⟨l, r, hr, hd⟩ := hseated seq hseq
      refine ⟨l, if r.nodeId ∈ branch ∧ r.live = true then r.retire run else r, ?_, ?_⟩
      · rw [hsame.links, hret.links, hr, Option.map_some]
      · split_ifs
        · exact hd
        · exact hd
  have hholds : ∀ {seq}, s'.Holds digest ("ledger", toString seq) ↔ seq ∈ cites ∧ digest ∉ branch := by
    intro seq
    constructor
    · intro hh
      refine ⟨hentry.mp hh.hasEntry, ?_⟩
      obtain ⟨l, r, hr, hd, hl⟩ := hh
      exact (hdigest hr (Prod.mk.inj hd).1).2 hl
    · rintro ⟨hseq, hout⟩
      obtain ⟨l, r, hr, hd⟩ := hseated seq hseq
      have hn : r.nodeId = digest := (Prod.mk.inj hd).1
      refine ⟨l, r, ?_, hd, ?_⟩
      · rw [hsame.links, hret.links, hr, Option.map_some, if_neg (by rw [hn]; simp [hout])]
      · rcases hrows l r hr with h | ⟨-, hl, -⟩
        · exact absurd hn (hfresh l r (hlinks ▸ h))
        · exact hl
  constructor
  · rintro ⟨hkept, hreal⟩
    refine ⟨fun x hx l hl seq hseq => hholds.mp (hkept x hx l hl seq hseq), fun seq hseq => ?_⟩
    have := hreal seq (hentry.mpr hseq)
    rwa [hledger, hforgotten] at this
  · rintro ⟨hall, hreal⟩
    refine ⟨fun x hx l hl seq hseq => hholds.mpr (hall x hx l hl seq hseq), fun seq hseq => ?_⟩
    rw [hledger, hforgotten]
    exact hreal seq (hentry.mp hseq)

theorem collapsedBranch_congr {h : Host} {s s₀ : Store} (hsame : SameCatalog s s₀) (now : ℤ)
    (actor : String) (p : ProposalRow) :
    s₀.collapsedBranch h now actor p = s.collapsedBranch h now actor p := by
  unfold collapsedBranch withDigest insertNode
  rw [hsame.nodes, hsame.minted]
  cases s.nodes.get? (p.nodeId.getD "") with
  | none => rfl
  | some row =>
    dsimp only
    cases s.nodes.insert? (newRow now .digest row.parentId (p.title.getD s!"{row.title} (digest)")
      p.summary actor (h.newNodeId s.minted)) with
    | none => rfl
    | some nodes =>
      dsimp only
      apply @subtreeWalk_congr _ _ none _ (walkGuard - 1) _ nofun
      intro x _
      exact liveChildren_congr rfl x

/-- A collapse that is applied keeps its sourcing just where its citations
name it. -/
theorem applyCollapse_sourced_iff {h : Host} {s s' : Store} {now id : ℤ} {actor : String}
    {run : Option ℤ} {p : ProposalRow} {a : AppliedReorg}
    (hfresh : ∀ l r, s.links.get? l = some r → r.nodeId ≠ h.newNodeId s.minted)
    (hp : s.proposals.get? id = some p) (hop : p.op = .collapse)
    (ha : s.applyClassProposalInRun h now id actor run = (s', .ok (some a))) :
    DigestSourced s s' (h.newNodeId s.minted) (s.collapsedBranch h now actor p) ↔
      CitesBranch s (h.newNodeId s.minted) (s.collapsedBranch h now actor p)
        (Extra.asSeqs p.extra) := by
  obtain ⟨s₀, run', s₁, detail, hsame, happ, hsame'⟩ := applied_op hp ha
  rw [applyOp, hop] at happ
  obtain ⟨⟨s₂, detail'⟩, hcol, heq⟩ : ∃ r, s₀.applyCollapse h now run' actor p = .ok r ∧
      some r = some (s₁, detail) := by
    cases hr : s₀.applyCollapse h now run' actor p with
    | error e => simp [hr, Functor.map, Except.map] at happ
    | ok r => exact ⟨r, rfl, by simpa [hr, Functor.map, Except.map] using happ⟩
  cases heq
  obtain ⟨s₃, s₄, s₅, citations, out, hlinks, -, hlake, hcite, hret, hend, -⟩ :=
    applyCollapse_rows hcol
  rw [hsame.minted, collapsedBranch_congr hsame.toSameCatalog] at hret
  rw [hsame.minted] at hcite
  have hfresh₀ : ∀ l r, s₀.links.get? l = some r → r.nodeId ≠ h.newNodeId s.minted := by
    rw [hsame.links]
    exact hfresh
  have hend' : SameSources s₅ s' := ⟨hend.toSameCatalog.trans hsame'.toSameCatalog,
    hsame'.ledger.trans hend.ledger, hsame'.forgotten.trans hend.forgotten⟩
  have hiff := collapsed_sourced_iff hfresh₀ hlinks hlake hcite hret hend'
  have hrows := liveLinkRows_congr hsame.toSameCatalog
  have hevent : s₀.event? = s.event? := by
    funext seq
    rw [event?, hsame.ledger, event?]
  constructor
  · rintro ⟨hkept, hreal⟩
    obtain ⟨hall, hreal'⟩ := hiff.mp ⟨by rw [hrows]; exact hkept, hreal⟩
    rw [hrows] at hall
    rw [hevent, hsame.forgotten] at hreal'
    exact ⟨hall, hreal'⟩
  · rintro ⟨hall, hreal⟩
    obtain ⟨hkept, hreal'⟩ := hiff.mpr
      ⟨by rw [hrows]; exact hall, by rw [hevent, hsame.forgotten]; exact hreal⟩
    rw [hrows] at hkept
    exact ⟨hkept, hreal'⟩

end Store

open Store

/-! ### A merge of a class with itself -/

/-- Letters, digits and lower case as ASCII has them. -/
def Unicode.ascii : Unicode := ⟨Char.isAlphanum, fun w => String.ofList (w.toList.map Char.toLower)⟩

/-- The row of a class. -/
def classRow (parentId : Option String) (title id : String) : NodeRow :=
  Store.newRow 0 .node parentId title none "classifier" id

theorem nodup_classRows :
    ([classRow none "repo" "r", classRow (some "r") "auth" "b"].map NodeRow.id).Nodup := by
  decide

/-- A root with two classes of one title, a link on the second, and a run that
stages a proposal. -/
def staged (p : Proposal) : Store :=
  let s : Store := { Store.empty with
    nodes := ⟨[classRow none "repo" "r", classRow (some "r") "auth" "a",
      classRow (some "r") "Auth" "b"], by decide⟩
    links := ⟨⟨⟨[⟨1, "b", "prompt", "7", none, 0, none, none⟩], by decide⟩, 1, by decide⟩, by decide⟩ }
  match (s.insertClassRunWith 1 .organize none none).1.stageProposal Host.plain 2 (some 1) p with
  | .ok (s, _) => s
  | .error _ => s

/-- The merge the run stages. -/
def stagedMerge (nodeIds : List String) : Store := staged (.merge nodeIds none none none)

/-- The merge applied. -/
def mergedStaged (nodeIds : List String) : Store × Except DbError (Option AppliedReorg) :=
  (stagedMerge nodeIds).applyClassProposalInRun Host.plain 3 1 classifierActor (some 1)

theorem applyMerge_kept_iff_twoClasses :
    MergeKept (stagedMerge ["a", "b"]) (mergedStaged ["a", "b"]).1 "a" ["b"] ↔
      MergeKeeps (stagedMerge ["a", "b"]) "a" ["b"] := by
  have hp : ((stagedMerge ["a", "b"]).proposals.get? 1).map (fun p => (p.op, p.extra)) =
      some (.merge, some (.ids ["a", "b"])) := by decide +kernel
  have ha : (mergedStaged ["a", "b"]).2 = .ok (some ⟨.merge, "a", "merged 2 into a"⟩) := by
    decide +kernel
  obtain ⟨p, hp, hx⟩ := Option.map_eq_some_iff.mp hp
  obtain ⟨hop, hextra⟩ := Prod.mk.inj hx
  exact applyMerge_kept_iff hp hop (by rw [hextra, Extra.asIds]) (Prod.ext rfl ha)

/-- **A class merged with itself** is accepted, and lost. -/
theorem mergeItself_not_kept :
    ((stagedMerge ["b", "b"]).proposals.get? 1).map (adjudicateStructural Unicode.ascii
        (fun _ _ => false) (stagedMerge ["b", "b"]) (Facts.load (stagedMerge ["b", "b"]))) =
      some .apply ∧
    (mergedStaged ["b", "b"]).2 = .ok (some ⟨.merge, "b", "merged 2 into b"⟩) ∧
    ¬MergeKept (stagedMerge ["b", "b"]) (mergedStaged ["b", "b"]).1 "b" ["b"] := by
  refine ⟨by decide +kernel, by decide +kernel, fun hk => ?_⟩
  have hlost : (mergedStaged ["b", "b"]).1.nodeExists "b" = false := by decide +kernel
  rw [hk.live] at hlost
  cases hlost

/-! ### A digest that cites nothing -/

/-- An event of the lake. -/
def lakeEvent (kind : String) (ts : ℤ) : LedgerAppend :=
  ⟨kind, "user", ts, none, none, none, none, none, kind⟩

/-- A class with five links, one of them to a prompt from long before the
lake's newest event, and a run. -/
def coldClass : Store :=
  let s := (Store.empty.append Host.plain (lakeEvent "prompt" 0)).append Host.plain
    (lakeEvent "prompt" 1000)
  ({ s with
    nodes := ⟨[classRow none "repo" "r", classRow (some "r") "auth" "b"], nodup_classRows⟩
    links := ⟨⟨⟨[⟨1, "b", "prompt", "1", none, 0, none, none⟩, ⟨2, "b", "session", "a", none, 0, none, none⟩,
      ⟨3, "b", "session", "b", none, 0, none, none⟩, ⟨4, "b", "session", "c", none, 0, none, none⟩,
      ⟨5, "b", "session", "d", none, 0, none, none⟩], by decide⟩, 5, by decide⟩, by decide⟩ }
    : Store).insertClassRunWith 2000 .organize none none |>.1

/-- The collapse a classifier replies with. -/
def coldCollapse (cites : List ℤ) : Proposal := .collapse "b" "old work" cites none

/-- The class with the collapse staged. -/
def stagedCollapse (cites : List ℤ) : Store :=
  match coldClass.stageProposal Host.plain 2001 (some 1) (coldCollapse cites) with
  | .ok (s, _) => s
  | .error _ => coldClass

/-- The collapse applied. -/
def collapsedStaged (cites : List ℤ) : Store × Except DbError (Option AppliedReorg) :=
  (stagedCollapse cites).applyClassProposalInRun Host.plain 2002 1 classifierActor (some 1)

/-- The proposal that was staged. -/
def collapseRow (cites : List ℤ) : ProposalRow :=
  ⟨1, some 1, .collapse, some "b", none, none, some "old work", some (.seqs cites), none, .proposed,
    2001, 0, none, some (1000 + proposalTtlLakeMs), none⟩

theorem applyCollapse_sourced_iff_coldClass :
    DigestSourced (stagedCollapse [1]) (collapsedStaged [1]).1 (Host.plain.newNodeId 0)
        ((stagedCollapse [1]).collapsedBranch Host.plain 2002 classifierActor (collapseRow [1])) ↔
      CitesBranch (stagedCollapse [1]) (Host.plain.newNodeId 0)
        ((stagedCollapse [1]).collapsedBranch Host.plain 2002 classifierActor (collapseRow [1]))
        [1] := by
  have hp : (stagedCollapse [1]).proposals.get? 1 = some (collapseRow [1]) := by decide +kernel
  have ha : (collapsedStaged [1]).2.toOption.bind (Option.map AppliedReorg.op) = some .collapse := by
    decide +kernel
  have hrows : ∀ r ∈ (stagedCollapse [1]).links.rows, r.nodeId = "b" := by decide +kernel
  have hminted : (stagedCollapse [1]).minted = 0 := by decide +kernel
  cases hr : (collapsedStaged [1]).2 with
  | error e => simp [hr, Except.toOption] at ha
  | ok a =>
    cases a with
    | none => simp [hr, Except.toOption] at ha
    | some a =>
      rw [← hminted]
      refine applyCollapse_sourced_iff (a := a) (fun l r hl => ?_) hp rfl (Prod.ext rfl hr)
      rw [hrows r (Table.get?_eq_some.mp hl).1]
      exact (@Host.newNodeId_ne Host.plain _ "b" (by decide)).symm

/-- **A digest may cite nothing of its branch**: the collapse is screened,
accepted and applied. -/
theorem coldClass_not_sourced :
    screen [coldCollapse []] ⟨[1], [], ["r", "b"]⟩ = ([coldCollapse []], []) ∧
    adjudicateStructural Unicode.ascii (fun _ _ => false) (stagedCollapse [])
      (Facts.load (stagedCollapse [])) (collapseRow []) = .apply ∧
    (collapsedStaged []).2.toOption.bind (Option.map AppliedReorg.op) = some .collapse ∧
    ¬DigestSourced (stagedCollapse []) (collapsedStaged []).1 (Host.plain.newNodeId 0)
      ((stagedCollapse []).collapsedBranch Host.plain 2002 classifierActor (collapseRow [])) := by
  refine ⟨by decide +kernel, by decide +kernel, by decide +kernel, fun hs => ?_⟩
  have hbranch : "b" ∈ (stagedCollapse []).collapsedBranch Host.plain 2002 classifierActor
      (collapseRow []) := by decide +kernel
  have hlink : ⟨1, "b", "prompt", "1", none, 0, none, none⟩ ∈ (stagedCollapse []).liveLinkRows "b" := by
    decide +kernel
  obtain ⟨l, r, hr, hd, -⟩ := hs.kept "b" hbranch _ hlink 1 ⟨by decide, by decide +kernel⟩
  have hrows : ∀ r ∈ (collapsedStaged []).1.links.rows, r.nodeId = "b" := by decide +kernel
  have hnode : "b" = Host.plain.newNodeId 0 :=
    (hrows r (Table.get?_eq_some.mp hr).1).symm.trans (Prod.mk.inj hd).1
  exact absurd hnode.symm (@Host.newNodeId_ne Host.plain 0 "b" (by decide))

end PolisMemory
