/-
# What a revert leaves dangling

An undo asks of no row whether something hangs on it: it retires the node an
op made with whatever was put on it since, and hangs what it brings back or
moves back on a node that may have been retired since. The check for later
runs goes by the subjects of the ops, and a later op that creates or files
under a node does not name every node it depends on.

Where an undo finds nothing on what it retires, and finds live what it hangs
things on (`Image.Sound`), every history of runs and reverts keeps the catalog
sound.

Key definitions: `Image.Sound`, `undoSound`, `HistoryStep.Sound`.
Key theorems: `integral_invertOp`, `past_integral`.
-/
import PolisMemory.History
import PolisMemory.Integrity

namespace PolisMemory

open Tables

namespace Store

/-! ### Retiring one node -/

/-- Nothing live hangs on the node. -/
def Bare (s : Store) (id : String) : Prop :=
  s.liveChildren id = [] ∧ s.liveLinks id = [] ∧ s.liveObservations id = []

instance (s : Store) (id : String) : Decidable (s.Bare id) := by
  unfold Bare
  infer_instance

section

variable {s s' : Store} {run byRun : ℤ}

theorem Hung.of_bare {P : String → Prop} {id : String} (hs : s.Hung P) (hb : s.Bare id) :
    s.Hung fun q => P q ∧ q ≠ id := by
  refine hung_of_get? ?_ ?_ ?_
  · intro c a q ha hl hq
    refine ⟨hs.parent ha hl hq, ?_⟩
    rintro rfl
    have hm : c ∈ s.liveChildren q := mem_liveChildren.mpr ⟨a, ha, hq, hl⟩
    rw [hb.1] at hm
    cases hm
  · intro l r hr hl
    refine ⟨hs.link hr hl, fun heq => ?_⟩
    have hm : l ∈ s.liveLinks id := mem_liveLinks.mpr ⟨r, hr, heq, hl⟩
    rw [hb.2.1] at hm
    cases hm
  · intro o r hr hl
    refine ⟨hs.observation hr hl, fun heq => ?_⟩
    have hm : o ∈ s.liveObservations id := mem_liveObservations.mpr ⟨r, hr, heq, hl⟩
    rw [hb.2.2] at hm
    cases hm

theorem live_retireMade {id q : String} : (s.retireMade byRun id).Live q ↔ s.Live q ∧ q ≠ id := by
  rw [Live, nodeExists_iff, Live, nodeExists_iff]
  constructor
  · rintro ⟨b, hb, hl⟩
    obtain ⟨hne, hb'⟩ := of_get?_retireMade hb hl
    exact ⟨⟨b, hb', hl⟩, hne⟩
  · rintro ⟨⟨a, ha, hl⟩, hne⟩
    exact ⟨a, (get?_retireMade_of_ne hne).trans ha, hl⟩

theorem Hung.retireMade {P : String → Prop} (hs : s.Hung P) (byRun : ℤ) (id : String) :
    (s.retireMade byRun id).Hung P := by
  refine hung_of_get? ?_ (fun hr hl => hs.link hr hl) fun hr hl => hs.observation hr hl
  intro c a q ha hl hq
  exact hs.parent (of_get?_retireMade ha hl).2 hl hq

theorem integral_retireMade {id : String} (hs : s.Integral) (hb : s.Live id → s.Bare id) :
    (s.retireMade byRun id).Integral := by
  by_cases hl : s.Live id
  · exact ((Hung.of_bare hs (hb hl)).retireMade byRun id).mono fun q hq => live_retireMade.mpr hq
  · refine (Hung.retireMade hs byRun id).mono fun q hq => live_retireMade.mpr ⟨hq, ?_⟩
    rintro rfl
    exact hl hq

/-! ### Clearing marks -/

/-- The node has the mark of the run and is among those it is cleared from. -/
def comesBack (s : Store) (run : ℤ) (ids : List String) (q : String) : Bool :=
  q ∈ ids && (s.nodes.get? q).any fun n => n.retiredByRun = some run

theorem comesBack_iff {ids : List String} {q : String} : s.comesBack run ids q = true ↔
    q ∈ ids ∧ ∃ a, s.nodes.get? q = some a ∧ a.retiredByRun = some run := by
  rw [comesBack, Bool.and_eq_true, decide_eq_true_eq]
  cases s.nodes.get? q <;> simp

/-- What comes back hangs on what has the property. -/
structure ComeBack (P : String → Prop) (s : Store) (run : ℤ) (set : RetiredSet) : Prop where
  nodes : ∀ id ∈ set.nodes, ∀ a ∈ s.nodes.get? id, a.retiredByRun = some run →
    ∀ q ∈ a.parentId, P q
  links : ∀ l ∈ set.links, ∀ r ∈ s.links.get? l, r.retiredByRun = some run → P r.nodeId
  observations : ∀ o ∈ set.observations, ∀ r ∈ s.observations.get? o,
    r.retiredByRun = some run → P r.nodeId

theorem live_unretire {set : RetiredSet} {q : String} :
    (s.unretire run set).Live q ↔ s.Live q ∨ s.comesBack run set.nodes q = true := by
  rw [Live, nodeExists_iff, get?_unretire_nodes, Live, nodeExists_iff, comesBack_iff]
  cases ha : s.nodes.get? q with
  | none => simp
  | some a =>
    simp only [Option.map_some, Option.some.injEq, exists_eq_left']
    split_ifs with hm
    · exact ⟨fun _ => .inr hm, fun _ => rfl⟩
    · exact ⟨.inl, fun h => h.resolve_right hm⟩

theorem integral_unretire {P : String → Prop} {set : RetiredSet} (hs : s.Hung P)
    (hback : s.ComeBack P run set) (hP : ∀ q, P q → (s.unretire run set).Live q) :
    (s.unretire run set).Integral := by
  refine hung_of_get? ?_ ?_ ?_
  · intro id b q hb hl hq
    rw [get?_unretire_nodes] at hb
    obtain ⟨a, ha, rfl⟩ := Option.map_eq_some_iff.mp hb
    split_ifs at hl hq with hm
    · exact hP q (hback.nodes id hm.1 a ha hm.2 q hq)
    · exact hP q (hs.parent ha hl hq)
  · intro l b hb hl
    rw [get?_unretire_links] at hb
    obtain ⟨r, hr, rfl⟩ := Option.map_eq_some_iff.mp hb
    split_ifs at hl ⊢ with hm
    · exact hP _ (hback.links l hm.1 r hr hm.2)
    · exact hP _ (hs.link hr hl)
  · intro o b hb hl
    rw [get?_unretire_observations] at hb
    obtain ⟨r, hr, rfl⟩ := Option.map_eq_some_iff.mp hb
    split_ifs at hl ⊢ with hm
    · exact hP _ (hback.observations o hm.1 r hr hm.2)
    · exact hP _ (hs.observation hr hl)

/-! ### Undoing a split -/

/-- What moving a part's links back does to the rows. -/
structure PartBack (node part : String) (ls : List ℤ) (s s' : Store) : Prop where
  nodes : s'.nodes = s.nodes
  observations : s'.observations = s.observations
  links : ∀ {l r'}, s'.links.get? l = some r' → ∃ r, s.links.get? l = some r ∧ r'.live = r.live ∧
    (r' = r ∨ l ∈ ls ∧ r.nodeId = part ∧ r'.nodeId = node)

theorem movePartBack_rows {node part : String} : ∀ {ls : List ℤ} {s s' : Store},
    movePartBack node part ls s = .ok s' → PartBack node part ls s s'
  | [], s, s', hs => by
    cases hs
    exact ⟨rfl, rfl, fun hr => ⟨_, hr, rfl, .inl rfl⟩⟩
  | l :: ls, s, s', hs => by
    have hskip : movePartBack node part ls s = .ok s' → PartBack node part (l :: ls) s s' := by
      intro hs
      obtain ⟨hnodes, hobs, hlinks⟩ := movePartBack_rows hs
      refine ⟨hnodes, hobs, fun hr => ?_⟩
      obtain ⟨r, hr, hl, hcase⟩ := hlinks hr
      exact ⟨r, hr, hl, hcase.imp_right fun hm => ⟨List.mem_cons_of_mem l hm.1, hm.2⟩⟩
    rw [movePartBack] at hs
    split at hs
    swap
    · exact hskip hs
    rename_i hpart
    split at hs
    · cases hs
    rename_i links hre
    obtain ⟨hnodes, hobs, hlinks⟩ := movePartBack_rows hs
    refine ⟨hnodes, hobs, fun {k r'} hr => ?_⟩
    obtain ⟨r₁, hr₁, hl, hcase⟩ := hlinks hr
    change links.get? k = some r₁ at hr₁
    rw [IndexedTable.get?_reindex? hre] at hr₁
    obtain ⟨r, hr, rfl⟩ := Option.map_eq_some_iff.mp hr₁
    by_cases hk : k = l
    · subst hk
      simp only [if_true] at hl hcase
      refine ⟨r, hr, hl, .inr ⟨List.mem_cons_self, ?_, ?_⟩⟩
      · rw [hr] at hpart
        simpa using hpart
      · rcases hcase with rfl | ⟨-, -, hn⟩
        · rfl
        · exact hn
    · simp only [hk, if_false] at hl hcase
      exact ⟨r, hr, hl, hcase.imp_right fun hm => ⟨List.mem_cons_of_mem l hm.1, hm.2⟩⟩

/-- The links of a part go back to a live node, and nothing else is on it. -/
def unsplitSound (byRun : ℤ) (node : String) : List CreatedPart → Store → Prop
  | [], _ => True
  | c :: created, s =>
    match movePartBack node c.id c.linkIds s with
    | .error _ => True
    | .ok s₁ => (∀ l ∈ c.linkIds, ∀ r ∈ s.links.get? l, r.nodeId = c.id → r.live = true → s.Live node) ∧
      (s₁.Live c.id → s₁.Bare c.id) ∧ unsplitSound byRun node created (s₁.retireMade byRun c.id)

theorem integral_unsplit {node : String} : ∀ {created : List CreatedPart} {s s' : Store},
    s.Integral → unsplitSound byRun node created s → unsplit byRun node created s = .ok s' →
    s'.Integral
  | [], s, s', hs, _, hu => by
    cases hu
    exact hs
  | c :: created, s, s', hs, hsound, hu => by
    rw [unsplit] at hu
    obtain ⟨s₁, hmove, hu⟩ := bind_eq_ok.mp hu
    rw [unsplitSound, hmove] at hsound
    obtain ⟨hback, hbare, hrest⟩ := hsound
    obtain ⟨hnodes, hobs, hlinks⟩ := movePartBack_rows hmove
    have hlive : ∀ q, s₁.Live q ↔ s.Live q := by
      intro q
      rw [Live, nodeExists, liveNode?, hnodes]
      rfl
    refine integral_unsplit (integral_retireMade (hung_of_get? ?_ ?_ ?_) hbare) hrest hu
    · intro id a q ha hl hq
      rw [hnodes] at ha
      exact (hlive q).mpr (hs.parent ha hl hq)
    · intro l r' hr' hl
      obtain ⟨r, hr, hlr, hcase⟩ := hlinks hr'
      rcases hcase with rfl | ⟨hm, hpart, hn⟩
      · exact (hlive _).mpr (hs.link hr hl)
      · rw [hn]
        exact (hlive node).mpr (hback l hm r hr hpart (hlr ▸ hl))
    · intro o r hr hl
      rw [hobs] at hr
      exact (hlive _).mpr (hs.observation hr hl)

/-! ### Undoing a collapse -/

/-- Nothing but its citations is on the digest, and what comes back hangs on
what is live or comes back too. -/
structure UncollapseSound (s : Store) (run : ℤ) (digest : String) (set : RetiredSet)
    (citations : List ℤ) : Prop where
  children : s.Live digest → s.liveChildren digest = []
  links : s.Live digest → ∀ l ∈ s.liveLinks digest, l ∈ citations
  observations : s.Live digest → s.liveObservations digest = []
  back : s.ComeBack (fun q => s.Live q ∧ q ≠ digest ∨ s.comesBack run set.nodes q = true) run set

/-- The store when the digest and its citations are retired. -/
def withoutDigest (s : Store) (byRun : ℤ) (digest : String) (citations : List ℤ) : Store :=
  { s.retireMade byRun digest with
    links := s.links.update (fun l => l.id ∈ citations && l.live)
      (fun l => { l with retiredByRun := some byRun }) (LinkRow.id_marked byRun)
      (LinkRow.dedup_marked byRun) }

theorem get?_withoutDigest_links {digest : String} {citations : List ℤ} {l : ℤ} :
    (s.withoutDigest byRun digest citations).links.get? l = (s.links.get? l).map fun r =>
      if l ∈ citations ∧ r.live = true then { r with retiredByRun := some byRun } else r := by
  simp only [withoutDigest, IndexedTable.toAutoTable_update, AutoTable.toTable_update,
    Table.get?_update]
  cases hr : s.links.get? l with
  | none => rfl
  | some r => simp [Table.key_of_get? hr]

theorem integral_uncollapse {digest : String} {set : RetiredSet} {citations : List ℤ}
    (hs : s.Integral) (hne : byRun ≠ run) (hsound : s.UncollapseSound run digest set citations) :
    ((s.withoutDigest byRun digest citations).unretire run set).Integral := by
  have hlive : ∀ q, (s.withoutDigest byRun digest citations).Live q ↔ s.Live q ∧ q ≠ digest :=
    fun q => live_retireMade
  have hnodes : (s.withoutDigest byRun digest citations).nodes = (s.retireMade byRun digest).nodes := rfl
  -- what has the mark of the run had it before
  have hmarked : ∀ {id b}, (s.withoutDigest byRun digest citations).nodes.get? id = some b →
      b.retiredByRun = some run → s.nodes.get? id = some b := by
    intro id b hb hm
    rw [hnodes, get?_retireMade] at hb
    obtain ⟨a, ha, rfl⟩ := Option.map_eq_some_iff.mp hb
    split_ifs at hm ⊢ with hx
    · exact absurd (Option.some.inj hm) hne
    · exact ha
  have hunmarked : ∀ {id a}, s.nodes.get? id = some a → a.retiredByRun = some run →
      (s.withoutDigest byRun digest citations).nodes.get? id = some a := by
    intro id a ha hm
    rw [hnodes, get?_retireMade, ha, Option.map_some, if_neg]
    rintro ⟨-, hl⟩
    simp [NodeRow.live, hm] at hl
  have hback : ∀ q, (s.withoutDigest byRun digest citations).comesBack run set.nodes q =
      s.comesBack run set.nodes q := by
    intro q
    rw [Bool.eq_iff_iff, comesBack_iff, comesBack_iff]
    constructor
    · rintro ⟨hm, b, hb, hr⟩
      exact ⟨hm, b, hmarked hb hr, hr⟩
    · rintro ⟨hm, a, ha, hr⟩
      exact ⟨hm, a, hunmarked ha hr, hr⟩
  refine integral_unretire (P := fun q => s.Live q ∧ q ≠ digest ∨ s.comesBack run set.nodes q = true)
    (hung_of_get? ?_ ?_ ?_) ⟨?_, ?_, ?_⟩ ?_
  · intro id b q hb hl hq
    rw [hnodes] at hb
    obtain ⟨-, ha⟩ := of_get?_retireMade hb hl
    have hql := hs.parent ha hl hq
    refine .inl ⟨hql, ?_⟩
    rintro rfl
    have hm : id ∈ s.liveChildren q := mem_liveChildren.mpr ⟨b, ha, hq, hl⟩
    rw [hsound.children hql] at hm
    cases hm
  · intro l b hb hl
    rw [get?_withoutDigest_links] at hb
    obtain ⟨r, hr, rfl⟩ := Option.map_eq_some_iff.mp hb
    split_ifs at hl ⊢ with hm
    · cases hl
    · have hql := hs.link hr hl
      refine .inl ⟨hql, fun heq => hm ⟨?_, hl⟩⟩
      exact hsound.links (heq ▸ hql) l (mem_liveLinks.mpr ⟨r, hr, heq, hl⟩)
  · intro o r hr hl
    have hql := hs.observation hr hl
    refine .inl ⟨hql, fun heq => ?_⟩
    have hm : o ∈ s.liveObservations digest := mem_liveObservations.mpr ⟨r, hr, heq, hl⟩
    rw [hsound.observations (heq ▸ hql)] at hm
    cases hm
  · exact fun id hid b hb hm => hsound.back.nodes id hid b (hmarked hb hm) hm
  · intro l hlm b hb hm
    rw [get?_withoutDigest_links] at hb
    obtain ⟨r, hr, rfl⟩ := Option.map_eq_some_iff.mp hb
    split_ifs at hm ⊢
    · exact absurd (Option.some.inj hm) hne
    · exact hsound.back.links l hlm r hr hm
  · exact hsound.back.observations
  · intro q hq
    rw [live_unretire, hlive, hback]
    exact hq

/-! ### Undoing a merge -/

/-- What moving links back does to the rows. -/
structure LinksBack (moves : List (ℤ × String)) (s s' : Store) : Prop where
  nodes : s'.nodes = s.nodes
  observations : s'.observations = s.observations
  links : ∀ {l r'}, s'.links.get? l = some r' → ∃ r, s.links.get? l = some r ∧
    r'.retiredByRun = r.retiredByRun ∧
      (r'.nodeId = r.nodeId ∧ l ∉ moves.map Prod.fst ∨ (l, r'.nodeId) ∈ moves)

theorem moveLinksBack_rows : ∀ {moves : List (ℤ × String)} {s s' : Store},
    moveLinksBack moves s = .ok s' → LinksBack moves s s'
  | [], s, s', hs => by
    cases hs
    exact ⟨rfl, rfl, fun hr => ⟨_, hr, rfl, .inl ⟨rfl, List.not_mem_nil⟩⟩⟩
  | (l, node) :: moves, s, s', hs => by
    rw [moveLinksBack] at hs
    split at hs
    · cases hs
    rename_i links hre
    obtain ⟨hnodes, hobs, hlinks⟩ := moveLinksBack_rows hs
    refine ⟨hnodes, hobs, fun {k r'} hr => ?_⟩
    obtain ⟨r₁, hr₁, hmark, hcase⟩ := hlinks hr
    change links.get? k = some r₁ at hr₁
    rw [IndexedTable.get?_reindex? hre] at hr₁
    obtain ⟨r, hr, rfl⟩ := Option.map_eq_some_iff.mp hr₁
    by_cases hk : k = l
    · subst hk
      simp only [if_true] at hmark hcase
      refine ⟨r, hr, hmark, .inr ?_⟩
      rcases hcase with ⟨hn, -⟩ | hm
      · rw [hn]
        exact List.mem_cons_self
      · exact List.mem_cons_of_mem _ hm
    · simp only [hk, if_false] at hmark hcase
      refine ⟨r, hr, hmark, hcase.imp (fun hn => ⟨hn.1, ?_⟩) (List.mem_cons_of_mem _)⟩
      rw [List.map_cons, List.mem_cons, not_or]
      exact ⟨hk, hn.2⟩

/-- What giving children back does to the rows. -/
theorem reparentBack_rows : ∀ (cs : List (String × String)) (s : Store),
    (reparentBack cs s).links = s.links ∧ (reparentBack cs s).observations = s.observations ∧
    ∀ id, ((reparentBack cs s).nodes.get? id = none ∧ s.nodes.get? id = none) ∨
      ∃ b a, (reparentBack cs s).nodes.get? id = some b ∧ s.nodes.get? id = some a ∧
        b.retiredByRun = a.retiredByRun ∧ (b.parentId = a.parentId ∧ id ∉ cs.map Prod.fst ∨
          ∃ q, b.parentId = some q ∧ (id, q) ∈ cs)
  | [], s => by
    refine ⟨rfl, rfl, fun id => ?_⟩
    cases ha : s.nodes.get? id with
    | none => exact .inl ⟨ha, rfl⟩
    | some a => exact .inr ⟨a, a, ha, rfl, rfl, .inl ⟨rfl, List.not_mem_nil⟩⟩
  | (child, parent) :: cs, s => by
    obtain ⟨hlinks, hobs, hnodes⟩ := reparentBack_rows cs { s with
      nodes := s.nodes.update (fun n => n.id = child) fun n => { n with parentId := some parent } }
    refine ⟨hlinks, hobs, fun id => ?_⟩
    rw [reparentBack]
    rcases hnodes id with ⟨hb, ha₁⟩ | ⟨b, a₁, hb, ha₁, hmark, hcase⟩
    · refine .inl ⟨hb, ?_⟩
      rw [Table.get?_update, Option.map_eq_none_iff] at ha₁
      exact ha₁
    · rw [Table.get?_update] at ha₁
      obtain ⟨a, ha, rfl⟩ := Option.map_eq_some_iff.mp ha₁
      refine .inr ⟨b, a, hb, ha, ?_, ?_⟩
      · rw [hmark]
        split_ifs <;> rfl
      · have hid : a.id = id := Table.key_of_get? ha
        by_cases hk : id = child
        · refine .inr ?_
          rcases hcase with ⟨hp, -⟩ | ⟨q, hp, hm⟩
          · refine ⟨parent, ?_, by rw [hk]; exact List.mem_cons_self⟩
            rw [hp]
            simp [hid, hk]
          · exact ⟨q, hp, List.mem_cons_of_mem _ hm⟩
        · rcases hcase with ⟨hp, hm⟩ | ⟨q, hp, hm⟩
          · refine .inl ⟨?_, ?_⟩
            · rw [hp]
              simp [hid, hk]
            · rw [List.map_cons, List.mem_cons, not_or]
              exact ⟨hk, hm⟩
          · exact .inr ⟨q, hp, List.mem_cons_of_mem _ hm⟩

/-- What goes back and what comes back hangs on what is live or comes back too. -/
structure UnmergeSound (s : Store) (run : ℤ) (m : MergeImage) (P : String → Prop) : Prop where
  target : P m.target → ∀ q ∈ m.oldParent, P q
  moved : ∀ lq ∈ m.movedLinks, ∀ r ∈ s.links.get? lq.1,
    r.live = true ∨ lq.1 ∈ m.leftoverLinks ∧ r.retiredByRun = some run → P lq.2
  children : ∀ cq ∈ m.children, P cq.1 → P cq.2
  nodes : ∀ id ∈ m.absorbed.map fun a => a.1, ∀ a ∈ s.nodes.get? id, a.retiredByRun = some run →
    id ≠ m.target → id ∉ m.children.map Prod.fst → ∀ q ∈ a.parentId, P q
  links : ∀ l ∈ m.leftoverLinks, ∀ r ∈ s.links.get? l, r.retiredByRun = some run →
    l ∉ m.movedLinks.map Prod.fst → P r.nodeId
  observations : ∀ o ∈ m.observations, ∀ r ∈ s.observations.get? o, r.retiredByRun = some run →
    P r.nodeId

theorem integral_unmerge {m : MergeImage} (hs : s.Integral)
    (hsound : s.UnmergeSound run m fun q =>
      s.Live q ∨ s.comesBack run (m.absorbed.map fun a => a.1) q = true)
    (hu : s.unmerge run m = .ok s') : s'.Integral := by
  obtain ⟨s₂, hmove, hu⟩ := bind_eq_ok.mp hu
  cases hu
  obtain ⟨hnodes₂, hobs₂, hlinks₂⟩ := moveLinksBack_rows hmove
  obtain ⟨hlinks₃, hobs₃, hnodes₃⟩ := reparentBack_rows m.children s₂
  -- the rows of the nodes before their marks are cleared
  have hrow : ∀ id, (((reparentBack m.children s₂).nodes.get? id = none ∧ s.nodes.get? id = none) ∨
      ∃ b a, (reparentBack m.children s₂).nodes.get? id = some b ∧ s.nodes.get? id = some a ∧
        b.retiredByRun = a.retiredByRun ∧
        (b.parentId = a.parentId ∧ id ≠ m.target ∧ id ∉ m.children.map Prod.fst ∨
          id = m.target ∧ b.parentId = m.oldParent ∨ ∃ q, b.parentId = some q ∧ (id, q) ∈ m.children)) := by
    intro id
    rcases hnodes₃ id with ⟨hb, ha₂⟩ | ⟨b, a₂, hb, ha₂, hmark, hcase⟩
    · rw [hnodes₂, Table.get?_update, Option.map_eq_none_iff] at ha₂
      exact .inl ⟨hb, ha₂⟩
    · rw [hnodes₂, Table.get?_update] at ha₂
      obtain ⟨a, ha, rfl⟩ := Option.map_eq_some_iff.mp ha₂
      have hid : a.id = id := Table.key_of_get? ha
      refine .inr ⟨b, a, hb, ha, ?_, ?_⟩
      · rw [hmark]
        split_ifs <;> rfl
      · rcases hcase with ⟨hp, hm⟩ | hq
        · by_cases ht : id = m.target
          · refine .inr (.inl ⟨ht, ?_⟩)
            rw [hp]
            simp [hid, ht]
          · refine .inl ⟨?_, ht, hm⟩
            rw [hp]
            simp [hid, ht]
        · exact .inr (.inr hq)
  have hlive : ∀ q, (reparentBack m.children s₂).Live q ↔ s.Live q := by
    intro q
    rw [Live, nodeExists_iff, Live, nodeExists_iff]
    rcases hrow q with ⟨hb, ha⟩ | ⟨b, a, hb, ha, hmark, -⟩
    · rw [hb, ha]
    · rw [hb, ha]
      simp only [Option.some.injEq, exists_eq_left', NodeRow.live, hmark]
  have hback : ∀ q, (reparentBack m.children s₂).comesBack run (m.absorbed.map fun a => a.1) q =
      s.comesBack run (m.absorbed.map fun a => a.1) q := by
    intro q
    rw [Bool.eq_iff_iff, comesBack_iff, comesBack_iff]
    rcases hrow q with ⟨hb, ha⟩ | ⟨b, a, hb, ha, hmark, -⟩
    · rw [hb, ha]
    · rw [hb, ha]
      simp only [Option.some.injEq, exists_eq_left', hmark]
  refine integral_unretire (P := fun q =>
      s.Live q ∨ s.comesBack run (m.absorbed.map fun a => a.1) q = true)
    (hung_of_get? ?_ ?_ ?_) ⟨?_, ?_, ?_⟩ ?_
  · intro id b q hb hl hq
    rcases hrow id with ⟨hb', -⟩ | ⟨b', a, hb', ha, hmark, hcase⟩
    · rw [hb] at hb'
      cases hb'
    obtain rfl := Option.some.inj (hb.symm.trans hb')
    have hal : a.live = true := by
      rw [NodeRow.live, ← hmark]
      exact hl
    have hidl : s.Live id := (live_iff ha).mpr hal
    rcases hcase with ⟨hp, -⟩ | ⟨rfl, hp⟩ | ⟨q', hp, hm⟩
    · exact .inl (hs.parent ha hal (hp ▸ hq))
    · exact hsound.target (.inl hidl) q (hp ▸ hq)
    · obtain rfl : q' = q := Option.some.inj (hp.symm.trans hq)
      exact hsound.children _ hm (.inl hidl)
  · intro l r' hr' hl
    rw [hlinks₃] at hr'
    obtain ⟨r, hr, hmark, hcase⟩ := hlinks₂ hr'
    have hrl : r.live = true := by
      rw [LinkRow.live, ← hmark]
      exact hl
    rcases hcase with ⟨hn, -⟩ | hm
    · rw [hn]
      exact .inl (hs.link hr hrl)
    · exact hsound.moved _ hm r hr (.inl hrl)
  · intro o r hr hl
    rw [hobs₃, hobs₂] at hr
    exact .inl (hs.observation hr hl)
  · intro id hid b hb hm q hq
    rcases hrow id with ⟨hb', -⟩ | ⟨b', a, hb', ha, hmark, hcase⟩
    · rw [hb] at hb'
      cases hb'
    obtain rfl := Option.some.inj (hb.symm.trans hb')
    have hidb : s.comesBack run (m.absorbed.map fun a => a.1) id = true :=
      comesBack_iff.mpr ⟨hid, a, ha, hmark ▸ hm⟩
    rcases hcase with ⟨hp, ht, hc⟩ | ⟨rfl, hp⟩ | ⟨q', hp, hmem⟩
    · exact hsound.nodes id hid a ha (hmark ▸ hm) ht hc q (hp ▸ hq)
    · exact hsound.target (.inr hidb) q (hp ▸ hq)
    · obtain rfl : q' = q := Option.some.inj (hp.symm.trans hq)
      exact hsound.children _ hmem (.inr hidb)
  · intro l hl r' hr' hm
    rw [hlinks₃] at hr'
    obtain ⟨r, hr, hmark, hcase⟩ := hlinks₂ hr'
    rcases hcase with ⟨hn, hnot⟩ | hmem
    · rw [hn]
      exact hsound.links l hl r hr (hmark ▸ hm) hnot
    · exact hsound.moved _ hmem r hr (.inr ⟨hl, hmark ▸ hm⟩)
  · intro o ho r hr hm
    rw [hobs₃, hobs₂] at hr
    exact hsound.observations o ho r hr hm
  · intro q hq
    rw [live_unretire, hlive, hback]
    exact hq

end

end Store

open Store

/-! ### Undoing a run -/

/-- Undoing the op leaves nothing dangling. -/
def Image.Sound (s : Store) (run byRun : ℤ) : Image → Prop
  | .create node _ _ => s.Live node → s.Bare node
  | .promote node oldParent _ => s.Live node → ∀ q ∈ oldParent, s.Live q
  | .split node _ created => unsplitSound byRun node created s
  | .merge m => s.UnmergeSound run m fun q =>
    s.Live q ∨ s.comesBack run (m.absorbed.map fun a => a.1) q = true
  | .collapse _ digest set citations => s.UncollapseSound run digest set citations
  | _ => True

section

variable {h : Host} {s s' : Store} {now run byRun : ℤ}

/-- Links and observations that go, or lose their mark of being live. -/
theorem integral_shrink (hs : s.Integral) (hnodes : s'.nodes = s.nodes)
    (hlinks : ∀ r ∈ s'.links.rows, r.live = true → r ∈ s.links.rows)
    (hobs : ∀ r ∈ s'.observations.rows, r.live = true → r ∈ s.observations.rows) : s'.Integral := by
  have hlive : ∀ q, s'.Live q ↔ s.Live q := by
    intro q
    rw [Live, nodeExists, liveNode?, hnodes]
    rfl
  refine ⟨?_, ?_, ?_⟩
  · rw [hnodes]
    exact fun a ha hl q hq => (hlive q).mpr (hs.parents a ha hl q hq)
  · exact fun r hr hl => (hlive _).mpr (hs.links r (hlinks r hr hl) hl)
  · exact fun r hr hl => (hlive _).mpr (hs.observations r (hobs r hr hl) hl)

theorem integral_setParentBack {node : String} {parent : Option String} (hs : s.Integral)
    (hp : s.Live node → ∀ q ∈ parent, s.Live q) :
    ({ s with nodes := s.nodes.update (fun n => n.id = node) fun n =>
      { n with parentId := parent } } : Store).Integral := by
  obtain ⟨s₁, hdef⟩ : ∃ s₁ : Store, s₁ = { s with
    nodes := s.nodes.update (fun n => n.id = node) fun n => { n with parentId := parent } } := ⟨_, rfl⟩
  have hget : ∀ id, s₁.nodes.get? id = (s.nodes.get? id).map fun n =>
      if decide (n.id = node) = true then { n with parentId := parent } else n := by
    intro id
    rw [hdef, Table.get?_update]
  have hlive : ∀ q, s.Live q → s₁.Live q := by
    intro q hq
    rw [Live, nodeExists_map (hget q) fun a => by split_ifs <;> rfl]
    exact hq
  have hlinks : s₁.links = s.links := by rw [hdef]
  have hobs : s₁.observations = s.observations := by rw [hdef]
  rw [← hdef]
  refine hung_of_get? ?_ ?_ ?_
  · intro id a q ha hal hq
    rw [hget] at ha
    obtain ⟨a₀, ha₀, rfl⟩ := Option.map_eq_some_iff.mp ha
    split_ifs at hal hq with hm
    · have hid : id = node := by
        rw [← Table.key_of_get? ha₀]
        simpa using hm
      subst hid
      exact hlive q (hp ((live_iff ha₀).mpr hal) q hq)
    · exact hlive q (hs.parent ha₀ hal hq)
  · rw [hlinks]
    exact fun hr hl => hlive _ (hs.link hr hl)
  · rw [hobs]
    exact fun hr hl => hlive _ (hs.observation hr hl)

theorem sameCatalog_restorePromptBody {prompt : ℤ} {done : Bool}
    (hr : s.restorePromptBody h prompt = .ok (s', done)) : SameCatalog s s' := by
  unfold restorePromptBody at hr
  split at hr
  · cases hr
    exact .refl s
  split at hr
  · cases hr
    exact .refl s
  split at hr
  · cases hr
  split at hr
  · cases hr
  split at hr
  · cases hr
  split at hr <;> cases hr <;> exact ⟨rfl, rfl, rfl, rfl⟩

/-- **One inverse** keeps the catalog sound. -/
theorem integral_invertOp {pre : Option Image} (hs : s.Integral) (hne : byRun ≠ run)
    (hpre : ∀ image ∈ pre, image.Sound s run byRun)
    (hi : s.invertOp h now run byRun pre = .ok s') : s'.Integral := by
  cases pre with
  | none => cases hi
  | some image =>
    have hsound := hpre image rfl
    cases image with
    | claim id =>
      cases hi
      unfold retireClaim
      dsimp only
      split_ifs <;> exact Integral.congr (s := s) ⟨rfl, rfl, rfl, rfl⟩ hs
    | file link node kind target revived =>
      cases revived with
      | none =>
        cases hi
        exact integral_shrink hs rfl (fun r hr _ => List.mem_of_mem_filter hr) fun r hr _ => hr
      | some k =>
        cases hi
        refine integral_shrink hs rfl (fun r hr hl => ?_) fun r hr _ => hr
        obtain ⟨r₀, hr₀, rfl⟩ := List.mem_map.mp hr
        split_ifs at hl ⊢
        · cases hl
        · exact hr₀
    | create node parent title =>
      cases hi
      exact integral_retireMade hs hsound
    | promote node oldParent newParent =>
      cases hi
      exact integral_setParentBack hs hsound
    | split node parent created => exact integral_unsplit hs hsound (mapError_eq_ok hi)
    | merge m => exact integral_unmerge hs hsound (mapError_eq_ok hi)
    | collapse node digest set citations =>
      cases hi
      exact integral_uncollapse hs hne hsound
    | supersede oldSeq newSeq eventSeq =>
      cases hi
      exact Integral.congr (s := s) ⟨rfl, rfl, rfl, rfl⟩ hs
    | compact prompt seq =>
      unfold invertOp at hi
      dsimp only at hi
      split at hi
      · cases hi
      · rename_i s₁ hr
        cases hi
        exact hs.congr (sameCatalog_restorePromptBody hr)
      · cases hi
    | observe id node seq =>
      cases hi
      refine integral_shrink hs rfl (fun r hr _ => hr) fun r hr hl => ?_
      obtain ⟨r₀, hr₀, rfl⟩ := List.mem_map.mp hr
      split_ifs at hl ⊢
      · cases hl
      · exact hr₀

/-- Each op, in the state it is undone in. -/
def undoSound (h : Host) (now run byRun : ℤ) : List OpRow → Store → Prop
  | [], _ => True
  | o :: ops, s => (∀ image ∈ (s.runOps.get? o.key).bind OpRow.preImage, image.Sound s run byRun) ∧
    match s.invertOp h now run byRun ((s.runOps.get? o.key).bind OpRow.preImage) with
    | .error _ => True
    | .ok s' => undoSound h now run byRun ops (s'.markReverted o byRun)

theorem integral_undoOps (hne : byRun ≠ run) : ∀ {ops : List OpRow} {s s' : Store}, s.Integral →
    undoSound h now run byRun ops s → undoOps h now run byRun ops s = .ok s' → s'.Integral
  | [], s, s', hs, _, hu => by
    cases hu
    exact hs
  | o :: ops, s, s', hs, hsound, hu => by
    rw [undoOps] at hu
    obtain ⟨hop, hrest⟩ := hsound
    split at hu
    · cases hu
    · rename_i s₁ hi
      rw [hi] at hrest
      have hs₁ := integral_invertOp hs hne hop hi
      have hs₂ : (s₁.markReverted o byRun).Integral :=
        Integral.congr (s := s₁) ⟨rfl, rfl, rfl, rfl⟩ hs₁
      exact integral_undoOps hne hs₂ hrest hu

/-- The ops of a run, undone newest first. -/
def Store.RevertSound (h : Host) (s : Store) (now run : ℤ) : Prop :=
  undoSound h now run s.runs.nextId (s.appliedOps run).reverse
    (s.insertClassRunWith now .revert none none).1

theorem integral_revertRun {actor : String} {receipt : RevertReceipt} (hs : s.Integral)
    (hsound : s.RevertSound h now run) (hok : s.revertRun h now run actor = .ok (s', receipt)) :
    s'.Integral := by
  obtain ⟨hrefusal, t₁, hundo, rfl, -⟩ := revertRun_eq_ok.mp hok
  have hne : s.runs.nextId ≠ run := by
    rintro rfl
    rw [revertRefusal, s.runs.get?_nextId] at hrefusal
    cases hrefusal
  have hstart : (s.insertClassRunWith now .revert none none).1.Integral :=
    Integral.congr (s := s) ⟨rfl, rfl, rfl, rfl⟩ hs
  exact Integral.congr (s := t₁) ⟨rfl, rfl, rfl, rfl⟩ (integral_undoOps hne hstart hsound hundo)

/-! ### Histories -/

/-- What the step hangs something on is live, or if it is a revert nothing is
left dangling by any of its inverses. -/
def HistoryStep.Sound (h : Host) (s : Store) : HistoryStep → Prop
  | .write _ w => w.Attaches s
  | .revert now run _ => s.RevertSound h now run
  | _ => True

/-- Each step, in the store it is made in. -/
def stepsSound (h : Host) : List HistoryStep → Store → Prop
  | [], _ => True
  | st :: steps, s => st.Sound h s ∧ stepsSound h steps (st.exec h s)

theorem HistoryStep.exec_integral {st : HistoryStep} (hs : s.Integral) (hst : st.Sound h s) :
    (st.exec h s).Integral := by
  cases st with
  | start now mode seqFrom seqTo => exact Integral.congr (s := s) ⟨rfl, rfl, rfl, rfl⟩ hs
  | finish run f => exact Integral.congr (s := s) ⟨rfl, rfl, rfl, rfl⟩ hs
  | write run w => exact w.exec_integral hs hst
  | journal run rec => exact hs.congr (sameCatalog_tryJournal s run rec)
  | revert now run actor =>
    change (reverted h s now run actor).Integral
    unfold reverted
    split
    · rename_i hok
      exact integral_revertRun hs hst hok
    · exact hs

theorem store_past (h : Host) : ∀ (steps : List HistoryStep) (p : Past),
    (steps.foldl (Past.step h) p).store = steps.foldl (fun s st => st.exec h s) p.store
  | [], _ => rfl
  | st :: steps, p => store_past h steps (p.step h st)

/-- **Histories keep the catalog sound**: in whatever order runs write and are
reverted, what is live hangs on what is live in each state that is reached, if
each step finds live what it hangs things on and leaves nothing dangling. -/
theorem past_integral {s₀ : Store} {steps : List HistoryStep} (hs : s₀.Integral)
    (hsound : stepsSound h steps s₀) : (past h steps s₀).store.Integral := by
  rw [past, store_past]
  change (steps.foldl (fun s st => st.exec h s) s₀).Integral
  induction steps generalizing s₀ with
  | nil => exact hs
  | cons st steps ih => exact ih (st.exec_integral hs hsound.1) hsound.2

end

/-! ### A child of another run's node -/

instance (P : String → Prop) [DecidablePred P] (s : Store) : Decidable (s.Hung P) :=
  decidable_of_iff ((∀ a ∈ s.nodes.rows, a.live = true → ∀ q ∈ a.parentId, P q) ∧
    (∀ r ∈ s.links.rows, r.live = true → P r.nodeId) ∧
    ∀ r ∈ s.observations.rows, r.live = true → P r.nodeId)
    ⟨fun ⟨h1, h2, h3⟩ => ⟨h1, h2, h3⟩, fun ⟨h1, h2, h3⟩ => ⟨h1, h2, h3⟩⟩

instance (s : Store) : Decidable s.Integral := by
  unfold Store.Integral
  infer_instance

instance (P : String → Prop) [DecidablePred P] (s : Store) (run : ℤ) (set : RetiredSet) :
    Decidable (Store.ComeBack P s run set) :=
  decidable_of_iff ((∀ id ∈ set.nodes, ∀ a ∈ s.nodes.get? id, a.retiredByRun = some run →
      ∀ q ∈ a.parentId, P q) ∧
    (∀ l ∈ set.links, ∀ r ∈ s.links.get? l, r.retiredByRun = some run → P r.nodeId) ∧
    ∀ o ∈ set.observations, ∀ r ∈ s.observations.get? o, r.retiredByRun = some run → P r.nodeId)
    ⟨fun ⟨h1, h2, h3⟩ => ⟨h1, h2, h3⟩, fun ⟨h1, h2, h3⟩ => ⟨h1, h2, h3⟩⟩

instance (s : Store) (run : ℤ) (digest : String) (set : RetiredSet) (citations : List ℤ) :
    Decidable (s.UncollapseSound run digest set citations) :=
  decidable_of_iff ((s.Live digest → s.liveChildren digest = []) ∧
    (s.Live digest → ∀ l ∈ s.liveLinks digest, l ∈ citations) ∧
    (s.Live digest → s.liveObservations digest = []) ∧
    s.ComeBack (fun q => s.Live q ∧ q ≠ digest ∨ s.comesBack run set.nodes q = true) run set)
    ⟨fun ⟨h1, h2, h3, h4⟩ => ⟨h1, h2, h3, h4⟩, fun ⟨h1, h2, h3, h4⟩ => ⟨h1, h2, h3, h4⟩⟩

set_option synthInstance.maxSize 512 in
instance (s : Store) (run : ℤ) (m : MergeImage) (P : String → Prop) [DecidablePred P] :
    Decidable (s.UnmergeSound run m P) :=
  decidable_of_iff ((P m.target → ∀ q ∈ m.oldParent, P q) ∧
    (∀ lq ∈ m.movedLinks, ∀ r ∈ s.links.get? lq.1,
      r.live = true ∨ lq.1 ∈ m.leftoverLinks ∧ r.retiredByRun = some run → P lq.2) ∧
    (∀ cq ∈ m.children, P cq.1 → P cq.2) ∧
    (∀ id ∈ m.absorbed.map fun a => a.1, ∀ a ∈ s.nodes.get? id, a.retiredByRun = some run →
      id ≠ m.target → id ∉ m.children.map Prod.fst → ∀ q ∈ a.parentId, P q) ∧
    (∀ l ∈ m.leftoverLinks, ∀ r ∈ s.links.get? l, r.retiredByRun = some run →
      l ∉ m.movedLinks.map Prod.fst → P r.nodeId) ∧
    ∀ o ∈ m.observations, ∀ r ∈ s.observations.get? o, r.retiredByRun = some run → P r.nodeId)
    ⟨fun ⟨h1, h2, h3, h4, h5, h6⟩ => ⟨h1, h2, h3, h4, h5, h6⟩,
      fun ⟨h1, h2, h3, h4, h5, h6⟩ => ⟨h1, h2, h3, h4, h5, h6⟩⟩

instance unsplitSound.decidable (byRun : ℤ) (node : String) :
    ∀ (created : List CreatedPart) (s : Store), Decidable (unsplitSound byRun node created s)
  | [], _ => .isTrue trivial
  | c :: created, s => by
    unfold unsplitSound
    cases movePartBack node c.id c.linkIds s with
    | error e => exact .isTrue trivial
    | ok s₁ =>
      haveI := unsplitSound.decidable byRun node created (s₁.retireMade byRun c.id)
      exact inferInstanceAs (Decidable (_ ∧ _))

instance (s : Store) (run byRun : ℤ) (image : Image) : Decidable (image.Sound s run byRun) := by
  unfold Image.Sound
  split <;> infer_instance

instance undoSound.decidable (h : Host) (now run byRun : ℤ) :
    ∀ (ops : List OpRow) (s : Store), Decidable (undoSound h now run byRun ops s)
  | [], _ => .isTrue trivial
  | o :: ops, s => by
    unfold undoSound
    cases s.invertOp h now run byRun ((s.runOps.get? o.key).bind OpRow.preImage) with
    | error e => infer_instance
    | ok s' =>
      haveI := undoSound.decidable h now run byRun ops (s'.markReverted o byRun)
      exact inferInstanceAs (Decidable (_ ∧ _))

instance (h : Host) (s : Store) (now run : ℤ) : Decidable (s.RevertSound h now run) := by
  unfold Store.RevertSound
  infer_instance

/-- A class under the root by one run, another by the next, and a revert of
the first run. -/
def createdApart (parent : String) : List HistoryStep :=
  [.start 1 .organize none none, .write 1 (.stage 2 (.create "r" "one" none)),
    .finish 1 ⟨.done, "", some 1, some .done, none, none⟩, .start 3 .organize none none,
    .write 2 (.stage 4 (.create parent "two" none)),
    .finish 2 ⟨.done, "", some 1, some .done, none, none⟩, .revert 9 1 "user"]

theorem past_integral_createdApart : fourClasses.Integral ∧
    (past Host.plain (createdApart "x") fourClasses).reverted = [1] ∧
    (past Host.plain (createdApart "x") fourClasses).store.Integral := by
  have hs : fourClasses.Integral := by decide +kernel
  have hrevert : Store.RevertSound Host.plain
      (past Host.plain ((createdApart "x").take 6) fourClasses).store 9 1 := by decide +kernel
  have hsound : stepsSound Host.plain (createdApart "x") fourClasses :=
    ⟨trivial, trivial, trivial, trivial, trivial, trivial, hrevert, trivial⟩
  exact ⟨hs, by decide +kernel, past_integral hs hsound⟩

/-- **A child of the node outlives it**: the subjects of a create name the node
it makes and not the one it puts it under. -/
theorem createdUnder_not_integral : fourClasses.Integral ∧
    (past Host.plain (createdApart (Host.plain.newNodeId 0)) fourClasses).reverted = [1] ∧
    ¬(past Host.plain (createdApart (Host.plain.newNodeId 0)) fourClasses).store.Integral := by
  decide +kernel

end PolisMemory
