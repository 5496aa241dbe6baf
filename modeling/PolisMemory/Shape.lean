/-
# The shape of the catalog

The live nodes form a forest and nothing live hangs on a retired node
(`Whole`). Each structural op keeps that on a condition on the state it is
applied in, and the conditions are not what the queue asks: its adjudicator
reads one catalog, loaded before the first proposal is applied.

A promote is safe if the new parent is live and not under the node; a split if
the node's parent is live; a collapse if that is and the branch is small
enough for one walk; a merge if the target, with the parent it gets, is under
none of the nodes it absorbs. From the laws for one op it follows by induction
over the queue's run that a run of safe applies keeps the shape.

Key definitions: `Whole`, `ApplySafe`.
Key theorems: `whole_promote`, `whole_split`, `whole_collapse`, `whole_merge`,
`processQueue_whole`.
-/
import PolisMemory.Forest
import PolisMemory.Sourcing

namespace PolisMemory

open Tables Forest

namespace Store

/-- The parent of a node, live or not. -/
def parentOf (s : Store) (id : String) : Option String := (s.nodes.get? id).bind NodeRow.parentId

/-- A node is live. -/
abbrev Live (s : Store) (id : String) : Prop := s.nodeExists id = true

/-- The live nodes form a forest, and no live link or observation hangs on a
retired node. -/
structure Whole (s : Store) : Prop where
  rooted : ∀ id, s.Live id → Rooted s.Live s.parentOf id
  links : ∀ {l r a}, s.links.get? l = some r → r.live = true → s.nodes.get? r.nodeId = some a →
    a.live = true
  observations : ∀ {o r a}, s.observations.get? o = some r → r.live = true →
    s.nodes.get? r.nodeId = some a → a.live = true

theorem live_iff {s : Store} {id : String} {a : NodeRow} (ha : s.nodes.get? id = some a) :
    s.Live id ↔ a.live = true := by
  rw [Live, nodeExists_iff, ha]
  simp

/-- A change of rows that leaves the marks leaves what is live. -/
theorem nodeExists_map {s s' : Store} {f : NodeRow → NodeRow} {id : String}
    (hget : s'.nodes.get? id = (s.nodes.get? id).map f) (hf : ∀ a, (f a).live = a.live) :
    s'.nodeExists id = s.nodeExists id := by
  rw [nodeExists, liveNode?, hget, nodeExists, liveNode?]
  cases s.nodes.get? id with
  | none => rfl
  | some a => cases hl : a.live <;> simp [Option.filter, hf, hl]

theorem parentOf_eq {s : Store} {id : String} {a : NodeRow} (ha : s.nodes.get? id = some a) :
    s.parentOf id = a.parentId := by
  rw [parentOf, ha]
  rfl

theorem mem_liveChildren_iff {s : Store} {id c : String} :
    c ∈ s.liveChildren id ↔ s.Live c ∧ s.parentOf c = some id := by
  rw [mem_liveChildren, Live, nodeExists_iff, parentOf]
  constructor
  · rintro ⟨a, ha, hp, hl⟩
    exact ⟨⟨a, ha, hl⟩, by rw [ha]; exact hp⟩
  · rintro ⟨⟨a, ha, hl⟩, hp⟩
    rw [ha] at hp
    exact ⟨a, ha, hp, hl⟩

theorem Whole.congr {s s' : Store} (h : SameCatalog s s') (hw : s.Whole) : s'.Whole where
  rooted := by
    unfold parentOf
    rw [show s'.Live = s.Live from congrArg (fun f x => f x = true) (nodeExists_congr h), h.nodes]
    exact hw.rooted
  links := by
    rw [h.links, h.nodes]
    exact hw.links
  observations := by
    rw [h.observations, h.nodes]
    exact hw.observations

/-! ### Promote -/

/-- The new parent is live and not under the node. -/
def PromoteSafe (s : Store) (node : String) (parent : Option String) : Prop :=
  s.Live node → ∀ q, parent = some q → s.Live q ∧ ¬Above s.parentOf q node

theorem whole_promote {s : Store} {now : ℤ} {node : String} {parent : Option String} (hw : s.Whole)
    (hsafe : s.PromoteSafe node parent) : (s.setParent now [node] parent).Whole := by
  have hget : ∀ id, (s.setParent now [node] parent).nodes.get? id = _ := fun id => get?_setParent
  have hlive : (s.setParent now [node] parent).Live = s.Live := by
    funext id
    rw [Live, nodeExists_map (hget id) fun a => by split_ifs <;> rfl]
  have hparent : ∀ {id}, id ≠ node → (s.setParent now [node] parent).parentOf id = s.parentOf id := by
    intro id hid
    rw [parentOf, hget, parentOf]
    cases s.nodes.get? id <;> simp [hid]
  have hrow : ∀ {id a}, (s.setParent now [node] parent).nodes.get? id = some a →
      ∃ a₀, s.nodes.get? id = some a₀ ∧ a.live = a₀.live := by
    intro id a ha
    rw [hget] at ha
    obtain ⟨a₀, ha₀, rfl⟩ := Option.map_eq_some_iff.mp ha
    refine ⟨a₀, ha₀, ?_⟩
    split_ifs <;> rfl
  refine ⟨rooted_of_changes hw.rooted (fun a hl hn => ?_) (fun a hl _ => ?_), ?_, ?_⟩
  · rw [hlive] at hl
    exact absurd hl hn
  · by_cases hid : a = node
    · subst hid
      left
      rw [hlive] at hl
      have hp : (s.setParent now [a] parent).parentOf a = parent := by
        obtain ⟨row, hrow, -⟩ := nodeExists_iff.mp hl
        rw [parentOf, hget, hrow]
        simp
      cases hq : parent with
      | none =>
        rw [hq] at hp
        exact .root (by rw [← hq, hlive]; exact hl) hp
      | some q =>
        obtain ⟨hql, hnot⟩ := hsafe hl q hq
        rw [← hq]
        refine .child (by rw [hlive]; exact hl) (hp.trans hq) ((hw.rooted q hql).congr fun b hb => ?_)
        refine ⟨?_, hparent fun heq => hnot (heq ▸ hb)⟩
        rw [hlive]
        exact ((hw.rooted q hql).above hb).live
    · right
      rw [hlive] at hl
      refine ⟨hparent hid, fun p hp => ?_⟩
      rw [hlive]
      exact ((hw.rooted a hl).parent hp).live
  · intro l r a hr hl ha
    obtain ⟨a₀, ha₀, heq⟩ := hrow ha
    rw [heq]
    exact hw.links hr hl ha₀
  · intro o r a hr hl ha
    obtain ⟨a₀, ha₀, heq⟩ := hrow ha
    rw [heq]
    exact hw.observations hr hl ha₀

/-! ### Split -/

/-- The node's parent is live. -/
def ParentLive (s : Store) (node : String) : Prop := ∀ q, s.parentOf node = some q → s.Live q

theorem whole_split {h : Host} {s s' : Store} {now : ℤ} {actor node : String} {row : NodeRow}
    {new : List CreatedPart} (hw : s.Whole) (hrow : s.nodes.get? node = some row)
    (hsafe : s.ParentLive node) (hs : SplitBy h now actor node row.parentId s s' new) : s'.Whole := by
  have hcase : ∀ {id b}, s'.nodes.get? id = some b → s.nodes.get? id = some b ∨
      s.nodes.get? id = none ∧ b.live = true ∧ b.parentId = row.parentId := by
    intro id b hb
    cases ha : s.nodes.get? id with
    | some a => exact .inl ((hs.oldNodes ha).symm.trans hb)
    | none =>
      obtain ⟨p, -, -, rfl⟩ := hs.newNodes ha hb
      exact .inr ⟨rfl, rfl, rfl⟩
  have hold : ∀ {id}, s.Live id → s'.Live id ∧ s'.parentOf id = s.parentOf id := by
    intro id hl
    obtain ⟨a, ha, hal⟩ := nodeExists_iff.mp hl
    have ha' := hs.oldNodes ha
    exact ⟨(live_iff ha').mpr hal, by rw [parentOf_eq ha', parentOf_eq ha]⟩
  have hkept : ∀ {id a}, s'.nodes.get? id = some a → (∀ b, s.nodes.get? id = some b → b.live = true) →
      a.live = true := by
    intro id a ha hb
    rcases hcase ha with h1 | ⟨-, h1, -⟩
    · exact hb a h1
    · exact h1
  refine ⟨rooted_of_changes hw.rooted (fun id hl hn => ?_) (fun id _ hl => ?_), ?_, ?_⟩
  · obtain ⟨b, hb, hbl⟩ := nodeExists_iff.mp hl
    rcases hcase hb with ha | ⟨-, -, hp⟩
    · exact absurd ((live_iff ha).mpr hbl) hn
    cases hq : row.parentId with
    | none => exact .root hl (by rw [parentOf_eq hb, hp, hq])
    | some q =>
      have hql := hsafe q (by rw [parentOf_eq hrow, hq])
      exact (hw.rooted q hql).of_leaf hn (fun c _ hc => hold hc) hl (by rw [parentOf_eq hb, hp, hq])
  · right
    refine ⟨(hold hl).2, fun p hp => ?_⟩
    exact (hold ((hw.rooted id hl).parent hp).live).1
  · intro l r a hr hl ha
    cases hr₀ : s.links.get? l with
    | none => simp [hs.noNew hr₀] at hr
    | some r₀ =>
      rcases hs.links hr₀ with hsame | ⟨p, hp, -, -, hlive, hmoved⟩
      · obtain rfl := Option.some.inj (hsame.symm.trans hr)
        exact hkept ha fun b hb => hw.links hr₀ hl hb
      · obtain rfl := Option.some.inj (hmoved.symm.trans hr)
        rcases hcase ha with h1 | ⟨-, h1, -⟩
        · rw [(hs.fresh p hp).1] at h1
          cases h1
        · exact h1
  · intro o r a hr hl ha
    rw [hs.observations] at hr
    exact hkept ha fun b hb => hw.observations hr hl hb

/-! ### Collapse -/

/-- What the walk pops is on or under what was on the stack. -/
theorem above_of_walk {s : Store} {x : String} : ∀ {n : ℕ} {stack : List String},
    x ∈ s.subtreeWalk n stack → ∃ y ∈ stack, Above s.parentOf x y
  | 0, _, hx => by simp [subtreeWalk] at hx
  | _ + 1, [], hx => by simp [subtreeWalk] at hx
  | n + 1, top :: stack, hx => by
    rcases List.mem_cons.mp hx with rfl | hx
    · exact ⟨x, List.mem_cons_self, .refl⟩
    · obtain ⟨y, hy, hxy⟩ := above_of_walk hx
      rcases List.mem_append.mp hy with hy | hy
      · have hup := (mem_liveChildren_iff.mp (List.mem_reverse.mp hy)).2
        exact ⟨top, List.mem_cons_self, hxy.tail hup⟩
      · exact ⟨y, List.mem_cons_of_mem top hy, hxy⟩

/-- The node's parent is live, and the walk of the branch reaches all of it. -/
structure CollapseSafe (s : Store) (node : String) : Prop where
  parent : s.ParentLive node
  branch : ∀ x ∈ s.subtreeWalk walkGuard [node], ∀ c ∈ s.liveChildren x,
    c ∈ s.subtreeWalk walkGuard [node]

/-- In a forest no node above the branch is in it. -/
theorem Whole.notMem_walk {s : Store} (hw : s.Whole) {node q b : String} (hp : s.ParentLive node)
    (hq : s.parentOf node = some q) (hb : Above s.parentOf q b) {n : ℕ} :
    b ∉ s.subtreeWalk n [node] := by
  intro hm
  obtain ⟨y, hy, hby⟩ := above_of_walk hm
  obtain rfl : y = node := List.mem_singleton.mp hy
  have hr := hw.rooted q (hp q hq)
  exact (hr.above (hb.trans hby)).not_above hq (hb.trans hby)

theorem whole_collapse {s s' : Store} {run : ℤ} {node : String} {row digest : NodeRow}
    {set : RetiredSet} {citations : List ℤ} (hw : s.Whole) (hrow : s.nodes.get? node = some row)
    (hsafe : s.CollapseSafe node) (hdp : digest.parentId = row.parentId) (hdl : digest.live = true)
    (hs : Collapsed run digest (s.subtreeWalk walkGuard [node]) s s' set citations) : s'.Whole := by
  have hpar : s.parentOf node = row.parentId := parentOf_eq hrow
  have hdig : s'.Live digest.id := (live_iff hs.made).mpr hdl
  have hnd : ¬s.Live digest.id := by
    rw [Live, nodeExists_iff]
    rintro ⟨a, ha, -⟩
    rw [hs.free] at ha
    cases ha
  -- an old node is live afterwards just if it was and is not in the branch
  have hold : ∀ {id}, id ≠ digest.id →
      (s'.Live id ↔ s.Live id ∧ id ∉ s.subtreeWalk walkGuard [node]) ∧
        s'.parentOf id = s.parentOf id := by
    intro id hne
    have hget := hs.nodes hne
    cases ha : s.nodes.get? id with
    | none =>
      rw [ha] at hget
      have h1 : ¬s.Live id := by simp [Live, nodeExists_iff, ha]
      have h2 : ¬s'.Live id := by simp [Live, nodeExists_iff, hget]
      exact ⟨by simp [h1, h2], by rw [parentOf, hget, parentOf, ha]; rfl⟩
    | some a =>
      rw [ha, Option.map_some] at hget
      rw [live_iff hget, live_iff ha, parentOf_eq hget, parentOf_eq ha]
      split_ifs with hm
      · exact ⟨by simp [hm.1], rfl⟩
      · exact ⟨⟨fun hl => ⟨hl, fun hx => hm ⟨hx, hl⟩⟩, And.left⟩, rfl⟩
  have hne : ∀ {id}, s.Live id → id ≠ digest.id := fun hl heq => hnd (heq ▸ hl)
  have hkept : ∀ {id a}, s'.nodes.get? id = some a →
      (∀ b, s.nodes.get? id = some b → b.live = true) →
      id ∉ s.subtreeWalk walkGuard [node] → a.live = true := by
    intro id a ha hb hm
    by_cases hid : id = digest.id
    · subst hid
      obtain rfl := Option.some.inj (hs.made.symm.trans ha)
      exact hdl
    · rw [hs.nodes hid, Option.map_eq_some_iff] at ha
      obtain ⟨b, hb', rfl⟩ := ha
      rw [if_neg fun h => hm h.1]
      exact hb b hb'
  refine ⟨rooted_of_changes hw.rooted (fun id hl hn => ?_) (fun id hl hl₀ => ?_), ?_, ?_⟩
  · by_cases hid : id = digest.id
    · subst hid
      have hp : s'.parentOf digest.id = row.parentId := by rw [parentOf_eq hs.made, hdp]
      cases hq : row.parentId with
      | none => exact .root hl (hp.trans hq)
      | some q =>
        have hq' : s.parentOf node = some q := hpar.trans hq
        have hr := hw.rooted q (hsafe.parent q hq')
        refine .child hl (hp.trans hq) (hr.congr fun b hb => ?_)
        have hlb := (hr.above hb).live
        obtain ⟨h1, h2⟩ := hold (hne hlb)
        exact ⟨h1.mpr ⟨hlb, hw.notMem_walk hsafe.parent hq' hb⟩, h2⟩
    · exact absurd ((hold hid).1.mp hl).1 hn
  · right
    obtain ⟨h1, h2⟩ := hold (hne hl₀)
    refine ⟨h2, fun p hp => ?_⟩
    have hlp := ((hw.rooted id hl₀).parent hp).live
    refine (hold (hne hlp)).1.mpr ⟨hlp, fun hm => ?_⟩
    exact (h1.mp hl).2 (hsafe.branch p hm id (mem_liveChildren_iff.mpr ⟨hl₀, hp⟩))
  · intro l r a hr hl ha
    cases hr₀ : s.links.get? l with
    | none =>
      obtain ⟨hn, -, -⟩ := hs.newLinks hr₀ hr
      rw [hn] at ha
      obtain rfl := Option.some.inj (hs.made.symm.trans ha)
      exact hdl
    | some r₀ =>
      rw [hs.links hr₀, Option.some.injEq] at hr
      split_ifs at hr with hm
      · rw [← hr] at hl
        cases hl
      · subst hr
        exact hkept ha (fun b hb => hw.links hr₀ hl hb) fun hx => hm ⟨hx, hl⟩
  · intro o r a hr hl ha
    rw [hs.observations, Option.map_eq_some_iff] at hr
    obtain ⟨r₀, hr₀, heq⟩ := hr
    split_ifs at heq with hm
    · rw [← heq] at hl
      cases hl
    · subst heq
      exact hkept ha (fun b hb => hw.observations hr₀ hl hb) fun hx => hm ⟨hx, hl⟩

/-! ### Merge -/

/-- The target is live and listed once, and with the parent it gets it is
under none of the listed nodes; or else nothing live is put on it. -/
structure MergeSafe (s : Store) (target : String) (parent : Option String) (others : List String) :
    Prop where
  kept : s.Live target → target ∉ others → ∀ q, parent = some q →
    s.Live q ∧ ∀ y, Above s.parentOf q y → y ∉ target :: others
  lost : ¬(s.Live target ∧ target ∉ others) → ∀ x ∈ others, s.Live x →
    (∀ c ∈ s.liveChildren x, c ∈ others) ∧
      ∀ l ∈ s.liveLinkRows x, x ≠ target ∧ s.HasEntry target l.item

/-- What the nodes are after a merge. -/
theorem Absorbed.shape {s s' : Store} {now run : ℤ} {p : ProposalRow} {target : String}
    {row : NodeRow} {others : List String} (hrow : s.nodes.get? target = some row)
    (h : Absorbed run target others (s.mergeStart now target p) s') :
    (∀ id, s'.Live id ↔ s.Live id ∧ id ∉ others) ∧ ∀ id, s'.Live id → s'.parentOf id =
      let parent := if id = target then p.parentId.or row.parentId else s.parentOf id
      if parent.any (s.gone others) then some target else parent := by
  have hex := s.nodeExists_mergeStart now target p
  have hgone : (s.mergeStart now target p).gone others = s.gone others := by
    funext id
    rw [gone, gone, hex]
  have hlive : ∀ id, s'.Live id ↔ s.Live id ∧ id ∉ others := by
    intro id
    rw [Live, h.nodeExists, hgone, gone, hex, Live]
    cases s.nodeExists id <;> by_cases hm : id ∈ others <;> simp [hm]
  refine ⟨hlive, fun id hl => ?_⟩
  obtain ⟨hl₀, hm⟩ := (hlive id).mp hl
  obtain ⟨a, ha, hal⟩ := nodeExists_iff.mp hl₀
  have ha₀ : (s.mergeStart now target p).nodes.get? id = _ := get?_mergeStart
  rw [ha, Option.map_some] at ha₀
  obtain ⟨b, hb, hab⟩ := h.nodes ha₀
  have hpar := hab.parentLive (by split_ifs <;> simp [hal]) (by
    rw [Table.key_of_get? ha₀, gone]
    simp [hm])
  rw [parentOf_eq hb, hpar, hgone]
  by_cases hid : id = target
  · subst hid
    obtain rfl := Option.some.inj (hrow.symm.trans ha)
    simp only [if_true, parentId_mergeStartRow]
  · simp only [hid, if_false, parentOf_eq ha]

theorem whole_merge {s s' : Store} {now run : ℤ} {p : ProposalRow} {target : String} {row : NodeRow}
    {others : List String} (hw : s.Whole) (hrow : s.nodes.get? target = some row)
    (hsafe : s.MergeSafe target (p.parentId.or row.parentId) others)
    (h : Absorbed run target others (s.mergeStart now target p) s') : s'.Whole := by
  obtain ⟨hlive, hparent⟩ := h.shape hrow
  obtain ⟨-, -, hlinks, hobs⟩ := s.sameLake_mergeStart now target p
  have hex := s.nodeExists_mergeStart now target p
  have hgone : (s.mergeStart now target p).gone others = s.gone others := by
    funext id
    rw [gone, gone, hex]
  have hnot : ∀ {id}, id ∉ others → s.gone others id = false := fun hm => by simp [gone, hm]
  -- a parent that is not absorbed is still there
  have hstay : ∀ {id q}, s'.Live id → s.Live id → id ≠ target → s.parentOf id = some q →
      q ∉ others → s'.parentOf id = s.parentOf id ∧ s'.Live q := by
    intro id q hl hl₀ hid hq hm
    refine ⟨?_, (hlive q).mpr ⟨((hw.rooted id hl₀).parent hq).live, hm⟩⟩
    rw [hparent id hl, if_neg hid, hq]
    simp [hnot hm]
  have hkept : ∀ {id a}, s'.nodes.get? id = some a →
      (∀ b, s.nodes.get? id = some b → b.live = true) → s.gone others id = false →
      a.live = true := by
    intro id a ha hb hg
    cases ha₀ : (s.mergeStart now target p).nodes.get? id with
    | none => simp [h.noNodes ha₀] at ha
    | some a₀ =>
      obtain ⟨a', ha', haa⟩ := h.nodes ha₀
      obtain rfl := Option.some.inj (ha'.symm.trans ha)
      rw [haa.live, Table.key_of_get? ha₀, hgone, hg]
      rw [get?_mergeStart] at ha₀
      obtain ⟨b, hb', rfl⟩ := Option.map_eq_some_iff.mp ha₀
      have := hb b hb'
      split_ifs <;> simp [this]
  refine ⟨rooted_of_changes hw.rooted (fun id hl hn => ?_) (fun id hl hl₀ => ?_), ?_, ?_⟩
  · exact absurd ((hlive id).mp hl).1 hn
  · by_cases ht : s.Live target ∧ target ∉ others
    · have htl : s'.Live target := (hlive target).mpr ht
      have hroot : Rooted s'.Live s'.parentOf target := by
        have hp := hparent target htl
        simp only [if_true] at hp
        cases hq : p.parentId.or row.parentId with
        | none => exact .root htl (by rw [hp, hq]; rfl)
        | some q =>
          obtain ⟨hql, habove⟩ := hsafe.kept ht.1 ht.2 q hq
          have hqo : q ∉ others := fun hm => habove q .refl (List.mem_cons_of_mem target hm)
          have hr := hw.rooted q hql
          refine .child htl (by rw [hp, hq]; simp [hnot hqo]) (hr.congr fun b hb => ?_)
          have hlb := (hr.above hb).live
          have hb' := habove b hb
          simp only [List.mem_cons, not_or] at hb'
          have hbl : s'.Live b := (hlive b).mpr ⟨hlb, hb'.2⟩
          refine ⟨hbl, ?_⟩
          cases hbp : s.parentOf b with
          | none => rw [hparent b hbl, if_neg hb'.1, hbp]; rfl
          | some r =>
            have hro := habove r (hb.tail hbp)
            rw [(hstay hbl hlb hb'.1 hbp fun hm => hro (List.mem_cons_of_mem target hm)).1, hbp]
      by_cases hid : id = target
      · exact .inl (hid ▸ hroot)
      cases hq : s.parentOf id with
      | none =>
        right
        refine ⟨?_, fun p' hp' => by cases hp'⟩
        rw [hparent id hl, if_neg hid, hq]
        rfl
      | some q =>
        by_cases hm : q ∈ others
        · left
          refine .child hl ?_ hroot
          have hql := ((hw.rooted id hl₀).parent hq).live
          rw [hparent id hl, if_neg hid, hq]
          simp [gone, hm, hql]
        · right
          obtain ⟨h1, h2⟩ := hstay hl hl₀ hid hq hm
          refine ⟨h1.trans hq, fun p' hp' => ?_⟩
          cases hp'
          exact h2
    · right
      have hid : id ≠ target := fun heq => ht (heq ▸ (hlive id).mp hl)
      cases hq : s.parentOf id with
      | none =>
        refine ⟨?_, fun p' hp' => by cases hp'⟩
        rw [hparent id hl, if_neg hid, hq]
        rfl
      | some q =>
        have hm : q ∉ others := by
          intro hm
          have hql := ((hw.rooted id hl₀).parent hq).live
          have := (hsafe.lost ht q hm hql).1 id (mem_liveChildren_iff.mpr ⟨hl₀, hq⟩)
          exact ((hlive id).mp hl).2 this
        obtain ⟨h1, h2⟩ := hstay hl hl₀ hid hq hm
        refine ⟨h1.trans hq, fun p' hp' => ?_⟩
        cases hp'
        exact h2
  · intro l r a hr hl ha
    cases hr₀ : (s.mergeStart now target p).links.get? l with
    | none => simp [h.noLinks hr₀] at hr
    | some r₀ =>
      have hr₁ : s.links.get? l = some r₀ := hlinks ▸ hr₀
      rcases h.links hr₀ with ⟨hsame, hng⟩ | ⟨⟨hl₀, hg⟩, hmoved | hleft⟩
      · obtain rfl := Option.some.inj (hsame.symm.trans hr)
        refine hkept ha (fun b hb => hw.links hr₁ hl hb) ?_
        rw [← hgone]
        exact eq_false_of_ne_true fun hg => hng ⟨hl, hg⟩
      · obtain rfl := Option.some.inj (hmoved.symm.trans hr)
        by_cases ht : s.Live target ∧ target ∉ others
        · exact (live_iff ha).mp ((hlive target).mpr ht)
        · -- the target has the entry, so the link has not moved there
          rw [hgone] at hg
          have hx : r₀.nodeId ∈ others ∧ s.Live r₀.nodeId := by simpa [gone] using hg
          obtain ⟨hxt, l₂, r₂, hr₂, hd₂⟩ := (hsafe.lost ht r₀.nodeId hx.1 hx.2).2 r₀
            (mem_liveLinkRows.mpr ⟨(Table.key_of_get? hr₁).symm ▸ hr₁, rfl, hl₀⟩)
          obtain ⟨hn₂, hi₂⟩ := Prod.mk.inj hd₂
          have hrow₂ : ∃ r₃, s'.links.get? l₂ = some r₃ ∧ r₃.dedup = (target, r₀.item) := by
            rcases h.links (hlinks ▸ hr₂ : (s.mergeStart now target p).links.get? l₂ = some r₂) with
              ⟨hs₂, -⟩ | ⟨-, hs₂ | hs₂⟩
            · exact ⟨_, hs₂, hd₂⟩
            · exact ⟨_, hs₂, by rw [LinkRow.dedup, ← hi₂]⟩
            · exact ⟨_, hs₂, hd₂⟩
          obtain ⟨r₃, hr₃, hd₃⟩ := hrow₂
          obtain ⟨rfl, -⟩ := eq_of_dedup hr₃ hr hd₃
          obtain rfl := Option.some.inj (hr₁.symm.trans hr₂)
          exact absurd hn₂ hxt
      · obtain rfl := Option.some.inj (hleft.symm.trans hr)
        cases hl
  · intro o r a hr hl ha
    rw [h.observations, Option.map_eq_some_iff] at hr
    obtain ⟨r₀, hr₀, heq⟩ := hr
    split_ifs at heq with hm
    · rw [← heq] at hl
      cases hl
    · subst heq
      refine hkept ha (fun b hb => hw.observations (hobs ▸ hr₀) hl hb) ?_
      rw [← hgone]
      exact eq_false_of_ne_true fun hg => hm ⟨hg, hl⟩

/-! ### An apply -/

/-- The condition of an op, on the state it is applied in. -/
structure ApplySafe (s : Store) (p : ProposalRow) : Prop where
  promote : p.op = .promote → s.PromoteSafe (p.nodeId.getD "") p.parentId
  split : p.op = .split → s.ParentLive (p.nodeId.getD "")
  collapse : p.op = .collapse → s.CollapseSafe (p.nodeId.getD "")
  merge : p.op = .merge → ∀ target others row, Extra.asIds p.extra = target :: others →
    s.nodes.get? target = some row → s.MergeSafe target (p.parentId.or row.parentId) others

theorem sameCatalog_journalOp {s s' : Store} {run : ℤ} {rec : OpRecord}
    (hj : s.journalOp run rec = .ok s') : SameCatalog s s' := by
  obtain ⟨ops, rfl, -⟩ := journalOp_ok hj
  exact ⟨rfl, rfl, rfl, rfl⟩

theorem sameCatalog_applySupersede {h : Host} {s s' : Store} {now run : ℤ} {actor detail : String}
    {p : ProposalRow} (ha : s.applySupersede h now run actor p = .ok (some (s', detail))) :
    SameCatalog s s' := by
  unfold applySupersede at ha
  split at ha
  · cases ha
  rename_i oldSeq newSeq hpair
  obtain ⟨⟨s₁, outcome⟩, hs, ha⟩ := bind_eq_ok.mp ha
  have hsame : SameCatalog s s₁ := by
    rcases applySupersession_ok hs with rfl | ⟨a, supersessions, rfl⟩
    · exact .refl s₁
    · exact ⟨rfl, rfl, rfl, rfl⟩
  cases outcome with
  | rejected message => cases ha
  | applied effectiveOld newSeq eventSeq =>
    obtain ⟨s₂, hj, ha⟩ := bind_eq_ok.mp ha
    cases ha
    exact hsame.trans (sameCatalog_journalOp hj)

/-- A safe op keeps the shape. -/
theorem whole_applyOp {h : Host} {s s' : Store} {now run : ℤ} {actor detail : String}
    {p : ProposalRow} (hw : s.Whole) (hsafe : s.ApplySafe p)
    (ha : s.applyOp h now run actor p = .ok (some (s', detail))) : s'.Whole := by
  unfold applyOp at ha
  split at ha
  case h_1 hop =>
    obtain ⟨r, hr, heq⟩ := map_eq_ok ha
    cases heq
    exact (whole_promote hw (hsafe.promote hop)).congr (sameCatalog_journalOp (applyPromote_ok hr))
  case h_2 hop =>
    obtain ⟨r, hr, heq⟩ := map_eq_ok ha
    cases heq
    have hs := hsafe.collapse hop
    obtain ⟨row, hrow, hcol⟩ := applyCollapse_ok hr
    have hloop : s.Loopless (p.nodeId.getD "") := by
      intro row' hrow' q hq
      exact hw.notMem_walk hs.parent ((parentOf_eq hrow').trans hq) .refl
    obtain ⟨digest, s₁, set, citations, subjects, hd, hc, hj⟩ := hcol hloop
    refine (whole_collapse hw hrow hs ?_ ?_ hc).congr (sameCatalog_journalOp hj)
    · rw [hd]
      rfl
    · rw [hd]
      rfl
  case h_3 hop =>
    obtain ⟨target, others, row, s₁, m, subjects, hids, hrow, habs, -, -, -, -, hj⟩ := applyMerge_ok ha
    have hs := hsafe.merge hop target others row hids hrow
    exact (whole_merge hw hrow hs habs).congr (sameCatalog_journalOp hj)
  case h_4 hop =>
    obtain ⟨r, hr, heq⟩ := map_eq_ok ha
    cases heq
    obtain ⟨row, s₁, created, subjects, hrow, hsplit, hj⟩ := applySplit_ok hr
    exact (whole_split hw hrow (hsafe.split hop) hsplit).congr (sameCatalog_journalOp hj)
  case h_5 => exact hw.congr (sameCatalog_applySupersede ha)
  case h_6 => cases ha

theorem whole_apply {h : Host} {s : Store} {now id run : ℤ} {actor : String} (hw : s.Whole)
    (hsafe : ∀ p, s.proposals.get? id = some p → s.ApplySafe p) :
    (s.applyClassProposalInRun h now id actor (some run)).1.Whole := by
  rcases applied_cases h s now id run actor with hsame | ⟨p, s₁, detail, hp, hop, hsame⟩
  · exact hw.congr hsame.toSameCatalog
  · exact (whole_applyOp hw (hsafe p hp) hop).congr hsame.toSameCatalog

end Store

/-! ### The queue -/

open Store

/-- Every apply of a run of the queue is safe in the store it was made in. -/
def AppliesSafe (q : QueueRun) : Prop :=
  ∀ s p, (s, p) ∈ q.applies → ∀ p', s.proposals.get? p.id = some p' → s.ApplySafe p'

/-- **A run of safe applies keeps the shape of the catalog.** -/
theorem processQueue_whole (h : Host) (w : Surroundings) (run : ℤ) {s : Store} (hw : s.Whole)
    (hsafe : AppliesSafe (processQueue h w run s)) : (processQueue h w run s).store.Whole := by
  have hinv : QueueInv h w run s fun q => AppliesSafe q → q.store.Whole := by
    constructor
    · intro q q' hquiet happ hq hs
      refine (hq ?_).congr hquiet.toSameCatalog
      unfold AppliesSafe at hs
      rw [happ] at hs
      exact hs
    · intro q p _ hq hs
      obtain ⟨hquiet, happ⟩ := quiet_applyOne h w run q p
      unfold AppliesSafe at hs
      rw [happ] at hs
      refine Whole.congr hquiet.toSameCatalog (whole_apply (hq fun t p' hm => ?_) ?_)
      · exact hs t p' (List.mem_append_left _ hm)
      · exact hs q.store p (List.mem_append_right _ (List.mem_singleton.mpr rfl))
  exact processQueue_ind hinv (fun _ => hw) hsafe

/-! ### Two promotes in opposite directions -/

/-- A clock that stands, no oracle, no quarantine and no verifier. -/
def aloneSurroundings : Surroundings :=
  ⟨Unicode.ascii, fun _ _ => false, fun _ => 5, fun _ => false, .error "offline", .error "offline"⟩

/-- The root with its two classes, and two proposals staged by the run. -/
def stagedBoth (p q : Proposal) : Store :=
  match (staged p).stageProposal Host.plain 3 (some 1) q with
  | .ok (s, _) => s
  | .error _ => staged p

theorem whole_of_rows {s : Store}
    (hn : s.nodes.rows = [classRow none "repo" "r", classRow (some "r") "auth" "a",
      classRow (some "r") "Auth" "b"]) (ho : s.observations.rows = []) : s.Whole := by
  have hget : ∀ {id a}, s.nodes.get? id = some a → a.live = true := by
    intro id a ha
    have hm := (Table.get?_eq_some.mp ha).1
    rw [hn] at hm
    simp only [List.mem_cons, List.not_mem_nil, or_false] at hm
    rcases hm with rfl | rfl | rfl <;> rfl
  have hrow : ∀ id, s.nodes.get? id = [classRow none "repo" "r", classRow (some "r") "auth" "a",
      classRow (some "r") "Auth" "b"].find? fun n => n.id = id := by
    intro id
    rw [Table.get?, hn]
  have hroot : Rooted s.Live s.parentOf "r" := by
    refine .root ?_ ?_
    · rw [live_iff (hrow "r")]
      rfl
    · rw [parentOf_eq (hrow "r")]
      rfl
  refine ⟨fun id hl => ?_, fun _ _ ha => hget ha, fun {o r a} hr => ?_⟩
  · obtain ⟨a, ha, -⟩ := nodeExists_iff.mp hl
    obtain ⟨hm, rfl⟩ := Table.get?_eq_some.mp ha
    rw [hn] at hm
    simp only [List.mem_cons, List.not_mem_nil, or_false] at hm
    rcases hm with rfl | rfl | rfl
    · exact hroot
    · exact .child hl (parentOf_eq ha) hroot
    · exact .child hl (parentOf_eq ha) hroot
  · have hm := (Table.get?_eq_some.mp hr).1
    rw [ho] at hm
    cases hm

/-- A class made a root, and the other too. -/
def bothRoots : Store := stagedBoth (.promote "a" none none) (.promote "b" none none)

theorem processQueue_whole_bothRoots :
    (processQueue Host.plain aloneSurroundings 1 bothRoots).store.Whole := by
  have hrows : (processQueue Host.plain aloneSurroundings 1 bothRoots).applies.map
      (fun a => (a.1.proposals.get? a.2.id).map fun p => (p.op, p.parentId)) =
        [some (.promote, none), some (.promote, none)] := by decide +kernel
  refine processQueue_whole Host.plain aloneSurroundings 1
    (whole_of_rows (by decide +kernel) (by decide +kernel)) fun s p hm p' hp => ?_
  have hx := List.mem_map_of_mem (f := fun a : Store × ProposalRow =>
    (a.1.proposals.get? a.2.id).map fun p => (p.op, p.parentId)) hm
  rw [hrows] at hx
  simp only [hp, Option.map_some, List.mem_cons, List.not_mem_nil, or_false, or_self,
    Option.some.injEq, Prod.mk.injEq] at hx
  obtain ⟨hop, hpar⟩ := hx
  exact ⟨fun _ _ q hq => by simp [hpar] at hq, by simp [hop], by simp [hop], by simp [hop]⟩

/-- Each of two classes promoted under the other. -/
def crossedPromotes : Store := stagedBoth (.promote "a" (some "b") none) (.promote "b" (some "a") none)

/-- **Two promotes that are each accepted** leave a cycle. -/
theorem crossedPromotes_not_whole : crossedPromotes.Whole ∧
    (processQueue Host.plain aloneSurroundings 1 crossedPromotes).out.applied = 2 ∧
    ¬(processQueue Host.plain aloneSurroundings 1 crossedPromotes).store.Whole := by
  refine ⟨whole_of_rows (by decide +kernel) (by decide +kernel), by decide +kernel, fun hw => ?_⟩
  have ha : (processQueue Host.plain aloneSurroundings 1 crossedPromotes).store.parentOf "a" =
      some "b" := by decide +kernel
  have hb : (processQueue Host.plain aloneSurroundings 1 crossedPromotes).store.parentOf "b" =
      some "a" := by decide +kernel
  have hroot := hw.rooted "a" (by decide +kernel)
  exact hroot.not_above ha (Relation.ReflTransGen.single hb)

end PolisMemory
