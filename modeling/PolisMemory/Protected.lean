/-
# What a collapse retires

A collapse is accepted on a stat that was rolled up before the queue's first
proposal, and it retires the branch as it stands when its turn comes. Between
the two an earlier proposal may have put a node or a link under it. So the
branch is cold and free of protected nodes then (`ColdBranch`) where what is
in it was in the roll-up already (`RolledUp`); a promote of a noted class
under a cold one, and the collapse of that one behind it in the queue, is
enough for the opposite.

Warmth and coldness are read against the lake's span as the queue's run
loaded it.

Key definitions: `ColdBranch`, `RolledUp`.
Key theorems: `coldBranch_of_rolledUp`, `processQueue_cold`.
-/
import PolisMemory.Shape

namespace PolisMemory

open Tables

/-! ### More and less recent -/

theorem isWarm_mono {a b : ℤ} {env : LakeEnvelope} (hab : a ≤ b) (hw : isWarm (some a) env = true) :
    isWarm (some b) env = true := by
  have hround : f64Round (env.newest - b).toNat ≤ f64Round (env.newest - a).toNat :=
    f64Round_mono (by omega)
  simp only [isWarm, Option.any_some] at hw ⊢
  split_ifs at hw ⊢
  · simp only [decide_eq_true_eq] at hw ⊢
    omega
  · simp only [Bool.or_eq_true, decide_eq_true_eq] at hw ⊢
    rcases hw with hw | hw
    · exact .inl (hw.trans hab)
    · exact .inr ((Nat.mul_le_mul_left _ hround).trans hw)

theorem autoCollapseSafe_of_le {stat : BranchStat} {last last' : ℤ} {env : LakeEnvelope}
    (hlast : stat.lastTs = some last) (hle : last' ≤ last)
    (hsafe : autoCollapseSafe stat env = true) :
    autoCollapseSafe ⟨some last', 0, false⟩ env = true := by
  have hround : f64Round (env.newest - last).toNat ≤ f64Round (env.newest - last').toNat :=
    f64Round_mono (by omega)
  simp only [autoCollapseSafe, hlast, Option.any_some, Bool.and_eq_true, decide_eq_true_eq] at hsafe
  obtain ⟨-, hspan, hslice⟩ := hsafe
  simp only [autoCollapseSafe, Option.any_some, Bool.not_false, Bool.true_and, Bool.and_eq_true,
    decide_eq_true_eq]
  exact ⟨hspan, hslice.trans (Nat.mul_le_mul_left _ hround)⟩

theorem le_newer {t : ℤ} {a b : Option ℤ} (h : a = some t ∨ b = some t) :
    ∃ m, newer a b = some m ∧ t ≤ m := by
  rcases h with rfl | rfl
  · cases b with
    | none => exact ⟨t, rfl, le_rfl⟩
    | some b => exact ⟨max t b, rfl, le_max_left t b⟩
  · cases a with
    | none => exact ⟨t, rfl, le_rfl⟩
    | some a => exact ⟨max a t, rfl, le_max_right a t⟩

theorem newer_eq_some {m : ℤ} {a b : Option ℤ} (h : newer a b = some m) :
    a = some m ∨ b = some m := by
  cases a with
  | none => exact .inr h
  | some a =>
    cases b with
    | none => exact .inl h
    | some b =>
      have hm : max a b = m := Option.some.inj h
      rcases max_choice a b with ha | hb
      · exact .inl (by rw [← hm, ha])
      · exact .inr (by rw [← hm, hb])

/-- The newest of a list is no older than any in it. -/
theorem le_foldl_newer {t : ℤ} : ∀ {l : List (Option ℤ)} {a : Option ℤ},
    a = some t ∨ some t ∈ l → ∃ m, l.foldl newer a = some m ∧ t ≤ m
  | [], a, h => by
    have ha := h.resolve_right List.not_mem_nil
    exact ⟨t, ha, le_rfl⟩
  | x :: xs, a, h => by
    rw [List.mem_cons, ← or_assoc] at h
    rcases h with h | h
    · obtain ⟨m, hm, hle⟩ := le_newer (h.imp_right Eq.symm)
      obtain ⟨m', hm', hle'⟩ := le_foldl_newer (l := xs) (.inl hm)
      exact ⟨m', hm', hle.trans hle'⟩
    · exact le_foldl_newer (l := xs) (.inr h)

/-- And it is in the list. -/
theorem mem_of_foldl_newer {m : ℤ} : ∀ {l : List (Option ℤ)} {a : Option ℤ},
    l.foldl newer a = some m → a = some m ∨ some m ∈ l
  | [], _, h => .inl h
  | x :: xs, a, h => by
    rcases mem_of_foldl_newer (l := xs) h with h | h
    · rcases newer_eq_some h with h | h
      · exact .inl h
      · exact .inr (h ▸ List.mem_cons_self)
    · exact .inr (List.mem_cons_of_mem x h)

namespace Store

/-- A node's warmth is its own last recall or that of one of its links. -/
theorem nodeWarmth_eq_some {s : Store} {n : NodeRow} {ts : ℤ} (h : s.nodeWarmth n = some ts) :
    0 < ts ∧ (ts = n.lastRecalledAt.getD 0 ∨
      ∃ l ∈ s.liveLinkRows n.id, l.lastRecalledAt = some ts) := by
  unfold nodeWarmth at h
  dsimp only at h
  split_ifs at h with hpos
  have hts := Option.some.inj h
  rw [hts] at hpos
  refine ⟨hpos, ?_⟩
  cases hf : ((s.liveLinkRows n.id).map LinkRow.lastRecalledAt).foldl newer none with
  | none =>
    rw [hf] at hts
    simp only [Option.getD_none] at hts
    omega
  | some m =>
    rw [hf] at hts
    simp only [Option.getD_some] at hts
    have hm := (mem_of_foldl_newer hf).resolve_left nofun
    obtain ⟨l, hl, hlm⟩ := List.mem_map.mp hm
    rcases max_choice (n.lastRecalledAt.getD 0) m with h | h
    · exact .inl (by omega)
    · exact .inr ⟨l, hl, by rw [hlm, ← hts, h]⟩

/-- A recall of the node or of one of its links warms it. -/
theorem le_nodeWarmth {s : Store} {n : NodeRow} {ts : ℤ} (hpos : 0 < ts)
    (h : ts = n.lastRecalledAt.getD 0 ∨ ∃ l ∈ s.liveLinkRows n.id, l.lastRecalledAt = some ts) :
    ∃ ts', s.nodeWarmth n = some ts' ∧ ts ≤ ts' := by
  have hle : ts ≤ max (n.lastRecalledAt.getD 0)
      ((((s.liveLinkRows n.id).map LinkRow.lastRecalledAt).foldl newer none).getD 0) := by
    rcases h with rfl | ⟨l, hl, hlm⟩
    · exact le_max_left _ _
    · have hmem := List.mem_map_of_mem (f := LinkRow.lastRecalledAt) hl
      rw [hlm] at hmem
      obtain ⟨m, hm, hle⟩ := le_foldl_newer (a := none) (.inr hmem)
      rw [hm]
      exact hle.trans (le_max_right _ _)
  refine ⟨_, ?_, hle⟩
  unfold nodeWarmth
  exact if_pos (by omega)

/-! ### What the queue leaves of the recalls -/

/-- The user's notes, what the proposals propose and when the nodes were
recalled are as they were. -/
structure Recalls (s s' : Store) : Prop where
  userNotes : s'.userNotes = s.userNotes
  proposals : ∀ {id p'}, s'.proposals.get? id = some p' →
    ∃ p, s.proposals.get? id = some p ∧ p'.op = p.op ∧ p'.nodeId = p.nodeId
  nodes : ∀ {id a}, s.nodes.get? id = some a →
    ∃ b, s'.nodes.get? id = some b ∧ b.lastRecalledAt = a.lastRecalledAt

theorem Recalls.refl (s : Store) : Recalls s s :=
  ⟨rfl, fun hp => ⟨_, hp, rfl, rfl⟩, fun ha => ⟨_, ha, rfl⟩⟩

theorem Recalls.trans {s₁ s₂ s₃ : Store} (h : Recalls s₁ s₂) (h' : Recalls s₂ s₃) :
    Recalls s₁ s₃ where
  userNotes := h'.userNotes.trans h.userNotes
  proposals {_ _} hp := by
    obtain ⟨p', hp', hop', hnode'⟩ := h'.proposals hp
    obtain ⟨p, hp, hop, hnode⟩ := h.proposals hp'
    exact ⟨p, hp, hop'.trans hop, hnode'.trans hnode⟩
  nodes {_ _} ha := by
    obtain ⟨b, hb, hab⟩ := h.nodes ha
    obtain ⟨c, hc, hbc⟩ := h'.nodes hb
    exact ⟨c, hc, hbc.trans hab⟩

theorem recalls_of_quiet {s s' : Store} (h : Quiet s s') : Recalls s s' :=
  ⟨h.userNotes, h.proposals, fun ha => ⟨_, by rw [h.nodes]; exact ha, rfl⟩⟩

/-- A change of the nodes' rows that leaves their recalls. -/
theorem recalls_of_map {s s' : Store} (hlake : SameLake s s')
    (h : ∀ {id a}, s.nodes.get? id = some a →
      ∃ b, s'.nodes.get? id = some b ∧ b.lastRecalledAt = a.lastRecalledAt) : Recalls s s' :=
  ⟨hlake.userNotes, fun hp => ⟨_, by rw [← hlake.proposals]; exact hp, rfl, rfl⟩, h⟩

theorem recalls_setParent {s : Store} {now : ℤ} {ids : List String} {parent : Option String} :
    Recalls s (s.setParent now ids parent) := by
  refine recalls_of_map (s.sameLake_catalog _ _ _ _) fun {id a} ha => ?_
  refine ⟨_, by rw [get?_setParent, ha, Option.map_some], ?_⟩
  split_ifs <;> rfl

theorem recalls_collapse {h : Host} {s s' : Store} {now run : ℤ} {actor detail : String}
    {p : ProposalRow} (ha : s.applyCollapse h now run actor p = .ok (s', detail)) :
    Recalls s s' := by
  obtain ⟨s₁, s₂, s₃, citations, out, -, hkept, hlake, hcite, hret, -, hquiet⟩ := applyCollapse_rows ha
  have hcited := cite_eq now (h.newNodeId s.minted) (Extra.asSeqs p.extra) s₁ []
  rw [hcite] at hcited
  have hrows : Recalls s s₃ := by
    refine recalls_of_map (hlake.trans (hcited.lake.trans hret.lake)) fun {id a} ha => ?_
    refine ⟨_, by rw [hret.nodes, hcited.nodes, hkept ha, Option.map_some], ?_⟩
    split_ifs <;> rfl
  exact hrows.trans (recalls_of_quiet hquiet)

theorem lastRecalledAt_mergeStartRow (now : ℤ) (p : ProposalRow) (row : NodeRow) :
    (mergeStartRow now p row).lastRecalledAt = row.lastRecalledAt := by
  unfold mergeStartRow
  cases p.title <;> cases p.parentId <;> rfl

theorem recalls_merge {s s' : Store} {now run : ℤ} {p : ProposalRow} {detail : String}
    (ha : s.applyMerge now run p = .ok (some (s', detail))) : Recalls s s' := by
  obtain ⟨target, others, row, s₁, m, subjects, -, -, habs, -, -, -, -, hj⟩ := applyMerge_ok ha
  have hrows : Recalls s s₁ := by
    refine recalls_of_map ((s.sameLake_mergeStart now target p).1.trans habs.lake) ?_
    intro id a ha
    have hstart : (s.mergeStart now target p).nodes.get? id = _ := get?_mergeStart
    rw [ha, Option.map_some] at hstart
    obtain ⟨b, hb, hab⟩ := habs.nodes hstart
    refine ⟨b, hb, ?_⟩
    have hface := congrArg NodeRow.lastRecalledAt hab.face
    calc b.lastRecalledAt = _ := hface
      _ = a.lastRecalledAt := by
        split_ifs
        · exact lastRecalledAt_mergeStartRow now p a
        · rfl
  exact hrows.trans (recalls_of_quiet (quiet_journalOp hj))

theorem recalls_split {h : Host} {s s' : Store} {now run : ℤ} {actor detail : String}
    {p : ProposalRow} (ha : s.applySplit h now run actor p = .ok (s', detail)) : Recalls s s' := by
  obtain ⟨row, s₁, created, subjects, -, hsplit, hj⟩ := applySplit_ok ha
  have hrows : Recalls s s₁ := recalls_of_map hsplit.lake fun ha => ⟨_, hsplit.oldNodes ha, rfl⟩
  exact hrows.trans (recalls_of_quiet (quiet_journalOp hj))

theorem recalls_supersede {h : Host} {s s' : Store} {now run : ℤ} {actor detail : String}
    {p : ProposalRow} (ha : s.applySupersede h now run actor p = .ok (some (s', detail))) :
    Recalls s s' := by
  unfold applySupersede at ha
  split at ha
  · cases ha
  obtain ⟨⟨s₁, outcome⟩, hs, ha⟩ := bind_eq_ok.mp ha
  cases outcome with
  | rejected message => cases ha
  | applied effectiveOld newSeq eventSeq =>
    obtain ⟨s₂, hj, ha⟩ := bind_eq_ok.mp ha
    cases ha
    have hquiet : Quiet s s₁ := by
      rcases applySupersession_ok hs with rfl | ⟨a, supersessions, rfl⟩
      · exact .refl s₁
      · exact ⟨⟨rfl, rfl, rfl, rfl⟩, rfl, fun hp => ⟨_, hp, rfl, rfl⟩⟩
    exact recalls_of_quiet (hquiet.trans (quiet_journalOp hj))

/-- No op touches a recall. -/
theorem recalls_applyOp {h : Host} {s s' : Store} {now run : ℤ} {actor detail : String}
    {p : ProposalRow} (ha : s.applyOp h now run actor p = .ok (some (s', detail))) :
    Recalls s s' := by
  unfold applyOp at ha
  split at ha
  case h_1 =>
    obtain ⟨r, hr, heq⟩ := map_eq_ok ha
    cases heq
    exact recalls_setParent.trans (recalls_of_quiet (quiet_journalOp (applyPromote_ok hr)))
  case h_2 =>
    obtain ⟨r, hr, heq⟩ := map_eq_ok ha
    cases heq
    exact recalls_collapse hr
  case h_3 => exact recalls_merge ha
  case h_4 =>
    obtain ⟨r, hr, heq⟩ := map_eq_ok ha
    cases heq
    exact recalls_split hr
  case h_5 => exact recalls_supersede ha
  case h_6 => cases ha

end Store

open Store

theorem recalls_applyOne (h : Host) (w : Surroundings) (run : ℤ) (q : QueueRun)
    (p : ProposalRow) : Recalls q.store (applyOne h w run q p).store := by
  have hquiet := (quiet_applyOne h w run q p).1
  rcases applied_cases h q.store (w.clock p.id) p.id run classifierActor with
    hsame | ⟨p', s₁, detail, -, hop, hsame⟩
  · exact recalls_of_quiet (hsame.trans hquiet)
  · exact (recalls_applyOp hop).trans (recalls_of_quiet (hsame.trans hquiet))

/-- Every apply of a queue is of an admitted proposal, in a store that has the
recalls, the notes and the proposals of the start. -/
theorem processQueue_applies (h : Host) (w : Surroundings) (run : ℤ) (s : Store) :
    ∀ s₁ p, (s₁, p) ∈ (processQueue h w run s).applies → Admitted run s p ∧ Recalls s s₁ := by
  have hinv : QueueInv h w run s fun q => Recalls s q.store ∧
      ∀ s₁ p, (s₁, p) ∈ q.applies → Admitted run s p ∧ Recalls s s₁ := by
    constructor
    · intro q q' hquiet happ hq
      rw [happ]
      exact ⟨hq.1.trans (recalls_of_quiet hquiet), hq.2⟩
    · intro q p hp hq
      refine ⟨hq.1.trans (recalls_applyOne h w run q p), fun s₁ p' hm => ?_⟩
      rw [(quiet_applyOne h w run q p).2] at hm
      rcases List.mem_append.mp hm with hm | hm
      · exact hq.2 s₁ p' hm
      · obtain ⟨rfl, rfl⟩ := Prod.mk.inj (List.mem_singleton.mp hm)
        exact ⟨hp, hq.1⟩
  exact (processQueue_ind hinv ⟨.refl s, by simp⟩).2

/-! ### The branch then and now -/

namespace Store

/-- The newest date of the live links of some nodes. -/
def newestLink (s : Store) (branch : List String) : Option ℤ :=
  ((branch.flatMap s.liveLinkRows).map s.linkTs).foldl newer none

/-- No node of the branch is protected, and its newest linked activity is as
old as an unattended collapse asks. -/
structure ColdBranch (s : Store) (env : LakeEnvelope) (branch : List String) : Prop where
  free : ∀ x ∈ branch, s.directProtected env x = false
  cold : autoCollapseSafe ⟨s.newestLink branch, 0, false⟩ env = true

/-- What is in the branch was in the roll-up under the node: its nodes, its
links with their dates and recalls; and one of the links has a date. -/
structure RolledUp (s s₁ : Store) (node : String) (branch : List String) : Prop where
  nodes : ∀ x ∈ branch, s₁.Live x → x ∈ rolledBranch s.listClassNodes node
  links : ∀ x ∈ branch, ∀ l ∈ s₁.liveLinkRows x, ∃ y ∈ rolledBranch s.listClassNodes node,
    ∃ l' ∈ s.liveLinkRows y, s.linkTs l' = s₁.linkTs l ∧ l'.lastRecalledAt = l.lastRecalledAt
  dated : ∃ x ∈ branch, ∃ l ∈ s₁.liveLinkRows x, (s₁.linkTs l).isSome = true

instance (s s₁ : Store) (node : String) (branch : List String) :
    Decidable (RolledUp s s₁ node branch) :=
  decidable_of_iff ((∀ x ∈ branch, s₁.Live x → x ∈ rolledBranch s.listClassNodes node) ∧
    (∀ x ∈ branch, ∀ l ∈ s₁.liveLinkRows x, ∃ y ∈ rolledBranch s.listClassNodes node,
      ∃ l' ∈ s.liveLinkRows y, s.linkTs l' = s₁.linkTs l ∧ l'.lastRecalledAt = l.lastRecalledAt) ∧
    ∃ x ∈ branch, ∃ l ∈ s₁.liveLinkRows x, (s₁.linkTs l).isSome = true)
    ⟨fun h => ⟨h.1, h.2.1, h.2.2⟩, fun h => ⟨h.nodes, h.links, h.dated⟩⟩

/-- What a stat of a branch says of its nodes. -/
structure Covers (s : Store) (stat : BranchStat) (ids : List String) : Prop where
  live : ∀ x ∈ ids, s.Live x
  pinned : ∀ x ∈ ids, s.directProtected s.lakeEnvelope x = true → stat.pinned = true
  newest : ∀ x ∈ ids, ∀ l ∈ s.liveLinkRows x, ∀ ts, s.linkTs l = some ts →
    ∃ last, stat.lastTs = some last ∧ ts ≤ last

theorem covers_own {s : Store} {n : NodeRow} (hn : n ∈ s.listClassNodes) :
    s.Covers (ownStat s.nodeDirectLinkActivity (s.directProtected s.lakeEnvelope) n) [n.id] where
  live x hx := by
    obtain rfl := List.mem_singleton.mp hx
    have hrow := (Table.mem_select.mp ((List.mem_insertionSort _).mp hn))
    exact nodeExists_iff.mpr ⟨n, hrow.1, hrow.2⟩
  pinned x hx hp := by
    obtain rfl := List.mem_singleton.mp hx
    exact hp
  newest x hx l hl ts hts := by
    obtain rfl := List.mem_singleton.mp hx
    exact le_foldl_newer (a := none) (.inr (hts ▸ List.mem_map_of_mem hl))

theorem Covers.add {s : Store} {stat child : BranchStat} {ids ids' : List String}
    (h : s.Covers stat ids) (h' : s.Covers child ids') : s.Covers (stat.add child) (ids ++ ids') where
  live x hx := (List.mem_append.mp hx).elim (h.live x) (h'.live x)
  pinned x hx hp := by
    rcases List.mem_append.mp hx with hx | hx
    · simp [BranchStat.add, h.pinned x hx hp]
    · simp [BranchStat.add, h'.pinned x hx hp]
  newest x hx l hl ts hts := by
    rcases List.mem_append.mp hx with hx | hx
    · obtain ⟨last, hlast, hle⟩ := h.newest x hx l hl ts hts
      obtain ⟨m, hm, hle'⟩ := le_newer (b := child.lastTs) (.inl hlast)
      exact ⟨m, hm, hle.trans hle'⟩
    · obtain ⟨last, hlast, hle⟩ := h'.newest x hx l hl ts hts
      obtain ⟨m, hm, hle'⟩ := le_newer (a := stat.lastTs) (.inr hlast)
      exact ⟨m, hm, hle.trans hle'⟩

/-- The stat that the facts have for a node is that of the nodes rolled up
under it. -/
theorem covers_of_stats {s : Store} {node : String} {stat : BranchStat}
    (h : (Facts.load s).stats node = some stat) :
    s.Covers stat (rolledBranch s.listClassNodes node) := by
  obtain ⟨ids, hids, hcov⟩ := @rolled_related _ _ s.listClassNodes _ _ (fun n => [n.id]) (· ++ ·)
    s.Covers (fun n hn => covers_own hn) Covers.add _ _ h
  rw [rolledBranch, hids]
  exact hcov

/-- A recall that warms a live node, on it or on one of its links, protects
it. -/
theorem directProtected_of_warm {s : Store} {env : LakeEnvelope} {x : String} {n : NodeRow} {ts : ℤ}
    (hn : s.nodes.get? x = some n) (hl : n.live = true) (hpos : 0 < ts)
    (hts : ts = n.lastRecalledAt.getD 0 ∨ ∃ l ∈ s.liveLinkRows x, l.lastRecalledAt = some ts)
    (hw : isWarm (some ts) env = true) : s.directProtected env x = true := by
  obtain rfl := Table.key_of_get? hn
  obtain ⟨ts', hts', hle⟩ := le_nodeWarmth hpos hts
  have hlive : s.liveNode? n.id = some n := liveNode?_eq_some.mpr ⟨hn, hl⟩
  rw [directProtected, hlive, Option.any_some, hts', isWarm_mono hle hw, Bool.true_or]

/-- A branch that was rolled up as it is has no protected node but where one
was rolled up. -/
theorem protected_of_rolledUp {s s₁ : Store} {node x : String} {branch : List String}
    {stat : BranchStat} (hrec : Recalls s s₁) (hcov : s.Covers stat (rolledBranch s.listClassNodes node))
    (hroll : RolledUp s s₁ node branch) (hx : x ∈ branch)
    (hp : s₁.directProtected s.lakeEnvelope x = true) :
    ∃ y ∈ rolledBranch s.listClassNodes node, s.directProtected s.lakeEnvelope y = true := by
  unfold directProtected at hp
  rw [Option.any_eq_true] at hp
  obtain ⟨b, hb, hp⟩ := hp
  obtain ⟨hb, hbl⟩ := liveNode?_eq_some.mp hb
  have hxs := hroll.nodes x hx ((live_iff hb).mpr hbl)
  obtain ⟨a, ha, hal⟩ := nodeExists_iff.mp (hcov.live x hxs)
  obtain ⟨b', hb', hab⟩ := hrec.nodes ha
  obtain rfl := Option.some.inj (hb'.symm.trans hb)
  rw [Bool.or_eq_true] at hp
  rcases hp with hw | hnoted
  · unfold isWarm at hw
    rw [Option.any_eq_true] at hw
    obtain ⟨ts, hts, hw⟩ := hw
    have hw' : isWarm (some ts) s.lakeEnvelope = true := by
      rw [isWarm, Option.any_some]
      exact hw
    obtain ⟨hpos, hown | ⟨l, hl, hlr⟩⟩ := nodeWarmth_eq_some hts
    · rw [hab] at hown
      exact ⟨x, hxs, directProtected_of_warm ha hal hpos (.inl hown) hw'⟩
    · rw [Table.key_of_get? hb] at hl
      obtain ⟨y, hy, l', hl', -, hlr'⟩ := hroll.links x hx l hl
      obtain ⟨c, hc, hcl⟩ := nodeExists_iff.mp (hcov.live y hy)
      exact ⟨y, hy, directProtected_of_warm hc hcl hpos (.inr ⟨l', hl', hlr'.trans hlr⟩) hw'⟩
  · have hnoted' : s.noted x = true := by
      rw [noted, ← hrec.userNotes]
      exact hnoted
    refine ⟨x, hxs, ?_⟩
    rw [directProtected, liveNode?_eq_some.mpr ⟨ha, hal⟩, Option.any_some, hnoted', Bool.or_true]

/-- Its newest date is no newer than that of the roll-up. -/
theorem newestLink_of_rolledUp {s s₁ : Store} {node : String} {branch : List String}
    {stat : BranchStat} (hcov : s.Covers stat (rolledBranch s.listClassNodes node))
    (hroll : RolledUp s s₁ node branch) :
    ∃ newest last, s₁.newestLink branch = some newest ∧ stat.lastTs = some last ∧ newest ≤ last := by
  obtain ⟨x, hx, l, hl, hdate⟩ := hroll.dated
  obtain ⟨ts, hts⟩ := Option.isSome_iff_exists.mp hdate
  have hmem : some ts ∈ (branch.flatMap s₁.liveLinkRows).map s₁.linkTs :=
    List.mem_map.mpr ⟨l, List.mem_flatMap.mpr ⟨x, hx, hl⟩, hts⟩
  obtain ⟨newest, hnewest, -⟩ := le_foldl_newer (a := none) (.inr hmem)
  have hm := (mem_of_foldl_newer hnewest).resolve_left nofun
  obtain ⟨l₁, hl₁, hdate₁⟩ := List.mem_map.mp hm
  obtain ⟨x₁, hx₁, hl₁⟩ := List.mem_flatMap.mp hl₁
  obtain ⟨y, hy, l', hl', hts', -⟩ := hroll.links x₁ hx₁ l₁ hl₁
  obtain ⟨last, hlast, hle⟩ := hcov.newest y hy l' hl' newest (hts'.trans hdate₁)
  exact ⟨newest, last, hnewest, hlast, hle⟩

/-- **A branch that was rolled up as it is** is cold and free of protected
nodes when it is collapsed on the facts' verdict. -/
theorem coldBranch_of_rolledUp {s s₁ : Store} {p : ProposalRow} {branch : List String}
    (hverdict : adjudicateCollapse (Facts.load s) p = .apply) (hrec : Recalls s s₁)
    (hroll : RolledUp s s₁ (p.nodeId.getD "") branch) : s₁.ColdBranch s.lakeEnvelope branch := by
  obtain ⟨node, stat, hnode, hstat, -, -, hsafe⟩ := adjudicateCollapse_apply hverdict
  rw [hnode, Option.getD_some] at hroll
  have hcov := covers_of_stats hstat
  constructor
  · intro x hx
    refine eq_false_of_ne_true fun hp => ?_
    obtain ⟨y, hy, hp'⟩ := protected_of_rolledUp hrec hcov hroll hx hp
    have hpin := hcov.pinned y hy hp'
    simp [autoCollapseSafe, hpin] at hsafe
  · obtain ⟨newest, last, hnewest, hlast, hle⟩ := newestLink_of_rolledUp hcov hroll
    rw [hnewest]
    exact autoCollapseSafe_of_le hlast hle hsafe

end Store

/-! ### The queue -/

/-- A call of `apply_one` that collapses the branch of a node. -/
structure Collapses (h : Host) (w : Surroundings) (run : ℤ) (s₁ : Store) (p p' : ProposalRow) :
    Prop where
  row : s₁.proposals.get? p.id = some p'
  op : p'.op = .collapse
  applied : ∃ a, (s₁.applyClassProposalInRun h (w.clock p.id) p.id classifierActor (some run)).2 =
    .ok (some a)

/-- Each branch that the queue collapses was rolled up before it as it is. -/
def CollapsesRolledUp (h : Host) (w : Surroundings) (run : ℤ) (s : Store) : Prop :=
  ∀ s₁ p, (s₁, p) ∈ (processQueue h w run s).applies → ∀ p', Collapses h w run s₁ p p' →
    RolledUp s s₁ (p'.nodeId.getD "") (s₁.collapsedBranch h (w.clock p.id) classifierActor p')

/-- **Each branch that a queue collapses is cold and free of protected nodes
then**, if it was rolled up as it is. -/
theorem processQueue_cold (h : Host) (w : Surroundings) (run : ℤ) (s : Store)
    (hroll : CollapsesRolledUp h w run s) :
    ∀ s₁ p, (s₁, p) ∈ (processQueue h w run s).applies → ∀ p', Collapses h w run s₁ p p' →
      s₁.ColdBranch s.lakeEnvelope (s₁.collapsedBranch h (w.clock p.id) classifierActor p') := by
  intro s₁ p hm p' hcol
  obtain ⟨hadm, hrec⟩ := processQueue_applies h w run s s₁ p hm
  have hrow : s.proposals.get? p.id = some p := by
    have hdue := (List.mem_insertionSort _).mp hadm.due
    exact (Table.mem_select.mp hdue).1
  obtain ⟨p₀, hp₀, hop, hnode⟩ := hrec.proposals hcol.row
  obtain rfl := Option.some.inj (hrow.symm.trans hp₀)
  have hverdict := hadm.collapse (hop.symm.trans hcol.op)
  have hr := hroll s₁ p hm p' hcol
  rw [hnode] at hr
  exact coldBranch_of_rolledUp hverdict hrec hr

/-! ### A class that is promoted under the cold one -/

/-- A collapse that applies is one that returns what it did. -/
theorem applied_of_isSome {ε α : Type} {r : Except ε (Option α)}
    (h : (r.toOption.bind id).isSome = true) : ∃ a, r = .ok (some a) := by
  rcases r with e | _ | a
  · cases h
  · cases h
  · exact ⟨a, rfl⟩

theorem processQueue_cold_coldClass :
    (processQueue Host.plain aloneSurroundings 1 (stagedCollapse [1])).out.applied = 1 ∧
    ∀ s₁ p, (s₁, p) ∈ (processQueue Host.plain aloneSurroundings 1 (stagedCollapse [1])).applies →
      ∀ p', Collapses Host.plain aloneSurroundings 1 s₁ p p' →
        s₁.ColdBranch (stagedCollapse [1]).lakeEnvelope
          (s₁.collapsedBranch Host.plain 5 classifierActor p') := by
  refine ⟨by decide +kernel, processQueue_cold Host.plain aloneSurroundings 1 (stagedCollapse [1]) ?_⟩
  intro s₁ p hm p' hcol
  have hall : ∀ a ∈ (processQueue Host.plain aloneSurroundings 1 (stagedCollapse [1])).applies,
      ∀ p' ∈ (a.1.proposals.get? a.2.id).toList, RolledUp (stagedCollapse [1]) a.1 (p'.nodeId.getD "")
        (a.1.collapsedBranch Host.plain 5 classifierActor p') := by decide +kernel
  exact hall (s₁, p) hm p' (Option.mem_toList.mpr hcol.row)

/-- The cold class, and beside it an empty class with the user's note. -/
def notedBeside : Store :=
  { coldClass with
    nodes := ⟨[classRow none "repo" "r", classRow (some "r") "auth" "b", classRow (some "r") "mine" "c"],
      by decide⟩
    userNotes := ⟨[⟨1, "class_node", some "c", "keep this"⟩], by decide⟩ }

/-- The noted class promoted under the cold one, and then the cold one
collapsed. -/
def promoteThenCollapse : Store :=
  match notedBeside.stageProposal Host.plain 2001 (some 1) (.promote "c" (some "b") none) with
  | .error _ => notedBeside
  | .ok (s, _) =>
    match s.stageProposal Host.plain 2001 (some 1) (coldCollapse [1]) with
    | .error _ => s
    | .ok (s, _) => s

/-- **A noted class is retired**: both proposals are accepted and applied. -/
theorem promoteThenCollapse_not_cold :
    (processQueue Host.plain aloneSurroundings 1 promoteThenCollapse).out.applied = 2 ∧
    (processQueue Host.plain aloneSurroundings 1 promoteThenCollapse).store.nodeExists "c" = false ∧
    ¬∀ s₁ p, (s₁, p) ∈ (processQueue Host.plain aloneSurroundings 1 promoteThenCollapse).applies →
      ∀ p', Collapses Host.plain aloneSurroundings 1 s₁ p p' →
        s₁.ColdBranch promoteThenCollapse.lakeEnvelope
          (s₁.collapsedBranch Host.plain 5 classifierActor p') := by
  refine ⟨by decide +kernel, by decide +kernel, fun hall => ?_⟩
  have hex : ∃ a ∈ (processQueue Host.plain aloneSurroundings 1 promoteThenCollapse).applies,
      ∃ p' ∈ (a.1.proposals.get? a.2.id).toList, p'.op = .collapse ∧
        ((a.1.applyClassProposalInRun Host.plain 5 a.2.id classifierActor (some 1)).2.toOption.bind
          id).isSome = true ∧
        "c" ∈ a.1.collapsedBranch Host.plain 5 classifierActor p' ∧
        a.1.directProtected promoteThenCollapse.lakeEnvelope "c" = true := by decide +kernel
  obtain ⟨⟨s₁, p⟩, hm, p', hp', hop, happ, hc, hprot⟩ := hex
  have hcold := hall s₁ p hm p' ⟨Option.mem_toList.mp hp', hop, applied_of_isSome happ⟩
  rw [hcold.free "c" hc] at hprot
  cases hprot

end PolisMemory
