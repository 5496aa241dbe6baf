/-
# What the filing tier leaves filed

The pass never unfiles: what is filed before is filed after, whatever the vectors, the
model's replies and the writers beside it, and wherever the pass stops
(`fileDelta_unfiles_nothing`). The one write that takes a link away, a member's out
of `~inbox`, comes after the link that files the member elsewhere was made.

And a pass that returns leaves no item of its delta behind (`fileDelta_places`): each
is filed, or the classifier is handed it. A class that is offered to the model is
live, since the tree is, and so is the inbox's root; this is where a filing could
come to nothing.

Key definitions: `Held.Known`, `Held.Offered`, `Ready`, `Filed`, `Sorting.Fair`.
Key theorems: `leads_settle`, `leads_placeItem`, `leads_fileTier`,
`fileDelta_unfiles_nothing`, `fileDelta_places`.
-/
import PolisMemory.Onward

namespace PolisMemory

open Tables Keeper

namespace Filing

open Passes Staging Store

variable {V C F : Type} {polis : Polis V C F} {run : ℤ} {tree : List NodeRow}

/-- While a reply is waited for, the other writers unfile nothing. -/
def Polis.Beside (polis : Polis V C F) : Prop :=
  ∀ agent ∈ polis.agent, ∀ call prompt s, Kept s (agent.run call prompt s).2

/-- A member's link, as long as it is there, has the member for its target. -/
def Held.Known (s : Store) (p : Held) : Prop :=
  ∀ link inboxId, p.inboxLink = some (link, inboxId) → link ≤ s.links.lastId ∧
    ∀ l ∈ s.links.rows, l.id = link → l.targetKind = p.kind ∧ castInteger l.targetId = p.item.seq

/-- The classes that an item can go to are live. -/
def Held.Offered (s : Store) (p : Held) : Prop := s.Live p.root ∧ ∀ id ∈ p.ranked, s.Live id

/-- The pass can file: its tree is live, and so is the root of what has no other. -/
structure Ready (run : ℤ) (tree : List NodeRow) (s : Store) : Prop where
  integral : s.Integral
  tree : ∀ n ∈ tree, s.Live n.id
  general : s.Live generalRootId
  run : s.runSourceForgotten run = false

/-- An item of the delta that is not to be lost. -/
structure Wanted (s : Store) (seq : ℤ) : Prop where
  range : IsI64 seq
  spared : s.sourceForgotten seq = false

section onward

variable {s s' : Store}

theorem Held.Known.onward {p : Held} (hp : p.Known s) (h : Onward s s') : p.Known s' := by
  intro link inboxId hlink
  obtain ⟨hle, hrow⟩ := hp link inboxId hlink
  refine ⟨hle.trans h.ids, fun l' hl' hid => ?_⟩
  obtain ⟨l, hl, hid', hkind, htarget⟩ := h.targets l' hl' (hid ▸ hle)
  exact hkind ▸ htarget ▸ hrow l hl (hid'.trans hid)

theorem Held.Offered.onward {p : Held} (hp : p.Offered s) (h : Onward s s') : p.Offered s' :=
  ⟨h.live _ hp.1, fun id hid => h.live id (hp.2 id hid)⟩

theorem Ready.onward (hr : Ready run tree s) (h : Onward s s') : Ready run tree s' :=
  ⟨h.integral hr.integral, fun n hn => h.live _ (hr.tree n hn), h.live _ hr.general, h.runs run hr.run⟩

theorem Wanted.onward {seq : ℤ} (hw : Wanted s seq) (h : Onward s s') : Wanted s' seq :=
  ⟨hw.range, h.sources seq hw.spared⟩

/-- The classes that a batch offers. -/
theorem live_candidatesFor {p : Held} (htree : ∀ n ∈ tree, s.Live n.id) (hp : p.Offered s) :
    ∀ id ∈ candidatesFor p.toPending tree, s.Live id := by
  intro id hid
  unfold candidatesFor at hid
  split_ifs at hid
  · exact hp.2 id (List.mem_of_mem_take hid)
  · rcases List.mem_cons.mp (List.mem_of_mem_take hid) with rfl | hchild
    · exact hp.1
    · obtain ⟨n, hn, rfl⟩ := List.mem_map.mp hchild
      exact htree n (List.mem_of_mem_filter (List.mem_of_mem_take hn))

end onward

/-- A class that a reply files to is a candidate of an item of the batch. -/
theorem mem_candidatesFor {parse : List Char → Option JsonText.Value} {batch : List Pending}
    {titles : String → Option String} {nonce text : List Char} {seq : ℤ} {id : String}
    (hop : .file seq id ∈ parseBatchReply parse text (buildBatchPrompt batch titles tree nonce).2) :
    ∃ p ∈ batch, id ∈ candidatesFor p tree := by
  obtain ⟨-, v, -, -, hv, -⟩ := ((reading_foldl _ _).mem _).mp hop
  cases hv with
  | file _ _ _ hres =>
    obtain ⟨-, cands, hcands, hid⟩ := resolve_eq_some_iff.mp hres
    have hrec := recorded_legendOf tree batch
    change (legendOf tree batch).shown.candidates seq = some cands at hcands
    rw [hrec.candidates] at hcands
    obtain ⟨p, hp, rfl⟩ := Option.map_eq_some_iff.mp hcands
    exact ⟨p, by simpa using List.mem_of_find?_eq_some hp, hid⟩

/-- What is ranked was a candidate. -/
theorem mem_of_mem_rankUnder {e : Embedder V C F} {centroids : String → Option C} {v : V}
    {under : List String} {r : String × F} (hr : r ∈ rankUnder e centroids v under) : r.1 ∈ under := by
  unfold rankUnder Embedder.rank at hr
  rw [List.mem_mergeSort, List.mem_map] at hr
  obtain ⟨c, hc, rfl⟩ := hr
  obtain ⟨id, hid, hcid⟩ := List.mem_filterMap.mp (List.mem_of_mem_filter hc)
  obtain ⟨c', -, rfl⟩ := Option.map_eq_some_iff.mp hcid
  exact hid

theorem mem_of_decideBest {e : Embedder V C F} {ranked : List (String × F)} :
    (∀ id top1 top2, e.decideBest ranked = .file id top1 top2 → ∃ r ∈ ranked, r.1 = id) ∧
      ∀ ranked', e.decideBest ranked = .ambiguous ranked' → ranked' = ranked := by
  unfold Embedder.decideBest
  split
  · exact ⟨fun id top1 top2 h => (by cases h), fun ranked' h => (Decision.ambiguous.inj h).symm⟩
  · rename_i node top1 rest
    dsimp only
    split_ifs
    · refine ⟨fun id top1 top2 h => ?_, fun ranked' h => (by cases h)⟩
      cases h
      exact ⟨_, List.mem_cons_self, rfl⟩
    · exact ⟨fun id top1 top2 h => (by cases h), fun ranked' h => (Decision.ambiguous.inj h).symm⟩

/-! ### One write of the pass -/

section writes

variable {s : Store} {seq : ℤ} {kind : String}

theorem any_sourceForgotten (hw : Wanted s seq) :
    (parseI64 (i64ToString seq)).any s.sourceForgotten = false := by
  rw [parseI64_i64ToString hw.range.1 hw.range.2]
  exact hw.spared

theorem kept_embeddings (s : Store) (embeddings : Table EmbeddingRow.chunk) :
    Kept s { s with embeddings := embeddings } := by
  refine Onward.kept ⟨fun q hq => hq, le_rfl, fun l hl _ => ⟨l, hl, rfl, rfl, rfl⟩, ?_, fun _ h => h,
    fun _ h => h⟩ fun l hl _ => hl
  exact Integral.congr ⟨rfl, rfl, rfl, rfl⟩

/-- The embedder's writes are no filings. -/
theorem keeps_itemVector (e : Embedder V C F) (kind : String) (seq : ℤ) :
    Keeps Kept (e.itemVector kind seq) := by
  unfold Embedder.itemVector
  split_ifs
  · exact .pure none
  · intro s
    refine .bind (.get ?_)
    split
    · exact .pure (refl s)
    · split
      · exact .pure (refl s)
      · exact .bind (.set (.pure (kept_embeddings s _)))

theorem keeps_vectorOf (polis : Polis V C F) (kind : String) (seq : ℤ) :
    Keeps Kept (vectorOf polis kind seq) := by
  unfold vectorOf
  split
  · exact .pure none
  · exact keeps_itemVector _ kind seq

/-- **A filing in the pass**: an item that is wanted is filed if the class is live. -/
theorem leads_fileNow (nodeId note : String) :
    Leads (fileNow polis run nodeId seq kind note) s
      (fun filed s' => Kept s s' ∧ (∀ l ∈ s.links.rows, l.live = true → l ∈ s'.links.rows) ∧
        (s.Live nodeId → s.runSourceForgotten run = false → Wanted s seq → s'.Placed kind seq) ∧
        (filed = true →
          (∃ l ∈ s'.links.rows, l.live = true ∧ l.dedup = (nodeId, kind, i64ToString seq) ∧
            s'.Live l.nodeId) ∧
          ∀ l ∈ s.links.rows, l.live = true → l.dedup ≠ (nodeId, kind, i64ToString seq)))
      (Kept s) := by
  refine .bind (.tx (fun s' out hstage => .pure ?_) (refl s))
  obtain ⟨hkept, hlinks, hplaced, hnew⟩ := kept_stageFile (mapError_eq_ok hstage)
  exact ⟨hkept, hlinks, fun hlive hrun hw => hplaced hlive hrun (any_sourceForgotten hw),
    fun hfiled => hnew rfl (of_decide_eq_true hfiled)⟩

theorem leads_inbox (root : String) :
    Leads (inbox polis run root seq kind) s
      (fun _ s' => Kept s s' ∧
        (s.Live root → s.runSourceForgotten run = false → Wanted s seq → s'.Placed kind seq))
      (Kept s) := by
  refine .bind (.tx (fun s' out hstage => .pure ?_) (refl s))
  obtain ⟨hkept, -, hplaced, -⟩ := kept_stageFile (mapError_eq_ok hstage)
  exact ⟨hkept, fun hlive hrun hw => hplaced hlive hrun (any_sourceForgotten hw)⟩

/-- An item that is parked is filed, unless it is a member. -/
theorem leads_park (out : FilingOutcome) (p : Held) :
    Leads (park polis run out p) s
      (fun _ s' => Kept s s' ∧
        (p.inboxLink = none → s.Live p.root → s.runSourceForgotten run = false →
          Wanted s p.item.seq → s'.Placed p.kind p.item.seq))
      (Kept s) := by
  unfold park
  split
  · rename_i hsome
    exact .pure ⟨refl s, fun hnone => by rw [hsome] at hnone; cases hnone⟩
  · refine .bind ((leads_inbox p.root).mono (fun _ s' hq => ?_) fun s' hq => hq)
    exact .pure ⟨hq.1, fun _ hlive hrun hw => hq.2 hlive hrun hw⟩

/-- **What the reply makes of an item**: nothing is unfiled, and an item that waits and
is wanted is filed, all that the operations file to being live. -/
theorem leads_settle {ops : List BatchOp} (out : FilingOutcome) {p : Held} (hknown : p.Known s) :
    Leads (settle polis run ops out p) s
      (fun _ s' => Kept s s' ∧
        ((∀ q id, .file q id ∈ ops → s.Live id) → p.inboxLink = none → s.Live p.root →
          s.runSourceForgotten run = false → Wanted s p.item.seq → s'.Placed p.kind p.item.seq))
      (Kept s) := by
  unfold settle
  split
  · rename_i q nodeId hfound
    have hop : .file q nodeId ∈ ops := by simpa using List.mem_of_find?_eq_some hfound
    refine .bind ((keeps_vectorOf polis p.kind p.item.seq s).mono (fun _ s₁ hkept₁ => ?_) fun s₁ h => h)
    refine .bind ((leads_fileNow nodeId _).mono (fun filed s₂ hq => ?_) fun s₂ h =>
      IsTrans.trans _ _ _ hkept₁ h)
    obtain ⟨hkept₂, hlinks, hplaced, hnew⟩ := hq
    have hkept : Kept s s₂ := IsTrans.trans _ _ _ hkept₁ hkept₂
    have hto : (∀ q id, .file q id ∈ ops → s.Live id) → s.runSourceForgotten run = false →
        Wanted s p.item.seq → s₂.Placed p.kind p.item.seq := fun hlive hrun hw =>
      hplaced (hkept₁.live _ (hlive q nodeId hop)) (hkept₁.runs run hrun) (hw.onward hkept₁.toOnward)
    split
    · rename_i hfiled
      obtain ⟨hlink, hfresh⟩ := hnew hfiled
      split
      · rename_i link inboxId hmember
        refine .bind (.modify (.pure ⟨?_, fun _ hnone => ?_⟩))
        · exact IsTrans.trans _ _ _ hkept₁ (hkept₂.refile hlinks
            ((hknown.onward hkept₁.toOnward) link inboxId hmember).2 hlink hfresh)
        · rw [hmember] at hnone
          cases hnone
      · exact .pure ⟨hkept, fun hlive _ _ hrun hw => hto hlive hrun hw⟩
    · exact .pure ⟨hkept, fun hlive _ _ hrun hw => hto hlive hrun hw⟩
  · exact (leads_park out p).mono (fun _ s' hq => ⟨hq.1, fun _ hnone hlive => hq.2 hnone hlive⟩)
      fun s' h => h

end writes

/-! ### The rest of the delta -/

section rest

variable {s : Store}

/-- An item of the delta that waits, wanted. -/
structure Held.Waits (s : Store) (p : Held) : Prop extends Wanted s p.item.seq where
  own : p.inboxLink = none

theorem Held.Waits.onward {s' : Store} {p : Held} (hp : p.Waits s) (h : Onward s s') : p.Waits s' :=
  ⟨hp.toWanted.onward h, hp.own⟩

/-- The items of a batch, one after the other. -/
theorem leads_settleAll {ops : List BatchOp} (out : FilingOutcome) {batch : List Held}
    (hknown : ∀ p ∈ batch, p.Known s) :
    Leads (batch.foldlM (settle polis run ops) out) s
      (fun _ s' => Kept s s' ∧
        ((∀ q id, .file q id ∈ ops → s.Live id) → s.runSourceForgotten run = false →
          ∀ p ∈ batch, p.Waits s → s.Live p.root → s'.Placed p.kind p.item.seq))
      (Kept s) := by
  refine .foldlM (fun (done : List Held) _ s' => Kept s s' ∧
    ((∀ q id, .file q id ∈ ops → s.Live id) → s.runSourceForgotten run = false →
      ∀ p ∈ done, p.Waits s → s.Live p.root → s'.Placed p.kind p.item.seq)) ?_
    ⟨refl s, fun _ _ p hp => by cases hp⟩
  intro done p rest out s₁ hbatch ⟨hkept, hdone⟩
  have hp : p ∈ batch := hbatch ▸ List.mem_append_right done List.mem_cons_self
  refine (leads_settle out ((hknown p hp).onward hkept.toOnward)).mono (fun _ s₂ hq => ?_) fun s₂ h =>
    IsTrans.trans _ _ _ hkept h
  refine ⟨IsTrans.trans _ _ _ hkept hq.1, fun hlive hrun p' hp' hw hroot => ?_⟩
  rcases List.mem_append.mp hp' with hold | hnew
  · exact hq.1.placed _ _ hw.range (hdone hlive hrun p' hold hw hroot)
  · obtain rfl := List.mem_singleton.mp hnew
    exact hq.2 (fun q id hop => hkept.live id (hlive q id hop)) hw.own (hkept.live _ hroot)
      (hkept.runs run hrun) (hw.toWanted.onward hkept.toOnward)

/-- The items that wait are filed. -/
def Filed (run : ℤ) (tree : List NodeRow) (held : List Held) (s s' : Store) : Prop :=
  Ready run tree s → (∀ p ∈ held, p.Offered s) → ∀ p ∈ held, p.Waits s → s'.Placed p.kind p.item.seq

/-- **A batch**: whatever is replied, nothing is unfiled and what waits is filed. -/
theorem leads_fileBatch (hbeside : polis.Beside) {agent : Agent} (hagent : agent ∈ polis.agent)
    (out : FilingOutcome) {batch : List Held} (hknown : ∀ p ∈ batch, p.Known s) :
    Leads (fileBatch polis run agent tree out batch) s
      (fun _ s' => Kept s s' ∧ Filed run tree batch s s') (Kept s) := by
  set built := buildBatchPrompt (batch.map Held.toPending) (titlesOf tree) tree
    (agent.nonce out.llmCalls) with hbuilt
  have hkept₁ := hbeside agent hagent out.llmCalls built.1 s
  refine .bind (.modifyGet ((leads_settleAll _ fun p hp => (hknown p hp).onward hkept₁.toOnward).mono
    (fun _ s' hq => ⟨IsTrans.trans _ _ _ hkept₁ hq.1, fun hready hoffered p hp hw => ?_⟩)
    fun s' h => IsTrans.trans _ _ _ hkept₁ h))
  refine hq.2 (fun q id hop => ?_) (hkept₁.runs run hready.run) p hp (hw.onward hkept₁.toOnward)
    (hkept₁.live _ (hoffered p hp).1)
  apply hkept₁.live
  unfold Agent.opsOf at hop
  split at hop
  · obtain ⟨_, hcand, hid⟩ := mem_candidatesFor hop
    obtain ⟨held, hheld, rfl⟩ := List.mem_map.mp hcand
    exact live_candidatesFor hready.tree (hoffered held hheld) id hid
  · cases hop

/-- A loop over parts of what is held files all if its body files each part. -/
theorem leads_foldlM_filed {σ : Type} {g : FilingOutcome → σ → Pass FilingOutcome} (part : σ → List Held)
    (xs : List σ) (hg : ∀ out x s, (∀ p ∈ part x, p.Known s) → Leads (g out x) s
      (fun _ s' => Kept s s' ∧ Filed run tree (part x) s s') (Kept s))
    (out : FilingOutcome) (hknown : ∀ p ∈ xs.flatMap part, p.Known s) :
    Leads (xs.foldlM g out) s (fun _ s' => Kept s s' ∧ Filed run tree (xs.flatMap part) s s')
      (Kept s) := by
  refine .foldlM (fun (done : List σ) _ s' => Kept s s' ∧ Filed run tree (done.flatMap part) s s') ?_
    ⟨refl s, fun _ _ p hp => by cases hp⟩
  intro done x rest out s₁ hxs ⟨hkept, hdone⟩
  have hpart : ∀ p ∈ part x, p.Known s₁ := by
    intro p hp
    apply (hknown p ?_).onward hkept.toOnward
    rw [hxs]
    exact List.mem_flatMap.mpr ⟨x, List.mem_append_right done List.mem_cons_self, hp⟩
  refine (hg out x s₁ hpart).mono (fun _ s₂ hq => ⟨IsTrans.trans _ _ _ hkept hq.1, ?_⟩) fun s₂ h =>
    IsTrans.trans _ _ _ hkept h
  intro hready hoffered p hp hw
  simp only [List.flatMap_append, List.flatMap_cons, List.flatMap_nil, List.append_nil,
    List.mem_append] at hp hoffered
  rcases hp with hold | hnew
  · exact hq.1.placed _ _ hw.range (hdone hready (fun p' hp' => hoffered p' (.inl hp')) p hold hw)
  · exact hq.2 (hready.onward hkept.toOnward)
      (fun p' hp' => (hoffered p' (.inr hp')).onward hkept.toOnward) p hnew (hw.onward hkept.toOnward)

theorem flatten_chunks {α : Type} {size : ℕ} (hsize : 0 < size) (xs : List α) :
    (chunks size xs).flatMap id = xs := by
  have htake : ∀ k, ((List.range k).map fun i => (xs.drop (i * size)).take size).flatMap id =
      xs.take (k * size) := by
    intro k
    induction k with
    | zero => simp
    | succ k ih =>
      rw [List.range_succ, List.map_append, List.flatMap_append, ih, Nat.succ_mul, List.take_add]
      simp
  rw [chunks, htake, List.take_of_length_le]
  have hceil := Nat.div_add_mod (xs.length + size - 1) size
  have hmod := Nat.mod_lt (xs.length + size - 1) hsize
  have hcomm : (xs.length + size - 1) / size * size = size * ((xs.length + size - 1) / size) :=
    Nat.mul_comm _ _
  omega

/-- **What was held**: on a plain run, what waits is filed. -/
theorem leads_fileRest (hbeside : polis.Beside) (w : Sorting C) {pending : List Held}
    (hknown : ∀ p ∈ pending, p.Known s) :
    Leads (fileRest polis run tree w pending) s
      (fun out s' => Kept s s' ∧
        (w.out.consolidationDue = false → Filed run tree pending s s') ∧
        (w.out.consolidationDue = true → out = { w.out with
          leftover := ((pending.filter fun p => p.inboxLink.isNone).map fun p => p.item) ++ w.skipped }))
      (Kept s) := by
  unfold fileRest
  split
  · rename_i hdue
    exact .pure ⟨refl s, fun hno => absurd hdue (by simp [hno]), fun _ => rfl⟩
  · rename_i hplain
    have hno : w.out.consolidationDue = true → False := fun hdue => hplain hdue
    split
    · rename_i agent hagent
      have hbatch : ∀ out batch s, (∀ p ∈ batch, p.Known s) →
          Leads (fileBatch polis run agent tree out batch) s
            (fun _ s' => Kept s s' ∧ Filed run tree batch s s') (Kept s) :=
        fun out batch s hk => leads_fileBatch hbeside hagent out hk
      have hloop := leads_foldlM_filed id (chunks batchMax pending) hbatch w.out
        (by rwa [flatten_chunks (by decide)])
      rw [flatten_chunks (by decide)] at hloop
      exact hloop.mono (fun _ s' hq => ⟨hq.1, fun _ => hq.2, fun hdue => (hno hdue).elim⟩) fun s' h => h
    · have hpark : ∀ out p s, (∀ q ∈ [p], Held.Known s q) → Leads (park polis run out p) s
          (fun _ s' => Kept s s' ∧ Filed run tree [p] s s') (Kept s) := by
        intro out p s _
        refine (leads_park out p).mono (fun _ s' hq => ⟨hq.1, ?_⟩) fun s' h => h
        intro hready hoffered q hq' hw
        obtain rfl := List.mem_singleton.mp hq'
        exact hq.2 hw.own (hoffered q hq').1 hready.run hw.toWanted
      have hloop := leads_foldlM_filed (fun p => [p]) pending hpark w.out
        (by rwa [List.flatMap_singleton'])
      rw [List.flatMap_singleton'] at hloop
      exact hloop.mono (fun _ s' hq => ⟨hq.1, fun _ => hq.2, fun hdue => (hno hdue).elim⟩) fun s' h => h

end rest

/-! ### The delta -/

section delta

variable {s : Store}

theorem leads_walkUnder {E : Store → Prop} (root : String) (hE : E s) :
    Leads (walkUnder tree root) s
      (fun under s' => s' = s ∧ ∀ P : String → Prop, (∀ n ∈ tree, P n.id) → P root → ∀ id ∈ under, P id)
      E := by
  unfold walkUnder
  split
  · rename_i under hunder
    exact .pure ⟨rfl, fun P htree hroot => mem_nodesUnder htree hroot hunder⟩
  · exact .throw hE

/-- The root of an item is live. -/
theorem live_resolveRoot (h : Host) (item : LakeItem) (hready : Ready run tree s) :
    s.Live (resolveRoot h item (rootsOf tree)) := by
  unfold resolveRoot
  split
  · split_ifs with hroot
    · obtain ⟨n, hn, hid⟩ := List.mem_map.mp hroot
      exact hid ▸ hready.tree n (List.mem_of_mem_filter hn)
    · exact hready.general
  · exact hready.general

/-- What the loop has made of an item: it is skipped, filed or held. -/
inductive Sorted (run : ℤ) (tree : List NodeRow) (s s' : Store) (skipped : List LakeItem)
    (pending : List Held) (item : LakeItem) : Prop
  | skipped : fileable item = false → item ∈ skipped → Sorted run tree s s' skipped pending item
  | filed : fileable item = true →
    (Ready run tree s → Wanted s item.seq → s'.Placed (targetKind item) item.seq) →
    Sorted run tree s s' skipped pending item
  | held {p : Held} : fileable item = true → p ∈ pending → p.item = item → p.kind = targetKind item →
    p.inboxLink = none → Sorted run tree s s' skipped pending item

/-- The loop over the delta, after some items. -/
structure Sorting.Fair (run : ℤ) (tree : List NodeRow) (s s' : Store) (done : List LakeItem)
    (due : Bool) (w : Sorting C) : Prop where
  kept : Kept s s'
  due : w.out.consolidationDue = due
  own : ∀ p ∈ w.pending, p.inboxLink = none
  offered : Ready run tree s → ∀ p ∈ w.pending, p.Offered s'
  sorted : ∀ item ∈ done, Sorted run tree s s' w.skipped w.pending item

/-- What is written next changes nothing of that. -/
theorem Sorting.Fair.after {s₁ s₂ : Store} {done : List LakeItem} {due : Bool} {w : Sorting C}
    (hw : w.Fair run tree s s₁ done due) (hkept : Kept s₁ s₂) : w.Fair run tree s s₂ done due where
  kept := IsTrans.trans _ _ _ hw.kept hkept
  due := hw.due
  own := hw.own
  offered hready p hp := (hw.offered hready p hp).onward hkept.toOnward
  sorted item hitem := by
    cases hw.sorted item hitem with
    | skipped hno hmem => exact .skipped hno hmem
    | filed hyes hplaced =>
      exact .filed hyes fun hready hwanted => hkept.placed _ _ hwanted.range (hplaced hready hwanted)
    | held hyes hmem hit hkind hown => exact .held hyes hmem hit hkind hown

/-- One more item: the loop goes on. -/
theorem Sorting.Fair.next {s₁ : Store} {done : List LakeItem} {due : Bool} {w w' : Sorting C}
    {item : LakeItem} {new : List Held} (hw : w.Fair run tree s s₁ done due)
    (hdue : w'.out.consolidationDue = w.out.consolidationDue) (hskipped : w.skipped ⊆ w'.skipped)
    (hpending : w'.pending = w.pending ++ new) (hown : ∀ p ∈ new, p.inboxLink = none)
    (hoffered : Ready run tree s → ∀ p ∈ new, p.Offered s₁)
    (hitem : Sorted run tree s s₁ w'.skipped w'.pending item) :
    w'.Fair run tree s s₁ (done ++ [item]) due where
  kept := hw.kept
  due := hdue.trans hw.due
  own p hp := by
    rw [hpending] at hp
    exact (List.mem_append.mp hp).elim (hw.own p) (hown p)
  offered hready p hp := by
    rw [hpending] at hp
    exact (List.mem_append.mp hp).elim (hw.offered hready p) (hoffered hready p)
  sorted item' hitem' := by
    rcases List.mem_append.mp hitem' with hold | hnew
    · cases hw.sorted item' hold with
      | skipped hno hmem => exact .skipped hno (hskipped hmem)
      | filed hyes hplaced => exact .filed hyes hplaced
      | held hyes hmem hit hkind hown' =>
        exact .held hyes (hpending ▸ List.mem_append_left new hmem) hit hkind hown'
    · exact List.mem_singleton.mp hnew ▸ hitem

variable {s₀ : Store} {done : List LakeItem} {due : Bool} {w : Sorting C} {item : LakeItem} {root : String}

/-- An item that is held. -/
theorem Sorting.Fair.hold {w' : Sorting C} {ranked : List String} (hw : w.Fair run tree s₀ s done due)
    (hyes : fileable item = true) (hdue : w'.out.consolidationDue = w.out.consolidationDue) (hskipped : w'.skipped = w.skipped)
    (hpending : w'.pending = w.pending ++ [⟨⟨item, targetKind item, root, ranked⟩, none⟩])
    (hroot : Ready run tree s₀ → s.Live root) (hranked : Ready run tree s₀ → ∀ id ∈ ranked, s.Live id) :
    w'.Fair run tree s₀ s (done ++ [item]) due := by
  refine hw.next hdue (hskipped ▸ List.Subset.refl _) hpending ?_ ?_ ?_
  · intro p hp
    obtain rfl := List.mem_singleton.mp hp
    rfl
  · intro hready p hp
    obtain rfl := List.mem_singleton.mp hp
    exact ⟨hroot hready, hranked hready⟩
  · exact .held hyes (hpending ▸ List.mem_append_right w.pending List.mem_cons_self) rfl rfl rfl

/-- An item that is filed, or was. -/
theorem Sorting.Fair.file {w' : Sorting C} (hw : w.Fair run tree s₀ s done due)
    (hyes : fileable item = true) (hdue : w'.out.consolidationDue = w.out.consolidationDue) (hskipped : w'.skipped = w.skipped)
    (hpending : w'.pending = w.pending)
    (hplaced : Ready run tree s₀ → Wanted s₀ item.seq → s.Placed (targetKind item) item.seq) :
    w'.Fair run tree s₀ s (done ++ [item]) due :=
  hw.next hdue (hskipped ▸ List.Subset.refl _) (hpending.trans (List.append_nil _).symm)
    (fun _ hp => by cases hp) (fun _ _ hp => by cases hp) (.filed hyes hplaced)

/-- What the ranking makes of an item. -/
theorem leads_placeRanked (e : Embedder V C F) (v : V) {ranked : List (String × F)}
    (hw : w.Fair run tree s₀ s done due) (hyes : fileable item = true)
    (hroot : Ready run tree s₀ → s.Live root) (hranked : Ready run tree s₀ → ∀ r ∈ ranked, s.Live r.1) :
    Leads (placeRanked polis run e w item root v ranked) s
      (fun w' s' => w'.Fair run tree s₀ s' (done ++ [item]) due) (Kept s₀) := by
  obtain ⟨hbest, hambiguous⟩ := @mem_of_decideBest V C F e ranked
  unfold placeRanked
  split
  · rename_i nodeId top1 top2 hfile
    refine .bind ((leads_fileNow nodeId _).mono (fun filed s₁ hq => ?_) fun s₁ h =>
      IsTrans.trans _ _ _ hw.kept h)
    have hplaced : Ready run tree s₀ → Wanted s₀ item.seq → s₁.Placed (targetKind item) item.seq := by
      intro hready hwanted
      obtain ⟨r, hr, rfl⟩ := hbest nodeId top1 top2 hfile
      exact hq.2.2.1 (hranked hready r hr) (hw.kept.runs run hready.run)
        (hwanted.onward hw.kept.toOnward)
    split
    · exact .pure ((hw.after hq.1).file hyes rfl rfl rfl hplaced)
    · exact .pure ((hw.after hq.1).file hyes rfl rfl rfl hplaced)
  · rename_i ranked' hheld
    obtain rfl := hambiguous ranked' hheld
    refine .pure (hw.hold hyes rfl rfl rfl hroot fun hready id hid => ?_)
    obtain ⟨r, hr, rfl⟩ := List.mem_map.mp hid
    exact hranked hready r hr
  · rename_i hno
    unfold Embedder.decideBest at hno
    split at hno
    · cases hno
    · dsimp only at hno
      split_ifs at hno

/-- **One item of the delta** is skipped, filed or held. -/
theorem leads_placeItem (hw : w.Fair run tree s₀ s done due) (item : LakeItem) :
    Leads (placeItem polis run tree w item) s
      (fun w' s' => w'.Fair run tree s₀ s' (done ++ [item]) due) (Kept s₀) := by
  unfold placeItem
  split
  · rename_i hno
    exact .pure (hw.next rfl (List.subset_append_left _ _) (List.append_nil _).symm
      (fun _ hp => by cases hp) (fun _ _ hp => by cases hp)
      (.skipped (by simpa using hno) (List.mem_append_right _ List.mem_cons_self)))
  · rename_i hno
    have hyes : fileable item = true := by simpa using hno
    have hready := fun hr : Ready run tree s₀ => hr.onward hw.kept.toOnward
    have hroot := fun hr => live_resolveRoot polis.host item (hready hr)
    refine .bind ((leads_walkUnder _ hw.kept).mono (fun under s₁ hq => ?_) fun s₁ h => h)
    obtain ⟨rfl, hunder⟩ := hq
    split
    · exact .pure (hw.hold hyes rfl rfl rfl hroot fun _ id hid => by cases hid)
    · rename_i e he
      refine .bind ((keeps_itemVector e _ _ s₁).mono (fun v s₂ hkept => ?_) fun s₂ h =>
        IsTrans.trans _ _ _ hw.kept h)
      have hw₂ := hw.after hkept
      split
      · exact .pure (hw₂.hold hyes rfl rfl rfl (fun hr => hkept.live _ (hroot hr)) fun _ id hid => by
          cases hid)
      · refine leads_placeRanked e _ ⟨hw₂.kept, hw₂.due, hw₂.own, hw₂.offered, hw₂.sorted⟩ hyes
          (fun hr => hkept.live _ (hroot hr)) fun hr r hmem => ?_
        apply hkept.live
        exact hunder s₁.Live (hready hr).tree (hroot hr) _ (mem_of_mem_rankUnder hmem)

end delta

/-! ### The members of the inbox -/

section members

variable {s s₀ : Store} {w : Sorting C} {row : InboxLink} {centroids : String → Option C}

/-- What was read of a link is so. -/
structure Read (s : Store) (row : InboxLink) : Prop where
  link : ∃ l ∈ s.links.rows, l.id = row.link ∧ l.targetKind = row.kind ∧ castInteger l.targetId = row.seq
  root : s.Integral → s.Live row.root

theorem read_inboxLinks {title : String} {limit : ℕ} (hrow : row ∈ s.inboxLinks title limit) :
    Read s row := by
  obtain ⟨l, hl, hread⟩ := List.mem_filterMap.mp (List.mem_of_mem_take hrow)
  unfold inboxLink? at hread
  split_ifs at hread
  obtain ⟨n, hn, hread⟩ := Option.bind_eq_some_iff.mp hread
  split_ifs at hread
  obtain ⟨root, hroot, rfl⟩ := Option.map_eq_some_iff.mp hread
  obtain ⟨hget, hlive⟩ := liveNode?_eq_some.mp hn
  exact ⟨⟨l, hl, rfl, rfl, rfl⟩, fun hs => hs.parent hget hlive hroot⟩

/-- The member that is offered is known by its link. -/
theorem Read.known (hrow : Read s row) (item : LakeItem) (hseq : item.seq = row.seq)
    (ranked : List String) :
    Held.Known s ⟨⟨item, row.kind, row.root, ranked⟩, some (row.link, row.inboxId)⟩ := by
  obtain ⟨l, hl, hid, hkind, htarget⟩ := hrow.link
  intro link inboxId hlink
  obtain ⟨rfl, -⟩ := Prod.mk.inj (Option.some.inj hlink)
  refine ⟨hid ▸ s.links.bound l hl, fun l' hl' hid' => ?_⟩
  obtain rfl := List.inj_on_of_nodup_map s.links.nodup hl' hl (hid'.trans hid.symm)
  exact ⟨hkind, htarget.trans hseq.symm⟩

theorem leads_rankMember (hE : Kept s₀ s) :
    Leads (rankMember polis tree centroids row) s
      (fun ranked s' => Kept s s' ∧
        ((∀ n ∈ tree, s.Live n.id) → s.Live row.root → ∀ r ∈ ranked, s'.Live r.1))
      (Kept s₀) := by
  unfold rankMember
  split
  · exact .pure ⟨refl s, fun _ _ r hr => by cases hr⟩
  · rename_i e he
    refine .bind ((keeps_itemVector e row.kind row.seq s).mono (fun v s₁ hkept => ?_) fun s₁ h =>
      IsTrans.trans _ _ _ hE h)
    split
    · exact .pure ⟨hkept, fun _ _ r hr => by cases hr⟩
    · refine .bind ((leads_walkUnder _ (IsTrans.trans _ _ _ hE hkept)).mono (fun under s₂ hq => ?_)
        fun s₂ h => h)
      obtain ⟨rfl, hunder⟩ := hq
      refine .pure ⟨hkept, fun htree hroot r hr => ?_⟩
      have hmem := List.mem_of_mem_filter (mem_of_mem_rankUnder hr)
      exact hunder s₂.Live (fun n hn => hkept.live _ (htree n hn)) (hkept.live _ hroot) _ hmem

/-- What is held while the members are gathered. -/
structure Gathered (ready : Prop) (s s' : Store) (own pending : List Held) : Prop where
  kept : Kept s s'
  own : own ⊆ pending
  known : ∀ p ∈ pending, p.Known s'
  offered : ready → ∀ p ∈ pending, p.Offered s'

/-- A member is known by its link, and its inbox's parent is live. -/
theorem leads_reoffer {ready : Prop} {own pending : List Held} (hready : ready → Ready run tree s₀)
    (hg : Gathered ready s₀ s own pending) (hrow : Read s₀ row) :
    Leads (reoffer polis tree centroids pending row) s
      (fun pending' s' => Gathered ready s₀ s' own pending') (Kept s₀) := by
  unfold reoffer
  refine .bind (.get ?_)
  split
  · exact .pure hg
  · refine .bind ((leads_rankMember hg.kept).mono (fun ranked s₁ hq => ?_) fun s₁ h => h)
    obtain ⟨hkept, hranked⟩ := hq
    have hall : Kept s₀ s₁ := IsTrans.trans _ _ _ hg.kept hkept
    refine .pure ⟨hall, List.subset_append_of_subset_left _ hg.own, fun p hp => ?_, fun hr p hp => ?_⟩
    · rcases List.mem_append.mp hp with hold | hnew
      · exact (hg.known p hold).onward hkept.toOnward
      · obtain rfl := List.mem_singleton.mp hnew
        exact (hrow.known _ rfl _).onward hall.toOnward
    · rcases List.mem_append.mp hp with hold | hnew
      · exact (hg.offered hr p hold).onward hkept.toOnward
      · obtain rfl := List.mem_singleton.mp hnew
        have hroot := hrow.root (hready hr).integral
        refine ⟨hall.live _ hroot, fun id hid => ?_⟩
        obtain ⟨r, hmem, rfl⟩ := List.mem_map.mp hid
        exact hranked ((hready hr).onward hg.kept.toOnward).tree (hg.kept.live _ hroot) r hmem

/-- **What waits** is known and offered live classes. -/
theorem leads_gather {delta : List LakeItem} {due : Bool} (hw : w.Fair run tree s₀ s delta due) :
    Leads (gather polis tree w) s
      (fun pending s' => Gathered (Ready run tree s₀) s s' w.pending pending) (Kept s) := by
  have hstart : Gathered (Ready run tree s₀) s s w.pending w.pending := by
    refine ⟨refl s, List.Subset.refl _, fun p hp link inboxId hlink => ?_, hw.offered⟩
    rw [hw.own p hp] at hlink
    cases hlink
  unfold gather
  split
  · exact .pure hstart
  · refine .bind (.get (.foldlM (fun (_ : List InboxLink) pending s' =>
      Gathered (Ready run tree s₀) s s' w.pending pending) ?_ hstart))
    intro done row rest pending s' hrows hg
    have hrow : row ∈ s.inboxLinks inboxTitle inboxRetryMax :=
      hrows ▸ List.mem_append_right done List.mem_cons_self
    exact leads_reoffer (fun hready => hready.onward hw.kept.toOnward) hg (read_inboxLinks hrow)

end members

/-! ### The pass -/

section pass

variable {s : Store} {delta : List LakeItem} {due : Bool}

/-- The whole pass. -/
theorem leads_fileTier (hbeside : polis.Beside) :
    Leads (fileTier polis run tree delta due) s
      (fun out s' => Kept s s' ∧ ∀ item ∈ delta,
        (fileable item = true → Ready run tree s → Wanted s item.seq →
          s'.Placed (targetKind item) item.seq ∨ due = true ∧ item ∈ out.leftover) ∧
        (fileable item = false → due = true → item ∈ out.leftover))
      (Kept s) := by
  have hstart : (Sorting.mk (centroidsOf polis s) [] [] (.start due)).Fair run tree s s [] due :=
    ⟨refl s, rfl, fun _ hp => (by cases hp), fun _ _ hp => (by cases hp), fun _ hi => (by cases hi)⟩
  refine .bind (.get (.bind ((Leads.foldlM (fun done w s' => w.Fair run tree s s' done due)
    (fun done item rest w s' _ hw => leads_placeItem hw item) hstart).mono (fun w s₁ hw => ?_)
    fun s₁ h => h)))
  refine .bind ((leads_gather hw).mono (fun pending s₂ hg => ?_) fun s₂ h =>
    IsTrans.trans _ _ _ hw.kept h)
  have hkept₂ := IsTrans.trans _ _ _ hw.kept hg.kept
  refine .bind ((leads_fileRest hbeside w hg.known).mono (fun out s₃ hq => .pure ?_) fun s₃ h =>
    IsTrans.trans _ _ _ hkept₂ h)
  obtain ⟨hkept₃, hplain, hleft⟩ := hq
  refine ⟨IsTrans.trans _ _ _ hkept₂ hkept₃, fun item hitem => ⟨fun hfile hready hwanted => ?_,
    fun hno hdue => ?_⟩⟩
  · cases hw.sorted item hitem with
    | skipped hno =>
      rw [hno] at hfile
      cases hfile
    | filed _ hplaced =>
      exact .inl (hkept₃.placed _ _ hwanted.range (hg.kept.placed _ _ hwanted.range
        (hplaced hready hwanted)))
    | @held p _ hmem hit hkind hown =>
      subst hit
      cases hdue : due with
      | true =>
        refine .inr ⟨rfl, ?_⟩
        rw [hleft (hw.due.trans hdue)]
        refine List.mem_append_left _ (List.mem_map_of_mem (List.mem_filter.mpr ⟨hg.own hmem, ?_⟩))
        rw [hown]
        rfl
      | false =>
        refine .inl ?_
        rw [← hkind]
        exact hplain (hw.due.trans hdue) (hready.onward hkept₂.toOnward) (hg.offered hready) p
          (hg.own hmem) ⟨hwanted.onward hkept₂.toOnward, hown⟩
  · have hskipped : item ∈ w.skipped := by
      cases hw.sorted item hitem with
      | skipped _ hmem => exact hmem
      | filed hyes => rw [hno] at hyes; cases hyes
      | held hyes => rw [hno] at hyes; cases hyes
    rw [hleft (hw.due.trans hdue)]
    exact List.mem_append_right _ hskipped

/-- A prompt in the inbox of the general root, and a class beside it. -/
def onePromptParked : Store :=
  { Store.empty with
    nodes := ⟨[classRow none "~general" generalRootId, classRow (some generalRootId) "auth" "c",
      classRow (some generalRootId) inboxTitle "i"], by decide⟩
    links := ⟨⟨⟨[⟨1, "i", "prompt", "1", none, 0, none, none⟩], by decide⟩, 1, by decide⟩, by decide⟩
    ledger := ⟨[⟨1, 1700000000000, "prompt", "local", some 1, none, none, none, none, "", "", ""⟩],
      by decide⟩ }

/-- A model that files it under the class. -/
def filesUnderClass : Agent :=
  let reply := "\x7b\"ops\":[\x7b\"op\":\"file\",\"seq\":1,\"node_id\":\"c\"\x7d]\x7d".toList
  { nonce := fun _ => "00".toList
    run := fun _ _ s => (some reply, s)
    parse := fun text =>
      if text = reply then
        some (.obj [("ops", .arr [.obj [("op", .str "file"), ("seq", .int 1), ("node_id", .str "c")]])])
      else none }

/-- A pass with that model and no embedder. -/
def modelPass : Polis Unit Unit Unit :=
  ⟨Host.plain, 5, none, some filesUnderClass, fun _ _ _ => some "how do we sign in?"⟩

/-- **The filing tier leaves nothing behind.** A pass that returns has filed each item
of its delta that is not forgotten, under a live class, or leaves it to the
classifier, which it does on a consolidation run alone; there the classifier gets what
the tier does not handle too. -/
theorem fileDelta_places (polis : Polis V C F) (hbeside : polis.Beside) (run : ℤ)
    (tree : List NodeRow) (delta : List LakeItem) (m : MetaTable) {s s' : Store} {out : FilingOutcome}
    (hready : Ready run tree s) (hseqs : ∀ item ∈ delta, IsI64 item.seq)
    (hpass : (fileDelta polis run tree delta m).2 s = .ok out s') :
    ∀ item ∈ delta, s.sourceForgotten item.seq = false →
      (fileable item = true → s'.Placed (targetKind item) item.seq ∨
        (consolidationDue m polis.agent.isSome).1 = true ∧ item ∈ out.leftover) ∧
      (fileable item = false → (consolidationDue m polis.agent.isSome).1 = true →
        item ∈ out.leftover) := by
  intro item hitem hspared
  obtain ⟨hfile, hskip⟩ := ((leads_fileTier hbeside).returns out s' hpass).2 item hitem
  exact ⟨fun hyes => hfile hyes hready ⟨hseqs item hitem, hspared⟩, hskip⟩

/-- The prompt before it was filed anywhere. -/
def onePromptUnfiled : Store := { onePromptParked with links := ∅ }

/-- The prompt, as the delta has it. -/
def promptItem : LakeItem :=
  ⟨1, 1700000000000, "prompt", some "app", none, some "user", none, none, none, none, none,
    some "how do we sign in?", none, none, none, none⟩

/-- A pass without a model and without an embedder. -/
def basicPass : Polis Unit Unit Unit := ⟨Host.plain, 5, none, none, fun _ _ _ => none⟩

theorem ready_onePromptUnfiled : Ready 1 onePromptUnfiled.nodes.rows onePromptUnfiled where
  integral := by
    refine ⟨?_, fun r hr => (by cases hr), fun r hr => (by cases hr)⟩
    have hparents : ∀ a ∈ onePromptUnfiled.nodes.rows, ∀ q ∈ a.parentId,
        onePromptUnfiled.nodeExists q = true := by decide
    exact fun a ha _ q hq => hparents a ha q hq
  tree := by
    have hlive : ∀ n ∈ onePromptUnfiled.nodes.rows, onePromptUnfiled.nodeExists n.id = true := by decide
    exact hlive
  general := by
    show onePromptUnfiled.nodeExists _ = true
    decide
  run := by decide

theorem fileDelta_places_prompt : ∃ out s',
    (fileDelta basicPass 1 onePromptUnfiled.nodes.rows [promptItem] (fun _ => none)).2
      onePromptUnfiled = .ok out s' ∧ s'.Placed "prompt" 1 := by
  cases hpass : (fileDelta basicPass 1 onePromptUnfiled.nodes.rows [promptItem] (fun _ => none)).2
      onePromptUnfiled with
  | ok out s' =>
    have hplaced := (fileDelta_places basicPass (fun _ h => by cases h) 1 _ [promptItem] _
      ready_onePromptUnfiled (fun item hitem => by
        obtain rfl := List.mem_singleton.mp hitem
        exact ⟨by decide, by decide⟩) hpass promptItem List.mem_cons_self (by decide)).1 (by decide)
    have hplain : (consolidationDue (fun _ => none) basicPass.agent.isSome).1 = false := by decide
    rw [hplain] at hplaced
    exact ⟨out, s', rfl, hplaced.resolve_right fun h => by cases h.1⟩
  | error e s' =>
    have hok : returned ((fileDelta basicPass 1 onePromptUnfiled.nodes.rows [promptItem]
      (fun _ => none)).2 onePromptUnfiled) = true := by decide +kernel
    rw [hpass] at hok
    cases hok

end pass

end Filing
end PolisMemory
