/-
# The progress of the semantic index

`index_tick` of `crates/polis-embed/src/lib.rs` embeds the first targets of
`embedding_backlog`, an order that no failure changes: a target whose text the
embedder refuses, or that has no chunk, keeps its place. So a tick makes
progress exactly if one that can be embedded is among the first
`max_targets` (`progress_iff`); and ticks come to an end exactly if this holds
at every one of them (`settles_iff`).

A store of vectors for one target leaves those of every other
(`hasVector_store`), so over a tick a target that has vectors of its own keeps
them (`tick_keeps`), and there are fewer without after each tick that makes
progress; a tick that makes none leaves the backlog as it is (`tick_stuck`).

Key definitions: `SemanticIndex`, `Embedder`, `indexTick`, `inOrder`, `Clear`,
`Progress`, `Settled`.
Key theorems: `hasVector_store`, `embeddingBacklog_eq`, `progress_iff`,
`settles_iff`, `index_progress_iff`.
-/
import PolisMemory.Readiness
import PolisMemory.Chunks
import PolisMemory.Foreign

namespace PolisMemory

open Tables EmbeddedLake

/-! ### The code -/

/-- The lake and what is stored of peers. -/
structure SemanticIndex extends EmbeddedLake where
  foreign : ForeignStore
  /-- No two rows have one rowid. -/
  rowids : ∀ m ∈ base.nodes.rows, ∀ n ∈ base.nodes.rows, rowid m.id = rowid n.id → m = n

/-- What makes vectors of texts: one of each, in order. -/
structure Embedder (V : Type) where
  modelId : String
  embed : List String → Option (List V)
  length_embed : ∀ texts vectors, embed texts = some vectors → vectors.length = texts.length

/-- `usize as i64`, which wraps from `2 ^ 63` on. -/
def asI64 (n : ℕ) : ℤ := if n < 2 ^ 63 then n else n - 2 ^ 64

namespace SemanticIndex

variable {V : Type} (e : Embedder V) (quantize : V → UInt32 × List UInt8)

/-- The lake after a write of vectors. -/
def withEmbeddings (l : SemanticIndex) (t : Table EmbeddingRow.chunk) : SemanticIndex :=
  { l with base := { l.base with embeddings := t } }

/-- `foreign_embedding_backlog` -/
def foreignEmbeddingBacklog (l : SemanticIndex) (model : String) (limit : ℤ) : List BacklogItem :=
  sqlLimit limit
    (((l.foreign.prompts.select fun p =>
        !p.tombstoned && p.text.any (fun text => 0 < sqlLength text) &&
          !l.hasVector model "foreign_prompt" p.id p.bodyHash).mergeSort fun p q => p.id ≤ q.id).map
      fun p => ⟨"foreign_prompt", p.id, p.text.getD "", p.bodyHash⟩)

/-- A chunk with its vector, as it is stored. -/
def chunkVector (c : Chunk) (v : V) : ChunkVector :=
  ⟨c.ix, c.charStart, c.charLen, (quantize v).1, (quantize v).2⟩

/-- The vectors of a text's chunks, if it has any and the embedder makes them. -/
def chunkVectors (text : String) : Option (List ChunkVector) :=
  let chunks := chunkText text
  if chunks = [] then none
  else (e.embed (chunks.map Chunk.text)).map fun vectors => List.zipWith (chunkVector quantize) chunks vectors

/-- The loop's body: one target is embedded, with the clock at `now`. -/
def embedTarget (now : ℕ → ℤ) (s : SemanticIndex × ℕ) (b : BacklogItem) : SemanticIndex × ℕ :=
  match chunkVectors e quantize b.text with
  | none => s
  | some rows =>
    match s.1.storeEmbeddings b.targetKind b.targetId e.modelId b.sourceHash (now s.2) rows with
    | some t => (s.1.withEmbeddings t, s.2 + 1)
    | none => s

/-- The targets of a tick: what is asked of the lake, and for the rest of the budget
what peers wrote. -/
def tickTargets (l : SemanticIndex) (maxTargets : UInt64) : List BacklogItem :=
  let backlog := l.embeddingBacklog e.modelId (asI64 maxTargets.toNat)
  let left := asI64 (maxTargets.toNat - backlog.length)
  if 0 < left then backlog ++ l.foreignEmbeddingBacklog e.modelId left else backlog

/-- `index_tick`: the lake after it, and how many targets were done. -/
def indexTick (now : ℕ → ℤ) (maxTargets : UInt64) (l : SemanticIndex) : SemanticIndex × ℕ :=
  (l.tickTargets e maxTargets).foldl (embedTarget e quantize now) (l, 0)

/-- The lake after a tick. -/
def tick (now : ℕ → ℤ) (maxTargets : UInt64) (l : SemanticIndex) : SemanticIndex :=
  (indexTick e quantize now maxTargets l).1

/-- One tick after the other, nothing else being written. -/
def ticks (now : ℕ → ℕ → ℤ) (maxTargets : UInt64) (l : SemanticIndex) : ℕ → SemanticIndex
  | 0 => l
  | n + 1 => tick e quantize (now n) maxTargets (ticks now maxTargets l n)

/-! ### What is asked of a tick -/

/-- All of the backlog, in its order: prompts, pages, classes. -/
def inOrder (l : SemanticIndex) (model : String) : List BacklogItem :=
  l.promptBacklog model ++ l.pageBacklog model ++ l.nodeBacklog model

/-- The embedder fails on the text. -/
def Fails (text : String) : Prop := e.embed ((chunkText text).map Chunk.text) = none

/-- Some target whose text the embedder does not fail on gets its vectors, if one is
pending. -/
def Progress (now : ℕ → ℤ) (maxTargets : UInt64) (l : SemanticIndex) : Prop :=
  (∃ b ∈ l.inOrder e.modelId, ¬ Fails e b.text) →
    ∃ b ∈ l.inOrder e.modelId, ¬ Fails e b.text ∧
      (tick e quantize now maxTargets l).hasVector e.modelId b.targetKind b.targetId b.sourceHash =
        true

/-- Only targets on whose texts the embedder fails are pending. -/
def Settled (l : SemanticIndex) : Prop := ∀ b ∈ l.inOrder e.modelId, Fails e b.text

/-- The targets that stand first: so many, or, from `2 ^ 63` on, where the limit turns
negative, the prompts. -/
def first (maxTargets : UInt64) (l : SemanticIndex) : List BacklogItem :=
  if maxTargets.toNat < 2 ^ 63 then (l.inOrder e.modelId).take maxTargets.toNat
  else l.promptBacklog e.modelId

/-- Where a target is pending that the embedder does not fail on, one of these with a
chunk at all is among the first. -/
def Clear (maxTargets : UInt64) (l : SemanticIndex) : Prop :=
  (∃ b ∈ l.inOrder e.modelId, ¬ Fails e b.text) →
    ∃ b ∈ l.first e maxTargets, ¬ Fails e b.text ∧ chunkText b.text ≠ []

/-! ### One target -/

section

variable (l : SemanticIndex) (kind : String) (id : ℤ) (model hash : String) (now : ℤ)

/-- The row of a chunk. -/
def rowOf (c : ChunkVector) : EmbeddingRow :=
  ⟨kind, id, c.ix, c.charStart, c.charLen, c.scale, c.vec, model, hash, now⟩

theorem insert_chunks (chunks : List ChunkVector) (hix : (chunks.map ChunkVector.ix).Nodup) :
    ∀ t : Table EmbeddingRow.chunk,
      (∀ r ∈ t.rows, ∀ c ∈ chunks, r.chunk ≠ (kind, id, c.ix, model)) →
      ∃ t', chunks.foldlM (fun t c => t.insert? (rowOf kind id model hash now c)) t = some t' ∧
        t'.rows = t.rows ++ chunks.map (rowOf kind id model hash now) := by
  induction chunks with
  | nil => exact fun t _ => ⟨t, rfl, by simp⟩
  | cons c chunks ih =>
    intro t hfree
    obtain ⟨hc, hix⟩ := List.nodup_cons.mp hix
    have hnone : t.get? (rowOf kind id model hash now c).chunk = none :=
      Table.get?_eq_none.mpr fun r hr => hfree r hr c (by simp)
    obtain ⟨t₁, hinsert, hrows⟩ := Table.insert?_of_free hnone
    obtain ⟨t', hrest, hrows'⟩ := ih hix t₁ (by
      intro r hr d hd
      rw [hrows, List.mem_append, List.mem_singleton] at hr
      rcases hr with hr | rfl
      · exact hfree r hr d (by simp [hd])
      · intro hsame
        have hixs : c.ix = d.ix := by simpa [rowOf] using hsame
        exact hc (hixs ▸ List.mem_map_of_mem hd))
    refine ⟨t', ?_, ?_⟩
    · rw [List.foldlM_cons, hinsert]
      exact hrest
    · rw [hrows', hrows]
      simp

/-- The vectors of one target are replaced: it has these, and every other target has
what it had. -/
theorem store_rows {chunks : List ChunkVector} (hix : (chunks.map ChunkVector.ix).Nodup) :
    ∃ t, l.storeEmbeddings kind id model hash now chunks = some t ∧
      t.rows = (l.base.embeddings.rows.filter fun r =>
        !(r.targetKind = kind && r.targetId = id && r.model = model)) ++
          chunks.map (rowOf kind id model hash now) := by
  obtain ⟨t, ht, hrows⟩ := insert_chunks kind id model hash now chunks hix
    (l.base.embeddings.delete fun r => r.targetKind = kind && r.targetId = id && r.model = model) (by
      intro r hr c _ hsame
      obtain ⟨-, hkeep⟩ := Table.mem_delete.mp hr
      simp only [EmbeddingRow.chunk, Prod.mk.injEq] at hsame
      simp [hsame.1, hsame.2.1, hsame.2.2.2] at hkeep)
  exact ⟨t, ht, hrows⟩

/-- After the write the target has vectors over this text alone. -/
theorem hasVector_store {chunks : List ChunkVector} (hix : (chunks.map ChunkVector.ix).Nodup)
    (hne : chunks ≠ []) : ∃ t, l.storeEmbeddings kind id model hash now chunks = some t ∧
      ∀ kind' id' hash', (l.withEmbeddings t).hasVector model kind' id' hash' = true ↔
        if kind' = kind ∧ id' = id then hash' = hash else l.hasVector model kind' id' hash' = true := by
  obtain ⟨t, ht, hrows⟩ := store_rows l kind id model hash now hix
  refine ⟨t, ht, fun kind' id' hash' => ?_⟩
  rw [hasVector_iff, hasVector_iff]
  show (∃ r ∈ t.rows, _) ↔ _
  rw [hrows]
  split_ifs with hsame
  · obtain ⟨rfl, rfl⟩ := hsame
    constructor
    · rintro ⟨r, hr, hkind, hid, hmodel, rfl⟩
      rcases List.mem_append.mp hr with hr | hr
      · have := (List.mem_filter.mp hr).2
        simp [hkind, hid, hmodel] at this
      · obtain ⟨c, -, rfl⟩ := List.mem_map.mp hr
        rfl
    · rintro rfl
      obtain ⟨c, hc⟩ := List.exists_mem_of_ne_nil _ hne
      exact ⟨_, List.mem_append_right _ (List.mem_map_of_mem hc), rfl, rfl, rfl, rfl⟩
  · constructor
    · rintro ⟨r, hr, hkind, hid, hmodel, rfl⟩
      rcases List.mem_append.mp hr with hr | hr
      · exact ⟨r, (List.mem_filter.mp hr).1, hkind, hid, hmodel, rfl⟩
      · obtain ⟨c, -, rfl⟩ := List.mem_map.mp hr
        exact absurd ⟨hkind.symm, hid.symm⟩ hsame
    · rintro ⟨r, hr, hkind, hid, hmodel, rfl⟩
      refine ⟨r, List.mem_append_left _ (List.mem_filter.mpr ⟨hr, ?_⟩), hkind, hid, hmodel, rfl⟩
      by_contra hgone
      have hgone : r.targetKind = kind ∧ r.targetId = id := by
        simp only [Bool.not_eq_true', Bool.not_eq_false, Bool.and_eq_true, decide_eq_true_eq] at hgone
        exact hgone.1
      exact hsame ⟨hkind.symm.trans hgone.1, hid.symm.trans hgone.2⟩

end

/-- The target can be embedded. -/
def Good (b : BacklogItem) : Prop := ¬ Fails e b.text ∧ chunkText b.text ≠ []

theorem nodup_ix (text : String) (vectors : List V)
    (hlen : vectors.length = (chunkText text).length) :
    ((List.zipWith (chunkVector quantize) (chunkText text) vectors).map ChunkVector.ix).Nodup := by
  have hmap : (List.zipWith (chunkVector quantize) (chunkText text) vectors).map ChunkVector.ix =
      List.map (fun k : ℕ => (k : ℤ)) (List.range (chunkText text).length) := by
    apply List.ext_getElem?
    intro k
    rw [List.getElem?_map, List.getElem?_zipWith, List.getElem?_map]
    by_cases hk : k < (chunkText text).length
    · have hv : k < vectors.length := by omega
      have hnumber := (chunkText_lawful text).numbered k _ (List.getElem?_eq_getElem hk)
      simp [List.getElem?_eq_getElem hv, hk, chunkVector, hnumber]
    · simp [hk]
  rw [hmap]
  exact List.nodup_range.map (fun _ _ h => by simpa using h)

/-- The loop's body at a target that can be embedded. -/
theorem embedTarget_good (now : ℕ → ℤ) (s : SemanticIndex × ℕ) {b : BacklogItem} (hb : Good e b) :
    ∃ t, embedTarget e quantize now s b = (s.1.withEmbeddings t, s.2 + 1) ∧
      ∀ kind id hash, (s.1.withEmbeddings t).hasVector e.modelId kind id hash = true ↔
        if kind = b.targetKind ∧ id = b.targetId then hash = b.sourceHash
        else s.1.hasVector e.modelId kind id hash = true := by
  obtain ⟨hfails, hchunks⟩ := hb
  obtain ⟨vectors, hvectors⟩ := Option.ne_none_iff_exists'.mp hfails
  have hlen : vectors.length = (chunkText b.text).length := by
    rw [e.length_embed _ _ hvectors, List.length_map]
  have hne : List.zipWith (chunkVector quantize) (chunkText b.text) vectors ≠ [] := by
    intro hnil
    have := congrArg List.length hnil
    rw [List.length_zipWith, hlen, Nat.min_self] at this
    exact hchunks (List.eq_nil_of_length_eq_zero this)
  obtain ⟨t, ht, hvec⟩ := hasVector_store s.1 b.targetKind b.targetId e.modelId b.sourceHash (now s.2)
    (nodup_ix quantize b.text vectors hlen) hne
  refine ⟨t, ?_, hvec⟩
  unfold embedTarget chunkVectors
  simp only [if_neg hchunks, hvectors, Option.map_some, ht]

/-- At any other it does nothing. -/
theorem embedTarget_other {now : ℕ → ℤ} {s : SemanticIndex × ℕ} {b : BacklogItem} (hb : ¬ Good e b) :
    embedTarget e quantize now s b = s := by
  have hnone : chunkVectors e quantize b.text = none := by
    unfold chunkVectors
    by_cases hchunks : chunkText b.text = []
    · simp only [if_pos hchunks]
    · have hfails : Fails e b.text := by
        by_contra hfails
        exact hb ⟨hfails, hchunks⟩
      simp only [if_neg hchunks, Option.map_eq_none_iff]
      exact hfails
  unfold embedTarget
  rw [hnone]

/-! ### A tick -/

section

variable {now : ℕ → ℤ} {bs : List BacklogItem} {s : SemanticIndex × ℕ} {kind : String} {id : ℤ}
  {hash : String}

/-- Only vectors are written. -/
theorem foldl_eq (now : ℕ → ℤ) : ∀ (bs : List BacklogItem) (s : SemanticIndex × ℕ),
    ∃ t, (bs.foldl (embedTarget e quantize now) s).1 = s.1.withEmbeddings t
  | [], s => ⟨s.1.base.embeddings, rfl⟩
  | b :: bs, s => by
    rw [List.foldl_cons]
    by_cases hb : Good e b
    · obtain ⟨t, hstep, -⟩ := embedTarget_good e quantize now s hb
      rw [hstep]
      obtain ⟨t', ht'⟩ := foldl_eq now bs (s.1.withEmbeddings t, s.2 + 1)
      exact ⟨t', ht'⟩
    · rw [embedTarget_other e quantize hb]
      exact foldl_eq now bs s

/-- A vector that is there after some targets was there before, or is one of theirs. -/
theorem hasVector_of_foldl (bs : List BacklogItem) (s : SemanticIndex × ℕ)
    (h : (bs.foldl (embedTarget e quantize now) s).1.hasVector e.modelId kind id hash = true) :
    s.1.hasVector e.modelId kind id hash = true ∨
      ∃ b ∈ bs, Good e b ∧ kind = b.targetKind ∧ id = b.targetId ∧ hash = b.sourceHash := by
  induction bs generalizing s with
  | nil => exact .inl h
  | cons b bs ih =>
    rw [List.foldl_cons] at h
    rcases ih _ h with hbefore | ⟨c, hc, hgood, hc'⟩
    · by_cases hb : Good e b
      · obtain ⟨t, hstep, hvec⟩ := embedTarget_good e quantize now s hb
        rw [hstep, hvec] at hbefore
        split_ifs at hbefore with hsame
        · exact .inr ⟨b, by simp, hb, hsame.1, hsame.2, hbefore⟩
        · exact .inl hbefore
      · rw [embedTarget_other e quantize hb] at hbefore
        exact .inl hbefore
    · exact .inr ⟨c, by simp [hc], hgood, hc'⟩

/-- A vector stays if no target of the same name has another text. -/
theorem hasVector_foldl (bs : List BacklogItem) (s : SemanticIndex × ℕ)
    (h : s.1.hasVector e.modelId kind id hash = true)
    (hsame : ∀ b ∈ bs, kind = b.targetKind → id = b.targetId → hash = b.sourceHash) :
    (bs.foldl (embedTarget e quantize now) s).1.hasVector e.modelId kind id hash = true := by
  induction bs generalizing s with
  | nil => exact h
  | cons b bs ih =>
    rw [List.foldl_cons]
    apply ih _ _ fun c hc => hsame c (by simp [hc])
    by_cases hb : Good e b
    · obtain ⟨t, hstep, hvec⟩ := embedTarget_good e quantize now s hb
      rw [hstep, hvec]
      split_ifs with hname
      · exact hsame b (by simp) hname.1 hname.2
      · exact h
    · rw [embedTarget_other e quantize hb]
      exact h

/-- A target that can be embedded has its vectors after the tick. -/
theorem hasVector_of_mem {b : BacklogItem} (hmem : b ∈ bs) (hb : Good e b)
    (hsame : ∀ c ∈ bs, b.targetKind = c.targetKind → b.targetId = c.targetId →
      b.sourceHash = c.sourceHash) (s : SemanticIndex × ℕ) :
    (bs.foldl (embedTarget e quantize now) s).1.hasVector e.modelId b.targetKind b.targetId b.sourceHash =
      true := by
  obtain ⟨before, after, rfl⟩ := List.append_of_mem hmem
  rw [List.foldl_append, List.foldl_cons]
  apply hasVector_foldl e quantize after _ _ fun c hc => hsame c (by simp [hc])
  obtain ⟨t, hstep, hvec⟩ := embedTarget_good e quantize now
    (before.foldl (embedTarget e quantize now) s) hb
  rw [hstep, hvec, if_pos ⟨rfl, rfl⟩]

end

/-! ### The backlog -/

/-- What the lake has to be embedded, with vectors or without. -/
def targets (l : SemanticIndex) : List BacklogItem :=
  (l.base.prompts.rows.map fun p => ⟨"prompt", p.id, p.ftsText, p.bodyHash⟩) ++
    (l.browseEvents.rows.map fun be => ⟨"browse_event", be.id, be.text, be.contextHash⟩) ++
    l.base.nodes.rows.map fun n => ⟨"class_node", l.rowid n.id, n.chunkText, n.sourceHash⟩

theorem mem_targets {l : SemanticIndex} {b : BacklogItem} : b ∈ l.targets ↔
    (∃ p ∈ l.base.prompts.rows, b = ⟨"prompt", p.id, p.ftsText, p.bodyHash⟩) ∨
    (∃ be ∈ l.browseEvents.rows, b = ⟨"browse_event", be.id, be.text, be.contextHash⟩) ∨
    ∃ n ∈ l.base.nodes.rows, b = ⟨"class_node", l.rowid n.id, n.chunkText, n.sourceHash⟩ := by
  simp only [targets, List.mem_append, List.mem_map, eq_comm, or_assoc]

theorem kind_of_mem_targets {l : SemanticIndex} {b : BacklogItem} (h : b ∈ l.targets) :
    b.targetKind ≠ "foreign_prompt" := by
  rcases mem_targets.mp h with ⟨p, -, rfl⟩ | ⟨be, -, rfl⟩ | ⟨n, -, rfl⟩
  · show "prompt" ≠ "foreign_prompt"
    decide
  · show "browse_event" ≠ "foreign_prompt"
    decide
  · show "class_node" ≠ "foreign_prompt"
    decide

/-- Targets of one name are one target. -/
theorem targets_unique {l : SemanticIndex} {b c : BacklogItem} (hb : b ∈ l.targets) (hc : c ∈ l.targets)
    (hkind : b.targetKind = c.targetKind) (hid : b.targetId = c.targetId) : b = c := by
  rcases mem_targets.mp hb with ⟨p, hp, rfl⟩ | ⟨p, hp, rfl⟩ | ⟨p, hp, rfl⟩ <;>
    rcases mem_targets.mp hc with ⟨q, hq, rfl⟩ | ⟨q, hq, rfl⟩ | ⟨q, hq, rfl⟩
  all_goals try simp at hkind
  · rw [List.inj_on_of_nodup_map l.base.prompts.nodup hp hq hid]
  · rw [List.inj_on_of_nodup_map l.browseEvents.nodup hp hq hid]
  · rw [l.rowids p hp q hq hid]

/-- What is pending is a target, and has no vectors. -/
theorem pending_target {l : SemanticIndex} {model : String} {b : BacklogItem} (h : b ∈ l.inOrder model) :
    b ∈ l.targets ∧ l.hasVector model b.targetKind b.targetId b.sourceHash = false := by
  unfold inOrder at h
  rcases List.mem_append.mp h with h | h
  · rcases List.mem_append.mp h with h | h
    · obtain ⟨p, hp, rfl⟩ := List.mem_map.mp h
      have hp := List.mem_filter.mp (List.mem_mergeSort.mp hp)
      simp only [Bool.and_eq_true, Bool.not_eq_true'] at hp
      exact ⟨mem_targets.mpr (.inl ⟨p, hp.1, rfl⟩), hp.2.2⟩
    · obtain ⟨be, hbe, rfl⟩ := List.mem_map.mp h
      have hbe := (List.mem_filter.mp (List.mem_mergeSort.mp hbe)).1
      have hbe := List.mem_filter.mp hbe
      simp only [Bool.and_eq_true, Bool.not_eq_true'] at hbe
      refine ⟨mem_targets.mpr (.inr (.inl ⟨be, hbe.1, rfl⟩)), ?_⟩
      rw [← Bool.not_eq_true, hasVector_iff]
      rintro ⟨r, hr, hkind, -, hmodel, hhash⟩
      have := contentHasVector_iff.mpr ⟨r, hr, hkind, hmodel, hhash⟩
      rw [hbe.2.2] at this
      cases this
  · obtain ⟨n, hn, rfl⟩ := List.mem_map.mp h
    have hn := List.mem_filter.mp (List.mem_mergeSort.mp hn)
    simp only [Bool.and_eq_true, Bool.not_eq_true'] at hn
    exact ⟨mem_targets.mpr (.inr (.inr ⟨n, hn.1, rfl⟩)), hn.2.2⟩

theorem sqlLimit_of_nonneg {α : Type} {limit : ℤ} (h : 0 ≤ limit) (rows : List α) :
    sqlLimit limit rows = rows.take limit.toNat := by
  unfold sqlLimit
  rw [if_neg (by omega)]

/-- Three queries, each limited to what the ones before it leave. -/
theorem embeddingBacklog_take (l : SemanticIndex) (model : String) (m : ℕ) :
    l.embeddingBacklog model m = (l.inOrder model).take m := by
  unfold embeddingBacklog inOrder
  rw [sqlLimit_of_nonneg (Int.natCast_nonneg m), Int.toNat_natCast]
  generalize l.promptBacklog model = P
  generalize l.pageBacklog model = B
  generalize l.nodeBacklog model = N
  by_cases hP : m ≤ P.length
  · have hfull : (m : ℤ) ≤ ((P.take m).length : ℤ) := by
      rw [List.length_take]
      omega
    rw [List.append_assoc, List.take_append_of_le_length hP]
    exact if_pos hfull
  · have hP : P.length < m := by omega
    have htake : P.take m = P := List.take_of_length_le hP.le
    have hmore : ¬ (m : ℤ) ≤ (P.length : ℤ) := by omega
    have hleft : (m : ℤ) - P.length = ((m - P.length : ℕ) : ℤ) := by omega
    simp only [htake, hmore, if_false, hleft, sqlLimit_of_nonneg (Int.natCast_nonneg _), Int.toNat_natCast]
    have hrest : (P ++ B ++ N).take m = P ++ (B ++ N).take (m - P.length) := by
      rw [List.append_assoc, List.take_append, htake]
    rw [hrest]
    by_cases hB : m - P.length ≤ B.length
    · have hfull : (m : ℤ) ≤ ((P ++ B.take (m - P.length)).length : ℤ) := by
        simp only [List.length_append, List.length_take]
        omega
      rw [if_pos hfull, List.take_append_of_le_length hB]
    · have hB : B.length < m - P.length := by omega
      have htakeB : B.take (m - P.length) = B := List.take_of_length_le hB.le
      have hmoreB : ¬ (m : ℤ) ≤ ((P ++ B).length : ℤ) := by
        simp only [List.length_append]
        omega
      have hleftB : (m : ℤ) - ((P ++ B).length : ℤ) = ((m - P.length - B.length : ℕ) : ℤ) := by
        simp only [List.length_append]
        omega
      rw [htakeB, if_neg hmoreB, hleftB, sqlLimit_of_nonneg (Int.natCast_nonneg _), Int.toNat_natCast,
        List.take_append, htakeB, List.append_assoc]

/-- What the query returns to a tick: the first of the backlog. -/
theorem embeddingBacklog_eq (l : SemanticIndex) (maxTargets : UInt64) :
    l.embeddingBacklog e.modelId (asI64 maxTargets.toNat) = l.first e maxTargets := by
  have hsize := maxTargets.toNat_lt
  unfold first asI64
  split_ifs with hlimit
  · exact embeddingBacklog_take l e.modelId _
  · have hcast : (maxTargets.toNat : ℤ) - 2 ^ 64 < 0 := by omega
    unfold embeddingBacklog sqlLimit
    rw [if_pos hcast]
    exact if_pos (by omega)

/-- A tick takes the first of the backlog, and then what peers wrote. -/
theorem tickTargets_eq (l : SemanticIndex) (maxTargets : UInt64) : ∃ others,
    l.tickTargets e maxTargets = l.first e maxTargets ++ others ∧
      ∀ b ∈ others, b.targetKind = "foreign_prompt" := by
  unfold tickTargets
  simp only [embeddingBacklog_eq]
  split_ifs with hleft
  · refine ⟨_, rfl, fun b hb => ?_⟩
    unfold foreignEmbeddingBacklog sqlLimit at hb
    have hb : b ∈ (((l.foreign.prompts.select fun p =>
        !p.tombstoned && p.text.any (fun text => 0 < sqlLength text) &&
          !l.hasVector e.modelId "foreign_prompt" p.id p.bodyHash).mergeSort fun p q => p.id ≤ q.id).map
            fun p => (⟨"foreign_prompt", p.id, p.text.getD "", p.bodyHash⟩ : BacklogItem)) := by
      split_ifs at hb
      · exact hb
      · exact List.mem_of_mem_take hb
    obtain ⟨p, -, rfl⟩ := List.mem_map.mp hb
    rfl
  · exact ⟨[], by simp, by simp⟩

theorem first_subset {l : SemanticIndex} {maxTargets : UInt64} {b : BacklogItem}
    (h : b ∈ l.first e maxTargets) : b ∈ l.inOrder e.modelId := by
  unfold first at h
  split_ifs at h
  · exact List.mem_of_mem_take h
  · exact List.mem_append_left _ (List.mem_append_left _ h)

/-! ### Progress -/

section

variable {now : ℕ → ℤ} {maxTargets : UInt64} {l : SemanticIndex}

/-- What is among the first and can be embedded has its vectors after the tick. -/
theorem tick_stores {b : BacklogItem} (hb : b ∈ l.first e maxTargets) (hgood : Good e b) :
    (tick e quantize now maxTargets l).hasVector e.modelId b.targetKind b.targetId b.sourceHash =
      true := by
  obtain ⟨others, htargets, hforeign⟩ := tickTargets_eq e l maxTargets
  unfold tick indexTick
  rw [htargets]
  apply hasVector_of_mem e quantize (List.mem_append_left _ hb) hgood
  intro c hc hkind hid
  have hbt := (pending_target (first_subset e hb)).1
  rcases List.mem_append.mp hc with hc | hc
  · rw [targets_unique hbt (pending_target (first_subset e hc)).1 hkind hid]
  · exact absurd (hkind.trans (hforeign c hc)) (kind_of_mem_targets hbt)

/-- What has its vectors after the tick and had not is among the first. -/
theorem stored_first {kind : String} {id : ℤ} {hash : String} (hkind : kind ≠ "foreign_prompt")
    (hbefore : l.hasVector e.modelId kind id hash = false)
    (hafter : (tick e quantize now maxTargets l).hasVector e.modelId kind id hash = true) :
    ∃ b ∈ l.first e maxTargets, Good e b ∧ kind = b.targetKind ∧ id = b.targetId ∧ hash = b.sourceHash := by
  obtain ⟨others, htargets, hforeign⟩ := tickTargets_eq e l maxTargets
  unfold tick indexTick at hafter
  rw [htargets] at hafter
  rcases hasVector_of_foldl e quantize _ _ hafter with h | ⟨b, hb, hgood, hsame⟩
  · rw [h] at hbefore
    cases hbefore
  · rcases List.mem_append.mp hb with hb | hb
    · exact ⟨b, hb, hgood, hsame⟩
    · exact absurd (hsame.1.trans (hforeign b hb)) hkind

/-- A tick makes progress exactly if the first targets are not all such as the embedder
cannot do. -/
theorem progress_iff (now : ℕ → ℤ) (maxTargets : UInt64) (l : SemanticIndex) :
    Progress e quantize now maxTargets l ↔ Clear e maxTargets l := by
  constructor
  · intro hprogress hpending
    obtain ⟨b, hb, -, hstored⟩ := hprogress hpending
    obtain ⟨htarget, hnone⟩ := pending_target hb
    obtain ⟨c, hc, hgood, -⟩ :=
      stored_first e quantize (kind_of_mem_targets htarget) hnone hstored
    exact ⟨c, hc, hgood⟩
  · intro hclear hpending
    obtain ⟨b, hb, hgood⟩ := hclear hpending
    exact ⟨b, first_subset e hb, hgood.1, tick_stores e quantize hb hgood⟩

/-! ### Repeated ticks -/

theorem tick_eq (now : ℕ → ℤ) (maxTargets : UInt64) (l : SemanticIndex) :
    ∃ t, (tick e quantize now maxTargets l) = l.withEmbeddings t :=
  foldl_eq e quantize now _ (l, 0)

/-- A target keeps the vectors it has. -/
theorem tick_keeps {b : BacklogItem} (hb : b ∈ l.targets)
    (h : l.hasVector e.modelId b.targetKind b.targetId b.sourceHash = true) :
    (tick e quantize now maxTargets l).hasVector e.modelId b.targetKind b.targetId b.sourceHash =
      true := by
  obtain ⟨others, htargets, hforeign⟩ := tickTargets_eq e l maxTargets
  unfold tick indexTick
  rw [htargets]
  apply hasVector_foldl e quantize _ _ h
  intro c hc hkind hid
  rcases List.mem_append.mp hc with hc | hc
  · rw [targets_unique hb (pending_target (first_subset e hc)).1 hkind hid]
  · exact absurd (hkind.trans (hforeign c hc)) (kind_of_mem_targets hb)

/-- How many targets have no vectors of their own. -/
def without (l : SemanticIndex) : ℕ :=
  l.targets.countP fun b => !l.hasVector e.modelId b.targetKind b.targetId b.sourceHash

theorem countP_lt {α : Type} {p q : α → Bool} : ∀ {xs : List α}, (∀ x ∈ xs, p x = true → q x = true) →
    (∃ x ∈ xs, q x = true ∧ p x = false) → xs.countP p < xs.countP q
  | [], _, ⟨x, hx, _⟩ => by simp at hx
  | y :: xs, hpq, ⟨x, hx, hqx, hpx⟩ => by
    have hmono : xs.countP p ≤ xs.countP q := List.countP_mono_left fun z hz => hpq z (by simp [hz])
    rw [List.countP_cons, List.countP_cons]
    rcases List.mem_cons.mp hx with rfl | hx
    · rw [hqx, hpx]
      simp only [Bool.false_eq_true, if_false, if_true]
      omega
    · have hlt := countP_lt (fun z hz => hpq z (by simp [hz])) ⟨x, hx, hqx, hpx⟩
      have hy : (if p y = true then 1 else 0) ≤ if q y = true then 1 else 0 := by
        by_cases hp : p y = true
        · rw [if_pos hp, if_pos (hpq y List.mem_cons_self hp)]
        · rw [if_neg hp]
          exact Nat.zero_le _
      omega

/-- A tick that makes progress leaves fewer without. -/
theorem without_tick (now : ℕ → ℤ) (hclear : Clear e maxTargets l) (hsettled : ¬ Settled e l) :
    without e (tick e quantize now maxTargets l) < without e l := by
  have hpending : ∃ b ∈ l.inOrder e.modelId, ¬ Fails e b.text := by
    unfold Settled at hsettled
    simpa using hsettled
  obtain ⟨b, hb, hgood⟩ := hclear hpending
  obtain ⟨htarget, hnone⟩ := pending_target (first_subset e hb)
  obtain ⟨t, ht⟩ := tick_eq e quantize now maxTargets l
  have htargets : (tick e quantize now maxTargets l).targets = l.targets := by
    rw [ht]
    rfl
  unfold without
  rw [htargets]
  apply countP_lt
  · intro c hc hmissing
    by_contra hhas
    have hhas : l.hasVector e.modelId c.targetKind c.targetId c.sourceHash = true := by simpa using hhas
    rw [tick_keeps e quantize hc hhas] at hmissing
    cases hmissing
  · refine ⟨b, htarget, by simp [hnone], ?_⟩
    simp [tick_stores e quantize hb hgood]

theorem contentHasVector_eq (l : EmbeddedLake) (model hash : String) :
    l.contentHasVector model hash = true ↔ ∃ id, l.hasVector model "browse_event" id hash = true := by
  rw [contentHasVector_iff]
  constructor
  · rintro ⟨r, hr, hkind, hmodel, hhash⟩
    exact ⟨r.targetId, hasVector_iff.mpr ⟨r, hr, hkind, rfl, hmodel, hhash⟩⟩
  · rintro ⟨id, h⟩
    obtain ⟨r, hr, hkind, -, hmodel, hhash⟩ := hasVector_iff.mp h
    exact ⟨r, hr, hkind, hmodel, hhash⟩

/-- The backlog depends on which targets of the lake have vectors, and on nothing else
that a tick writes. -/
theorem inOrder_congr {t : Table EmbeddingRow.chunk} {model : String}
    (h : ∀ kind id hash, kind ≠ "foreign_prompt" →
      ((l.withEmbeddings t).hasVector model kind id hash = true ↔ l.hasVector model kind id hash = true)) :
    (l.withEmbeddings t).promptBacklog model = l.promptBacklog model ∧
      (l.withEmbeddings t).inOrder model = l.inOrder model := by
  have hvec (kind : String) (id : ℤ) (hash : String) (hkind : kind ≠ "foreign_prompt") :
      (l.withEmbeddings t).hasVector model kind id hash = l.hasVector model kind id hash :=
    Bool.eq_iff_iff.mpr (h kind id hash hkind)
  have hcontent (hash : String) :
      (l.withEmbeddings t).contentHasVector model hash = l.contentHasVector model hash := by
    rw [Bool.eq_iff_iff, contentHasVector_eq, contentHasVector_eq]
    exact exists_congr fun id => h "browse_event" id hash (by decide)
  have hprompts : (l.withEmbeddings t).promptBacklog model = l.promptBacklog model := by
    unfold promptBacklog
    simp only [hvec "prompt" _ _ (by decide)]
    rfl
  have hpages : (l.withEmbeddings t).pageBacklog model = l.pageBacklog model := by
    unfold pageBacklog uncoveredPages
    simp only [hcontent]
    rfl
  have hnodes : (l.withEmbeddings t).nodeBacklog model = l.nodeBacklog model := by
    unfold nodeBacklog
    simp only [hvec "class_node" _ _ (by decide)]
    rfl
  refine ⟨hprompts, ?_⟩
  unfold inOrder
  rw [hprompts, hpages, hnodes]

/-- A tick that finds nothing to embed leaves the backlog as it is. -/
theorem tick_stuck (now : ℕ → ℤ) (h : ∀ b ∈ l.first e maxTargets, ¬ Good e b) :
    (tick e quantize now maxTargets l).inOrder e.modelId = l.inOrder e.modelId ∧
      (tick e quantize now maxTargets l).first e maxTargets = l.first e maxTargets := by
  obtain ⟨others, htargets, hforeign⟩ := tickTargets_eq e l maxTargets
  obtain ⟨t, ht⟩ := tick_eq e quantize now maxTargets l
  suffices hsame : ∀ kind id hash, kind ≠ "foreign_prompt" →
      ((l.withEmbeddings t).hasVector e.modelId kind id hash = true ↔
        l.hasVector e.modelId kind id hash = true) by
    obtain ⟨hprompts, hall⟩ := inOrder_congr hsame
    rw [ht]
    unfold first
    rw [hprompts, hall]
    exact ⟨rfl, rfl⟩
  intro kind id hash hkind
  rw [← ht]
  constructor
  · intro hafter
    by_contra hbefore
    obtain ⟨b, hb, hgood, -⟩ := stored_first e quantize hkind (Bool.not_eq_true _ ▸ hbefore) hafter
    exact h b hb hgood
  · intro hbefore
    unfold tick indexTick
    rw [htargets, List.foldl_append]
    have hnothing : (l.first e maxTargets).foldl (embedTarget e quantize now) (l, 0) = (l, 0) := by
      generalize l.first e maxTargets = bs at h
      induction bs with
      | nil => rfl
      | cons b bs ih =>
        rw [List.foldl_cons, embedTarget_other e quantize (h b (by simp))]
        exact ih fun c hc => h c (by simp [hc])
    rw [hnothing]
    apply hasVector_foldl e quantize _ _ hbefore
    intro b hb hsame
    exact absurd (hsame.trans (hforeign b hb)) hkind

theorem settled_tick (now : ℕ → ℤ) (maxTargets : UInt64) (h : Settled e l) :
    Settled e (tick e quantize now maxTargets l) := by
  unfold Settled
  rw [(tick_stuck e quantize now fun b hb hgood => hgood.1 (h b (first_subset e hb))).1]
  exact h

theorem not_clear_tick (now : ℕ → ℤ) (h : ¬ Clear e maxTargets l) :
    ¬ Clear e maxTargets (tick e quantize now maxTargets l) := by
  have hnone : ∀ b ∈ l.first e maxTargets, ¬ Good e b :=
    fun b hb hgood => h fun _ => ⟨b, hb, hgood⟩
  obtain ⟨hall, hfirst⟩ := tick_stuck e quantize now hnone
  unfold Clear
  rw [hall, hfirst]
  exact h

theorem settled_clear (maxTargets : UInt64) (h : Settled e l) : Clear e maxTargets l := by
  rintro ⟨b, hb, hfails⟩
  exact absurd (h b hb) hfails

end

theorem settled_later (now : ℕ → ℕ → ℤ) (maxTargets : UInt64) (l : SemanticIndex) {n : ℕ}
    (h : Settled e (ticks e quantize now maxTargets l n)) {k : ℕ} (hk : n ≤ k) :
    Settled e (ticks e quantize now maxTargets l k) := by
  induction k, hk using Nat.le_induction with
  | base => exact h
  | succ k _ ih =>
    rw [ticks]
    exact settled_tick e quantize _ _ ih

theorem not_clear_later (now : ℕ → ℕ → ℤ) (maxTargets : UInt64) (l : SemanticIndex) {n : ℕ}
    (h : ¬ Clear e maxTargets (ticks e quantize now maxTargets l n)) {k : ℕ} (hk : n ≤ k) :
    ¬ Clear e maxTargets (ticks e quantize now maxTargets l k) := by
  induction k, hk using Nat.le_induction with
  | base => exact h
  | succ k _ ih =>
    rw [ticks]
    exact not_clear_tick e quantize _ ih

/-- Ticks come to an end exactly if each of them finds something to embed. -/
theorem settles_iff (now : ℕ → ℕ → ℤ) (maxTargets : UInt64) (l : SemanticIndex) :
    (∃ n, Settled e (ticks e quantize now maxTargets l n)) ↔
      ∀ n, Clear e maxTargets (ticks e quantize now maxTargets l n) := by
  constructor
  · rintro ⟨n, hn⟩ k
    by_contra hblocked
    -- both from the later of the two on
    have hsettled := settled_later e quantize now maxTargets l hn (le_max_left n k)
    exact not_clear_later e quantize now maxTargets l hblocked (le_max_right n k)
      (settled_clear e maxTargets hsettled)
  · intro hclear
    by_contra hnever
    have hbound : ∀ n, without e (ticks e quantize now maxTargets l n) + n ≤ without e l := by
      intro n
      induction n with
      | zero => exact le_rfl
      | succ n ih =>
        have hless := without_tick e quantize (now n) (hclear n) fun h => hnever ⟨n, h⟩
        rw [ticks]
        omega
    have := hbound (without e l + 1)
    omega

/-- **Progress of the index.** One tick, and tick after tick. -/
theorem index_progress_iff (now : ℕ → ℕ → ℤ) (maxTargets : UInt64) (l : SemanticIndex) :
    (Progress e quantize (now 0) maxTargets l ↔ Clear e maxTargets l) ∧
    ((∀ n, Progress e quantize (now n) maxTargets (ticks e quantize now maxTargets l n)) ∧
        (∃ n, Settled e (ticks e quantize now maxTargets l n)) ↔
      ∀ n, Clear e maxTargets (ticks e quantize now maxTargets l n)) := by
  refine ⟨progress_iff e quantize _ _ _, ?_⟩
  constructor
  · rintro ⟨-, hsettled⟩
    exact (settles_iff e quantize now maxTargets l).mp hsettled
  · intro hclear
    exact ⟨fun n => (progress_iff e quantize _ _ _).mpr (hclear n),
      (settles_iff e quantize now maxTargets l).mpr hclear⟩

end SemanticIndex

/-! ### An order that no failure changes -/

/-- An embedder that fails on one text. -/
def fussy : Embedder Unit where
  modelId := "m"
  embed texts := if "bad" ∈ texts then none else some (texts.map fun _ => ())
  length_embed texts vectors h := by
    split_ifs at h
    obtain rfl := Option.some.inj h
    simp

/-- Two prompts, the first of which it fails on. -/
def askedTwice : SemanticIndex where
  toEmbeddedLake := lakeOver
    { Store.empty with prompts := ⟨[askedPrompt 1 "bad", askedPrompt 2 "good"], by decide⟩ } (by decide)
  foreign := ForeignStore.empty
  rowids := by decide

theorem askedTwice_prompts : askedTwice.promptBacklog "m" =
    [⟨"prompt", 1, "bad", "bad"⟩, ⟨"prompt", 2, "good", "good"⟩] := by
  have hsorted : [askedPrompt 1 "bad", askedPrompt 2 "good"].mergeSort (fun p q => p.id ≤ q.id) =
      [askedPrompt 1 "bad", askedPrompt 2 "good"] :=
    List.mergeSort_of_pairwise (by decide)
  have hrows : (askedTwice.base.prompts.select fun p =>
      p.ownWords && !askedTwice.forgottenPrompt p && 0 < sqlLength p.ftsText &&
        !askedTwice.hasVector "m" "prompt" p.id p.bodyHash) =
      [askedPrompt 1 "bad", askedPrompt 2 "good"] := by decide
  unfold EmbeddedLake.promptBacklog
  rw [hrows, hsorted]
  rfl

/-- With one target for each tick, the second prompt is never embedded. -/
theorem askedTwice_stuck : ¬ ∀ (e : Embedder Unit) (quantize : Unit → UInt32 × List UInt8)
    (now : ℕ → ℕ → ℤ) (maxTargets : UInt64) (l : SemanticIndex), 1 ≤ maxTargets.toNat →
    SemanticIndex.Progress e quantize (now 0) maxTargets l ∧
      ∃ n, SemanticIndex.Settled e (SemanticIndex.ticks e quantize now maxTargets l n) := by
  intro h
  obtain ⟨hprogress, -⟩ := h fussy (fun _ => (0, [7])) (fun _ _ => 0) 1 askedTwice (by decide)
  have hclear := (SemanticIndex.progress_iff fussy _ _ 1 askedTwice).mp hprogress
  have hfails : SemanticIndex.Fails fussy "bad" := by
    unfold SemanticIndex.Fails
    decide
  have hgood : ¬ SemanticIndex.Fails fussy "good" := by
    unfold SemanticIndex.Fails
    decide
  obtain ⟨b, hb, hnot, -⟩ := hclear ⟨⟨"prompt", 2, "good", "good"⟩, by
    unfold SemanticIndex.inOrder
    show _ ∈ askedTwice.promptBacklog "m" ++ _ ++ _
    rw [askedTwice_prompts]
    simp, hgood⟩
  have hfirst : b ∈ [(⟨"prompt", 1, "bad", "bad"⟩ : BacklogItem)] := by
    unfold SemanticIndex.first SemanticIndex.inOrder at hb
    rw [if_pos (by decide)] at hb
    have hb : b ∈ (askedTwice.promptBacklog "m" ++ askedTwice.pageBacklog "m" ++
      askedTwice.nodeBacklog "m").take 1 := hb
    rw [askedTwice_prompts] at hb
    exact hb
  obtain rfl := List.mem_singleton.mp hfirst
  exact hnot hfails

end PolisMemory
