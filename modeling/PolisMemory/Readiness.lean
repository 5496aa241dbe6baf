/-
# The readiness of the semantic index

`embedding_backlog` and `embedding_stats` of `crates/polis-store/src/embeddings.rs`
and `scoped_index_readiness` of `retrieval_support.rs`: what is still to be
embedded for a model, how much that is, and how much of a scope is. The three
do not ask the same. The backlog passes over forgotten prompts, the stats count
them; it passes over the prompts of agents, the readiness counts those with a
user's text; it takes one page for each content, the readiness wants a vector
for each page.

With an empty backlog nothing is pending and every scope is indexed exactly if
none of the three comes up (`ready_iff`).

Key definitions: `EmbeddedLake.embeddingBacklog`, `embeddingStats`,
`scopedIndexReadiness`, `EmbeddedLake.Step`, `Reached`, `Ready`, `Plain`.
Key theorems: `sourced_of_reached`, `covered_of_backlog`, `ready_iff`.
-/
import Mathlib.Data.List.MinMax
import PolisMemory.Lexical
import PolisMemory.Pages

namespace PolisMemory

open Tables

/-! ### The queries -/

/-- `LENGTH` of a text, which ends at a NUL. -/
def sqlLength (x : String) : ℕ := (x.toList.takeWhile fun c => c ≠ Char.ofNat 0).length

/-- `LIMIT`; a negative one is none. -/
def sqlLimit {α : Type} (limit : ℤ) (rows : List α) : List α :=
  if limit < 0 then rows else rows.take limit.toNat

/-- What is to be embedded: a target, its text and the hash of it. -/
structure BacklogItem where
  targetKind : String
  targetId : ℤ
  text : String
  sourceHash : String
  deriving DecidableEq, Repr

/-- `COALESCE(p.role, 'user') <> 'agent'`. -/
def PromptRow.ownWords (p : PromptRow) : Bool := p.role.getD "user" ≠ "agent"

/-- The text of a node, as it is embedded. -/
def NodeRow.chunkText (n : NodeRow) : String := n.title ++ (n.summary.map (" — " ++ ·)).getD ""

/-- The hash of a node's text is a text. -/
def NodeRow.sourceHash (n : NodeRow) : String := n.title ++ n.summary.getD ""

/-- The lake, and the rowids of the nodes. -/
structure EmbeddedLake extends Lake where
  rowid : String → ℤ

namespace EmbeddedLake

section

variable (l : EmbeddedLake) (model : String)

/-- The target has a vector of the model, over the text with this hash. -/
def hasVector (kind : String) (id : ℤ) (hash : String) : Bool :=
  l.base.embeddings.rows.any fun e =>
    e.targetKind = kind && e.targetId = id && e.model = model && e.sourceHash = hash

/-- Some page has one, over this content. -/
def contentHasVector (hash : String) : Bool :=
  l.base.embeddings.rows.any fun e =>
    e.targetKind = "browse_event" && e.model = model && e.sourceHash = hash

/-- The prompt is in `forgotten_sources`. -/
def forgottenPrompt (p : PromptRow) : Bool := (l.base.forgottenSources.get? p.id).isSome

/-- The prompts of the backlog. -/
def promptBacklog : List BacklogItem :=
  ((l.base.prompts.select fun p =>
      p.ownWords && !l.forgottenPrompt p && 0 < sqlLength p.ftsText &&
        !l.hasVector model "prompt" p.id p.bodyHash).mergeSort fun p q => p.id ≤ q.id).map
    fun p => ⟨"prompt", p.id, p.ftsText, p.bodyHash⟩

/-- The pages whose content has no vector. -/
def uncoveredPages : List PageRow :=
  l.browseEvents.select fun be => 0 < sqlLength be.text && !l.contentHasVector model be.contextHash

/-- The first page of each such content. -/
def pageBacklog : List BacklogItem :=
  (((l.uncoveredPages model).filter fun be =>
      !(l.uncoveredPages model).any fun b => b.contextHash = be.contextHash && b.id < be.id).mergeSort
        fun a b => a.id ≤ b.id).map
    fun be => ⟨"browse_event", be.id, be.text, be.contextHash⟩

/-- The nodes of the backlog. -/
def nodeBacklog : List BacklogItem :=
  ((l.base.nodes.select fun n =>
      n.live && !l.hasVector model "class_node" (l.rowid n.id) n.sourceHash).mergeSort
        fun m n => l.rowid m.id ≤ l.rowid n.id).map
    fun n => ⟨"class_node", l.rowid n.id, n.chunkText, n.sourceHash⟩

/-- `embedding_backlog` -/
def embeddingBacklog (limit : ℤ) : List BacklogItem :=
  let out := sqlLimit limit (l.promptBacklog model)
  if limit ≤ out.length then out
  else
    let out := out ++ sqlLimit (limit - out.length) (l.pageBacklog model)
    if limit ≤ out.length then out
    else out ++ sqlLimit (limit - out.length) (l.nodeBacklog model)

/-- `embedding_stats`: the chunks, and what is pending. -/
def embeddingStats : ℕ × ℕ :=
  ((l.base.embeddings.select fun e => e.model = model).length,
    (l.base.prompts.select fun p =>
      p.ownWords && 0 < sqlLength p.ftsText && !l.hasVector model "prompt" p.id p.bodyHash).length +
    ((l.uncoveredPages model).map fun be => be.contextHash).dedup.length)

/-- A prompt that a search can find. -/
def livePrompt (p : PromptRow) : Bool := 0 < sqlLength p.ftsText && !l.forgottenPrompt p

/-- `scoped_index_readiness`: the sources of a scope, and those with a vector. -/
def scopedIndexReadiness (f : ScopeFilter) : ℕ × ℕ :=
  let prompts := l.base.prompts.select fun p => l.livePrompt p && l.admitsPrompt f p
  let pages := l.browseEvents.select fun be => 0 < sqlLength be.text && l.admitsPage f be
  (prompts.length + pages.length,
    prompts.countP (fun p => l.hasVector model "prompt" p.id p.bodyHash) +
      pages.countP fun be => l.hasVector model "browse_event" be.id be.contextHash)

end

/-! ### The writes -/

/-- A chunk and its vector, packed. -/
structure ChunkVector where
  ix : ℤ
  charStart : ℤ
  charLen : ℤ
  scale : UInt32
  vec : List UInt8

/-- `store_embeddings`: what the table is then, if no chunk comes twice. -/
def storeEmbeddings (l : EmbeddedLake) (kind : String) (id : ℤ) (model hash : String) (now : ℤ)
    (chunks : List ChunkVector) : Option (Table EmbeddingRow.chunk) :=
  chunks.foldlM
    (fun t c => t.insert? ⟨kind, id, c.ix, c.charStart, c.charLen, c.scale, c.vec, model, hash, now⟩)
    (l.base.embeddings.delete fun e => e.targetKind = kind && e.targetId = id && e.model = model)

/-- A prompt or a page that is embedded is there, under its own hash, and no
agent's: the backlog and `item_text` name no other. -/
structure Sourced (l : EmbeddedLake) (kind : String) (id : ℤ) (hash : String) : Prop where
  prompt : kind = "prompt" → ∃ p, l.base.prompts.get? id = some p ∧ p.ownWords = true ∧ p.bodyHash = hash
  page : kind = "browse_event" → ∃ be, l.browseEvents.get? id = some be ∧ be.contextHash = hash

/-- What of the lake the prompts and the pages of the three queries come from. -/
def sources (l : EmbeddedLake) : Table PromptRow.id × Table ForgottenRow.promptId ×
    Table PageRow.key × Table EmbeddingRow.chunk :=
  (l.base.prompts, l.base.forgottenSources, l.browseEvents, l.base.embeddings)

/-- What the writes do to these tables; to the others they may do anything. -/
inductive Step (h : Host) (l : EmbeddedLake) : EmbeddedLake → Prop
  | capturePrompt {l' : EmbeddedLake} (p : PromptRow) (hnew : l.base.prompts.get? p.id = none)
      (hs : l'.sources = (l.base.prompts.insertOrIgnore p, l.base.forgottenSources,
        l.browseEvents, l.base.embeddings)) : Step h l l'
  | capturePage {l' : EmbeddedLake} (be : PageRow) (hnew : l.browseEvents.get? be.id = none)
      (hs : l'.sources = (l.base.prompts, l.base.forgottenSources,
        l.browseEvents.insertOrIgnore be, l.base.embeddings)) : Step h l l'
  | compact {l' : EmbeddedLake} {s : Store} {seq : Option ℤ} (now prompt : ℤ)
      (gist reason gistSource actor : String) (archived : Bool)
      (hc : l.base.compactPromptBody h now prompt gist reason gistSource actor archived = .ok (s, seq))
      (hs : l'.sources = (s.prompts, s.forgottenSources, l.browseEvents, s.embeddings)) : Step h l l'
  | restore {l' : EmbeddedLake} {s : Store} {back : Bool} (prompt : ℤ)
      (hr : l.base.restorePromptBody h prompt = .ok (s, back))
      (hs : l'.sources = (s.prompts, s.forgottenSources, l.browseEvents, s.embeddings)) : Step h l l'
  | forgetPage {l' : EmbeddedLake} (id : ℤ)
      (hs : l'.sources = (l.base.prompts, l.base.forgottenSources,
        l.browseEvents.update (fun be => be.id = id) fun be =>
          { be with url := "", title := none, text := "" },
        l.base.embeddings.delete fun e => e.targetKind = "browse_event" && e.targetId = id)) :
      Step h l l'
  | embed {l' : EmbeddedLake} {t : Table EmbeddingRow.chunk} (kind : String) (id : ℤ)
      (model hash : String) (now : ℤ) (chunks : List ChunkVector) (hsource : l.Sourced kind id hash)
      (ht : l.storeEmbeddings kind id model hash now chunks = some t)
      (hs : l'.sources = (l.base.prompts, l.base.forgottenSources, l.browseEvents, t)) : Step h l l'
  /-- Anything else: a node is titled anew, a note is written. -/
  | elsewhere {l' : EmbeddedLake} (hs : l'.sources = l.sources) : Step h l l'

/-- A lake that comes from one without sources. -/
def Reached (h : Host) (l : EmbeddedLake) : Prop :=
  ∃ l₀ : EmbeddedLake, l₀.sources = (∅, ∅, ∅, ∅) ∧ Relation.ReflTransGen (Step h) l₀ l

/-! ### What the writes keep -/

/-- The prompts and the pages that were there are there, under their hashes. -/
structure Keeps (l l' : EmbeddedLake) : Prop where
  prompts : ∀ id p, l.base.prompts.get? id = some p →
    ∃ q, l'.base.prompts.get? id = some q ∧ q.role = p.role ∧ q.bodyHash = p.bodyHash
  pages : ∀ id be, l.browseEvents.get? id = some be →
    ∃ b, l'.browseEvents.get? id = some b ∧ b.contextHash = be.contextHash

theorem Sourced.mono {l l' : EmbeddedLake} (hk : l.Keeps l') {kind : String} {id : ℤ} {hash : String}
    (hs : l.Sourced kind id hash) : l'.Sourced kind id hash where
  prompt hkind := by
    obtain ⟨p, hp, hown, hhash⟩ := hs.prompt hkind
    obtain ⟨q, hq, hrole, hqhash⟩ := hk.prompts id p hp
    refine ⟨q, hq, ?_, hqhash.trans hhash⟩
    unfold PromptRow.ownWords at hown ⊢
    rw [hrole]
    exact hown
  page hkind := by
    obtain ⟨be, hbe, hhash⟩ := hs.page hkind
    obtain ⟨b, hb, hbhash⟩ := hk.pages id be hbe
    exact ⟨b, hb, hbhash.trans hhash⟩

/-- Every row that is stored is a chunk of the target. -/
theorem mem_storeEmbeddings {l : EmbeddedLake} {kind : String} {id : ℤ} {model hash : String} {now : ℤ}
    {chunks : List ChunkVector} {t : Table EmbeddingRow.chunk}
    (ht : l.storeEmbeddings kind id model hash now chunks = some t) {e : EmbeddingRow}
    (he : e ∈ t.rows) :
    e ∈ l.base.embeddings.rows ∨ (e.targetKind = kind ∧ e.targetId = id ∧ e.sourceHash = hash) := by
  unfold storeEmbeddings at ht
  have hstart : ∀ r ∈ (l.base.embeddings.delete fun e =>
      e.targetKind = kind && e.targetId = id && e.model = model).rows,
      r ∈ l.base.embeddings.rows ∨ (r.targetKind = kind ∧ r.targetId = id ∧ r.sourceHash = hash) :=
    fun r hr => .inl (Table.mem_delete.mp hr).1
  generalize l.base.embeddings.delete _ = t₀ at ht hstart
  induction chunks generalizing t₀ with
  | nil =>
    cases ht
    exact hstart e he
  | cons c chunks ih =>
    rw [List.foldlM_cons] at ht
    obtain ⟨t₁, hinsert, ht⟩ := Option.bind_eq_some_iff.mp ht
    refine ih t₁ ht fun r hr => ?_
    rw [(Table.insert?_eq_some.mp hinsert).2] at hr
    rcases List.mem_append.mp hr with hr | hr
    · exact hstart r hr
    · rw [List.mem_singleton.mp hr]
      exact .inr ⟨rfl, rfl, rfl⟩

/-- A compaction keeps the prompts under their hashes, and adds no vector. -/
theorem compactPromptBody_sources {h : Host} {s t : Store} {seq : Option ℤ} {now prompt : ℤ}
    {gist reason gistSource actor : String} {archived : Bool}
    (hc : s.compactPromptBody h now prompt gist reason gistSource actor archived = .ok (t, seq)) :
    (∀ id p, s.prompts.get? id = some p →
      ∃ q, t.prompts.get? id = some q ∧ q.role = p.role ∧ q.bodyHash = p.bodyHash) ∧
    ∀ e ∈ t.embeddings.rows, e ∈ s.embeddings.rows := by
  cases seq with
  | none =>
    obtain ⟨rfl, -⟩ := Store.compactPromptBody_none hc
    exact ⟨fun id p hp => ⟨p, hp, rfl, rfl⟩, fun e he => he⟩
  | some seq =>
    obtain ⟨p₀, hwarm, -, hprompts, -, -⟩ := Store.compactPromptBody_ok hc
    constructor
    · intro id p hp
      refine ⟨_, by rw [hprompts, Table.get?_update, hp, Option.map_some], ?_⟩
      split <;> exact ⟨rfl, rfl⟩
    · unfold Store.compactPromptBody at hc
      rw [hwarm] at hc
      by_cases hforget : reason = "forget"
      · simp only [hforget, if_true] at hc
        obtain ⟨u, hf, hc⟩ := Store.bind_eq_ok.mp hc
        cases hc
        unfold Store.forgetPrompt at hf
        split at hf
        · cases hf
        · cases hf
          exact fun e he => (Table.mem_delete.mp he).1
      · simp only [if_neg hforget] at hc
        cases hc
        exact fun e he => he

theorem restorePromptBody_sources {h : Host} {s t : Store} {back : Bool} {prompt : ℤ}
    (hr : s.restorePromptBody h prompt = .ok (t, back)) :
    (∀ id p, s.prompts.get? id = some p →
      ∃ q, t.prompts.get? id = some q ∧ q.role = p.role ∧ q.bodyHash = p.bodyHash) ∧
    t.embeddings = s.embeddings := by
  obtain ⟨-, rfl⟩ | ⟨-, a, p₀, body, -, -, -, -, -, rfl⟩ := Store.restorePromptBody_ok hr
  · exact ⟨fun id p hp => ⟨p, hp, rfl, rfl⟩, rfl⟩
  · refine ⟨fun id p hp => ?_, rfl⟩
    refine ⟨_, by rw [Table.get?_update, hp, Option.map_some], ?_⟩
    split <;> exact ⟨rfl, rfl⟩

/-- **What a write keeps**: the sources that were there, and a vector that is
new is one of a source. -/
theorem keeps_step {h : Host} {l l' : EmbeddedLake} (hstep : Step h l l') :
    l.Keeps l' ∧ ∀ e ∈ l'.base.embeddings.rows,
      e ∈ l.base.embeddings.rows ∨ l.Sourced e.targetKind e.targetId e.sourceHash := by
  have hprompt : ∀ id p, l.base.prompts.get? id = some p →
      ∃ q, l.base.prompts.get? id = some q ∧ q.role = p.role ∧ q.bodyHash = p.bodyHash :=
    fun id p hp => ⟨p, hp, rfl, rfl⟩
  have hpage : ∀ id be, l.browseEvents.get? id = some be →
      ∃ b, l.browseEvents.get? id = some b ∧ b.contextHash = be.contextHash :=
    fun id be hbe => ⟨be, hbe, rfl⟩
  have hold : ∀ e ∈ l.base.embeddings.rows, e ∈ l.base.embeddings.rows ∨
      l.Sourced e.targetKind e.targetId e.sourceHash := fun e he => .inl he
  cases hstep with
  | capturePrompt p hnew hs =>
    simp only [sources, Prod.mk.injEq] at hs
    obtain ⟨h1, -, h3, h4⟩ := hs
    refine ⟨⟨fun id q hq => ⟨q, ?_, rfl, rfl⟩, by rw [h3]; exact hpage⟩, by rw [h4]; exact hold⟩
    rw [h1, Table.get?_insertOrIgnore, hq, Option.some_or]
  | capturePage be hnew hs =>
    simp only [sources, Prod.mk.injEq] at hs
    obtain ⟨h1, -, h3, h4⟩ := hs
    refine ⟨⟨by rw [h1]; exact hprompt, fun id b hb => ⟨b, ?_, rfl⟩⟩, by rw [h4]; exact hold⟩
    rw [h3, Table.get?_insertOrIgnore, hb, Option.some_or]
  | compact now prompt gist reason gistSource actor archived hc hs =>
    simp only [sources, Prod.mk.injEq] at hs
    obtain ⟨h1, -, h3, h4⟩ := hs
    obtain ⟨hkept, hsub⟩ := compactPromptBody_sources hc
    exact ⟨⟨by rw [h1]; exact hkept, by rw [h3]; exact hpage⟩, by
      rw [h4]; exact fun e he => .inl (hsub e he)⟩
  | restore prompt hr hs =>
    simp only [sources, Prod.mk.injEq] at hs
    obtain ⟨h1, -, h3, h4⟩ := hs
    obtain ⟨hkept, hsame⟩ := restorePromptBody_sources hr
    exact ⟨⟨by rw [h1]; exact hkept, by rw [h3]; exact hpage⟩, by
      rw [h4, hsame]; exact hold⟩
  | forgetPage id hs =>
    simp only [sources, Prod.mk.injEq] at hs
    obtain ⟨h1, -, h3, h4⟩ := hs
    refine ⟨⟨by rw [h1]; exact hprompt, fun id' be hbe => ?_⟩, by
      rw [h4]; exact fun e he => .inl (Table.mem_delete.mp he).1⟩
    refine ⟨_, by rw [h3, Table.get?_update, hbe, Option.map_some], ?_⟩
    split <;> rfl
  | embed kind id model hash now chunks hsource ht hs =>
    simp only [sources, Prod.mk.injEq] at hs
    obtain ⟨h1, -, h3, h4⟩ := hs
    refine ⟨⟨by rw [h1]; exact hprompt, by rw [h3]; exact hpage⟩, fun e he => ?_⟩
    rw [h4] at he
    rcases mem_storeEmbeddings ht he with he | ⟨hkind, hid, hhash⟩
    · exact .inl he
    · rw [hkind, hid, hhash]
      exact .inr hsource
  | elsewhere hs =>
    simp only [sources, Prod.mk.injEq] at hs
    obtain ⟨h1, -, h3, h4⟩ := hs
    exact ⟨⟨by rw [h1]; exact hprompt, by rw [h3]; exact hpage⟩, by rw [h4]; exact hold⟩

/-- **Every vector is one of a source.** -/
theorem sourced_of_reached {h : Host} {l : EmbeddedLake} (hl : Reached h l) :
    ∀ e ∈ l.base.embeddings.rows, l.Sourced e.targetKind e.targetId e.sourceHash := by
  obtain ⟨l₀, hfresh, hsteps⟩ := hl
  induction hsteps with
  | refl =>
    simp only [sources, Prod.mk.injEq] at hfresh
    intro e he
    rw [hfresh.2.2.2] at he
    exact absurd he List.not_mem_nil
  | tail hsteps hstep ih =>
    obtain ⟨hkeeps, hnew⟩ := keeps_step hstep
    intro e he
    rcases hnew e he with he | hsource
    · exact (ih e he).mono hkeeps
    · exact hsource.mono hkeeps

/-! ### An empty backlog -/

section

variable {l : EmbeddedLake} {model : String}

theorem hasVector_iff {kind : String} {id : ℤ} {hash : String} :
    l.hasVector model kind id hash = true ↔ ∃ e ∈ l.base.embeddings.rows,
      e.targetKind = kind ∧ e.targetId = id ∧ e.model = model ∧ e.sourceHash = hash := by
  simp [hasVector, and_assoc]

theorem contentHasVector_iff {hash : String} :
    l.contentHasVector model hash = true ↔ ∃ e ∈ l.base.embeddings.rows,
      e.targetKind = "browse_event" ∧ e.model = model ∧ e.sourceHash = hash := by
  simp [contentHasVector, and_assoc]

theorem sqlLimit_eq_nil {α : Type} {limit : ℤ} (hlimit : 0 < limit) {rows : List α} :
    sqlLimit limit rows = [] ↔ rows = [] := by
  unfold sqlLimit
  rw [if_neg (by omega), List.take_eq_nil_iff]
  exact or_iff_right (by omega)

theorem map_mergeSort_eq_nil {α β : Type} {rows : List α} {le : α → α → Bool} {f : α → β} :
    (rows.mergeSort le).map f = [] ↔ rows = [] := by
  rw [List.map_eq_nil_iff, ← List.length_eq_zero_iff, List.length_mergeSort, List.length_eq_zero_iff]

/-- The first page of all is the first of its content. -/
theorem uncoveredPages_eq_nil (hempty : l.pageBacklog model = []) : l.uncoveredPages model = [] := by
  by_contra hne
  obtain ⟨be, hbe⟩ := Option.ne_none_iff_exists'.mp
    (fun hnone => hne (List.argmin_eq_none.mp hnone) :
      (l.uncoveredPages model).argmin PageRow.key ≠ none)
  have hmem : be ∈ l.uncoveredPages model := List.argmin_mem hbe
  have hfirst := List.filter_eq_nil_iff.mp (map_mergeSort_eq_nil.mp hempty) be hmem
  simp only [Bool.not_eq_true', Bool.not_eq_false, List.any_eq_true, Bool.and_eq_true,
    decide_eq_true_eq] at hfirst
  obtain ⟨b, hb, -, hlt⟩ := hfirst
  exact absurd (List.le_of_mem_argmin hb hbe) (not_le.mpr hlt)

/-- The three parts have nothing to be embedded. -/
theorem embeddingBacklog_eq_nil {limit : ℤ} (hlimit : 0 < limit) :
    l.embeddingBacklog model limit = [] ↔
      l.promptBacklog model = [] ∧ l.pageBacklog model = [] ∧ l.nodeBacklog model = [] := by
  have hnone : sqlLimit limit ([] : List BacklogItem) = [] := (sqlLimit_eq_nil hlimit).mpr rfl
  have hpositive : ¬ limit ≤ 0 := not_le.mpr hlimit
  constructor
  · intro hempty
    have hprompts : l.promptBacklog model = [] := by
      unfold embeddingBacklog at hempty
      dsimp only at hempty
      split at hempty
      · exact (sqlLimit_eq_nil hlimit).mp hempty
      · split at hempty
        · exact (sqlLimit_eq_nil hlimit).mp (List.append_eq_nil_iff.mp hempty).1
        · exact (sqlLimit_eq_nil hlimit).mp
            (List.append_eq_nil_iff.mp (List.append_eq_nil_iff.mp hempty).1).1
    unfold embeddingBacklog at hempty
    simp only [hprompts, hnone, List.length_nil, Nat.cast_zero, sub_zero, List.nil_append,
      if_neg hpositive] at hempty
    have hpages : l.pageBacklog model = [] := by
      split at hempty
      · exact (sqlLimit_eq_nil hlimit).mp hempty
      · exact (sqlLimit_eq_nil hlimit).mp (List.append_eq_nil_iff.mp hempty).1
    simp only [hpages, hnone, List.length_nil, Nat.cast_zero, sub_zero, List.nil_append,
      if_neg hpositive] at hempty
    exact ⟨hprompts, hpages, (sqlLimit_eq_nil hlimit).mp hempty⟩
  · rintro ⟨hprompts, hpages, hnodes⟩
    unfold embeddingBacklog
    simp only [hprompts, hpages, hnodes, hnone, List.length_nil, Nat.cast_zero, sub_zero,
      List.nil_append, ite_self]

/-- **What an empty backlog says.** -/
theorem covered_of_backlog {limit : ℤ} (hlimit : 0 < limit)
    (hempty : l.embeddingBacklog model limit = []) :
    (∀ p ∈ l.base.prompts.rows, p.ownWords = true → l.forgottenPrompt p = false →
      0 < sqlLength p.ftsText → l.hasVector model "prompt" p.id p.bodyHash = true) ∧
    ∀ be ∈ l.browseEvents.rows, 0 < sqlLength be.text →
      l.contentHasVector model be.contextHash = true := by
  obtain ⟨hprompts, hpages, -⟩ := (embeddingBacklog_eq_nil hlimit).mp hempty
  constructor
  · intro p hp hown hforgotten htext
    have hnot := List.filter_eq_nil_iff.mp (map_mergeSort_eq_nil.mp hprompts) p hp
    simpa [hown, hforgotten, htext] using hnot
  · intro be hbe htext
    have hnot := List.filter_eq_nil_iff.mp (uncoveredPages_eq_nil hpages) be hbe
    simpa [htext] using hnot

/-- Nothing is pending if every prompt of the user's, and some page of every
content, has a vector. -/
theorem pending_eq_zero_iff : (l.embeddingStats model).2 = 0 ↔
    (∀ p ∈ l.base.prompts.rows, p.ownWords = true → 0 < sqlLength p.ftsText →
      l.hasVector model "prompt" p.id p.bodyHash = true) ∧
    ∀ be ∈ l.browseEvents.rows, 0 < sqlLength be.text →
      l.contentHasVector model be.contextHash = true := by
  unfold embeddingStats uncoveredPages Table.select
  simp only [Nat.add_eq_zero_iff, List.length_eq_zero_iff, List.filter_eq_nil_iff,
    List.dedup_eq_nil, List.map_eq_nil_iff, Bool.and_eq_true, decide_eq_true_eq,
    Bool.not_eq_true', not_and, Bool.not_eq_false, and_imp]

/-- A scope is indexed if every source in it has a vector. -/
theorem readiness_iff {f : ScopeFilter} :
    (l.scopedIndexReadiness model f).2 = (l.scopedIndexReadiness model f).1 ↔
    (∀ p ∈ l.base.prompts.rows, l.livePrompt p = true → l.admitsPrompt f p = true →
      l.hasVector model "prompt" p.id p.bodyHash = true) ∧
    ∀ be ∈ l.browseEvents.rows, 0 < sqlLength be.text → l.admitsPage f be = true →
      l.hasVector model "browse_event" be.id be.contextHash = true := by
  have hboth : ∀ {m n k j : ℕ}, m ≤ n → k ≤ j → (m + k = n + j ↔ m = n ∧ k = j) := by omega
  unfold scopedIndexReadiness Table.select
  dsimp only
  rw [hboth List.countP_le_length List.countP_le_length, List.countP_eq_length,
    List.countP_eq_length]
  simp only [List.mem_filter, Bool.and_eq_true, decide_eq_true_eq, and_imp]

end

/-- The index is as ready as an empty backlog says: nothing is pending, every
scope is indexed, and what can be found in a scope has a vector there, its own
or that of a source of the same content. -/
structure Ready (l : EmbeddedLake) (model : String) : Prop where
  pending : (l.embeddingStats model).2 = 0
  indexed : ∀ f, (l.scopedIndexReadiness model f).2 = (l.scopedIndexReadiness model f).1
  prompts : ∀ f, ∀ p ∈ l.base.prompts.rows, l.livePrompt p = true → l.admitsPrompt f p = true →
    ∃ q ∈ l.base.prompts.rows, l.admitsPrompt f q = true ∧ q.bodyHash = p.bodyHash ∧
      l.hasVector model "prompt" q.id q.bodyHash = true
  pages : ∀ f, ∀ be ∈ l.browseEvents.rows, 0 < sqlLength be.text → l.admitsPage f be = true →
    ∃ b ∈ l.browseEvents.rows, l.admitsPage f b = true ∧ b.contextHash = be.contextHash ∧
      l.hasVector model "browse_event" b.id b.contextHash = true

/-- No source is one that the queries treat differently: a forgotten prompt
that still reads anything was embedded since, no agent's prompt can be found,
and of a content that was captured twice every page has a vector. -/
structure TreatedAlike (l : EmbeddedLake) (model : String) : Prop where
  forgotten : ∀ p ∈ l.base.prompts.rows, p.ownWords = true → l.forgottenPrompt p = true →
    0 < sqlLength p.ftsText → l.hasVector model "prompt" p.id p.bodyHash = true
  agents : ∀ p ∈ l.base.prompts.rows, p.ownWords = false → l.livePrompt p = false
  copies : ∀ be ∈ l.browseEvents.rows, ∀ b ∈ l.browseEvents.rows, b ≠ be →
    b.contextHash = be.contextHash → 0 < sqlLength be.text →
      l.hasVector model "browse_event" be.id be.contextHash = true

/-- **With an empty backlog the index is ready exactly if no source is one that
the queries treat differently.** -/
theorem ready_iff {h : Host} {l : EmbeddedLake} (hl : Reached h l) (model : String) {limit : ℤ}
    (hlimit : 0 < limit) (hempty : l.embeddingBacklog model limit = []) :
    l.Ready model ↔ l.TreatedAlike model := by
  obtain ⟨hprompts, hpages⟩ := covered_of_backlog hlimit hempty
  have hsourced := sourced_of_reached hl
  have hlive : ∀ p, l.livePrompt p = true ↔ 0 < sqlLength p.ftsText ∧ l.forgottenPrompt p = false := by
    intro p
    simp [livePrompt]
  constructor
  · intro hready
    have hall := fun f => readiness_iff.mp (hready.indexed f)
    refine ⟨?_, ?_, ?_⟩
    · intro p hp hown _ htext
      exact (pending_eq_zero_iff.mp hready.pending).1 p hp hown htext
    · -- a vector of the prompt would be one of a prompt that is no agent's
      intro p hp hagent
      by_contra hfound
      have hvector := (hall everything).1 p hp (by simpa using hfound) rfl
      obtain ⟨e, he, hkind, hid, -, -⟩ := hasVector_iff.mp hvector
      obtain ⟨q, hq, hown, -⟩ := (hsourced e he).prompt hkind
      rw [hid, Table.mem_rows.mp hp] at hq
      obtain rfl : p = q := Option.some.inj hq
      rw [hown] at hagent
      cases hagent
    · intro be hbe _ _ _ _ htext
      exact (hall everything).2 be hbe htext rfl
  · intro halike
    have hprompt : ∀ p ∈ l.base.prompts.rows, l.livePrompt p = true →
        l.hasVector model "prompt" p.id p.bodyHash = true := by
      intro p hp hfound
      obtain ⟨htext, hkept⟩ := (hlive p).mp hfound
      refine hprompts p hp ?_ hkept htext
      by_contra hagent
      rw [halike.agents p hp (by simpa using hagent)] at hfound
      cases hfound
    have hpage : ∀ be ∈ l.browseEvents.rows, 0 < sqlLength be.text →
        l.hasVector model "browse_event" be.id be.contextHash = true := by
      -- the vector over the content is that of a page with the same content
      intro be hbe htext
      obtain ⟨e, he, hkind, hmodel, hhash⟩ := contentHasVector_iff.mp (hpages be hbe htext)
      obtain ⟨b, hb, hbhash⟩ := (hsourced e he).page hkind
      obtain ⟨hmem, hid⟩ := Table.get?_eq_some.mp hb
      by_cases hsame : b = be
      · subst hsame
        exact hasVector_iff.mpr ⟨e, he, hkind, hid.symm, hmodel, hhash⟩
      · exact halike.copies be hbe b hmem hsame (hbhash.trans hhash) htext
    refine ⟨pending_eq_zero_iff.mpr ⟨?_, hpages⟩, ?_, ?_, ?_⟩
    · intro p hp hown htext
      by_cases hkept : l.forgottenPrompt p = true
      · exact halike.forgotten p hp hown hkept htext
      · exact hprompts p hp hown (by simpa using hkept) htext
    · exact fun f => readiness_iff.mpr
        ⟨fun p hp hfound _ => hprompt p hp hfound, fun be hbe htext _ => hpage be hbe htext⟩
    · exact fun f p hp hfound hadmits => ⟨p, hp, hadmits, rfl, hprompt p hp hfound⟩
    · exact fun f be hbe htext hadmits => ⟨be, hbe, hadmits, rfl, hpage be hbe htext⟩

end EmbeddedLake

/-- A lake with nothing but what a store has of prompts. -/
def lakeOver (base : Store) (h : ∀ e ∈ base.ledger.rows, 1 ≤ e.seq) : EmbeddedLake where
  toNoteStore := NoteStore.fresh base ∅ ∅ ∅ ∅
  promptColumns _ := ⟨some "app", none, none, none, none, none, none⟩
  browseEvents := ∅
  fromOne := h
  rowid _ := 0

/-- A prompt is captured. -/
def askedOnce : Store :=
  { Store.empty with prompts := Table.insertOrIgnore ∅ (askedPrompt 1 "alpha one") }

/-- It is embedded. -/
def embeddedOnce : Store :=
  { askedOnce with
    embeddings := ⟨[⟨"prompt", 1, 0, 0, 9, 0, [7], "m", "alpha one", 5⟩], by decide⟩ }

/-- It is forgotten. -/
def forgottenOnce : Store :=
  match askedOnce.compactPromptBody Host.plain 5 1 "[forgotten]" "forget" "user" "local" true with
  | .ok (s, _) => s
  | .error _ => askedOnce

theorem reached_askedOnce : EmbeddedLake.Reached Host.plain (lakeOver askedOnce (by decide)) := by
  refine ⟨lakeOver .empty (by decide), rfl, .single ?_⟩
  exact .capturePrompt (askedPrompt 1 "alpha one") rfl rfl

/-- The prompt has its vector, and the index is ready. -/
theorem embeddedOnce_ready : (lakeOver embeddedOnce (by decide)).Ready "m" := by
  obtain ⟨l₀, hfresh, hsteps⟩ := reached_askedOnce
  have hreached : EmbeddedLake.Reached Host.plain (lakeOver embeddedOnce (by decide)) := by
    refine ⟨l₀, hfresh, hsteps.tail ?_⟩
    exact .embed "prompt" 1 "m" "alpha one" 5 [⟨0, 0, 9, 0, [7]⟩]
      ⟨fun _ => ⟨askedPrompt 1 "alpha one", rfl, rfl, rfl⟩, fun h => absurd h (by decide)⟩ rfl rfl
  have hempty : (lakeOver embeddedOnce (by decide)).embeddingBacklog "m" 5 = [] :=
    (EmbeddedLake.embeddingBacklog_eq_nil (by decide)).mpr
      ⟨EmbeddedLake.map_mergeSort_eq_nil.mpr (by decide), EmbeddedLake.map_mergeSort_eq_nil.mpr rfl,
        EmbeddedLake.map_mergeSort_eq_nil.mpr rfl⟩
  refine (EmbeddedLake.ready_iff hreached "m" (by decide) hempty).mpr ⟨?_, ?_, ?_⟩
  · decide
  · decide
  · exact fun be hbe => absurd hbe List.not_mem_nil

/-- The prompt is forgotten before it is embedded: nothing is to be embedded,
and it is pending for ever. -/
theorem forgottenOnce_pending : ¬ ∀ (h : Host) (l : EmbeddedLake), EmbeddedLake.Reached h l →
    ∀ (model : String) (limit : ℤ), 0 < limit → l.embeddingBacklog model limit = [] →
      l.Ready model := by
  intro hall
  obtain ⟨l₀, hfresh, hsteps⟩ := reached_askedOnce
  have hreached : EmbeddedLake.Reached Host.plain (lakeOver forgottenOnce (by decide)) :=
    ⟨l₀, hfresh, hsteps.tail (.compact 5 1 "[forgotten]" "forget" "user" "local" true rfl rfl)⟩
  have hempty : (lakeOver forgottenOnce (by decide)).embeddingBacklog "m" 5 = [] :=
    (EmbeddedLake.embeddingBacklog_eq_nil (by decide)).mpr
      ⟨EmbeddedLake.map_mergeSort_eq_nil.mpr (by decide), EmbeddedLake.map_mergeSort_eq_nil.mpr rfl,
        EmbeddedLake.map_mergeSort_eq_nil.mpr rfl⟩
  have hready := hall Host.plain _ hreached "m" 5 (by decide) hempty
  exact absurd hready.pending (by decide)

end PolisMemory
