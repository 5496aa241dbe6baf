/-
# The vector cache and the snapshots that share it

A search over the vectors (`semantic_search_scoped_checked` of
`crates/polis-embed/src/lib.rs`) reads the ledger's head, the index's head and its
revision, one statement each; it takes the rows from the one cache of the
process if these and its handle's identity are the cache's key, and reads and
caches them otherwise. A snapshot has the identity of the handle it was taken
from, so it finds what a search on the handle cached.

The triggers count every row written, so a revision stands for the rows that a
file has at it (`rows_of_revision`). `Coherent` has the rows of each file by
revision, and the cache and every search under way agree with them: a step
keeps it (`coherent_apply`) unless it reads rows at another revision than the
one it read before, which a write between the two statements brings about.

Key definitions: `VectorDb.write`, `VectorWorld.apply`, `Search.next`, `Calm`,
`Coherent`.
Key theorems: `rows_of_revision`, `coherent_apply`, `snapshots_coherent`,
`stale_fill`.
-/
import PolisMemory.Schema
import Mathlib.Data.List.Sort

namespace PolisMemory
namespace VectorCache

/-! ### The tables -/

/-- A row of `embeddings` with its id. -/
structure VectorRow extends EmbeddingRow where
  id : ℤ
  deriving DecidableEq, Repr

/-- What a search reads of a database. -/
structure VectorDb where
  rows : List VectorRow
  /-- The last id given. -/
  lastId : ℕ
  /-- Of `embedding_index_state`. -/
  revision : ℕ
  ledgerHead : ℤ
  ids : ∀ r ∈ rows, 1 ≤ r.id

/-- A write: of vectors, with the triggers, or of an event. -/
inductive VectorWrite
  | insert (r : EmbeddingRow)
  | update (p : VectorRow → Bool) (f : EmbeddingRow → EmbeddingRow)
  | delete (p : VectorRow → Bool)
  | append

namespace VectorDb

/-- One statement; the triggers raise the revision by one for each row. An insert
replaces the row of its chunk. -/
def write (db : VectorDb) : VectorWrite → VectorDb
  | .insert r =>
    { db with
      rows := (db.rows.filter fun q => q.chunk ≠ r.chunk) ++ [⟨r, db.lastId + 1⟩]
      lastId := db.lastId + 1
      revision := db.revision + 1
      ids := by
        intro q hq
        rcases List.mem_append.mp hq with hq | hq
        · exact db.ids q (List.mem_of_mem_filter hq)
        · obtain rfl := List.mem_singleton.mp hq
          show (1 : ℤ) ≤ (db.lastId : ℤ) + 1
          omega }
  | .update p f =>
    { db with
      rows := db.rows.map fun q => if p q then ⟨f q.toEmbeddingRow, q.id⟩ else q
      revision := db.revision + db.rows.countP p
      ids := by
        intro q hq
        obtain ⟨q', hq', rfl⟩ := List.mem_map.mp hq
        have := db.ids q' hq'
        split_ifs
        · exact this
        · exact this }
  | .delete p =>
    { db with
      rows := db.rows.filter fun q => !p q
      revision := db.revision + db.rows.countP p
      ids := fun q hq => db.ids q (List.mem_of_mem_filter hq) }
  | .append => { db with ledgerHead := db.ledgerHead + 1 }

/-- A transaction. -/
def commit (db : VectorDb) (writes : List VectorWrite) : VectorDb := writes.foldl write db

/-- `max_embedding_id` -/
def maxEmbeddingId (db : VectorDb) : ℤ := (db.rows.map VectorRow.id).foldr max 0

/-- A vector as it is cached. -/
abbrev CachedRow : Type := ℤ × String × ℤ × UInt32 × List UInt8

/-- What `all_embeddings` selects of some rows. -/
def selectModel (rows : List VectorRow) (model : String) : List CachedRow :=
  ((rows.filter fun r => r.model = model).mergeSort fun r q => r.id ≤ q.id).map
    fun r => (r.id, r.targetKind, r.targetId, r.scale, r.vec)

/-- `all_embeddings` -/
def allEmbeddings (db : VectorDb) (model : String) : List CachedRow := selectModel db.rows model

end VectorDb

open VectorDb

/-! ### Handles, the cache and the searches -/

variable {F : Type} [DecidableEq F]

/-- A handle on a file: live, or pinned to what the file held. -/
structure PolisStore (F : Type) where
  cacheId : ℕ
  file : F
  pinned : Option VectorDb

/-- `VectorCache` -/
structure Cached where
  storeId : ℕ
  ledgerHead : ℤ
  headId : ℤ
  revision : ℕ
  model : String
  rows : List CachedRow

/-- Where a search stands: what it has read so far, and what it does next. -/
inductive Phase
  | ledgerHead
  | headId (ledgerHead : ℤ)
  | revision (ledgerHead headId : ℤ)
  | lookup (ledgerHead headId : ℤ) (revision : ℕ)
  | read (ledgerHead headId : ℤ) (revision : ℕ)
  | fill (ledgerHead headId : ℤ) (revision : ℕ) (rows : List CachedRow)
  | score (rows : List CachedRow)

/-- A search, over the vectors of a model. -/
structure Search (F : Type) where
  store : PolisStore F
  model : String
  phase : Phase

/-- The process: its files, its handles, the cache and the searches. -/
structure VectorWorld (F : Type) where
  files : F → VectorDb
  stores : List (PolisStore F)
  nextId : ℕ
  cache : Option Cached
  searches : List (Search F)

/-- What a handle reads. -/
def PolisStore.view (s : PolisStore F) (files : F → VectorDb) : VectorDb :=
  s.pinned.getD (files s.file)

/-- The cache is that of this handle's state. -/
def Cached.serves (c : Cached) (storeId : ℕ) (ledgerHead headId : ℤ) (revision : ℕ) (model : String) : Bool :=
  c.revision = revision && c.headId = headId && c.model = model && c.storeId = storeId &&
    c.ledgerHead = ledgerHead

/-- The next statement of a search: where it stands then, and the cache. -/
def Search.next (s : Search F) (files : F → VectorDb) (cache : Option Cached) : Phase × Option Cached :=
  let db := s.store.view files
  match s.phase with
  | .ledgerHead => (.headId db.ledgerHead, cache)
  | .headId ledgerHead => (.revision ledgerHead db.maxEmbeddingId, cache)
  | .revision ledgerHead headId =>
    if headId = 0 then (.score [], cache) else (.lookup ledgerHead headId db.revision, cache)
  | .lookup ledgerHead headId revision =>
    match cache.filter fun c => c.serves s.store.cacheId ledgerHead headId revision s.model with
    | some c => (.score c.rows, cache)
    | none => (.read ledgerHead headId revision, cache)
  | .read ledgerHead headId revision =>
    let rows := db.allEmbeddings s.model
    if rows = [] then (.score [], cache) else (.fill ledgerHead headId revision rows, cache)
  | .fill ledgerHead headId revision rows =>
    (.score rows, some ⟨s.store.cacheId, ledgerHead, headId, revision, s.model, rows⟩)
  | .score rows => (.score rows, cache)

/-- What happens next in the process. -/
inductive Action (F : Type)
  | commit (file : F) (writes : List VectorWrite)
  | attach (file : F)
  | readSnapshot (store : ℕ)
  | search (store : ℕ) (model : String)
  | step (search : ℕ)
  | clear

variable (onDisk : F → Bool)

/-- `read_snapshot`: of a file what it holds; of a store in memory a copy. -/
def PolisStore.readSnapshot (s : PolisStore F) (files : F → VectorDb) : PolisStore F :=
  { s with pinned := some (if onDisk s.file then files s.file else s.view files) }

namespace VectorWorld

/-- One action. -/
def apply (w : VectorWorld F) : Action F → VectorWorld F
  | .commit file writes => { w with files := Function.update w.files file ((w.files file).commit writes) }
  | .attach file => { w with stores := w.stores ++ [⟨w.nextId, file, none⟩], nextId := w.nextId + 1 }
  | .readSnapshot i =>
    match w.stores[i]? with
    | some s => { w with stores := w.stores ++ [s.readSnapshot onDisk w.files] }
    | none => w
  | .search i model =>
    match w.stores[i]? with
    | some s => { w with searches := w.searches ++ [⟨s, model, .ledgerHead⟩] }
    | none => w
  | .step j =>
    match w.searches[j]? with
    | some s =>
      let (phase, cache) := s.next w.files w.cache
      { w with searches := w.searches.set j { s with phase := phase }, cache := cache }
    | none => w
  | .clear => { w with cache := none }

/-- Some actions, one after the other. -/
def run (w : VectorWorld F) (actions : List (Action F)) : VectorWorld F := actions.foldl (apply onDisk) w

/-- A process that has opened nothing. -/
def start (files : F → VectorDb) : VectorWorld F := ⟨files, [], 1, none, []⟩

end VectorWorld

/-! ### What a revision stands for -/

theorem revision_write (db : VectorDb) (x : VectorWrite) : db.revision ≤ (db.write x).revision := by
  cases x with
  | insert r => exact Nat.le_succ _
  | update p f => exact Nat.le_add_right _ _
  | delete p => exact Nat.le_add_right _ _
  | append => exact le_rfl

/-- A statement that leaves the revision leaves the rows. -/
theorem rows_write {db : VectorDb} {x : VectorWrite} (h : (db.write x).revision = db.revision) :
    (db.write x).rows = db.rows := by
  cases x with
  | insert r =>
    simp only [VectorDb.write] at h
    omega
  | update p f =>
    have hnone : db.rows.countP p = 0 := by
      simp only [VectorDb.write] at h
      omega
    rw [List.countP_eq_zero] at hnone
    show (db.rows.map fun q => if p q then ⟨f q.toEmbeddingRow, q.id⟩ else q) = db.rows
    rw [List.map_congr_left fun q hq => if_neg (hnone q hq), List.map_id']
  | delete p =>
    have hnone : db.rows.countP p = 0 := by
      simp only [VectorDb.write] at h
      omega
    rw [List.countP_eq_zero] at hnone
    exact List.filter_eq_self.mpr fun q hq => by simpa using hnone q hq
  | append => rfl

theorem revision_commit (db : VectorDb) (writes : List VectorWrite) :
    db.revision ≤ (db.commit writes).revision := by
  induction writes generalizing db with
  | nil => exact le_rfl
  | cons x writes ih => exact (revision_write db x).trans (ih (db.write x))

/-- A transaction that leaves the revision leaves the rows. -/
theorem rows_of_revision {db : VectorDb} {writes : List VectorWrite}
    (h : (db.commit writes).revision = db.revision) : (db.commit writes).rows = db.rows := by
  induction writes generalizing db with
  | nil => rfl
  | cons x writes ih =>
    have hfirst := revision_write db x
    have hrest := revision_commit (db.write x) writes
    have h : ((db.write x).commit writes).revision = db.revision := h
    have hx : (db.write x).revision = db.revision := by omega
    exact (ih (by omega)).trans (rows_write hx)

theorem le_foldr_max (xs : List ℤ) : ∀ x ∈ xs, x ≤ xs.foldr max 0 := by
  induction xs with
  | nil => simp
  | cons y xs ih =>
    intro x hx
    rw [List.foldr_cons]
    rcases List.mem_cons.mp hx with rfl | hx
    · exact le_max_left _ _
    · exact (ih x hx).trans (le_max_right _ _)

/-- An index without a head has no rows. -/
theorem allEmbeddings_of_head {db : VectorDb} (h : db.maxEmbeddingId = 0) (model : String) :
    db.allEmbeddings model = [] := by
  have hnone : db.rows = [] := by
    by_contra hne
    obtain ⟨r, hr⟩ := List.exists_mem_of_ne_nil _ hne
    have hle := le_foldr_max (db.rows.map VectorRow.id) r.id (List.mem_map_of_mem hr)
    have hid := db.ids r hr
    unfold VectorDb.maxEmbeddingId at h
    omega
  unfold VectorDb.allEmbeddings VectorDb.selectModel
  rw [hnone]
  simp

/-! ### The invariant -/

/-- The rows of each file, by revision. -/
abbrev Content (F : Type) : Type := F → ℕ → List VectorRow

/-- A pinned handle holds what its file held at some revision. -/
def PolisStore.Agrees (content : Content F) (files : F → VectorDb) (s : PolisStore F) : Prop :=
  ∀ db, s.pinned = some db → db.rows = content s.file db.revision ∧ db.revision ≤ (files s.file).revision

/-- A revision that a search has read is one its file has had; of a snapshot, its own. -/
def Search.Read (files : F → VectorDb) (s : Search F) (revision : ℕ) : Prop :=
  revision ≤ (files s.store.file).revision ∧ ∀ db, s.store.pinned = some db → revision = db.revision

/-- What a search knows where it stands. -/
def Search.Agrees (content : Content F) (files : F → VectorDb) (s : Search F) : Prop :=
  match s.phase with
  | .ledgerHead => True
  | .headId _ => True
  | .revision _ headId => ∀ db, s.store.pinned = some db → headId = db.maxEmbeddingId
  | .lookup _ _ revision => s.Read files revision
  | .read _ _ revision => s.Read files revision
  | .fill _ _ revision rows =>
    s.Read files revision ∧ rows = selectModel (content s.store.file revision) s.model
  | .score rows => ∀ db, s.store.pinned = some db → rows = db.allEmbeddings s.model

/-- The cache and the searches agree with what the files hold and have held. -/
structure Coherent (content : Content F) (w : VectorWorld F) : Prop where
  files : ∀ f, (w.files f).rows = content f (w.files f).revision
  fresh : ∀ s ∈ w.stores, s.cacheId < w.nextId
  owner : ∀ s ∈ w.stores, ∀ t ∈ w.stores, s.cacheId = t.cacheId → s.file = t.file
  stores : ∀ s ∈ w.stores, s.Agrees content w.files
  cache : ∀ c, w.cache = some c → ∃ s ∈ w.stores, s.cacheId = c.storeId ∧
    c.rows = selectModel (content s.file c.revision) c.model ∧ c.revision ≤ (w.files s.file).revision
  searches : ∀ s ∈ w.searches, s.store ∈ w.stores ∧ s.Agrees content w.files

/-- The step does not read rows at another revision than the one read before. -/
def Search.Steady (s : Search F) (files : F → VectorDb) : Prop :=
  match s.phase with
  | .read _ _ revision => revision = (s.store.view files).revision
  | _ => True

/-- A search that is to read its rows reads them at the revision it has read. -/
def Calm (w : VectorWorld F) : Action F → Prop
  | .step j => ∀ s, w.searches[j]? = some s → s.Steady w.files
  | _ => True

/-- Every action is calm where it happens. -/
def CalmRun (w : VectorWorld F) : List (Action F) → Prop
  | [] => True
  | a :: actions => Calm w a ∧ CalmRun (w.apply onDisk a) actions

section Steps

variable {content content' : Content F} {files files' : F → VectorDb} {w : VectorWorld F}
  {s : PolisStore F} {search : Search F}

omit [DecidableEq F] in
/-- What a handle reads is what its file held at that revision. -/
theorem view_rows (hfiles : ∀ f, (files f).rows = content f (files f).revision)
    (h : s.Agrees content files) : (s.view files).rows = content s.file (s.view files).revision ∧
      (s.view files).revision ≤ (files s.file).revision ∧
        ∀ db, s.pinned = some db → s.view files = db := by
  unfold PolisStore.view
  cases hpin : s.pinned with
  | none => exact ⟨hfiles s.file, le_rfl, by simp⟩
  | some db =>
    obtain ⟨hrows, hle⟩ := h db hpin
    exact ⟨hrows, hle, by simp⟩

omit [DecidableEq F] in
/-- Facts about revisions that the files have had stay, as their revisions grow. -/
theorem PolisStore.Agrees.mono (h : s.Agrees content files)
    (hcontent : ∀ r ≤ (files s.file).revision, content' s.file r = content s.file r)
    (hrev : (files s.file).revision ≤ (files' s.file).revision) : s.Agrees content' files' := by
  intro db hdb
  obtain ⟨hrows, hle⟩ := h db hdb
  exact ⟨hrows.trans (hcontent _ hle).symm, hle.trans hrev⟩

omit [DecidableEq F] in
theorem Search.Read.mono {r : ℕ} (h : search.Read files r)
    (hrev : (files search.store.file).revision ≤ (files' search.store.file).revision) :
    search.Read files' r :=
  ⟨h.1.trans hrev, h.2⟩

omit [DecidableEq F] in
theorem Search.Agrees.mono (h : search.Agrees content files)
    (hcontent : ∀ r ≤ (files search.store.file).revision,
      content' search.store.file r = content search.store.file r)
    (hrev : (files search.store.file).revision ≤ (files' search.store.file).revision) :
    search.Agrees content' files' := by
  unfold Search.Agrees at h ⊢
  cases hphase : search.phase with
  | ledgerHead => trivial
  | headId l => trivial
  | revision l headId => simpa [hphase] using h
  | lookup l i r =>
    rw [hphase] at h
    exact Search.Read.mono h hrev
  | read l i r =>
    rw [hphase] at h
    exact Search.Read.mono h hrev
  | fill l i r rows =>
    rw [hphase] at h
    obtain ⟨hread, hrows⟩ := h
    refine ⟨hread.mono hrev, ?_⟩
    rw [hrows, hcontent r hread.1]
  | score rows => simpa [hphase] using h

omit [DecidableEq F] in
/-- One statement of a search that reads its rows at the revision it has read. -/
theorem next_agrees (h : Coherent content w) (hs : search ∈ w.searches) (hsteady : search.Steady w.files) :
    ({ search with phase := (search.next w.files w.cache).1 } : Search F).Agrees content w.files ∧
      ∀ c, (search.next w.files w.cache).2 = some c → ∃ s ∈ w.stores, s.cacheId = c.storeId ∧
        c.rows = selectModel (content s.file c.revision) c.model ∧
          c.revision ≤ (w.files s.file).revision := by
  obtain ⟨hstore, hagrees⟩ := h.searches search hs
  obtain ⟨hview, hle, hpin⟩ := view_rows h.files (h.stores _ hstore)
  unfold Search.Agrees at hagrees
  unfold Search.Steady at hsteady
  unfold Search.next Search.Agrees
  cases hphase : search.phase with
  | ledgerHead => exact ⟨trivial, h.cache⟩
  | headId l =>
    refine ⟨fun db hdb => ?_, h.cache⟩
    show (search.store.view w.files).maxEmbeddingId = db.maxEmbeddingId
    rw [hpin db hdb]
  | revision l headId =>
    rw [hphase] at hagrees
    simp only
    split_ifs with hzero
    · refine ⟨fun db hdb => ?_, h.cache⟩
      exact (allEmbeddings_of_head ((hagrees db hdb).symm.trans hzero) _).symm
    · refine ⟨⟨hle, fun db hdb => ?_⟩, h.cache⟩
      rw [hpin db hdb]
  | lookup l i r =>
    rw [hphase] at hagrees
    obtain ⟨hread, hown⟩ : search.Read w.files r := hagrees
    simp only
    cases hfound : w.cache.filter fun c => c.serves search.store.cacheId l i r search.model with
    | none => exact ⟨⟨hread, hown⟩, h.cache⟩
    | some c =>
      refine ⟨fun db hdb => ?_, h.cache⟩
      obtain ⟨hcache, hserves⟩ := Option.filter_eq_some_iff.mp hfound
      simp only [Cached.serves, Bool.and_eq_true, decide_eq_true_eq] at hserves
      obtain ⟨⟨⟨⟨hrev, -⟩, hmodel⟩, hid⟩, -⟩ := hserves
      obtain ⟨owner, howner, hownerId, hrows, -⟩ := h.cache c hcache
      -- the handle that filled the cache is on the same file
      have hfile := h.owner _ howner _ hstore (hownerId.trans hid)
      show c.rows = db.allEmbeddings search.model
      rw [hrows, hmodel, hrev, hfile, hown db hdb]
      unfold VectorDb.allEmbeddings
      rw [(h.stores _ hstore db hdb).1]
  | read l i r =>
    rw [hphase] at hagrees hsteady
    obtain ⟨hread, hown⟩ : search.Read w.files r := hagrees
    have hsteady : r = (search.store.view w.files).revision := hsteady
    simp only
    split_ifs with hnone
    · refine ⟨fun db hdb => ?_, h.cache⟩
      rw [hpin db hdb] at hnone
      exact hnone.symm
    · refine ⟨⟨⟨hread, hown⟩, ?_⟩, h.cache⟩
      unfold VectorDb.allEmbeddings
      rw [hview, ← hsteady]
  | fill l i r rows =>
    rw [hphase] at hagrees
    obtain ⟨⟨hread, hown⟩, hrows⟩ : search.Read w.files r ∧ _ := hagrees
    refine ⟨fun db hdb => ?_, fun c hc => ?_⟩
    · show rows = db.allEmbeddings search.model
      unfold VectorDb.allEmbeddings
      rw [hrows, (h.stores _ hstore db hdb).1, hown db hdb]
    · obtain rfl := Option.some.inj hc
      exact ⟨search.store, hstore, rfl, hrows, hread⟩
  | score rows =>
    rw [hphase] at hagrees
    exact ⟨hagrees, h.cache⟩

end Steps

section Runs

variable {content : Content F} {w : VectorWorld F}

/-- A commit gives its file one more revision, or leaves the rows. -/
theorem coherent_commit (h : Coherent content w) (file : F) (writes : List VectorWrite) :
    ∃ content', Coherent content' (w.apply onDisk (.commit file writes)) := by
  set db := (w.files file).commit writes with hdb
  let content' : Content F := fun f r => if f = file ∧ r = db.revision then db.rows else content f r
  have hrev (f : F) : (w.files f).revision ≤ (Function.update w.files file db f).revision := by
    by_cases hf : f = file
    · rw [hf, Function.update_self]
      exact revision_commit _ _
    · rw [Function.update_of_ne hf]
  have hcontent (f : F) (r : ℕ) (hr : r ≤ (w.files f).revision) : content' f r = content f r := by
    show (if f = file ∧ r = db.revision then db.rows else content f r) = content f r
    split_ifs with hsame
    · obtain ⟨rfl, rfl⟩ := hsame
      have hstays : db.revision = (w.files f).revision := le_antisymm hr (revision_commit _ _)
      rw [rows_of_revision hstays, h.files, hstays]
    · rfl
  refine ⟨content', ?_, h.fresh, h.owner, ?_, ?_, ?_⟩
  · intro f
    show (Function.update w.files file db f).rows = content' f (Function.update w.files file db f).revision
    by_cases hf : f = file
    · rw [hf, Function.update_self]
      exact (if_pos ⟨rfl, rfl⟩).symm
    · rw [Function.update_of_ne hf, hcontent f _ le_rfl]
      exact h.files f
  · exact fun s hs => (h.stores s hs).mono (hcontent s.file) (hrev s.file)
  · intro c hc
    obtain ⟨s, hs, hid, hrows, hle⟩ := h.cache c hc
    refine ⟨s, hs, hid, ?_, hle.trans (hrev s.file)⟩
    rw [hrows, hcontent s.file _ hle]
  · intro search hsearch
    obtain ⟨hstore, hagrees⟩ := h.searches search hsearch
    exact ⟨hstore, hagrees.mono (hcontent _) (hrev _)⟩

omit [DecidableEq F] in
/-- A handle more. -/
theorem coherent_stores (h : Coherent content w) {s : PolisStore F} {nextId : ℕ}
    (hs : s.Agrees content w.files) (hnext : w.nextId ≤ nextId) (hid : s.cacheId < nextId)
    (howner : ∀ t ∈ w.stores, s.cacheId = t.cacheId → s.file = t.file) :
    Coherent content { w with stores := w.stores ++ [s], nextId := nextId } where
  files := h.files
  fresh t ht := by
    rcases List.mem_append.mp ht with ht | ht
    · exact (h.fresh t ht).trans_le hnext
    · obtain rfl := List.mem_singleton.mp ht
      exact hid
  owner t ht u hu hsame := by
    rcases List.mem_append.mp ht with ht | ht
    · rcases List.mem_append.mp hu with hu | hu
      · exact h.owner t ht u hu hsame
      · rw [List.mem_singleton.mp hu] at hsame ⊢
        exact (howner t ht hsame.symm).symm
    · rw [List.mem_singleton.mp ht] at hsame ⊢
      rcases List.mem_append.mp hu with hu | hu
      · exact howner u hu hsame
      · rw [List.mem_singleton.mp hu]
  stores t ht := by
    rcases List.mem_append.mp ht with ht | ht
    · exact h.stores t ht
    · obtain rfl := List.mem_singleton.mp ht
      exact hs
  cache c hc := by
    obtain ⟨t, ht, hrest⟩ := h.cache c hc
    exact ⟨t, List.mem_append_left _ ht, hrest⟩
  searches search hsearch := by
    obtain ⟨hstore, hagrees⟩ := h.searches search hsearch
    exact ⟨List.mem_append_left _ hstore, hagrees⟩

omit [DecidableEq F] in
/-- A snapshot of a handle agrees with what its file holds. -/
theorem agrees_readSnapshot (h : Coherent content w) {s : PolisStore F} (hs : s ∈ w.stores) :
    (s.readSnapshot onDisk w.files).Agrees content w.files := by
  intro db hdb
  obtain rfl := Option.some.inj hdb
  show _ = content s.file _ ∧ _ ≤ (w.files s.file).revision
  split_ifs
  · exact ⟨h.files s.file, le_rfl⟩
  · obtain ⟨hrows, hle, -⟩ := view_rows h.files (h.stores s hs)
    exact ⟨hrows, hle⟩

/-- One case an action; at a step, the statement the search is at. -/
theorem coherent_apply (h : Coherent content w) (a : Action F) (hcalm : Calm w a) :
    ∃ content', Coherent content' (w.apply onDisk a) := by
  cases a with
  | commit file writes => exact coherent_commit onDisk h file writes
  | attach file =>
    refine ⟨content, coherent_stores h (fun db hdb => by cases hdb) (Nat.le_succ _) (Nat.lt_succ_self _) ?_⟩
    intro t ht hsame
    have hsame : w.nextId = t.cacheId := hsame
    have := h.fresh t ht
    omega
  | readSnapshot i =>
    cases hs : w.stores[i]? with
    | none =>
      refine ⟨content, ?_⟩
      simp only [VectorWorld.apply, hs]
      exact h
    | some s =>
      have hmem := List.mem_of_getElem? hs
      refine ⟨content, ?_⟩
      simp only [VectorWorld.apply, hs]
      exact coherent_stores h (agrees_readSnapshot onDisk h hmem) le_rfl (h.fresh s hmem)
        fun t ht hsame => h.owner s hmem t ht hsame
  | search i model =>
    cases hs : w.stores[i]? with
    | none =>
      refine ⟨content, ?_⟩
      simp only [VectorWorld.apply, hs]
      exact h
    | some s =>
      refine ⟨content, ?_⟩
      simp only [VectorWorld.apply, hs]
      refine ⟨h.files, h.fresh, h.owner, h.stores, h.cache, fun t ht => ?_⟩
      rcases List.mem_append.mp ht with ht | ht
      · exact h.searches t ht
      · obtain rfl := List.mem_singleton.mp ht
        exact ⟨List.mem_of_getElem? hs, trivial⟩
  | step j =>
    cases hs : w.searches[j]? with
    | none =>
      refine ⟨content, ?_⟩
      simp only [VectorWorld.apply, hs]
      exact h
    | some s =>
      have hmem := List.mem_of_getElem? hs
      obtain ⟨hphase, hcache⟩ := next_agrees h hmem (hcalm s hs)
      refine ⟨content, ?_⟩
      simp only [VectorWorld.apply, hs]
      refine ⟨h.files, h.fresh, h.owner, h.stores, hcache, fun t ht => ?_⟩
      rcases List.mem_or_eq_of_mem_set ht with ht | rfl
      · exact h.searches t ht
      · exact ⟨(h.searches s hmem).1, hphase⟩
  | clear =>
    exact ⟨content, h.files, h.fresh, h.owner, h.stores, (fun c hc => by cases hc), h.searches⟩

omit [DecidableEq F] in
theorem coherent_start (files : F → VectorDb) :
    Coherent (fun f _ => (files f).rows) (VectorWorld.start files) where
  files _ := rfl
  fresh s hs := by cases hs
  owner s hs := by cases hs
  stores s hs := by cases hs
  cache c hc := by cases hc
  searches s hs := by cases hs

theorem coherent_run (actions : List (Action F)) (h : Coherent content w)
    (hcalm : CalmRun onDisk w actions) : ∃ content', Coherent content' (w.run onDisk actions) := by
  induction actions generalizing content w with
  | nil => exact ⟨content, h⟩
  | cons a actions ih =>
    obtain ⟨content', h'⟩ := coherent_apply onDisk h a hcalm.1
    exact ih h' hcalm.2

/-- A search over a snapshot scores the rows that an uncached read of it gives. -/
def Uncached (w : VectorWorld F) : Prop := ∀ s ∈ w.searches, ∀ db rows, s.store.pinned = some db →
  s.phase = .score rows → rows = db.allEmbeddings s.model

/-- Where every search that reads rows reads them at the revision it has read, every
search over a snapshot scores the snapshot's rows. -/
theorem snapshots_coherent (files : F → VectorDb) (actions : List (Action F))
    (hcalm : CalmRun onDisk (.start files) actions) :
    Uncached ((VectorWorld.start files).run onDisk actions) := by
  obtain ⟨content, h⟩ := coherent_run onDisk actions (coherent_start files) hcalm
  intro s hs db rows hpin hphase
  have hagrees := (h.searches s hs).2
  unfold Search.Agrees at hagrees
  rw [hphase] at hagrees
  exact hagrees db hpin

end Runs

/-! ### A fill between two revisions -/

/-- One prompt's vector. -/
def oneRow (v : UInt8) : VectorRow := ⟨⟨"prompt", 1, 0, 0, 5, 0, [v], "m", "hash", 0⟩, 1⟩

/-- A file that holds it. -/
def oneVector : VectorDb := ⟨[oneRow 7], 1, 1, 1, by decide⟩

/-- A live search, up to the miss of the cache. -/
def missed : List (Action Unit) :=
  [.attach (), .readSnapshot 0, .search 0 "m", .step 0, .step 0, .step 0, .step 0]

/-- Another connection writes the vector anew. -/
def rewritten : Action Unit := .commit () [.update (fun _ => true) fun r => { r with vec := [9] }]

/-- It reads and caches the rows; then a search over the snapshot. -/
def searchedSnapshot : List (Action Unit) :=
  [.step 0, .step 0, .search 1 "m", .step 1, .step 1, .step 1, .step 1]

theorem allEmbeddings_oneRow (v : UInt8) (lastId revision : ℕ) (ledgerHead : ℤ)
    (ids : ∀ r ∈ [oneRow v], 1 ≤ r.id) :
    (VectorDb.mk [oneRow v] lastId revision ledgerHead ids).allEmbeddings "m" =
      [(1, "prompt", 1, 0, [v])] := by
  simp [VectorDb.allEmbeddings, VectorDb.selectModel, oneRow]

theorem missed_run : ((VectorWorld.start fun _ => oneVector).run (fun _ => true) missed) =
    ⟨fun _ => oneVector, [⟨1, (), none⟩, ⟨1, (), some oneVector⟩], 2, none,
      [⟨⟨1, (), none⟩, "m", .read 1 1 1⟩]⟩ := by
  rfl

theorem stale_run : ((VectorWorld.start fun _ => oneVector).run (fun _ => true)
    (missed ++ rewritten :: searchedSnapshot)).searches[1]? =
      some ⟨⟨1, (), some oneVector⟩, "m", .score [(1, "prompt", 1, 0, [9])]⟩ := by
  have hstart : VectorWorld.run (fun _ => true) (VectorWorld.start fun _ => oneVector)
      (missed ++ rewritten :: searchedSnapshot) =
        VectorWorld.run (fun _ => true) ((VectorWorld.start fun _ => oneVector).run (fun _ => true) missed)
          (rewritten :: searchedSnapshot) := List.foldl_append
  rw [hstart, missed_run]
  have hfile : (Function.update (fun _ : Unit => oneVector) ()
      (oneVector.commit [.update (fun _ => true) fun r => { r with vec := [9] }])) =
        fun _ => VectorDb.mk [oneRow 9] 1 2 1 (by decide) := by
    funext f
    rfl
  have hhead : oneVector.maxEmbeddingId = 1 := rfl
  have hrevision : oneVector.revision = 1 := rfl
  have hledger : oneVector.ledgerHead = 1 := rfl
  simp only [VectorWorld.run, rewritten, searchedSnapshot, List.foldl_cons, List.foldl_nil,
    VectorWorld.apply, hfile]
  simp [Search.next, PolisStore.view, allEmbeddings_oneRow, Cached.serves, hhead, hrevision, hledger]
  rfl

/-- The snapshot's own vector is not what the search over it scores. -/
theorem stale_fill : ¬ ∀ (onDisk : Unit → Bool) (files : Unit → VectorDb) (actions : List (Action Unit)),
    Uncached ((VectorWorld.start files).run onDisk actions) := by
  intro h
  have hrows := h (fun _ => true) (fun _ => oneVector) (missed ++ rewritten :: searchedSnapshot) _
    (List.mem_of_getElem? stale_run) oneVector _ rfl rfl
  have hown : oneVector.allEmbeddings "m" = [(1, "prompt", 1, 0, [7])] := allEmbeddings_oneRow 7 1 1 1 _
  rw [hown] at hrows
  exact absurd hrows (by decide)

/-- Without the write the run is calm. -/
theorem snapshots_coherent_searched : CalmRun (fun _ => true) (.start fun _ => oneVector)
      (missed ++ searchedSnapshot) ∧
    Uncached ((VectorWorld.start fun _ => oneVector).run (fun _ : Unit => true)
      (missed ++ searchedSnapshot)) := by
  have hcalm : CalmRun (fun _ => true) (.start fun _ => oneVector) (missed ++ searchedSnapshot) := by
    have hhead : oneVector.maxEmbeddingId = 1 := rfl
    have hrevision : oneVector.revision = 1 := rfl
    have hledger : oneVector.ledgerHead = 1 := rfl
    have hrows : oneVector.allEmbeddings "m" = [(1, "prompt", 1, 0, [7])] := allEmbeddings_oneRow 7 1 1 1 _
    simp [CalmRun, Calm, Search.Steady, missed, searchedSnapshot, VectorWorld.apply, VectorWorld.start,
      PolisStore.readSnapshot, Search.next, PolisStore.view, Cached.serves, hhead, hrevision, hledger, hrows]
  exact ⟨hcalm, snapshots_coherent _ _ _ hcalm⟩

end VectorCache
end PolisMemory
