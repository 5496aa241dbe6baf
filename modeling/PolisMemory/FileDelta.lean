/-
# The filing tier of an organize run

`file_delta` of `crates/polis-memory/src/filing.rs` with what it calls there and in
`crates/polis-store/src/centroids.rs`. Each item of the delta is filed under the class
whose centroid is best if it is clearly better than the next; what is ambiguous or
has no vector waits for a model's batch, with the members of `~inbox` that are offered
again, or goes to its root's `~inbox`; on a consolidation run it is left to the
classifier.

The pass is no transaction: it stops where one of its writes fails, with those
before it made. The embedder's vectors, the centroids made of them and what the
floats decide are a parameter, as are the model's replies and what other writers do
to the store while a reply is waited for. The table of centroids is a cache that the
pass reads once; its writes are left out, as are the thresholds, which the outcome only
reports.

Key definitions: `Embedder`, `Polis`, `placeItem`, `reoffer`, `settle`, `fileBatch`,
`fileDelta`.
Key theorems: `nodesUnder_eq_some_iff`.
-/
import PolisMemory.Cadence
import PolisMemory.Coldness
import PolisMemory.Filing
import PolisMemory.Passes
import PolisMemory.Staging
import PolisMemory.Traversals

namespace PolisMemory

open Tables

namespace Store

/-- A live link under an inbox, by its class and that class's parent. -/
structure InboxLink where
  link : ℤ
  inboxId : String
  root : String
  kind : String
  seq : ℤ
  deriving DecidableEq, Repr

/-- What is read of a link, if it is one. -/
def inboxLink? (s : Store) (title : String) (l : LinkRow) : Option InboxLink :=
  if l.live then
    (s.liveNode? l.nodeId).bind fun n =>
      if n.title = title then
        n.parentId.map fun root => ⟨l.id, n.id, root, l.targetKind, castInteger l.targetId⟩
      else none
  else none

/-- `inbox_links`; the table's rows are in the order of their ids. -/
def inboxLinks (s : Store) (title : String) (limit : ℕ) : List InboxLink :=
  (s.links.rows.filterMap (s.inboxLink? title)).take limit

/-- `retire_link` -/
def retireLink (s : Store) (link run : ℤ) (into : Option String) : Store :=
  { s with
    links := s.links.update (fun l => l.id = link && l.live) fun l =>
      { l with
        retiredByRun := some run
        note := (into.map fun node => "refiled → " ++ node).or l.note } }

end Store

namespace Filing

open Forest Loops Passes Staging Store Tables Traversals

/-- `BATCH_MAX` -/
def batchMax : ℕ := 20

/-- `INBOX_RETRY_MAX` -/
def inboxRetryMax : ℕ := 20

/-- Why a pass stops: a write fails, or the loop of `nodes_under` does not end. -/
inductive Halt
  | db (e : DbError)
  | endless
  deriving DecidableEq, Repr

/-- A pass over the store. -/
abbrev Pass (α : Type) : Type := EStateM Halt Store α

/-! ### What decides -/

/-- What the deterministic tier decided for one item. -/
inductive Decision (F : Type)
  | file (nodeId : String) (top1 top2 : F)
  | ambiguous (ranked : List (String × F))
  | noVector

/-- An embedder with vectors in `V`, and the centroids of its model in `C`. -/
structure Embedder (V C F : Type) where
  /-- `PolisStore::item_vector` -/
  stored : Store → String → ℤ → Option V
  /-- The text's chunks embedded: the first one's vector, and the table with all. -/
  embedded : Store → String → ℤ → Option (V × Table EmbeddingRow.chunk)
  /-- `rebuild_centroids`, then `centroids_for_model`. -/
  centroids : Store → String → Option C
  /-- `c.n > 0 && c.dim == u.len()` -/
  fits : V → C → Bool
  /-- `cosine_f32(&u, &c.mean_unit())` -/
  cosine : V → C → F
  /-- `partial_cmp` is `Greater`. -/
  above : F → F → Bool
  zero : F
  /-- `top1 >= th.t1 && (top1 - top2) >= th.margin` -/
  clears : F → F → Bool
  /-- One more member, its vector a unit. -/
  add : C → V → C
  /-- `centroid {top1:.2} (next {top2:.2})` -/
  note : F → F → String

/-- A model: the delimiters drawn for its prompts, what each call brings with what is
written meanwhile, and the JSON that its texts hold. -/
structure Agent where
  nonce : ℕ → List Char
  run : ℕ → List Char → Store → Option (List Char) × Store
  parse : List Char → Option JsonText.Value

/-- What the pass runs with. -/
structure Polis (V C F : Type) where
  host : Host
  now : ℤ
  embedder : Option (Embedder V C F)
  agent : Option Agent
  /-- `item_text`, of which only the text is read. -/
  itemText : Store → String → ℤ → Option String

variable {V C F : Type}

namespace Embedder

variable (e : Embedder V C F)

/-- `rank` -/
def rank (item : V) (candidates : List (String × C)) : List (String × F) :=
  ((candidates.filter fun c => e.fits item c.2).map fun c => (c.1, e.cosine item c.2)).mergeSort
    fun a b => !e.above b.2 a.2

/-- `decide` -/
def decideBest : List (String × F) → Decision F
  | [] => .ambiguous []
  | (node, top1) :: rest =>
    let top2 := ((rest.head?).map Prod.snd).getD e.zero
    if e.clears top1 top2 then .file node top1 top2 else .ambiguous ((node, top1) :: rest)

/-- `item_vector` -/
def itemVector (kind : String) (seq : ℤ) : Pass (Option V) :=
  if kind ≠ "prompt" ∧ kind ≠ "browse_event" then pure none
  else do
    let s ← get
    match e.stored s kind seq with
    | some v => return some v
    | none =>
      match e.embedded s kind seq with
      | none => return none
      | some (v, embeddings) =>
        set { s with embeddings := embeddings }
        return some v

end Embedder

/-- `fileable` -/
def fileable (item : LakeItem) : Bool :=
  item.kind = "prompt" || item.refKind = some "browse_event" || item.kind = "note" ||
    item.kind ∈ decisionKinds

/-- `target_kind` -/
def targetKind (item : LakeItem) : String :=
  if item.kind = "prompt" then "prompt"
  else if item.refKind = some "browse_event" then "browse_event"
  else if item.kind = "note" then "note"
  else if item.kind = "revision" then "revision"
  else "decision"

/-- The ids of the tree's roots. -/
def rootsOf (tree : List NodeRow) : List String :=
  (tree.filter fun n => n.parentId.isNone).map NodeRow.id

/-- `resolve_root` -/
def resolveRoot (h : Host) (item : LakeItem) (roots : List String) : String :=
  match item.projectPath with
  | some path => if rootIdForPath h path ∈ roots then rootIdForPath h path else generalRootId
  | none => generalRootId

/-- `nodes_under`; more turns than the tree has nodes is a loop that does not end. -/
def nodesUnder (tree : List NodeRow) (root : String) : Option (List String) :=
  runFor (underBody tree) (tree.length + 2) ([root], [root])

/-- The same, in the pass. -/
def walkUnder (tree : List NodeRow) (root : String) : Pass (List String) :=
  match nodesUnder tree root with
  | some under => pure under
  | none => throw .endless

/-- By induction on the turns. -/
theorem runFor_under (tree : List NodeRow) (n : ℕ) (out stack : List String) :
    runFor (underBody tree) n (out, stack) =
      if (walk (fun id => (children tree id).reverse) n stack).length < n then
        some (out ++ (walk (fun id => (children tree id).reverse) n stack).flatMap (children tree))
      else none := by
  induction n generalizing out stack with
  | zero => rfl
  | succ n ih =>
    cases stack with
    | nil => simp [runFor, underBody, walk]
    | cons id stack =>
      simp only [runFor, underBody, walk, List.length_cons, List.flatMap_cons, ih, List.append_assoc,
        Nat.add_lt_add_iff_right]

/-- The bound on the turns is no bound. -/
theorem nodesUnder_eq_some_iff (tree : Table NodeRow.id) (root : String) (out : List String) :
    nodesUnder tree.rows root = some out ↔ Ends (underBody tree.rows) ([root], [root]) out := by
  refine ⟨ends_of_runFor, fun h => ?_⟩
  obtain ⟨n, hlt, hout⟩ := ends_under_iff_walk.mp h
  have hsub : walk (fun id => (children tree.rows id).reverse) n [root] ⊆
      root :: tree.rows.map NodeRow.id := by
    intro id hid
    obtain ⟨b, hb, hup⟩ := above_of_mem_walk (kids_children tree) hid
    obtain rfl := List.mem_singleton.mp hb
    rcases Relation.ReflTransGen.cases_head hup with rfl | ⟨p, hp, -⟩
    · exact List.mem_cons_self
    · obtain ⟨n, hn, rfl, -⟩ := parentIn_eq_some.mp hp
      exact List.mem_cons_of_mem b (List.mem_map_of_mem hn)
  have hnodup : (walk (fun id => (children tree.rows id).reverse) n [root]).Nodup := by
    apply nodup_walk (kids_children tree)
    · intro b hb
      exact List.mem_singleton.mp hb ▸ acyclic_iff.mpr ((ends_under_iff tree root).mp ⟨out, h⟩)
    · exact List.pairwise_singleton _ _
  have hle := (hnodup.subperm hsub).length_le
  simp only [List.length_cons, List.length_map] at hle
  have hsame : walk (fun id => (children tree.rows id).reverse) (tree.rows.length + 2) [root] =
      walk (fun id => (children tree.rows id).reverse) n [root] := walk_eq_of_lt hlt (by omega)
  rw [nodesUnder, runFor_under, hsame, if_pos (by omega), hout]

/-- What is listed is the root or of the tree. -/
theorem mem_of_runFor {tree : List NodeRow} {P : String → Prop} (htree : ∀ n ∈ tree, P n.id) :
    ∀ {n : ℕ} {out stack r : List String}, (∀ id ∈ out, P id) →
      runFor (underBody tree) n (out, stack) = some r → ∀ id ∈ r, P id
  | n + 1, out, [], r, hout, h => by
    obtain rfl := Option.some.inj h
    exact hout
  | n + 1, out, id :: stack, r, hout, h => by
    refine mem_of_runFor htree (n := n) (fun c hc => ?_) h
    rcases List.mem_append.mp hc with hc | hc
    · exact hout c hc
    · obtain ⟨k, hk, rfl⟩ := List.mem_map.mp hc
      exact htree k (List.mem_of_mem_filter hk)

theorem mem_nodesUnder {tree : List NodeRow} {P : String → Prop} {root : String} {under : List String}
    (htree : ∀ n ∈ tree, P n.id) (hroot : P root) (h : nodesUnder tree root = some under) :
    ∀ id ∈ under, P id :=
  mem_of_runFor htree (fun _ hid => List.mem_singleton.mp hid ▸ hroot) h

/-! ### The deterministic tier -/

/-- An item that could not be placed, with the link and the class of a member of
`~inbox` that is tried again. -/
structure Held extends Pending where
  inboxLink : Option (ℤ × String)

/-- `FilingOutcome`, but for the thresholds. -/
structure FilingOutcome where
  considered : ℕ
  skipped : ℕ
  filedByCentroid : ℕ
  filedByModel : ℕ
  inboxed : ℕ
  refiledFromInbox : ℕ
  ambiguous : ℕ
  noVector : ℕ
  leftover : List LakeItem
  consolidationDue : Bool
  promptBytes : ℕ
  llmCalls : ℕ
  deriving DecidableEq, Repr

/-- Before the first item. -/
def FilingOutcome.start (due : Bool) : FilingOutcome := ⟨0, 0, 0, 0, 0, 0, 0, 0, [], due, 0, 0⟩

/-- The variables of the loop over the delta. -/
structure Sorting (C : Type) where
  centroids : String → Option C
  pending : List Held
  skipped : List LakeItem
  out : FilingOutcome

section

variable (polis : Polis V C F) (run : ℤ)

/-- `stage_proposal`, in its own transaction. -/
def stage (p : Proposal) : Pass StagedOutcome :=
  tx fun s => (s.stageProposal polis.host polis.now (some run) p).mapError .db

/-- `file_now`: whether the link was not there live. -/
def fileNow (nodeId : String) (seq : ℤ) (kind note : String) : Pass Bool := do
  let staged ← stage polis run (.file nodeId none kind (i64ToString seq) (some note) none)
  return staged ≠ .skipped

/-- `inbox` -/
def inbox (root : String) (seq : ℤ) (kind : String) : Pass Unit := do
  let _ ← stage polis run (.file root (some inboxTitle) kind (i64ToString seq)
    (some "no model configured; re-tried when one appears") none)
  return ()

/-- A vector's ranking of the classes under a root that have a centroid. -/
def rankUnder (e : Embedder V C F) (centroids : String → Option C) (v : V) (under : List String) :
    List (String × F) :=
  e.rank v (under.filterMap fun id => (centroids id).map fun c => (id, c))

/-- What the ranking makes of an item. -/
def placeRanked (e : Embedder V C F) (w : Sorting C) (item : LakeItem) (root : String) (v : V)
    (ranked : List (String × F)) : Pass (Sorting C) :=
  match e.decideBest ranked with
  | .file nodeId top1 top2 => do
    if ← fileNow polis run nodeId item.seq (targetKind item) (e.note top1 top2) then
      return { w with
        -- the centroid in memory keeps step for the rest of the batch
        centroids := Function.update w.centroids nodeId ((w.centroids nodeId).map fun c => e.add c v)
        out := { w.out with filedByCentroid := w.out.filedByCentroid + 1 } }
    else return w
  | .ambiguous ranked =>
    return { w with
      pending := w.pending ++ [⟨⟨item, targetKind item, root, ranked.map Prod.fst⟩, none⟩]
      out := { w.out with ambiguous := w.out.ambiguous + 1 } }
  | .noVector => return w

/-- An item without a vector. -/
def Sorting.unranked (w : Sorting C) (item : LakeItem) (root : String) : Sorting C :=
  { w with
    pending := w.pending ++ [⟨⟨item, targetKind item, root, []⟩, none⟩]
    out := { w.out with noVector := w.out.noVector + 1 } }

/-- One item of the delta. -/
def placeItem (tree : List NodeRow) (w : Sorting C) (item : LakeItem) : Pass (Sorting C) :=
  if !fileable item then pure { w with skipped := w.skipped ++ [item] }
  else do
    let w := { w with out := { w.out with considered := w.out.considered + 1 } }
    let root := resolveRoot polis.host item (rootsOf tree)
    let under ← walkUnder tree root
    match polis.embedder with
    | none => return w.unranked item root
    | some e =>
      match ← e.itemVector (targetKind item) item.seq with
      | none => return w.unranked item root
      | some v => placeRanked polis run e w item root v (rankUnder e w.centroids v under)

/-! ### The members of the inbox -/

/-- `bare_item` -/
def bareItem (seq : ℤ) (kind : String) (body : Option String) : LakeItem :=
  ⟨seq, 0, kind, none, none, none, none, none, none,
    if kind = "browse_event" then some "browse_event" else none, none, body, none, none, none, none⟩

/-- A member's ranking, its own inbox left out. -/
def rankMember (tree : List NodeRow) (centroids : String → Option C) (row : InboxLink) :
    Pass (List (String × F)) :=
  match polis.embedder with
  | none => pure []
  | some e => do
    match ← e.itemVector row.kind row.seq with
    | none => return []
    | some v =>
      let under ← walkUnder tree row.root
      return rankUnder e centroids v (under.filter fun id => id ≠ row.inboxId)

/-- One member of `~inbox` that is offered again. -/
def reoffer (tree : List NodeRow) (centroids : String → Option C) (pending : List Held)
    (row : InboxLink) : Pass (List Held) := do
  let s ← get
  match polis.itemText s row.kind row.seq with
  | none => return pending
  | some text =>
    let item := bareItem row.seq (if row.kind = "prompt" then "prompt" else "browse_event") (some text)
    let ranked ← rankMember polis tree centroids row
    return pending ++
      [⟨⟨item, row.kind, row.root, ranked.map Prod.fst⟩, some (row.link, row.inboxId)⟩]

/-! ### The model's batch -/

/-- An item that is not filed: a new one goes to its root's inbox, a member stays. -/
def park (out : FilingOutcome) (p : Held) : Pass FilingOutcome :=
  match p.inboxLink with
  | some _ => pure out
  | none => do
    inbox polis run p.root p.item.seq p.kind
    return { out with inboxed := out.inboxed + 1 }

/-- The vector that a link's class would take in. -/
def vectorOf (kind : String) (seq : ℤ) : Pass (Option V) :=
  match polis.embedder with
  | none => pure none
  | some e => e.itemVector kind seq

/-- What the reply's operations make of an item; the last one of its seq counts. -/
def settle (ops : List BatchOp) (out : FilingOutcome) (p : Held) : Pass FilingOutcome :=
  match ops.reverse.find? fun op => op.seq = p.item.seq with
  | some (.file _ nodeId) => do
    let _ ← vectorOf polis p.kind p.item.seq
    if ← fileNow polis run nodeId p.item.seq p.kind "filed by the model from the candidates shown" then
      match p.inboxLink with
      | some (link, _) => do
        modify fun s => s.retireLink link run (some nodeId)
        return { out with refiledFromInbox := out.refiledFromInbox + 1 }
      | none => return { out with filedByModel := out.filedByModel + 1 }
    else return out
  | _ => park polis run out p

/-- The titles of the tree, the last row of an id counting. -/
def titlesOf (tree : List NodeRow) (id : String) : Option String :=
  (tree.reverse.find? fun n => n.id = id).map NodeRow.title

/-- `run_memory_agent`, in its turn. -/
def ask (agent : Agent) (call : ℕ) (prompt : List Char) : Pass (Option (List Char)) :=
  modifyGet fun s => agent.run call prompt s

/-- What is taken from the reply, if there is one. -/
def Agent.opsOf (agent : Agent) (shown : Shown) : Option (List Char) → List BatchOp
  | some text => parseBatchReply agent.parse text shown
  | none => []

/-- One more call. -/
def FilingOutcome.called (out : FilingOutcome) (prompt : List Char) : FilingOutcome :=
  { out with
    promptBytes := out.promptBytes + (String.ofList prompt).utf8ByteSize
    llmCalls := out.llmCalls + 1 }

/-- One batch. -/
def fileBatch (agent : Agent) (tree : List NodeRow) (out : FilingOutcome) (batch : List Held) :
    Pass FilingOutcome := do
  let built :=
    buildBatchPrompt (batch.map Held.toPending) (titlesOf tree) tree (agent.nonce out.llmCalls)
  let reply ← ask agent out.llmCalls built.1
  batch.foldlM (settle polis run (agent.opsOf built.2 reply)) (out.called built.1)

/-- `slice::chunks` -/
def chunks {α : Type} (size : ℕ) (xs : List α) : List (List α) :=
  (List.range ((xs.length + size - 1) / size)).map fun k => (xs.drop (k * size)).take size

/-! ### The pass -/

/-- The centroids at the start. -/
def centroidsOf (s : Store) : String → Option C :=
  match polis.embedder with
  | none => fun _ => none
  | some e => e.centroids s

/-- What waits: the items held, and the members of `~inbox` if there is a model. -/
def gather (tree : List NodeRow) (w : Sorting C) : Pass (List Held) :=
  match polis.agent with
  | none => pure w.pending
  | some _ => do
    let s ← get
    (s.inboxLinks inboxTitle inboxRetryMax).foldlM (reoffer polis tree w.centroids) w.pending

/-- What becomes of them. -/
def fileRest (tree : List NodeRow) (w : Sorting C) (pending : List Held) : Pass FilingOutcome :=
  if w.out.consolidationDue then
    -- the classifier sees them itself; members stay until a plain run
    return { w.out with
      leftover := ((pending.filter fun p => p.inboxLink.isNone).map fun p => p.item) ++ w.skipped }
  else
    match polis.agent with
    | some agent => (chunks batchMax pending).foldlM (fileBatch polis run agent tree) w.out
    | none => pending.foldlM (park polis run) w.out

/-- `file_delta`, from the answer of `consolidation_due`. -/
def fileTier (tree : List NodeRow) (delta : List LakeItem) (due : Bool) : Pass FilingOutcome := do
  let s ← get
  let w ← delta.foldlM (placeItem polis run tree) ⟨centroidsOf polis s, [], [], .start due⟩
  let pending ← gather polis tree w
  let out ← fileRest polis run tree w pending
  -- every row is accepted when it is made, so nothing is left to accept
  return { out with skipped := w.skipped.length }

/-- `file_delta` -/
def fileDelta (tree : List NodeRow) (delta : List LakeItem) (m : MetaTable) :
    MetaTable × Pass FilingOutcome :=
  let (due, m) := consolidationDue m polis.agent.isSome
  (m, fileTier polis run tree delta due)

end

end Filing
end PolisMemory
