/-
# The cursor of the basic filing

`basic_filing_once` of `crates/polis-memory/src/gardener.rs`: between the organize runs
a pass without a model files what is new, 40 items at a time, and moves a cursor of
its own behind them. It takes the items of its window that the tier handles and no
live link names (`nodes_linking_seq`), makes the roots that are missing
(`seed_class_roots`) and runs the filing tier; the cursor moves only if that returns.

Nothing is passed over: an item at or below the cursor was in the window of a pass
that returned, and that pass left it filed under a live class, unless its source is
forgotten (`passed_over_filed`). Other writers come between the passes and into one of
them, between its reading of the window and the rest; a pass that fails, is
interrupted or has no lease is one of them too, since it leaves the cursor. The run's row,
whose mode is not among those of the model, is left out, and its number is an argument.

Key definitions: `nodesLinkingSeq`, `seedClassRoots`, `Freshener`,
`Freshener.basicFilingOnce`, `Freshener.Reach`.
Key theorems: `kept_seedClassRoots`, `rest_fileTier`, `Freshener.Passed.filingOnce`,
`passed_over_filed`.
-/
import PolisMemory.Placements
import PolisMemory.Windows

namespace PolisMemory

open Filing Keeper Passes Staging Store Tables

/-- `CURSOR` -/
def freshnessCursor : String := "polis.freshness.filedSeq"

/-- How many items a pass reads. -/
def freshnessWindow : ℕ := 40

/-- The cursor, 0 if there is none that parses. -/
def MetaTable.filedSeq (m : MetaTable) : ℤ := ((m freshnessCursor).bind parseI64).getD 0

namespace Store

/-- The link kinds that `nodes_linking_seq` reads. -/
def linkingKinds : List String := ["prompt", "decision", "ledger", "resolution", "approval", "review_verdict"]

/-- `nodes_linking_seq` -/
def nodesLinkingSeq (s : Store) (seq : ℤ) : List (String × String) :=
  s.links.rows.filterMap fun l =>
    if l.live ∧ l.targetKind ∈ linkingKinds ∧ l.targetId = i64ToString seq then
      (s.liveNode? l.nodeId).map fun n => (n.id, n.title)
    else none

/-- A root's row. -/
def seedRow (now : ℤ) (root : String × String × Option String) : NodeRow :=
  { newRow now .node none root.2.1 none "classifier" root.1 with projectPath := root.2.2 }

/-- `seed_class_roots` -/
def seedClassRoots (s : Store) (now : ℤ) (roots : List (String × String × Option String)) : Store :=
  { s with nodes := roots.foldl (fun nodes root => nodes.insertOrIgnore (seedRow now root)) s.nodes }

end Store

/-- `Path::file_name` -/
def fileName (path : String) : Option String :=
  ((path.splitOn "/").filter fun part => part ≠ "" ∧ part ≠ ".").getLast?.filter fun part => part ≠ ".."

/-- `seed_root_rows` -/
def seedRootRows (h : Host) (paths : List String) : List (String × String × Option String) :=
  (paths.map fun path => (rootIdForPath h path, (fileName path).getD path, some path)) ++
    [(generalRootId, "~general", none)]

/-- With the classes, links and journal of another store. -/
def Lake.setCatalog (lake : Lake) (s : Store) : Lake :=
  { lake with
    base := { lake.base with nodes := s.nodes, links := s.links, runOps := s.runOps, minted := s.minted }
    fromOne := lake.fromOne }

/-! ### The passes -/

/-- The lake, `polis_meta`, and of each pass that returned its window and the store it
left, the newest first. -/
structure Freshener where
  lake : Lake
  table : MetaTable
  log : List (List LakeItem × Store)

namespace Freshener

/-- What a pass reads first. -/
def window (x : Freshener) : List LakeItem := x.lake.lakeItemsSince x.table.filedSeq freshnessWindow

/-- The items of the window that it files. -/
def delta (window : List LakeItem) (s : Store) : List LakeItem :=
  window.filter fun item => fileable item && (s.nodesLinkingSeq item.seq).isEmpty

/-- Without a model and without an embedder. -/
def basic (h : Host) (now : ℤ) : Polis Unit Unit Unit := ⟨h, now, none, none, fun _ _ _ => none⟩

/-- The filing of a pass, once it has its run. -/
def pass (h : Host) (now run : ℤ) (paths : List String) (x : Freshener) (s : Store) :
    MetaTable × EStateM.Result Halt Store FilingOutcome :=
  let seeded := s.seedClassRoots now (seedRootRows h paths)
  let (m, filing) := fileDelta (basic h now) run seeded.listClassNodes (delta x.window s) x.table
  (m, filing seeded)

/-- `basic_filing_once`; the window is read in one lake and the rest in a later one. -/
def basicFilingOnce (h : Host) (now run : ℤ) (paths : List String) (x : Freshener) (later : Lake) :
    Freshener :=
  match x.window.getLast? with
  | none => { x with lake := later }
  | some last =>
    match x.pass h now run paths later.base with
    | (m, .ok _ s) =>
      { lake := later.setCatalog s
        table := m.set freshnessCursor (i64ToString last.seq)
        log := (x.window, s) :: x.log }
    | (m, .error _ s) => { x with lake := later.setCatalog s, table := m }

/-- What hangs is well hung, and the root that every tree has is not retired. -/
structure Sound (s : Store) : Prop where
  integral : s.Integral
  general : ∀ n, s.nodes.get? generalRootId = some n → n.live = true

/-- What can have been: other writers, which leave the cursor and the store sound, and
passes, each with a run of its own. -/
inductive Reach (h : Host) (x₀ : Freshener) : Freshener → Prop
  | start : Reach h x₀ x₀
  | others {x : Freshener} {lake : Lake} {table : MetaTable} : Reach h x₀ x → x.lake.Grown lake →
    table freshnessCursor = x.table freshnessCursor → Reach h x₀ { x with lake := lake, table := table }
  | filing {x : Freshener} {later : Lake} {now run : ℤ} {paths : List String} : Reach h x₀ x →
    x.lake.Grown later → Sound later.base → later.base.runSourceForgotten run = false →
    Reach h x₀ (x.basicFilingOnce h now run paths later)

end Freshener

/-! ### The roots -/

section roots

variable {s : Store} {now : ℤ} {roots : List (String × String × Option String)}

/-- The row that is there stays, and else the first of that id is made. -/
theorem get?_seedClassRoots (k : String) : (s.seedClassRoots now roots).nodes.get? k =
    (s.nodes.get? k).or ((roots.find? fun root => root.1 = k).map (seedRow now)) := by
  induction roots generalizing s with
  | nil => exact (Option.or_none).symm
  | cons root roots ih =>
    calc (s.seedClassRoots now (root :: roots)).nodes.get? k
        = ((s.nodes.insertOrIgnore (seedRow now root)).get? k).or
            ((roots.find? fun root => root.1 = k).map (seedRow now)) :=
          @ih { s with nodes := s.nodes.insertOrIgnore (seedRow now root) }
      _ = _ := by
        rw [Table.get?_insertOrIgnore, Option.or_assoc, List.find?_cons]
        by_cases hk : root.1 = k
        · simp [hk, seedRow, newRow]
        · simp [hk, seedRow, newRow]

/-- A root that is made hangs on nothing. -/
theorem kept_seedClassRoots (s : Store) (now : ℤ) (roots : List (String × String × Option String)) :
    Kept s (s.seedClassRoots now roots) := by
  have hlive : ∀ q, s.Live q → (s.seedClassRoots now roots).Live q := by
    intro q hq
    obtain ⟨a, ha, hal⟩ := nodeExists_iff.mp hq
    exact nodeExists_iff.mpr ⟨a, by rw [get?_seedClassRoots, ha, Option.some_or], hal⟩
  refine Onward.kept ⟨hlive, le_rfl, fun l hl _ => ⟨l, hl, rfl, rfl, rfl⟩, fun hs => ⟨?_, ?_, ?_⟩,
    fun _ h => h, fun _ h => h⟩ fun l hl _ => hl
  · intro a ha hal q hq
    have hget := Table.mem_rows.mp ha
    rw [get?_seedClassRoots] at hget
    cases hold : s.nodes.get? a.id with
    | some a' =>
      rw [hold, Option.some_or, Option.some.injEq] at hget
      exact hlive q (hs.parent (hget ▸ hold) hal hq)
    | none =>
      rw [hold, Option.none_or, Option.map_eq_some_iff] at hget
      obtain ⟨root, -, rfl⟩ := hget
      cases hq
  · exact fun r hr hrl => hlive _ (hs.links r hr hrl)
  · exact fun r hr hrl => hlive _ (hs.observations r hr hrl)

/-- After the roots are made, the general one is live if it was not retired. -/
theorem live_seedRootRows (h : Host) (paths : List String)
    (hs : ∀ n, s.nodes.get? generalRootId = some n → n.live = true) :
    (s.seedClassRoots now (seedRootRows h paths)).Live generalRootId := by
  cases hold : s.nodes.get? generalRootId with
  | some n => exact nodeExists_iff.mpr ⟨n, by rw [get?_seedClassRoots, hold, Option.some_or], hs n hold⟩
  | none =>
    have hfound : ((seedRootRows h paths).find? fun root => root.1 = generalRootId).isSome := by
      rw [List.find?_isSome]
      exact ⟨_, List.mem_append_right _ List.mem_cons_self, decide_eq_true rfl⟩
    obtain ⟨root, hroot⟩ := Option.isSome_iff_exists.mp hfound
    refine nodeExists_iff.mpr ⟨seedRow now root, ?_, rfl⟩
    rw [get?_seedClassRoots, hold, Option.none_or, hroot, Option.map_some]

end roots

/-! ### What a pass does not touch -/

/-- All but the classes, the links, the journal and the ids that were drawn. -/
def Store.Rest (s s' : Store) : Prop :=
  s' = { s with nodes := s'.nodes, links := s'.links, runOps := s'.runOps, minted := s'.minted }

instance : IsPreorder Store Store.Rest where
  refl _ := rfl
  trans s₁ s₂ s₃ h h' := by
    show s₃ = _
    rw [h', h]

section rest

variable {h : Host} {s s' : Store} {now run : ℤ}

theorem rest_createChild {parentId title id : String}
    (hc : s.createChild h now (some run) parentId title = .ok (s', id)) : Rest s s' := by
  obtain ⟨⟨s₁, id⟩, hi, hc⟩ := bind_eq_ok.mp hc
  obtain ⟨s₂, hj, hc⟩ := bind_eq_ok.mp hc
  cases hc
  obtain ⟨-, nodes, -, rfl⟩ := insertNode_ok hi
  obtain ⟨ops, rfl, -⟩ := journalOp_ok hj
  rfl

theorem rest_filingNode {parentId node : String} {subClass : Option String} {made : Bool}
    (hn : s.filingNode h now (some run) parentId subClass = .ok (s', node, made)) : Rest s s' := by
  unfold filingNode at hn
  split at hn
  · cases hn
    rfl
  split_ifs at hn
  · cases hn
    rfl
  split at hn
  · cases hn
    rfl
  · obtain ⟨⟨s₁, id⟩, hc, hn⟩ := bind_eq_ok.mp hn
    cases hn
    exact rest_createChild hc

theorem rest_fileLink {node targetKind targetId : String} {note : Option String} {linked : Bool}
    (hl : s.fileLink now (some run) node targetKind targetId note = .ok (s', linked)) : Rest s s' := by
  unfold fileLink at hl
  split at hl
  · split at hl
    · cases hl
      rfl
    · obtain ⟨s₂, hj, hl⟩ := bind_eq_ok.mp hl
      cases hl
      obtain ⟨ops, rfl, -⟩ := journalOp_ok hj
      rfl
  · split at hl
    · cases hl
    · obtain ⟨s₂, hj, hl⟩ := bind_eq_ok.mp hl
      cases hl
      obtain ⟨ops, rfl, -⟩ := journalOp_ok hj
      rfl

theorem rest_stageFile {parentId targetKind targetId : String} {subClass note rationale : Option String}
    {out : StagedOutcome}
    (hp : s.stageProposal h now (some run)
      (.file parentId subClass targetKind targetId note rationale) = .ok (s', out)) : Rest s s' := by
  unfold stageProposal at hp
  split_ifs at hp
  · cases hp
    rfl
  dsimp only at hp
  split_ifs at hp
  · cases hp
    rfl
  · obtain ⟨⟨s₁, node, made⟩, hn, hp⟩ := bind_eq_ok.mp hp
    obtain ⟨⟨s₂, linked⟩, hl, hp⟩ := bind_eq_ok.mp hp
    cases hp
    exact IsTrans.trans _ _ _ (rest_filingNode hn) (rest_fileLink hl)

theorem rest_park (out : FilingOutcome) (p : Held) :
    Keeps Rest (park (Freshener.basic h now) run out p) := by
  unfold park
  split
  · exact .pure _
  · refine .bind (.bind (.tx fun s s' a hstage => rest_stageFile (mapError_eq_ok hstage)) fun _ =>
      .pure _) fun _ => .pure _

theorem rest_placeItem {C : Type} (tree : List NodeRow) (w : Sorting C) (item : LakeItem) :
    Keeps Rest (placeItem (⟨h, now, none, none, fun _ _ _ => none⟩ : Polis Unit C Unit) run tree w item) := by
  unfold placeItem
  split
  · exact .pure _
  · refine .bind ?_ fun under => .pure _
    unfold walkUnder
    split
    · exact .pure _
    · exact .throw _

/-- **A basic pass writes** the classes, the links and the journal. -/
theorem rest_fileTier (tree : List NodeRow) (delta : List LakeItem) :
    Keeps Rest (fileTier (Freshener.basic h now) run tree delta false) := by
  refine .bind .get fun s => .bind (.foldlM (fun w item => rest_placeItem tree w item) _ _) fun w => ?_
  refine .bind (.pure _) fun pending => .bind ?_ fun out => .pure _
  unfold fileRest
  split
  · exact .pure _
  · exact .foldlM (fun out p => rest_park out p) _ _

end rest

/-! ### The history -/

namespace Freshener

variable {h : Host} {x₀ x : Freshener} {lake : Lake} {table : MetaTable}

/-- A link that is named files its item. -/
theorem placed_of_linking {s : Store} {seq : ℤ} (hs : s.nodesLinkingSeq seq ≠ []) :
    ∃ kind, s.Placed kind seq := by
  obtain ⟨node, hnode⟩ := List.exists_mem_of_ne_nil _ hs
  obtain ⟨l, hl, hread⟩ := List.mem_filterMap.mp hnode
  split_ifs at hread with hcond
  obtain ⟨n, hn, -⟩ := Option.map_eq_some_iff.mp hread
  exact ⟨l.targetKind, l, hl, hcond.1, rfl, hcond.2.2, nodeExists_iff.mpr ⟨n, liveNode?_eq_some.mp hn⟩⟩

theorem fileable_congr {it old : LakeItem} (hkind : old.kind = it.kind) (href : old.refKind = it.refKind) :
    fileable old = fileable it := by
  unfold fileable
  rw [hkind, href]

/-- What has been passed: the cursor is not ahead of the ledger, and each item that it
has passed was in a window whose pass has left it filed. -/
structure Passed (x₀ x : Freshener) : Prop where
  head : x.table.filedSeq ≤ max x₀.table.filedSeq (maxLedgerSeq x.lake.base.ledger)
  filed : ∀ it ∈ x.lake.everyItem, x₀.table.filedSeq < it.seq → it.seq ≤ x.table.filedSeq →
    fileable it = true → ∃ entry ∈ x.log, (∃ old ∈ entry.1, old.seq = it.seq) ∧
      (entry.2.sourceForgotten it.seq = true ∨ ∃ kind, entry.2.Placed kind it.seq)

/-- Where the lake grows and the cursor stays, nothing more is passed. -/
theorem Passed.others (hx : Passed x₀ x) (hlake : x.lake.Grown lake)
    (htable : table freshnessCursor = x.table freshnessCursor) :
    Passed x₀ { x with lake := lake, table := table } := by
  have hcursor : table.filedSeq = x.table.filedSeq := by
    unfold MetaTable.filedSeq
    rw [htable]
  constructor
  · calc table.filedSeq = x.table.filedSeq := hcursor
      _ ≤ max x₀.table.filedSeq (maxLedgerSeq x.lake.base.ledger) := hx.head
      _ ≤ _ := max_le_max le_rfl hlake.head_le
  · intro it hit hlo hhi hfile
    have hle : it.seq ≤ x.table.filedSeq := hcursor ▸ hhi
    have hhead := hx.head
    obtain ⟨old, hold, hseq, hkind, href⟩ := hlake.old_item hit (by omega)
    rw [← hseq] at hlo hle ⊢
    exact hx.filed old hold hlo hle ((fileable_congr hkind href).trans hfile)

/-- What a pass that returns makes of its window. -/
theorem pass_spec {s s' : Store} {now run : ℤ} {paths : List String} {m : MetaTable}
    {out : FilingOutcome} (hsound : Sound s) (hrun : s.runSourceForgotten run = false)
    (hpass : x.pass h now run paths s = (m, .ok out s')) {old : LakeItem} (hold : old ∈ x.window)
    (hseq : IsI64 old.seq) (hfile : fileable old = true) :
    s'.sourceForgotten old.seq = true ∨ ∃ kind, s'.Placed kind old.seq := by
  have hseeded := kept_seedClassRoots s now (seedRootRows h paths)
  set seeded := s.seedClassRoots now (seedRootRows h paths) with hseed
  have htier : fileTier (basic h now) run seeded.listClassNodes (delta x.window s) false seeded =
      .ok out s' := (Prod.mk.inj hpass).2
  have hrest : Rest seeded s' := ((rest_fileTier _ _ seeded).returns out s' htier)
  obtain ⟨hkept, hall⟩ := (leads_fileTier (fun _ hagent => by cases hagent)).returns out s' htier
  by_cases hlinked : s.nodesLinkingSeq old.seq = []
  · cases hforgotten : seeded.sourceForgotten old.seq with
    | true =>
      rw [hrest]
      exact .inl hforgotten
    | false =>
      have hready : Filing.Ready run seeded.listClassNodes seeded := by
        refine ⟨hseeded.integral hsound.integral, fun n hn => ?_, live_seedRootRows h paths hsound.general,
          hseeded.runs run hrun⟩
        have hn' := (List.mem_insertionSort _).mp hn
        obtain ⟨hget, hlive⟩ := Table.mem_select.mp hn'
        exact nodeExists_iff.mpr ⟨n, hget, hlive⟩
      have hdelta : old ∈ delta x.window s := List.mem_filter.mpr ⟨hold, by simp [hfile, hlinked]⟩
      rcases (hall old hdelta).1 hfile hready ⟨hseq, hforgotten⟩ with hplaced | hdue
      · exact .inr ⟨_, hplaced⟩
      · cases hdue.1
  · obtain ⟨kind, hplaced⟩ := placed_of_linking hlinked
    exact .inr ⟨kind, hkept.placed _ _ hseq (hseeded.placed _ _ hseq hplaced)⟩

/-- A pass. -/
theorem Passed.filingOnce (hx : Passed x₀ x) {later : Lake} (hlater : x.lake.Grown later)
    {now run : ℤ} {paths : List String} (hsound : Sound later.base)
    (hrun : later.base.runSourceForgotten run = false)
    (hseqs : ∀ e ∈ later.base.ledger.rows, IsI64 e.seq) :
    Passed x₀ (x.basicFilingOnce h now run paths later) := by
  unfold basicFilingOnce
  split
  · exact hx.others hlater rfl
  · rename_i last hlast
    split
    · rename_i m out s' hpass
      have hm : m = (consolidationDue x.table false).2 := ((Prod.mk.inj hpass).1).symm
      have hmem : last ∈ x.window := List.mem_of_getLast? hlast
      have hlastitem : last ∈ x.lake.everyItem := by
        rw [window, Lake.lakeItemsSince_eq] at hmem
        exact (Lake.mem_left.mp (List.mem_of_mem_take hmem)).1
      have hhead := Lake.seq_le_head hlastitem
      obtain ⟨e, he, -, rfl⟩ := Lake.mem_everyItem.mp hlastitem
      obtain ⟨new, hnew⟩ := hlater.grows
      have hrange : IsI64 e.seq := hseqs e (hnew ▸ List.mem_append_left new he)
      have hcursor : MetaTable.filedSeq (m.set freshnessCursor (i64ToString (x.lake.item e).seq)) = e.seq := by
        unfold MetaTable.filedSeq MetaTable.set
        rw [Function.update_self, Option.bind_some]
        exact congrArg (Option.getD · 0) (parseI64_i64ToString hrange.1 hrange.2)
      constructor
      · calc MetaTable.filedSeq (m.set freshnessCursor (i64ToString (x.lake.item e).seq)) = e.seq := hcursor
          _ ≤ maxLedgerSeq later.base.ledger := hhead.trans hlater.head_le
          _ ≤ _ := le_max_right _ _
      · intro it hit hlo hhi hfile
        have hle : it.seq ≤ e.seq := hcursor ▸ hhi
        obtain ⟨old, hold, hseq, hkind, href⟩ := hlater.old_item hit (hle.trans hhead)
        have hfile' := (fileable_congr hkind href).trans hfile
        rw [← hseq] at hlo hle ⊢
        by_cases hbehind : old.seq ≤ x.table.filedSeq
        · obtain ⟨entry, hentry, hfiled⟩ := hx.filed old hold hlo hbehind hfile'
          exact ⟨entry, List.mem_cons_of_mem _ hentry, hfiled⟩
        · have hin : old ∈ x.window := Lake.mem_delta_of_le hold (by omega) hlast hle
          obtain ⟨e', he', -, rfl⟩ := Lake.mem_everyItem.mp hold
          have hrange' : IsI64 e'.seq := hseqs e' (hnew ▸ List.mem_append_left new he')
          exact ⟨_, List.mem_cons_self, ⟨_, hin, rfl⟩, pass_spec hsound hrun hpass hin hrange' hfile'⟩
    · rename_i m error s' hpass
      have hm : m = (consolidationDue x.table false).2 := ((Prod.mk.inj hpass).1).symm
      have hgrown : x.lake.Grown (later.setCatalog s') := ⟨hlater.grows, hlater.items⟩
      have hkey : freshnessCursor ≠ organizeCountKey := by decide
      refine hx.others hgrown ?_
      rw [hm]
      exact Function.update_of_ne hkey (some (i64ToString (x.table.count + 1))) x.table

/-- A pass leaves the ledger as it finds it. -/
theorem ledger_basicFilingOnce (now run : ℤ) (paths : List String) (later : Lake) :
    (x.basicFilingOnce h now run paths later).lake.base.ledger = later.base.ledger := by
  unfold basicFilingOnce
  split
  · rfl
  · split <;> rfl

theorem Reach.passed (hx : Reach h x₀ x) (hseqs : ∀ e ∈ x.lake.base.ledger.rows, IsI64 e.seq) :
    Passed x₀ x := by
  induction hx with
  | start => exact ⟨le_max_left _ _, fun it _ hlo hhi => absurd (hlo.trans_le hhi) (lt_irrefl _)⟩
  | others hx hlake htable ih =>
    obtain ⟨new, hnew⟩ := hlake.grows
    exact (ih fun e he => hseqs e (hnew ▸ List.mem_append_left new he)).others hlake htable
  | filing hx hlater hsound hrun ih =>
    rw [ledger_basicFilingOnce] at hseqs
    obtain ⟨new, hnew⟩ := hlater.grows
    exact (ih fun e he => hseqs e (hnew ▸ List.mem_append_left new he)).filingOnce hlater hsound hrun
      hseqs

end Freshener

/-- Two prompts, and a pass over them. -/
def twoPassed : Freshener :=
  Freshener.basicFilingOnce Host.plain 5 1 [] ⟨twoPrompts, fun _ => none, []⟩ twoPrompts

end PolisMemory
