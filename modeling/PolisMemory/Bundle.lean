/-
# The verifier of an exported bundle

`crates/polis-core/src/bundle.rs`: `verify_bundle` sorts the events by
`seq`, recomputes every event's hash, and only if all of them agree and the
events are a contiguous chain from 1 walks the links from the genesis hash
and compares the last event's hash with the pinned head. Any other list of
events that recompute passes as a scoped bundle, its links not looked at.

Two bundles that pass as full chains under one pinned head hold the same
events (`sortedEvents_eq_of_head`). Over a table whose keys are `1..n` the two
verifiers agree on what is whole (`verifyBundle_verifyLedgerChain`); where it
is not they may stop at different events, the store at the first broken link
or hash, the bundle at the first broken hash.

Key definitions: `ContextBundle`, `verifyBundle`, `isFullChain`, `bundleOf`.
Key theorems: `verifyBundle_fullChain_ok`, `isFullChain_iff`,
`sortedEvents_of_perm`.
-/
import PolisMemory.Chain

namespace PolisMemory

open HashChain

/-- What the verifier reads of a bundle. -/
structure ContextBundle where
  headHash : String
  events : List LedgerEventRow

/-- The result of `verify_bundle`. -/
structure BundleVerdict where
  ok : Bool
  checked : ℕ
  firstBadSeq : Option ℤ
  fullChain : Bool
  recomputedHead : Option String
  deriving DecidableEq, Repr

/-- `sort_by_key(|e| e.seq)`, a stable sort. -/
def sortedEvents (b : ContextBundle) : List LedgerEventRow :=
  b.events.mergeSort fun x y => decide (x.seq ≤ y.seq)

/-- `windows(2)`: each `seq` is one more than the one before. -/
def contiguous : List LedgerEventRow → Bool
  | x :: y :: rest => decide (y.seq = x.seq + 1) && contiguous (y :: rest)
  | _ => true

/-- A contiguous chain from seq 1: a full export. -/
def isFullChain (events : List LedgerEventRow) : Bool :=
  match events with
  | [] => false
  | e :: _ => decide (e.seq = 1) && contiguous events

variable (sha256 : String → String)

/-- `verify_bundle`. -/
def verifyBundle (b : ContextBundle) : BundleVerdict :=
  let events := sortedEvents b
  match firstWrong (rowShape sha256) events with
  | some e => ⟨false, events.length, some e.seq, false, none⟩
  | none =>
    let recomputedHead := events.getLast?.map LedgerEventRow.entryHash
    if isFullChain events then
      match firstLoose (rowShape sha256) genesisPrev events with
      | some e => ⟨false, events.length, some e.seq, true, none⟩
      | none =>
        let headOk := decide (recomputedHead = some b.headHash)
        ⟨headOk, events.length, if headOk then none else events.getLast?.map LedgerEventRow.seq,
          true, recomputedHead⟩
    else ⟨true, events.length, none, false, recomputedHead⟩

/-- The export of a whole table: its events and the last one's hash. -/
def bundleOf (t : LedgerTable) : ContextBundle where
  headHash := (t.last.map LedgerEventRow.entryHash).getD genesisPrev
  events := t.rows

/-! ### The outcomes -/

theorem verifyBundle_of_wrong {b : ContextBundle} {e : LedgerEventRow}
    (hw : firstWrong (rowShape sha256) (sortedEvents b) = some e) :
    verifyBundle sha256 b = ⟨false, (sortedEvents b).length, some e.seq, false, none⟩ := by
  simp only [verifyBundle, hw]

theorem verifyBundle_of_scoped {b : ContextBundle}
    (hw : firstWrong (rowShape sha256) (sortedEvents b) = none)
    (hf : isFullChain (sortedEvents b) = false) : verifyBundle sha256 b =
      ⟨true, (sortedEvents b).length, none, false,
        (sortedEvents b).getLast?.map LedgerEventRow.entryHash⟩ := by
  simp only [verifyBundle, hw, hf, Bool.false_eq_true, if_false]

theorem verifyBundle_of_loose {b : ContextBundle} {e : LedgerEventRow}
    (hw : firstWrong (rowShape sha256) (sortedEvents b) = none)
    (hf : isFullChain (sortedEvents b) = true)
    (hl : firstLoose (rowShape sha256) genesisPrev (sortedEvents b) = some e) :
    verifyBundle sha256 b = ⟨false, (sortedEvents b).length, some e.seq, true, none⟩ := by
  simp only [verifyBundle, hw, hf, hl, if_true]

theorem verifyBundle_of_linked {b : ContextBundle}
    (hw : firstWrong (rowShape sha256) (sortedEvents b) = none)
    (hf : isFullChain (sortedEvents b) = true)
    (hl : firstLoose (rowShape sha256) genesisPrev (sortedEvents b) = none) :
    verifyBundle sha256 b =
      let head := (sortedEvents b).getLast?.map LedgerEventRow.entryHash
      ⟨decide (head = some b.headHash), (sortedEvents b).length,
        if head = some b.headHash then none
        else (sortedEvents b).getLast?.map LedgerEventRow.seq, true, head⟩ := by
  simp only [verifyBundle, hw, hf, hl, if_true, decide_eq_true_eq]

/-! ### Full chains -/

theorem contiguous_iff : ∀ (x : LedgerEventRow) (rest : List LedgerEventRow),
    contiguous (x :: rest) = true ↔
      rest.map LedgerEventRow.seq = seqsFrom (x.seq + 1) rest.length
  | x, [] => by simp [contiguous, seqsFrom]
  | x, y :: rest => by
    simp only [contiguous, Bool.and_eq_true, decide_eq_true_eq, contiguous_iff y rest,
      List.map_cons, List.length_cons, seqsFrom, List.cons.injEq]
    exact and_congr_right fun h => by rw [h]

/-- A full chain's keys are `1..n`. -/
theorem isFullChain_iff (events : List LedgerEventRow) : isFullChain events = true ↔
    events ≠ [] ∧ events.map LedgerEventRow.seq = seqsFrom 1 events.length := by
  cases events with
  | nil => simp [isFullChain]
  | cons e rest =>
    simp only [isFullChain, Bool.and_eq_true, decide_eq_true_eq, contiguous_iff, ne_eq,
      reduceCtorEq, not_false_eq_true, true_and, List.map_cons, List.length_cons, seqsFrom,
      List.cons.injEq]
    exact and_congr_right fun h => by rw [h]

/-- A full chain ends on its length. -/
theorem seq_of_isFullChain {events : List LedgerEventRow} {e : LedgerEventRow}
    (h : isFullChain events = true) (he : events.getLast? = some e) :
    e.seq = (events.length : ℤ) := by
  obtain ⟨front, rfl⟩ := List.getLast?_eq_some_iff.mp he
  obtain ⟨-, hs⟩ := (isFullChain_iff _).mp h
  rw [List.length_append, List.length_singleton, seqsFrom_concat, List.map_append] at hs
  have hl := (List.append_inj' hs rfl).2
  simp only [List.map_cons, List.map_nil, List.cons.injEq, and_true] at hl
  rw [hl, List.length_append, List.length_singleton]
  push_cast
  omega

/-! ### What passes -/

/-- A bundle passes as a full chain if its events are one, linked from the
genesis hash to the pinned head. -/
theorem verifyBundle_fullChain_ok (b : ContextBundle) :
    (verifyBundle sha256 b).ok = true ∧ (verifyBundle sha256 b).fullChain = true ↔
      isFullChain (sortedEvents b) = true ∧ Chain (rowShape sha256) genesisPrev (sortedEvents b) ∧
        (sortedEvents b).getLast?.map LedgerEventRow.entryHash = some b.headHash := by
  rw [chain_iff, ← firstLoose_eq_none, ← firstWrong_eq_none]
  cases hw : firstWrong (rowShape sha256) (sortedEvents b) with
  | some e => simp [verifyBundle_of_wrong sha256 hw]
  | none =>
    cases hf : isFullChain (sortedEvents b) with
    | false => simp [verifyBundle_of_scoped sha256 hw hf]
    | true =>
      cases hl : firstLoose (rowShape sha256) genesisPrev (sortedEvents b) with
      | some e => simp [verifyBundle_of_loose sha256 hw hf hl]
      | none => simp [verifyBundle_of_linked sha256 hw hf hl]

theorem sortedEvents_perm (b : ContextBundle) : (sortedEvents b).Perm b.events :=
  List.mergeSort_perm _ _

/-- Events that fill a table sort to its rows. -/
theorem sortedEvents_of_perm {b : ContextBundle} {t : LedgerTable} (h : b.events.Perm t.rows) :
    sortedEvents b = t.rows := by
  have hs : (sortedEvents b).Pairwise fun x y => x.seq ≤ y.seq := by
    have hp : (sortedEvents b).Pairwise fun x y => decide (x.seq ≤ y.seq) = true :=
      List.pairwise_mergeSort
        (fun _ _ _ h1 h2 => by simp only [decide_eq_true_eq] at *; omega)
        (fun _ _ => by simp only [Bool.or_eq_true, decide_eq_true_eq]; omega) b.events
    exact hp.imp fun hxy => of_decide_eq_true hxy
  have hperm : (sortedEvents b).Perm t.rows := (sortedEvents_perm b).trans h
  exact List.Perm.eq_of_pairwise
    (fun x y hx hy h1 h2 => LedgerTable.eq_of_seq (hperm.mem_iff.mp hx) hy (le_antisymm h1 h2))
    hs (t.byKey.imp fun hxy => hxy.le) hperm

@[simp] theorem sortedEvents_bundleOf (t : LedgerTable) : sortedEvents (bundleOf t) = t.rows :=
  sortedEvents_of_perm (List.Perm.refl _)

/-- **A pinned head pins the export.** Two bundles that pass as full chains
under the same head hash hold the same events, field by field: one list is
the other's in another order, and sorted they are equal. -/
theorem sortedEvents_eq_of_head (hsha : Function.Injective sha256) {A B : ContextBundle}
    (hA : (verifyBundle sha256 A).ok = true ∧ (verifyBundle sha256 A).fullChain = true)
    (hB : (verifyBundle sha256 B).ok = true ∧ (verifyBundle sha256 B).fullChain = true)
    (hhead : A.headHash = B.headHash) :
    sortedEvents A = sortedEvents B ∧ A.events.Perm B.events := by
  obtain ⟨fA, cA, lA⟩ := (verifyBundle_fullChain_ok sha256 A).mp hA
  obtain ⟨fB, cB, lB⟩ := (verifyBundle_fullChain_ok sha256 B).mp hB
  obtain ⟨x, hx, hxh⟩ := Option.map_eq_some_iff.mp lA
  obtain ⟨y, hy, hyh⟩ := Option.map_eq_some_iff.mp lB
  have hgood : ∀ {ev : List LedgerEventRow} {e : LedgerEventRow},
      Chain (rowShape sha256) genesisPrev ev → ev.getLast? = some e →
        (rowShape sha256).good e = true := fun hc he =>
    ((chain_iff _ _ _).mp hc).2 _ (List.mem_of_getLast? he)
  -- the same last event, hence the same length
  have hxy : x = y := entry_inj sha256 hsha (hgood cA hx) (hgood cB hy)
    (hxh.trans (hhead.trans hyh.symm))
  have hlen : (sortedEvents A).length = (sortedEvents B).length := by
    have h1 := seq_of_isFullChain fA hx
    have h2 := seq_of_isFullChain fB hy
    rw [hxy, h2] at h1
    exact_mod_cast h1.symm
  have heq : sortedEvents A = sortedEvents B :=
    chain_unique (rowShape sha256) (fun _ _ => entry_inj sha256 hsha) cA cB hlen
      (lA.trans ((congrArg some hhead).trans lB.symm))
  refine ⟨heq, (sortedEvents_perm A).symm.trans ?_⟩
  rw [heq]
  exact sortedEvents_perm B

/-- A row of kind `kind` recorded at `ts`, its other fields the same everywhere. -/
def plainRow (seq ts : ℤ) (kind prevHash entryHash : String) : LedgerEventRow :=
  ⟨seq, ts, kind, "user", none, none, none, none, none, "p", prevHash, entryHash⟩

/-- A ledger of two events. -/
def twoEvents : LedgerTable where
  rows :=
    [plainRow 1 10 "prompt" genesisPrev
      "2e399490fb34b85cabda38b877296dc387c75ea543277ef6352503993bab1bcf",
    plainRow 2 20 "resolution" "2e399490fb34b85cabda38b877296dc387c75ea543277ef6352503993bab1bcf"
      "8b0d178ec2cbc8d1ce825552dc5875bda2dc4fc348299a136373412904c11363"]
  byKey := by decide

/-- SHA-256 on the texts that the two events hash. -/
def twoDigest : String → String :=
  digestOn (twoEvents.rows.map fun r => ((r.prevHash, canonicalOf r), r.entryHash))

/-- The two events' export, in either order, passes as a full chain. -/
theorem sortedEvents_eq_of_head_twoEvents :
    Function.Injective twoDigest ∧
      let A : ContextBundle := bundleOf twoEvents
      let B : ContextBundle := ⟨A.headHash, A.events.reverse⟩
      ((verifyBundle twoDigest A).ok = true ∧ (verifyBundle twoDigest A).fullChain = true) ∧
        ((verifyBundle twoDigest B).ok = true ∧ (verifyBundle twoDigest B).fullChain = true) ∧
        sortedEvents A = sortedEvents B ∧ A.events.Perm B.events := by
  have hinj : Function.Injective twoDigest := digestOn_injective (by decide) (by decide)
  have hperm : twoEvents.rows.reverse.Perm twoEvents.rows := List.reverse_perm _
  have hpass : isFullChain twoEvents.rows = true ∧
      Chain (rowShape twoDigest) genesisPrev twoEvents.rows ∧
        twoEvents.rows.getLast?.map LedgerEventRow.entryHash = some (bundleOf twoEvents).headHash :=
    ⟨by decide, by rw [twoDigest, rowShape_digestOn]; decide +kernel, by decide⟩
  have hA := (verifyBundle_fullChain_ok twoDigest (bundleOf twoEvents)).mpr
    (by rwa [sortedEvents_of_perm (t := twoEvents) (List.Perm.refl _)])
  have hB := (verifyBundle_fullChain_ok twoDigest
    ⟨(bundleOf twoEvents).headHash, (bundleOf twoEvents).events.reverse⟩).mpr
    (by rwa [sortedEvents_of_perm (t := twoEvents) hperm])
  exact ⟨hinj, hA, hB, sortedEvents_eq_of_head twoDigest hinj hA hB rfl⟩

/-! ### The two verifiers -/

theorem head_bundleOf {t : LedgerTable} (hne : t.rows ≠ []) :
    t.rows.getLast?.map LedgerEventRow.entryHash = some (bundleOf t).headHash := by
  obtain ⟨e, he⟩ := Option.ne_none_iff_exists'.mp (mt List.getLast?_eq_none_iff.mp hne)
  simp [bundleOf, LedgerTable.last, he]

/-- **The store's verifier and the bundle's agree on what is whole.** For a
non-empty table whose keys are `1..n`, whatever else of its rows is damaged:
both report ok or neither does, and if both do they report one count and one
head. If the chain is broken the store reports the first event that breaks
its link or does not recompute, the bundle the first that does not
recompute, or, where all do, the first that breaks its link; they report the
same `seq` exactly if no event before the first that does not recompute
breaks its link. -/
theorem verifyBundle_verifyLedgerChain (t : LedgerTable) (hne : t.rows ≠ [])
    (hseq : t.rows.map LedgerEventRow.seq = seqsFrom 1 t.rows.length) :
    let store := verifyLedgerChain sha256 t
    let bundle := verifyBundle sha256 (bundleOf t)
    store.ok = bundle.ok ∧
      (store.ok = true → store.checked = bundle.checked ∧ store.headHash = bundle.recomputedHead) ∧
      (store.ok = false →
        store.firstBadSeq =
            (firstBad (rowShape sha256) genesisPrev t.rows).map LedgerEventRow.seq ∧
        bundle.firstBadSeq = ((firstWrong (rowShape sha256) t.rows).or
            (firstLoose (rowShape sha256) genesisPrev t.rows)).map LedgerEventRow.seq ∧
        (store.firstBadSeq = bundle.firstBadSeq ↔
          ∀ w, firstWrong (rowShape sha256) t.rows = some w →
            Linked (rowShape sha256) genesisPrev (t.rows.takeWhile (rowShape sha256).good))) := by
  intro store bundle
  have hfull : isFullChain (sortedEvents (bundleOf t)) = true := by
    rw [sortedEvents_bundleOf]
    exact (isFullChain_iff _).mpr ⟨hne, hseq⟩
  have hstoreSeq : store.firstBadSeq =
      (firstBad (rowShape sha256) genesisPrev t.rows).map LedgerEventRow.seq :=
    walkChain_firstBadSeq sha256
  cases hw : firstWrong (rowShape sha256) t.rows with
  | some w =>
    have hb : bundle = ⟨false, _, some w.seq, false, none⟩ :=
      verifyBundle_of_wrong sha256 (by rwa [sortedEvents_bundleOf])
    have hstore : store.ok = false := by
      rw [← Bool.not_eq_true, verifyLedgerChain_ok, chain_iff, ← firstWrong_eq_none, hw]
      simp
    refine ⟨by rw [hstore, hb], fun h => absurd (hstore.symm.trans h) (by decide), fun _ =>
      ⟨hstoreSeq, by simp [hb], ?_⟩⟩
    simp only [Option.some.injEq, forall_eq', hb, hstoreSeq]
    rw [← firstBad_eq_firstWrong (rowShape sha256) hw, Option.map_eq_some_iff]
    -- one `seq` means one row
    have hwm : w ∈ t.rows := List.mem_of_find?_eq_some hw
    constructor
    · rintro ⟨b, hb, hbs⟩
      rwa [← LedgerTable.eq_of_seq (mem_of_firstBad _ hb) hwm hbs]
    · intro h
      exact ⟨w, h, rfl⟩
  | none =>
    have hgood := (firstWrong_eq_none (rowShape sha256) t.rows).mp hw
    have hbad := firstBad_eq_firstLoose (rowShape sha256) (p := genesisPrev) hgood
    cases hl : firstLoose (rowShape sha256) genesisPrev t.rows with
    | some e =>
      have hb : bundle = ⟨false, _, some e.seq, true, none⟩ :=
        verifyBundle_of_loose sha256 (by rwa [sortedEvents_bundleOf]) hfull
          (by rwa [sortedEvents_bundleOf])
      have hstore : store.ok = false := by
        rw [← Bool.not_eq_true, verifyLedgerChain_ok, ← firstBad_eq_none, hbad, hl]
        simp
      refine ⟨by rw [hstore, hb], fun h => absurd (hstore.symm.trans h) (by decide), fun _ =>
        ⟨hstoreSeq, by simp [hb], ?_⟩⟩
      simp [hstoreSeq, hbad, hl, hb]
    | none =>
      have hs : store = ⟨true, 0 + t.rows.length, none,
          (t.rows.getLast?.map LedgerEventRow.entryHash).or none⟩ :=
        walkChain_eq_of_chain sha256 ((firstBad_eq_none _ _ _).mp (hbad.trans hl))
      have hb := verifyBundle_of_linked sha256 (b := bundleOf t) (by rwa [sortedEvents_bundleOf])
        hfull (by rwa [sortedEvents_bundleOf])
      simp only [sortedEvents_bundleOf, head_bundleOf hne] at hb
      have hb' : bundle = _ := hb
      simp [hs, hb', head_bundleOf hne]

/-- The two whole events have one count and one head for both verifiers. -/
theorem verifyBundle_verifyLedgerChain_twoEvents :
    (verifyLedgerChain twoDigest twoEvents).ok = (verifyBundle twoDigest (bundleOf twoEvents)).ok ∧
      (verifyLedgerChain twoDigest twoEvents).headHash =
        (verifyBundle twoDigest (bundleOf twoEvents)).recomputedHead := by
  obtain ⟨hok, hsame, -⟩ := verifyBundle_verifyLedgerChain twoDigest twoEvents
    (by decide) (by decide)
  have hstore : (verifyLedgerChain twoDigest twoEvents).ok = true := by
    rw [verifyLedgerChain_ok, twoDigest, rowShape_digestOn]
    decide +kernel
  exact ⟨hok, (hsame hstore).2⟩

/-- Three events: the second follows the genesis hash and recomputes, the
third had its `ts` changed from 30 to 31. -/
def looseThenWrong : LedgerTable where
  rows :=
    [plainRow 1 10 "prompt" genesisPrev
      "2e399490fb34b85cabda38b877296dc387c75ea543277ef6352503993bab1bcf",
    plainRow 2 20 "resolution" genesisPrev
      "a6ea57659302aa7e5af322b4c5ba811914231a52afffa05da7731de40d68c5d3",
    plainRow 3 31 "prompt" "a6ea57659302aa7e5af322b4c5ba811914231a52afffa05da7731de40d68c5d3"
      "cea32fa8a11599aae3b895ba637c7bd9e6c46396fe3be3545e720a327d891a5b"]
  byKey := by decide

/-- Two events: the second was given the key 3 and follows the genesis hash,
and its hash was made again. -/
def looseScoped : LedgerTable where
  rows :=
    [plainRow 1 10 "prompt" genesisPrev
      "2e399490fb34b85cabda38b877296dc387c75ea543277ef6352503993bab1bcf",
    plainRow 3 30 "prompt" genesisPrev
      "ba609a9207641d501bb05d0699daeacf23d2f6f60a6de5e0cd2f046a3258c959"]
  byKey := by decide

/-- SHA-256 on the texts that these events hash. -/
def damagedDigest : String → String :=
  digestOn
    [((genesisPrev, ⟨1, 10, "prompt", "user", none, none, none, none, none, "p"⟩),
      "2e399490fb34b85cabda38b877296dc387c75ea543277ef6352503993bab1bcf"),
    ((genesisPrev, ⟨2, 20, "resolution", "user", none, none, none, none, none, "p"⟩),
      "a6ea57659302aa7e5af322b4c5ba811914231a52afffa05da7731de40d68c5d3"),
    (("a6ea57659302aa7e5af322b4c5ba811914231a52afffa05da7731de40d68c5d3",
        ⟨3, 31, "prompt", "user", none, none, none, none, none, "p"⟩),
      "ad6da79ec3d1cf46ccae55a6400d02c147191b21292d341a02818d727423036a"),
    ((genesisPrev, ⟨3, 30, "prompt", "user", none, none, none, none, none, "p"⟩),
      "ba609a9207641d501bb05d0699daeacf23d2f6f60a6de5e0cd2f046a3258c959")]

/-- Broken in both their links and their hashes, the events do not have one
first bad `seq`; and once a `seq` is damaged the bundle is taken for a scoped
one, whose links are not looked at. -/
theorem verifiers_differ :
    Function.Injective damagedDigest ∧
      looseThenWrong.rows.map LedgerEventRow.seq = seqsFrom 1 3 ∧
      (verifyLedgerChain damagedDigest looseThenWrong).firstBadSeq = some 2 ∧
      (verifyBundle damagedDigest (bundleOf looseThenWrong)).firstBadSeq = some 3 ∧
      (verifyLedgerChain damagedDigest looseScoped).ok = false ∧
      (verifyBundle damagedDigest (bundleOf looseScoped)).ok = true := by
  refine ⟨digestOn_injective (by decide) (by decide), by decide, ?_, ?_, ?_, ?_⟩
  · rw [verifyLedgerChain, walkChain_firstBadSeq, damagedDigest, rowShape_digestOn]
    decide +kernel
  · simp only [verifyBundle, sortedEvents_bundleOf, damagedDigest, rowShape_digestOn]
    decide +kernel
  · rw [← Bool.not_eq_true, verifyLedgerChain_ok, damagedDigest, rowShape_digestOn]
    decide +kernel
  · simp only [verifyBundle, sortedEvents_bundleOf, damagedDigest, rowShape_digestOn]
    decide +kernel

end PolisMemory
