/-
# The canary's quarantine

When the canary finds that a run made the memory less reachable, `gardener::step`
reverts the run and quarantines the classes whose probes went from hit to miss
(`regressed_subjects`): `quarantine` writes them into `polis_meta`, as a JSON object from
a class to the first run that may touch it again. Each run reads the object once, at the
start of its queue (`quarantined`), and puts off a structural proposal on one of them.

A history is any number of runs with any surroundings, each got as far as it may, the
canary's verdicts on runs that are over, and whatever else is written between and within
them. Over every history a run puts a proposal off exactly if the last verdict that named
one of its subjects still stands for that run, and then the proposal keeps its attempts
and is due in the next run; it is applied in none that it stands for, by no verifier
either (`quarantine_heeded`). The verdicts are written one at a time, as one gardener
writes them; they need not come in the order of their runs. Whether a run
regressed is an argument, since the recalls are floats.

Key definitions: `regressedSubjects`, `quarantine`, `quarantined`, `Watch.Reach`,
`Watch.standing`.
Key theorems: `heeded_runTurns`, `Watch.Watched.organize`, `Watch.Watched.regressed`,
`Watch.Reach.watched`, `quarantine_heeded`.
-/
import PolisMemory.Cadence
import PolisMemory.JsonMaps
import PolisMemory.QueueHistory
import PolisMemory.Windows

namespace PolisMemory

open QueueHistory Store Tables

/-- `QUARANTINE_KEY` -/
def quarantineKey : String := "polis.canary.quarantine"

/-! ### The canary's verdict -/

/-- What a probe expects to find; the class, where it names one. -/
inductive Gold
  | promptSeq
  | nodeLink (nodeId : String)
  | supersession
  | note
  | node (nodeId : String)
  | browse
  | claimAt
  | evidencePolicy
  deriving DecidableEq, Repr

/-- The class that a miss of the probe quarantines. -/
def Gold.node? : Gold → Option String
  | .nodeLink nodeId => some nodeId
  | .node nodeId => some nodeId
  | _ => none

/-- `regressed_subjects`, of the hits before and after. -/
def regressedSubjects (probes : List Gold) (before after : List Bool) : List String :=
  (((probes.zip before).zip after).filterMap fun r =>
    if r.1.2 ∧ ¬r.2 then r.1.1.node? else none).dedup.mergeSort fun a b => a ≤ b

/-! ### The map -/

/-- `HashMap::insert` -/
def insertKey (m : List (String × ℤ)) (e : String × ℤ) : List (String × ℤ) :=
  m.filter (fun e' => e'.1 ≠ e.1) ++ [e]

/-- The map that `polis_meta` has, none if it does not parse; of two members with one key
the later counts. -/
def readQuarantine (m : MetaTable) : List (String × ℤ) :=
  (((m quarantineKey).bind fun text => JsonText.readMap text.toList).map
    (List.foldl insertKey [])).getD []

/-- `quarantined` -/
def quarantined (m : MetaTable) (run : ℤ) (n : String) : Bool :=
  (readQuarantine m).any fun e => e.1 = n && run < e.2

/-- The map that `quarantine` writes. -/
def quarantine (m : MetaTable) (run : ℤ) (subjects : List String) (runs : ℤ) : List (String × ℤ) :=
  subjects.foldl (fun m n => insertKey m (n, run + runs))
    ((readQuarantine m).filter fun e => run < e.2)

/-- A map's text; its members come in the order that the hashing makes. -/
def quarantineText (written : List (String × ℤ)) : String :=
  String.ofList (JsonText.obj (written.map JsonText.intMember))

/-- With the quarantine that `polis_meta` has. -/
def Surroundings.under (w : Surroundings) (m : MetaTable) (run : ℤ) : Surroundings :=
  { w with quarantined := PolisMemory.quarantined m run }

/-! ### Histories -/

/-- A verdict: the run, the classes, and for how many runs. -/
structure Verdicted where
  run : ℤ
  subjects : List String
  runs : ℤ
  deriving DecidableEq, Repr

/-- The store, `polis_meta`, the verdicts, the last first, and the turns of the queue so far,
each with the verdicts before its run. -/
structure Watch where
  store : Store
  table : MetaTable
  verdicts : List Verdicted
  log : List (List Verdicted × Entry)

namespace Watch

variable (h : Host)

/-- A run is at its queue, with what is in the store and in `polis_meta` by then. -/
def organize (w : Surroundings) (run : ℤ) (reach : Reach) (store : Store) (table : MetaTable)
    (x : Watch) : Watch :=
  { x with
    store := (queueUntil h (w.under table run) run store reach).store
    table := table
    log := x.log ++ (runTurns h (w.under table run) run store reach).map fun e => (x.verdicts, e) }

/-- The canary has found that a run regressed: revert it, release its window and quarantine;
nothing if it cannot be reverted. -/
def regressed (now : ℤ) (author : String) (v : Verdicted) (written : List (String × ℤ)) (x : Watch) :
    Watch :=
  match x.store.revertRun h now v.run author with
  | .error _ => x
  | .ok (s, _) =>
    { x with
      store := s.markRunCanaryReverted v.run
      table := x.table.set quarantineKey (quarantineText written)
      verdicts := v :: x.verdicts }

/-- What can have been. -/
inductive Reach (x₀ : Watch) : Watch → Prop
  | start : Reach x₀ { x₀ with verdicts := [], log := [] }
  /-- Whatever else is written. -/
  | others {x : Watch} {store : Store} {table : MetaTable} (hx : Reach x₀ x)
      (hruns : x.store.runs.nextId ≤ store.runs.nextId)
      (hkey : table quarantineKey = x.table quarantineKey) :
      Reach x₀ { x with store := store, table := table }
  /-- A run gets its row, and is at its queue at last. -/
  | organize {x : Watch} {now : ℤ} {seqFrom seqTo : Option ℤ} {w : Surroundings}
      {reach : QueueHistory.Reach} {store : Store} {table : MetaTable} (hx : Reach x₀ x)
      (hruns : (x.store.insertClassRunWith now .organize seqFrom seqTo).1.runs.nextId ≤ store.runs.nextId)
      (hkey : table quarantineKey = x.table quarantineKey) :
      Reach x₀ (x.organize h w x.store.runs.nextId reach store table)
  /-- A run that has its row has regressed. -/
  | regressed {x : Watch} {now : ℤ} {author : String} {probes : List Gold} {before after : List Bool}
      {run runs : ℤ} {written : List (String × ℤ)} (hx : Reach x₀ x) (hrun : run < x.store.runs.nextId)
      (hperm : written.Perm (quarantine x.table run (regressedSubjects probes before after) runs))
      (hfits : ∀ e ∈ written, -2 ^ 63 ≤ e.2 ∧ e.2 < 2 ^ 63) :
      Reach x₀ (x.regressed h now author ⟨run, regressedSubjects probes before after, runs⟩ written)

/-- The first run that may touch a class again: by the last verdict that named it, or by the
quarantine that there was before. -/
def standing (before : MetaTable) (verdicts : List Verdicted) (n : String) : Option ℤ :=
  match verdicts.find? fun v => n ∈ v.subjects with
  | some v => some (v.run + v.runs)
  | none => ((readQuarantine before).find? fun e => e.1 = n).map Prod.snd

/-- The quarantine of one of the proposal's subjects stands for the run. -/
def Stands (before : MetaTable) (verdicts : List Verdicted) (run : ℤ) (p : ProposalRow) : Prop :=
  ∃ n, Subject.node n ∈ propSubjects p ∧ ∃ first ∈ standing before verdicts n, run < first

end Watch

/-- What a turn makes of a quarantine. -/
structure Heeded (stands : Prop) (e : Entry) : Prop where
  /-- It is not applied. -/
  unapplied : stands → ¬e.Applies
  /-- It waits for the next run, with its attempts, unless its days are over. -/
  waits : stands → e.turn = .handle → expired e.proposal e.lake = none →
    e.after.store = e.before.store.deferProposal e.proposal.id e.proposal.attempts (e.run + 1)
      "quarantined by the canary"
  /-- Nothing else makes it wait before a verifier has it. -/
  only : e.turn = .handle → e.Defers → stands

/-! ### The map that is read -/

section map

variable {m : List (String × ℤ)} {e e' : String × ℤ}

theorem mem_insertKey : e' ∈ insertKey m e ↔ e' = e ∨ e' ∈ m ∧ e'.1 ≠ e.1 := by
  simp [insertKey, or_comm]

theorem nodup_insertKey (hm : (m.map Prod.fst).Nodup) : ((insertKey m e).map Prod.fst).Nodup := by
  have hfilter : ((m.filter fun e' => e'.1 ≠ e.1).map Prod.fst).Nodup :=
    hm.sublist (List.filter_sublist.map _)
  have hfresh : e.1 ∉ (m.filter fun e' => e'.1 ≠ e.1).map Prod.fst := by simp
  rw [insertKey, List.map_append, List.map_singleton, List.nodup_append]
  refine ⟨hfilter, List.nodup_singleton _, ?_⟩
  intro a ha b hb heq
  rw [heq, List.mem_singleton.mp hb] at ha
  exact hfresh ha

theorem nodup_foldl_insertKey : ∀ (es : List (String × ℤ)) {m : List (String × ℤ)},
    (m.map Prod.fst).Nodup → ((es.foldl insertKey m).map Prod.fst).Nodup
  | [], _, hm => hm
  | _ :: es, _, hm => nodup_foldl_insertKey es (nodup_insertKey hm)

/-- Members with keys of their own are all kept. -/
theorem foldl_insertKey : ∀ (es : List (String × ℤ)) (m : List (String × ℤ)),
    ((m ++ es).map Prod.fst).Nodup → es.foldl insertKey m = m ++ es
  | [], m, _ => (List.append_nil m).symm
  | e :: es, m, hnodup => by
    have hfresh : m.filter (fun e' => e'.1 ≠ e.1) = m := by
      rw [List.filter_eq_self]
      intro e' he'
      rw [List.map_append, List.nodup_append] at hnodup
      exact decide_eq_true (hnodup.2.2 e'.1 (List.mem_map_of_mem he') e.1 (by simp))
    rw [List.append_cons] at hnodup ⊢
    rw [List.foldl_cons, insertKey, hfresh, foldl_insertKey es _ hnodup]

theorem nodup_readQuarantine (m : MetaTable) : ((readQuarantine m).map Prod.fst).Nodup := by
  unfold readQuarantine
  cases (m quarantineKey).bind fun text => JsonText.readMap text.toList with
  | none => exact List.nodup_nil
  | some es => exact nodup_foldl_insertKey es List.nodup_nil

/-- The members of the map after some classes are put in. -/
theorem mem_foldl_subjects (until_ : ℤ) : ∀ (subjects : List String) (m : List (String × ℤ)),
    e ∈ subjects.foldl (fun m n => insertKey m (n, until_)) m ↔
      e.1 ∈ subjects ∧ e.2 = until_ ∨ e.1 ∉ subjects ∧ e ∈ m
  | [], m => by simp
  | n :: subjects, m => by
    rw [List.foldl_cons, mem_foldl_subjects until_ subjects, mem_insertKey, Prod.ext_iff]
    simp only [List.mem_cons]
    tauto

theorem nodup_foldl_subjects (until_ : ℤ) : ∀ (subjects : List String) {m : List (String × ℤ)},
    (m.map Prod.fst).Nodup →
      ((subjects.foldl (fun m n => insertKey m (n, until_)) m).map Prod.fst).Nodup
  | [], _, hm => hm
  | _ :: subjects, _, hm => nodup_foldl_subjects until_ subjects (nodup_insertKey hm)

/-- **What a verdict writes**: its classes, and of the rest what outlasts its run. -/
theorem mem_quarantine {m : MetaTable} {run runs : ℤ} {subjects : List String} :
    e ∈ quarantine m run subjects runs ↔ e.1 ∈ subjects ∧ e.2 = run + runs ∨
      e.1 ∉ subjects ∧ e ∈ readQuarantine m ∧ run < e.2 := by
  rw [quarantine, mem_foldl_subjects, List.mem_filter, decide_eq_true_eq]

/-- **The map that was written is read**, in whatever order. -/
theorem mem_readQuarantine_written {m : MetaTable} {run runs : ℤ} {subjects : List String}
    {written : List (String × ℤ)} (hperm : written.Perm (quarantine m run subjects runs))
    (hfits : ∀ e ∈ written, -2 ^ 63 ≤ e.2 ∧ e.2 < 2 ^ 63) :
    e ∈ readQuarantine (m.set quarantineKey (quarantineText written)) ↔
      e ∈ quarantine m run subjects runs := by
  have hnodup : ((quarantine m run subjects runs).map Prod.fst).Nodup := by
    apply nodup_foldl_subjects
    exact (nodup_readQuarantine m).sublist (List.filter_sublist.map _)
  have hkeys : (([] ++ written).map Prod.fst).Nodup := (hperm.map Prod.fst).nodup_iff.mpr hnodup
  have hread : readQuarantine (m.set quarantineKey (quarantineText written)) = written := by
    unfold readQuarantine MetaTable.set quarantineText
    rw [Function.update_self, Option.bind_some, String.toList_ofList, JsonText.readMap_obj hfits]
    exact foldl_insertKey written [] hkeys
  rw [hread, hperm.mem_iff]

theorem quarantined_iff {m : MetaTable} {run : ℤ} {n : String} :
    quarantined m run n = true ↔ ∃ first, (n, first) ∈ readQuarantine m ∧ run < first := by
  simp only [quarantined, List.any_eq_true, Bool.and_eq_true, decide_eq_true_eq, Prod.exists]
  constructor
  · rintro ⟨k, first, hmem, rfl, hlt⟩
    exact ⟨first, hmem, hlt⟩
  · rintro ⟨first, hmem, hlt⟩
    exact ⟨n, first, hmem, rfl, hlt⟩

/-- The one value of a key. -/
theorem find?_key {es : List (String × ℤ)} (hes : (es.map Prod.fst).Nodup) {n : String} {first : ℤ} :
    (es.find? fun e => e.1 = n).map Prod.snd = some first ↔ (n, first) ∈ es := by
  have hkey : ∀ {e}, (es.find? fun e => e.1 = n) = some e → e ∈ es ∧ e.1 = n := by
    intro e hfound
    exact ⟨List.mem_of_find?_eq_some hfound, by simpa using List.find?_some hfound⟩
  constructor
  · intro hfirst
    obtain ⟨e, hfound, rfl⟩ := Option.map_eq_some_iff.mp hfirst
    obtain ⟨hmem, rfl⟩ := hkey hfound
    exact hmem
  · intro hmem
    have hsome : (es.find? fun e => e.1 = n).isSome = true :=
      List.find?_isSome.mpr ⟨(n, first), hmem, decide_eq_true rfl⟩
    obtain ⟨e, hfound⟩ := Option.isSome_iff_exists.mp hsome
    obtain ⟨hmem', hn⟩ := hkey hfound
    rw [hfound, List.inj_on_of_nodup_map hes hmem' hmem hn]
    rfl

theorem readQuarantine_congr {m m' : MetaTable} (hkey : m' quarantineKey = m quarantineKey) :
    readQuarantine m' = readQuarantine m := by
  rw [readQuarantine, readQuarantine, hkey]

end map

/-! ### One run -/

section run

variable {h : Host} {w : Surroundings} {run : ℤ} {s : Store}

/-- What holds of each turn on its own holds of them all. -/
theorem forall_trace {f : Facts} {lake : ℤ} {turn : QueueHistory.Turn} {P : Entry → Prop} :
    ∀ (ps : List ProposalRow) (q : QueueRun),
      (∀ p ∈ ps, ∀ q, P ⟨w, run, lake, turn, p, q, turn.step h w run f lake q p⟩) →
      ∀ e ∈ trace h w run f lake turn q ps, P e
  | [], _, _, e, he => by cases he
  | p :: ps, q, hstep, e, he => by
    rcases List.mem_cons.mp he with rfl | he
    · exact hstep p List.mem_cons_self q
    · exact forall_trace ps _ (fun p' hp' => hstep p' (List.mem_cons_of_mem p hp')) e he

/-- No proposal that is put by for a verifier is quarantined. -/
theorem untouched_afterDue : ∀ v ∈ (afterDue h w run s).toVerify, touchesQuarantine w v = false := by
  refine QueueInv.foldl (Q := fun q => ∀ v ∈ q.toVerify, touchesQuarantine w v = false)
    (s.listDueProposals run) (fun {q} p _ hq => ?_) (by simp [startQueue])
  cases hx : expired p s.lakeNewestTs with
  | some why =>
    rw [handleOne_expired (Facts.load s) hx]
    exact hq
  | none =>
    cases ht : touchesQuarantine w p with
    | true =>
      rw [handleOne_quarantined (Facts.load s) hx ht]
      exact hq
    | false =>
      rw [handleOne_judged (Facts.load s) hx ht]
      split
      · rw [toVerify_applyOne]
        exact hq
      · intro v hv
        rcases List.mem_append.mp hv with hv | hv
        · exact hq v hv
        · rw [List.mem_singleton.mp hv]
          exact ht
      · exact hq

/-- A turn of the pass heeds the quarantine. -/
theorem heeded_handle (f : Facts) (lake : ℤ) (p : ProposalRow) (q : QueueRun) :
    Heeded (touchesQuarantine w p = true) ⟨w, run, lake, .handle, p, q, handleOne h w run f lake q p⟩ := by
  cases hx : expired p lake with
  | some why =>
    have hstep := @handleOne_expired h w run q p f lake why hx
    refine ⟨fun _ ha => ha ?_, fun _ _ hfresh => ?_, fun _ hd => ?_⟩
    · rw [hstep]
    · rw [hx] at hfresh
      cases hfresh
    · rw [Entry.Defers, hstep] at hd
      exact absurd hd (Nat.succ_ne_self _).symm
  | none =>
    cases ht : touchesQuarantine w p with
    | true =>
      have hstep := @handleOne_quarantined h w run q p f lake hx ht
      refine ⟨fun _ ha => ha ?_, fun _ _ _ => ?_, fun _ _ => rfl⟩
      · rw [hstep]
      · show (handleOne h w run f lake q p).store = _
        rw [hstep]
    | false =>
      have hstep := @handleOne_judged h w run q p f lake hx ht
      refine ⟨fun hs => absurd hs Bool.false_ne_true, fun hs => absurd hs Bool.false_ne_true, fun _ hd => ?_⟩
      have hsame : (handleOne h w run f lake q p).out.deferred = q.out.deferred := by
        rw [hstep]
        split
        · exact (@applyOne_cases h w run q p).2.2.2
        · rfl
        · rfl
      rw [Entry.Defers, hsame] at hd
      exact absurd hd (Nat.succ_ne_self _).symm

/-- A turn of a batch heeds it, since no quarantined proposal is in a batch. -/
theorem heeded_settle {f : Facts} {lake : ℤ} {p : ProposalRow}
    (reply : Except String (List SupersedeVerdict)) (q : QueueRun) (ht : touchesQuarantine w p = false) :
    Heeded (touchesQuarantine w p = true)
      ⟨w, run, lake, .settle reply, p, q, (QueueHistory.Turn.settle reply).step h w run f lake q p⟩ := by
  rw [ht]
  exact ⟨fun hs => absurd hs Bool.false_ne_true, fun hs => absurd hs Bool.false_ne_true,
    fun hturn => by cases hturn⟩

/-- **Every turn of a run**, as far as it got, heeds the quarantine that the run read. -/
theorem heeded_runTurns (reach : QueueHistory.Reach) : ∀ e ∈ runTurns h w run s reach,
    Heeded (touchesQuarantine w e.proposal = true) e ∧ e.run = run := by
  have hdue : ∀ e ∈ dueTurns h w run s,
      Heeded (touchesQuarantine w e.proposal = true) e ∧ e.run = run :=
    forall_trace _ _ fun p _ q => ⟨heeded_handle _ _ p q, rfl⟩
  have hsup : ∀ e ∈ supersedeTurns h w run s,
      Heeded (touchesQuarantine w e.proposal = true) e ∧ e.run = run :=
    forall_trace _ _ fun p hp q => ⟨heeded_settle _ q
      (untouched_afterDue p (List.mem_of_mem_filter hp)), rfl⟩
  have hmerge : ∀ e ∈ mergeTurns h w run s,
      Heeded (touchesQuarantine w e.proposal = true) e ∧ e.run = run := by
    refine forall_trace _ _ fun p hp q => ⟨heeded_settle _ q ?_, rfl⟩
    have hwait := List.mem_of_mem_filter hp
    rw [afterSupersedes, toVerify_settleBatch] at hwait
    exact untouched_afterDue p hwait
  intro e he
  cases reach with
  | due => exact hdue e he
  | supersedes =>
    rcases List.mem_append.mp he with he | he
    · exact hdue e he
    · exact hsup e he
  | merges =>
    rcases List.mem_append.mp he with he | he
    · rcases List.mem_append.mp he with he | he
      · exact hdue e he
      · exact hsup e he
    · exact hmerge e he

theorem nextId_queueUntil (reach : QueueHistory.Reach) :
    (queueUntil h w run s reach).store.runs.nextId = s.runs.nextId := by
  have hdue := runs_afterDue h w run s
  have hsup : (afterSupersedes h w run s).store.runs = s.runs := by
    rw [afterSupersedes, store_settleBatch]
    exact (runs_foldl (Facts.load s) s.lakeNewestTs (.settle w.supersedeReply) _ _).trans hdue
  cases reach with
  | due => exact congrArg AutoTable.nextId hdue
  | supersedes => exact congrArg AutoTable.nextId hsup
  | merges =>
    rw [queueUntil, store_settleBatch]
    exact congrArg AutoTable.nextId
      ((runs_foldl (Facts.load s) s.lakeNewestTs (.settle w.mergeReply) _ _).trans hsup)

end run

/-! ### Histories heed the quarantine -/

namespace Watch

variable {h : Host} {x₀ x : Watch}

theorem touches_iff {w : Surroundings} {p : ProposalRow} :
    touchesQuarantine w p = true ↔ ∃ n, Subject.node n ∈ propSubjects p ∧ w.quarantined n = true := by
  rw [touchesQuarantine, List.any_eq_true]
  constructor
  · intro ⟨subject, hmem, hq⟩
    cases subject with
    | node n => exact ⟨n, hmem, hq⟩
    | _ => exact absurd hq Bool.false_ne_true
  · intro ⟨n, hmem, hq⟩
    exact ⟨.node n, hmem, hq⟩

/-- What a history keeps: `polis_meta` has what stands for the runs to come, and the turns so
far have heeded what stood for theirs. -/
structure Watched (x₀ x : Watch) : Prop where
  past : ∀ v ∈ x.verdicts, v.run < x.store.runs.nextId
  stands : ∀ {run : ℤ}, x.store.runs.nextId ≤ run → ∀ n,
    quarantined x.table run n = true ↔ ∃ first ∈ standing x₀.table x.verdicts n, run < first
  heeded : ∀ t ∈ x.log, Heeded (Stands x₀.table t.1 t.2.run t.2.proposal) t.2

theorem watched_start : Watched x₀ { x₀ with verdicts := [], log := [] } where
  past v hv := by cases hv
  stands {run} _ n := by
    rw [quarantined_iff]
    exact exists_congr fun first => and_congr_left fun _ => (find?_key (nodup_readQuarantine _)).symm
  heeded t ht := by cases ht

/-- Whatever else is written is kept from the quarantine. -/
theorem Watched.others (hx : Watched x₀ x) {store : Store} {table : MetaTable}
    (hruns : x.store.runs.nextId ≤ store.runs.nextId)
    (hkey : table quarantineKey = x.table quarantineKey) :
    Watched x₀ { x with store := store, table := table } where
  past v hv := (hx.past v hv).trans_le hruns
  stands {run} hrun n := by
    have hsame : quarantined table run n = quarantined x.table run n := by
      rw [quarantined, readQuarantine_congr hkey, quarantined]
    rw [hsame]
    exact hx.stands (hruns.trans hrun) n
  heeded := hx.heeded

/-- **A run** reads what stands for it. -/
theorem Watched.organize (hx : Watched x₀ x) {now : ℤ} {seqFrom seqTo : Option ℤ} {w : Surroundings}
    {reach : QueueHistory.Reach} {store : Store} {table : MetaTable}
    (hruns : (x.store.insertClassRunWith now .organize seqFrom seqTo).1.runs.nextId ≤ store.runs.nextId)
    (hkey : table quarantineKey = x.table quarantineKey) :
    Watched x₀ (x.organize h w x.store.runs.nextId reach store table) := by
  have hgrown : x.store.runs.nextId ≤ store.runs.nextId := (Int.le_add_one le_rfl).trans hruns
  have hmeta := hx.others hgrown hkey
  have hnext := @nextId_queueUntil h (w.under table x.store.runs.nextId) x.store.runs.nextId store reach
  refine ⟨fun v hv => ?_, fun {run} hrun n => ?_, fun t ht => ?_⟩
  · exact (hmeta.past v hv).trans_eq hnext.symm
  · exact hmeta.stands (hnext.symm.trans_le hrun) n
  · rcases List.mem_append.mp ht with ht | ht
    · exact hx.heeded t ht
    · obtain ⟨e, he, rfl⟩ := List.mem_map.mp ht
      obtain ⟨hheeded, hrun⟩ := heeded_runTurns reach e he
      have hsame : quarantined table x.store.runs.nextId = quarantined x.table x.store.runs.nextId := by
        funext n
        rw [quarantined, readQuarantine_congr hkey, quarantined]
      have hiff : touchesQuarantine (w.under table x.store.runs.nextId) e.proposal = true ↔
          Stands x₀.table x.verdicts e.run e.proposal := by
        rw [touches_iff, hrun]
        refine exists_congr fun n => and_congr_right fun _ => ?_
        rw [← hx.stands le_rfl n, ← hsame]
        rfl
      rw [propext hiff] at hheeded
      exact hheeded

/-- **A verdict** stands from then on for the classes it names, and for no other class does
anything change that a run to come can see. -/
theorem Watched.regressed (hx : Watched x₀ x) {now : ℤ} {author : String} {v : Verdicted}
    {written : List (String × ℤ)} (hrun : v.run < x.store.runs.nextId)
    (hperm : written.Perm (quarantine x.table v.run v.subjects v.runs))
    (hfits : ∀ e ∈ written, -2 ^ 63 ≤ e.2 ∧ e.2 < 2 ^ 63) :
    Watched x₀ (x.regressed h now author v written) := by
  unfold Watch.regressed
  split
  · exact hx
  rename_i s receipt hok
  have hgrown : x.store.runs.nextId ≤ (s.markRunCanaryReverted v.run).runs.nextId := by
    obtain ⟨-, t, hundo, rfl, -⟩ := revertRun_eq_ok.mp hok
    obtain ⟨hsame, -⟩ := undoOps_books hundo
    show x.store.runs.nextId ≤ t.runs.nextId
    rw [hsame]
    exact Int.le_add_one le_rfl
  refine ⟨?_, fun {run} hlater n => ?_, hx.heeded⟩
  · intro v' hv'
    rcases List.mem_cons.mp hv' with rfl | hv'
    · exact hrun.trans_le hgrown
    · exact (hx.past v' hv').trans_le hgrown
  · have hlate : x.store.runs.nextId ≤ run := hgrown.trans hlater
    rw [quarantined_iff]
    simp only [mem_readQuarantine_written hperm hfits, mem_quarantine]
    by_cases hn : n ∈ v.subjects
    · simp [standing, hn]
    · have hold := hx.stands hlate n
      rw [quarantined_iff] at hold
      have hnew : standing x₀.table (v :: x.verdicts) n = standing x₀.table x.verdicts n := by
        simp [standing, hn]
      rw [hnew, ← hold]
      constructor
      · intro ⟨first, hmem, hlt⟩
        rcases hmem with ⟨hin, -⟩ | ⟨-, hmem, -⟩
        · exact absurd hin hn
        · exact ⟨first, hmem, hlt⟩
      · intro ⟨first, hmem, hlt⟩
        exact ⟨first, .inr ⟨hn, hmem, by omega⟩, hlt⟩

theorem Reach.watched (hx : Reach h x₀ x) : Watched x₀ x := by
  induction hx with
  | start => exact watched_start
  | others _ hruns hkey ih => exact ih.others hruns hkey
  | organize _ hruns hkey ih => exact ih.organize hruns hkey
  | regressed _ hrun hperm hfits ih => exact ih.regressed hrun hperm hfits

end Watch

/-- **Over every history** a run waits with a structural proposal exactly if the last verdict
on one of its subjects stands for the run; it applies none such, and takes no attempt from it. -/
theorem quarantine_heeded {h : Host} {x₀ x : Watch} (hx : x₀.Reach h x) :
    ∀ t ∈ x.log, Heeded (Watch.Stands x₀.table t.1 t.2.run t.2.proposal) t.2 :=
  hx.watched.heeded

/-- The first run made a class under `t`, and a promote of `c` is proposed. -/
def promoteProposed : Store :=
  let s := (fourClasses.insertClassRunWith 1 .organize none none).1
  match s.createChild Host.plain 1 (some 1) "t" "news" with
  | .ok (s, _) => s.insertStructural 2 none .promote (some "c") (some "x") none none none none
  | .error _ => s

/-- The canary misses `c` after the first run; the second is its revert, the third comes to the
queue. -/
def cMissed : Watch :=
  let x : Watch := (⟨promoteProposed, fun _ => none, [], []⟩ : Watch).regressed Host.plain 3 "user"
    ⟨1, regressedSubjects [.note, .node "c"] [true, true] [true, false], 3⟩ [("c", 4)]
  x.organize Host.plain verifiersAway x.store.runs.nextId .due
    (x.store.insertClassRunWith 4 .organize none none).1 x.table

theorem quarantine_heeded_missed :
    (cMissed.log.map fun t => (t.2.run, t.1.map Verdicted.subjects, t.2.after.out.deferred)) =
      [(3, [["c"]], 1)] ∧
    ∀ t ∈ cMissed.log, Heeded (Watch.Stands (fun _ => none) t.1 t.2.run t.2.proposal) t.2 := by
  refine ⟨by decide +kernel, ?_⟩
  refine @quarantine_heeded Host.plain ⟨promoteProposed, fun _ => none, [], []⟩ _ ?_
  refine .organize (.regressed .start ?_ ?_ ?_) le_rfl rfl
  · decide +kernel
  · decide +kernel
  · decide

end PolisMemory
