/-
# Rotating backups

`crates/polis-memory/src/backup.rs`: a snapshot is written under the first
free stamp from the clock on, its chain is walked, and the oldest snapshots
beyond the number to keep are removed, by the stamps in their names. A snapshot
that does not verify is reported, and it counts among those that are kept: as
many failing runs in a row as snapshots are kept leave nothing else
(`backups_keep_good_iff`).

Key definitions: `SnapshotFile`, `listSnapshots`, `freshStamp`, `prune`,
`backupVerifyPrune`, `newestVerifying`, `HoldsGood`, `NearEnough`.
Key theorems: `get?_freshStamp`, `holdsGood_prune`, `backups_keep_good_iff`.
-/
import Mathlib.Data.List.Induction
import Mathlib.Data.List.Perm.Subperm
import PolisMemory.Catalog
import PolisMemory.Chain

namespace PolisMemory

open Tables

variable (sha256 : String → String)

/-- A file of the backup directory: the ledger of the store that it is, if it
opens as one at the current schema. -/
structure SnapshotFile where
  name : String
  content : Option LedgerTable
  deriving DecidableEq

/-- The backup directory. -/
abbrev BackupDir := Table SnapshotFile.name

/-- `str::strip_prefix`. -/
def stripPrefix (text start : String) : Option String :=
  if start.toList <+: text.toList then some (String.ofList (text.toList.drop start.toList.length))
  else none

/-- `str::strip_suffix`. -/
def stripSuffix (text tail : String) : Option String :=
  if tail.toList <:+ text.toList then
    some (String.ofList (text.toList.take (text.toList.length - tail.toList.length)))
  else none

/-- The name of a snapshot. -/
def snapshotName (stamp : ℤ) : String := "polis-" ++ i64ToString stamp ++ ".db"

/-- `snapshot_stamp`. -/
def snapshotStamp (name : String) : Option ℤ :=
  (stripPrefix name "polis-").bind fun stem => (stripSuffix stem ".db").bind parseI64

/-- `list_snapshots`: newest first, by the stamps. -/
def listSnapshots (d : BackupDir) : List SnapshotFile :=
  ((d.rows.filterMap fun f => (snapshotStamp f.name).map (·, f)).mergeSort fun a b => b.1 ≤ a.1).map
    Prod.snd

/-- The first stamp from the clock on whose name is free. -/
def freshStamp (d : BackupDir) (now : ℤ) : ℤ :=
  (((List.range (d.rows.length + 1)).map fun (n : ℕ) => now + n).find? fun stamp =>
    (d.get? (snapshotName stamp)).isNone).getD now

/-- `backup_now`: what `VACUUM INTO` leaves under the fresh name, or its
error. -/
def backupNow (d : BackupDir) (now : ℤ) (written : Except String (Option LedgerTable)) :
    BackupDir × Except String SnapshotFile :=
  let name := snapshotName (freshStamp d now)
  match written with
  | .error e => (d, .error s!"VACUUM INTO {name}: {e}")
  | .ok content => (d.insertOrIgnore ⟨name, content⟩, .ok ⟨name, content⟩)

/-- `verify_snapshot`. -/
def verifySnapshot (f : SnapshotFile) : Except String ChainVerdict :=
  match f.content with
  | none => .error s!"open {f.name}"
  | some ledger => .ok (verifyLedgerChain sha256 ledger)

/-- The snapshot opens and its chain verifies. -/
def verifies (f : SnapshotFile) : Bool := f.content.any fun ledger => (verifyLedgerChain sha256 ledger).ok

/-- `newest_verifying`. -/
def newestVerifying (d : BackupDir) : Option SnapshotFile := (listSnapshots d).find? (verifies sha256)

/-- `prune`: what is left, where each file of `removable` names can be removed,
and how many went. -/
def prune (d : BackupDir) (keep : ℕ) (removable : String → Bool) : BackupDir × ℕ :=
  let old := ((listSnapshots d).drop keep).filter fun f => removable f.name
  (d.delete fun f => f.name ∈ old.map SnapshotFile.name, old.length)

/-- What one backup did. -/
structure BackupReport where
  path : String
  verdict : ChainVerdict
  pruned : ℕ

/-- A call: its clock, how many to keep, what the snapshot holds once written,
and the files that can be removed. -/
structure BackupCall where
  now : ℤ
  keep : ℕ
  written : Except String (Option LedgerTable)
  removable : String → Bool

/-- `backup_verify_prune`. -/
def backupVerifyPrune (d : BackupDir) (c : BackupCall) : BackupDir × Except String BackupReport :=
  match backupNow d c.now c.written with
  | (d, .error e) => (d, .error e)
  | (d, .ok f) =>
    match verifySnapshot sha256 f with
    | .error e => (d, .error e)
    | .ok verdict =>
      -- the verdict is reported, and plays no part in what is removed
      let (d, pruned) := prune d (max c.keep 1) c.removable
      (d, .ok ⟨f.name, verdict, pruned⟩)

/-- A history of calls. -/
def backupRun (d : BackupDir) (calls : List BackupCall) : BackupDir :=
  calls.foldl (fun d c => (backupVerifyPrune sha256 d c).1) d

/-- The directory holds a snapshot that verifies. -/
def HoldsGood (d : BackupDir) : Prop := ∃ f ∈ listSnapshots d, verifies sha256 f = true

/-- The newest snapshot that verifies, the call's own counted in, has fewer
newer ones than are kept; or a verifying one that is beyond cannot be removed;
or there is nothing to prune after. -/
def NearEnough (d : BackupDir) (c : BackupCall) : Prop :=
  match c.written with
  | .ok (some ledger) =>
    let listed := listSnapshots (d.insertOrIgnore ⟨snapshotName (freshStamp d c.now), some ledger⟩)
    listed.findIdx (verifies sha256) < max c.keep 1 ∨
      ∃ f ∈ listed, verifies sha256 f = true ∧ c.removable f.name = false
  | _ => True

/-! ### The stamp is fresh -/

theorem i64ToString_injective : Function.Injective i64ToString := by
  intro n m h
  have h : JsonText.intText n = JsonText.intText m := String.ofList_inj.mp h
  have hdigits : ∀ {a b : ℕ}, Nat.toDigits 10 a = Nat.toDigits 10 b → a = b := by
    intro a b hab
    have hparse := congrArg parseDigits hab
    rw [parseDigits_toDigits, parseDigits_toDigits] at hparse
    exact Option.some.inj hparse
  have hsign : ∀ (a : ℕ) (cs : List Char), Nat.toDigits 10 a ≠ '-' :: cs := by
    intro a cs hac
    have hdigit := JsonText.isDigit_of_mem (n := a) (c := '-') (hac ▸ List.mem_cons_self)
    exact absurd hdigit (by decide)
  cases n with
  | ofNat n =>
    cases m with
    | ofNat m => exact congrArg Int.ofNat (hdigits h)
    | negSucc m => exact absurd h (hsign n _)
  | negSucc n =>
    cases m with
    | ofNat m => exact absurd h.symm (hsign m _)
    | negSucc m =>
      have heq := hdigits (List.cons.inj h).2
      exact congrArg Int.negSucc (by omega)

theorem snapshotName_injective : Function.Injective snapshotName := by
  intro n m h
  have h := congrArg String.toList h
  unfold snapshotName at h
  simp only [String.toList_append, List.append_assoc] at h
  exact i64ToString_injective (String.toList_inj.mp (List.append_cancel_right (List.append_cancel_left h)))

/-- A stamp is found: there are more candidates than files. -/
theorem get?_freshStamp (d : BackupDir) (now : ℤ) : d.get? (snapshotName (freshStamp d now)) = none := by
  unfold freshStamp
  cases hfind : ((List.range (d.rows.length + 1)).map fun (n : ℕ) => now + n).find? fun stamp =>
      (d.get? (snapshotName stamp)).isNone with
  | some stamp =>
    have hfree := List.find?_some hfind
    exact Option.isNone_iff_eq_none.mp hfree
  | none =>
    exfalso
    have hinj : Function.Injective fun n : ℕ => snapshotName (now + n) := by
      intro n m h
      have hstamp := snapshotName_injective h
      omega
    have hsub : (List.range (d.rows.length + 1)).map (fun n : ℕ => snapshotName (now + n)) ⊆
        d.rows.map SnapshotFile.name := by
      intro name hname
      obtain ⟨n, hn, rfl⟩ := List.mem_map.mp hname
      have htaken := List.find?_eq_none.mp hfind _ (List.mem_map_of_mem hn)
      obtain ⟨f, hf⟩ := Option.ne_none_iff_exists'.mp fun h => htaken (Option.isNone_iff_eq_none.mpr h)
      obtain ⟨hmem, hkey⟩ := Table.get?_eq_some.mp hf
      exact List.mem_map.mpr ⟨f, hmem, hkey⟩
    have hle := (List.subperm_of_subset (List.nodup_range.map hinj) hsub).length_le
    rw [List.length_map, List.length_range, List.length_map] at hle
    omega

/-! ### What a prune leaves -/

section

variable {d : BackupDir} {f : SnapshotFile}

theorem mem_listSnapshots : f ∈ listSnapshots d ↔ f ∈ d.rows ∧ (snapshotStamp f.name).isSome = true := by
  unfold listSnapshots
  constructor
  · intro hf
    obtain ⟨⟨stamp, g⟩, hg, rfl⟩ := List.mem_map.mp hf
    obtain ⟨x, hx, heq⟩ := List.mem_filterMap.mp (List.mem_mergeSort.mp hg)
    obtain ⟨s, hs, hpair⟩ := Option.map_eq_some_iff.mp heq
    obtain ⟨-, rfl⟩ := Prod.mk.inj hpair
    exact ⟨hx, by rw [hs]; rfl⟩
  · rintro ⟨hf, hstamp⟩
    obtain ⟨s, hs⟩ := Option.isSome_iff_exists.mp hstamp
    refine List.mem_map.mpr ⟨(s, f), List.mem_mergeSort.mpr (List.mem_filterMap.mpr ⟨f, hf, ?_⟩), rfl⟩
    rw [hs, Option.map_some]

/-- No name is listed twice. -/
theorem nodup_listSnapshots (d : BackupDir) : ((listSnapshots d).map SnapshotFile.name).Nodup := by
  have hperm : (listSnapshots d).Perm (d.rows.filter fun f => (snapshotStamp f.name).isSome) := by
    refine ((List.mergeSort_perm _ _).map _).trans (List.Perm.of_eq ?_)
    rw [List.map_filterMap]
    induction d.rows with
    | nil => rfl
    | cons f rows ih =>
      cases hs : snapshotStamp f.name with
      | none => simpa [hs] using ih
      | some s => simpa [hs] using ih
  exact (hperm.map SnapshotFile.name).nodup_iff.mpr (d.nodup.sublist (List.filter_sublist.map _))

theorem prune_rows (keep : ℕ) (removable : String → Bool) :
    f ∈ listSnapshots (prune d keep removable).1 ↔ f ∈ (listSnapshots d).take keep ∨
      f ∈ (listSnapshots d).drop keep ∧ removable f.name = false := by
  have hmem : f ∈ listSnapshots (prune d keep removable).1 ↔ f ∈ listSnapshots d ∧
      ∀ g ∈ (listSnapshots d).drop keep, removable g.name = true → g.name ≠ f.name := by
    rw [mem_listSnapshots, mem_listSnapshots]
    unfold prune
    dsimp only
    rw [Table.mem_delete]
    simp only [decide_eq_false_iff_not, List.mem_map, List.mem_filter, not_exists, not_and, and_imp]
    tauto
  have hsplit : f ∈ listSnapshots d ↔ f ∈ (listSnapshots d).take keep ∨
      f ∈ (listSnapshots d).drop keep := by
    conv_lhs => rw [← List.take_append_drop keep (listSnapshots d)]
    exact List.mem_append
  -- a name is in one of the two parts only
  have hnames := nodup_listSnapshots d
  rw [← List.take_append_drop keep (listSnapshots d), List.map_append] at hnames
  rw [hmem, hsplit]
  constructor
  · rintro ⟨htake | hdrop, hkept⟩
    · exact .inl htake
    · refine .inr ⟨hdrop, ?_⟩
      cases hr : removable f.name with
      | false => rfl
      | true => exact absurd rfl (hkept f hdrop hr)
  · rintro (htake | ⟨hdrop, hr⟩)
    · refine ⟨.inl htake, fun g hg _ heq => ?_⟩
      exact (List.nodup_append.mp hnames).2.2 _ (List.mem_map_of_mem htake) _ (List.mem_map_of_mem hg)
        heq.symm
    · refine ⟨.inr hdrop, fun g hg hgr heq => ?_⟩
      rw [heq, hr] at hgr
      exact absurd hgr Bool.false_ne_true

/-- A verifying snapshot is near the front, or one beyond stays. -/
theorem exists_mem_take {p : SnapshotFile → Bool} {k : ℕ} : ∀ {l : List SnapshotFile},
    (∃ f ∈ l, p f = true) → ((∃ f ∈ l.take k, p f = true) ↔ l.findIdx p < k) := by
  intro l hl
  have hlt := List.findIdx_lt_length_of_exists hl
  constructor
  · rintro ⟨f, hf, hp⟩
    obtain ⟨i, hi, rfl⟩ := List.mem_iff_getElem.mp hf
    rw [List.length_take] at hi
    rw [List.getElem_take] at hp
    by_contra hge
    have hnot : p l[i] = false := List.not_of_lt_findIdx (by omega)
    rw [hp] at hnot
    exact Bool.noConfusion hnot
  · intro hk
    refine ⟨l[l.findIdx p], ?_, List.findIdx_getElem⟩
    exact List.mem_iff_getElem.mpr ⟨l.findIdx p, by rw [List.length_take]; omega, List.getElem_take⟩

/-- What verifies after a prune. -/
theorem holdsGood_prune (hgood : HoldsGood sha256 d) (keep : ℕ) (removable : String → Bool) :
    HoldsGood sha256 (prune d keep removable).1 ↔
      (listSnapshots d).findIdx (verifies sha256) < keep ∨
        ∃ f ∈ listSnapshots d, verifies sha256 f = true ∧ removable f.name = false := by
  have hsplit : ∀ {f : SnapshotFile}, f ∈ listSnapshots d → f ∈ (listSnapshots d).take keep ∨
      f ∈ (listSnapshots d).drop keep := by
    intro f hf
    rw [← List.take_append_drop keep (listSnapshots d)] at hf
    exact List.mem_append.mp hf
  rw [← exists_mem_take hgood]
  unfold HoldsGood
  constructor
  · rintro ⟨f, hf, hv⟩
    rcases (prune_rows keep removable).mp hf with htake | ⟨hdrop, hr⟩
    · exact .inl ⟨f, htake, hv⟩
    · exact .inr ⟨f, List.mem_of_mem_drop hdrop, hv, hr⟩
  · rintro (⟨f, htake, hv⟩ | ⟨f, hf, hv, hr⟩)
    · exact ⟨f, (prune_rows keep removable).mpr (.inl htake), hv⟩
    · exact ⟨f, (prune_rows keep removable).mpr ((hsplit hf).imp_right fun hdrop => ⟨hdrop, hr⟩), hv⟩

/-- A new file leaves the others. -/
theorem HoldsGood.insert (hgood : HoldsGood sha256 d) (f : SnapshotFile) :
    HoldsGood sha256 (d.insertOrIgnore f) := by
  obtain ⟨g, hg, hv⟩ := hgood
  obtain ⟨hrow, hstamp⟩ := mem_listSnapshots.mp hg
  refine ⟨g, mem_listSnapshots.mpr ⟨?_, hstamp⟩, hv⟩
  rw [Table.mem_rows, Table.get?_insertOrIgnore, Table.mem_rows.mp hrow, Option.some_or]

/-! ### Histories -/

/-- What one call leaves. -/
theorem holdsGood_step (hgood : HoldsGood sha256 d) (c : BackupCall) :
    HoldsGood sha256 (backupVerifyPrune sha256 d c).1 ↔ NearEnough sha256 d c := by
  unfold backupVerifyPrune backupNow NearEnough
  cases hw : c.written with
  | error e => exact iff_of_true hgood trivial
  | ok content =>
    cases content with
    | none => exact iff_of_true (hgood.insert sha256 _) trivial
    | some ledger => exact holdsGood_prune sha256 (hgood.insert sha256 _) _ _

end

theorem backupRun_append (d : BackupDir) (calls : List BackupCall) (c : BackupCall) :
    backupRun sha256 d (calls ++ [c]) = (backupVerifyPrune sha256 (backupRun sha256 d calls) c).1 := by
  unfold backupRun
  rw [List.foldl_append, List.foldl_cons, List.foldl_nil]

/-- A directory with a verifying snapshot keeps one through a history of calls
exactly while each call finds one near enough. -/
theorem backups_keep_good_iff (d : BackupDir) (hgood : HoldsGood sha256 d) (calls : List BackupCall) :
    (∀ before, before <+: calls → HoldsGood sha256 (backupRun sha256 d before)) ↔
      ∀ before c, before ++ [c] <+: calls → NearEnough sha256 (backupRun sha256 d before) c := by
  constructor
  · intro hall before c hprefix
    have hbefore := hall before ((List.prefix_append before [c]).trans hprefix)
    have hafter := hall _ hprefix
    rw [backupRun_append] at hafter
    exact (holdsGood_step sha256 hbefore c).mp hafter
  · intro hnear before hprefix
    induction before using List.reverseRecOn with
    | nil => exact hgood
    | append_singleton before c ih =>
      have hbefore := ih ((List.prefix_append before [c]).trans hprefix)
      rw [backupRun_append]
      exact (holdsGood_step sha256 hbefore c).mpr (hnear before c hprefix)

/-- One row that does not recompute. -/
def brokenLedger : LedgerTable :=
  ⟨[⟨1, 0, "prompt", "ann", none, none, none, none, none, "p", genesisPrev, "e"⟩],
    List.pairwise_singleton _ _⟩

/-- A directory with one snapshot, of an empty ledger. -/
def oneSnapshot : BackupDir := (∅ : BackupDir).insertOrIgnore ⟨"polis-5.db", some .empty⟩

theorem holdsGood_oneSnapshot : HoldsGood id oneSnapshot :=
  ⟨⟨"polis-5.db", some .empty⟩, mem_listSnapshots.mpr ⟨List.mem_singleton_self _, by decide +kernel⟩, rfl⟩

/-- A run whose snapshot does not verify. -/
def failingCall (keep : ℕ) : BackupCall := ⟨9, keep, .ok (some brokenLedger), fun _ => true⟩

theorem listSnapshots_failing : listSnapshots (oneSnapshot.insertOrIgnore
    ⟨snapshotName (freshStamp oneSnapshot 9), some brokenLedger⟩) =
      [⟨"polis-9.db", some brokenLedger⟩, ⟨"polis-5.db", some .empty⟩] := by
  have hstamp : freshStamp oneSnapshot 9 = 9 := by decide +kernel
  have hname : snapshotName 9 = "polis-9.db" := by decide +kernel
  have hrows : (oneSnapshot.insertOrIgnore ⟨"polis-9.db", some brokenLedger⟩).rows =
      [⟨"polis-5.db", some .empty⟩, ⟨"polis-9.db", some brokenLedger⟩] := by decide +kernel
  have hfive : snapshotStamp "polis-5.db" = some 5 := by decide +kernel
  have hnine : snapshotStamp "polis-9.db" = some 9 := by decide +kernel
  unfold listSnapshots
  rw [hstamp, hname, hrows]
  simp [hfive, hnine, List.mergeSort, List.MergeSort.Internal.splitInTwo]

/-- Two are kept, and one run fails. -/
theorem backups_keep_good_two : HoldsGood id (backupRun id oneSnapshot [failingCall 2]) := by
  refine (backups_keep_good_iff id oneSnapshot holdsGood_oneSnapshot [failingCall 2]).mpr ?_ _
    List.prefix_rfl
  intro before c hprefix
  obtain ⟨rest, hrest⟩ := hprefix
  cases before with
  | nil =>
    obtain rfl : c = failingCall 2 := (List.cons.inj hrest).1
    refine .inl ?_
    rw [show backupRun id oneSnapshot [] = oneSnapshot from rfl]
    show (listSnapshots (oneSnapshot.insertOrIgnore
      ⟨snapshotName (freshStamp oneSnapshot 9), some brokenLedger⟩)).findIdx (verifies id) < 2
    rw [listSnapshots_failing]
    decide +kernel
  | cons b before => simp at hrest

/-- One is kept, and one run fails. -/
theorem failingRun_loses_good : ¬ ∀ (sha256 : String → String) (d : BackupDir), HoldsGood sha256 d →
    ∀ calls : List BackupCall, HoldsGood sha256 (backupRun sha256 d calls) := by
  intro hclaim
  have hgood := hclaim id oneSnapshot holdsGood_oneSnapshot [failingCall 1]
  have hnear := (holdsGood_step id holdsGood_oneSnapshot (failingCall 1)).mp hgood
  have hnear : (listSnapshots (oneSnapshot.insertOrIgnore
      ⟨snapshotName (freshStamp oneSnapshot 9), some brokenLedger⟩)).findIdx (verifies id) < 1 ∨
        ∃ f ∈ listSnapshots (oneSnapshot.insertOrIgnore
          ⟨snapshotName (freshStamp oneSnapshot 9), some brokenLedger⟩), verifies id f = true ∧
            true = false := hnear
  rw [listSnapshots_failing] at hnear
  rcases hnear with hfirst | ⟨_, _, _, habs⟩
  · exact absurd hfirst (by decide +kernel)
  · exact Bool.noConfusion habs

end PolisMemory
