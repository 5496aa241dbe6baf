/-
# Stale workers

A handle is told from the others by its job, its owner and its attempt number.
Attempts are counted up by every lease and down to nothing by a retry, so an
owner that leases the same job after a retry can be given a handle that it had
before, and the old one takes effect again. In a history in which no lease
gives such a handle, only the last handle of a job takes effect; and as soon as
one is given, the stale one does (`fenced_iff`).

Key definitions: `JobWorld`, `Fenced`, `Renews`.
Key theorems: `Tracked.step`, `fenced_iff`.
-/
import Mathlib.Data.List.Induction
import PolisMemory.Jobs

namespace PolisMemory

open Tables

/-- The table, and the handles that leases returned so far. -/
structure JobWorld where
  jobs : Jobs
  granted : List BackgroundJob

/-- A call. -/
def JobWorld.step (w : JobWorld) (c : JobCall) : JobWorld :=
  ⟨c.apply w.jobs, w.granted ++ (c.grant w.jobs).toList⟩

/-- A history of calls. -/
def jobWorld (calls : List JobCall) : JobWorld := calls.foldl JobWorld.step ⟨∅, []⟩

/-- A checkpoint or a completion with a handle changes the job. -/
def Jobs.TakesEffect (t : Jobs) (job : BackgroundJob) (now : ℤ) : Prop :=
  (∃ text, (t.checkpointJob job text now).2 = true ∨ (t.checkpointJob job text now).1 ≠ t) ∨
    ∃ error, (t.finishJob job error now).2 = true ∨ (t.finishJob job error now).1 ≠ t

/-- Only the handle of a job's last lease takes effect. -/
def Fenced (w : JobWorld) : Prop :=
  ∀ earlier job later, w.granted = earlier ++ job :: later →
    ∀ now, w.jobs.TakesEffect job now → ∀ other ∈ later, other.id ≠ job.id

/-- The call leases a job to an owner who leased it before, at the attempt
number he had then. -/
def Renews (w : JobWorld) (c : JobCall) : Prop :=
  ∃ kind owner now leaseMs job, c = .lease kind owner now leaseMs ∧
    (w.jobs.expire now).firstDue kind now = some job ∧
      ∃ old ∈ w.granted, old.id = job.id ∧ old.leaseOwner = some owner ∧
        old.attempts = job.attempts + 1

/-! ### What a handle does -/

section effect

variable {t : Jobs} {job : BackgroundJob} {now : ℤ}

/-- A guard that lets no row through leaves the table. -/
theorem update_none {t' : Jobs} {p : BackgroundJob → Bool} {f : BackgroundJob → BackgroundJob}
    (hu : Updates t t' p f) (hlast : t'.lastId = t.lastId) (hnone : t.select p = []) : t' = t := by
  refine IndexedTable.ext_rows ?_ hlast
  rw [hu.2]
  refine (List.map_congr_left fun r hr => ?_).trans (List.map_id' _)
  exact if_neg (List.filter_eq_nil_iff.mp hnone r hr)

/-- A handle takes effect where its guard lets a row through. -/
theorem takesEffect_iff : t.TakesEffect job now ↔ ∃ r, t.get? job.id = some r ∧ r.heldBy job now = true := by
  have hrows : t.heldRows job now ≠ [] ↔ ∃ r, t.get? job.id = some r ∧ r.heldBy job now = true := by
    constructor
    · intro hne
      obtain ⟨r, hr⟩ := List.exists_mem_of_ne_nil _ hne
      obtain ⟨hget, hheld⟩ := Table.mem_select.mp hr
      have hid : r.id = job.id := by
        simp only [BackgroundJob.heldBy, Bool.and_eq_true, decide_eq_true_eq] at hheld
        exact hheld.1.1.1.1
      exact ⟨r, hid ▸ hget, hheld⟩
    · rintro ⟨r, hget, hheld⟩
      have hid := Table.key_of_get? hget
      exact List.ne_nil_of_mem (Table.mem_select.mpr ⟨hid ▸ hget, hheld⟩)
  rw [← hrows]
  have hpos : (t.heldRows job now).length > 0 ↔ t.heldRows job now ≠ [] := List.length_pos_iff
  constructor
  · rintro (⟨text, htrue | hne⟩ | ⟨error, htrue | hne⟩) hnil
    · exact hpos.mp (of_decide_eq_true htrue) hnil
    · exact hne (update_none (updates_checkpoint text) rfl hnil)
    · exact hpos.mp (of_decide_eq_true htrue) hnil
    · exact hne (update_none (updates_finish error) rfl hnil)
  · intro hne
    exact .inl ⟨"", .inl (decide_eq_true (hpos.mpr hne))⟩

end effect

/-! ### The last handle of a job -/

/-- What tells a handle from others. -/
def BackgroundJob.token (job : BackgroundJob) : ℤ × Option String × ℤ :=
  (job.id, job.leaseOwner, job.attempts)

/-- The last handle of a job. -/
def lastGrant (granted : List BackgroundJob) (id : ℤ) : Option BackgroundJob :=
  granted.reverse.find? fun job => job.id = id

/-- A running job has the token of its last handle. -/
def Tracked (w : JobWorld) : Prop :=
  ∀ r ∈ w.jobs.rows, r.status = .running →
    ∃ job, lastGrant w.granted r.id = some job ∧ job.token = r.token

theorem lastGrant_append (granted : List BackgroundJob) (job : BackgroundJob) (id : ℤ) :
    lastGrant (granted ++ [job]) id = if job.id = id then some job else lastGrant granted id := by
  unfold lastGrant
  rw [List.reverse_append, List.reverse_singleton, List.singleton_append, List.find?_cons]
  by_cases hid : job.id = id <;> simp [hid]

/-- The last handle comes after every other one of its job. -/
theorem lastGrant_mem {earlier later : List BackgroundJob} {job other last : BackgroundJob}
    (hother : other ∈ later) (hid : other.id = job.id)
    (hlast : lastGrant (earlier ++ job :: later) job.id = some last) : last ∈ later := by
  unfold lastGrant at hlast
  rw [List.reverse_append, List.reverse_cons, List.append_assoc, List.find?_append] at hlast
  cases hfind : later.reverse.find? fun x => decide (x.id = job.id) with
  | none =>
    have hnot := List.find?_eq_none.mp hfind other (List.mem_reverse.mpr hother)
    exact absurd (decide_eq_true hid) hnot
  | some found =>
    rw [hfind, Option.some_or, Option.some.injEq] at hlast
    exact hlast ▸ List.mem_reverse.mp (List.mem_of_find?_eq_some hfind)

section tracked

variable {w : JobWorld}

/-- An update that gives no job a new token and starts none. -/
theorem Tracked.updates (hw : Tracked w) {t' : Jobs} {p : BackgroundJob → Bool}
    {f : BackgroundJob → BackgroundJob} (hu : Updates w.jobs t' p f)
    (hf : ∀ r, p r = true → (f r).status = .running → r.status = .running ∧ (f r).token = r.token) :
    Tracked ⟨t', w.granted⟩ := by
  intro a ha hrun
  obtain ⟨x, hx, rfl⟩ := hu.mem ha
  split_ifs at hrun ⊢ with hp
  · obtain ⟨hxrun, htoken⟩ := hf x hp hrun
    rw [htoken, hu.1]
    exact hw x hx hxrun
  · exact hw x hx hrun

theorem expired_idle (r : BackgroundJob) : r.expired.status ≠ .running := by
  unfold BackgroundJob.expired
  dsimp only
  split_ifs <;> decide

theorem Tracked.expire (hw : Tracked w) (now : ℤ) : Tracked ⟨w.jobs.expire now, w.granted⟩ :=
  hw.updates updates_expire fun r _ hrun => absurd hrun (expired_idle r)

/-- Every call keeps it. -/
theorem Tracked.step (hw : Tracked w) (c : JobCall) : Tracked (w.step c) := by
  have hnil : ∀ t : Jobs, Tracked ⟨t, w.granted⟩ → Tracked ⟨t, w.granted ++ []⟩ := fun t h => by
    rwa [List.append_nil]
  cases c with
  | enqueue kind key now maxAttempts =>
    refine hnil _ fun a ha hrun => ?_
    rcases IndexedTable.mem_insertOrIgnore ha with ha' | rfl
    · exact hw a ha' hrun
    · exact absurd hrun nofun
  | lease kind owner now leaseMs =>
    unfold JobWorld.step JobCall.apply JobCall.grant
    dsimp only
    cases hg : (w.jobs.leaseJob kind owner now leaseMs).2 with
    | none =>
      rw [leaseJob_none hg]
      exact hnil _ (hw.expire now)
    | some job =>
      obtain ⟨r, hr, rfl, htable⟩ := leaseJob_some hg
      obtain ⟨-, hrow, -⟩ := mem_due.mp (firstDue_mem hr)
      rw [htable]
      intro a ha hrun
      obtain ⟨x, hx, rfl⟩ := (updates_grantTo _ _ _).mem ha
      by_cases hid : x.id = r.id
      · have hxr : x = r := List.inj_on_of_nodup_map (w.jobs.expire now).nodup hx hrow hid
        rw [if_pos (decide_eq_true hid), hxr]
        exact ⟨_, (lastGrant_append _ _ _).trans (if_pos rfl), rfl⟩
      · have hkept : (if decide (x.id = r.id) then x.leasedTo owner (Jobs.leaseEnd now leaseMs) else x) =
            x := if_neg fun h => hid (of_decide_eq_true h)
        rw [hkept] at hrun ⊢
        obtain ⟨job, hlast, htoken⟩ := hw.expire now x hx hrun
        refine ⟨job, (lastGrant_append _ _ _).trans ((if_neg fun h => ?_).trans hlast), htoken⟩
        exact hid h.symm
  | checkpoint job text now =>
    exact hnil _ (hw.updates (updates_checkpoint text) fun r _ hrun => ⟨hrun, rfl⟩)
  | finish job error now =>
    refine hnil _ (hw.updates (updates_finish error) fun r _ hrun => absurd hrun ?_)
    unfold BackgroundJob.finished BackgroundJob.finishedStatus
    dsimp only
    split_ifs <;> decide
  | list limit now => exact hnil _ (hw.expire now)
  | retry id now =>
    exact hnil _ (hw.updates (updates_retry id) fun r _ hrun => absurd hrun nofun)

/-- With no token given twice, only the last handle of a job takes effect. -/
theorem Tracked.fenced (hw : Tracked w) (hn : (w.granted.map BackgroundJob.token).Nodup) : Fenced w := by
  intro earlier job later hgranted now heffect other hother hid
  obtain ⟨r, hget, hheld⟩ := takesEffect_iff.mp heffect
  simp only [BackgroundJob.heldBy, Bool.and_eq_true, decide_eq_true_eq] at hheld
  obtain ⟨⟨⟨⟨hrid, -, howner⟩, hattempts⟩, hrun⟩, -⟩ := hheld
  obtain ⟨last, hlast, htoken⟩ := hw r (Table.get?_eq_some.mp hget).1 hrun
  rw [hrid, hgranted] at hlast
  have hmem : last ∈ later := lastGrant_mem hother hid hlast
  have hsame : last.token = job.token := by
    rw [htoken]
    unfold BackgroundJob.token
    rw [hrid, howner, hattempts]
  rw [hgranted, List.map_append, List.map_cons] at hn
  have hnot := (List.nodup_cons.mp (List.nodup_append.mp hn).2.1).1
  exact hnot (hsame ▸ List.mem_map_of_mem hmem)

end tracked

/-! ### Histories -/

theorem jobWorld_append (calls : List JobCall) (c : JobCall) :
    jobWorld (calls ++ [c]) = (jobWorld calls).step c := by
  unfold jobWorld
  rw [List.foldl_append, List.foldl_cons, List.foldl_nil]

theorem tracked_jobWorld (calls : List JobCall) : Tracked (jobWorld calls) := by
  induction calls using List.reverseRecOn with
  | nil => exact fun r hr => absurd hr List.not_mem_nil
  | append_singleton calls c ih =>
    rw [jobWorld_append]
    exact ih.step c

/-- What a call that leases a job hands out. -/
theorem grant_eq_some {t : Jobs} {c : JobCall} {job : BackgroundJob} (hg : c.grant t = some job) :
    ∃ kind owner now leaseMs r, c = .lease kind owner now leaseMs ∧
      (t.expire now).firstDue kind now = some r ∧ job = r.leasedTo owner (Jobs.leaseEnd now leaseMs) := by
  cases c with
  | lease kind owner now leaseMs =>
    obtain ⟨r, hr, hjob, -⟩ := leaseJob_some hg
    exact ⟨kind, owner, now, leaseMs, r, rfl, hr, hjob⟩
  | enqueue => exact absurd hg nofun
  | checkpoint => exact absurd hg nofun
  | finish => exact absurd hg nofun
  | list => exact absurd hg nofun
  | retry => exact absurd hg nofun

/-- A call that renews no token adds one that is new. -/
theorem nodup_step {w : JobWorld} {c : JobCall} (hn : (w.granted.map BackgroundJob.token).Nodup)
    (hc : ¬ Renews w c) : ((w.step c).granted.map BackgroundJob.token).Nodup := by
  unfold JobWorld.step
  dsimp only
  cases hg : c.grant w.jobs with
  | none =>
    rw [Option.toList_none, List.append_nil]
    exact hn
  | some job =>
    rw [Option.toList_some, List.map_append, List.map_singleton, ← List.concat_eq_append,
      List.nodup_concat]
    refine ⟨fun hmem => hc ?_, hn⟩
    obtain ⟨old, hold, htoken⟩ := List.mem_map.mp hmem
    obtain ⟨kind, owner, now, leaseMs, r, hcall, hfirst, rfl⟩ := grant_eq_some hg
    simp only [BackgroundJob.token, Prod.mk.injEq] at htoken
    exact ⟨kind, owner, now, leaseMs, r, hcall, hfirst, old, hold, htoken⟩

/-- Once a token is given again the stale handle takes effect. -/
theorem Renews.not_fenced {w : JobWorld} {c : JobCall} (hc : Renews w c) : ¬ Fenced (w.step c) := by
  obtain ⟨kind, owner, now, leaseMs, r, rfl, hfirst, old, hold, hid, howner, hattempts⟩ := hc
  obtain ⟨earlier, later, hgranted⟩ := List.append_of_mem hold
  have hlease : w.jobs.leaseJob kind owner now leaseMs = _ := leaseJob_of_firstDue hfirst
  have hget : (w.jobs.expire now).get? r.id = some r :=
    Table.mem_rows.mp (mem_due.mp (firstDue_mem hfirst)).2.1
  have hrow := (updates_grantTo r.id owner (Jobs.leaseEnd now leaseMs)).get? hget
  rw [if_pos (decide_eq_true rfl)] at hrow
  intro hfenced
  have hnew : (w.step (.lease kind owner now leaseMs)).granted =
      earlier ++ old :: (later ++ [r.leasedTo owner (Jobs.leaseEnd now leaseMs)]) := by
    show w.granted ++ (w.jobs.leaseJob kind owner now leaseMs).2.toList = _
    rw [hlease, hgranted, Option.toList_some, List.append_assoc, List.cons_append]
  refine hfenced _ _ _ hnew (Jobs.leaseEnd now leaseMs - 1) ?_ _
    (List.mem_append_right _ (List.mem_singleton_self _)) hid.symm
  refine takesEffect_iff.mpr ⟨r.leasedTo owner (Jobs.leaseEnd now leaseMs), ?_, ?_⟩
  · show (w.jobs.leaseJob kind owner now leaseMs).1.get? old.id = _
    rw [hlease, hid]
    exact hrow
  · have hbefore : Jobs.leaseEnd now leaseMs - 1 < Jobs.leaseEnd now leaseMs := by omega
    simp only [BackgroundJob.heldBy, BackgroundJob.leasedTo, hid, howner, hattempts, Option.any_some,
      Option.isSome_some, decide_true, hbefore, Bool.and_self]

/-- Stale handles stay without effect in a history exactly while no owner
leases a job again at an attempt number he had leased it at. -/
theorem fenced_iff (calls : List JobCall) : (∀ before, before <+: calls → Fenced (jobWorld before)) ↔
    ∀ before c, before ++ [c] <+: calls → ¬ Renews (jobWorld before) c := by
  constructor
  · intro hfenced before c hprefix hrenews
    refine hrenews.not_fenced ?_
    rw [← jobWorld_append]
    exact hfenced _ hprefix
  · intro hfresh before hprefix
    refine (tracked_jobWorld before).fenced ?_
    induction before using List.reverseRecOn with
    | nil => exact List.nodup_nil
    | append_singleton before c ih =>
      rw [jobWorld_append]
      exact nodup_step (ih ((List.prefix_append before [c]).trans hprefix)) (hfresh before c hprefix)

/-- A job with one attempt: leased by a worker, out of time, retried, and
leased by the same worker. -/
def leasedAgain : List JobCall :=
  [.enqueue "index" "index:0:40" 0 1, .lease "index" "w" 0 10, .list 50 20, .retry 1 20,
    .lease "index" "w" 20 10]

/-- The first handle completes the second lease. -/
theorem leasedAgain_not_fenced : ¬ ∀ calls : List JobCall, Fenced (jobWorld calls) := by
  intro hclaim
  have hfresh := (fenced_iff leasedAgain).mp (fun before _ => hclaim before)
    (leasedAgain.take 4) (.lease "index" "w" 20 10) ⟨[], rfl⟩
  refine hfresh ⟨"index", "w", 20, 10, ⟨1, "index", "index:0:40", .pending, 0, 1, 20, none, none, none,
    none⟩, rfl, ?_, ?_⟩
  · decide +kernel
  · decide +kernel

end PolisMemory
