/-
# Background jobs

`crates/polis-store/src/jobs.rs`: a table of jobs under unique keys. A worker
leases the first due job of a kind for some time and gets its row as a handle;
a checkpoint or a completion names the handle's owner and attempt number and
counts only while the lease runs. Leases that ran out are taken back by the
next lease or listing; a job out of attempts fails, and an explicit retry
starts its attempts over.

Key definitions: `BackgroundJob`, `Jobs.leaseJob`, `Jobs.checkpointJob`,
`Jobs.finishJob`, `Jobs.retryJob`, `JobCall.apply`, `JobsInv`.
Key theorems: `JobsInv.apply`, `jobs_invariant`.
-/
import PolisMemory.Tables

namespace PolisMemory

open Tables

inductive JobStatus
  | pending
  | running
  | done
  | failed
  deriving DecidableEq, Repr

/-- A row of `background_jobs`, and the handle that a lease returns. -/
structure BackgroundJob where
  id : ℤ
  kind : String
  jobKey : String
  status : JobStatus
  attempts : ℤ
  maxAttempts : ℤ
  availableAt : ℤ
  leaseOwner : Option String
  leaseUntil : Option ℤ
  checkpoint : Option String
  error : Option String
  deriving DecidableEq, Repr

/-- `i64::clamp`. -/
def clamp (low high n : ℤ) : ℤ := max low (min high n)

/-- `i64::saturating_add`. -/
def saturatingAdd (a b : ℤ) : ℤ := clamp (-2 ^ 63) (2 ^ 63 - 1) (a + b)

/-- `background_jobs`, its key unique. -/
abbrev Jobs := IndexedTable BackgroundJob.id BackgroundJob.jobKey

namespace BackgroundJob

variable (r job : BackgroundJob)

/-- `status = 'running' AND lease_until <= now`. -/
def lapsed (now : ℤ) : Bool := r.status = .running && r.leaseUntil.any (· ≤ now)

/-- The lease is taken back. -/
def expired : BackgroundJob :=
  { r with
    status := if r.maxAttempts ≤ r.attempts then .failed else .pending
    leaseOwner := none
    leaseUntil := none
    error := some "lease expired" }

/-- The guard of a checkpoint and of a completion: the row is running under
the handle's owner and attempt number, and its lease has not run out. -/
def heldBy (now : ℤ) : Bool :=
  r.id = job.id && (r.leaseOwner.isSome && r.leaseOwner = job.leaseOwner) &&
    r.attempts = job.attempts && r.status = .running && r.leaseUntil.any (now < ·)

/-- The row once it is leased. -/
def leasedTo (owner : String) (until_ : ℤ) : BackgroundJob :=
  { r with
    status := .running
    attempts := r.attempts + 1
    leaseOwner := some owner
    leaseUntil := some until_ }

/-- The status that a completion leaves: of the handle's attempts and bound. -/
def finishedStatus (error : Option String) : JobStatus :=
  if error.isNone then .done else if job.maxAttempts ≤ job.attempts then .failed else .pending

/-- The row once it is completed, for good or for a while. -/
def finished (error : Option String) (now : ℤ) : BackgroundJob :=
  { r with
    status := job.finishedStatus error
    error := error
    leaseOwner := none
    leaseUntil := none
    availableAt := saturatingAdd now (1000 * job.attempts) }

/-- The row once it is retried. -/
def retried (now : ℤ) : BackgroundJob :=
  { r with
    status := .pending
    attempts := 0
    error := none
    availableAt := now }

end BackgroundJob

namespace Jobs

variable (t : Jobs)

/-- `enqueue_job`: the job of the key, there or new. -/
def enqueueJob (kind key : String) (now maxAttempts : ℤ) : Jobs × Option ℤ :=
  let t := t.insertOrIgnore fun id =>
    ⟨id, kind, key, .pending, 0, clamp 1 20 maxAttempts, now, none, none, none, none⟩
  (t, (t.byIndex.get? key).map BackgroundJob.id)

/-- The leases that ran out are taken back. -/
def expire (now : ℤ) : Jobs := t.update (fun r => r.lapsed now) BackgroundJob.expired

/-- The jobs of a kind that a lease may take. -/
def due (kind : String) (now : ℤ) : List BackgroundJob :=
  if (t.select fun r => r.kind = kind && r.status = .running) ≠ [] then []
  else t.select fun r => r.kind = kind && r.status = .pending && r.availableAt ≤ now &&
    r.attempts < r.maxAttempts

/-- The first of them, by their times and ids. -/
def firstDue (kind : String) (now : ℤ) : Option BackgroundJob :=
  ((t.due kind now).mergeSort fun a b =>
    a.availableAt < b.availableAt || (a.availableAt = b.availableAt && a.id ≤ b.id)).head?

/-- When a lease runs out. -/
def leaseEnd (now leaseMs : ℤ) : ℤ := saturatingAdd now (clamp 1 600000 leaseMs)

/-- The row of a job, leased. -/
def grantTo (id : ℤ) (owner : String) (until_ : ℤ) : Jobs :=
  t.update (fun r => r.id = id) fun r => r.leasedTo owner until_

/-- `lease_job`. -/
def leaseJob (kind owner : String) (now leaseMs : ℤ) : Jobs × Option BackgroundJob :=
  let t := t.expire now
  match t.firstDue kind now with
  | none => (t, none)
  | some job =>
    let t := t.grantTo job.id owner (leaseEnd now leaseMs)
    (t, t.get? job.id)

/-- How many rows a handle's guard lets through. -/
def heldRows (job : BackgroundJob) (now : ℤ) : List BackgroundJob :=
  t.select fun r => r.heldBy job now

/-- `checkpoint_job`. -/
def checkpointJob (job : BackgroundJob) (checkpoint : String) (now : ℤ) : Jobs × Bool :=
  (t.update (fun r => r.heldBy job now) fun r => { r with checkpoint := some checkpoint },
    (t.heldRows job now).length > 0)

/-- `finish_job`. -/
def finishJob (job : BackgroundJob) (error : Option String) (now : ℤ) : Jobs × Bool :=
  (t.update (fun r => r.heldBy job now) fun r => r.finished job error now,
    (t.heldRows job now).length > 0)

/-- `retry_job`. -/
def retryJob (id now : ℤ) : Jobs × Bool :=
  (t.update (fun r => r.id = id && r.status = .failed) fun r => r.retried now,
    (t.select fun r => r.id = id && r.status = .failed).length > 0)

/-- `list_jobs`, at its own clock. -/
def listJobs (limit : ℕ) (now : ℤ) : Jobs × List BackgroundJob :=
  let t := t.expire now
  (t, (t.rows.mergeSort fun a b => b.id ≤ a.id).take (min limit 1000))

end Jobs

/-! ### Calls -/

inductive JobCall
  | enqueue (kind key : String) (now maxAttempts : ℤ)
  | lease (kind owner : String) (now leaseMs : ℤ)
  | checkpoint (job : BackgroundJob) (text : String) (now : ℤ)
  | finish (job : BackgroundJob) (error : Option String) (now : ℤ)
  | list (limit : ℕ) (now : ℤ)
  | retry (id now : ℤ)

/-- The table after a call. -/
def JobCall.apply (t : Jobs) : JobCall → Jobs
  | .enqueue kind key now maxAttempts => (t.enqueueJob kind key now maxAttempts).1
  | .lease kind owner now leaseMs => (t.leaseJob kind owner now leaseMs).1
  | .checkpoint job text now => (t.checkpointJob job text now).1
  | .finish job error now => (t.finishJob job error now).1
  | .list limit now => (t.listJobs limit now).1
  | .retry id now => (t.retryJob id now).1

/-- The handle that a call returns. -/
def JobCall.grant (t : Jobs) : JobCall → Option BackgroundJob
  | .lease kind owner now leaseMs => (t.leaseJob kind owner now leaseMs).2
  | _ => none

/-- The table after a history of calls. -/
def jobRun : List JobCall → Jobs → Jobs
  | [], t => t
  | c :: calls, t => jobRun calls (c.apply t)

/-! ### What a lease takes -/

section lease

variable {t : Jobs} {kind owner : String} {now leaseMs : ℤ} {job : BackgroundJob}

theorem mem_due : job ∈ t.due kind now ↔ (∀ r ∈ t.rows, r.kind = kind → r.status ≠ .running) ∧
    job ∈ t.rows ∧ job.kind = kind ∧ job.status = .pending ∧ job.availableAt ≤ now ∧
      job.attempts < job.maxAttempts := by
  have hnone : (t.select fun r => r.kind = kind && r.status = .running) = [] ↔
      ∀ r ∈ t.rows, r.kind = kind → r.status ≠ .running := by
    simp [Table.select, List.filter_eq_nil_iff]
  unfold Jobs.due
  rw [← hnone]
  split_ifs with hrun
  · simp [hrun]
  · simp only [not_not.mp hrun, true_and, Table.mem_select, ← Table.mem_rows, Bool.and_eq_true,
      decide_eq_true_eq, and_assoc]

/-- The first due job is due. -/
theorem firstDue_mem (h : t.firstDue kind now = some job) : job ∈ t.due kind now :=
  List.mem_mergeSort.mp (List.mem_of_head? h)

/-- The rows with `p` are changed by `f`. -/
def Updates (t t' : Jobs) (p : BackgroundJob → Bool) (f : BackgroundJob → BackgroundJob) : Prop :=
  (∀ r, (f r).id = r.id) ∧ t'.rows = t.rows.map fun r => if p r then f r else r

theorem updates_expire : Updates t (t.expire now) (fun r => r.lapsed now) BackgroundJob.expired :=
  ⟨fun _ => rfl, rfl⟩

theorem updates_grantTo (id : ℤ) (owner : String) (until_ : ℤ) :
    Updates t (t.grantTo id owner until_) (fun r => r.id = id) fun r => r.leasedTo owner until_ :=
  ⟨fun _ => rfl, rfl⟩

theorem updates_checkpoint (text : String) : Updates t (t.checkpointJob job text now).1
    (fun r => r.heldBy job now) fun r => { r with checkpoint := some text } := ⟨fun _ => rfl, rfl⟩

theorem updates_finish (error : Option String) : Updates t (t.finishJob job error now).1
    (fun r => r.heldBy job now) fun r => r.finished job error now := ⟨fun _ => rfl, rfl⟩

theorem updates_retry (id : ℤ) : Updates t (t.retryJob id now).1
    (fun r => r.id = id && r.status = .failed) fun r => r.retried now := ⟨fun _ => rfl, rfl⟩

theorem Updates.mem {t' : Jobs} {p : BackgroundJob → Bool} {f : BackgroundJob → BackgroundJob}
    (h : Updates t t' p f) {a : BackgroundJob} (ha : a ∈ t'.rows) :
    ∃ x ∈ t.rows, (if p x then f x else x) = a := by
  rw [h.2] at ha
  exact List.mem_map.mp ha

theorem Updates.get? {t' : Jobs} {p : BackgroundJob → Bool} {f : BackgroundJob → BackgroundJob}
    (h : Updates t t' p f) {id : ℤ} {r : BackgroundJob} (hr : t.get? id = some r) :
    t'.get? id = some (if p r then f r else r) := by
  obtain ⟨hmem, hid⟩ := Table.get?_eq_some.mp hr
  refine Table.get?_eq_some.mpr ⟨?_, ?_⟩
  · rw [h.2]
    exact List.mem_map_of_mem hmem
  · split_ifs
    · exact (h.1 r).trans hid
    · exact hid

/-- The first due job is granted. -/
theorem leaseJob_of_firstDue {r : BackgroundJob} (h : (t.expire now).firstDue kind now = some r) :
    t.leaseJob kind owner now leaseMs = ((t.expire now).grantTo r.id owner (Jobs.leaseEnd now leaseMs),
      some (r.leasedTo owner (Jobs.leaseEnd now leaseMs))) := by
  have hget : (t.expire now).get? r.id = some r := Table.mem_rows.mp (mem_due.mp (firstDue_mem h)).2.1
  have hrow := (updates_grantTo r.id owner (Jobs.leaseEnd now leaseMs)).get? hget
  rw [if_pos (decide_eq_true rfl)] at hrow
  unfold Jobs.leaseJob
  dsimp only
  rw [h]
  dsimp only
  rw [hrow]

/-- What a lease that grants a job did. -/
theorem leaseJob_some (h : (t.leaseJob kind owner now leaseMs).2 = some job) :
    ∃ r, (t.expire now).firstDue kind now = some r ∧
      job = r.leasedTo owner (Jobs.leaseEnd now leaseMs) ∧
        (t.leaseJob kind owner now leaseMs).1 =
          (t.expire now).grantTo r.id owner (Jobs.leaseEnd now leaseMs) := by
  cases hfirst : (t.expire now).firstDue kind now with
  | none =>
    unfold Jobs.leaseJob at h
    dsimp only at h
    rw [hfirst] at h
    exact absurd h nofun
  | some r =>
    rw [leaseJob_of_firstDue hfirst] at h ⊢
    exact ⟨r, rfl, (Option.some.inj h).symm, rfl⟩

theorem leaseJob_none (h : (t.leaseJob kind owner now leaseMs).2 = none) :
    (t.leaseJob kind owner now leaseMs).1 = t.expire now := by
  cases hfirst : (t.expire now).firstDue kind now with
  | none =>
    unfold Jobs.leaseJob
    dsimp only
    rw [hfirst]
  | some r =>
    rw [leaseJob_of_firstDue hfirst] at h
    exact absurd h (Option.some_ne_none _)

end lease

/-! ### The invariant -/

/-- The counts of a job stay in their bounds, and a running one has an owner,
a lease end and at least one attempt. -/
def BackgroundJob.Sound (r : BackgroundJob) : Prop :=
  1 ≤ r.maxAttempts ∧ 0 ≤ r.attempts ∧ r.attempts ≤ r.maxAttempts ∧
    (r.status = .running → r.leaseOwner.isSome = true ∧ r.leaseUntil.isSome = true ∧ 1 ≤ r.attempts)

structure JobsInv (t : Jobs) : Prop where
  alone : ∀ a ∈ t.rows, ∀ b ∈ t.rows, a.kind = b.kind → a.status = .running →
    b.status = .running → a = b
  sound : ∀ r ∈ t.rows, r.Sound

section invariant

variable {t : Jobs}

theorem jobsInv_empty : JobsInv (∅ : Jobs) :=
  ⟨fun _ ha => absurd ha List.not_mem_nil, fun _ hr => absurd hr List.not_mem_nil⟩

theorem le_clamp {low high n : ℤ} : low ≤ clamp low high n := le_max_left _ _

/-- An update under which no more jobs run. -/
theorem JobsInv.update (hi : JobsInv t) {t' : Jobs} {p : BackgroundJob → Bool}
    {f : BackgroundJob → BackgroundJob} (hu : Updates t t' p f) (hkind : ∀ r, (f r).kind = r.kind)
    (hrun : ∀ r, p r = true → (f r).status = .running → r.status = .running)
    (hsound : ∀ r, p r = true → r.Sound → (f r).Sound) :
    JobsInv t' := by
  constructor
  · intro a ha b hb hk har hbr
    obtain ⟨x, hxm, rfl⟩ := hu.mem ha
    obtain ⟨y, hym, rfl⟩ := hu.mem hb
    have hkinds : x.kind = y.kind := by
      have hkx : (if p x then f x else x).kind = x.kind := by split_ifs <;> simp [hkind]
      have hky : (if p y then f y else y).kind = y.kind := by split_ifs <;> simp [hkind]
      rw [← hkx, hk, hky]
    have hruns : ∀ z, (if p z then f z else z).status = .running → z.status = .running := by
      intro z hz
      split_ifs at hz with hp
      · exact hrun z hp hz
      · exact hz
    rw [hi.alone x hxm y hym hkinds (hruns x har) (hruns y hbr)]
  · intro r hr
    obtain ⟨x, hxm, rfl⟩ := hu.mem hr
    split_ifs with hp
    · exact hsound x hp (hi.sound x hxm)
    · exact hi.sound x hxm

theorem JobsInv.expire (hi : JobsInv t) (now : ℤ) : JobsInv (t.expire now) := by
  have hidle : ∀ r : BackgroundJob, r.expired.status ≠ .running := by
    intro r
    unfold BackgroundJob.expired
    dsimp only
    split_ifs <;> decide
  exact hi.update updates_expire (fun _ => rfl) (fun r _ hrun => absurd hrun (hidle r))
    fun r _ hs => ⟨hs.1, hs.2.1, hs.2.2.1, fun hrun => absurd hrun (hidle r)⟩

/-- A lease is given where no job of the kind runs. -/
theorem JobsInv.grantTo (hi : JobsInv t) {kind owner : String} {now until_ : ℤ} {r : BackgroundJob}
    (hr : r ∈ t.due kind now) : JobsInv (t.grantTo r.id owner until_) := by
  obtain ⟨hnone, hrow, hkind, hpending, -, hattempts⟩ := mem_due.mp hr
  have hcases : ∀ a ∈ (t.grantTo r.id owner until_).rows,
      a = r.leasedTo owner until_ ∨ (a ∈ t.rows ∧ a.id ≠ r.id) := by
    intro a ha
    obtain ⟨x, hx, rfl⟩ := (updates_grantTo _ _ _).mem ha
    by_cases hid : x.id = r.id
    · rw [if_pos (decide_eq_true hid)]
      exact .inl (congrArg (·.leasedTo owner until_) (List.inj_on_of_nodup_map t.nodup hx hrow hid))
    · rw [if_neg (by simpa using hid)]
      exact .inr ⟨hx, hid⟩
  constructor
  · intro a ha b hb hk har hbr
    rcases hcases a ha with rfl | ⟨ha', -⟩ <;> rcases hcases b hb with rfl | ⟨hb', -⟩
    · rfl
    · exact absurd hbr (hnone b hb' (hk.symm.trans hkind))
    · exact absurd har (hnone a ha' (hk.trans hkind))
    · exact hi.alone a ha' b hb' hk har hbr
  · intro a ha
    rcases hcases a ha with rfl | ⟨ha', -⟩
    · obtain ⟨hmax, hpos, -, -⟩ := hi.sound r hrow
      have hone : 1 ≤ r.attempts + 1 := by omega
      have hle : r.attempts + 1 ≤ r.maxAttempts := by omega
      exact ⟨hmax, by show 0 ≤ r.attempts + 1; omega, hle, fun _ => ⟨rfl, rfl, hone⟩⟩
    · exact hi.sound a ha'

theorem JobsInv.enqueue (hi : JobsInv t) (kind key : String) (now maxAttempts : ℤ) :
    JobsInv (t.enqueueJob kind key now maxAttempts).1 := by
  have hcases : ∀ a ∈ (t.enqueueJob kind key now maxAttempts).1.rows, a ∈ t.rows ∨
      a = ⟨t.nextId, kind, key, .pending, 0, clamp 1 20 maxAttempts, now, none, none, none, none⟩ :=
    fun a ha => IndexedTable.mem_insertOrIgnore ha
  constructor
  · intro a ha b hb hk har hbr
    rcases hcases a ha with ha' | rfl
    · rcases hcases b hb with hb' | rfl
      · exact hi.alone a ha' b hb' hk har hbr
      · exact absurd hbr nofun
    · exact absurd har nofun
  · intro a ha
    rcases hcases a ha with ha' | rfl
    · exact hi.sound a ha'
    · have hmax : (1 : ℤ) ≤ clamp 1 20 maxAttempts := le_clamp
      exact ⟨hmax, le_refl 0, by show (0 : ℤ) ≤ clamp 1 20 maxAttempts; omega, nofun⟩

/-- Every call keeps the invariant. -/
theorem JobsInv.apply (hi : JobsInv t) (c : JobCall) : JobsInv (c.apply t) := by
  cases c with
  | enqueue kind key now maxAttempts => exact hi.enqueue kind key now maxAttempts
  | lease kind owner now leaseMs =>
    show JobsInv (t.leaseJob kind owner now leaseMs).1
    cases hg : (t.leaseJob kind owner now leaseMs).2 with
    | none =>
      rw [leaseJob_none hg]
      exact hi.expire now
    | some job =>
      obtain ⟨r, hr, -, htable⟩ := leaseJob_some hg
      rw [htable]
      exact (hi.expire now).grantTo (firstDue_mem hr)
  | checkpoint job text now =>
    exact hi.update (updates_checkpoint text) (fun _ => rfl) (fun _ _ hrun => hrun) fun _ _ hs => hs
  | finish job error now =>
    have hidle : ∀ r : BackgroundJob, (r.finished job error now).status ≠ .running := by
      intro r
      unfold BackgroundJob.finished BackgroundJob.finishedStatus
      dsimp only
      split_ifs <;> decide
    exact hi.update (updates_finish error) (fun _ => rfl) (fun r _ hrun => absurd hrun (hidle r))
      fun r _ hs => ⟨hs.1, hs.2.1, hs.2.2.1, fun hrun => absurd hrun (hidle r)⟩
  | list limit now => exact hi.expire now
  | retry id now =>
    refine hi.update (updates_retry id) (fun _ => rfl) (fun _ _ hrun => absurd hrun nofun) fun r _ hs => ?_
    have hmax := hs.1
    exact ⟨hmax, le_refl 0, by show (0 : ℤ) ≤ r.maxAttempts; omega, nofun⟩

theorem JobsInv.run (hi : JobsInv t) (calls : List JobCall) : JobsInv (jobRun calls t) := by
  induction calls generalizing t with
  | nil => exact hi
  | cons c calls ih => exact ih (hi.apply c)

/-! ### What becomes of a row -/

/-- A done job stays as it is, the bound is fixed, and attempts are only taken
away by a retry. -/
structure RowKept (retries : Prop) (r r' : BackgroundJob) : Prop where
  id : r'.id = r.id
  done : r.status = .done → r' = r
  bound : r'.maxAttempts = r.maxAttempts
  attempts : ¬ retries → r.attempts ≤ r'.attempts

theorem RowKept.refl {retries : Prop} (r : BackgroundJob) : RowKept retries r r :=
  ⟨rfl, fun _ => rfl, rfl, fun _ => le_refl _⟩

theorem RowKept.trans {retries : Prop} {r r' r'' : BackgroundJob} (h : RowKept retries r r')
    (h' : RowKept retries r' r'') : RowKept retries r r'' := by
  refine ⟨h'.id.trans h.id, fun hd => ?_, h'.bound.trans h.bound, fun hn =>
    (h.attempts hn).trans (h'.attempts hn)⟩
  have heq := h.done hd
  rw [heq] at h'
  exact h'.done hd

/-- An update that leaves done jobs alone. -/
theorem Updates.rowKept {t' : Jobs} {p : BackgroundJob → Bool} {f : BackgroundJob → BackgroundJob}
    (hu : Updates t t' p f) {retries : Prop} {id : ℤ} {r : BackgroundJob} (hr : t.get? id = some r)
    (hp : p r = true → r.status ≠ .done) (hmax : (f r).maxAttempts = r.maxAttempts)
    (hle : p r = true → ¬ retries → r.attempts ≤ (f r).attempts) :
    ∃ r', t'.get? id = some r' ∧ RowKept retries r r' := by
  refine ⟨_, hu.get? hr, ?_⟩
  split_ifs with hpr
  · exact ⟨hu.1 r, fun hd => absurd hd (hp hpr), hmax, hle hpr⟩
  · exact .refl r

theorem rowKept_expire {retries : Prop} {id now : ℤ} {r : BackgroundJob} (hr : t.get? id = some r) :
    ∃ r', (t.expire now).get? id = some r' ∧ RowKept retries r r' := by
  refine updates_expire.rowKept hr (fun hp => ?_) rfl fun _ _ => le_refl _
  have hrun := (Bool.and_eq_true _ _).mp hp
  rw [of_decide_eq_true hrun.1]
  decide

/-- What a call leaves of a row. -/
theorem rowKept_apply (c : JobCall) {id : ℤ} {r : BackgroundJob} (hr : t.get? id = some r) :
    ∃ r', (c.apply t).get? id = some r' ∧ RowKept (∃ now, c = .retry id now) r r' := by
  have hheld : ∀ (job r : BackgroundJob) (now : ℤ), r.heldBy job now = true → r.status ≠ .done := by
    intro job r now hh
    simp only [BackgroundJob.heldBy, Bool.and_eq_true, decide_eq_true_eq] at hh
    rw [hh.1.2]
    decide
  cases c with
  | enqueue kind key now maxAttempts =>
    exact ⟨r, IndexedTable.get?_insertOrIgnore_old hr, .refl r⟩
  | lease kind owner now leaseMs =>
    show ∃ r', (t.leaseJob kind owner now leaseMs).1.get? id = some r' ∧ _
    cases hg : (t.leaseJob kind owner now leaseMs).2 with
    | none =>
      rw [leaseJob_none hg]
      exact rowKept_expire hr
    | some job =>
      obtain ⟨x, hx, -, htable⟩ := leaseJob_some hg
      obtain ⟨-, hxrow, -, hpending, -⟩ := mem_due.mp (firstDue_mem hx)
      rw [htable]
      obtain ⟨r', hr', hkept⟩ : ∃ r', (t.expire now).get? id = some r' ∧
          RowKept (∃ n, JobCall.lease kind owner now leaseMs = .retry id n) r r' := rowKept_expire hr
      refine ⟨if decide (r'.id = x.id) then r'.leasedTo owner (Jobs.leaseEnd now leaseMs) else r', ?_,
        hkept.trans ?_⟩
      · exact (updates_grantTo _ _ _).get? hr'
      · split_ifs with hid
        · have heq : r' = x :=
            List.inj_on_of_nodup_map (t.expire now).nodup (Table.get?_eq_some.mp hr').1 hxrow
              (of_decide_eq_true hid)
          refine ⟨rfl, fun hd => ?_, rfl, fun _ => ?_⟩
          · rw [heq, hpending] at hd
            exact absurd hd nofun
          · show r'.attempts ≤ r'.attempts + 1
            omega
        · exact .refl r'
  | checkpoint job text now =>
    exact (updates_checkpoint text).rowKept hr (hheld job r now) rfl fun _ _ => le_refl _
  | finish job error now =>
    exact (updates_finish error).rowKept hr (hheld job r now) rfl fun _ _ => le_refl _
  | list limit now => exact rowKept_expire hr
  | retry k now =>
    refine (updates_retry k).rowKept hr (fun hx => ?_) rfl fun hx hn => ?_
    · rw [of_decide_eq_true ((Bool.and_eq_true _ _).mp hx).2]
      decide
    · have hid : r.id = k := of_decide_eq_true ((Bool.and_eq_true _ _).mp hx).1
      rw [Table.key_of_get? hr] at hid
      exact absurd ⟨now, by rw [hid]⟩ hn

theorem RowKept.mono {retries retries' : Prop} {r r' : BackgroundJob} (h : RowKept retries r r')
    (himp : retries → retries') : RowKept retries' r r' :=
  ⟨h.id, h.done, h.bound, fun hn => h.attempts fun hr => hn (himp hr)⟩

/-- What a run leaves of a row. -/
theorem rowKept_run (calls : List JobCall) {id : ℤ} : ∀ {t : Jobs} {r : BackgroundJob},
    t.get? id = some r →
      ∃ r', (jobRun calls t).get? id = some r' ∧ RowKept (∃ now, .retry id now ∈ calls) r r' := by
  induction calls with
  | nil => exact fun hr => ⟨_, hr, .refl _⟩
  | cons c calls ih =>
    intro t r hr
    obtain ⟨r', hr', hkept⟩ := rowKept_apply c hr
    obtain ⟨r'', hr'', hkept'⟩ := ih hr'
    refine ⟨r'', hr'', (hkept.mono ?_).trans (hkept'.mono ?_)⟩
    · exact fun ⟨now, hc⟩ => ⟨now, hc ▸ List.mem_cons_self⟩
    · exact fun ⟨now, hm⟩ => ⟨now, List.mem_cons_of_mem c hm⟩

/-- A job out of attempts is not leased. -/
theorem grant_attempts {c : JobCall} {job : BackgroundJob} (hg : c.grant t = some job) {r : BackgroundJob}
    (hr : t.get? job.id = some r) : r.attempts < r.maxAttempts := by
  cases c with
  | lease kind owner now leaseMs =>
    obtain ⟨x, hx, rfl, -⟩ := leaseJob_some hg
    obtain ⟨-, hrow, -, -, -, hlt⟩ := mem_due.mp (firstDue_mem hx)
    have hexpire : Updates t (t.expire now) (fun r => r.lapsed now) BackgroundJob.expired :=
      updates_expire
    have hexp := hexpire.get? hr
    have heq : (if r.lapsed now then r.expired else r) = x :=
      Option.some.inj (hexp.symm.trans (Table.mem_rows.mp hrow))
    rw [← heq] at hlt
    split_ifs at hlt
    · exact hlt
    · exact hlt
  | enqueue => exact absurd hg nofun
  | checkpoint => exact absurd hg nofun
  | finish => exact absurd hg nofun
  | list => exact absurd hg nofun
  | retry => exact absurd hg nofun

end invariant

/-- After every history of calls at any clocks: one job of a kind runs at most;
a running job has an owner, a lease end and an attempt count within its bound;
done jobs stay as they are, whatever follows; no key is there twice; and a job
out of attempts is leased again only after a retry of it. -/
theorem jobs_invariant (calls more : List JobCall) :
    let t := jobRun calls ∅
    (∀ a ∈ t.rows, ∀ b ∈ t.rows, a.kind = b.kind → a.status = .running → b.status = .running →
        a = b) ∧
      (∀ r ∈ t.rows, r.status = .running → r.leaseOwner.isSome = true ∧ r.leaseUntil.isSome = true ∧
        1 ≤ r.attempts ∧ r.attempts ≤ r.maxAttempts) ∧
      (∀ r ∈ t.rows, r.status = .done → r ∈ (jobRun more t).rows) ∧
      (t.rows.map BackgroundJob.jobKey).Nodup ∧
      ∀ r ∈ t.rows, r.maxAttempts ≤ r.attempts → (∀ now, .retry r.id now ∉ more) →
        ∀ (c : JobCall) (job : BackgroundJob), c.grant (jobRun more t) = some job → job.id ≠ r.id := by
  intro t
  have hinv : JobsInv t := jobsInv_empty.run calls
  refine ⟨hinv.alone, fun r hr hrun => ?_, fun r hr hd => ?_, t.unique, fun r hr hmax hn c job hg hid => ?_⟩
  · obtain ⟨-, -, hle, hheld⟩ := hinv.sound r hr
    obtain ⟨howner, huntil, hone⟩ := hheld hrun
    exact ⟨howner, huntil, hone, hle⟩
  · obtain ⟨r', hr', hkept⟩ := rowKept_run more (Table.mem_rows.mp hr)
    rw [hkept.done hd] at hr'
    exact (Table.get?_eq_some.mp hr').1
  · obtain ⟨r', hr', hkept⟩ := rowKept_run more (Table.mem_rows.mp hr)
    have hlt : r'.attempts < r'.maxAttempts := grant_attempts hg (hid ▸ hr')
    have hle : r.attempts ≤ r'.attempts := hkept.attempts fun ⟨now, hm⟩ => hn now hm
    have hbound := hkept.bound
    omega

end PolisMemory
