/-
# The consolidation cadence

`consolidation_due` of `crates/polis-memory/src/filing.rs` bumps a counter in
`polis_meta` and answers whether the run consolidates: every fifth count, or
when the health pass asked for it. `file_delta` calls it for an organize run
and for a `basic_filing_once` pass alike; the latter has no model.

The counter is read and written by two statements, so a basic pass can come
between those of an organize run and of another pass. Organize runs hold a
lease and follow one another; basic passes come at any time.

Key definitions: `consolidationDue`, `Cadence.step`, `CadenceStep.Apart`.
Key theorems: `Cadence.organizeRun_eq`, `consolidates_in_five`.
-/
import PolisMemory.Catalog

namespace PolisMemory

/-- `CONSOLIDATE_EVERY`. -/
def consolidateEvery : ℤ := 5

/-- `ORGANIZE_COUNT_KEY`. -/
def organizeCountKey : String := "polis.filing.organizeCount"

/-- `HEALTH_PRESSURE_KEY`. -/
def healthPressureKey : String := "polis.health.pressure"

/-- `polis_meta`. -/
abbrev MetaTable := String → Option String

namespace MetaTable

/-- `set_meta`. -/
def set (m : MetaTable) (key value : String) : MetaTable := Function.update m key (some value)

/-- The organize counter, 0 if there is none that parses. -/
def count (m : MetaTable) : ℤ := ((m organizeCountKey).bind parseI64).getD 0

/-- The health pass asked for a consolidation. -/
def pressure (m : MetaTable) : Bool := m healthPressureKey = some "1"

end MetaTable

/-- `consolidation_due`: bump the organize counter and say whether this run
consolidates. -/
def consolidationDue (m : MetaTable) (hasModel : Bool) : Bool × MetaTable :=
  let n := m.count + 1
  let m := m.set organizeCountKey (i64ToString n)
  if !hasModel then
    -- nothing can consolidate without a model; the counter still runs
    (false, m)
  else if m.pressure then (true, m.set healthPressureKey "0")
  else (n.tmod consolidateEvery = 0, m)

/-! ### The counter -/

namespace MetaTable

@[simp] theorem count_set {m : MetaTable} {n : ℤ} (hlo : -2 ^ 63 ≤ n) (hhi : n < 2 ^ 63) :
    (m.set organizeCountKey (i64ToString n)).count = n := by
  unfold count set
  rw [Function.update_self, Option.bind_some, parseI64_i64ToString hlo hhi, Option.getD_some]

@[simp] theorem count_set_pressure (m : MetaTable) (v : String) :
    (m.set healthPressureKey v).count = m.count := by
  unfold count set
  rw [Function.update_of_ne (by decide)]

@[simp] theorem pressure_set_count (m : MetaTable) (v : String) :
    (m.set organizeCountKey v).pressure = m.pressure := by
  unfold pressure set
  rw [Function.update_of_ne (by decide)]

/-- The counter is an `i64`. -/
theorem le_count (m : MetaTable) : -2 ^ 63 ≤ m.count := by
  unfold count
  cases h : (m organizeCountKey).bind parseI64 with
  | none => simp
  | some n =>
    obtain ⟨s, -, hs⟩ := Option.bind_eq_some_iff.mp h
    exact le_of_parseI64 hs

end MetaTable

/-! ### Statement by statement -/

/-- Where an organize run stands in `consolidation_due`. -/
inductive DuePhase
  /-- No run is in it. -/
  | idle
  /-- The count is taken and not written yet. -/
  | counted (n : ℤ)
  /-- The count is written. -/
  | bumped (n : ℤ)
  /-- The pressure was seen and is cleared next. -/
  | pressed

/-- The table, the organize run in `consolidation_due`, the counts that basic
passes have taken and not written yet, and the answers of the organize runs,
the newest first. -/
structure Cadence where
  table : MetaTable
  organize : DuePhase
  basics : List ℤ
  answers : List Bool

/-- One statement of an organize run or of a basic pass, or the health pass. -/
inductive CadenceStep
  | organizeRead
  | organizeBump
  | organizePressure
  | organizeClear
  | basicRead
  | basicBump (n : ℤ)
  | health (pressure : String)

namespace Cadence

/-- No run yet. -/
def start (m : MetaTable) : Cadence := ⟨m, .idle, [], []⟩

/-- Execute one statement; what cannot come next changes nothing. -/
def step (w : Cadence) : CadenceStep → Cadence
  | .organizeRead =>
    match w.organize with
    | .idle => { w with organize := .counted (w.table.count + 1) }
    | _ => w
  | .organizeBump =>
    match w.organize with
    | .counted n =>
      { w with table := w.table.set organizeCountKey (i64ToString n), organize := .bumped n }
    | _ => w
  | .organizePressure =>
    match w.organize with
    | .bumped n =>
      if w.table.pressure then { w with organize := .pressed, answers := true :: w.answers }
      else { w with organize := .idle, answers := (n.tmod consolidateEvery = 0) :: w.answers }
    | _ => w
  | .organizeClear =>
    match w.organize with
    | .pressed => { w with table := w.table.set healthPressureKey "0", organize := .idle }
    | _ => w
  | .basicRead => { w with basics := (w.table.count + 1) :: w.basics }
  | .basicBump n =>
    if n ∈ w.basics then
      { w with table := w.table.set organizeCountKey (i64ToString n), basics := w.basics.erase n }
    else w
  | .health v => { w with table := w.table.set healthPressureKey v }

/-- Statements in a row. -/
def run (w : Cadence) (steps : List CadenceStep) : Cadence := steps.foldl step w

/-- An organize run that nothing interrupts. -/
def organizeRun : List CadenceStep :=
  [.organizeRead, .organizeBump, .organizePressure, .organizeClear]

/-- It is `consolidation_due`. -/
theorem organizeRun_eq (m : MetaTable) (basics : List ℤ) (answers : List Bool) :
    run ⟨m, .idle, basics, answers⟩ organizeRun =
      ⟨(consolidationDue m true).2, .idle, basics, (consolidationDue m true).1 :: answers⟩ := by
  simp only [run, organizeRun, List.foldl_cons, List.foldl_nil, step, consolidationDue]
  cases hp : (m.set organizeCountKey (i64ToString (m.count + 1))).pressure <;> simp

/-- So is a basic pass that nothing interrupts. -/
theorem basicRun_eq (m : MetaTable) (phase : DuePhase) (basics : List ℤ) (answers : List Bool) :
    run ⟨m, phase, basics, answers⟩ [.basicRead, .basicBump (m.count + 1)] =
      ⟨(consolidationDue m false).2, phase, basics, answers⟩ := by
  simp [run, step, consolidationDue]

end Cadence

/-- The counter has room, and a basic pass writes the count after the one in
the table, no multiple of `CONSOLIDATE_EVERY`, while no organize run is about
to write its own. -/
def CadenceStep.Apart (w : Cadence) : CadenceStep → Prop
  | .organizeRead => w.table.count + 1 < 2 ^ 63
  | .basicBump n => n ∈ w.basics → n = w.table.count + 1 ∧ n < 2 ^ 63 ∧
      ¬ consolidateEvery ∣ n ∧ ∀ k, w.organize ≠ .counted k
  | _ => True

instance decApart (w : Cadence) : (st : CadenceStep) → Decidable (st.Apart w)
  | .organizeRead => inferInstanceAs (Decidable (_ < _))
  | .basicBump n =>
    have : Decidable (∀ k, w.organize ≠ .counted k) :=
      match h : w.organize with
      | .counted k => .isFalse fun hk => hk k rfl
      | .idle => .isTrue fun _ hk => by cases hk
      | .bumped _ => .isTrue fun _ hk => by cases hk
      | .pressed => .isTrue fun _ hk => by cases hk
    inferInstanceAs (Decidable (_ → _ ∧ _ ∧ ¬ _ ∧ _))
  | .organizeBump | .organizePressure | .organizeClear | .basicRead | .health _ =>
    inferInstanceAs (Decidable True)

/-- Every statement of the run keeps apart. -/
def Cadence.Apart : Cadence → List CadenceStep → Prop
  | _, [] => True
  | w, st :: steps => st.Apart w ∧ Apart (w.step st) steps

instance decApartAll : (w : Cadence) → (steps : List CadenceStep) → Decidable (w.Apart steps)
  | _, [] => inferInstanceAs (Decidable True)
  | w, st :: steps =>
    have := decApartAll (w.step st) steps
    inferInstanceAs (Decidable (_ ∧ _))

/-! ### Windows of answers -/

/-- How many answers since the last consolidation. -/
def sinceConsolidated (answers : List Bool) : ℕ := (answers.takeWhile (!·)).length

/-- Among any `n` answers in a row one is to consolidate. -/
def Cadenced (n : ℕ) (answers : List Bool) : Prop :=
  ∀ before window after, answers = before ++ window ++ after → window.length = n → true ∈ window

theorem cadenced_nil {n : ℕ} (hn : 0 < n) : Cadenced n [] := by
  intro before window after h hw
  have : window = [] := by simp_all
  subst this
  simp at hw
  omega

theorem sinceConsolidated_window (window after : List Bool) (h : true ∉ window) :
    window.length ≤ sinceConsolidated (window ++ after) := by
  unfold sinceConsolidated
  rw [List.takeWhile_append_of_pos, List.length_append]
  · omega
  · intro b hb
    cases b with
    | false => rfl
    | true => exact absurd hb h

/-- One more answer: the windows that it begins. -/
theorem Cadenced.cons {n : ℕ} {answers : List Bool} {a : Bool} (hc : Cadenced n answers)
    (ha : sinceConsolidated (a :: answers) < n) : Cadenced n (a :: answers) := by
  intro before window after h hw
  cases before with
  | cons b before =>
    rw [List.cons_append, List.cons_append, List.cons.injEq] at h
    exact hc before window after h.2 hw
  | nil =>
    rw [List.nil_append] at h
    by_contra hno
    have hlen : window.length ≤ sinceConsolidated (a :: answers) := by
      rw [h]
      exact sinceConsolidated_window window after hno
    omega

/-! ### The run -/

/-- No more answers have come since the last consolidation than the counter
has left its last multiple: `k` answers, in each phase. -/
def DuePhase.Behind (m : MetaTable) (k : ℤ) : DuePhase → Prop
  | .idle | .pressed => k ≤ m.count % consolidateEvery
  | .counted n => n = m.count + 1 ∧ n < 2 ^ 63 ∧ k ≤ m.count % consolidateEvery
  | .bumped n => ¬ consolidateEvery ∣ n → k + 1 ≤ m.count % consolidateEvery

/-- The answers so far are cadenced, and those since the last consolidation
no more than the counter allows. -/
structure Cadence.Paced (w : Cadence) : Prop where
  cadenced : Cadenced consolidateEvery.toNat w.answers
  behind : w.organize.Behind w.table (sinceConsolidated w.answers)

namespace Cadence

theorem paced_start (m : MetaTable) : (start m).Paced where
  cadenced := cadenced_nil (by decide)
  behind := Int.emod_nonneg _ (by decide)

/-- The next count that is no multiple leaves one more behind. -/
theorem succ_emod {n : ℤ} (hn : ¬ consolidateEvery ∣ n + 1) :
    (n + 1) % consolidateEvery = n % consolidateEvery + 1 := by
  unfold consolidateEvery at *
  omega

theorem Paced.organizePressure {m : MetaTable} {n : ℤ} {basics : List ℤ} {answers : List Bool}
    (hp : Paced ⟨m, .bumped n, basics, answers⟩) :
    (step ⟨m, .bumped n, basics, answers⟩ .organizePressure).Paced := by
  have hc : Cadenced 5 answers := hp.cadenced
  have hbehind : ¬ consolidateEvery ∣ n →
      (sinceConsolidated answers : ℤ) + 1 ≤ m.count % consolidateEvery := hp.behind
  have hcount : 0 ≤ m.count % consolidateEvery := Int.emod_nonneg _ (by decide)
  have htrue : Cadenced 5 (true :: answers) := hc.cons (Nat.succ_pos 4)
  simp only [step]
  by_cases hpr : m.pressure = true
  · rw [if_pos hpr]
    exact ⟨htrue, hcount⟩
  · rw [if_neg hpr]
    by_cases hn : n.tmod consolidateEvery = 0
    · rw [decide_eq_true hn]
      exact ⟨htrue, hcount⟩
    · rw [decide_eq_false hn]
      have hbound := hbehind fun h => hn (Int.tmod_eq_zero_of_dvd h)
      have hlt : m.count % consolidateEvery < 5 := Int.emod_lt_of_pos _ (by decide)
      have hcons : sinceConsolidated (false :: answers) = sinceConsolidated answers + 1 := rfl
      refine ⟨hc.cons ?_, ?_⟩
      · rw [hcons]
        omega
      · change ((sinceConsolidated (false :: answers) : ℕ) : ℤ) ≤ m.count % consolidateEvery
        rw [hcons]
        exact_mod_cast hbound

theorem Paced.basicBump {w : Cadence} {n : ℤ} (hp : w.Paced)
    (ha : CadenceStep.Apart w (.basicBump n)) : (w.step (.basicBump n)).Paced := by
  simp only [step]
  by_cases hmem : n ∈ w.basics
  · rw [if_pos hmem]
    obtain ⟨hn, hlt, hdvd, hphase⟩ := ha hmem
    obtain ⟨hc, hbehind⟩ := hp
    have hcount : (w.table.set organizeCountKey (i64ToString n)).count = n := by
      have := w.table.le_count
      exact MetaTable.count_set (by omega) hlt
    have hmod : n % consolidateEvery = w.table.count % consolidateEvery + 1 := by
      rw [hn]
      exact succ_emod (hn ▸ hdvd)
    refine ⟨hc, ?_⟩
    cases hw : w.organize with
    | counted k => exact absurd hw (hphase k)
    | idle | pressed =>
      rw [hw] at hbehind
      simp only [DuePhase.Behind, hcount, hmod] at hbehind ⊢
      omega
    | bumped k =>
      rw [hw] at hbehind
      simp only [DuePhase.Behind, hcount, hmod] at hbehind ⊢
      intro h
      have := hbehind h
      omega
  · rw [if_neg hmem]
    exact hp

theorem Paced.organizeBump {m : MetaTable} {n : ℤ} {basics : List ℤ} {answers : List Bool}
    (hp : Paced ⟨m, .counted n, basics, answers⟩) :
    (step ⟨m, .counted n, basics, answers⟩ .organizeBump).Paced := by
  obtain ⟨hn, hlt, hbehind⟩ : n = m.count + 1 ∧ n < 2 ^ 63 ∧
    (sinceConsolidated answers : ℤ) ≤ m.count % consolidateEvery := hp.behind
  have hcount : (m.set organizeCountKey (i64ToString n)).count = n := by
    have := m.le_count
    exact MetaTable.count_set (by omega) hlt
  refine ⟨hp.cadenced, fun hdvd => ?_⟩
  change (sinceConsolidated answers : ℤ) + 1 ≤
    (m.set organizeCountKey (i64ToString n)).count % consolidateEvery
  rw [hcount, hn, succ_emod (hn ▸ hdvd)]
  omega

/-- What the health pass sets does not move the counter. -/
theorem Paced.setPressure {m : MetaTable} {phase phase' : DuePhase} {basics : List ℤ}
    {answers : List Bool} (hp : Paced ⟨m, phase, basics, answers⟩) (v : String)
    (hphase : phase' = phase ∨ phase = .pressed ∧ phase' = .idle) :
    Paced ⟨m.set healthPressureKey v, phase', basics, answers⟩ := by
  have hbehind : phase'.Behind m (sinceConsolidated answers) := by
    obtain rfl | ⟨rfl, rfl⟩ := hphase
    · exact hp.behind
    · exact hp.behind
  refine ⟨hp.cadenced, ?_⟩
  cases phase' with
  | idle | counted _ | bumped _ | pressed =>
    simpa only [DuePhase.Behind, MetaTable.count_set_pressure] using hbehind

/-- **One statement keeps the pace**, if it keeps apart. -/
theorem Paced.step {w : Cadence} {st : CadenceStep} (hp : w.Paced) (ha : st.Apart w) :
    (w.step st).Paced := by
  obtain ⟨m, phase, basics, answers⟩ := w
  cases st with
  | organizeRead =>
    cases phase with
    | idle => exact ⟨hp.cadenced, rfl, ha, hp.behind⟩
    | counted _ | bumped _ | pressed => exact hp
  | organizeBump =>
    cases phase with
    | counted n => exact hp.organizeBump
    | idle | bumped _ | pressed => exact hp
  | organizePressure =>
    cases phase with
    | bumped n => exact hp.organizePressure
    | idle | counted _ | pressed => exact hp
  | organizeClear =>
    cases phase with
    | pressed => exact hp.setPressure "0" (.inr ⟨rfl, rfl⟩)
    | idle | counted _ | bumped _ => exact hp
  | basicRead => exact ⟨hp.cadenced, hp.behind⟩
  | basicBump n => exact hp.basicBump ha
  | health v => exact hp.setPressure v (.inl rfl)

/-- A run of statements that keep apart keeps the pace. -/
theorem Paced.run {steps : List CadenceStep} {w : Cadence} (hp : w.Paced) (ha : w.Apart steps) :
    (w.run steps).Paced := by
  induction steps generalizing w with
  | nil => exact hp
  | cons st steps ih => exact ih (hp.step ha.1) ha.2

end Cadence

/-- **Among any five organize runs in a row one consolidates**, whatever
`polis_meta` held before the first of them and whatever the health pass sets,
if no basic pass takes a count that is a multiple of five, and none writes the
counter between the read and the write of another. -/
theorem consolidates_in_five (m : MetaTable) (steps : List CadenceStep)
    (ha : (Cadence.start m).Apart steps) :
    Cadenced consolidateEvery.toNat ((Cadence.start m).run steps).answers :=
  ((Cadence.paced_start m).run ha).cadenced

/-- Ten organize runs, with a basic pass after the second. -/
theorem consolidates_in_five_ten :
    Cadenced consolidateEvery.toNat ((Cadence.start fun _ => none).run
      (Cadence.organizeRun ++ Cadence.organizeRun ++ [.basicRead, .basicBump 3] ++
        (List.replicate 8 Cadence.organizeRun).flatten)).answers :=
  consolidates_in_five _ _ (by decide +kernel)

/-- A basic pass takes the fifth count: the sixth, the fifth of the organize
runs, does not consolidate and neither did the four before it. -/
theorem basicPass_takes_fifth :
    ¬ ∀ (m : MetaTable) (steps : List CadenceStep),
      Cadenced consolidateEvery.toNat ((Cadence.start m).run steps).answers := by
  intro h
  have hrun : ((Cadence.start fun _ => none).run
      ((List.replicate 4 Cadence.organizeRun).flatten ++ [.basicRead, .basicBump 5] ++
        Cadence.organizeRun)).answers = [] ++ [false, false, false, false, false] ++ [] := by
    decide +kernel
  exact absurd (h _ _ _ _ _ hrun rfl) (by decide)

end PolisMemory
