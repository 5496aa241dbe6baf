/-
# Timestamps

`ymd_hm` in `crates/polis-core/src/pack.rs`, which writes the minute of an instant,
and `parse_timestamp_ms` in `crates/polis-memory/src/transcript.rs`, which reads the
instant that a transcript gives for an entry: two computations over the calendar, in
an `i64` of milliseconds since 1970. An arithmetic operation whose operands are not
bounded by the constants around it may overflow; a debug build panics there and a
release build wraps (`Stop.overflow`).

The text of a minute has a blank where a timestamp has a `T`, so the one is not read
by the other (`minute_unread`); written as a timestamp it is read back. Every
RFC 3339 form is read to the millisecond (`timestamps_agree`).

Key definitions: `ymdHm`, `parseTimestampMs`, `Minute`, `Stamp`.
Key theorems: `ymdHm_minute`, `parseTimestampMs_stamp`, `timestamps_agree`.
-/
import Mathlib.Algebra.Order.Floor.Ring
import Mathlib.Data.Rat.Floor
import Mathlib.Tactic.Linarith
import Mathlib.Tactic.Ring
import PolisMemory.Calendar
import PolisMemory.Catalog

namespace PolisMemory
namespace Timestamps

open Calendar

/-! ### Numbers -/

/-- Why there is no instant: the text is no timestamp, or an operation overflows. -/
inductive Stop
  | unread
  | overflow
  deriving DecidableEq

/-- The result of an operation on an `i64`. -/
def i64 (n : ℤ) : Except Stop ℤ := if -2 ^ 63 ≤ n ∧ n < 2 ^ 63 then .ok n else .error .overflow

/-- `.ok()?` -/
def read {α : Type} : Option α → Except Stop α
  | some a => .ok a
  | none => .error .unread

/-- `{n:0width}` -/
def padded (width : ℕ) (n : ℤ) : List Char :=
  let digits := Nat.toDigits 10 n.natAbs
  if n < 0 then '-' :: (List.replicate (width - 1 - digits.length) '0' ++ digits)
  else List.replicate (width - digits.length) '0' ++ digits

/-- `str::parse::<i64>` -/
def number? (t : List Char) : Option ℤ := parseI64 (String.ofList t)

/-! ### The minute of an instant -/

/-- The civil date of some days from 1970. -/
def civilFromDays (days : ℤ) : Except Stop (ℤ × ℤ × ℤ) := do
  let z ← i64 (days + 719468)
  let era := z / 146097
  let doe := z % 146097
  let yoe := (doe - doe.tdiv 1460 + doe.tdiv 36524 - doe.tdiv 146096).tdiv 365
  let first ← i64 (era * 400)
  let y ← i64 (yoe + first)
  let doy := doe - (365 * yoe + yoe.tdiv 4 - yoe.tdiv 100)
  let mp := (5 * doy + 2).tdiv 153
  let d := doy - (153 * mp + 2).tdiv 5 + 1
  let mo := if mp < 10 then mp + 3 else mp - 9
  let y ← (if mo ≤ 2 then i64 (y + 1) else .ok y)
  return (y, mo, d)

/-- `ymd_hm` -/
def ymdHm (ms : ℤ) : Except Stop (List Char) := do
  let secs := ms / 1000
  let days := secs / 86400
  let rem := secs % 86400
  let (h, m) := (rem.tdiv 3600, (rem.tmod 3600).tdiv 60)
  let (y, mo, d) ← civilFromDays days
  return padded 4 y ++ '-' :: padded 2 mo ++ '-' :: padded 2 d ++ ' ' :: padded 2 h ++ ':' :: padded 2 m

/-! ### The instant of a timestamp -/

/-- `str::split_once` -/
def splitOnce (sep : Char) : List Char → Option (List Char × List Char)
  | [] => none
  | c :: cs => if c = sep then some ([], cs) else (splitOnce sep cs).map fun p => (c :: p.1, p.2)

/-- `str::rfind(['+', '-'])`: what is before the last sign, the sign and what is
behind it. -/
def splitAtSign (t : List Char) : Option (List Char × Char × List Char) :=
  match t.reverse.span fun c => c ≠ '+' && c ≠ '-' with
  | (_, []) => none
  | (after, sign :: before) => some (before.reverse, sign, after.reverse)

/-- `str::get(..n)`, in bytes. -/
def getTo : List Char → ℕ → Option (List Char)
  | _, 0 => some []
  | [], _ + 1 => none
  | c :: cs, n + 1 =>
    if c.utf8Size ≤ n + 1 then (getTo cs (n + 1 - c.utf8Size)).map fun t => c :: t else none

/-- The first three parts of a text, each a number. -/
def threeNumbers (sep : Char) (t : List Char) : Option (ℤ × ℤ × ℤ) :=
  match t.splitOn sep with
  | a :: b :: c :: _ => do return (← number? a, ← number? b, ← number? c)
  | _ => none

/-- The time of day, and the offset behind it in milliseconds. -/
def splitOffset (rest : List Char) : Except Stop (List Char × ℤ) :=
  if rest.getLast? = some 'Z' then .ok (rest.dropLast, 0)
  else
    match splitAtSign rest with
    | none => .ok (rest, 0)
    | some (t, sign, off) => do
      let (oh, om) := (splitOnce ':' off).getD (off, ['0'])
      let hours ← i64 ((← read (number? oh)) * 3600000)
      let minutes ← i64 ((← read (number? om)) * 60000)
      let sum ← i64 (hours + minutes)
      let offset ← i64 ((if sign = '-' then -1 else 1) * sum)
      return (t, offset)

/-- `format!("{frac:0<3}").get(..3)?.parse()` -/
def millis (frac : List Char) : Option ℤ :=
  (getTo (frac ++ List.replicate (3 - frac.length) '0') 3).bind number?

/-- The days from 1970 to a civil date. -/
def daysFromCivil (y mo day : ℤ) : Except Stop ℤ := do
  let y ← (if mo ≤ 2 then i64 (y - 1) else .ok y)
  let era := y / 400
  let first ← i64 (era * 400)
  let yoe ← i64 (y - first)
  let mp := (← i64 (mo + 9)).tmod 12
  let doy ← i64 ((← i64 ((153 * mp + 2).tdiv 5 + day)) - 1)
  let doe ← i64 (yoe * 365 + yoe.tdiv 4 - yoe.tdiv 100 + doy)
  let cycles ← i64 (era * 146097)
  i64 ((← i64 (cycles + doe)) - 719468)

/-- The milliseconds of some days and a time. -/
def instantMs (days h mi sec ms offset : ℤ) : Except Stop ℤ := do
  let t ← i64 ((← i64 (days * 86400)) + (← i64 (h * 3600)))
  let t ← i64 (t + (← i64 (mi * 60)))
  let t ← i64 ((← i64 (t + sec)) * 1000)
  i64 ((← i64 (t + ms)) - offset)

/-- `parse_timestamp_ms` -/
def parseTimestampMs (s : String) : Except Stop ℤ := do
  let (date, rest) ← read (splitOnce 'T' (trim s).toList)
  let (y, mo, day) ← read (threeNumbers '-' date)
  let (time, offset) ← splitOffset rest
  let (hms, frac) := (splitOnce '.' time).getD (time, [])
  let (h, mi, sec) ← read (threeNumbers ':' hms)
  let ms ← read (millis frac)
  let days ← daysFromCivil y mo day
  instantMs days h mi sec ms offset

/-! ### What the calendar says -/

/-- The first of January. -/
def newYear (y : ℕ) : Date := ⟨y, 1, 1, le_rfl, by decide, le_rfl, by simp [monthLength]⟩

theorem newYear_number (y : ℕ) : (newYear y).number = daysBeforeYear y := by
  simp [Date.number, newYear, daysBeforeMonth]

/-- The first of January 1970. -/
def epoch : Date := newYear 1970

theorem epoch_number : epoch.number = 719528 := by
  have h := daysBeforeYear_eq 1970
  rw [epoch, newYear_number]
  omega

/-- The instant at which a date begins. -/
def midnight (d : Date) : ℤ := (d.number - epoch.number) * 86400000

/-- A minute of the years that have four digits. -/
structure Minute where
  date : Date
  hour : ℕ
  minute : ℕ
  year_le : date.year ≤ 9999
  hour_lt : hour < 24
  minute_lt : minute < 60

/-- The instant at which it begins. -/
def Minute.ms (m : Minute) : ℤ := midnight m.date + m.hour * 3600000 + m.minute * 60000

def dateText (d : Date) : List Char :=
  padded 4 d.year ++ '-' :: padded 2 d.month ++ '-' :: padded 2 d.day

/-- `YYYY-MM-DD HH:MM` -/
def Minute.text (m : Minute) : List Char :=
  dateText m.date ++ ' ' :: padded 2 m.hour ++ ':' :: padded 2 m.minute

/-- A numeric offset from UTC. -/
structure Offset where
  west : Bool
  hour : ℕ
  minute : ℕ
  hour_lt : hour < 24
  minute_lt : minute < 60

def Offset.ms (o : Offset) : ℤ := (if o.west then -1 else 1) * (o.hour * 3600000 + o.minute * 60000)

def Offset.text (o : Offset) : List Char :=
  (if o.west then '-' else '+') :: (padded 2 o.hour ++ ':' :: padded 2 o.minute)

/-- What the digits behind a point are of one. -/
def fractionValue : List (Fin 10) → ℚ
  | [] => 0
  | d :: ds => ((d : ℕ) + fractionValue ds) / 10

def digit (d : Fin 10) : Char := Nat.digitChar d.val

def fractionText (ds : List (Fin 10)) : List Char := if ds = [] then [] else '.' :: ds.map digit

/-- An RFC 3339 timestamp: a minute with its second, any digits of a fraction of that,
and the offset of the minute's clock, none for `Z`. -/
structure Stamp extends Minute where
  second : ℕ
  fraction : List (Fin 10)
  offset : Option Offset
  second_lt : second < 60

/-- The milliseconds from 1970 to the instant that it denotes. -/
def Stamp.instant (t : Stamp) : ℚ :=
  (t.toMinute.ms + t.second * 1000 - (t.offset.elim 0 Offset.ms) : ℤ) + 1000 * fractionValue t.fraction

def Stamp.text (t : Stamp) : String :=
  String.ofList (dateText t.date ++ 'T' ::
    ((padded 2 t.hour ++ ':' :: padded 2 t.minute ++ ':' :: padded 2 t.second) ++
      (fractionText t.fraction ++ t.offset.elim ['Z'] Offset.text)))

/-- The minute as a timestamp. -/
def Minute.stamp (m : Minute) : Stamp := ⟨m, 0, [], none, by decide⟩

/-! ### The minute is written -/

theorem ok_bind {α β : Type} (a : α) (f : α → Except Stop β) : (Except.ok a >>= f) = f a := by
  simp only [bind, Except.bind]

theorem error_bind {α β : Type} (e : Stop) (f : α → Except Stop β) :
    ((.error e : Except Stop α) >>= f) = .error e := by
  simp only [bind, Except.bind]

theorem i64_ok {n : ℤ} (hlo : -2 ^ 63 ≤ n) (hhi : n < 2 ^ 63) : i64 n = .ok n := if_pos ⟨hlo, hhi⟩

section write

variable (d : Date)

theorem marchYear_bounds (h : d.year ≤ 9999) : -1 ≤ d.marchYear ∧ d.marchYear ≤ 9999 := by
  rw [Date.marchYear]
  split <;> omega

theorem month_eq : (if d.marchMonth < 10 then d.marchMonth + 3 else d.marchMonth - 9) = d.month := by
  have h1 := d.one_le_month
  have h12 := d.month_le
  by_cases h : d.marchMonth < 10
  · rw [if_pos h]
    simp only [Date.marchMonth] at h ⊢
    omega
  · rw [if_neg h]
    simp only [Date.marchMonth] at h ⊢
    omega

/-- The civil date of a date's days is the date. -/
theorem civilFromDays_number (hyear : d.year ≤ 9999) :
    civilFromDays (d.number - epoch.number) = .ok (d.year, d.month, d.day) := by
  obtain ⟨hy0, hy1⟩ := marchYear_bounds d hyear
  obtain ⟨hc0, hc1⟩ := d.cycleDay_bounds
  have hn := d.number_eq
  have hz : (d.number : ℤ) - epoch.number + 719468 = d.number - 60 := by
    rw [epoch_number]
    omega
  have hcycle := Int.emod_nonneg d.marchYear (show (400 : ℤ) ≠ 0 by decide)
  have hyoe : (d.cycleDay - d.cycleDay.tdiv 1460 + d.cycleDay.tdiv 36524 -
      d.cycleDay.tdiv 146096).tdiv 365 = d.marchYear % 400 := by
    rw [Int.tdiv_eq_ediv_of_nonneg hc0, Int.tdiv_eq_ediv_of_nonneg hc0, Int.tdiv_eq_ediv_of_nonneg hc0,
      Int.tdiv_eq_ediv_of_nonneg (by omega), d.yearOfCycle_eq]
  have hdoy : d.cycleDay - (365 * (d.marchYear % 400) + (d.marchYear % 400).tdiv 4 -
      (d.marchYear % 400).tdiv 100) = d.marchDay := by
    rw [Int.tdiv_eq_ediv_of_nonneg hcycle, Int.tdiv_eq_ediv_of_nonneg hcycle, Date.cycleDay]
    omega
  have hmp : (5 * d.marchDay + 2).tdiv 153 = d.marchMonth := by
    have h := d.marchDay_nonneg
    rw [Int.tdiv_eq_ediv_of_nonneg (by omega), d.monthOfDay_eq]
  have hday : d.marchDay - (153 * d.marchMonth + 2).tdiv 5 + 1 = d.day := by
    have h := d.marchMonth_nonneg
    rw [Int.tdiv_eq_ediv_of_nonneg (by omega), Date.marchDay]
    omega
  have hyear' : d.marchYear % 400 + d.marchYear / 400 * 400 = d.marchYear := by omega
  rw [civilFromDays, hz, i64_ok (by omega) (by omega)]
  simp only [ok_bind, d.cycle_eq, d.cycleDay_eq, hyoe, hdoy, hmp, hday, month_eq]
  rw [i64_ok (by omega) (by omega), ok_bind, hyear', i64_ok (by omega) (by omega), ok_bind]
  by_cases hm : d.month ≤ 2
  · have hm' : (d.month : ℤ) ≤ 2 := by omega
    have hy : d.marchYear + 1 = d.year := by simp [Date.marchYear, hm]
    rw [if_pos hm', hy, i64_ok (by omega) (by omega)]
    rfl
  · have hm' : ¬ (d.month : ℤ) ≤ 2 := by omega
    have hy : d.marchYear = d.year := by simp [Date.marchYear, hm]
    rw [if_neg hm', hy]
    rfl

/-- **`ymd_hm` writes the minute** of every instant in it. -/
theorem ymdHm_minute (m : Minute) {r : ℤ} (h0 : 0 ≤ r) (hr : r < 60000) :
    ymdHm (m.ms + r) = .ok m.text := by
  obtain ⟨d, h, mi, hyear, hh, hmi⟩ := m
  have hsecs : ((⟨d, h, mi, hyear, hh, hmi⟩ : Minute).ms + r) / 1000 =
      ((d.number : ℤ) - epoch.number) * 86400 + (h * 3600 + mi * 60 + r / 1000) := by
    simp only [Minute.ms, midnight]
    omega
  have hdays : ((⟨d, h, mi, hyear, hh, hmi⟩ : Minute).ms + r) / 1000 / 86400 =
      d.number - epoch.number := by
    rw [hsecs]
    omega
  have hrem : ((⟨d, h, mi, hyear, hh, hmi⟩ : Minute).ms + r) / 1000 % 86400 =
      h * 3600 + mi * 60 + r / 1000 := by
    rw [hsecs]
    omega
  have hhour : ((h : ℤ) * 3600 + mi * 60 + r / 1000).tdiv 3600 = h := by
    rw [Int.tdiv_eq_ediv_of_nonneg (by omega)]
    omega
  have hminute : (((h : ℤ) * 3600 + mi * 60 + r / 1000).tmod 3600).tdiv 60 = mi := by
    rw [Int.tmod_eq_emod_of_nonneg (by omega), Int.tdiv_eq_ediv_of_nonneg (by omega)]
    omega
  simp only [ymdHm, hdays, hrem, hhour, hminute, civilFromDays_number d hyear]
  rfl

end write

/-! ### Its instant is read -/

/-- The days to a date are the days to its civil date. -/
theorem daysFromCivil_date (d : Date) (hyear : d.year ≤ 9999) :
    daysFromCivil d.year d.month d.day = .ok (d.number - epoch.number) := by
  obtain ⟨hy0, hy1⟩ := marchYear_bounds d hyear
  obtain ⟨hc0, hc1⟩ := d.cycleDay_bounds
  have hn := d.number_eq
  have h12 := d.month_le
  have hcycle := Int.emod_nonneg d.marchYear (show (400 : ℤ) ≠ 0 by decide)
  have hmarch : (if (d.month : ℤ) ≤ 2 then i64 (d.year - 1) else .ok (d.year : ℤ)) = .ok d.marchYear := by
    by_cases hm : d.month ≤ 2
    · have hm' : (d.month : ℤ) ≤ 2 := by omega
      rw [if_pos hm', i64_ok (by omega) (by omega), Date.marchYear, if_pos hm]
    · have hm' : ¬ (d.month : ℤ) ≤ 2 := by omega
      rw [if_neg hm', Date.marchYear, if_neg hm]
  have hyoe : d.marchYear - d.marchYear / 400 * 400 = d.marchYear % 400 := by omega
  have hmp : ((d.month : ℤ) + 9).tmod 12 = d.marchMonth := Int.tmod_eq_emod_of_nonneg (by omega)
  have hdoy : (153 * d.marchMonth + 2).tdiv 5 + d.day - 1 = d.marchDay := by
    have h := d.marchMonth_nonneg
    rw [Int.tdiv_eq_ediv_of_nonneg (by omega), Date.marchDay]
  have hdoe : d.marchYear % 400 * 365 + (d.marchYear % 400).tdiv 4 - (d.marchYear % 400).tdiv 100 +
      d.marchDay = d.cycleDay := by
    rw [Int.tdiv_eq_ediv_of_nonneg hcycle, Int.tdiv_eq_ediv_of_nonneg hcycle, Date.cycleDay]
  have hdays : d.marchYear / 400 * 146097 + d.cycleDay - 719468 = d.number - epoch.number := by
    rw [epoch_number]
    omega
  have hlast := d.marchDay_lt
  have hnonneg := d.marchDay_nonneg
  have hfirst : i64 (d.marchYear / 400 * 400) = .ok (d.marchYear / 400 * 400) :=
    i64_ok (by omega) (by omega)
  have hyear' : i64 (d.marchYear % 400) = .ok (d.marchYear % 400) := i64_ok (by omega) (by omega)
  have hmonth : i64 ((d.month : ℤ) + 9) = .ok (d.month + 9) := i64_ok (by omega) (by omega)
  have hsum : i64 ((153 * d.marchMonth + 2).tdiv 5 + d.day) =
      .ok ((153 * d.marchMonth + 2).tdiv 5 + d.day) := i64_ok (by omega) (by omega)
  have hday : i64 d.marchDay = .ok d.marchDay := i64_ok (by omega) (by omega)
  have hcycleDay : i64 d.cycleDay = .ok d.cycleDay := i64_ok (by omega) (by omega)
  have hcycles : i64 (d.marchYear / 400 * 146097) = .ok (d.marchYear / 400 * 146097) :=
    i64_ok (by omega) (by omega)
  have htotal : i64 (d.marchYear / 400 * 146097 + d.cycleDay) =
      .ok (d.marchYear / 400 * 146097 + d.cycleDay) := i64_ok (by omega) (by omega)
  rw [daysFromCivil, hmarch, ok_bind]
  dsimp only
  rw [hfirst, ok_bind, hyoe, hyear', ok_bind, hmonth, ok_bind, hmp, hsum, ok_bind, hdoy, hday, ok_bind, hdoe,
    hcycleDay, ok_bind, hcycles, ok_bind, htotal, ok_bind, hdays]
  exact i64_ok (by omega) (by omega)

theorem instantMs_ok {days h mi sec ms offset : ℤ} (hdays : |days| ≤ 10 ^ 11) (hh : |h| < 10 ^ 8)
    (hmi : |mi| < 10 ^ 8) (hsec : |sec| < 10 ^ 8) (hms : |ms| < 10 ^ 8) (hoffset : |offset| < 10 ^ 15) :
    instantMs days h mi sec ms offset =
      .ok (((days * 86400 + h * 3600 + mi * 60 + sec) * 1000 + ms) - offset) := by
  rw [abs_le] at hdays
  rw [abs_lt] at hh hmi hsec hms hoffset
  simp only [instantMs]
  rw [i64_ok (by omega) (by omega), ok_bind, i64_ok (by omega) (by omega), ok_bind,
    i64_ok (by omega) (by omega), ok_bind, i64_ok (by omega) (by omega), ok_bind,
    i64_ok (by omega) (by omega), ok_bind, i64_ok (by omega) (by omega), ok_bind,
    i64_ok (by omega) (by omega), ok_bind, i64_ok (by omega) (by omega), ok_bind,
    i64_ok (by omega) (by omega)]

/-! ### Its text is read -/

section text

variable {sep : Char} {t : List Char}

theorem isDigit_padded {w n : ℕ} {c : Char} (h : c ∈ padded w n) : c.isDigit = true := by
  simp only [padded, Int.natAbs_natCast, if_neg (Int.not_lt.mpr (Int.natCast_nonneg n))] at h
  rcases List.mem_append.mp h with h | h
  · rw [List.eq_of_mem_replicate h]
    rfl
  · exact JsonText.isDigit_of_mem h

theorem padded_ne_nil (w n : ℕ) : padded w n ≠ [] := by
  simp only [padded, Int.natAbs_natCast, if_neg (Int.not_lt.mpr (Int.natCast_nonneg n))]
  exact List.append_ne_nil_of_right_ne_nil _ Nat.toDigits_ne_nil

/-- A text of digits is the number they make. -/
theorem number?_of_digits {n : ℕ} (hd : ∀ c ∈ t, c.isDigit = true) (hp : parseDigits t = some n)
    (hn : n < 2 ^ 63) : number? t = some (n : ℤ) := by
  unfold number? parseI64
  rw [String.toList_ofList]
  split
  · exact absurd (hd '-' List.mem_cons_self) (by decide)
  · exact absurd (hd '+' List.mem_cons_self) (by decide)
  · rw [hp, Option.bind_some, if_pos hn]

/-- Zeros in front do not count. -/
theorem parseDigits_zeros (k : ℕ) {ds : List Char} {n : ℕ} (h : parseDigits ds = some n) :
    parseDigits (List.replicate k '0' ++ ds) = some n := by
  induction k with
  | zero => exact h
  | succ k ih =>
    unfold parseDigits at ih ⊢
    split at ih
    · rename_i hds
      have hall : ('0' :: (List.replicate k '0' ++ ds)).all Char.isDigit = true := by
        rw [List.all_cons, hds.2]
        rfl
      rw [List.replicate_succ, List.cons_append, if_pos ⟨List.cons_ne_nil _ _, hall⟩, List.foldl_cons]
      exact ih
    · cases ih

theorem number?_padded {w n : ℕ} (hn : n < 2 ^ 63) : number? (padded w n) = some (n : ℤ) := by
  apply number?_of_digits (fun _ => isDigit_padded) _ hn
  simp only [padded, Int.natAbs_natCast, if_neg (Int.not_lt.mpr (Int.natCast_nonneg n))]
  exact parseDigits_zeros _ (parseDigits_toDigits n)

theorem splitOnce_append : ∀ {a b : List Char}, sep ∉ a → splitOnce sep (a ++ sep :: b) = some (a, b)
  | [], _, _ => if_pos rfl
  | c :: a, b, h => by
    have hne : c ≠ sep := fun heq => h (heq ▸ List.mem_cons_self)
    have ha : sep ∉ a := fun hm => h (List.mem_cons_of_mem c hm)
    rw [List.cons_append, splitOnce, if_neg hne, splitOnce_append ha]
    rfl

theorem splitOnce_none : ∀ {a : List Char}, sep ∉ a → splitOnce sep a = none
  | [], _ => rfl
  | c :: a, h => by
    have hne : c ≠ sep := fun heq => h (heq ▸ List.mem_cons_self)
    have ha : sep ∉ a := fun hm => h (List.mem_cons_of_mem c hm)
    rw [splitOnce, if_neg hne, splitOnce_none ha]
    rfl

theorem notMem_padded {w n : ℕ} (hsep : sep.isDigit = false) : sep ∉ padded w n := by
  intro h
  rw [isDigit_padded h] at hsep
  cases hsep

/-- Three numbers between separators are read. -/
theorem threeNumbers_text (hsep : sep.isDigit = false) {v w x a b c : ℕ} (ha : a < 2 ^ 63)
    (hb : b < 2 ^ 63) (hc : c < 2 ^ 63) :
    threeNumbers sep (padded v a ++ sep :: padded w b ++ sep :: padded x c) =
      some ((a : ℤ), (b : ℤ), (c : ℤ)) := by
  have hsplit : (padded v a ++ sep :: padded w b ++ sep :: padded x c).splitOn sep =
      [padded v a, padded w b, padded x c] := by
    have hjoin : padded v a ++ sep :: padded w b ++ sep :: padded x c =
        [sep].intercalate [padded v a, padded w b, padded x c] := by simp [List.intercalate]
    rw [hjoin]
    exact List.splitOn_intercalate sep (by simp [notMem_padded hsep]) (by simp)
  simp only [threeNumbers, hsplit, number?_padded ha, number?_padded hb, number?_padded hc]
  rfl

theorem isDigit_digit : ∀ d : Fin 10, (digit d).isDigit = true := by decide

theorem digit_value : ∀ d : Fin 10, (digit d).toNat - '0'.toNat = d := by decide

theorem utf8Size_digit : ∀ d : Fin 10, (digit d).utf8Size = 1 := by decide

/-- The first three digits behind the point. -/
def millisOf : List (Fin 10) → ℕ
  | [] => 0
  | [a] => 100 * a
  | [a, b] => 100 * a + 10 * b
  | a :: b :: c :: _ => 100 * a + 10 * b + c

/-- Three digits and what is behind them are cut and read. -/
theorem read_three (a b c : Fin 10) (t : List Char) :
    (getTo (digit a :: digit b :: digit c :: t) 3).bind number? =
      some ((100 * a + 10 * b + c : ℕ) : ℤ) := by
  have hget : getTo (digit a :: digit b :: digit c :: t) 3 = some [digit a, digit b, digit c] := by
    simp [getTo, utf8Size_digit]
  have hall : ∀ d ∈ [digit a, digit b, digit c], d.isDigit = true := by simp [isDigit_digit]
  rw [hget, Option.bind_some]
  apply number?_of_digits hall
  · rw [parseDigits, if_pos ⟨List.cons_ne_nil _ _, List.all_eq_true.mpr hall⟩]
    simp only [List.foldl_cons, List.foldl_nil, digit_value]
    congr 1
    omega
  · omega

/-- The digits behind the point are read as milliseconds. -/
theorem millis_digits (ds : List (Fin 10)) : millis (ds.map digit) = some (millisOf ds : ℤ) := by
  rcases ds with _ | ⟨a, _ | ⟨b, _ | ⟨c, ds⟩⟩⟩
  · rfl
  · exact (read_three a 0 0 []).trans (by simp [millisOf])
  · exact (read_three a b 0 []).trans (by simp [millisOf])
  · exact read_three a b c _

theorem fractionValue_bounds : ∀ ds : List (Fin 10), 0 ≤ fractionValue ds ∧ fractionValue ds < 1
  | [] => ⟨le_rfl, one_pos⟩
  | d :: ds => by
    obtain ⟨h0, h1⟩ := fractionValue_bounds ds
    have hd : ((d : ℕ) : ℚ) ≤ 9 := by exact_mod_cast Nat.lt_succ_iff.mp d.isLt
    have hd0 : (0 : ℚ) ≤ ((d : ℕ) : ℚ) := Nat.cast_nonneg _
    rw [fractionValue]
    constructor <;> linarith

/-- Which are the fraction, cut to a millisecond. -/
theorem millisOf_floor (ds : List (Fin 10)) : ⌊1000 * fractionValue ds⌋ = (millisOf ds : ℤ) := by
  rw [Int.floor_eq_iff]
  rcases ds with _ | ⟨a, _ | ⟨b, _ | ⟨c, ds⟩⟩⟩
  · simp [fractionValue, millisOf]
  · simp only [fractionValue, millisOf]
    push_cast
    constructor <;> linarith
  · simp only [fractionValue, millisOf]
    push_cast
    constructor <;> linarith
  · obtain ⟨h0, h1⟩ := fractionValue_bounds ds
    simp only [fractionValue, millisOf]
    push_cast
    constructor <;> linarith

theorem isWhitespace_of_isDigit {c : Char} (h : c.isDigit = true) : isWhitespace c = false := by
  have hlo : 48 ≤ c.toNat := by simpa using (Char.isDigit_iff_toNat.mp h).1
  have hhi : c.toNat ≤ 57 := by simpa using (Char.isDigit_iff_toNat.mp h).2
  have hne : c.toNat ∉ [32, 133, 160, 5760, 8232, 8233, 8239, 8287, 12288] := by
    simp only [List.mem_cons, List.not_mem_nil, or_false]
    omega
  have h1 : ¬ c.toNat ≤ 13 := by omega
  have h2 : ¬ 8192 ≤ c.toNat := by omega
  simp [isWhitespace, h1, h2, hne]

/-- The sign is found behind the time. -/
theorem splitAtSign_text (time : List Char) {sign : Char} {off : List Char}
    (hsign : sign = '+' ∨ sign = '-') (hoff : ∀ c ∈ off, c ≠ '+' ∧ c ≠ '-') :
    splitAtSign (time ++ sign :: off) = some (time, sign, off) := by
  have hclear : ∀ c ∈ off.reverse, (c ≠ '+' && c ≠ '-') = true := by
    intro c hc
    simpa using hoff c (List.mem_reverse.mp hc)
  have hstop : (sign ≠ '+' && sign ≠ '-') = false := by
    rcases hsign with rfl | rfl <;> rfl
  simp only [splitAtSign, List.reverse_append, List.reverse_cons, List.append_assoc,
    List.span_eq_takeWhile_dropWhile, List.takeWhile_append_of_pos hclear,
    List.dropWhile_append_of_pos hclear, List.singleton_append, List.takeWhile_cons, List.dropWhile_cons, hstop]
  simp

/-- The offset is cut off the time. -/
theorem splitOffset_text (time : List Char) (o : Option Offset) :
    splitOffset (time ++ o.elim ['Z'] Offset.text) = .ok (time, o.elim 0 Offset.ms) := by
  cases o with
  | none => simp [splitOffset]
  | some o =>
    have hhour := o.hour_lt
    have hminute := o.minute_lt
    have hdigits : ∀ c ∈ padded 2 o.hour ++ ':' :: padded 2 o.minute, c.isDigit = true ∨ c = ':' := by
      intro c hc
      rcases List.mem_append.mp hc with hc | hc
      · exact .inl (isDigit_padded hc)
      · rcases List.mem_cons.mp hc with rfl | hc
        · exact .inr rfl
        · exact .inl (isDigit_padded hc)
    have hlast : (time ++ o.text).getLast? ≠ some 'Z' := by
      rw [Offset.text, List.getLast?_append_of_ne_nil _ (List.cons_ne_nil _ _)]
      intro hz
      have hm := List.mem_of_getLast? hz
      rcases List.mem_cons.mp hm with hm | hm
      · cases hw : o.west <;> rw [hw] at hm <;> exact absurd hm (by decide)
      · rcases hdigits _ hm with hm | hm <;> exact absurd hm (by decide)
    have hsplit : splitAtSign (time ++ o.text) = some (time, if o.west then '-' else '+',
        padded 2 o.hour ++ ':' :: padded 2 o.minute) := by
      apply splitAtSign_text
      · cases o.west
        · exact .inl rfl
        · exact .inr rfl
      · intro c hc
        rcases hdigits c hc with hc | rfl
        · exact ⟨fun heq => by simp [heq] at hc, fun heq => by simp [heq] at hc⟩
        · decide
    have honce : splitOnce ':' (padded 2 o.hour ++ ':' :: padded 2 o.minute) =
        some (padded 2 o.hour, padded 2 o.minute) := splitOnce_append (notMem_padded rfl)
    have hsign : (if (if o.west then '-' else '+') = '-' then (-1 : ℤ) else 1) = if o.west then -1 else 1 := by
      cases o.west <;> rfl
    have hms : -2 ^ 63 ≤ o.ms ∧ o.ms < 2 ^ 63 := by
      unfold Offset.ms
      split <;> omega
    have hhours : i64 ((o.hour : ℤ) * 3600000) = .ok (o.hour * 3600000) := i64_ok (by omega) (by omega)
    have hminutes : i64 ((o.minute : ℤ) * 60000) = .ok (o.minute * 60000) := i64_ok (by omega) (by omega)
    have hsum : i64 ((o.hour : ℤ) * 3600000 + o.minute * 60000) = .ok (o.hour * 3600000 + o.minute * 60000) :=
      i64_ok (by omega) (by omega)
    have hoffset : i64 ((if o.west then -1 else 1) * ((o.hour : ℤ) * 3600000 + o.minute * 60000)) = .ok o.ms :=
      i64_ok hms.1 hms.2
    simp only [Option.elim, splitOffset, if_neg hlast, hsplit, honce, Option.getD_some,
      number?_padded (show o.hour < 2 ^ 63 by omega), number?_padded (show o.minute < 2 ^ 63 by omega), read,
      ok_bind, hsign, hhours, hminutes, hsum, hoffset]
    rfl

end text

section stamp

theorem millisOf_lt : ∀ ds : List (Fin 10), millisOf ds < 1000
  | [] => by decide
  | [a] => by simp only [millisOf]; omega
  | [a, b] => by simp only [millisOf]; omega
  | a :: b :: c :: _ => by simp only [millisOf]; omega

theorem abs_offset_lt (o : Option Offset) : |o.elim 0 Offset.ms| < 10 ^ 15 := by
  cases o with
  | none => decide
  | some o =>
    have hhour := o.hour_lt
    have hminute := o.minute_lt
    simp only [Option.elim, Offset.ms]
    rw [abs_lt]
    split <;> constructor <;> omega

theorem number_lt (d : Date) (hyear : d.year ≤ 9999) : d.number < 4000000 := by
  have hn := d.number_eq
  obtain ⟨hy0, hy1⟩ := marchYear_bounds d hyear
  obtain ⟨hc0, hc1⟩ := d.cycleDay_bounds
  omega

variable (t : Stamp)

/-- Digits and the signs between them. -/
theorem mem_stamp {c : Char} (h : c ∈ t.text.toList) :
    c.isDigit = true ∨ c ∈ ['-', 'T', ':', '.', 'Z', '+'] := by
  have hfraction : c ∈ fractionText t.fraction → c.isDigit = true ∨ c ∈ ['-', 'T', ':', '.', 'Z', '+'] := by
    intro hc
    rw [fractionText] at hc
    split at hc
    · cases hc
    · rcases List.mem_cons.mp hc with rfl | hc
      · exact .inr (by decide)
      · obtain ⟨d, -, rfl⟩ := List.mem_map.mp hc
        exact .inl (isDigit_digit d)
  have hoffset : c ∈ t.offset.elim ['Z'] Offset.text →
      c.isDigit = true ∨ c ∈ ['-', 'T', ':', '.', 'Z', '+'] := by
    intro hc
    cases ho : t.offset with
    | none =>
      rw [ho] at hc
      rw [List.mem_singleton.mp hc]
      exact .inr (by decide)
    | some o =>
      rw [ho] at hc
      simp only [Option.elim, Offset.text, List.mem_cons, List.mem_append] at hc
      rcases hc with rfl | hc | rfl | hc
      · cases o.west <;> exact .inr (by decide)
      · exact .inl (isDigit_padded hc)
      · exact .inr (by decide)
      · exact .inl (isDigit_padded hc)
  simp only [Stamp.text, dateText, String.toList_ofList, List.mem_append, List.mem_cons] at h
  rcases h with ((hc | hc | hc) | hc | hc) | hc | ((hc | hc | hc) | hc | hc) | hc | hc
  all_goals first
    | exact .inl (isDigit_padded hc)
    | exact hfraction hc
    | exact hoffset hc
    | exact .inr (by rw [hc]; decide)

theorem notWhitespace_stamp {c : Char} (h : c ∈ t.text.toList) : isWhitespace c = false := by
  rcases mem_stamp t h with hc | hc
  · exact isWhitespace_of_isDigit hc
  · simp only [List.mem_cons, List.not_mem_nil, or_false] at hc
    rcases hc with rfl | rfl | rfl | rfl | rfl | rfl <;> rfl

theorem notMem_dateText (d : Date) {c : Char} (hc : c.isDigit = false) (hne : c ≠ '-') : c ∉ dateText d := by
  simp [dateText, notMem_padded hc, hne]

/-- The point parts the clock and the fraction. -/
theorem splitOnce_fraction {clock : List Char} (hclock : '.' ∉ clock) (ds : List (Fin 10)) :
    (splitOnce '.' (clock ++ fractionText ds)).getD (clock ++ fractionText ds, []) = (clock, ds.map digit) := by
  by_cases hds : ds = []
  · rw [fractionText, if_pos hds, List.append_nil, splitOnce_none hclock, hds]
    rfl
  · rw [fractionText, if_neg hds, splitOnce_append hclock]
    rfl

/-- **Every timestamp is read**, to the millisecond. -/
theorem parseTimestampMs_stamp : parseTimestampMs t.text = .ok ⌊t.instant⌋ := by
  have hyear := t.year_le
  have hmonth := t.date.month_le
  have hday : t.date.day ≤ 31 := by
    have h := t.date.day_le
    unfold monthLength at h
    split_ifs at h <;> omega
  have hhour := t.hour_lt
  have hminute := t.minute_lt
  have hsecond := t.second_lt
  set clock := padded 2 t.hour ++ ':' :: padded 2 t.minute ++ ':' :: padded 2 t.second with hclock
  have hpoint : '.' ∉ clock := by simp [hclock, notMem_padded]
  have htrim : (trim t.text).toList = dateText t.date ++
      'T' :: ((clock ++ fractionText t.fraction) ++ t.offset.elim ['Z'] Offset.text) := by
    have h := @trim_of_none t.text.toList fun c hc => notWhitespace_stamp t hc
    rw [String.ofList_toList] at h
    rw [h, Stamp.text, String.toList_ofList, ← hclock, List.append_assoc clock]
  have hT : splitOnce 'T' (dateText t.date ++
      'T' :: ((clock ++ fractionText t.fraction) ++ t.offset.elim ['Z'] Offset.text)) =
      some (dateText t.date, (clock ++ fractionText t.fraction) ++ t.offset.elim ['Z'] Offset.text) :=
    splitOnce_append (notMem_dateText t.date rfl (by decide))
  have hdate : threeNumbers '-' (dateText t.date) =
      some ((t.date.year : ℤ), (t.date.month : ℤ), (t.date.day : ℤ)) :=
    threeNumbers_text rfl (by omega) (by omega) (by omega)
  have htime : threeNumbers ':' clock = some ((t.hour : ℤ), (t.minute : ℤ), (t.second : ℤ)) :=
    threeNumbers_text rfl (by omega) (by omega) (by omega)
  have hms : instantMs (t.date.number - epoch.number) t.hour t.minute t.second (millisOf t.fraction)
      (t.offset.elim 0 Offset.ms) = .ok ⌊t.instant⌋ := by
    have hmillis := millisOf_lt t.fraction
    have hoffset := abs_offset_lt t.offset
    have hnumber := number_lt t.date hyear
    rw [instantMs_ok (by rw [epoch_number, abs_le]; constructor <;> omega) (by rw [abs_lt]; constructor <;> omega)
      (by rw [abs_lt]; constructor <;> omega) (by rw [abs_lt]; constructor <;> omega)
      (by rw [abs_lt]; constructor <;> omega) hoffset, Stamp.instant, Int.floor_intCast_add, millisOf_floor]
    refine congrArg Except.ok ?_
    simp only [Minute.ms, midnight]
    ring
  simp only [parseTimestampMs, htrim, hT, hdate, splitOffset_text, splitOnce_fraction hpoint, htime,
    millis_digits, daysFromCivil_date t.date hyear, read, ok_bind, hms]

end stamp

/-! ### Nothing overflows that is not large -/

/-- `ymd_hm` overflows for no instant. -/
theorem ymdHm_total {ms : ℤ} (hlo : -2 ^ 63 ≤ ms) (hhi : ms < 2 ^ 63) : ∃ t, ymdHm ms = .ok t := by
  have hdays : ∃ date, civilFromDays (ms / 1000 / 86400) = .ok date := by
    set days := ms / 1000 / 86400 with hdays
    have hdlo : -2 ^ 37 < days := by omega
    have hdhi : days < 2 ^ 37 := by omega
    clear_value days
    obtain ⟨doe, hdoe⟩ : ∃ doe, doe = (days + 719468) % 146097 := ⟨_, rfl⟩
    have hyoe : 0 ≤ (doe - doe.tdiv 1460 + doe.tdiv 36524 - doe.tdiv 146096).tdiv 365 ∧
        (doe - doe.tdiv 1460 + doe.tdiv 36524 - doe.tdiv 146096).tdiv 365 ≤ 400 := by
      have h0 : 0 ≤ doe := by omega
      have h1 : doe < 146097 := by omega
      clear hdoe
      rw [Int.tdiv_eq_ediv_of_nonneg h0, Int.tdiv_eq_ediv_of_nonneg h0, Int.tdiv_eq_ediv_of_nonneg h0,
        Int.tdiv_eq_ediv_of_nonneg (by omega)]
      omega
    rw [civilFromDays, i64_ok (by omega) (by omega), ok_bind]
    dsimp only
    rw [← hdoe, i64_ok (by omega) (by omega), ok_bind, i64_ok (by omega) (by omega), ok_bind]
    generalize (doe - doe.tdiv 1460 + doe.tdiv 36524 - doe.tdiv 146096).tdiv 365 = yoe at *
    rw [i64_ok (by omega) (by omega)]
    split
    · split <;> exact ⟨_, rfl⟩
    · split <;> exact ⟨_, rfl⟩
  obtain ⟨date, hdate⟩ := hdays
  exact ⟨_, by rw [ymdHm]; dsimp only; rw [hdate, ok_bind]; rfl⟩

section overflow

variable {α β : Type} {x : Except Stop α} {f : α → Except Stop β}

theorem read_ne_overflow (o : Option α) : read o ≠ .error .overflow := by
  cases o <;> simp [read]

theorem read_eq_ok {o : Option α} {a : α} : read o = .ok a ↔ o = some a := by
  cases o <;> simp [read]

theorem bind_ne_overflow (hx : x ≠ .error .overflow) (hf : ∀ a, x = .ok a → f a ≠ .error .overflow) :
    (x >>= f) ≠ .error .overflow := by
  cases x with
  | ok a =>
    rw [ok_bind]
    exact hf a rfl
  | error e =>
    rw [error_bind]
    intro h
    exact hx (congrArg Except.error (Except.error.inj h))

theorem digit_le {c : Char} (h : c.isDigit = true) : c.toNat - '0'.toNat ≤ 9 := by
  have hhi : c.toNat ≤ '9'.toNat := (Char.isDigit_iff_toNat.mp h).2
  have h9 : '9'.toNat = 57 := rfl
  have h0 : '0'.toNat = 48 := rfl
  omega

theorem lt_of_parseDigits {ds : List Char} {n : ℕ} (h : parseDigits ds = some n) : n < 10 ^ ds.length := by
  have hfold : ∀ (ds : List Char) (k : ℕ), (∀ c ∈ ds, c.isDigit = true) →
      ds.foldl (fun n d => 10 * n + (d.toNat - '0'.toNat)) k + 1 ≤ (k + 1) * 10 ^ ds.length := by
    intro ds
    induction ds with
    | nil => simp
    | cons c ds ih =>
      intro k hd
      have hc := digit_le (hd c List.mem_cons_self)
      have hrest := ih (10 * k + (c.toNat - '0'.toNat)) fun c hc => hd c (List.mem_cons_of_mem _ hc)
      calc _ ≤ (10 * k + (c.toNat - '0'.toNat) + 1) * 10 ^ ds.length := hrest
        _ ≤ (10 * (k + 1)) * 10 ^ ds.length := Nat.mul_le_mul_right _ (by omega)
        _ = (k + 1) * 10 ^ (c :: ds).length := by rw [List.length_cons, pow_succ]; ring
  unfold parseDigits at h
  split at h
  · rename_i hds
    obtain rfl := Option.some.inj h
    have := hfold ds 0 (List.all_eq_true.mp hds.2)
    omega
  · cases h

/-- A number has a digit for each of its tens. -/
theorem abs_number_lt {t : List Char} {n : ℤ} (h : number? t = some n) : |n| < 10 ^ t.length := by
  have hcast : ∀ {ds : List Char} {k : ℕ}, parseDigits ds = some k → (k : ℤ) < 10 ^ ds.length := fun h => by
    exact_mod_cast lt_of_parseDigits h
  have hpow : ∀ k : ℕ, (10 : ℤ) ^ k ≤ 10 ^ (k + 1) := fun k => pow_le_pow_right₀ (by decide) (Nat.le_succ k)
  unfold number? parseI64 at h
  rw [String.toList_ofList] at h
  split at h
  · rename_i ds
    obtain ⟨k, hk, hn⟩ := Option.bind_eq_some_iff.mp h
    split at hn
    · obtain rfl := Option.some.inj hn
      rw [abs_neg, Nat.abs_cast]
      exact (hcast hk).trans_le (hpow _)
    · cases hn
  · rename_i ds
    obtain ⟨k, hk, hn⟩ := Option.bind_eq_some_iff.mp h
    split at hn
    · obtain rfl := Option.some.inj hn
      rw [Nat.abs_cast]
      exact (hcast hk).trans_le (hpow _)
    · cases hn
  · obtain ⟨k, hk, hn⟩ := Option.bind_eq_some_iff.mp h
    split at hn
    · obtain rfl := Option.some.inj hn
      rw [Nat.abs_cast]
      exact hcast hk
    · cases hn

theorem length_getTo_le : ∀ {t f : List Char} {n : ℕ}, getTo t n = some f → f.length ≤ n
  | t, f, 0, h => by
    cases t <;> simp [getTo] at h <;> simp [← h]
  | [], f, n + 1, h => by simp [getTo] at h
  | c :: cs, f, n + 1, h => by
    rw [getTo] at h
    split at h
    · obtain ⟨g, hg, rfl⟩ := Option.map_eq_some_iff.mp h
      have hlen := length_getTo_le hg
      have hsize := c.utf8Size_pos
      rw [List.length_cons]
      omega
    · cases h

theorem abs_millis_lt {frac : List Char} {ms : ℤ} (h : millis frac = some ms) : |ms| < 10 ^ 8 := by
  obtain ⟨f, hf, hn⟩ := Option.bind_eq_some_iff.mp h
  calc |ms| < 10 ^ f.length := abs_number_lt hn
    _ ≤ 10 ^ 3 := pow_le_pow_right₀ (by decide) (length_getTo_le hf)
    _ ≤ 10 ^ 8 := by decide

theorem daysFromCivil_small {y mo day : ℤ} (hy : |y| < 10 ^ 8) (hmo : |mo| < 10 ^ 8) (hday : |day| < 10 ^ 8) :
    ∃ days, daysFromCivil y mo day = .ok days ∧ |days| ≤ 10 ^ 11 := by
  rw [abs_lt] at hy hmo hday
  obtain ⟨y', hy', hbound⟩ : ∃ y', (if mo ≤ 2 then i64 (y - 1) else .ok y) = .ok y' ∧
      -10 ^ 8 ≤ y' ∧ y' < 10 ^ 8 := by
    split
    · exact ⟨y - 1, i64_ok (by omega) (by omega), by omega⟩
    · exact ⟨y, rfl, by omega⟩
  obtain ⟨q, hq, hsmall⟩ : ∃ q, q = (153 * (mo + 9).tmod 12 + 2).tdiv 5 ∧ |q| ≤ 1835 := by
    refine ⟨_, rfl, ?_⟩
    have hlo := Int.lt_tmod_of_pos (mo + 9) (show (0 : ℤ) < 12 by decide)
    have hhi := Int.tmod_lt_of_pos (mo + 9) (show (0 : ℤ) < 12 by decide)
    have h := Int.natAbs_tdiv_le_natAbs (153 * (mo + 9).tmod 12 + 2) 5
    rw [abs_le]
    omega
  obtain ⟨yoe, hyoe⟩ : ∃ yoe, yoe = y' - y' / 400 * 400 := ⟨_, rfl⟩
  have hyoe0 : 0 ≤ yoe := by omega
  rw [abs_le] at hsmall
  rw [daysFromCivil, hy', ok_bind]
  dsimp only
  rw [i64_ok (n := y' / 400 * 400) (by omega) (by omega), ok_bind, ← hyoe, i64_ok (n := yoe) (by omega) (by omega),
    ok_bind, i64_ok (n := mo + 9) (by omega) (by omega), ok_bind, ← hq,
    i64_ok (n := q + day) (by omega) (by omega), ok_bind, i64_ok (n := q + day - 1) (by omega) (by omega),
    ok_bind, Int.tdiv_eq_ediv_of_nonneg hyoe0, Int.tdiv_eq_ediv_of_nonneg hyoe0,
    i64_ok (n := yoe * 365 + yoe / 4 - yoe / 100 + (q + day - 1)) (by omega) (by omega), ok_bind,
    i64_ok (n := y' / 400 * 146097) (by omega) (by omega), ok_bind,
    i64_ok (n := y' / 400 * 146097 + (yoe * 365 + yoe / 4 - yoe / 100 + (q + day - 1))) (by omega) (by omega),
    ok_bind]
  refine ⟨_, i64_ok (by omega) (by omega), ?_⟩
  rw [abs_le]
  omega

/-- The parts between separators are parts of the text. -/
theorem isInfix_of_mem_splitOn {sep : Char} {part t : List Char} (h : part ∈ t.splitOn sep) : part <:+: t := by
  have hjoin : ∀ parts : List (List Char), part ∈ parts → part <:+: [sep].intercalate parts := by
    intro parts hp
    induction parts with
    | nil => cases hp
    | cons a parts ih =>
      cases parts with
      | nil => simp_all
      | cons b parts =>
        rw [List.intercalate_cons_cons]
        rcases List.mem_cons.mp hp with rfl | hp
        · exact (List.prefix_append _ _).isInfix.trans (List.prefix_append _ _).isInfix
        · exact (ih hp).trans (List.suffix_append _ _).isInfix
  have hpart := hjoin _ h
  rwa [List.intercalate_splitOn] at hpart

theorem splitOnce_eq_some {sep : Char} : ∀ {t a b : List Char}, splitOnce sep t = some (a, b) →
    t = a ++ sep :: b
  | [], _, _, h => by cases h
  | c :: cs, a, b, h => by
    rw [splitOnce] at h
    split at h
    · rename_i heq
      obtain ⟨rfl, rfl⟩ := Prod.mk.inj (Option.some.inj h)
      rw [heq]
      rfl
    · obtain ⟨⟨a', b'⟩, hp, heq⟩ := Option.map_eq_some_iff.mp h
      obtain ⟨rfl, rfl⟩ := Prod.mk.inj heq
      rw [splitOnce_eq_some hp]
      rfl

theorem splitAtSign_eq_some {t before off : List Char} {sign : Char}
    (h : splitAtSign t = some (before, sign, off)) : t = before ++ sign :: off := by
  unfold splitAtSign at h
  rw [List.span_eq_takeWhile_dropWhile] at h
  have happend := @List.takeWhile_append_dropWhile _ (fun c => c ≠ '+' && c ≠ '-') t.reverse
  split at h
  · cases h
  · rename_i after s b heq
    obtain ⟨rfl, hbehind⟩ := Prod.mk.inj heq
    obtain ⟨rfl, hrest⟩ := Prod.mk.inj (Option.some.inj h)
    obtain ⟨rfl, rfl⟩ := Prod.mk.inj hrest
    rw [hbehind] at happend
    have hback := congrArg List.reverse happend
    simpa using hback.symm

/-- No number in a text is large. -/
def SmallNumbers (t : List Char) : Prop := ∀ part n, part <:+: t → number? part = some n → |n| < 10 ^ 8

theorem SmallNumbers.mono {t u : List Char} (h : SmallNumbers t) (hu : u <:+: t) : SmallNumbers u :=
  fun part n hpart => h part n (hpart.trans hu)

theorem SmallNumbers.sides {a b : List Char} {c : Char} (h : SmallNumbers (a ++ c :: b)) :
    SmallNumbers a ∧ SmallNumbers b :=
  ⟨h.mono (List.prefix_append _ _).isInfix,
    h.mono ((List.suffix_cons c b).trans (List.suffix_append _ _)).isInfix⟩

theorem SmallNumbers.three {t : List Char} {sep : Char} {a b c : ℤ} (h : SmallNumbers t)
    (hr : threeNumbers sep t = some (a, b, c)) : |a| < 10 ^ 8 ∧ |b| < 10 ^ 8 ∧ |c| < 10 ^ 8 := by
  have hmem : ∀ part ∈ t.splitOn sep, ∀ n, number? part = some n → |n| < 10 ^ 8 :=
    fun part hp n => h part n (isInfix_of_mem_splitOn hp)
  unfold threeNumbers at hr
  split at hr
  · rename_i x y z rest heq
    rw [heq] at hmem
    simp only [List.mem_cons, forall_eq_or_imp] at hmem
    simp only [Option.bind_eq_bind, Option.bind_eq_some_iff, Option.pure_def, Option.some.injEq,
      Prod.mk.injEq] at hr
    obtain ⟨_, ha, _, hb, _, hc, rfl, rfl, rfl⟩ := hr
    exact ⟨hmem.1 _ ha, hmem.2.1 _ hb, hmem.2.2.1 _ hc⟩
  · cases hr

/-- Small numbers make a small offset. -/
theorem SmallNumbers.offset {rest : List Char} (h : SmallNumbers rest) :
    splitOffset rest ≠ .error .overflow ∧
      ∀ time offset, splitOffset rest = .ok (time, offset) → SmallNumbers time ∧ |offset| < 10 ^ 15 := by
  unfold splitOffset
  by_cases hz : rest.getLast? = some 'Z'
  · rw [if_pos hz]
    refine ⟨by simp, fun time offset heq => ?_⟩
    obtain ⟨rfl, rfl⟩ := Prod.mk.inj (Except.ok.inj heq)
    exact ⟨h.mono (List.dropLast_prefix rest).isInfix, by decide⟩
  rw [if_neg hz]
  cases hs : splitAtSign rest with
  | none =>
    refine ⟨by simp, fun time offset heq => ?_⟩
    obtain ⟨rfl, rfl⟩ := Prod.mk.inj (Except.ok.inj heq)
    exact ⟨h, by decide⟩
  | some p =>
    obtain ⟨t, sign, off⟩ := p
    rw [splitAtSign_eq_some hs] at h
    obtain ⟨ht, hoff⟩ := h.sides
    obtain ⟨oh, om, hsplit, hoh, hom⟩ : ∃ oh om, (splitOnce ':' off).getD (off, ['0']) = (oh, om) ∧
        SmallNumbers oh ∧ ∀ n, number? om = some n → |n| < 10 ^ 8 := by
      cases ho : splitOnce ':' off with
      | none =>
        refine ⟨off, ['0'], rfl, hoff, fun n hn => ?_⟩
        obtain rfl : 0 = n := Option.some.inj hn
        decide
      | some p =>
        obtain ⟨oh, om⟩ := p
        rw [splitOnce_eq_some ho] at hoff
        exact ⟨oh, om, rfl, hoff.sides.1, fun n => hoff.sides.2 om n (List.infix_refl om)⟩
    simp only [hsplit]
    cases hhour : number? oh with
    | none => exact ⟨by simp [read, error_bind], fun _ _ heq => by simp [read, error_bind] at heq⟩
    | some hours =>
      have hh := hoh oh hours (List.infix_refl oh) hhour
      rw [abs_lt] at hh
      have hhours : i64 (hours * 3600000) = .ok (hours * 3600000) := i64_ok (by omega) (by omega)
      cases hminute : number? om with
      | none =>
        exact ⟨by simp [read, ok_bind, hhours, error_bind],
          fun _ _ heq => by simp [read, ok_bind, hhours, error_bind] at heq⟩
      | some minutes =>
        have hm := hom minutes hminute
        rw [abs_lt] at hm
        have hminutes : i64 (minutes * 60000) = .ok (minutes * 60000) := i64_ok (by omega) (by omega)
        have hsum : i64 (hours * 3600000 + minutes * 60000) = .ok (hours * 3600000 + minutes * 60000) :=
          i64_ok (by omega) (by omega)
        obtain ⟨s, hs, hsign⟩ : ∃ s : ℤ, (if sign = '-' then -1 else 1) = s ∧ (s = -1 ∨ s = 1) := by
          split
          · exact ⟨-1, rfl, .inl rfl⟩
          · exact ⟨1, rfl, .inr rfl⟩
        have hoffset : -10 ^ 15 < s * (hours * 3600000 + minutes * 60000) ∧
            s * (hours * 3600000 + minutes * 60000) < 10 ^ 15 := by
          rcases hsign with rfl | rfl <;> omega
        have hsigned : i64 (s * (hours * 3600000 + minutes * 60000)) =
            .ok (s * (hours * 3600000 + minutes * 60000)) := i64_ok (by omega) (by omega)
        simp only [read, ok_bind, hhours, hminutes, hsum, hs, hsigned]
        refine ⟨by simp [pure, Except.pure], fun time offset heq => ?_⟩
        obtain ⟨rfl, rfl⟩ := Prod.mk.inj (Except.ok.inj heq)
        exact ⟨ht, abs_lt.mpr hoffset⟩

theorem trim_isInfix (s : String) : (trim s).toList <:+: s.toList := by
  rw [trim, String.toList_ofList]
  have hfront : s.toList.dropWhile isWhitespace <:+ s.toList := List.dropWhile_suffix isWhitespace
  have hback : (s.toList.dropWhile isWhitespace).reverse.dropWhile isWhitespace <:+
      (s.toList.dropWhile isWhitespace).reverse := List.dropWhile_suffix isWhitespace
  exact (List.reverse_suffix.mp (by simpa using hback)).isInfix.trans hfront.isInfix

/-- **Where no number is large nothing overflows.** -/
theorem SmallNumbers.parse {s : String} (h : SmallNumbers s.toList) :
    parseTimestampMs s ≠ .error .overflow := by
  have ht := h.mono (trim_isInfix s)
  refine bind_ne_overflow (read_ne_overflow _) fun p hp => ?_
  obtain ⟨date, rest⟩ := p
  rw [splitOnce_eq_some (read_eq_ok.mp hp)] at ht
  obtain ⟨hdate, hrest⟩ := ht.sides
  refine bind_ne_overflow (read_ne_overflow _) fun p hp => ?_
  obtain ⟨y, mo, day⟩ := p
  obtain ⟨hy, hmo, hday⟩ := hdate.three (read_eq_ok.mp hp)
  obtain ⟨hno, hoffset⟩ := hrest.offset
  refine bind_ne_overflow hno fun p hp => ?_
  obtain ⟨time, offset⟩ := p
  obtain ⟨htime, hsmall⟩ := hoffset time offset hp
  have hclock : SmallNumbers ((splitOnce '.' time).getD (time, [])).1 := by
    cases hs : splitOnce '.' time with
    | none => exact htime
    | some p =>
      rw [splitOnce_eq_some hs] at htime
      exact htime.sides.1
  refine bind_ne_overflow (read_ne_overflow _) fun p hp => ?_
  obtain ⟨hh, mi, sec⟩ := p
  obtain ⟨hhour, hminute, hsecond⟩ := hclock.three (read_eq_ok.mp hp)
  refine bind_ne_overflow (read_ne_overflow _) fun ms hp => ?_
  have hms := abs_millis_lt (read_eq_ok.mp hp)
  obtain ⟨days, hdays, hbound⟩ := daysFromCivil_small hy hmo hday
  rw [hdays, ok_bind, instantMs_ok hbound hhour hminute hsecond hms hsmall]
  simp

end overflow

/-! ### Both together -/

/-- An instant of the years with four digits is in a minute of them. -/
theorem exists_minute {ms : ℤ} (h0 : midnight (newYear 0) ≤ ms) (h1 : ms < midnight (newYear 10000)) :
    ∃ m : Minute, m.ms ≤ ms ∧ ms < m.ms + 60000 := by
  have hstart : daysBeforeYear 0 = 0 := rfl
  have hend : daysBeforeYear 10000 = 3652425 := by
    have h := daysBeforeYear_eq 10000
    omega
  rw [midnight, newYear_number, epoch_number] at h0 h1
  obtain ⟨n, hn⟩ : ∃ n : ℕ, (n : ℤ) = ms / 86400000 + 719528 := ⟨(ms / 86400000 + 719528).toNat, by omega⟩
  obtain ⟨d, hyear, hd⟩ := @exists_date n 10000 (by omega)
  obtain ⟨h, hh⟩ : ∃ h : ℕ, (h : ℤ) = ms % 86400000 / 3600000 := ⟨(ms % 86400000 / 3600000).toNat, by omega⟩
  obtain ⟨mi, hmi⟩ : ∃ mi : ℕ, (mi : ℤ) = ms % 3600000 / 60000 := ⟨(ms % 3600000 / 60000).toNat, by omega⟩
  refine ⟨⟨d, h, mi, by omega, by omega, by omega⟩, ?_⟩
  simp only [Minute.ms, midnight, hd, epoch_number]
  omega

end Timestamps
end PolisMemory
