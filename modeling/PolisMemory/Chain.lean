/-
# The ledger table and the walk that verifies it

`crates/polis-store/src/chain.rs`: `verify_ledger_chain` reads the rows of
`ledger_events` by ascending `seq` and checks each in one pass, its link to
the row before it and then its own hash; it stops at the first row that
fails either test. The suffix walk of the incremental verification is the
same loop, entered at an anchor (`walkChain`).

The table keeps its rows in the order of its primary key, so a table whose
keys are out of order or repeat cannot be built.

Key definitions: `LedgerTable`, `LedgerTable.insert`, `ChainVerdict`,
`walkChain`, `verifyLedgerChain`, `maxLedgerSeq`.
Key theorems: `walkChain_eq_of_chain`, `walkChain_eq_of_firstBad`,
`verifyLedgerChain_ok`.
-/
import PolisMemory.Ledger

namespace PolisMemory

open HashChain

/-! ### The table -/

/-- `ledger_events`, its rows by ascending primary key. -/
structure LedgerTable where
  rows : List LedgerEventRow
  byKey : rows.Pairwise fun a b => a.seq < b.seq
  deriving DecidableEq

namespace LedgerTable

@[ext] theorem ext : ∀ {t t' : LedgerTable}, t.rows = t'.rows → t = t'
  | ⟨_, _⟩, ⟨_, _⟩, rfl => rfl

/-- The table before the first event. -/
def empty : LedgerTable := ⟨[], List.Pairwise.nil⟩

/-- Where the primary key puts a new row; none if the key is taken. -/
def place (r : LedgerEventRow) : List LedgerEventRow → Option (List LedgerEventRow)
  | [] => some [r]
  | x :: xs =>
    if x.seq < r.seq then (place r xs).map (x :: ·)
    else if x.seq = r.seq then none
    else some (r :: x :: xs)

theorem mem_place {r x : LedgerEventRow} : ∀ {xs ys : List LedgerEventRow}, place r xs = some ys →
    x ∈ ys → x = r ∨ x ∈ xs
  | [], ys, h, hx => by
    cases h
    exact .inl (List.mem_singleton.mp hx)
  | y :: xs, ys, h, hx => by
    unfold place at h
    split_ifs at h
    · obtain ⟨zs, hz, rfl⟩ := Option.map_eq_some_iff.mp h
      rcases List.mem_cons.mp hx with rfl | hx
      · exact .inr List.mem_cons_self
      · exact (mem_place hz hx).imp_right (List.mem_cons_of_mem y)
    · cases h
      exact List.mem_cons.mp hx

theorem place_byKey {r : LedgerEventRow} : ∀ {xs ys : List LedgerEventRow}, place r xs = some ys →
    xs.Pairwise (fun a b => a.seq < b.seq) → ys.Pairwise fun a b => a.seq < b.seq
  | [], ys, h, _ => by
    cases h
    exact List.pairwise_singleton _ _
  | y :: xs, ys, h, hp => by
    obtain ⟨hy, hxs⟩ := List.pairwise_cons.mp hp
    unfold place at h
    split_ifs at h with h1 h2
    · obtain ⟨zs, hz, rfl⟩ := Option.map_eq_some_iff.mp h
      refine List.pairwise_cons.mpr ⟨fun z hzm => ?_, place_byKey hz hxs⟩
      rcases mem_place hz hzm with rfl | hm
      · exact h1
      · exact hy z hm
    · cases h
      have hlt : r.seq < y.seq := by omega
      refine List.pairwise_cons.mpr ⟨fun z hz => ?_, hp⟩
      rcases List.mem_cons.mp hz with rfl | hz
      · exact hlt
      · exact hlt.trans (hy z hz)

/-- A key past every other goes to the end. -/
theorem place_last {r : LedgerEventRow} : ∀ {xs : List LedgerEventRow}, (∀ x ∈ xs, x.seq < r.seq) →
    place r xs = some (xs ++ [r])
  | [], _ => rfl
  | y :: xs, h => by
    obtain ⟨hy, hxs⟩ := List.forall_mem_cons.mp h
    rw [place, if_pos hy, place_last hxs]
    rfl

/-- `INSERT` with an explicit `seq`; refused if the key is taken. -/
def insert (t : LedgerTable) (r : LedgerEventRow) : Option LedgerTable :=
  match h : place r t.rows with
  | none => none
  | some rows => some ⟨rows, place_byKey h t.byKey⟩

/-- `ORDER BY seq DESC LIMIT 1`. -/
def last (t : LedgerTable) : Option LedgerEventRow := t.rows.getLast?

theorem le_last {t : LedgerTable} {r x : LedgerEventRow} (h : t.last = some r) (hx : x ∈ t.rows) :
    x.seq ≤ r.seq := by
  obtain ⟨ys, hys⟩ := List.getLast?_eq_some_iff.mp h
  have hp := t.byKey
  rw [hys] at hx hp
  rcases List.mem_append.mp hx with hx | hx
  · exact ((List.pairwise_append.mp hp).2.2 x hx r List.mem_cons_self).le
  · rw [List.mem_singleton.mp hx]

/-- A row whose key is past the last one is appended. -/
theorem insert_last {t : LedgerTable} {r : LedgerEventRow} (h : ∀ x ∈ t.rows, x.seq < r.seq) :
    (t.insert r).map rows = some (t.rows ++ [r]) := by
  have hp := place_last h
  unfold insert
  split
  · rename_i hn
    rw [hp] at hn
    cases hn
  · rename_i ys hy
    rw [hp] at hy
    cases hy
    rfl

/-- Rows are told apart by their key. -/
theorem eq_of_seq {t : LedgerTable} {x y : LedgerEventRow} (hx : x ∈ t.rows) (hy : y ∈ t.rows)
    (h : x.seq = y.seq) : x = y := by
  have hn : (t.rows.map LedgerEventRow.seq).Nodup :=
    List.pairwise_map.mpr (t.byKey.imp fun hab => hab.ne)
  exact List.inj_on_of_nodup_map hn hx hy h

end LedgerTable

/-- `n` keys in a row, the first one `s`. -/
def seqsFrom : ℤ → ℕ → List ℤ
  | _, 0 => []
  | s, n + 1 => s :: seqsFrom (s + 1) n

@[simp] theorem length_seqsFrom : ∀ (s : ℤ) (n : ℕ), (seqsFrom s n).length = n
  | _, 0 => rfl
  | s, n + 1 => by simp [seqsFrom, length_seqsFrom (s + 1) n]

theorem seqsFrom_concat : ∀ (s : ℤ) (n : ℕ), seqsFrom s (n + 1) = seqsFrom s n ++ [s + n]
  | s, 0 => by simp [seqsFrom]
  | s, n + 1 => by
    rw [seqsFrom, seqsFrom_concat (s + 1) n]
    simp only [seqsFrom, List.cons_append, Nat.cast_succ, List.cons.injEq, List.append_cancel_left_eq,
      and_true, true_and]
    omega

theorem mem_seqsFrom : ∀ {s x : ℤ} {n : ℕ}, x ∈ seqsFrom s n ↔ s ≤ x ∧ x < s + n
  | s, x, 0 => by simp [seqsFrom]
  | s, x, n + 1 => by
    rw [seqsFrom, List.mem_cons, mem_seqsFrom]
    push_cast
    omega

/-- `max_ledger_seq`: 0 if the chain is empty. -/
def maxLedgerSeq (t : LedgerTable) : ℤ := (t.last.map LedgerEventRow.seq).getD 0

/-! ### The walk -/

/-- The outcome of a verification. -/
structure ChainVerdict where
  ok : Bool
  checked : ℤ
  firstBadSeq : Option ℤ
  headHash : Option String
  deriving DecidableEq, Repr

variable (sha256 : String → String)

/-- The loop of both verifications over the rows left: the hash the next row
must follow, the rows counted so far, the head so far. -/
def walkChain : String → ℤ → Option String → List LedgerEventRow → ChainVerdict
  | _, checked, head, [] => ⟨true, checked, none, head⟩
  | prev, checked, _, e :: rows =>
    -- linkage first, then the row's own hash
    if e.prevHash ≠ prev then ⟨false, checked, some e.seq, none⟩
    else if computeEntryHash sha256 e.prevHash (canonicalOf e) ≠ e.entryHash then
      ⟨false, checked, some e.seq, none⟩
    else walkChain e.entryHash (checked + 1) (some e.entryHash) rows

/-- `verify_ledger_chain`. -/
def verifyLedgerChain (t : LedgerTable) : ChainVerdict :=
  walkChain sha256 genesisPrev 0 none t.rows

/-- A walk over a chain counts every row and ends on the last one's hash. -/
theorem walkChain_eq_of_chain : ∀ {prev : String} {checked : ℤ} {head : Option String}
    {rows : List LedgerEventRow}, Chain (rowShape sha256) prev rows →
    walkChain sha256 prev checked head rows =
      ⟨true, checked + rows.length, none, (rows.getLast?.map LedgerEventRow.entryHash).or head⟩
  | _, checked, head, [], _ => by simp [walkChain]
  | prev, checked, head, e :: rows, ⟨hp, hg, hc⟩ => by
    rw [rowShape_prev] at hp
    rw [rowShape_entry] at hc
    rw [walkChain, if_neg (not_not.mpr hp), if_neg (not_not.mpr ((rowShape_good sha256).mp hg)),
      walkChain_eq_of_chain hc]
    cases hl : rows.getLast? <;> simp [List.getLast?_cons, hl] <;> omega

/-- A walk over anything else stops at the first bad row. -/
theorem walkChain_eq_of_firstBad {prev : String} (checked : ℤ) (head : Option String)
    {rows : List LedgerEventRow} {b : LedgerEventRow}
    (h : firstBad (rowShape sha256) prev rows = some b) :
    ∃ n, walkChain sha256 prev checked head rows = ⟨false, n, some b.seq, none⟩ := by
  induction rows generalizing prev checked head with
  | nil => cases h
  | cons e rows ih =>
    unfold firstBad at h
    unfold walkChain
    by_cases hp : e.prevHash = prev
    · by_cases hg : computeEntryHash sha256 e.prevHash (canonicalOf e) = e.entryHash
      · rw [if_pos ⟨hp, (rowShape_good sha256).mpr hg⟩, rowShape_entry] at h
        rw [if_neg (not_not.mpr hp), if_neg (not_not.mpr hg)]
        exact ih (checked + 1) (some e.entryHash) h
      · rw [if_neg fun hc => hg ((rowShape_good sha256).mp hc.2)] at h
        cases h
        exact ⟨checked, by rw [if_neg (not_not.mpr hp), if_pos hg]⟩
    · rw [if_neg fun hc => hp hc.1] at h
      cases h
      exact ⟨checked, by rw [if_pos hp]⟩

theorem walkChain_ok {prev : String} {checked : ℤ} {head : Option String}
    {rows : List LedgerEventRow} :
    (walkChain sha256 prev checked head rows).ok = true ↔ Chain (rowShape sha256) prev rows := by
  rw [← firstBad_eq_none]
  cases h : firstBad (rowShape sha256) prev rows with
  | none => simp [walkChain_eq_of_chain sha256 ((firstBad_eq_none _ _ _).mp h)]
  | some b =>
    obtain ⟨n, hn⟩ := walkChain_eq_of_firstBad sha256 checked head h
    simp [hn]

theorem walkChain_firstBadSeq {prev : String} {checked : ℤ} {head : Option String}
    {rows : List LedgerEventRow} : (walkChain sha256 prev checked head rows).firstBadSeq =
      (firstBad (rowShape sha256) prev rows).map LedgerEventRow.seq := by
  cases h : firstBad (rowShape sha256) prev rows with
  | none => simp [walkChain_eq_of_chain sha256 ((firstBad_eq_none _ _ _).mp h)]
  | some b =>
    obtain ⟨n, hn⟩ := walkChain_eq_of_firstBad sha256 checked head h
    simp [hn]

theorem walkChain_headHash {prev : String} {checked : ℤ} {head : Option String}
    {rows : List LedgerEventRow} : (walkChain sha256 prev checked head rows).headHash =
      if (firstBad (rowShape sha256) prev rows).isNone
      then (rows.getLast?.map LedgerEventRow.entryHash).or head else none := by
  cases h : firstBad (rowShape sha256) prev rows with
  | none => simp [walkChain_eq_of_chain sha256 ((firstBad_eq_none _ _ _).mp h)]
  | some b =>
    obtain ⟨n, hn⟩ := walkChain_eq_of_firstBad sha256 checked head h
    simp [hn]

/-- **The full verification passes exactly the chains from the genesis hash.** -/
theorem verifyLedgerChain_ok (t : LedgerTable) :
    (verifyLedgerChain sha256 t).ok = true ↔ Chain (rowShape sha256) genesisPrev t.rows :=
  walkChain_ok sha256

end PolisMemory
