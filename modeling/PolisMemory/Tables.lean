/-
# Tables with keys

The part of SQL's data definition that a model of a store needs: a list of
rows no two of which share their primary key (`Table`), one whose integer
keys are drawn from a counter and never given out again (`AutoTable`,
`AUTOINCREMENT`), and one with a second unique index beside the key
(`IndexedTable`). A table that breaks a constraint cannot be built, so the
statements that could break one are partial: `insert?` and `reindex?` are
none where SQL reports the conflict (and `OR IGNORE` skips the row).

What a statement does is said by what it does to `get?`; nothing else is
used of the rows' order but that `select` keeps it.

Key definitions: `Table`, `Table.get?`, `Table.select`, `Table.update`,
`Table.delete`, `Table.insert?`, `AutoTable.insert`, `IndexedTable.insert?`,
`IndexedTable.reindex?`.
Key theorems: `Table.get?_update`, `Table.get?_delete`, `Table.get?_insert?`,
`Table.get?_insertOrIgnore`, `IndexedTable.byIndex_insertOrIgnore`,
`AutoTable.get?_insert`, `IndexedTable.insert?_isSome`,
`IndexedTable.get?_reindex?`, `IndexedTable.reindex?_isSome`.
-/
import Mathlib.Algebra.Order.Ring.Int
import Mathlib.Data.List.Nodup

namespace Tables

/-- Rows, no two with the same key. -/
structure Table {κ ρ : Type*} (key : ρ → κ) where
  rows : List ρ
  nodup : (rows.map key).Nodup
  deriving DecidableEq

namespace Table

variable {κ ρ : Type*} {key : ρ → κ}

instance : EmptyCollection (Table key) := ⟨⟨[], List.nodup_nil⟩⟩

@[simp] theorem rows_empty : (∅ : Table key).rows = [] := rfl

/-- Tables with the same rows in the same order are the same. -/
@[ext] theorem ext : ∀ {t t' : Table key}, t.rows = t'.rows → t = t'
  | ⟨_, _⟩, ⟨_, _⟩, rfl => rfl

/-- `UPDATE … SET f WHERE p`, the key not among the columns set. -/
def update (t : Table key) (p : ρ → Bool) (f : ρ → ρ)
    (h : ∀ r, key (f r) = key r := by intro _; rfl) : Table key where
  rows := t.rows.map fun r => if p r then f r else r
  nodup := by
    have hk : (key ∘ fun r => if p r then f r else r) = key := by
      funext r
      by_cases hp : p r <;> simp [hp, h]
    rw [List.map_map, hk]
    exact t.nodup

/-- `DELETE … WHERE p`. -/
def delete (t : Table key) (p : ρ → Bool) : Table key where
  rows := t.rows.filter fun r => !p r
  nodup := t.nodup.sublist (List.filter_sublist.map key)

/-- `SELECT … WHERE p`. -/
def select (t : Table key) (p : ρ → Bool) : List ρ := t.rows.filter p

@[simp] theorem rows_update {t : Table key} {p : ρ → Bool} {f : ρ → ρ}
    {h : ∀ r, key (f r) = key r} :
    (t.update p f h).rows = t.rows.map fun r => if p r then f r else r := rfl

@[simp] theorem rows_delete {t : Table key} {p : ρ → Bool} :
    (t.delete p).rows = t.rows.filter fun r => !p r := rfl

theorem mem_update {t : Table key} {p : ρ → Bool} {f : ρ → ρ} {h : ∀ r, key (f r) = key r} {r : ρ} :
    r ∈ (t.update p f h).rows ↔ ∃ x ∈ t.rows, (if p x then f x else x) = r := by
  rw [rows_update, List.mem_map]

theorem mem_delete {t : Table key} {p : ρ → Bool} {r : ρ} :
    r ∈ (t.delete p).rows ↔ r ∈ t.rows ∧ p r = false := by
  rw [rows_delete, List.mem_filter, Bool.not_eq_true']

variable [DecidableEq κ]

/-! ### Reading -/

/-- `SELECT … WHERE key = k`. -/
def get? (t : Table key) (k : κ) : Option ρ := t.rows.find? fun r => key r = k

@[simp] theorem get?_empty (k : κ) : (∅ : Table key).get? k = none := rfl

theorem get?_eq_some {t : Table key} {k : κ} {r : ρ} :
    t.get? k = some r ↔ r ∈ t.rows ∧ key r = k := by
  constructor
  · intro h
    exact ⟨List.mem_of_find?_eq_some h, by simpa using List.find?_some h⟩
  · rintro ⟨hr, rfl⟩
    cases h : t.get? (key r) with
    | none =>
      have := List.find?_eq_none.mp h r hr
      simp at this
    | some r' =>
      have hk : key r' = key r := by simpa using List.find?_some h
      rw [List.inj_on_of_nodup_map t.nodup (List.mem_of_find?_eq_some h) hr hk]

theorem key_of_get? {t : Table key} {k : κ} {r : ρ} (h : t.get? k = some r) : key r = k :=
  (get?_eq_some.mp h).2

theorem get?_eq_none {t : Table key} {k : κ} : t.get? k = none ↔ ∀ r ∈ t.rows, key r ≠ k := by
  simp [get?, List.find?_eq_none]

theorem mem_rows {t : Table key} {r : ρ} : r ∈ t.rows ↔ t.get? (key r) = some r := by
  simp [get?_eq_some]

/-- Two tables that look up alike have the same rows. -/
theorem perm_rows {t t' : Table key} (hsame : ∀ k, t.get? k = t'.get? k) : t.rows.Perm t'.rows := by
  refine (List.perm_ext_iff_of_nodup t.nodup.of_map t'.nodup.of_map).mpr fun r => ?_
  rw [mem_rows, mem_rows, hsame]

theorem mem_select {t : Table key} {p : ρ → Bool} {r : ρ} :
    r ∈ t.select p ↔ t.get? (key r) = some r ∧ p r = true := by
  rw [select, List.mem_filter, mem_rows]

theorem mem_map_select {t : Table key} {p : ρ → Bool} {k : κ} :
    k ∈ (t.select p).map key ↔ ∃ r, t.get? k = some r ∧ p r = true := by
  simp only [List.mem_map, mem_select]
  constructor
  · rintro ⟨r, ⟨hr, hp⟩, rfl⟩
    exact ⟨r, hr, hp⟩
  · rintro ⟨r, hr, hp⟩
    obtain rfl := key_of_get? hr
    exact ⟨r, ⟨hr, hp⟩, rfl⟩

/-! ### Writing -/

/-- `INSERT`, refused if the key is taken. -/
def insert? (t : Table key) (r : ρ) : Option (Table key) :=
  if h : (t.rows.map key ++ [key r]).Nodup then
    some ⟨t.rows ++ [r], by simpa using h⟩
  else none

/-- `INSERT … ON CONFLICT(key) DO UPDATE`, every column set. -/
def upsert (t : Table key) (r : ρ) : Table key :=
  (t.insert? r).getD
    ⟨t.rows.map fun x => if key x = key r then r else x, by
      have hk : (key ∘ fun x => if key x = key r then r else x) = key := by
        funext x
        by_cases hx : key x = key r <;> simp [hx]
      rw [List.map_map, hk]
      exact t.nodup⟩

variable {t t' : Table key} {p : ρ → Bool} {f : ρ → ρ} {h : ∀ r, key (f r) = key r} {k : κ} {r : ρ}

@[simp] theorem get?_update :
    (t.update p f h).get? k = (t.get? k).map fun r => if p r then f r else r := by
  simp only [get?, rows_update, List.find?_map]
  congr 2
  funext r
  by_cases hp : p r <;> simp [hp, h]

@[simp] theorem get?_delete : (t.delete p).get? k = (t.get? k).filter fun r => !p r := by
  cases ht : t.get? k with
  | none =>
    rw [get?_eq_none] at ht
    simp only [Option.filter_none, get?_eq_none, rows_delete]
    exact fun r hr => ht r (List.mem_of_mem_filter hr)
  | some r =>
    obtain ⟨hr, hk⟩ := get?_eq_some.mp ht
    cases hp : p r with
    | true =>
      simp only [Option.filter, hp, Bool.not_true, Bool.false_eq_true, if_false, get?_eq_none,
        rows_delete, List.mem_filter]
      rintro r' ⟨hr', hp'⟩ hk'
      rw [List.inj_on_of_nodup_map t.nodup hr' hr (hk'.trans hk.symm), hp] at hp'
      cases hp'
    | false =>
      simp only [Option.filter, hp, Bool.not_false, if_true, get?_eq_some]
      exact ⟨List.mem_filter.mpr ⟨hr, by simp [hp]⟩, hk⟩

theorem insert?_nodup : (t.rows.map key ++ [key r]).Nodup ↔ t.get? (key r) = none := by
  rw [get?_eq_none]
  simp only [List.nodup_append, t.nodup, List.nodup_cons, List.not_mem_nil, not_false_eq_true,
    List.nodup_nil, and_self, List.mem_map, List.mem_singleton, true_and]
  constructor
  · exact fun h x hx hk => h _ ⟨x, hx, rfl⟩ _ rfl hk
  · rintro h _ ⟨x, hx, rfl⟩ _ rfl hk
    exact h x hx hk

/-- An insert goes through just where the key is free. -/
theorem insert?_eq_some : t.insert? r = some t' ↔ t.get? (key r) = none ∧ t'.rows = t.rows ++ [r] := by
  unfold insert?
  split_ifs with h
  · rw [Option.some.injEq]
    constructor
    · rintro rfl
      exact ⟨insert?_nodup.mp h, rfl⟩
    · rintro ⟨-, ht⟩
      exact Table.ext ht.symm
  · simp only [false_iff, not_and]
    exact fun hn => absurd (insert?_nodup.mpr hn) h

theorem insert?_of_free (hn : t.get? (key r) = none) :
    ∃ t', t.insert? r = some t' ∧ t'.rows = t.rows ++ [r] :=
  ⟨⟨t.rows ++ [r], by simpa using insert?_nodup.mpr hn⟩, insert?_eq_some.mpr ⟨hn, rfl⟩, rfl⟩

theorem get?_of_rows_append (ht : t'.rows = t.rows ++ [r]) :
    t'.get? k = (t.get? k).or (if key r = k then some r else none) := by
  rw [get?, ht, List.find?_append]
  congr 1
  by_cases hk : key r = k <;> simp [hk]

theorem get?_insert? (ht : t.insert? r = some t') :
    t'.get? k = if key r = k then some r else t.get? k := by
  obtain ⟨hn, hrows⟩ := insert?_eq_some.mp ht
  rw [get?_of_rows_append hrows]
  by_cases hk : key r = k
  · rw [if_pos hk, if_pos hk, ← hk, hn, Option.none_or]
  · rw [if_neg hk, if_neg hk, Option.or_none]

/-- An insert leaves the rows that are there. -/
theorem get?_insert?_old {r' : ρ} (ht : t.insert? r = some t') (hr : t.get? k = some r') :
    t'.get? k = some r' := by
  rw [get?_of_rows_append (insert?_eq_some.mp ht).2, hr, Option.some_or]

/-- `INSERT OR IGNORE`. -/
def insertOrIgnore (t : Table key) (r : ρ) : Table key := (t.insert? r).getD t

/-- The row that is there stays. -/
@[simp] theorem get?_insertOrIgnore :
    (t.insertOrIgnore r).get? k = (t.get? k).or (if key r = k then some r else none) := by
  unfold insertOrIgnore
  cases ht : t.insert? r with
  | some t' => rw [Option.getD_some, get?_of_rows_append (insert?_eq_some.mp ht).2]
  | none =>
    rw [Option.getD_none]
    by_cases hk : key r = k
    · have hn : t.get? (key r) ≠ none := by
        intro hn
        obtain ⟨t', ht', -⟩ := insert?_of_free hn
        rw [ht] at ht'
        cases ht'
      obtain ⟨x, hx⟩ := Option.ne_none_iff_exists'.mp hn
      rw [← hk, hx, Option.some_or]
    · rw [if_neg hk, Option.or_none]

@[simp] theorem get?_upsert : (t.upsert r).get? k = if key r = k then some r else t.get? k := by
  unfold upsert
  cases ht : t.insert? r with
  | some t' => rw [Option.getD_some, get?_insert? ht]
  | none =>
    have hn : t.get? (key r) ≠ none := by
      intro hn
      obtain ⟨t', ht', -⟩ := insert?_of_free hn
      rw [ht] at ht'
      cases ht'
    obtain ⟨x, hx⟩ := Option.ne_none_iff_exists'.mp hn
    rw [Option.getD_none, get?, List.find?_map]
    by_cases hk : key r = k
    · subst hk
      have hcomp : ((fun y => decide (key y = key r)) ∘ fun y => if key y = key r then r else y) =
          fun y => decide (key y = key r) := by
        funext y
        by_cases hy : key y = key r <;> simp [hy]
      rw [if_pos rfl, hcomp]
      change (t.get? (key r)).map _ = _
      rw [hx, Option.map_some, if_pos (key_of_get? hx)]
    · have hcomp : ((fun y => decide (key y = k)) ∘ fun y => if key y = key r then r else y) =
          fun y => decide (key y = k) := by
        funext y
        by_cases hy : key y = key r <;> simp [hy]
      rw [if_neg hk, hcomp]
      change (t.get? k).map _ = _
      cases hy : t.get? k with
      | none => rfl
      | some y =>
        rw [Option.map_some, if_neg]
        rw [key_of_get? hy]
        exact fun h => hk h.symm

/-! ### Where a row comes from -/

theorem mem_insertOrIgnore {r' : ρ} (hr : r' ∈ (t.insertOrIgnore r).rows) : r' ∈ t.rows ∨ r' = r := by
  rw [mem_rows, get?_insertOrIgnore] at hr
  cases ht : t.get? (key r') with
  | some x =>
    rw [ht, Option.some_or, Option.some.injEq] at hr
    exact .inl (hr ▸ (get?_eq_some.mp ht).1)
  | none =>
    rw [ht, Option.none_or] at hr
    split_ifs at hr
    exact .inr (Option.some.inj hr).symm

theorem mem_upsert {r' : ρ} (hr : r' ∈ (t.upsert r).rows) :
    r' = r ∨ r' ∈ t.rows ∧ key r ≠ key r' := by
  rw [mem_rows, get?_upsert] at hr
  by_cases hk : key r = key r'
  · rw [if_pos hk] at hr
    exact .inl (Option.some.inj hr).symm
  · rw [if_neg hk] at hr
    exact .inr ⟨mem_rows.mpr hr, hk⟩

/-- The row of the key has at least this much in the column. -/
def Reaches (t : Table key) (val : ρ → ℤ) (k : κ) (q : ℤ) : Prop := ∃ r, t.get? k = some r ∧ q ≤ val r

instance {val : ρ → ℤ} {q : ℤ} : Decidable (t.Reaches val k q) :=
  decidable_of_iff ((t.get? k).any fun r => decide (q ≤ val r)) (by
    cases hk : t.get? k with
    | none => simp [Reaches, hk]
    | some r => simp [Reaches, hk])

/-- `ON CONFLICT DO UPDATE SET col = MAX(col, excluded.col)`: the key reaches
what it did, and what comes. -/
theorem reaches_upsert {val : ρ → ℤ} {n q : ℤ}
    (hval : val r = ((t.get? (key r)).map fun o => max (val o) n).getD n) :
    (t.upsert r).Reaches val k q ↔ t.Reaches val k q ∨ key r = k ∧ q ≤ n := by
  unfold Reaches
  rw [get?_upsert]
  by_cases hk : key r = k
  · rw [if_pos hk]
    subst hk
    cases ho : t.get? (key r) with
    | none => simp [hval, ho]
    | some o => simp [hval, ho]
  · rw [if_neg hk]
    simp [hk]

section

variable {κ ρ : Type*} {key : ρ → κ} {t : Table key} {p q : ρ → Bool} {f : ρ → ρ}
  {h : ∀ r, key (f r) = key r}

/-- Rows that are picked by their key are deleted before an update as well as
after it. -/
theorem delete_update (gone : κ → Bool) : (t.update p f h).delete (fun r => gone (key r)) =
    (t.delete fun r => gone (key r)).update p f h := by
  apply ext
  have hcomp : ((fun r => !gone (key r)) ∘ fun r => if p r then f r else r) =
      fun r => !gone (key r) := by
    funext r
    by_cases hp : p r <;> simp [hp, h]
  rw [rows_delete, rows_update, List.filter_map, hcomp]
  rfl

theorem delete_delete : (t.delete p).delete q = (t.delete q).delete p := by
  apply ext
  simp only [rows_delete, List.filter_filter, Bool.and_comm]

/-- An update of rows that are not selected, to rows that are not. -/
theorem select_update (hout : ∀ r, p r = true → q r = false ∧ q (f r) = false) :
    (t.update p f h).select q = t.select q := by
  unfold select
  rw [rows_update]
  induction t.rows with
  | nil => rfl
  | cons r rows ih =>
    rw [List.map_cons, List.filter_cons, List.filter_cons, ih]
    cases hp : p r with
    | true => simp [hout r hp]
    | false => simp

variable [DecidableEq κ]

/-- To delete the rows that are missing after a delete is that delete. -/
theorem delete_missing : (t.delete fun r => (t.get? (key r)).isSome &&
    ((t.delete p).get? (key r)).isNone) = t.delete p := by
  apply ext
  refine List.filter_congr fun r hr => ?_
  dsimp only
  rw [get?_delete, mem_rows.mp hr]
  cases hp : p r <;> simp [Option.filter, hp]

theorem delete_missing_self : (t.delete fun r => (t.get? (key r)).isSome &&
    (t.get? (key r)).isNone) = t := by
  apply ext
  refine List.filter_eq_self.mpr fun r _ => ?_
  dsimp only
  cases t.get? (key r) <;> rfl

end

end Table

/-! ### Keys from a counter -/

/-- A table whose keys a counter gives out. -/
structure AutoTable {ρ : Type*} (key : ρ → ℤ) extends Table key where
  lastId : ℤ
  bound : ∀ r ∈ rows, key r ≤ lastId
  deriving DecidableEq

namespace AutoTable

variable {ρ : Type*} {key : ρ → ℤ}

instance : EmptyCollection (AutoTable key) := ⟨⟨∅, 0, by simp⟩⟩

/-- The key the next insert gets. -/
def nextId (t : AutoTable key) : ℤ := t.lastId + 1

/-- `UPDATE … SET f WHERE p`. -/
def update (t : AutoTable key) (p : ρ → Bool) (f : ρ → ρ)
    (h : ∀ r, key (f r) = key r := by intro _; rfl) : AutoTable key where
  toTable := t.toTable.update p f h
  lastId := t.lastId
  bound := by
    simp only [Table.rows_update, List.mem_map]
    rintro _ ⟨r, hr, rfl⟩
    by_cases hp : p r <;> simp [hp, h, t.bound r hr]

/-- `DELETE … WHERE p`; the keys stay used. -/
def delete (t : AutoTable key) (p : ρ → Bool) : AutoTable key where
  toTable := t.toTable.delete p
  lastId := t.lastId
  bound := fun r hr => t.bound r (List.mem_of_mem_filter hr)

theorem ext : ∀ {t t' : AutoTable key}, t.toTable = t'.toTable → t.lastId = t'.lastId → t = t'
  | ⟨_, _, _⟩, ⟨_, _, _⟩, rfl, rfl => rfl

theorem delete_update {t : AutoTable key} {p : ρ → Bool} {f : ρ → ρ} {h : ∀ r, key (f r) = key r}
    (gone : ℤ → Bool) : (t.update p f h).delete (fun r => gone (key r)) =
      (t.delete fun r => gone (key r)).update p f h :=
  ext (@Table.delete_update _ _ key t.toTable p f h gone) rfl

theorem get?_nextId (t : AutoTable key) : t.get? t.nextId = none :=
  Table.get?_eq_none.mpr fun r hr => (lt_of_le_of_lt (t.bound r hr) (Int.lt_succ t.lastId)).ne

/-- `INSERT` of a row without its key. -/
def insert (t : AutoTable key) (mk : ℤ → ρ) (h : ∀ n, key (mk n) = n := by intro _; rfl) :
    AutoTable key where
  rows := t.rows ++ [mk t.nextId]
  nodup := by
    have := (t.insert?_nodup (r := mk t.nextId)).mpr (by rw [h]; exact t.get?_nextId)
    simpa using this
  lastId := t.nextId
  bound := by
    intro r hr
    rcases List.mem_append.mp hr with hr | hr
    · exact (t.bound r hr).trans (Int.lt_succ t.lastId).le
    · rw [List.mem_singleton.mp hr, h]

variable {t : AutoTable key} {p : ρ → Bool} {f : ρ → ρ} {mk : ℤ → ρ} {k : ℤ}
  {h : ∀ r, key (f r) = key r} {hmk : ∀ n, key (mk n) = n}

@[simp] theorem toTable_update : (t.update p f h).toTable = t.toTable.update p f h := rfl

@[simp] theorem toTable_delete : (t.delete p).toTable = t.toTable.delete p := rfl

@[simp] theorem lastId_update : (t.update p f h).lastId = t.lastId := rfl

@[simp] theorem lastId_delete : (t.delete p).lastId = t.lastId := rfl

@[simp] theorem lastId_insert : (t.insert mk hmk).lastId = t.nextId := rfl

@[simp] theorem rows_insert : (t.insert mk hmk).rows = t.rows ++ [mk t.nextId] := rfl

theorem get?_insert :
    (t.insert mk hmk).get? k = if k = t.nextId then some (mk t.nextId) else t.get? k := by
  rw [Table.get?_of_rows_append (t := t.toTable) rfl, hmk]
  by_cases hk : k = t.nextId
  · rw [if_pos hk, if_pos hk.symm, hk, t.get?_nextId, Option.none_or]
  · rw [if_neg hk, if_neg (Ne.symm hk), Option.or_none]

theorem le_lastId {r : ρ} (h : t.get? k = some r) : k ≤ t.lastId := by
  obtain ⟨hr, rfl⟩ := Table.get?_eq_some.mp h
  exact t.bound r hr

/-- The row of an insert, set to what another insert would have made it. -/
theorem update_insert {mk' : ℤ → ρ} {hmk' : ∀ n, key (mk' n) = n} (hf : ∀ n, f (mk n) = mk' n) :
    (t.insert mk hmk).update (fun r => key r = t.nextId) f h = t.insert mk' hmk' := by
  refine ext (Table.ext ?_) rfl
  simp only [toTable_update, Table.rows_update, rows_insert, List.map_append, List.map_cons, List.map_nil,
    hmk, decide_true, if_true, hf]
  have hold : t.rows.map (fun r => if decide (key r = t.nextId) = true then f r else r) = t.rows := by
    refine (List.map_congr_left fun r hr => ?_).trans (List.map_id _)
    have hne : key r ≠ t.nextId := (lt_of_le_of_lt (t.bound r hr) (Int.lt_succ t.lastId)).ne
    rw [if_neg (by simpa using hne), id]
  rw [hold]

end AutoTable

/-! ### A second unique index -/

/-- A table with a unique index beside its key. -/
structure IndexedTable {ρ ι : Type*} (key : ρ → ℤ) (index : ρ → ι) extends AutoTable key where
  unique : (rows.map index).Nodup
  deriving DecidableEq

namespace IndexedTable

variable {ρ ι : Type*} {key : ρ → ℤ} {index : ρ → ι}

instance : EmptyCollection (IndexedTable key index) := ⟨⟨∅, List.nodup_nil⟩⟩

/-- `UPDATE … SET f WHERE p`, no indexed column set. -/
def update (t : IndexedTable key index) (p : ρ → Bool) (f : ρ → ρ)
    (h : ∀ r, key (f r) = key r := by intro _; rfl)
    (hi : ∀ r, index (f r) = index r := by intro _; rfl) : IndexedTable key index where
  toAutoTable := t.toAutoTable.update p f h
  unique := by
    have hcomp : (index ∘ fun r => if p r then f r else r) = index := by
      funext r
      by_cases hp : p r <;> simp [hp, hi]
    change ((t.rows.map _).map index).Nodup
    rw [List.map_map, hcomp]
    exact t.unique

/-- `DELETE … WHERE p`. -/
def delete (t : IndexedTable key index) (p : ρ → Bool) : IndexedTable key index where
  toAutoTable := t.toAutoTable.delete p
  unique := t.unique.sublist (List.filter_sublist.map index)

section

variable {t : IndexedTable key index} {p : ρ → Bool} {f : ρ → ρ} {k : ℤ}
  {h : ∀ r, key (f r) = key r} {hi : ∀ r, index (f r) = index r}

@[simp] theorem toAutoTable_update :
    (t.update p f h hi).toAutoTable = t.toAutoTable.update p f h := rfl

@[simp] theorem toAutoTable_delete : (t.delete p).toAutoTable = t.toAutoTable.delete p := rfl

theorem ext : ∀ {t t' : IndexedTable key index}, t.toAutoTable = t'.toAutoTable → t = t'
  | ⟨_, _⟩, ⟨_, _⟩, rfl => rfl

theorem delete_update (gone : ℤ → Bool) : (t.update p f h hi).delete (fun r => gone (key r)) =
    (t.delete fun r => gone (key r)).update p f h hi :=
  ext (AutoTable.delete_update gone)

theorem delete_delete {q : ρ → Bool} : (t.delete p).delete q = (t.delete q).delete p :=
  ext (AutoTable.ext Table.delete_delete rfl)

/-- Rows are told apart by the index too. -/
theorem eq_of_index {r r' : ρ} {k' : ℤ} (hr : t.get? k = some r) (hr' : t.get? k' = some r')
    (hx : index r = index r') : r = r' :=
  List.inj_on_of_nodup_map t.unique (Table.get?_eq_some.mp hr).1 (Table.get?_eq_some.mp hr').1 hx

end

variable [DecidableEq ι]

/-- `INSERT`, refused (or ignored) if the index has the row's entry. -/
def insert? (t : IndexedTable key index) (mk : ℤ → ρ) (h : ∀ n, key (mk n) = n := by intro _; rfl) :
    Option (IndexedTable key index) :=
  if hu : ((t.toAutoTable.insert mk h).rows.map index).Nodup then
    some ⟨t.toAutoTable.insert mk h, hu⟩
  else none

/-- `UPDATE … SET f WHERE key = k` on an indexed column, refused (or ignored)
if another row has the new entry. -/
def reindex? (t : IndexedTable key index) (k : ℤ) (f : ρ → ρ)
    (h : ∀ r, key (f r) = key r := by intro _; rfl) : Option (IndexedTable key index) :=
  if hu : ((t.toAutoTable.update (fun r => key r = k) f h).rows.map index).Nodup then
    some ⟨t.toAutoTable.update (fun r => key r = k) f h, hu⟩
  else none

variable {t t' : IndexedTable key index} {f : ρ → ρ} {mk : ℤ → ρ} {k : ℤ}
  {h : ∀ r, key (f r) = key r} {hmk : ∀ n, key (mk n) = n}

theorem insert?_eq_some : t.insert? mk hmk = some t' ↔
    t'.toAutoTable = t.toAutoTable.insert mk hmk := by
  unfold insert?
  split_ifs with hu
  · rw [Option.some.injEq]
    constructor
    · rintro rfl
      rfl
    · intro ht
      cases t'
      cases ht
      rfl
  · simp only [false_iff]
    intro ht
    exact hu (ht ▸ t'.unique)

theorem get?_insert? (ht : t.insert? mk hmk = some t') :
    t'.get? k = if k = t.nextId then some (mk t.nextId) else t.get? k := by
  rw [insert?_eq_some.mp ht, AutoTable.get?_insert]

/-- A row whose entry is free is inserted. -/
theorem insert?_isSome (hfree : ∀ k r, t.get? k = some r → index r ≠ index (mk t.nextId)) :
    ∃ t', t.insert? mk hmk = some t' := by
  have hu : ((t.toAutoTable.insert mk hmk).rows.map index).Nodup := by
    rw [AutoTable.rows_insert, List.map_append, List.nodup_append]
    refine ⟨t.unique, List.nodup_singleton _, fun i hi j hj => ?_⟩
    obtain ⟨r, hr, rfl⟩ := List.mem_map.mp hi
    rw [List.mem_singleton.mp hj]
    exact hfree _ r (Table.mem_rows.mp hr)
  exact ⟨_, dif_pos hu⟩

theorem reindex?_eq_some : t.reindex? k f h = some t' ↔
    t'.toAutoTable = t.toAutoTable.update (fun r => key r = k) f h := by
  unfold reindex?
  split_ifs with hu
  · rw [Option.some.injEq]
    constructor
    · rintro rfl
      rfl
    · intro ht
      cases t'
      cases ht
      rfl
  · simp only [false_iff]
    intro ht
    exact hu (ht ▸ t'.unique)

theorem get?_reindex? {k' : ℤ} (ht : t.reindex? k f h = some t') :
    t'.get? k' = (t.get? k').map fun r => if k' = k then f r else r := by
  rw [reindex?_eq_some.mp ht, AutoTable.toTable_update, Table.get?_update]
  cases hk : t.get? k' with
  | none => rfl
  | some r => simp [Table.key_of_get? hk]

/-- The entry of a row can be changed unless another row has the new one. -/
theorem reindex?_isSome (hfree : ∀ r, t.get? k = some r → ∀ k' r', t.get? k' = some r' →
    index r' = index (f r) → k' = k) : ∃ t', t.reindex? k f h = some t' := by
  suffices hu : ((t.toAutoTable.update (fun r => key r = k) f h).rows.map index).Nodup from
    ⟨⟨_, hu⟩, dif_pos hu⟩
  change ((t.rows.map _).map index).Nodup
  rw [List.map_map]
  refine List.Nodup.map_on (fun r hr r' hr' hx => ?_) t.nodup.of_map
  have hget := Table.mem_rows.mp hr
  have hget' := Table.mem_rows.mp hr'
  simp only [Function.comp_apply, decide_eq_true_eq] at hx
  by_cases hk : key r = k <;> by_cases hk' : key r' = k
  · rw [hk] at hget
    rw [hk', hget, Option.some.injEq] at hget'
    exact hget'
  · rw [if_pos hk, if_neg hk'] at hx
    rw [hk] at hget
    exact absurd (hfree r hget _ r' hget' hx.symm) hk'
  · rw [if_neg hk, if_pos hk'] at hx
    rw [hk'] at hget'
    exact absurd (hfree r' hget' _ r hget hx) hk
  · rw [if_neg hk, if_neg hk'] at hx
    exact List.inj_on_of_nodup_map t.unique hr hr' hx

/-- `INSERT OR IGNORE`. -/
def insertOrIgnore (t : IndexedTable key index) (mk : ℤ → ρ)
    (h : ∀ n, key (mk n) = n := by intro _; rfl) : IndexedTable key index := (t.insert? mk h).getD t

/-- The rows by the index. -/
def byIndex (t : IndexedTable key index) : Table index := ⟨t.rows, t.unique⟩

omit [DecidableEq ι] in
@[simp] theorem byIndex_update {p : ρ → Bool} {h : ∀ r, key (f r) = key r}
    {hi : ∀ r, index (f r) = index r} : (t.update p f h hi).byIndex = t.byIndex.update p f hi := rfl

omit [DecidableEq ι] in
@[simp] theorem byIndex_delete {p : ρ → Bool} : (t.delete p).byIndex = t.byIndex.delete p := rfl

theorem byIndex_insertOrIgnore :
    (t.insertOrIgnore mk hmk).byIndex = t.byIndex.insertOrIgnore (mk t.nextId) := by
  unfold insertOrIgnore Table.insertOrIgnore insert? Table.insert?
  by_cases hu : (t.rows.map index ++ [index (mk t.nextId)]).Nodup
  · have hu' : ((t.toAutoTable.insert mk hmk).rows.map index).Nodup := by
      rwa [AutoTable.rows_insert, List.map_append]
    rw [dif_pos hu', dif_pos (show ((t.byIndex.rows.map index) ++ _).Nodup from hu)]
    rfl
  · have hu' : ¬ ((t.toAutoTable.insert mk hmk).rows.map index).Nodup := by
      rwa [AutoTable.rows_insert, List.map_append]
    rw [dif_neg hu', dif_neg (show ¬ ((t.byIndex.rows.map index) ++ _).Nodup from hu)]
    rfl

theorem mem_insertOrIgnore {r : ρ} (hr : r ∈ (t.insertOrIgnore mk hmk).rows) :
    r ∈ t.rows ∨ r = mk t.nextId := by
  have hindex : r ∈ (t.insertOrIgnore mk hmk).byIndex.rows := hr
  rw [byIndex_insertOrIgnore] at hindex
  exact (Table.mem_insertOrIgnore (t := t.byIndex) hindex)

/-- Some row has the entry afterwards. -/
theorem index_insertOrIgnore : ∃ r ∈ (t.insertOrIgnore mk hmk).rows, index r = index (mk t.nextId) := by
  have hget : ((t.insertOrIgnore mk hmk).byIndex.get? (index (mk t.nextId))).isSome = true := by
    rw [byIndex_insertOrIgnore, Table.get?_insertOrIgnore, if_pos rfl]
    cases t.byIndex.get? (index (mk t.nextId)) <;> rfl
  obtain ⟨r, hr⟩ := Option.isSome_iff_exists.mp hget
  exact ⟨r, (Table.get?_eq_some.mp hr).1, Table.key_of_get? hr⟩

omit [DecidableEq ι] in
theorem ext_rows (hrows : t.rows = t'.rows) (hlast : t.lastId = t'.lastId) : t = t' :=
  ext (AutoTable.ext (Table.ext hrows) hlast)

omit [DecidableEq ι] in
theorem nodup_insert : ((t.toAutoTable.insert mk hmk).rows.map index).Nodup ↔
    index (mk t.nextId) ∉ t.rows.map index := by
  rw [AutoTable.rows_insert, List.map_append, List.map_singleton, ← List.concat_eq_append,
    List.nodup_concat]
  exact and_iff_left t.unique

theorem rows_insertOrIgnore : (t.insertOrIgnore mk hmk).rows =
    if index (mk t.nextId) ∈ t.rows.map index then t.rows else t.rows ++ [mk t.nextId] := by
  unfold insertOrIgnore insert?
  by_cases hmem : index (mk t.nextId) ∈ t.rows.map index
  · rw [dif_neg (nodup_insert.not.mpr (not_not.mpr hmem)), if_pos hmem, Option.getD_none]
  · rw [dif_pos (nodup_insert.mpr hmem), if_neg hmem, Option.getD_some]
    rfl

theorem lastId_insertOrIgnore : (t.insertOrIgnore mk hmk).lastId =
    if index (mk t.nextId) ∈ t.rows.map index then t.lastId else t.nextId := by
  unfold insertOrIgnore insert?
  by_cases hmem : index (mk t.nextId) ∈ t.rows.map index
  · rw [dif_neg (nodup_insert.not.mpr (not_not.mpr hmem)), if_pos hmem, Option.getD_none]
  · rw [dif_pos (nodup_insert.mpr hmem), if_neg hmem, Option.getD_some]
    rfl

/-- An update of the rows and the same of the row to insert. -/
theorem update_insertOrIgnore {p : ρ → Bool} {hi : ∀ r, index (f r) = index r} {mk' : ℤ → ρ}
    {hmk' : ∀ n, key (mk' n) = n}
    (hnew : mk' t.nextId = if p (mk t.nextId) then f (mk t.nextId) else mk t.nextId) :
    (t.update p f h hi).insertOrIgnore mk' hmk' = (t.insertOrIgnore mk hmk).update p f h hi := by
  have hindex (r : ρ) : index (if p r then f r else r) = index r := by
    split_ifs
    · exact hi r
    · rfl
  have hnew' : mk' (t.update p f h hi).nextId =
      if p (mk t.nextId) then f (mk t.nextId) else mk t.nextId := hnew
  have hkeys : (t.update p f h hi).rows.map index = t.rows.map index := by
    change ((t.rows.map fun r => if p r then f r else r).map index) = _
    rw [List.map_map]
    exact List.map_congr_left fun r _ => hindex r
  refine ext_rows ?_ ?_
  · change _ = (t.insertOrIgnore mk hmk).rows.map fun r => if p r then f r else r
    rw [rows_insertOrIgnore, rows_insertOrIgnore, hkeys, hnew', hindex]
    by_cases hmem : index (mk t.nextId) ∈ t.rows.map index
    · rw [if_pos hmem, if_pos hmem]
      rfl
    · rw [if_neg hmem, if_neg hmem, List.map_append, List.map_singleton]
      rfl
  · change _ = (t.insertOrIgnore mk hmk).lastId
    rw [lastId_insertOrIgnore, lastId_insertOrIgnore, hkeys, hnew', hindex]
    rfl

/-- The rows that are there stay. -/
theorem get?_insertOrIgnore_old {r : ρ} (hr : t.get? k = some r) :
    (t.insertOrIgnore mk hmk).get? k = some r := by
  unfold insertOrIgnore
  cases ht : t.insert? mk hmk with
  | none => exact hr
  | some t' =>
    rw [Option.getD_some, get?_insert? ht, if_neg, hr]
    intro hk
    rw [hk, t.get?_nextId] at hr
    cases hr

/-- With fewer rows in the way the entry can be changed as well. -/
theorem reindex?_delete (gone : ℤ → Bool) (ht : t.reindex? k f h = some t') :
    (t.delete fun r => gone (key r)).reindex? k f h = some (t'.delete fun r => gone (key r)) := by
  rw [reindex?_eq_some] at ht ⊢
  rw [toAutoTable_delete, toAutoTable_delete, ht, AutoTable.delete_update]

/-- Without the row it makes no difference. -/
theorem delete_reindex? (gone : ℤ → Bool) (ht : t.reindex? k f h = some t') (hk : gone k = true) :
    (t'.delete fun r => gone (key r)) = t.delete fun r => gone (key r) := by
  refine ext ?_
  rw [toAutoTable_delete, reindex?_eq_some.mp ht, AutoTable.delete_update, toAutoTable_delete]
  refine AutoTable.ext (Table.ext ?_) rfl
  have hrows : ∀ r ∈ (t.toAutoTable.delete fun r => gone (key r)).rows,
      (if decide (key r = k) = true then f r else r) = r := by
    intro r hr
    rw [if_neg]
    intro hkey
    have hgone := List.of_mem_filter hr
    simp [of_decide_eq_true hkey, hk] at hgone
  exact (List.map_congr_left hrows).trans (List.map_id' _)

end IndexedTable

end Tables
