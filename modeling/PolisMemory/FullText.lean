/-
# An index that triggers keep beside its table

A full-text index with external content holds, for each row of a table, the
tokens of some of its columns, and none of the text. It is told of a row that
comes or goes, with the text that came or went: what it is not told stays. The
table's triggers tell it, and a table may lack some of them.

An insertion is always told. Without the trigger for updates (or deletions) the
index stays exact over one exactly if the tokens are the same (or none were
there): `exact_follow_iff`.

Key definitions: `Tokenizer`, `postings`, `Indexing`, `Change`,
`Indexing.follow`, `Indexing.Exact`, `Indexing.Keeps`.
Key theorems: `exact_follow_iff`, `prefixes_iff`.
-/
import Mathlib.Algebra.Order.Group.Multiset
import Mathlib.Algebra.Order.Sub.Basic
import Mathlib.Data.List.Induction
import Mathlib.Data.Multiset.OrderedMonoid
import PolisMemory.Tables

namespace FullText

open Tables

/-- How a text is cut into tokens. -/
structure Tokenizer (τ : Type) where
  tokens : String → List τ
  tokens_empty : tokens "" = []

/-- A token in an index: the column and the place it is found at. -/
structure Posting (τ : Type) where
  column : ℕ
  place : ℕ
  token : τ
  deriving DecidableEq

section

variable {τ : Type} (t : Tokenizer τ)

/-- The tokens of columns; `NULL` has none. -/
def postings (columns : List (Option String)) : Multiset (Posting τ) :=
  ↑(columns.zipIdx.flatMap fun c =>
    (t.tokens (c.1.getD "")).zipIdx.map fun p => (⟨c.2, p.2, p.1⟩ : Posting τ))

/-- Columns without text have no tokens. -/
theorem postings_blank {columns : List (Option String)} (hblank : ∀ c ∈ columns, c.getD "" = "") :
    postings t columns = 0 := by
  unfold postings
  rw [Multiset.coe_eq_zero, List.flatMap_eq_nil_iff]
  intro c hc
  have hmem : c.1 ∈ columns := List.fst_mem_of_mem_zipIdx hc
  rw [hblank c.1 hmem, t.tokens_empty]
  rfl

end

/-- What is indexed of a row, and which of the triggers beside the one for
insertions there are. -/
structure Indexing (τ ρ : Type) where
  tokenizer : Tokenizer τ
  columns : ρ → List (Option String)
  onDelete : Bool
  onUpdate : Bool

/-- What an index holds, by the rows' keys. -/
abbrev Index (τ κ : Type) : Type := κ → Multiset (Posting τ)

variable {τ ρ κ : Type} {key : ρ → κ}

/-- A statement on the table. -/
inductive Change (key : ρ → κ)
  | insert (r : ρ)
  | update (p : ρ → Bool) (f : ρ → ρ) (hf : ∀ r, key (f r) = key r)
  | delete (p : ρ → Bool)

variable [DecidableEq τ] [DecidableEq κ]

/-- The table after the statement; a row whose key is taken is not inserted. -/
def Change.apply (content : Table key) : Change key → Table key
  | insert r => content.insertOrIgnore r
  | update p f hf => content.update p f hf
  | delete p => content.delete p

namespace Indexing

variable (x : Indexing τ ρ)

/-- The tokens of a row. -/
def of (r : ρ) : Multiset (Posting τ) := postings x.tokenizer (x.columns r)

/-- The index after the statement. The trigger of a row writes under its own
key, with the text before the statement going and the text after it coming. -/
def follow (content : Table key) (index : Index τ κ) : Change key → Index τ κ
  | .insert r => fun k =>
    if (content.get? k).isNone && key r = k then index k + x.of r else index k
  | .update p f _ => fun k =>
    match content.get? k with
    | some r => if p r && x.onUpdate then index k - x.of r + x.of (f r) else index k
    | none => index k
  | .delete p => fun k =>
    match content.get? k with
    | some r => if p r && x.onDelete then index k - x.of r else index k
    | none => index k

/-- The index is that of the rows that are there. -/
def Exact (content : Table key) (index : Index τ κ) : Prop :=
  ∀ k, index k = ((content.get? k).map x.of).getD 0

/-- What the statement does to the rows, the triggers that are missing would
have nothing to tell of. -/
def Keeps (content : Table key) : Change key → Prop
  | .insert _ => True
  | .update p f _ => x.onUpdate = true ∨ ∀ r ∈ content.rows, p r = true → x.of (f r) = x.of r
  | .delete p => x.onDelete = true ∨ ∀ r ∈ content.rows, p r = true → x.of r = 0

variable {x} {content : Table key} {index : Index τ κ}

theorem exact_insert (hx : x.Exact content index) (r : ρ) :
    x.Exact (Change.apply content (.insert r)) (x.follow content index (.insert r)) := by
  intro k
  have hk := hx k
  simp only [follow, Change.apply, Table.get?_insertOrIgnore]
  cases hget : content.get? k with
  | some r' =>
    rw [hget] at hk
    simp [hk]
  | none =>
    rw [hget] at hk
    by_cases hkey : key r = k
    · simp [hkey, hk]
    · simp [hkey, hk]

/-- **An update keeps the index exact** if it is told of, or else exactly if
no row's tokens change. -/
theorem exact_update_iff (hx : x.Exact content index) {p : ρ → Bool} {f : ρ → ρ}
    (hf : ∀ r, key (f r) = key r) :
    x.Exact (Change.apply content (.update p f hf)) (x.follow content index (.update p f hf)) ↔
      x.Keeps content (.update p f hf) := by
  have hrow : ∀ k r, content.get? k = some r →
      (x.follow content index (.update p f hf) k =
        (((Change.apply content (.update p f hf)).get? k).map x.of).getD 0 ↔
          (x.onUpdate = true ∨ (p r = true → x.of (f r) = x.of r))) := by
    intro k r hget
    have hk := hx k
    rw [hget] at hk
    simp only [follow, Change.apply, Table.get?_update, hget, Option.map_some, Option.getD_some] at hk ⊢
    rw [hk]
    by_cases hp : p r = true
    · cases hu : x.onUpdate with
      | true => simp [hp, tsub_self]
      | false =>
        simp only [hp, Bool.and_false, Bool.false_eq_true, if_false, if_true, false_or, true_imp_iff]
        exact eq_comm
    · simp [hp]
  constructor
  · intro h
    by_cases hu : x.onUpdate = true
    · exact .inl hu
    · refine .inr fun r hr hp => ?_
      have hboth := (hrow (key r) r (Table.mem_rows.mp hr)).mp (h (key r))
      exact hboth.resolve_left hu hp
  · intro h k
    cases hget : content.get? k with
    | none =>
      have hk := hx k
      rw [hget] at hk
      simpa [follow, Change.apply, hget] using hk
    | some r =>
      refine (hrow k r hget).mpr (h.imp_right fun hall hp => ?_)
      exact hall r (Table.get?_eq_some.mp hget).1 hp

/-- **A deletion keeps the index exact** if it is told of, or else exactly if
the rows had no tokens. -/
theorem exact_delete_iff (hx : x.Exact content index) {p : ρ → Bool} :
    x.Exact (Change.apply content (.delete p)) (x.follow content index (.delete p)) ↔
      x.Keeps content (.delete p) := by
  have hrow : ∀ k r, content.get? k = some r →
      (x.follow content index (.delete p) k =
        (((Change.apply content (.delete p)).get? k).map x.of).getD 0 ↔
          (x.onDelete = true ∨ (p r = true → x.of r = 0))) := by
    intro k r hget
    have hk := hx k
    rw [hget] at hk
    simp only [follow, Change.apply, Table.get?_delete, hget, Option.map_some, Option.getD_some,
      Option.filter_some] at hk ⊢
    rw [hk]
    by_cases hp : p r = true
    · cases hd : x.onDelete <;> simp [hp, tsub_self]
    · simp [hp]
  constructor
  · intro h
    by_cases hd : x.onDelete = true
    · exact .inl hd
    · refine .inr fun r hr hp => ?_
      have hboth := (hrow (key r) r (Table.mem_rows.mp hr)).mp (h (key r))
      exact hboth.resolve_left hd hp
  · intro h k
    cases hget : content.get? k with
    | none =>
      have hk := hx k
      rw [hget] at hk
      simpa [follow, Change.apply, hget] using hk
    | some r =>
      refine (hrow k r hget).mpr (h.imp_right fun hall hp => ?_)
      exact hall r (Table.get?_eq_some.mp hget).1 hp

/-- **An exact index stays exact over a statement exactly if the triggers it
lacks have nothing to tell.** -/
theorem exact_follow_iff (hx : x.Exact content index) (c : Change key) :
    x.Exact (c.apply content) (x.follow content index c) ↔ x.Keeps content c := by
  cases c with
  | insert r => exact iff_of_true (exact_insert hx r) trivial
  | update p f hf => exact exact_update_iff hx hf
  | delete p => exact exact_delete_iff hx

omit [DecidableEq τ] [DecidableEq κ] in
/-- Nothing goes untold with all three triggers. -/
theorem keeps_of_told (hd : x.onDelete = true) (hu : x.onUpdate = true) (c : Change key) :
    x.Keeps content c := by
  cases c with
  | insert r => exact trivial
  | update p f hf => exact .inl hu
  | delete p => exact .inl hd

omit [DecidableEq τ] in
theorem exact_empty : x.Exact (∅ : Table key) (fun _ => 0) := fun _ => rfl

omit [DecidableEq τ] in
/-- A row whose columns have no text leaves no token in an exact index. -/
theorem Exact.blank (hx : x.Exact content index) {k : κ} {r : ρ} (hr : content.get? k = some r)
    (hblank : ∀ c ∈ x.columns r, c.getD "" = "") : index k = 0 := by
  rw [hx k, hr]
  exact postings_blank x.tokenizer hblank

end Indexing

/-! ### Along a run -/

/-- What a step keeps exactly if it meets a condition holds all along a run
exactly if all its steps meet it. -/
theorem prefixes_iff {σ α : Type} {step : σ → α → σ} {start : σ} {P : σ → Prop}
    {K : α → σ → Prop} (hstart : P start) (hstep : ∀ s a, P s → (P (step s a) ↔ K a s))
    (as : List α) :
    (∀ p, p <+: as → P (p.foldl step start)) ↔
      ∀ p a, p ++ [a] <+: as → K a (p.foldl step start) := by
  have hsnoc (p : List α) (a : α) : (p ++ [a]).foldl step start = step (p.foldl step start) a := by
    rw [List.foldl_append, List.foldl_cons, List.foldl_nil]
  constructor
  · intro h p a hp
    have hpre : p <+: as := (List.prefix_append p [a]).trans hp
    rw [← hstep _ a (h p hpre), ← hsnoc]
    exact h _ hp
  · intro h p
    induction p using List.reverseRecOn with
    | nil => exact fun _ => hstart
    | append_singleton p a ih =>
      intro hp
      have hpre : p <+: as := (List.prefix_append p [a]).trans hp
      rw [hsnoc]
      exact (hstep _ a (ih hpre)).mpr (h p a hp)

end FullText
