/-
# Lists of rows chained by hash

A row names the entry it follows (`prev`) and its own entry (`entry`), and
may or may not recompute (`good`). A list is a chain from `p` when every row
follows the one before it, the first one `p`, and every row recomputes. The
row-by-row check of a list finds the first row that fails either test
(`firstBad`); two checks one after the other, all hashes and then all links,
find the first row of the first test that fails (`firstWrong`, then
`firstLoose`).

If a row that recomputes is determined by its entry, a chain is determined
by its length and its head (`chain_unique`).

Key definitions: `Shape`, `Chain`, `head`, `firstBad`, `firstLoose`,
`firstWrong`.
Key theorems: `firstBad_eq_none`, `firstBad_append`, `chain_append`,
`chain_unique`, `firstBad_eq_firstWrong`.
-/
import Mathlib.Data.List.Basic
import Mathlib.Data.List.Induction

namespace HashChain

/-- What the check reads of a row. -/
structure Shape (α η : Type*) where
  prev : α → η
  entry : α → η
  good : α → Bool

variable {α η : Type*} (S : Shape α η)

/-- The rows follow one another, the first one `p`. -/
def Linked : η → List α → Prop
  | _, [] => True
  | p, x :: xs => S.prev x = p ∧ Linked (S.entry x) xs

/-- The rows follow one another and recompute. -/
def Chain : η → List α → Prop
  | _, [] => True
  | p, x :: xs => S.prev x = p ∧ S.good x = true ∧ Chain (S.entry x) xs

/-- The entry a next row would follow. -/
def head : η → List α → η
  | p, [] => p
  | _, x :: xs => head (S.entry x) xs

/-- The first row that does not recompute. -/
def firstWrong (xs : List α) : Option α := xs.find? fun x => !S.good x

@[simp] theorem head_nil (p : η) : head S p [] = p := rfl

@[simp] theorem head_cons (p : η) (x : α) (xs : List α) :
    head S p (x :: xs) = head S (S.entry x) xs := rfl

theorem head_append : ∀ (p : η) (xs ys : List α), head S p (xs ++ ys) = head S (head S p xs) ys
  | _, [], _ => rfl
  | _, x :: xs, ys => head_append (S.entry x) xs ys

theorem head_eq_getLast? : ∀ (p : η) (xs : List α), head S p xs = (xs.getLast?.map S.entry).getD p
  | _, [] => rfl
  | p, x :: xs => by
    rw [head_cons, head_eq_getLast?]
    cases h : xs.getLast? <;> simp [List.getLast?_cons, h]

theorem chain_append : ∀ (p : η) (xs ys : List α),
    Chain S p (xs ++ ys) ↔ Chain S p xs ∧ Chain S (head S p xs) ys
  | _, [], _ => by simp [Chain]
  | p, x :: xs, ys => by
    simp only [List.cons_append, Chain, head_cons, chain_append (S.entry x) xs ys, and_assoc]

theorem chain_iff : ∀ (p : η) (xs : List α),
    Chain S p xs ↔ Linked S p xs ∧ ∀ x ∈ xs, S.good x = true
  | _, [] => by simp [Chain, Linked]
  | p, x :: xs => by
    simp only [Chain, Linked, chain_iff (S.entry x) xs, List.forall_mem_cons]
    tauto

theorem firstWrong_eq_none (xs : List α) : firstWrong S xs = none ↔ ∀ x ∈ xs, S.good x = true := by
  simp [firstWrong, List.find?_eq_none]

/-- **A chain is determined by its length and its head**, if a row that
recomputes is determined by its entry. -/
theorem chain_unique
    (hinj : ∀ x y, S.good x = true → S.good y = true → S.entry x = S.entry y → x = y)
    {p q : η} {xs ys : List α} (hx : Chain S p xs) (hy : Chain S q ys)
    (hlen : xs.length = ys.length) (hh : xs.getLast?.map S.entry = ys.getLast?.map S.entry) :
    xs = ys := by
  induction xs using List.reverseRec generalizing ys with
  | nil => exact (List.length_eq_zero_iff.mp hlen.symm).symm
  | append_singleton xs x ih =>
    rcases List.eq_nil_or_concat' ys with rfl | ⟨ys, y, rfl⟩
    · simp at hlen
    · obtain ⟨hx1, hxp, hxg, -⟩ := (chain_append S p xs [x]).mp hx
      obtain ⟨hy1, hyp, hyg, -⟩ := (chain_append S q ys [y]).mp hy
      have hxy : x = y := hinj x y hxg hyg (by simpa using hh)
      subst hxy
      have hl : xs.length = ys.length := by simpa using hlen
      -- the same row stands on the same head, so the fronts end alike
      have hfront : head S p xs = head S q ys := hxp.symm.trans hyp
      have hlast : xs.getLast?.map S.entry = ys.getLast?.map S.entry := by
        rw [head_eq_getLast?, head_eq_getLast?] at hfront
        rcases List.eq_nil_or_concat' xs with rfl | ⟨us, u, rfl⟩
        · rw [List.length_eq_zero_iff.mp hl.symm]
        · rcases List.eq_nil_or_concat' ys with rfl | ⟨vs, v, rfl⟩
          · simp at hl
          · simpa using hfront
      rw [ih hx1 hy1 hl hlast]

/-! ### The check of a list -/

section Check

variable [DecidableEq η]

/-- The first row that breaks its link or does not recompute. -/
def firstBad : η → List α → Option α
  | _, [] => none
  | p, x :: xs => if S.prev x = p ∧ S.good x = true then firstBad (S.entry x) xs else some x

/-- The first row that breaks its link. -/
def firstLoose : η → List α → Option α
  | _, [] => none
  | p, x :: xs => if S.prev x = p then firstLoose (S.entry x) xs else some x

instance decidableChain : ∀ (p : η) (xs : List α), Decidable (Chain S p xs)
  | _, [] => .isTrue trivial
  | p, x :: xs =>
    have := decidableChain (S.entry x) xs
    inferInstanceAs (Decidable (S.prev x = p ∧ S.good x = true ∧ Chain S (S.entry x) xs))

theorem firstBad_eq_none : ∀ (p : η) (xs : List α), firstBad S p xs = none ↔ Chain S p xs
  | _, [] => by simp [firstBad, Chain]
  | p, x :: xs => by
    unfold firstBad Chain
    split_ifs with h
    · rw [firstBad_eq_none (S.entry x) xs]
      exact ⟨fun hc => ⟨h.1, h.2, hc⟩, fun hc => hc.2.2⟩
    · simp only [false_iff]
      exact fun hc => h ⟨hc.1, hc.2.1⟩

theorem firstLoose_eq_none : ∀ (p : η) (xs : List α), firstLoose S p xs = none ↔ Linked S p xs
  | _, [] => by simp [firstLoose, Linked]
  | p, x :: xs => by
    unfold firstLoose Linked
    split_ifs with h
    · rw [firstLoose_eq_none (S.entry x) xs]
      exact ⟨fun hc => ⟨h, hc⟩, fun hc => hc.2⟩
    · simp [h]

theorem mem_of_firstBad : ∀ {p : η} {xs : List α} {x : α}, firstBad S p xs = some x → x ∈ xs
  | p, y :: ys, x, h => by
    unfold firstBad at h
    split_ifs at h
    · exact List.mem_cons_of_mem _ (mem_of_firstBad h)
    · cases h
      exact List.mem_cons_self

theorem mem_of_firstLoose : ∀ {p : η} {xs : List α} {x : α}, firstLoose S p xs = some x → x ∈ xs
  | p, y :: ys, x, h => by
    unfold firstLoose at h
    split_ifs at h
    · exact List.mem_cons_of_mem _ (mem_of_firstLoose h)
    · cases h
      exact List.mem_cons_self

/-- A checked front does not change what the check says of the rest. -/
theorem firstBad_append {p : η} {xs : List α} (hx : Chain S p xs) (ys : List α) :
    firstBad S p (xs ++ ys) = firstBad S (head S p xs) ys := by
  induction xs generalizing p with
  | nil => rfl
  | cons x xs ih =>
    obtain ⟨h1, h2, h3⟩ := hx
    rw [List.cons_append, firstBad, if_pos ⟨h1, h2⟩, ih h3, head_cons]

/-! ### One pass or two -/

/-- Where every row recomputes the one pass is the check of the links. -/
theorem firstBad_eq_firstLoose : ∀ {p : η} {xs : List α}, (∀ x ∈ xs, S.good x = true) →
    firstBad S p xs = firstLoose S p xs
  | _, [], _ => rfl
  | p, x :: xs, h => by
    obtain ⟨hx, hxs⟩ := List.forall_mem_cons.mp h
    unfold firstBad firstLoose
    by_cases hp : S.prev x = p
    · rw [if_pos ⟨hp, hx⟩, if_pos hp, firstBad_eq_firstLoose hxs]
    · rw [if_neg fun hc => hp hc.1, if_neg hp]

/-- The one pass stops at the first row that does not recompute, unless a
row before it breaks its link. -/
theorem firstBad_eq_firstWrong : ∀ {p : η} {xs : List α} {w : α}, firstWrong S xs = some w →
    (firstBad S p xs = some w ↔ Linked S p (xs.takeWhile S.good))
  | p, [], w, h => by simp [firstWrong] at h
  | p, x :: xs, w, h => by
    by_cases hg : S.good x = true
    · have hw : firstWrong S xs = some w := by simpa [firstWrong, List.find?_cons, hg] using h
      have hwg : S.good w ≠ true := by simpa using List.find?_some hw
      rw [List.takeWhile_cons_of_pos hg]
      by_cases hp : S.prev x = p
      · rw [firstBad, if_pos ⟨hp, hg⟩, firstBad_eq_firstWrong hw]
        exact ⟨fun hl => ⟨hp, hl⟩, fun hl => hl.2⟩
      · rw [firstBad, if_neg fun hc => hp hc.1]
        refine ⟨fun he => ?_, fun hl => absurd hl.1 hp⟩
        cases he
        exact absurd hg hwg
    · have hw : firstWrong S (x :: xs) = some x := by simp [firstWrong, hg]
      cases h.symm.trans hw
      rw [firstBad, if_neg fun hc => hg hc.2, List.takeWhile_cons_of_neg hg]
      exact ⟨fun _ => trivial, fun _ => rfl⟩

end Check

end HashChain
