/-
# Shedding items from queues until they weigh little enough

A load is how many items each queue has left and which queues are named as cut.
While its weight is over a limit the queues are cut in order: each by parts of
what it has above its first item (`coarse`), and one item at a time after that
(`fine`). A queue is named when it is cut, and its name weighs something too:
a cut that ends within the limit is over it again once the queue is named.

So the queues keep an item each unless the coarse cuts end over the limit, and
then only if cutting the first of them down to one item is enough
(`fine_keeps_iff`).

Key definitions: `Load`, `Load.cut`, `settle`, `coarse`, `fine`, `Shed`.
Key theorems: `shed_coarse`, `shed_fine`, `fine_count`, `fine_keeps_iff`.
-/
import Mathlib.Data.List.Nodup
import Mathlib.Data.List.Perm.Subperm
import Mathlib.Data.Nat.Find
import Mathlib.Order.Lattice

namespace Shedding

variable {ι : Type*}

/-! ### Loads -/

/-- What each queue has left, and the queues named as cut. -/
structure Load (ι : Type*) where
  count : ι → ℕ
  named : List ι

namespace Load

variable [DecidableEq ι]

def setCount (l : Load ι) (i : ι) (k : ℕ) : Load ι := { l with count := Function.update l.count i k }

/-- The queue is named, once. -/
def mark (l : Load ι) (i : ι) : Load ι := if i ∈ l.named then l else { l with named := l.named ++ [i] }

/-- The queue cut to its first `k` items, and named if it has more. -/
def cut (l : Load ι) (i : ι) (k : ℕ) : Load ι := if k < l.count i then (l.setCount i k).mark i else l

variable (l : Load ι) (i : ι)

@[simp] theorem count_mark : (l.mark i).count = l.count := by
  unfold mark
  split_ifs <;> rfl

theorem mem_named_mark : i ∈ (l.mark i).named := by
  unfold mark
  split_ifs with hi
  · exact hi
  · exact List.mem_append_right _ (List.mem_singleton_self i)

theorem mark_of_mem {l : Load ι} {i : ι} (hi : i ∈ l.named) : l.mark i = l := if_pos hi

@[simp] theorem setCount_self : l.setCount i (l.count i) = l := by
  unfold setCount
  rw [Function.update_eq_self]

@[simp] theorem setCount_setCount (j k : ℕ) : (l.setCount i j).setCount i k = l.setCount i k := by
  unfold setCount
  rw [Function.update_idem]

@[simp] theorem count_setCount (k : ℕ) : (l.setCount i k).count i = k := by
  unfold setCount
  exact Function.update_self i k l.count

theorem mark_setCount (k : ℕ) : (l.setCount i k).mark i = (l.mark i).setCount i k := by
  unfold mark setCount
  dsimp only
  split_ifs <;> rfl

theorem count_cut (k : ℕ) : (l.cut i k).count i = min k (l.count i) := by
  unfold cut
  split_ifs with hk
  · rw [count_mark, count_setCount, Nat.min_eq_left hk.le]
  · rw [Nat.min_eq_right (Nat.not_lt.mp hk)]

theorem count_cut_of_ne {l : Load ι} {i j : ι} (hne : j ≠ i) (k : ℕ) :
    (l.cut i k).count j = l.count j := by
  unfold cut
  split_ifs
  · rw [count_mark]
    exact Function.update_of_ne hne k l.count
  · rfl

theorem cut_of_le {l : Load ι} {i : ι} {k : ℕ} (hk : l.count i ≤ k) : l.cut i k = l :=
  if_neg (Nat.not_lt.mpr hk)

/-- Only the last of two cuts counts. -/
theorem cut_cut {l : Load ι} {i : ι} {j k : ℕ} (hjk : j ≤ k) : (l.cut i k).cut i j = l.cut i j := by
  by_cases hk : k < l.count i
  · by_cases hj : j < k
    · have hleft : j < ((l.setCount i k).mark i).count i := by
        rw [count_mark, count_setCount]
        exact hj
      unfold cut
      rw [if_pos hk, if_pos hleft, if_pos (hj.trans hk), mark_setCount, mark_setCount, mark_setCount,
        setCount_setCount, mark_of_mem (mem_named_mark l i), ← mark_setCount]
    · have hcount : (l.cut i k).count i ≤ j := by
        rw [count_cut]
        omega
      rw [cut_of_le hcount, Nat.le_antisymm hjk (Nat.not_lt.mp hj)]
  · rw [cut_of_le (Nat.not_lt.mp hk)]

end Load

/-! ### What cutting leaves -/

/-- A load comes from another by cutting queues: the ones newly named are the
ones that lost items. -/
structure Shed (a b : Load ι) : Prop where
  count_le : ∀ i, b.count i ≤ a.count i
  named : ∃ added, b.named = a.named ++ added ∧ added.Nodup ∧
    ∀ i, i ∈ added ↔ i ∉ a.named ∧ b.count i < a.count i

namespace Shed

variable {a b c : Load ι}

theorem refl (a : Load ι) : Shed a a where
  count_le _ := le_rfl
  named := ⟨[], (List.append_nil _).symm, List.nodup_nil, fun _ =>
    ⟨fun hi => absurd hi List.not_mem_nil, fun hi => absurd hi.2 (Nat.lt_irrefl _)⟩⟩

/-- A queue that was not named is named exactly if it lost an item. -/
theorem mem_named_iff (h : Shed a b) {i : ι} (hi : i ∉ a.named) :
    i ∈ b.named ↔ b.count i < a.count i := by
  obtain ⟨added, hnamed, -, hadded⟩ := h.named
  rw [hnamed, List.mem_append, hadded]
  exact ⟨fun hmem => (hmem.resolve_left hi).2, fun hlt => .inr ⟨hi, hlt⟩⟩

theorem trans (hab : Shed a b) (hbc : Shed b c) : Shed a c where
  count_le i := (hbc.count_le i).trans (hab.count_le i)
  named := by
    obtain ⟨xs, hxs, hxsnodup, hxsmem⟩ := hab.named
    obtain ⟨ys, hys, hysnodup, hysmem⟩ := hbc.named
    refine ⟨xs ++ ys, by rw [hys, hxs, List.append_assoc], ?_, fun i => ?_⟩
    · apply List.nodup_append.mpr
      refine ⟨hxsnodup, hysnodup, fun x hx y hy heq => ?_⟩
      apply ((hysmem y).mp hy).1
      rw [hxs, ← heq]
      exact List.mem_append_right _ hx
    · have hle := hab.count_le i
      have hle' := hbc.count_le i
      rw [List.mem_append, hxsmem, hysmem, hxs, List.mem_append, hxsmem]
      constructor
      · rintro (⟨hi, hlt⟩ | ⟨hi, hlt⟩)
        · exact ⟨hi, by omega⟩
        · exact ⟨fun hmem => hi (.inl hmem), by omega⟩
      · intro ⟨hi, hlt⟩
        by_cases hfirst : b.count i < a.count i
        · exact .inl ⟨hi, hfirst⟩
        · right
          refine ⟨fun hmem => ?_, by omega⟩
          exact hfirst (hmem.resolve_left hi).2

theorem cut [DecidableEq ι] (l : Load ι) (i : ι) (k : ℕ) : Shed l (l.cut i k) := by
  unfold Load.cut
  split_ifs with hk
  · have hcount (j : ι) : ((l.setCount i k).mark i).count j = if j = i then k else l.count j := by
      rw [Load.count_mark]
      exact Function.update_apply l.count i k j
    refine ⟨fun j => ?_, ?_⟩
    · rw [hcount]
      split_ifs with hj
      · rw [hj]
        exact hk.le
      · exact le_rfl
    · by_cases hi : i ∈ l.named
      · have hi' : i ∈ (l.setCount i k).named := hi
        refine ⟨[], ?_, List.nodup_nil, fun j => ?_⟩
        · rw [List.append_nil, Load.mark_of_mem hi']
          rfl
        · rw [hcount]
          refine ⟨fun hj => absurd hj List.not_mem_nil, fun ⟨hj, hlt⟩ => absurd hlt ?_⟩
          have hne : j ≠ i := by
            intro heq
            exact hj (heq ▸ hi)
          rw [if_neg hne]
          exact Nat.lt_irrefl _
      · refine ⟨[i], ?_, List.pairwise_singleton _ i, fun j => ?_⟩
        · unfold Load.mark
          rw [if_neg (show i ∉ (l.setCount i k).named from hi)]
          rfl
        · rw [hcount, List.mem_singleton]
          constructor
          · rintro rfl
            rw [if_pos rfl]
            exact ⟨hi, hk⟩
          · intro ⟨_, hlt⟩
            by_contra hne
            rw [if_neg hne] at hlt
            exact Nat.lt_irrefl _ hlt
  · exact refl l

theorem foldl {step : Load ι → ι → Load ι} (hstep : ∀ l i, Shed l (step l i)) (order : List ι)
    (l : Load ι) : Shed l (order.foldl step l) := by
  induction order generalizing l with
  | nil => exact refl l
  | cons i order ih => exact (hstep l i).trans (ih (step l i))

end Shed

/-! ### The cuts -/

/-- Items weigh something and names do. -/
def Weighs (weight : Load ι → ℕ) : Prop :=
  ∀ a b : Load ι, (∀ i, a.count i ≤ b.count i) → a.named.Subperm b.named → weight a ≤ weight b

/-- The first length that fits of those that an `n` goes through, losing a
quarter of what is above 1 at a time; 1 if none does. -/
def settle (fits : ℕ → Prop) [DecidablePred fits] (n : ℕ) : ℕ :=
  if fits n ∨ n ≤ 1 then n else settle fits (n - max ((n - 1) / 4) 1)
termination_by n
decreasing_by omega

theorem settle_le (fits : ℕ → Prop) [DecidablePred fits] (n : ℕ) : settle fits n ≤ n := by
  induction n using settle.induct fits with
  | case1 n hstop => rw [settle, if_pos hstop]
  | case2 n hgo ih =>
    rw [settle, if_neg hgo]
    exact ih.trans (Nat.sub_le _ _)

theorem settle_pos (fits : ℕ → Prop) [DecidablePred fits] {n : ℕ} (hn : 0 < n) : 0 < settle fits n := by
  induction n using settle.induct fits with
  | case1 n hstop =>
    rw [settle, if_pos hstop]
    exact hn
  | case2 n hgo ih =>
    rw [settle, if_neg hgo]
    apply ih
    omega

/-- Steps that change nothing one by one change nothing together. -/
theorem foldl_of_fixed {step : Load ι → ι → Load ι} {order : List ι} (hstep : ∀ i ∈ order, step l i = l) :
    order.foldl step l = l := by
  induction order with
  | nil => rfl
  | cons i order ih =>
    rw [List.foldl_cons, hstep i List.mem_cons_self]
    exact ih fun j hj => hstep j (List.mem_cons_of_mem _ hj)

/-- Every queue of `order` emptied and named. -/
def emptied [DecidableEq ι] (order : List ι) (l : Load ι) : Load ι :=
  order.foldl (fun l i => (l.setCount i 0).mark i) l

theorem emptied_spec [DecidableEq ι] (order : List ι) (l : Load ι) :
    (∀ i, (emptied order l).count i = if i ∈ order then 0 else l.count i) ∧
      l.named <+: (emptied order l).named ∧ ∀ i ∈ order, i ∈ (emptied order l).named := by
  induction order generalizing l with
  | nil => exact ⟨fun i => (if_neg List.not_mem_nil).symm, List.prefix_rfl, fun i hi => absurd hi List.not_mem_nil⟩
  | cons j order ih =>
    obtain ⟨hcount, hnamed, hall⟩ := ih ((l.setCount j 0).mark j)
    have hfirst : l.named <+: ((l.setCount j 0).mark j).named := by
      unfold Load.mark
      split_ifs
      · exact List.prefix_rfl
      · exact List.prefix_append _ _
    refine ⟨fun i => ?_, hfirst.trans hnamed, fun i hi => ?_⟩
    · have hrest := hcount i
      have hone : ((l.setCount j 0).mark j).count i = if i = j then 0 else l.count i := by
        rw [Load.count_mark]
        exact Function.update_apply l.count j 0 i
      rw [hone] at hrest
      have hstep : emptied (j :: order) l = emptied order ((l.setCount j 0).mark j) := rfl
      rw [hstep, hrest]
      by_cases hi : i ∈ order
      · rw [if_pos hi, if_pos (List.mem_cons_of_mem _ hi)]
      · by_cases hij : i = j
        · rw [if_neg hi, if_pos hij, if_pos (List.mem_cons.mpr (.inl hij))]
        · rw [if_neg hi, if_neg hij, if_neg fun hmem => (List.mem_cons.mp hmem).elim hij hi]
    · rcases List.mem_cons.mp hi with rfl | hmem
      · exact hnamed.subset (Load.mem_named_mark _ _)
      · exact hall i hmem

/-- What is left with every queue empty weighs no more than the queues emptied
and all of them named. -/
theorem Weighs.le_emptied [DecidableEq ι] {weight : Load ι → ℕ} (hweight : Weighs weight) {order : List ι}
    {a b : Load ι} (hshed : Shed a b) (hall : ∀ i, i ∈ order ∨ a.count i = 0)
    (hzero : ∀ i ∈ order, b.count i = 0) : weight b ≤ weight (emptied order a) := by
  obtain ⟨hcount, ⟨rest, hrest⟩, hnames⟩ := emptied_spec order a
  obtain ⟨added, hadded, hnodup, hmem⟩ := hshed.named
  apply hweight
  · intro i
    rcases hall i with hi | hi
    · rw [hzero i hi]
      exact Nat.zero_le _
    · have hle := hshed.count_le i
      omega
  · rw [hadded, ← hrest]
    apply (List.subperm_append_left a.named).mpr
    apply hnodup.subperm
    intro i hi
    obtain ⟨hnew, hlost⟩ := (hmem i).mp hi
    have horder : i ∈ order := (hall i).resolve_right (by omega)
    have hname := hnames i horder
    rw [← hrest, List.mem_append] at hname
    exact hname.resolve_left hnew

theorem settle_cases (fits : ℕ → Prop) [DecidablePred fits] (n : ℕ) :
    fits (settle fits n) ∨ settle fits n ≤ 1 := by
  induction n using settle.induct fits with
  | case1 n hstop =>
    rw [settle, if_pos hstop]
    exact hstop
  | case2 n hgo ih =>
    rw [settle, if_neg hgo]
    exact ih

section Cuts

variable [DecidableEq ι] (weight : Load ι → ℕ) (limit : ℕ)

/-- Where cutting the queue by parts of what it has above its first item ends. -/
def coarseCount (l : Load ι) (i : ι) : ℕ :=
  settle (fun k => weight (l.setCount i k) ≤ limit) (l.count i)

def coarseCut (l : Load ι) (i : ι) : Load ι := l.cut i (coarseCount weight limit l i)

/-- The most items of the queue, not all, that are within the limit; 0 if none are. -/
def fineCount (l : Load ι) (i : ι) : ℕ :=
  Nat.findGreatest (fun k => weight (l.cut i k) ≤ limit) (l.count i - 1)

/-- The queue cut one item at a time. -/
def fineCut (l : Load ι) (i : ι) : Load ι :=
  if weight l ≤ limit then l else l.cut i (fineCount weight limit l i)

def coarse (order : List ι) (l : Load ι) : Load ι := order.foldl (coarseCut weight limit) l

def fine (order : List ι) (l : Load ι) : Load ι := order.foldl (fineCut weight limit) l

theorem shed_fineCut (l : Load ι) (i : ι) : Shed l (fineCut weight limit l i) := by
  unfold fineCut
  split_ifs
  · exact Shed.refl l
  · exact Shed.cut l i _

theorem shed_coarse (order : List ι) (l : Load ι) : Shed l (coarse weight limit order l) :=
  Shed.foldl (fun l i => Shed.cut l i _) order l

theorem shed_fine (order : List ι) (l : Load ι) : Shed l (fine weight limit order l) :=
  Shed.foldl (shed_fineCut weight limit) order l

theorem fineCount_fits {l : Load ι} {i : ι} (hne : fineCount weight limit l i ≠ 0) :
    weight (l.cut i (fineCount weight limit l i)) ≤ limit :=
  @Nat.findGreatest_of_ne_zero _ (fun k => weight (l.cut i k) ≤ limit) _ _ rfl hne

/-- A fine cut ends within the limit or with nothing left. -/
theorem fineCut_cases (l : Load ι) (i : ι) :
    weight (fineCut weight limit l i) ≤ limit ∨ (fineCut weight limit l i).count i = 0 := by
  unfold fineCut
  split_ifs with hl
  · exact .inl hl
  · by_cases hzero : fineCount weight limit l i = 0
    · right
      rw [hzero, Load.count_cut]
      exact Nat.zero_min _
    · exact .inl (fineCount_fits weight limit hzero)

variable {weight limit} {l : Load ι}

theorem coarseCount_le (l : Load ι) (i : ι) : coarseCount weight limit l i ≤ l.count i := settle_le _ _

theorem coarseCount_of_stop {i : ι} (hl : weight l ≤ limit ∨ l.count i ≤ 1) :
    coarseCount weight limit l i = l.count i := by
  unfold coarseCount
  rw [settle, if_pos]
  rw [Load.setCount_self]
  exact hl

theorem coarseCount_cases (l : Load ι) (i : ι) :
    weight (l.setCount i (coarseCount weight limit l i)) ≤ limit ∨ coarseCount weight limit l i ≤ 1 :=
  settle_cases (fun k => weight (l.setCount i k) ≤ limit) (l.count i)

/-- A part of what is above the first item goes at a time. -/
theorem coarseCount_step {i : ι} (hl : ¬ weight l ≤ limit) (hi : 1 < l.count i) :
    coarseCount weight limit l i =
      coarseCount weight limit (l.setCount i (l.count i - max ((l.count i - 1) / 4) 1)) i := by
  unfold coarseCount
  rw [settle, if_neg]
  · simp only [Load.count_setCount, Load.setCount_setCount]
  · rw [Load.setCount_self]
    exact fun hstop => hstop.elim hl (Nat.not_le.mpr hi)

/-- Within the limit nothing is cut. -/
theorem coarseCut_of_le (hl : weight l ≤ limit) (i : ι) : coarseCut weight limit l i = l := by
  apply Load.cut_of_le
  exact (coarseCount_of_stop (.inl hl)).ge

theorem fineCut_of_le (hl : weight l ≤ limit) (i : ι) : fineCut weight limit l i = l := if_pos hl

theorem coarse_of_le (hl : weight l ≤ limit) (order : List ι) : coarse weight limit order l = l :=
  foldl_of_fixed fun i _ => coarseCut_of_le hl i

theorem fine_of_le (hl : weight l ≤ limit) (order : List ι) : fine weight limit order l = l :=
  foldl_of_fixed fun i _ => fineCut_of_le hl i

theorem coarseCut_of_zero {i : ι} (hi : l.count i = 0) : coarseCut weight limit l i = l := by
  apply Load.cut_of_le
  rw [hi]
  exact Nat.zero_le _

theorem fineCut_of_zero {i : ι} (hi : l.count i = 0) : fineCut weight limit l i = l := by
  unfold fineCut
  split_ifs
  · rfl
  · apply Load.cut_of_le
    rw [hi]
    exact Nat.zero_le _

/-- A queue over the limit loses its last item before it is looked at again. -/
theorem fineCut_step {i : ι} (hl : ¬ weight l ≤ limit) (hi : 0 < l.count i) :
    fineCut weight limit l i = fineCut weight limit (l.cut i (l.count i - 1)) i := by
  obtain ⟨m, hm⟩ : ∃ m, l.count i = m + 1 := ⟨l.count i - 1, by omega⟩
  have hcount : (l.cut i m).count i = m := by rw [Load.count_cut, Nat.min_eq_left (by omega)]
  unfold fineCut fineCount
  rw [if_neg hl, hm, Nat.add_sub_cancel, hcount]
  by_cases hfits : weight (l.cut i m) ≤ limit
  · have hmost : Nat.findGreatest (fun k => weight (l.cut i k) ≤ limit) m = m := Nat.findGreatest_eq hfits
    rw [if_pos hfits, hmost]
  · rw [if_neg hfits]
    cases m with
    | zero => rw [Nat.findGreatest_zero, Nat.zero_sub, Nat.findGreatest_zero, Load.cut_cut le_rfl]
    | succ m =>
      have hsame : Nat.findGreatest (fun k => weight ((l.cut i (m + 1)).cut i k) ≤ limit) m =
          Nat.findGreatest (fun k => weight (l.cut i k) ≤ limit) m := by
        have hiff {k : ℕ} (hk : k ≤ m) :
            weight ((l.cut i (m + 1)).cut i k) ≤ limit ↔ weight (l.cut i k) ≤ limit := by
          rw [Load.cut_cut (by omega)]
        obtain ⟨hle, hsome, hmost⟩ := Nat.findGreatest_eq_iff.mp
          (Eq.refl (Nat.findGreatest (fun k => weight (l.cut i k) ≤ limit) m))
        apply Nat.findGreatest_eq_iff.mpr
        exact ⟨hle, fun hne => (hiff hle).mpr (hsome hne), fun k hlt hk hthere =>
          hmost hlt hk ((hiff hk).mp hthere)⟩
      have hle : Nat.findGreatest (fun k => weight (l.cut i k) ≤ limit) m ≤ m + 1 :=
        (Nat.findGreatest_le m).trans (Nat.le_succ m)
      have hless : Nat.findGreatest (fun k => weight (l.cut i k) ≤ limit) (m + 1) =
          Nat.findGreatest (fun k => weight (l.cut i k) ≤ limit) m := Nat.findGreatest_of_not hfits
      rw [hless, Nat.add_sub_cancel, hsame, Load.cut_cut hle]

/-- The coarse cuts leave every queue an item. -/
theorem coarse_pos (order : List ι) {i : ι} (hi : 0 < l.count i) :
    0 < (coarse weight limit order l).count i := by
  induction order generalizing l with
  | nil => exact hi
  | cons j order ih =>
    apply ih
    unfold coarseCut
    by_cases hij : i = j
    · rw [hij, Load.count_cut]
      rw [hij] at hi
      exact lt_min (settle_pos _ hi) hi
    · rw [Load.count_cut_of_ne hij]
      exact hi

/-- **Over the limit** after the fine cuts, every queue is empty. -/
theorem fine_count {order : List ι} (hover : limit < weight (fine weight limit order l)) {i : ι}
    (hi : i ∈ order) : (fine weight limit order l).count i = 0 := by
  induction order generalizing l with
  | nil => exact absurd hi List.not_mem_nil
  | cons j order ih =>
    rcases List.mem_cons.mp hi with rfl | hmem
    · have hrest := shed_fine weight limit order (fineCut weight limit l i)
      rcases fineCut_cases weight limit l i with hfits | hzero
      · have hsame : fine weight limit (i :: order) l = fineCut weight limit l i := fine_of_le hfits order
        rw [hsame] at hover
        exact absurd hfits (Nat.not_le.mpr hover)
      · exact Nat.le_zero.mp (hzero ▸ hrest.count_le i)
    · exact ih hover hmem

/-- Without the empty queues in front. -/
theorem fine_append {pre : List ι} (hpre : ∀ i ∈ pre, l.count i = 0) (rest : List ι) :
    fine weight limit (pre ++ rest) l = fine weight limit rest l := by
  have hfixed : pre.foldl (fineCut weight limit) l = l := foldl_of_fixed fun i hi => fineCut_of_zero (hpre i hi)
  unfold fine
  rw [List.foldl_append, hfixed]

/-- **What the fine cuts keep**: an item of every queue exactly if the coarse
cuts end within the limit, or if they leave the first queue that has any more
than one and are within it with that queue cut to one. -/
theorem fine_keeps_iff (hweight : Weighs weight) {order : List ι} {first : ι}
    (hfirst : order.find? (fun i => 0 < l.count i) = some first) :
    (∀ i ∈ order, 0 < l.count i → 0 < (fine weight limit order (coarse weight limit order l)).count i) ↔
      weight (coarse weight limit order l) ≤ limit ∨ 1 < (coarse weight limit order l).count first ∧
        weight ((coarse weight limit order l).cut first 1) ≤ limit := by
  obtain ⟨hpos, pre, rest, horder, hpre⟩ := List.find?_eq_some_iff_append.mp hfirst
  have hcount : 0 < l.count first := of_decide_eq_true hpos
  have hmem : first ∈ order := List.mem_of_find?_eq_some hfirst
  have hshed := shed_coarse weight limit order l
  have hkeep {i : ι} (hi : 0 < l.count i) : 0 < (coarse weight limit order l).count i :=
    coarse_pos order hi
  generalize hcoarse : coarse weight limit order l = c at hshed hkeep ⊢
  by_cases hfits : weight c ≤ limit
  · rw [fine_of_le hfits]
    exact ⟨fun _ => .inl hfits, fun _ i _ hi => hkeep hi⟩
  · -- the queues in front are empty: the first cut is the first queue's
    have hfine : fine weight limit order c = fine weight limit rest (fineCut weight limit c first) := by
      rw [horder, fine_append]
      · rfl
      · intro i hi
        have hzero : ¬ 0 < l.count i := by simpa using hpre i hi
        have hle := hshed.count_le i
        omega
    have hcut : fineCut weight limit c first = c.cut first (fineCount weight limit c first) := if_neg hfits
    have hsome := hkeep hcount
    have hle : fineCount weight limit c first ≤ c.count first - 1 := Nat.findGreatest_le _
    have hfitsOf := @fineCount_fits _ _ weight limit c first
    have hge (h : 1 ≤ c.count first - 1) (hone : weight (c.cut first 1) ≤ limit) :
        1 ≤ fineCount weight limit c first := Nat.le_findGreatest h hone
    rw [hfine, hcut]
    generalize fineCount weight limit c first = k at hle hfitsOf hge ⊢
    have hklt : k < c.count first := by omega
    have hleft : (c.cut first k).count first = k := by rw [Load.count_cut, Nat.min_eq_left hklt.le]
    have hrest := shed_fine weight limit rest (c.cut first k)
    constructor
    · intro hkept
      right
      have hkpos : 0 < k := by
        have hless := hrest.count_le first
        have hkeeps := hkept first hmem hcount
        omega
      have hkfits := hfitsOf hkpos.ne'
      have hmore : 1 < c.count first := by omega
      refine ⟨hmore, le_trans ?_ hkfits⟩
      -- named alike, with fewer items
      apply hweight
      · intro i
        by_cases hi : i = first
        · rw [hi, hleft, Load.count_cut]
          omega
        · rw [Load.count_cut_of_ne hi, Load.count_cut_of_ne hi]
      · unfold Load.cut
        rw [if_pos hmore, if_pos hklt, Load.mark_setCount, Load.mark_setCount]
        exact List.Subperm.refl _
    · intro hone
      obtain ⟨hmore, hfitsOne⟩ := hone.resolve_left hfits
      have hkpos : 1 ≤ k := hge (by omega) hfitsOne
      rw [fine_of_le (hfitsOf (by omega))]
      intro i _ hi
      by_cases heq : i = first
      · rw [heq, hleft]
        exact hkpos
      · rw [Load.count_cut_of_ne heq]
        exact hkeep hi

end Cuts

end Shedding
