/-
# Spans that follow each other

A list of half-open spans `(lo, hi]`, the newest first: each begins where the
one before it ended, the oldest at a given origin. What lies between the origin
and the end of the newest is inside one of them and inside no other, so taking
the newest away gives back its part and nothing else.

Key definitions: `Spans.top`, `Spans.Chained`, `Spans.Inside`.
Key theorems: `Spans.Chained.exists_inside`, `Spans.Chained.inside_unique`,
`Spans.Chained.max_eq`.
-/
import Mathlib.Data.List.Basic
import Mathlib.Order.Lattice
import Mathlib.Order.MinMax

namespace Spans

variable {α β : Type*} [LinearOrder α] (lo hi : β → α) (o : α)

/-- Where the newest span ends, and the next one begins. -/
def top : List β → α
  | [] => o
  | w :: _ => hi w

/-- Each span begins where the one before it ended. -/
def Chained : List β → Prop
  | [] => True
  | w :: ws => lo w = top hi o ws ∧ lo w ≤ hi w ∧ Chained ws

/-- A point of a span. -/
def Inside (x : α) (w : β) : Prop := lo w < x ∧ x ≤ hi w

variable {lo hi o} {ws : List β} {v w : β} {x : α}

namespace Chained

theorem tail (h : Chained lo hi o (w :: ws)) : Chained lo hi o ws := h.2.2

theorem origin_le : ∀ {ws : List β}, Chained lo hi o ws → o ≤ top hi o ws
  | [], _ => le_rfl
  | w :: ws, h => by
    calc o ≤ top hi o ws := h.tail.origin_le
      _ = lo w := h.1.symm
      _ ≤ hi w := h.2.1

/-- No span ends behind the newest. -/
theorem hi_le : ∀ {ws : List β}, Chained lo hi o ws → ∀ w ∈ ws, hi w ≤ top hi o ws
  | v :: ws, h, w, hw => by
    obtain rfl | hw := List.mem_cons.mp hw
    · exact le_rfl
    · calc hi w ≤ top hi o ws := h.tail.hi_le w hw
        _ = lo v := h.1.symm
        _ ≤ hi v := h.2.1

/-- **What lies before the end is inside a span.** -/
theorem exists_inside : ∀ {ws : List β}, Chained lo hi o ws → o < x → x ≤ top hi o ws →
    ∃ w ∈ ws, Inside lo hi x w
  | [], _, hlo, hhi => absurd hlo (not_lt.mpr hhi)
  | w :: ws, h, hlo, hhi => by
    by_cases hx : lo w < x
    · exact ⟨w, List.mem_cons_self, hx, hhi⟩
    · have hold : x ≤ top hi o ws := h.1 ▸ not_lt.mp hx
      obtain ⟨v, hv, hinside⟩ := h.tail.exists_inside hlo hold
      exact ⟨v, List.mem_cons_of_mem _ hv, hinside⟩

/-- A point of the newest is in no older one. -/
theorem not_inside_tail (h : Chained lo hi o (w :: ws)) (hx : Inside lo hi x w) :
    ∀ v ∈ ws, ¬Inside lo hi x v := by
  intro v hv hxv
  have hle : x ≤ lo w := by
    calc x ≤ hi v := hxv.2
      _ ≤ top hi o ws := h.tail.hi_le v hv
      _ = lo w := h.1.symm
  exact absurd hx.1 (not_lt.mpr hle)

/-- **No point is inside two spans.** -/
theorem inside_unique : ∀ {ws : List β}, Chained lo hi o ws → v ∈ ws → w ∈ ws →
    Inside lo hi x v → Inside lo hi x w → v = w
  | u :: ws, h, hv, hw, hxv, hxw => by
    rcases List.mem_cons.mp hv with hnew | hold
    · subst hnew
      rcases List.mem_cons.mp hw with rfl | hw'
      · rfl
      · exact absurd hxw (h.not_inside_tail hxv w hw')
    · rcases List.mem_cons.mp hw with rfl | hw'
      · exact absurd hxv (h.not_inside_tail hxw v hold)
      · exact h.tail.inside_unique hold hw' hxv hxw

/-- The newest end is the greatest. -/
theorem max_eq (h : Chained lo hi o ws) {xs : List α} (hxs : ∀ x, x ∈ xs ↔ x ∈ ws.map hi) :
    xs.max?.getD o = top hi o ws := by
  cases ws with
  | nil =>
    have hnil : xs = [] := List.eq_nil_iff_forall_not_mem.mpr fun x hx => by
      simpa using (hxs x).mp hx
    rw [hnil]
    rfl
  | cons w ws =>
    have hmax : xs.max? = some (hi w) := by
      refine List.max?_eq_some_iff.mpr ⟨(hxs _).mpr List.mem_cons_self, fun x hx => ?_⟩
      obtain ⟨v, hv, rfl⟩ := List.mem_map.mp ((hxs x).mp hx)
      exact h.hi_le v hv
    rw [hmax]
    rfl

end Chained

end Spans
