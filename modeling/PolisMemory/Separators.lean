/-
# Values joined by marked separators

A text is joined from values with a separator before each value but the
first. A separator is marked: it begins with a marker that does not occur in
it again, so two occurrences of separators with one marker do not overlap
(`Marked.apart`).

The values can be told from the text, the separators known, exactly if no
separator occurs in a value beside it (`joined_unique_iff`): one that does can
be taken for the separator itself, and where none does, a first place in which
another reading differs has no end.

Key definitions: `Marked`, `joined`, `Clear`.
Key theorem: `joined_unique_iff`.
-/
import Mathlib.Data.List.Infix

namespace Separators

variable {α : Type*} {mark : α}

/-- Begins with the marker, and does not hold it again. -/
def Marked (mark : α) (sep : List α) : Prop := ∃ rest, sep = mark :: rest ∧ mark ∉ rest

/-- A value and, after it, each separator with its value. -/
def joined : List α → List (List α × List α) → List α
  | v, [] => v
  | v, (sep, w) :: rest => v ++ sep ++ joined w rest

/-- No separator occurs in the value before it or in the value after it. -/
def Clear : List α → List (List α × List α) → Prop
  | _, [] => True
  | v, (sep, w) :: rest => ¬sep <:+: v ∧ ¬sep <:+: w ∧ Clear w rest

theorem joined_append (a b : List α) (rest : List (List α × List α)) :
    joined (a ++ b) rest = a ++ joined b rest := by
  cases rest with
  | nil => rfl
  | cons e rest => simp [joined]

/-- A separator that begins before another one ends before it. -/
theorem Marked.apart {p q x a b : List α} (hp : Marked mark p) (hq : Marked mark q) (hx : x ≠ [])
    (h : p ++ a = x ++ (q ++ b)) : ∃ y, x = p ++ y ∧ a = y ++ (q ++ b) := by
  obtain ⟨p', rfl, hp'⟩ := hp
  obtain ⟨q', rfl, -⟩ := hq
  rcases List.append_eq_append_iff.mp h with ⟨y, hx, ha⟩ | ⟨z, hp, hq⟩
  · exact ⟨y, hx, ha⟩
  · -- the second one would begin inside the first
    cases z with
    | nil =>
      rw [List.append_nil] at hp
      exact ⟨[], by rw [hp, List.append_nil], by simpa using hq.symm⟩
    | cons c z =>
      cases x with
      | nil => exact absurd rfl hx
      | cons d x =>
        rw [List.cons_append, List.cons.injEq] at hp
        have hc : mark = c := by simpa using congrArg List.head? hq
        rw [hp.2, ← hc] at hp'
        exact absurd (by simp) hp'

/-- A reading whose separator comes later never catches up. -/
theorem not_later : ∀ (rest : List (List α × List α)) (p y w w' : List α)
    (ws : List (List α)), Marked mark p → (∀ e ∈ rest, Marked mark e.1) → ¬p <:+: w →
    Clear w rest → ws.length = rest.length →
    y ++ (p ++ joined w' ((rest.map Prod.fst).zip ws)) ≠ joined w rest
  | [], p, y, w, w', ws, _, _, hclear, _, _ => by
    intro h
    have h : y ++ (p ++ w') = w := by simpa [joined] using h
    exact hclear ⟨y, w', by rw [← h, List.append_assoc]⟩
  | (q, u) :: rest, p, y, w, w', ws, hp, hmarked, hclear, hrest, hlen => by
    intro h
    obtain ⟨u', ws, rfl⟩ : ∃ u' us, ws = u' :: us := by
      cases ws with
      | nil => simp at hlen
      | cons u' us => exact ⟨u', us, rfl⟩
    obtain ⟨-, hqu, hcl⟩ := hrest
    have hq : Marked mark q := hmarked (q, u) List.mem_cons_self
    have h : y ++ (p ++ (w' ++ (q ++ joined u' ((rest.map Prod.fst).zip ws)))) =
        w ++ (q ++ joined u rest) := by
      simpa [joined] using h
    -- the later separator is past `w`, and so is the next one
    have hpast : ∃ z, y = w ++ z := by
      rcases List.append_eq_append_iff.mp h with ⟨z, hw, hz⟩ | ⟨z, hy, -⟩
      · cases z with
        | nil => exact ⟨[], by rw [hw, List.append_nil, List.append_nil]⟩
        | cons c z =>
          exfalso
          obtain ⟨z', hz', -⟩ := hp.apart hq (List.cons_ne_nil c z) hz
          exact hclear ⟨y, z', by rw [hw, hz', List.append_assoc]⟩
      · exact ⟨z, hy⟩
    obtain ⟨z, rfl⟩ := hpast
    have h : q ++ joined u rest =
        (z ++ (p ++ w')) ++ (q ++ joined u' ((rest.map Prod.fst).zip ws)) := by
      have h := h.symm
      rw [List.append_assoc, List.append_cancel_left_eq] at h
      rw [h]
      simp
    have hne : z ++ (p ++ w') ≠ [] := by
      obtain ⟨p', rfl, -⟩ := hp
      simp
    obtain ⟨y', -, hy'⟩ := hq.apart hq hne h
    exact not_later rest q y' u u' ws hq (fun e he => hmarked e (List.mem_cons_of_mem _ he)) hqu
      hcl (by simpa using hlen) hy'.symm

/-- The reading is determined where the separators are clear. -/
theorem joined_injective : ∀ (rest : List (List α × List α)) (v v' : List α) (ws : List (List α)),
    (∀ e ∈ rest, Marked mark e.1) → Clear v rest → ws.length = rest.length →
    joined v' ((rest.map Prod.fst).zip ws) = joined v rest → v' = v ∧ ws = rest.map Prod.snd
  | [], v, v', ws, _, _, hlen, h => by
    have hws : ws = [] := List.length_eq_zero_iff.mp hlen
    exact ⟨by simpa [joined] using h, by simp [hws]⟩
  | (q, u) :: rest, v, v', ws, hmarked, hclear, hlen, h => by
    obtain ⟨u', ws, rfl⟩ : ∃ u' us, ws = u' :: us := by
      cases ws with
      | nil => simp at hlen
      | cons u' us => exact ⟨u', us, rfl⟩
    obtain ⟨hqv, hqu, hcl⟩ := hclear
    have hq : Marked mark q := hmarked (q, u) List.mem_cons_self
    have hrest : ∀ e ∈ rest, Marked mark e.1 := fun e he => hmarked e (List.mem_cons_of_mem _ he)
    have hlen : ws.length = rest.length := by simpa using hlen
    have h : v' ++ (q ++ joined u' ((rest.map Prod.fst).zip ws)) = v ++ (q ++ joined u rest) := by
      simpa [joined] using h
    rcases List.append_eq_append_iff.mp h with ⟨z, hv, hz⟩ | ⟨z, hv', hz⟩
    · cases z with
      | nil =>
        have hu := joined_injective rest u u' ws hrest hcl hlen (by simpa using hz)
        exact ⟨by rw [hv, List.append_nil], by rw [hu.1, hu.2, List.map_cons]⟩
      | cons c z =>
        -- an earlier separator would lie in the value before
        obtain ⟨z', hz', -⟩ := hq.apart hq (List.cons_ne_nil c z) hz
        exact absurd ⟨v', z', by rw [hv, hz', List.append_assoc]⟩ hqv
    · cases z with
      | nil =>
        have hu := joined_injective rest u u' ws hrest hcl hlen (by simpa using hz.symm)
        exact ⟨by rw [hv', List.append_nil], by rw [hu.1, hu.2, List.map_cons]⟩
      | cons c z =>
        -- a later one would lie in the value after, and so on to the end
        obtain ⟨z', -, hz'⟩ := hq.apart hq (List.cons_ne_nil c z) hz
        exact absurd hz'.symm (not_later rest q z' u u' ws hq hrest hqu hcl hlen)

/-- Where a separator lies in a value beside it, the text has another
reading. -/
theorem exists_other : ∀ (rest : List (List α × List α)) (v : List α),
    (∀ e ∈ rest, Marked mark e.1) → ¬Clear v rest →
    ∃ (v' : List α) (ws : List (List α)), ws.length = rest.length ∧
      joined v' ((rest.map Prod.fst).zip ws) = joined v rest ∧
      (v' ≠ v ∨ ws ≠ rest.map Prod.snd)
  | [], v, _, h => absurd trivial h
  | (q, u) :: rest, v, hmarked, h => by
    have hq : q ≠ [] := by
      obtain ⟨q', rfl, -⟩ := hmarked (q, u) List.mem_cons_self
      simp
    have hsame : (rest.map Prod.fst).zip (rest.map Prod.snd) = rest := by
      rw [← List.unzip_fst, ← List.unzip_snd, List.zip_unzip]
    by_cases hqv : q <:+: v
    · obtain ⟨x, y, rfl⟩ := hqv
      refine ⟨x, (y ++ q ++ u) :: rest.map Prod.snd, by simp, ?_, Or.inl ?_⟩
      · rw [List.map_cons, List.zip_cons_cons, hsame]
        simp only [joined, joined_append, List.append_assoc]
      · intro hx
        simpa [hq] using congrArg List.length hx
    · by_cases hqu : q <:+: u
      · obtain ⟨x, y, rfl⟩ := hqu
        refine ⟨v ++ q ++ x, y :: rest.map Prod.snd, by simp, ?_, Or.inl ?_⟩
        · rw [List.map_cons, List.zip_cons_cons, hsame]
          simp only [joined, joined_append, List.append_assoc]
        · intro hx
          simpa [hq] using congrArg List.length hx
      · have hcl : ¬Clear u rest := fun hcl => h ⟨hqv, hqu, hcl⟩
        obtain ⟨u', ws, hlen, htext, hne⟩ := exists_other rest u
          (fun e he => hmarked e (List.mem_cons_of_mem _ he)) hcl
        refine ⟨v, u' :: ws, by simpa using hlen, ?_, Or.inr ?_⟩
        · rw [List.map_cons, List.zip_cons_cons, joined, joined, htext]
        · rw [List.map_cons]
          intro heq
          rw [List.cons.injEq] at heq
          rcases hne with hne | hne
          · exact hne heq.1
          · exact hne heq.2

/-- The values are the only ones with their text exactly if no separator
occurs in a value beside it. -/
theorem joined_unique_iff (rest : List (List α × List α)) (v : List α)
    (hmarked : ∀ e ∈ rest, Marked mark e.1) :
    (∀ (v' : List α) (ws : List (List α)), ws.length = rest.length →
      joined v' ((rest.map Prod.fst).zip ws) = joined v rest →
        v' = v ∧ ws = rest.map Prod.snd) ↔ Clear v rest := by
  constructor
  · intro hunique
    by_contra hclear
    obtain ⟨v', ws, hlen, htext, hne⟩ := exists_other rest v hmarked hclear
    obtain ⟨hv, hws⟩ := hunique v' ws hlen htext
    rcases hne with hne | hne
    · exact hne hv
    · exact hne hws
  · intro hclear v' ws hlen htext
    exact joined_injective rest v v' ws hmarked hclear hlen htext

end Separators
