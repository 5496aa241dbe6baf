/-
# First occurrences

A list is cut at the first place where a pattern occurs in it: `cut?` gives what
is before the occurrence and what is after it.

Key definition: `cut?`.
Key theorems: `cut?_eq_some_iff`, `cut?_eq_none_iff`, `cut?_append_cons`,
`mem_splitOnP`.
-/
import Mathlib.Data.List.Infix

namespace Occurrences

variable {α : Type*} [DecidableEq α] {pat xs a b : List α}

/-- What is before the first occurrence of a pattern, and what is after it. -/
def cut? (pat : List α) : List α → Option (List α × List α)
  | [] => if pat = [] then some ([], []) else none
  | x :: xs =>
    if pat <+: x :: xs then some ([], (x :: xs).drop pat.length)
    else (cut? pat xs).map fun p => (x :: p.1, p.2)

theorem cut?_of_isPrefix (h : pat <+: xs) : cut? pat xs = some ([], xs.drop pat.length) := by
  cases xs with
  | nil => simp [cut?, List.prefix_nil.mp h]
  | cons x xs => simp [cut?, h]

theorem cut?_append (h : cut? pat xs = some (a, b)) : xs = a ++ (pat ++ b) := by
  induction xs generalizing a b with
  | nil =>
    unfold cut? at h
    split at h
    · next hpat =>
      obtain ⟨rfl, rfl⟩ := Prod.mk.injEq .. ▸ Option.some.inj h
      simp [hpat]
    · cases h
  | cons x xs ih =>
    unfold cut? at h
    split at h
    · next hpat =>
      obtain ⟨rfl, rfl⟩ := Prod.mk.injEq .. ▸ Option.some.inj h
      obtain ⟨t, ht⟩ := hpat
      rw [← ht, List.drop_left, List.nil_append]
    · obtain ⟨⟨a', b'⟩, hcut, heq⟩ := Option.map_eq_some_iff.mp h
      obtain ⟨rfl, rfl⟩ := Prod.mk.injEq .. ▸ heq
      rw [List.cons_append, ← ih hcut]

/-- No occurrence is before the cut. -/
theorem cut?_least (h : cut? pat xs = some (a, b)) {a' b' : List α} (hxs : xs = a' ++ (pat ++ b')) :
    a.length ≤ a'.length := by
  induction xs generalizing a b a' with
  | nil =>
    have := cut?_append h
    simp_all
  | cons x xs ih =>
    unfold cut? at h
    split at h
    · obtain ⟨rfl, rfl⟩ := Prod.mk.injEq .. ▸ Option.some.inj h
      exact Nat.zero_le _
    · next hpat =>
      obtain ⟨⟨a₁, b₁⟩, hcut, heq⟩ := Option.map_eq_some_iff.mp h
      obtain ⟨rfl, rfl⟩ := Prod.mk.injEq .. ▸ heq
      cases a' with
      | nil => exact absurd ⟨b', hxs.symm⟩ hpat
      | cons y a' =>
        have htail : xs = a' ++ (pat ++ b') := (List.cons.inj hxs).2
        exact Nat.succ_le_succ (ih hcut htail)

theorem cut?_eq_none_iff : cut? pat xs = none ↔ ¬ pat <:+: xs := by
  induction xs with
  | nil => simp [cut?, List.infix_nil]
  | cons x xs ih =>
    unfold cut?
    rw [List.infix_cons_iff]
    split
    · next hpat => simp [hpat]
    · next hpat => simp [hpat, ih]

/-- The cut is at an occurrence, and there is none before. -/
theorem cut?_eq_some_iff : cut? pat xs = some (a, b) ↔
    xs = a ++ (pat ++ b) ∧ ∀ a' b', xs = a' ++ (pat ++ b') → a.length ≤ a'.length := by
  constructor
  · exact fun h => ⟨cut?_append h, fun a' b' hxs => cut?_least h hxs⟩
  · rintro ⟨hxs, hleast⟩
    cases hcut : cut? pat xs with
    | none => exact absurd ⟨a, b, by rw [hxs, List.append_assoc]⟩ (cut?_eq_none_iff.mp hcut)
    | some p =>
      obtain ⟨a', b'⟩ := p
      have hxs' := cut?_append hcut
      have hlen : a'.length = a.length :=
        Nat.le_antisymm (cut?_least hcut hxs) (hleast a' b' hxs')
      obtain ⟨rfl, hb⟩ := List.append_inj (hxs'.symm.trans hxs) hlen
      rw [List.append_cancel_left hb]

theorem length_lt_of_cut? (hpat : pat ≠ []) (h : cut? pat xs = some (a, b)) :
    a.length + b.length < xs.length := by
  have hxs := congrArg List.length (cut?_append h)
  have hpos := List.length_pos_iff.mpr hpat
  simp only [List.length_append] at hxs
  omega

/-! ### The pieces of a list -/

omit [DecidableEq α] in
/-- The pieces of a list that is split are pieces of it, the first one from its
start, without what it is split at. -/
theorem splitOnP_pieces (p : α → Bool) (xs : List α) : ∃ v ws,
    xs.splitOnP p = v :: ws ∧ v <+: xs ∧ ∀ w ∈ v :: ws, w <:+: xs ∧ ∀ x ∈ w, p x = false := by
  induction xs with
  | nil => exact ⟨[], [], List.splitOnP_nil, List.nil_prefix, by simp⟩
  | cons x xs ih =>
    obtain ⟨v, ws, hsplit, hpre, hpieces⟩ := ih
    rw [List.splitOnP_cons_eq_if_modifyHead, hsplit]
    have htail : ∀ w, w <:+: xs → w <:+: x :: xs := fun w hw =>
      hw.trans (List.suffix_cons x xs).isInfix
    split_ifs with hx
    · refine ⟨[], v :: ws, rfl, List.nil_prefix, fun w hw => ?_⟩
      rcases List.mem_cons.mp hw with rfl | hw
      · exact ⟨List.nil_infix, by simp⟩
      · exact ⟨htail w (hpieces w hw).1, (hpieces w hw).2⟩
    · have hpre' : x :: v <+: x :: xs := List.cons_prefix_cons.mpr ⟨rfl, hpre⟩
      refine ⟨x :: v, ws, rfl, hpre', fun w hw => ?_⟩
      rcases List.mem_cons.mp hw with rfl | hw
      · refine ⟨hpre'.isInfix, fun y hy => ?_⟩
        rcases List.mem_cons.mp hy with rfl | hy
        · simpa using hx
        · exact (hpieces v List.mem_cons_self).2 y hy
      · obtain ⟨hin, hout⟩ := hpieces w (List.mem_cons_of_mem v hw)
        exact ⟨htail w hin, hout⟩

omit [DecidableEq α] in
theorem mem_splitOnP {p : α → Bool} {w : List α} (hw : w ∈ xs.splitOnP p) :
    w <:+: xs ∧ ∀ x ∈ w, p x = false := by
  obtain ⟨v, ws, hsplit, -, hpieces⟩ := splitOnP_pieces p xs
  exact hpieces w (hsplit ▸ hw)

/-! ### Beside an element that the pattern does not have -/

section apart

variable {x : α} {ys zs : List α} (hx : x ∉ pat)

include hx

omit [DecidableEq α] in
theorem prefix_append_cons : pat <+: ys ++ x :: zs ↔ pat <+: ys := by
  constructor
  · rintro ⟨t, ht⟩
    rcases List.append_eq_append_iff.mp ht with ⟨a, rfl, -⟩ | ⟨c, rfl, hc⟩
    · exact List.prefix_append pat a
    · cases c with
      | nil => simp
      | cons d c =>
        obtain rfl : x = d := (List.cons.inj hc).1
        simp at hx
  · exact fun h => h.trans (List.prefix_append ys _)

omit [DecidableEq α] in
/-- A piece without the element is on one side of it. -/
theorem infix_append_cons : pat <:+: ys ++ x :: zs ↔ pat <:+: ys ∨ pat <:+: zs := by
  constructor
  · rintro ⟨s, t, ht⟩
    rw [List.append_assoc] at ht
    rcases List.append_eq_append_iff.mp ht with ⟨a, rfl, ha⟩ | ⟨c, rfl, hc⟩
    · left
      have hpre : pat <+: a := (prefix_append_cons hx).mp ⟨t, ha⟩
      exact hpre.isInfix.trans (List.suffix_append s a).isInfix
    · cases c with
      | nil =>
        have hpre : pat <+: [] := (@prefix_append_cons _ _ x [] zs hx).mp ⟨t, hc.symm⟩
        exact .inl (hpre.isInfix.trans List.nil_infix)
      | cons d c =>
        exact .inr ⟨c, t, by rw [(List.cons.inj hc).2, List.append_assoc]; rfl⟩
  · rintro (h | h)
    · exact h.trans (List.prefix_append ys _).isInfix
    · exact h.trans ⟨ys ++ [x], [], by simp⟩

/-- The cut is before the element, or as after it. -/
theorem cut?_append_cons (hpat : pat ≠ []) : cut? pat (ys ++ x :: zs) =
    match cut? pat ys with
    | some p => some (p.1, p.2 ++ x :: zs)
    | none => (cut? pat zs).map fun p => (ys ++ x :: p.1, p.2) := by
  induction ys with
  | nil =>
    have hno : ¬ pat <+: x :: zs := by
      rintro ⟨t, ht⟩
      cases pat with
      | nil => exact hpat rfl
      | cons y pat =>
        rw [List.cons_append, List.cons.injEq] at ht
        exact hx (ht.1 ▸ List.mem_cons_self)
    simp [cut?, hno, hpat]
  | cons y ys ih =>
    rw [List.cons_append, cut?, cut?, ← List.cons_append]
    by_cases h : pat <+: y :: ys
    · rw [if_pos ((prefix_append_cons hx).mpr h), if_pos h]
      simp only [List.drop_append_of_le_length h.length_le]
    · rw [if_neg (mt (prefix_append_cons hx).mp h), if_neg h, ih]
      cases cut? pat ys with
      | some p => rfl
      | none => cases cut? pat zs <;> rfl

end apart

end Occurrences
