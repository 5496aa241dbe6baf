/-
# Leftmost-first patterns

What a pattern can take from a text at a place, in the order in which a
backtracking matcher tries: the first alternative before the second, a greedy
run at its longest first, a lazy gap at its shortest. The match is the first of
the list. What a pattern takes at all is said part by part (`takes_seq` and its
siblings), and depends on the text around it by the word boundaries alone
(`Re.Takes.congr`).

Key definitions: `Re`, `Re.results`, `Re.Takes`.
Key theorems: `mem_results`, `Re.Takes.congr`, `Re.Stops.head`.
-/
import Mathlib.Data.List.Infix
import Mathlib.Tactic.Common

namespace Backtrack

/-- A character of a word: of ASCII. -/
def isWord (c : Char) : Bool := c.isAlphanum || c == '_'

/-- One side of the place is in a word and the other is not. -/
def atBoundary (prev next : Option Char) : Bool := prev.any isWord != next.any isWord

/-- The character before the place that `u` leads to. -/
def after (prev : Option Char) (u : List Char) : Option Char := u.foldl (fun _ c => some c) prev

@[simp] theorem after_nil (prev : Option Char) : after prev [] = prev := rfl

@[simp] theorem after_cons (prev : Option Char) (c : Char) (u : List Char) :
    after prev (c :: u) = after (some c) u := rfl

@[simp] theorem after_append (prev : Option Char) (u v : List Char) :
    after prev (u ++ v) = after (after prev u) v := List.foldl_append

theorem after_of_ne_nil {u : List Char} (hu : u ≠ []) (prev : Option Char) : after prev u = u.getLast? := by
  obtain ⟨v, c, rfl⟩ := List.eq_nil_or_concat u |>.resolve_left hu
  simp

theorem after_append_of_ne_nil {v : List Char} (hv : v ≠ []) (prev : Option Char) (u : List Char) :
    after prev (u ++ v) = v.getLast? := by
  rw [after_append, after_of_ne_nil hv]

theorem atBoundary_iff {prev next : Option Char} :
    atBoundary prev next = true ↔ prev.any isWord ≠ next.any isWord := bne_iff_ne

/-- A pattern. -/
inductive Re where
  | empty
  | boundary
  | one (p : Char → Bool)
  /-- A greedy run. -/
  | many (p : Char → Bool) (least : ℕ)
  /-- Any text, as short as it can be. -/
  | gap
  | seq (a b : Re)
  | alt (a b : Re)

/-- The runs of `p` that a text begins with, the longest first. -/
def greedy (p : Char → Bool) : List Char → List (List Char × List Char)
  | [] => [([], [])]
  | c :: t => (if p c then (greedy p t).map fun x => (c :: x.1, x.2) else []) ++ [([], c :: t)]

/-- The beginnings of a text, the shortest first. -/
def lazily : List Char → List (List Char × List Char)
  | [] => [([], [])]
  | c :: t => ([], c :: t) :: (lazily t).map fun x => (c :: x.1, x.2)

/-- What the pattern takes and leaves of a text, in the order of the tries. -/
def Re.results : Re → Option Char → List Char → List (List Char × List Char)
  | .empty, _, t => [([], t)]
  | .boundary, prev, t => if atBoundary prev t.head? then [([], t)] else []
  | .one _, _, [] => []
  | .one p, _, c :: t => if p c then [([c], t)] else []
  | .many p least, _, t => (greedy p t).filter fun x => least ≤ x.1.length
  | .gap, _, t => lazily t
  | .seq a b, prev, t => (a.results prev t).flatMap fun x =>
      (b.results (after prev x.1) x.2).map fun y => (x.1 ++ y.1, y.2)
  | .alt a b, prev, t => a.results prev t ++ b.results prev t

/-- A given text. -/
def Re.lit (s : List Char) : Re := s.foldr (fun c r => .seq (.one (· == c)) r) .empty

/-- A given text of ASCII, in either case. -/
def Re.word (s : List Char) : Re := s.foldr (fun c r => .seq (.one (·.toLower == c)) r) .empty

/-- So many of `p`. -/
def Re.times (p : Char → Bool) : ℕ → Re
  | 0 => .empty
  | n + 1 => .seq (.one p) (times p n)

/-- Once if it can be, else not at all. -/
def Re.opt (r : Re) : Re := .alt r .empty

/-! ### What a pattern takes at all -/

/-- The pattern can take `u` and leave `rest`. -/
def Re.Takes (r : Re) (prev : Option Char) (u rest : List Char) : Prop :=
  (u, rest) ∈ r.results prev (u ++ rest)

theorem mem_greedy {p : Char → Bool} {t u rest : List Char} :
    (u, rest) ∈ greedy p t ↔ t = u ++ rest ∧ ∀ c ∈ u, p c = true := by
  induction t generalizing u with
  | nil => cases u <;> simp [greedy]
  | cons d t ih =>
    cases u with
    | nil =>
      rw [greedy, List.mem_append, List.mem_singleton, List.nil_append]
      constructor
      · rintro (h | h)
        · split at h <;> simp at h
        · exact ⟨(Prod.ext_iff.mp h).2.symm, by simp⟩
      · rintro ⟨rfl, -⟩
        exact .inr rfl
    | cons c u =>
      by_cases hd : p d = true
      · simp only [greedy, hd, if_true, List.mem_append, List.mem_map, List.mem_singleton, Prod.exists,
          Prod.mk.injEq, List.cons.injEq, List.cons_append, List.forall_mem_cons]
        constructor
        · rintro (⟨v, w, hv, ⟨rfl, rfl⟩, rfl⟩ | ⟨h, -⟩)
          · obtain ⟨rfl, hp⟩ := ih.mp hv
            exact ⟨⟨rfl, rfl⟩, hd, hp⟩
          · cases h
        · rintro ⟨⟨rfl, rfl⟩, -, hp⟩
          exact .inl ⟨u, rest, ih.mpr ⟨rfl, hp⟩, ⟨rfl, rfl⟩, rfl⟩
      · simp only [greedy, hd, List.cons_append, List.cons.injEq, List.forall_mem_cons]
        constructor
        · intro h
          simp at h
        · rintro ⟨⟨rfl, -⟩, hc, -⟩
          exact absurd hc hd

theorem mem_lazily {t u rest : List Char} : (u, rest) ∈ lazily t ↔ t = u ++ rest := by
  induction t generalizing u with
  | nil => cases u <;> simp [lazily]
  | cons d t ih =>
    cases u with
    | nil => simp [lazily, eq_comm]
    | cons c u =>
      simp only [lazily, List.mem_cons, List.mem_map, Prod.exists, Prod.mk.injEq, List.cons.injEq,
        List.cons_append, reduceCtorEq, false_and, false_or]
      constructor
      · rintro ⟨v, w, hv, ⟨rfl, rfl⟩, rfl⟩
        exact ⟨rfl, ih.mp hv⟩
      · rintro ⟨rfl, ht⟩
        exact ⟨u, rest, ih.mpr ht, ⟨rfl, rfl⟩, rfl⟩

theorem eq_append_of_mem_results {r : Re} {prev : Option Char} {t u rest : List Char}
    (h : (u, rest) ∈ r.results prev t) : t = u ++ rest := by
  induction r generalizing prev t u rest with
  | empty => simp_all [Re.results]
  | boundary => simp_all [Re.results]
  | one p =>
    cases t with
    | nil => simp [Re.results] at h
    | cons c t => simp_all [Re.results]
  | many p least =>
    simp only [Re.results, List.mem_filter] at h
    exact (mem_greedy.mp h.1).1
  | gap => exact mem_lazily.mp h
  | seq a b iha ihb =>
    simp only [Re.results, List.mem_flatMap, List.mem_map, Prod.exists, Prod.mk.injEq] at h
    obtain ⟨v, w, hv, x, y, hx, rfl, rfl⟩ := h
    rw [iha hv, ihb hx, List.append_assoc]
  | alt a b iha ihb =>
    simp only [Re.results, List.mem_append] at h
    exact h.elim iha ihb

theorem mem_results {r : Re} {prev : Option Char} {t u rest : List Char} :
    (u, rest) ∈ r.results prev t ↔ t = u ++ rest ∧ r.Takes prev u rest := by
  constructor
  · intro h
    obtain rfl := eq_append_of_mem_results h
    exact ⟨rfl, h⟩
  · rintro ⟨rfl, h⟩
    exact h

section
variable {prev : Option Char} {u rest : List Char}

@[simp] theorem takes_empty : Re.empty.Takes prev u rest ↔ u = [] := by
  simp [Re.Takes, Re.results]

@[simp] theorem takes_boundary :
    Re.boundary.Takes prev u rest ↔ u = [] ∧ atBoundary prev rest.head? = true := by
  simp only [Re.Takes, Re.results]
  constructor
  · intro h
    split at h
    · obtain rfl : u = [] := by simpa using h
      exact ⟨rfl, ‹_›⟩
    · cases h
  · rintro ⟨rfl, h⟩
    rw [List.nil_append, if_pos h]
    exact List.mem_singleton_self _

@[simp] theorem takes_one {p : Char → Bool} :
    (Re.one p).Takes prev u rest ↔ ∃ c, p c = true ∧ u = [c] := by
  cases u with
  | nil => cases rest <;> simp [Re.Takes, Re.results]
  | cons c u => by_cases hc : p c = true <;> simp [Re.Takes, Re.results, hc]

@[simp] theorem takes_many {p : Char → Bool} {least : ℕ} :
    (Re.many p least).Takes prev u rest ↔ (∀ c ∈ u, p c = true) ∧ least ≤ u.length := by
  simp [Re.Takes, Re.results, mem_greedy]

@[simp] theorem takes_gap : Re.gap.Takes prev u rest := mem_lazily.mpr rfl

@[simp] theorem takes_seq {a b : Re} :
    (Re.seq a b).Takes prev u rest ↔
      ∃ v w, u = v ++ w ∧ a.Takes prev v (w ++ rest) ∧ b.Takes (after prev v) w rest := by
  simp only [Re.Takes, Re.results, List.mem_flatMap, List.mem_map, Prod.exists, Prod.mk.injEq]
  constructor
  · rintro ⟨v, y, hv, w, z, hw, rfl, rfl⟩
    obtain ⟨hy, hv⟩ := mem_results.mp hv
    obtain ⟨rfl, hw⟩ := mem_results.mp hw
    exact ⟨v, w, rfl, hv, hw⟩
  · rintro ⟨v, w, rfl, hv, hw⟩
    exact ⟨v, w ++ rest, by rwa [List.append_assoc], w, rest, hw, rfl, rfl⟩

@[simp] theorem takes_alt {a b : Re} :
    (Re.alt a b).Takes prev u rest ↔ a.Takes prev u rest ∨ b.Takes prev u rest := by
  simp [Re.Takes, Re.results]

@[simp] theorem takes_opt {a : Re} : a.opt.Takes prev u rest ↔ a.Takes prev u rest ∨ u = [] := by
  simp [Re.opt]

@[simp] theorem takes_lit {s : List Char} : (Re.lit s).Takes prev u rest ↔ u = s := by
  induction s generalizing prev u with
  | nil => simp [Re.lit]
  | cons c s ih =>
    rw [Re.lit, List.foldr_cons, takes_seq]
    constructor
    · rintro ⟨v, w, rfl, hv, hw⟩
      obtain ⟨d, hd, rfl⟩ := takes_one.mp hv
      rw [← Re.lit, ih] at hw
      rw [hw, eq_of_beq hd, List.singleton_append]
    · rintro rfl
      exact ⟨[c], s, rfl, takes_one.mpr ⟨c, beq_self_eq_true c, rfl⟩, ih.mpr rfl⟩

@[simp] theorem takes_word {s : List Char} :
    (Re.word s).Takes prev u rest ↔ u.map Char.toLower = s := by
  induction s generalizing prev u with
  | nil => simp [Re.word]
  | cons c s ih =>
    rw [Re.word, List.foldr_cons, takes_seq]
    constructor
    · rintro ⟨v, w, rfl, hv, hw⟩
      obtain ⟨d, hd, rfl⟩ := takes_one.mp hv
      rw [← Re.word, ih] at hw
      rw [List.singleton_append, List.map_cons, hw, eq_of_beq hd]
    · intro h
      obtain ⟨d, w, rfl, hd, hw⟩ := List.map_eq_cons_iff.mp h
      exact ⟨[d], w, rfl, takes_one.mpr ⟨d, beq_iff_eq.mpr hd, rfl⟩, ih.mpr hw⟩

@[simp] theorem takes_times {p : Char → Bool} {n : ℕ} :
    (Re.times p n).Takes prev u rest ↔ (∀ c ∈ u, p c = true) ∧ u.length = n := by
  induction n generalizing prev u with
  | zero =>
    rw [Re.times, takes_empty]
    constructor
    · rintro rfl
      exact ⟨by simp, rfl⟩
    · exact fun h => List.length_eq_zero_iff.mp h.2
  | succ n ih =>
    rw [Re.times, takes_seq]
    constructor
    · rintro ⟨v, w, rfl, hv, hw⟩
      obtain ⟨d, hd, rfl⟩ := takes_one.mp hv
      obtain ⟨hp, hn⟩ := ih.mp hw
      exact ⟨by simpa using ⟨hd, hp⟩, by simpa using hn⟩
    · rintro ⟨hp, hn⟩
      obtain ⟨d, w, rfl⟩ := List.exists_of_length_succ u hn
      rw [List.forall_mem_cons] at hp
      exact ⟨[d], w, rfl, takes_one.mpr ⟨d, hp.1, rfl⟩, ih.mpr ⟨hp.2, by simpa using hn⟩⟩

end

/-! ### The text around -/

/-- A pattern takes the same in another text, where each boundary that it can
have met is one there too. -/
theorem Re.Takes.congr {r : Re} {prev prev' : Option Char} {u rest rest' : List Char}
    (h : r.Takes prev u rest)
    (hb : ∀ v w, u = v ++ w → atBoundary (after prev v) (w ++ rest).head? = true →
      atBoundary (after prev' v) (w ++ rest').head? = true) : r.Takes prev' u rest' := by
  induction r generalizing prev prev' u rest rest' with
  | empty => exact takes_empty.mpr (takes_empty.mp h)
  | boundary =>
    obtain ⟨rfl, hp⟩ := takes_boundary.mp h
    exact takes_boundary.mpr ⟨rfl, hb [] [] rfl hp⟩
  | one p => exact takes_one.mpr (takes_one.mp h)
  | many p least => exact takes_many.mpr (takes_many.mp h)
  | gap => exact takes_gap
  | seq a b iha ihb =>
    obtain ⟨v, w, rfl, hv, hw⟩ := takes_seq.mp h
    refine takes_seq.mpr ⟨v, w, rfl, iha hv fun x y hx hxy => ?_, ihb hw fun x y hx hxy => ?_⟩
    · rw [← List.append_assoc] at hxy ⊢
      exact hb x (y ++ w) (by rw [hx, List.append_assoc]) hxy
    · rw [← after_append] at hxy ⊢
      exact hb (v ++ x) y (by rw [hx, List.append_assoc]) hxy
  | alt a b iha ihb => exact takes_alt.mpr ((takes_alt.mp h).imp (iha · hb) (ihb · hb))

/-- Only the two ends of what is taken touch the text around. -/
theorem Re.Takes.congr_ends {r : Re} {prev prev' : Option Char} {u rest rest' : List Char}
    (h : r.Takes prev u rest) (hu : u ≠ [])
    (hs : atBoundary prev u.head? = true → atBoundary prev' u.head? = true)
    (he : atBoundary u.getLast? rest.head? = true → atBoundary u.getLast? rest'.head? = true) :
    r.Takes prev' u rest' := by
  refine h.congr fun v w hvw hb => ?_
  by_cases hv : v = []
  · subst hv
    rw [List.nil_append] at hvw
    subst hvw
    rw [List.head?_append_of_ne_nil u hu] at hb ⊢
    exact hs hb
  rw [after_of_ne_nil hv] at hb ⊢
  by_cases hw : w = []
  · subst hw
    rw [List.append_nil] at hvw
    subst hvw
    exact he hb
  · rw [List.head?_append_of_ne_nil w hw] at hb ⊢
    exact hb

/-- What the pattern looks at outside of what it takes. -/
def Re.free : Re → Bool
  | .boundary => false
  | .seq a b | .alt a b => a.free && b.free
  | _ => true

/-- A pattern without boundaries takes the same in every text. -/
theorem Re.Takes.of_free {r : Re} (hr : r.free = true) {prev prev' : Option Char} {u rest rest' : List Char}
    (h : r.Takes prev u rest) : r.Takes prev' u rest' := by
  induction r generalizing prev prev' u rest rest' with
  | empty => exact takes_empty.mpr (takes_empty.mp h)
  | boundary => cases hr
  | one p => exact takes_one.mpr (takes_one.mp h)
  | many p least => exact takes_many.mpr (takes_many.mp h)
  | gap => exact takes_gap
  | seq a b iha ihb =>
    obtain ⟨ha, hb⟩ := Bool.and_eq_true_iff.mp hr
    obtain ⟨v, w, rfl, hv, hw⟩ := takes_seq.mp h
    exact takes_seq.mpr ⟨v, w, rfl, iha ha hv, ihb hb hw⟩
  | alt a b iha ihb =>
    obtain ⟨ha, hb⟩ := Bool.and_eq_true_iff.mp hr
    exact takes_alt.mpr ((takes_alt.mp h).imp (iha ha) (ihb hb))

/-- No part of the pattern takes the character. -/
def Re.avoids (c : Char) : Re → Bool
  | .one p | .many p _ => !p c
  | .gap => false
  | .seq a b | .alt a b => a.avoids c && b.avoids c
  | _ => true

theorem Re.Takes.notMem {r : Re} {c : Char} (hr : r.avoids c = true) {prev : Option Char}
    {u rest : List Char} (h : r.Takes prev u rest) : c ∉ u := by
  induction r generalizing prev u rest with
  | empty => simp [takes_empty.mp h]
  | boundary => simp [(takes_boundary.mp h).1]
  | one p =>
    obtain ⟨d, hd, rfl⟩ := takes_one.mp h
    rintro hc
    obtain rfl := List.mem_singleton.mp hc
    simp [Re.avoids, hd] at hr
  | many p least =>
    intro hc
    simp [Re.avoids, (takes_many.mp h).1 c hc] at hr
  | gap => cases hr
  | seq a b iha ihb =>
    obtain ⟨ha, hb⟩ := Bool.and_eq_true_iff.mp hr
    obtain ⟨v, w, rfl, hv, hw⟩ := takes_seq.mp h
    rw [List.mem_append]
    exact fun hc => hc.elim (iha ha hv) (ihb hb hw)
  | alt a b iha ihb =>
    obtain ⟨ha, hb⟩ := Bool.and_eq_true_iff.mp hr
    exact (takes_alt.mp h).elim (iha ha) (ihb hb)

/-- The least number of characters the pattern takes. -/
def Re.least : Re → ℕ
  | .one _ => 1
  | .many _ n => n
  | .seq a b => a.least + b.least
  | .alt a b => min a.least b.least
  | _ => 0

theorem Re.Takes.least_le {r : Re} {prev : Option Char} {u rest : List Char} (h : r.Takes prev u rest) :
    r.least ≤ u.length := by
  induction r generalizing prev u rest with
  | empty => exact Nat.zero_le _
  | boundary => exact Nat.zero_le _
  | one p =>
    obtain ⟨d, -, rfl⟩ := takes_one.mp h
    exact le_rfl
  | many p least => exact (takes_many.mp h).2
  | gap => exact Nat.zero_le _
  | seq a b iha ihb =>
    obtain ⟨v, w, rfl, hv, hw⟩ := takes_seq.mp h
    rw [List.length_append]
    exact Nat.add_le_add (iha hv) (ihb hw)
  | alt a b iha ihb =>
    rcases takes_alt.mp h with h | h
    · exact (min_le_left _ _).trans (iha h)
    · exact (min_le_right _ _).trans (ihb h)

/-- The pattern begins with a character that satisfies `q`. -/
def Re.Heads (q : Char → Prop) : Re → Prop
  | .one p | .many p (_ + 1) => ∀ c, p c = true → q c
  | .seq a _ => a.Heads q
  | .alt a b => a.Heads q ∧ b.Heads q
  | _ => False

theorem Re.Takes.head {q : Char → Prop} {r : Re} (hr : r.Heads q) {prev : Option Char} {u rest : List Char}
    (h : r.Takes prev u rest) : ∃ c v, u = c :: v ∧ q c := by
  induction r generalizing prev u rest with
  | one p =>
    obtain ⟨c, hc, rfl⟩ := takes_one.mp h
    exact ⟨c, [], rfl, hr c hc⟩
  | many p n =>
    obtain ⟨hp, hn⟩ := takes_many.mp h
    cases n with
    | zero => exact hr.elim
    | succ n =>
      cases u with
      | nil => cases hn
      | cons c v => exact ⟨c, v, rfl, hr c (hp c List.mem_cons_self)⟩
  | seq a b iha ihb =>
    obtain ⟨v, w, rfl, hv, -⟩ := takes_seq.mp h
    obtain ⟨c, v, rfl, hc⟩ := iha hr hv
    exact ⟨c, v ++ w, rfl, hc⟩
  | alt a b iha ihb => exact (takes_alt.mp h).elim (iha hr.1) (ihb hr.2)
  | _ => exact hr.elim

/-! ### The first try -/

theorem head?_flatMap_eq_some {α β : Type*} {l : List α} {f : α → List β} {y : β}
    (h : (l.flatMap f).head? = some y) : ∃ x ∈ l, (f x).head? = some y := by
  induction l with
  | nil => cases h
  | cons x l ih =>
    rw [List.flatMap_cons, List.head?_append] at h
    cases hx : (f x).head? with
    | none =>
      rw [hx] at h
      obtain ⟨x', hx', hy⟩ := ih h
      exact ⟨x', List.mem_cons_of_mem x hx', hy⟩
    | some z =>
      rw [hx] at h
      exact ⟨x, List.mem_cons_self, hx.trans h⟩

/-- The pattern ends with a greedy run of what satisfies `q`. -/
def Re.Stops (q : Char → Prop) : Re → Prop
  | .many p _ => ∀ c, q c → p c = true
  | .seq _ b => b.Stops q
  | .alt a b => a.Stops q ∧ b.Stops q
  | _ => False

theorem greedy_eq_cons (p : Char → Bool) (t : List Char) :
    ∃ l, greedy p t = (t.takeWhile p, t.dropWhile p) :: l := by
  induction t with
  | nil => exact ⟨[], rfl⟩
  | cons c t ih =>
    obtain ⟨l, hl⟩ := ih
    by_cases hc : p c = true
    · exact ⟨l.map (fun x => (c :: x.1, x.2)) ++ [([], c :: t)], by simp [greedy, hc, hl]⟩
    · exact ⟨[], by simp [greedy, hc]⟩

/-- Of a greedy run the longest comes first. -/
theorem head?_many {p : Char → Bool} {n : ℕ} {prev : Option Char} {t u rest : List Char}
    (h : ((Re.many p n).results prev t).head? = some (u, rest)) : u = t.takeWhile p ∧ rest = t.dropWhile p := by
  obtain ⟨l, hl⟩ := greedy_eq_cons p t
  by_cases hn : n ≤ (t.takeWhile p).length
  · rw [Re.results, hl, List.filter_cons_of_pos (by simpa using hn)] at h
    obtain ⟨rfl, rfl⟩ : t.takeWhile p = u ∧ t.dropWhile p = rest := by simpa using h
    exact ⟨rfl, rfl⟩
  · obtain ⟨ht, hu, hle⟩ : t = u ++ rest ∧ (∀ c ∈ u, p c = true) ∧ n ≤ u.length := by
      simpa using mem_results.mp (List.mem_of_mem_head? h)
    refine absurd (hle.trans ?_) hn
    rw [ht, List.takeWhile_append_of_pos hu]
    simp

theorem Re.Stops.head {q : Char → Prop} {r : Re} (hr : r.Stops q) {prev : Option Char} {t u rest : List Char}
    (h : (r.results prev t).head? = some (u, rest)) : ∀ c ∈ rest.head?, ¬ q c := by
  induction r generalizing prev t u rest with
  | many p n =>
    obtain ⟨-, rfl⟩ := head?_many h
    intro c hc hq
    have := List.head?_dropWhile_not p t
    rw [Option.mem_def.mp hc] at this
    simp [hr c hq] at this
  | seq a b iha ihb =>
    obtain ⟨x, -, hx⟩ := head?_flatMap_eq_some h
    rw [List.head?_map, Option.map_eq_some_iff] at hx
    obtain ⟨y, hy, hxy⟩ := hx
    obtain ⟨-, rfl⟩ := Prod.ext_iff.mp hxy
    exact ihb hr hy
  | alt a b iha ihb =>
    rw [Re.results, List.head?_append, Option.or_eq_some_iff] at h
    rcases h with h | ⟨-, h⟩
    · exact iha hr.1 h
    · exact ihb hr.2 h
  | _ => exact hr.elim

end Backtrack
