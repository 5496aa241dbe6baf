/-
# A window around what matched

`excerpt_around` of `crates/polis-core/src/dedup.rs` looks for the terms in a
lower-cased copy of the text, and takes so many characters of the text around
where the earliest one starts. A letter's lower case may be two characters, so an
offset in the copy may be past the place in the text; and half of the budget is
all that is left for a match from where it starts.

What it gives is always a piece of the text within the budget, and its head where
no term occurs. The piece has the earliest match that fits the budget in it if and
only if the offset is not too far past it and the match ends soon enough
(`excerptAround_shows_iff`).

Key definitions: `Casing`, `toLowercase`, `excerptAround`, `OccursAt`, `Earliest`,
`Shows`.
Key theorems: `hit?_eq_some`, `excerptAround_eq`, `excerptAround_shows_iff`,
`needle_cut`.
-/
import Mathlib.Order.Bounds.Basic
import PolisMemory.Occurrences

namespace PolisMemory

namespace Excerpt

open Occurrences

/-! ### Lower case -/

/-- What `str::to_lowercase` reads of Unicode's tables: the lower case of a
character, and whether what is before and after a capital sigma makes it a final
one. -/
structure Casing where
  lowerChar : Char → List Char
  finalSigma : List Char → List Char → Bool
  lowerChar_ne : ∀ c, lowerChar c ≠ []

section lower

variable (k : Casing)

/-- The lower case of each character, after what was before. -/
def lowerPieces (before : List Char) : List Char → List (List Char)
  | [] => []
  | c :: cs =>
    (if c = 'Σ' then [if k.finalSigma before cs then 'ς' else 'σ'] else k.lowerChar c) ::
      lowerPieces (before ++ [c]) cs

/-- `to_lowercase`. -/
def toLowercase (text : List Char) : List Char := (lowerPieces k [] text).flatten

/-! ### The excerpt -/

/-- `str::find`, in characters. -/
def find? (pat text : List Char) : Option ℕ := (cut? pat text).map fun p => p.1.length

/-- The offset of the earliest term in the lower-cased copy. -/
def hit? (text : List Char) (terms : List (List Char)) : Option ℕ :=
  ((terms.filter (· ≠ [])).filterMap fun t => find? (toLowercase k t) (toLowercase k text)).min?

/-- The piece of the text that `excerpt_around` takes, from where to where. -/
def window (text : List Char) (terms : List (List Char)) (budget : ℕ) : ℕ × ℕ :=
  if text.length ≤ budget then (0, text.length)
  else
    match hit? k text terms with
    | none => (0, budget)
    | some hit =>
      let start := min (hit - budget / 2) (text.length - budget)
      (start, min (start + budget) text.length)

/-- `excerpt_around`. -/
def excerptAround (text : List Char) (terms : List (List Char)) (budget : ℕ) : List Char :=
  if text.length ≤ budget then text
  else
    match hit? k text terms with
    | none => text.take budget ++ ['…']
    | some hit =>
      let half := budget / 2
      let start := min (hit - half) (text.length - budget)
      let stop := min (start + budget) text.length
      (if 0 < start then ['…'] else []) ++ (text.drop start).take (stop - start) ++
        if stop < text.length then ['…'] else []

/-! ### What occurs where -/

/-- A term occurs, whatever the case, from an offset in the lower-cased copy. -/
def OccursAt (text term : List Char) (o : ℕ) : Prop :=
  term ≠ [] ∧ ∃ a b, toLowercase k text = a ++ (toLowercase k term ++ b) ∧ a.length = o

/-- The piece that has an offset in it. -/
def pieceAt : List (List Char) → ℕ → ℕ
  | [], _ => 0
  | p :: ps, o => if o < p.length then 0 else pieceAt ps (o - p.length) + 1

/-- The character of the text with which an occurrence starts. -/
def firstOf (text : List Char) (o : ℕ) : ℕ := pieceAt (lowerPieces k [] text) o

/-- The end, in the text, of an occurrence. -/
def lastOf (text term : List Char) (o : ℕ) : ℕ :=
  pieceAt (lowerPieces k [] text) (o + (toLowercase k term).length - 1) + 1

/-- An occurrence that fits the budget, and none that does is earlier. -/
structure Earliest (text : List Char) (terms : List (List Char)) (budget : ℕ) (term : List Char)
    (o : ℕ) : Prop where
  mem : term ∈ terms
  occurs : OccursAt k text term o
  fits : lastOf k text term o ≤ firstOf k text o + budget
  least : ∀ term' ∈ terms, ∀ o', OccursAt k text term' o' →
    lastOf k text term' o' ≤ firstOf k text o' + budget → o ≤ o'

/-- The excerpt is a piece of the text within the budget, between marks where text
is left out; the piece has the earliest occurrence in it, and is the head where
there is none. -/
structure Shows (text : List Char) (terms : List (List Char)) (budget : ℕ) : Prop where
  piece : ∃ start stop, window k text terms budget = (start, stop) ∧
    start ≤ stop ∧ stop ≤ text.length ∧ stop ≤ start + budget ∧
    excerptAround k text terms budget = (if 0 < start then ['…'] else []) ++
      (text.drop start).take (stop - start) ++ if stop < text.length then ['…'] else []
  earliest : ∀ term o, Earliest k text terms budget term o →
    (window k text terms budget).1 ≤ firstOf k text o ∧
      lastOf k text term o ≤ (window k text terms budget).2
  head : (∀ term ∈ terms, ∀ o, ¬ OccursAt k text term o) →
    window k text terms budget = (0, min budget text.length)

end lower

variable {k : Casing} {text : List Char} {terms : List (List Char)} {budget : ℕ}

theorem length_lowerPieces : ∀ before text : List Char,
    (lowerPieces k before text).length = text.length
  | _, [] => rfl
  | before, c :: cs => by
    unfold lowerPieces
    rw [List.length_cons, List.length_cons, length_lowerPieces]

/-- An offset within the pieces is in one of them. -/
theorem pieceAt_lt : ∀ (ps : List (List Char)) (o : ℕ), o < ps.flatten.length →
    pieceAt ps o < ps.length
  | [], o, h => absurd h (Nat.not_lt_zero o)
  | p :: ps, o, h => by
    rw [List.flatten_cons, List.length_append] at h
    unfold pieceAt
    split_ifs with hp
    · exact Nat.zero_lt_succ _
    · exact Nat.succ_lt_succ (pieceAt_lt ps _ (by omega))

theorem lowerPieces_ne : ∀ (before text : List Char), ∀ p ∈ lowerPieces k before text, p ≠ []
  | _, [], _, hp => absurd hp List.not_mem_nil
  | before, c :: cs, p, hp => by
    unfold lowerPieces at hp
    rcases List.mem_cons.mp hp with rfl | hp
    · split_ifs
      · exact List.cons_ne_nil _ _
      · exact List.cons_ne_nil _ _
      · exact k.lowerChar_ne c
    · exact lowerPieces_ne _ cs p hp

/-- The lower case of a term is not empty. -/
theorem toLowercase_pos {term : List Char} (h : term ≠ []) : 0 < (toLowercase k term).length := by
  cases term with
  | nil => exact absurd rfl h
  | cons c cs =>
    have hne := lowerPieces_ne (k := k) [] (c :: cs) _ List.mem_cons_self
    unfold toLowercase
    rw [lowerPieces, List.flatten_cons, List.length_append]
    exact Nat.add_pos_left (List.length_pos_iff.mpr hne) _

/-- An occurrence ends within the text. -/
theorem lastOf_le {term : List Char} {o : ℕ} (h : OccursAt k text term o) :
    lastOf k text term o ≤ text.length := by
  obtain ⟨hne, a, b, hlow, rfl⟩ := h
  have hpos := toLowercase_pos (k := k) hne
  have hlen := congrArg List.length hlow
  rw [List.length_append, List.length_append] at hlen
  have hlt := pieceAt_lt (lowerPieces k [] text) (a.length + (toLowercase k term).length - 1)
    (by unfold toLowercase at hlen hpos ⊢; omega)
  rw [length_lowerPieces] at hlt
  exact hlt

/-! ### Where the code looks -/

/-- The offsets at which a term occurs. -/
def Found (k : Casing) (text : List Char) (terms : List (List Char)) : Set ℕ :=
  {o | ∃ term ∈ terms, OccursAt k text term o}

theorem find?_eq_some {pat text : List Char} {o : ℕ} (h : find? pat text = some o) :
    IsLeast {o | ∃ a b, text = a ++ (pat ++ b) ∧ a.length = o} o := by
  obtain ⟨⟨a, b⟩, hcut, rfl⟩ := Option.map_eq_some_iff.mp h
  refine ⟨⟨a, b, cut?_append hcut, rfl⟩, ?_⟩
  rintro o ⟨a', b', htext, rfl⟩
  exact cut?_least hcut htext

theorem find?_eq_none {pat text : List Char} (h : find? pat text = none) (a b : List Char) :
    text ≠ a ++ (pat ++ b) := by
  intro htext
  apply cut?_eq_none_iff.mp (Option.map_eq_none_iff.mp h)
  exact ⟨a, b, by rw [htext, List.append_assoc]⟩

/-- What the terms are found at. -/
theorem mem_hits {o : ℕ} : o ∈ ((terms.filter (· ≠ [])).filterMap fun t =>
      find? (toLowercase k t) (toLowercase k text)) ↔
    ∃ term ∈ terms, term ≠ [] ∧ find? (toLowercase k term) (toLowercase k text) = some o := by
  simp only [List.mem_filterMap, List.mem_filter, decide_eq_true_eq, and_assoc]

/-- **The hit is the least offset** at which a term occurs. -/
theorem hit?_eq_some {hit : ℕ} (h : hit? k text terms = some hit) :
    IsLeast (Found k text terms) hit := by
  obtain ⟨hmem, hleast⟩ := List.min?_eq_some_iff.mp h
  obtain ⟨term, hterm, hne, hfind⟩ := mem_hits.mp hmem
  obtain ⟨a, b, htext, rfl⟩ := (find?_eq_some hfind).1
  refine ⟨⟨term, hterm, hne, a, b, htext, rfl⟩, ?_⟩
  rintro o ⟨term', hterm', hne', a', b', htext', rfl⟩
  cases hfind' : find? (toLowercase k term') (toLowercase k text) with
  | none => exact absurd htext' (find?_eq_none hfind' a' b')
  | some o' =>
    have hle := hleast o' (mem_hits.mpr ⟨term', hterm', hne', hfind'⟩)
    exact hle.trans ((find?_eq_some hfind').2 ⟨a', b', htext', rfl⟩)

theorem hit?_eq_none (h : hit? k text terms = none) :
    ∀ term ∈ terms, ∀ o, ¬ OccursAt k text term o := by
  rintro term hterm o ⟨hne, a, b, htext, -⟩
  have hnil := List.min?_eq_none_iff.mp h
  cases hfind : find? (toLowercase k term) (toLowercase k text) with
  | none => exact find?_eq_none hfind a b htext
  | some o' =>
    have hmem := mem_hits.mpr ⟨term, hterm, hne, hfind⟩
    rw [hnil] at hmem
    exact absurd hmem List.not_mem_nil

/-! ### The window -/

section window

theorem window_short (h : text.length ≤ budget) :
    window k text terms budget = (0, text.length) := if_pos h

theorem window_none (h : ¬ text.length ≤ budget) (hhit : hit? k text terms = none) :
    window k text terms budget = (0, budget) := by
  unfold window
  rw [if_neg h, hhit]

theorem window_some (h : ¬ text.length ≤ budget) {hit : ℕ} (hhit : hit? k text terms = some hit) :
    window k text terms budget = (min (hit - budget / 2) (text.length - budget),
      min (min (hit - budget / 2) (text.length - budget) + budget) text.length) := by
  unfold window
  rw [if_neg h, hhit]

/-- **The excerpt is a piece of the text** within the budget, between marks where
text is left out. -/
theorem excerptAround_eq (k : Casing) (text : List Char) (terms : List (List Char)) (budget : ℕ) :
    ∃ start stop, window k text terms budget = (start, stop) ∧
    start ≤ stop ∧ stop ≤ text.length ∧ stop ≤ start + budget ∧
    excerptAround k text terms budget = (if 0 < start then ['…'] else []) ++
      (text.drop start).take (stop - start) ++ if stop < text.length then ['…'] else [] := by
  unfold excerptAround
  by_cases hshort : text.length ≤ budget
  · refine ⟨0, text.length, window_short hshort, Nat.zero_le _, le_rfl, by omega, ?_⟩
    rw [if_pos hshort]
    simp
  · rw [if_neg hshort]
    cases hhit : hit? k text terms with
    | none =>
      refine ⟨0, budget, window_none hshort hhit, Nat.zero_le _, by omega, by omega, ?_⟩
      rw [if_pos (not_le.mp hshort)]
      simp
    | some hit =>
      refine ⟨_, _, window_some hshort hhit, ?_, ?_, ?_, rfl⟩
      · omega
      · omega
      · omega

/-- **The excerpt is the head** of a text in which no term occurs. -/
theorem window_of_not_occurs (h : ∀ term ∈ terms, ∀ o, ¬ OccursAt k text term o) :
    window k text terms budget = (0, min budget text.length) := by
  by_cases hshort : text.length ≤ budget
  · rw [window_short hshort, Nat.min_eq_right hshort]
  · cases hhit : hit? k text terms with
    | none => rw [window_none hshort hhit, Nat.min_eq_left (by omega)]
    | some hit =>
      obtain ⟨term, hterm, hoccurs⟩ := (hit?_eq_some hhit).1
      exact absurd hoccurs (h term hterm hit)

/-- A match is in the window if and only if the hit is not too far past its start,
and it ends soon enough after the hit. -/
theorem window_has_iff (h : ¬ text.length ≤ budget) {hit : ℕ} (hhit : hit? k text terms = some hit)
    {first last : ℕ} (hlast : last ≤ text.length) :
    (window k text terms budget).1 ≤ first ∧ last ≤ (window k text terms budget).2 ↔
      (hit ≤ first + budget / 2 ∨ text.length ≤ first + budget) ∧
      (last ≤ budget ∨ last + budget / 2 ≤ hit + budget) := by
  rw [window_some h hhit]
  show min _ _ ≤ first ∧ last ≤ min _ _ ↔ _
  omega

end window

/-- **The earliest match is shown** if and only if the text is within the budget, or
the hit is at most half of the budget past the match's start (or the text ends
within the budget from there), and the match ends within the budget from the start
of the text, or within the rest of the budget from the hit. -/
theorem excerptAround_shows_iff (k : Casing) (text : List Char) (terms : List (List Char))
    (budget : ℕ) : Shows k text terms budget ↔ text.length ≤ budget ∨
      ∀ term o, Earliest k text terms budget term o → ∀ hit, IsLeast (Found k text terms) hit →
        (hit ≤ firstOf k text o + budget / 2 ∨ text.length ≤ firstOf k text o + budget) ∧
        (lastOf k text term o ≤ budget ∨ lastOf k text term o + budget / 2 ≤ hit + budget) := by
  by_cases hshort : text.length ≤ budget
  · refine iff_of_true ⟨excerptAround_eq k text terms budget, ?_, window_of_not_occurs⟩ (.inl hshort)
    intro term o hearliest
    rw [window_short hshort]
    exact ⟨Nat.zero_le _, lastOf_le hearliest.occurs⟩
  · have hsome : ∀ term o, Earliest k text terms budget term o →
        ∃ hit, hit? k text terms = some hit := by
      intro term o hearliest
      cases hhit : hit? k text terms with
      | none => exact absurd hearliest.occurs (hit?_eq_none hhit term hearliest.mem o)
      | some hit => exact ⟨hit, rfl⟩
    constructor
    · intro hshows
      right
      intro term o hearliest hit hleast
      obtain ⟨hit', hhit⟩ := hsome term o hearliest
      obtain rfl := hleast.unique (hit?_eq_some hhit)
      exact (window_has_iff hshort hhit (lastOf_le hearliest.occurs)).mp
        (hshows.earliest term o hearliest)
    · intro h
      refine ⟨excerptAround_eq k text terms budget, ?_, window_of_not_occurs⟩
      intro term o hearliest
      obtain ⟨hit, hhit⟩ := hsome term o hearliest
      have hnear := h.resolve_left hshort term o hearliest hit (hit?_eq_some hhit)
      exact (window_has_iff hshort hhit (lastOf_le hearliest.occurs)).mpr hnear

/-! ### A match that is cut -/

/-- ASCII's lower case. -/
def Casing.ascii : Casing where
  lowerChar c := [c.toLower]
  finalSigma _ _ := false
  lowerChar_ne _ := List.cons_ne_nil _ _

/-- A match of six characters, a budget of eight: four of them are left. -/
def needleText : List Char := "xxxxxxxxneedleyyyyyyyy".toList

theorem needle_earliest : Earliest Casing.ascii needleText ["needle".toList] 8 "needle".toList 8 where
  mem := List.mem_singleton_self _
  occurs := by
    refine ⟨List.cons_ne_nil _ _, "xxxxxxxx".toList, "yyyyyyyy".toList, ?_, ?_⟩
    · decide
    · decide
  fits := by decide
  least := by
    intro term hterm o hoccurs _
    obtain rfl := List.mem_singleton.mp hterm
    have hfind : find? (toLowercase Casing.ascii "needle".toList)
        (toLowercase Casing.ascii needleText) = some 8 := by
      decide
    exact (find?_eq_some hfind).2 hoccurs.2

theorem needle_cut : ¬ Shows Casing.ascii needleText ["needle".toList] 8 := by
  intro h
  have hshown := (h.earliest _ _ needle_earliest).2
  exact absurd hshown (by decide)

end Excerpt

end PolisMemory
