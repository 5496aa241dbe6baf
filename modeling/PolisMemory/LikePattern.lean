/-
# The patterns of LIKE

A pattern of SQL's `LIKE`: `%` stands for any text, `_` for one character, and
what follows the escape character for itself. Letters of ASCII match in either
case. A text escaped between two `%` matches the texts that contain it
(`like_contains`).

Key definitions: `LikePattern.Part`, `parse`, `accepts`, `like`.
Key theorems: `accepts_lits`, `like_contains`.
-/
import Mathlib.Data.List.Infix

namespace LikePattern

/-- A part of a pattern. -/
inductive Part
  | any
  | one
  | lit (c : Char)
  deriving DecidableEq, Repr

/-- What a character is that is not escaped. -/
def plain (c : Char) : Part := if c = '%' then .any else if c = '_' then .one else .lit c

/-- A pattern's parts; there are none of one that ends in the escape character. -/
def parse (esc : Char) : List Char → Option (List Part)
  | [] => some []
  | [c] => if c = esc then none else some [plain c]
  | c :: d :: rest =>
    if c = esc then (parse esc rest).map (.lit d :: ·) else (parse esc (d :: rest)).map (plain c :: ·)

/-- Upper case and lower case of ASCII are alike. -/
def fold (t : List Char) : List Char := t.map Char.toLower

/-- The text is matched by the parts, all of it. -/
def accepts : List Part → List Char → Bool
  | [], t => t.isEmpty
  | .any :: parts, t => t.tails.any (accepts parts)
  | .one :: _, [] => false
  | .one :: parts, _ :: t => accepts parts t
  | .lit _ :: _, [] => false
  | .lit c :: parts, d :: t => c.toLower = d.toLower && accepts parts t

def like (esc : Char) (pattern t : List Char) : Bool := (parse esc pattern).any (accepts · t)

/-- A character as itself, in a pattern. -/
def escaped (esc c : Char) : List Char := if c = esc ∨ c = '%' ∨ c = '_' then [esc, c] else [c]

theorem parse_plain {esc c : Char} (hc : c ≠ esc) (rest : List Char) :
    parse esc (c :: rest) = (parse esc rest).map (plain c :: ·) := by
  cases rest with
  | nil => exact if_neg hc
  | cons d rest => rw [parse, if_neg hc]

theorem parse_escaped {esc : Char} (c : Char) (rest : List Char) :
    parse esc (escaped esc c ++ rest) = (parse esc rest).map (.lit c :: ·) := by
  unfold escaped
  split_ifs with hc
  · show parse esc (esc :: c :: rest) = _
    rw [parse, if_pos rfl]
  · rw [not_or, not_or] at hc
    have hlit : plain c = .lit c := by
      unfold plain
      rw [if_neg hc.2.1, if_neg hc.2.2]
    show parse esc (c :: rest) = _
    rw [parse_plain hc.1, hlit]

theorem parse_flatMap_escaped {esc : Char} (w rest : List Char) :
    parse esc (w.flatMap (escaped esc) ++ rest) = (parse esc rest).map (w.map .lit ++ ·) := by
  induction w with
  | nil => exact Option.map_id'.symm
  | cons c w ih =>
    rw [List.flatMap_cons, List.append_assoc, parse_escaped, ih, Option.map_map]
    rfl

/-- Text before any text matches what begins with it. -/
theorem accepts_lits (w t : List Char) : accepts (w.map .lit ++ [.any]) t = true ↔ fold w <+: fold t := by
  induction w generalizing t with
  | nil =>
    have hall : accepts [.any] t = true :=
      List.any_eq_true.mpr ⟨[], (List.mem_tails _ _).mpr List.nil_suffix, rfl⟩
    exact ⟨fun _ => List.nil_prefix, fun _ => hall⟩
  | cons c w ih =>
    cases t with
    | nil =>
      constructor
      · intro h
        exact absurd h Bool.false_ne_true
      · intro h
        exact absurd (List.prefix_nil.mp h) (List.cons_ne_nil _ _)
    | cons d t =>
      have hstep : accepts ((c :: w).map .lit ++ [.any]) (d :: t) =
          (decide (c.toLower = d.toLower) && accepts (w.map .lit ++ [.any]) t) := rfl
      have hfold : fold (c :: w) <+: fold (d :: t) ↔ c.toLower = d.toLower ∧ fold w <+: fold t :=
        List.cons_prefix_cons
      rw [hstep, Bool.and_eq_true, decide_eq_true_iff, ih, hfold]

/-- **A text between two `%`** matches the texts that contain it. -/
theorem like_contains {esc : Char} (hesc : esc ≠ '%') (w t : List Char) :
    like esc ('%' :: (w.flatMap (escaped esc) ++ ['%'])) t = true ↔ fold w <:+: fold t := by
  have hparse : parse esc ('%' :: (w.flatMap (escaped esc) ++ ['%'])) =
      some (.any :: (w.map .lit ++ [.any])) := by
    rw [parse_plain (Ne.symm hesc), parse_flatMap_escaped, parse_plain (Ne.symm hesc)]
    rfl
  have htails : like esc ('%' :: (w.flatMap (escaped esc) ++ ['%'])) t = true ↔
      ∃ s, s <:+ t ∧ fold w <+: fold s := by
    unfold like
    rw [hparse, Option.any_some]
    show t.tails.any (accepts (w.map .lit ++ [.any])) = true ↔ _
    rw [List.any_eq_true]
    constructor
    · intro ⟨s, hs, hmatch⟩
      exact ⟨s, (List.mem_tails _ _).mp hs, (accepts_lits w s).mp hmatch⟩
    · intro ⟨s, hs, hprefix⟩
      exact ⟨s, (List.mem_tails _ _).mpr hs, (accepts_lits w s).mpr hprefix⟩
  rw [htails]
  constructor
  · intro ⟨s, ⟨before, hbefore⟩, ⟨after, hafter⟩⟩
    refine ⟨fold before, after, ?_⟩
    rw [List.append_assoc, hafter, ← hbefore]
    exact List.map_append.symm
  · intro ⟨before, after, h⟩
    refine ⟨t.drop before.length, List.drop_suffix _ _, after, ?_⟩
    have hdrop : fold (t.drop before.length) = (fold t).drop before.length := List.map_drop
    rw [hdrop, ← h, List.append_assoc, List.drop_left]

end LikePattern
