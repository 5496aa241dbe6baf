/-
# Reading a list page by page

A reader of pages is asked for a page at a place, behind which some items are
left; it answers with how many of them the page keeps and, unless the page is
the last, with the place of the next one. The pages of a walk give everything
that was left exactly if every page that is asked for is followed by the place
behind what it keeps, and the last keeps what is left (`walk_eq_iff`): a page
that keeps less has lost something, since no later page goes back.

Where the items are in the order of a key, the place behind an item is its key
(`filter_key_lt`).

Key definitions: `Paging.Reader`, `Paging.walk`, `Paging.Asks`, `Paging.Whole`.
Key theorems: `Paging.walk_eq_iff`, `Paging.filter_key_lt`.
-/
import Mathlib.Data.List.Basic
import Mathlib.Order.Lattice
import Mathlib.Tactic.Common

namespace Paging

/-- What a page keeps, and the place of the next one unless it is the last. -/
structure Page (σ : Type*) where
  keep : ℕ
  next : Option σ
  deriving DecidableEq

variable {σ α : Type*}

/-- The page that the call `i` answers with at a place; none is a refusal. -/
abbrev Reader (σ : Type*) := ℕ → σ → Option (Page σ)

variable (read : Reader σ) (left : σ → List α)

/-- Up to `n` pages from the call `i` on: the items they keep, and the place
that is left to ask for. -/
def walk : ℕ → ℕ → σ → Option (List α × Option σ)
  | 0, _, s => some ([], some s)
  | n + 1, i, s =>
    match read i s with
    | none => none
    | some ⟨keep, none⟩ => some ((left s).take keep, none)
    | some ⟨keep, some next⟩ =>
      (walk n (i + 1) next).map fun out => ((left s).take keep ++ out.1, out.2)

/-- A walk from `s` at the call `i` asks at `t` at the call `j`. -/
inductive Asks : ℕ → σ → ℕ → σ → Prop
  | here (i : ℕ) (s : σ) : Asks i s i s
  | next {i j keep : ℕ} {s next t : σ} (hpage : read i s = some ⟨keep, some next⟩)
      (hrest : Asks (i + 1) next j t) : Asks i s j t

/-- The page is answered and loses nothing. -/
def Whole (i : ℕ) (s : σ) : Prop :=
  match read i s with
  | none => False
  | some ⟨keep, none⟩ => (left s).length ≤ keep
  | some ⟨keep, some next⟩ => left next = (left s).drop keep

/-- A page that is not the last ends before the place of the next one, which is
a later one. -/
def Advances : Prop :=
  ∀ i s keep next, read i s = some ⟨keep, some next⟩ →
    ∃ skip, left next = (left s).drop skip ∧ keep ≤ skip ∧ 0 < skip ∧ skip ≤ (left s).length

variable {read : Reader σ} {left : σ → List α}

theorem walk_refused {n i : ℕ} {s : σ} (hpage : read i s = none) : walk read left (n + 1) i s = none := by
  rw [walk, hpage]

theorem walk_last {n i keep : ℕ} {s : σ} (hpage : read i s = some ⟨keep, none⟩) :
    walk read left (n + 1) i s = some ((left s).take keep, none) := by
  rw [walk, hpage]

theorem walk_next {n i keep : ℕ} {s next : σ} (hpage : read i s = some ⟨keep, some next⟩) :
    walk read left (n + 1) i s =
      (walk read left n (i + 1) next).map fun out => ((left s).take keep ++ out.1, out.2) := by
  rw [walk, hpage]

/-- What a walk gives is no longer than what was left. -/
theorem length_walk_le (hread : Advances read left) {n i : ℕ} {s : σ} {got : List α} {rest : Option σ}
    (hwalk : walk read left n i s = some (got, rest)) : got.length ≤ (left s).length := by
  induction n generalizing i s got rest with
  | zero =>
    rw [walk, Option.some.injEq, Prod.mk.injEq] at hwalk
    rw [← hwalk.1]
    exact Nat.zero_le _
  | succ n ih =>
    unfold walk at hwalk
    split at hwalk
    · cases hwalk
    · cases hwalk
      exact List.length_take_le' ..
    · next keep next hpage =>
      obtain ⟨⟨got', rest'⟩, hrest, hout⟩ := Option.map_eq_some_iff.mp hwalk
      cases hout
      obtain ⟨skip, hleft, hkeep, -, hskip⟩ := hread i s keep next hpage
      have hle := ih hrest
      rw [hleft, List.length_drop] at hle
      calc ((left s).take keep ++ got').length = min keep (left s).length + got'.length := by
            rw [List.length_append, List.length_take]
        _ ≤ (left s).length := by omega

/-- A walk that gives everything loses nothing on the way. -/
theorem whole_of_walk (hread : Advances read left) {n i : ℕ} {s : σ}
    (hwalk : walk read left n i s = some (left s, none)) {j : ℕ} {t : σ} (hasks : Asks read i s j t) :
    Whole read left j t := by
  induction n generalizing i s with
  | zero =>
    have hrest := congrArg Prod.snd (Option.some.inj hwalk)
    cases hrest
  | succ n ih =>
    unfold walk at hwalk
    split at hwalk
    · cases hwalk
    · next keep hpage =>
      have htake : (left s).take keep = left s := congrArg Prod.fst (Option.some.inj hwalk)
      have hlength := congrArg List.length htake
      rw [List.length_take] at hlength
      have hle : (left s).length ≤ keep := by omega
      cases hasks with
      | here =>
        unfold Whole
        rw [hpage]
        exact hle
      | next hpage' =>
        rw [hpage] at hpage'
        cases hpage'
    · next keep next hpage =>
      obtain ⟨⟨got, rest⟩, hrest, hout⟩ := Option.map_eq_some_iff.mp hwalk
      obtain ⟨hall, rfl⟩ := Prod.mk.inj hout
      obtain ⟨skip, hleft, hkeep, -, hskip⟩ := hread i s keep next hpage
      have hle := length_walk_le hread hrest
      have hlength := congrArg List.length hall
      simp only [hleft, List.length_append, List.length_take, List.length_drop] at hle hlength
      have hsame : keep = skip := by omega
      rw [hsame] at hall
      have hgot : got = left next := by
        rw [hleft]
        exact List.append_cancel_left (hall.trans (List.take_append_drop skip _).symm)
      cases hasks with
      | here =>
        unfold Whole
        rw [hpage]
        exact hsame ▸ hleft
      | next hpage' hasks =>
        rw [hpage] at hpage'
        cases hpage'
        rw [hgot] at hrest
        exact ih hrest hasks

/-- **A walk gives everything** if and only if no page that it asks for loses
something. -/
theorem walk_eq_iff (hread : Advances read left) (i : ℕ) (s : σ) :
    (∃ n, walk read left n i s = some (left s, none)) ↔
      ∀ j t, Asks read i s j t → Whole read left j t := by
  constructor
  · intro ⟨n, hwalk⟩ j t hasks
    exact whole_of_walk hread hwalk hasks
  · intro hall
    generalize hlen : (left s).length = len
    induction len using Nat.strongRecOn generalizing i s with
    | _ len ih =>
    have hwhole := hall i s (.here i s)
    unfold Whole at hwhole
    cases hpage : read i s with
    | none =>
      rw [hpage] at hwhole
      exact hwhole.elim
    | some page =>
      obtain ⟨keep, next⟩ := page
      rw [hpage] at hwhole
      cases next with
      | none =>
        have htake : (left s).take keep = left s := List.take_of_length_le hwhole
        exact ⟨1, (walk_last hpage).trans (by rw [htake])⟩
      | some next =>
        obtain ⟨skip, hleft, -, hpos, hskip⟩ := hread i s keep next hpage
        have hshort : (left next).length < len := by
          rw [hleft, List.length_drop]
          omega
        obtain ⟨n, hwalk⟩ := ih _ hshort (i + 1) next (fun j t hasks => hall j t (.next hpage hasks)) rfl
        have hkept : left next = (left s).drop keep := hwhole
        refine ⟨n + 1, (walk_next hpage).trans ?_⟩
        rw [hwalk, Option.map_some, hkept, List.take_append_drop]

/-- **The items behind an item**, in the order of their keys. -/
theorem filter_key_lt {κ : Type*} [LinearOrder κ] {key : α → κ} {xs : List α} {x : α} {k : ℕ}
    (hsorted : xs.Pairwise fun a b => key a < key b) (hx : xs[k]? = some x) :
    xs.filter (fun y => key x < key y) = xs.drop (k + 1) := by
  obtain ⟨hk, rfl⟩ := List.getElem?_eq_some_iff.mp hx
  have hsplit : xs = xs.take (k + 1) ++ xs.drop (k + 1) := (List.take_append_drop ..).symm
  have hbefore : (xs.take (k + 1)).filter (fun y => key xs[k] < key y) = [] := by
    rw [List.filter_eq_nil_iff]
    intro y hy
    obtain ⟨i, hi, rfl⟩ := List.mem_take_iff_getElem.mp hy
    have hik : i < k + 1 := by omega
    have hle : key xs[i] ≤ key xs[k] := by
      rcases Nat.lt_succ_iff_lt_or_eq.mp hik with hlt | rfl
      · have hkeys : key xs[i] < key xs[k] := List.pairwise_iff_getElem.mp hsorted i k _ hk hlt
        exact hkeys.le
      · exact le_rfl
    simpa using hle
  have hafter : (xs.drop (k + 1)).filter (fun y => key xs[k] < key y) = xs.drop (k + 1) := by
    rw [List.filter_eq_self]
    intro y hy
    obtain ⟨i, hi, rfl⟩ := List.mem_drop_iff_getElem.mp hy
    exact decide_eq_true (List.pairwise_iff_getElem.mp hsorted k (k + 1 + i) hk _ (by omega))
  calc xs.filter (fun y => key xs[k] < key y)
      = (xs.take (k + 1) ++ xs.drop (k + 1)).filter (fun y => key xs[k] < key y) := by
        rw [List.take_append_drop]
    _ = xs.drop (k + 1) := by rw [List.filter_append, hbefore, hafter, List.nil_append]

end Paging
