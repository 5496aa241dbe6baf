/-
# Forests given by parents

Nodes with a parent each or none, some of them live: a live node is rooted if
its parents lead over live nodes to one that has none. From this the usual
facts: no node is above itself (`Rooted.not_above`), what is rooted stays so
while nothing above it changes (`Rooted.congr`), and a change of the forest
needs looking at only where it is made (`rooted_of_changes`). A walk of a branch
with a stack and a bound sees all of it if and only if the bound is no smaller
(`mem_walk_iff`, `exists_notMem_walk`); one without a bound ends if and only if its
top is not on a cycle (`exists_walk_lt_iff`).

Key definitions: `Up`, `Above`, `Rooted`, `walk`, `Acyclic`.
Key theorems: `Rooted.not_above`, `Rooted.congr`, `rooted_of_changes`, `nodup_walk`,
`mem_walk_iff`, `exists_walk_lt_iff`.
-/
import Mathlib.Data.Set.Card
import Mathlib.Logic.Relation

namespace Forest

variable {α : Type*} {alive alive' : α → Prop} {toParent toParent' : α → Option α} {a b p : α}

/-- From a node to its parent. -/
def Up (toParent : α → Option α) (a p : α) : Prop := toParent a = some p

/-- A node or one above it. -/
def Above (toParent : α → Option α) (a b : α) : Prop := Relation.ReflTransGen (Up toParent) a b

/-- The way up from a node ends at a root, over live nodes only. -/
inductive Rooted (alive : α → Prop) (toParent : α → Option α) : α → Prop
  | root {a : α} : alive a → toParent a = none → Rooted alive toParent a
  | child {a p : α} : alive a → toParent a = some p → Rooted alive toParent p → Rooted alive toParent a

theorem Rooted.live (h : Rooted alive toParent a) : alive a := by
  cases h with
  | root hl _ => exact hl
  | child hl _ _ => exact hl

theorem Rooted.parent (h : Rooted alive toParent a) (hp : toParent a = some p) :
    Rooted alive toParent p := by
  cases h with
  | root _ hn =>
    rw [hn] at hp
    cases hp
  | child _ hp' hr =>
    rw [hp] at hp'
    cases hp'
    exact hr

theorem Rooted.above (h : Rooted alive toParent a) (hab : Above toParent a b) :
    Rooted alive toParent b := by
  induction hab with
  | refl => exact h
  | tail _ hup ih => exact ih.parent hup

/-- The parent is the only way up. -/
theorem above_of_up (hp : toParent a = some p) (hab : Above toParent a b) (hne : a ≠ b) :
    Above toParent p b := by
  rcases Relation.ReflTransGen.cases_head hab with heq | ⟨p', hup, hpb⟩
  · exact absurd heq hne
  · have : p = p' := Option.some.inj (hp.symm.trans hup)
    exact this ▸ hpb

/-- No node is above its own parent. -/
theorem Rooted.not_above (h : Rooted alive toParent a) :
    ∀ {p}, toParent a = some p → ¬Above toParent p a := by
  induction h with
  | root _ hn =>
    intro p hp
    rw [hn] at hp
    cases hp
  | @child a q _ hq hr ih =>
    intro p hp hpa
    obtain rfl : q = p := Option.some.inj (hq.symm.trans hp)
    -- then the parent is above itself
    rcases Relation.ReflTransGen.cases_head hpa with heq | ⟨p', hup, hpa'⟩
    · exact ih (heq ▸ hq : toParent q = some q) .refl
    · exact ih hup (Relation.ReflTransGen.tail hpa' hq)

/-- What is rooted stays rooted while nothing above it changes. -/
theorem Rooted.congr (h : Rooted alive toParent a)
    (hsame : ∀ b, Above toParent a b → alive' b ∧ toParent' b = toParent b) :
    Rooted alive' toParent' a := by
  induction h with
  | @root a _ hn =>
    obtain ⟨hl, hp⟩ := hsame a .refl
    exact .root hl (hp.trans hn)
  | @child a p _ hp _ ih =>
    obtain ⟨hl, hp'⟩ := hsame a .refl
    refine .child hl (hp'.trans hp) (ih fun b hb => hsame b ?_)
    exact Relation.ReflTransGen.head hp hb

/-- After a change all live nodes are rooted, if those are that are new or
have another parent, and no other has a parent that is gone. -/
theorem rooted_of_changes (hold : ∀ a, alive a → Rooted alive toParent a)
    (hnew : ∀ a, alive' a → ¬alive a → Rooted alive' toParent' a)
    (hkept : ∀ a, alive' a → alive a → Rooted alive' toParent' a ∨
      toParent' a = toParent a ∧ ∀ p, toParent a = some p → alive' p) :
    ∀ a, alive' a → Rooted alive' toParent' a := by
  have hstep : ∀ a, Rooted alive toParent a → alive' a → Rooted alive' toParent' a := by
    intro a ha
    induction ha with
    | @root a hl hn =>
      intro hl'
      rcases hkept a hl' hl with hr | ⟨hp, -⟩
      · exact hr
      · exact .root hl' (hp.trans hn)
    | @child a p hl hp _ ih =>
      intro hl'
      rcases hkept a hl' hl with hr | ⟨hp', hlive⟩
      · exact hr
      · exact .child hl' (hp'.trans hp) (ih (hlive p hp))
  intro a hl'
  by_cases hl : alive a
  · exact hstep a (hold a hl) hl'
  · exact hnew a hl' hl

/-- A node that nobody had as its parent before hangs on a rooted one. -/
theorem Rooted.of_leaf (h : Rooted alive toParent p) (hnot : ¬alive a)
    (hsame : ∀ b, b ≠ a → alive b → alive' b ∧ toParent' b = toParent b) (hl : alive' a)
    (hp : toParent' a = some p) : Rooted alive' toParent' a := by
  refine .child hl hp (h.congr fun b hb => ?_)
  have hlb := (h.above hb).live
  exact hsame b (fun heq => hnot (heq ▸ hlb)) hlb

/-! ### The walk of a branch -/

/-- A walk with a stack, its top first, over at most `n` nodes. -/
def walk (kids : α → List α) : ℕ → List α → List α
  | 0, _ => []
  | _ + 1, [] => []
  | n + 1, a :: stack => a :: walk kids n (kids a ++ stack)

/-- The children of a node, each once. -/
structure Kids (toParent : α → Option α) (kids : α → List α) : Prop where
  mem : ∀ {a c}, c ∈ kids a ↔ toParent c = some a
  nodup : ∀ a, (kids a).Nodup

/-- Nothing on or under a node is above its own parent. -/
def Acyclic (toParent : α → Option α) (a : α) : Prop :=
  ∀ x, Above toParent x a → ∀ p, toParent x = some p → ¬ Above toParent p x

/-- Neither node is above the other. -/
def Apart (toParent : α → Option α) (a b : α) : Prop := ¬ Above toParent a b ∧ ¬ Above toParent b a

theorem Acyclic.under {c : α} (h : Acyclic toParent a) (hc : Above toParent c a) :
    Acyclic toParent c :=
  fun x hx => h x (hx.trans hc)

section walk

variable {kids : α → List α} {n : ℕ} {stack : List α} {x : α}

theorem length_walk_le : ∀ (n : ℕ) (stack : List α), (walk kids n stack).length ≤ n
  | 0, _ => by simp [walk]
  | _ + 1, [] => by simp [walk]
  | n + 1, a :: stack => by
    have hrest := length_walk_le n (kids a ++ stack)
    simp only [walk, List.length_cons]
    omega

/-- What is walked is on or under what was on the stack. -/
theorem above_of_mem_walk (hk : Kids toParent kids) (hx : x ∈ walk kids n stack) :
    ∃ a ∈ stack, Above toParent x a := by
  induction n generalizing stack with
  | zero => simp [walk] at hx
  | succ n ih =>
    cases stack with
    | nil => simp [walk] at hx
    | cons a stack =>
      rcases List.mem_cons.mp hx with rfl | hx
      · exact ⟨x, List.mem_cons_self, .refl⟩
      · obtain ⟨b, hb, hxb⟩ := ih hx
        rcases List.mem_append.mp hb with hb | hb
        · exact ⟨a, List.mem_cons_self, hxb.tail (hk.mem.mp hb)⟩
        · exact ⟨b, List.mem_cons_of_mem a hb, hxb⟩

/-- The stack stays apart when its top makes room for its children. -/
theorem apart_push (hk : Kids toParent kids) (hacyclic : Acyclic toParent a)
    (hapart : (a :: stack).Pairwise (Apart toParent)) :
    (kids a ++ stack).Pairwise (Apart toParent) := by
  obtain ⟨htop, hrest⟩ := List.pairwise_cons.mp hapart
  have hsibling : ∀ c ∈ kids a, ∀ c' ∈ kids a, c ≠ c' → ¬ Above toParent c c' := by
    intro c hc c' hc' hne hcc'
    have hup := above_of_up (hk.mem.mp hc) hcc' hne
    exact hacyclic c' (.single (hk.mem.mp hc')) a (hk.mem.mp hc') hup
  refine List.pairwise_append.mpr ⟨?_, hrest, fun c hc b hb => ⟨fun hcb => ?_, fun hbc => ?_⟩⟩
  · apply (hk.nodup a).imp_of_mem
    intro c c' hc hc' hne
    exact ⟨hsibling c hc c' hc' hne, hsibling c' hc' c hc (Ne.symm hne)⟩
  · by_cases hne : c = b
    · subst hne
      exact (htop c hb).2 (.single (hk.mem.mp hc))
    · exact (htop b hb).1 (above_of_up (hk.mem.mp hc) hcb hne)
  · exact (htop b hb).2 (hbc.tail (hk.mem.mp hc))

/-- **No node is walked twice.** -/
theorem nodup_walk (hk : Kids toParent kids) (hacyclic : ∀ a ∈ stack, Acyclic toParent a)
    (hapart : stack.Pairwise (Apart toParent)) : (walk kids n stack).Nodup := by
  induction n generalizing stack with
  | zero => simp [walk]
  | succ n ih =>
    cases stack with
    | nil => simp [walk]
    | cons a stack =>
      have htop := hacyclic a List.mem_cons_self
      refine List.nodup_cons.mpr ⟨fun ha => ?_, ih (fun c hc => ?_) (apart_push hk htop hapart)⟩
      · obtain ⟨b, hb, hab⟩ := above_of_mem_walk hk ha
        rcases List.mem_append.mp hb with hb | hb
        · exact htop b (.single (hk.mem.mp hb)) a (hk.mem.mp hb) hab
        · exact ((List.pairwise_cons.mp hapart).1 b hb).1 hab
      · rcases List.mem_append.mp hc with hc | hc
        · exact htop.under (.single (hk.mem.mp hc))
        · exact hacyclic c (List.mem_cons_of_mem a hc)

/-- A walk that ends before its bound has seen all there is. -/
theorem mem_walk_of_length_lt (hk : Kids toParent kids) (hlt : (walk kids n stack).length < n)
    (ha : a ∈ stack) (hx : Above toParent x a) : x ∈ walk kids n stack := by
  induction n generalizing stack a with
  | zero => omega
  | succ n ih =>
    cases stack with
    | nil => cases ha
    | cons b stack =>
      simp only [walk, List.length_cons] at hlt
      have hlt : (walk kids n (kids b ++ stack)).length < n := by omega
      rcases List.mem_cons.mp ha with rfl | ha
      · rcases Relation.ReflTransGen.cases_tail hx with heq | ⟨c, hxc, hup⟩
        · subst heq
          exact List.mem_cons_self
        · have hc : c ∈ kids a ++ stack := List.mem_append_left stack (hk.mem.mpr hup)
          exact List.mem_cons_of_mem a (ih hlt hc hxc)
      · exact List.mem_cons_of_mem b (ih hlt (List.mem_append_right _ ha) hx)

/-- **The walk of a branch** that is no larger than the bound is the branch. -/
theorem mem_walk_iff (hk : Kids toParent kids) (hacyclic : Acyclic toParent a)
    (hfin : {x | Above toParent x a}.Finite) (hle : {x | Above toParent x a}.ncard ≤ n) :
    x ∈ walk kids n [a] ↔ Above toParent x a := by
  classical
  have hsub : ∀ y ∈ walk kids n [a], Above toParent y a := by
    intro y hy
    obtain ⟨b, hb, hyb⟩ := above_of_mem_walk hk hy
    exact List.mem_singleton.mp hb ▸ hyb
  refine ⟨hsub x, fun hx => ?_⟩
  rcases Nat.lt_or_ge (walk kids n [a]).length n with hlt | hge
  · exact mem_walk_of_length_lt hk hlt (List.mem_singleton_self a) hx
  · -- the bound is met, so there is no node left
    have hnodup : (walk kids n [a]).Nodup := by
      apply nodup_walk hk
      · intro b hb
        exact List.mem_singleton.mp hb ▸ hacyclic
      · exact List.pairwise_singleton _ _
    have hset : ((walk kids n [a]).toFinset : Set α) = {x | Above toParent x a} := by
      apply Set.eq_of_subset_of_ncard_le _ _ hfin
      · intro y hy
        exact hsub y (List.mem_toFinset.mp hy)
      · rw [Set.ncard_coe_finset, List.toFinset_card_of_nodup hnodup]
        omega
    have hmem : x ∈ ((walk kids n [a]).toFinset : Set α) := by
      rw [hset]
      exact hx
    exact List.mem_toFinset.mp hmem

/-- The walk of a larger one leaves some of it out. -/
theorem exists_notMem_walk (hlt : n < {x | Above toParent x a}.ncard) :
    ∃ x, Above toParent x a ∧ x ∉ walk kids n [a] := by
  classical
  by_contra hall
  push Not at hall
  have hsub : {x | Above toParent x a} ⊆ ((walk kids n [a]).toFinset : Set α) := by
    intro x hx
    exact List.mem_toFinset.mpr (hall x hx)
  have hcard := Set.ncard_le_ncard hsub (Finset.finite_toSet _)
  rw [Set.ncard_coe_finset] at hcard
  have hlen := List.toFinset_card_le (walk kids n [a])
  have hwalk : (walk kids n [a]).length ≤ n := length_walk_le n [a]
  omega

/-! ### A walk that ends -/

/-- A branch has a cycle just where its top is on one. -/
theorem acyclic_iff : Acyclic toParent a ↔ ∀ p, toParent a = some p → ¬ Above toParent p a := by
  refine ⟨fun h => h a .refl, fun h x hx => ?_⟩
  induction hx using Relation.ReflTransGen.head_induction_on with
  | refl => exact h
  | @head x q hup _ ih =>
    intro p hp hpx
    obtain rfl : q = p := Option.some.inj (Eq.trans (Eq.symm hup) hp)
    -- the cycle through a node goes through its parent
    rcases Relation.ReflTransGen.cases_head hpx with rfl | ⟨p', hup', hpx'⟩
    · exact ih q hup .refl
    · exact ih p' hup' (hpx'.tail hup)

/-- A walk with a node on its stack that is on a cycle goes on. -/
theorem length_walk_of_cycle (hk : Kids toParent kids) (hx : x ∈ stack) (hp : toParent x = some p)
    (hpx : Above toParent p x) : (walk kids n stack).length = n := by
  induction n generalizing stack x p with
  | zero => rfl
  | succ n ih =>
    cases stack with
    | nil => cases hx
    | cons a stack =>
      rw [walk, List.length_cons]
      rcases List.mem_cons.mp hx with rfl | hx
      · -- the child through which the cycle comes back
        have hback : Relation.TransGen (Up toParent) x x := .head' hp hpx
        obtain ⟨c, hxc, hcx⟩ := Relation.TransGen.tail'_iff.mp hback
        rw [ih (List.mem_append_left stack (hk.mem.mpr hcx)) hcx hxc]
      · rw [ih (List.mem_append_right (kids a) hx) hp hpx]

/-- A walk that ends goes no further. -/
theorem walk_eq_of_lt {m : ℕ} (hlt : (walk kids n stack).length < n)
    (hm : (walk kids n stack).length < m) : walk kids m stack = walk kids n stack := by
  induction n generalizing m stack with
  | zero => omega
  | succ n ih =>
    cases m with
    | zero => omega
    | succ m =>
      cases stack with
      | nil => rfl
      | cons a stack =>
        simp only [walk, List.length_cons] at hlt hm ⊢
        rw [ih (by omega) (by omega)]

/-- A walk that ends has walked its stack and the children of what it walked. -/
theorem walk_perm (hlt : (walk kids n stack).length < n) :
    (walk kids n stack).Perm (stack ++ (walk kids n stack).flatMap kids) := by
  induction n generalizing stack with
  | zero => omega
  | succ n ih =>
    cases stack with
    | nil => simp [walk]
    | cons a stack =>
      simp only [walk, List.length_cons] at hlt
      have hlt : (walk kids n (kids a ++ stack)).length < n := by omega
      rw [walk, List.flatMap_cons, List.cons_append]
      refine (ih hlt).cons a |>.trans (.cons a ?_)
      rw [← List.append_assoc]
      exact List.perm_append_comm.append_right _

/-- **A walk ends** if and only if its top is not on a cycle. -/
theorem exists_walk_lt_iff (hk : Kids toParent kids) (all : List α)
    (hall : ∀ x p, toParent x = some p → x ∈ all) :
    (∃ n, (walk kids n [a]).length < n) ↔ ∀ p, toParent a = some p → ¬ Above toParent p a := by
  constructor
  · rintro ⟨n, hlt⟩ p hp hpa
    have hgoes := length_walk_of_cycle (n := n) hk (List.mem_singleton_self a) hp hpa
    omega
  · intro h
    refine ⟨all.length + 2, ?_⟩
    have hnodup : (walk kids (all.length + 2) [a]).Nodup := by
      apply nodup_walk hk
      · intro b hb
        exact List.mem_singleton.mp hb ▸ acyclic_iff.mpr h
      · exact List.pairwise_singleton _ _
    have hsub : walk kids (all.length + 2) [a] ⊆ a :: all := by
      intro x hx
      obtain ⟨b, hb, hxb⟩ := above_of_mem_walk hk hx
      obtain rfl := List.mem_singleton.mp hb
      rcases Relation.ReflTransGen.cases_head hxb with rfl | ⟨p, hup, -⟩
      · exact List.mem_cons_self
      · exact List.mem_cons_of_mem b (hall x p hup)
    have hle := (hnodup.subperm hsub).length_le
    rw [List.length_cons] at hle
    omega

end walk

end Forest
