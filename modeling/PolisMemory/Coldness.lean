/-
# Coldness and protection

`crates/polis-core/src/coldness.rs` and `crates/polis-memory/src/warmth.rs`:
a branch is cold by the activity under it, measured against the lake's own
span, and protected while a node in it was recalled lately or carries a note.
Both are rolled up the tree from one list of nodes, sixty-four levels deep.

The fraction of the span is a product of doubles. An integer below 2⁶³ is a
double after one rounding and so is the product, so both are integers here,
the product in units of 2⁻⁵⁴, and the comparison is exact (`f64Round`,
`freshSlice`).

Key definitions: `autoCollapseSafe`, `isWarm`, `subtreeStats`,
`Store.nodeDirectLinkActivity`, `Store.directProtected`.
-/
import Mathlib.Data.List.Sort
import PolisMemory.Schema

namespace PolisMemory

open Tables

/-- What is known of a branch: its newest dated link, how many links it holds,
and whether it is protected. -/
structure BranchStat where
  lastTs : Option ℤ
  itemCount : ℤ
  pinned : Bool
  deriving DecidableEq, Repr

/-- The oldest and the newest `ts` of the ledger. -/
structure LakeEnvelope where
  oldest : ℤ
  newest : ℤ
  deriving DecidableEq, Repr

def LakeEnvelope.span (env : LakeEnvelope) : ℤ := max (env.newest - env.oldest) 0

/-! ### Doubles -/

/-- A natural number as a double has it: 53 binary digits, ties to even. -/
def f64Round (n : ℕ) : ℕ :=
  if n < 2 ^ 53 then n
  else
    let d := 2 ^ (n.log2 - 52)
    let q := n / d
    let r := n % d
    if d < 2 * r ∨ (2 * r = d ∧ q % 2 = 1) then (q + 1) * d else q * d

/-- `COLLAPSE_FRESH_FRACTION`, the double next to 0.34, in units of 2⁻⁵⁴. -/
def collapseFreshFraction : ℕ := 6124895493223875

/-- `COLLAPSE_FRESH_FRACTION * span as f64`, in units of 2⁻⁵⁴. -/
def freshSlice (span : ℕ) : ℕ := f64Round (collapseFreshFraction * f64Round span)

/-- The rounding of a number with more than 53 digits is one of the two
multiples of the last place around it. -/
theorem f64Round_bounds {n : ℕ} (hn : 2 ^ 53 ≤ n) :
    n / 2 ^ (n.log2 - 52) * 2 ^ (n.log2 - 52) ≤ f64Round n ∧
      f64Round n ≤ (n / 2 ^ (n.log2 - 52) + 1) * 2 ^ (n.log2 - 52) := by
  unfold f64Round
  rw [if_neg (by omega)]
  dsimp only
  split_ifs
  · exact ⟨Nat.mul_le_mul_right _ (Nat.le_succ _), le_rfl⟩
  · exact ⟨le_rfl, Nat.mul_le_mul_right _ (Nat.le_succ _)⟩

/-- Rounding keeps a number between its powers of two. -/
theorem f64Round_log2 {n : ℕ} (hn : 2 ^ 53 ≤ n) :
    2 ^ n.log2 ≤ f64Round n ∧ f64Round n ≤ 2 ^ (n.log2 + 1) := by
  have hpos : n ≠ 0 := by omega
  have hlog : 53 ≤ n.log2 := (Nat.le_log2 hpos).mpr hn
  have hsplit : 2 ^ n.log2 = 2 ^ 52 * 2 ^ (n.log2 - 52) := by
    rw [← Nat.pow_add]
    congr 1
    omega
  have hsplit' : 2 ^ (n.log2 + 1) = 2 ^ 53 * 2 ^ (n.log2 - 52) := by
    rw [← Nat.pow_add]
    congr 1
    omega
  have hd : 0 < 2 ^ (n.log2 - 52) := Nat.two_pow_pos _
  have hlow : 2 ^ 52 ≤ n / 2 ^ (n.log2 - 52) := by
    rw [Nat.le_div_iff_mul_le hd, ← hsplit]
    exact Nat.log2_self_le hpos
  have hhigh : n / 2 ^ (n.log2 - 52) < 2 ^ 53 := by
    rw [Nat.div_lt_iff_lt_mul hd, ← hsplit']
    exact Nat.lt_log2_self
  obtain ⟨h1, h2⟩ := f64Round_bounds hn
  rw [hsplit, hsplit']
  exact ⟨(Nat.mul_le_mul_right _ hlow).trans h1, h2.trans (Nat.mul_le_mul_right _ hhigh)⟩

theorem f64Round_mono {m n : ℕ} (h : m ≤ n) : f64Round m ≤ f64Round n := by
  by_cases hm : m < 2 ^ 53
  · have hfm : f64Round m = m := if_pos hm
    by_cases hn : n < 2 ^ 53
    · have hfn : f64Round n = n := if_pos hn
      omega
    · have hn' : 2 ^ 53 ≤ n := by omega
      have hlog : 53 ≤ n.log2 := (Nat.le_log2 (by omega)).mpr hn'
      have hpow : 2 ^ 53 ≤ 2 ^ n.log2 := Nat.pow_le_pow_right (by omega) hlog
      have := (f64Round_log2 hn').1
      omega
  · have hm' : 2 ^ 53 ≤ m := by omega
    have hn' : 2 ^ 53 ≤ n := hm'.trans h
    have hlogs : m.log2 ≤ n.log2 := by
      rw [Nat.le_log2 (by omega)]
      exact (Nat.log2_self_le (by omega)).trans h
    rcases hlogs.lt_or_eq with hlt | heq
    · calc f64Round m ≤ 2 ^ (m.log2 + 1) := (f64Round_log2 hm').2
        _ ≤ 2 ^ n.log2 := Nat.pow_le_pow_right (by omega) hlt
        _ ≤ f64Round n := (f64Round_log2 hn').1
    · -- the last place is the same
      have hdiv : m / 2 ^ (n.log2 - 52) ≤ n / 2 ^ (n.log2 - 52) := Nat.div_le_div_right h
      rcases hdiv.lt_or_eq with hq | hq
      · calc f64Round m ≤ (m / 2 ^ (n.log2 - 52) + 1) * 2 ^ (n.log2 - 52) := heq ▸ (f64Round_bounds hm').2
          _ ≤ n / 2 ^ (n.log2 - 52) * 2 ^ (n.log2 - 52) := Nat.mul_le_mul_right _ hq
          _ ≤ f64Round n := (f64Round_bounds hn').1
      · have hfm : f64Round m = _ := if_neg hm
        have hfn : f64Round n = _ := if_neg (show ¬n < 2 ^ 53 by omega)
        have h1 := Nat.div_add_mod m (2 ^ (n.log2 - 52))
        have h2 := Nat.div_add_mod n (2 ^ (n.log2 - 52))
        rw [hfm, hfn, heq]
        dsimp only
        rw [hq] at h1 ⊢
        clear hfm hfn hdiv hq
        generalize 2 ^ (n.log2 - 52) = d at *
        generalize n / d = q at *
        generalize d * q = dq at *
        split_ifs with h3 h4
        · exact le_rfl
        · exfalso
          omega
        · exact Nat.mul_le_mul_right _ (Nat.le_succ _)
        · exact le_rfl

/-! ### The two judgements -/

/-- Whether a branch may be collapsed without a person. -/
def autoCollapseSafe (stat : BranchStat) (env : LakeEnvelope) : Bool :=
  !stat.pinned && stat.lastTs.any fun last =>
    0 < env.span && freshSlice env.span.toNat ≤ 2 ^ 54 * f64Round (env.newest - last).toNat

/-- Whether a recall falls in the freshest slice of the lake's span. -/
def isWarm (lastRecalledAt : Option ℤ) (env : LakeEnvelope) : Bool :=
  lastRecalledAt.any fun last =>
    if env.span ≤ 0 then env.newest ≤ last
    else env.newest ≤ last || 2 ^ 54 * f64Round (env.newest - last).toNat ≤ freshSlice env.span.toNat

/-! ### Rolling up -/

/-- The newer of two times, if there is one. -/
def newer : Option ℤ → Option ℤ → Option ℤ
  | some a, some b => some (max a b)
  | a, b => a.or b

/-- A node's stat with a child's added. -/
def BranchStat.add (stat child : BranchStat) : BranchStat :=
  ⟨newer stat.lastTs child.lastTs, stat.itemCount + child.itemCount, stat.pinned || child.pinned⟩

/-- The nodes that have this one as their parent. -/
def kidsOf (nodes : List NodeRow) (id : String) : List NodeRow :=
  nodes.filter fun n => n.parentId = some id

section roll

variable {β : Type} (nodes : List NodeRow) (own : NodeRow → β) (add : β → β → β)

/-- Roll up one node, so many levels deep: its sum, and the map's entries of
the nodes on the way. -/
def roll : ℕ → NodeRow → β × List (String × β)
  | 0, n => (own n, [(n.id, own n)])
  | depth + 1, n =>
    let rolled := (kidsOf nodes n.id).map (roll depth)
    let sum := rolled.foldl (fun sum r => add sum r.1) (own n)
    (sum, rolled.flatMap Prod.snd ++ [(n.id, sum)])

/-- How deep the roll goes below a root. -/
def rollDepth : ℕ := 64

/-- The map's entries, from the roots. -/
def rolledEntries : List (String × β) :=
  (nodes.filter fun n => n.parentId = none).flatMap fun n => (roll nodes own add rollDepth n).2

/-- What the map has for a node: its sum where a root reaches it, its own
elsewhere. -/
def rolled (id : String) : Option β :=
  match (rolledEntries nodes own add).reverse.find? fun e => e.1 = id with
  | some e => some e.2
  | none => (nodes.find? fun n => n.id = id).map own

end roll

/-- A node's own activity. -/
def ownStat (direct : String → ℤ × Option ℤ) (isProtected : String → Bool) (n : NodeRow) :
    BranchStat :=
  ⟨(direct n.id).2, (direct n.id).1, isProtected n.id⟩

/-- `subtree_stats_protected`. -/
def subtreeStats (nodes : List NodeRow) (direct : String → ℤ × Option ℤ)
    (isProtected : String → Bool) (id : String) : Option BranchStat :=
  rolled nodes (ownStat direct isProtected) BranchStat.add id

/-- The nodes whose activity is in the stat of a node. -/
def rolledBranch (nodes : List NodeRow) (id : String) : List String :=
  (rolled nodes (fun n => [n.id]) (· ++ ·) id).getD []

/-! ### What the store says of a node -/

/-- `CAST(… AS INTEGER)` of a text: its longest leading integer, behind any
space, else 0. -/
def castInteger (text : String) : ℤ :=
  let digits (cs : List Char) : ℤ :=
    ((cs.takeWhile Char.isDigit).foldl (fun n d => 10 * n + (d.toNat - '0'.toNat)) 0 : ℕ)
  match text.toList.dropWhile fun c => c = ' ' || (9 ≤ c.toNat && c.toNat ≤ 13) with
  | '-' :: cs => max (-digits cs) (-2 ^ 63)
  | '+' :: cs => min (digits cs) (2 ^ 63 - 1)
  | cs => min (digits cs) (2 ^ 63 - 1)

/-- The link kinds that have a date. -/
def datedKinds : List String := ["prompt", "decision", "ledger"]

namespace Store

/-- The `ts` of the event a link points at. -/
def linkTs (s : Store) (l : LinkRow) : Option ℤ :=
  if l.targetKind ∈ datedKinds then (s.event? (castInteger l.targetId)).map LedgerEventRow.ts
  else none

/-- A node's live links, as rows. -/
def liveLinkRows (s : Store) (id : String) : List LinkRow :=
  s.links.select fun l => l.nodeId = id && l.live

/-- How many live links a node has, and the newest date among them. -/
def nodeDirectLinkActivity (s : Store) (id : String) : ℤ × Option ℤ :=
  ((s.liveLinkRows id).length, ((s.liveLinkRows id).map s.linkTs).foldl newer none)

/-- `lake_envelope`. -/
def lakeEnvelope (s : Store) : LakeEnvelope :=
  ⟨(s.ledger.rows.map LedgerEventRow.ts).min?.getD 0, (s.ledger.rows.map LedgerEventRow.ts).max?.getD 0⟩

/-- When a live node or a live link of it was last recalled; 0 is never. -/
def nodeWarmth (s : Store) (n : NodeRow) : Option ℤ :=
  let ts := max (n.lastRecalledAt.getD 0)
    ((((s.liveLinkRows n.id).map LinkRow.lastRecalledAt).foldl newer none).getD 0)
  if 0 < ts then some ts else none

/-- Whether a user note with a text targets the node. -/
def noted (s : Store) (id : String) : Bool :=
  s.userNotes.rows.any fun n => n.targetKind = "class_node" && n.targetId = some id && n.text ≠ ""

/-- Whether a live node is protected in itself: warm, or carrying a note. -/
def directProtected (s : Store) (env : LakeEnvelope) (id : String) : Bool :=
  (s.liveNode? id).any fun n => isWarm (s.nodeWarmth n) env || s.noted id

/-- The live nodes, by title. -/
def listClassNodes (s : Store) : List NodeRow :=
  (s.nodes.select NodeRow.live).insertionSort fun a b => a.title ≤ b.title

end Store

/-! ### Two rolls of the same nodes -/

section relate

variable {β γ : Type} {nodes : List NodeRow} {own : NodeRow → β} {add : β → β → β}
  {own' : NodeRow → γ} {add' : γ → γ → γ} {R : β → γ → Prop}

theorem foldl_related (hadd : ∀ {a a' b b'}, R a b → R a' b' → R (add a a') (add' b b')) :
    ∀ {xs : List (β × List (String × β))} {ys : List (γ × List (String × γ))} {a : β} {b : γ},
      List.Forall₂ (fun x y => R x.1 y.1) xs ys → R a b →
        R (xs.foldl (fun sum r => add sum r.1) a) (ys.foldl (fun sum r => add' sum r.1) b)
  | _, _, _, _, .nil, hab => hab
  | _, _, _, _, .cons hxy hrest, hab => by
    rw [List.foldl_cons, List.foldl_cons]
    exact foldl_related hadd hrest (hadd hab hxy)

theorem flatMap_related {α β γ : Type} {f : α → List β} {g : α → List γ} {R : β → γ → Prop} :
    ∀ {xs : List α}, (∀ x ∈ xs, List.Forall₂ R (f x) (g x)) →
      List.Forall₂ R (xs.flatMap f) (xs.flatMap g)
  | [], _ => .nil
  | x :: xs, h => by
    rw [List.flatMap_cons, List.flatMap_cons]
    exact List.rel_append (h x List.mem_cons_self) (flatMap_related fun y hy =>
      h y (List.mem_cons_of_mem x hy))

/-- What holds of each node's own and is kept by adding holds of the sums. -/
theorem roll_related (hown : ∀ n ∈ nodes, R (own n) (own' n))
    (hadd : ∀ {a a' b b'}, R a b → R a' b' → R (add a a') (add' b b')) :
    ∀ (depth : ℕ) (n : NodeRow), n ∈ nodes →
      R (roll nodes own add depth n).1 (roll nodes own' add' depth n).1 ∧
      List.Forall₂ (fun e e' => e.1 = e'.1 ∧ R e.2 e'.2) (roll nodes own add depth n).2
        (roll nodes own' add' depth n).2
  | 0, n, hn => ⟨hown n hn, .cons ⟨rfl, hown n hn⟩ .nil⟩
  | depth + 1, n, hn => by
    have hkids : ∀ k ∈ kidsOf nodes n.id, _ := fun k hk =>
      roll_related hown hadd depth k (List.mem_of_mem_filter hk)
    have hsums : List.Forall₂ (fun x y => R x.1 y.1)
        ((kidsOf nodes n.id).map (roll nodes own add depth))
        ((kidsOf nodes n.id).map (roll nodes own' add' depth)) := by
      rw [List.forall₂_map_left_iff, List.forall₂_map_right_iff, List.forall₂_same]
      exact fun k hk => (hkids k hk).1
    have hentries : List.Forall₂ (fun e e' => e.1 = e'.1 ∧ R e.2 e'.2)
        (((kidsOf nodes n.id).map (roll nodes own add depth)).flatMap Prod.snd)
        (((kidsOf nodes n.id).map (roll nodes own' add' depth)).flatMap Prod.snd) := by
      rw [List.flatMap_map, List.flatMap_map]
      exact flatMap_related fun k hk => (hkids k hk).2
    have hsum := foldl_related hadd hsums (hown n hn)
    exact ⟨hsum, List.rel_append hentries (.cons ⟨rfl, hsum⟩ .nil)⟩

theorem find_related {id : String} : ∀ {xs : List (String × β)} {ys : List (String × γ)},
    List.Forall₂ (fun e e' => e.1 = e'.1 ∧ R e.2 e'.2) xs ys →
      Option.Rel (fun e e' => R e.2 e'.2) (xs.find? fun e => e.1 = id) (ys.find? fun e => e.1 = id)
  | _, _, .nil => .none
  | _, _, .cons (a := x) (b := y) ⟨hk, hr⟩ hrest => by
    rw [List.find?_cons, List.find?_cons, hk]
    by_cases hid : y.1 = id
    · simp only [hid, decide_true]
      exact .some hr
    · simp only [hid, decide_false]
      exact find_related hrest

/-- So it holds of what two maps of the same nodes have for a node. -/
theorem rolled_related (hown : ∀ n ∈ nodes, R (own n) (own' n))
    (hadd : ∀ {a a' b b'}, R a b → R a' b' → R (add a a') (add' b b')) {id : String} {a : β}
    (ha : rolled nodes own add id = some a) :
    ∃ b, rolled nodes own' add' id = some b ∧ R a b := by
  have hentries : List.Forall₂ (fun e e' => e.1 = e'.1 ∧ R e.2 e'.2) (rolledEntries nodes own add)
      (rolledEntries nodes own' add') := by
    unfold rolledEntries
    apply flatMap_related
    intro n hn
    exact (roll_related hown hadd rollDepth n (List.mem_of_mem_filter hn)).2
  have hreverse := List.forall₂_reverse_iff.mpr hentries
  have hfind := @find_related _ _ R id _ _ hreverse
  unfold rolled at ha ⊢
  generalize (rolledEntries nodes own add).reverse.find? (fun e => e.1 = id) = x at ha hfind
  generalize (rolledEntries nodes own' add').reverse.find? (fun e => e.1 = id) = y at hfind ⊢
  cases hfind with
  | none =>
    obtain ⟨n, hn, rfl⟩ := Option.map_eq_some_iff.mp ha
    exact ⟨own' n, by simp [hn], hown n (List.mem_of_find?_eq_some hn)⟩
  | some hr =>
    cases ha
    exact ⟨_, rfl, hr⟩

end relate

end PolisMemory
