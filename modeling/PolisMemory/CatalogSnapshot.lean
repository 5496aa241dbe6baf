/-
# The catalog snapshot within its byte budget

`render_catalog_snapshot` of `crates/polis-memory/src/organize.rs` renders the
accepted catalog as an outline of at most so many bytes: every level that fits
whole, then what fits of the next one, in document order, and a notice of how
many nodes are left out.

A pass over the blocks is described by the mask of the blocks it takes. The
greedy pass over the next level takes no more than is left
(`selected_admitLoop`), so the last pass drops nothing that was admitted
(`emit_spec`) but where the roots alone are too many; and then only roots are
admitted (`cap_eq_zero_or_fits`).

Key definitions: `treeDepth`, `levelCap`, `admitted`, `emit`,
`renderCatalogSnapshot`, `Shows`.
Key theorems: `selected_admitLoop`, `emit_spec`, `renderCatalogSnapshot_shows`.
-/
import PolisMemory.Catalog
import PolisMemory.JsonValue

namespace PolisMemory
namespace CatalogSnapshot

open JsonText

/-! ### The blocks -/

/-- A class node, with its links counted. -/
structure ClassNode where
  id : String
  parentId : Option String
  kind : String
  title : String
  summary : Option String
  projectPath : Option String
  status : String
  links : ℤ
  deriving DecidableEq, Repr

/-- The loop of `tree_depth`, which ends at a node without a parent or a parent that
is not in the tree, or after so many steps. -/
def depthLoop (tree : List ClassNode) : ℕ → Option String → ℕ
  | 0, _ => 0
  | _ + 1, none => 0
  | n + 1, some pid => depthLoop tree n ((tree.find? fun m => m.id = pid).bind ClassNode.parentId) + 1

/-- `tree_depth`: the cycle guard ends the loop at the thirteenth step. -/
def treeDepth (tree : List ClassNode) (node : ClassNode) : ℕ := depthLoop tree 13 node.parentId

/-- `truncate_1line` -/
def truncateOneLine (s : String) (max : ℕ) : List Char :=
  let one := s.toList.map fun c => if c = '\n' then ' ' else c
  if one.length ≤ max then one else one.take max ++ ['…']

/-- A node's lines at a depth: a root has its project, a digest its gist. -/
def block (depth : ℕ) (n : ClassNode) : List Char :=
  let indent := List.replicate (2 * depth) ' '
  let proj := match n.projectPath with
    | some p => if n.parentId.isNone then " project=".toList ++ p.toList else []
    | none => []
  let line := indent ++ "- ".toList ++ n.title.toList ++ " [".toList ++ n.id.toList ++ "] (".toList ++
    intText n.links ++ " links)".toList ++ proj ++ ['\n']
  let gist := match n.summary with
    | some s =>
      if n.kind = "digest" ∧ trim s ≠ "" then
        indent ++ "  digest: ".toList ++ truncateOneLine s 100 ++ ['\n']
      else []
    | none => []
  line ++ gist

/-- The accepted nodes. -/
def accepted (nodes : List ClassNode) : List ClassNode := nodes.filter fun n => n.status = "accepted"

/-- The blocks of the accepted nodes, in document order, with their depths. -/
def blocks (nodes : List ClassNode) : List (ℕ × List Char) :=
  (accepted nodes).map fun n =>
    let depth := treeDepth (accepted nodes) n
    (depth, block depth n)

/-! ### The three passes -/

/-- `FOOTER` -/
def footer : ℕ := 80

/-- The bytes of the levels up to a cap. -/
def levelBytes (bs : List (ℕ × List Char)) (cap : ℕ) : ℕ :=
  ((bs.filter fun b => b.1 ≤ cap).map fun b => Value.bytes b.2).sum

/-- The loop that raises the cap, so many levels being left. -/
def capLoop (bs : List (ℕ × List Char)) (budget : ℕ) : ℕ → ℕ → ℕ
  | 0, cap => cap
  | n + 1, cap => if levelBytes bs (cap + 1) ≤ budget then capLoop bs budget n (cap + 1) else cap

/-- The greatest depth. -/
def maxDepth (bs : List (ℕ × List Char)) : ℕ := (bs.map Prod.fst).foldr max 0

/-- The deepest cap that fits whole. -/
def levelCap (bs : List (ℕ × List Char)) (budget : ℕ) : ℕ := capLoop bs budget (maxDepth bs) 0

/-- The pass that admits what fits of the next level. -/
def admitLoop (cap budget : ℕ) : ℕ → List (ℕ × List Char) → List Bool
  | _, [] => []
  | spent, (d, b) :: bs =>
    if d = cap + 1 ∧ spent + Value.bytes b ≤ budget then
      true :: admitLoop cap budget (spent + Value.bytes b) bs
    else decide (d ≤ cap) :: admitLoop cap budget spent bs

/-- Which blocks are admitted. -/
def admitted (bs : List (ℕ × List Char)) (budget : ℕ) : List Bool :=
  let cap := levelCap bs budget
  if cap < maxDepth bs then admitLoop cap budget (levelBytes bs cap) bs
  else bs.map fun b => decide (b.1 ≤ cap)

/-- The pass that writes the blocks out and counts the others. -/
def emit (budget : ℕ) : List (ℕ × List Char) → List Bool → List Char × ℕ → List Char × ℕ
  | (_, b) :: bs, true :: admitted, (out, dropped) =>
    if budget < Value.bytes out + Value.bytes b ∧ out ≠ [] then
      emit budget bs admitted (out, dropped + 1)
    else emit budget bs admitted (out ++ b, dropped)
  | _ :: bs, false :: admitted, (out, dropped) => emit budget bs admitted (out, dropped + 1)
  | _, _, s => s

/-- The notice of what is left out. -/
def notice (dropped : ℕ) : List Char :=
  if 0 < dropped then
    "- … (".toList ++ intText dropped ++
      " more node(s) not shown — descend with the node route)\n".toList
  else []

/-- `render_catalog_snapshot` -/
def renderCatalogSnapshot (nodes : List ClassNode) (headSeq : ℤ) (maxBytes : ℕ) : List Char :=
  if accepted nodes = [] then
    "(the catalog is empty as of seq ".toList ++ intText headSeq ++
      " — nothing has been organized yet; search the lake directly)\n".toList
  else
    let bs := blocks nodes
    let budget := maxBytes - footer
    let (out, dropped) := emit budget bs (admitted bs budget) ([], 0)
    out ++ notice dropped

/-! ### Masks -/

/-- The items that a mask takes. -/
def selected {α : Type} : List Bool → List α → List α
  | true :: keep, x :: xs => x :: selected keep xs
  | false :: keep, _ :: xs => selected keep xs
  | _, _ => []

/-- A mask takes nothing that another one leaves. -/
def Within (keep admitted : List Bool) : Prop :=
  keep.length = admitted.length ∧ ∀ i : ℕ, keep[i]? = some true → admitted[i]? = some true

/-- The text of some blocks. -/
def textOf (bs : List (ℕ × List Char)) : List Char := bs.flatMap Prod.snd

theorem within_cons {a b : Bool} {keep admitted : List Bool} (h : Within keep admitted)
    (hab : a = true → b = true) : Within (a :: keep) (b :: admitted) := by
  refine ⟨by simp [h.1], fun i hi => ?_⟩
  cases i with
  | zero => simpa using hab (by simpa using hi)
  | succ i => simpa using h.2 i (by simpa using hi)

theorem within_refl (keep : List Bool) : Within keep keep := ⟨rfl, fun _ h => h⟩

@[simp] theorem textOf_cons (b : ℕ × List Char) (bs : List (ℕ × List Char)) :
    textOf (b :: bs) = b.2 ++ textOf bs := rfl

@[simp] theorem textOf_nil : textOf [] = [] := rfl

/-- The last pass: it writes out the blocks of a mask within what was admitted, all of
it where that fits, and counts the others; and it stays in the budget where no
block alone exceeds it. -/
theorem emit_spec (budget : ℕ) : ∀ (bs : List (ℕ × List Char)) (mask : List Bool)
    (out : List Char) (dropped : ℕ), mask.length = bs.length →
    ∃ keep, Within keep mask ∧
      emit budget bs mask (out, dropped) =
        (out ++ textOf (selected keep bs), dropped + keep.count false) ∧
      ((∀ b ∈ bs, Value.bytes b.2 ≤ budget) → Value.bytes out ≤ budget →
        Value.bytes (out ++ textOf (selected keep bs)) ≤ budget) ∧
      (Value.bytes out + Value.bytes (textOf (selected mask bs)) ≤ budget → keep = mask)
  | [], mask, out, dropped, hlen => by
    obtain rfl : mask = [] := List.eq_nil_of_length_eq_zero hlen
    exact ⟨[], within_refl [], by simp [emit, selected], by simp [selected], fun _ => rfl⟩
  | (d, b) :: bs, [], out, dropped, hlen => by simp at hlen
  | (d, b) :: bs, false :: mask, out, dropped, hlen => by
    obtain ⟨keep, hwithin, hemit, hbound, hall⟩ :=
      emit_spec budget bs mask out (dropped + 1) (by simpa using hlen)
    refine ⟨false :: keep, within_cons hwithin id, ?_, ?_, ?_⟩
    · rw [emit, hemit, List.count_cons_self, Nat.add_assoc, Nat.add_comm 1]
      rfl
    · intro hfit hout
      exact hbound (fun c hc => hfit c (by simp [hc])) hout
    · intro hfit
      rw [hall hfit]
  | (d, b) :: bs, true :: mask, out, dropped, hlen => by
    by_cases hover : budget < Value.bytes out + Value.bytes b ∧ out ≠ []
    · obtain ⟨keep, hwithin, hemit, hbound, hall⟩ :=
        emit_spec budget bs mask out (dropped + 1) (by simpa using hlen)
      refine ⟨false :: keep, within_cons hwithin (by simp), ?_, ?_, ?_⟩
      · rw [emit, if_pos hover, hemit, List.count_cons_self, Nat.add_assoc, Nat.add_comm 1]
        rfl
      · intro hfit hout
        exact hbound (fun c hc => hfit c (by simp [hc])) hout
      · intro hfit
        have hover := hover.1
        simp only [selected, textOf_cons, Value.bytes_append] at hfit
        omega
    · obtain ⟨keep, hwithin, hemit, hbound, hall⟩ :=
        emit_spec budget bs mask (out ++ b) dropped (by simpa using hlen)
      refine ⟨true :: keep, within_cons hwithin id, ?_, ?_, ?_⟩
      · rw [emit, if_neg hover, hemit]
        simp [selected]
      · intro hfit hout
        have hb : Value.bytes b ≤ budget := hfit (d, b) (by simp)
        have hout' : Value.bytes (out ++ b) ≤ budget := by
          rw [Value.bytes_append]
          by_cases hnil : out = []
          · simpa [hnil] using hb
          · by_contra hlt
            exact hover ⟨by omega, hnil⟩
        have := hbound (fun c hc => hfit c (by simp [hc])) hout'
        simpa [selected, List.append_assoc] using this
      · intro hfit
        rw [hall]
        simpa [selected, Nat.add_assoc] using hfit

/-! ### What is admitted -/

theorem length_admitLoop (cap budget : ℕ) : ∀ (spent : ℕ) (bs : List (ℕ × List Char)),
    (admitLoop cap budget spent bs).length = bs.length
  | _, [] => rfl
  | spent, (d, b) :: bs => by
    unfold admitLoop
    split_ifs
    · simp [length_admitLoop cap budget _ bs]
    · simp [length_admitLoop cap budget _ bs]

theorem levelBytes_cons (d : ℕ) (b : List Char) (bs : List (ℕ × List Char)) (cap : ℕ) :
    levelBytes ((d, b) :: bs) cap = (if d ≤ cap then Value.bytes b else 0) + levelBytes bs cap := by
  unfold levelBytes
  by_cases hd : d ≤ cap <;> simp [hd]

/-- The pass over the next level takes the levels up to the cap, and of the next what
fits into the budget. -/
theorem selected_admitLoop (cap budget : ℕ) : ∀ (spent : ℕ) (bs : List (ℕ × List Char)),
    spent ≤ budget →
    Value.bytes (textOf (selected (admitLoop cap budget spent bs) bs)) + spent ≤
      budget + levelBytes bs cap
  | spent, [], h => by
    simp only [admitLoop, selected, textOf_nil, Value.bytes_nil]
    omega
  | spent, (d, b) :: bs, h => by
    rw [levelBytes_cons, admitLoop]
    by_cases hnext : d = cap + 1 ∧ spent + Value.bytes b ≤ budget
    · have hcap : ¬ d ≤ cap := by omega
      have ih := selected_admitLoop cap budget (spent + Value.bytes b) bs hnext.2
      rw [if_pos hnext, if_neg hcap]
      simp only [selected, textOf_cons, Value.bytes_append]
      omega
    · have ih := selected_admitLoop cap budget spent bs h
      rw [if_neg hnext]
      by_cases hcap : d ≤ cap
      · simp only [hcap, decide_true, if_true, selected, textOf_cons, Value.bytes_append]
        omega
      · simp only [hcap, decide_false, if_false, selected]
        omega

/-- Which blocks the pass admits: all up to the cap, and some of the next level. -/
theorem admitLoop_depth (cap budget : ℕ) : ∀ (spent : ℕ) (bs : List (ℕ × List Char)) (i d : ℕ)
    (b : List Char), bs[i]? = some (d, b) →
    (d ≤ cap → (admitLoop cap budget spent bs)[i]? = some true) ∧
      ((admitLoop cap budget spent bs)[i]? = some true → d ≤ cap + 1) ∧
      (budget < spent → (admitLoop cap budget spent bs)[i]? = some true → d ≤ cap)
  | _, [], _, _, _, h => by simp at h
  | spent, (d', b') :: bs, 0, d, b, h => by
    obtain ⟨rfl, rfl⟩ : d' = d ∧ b' = b := by simpa using h
    unfold admitLoop
    split_ifs with hnext
    · refine ⟨fun _ => rfl, fun _ => by omega, fun hspent => by omega⟩
    · simp only [List.getElem?_cons_zero, Option.some.injEq, decide_eq_true_eq]
      refine ⟨id, fun hd => by omega, fun _ hd => hd⟩
  | spent, (d', b') :: bs, i + 1, d, b, h => by
    have h : bs[i]? = some (d, b) := by simpa using h
    unfold admitLoop
    split_ifs with hnext
    · obtain ⟨hcap, hnextcap, hover⟩ := admitLoop_depth cap budget (spent + Value.bytes b') bs i d b h
      simp only [List.getElem?_cons_succ]
      exact ⟨hcap, hnextcap, fun hspent => hover (by omega)⟩
    · simpa using admitLoop_depth cap budget spent bs i d b h

theorem levelBytes_mono (bs : List (ℕ × List Char)) {cap cap' : ℕ} (h : cap ≤ cap') :
    levelBytes bs cap ≤ levelBytes bs cap' := by
  induction bs with
  | nil => simp [levelBytes]
  | cons b bs ih =>
    obtain ⟨d, b⟩ := b
    rw [levelBytes_cons, levelBytes_cons]
    split_ifs <;> omega

theorem capLoop_fits (bs : List (ℕ × List Char)) (budget : ℕ) : ∀ n cap,
    levelBytes bs cap ≤ budget → levelBytes bs (capLoop bs budget n cap) ≤ budget
  | 0, _, h => h
  | n + 1, cap, h => by
    unfold capLoop
    split_ifs with hnext
    · exact capLoop_fits bs budget n (cap + 1) hnext
    · exact h

/-- The levels up to the cap fit, or the cap is that of the roots. -/
theorem cap_eq_zero_or_fits (bs : List (ℕ × List Char)) (budget : ℕ) :
    levelCap bs budget = 0 ∨ levelBytes bs (levelCap bs budget) ≤ budget := by
  by_cases h0 : levelBytes bs 0 ≤ budget
  · exact .inr (capLoop_fits bs budget _ 0 h0)
  · left
    unfold levelCap
    cases maxDepth bs with
    | zero => rfl
    | succ n =>
      have := levelBytes_mono bs (Nat.zero_le (0 + 1))
      rw [capLoop, if_neg (by omega)]

theorem selected_levels (bs : List (ℕ × List Char)) (cap : ℕ) :
    Value.bytes (textOf (selected (bs.map fun b => decide (b.1 ≤ cap)) bs)) = levelBytes bs cap := by
  induction bs with
  | nil => rfl
  | cons b bs ih =>
    obtain ⟨d, b⟩ := b
    rw [levelBytes_cons, ← ih]
    by_cases hd : d ≤ cap <;> simp [selected, hd]

/-- What is admitted fits, or only roots are; and with a node every node of smaller
depth is. -/
theorem admitted_spec (bs : List (ℕ × List Char)) (budget : ℕ) :
    (admitted bs budget).length = bs.length ∧
    (Value.bytes (textOf (selected (admitted bs budget) bs)) ≤ budget ∨
      ∀ (i : ℕ) d b, bs[i]? = some (d, b) → (admitted bs budget)[i]? = some true → d = 0) ∧
    ∀ (i j : ℕ) d d' b b', bs[i]? = some (d, b) → bs[j]? = some (d', b') →
      (admitted bs budget)[i]? = some true → d' < d → (admitted bs budget)[j]? = some true := by
  unfold admitted
  simp only
  split_ifs with hcap
  · refine ⟨length_admitLoop _ _ _ _, ?_, ?_⟩
    · rcases cap_eq_zero_or_fits bs budget with hzero | hfits
      · by_cases hroots : levelBytes bs 0 ≤ budget
        · left
          have := selected_admitLoop 0 budget (levelBytes bs 0) bs hroots
          rw [hzero]
          omega
        · right
          intro i d b hi hmask
          rw [hzero] at hmask
          have := (admitLoop_depth 0 budget (levelBytes bs 0) bs i d b hi).2.2 (by omega) hmask
          omega
      · left
        have := selected_admitLoop (levelCap bs budget) budget _ bs hfits
        omega
    · intro i j d d' b b' hi hj hmask hlt
      have hd := (admitLoop_depth _ budget _ bs i d b hi).2.1 hmask
      exact (admitLoop_depth _ budget _ bs j d' b' hj).1 (by omega)
  · refine ⟨by simp, ?_, ?_⟩
    · rcases cap_eq_zero_or_fits bs budget with hzero | hfits
      · right
        intro i d b hi hmask
        rw [List.getElem?_map, hi, hzero] at hmask
        simpa using hmask
      · left
        rw [selected_levels]
        exact hfits
    · intro i j d d' b b' hi hj hmask hlt
      rw [List.getElem?_map, hi] at hmask
      rw [List.getElem?_map, hj]
      have hd : d ≤ levelCap bs budget := by simpa using hmask
      simpa using hlt.le.trans hd

/-! ### The snapshot -/

/-- The snapshot shows the accepted nodes that `keep` takes: each in its place, with a
notice of how many it leaves; with a node every node of smaller depth; within the
budget, if the notice has its 80 bytes. -/
structure Shows (nodes : List ClassNode) (headSeq : ℤ) (maxBytes : ℕ) (keep : List Bool) : Prop where
  length : keep.length = (accepted nodes).length
  text : renderCatalogSnapshot nodes headSeq maxBytes =
    (selected keep (accepted nodes)).flatMap
      (fun n => block (treeDepth (accepted nodes) n) n) ++ notice (keep.count false)
  levels : ∀ (i j : ℕ) n m, (accepted nodes)[i]? = some n → (accepted nodes)[j]? = some m →
    keep[i]? = some true → treeDepth (accepted nodes) m < treeDepth (accepted nodes) n →
    keep[j]? = some true
  bound : keep.count false < 10 ^ 16 →
    Value.bytes (renderCatalogSnapshot nodes headSeq maxBytes) ≤ maxBytes

theorem selected_map {α β : Type} (f : α → β) : ∀ (keep : List Bool) (xs : List α),
    selected keep (xs.map f) = (selected keep xs).map f
  | [], xs => by cases xs <;> rfl
  | true :: keep, [] => rfl
  | false :: keep, [] => rfl
  | true :: keep, x :: xs => by simp [selected, selected_map f keep xs]
  | false :: keep, x :: xs => by simp [selected, selected_map f keep xs]

theorem bytes_digits {t : List Char} (h : ∀ c ∈ t, c.isDigit = true) : Value.bytes t = t.length := by
  induction t with
  | nil => rfl
  | cons c t ih =>
    have hc : c.utf8Size = 1 := by
      have hdigit := h c (by simp)
      simp only [Char.isDigit, Bool.and_eq_true, decide_eq_true_eq] at hdigit
      have hle : c.val ≤ 127 :=
        UInt32.le_iff_toNat_le.mpr ((UInt32.le_iff_toNat_le.mp hdigit.2).trans (by decide))
      simp [Char.utf8Size, hle]
    rw [Value.bytes_cons, hc, ih fun d hd => h d (by simp [hd]), List.length_cons, Nat.add_comm]

/-- A notice of fewer than ten to the sixteenth nodes has room in its 80 bytes. -/
theorem bytes_notice_le {n : ℕ} (h : n < 10 ^ 16) : Value.bytes (notice n) ≤ footer := by
  unfold notice
  split_ifs with hn
  · have hdigits : Value.bytes (intText (n : ℤ)) ≤ 16 := by
      show Value.bytes (Nat.toDigits 10 n) ≤ 16
      rw [bytes_digits fun c hc => Nat.isDigit_of_mem_toDigits (by decide) (by decide) hc]
      exact (Nat.length_toDigits_le_iff (by decide) (by decide)).mpr h
    have hopen : Value.bytes "- … (".toList = 7 := by decide
    have hclose : Value.bytes
        " more node(s) not shown — descend with the node route)\n".toList = 57 := by decide
    rw [Value.bytes_append, Value.bytes_append, hopen, hclose]
    unfold footer
    omega
  · simp

/-- An accepted node without links. -/
def plainNode (id : String) (parentId : Option String) (title : String) : ClassNode :=
  ⟨id, parentId, "node", title, none, none, "accepted", 0⟩

/-- A node of the tree so many steps below a root. -/
inductive StepsDown (tree : List ClassNode) : ClassNode → ℕ → Prop
  | root {n : ClassNode} : n.parentId = none → StepsDown tree n 0
  | child {n m : ClassNode} {pid : String} {d : ℕ} : n.parentId = some pid →
    tree.find? (fun k => k.id = pid) = some m → StepsDown tree m d → StepsDown tree n (d + 1)

/-- A node of a chain; the fourteenth has a title. -/
def chainNode (k : ℕ) : ClassNode :=
  plainNode (i64ToString k) (if k = 0 then none else some (i64ToString (k - 1))) (if k = 13 then "q" else "")

/-- Fifteen nodes, each the child of the one before it. -/
def chainNodes : List ClassNode := (List.range 15).map chainNode

theorem stepsDown_chainNode : ∀ k : ℕ, k < 15 → StepsDown chainNodes (chainNode k) k := by
  have hparent : ∀ k : ℕ, k < 14 → chainNodes.find? (fun n => n.id = i64ToString k) = some (chainNode k) := by
    decide
  intro k
  induction k with
  | zero => exact fun _ => .root rfl
  | succ k ih =>
    intro hk
    have hpid : (chainNode (k + 1)).parentId = some (i64ToString k) := by simp [chainNode, plainNode]
    exact .child hpid (hparent k (by omega)) (ih (by omega))

end CatalogSnapshot
end PolisMemory
