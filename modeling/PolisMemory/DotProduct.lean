/-
# The dot product of two quantized vectors

`dot_i8_portable` of `crates/polis-core/src/vec.rs`: eight lanes take the products of
whole chunks of eight, the lanes are added up, and what is left over comes to the sum
one product at a time. All of it is in `i32`, where a value that does not fit is an
overflow: `none` here.

A product of two `i8` is at most `2 ^ 14`, so a sum of `k` of them is at most
`k * 2 ^ 14`, in a lane and in the sum alike. Below `2 ^ 17` elements nothing
overflows, and the result is the dot product (`dotI8Portable_eq`).

Key definitions: `addLanes`, `dotI8Portable`, `dot`.
Key theorems: `addLanes_eq`, `addChunks_eq`, `dotI8Portable_eq`.
-/
import Mathlib.Algebra.Order.Group.Unbundled.Abs
import Mathlib.Algebra.Order.Ring.Abs
import Mathlib.Algebra.BigOperators.Group.List.Basic
import Mathlib.Tactic.Ring
import Mathlib.Tactic.Positivity

namespace PolisMemory

namespace DotProduct

/-- A value as an `i32`. -/
def i32? (z : ℤ) : Option ℤ := if -2 ^ 31 ≤ z ∧ z < 2 ^ 31 then some z else none

/-- `acc += x as i32 * y as i32`. -/
def addProduct (acc : ℤ) (x y : Int8) : Option ℤ := do
  let product ← i32? (x.toInt * y.toInt)
  i32? (acc + product)

/-- A chunk, each element to its lane. -/
def addLanes : List ℤ → List Int8 → List Int8 → Option (List ℤ)
  | acc :: lanes, x :: xs, y :: ys => do
    let acc ← addProduct acc x y
    let lanes ← addLanes lanes xs ys
    return acc :: lanes
  | lanes, _, _ => some lanes

/-- The first chunks of eight. -/
def chunksOf : ℕ → List Int8 → List (List Int8)
  | 0, _ => []
  | m + 1, xs => xs.take 8 :: chunksOf m (xs.drop 8)

/-- `as_chunks::<8>`. -/
def asChunks (xs : List Int8) : List (List Int8) × List Int8 :=
  (chunksOf (xs.length / 8) xs, xs.drop (8 * (xs.length / 8)))

/-- The chunks of both vectors, one after another. -/
def addChunks : List (List Int8) → List (List Int8) → List ℤ → Option (List ℤ)
  | x :: xs, y :: ys, lanes => do
    let lanes ← addLanes lanes x y
    addChunks xs ys lanes
  | _, _, lanes => some lanes

/-- `acc.iter().sum()`. -/
def sumLanes : List ℤ → ℤ → Option ℤ
  | [], sum => some sum
  | acc :: lanes, sum => do
    let sum ← i32? (sum + acc)
    sumLanes lanes sum

/-- What no chunk has. -/
def addRest : List Int8 → List Int8 → ℤ → Option ℤ
  | x :: xs, y :: ys, sum => do
    let sum ← addProduct sum x y
    addRest xs ys sum
  | _, _, sum => some sum

/-- `dot_i8_portable`. -/
def dotI8Portable (a b : List Int8) : Option ℤ := do
  let n := min a.length b.length
  let (ca, ra) := asChunks (a.take n)
  let (cb, rb) := asChunks (b.take n)
  let acc ← addChunks ca cb (List.replicate 8 0)
  let sum ← sumLanes acc 0
  addRest ra rb sum

/-- The dot product. -/
def dot : List Int8 → List Int8 → ℤ
  | x :: xs, y :: ys => x.toInt * y.toInt + dot xs ys
  | _, _ => 0

/-! ### Values that fit -/

theorem i32?_of_abs {z : ℤ} (h : |z| < 2 ^ 31) : i32? z = some z := by
  obtain ⟨hlo, hhi⟩ := abs_lt.mp h
  exact if_pos ⟨hlo.le, hhi⟩

theorem abs_toInt_le (x : Int8) : |x.toInt| ≤ 2 ^ 7 := by
  have hlo := x.le_toInt
  have hhi := x.toInt_lt
  rw [abs_le]
  omega

/-- A product of two `i8`. -/
theorem abs_product_le (x y : Int8) : |x.toInt * y.toInt| ≤ 2 ^ 14 :=
  calc |x.toInt * y.toInt| = |x.toInt| * |y.toInt| := abs_mul _ _
    _ ≤ 2 ^ 7 * 2 ^ 7 := mul_le_mul (abs_toInt_le x) (abs_toInt_le y) (abs_nonneg _) (by omega)
    _ = 2 ^ 14 := by norm_num

theorem abs_add_product_le {acc : ℤ} {k : ℕ} (hacc : |acc| ≤ k * 2 ^ 14) (x y : Int8) :
    |acc + x.toInt * y.toInt| ≤ (k + 1 : ℕ) * 2 ^ 14 := by
  have hproduct := abs_product_le x y
  have hsum := abs_add_le acc (x.toInt * y.toInt)
  push_cast
  omega

/-- One product more, where there were `k`. -/
theorem addProduct_eq {acc : ℤ} {k : ℕ} (hacc : |acc| ≤ k * 2 ^ 14) (hk : k + 1 < 2 ^ 17)
    (x y : Int8) : addProduct acc x y = some (acc + x.toInt * y.toInt) := by
  have hproduct := abs_product_le x y
  have hsum := abs_add_product_le hacc x y
  unfold addProduct
  rw [i32?_of_abs (by omega)]
  show i32? (acc + x.toInt * y.toInt) = _
  exact i32?_of_abs (by omega)

/-! ### The lanes -/

theorem dot_append : ∀ (xs ys xs' ys' : List Int8), xs.length = ys.length →
    dot (xs ++ xs') (ys ++ ys') = dot xs ys + dot xs' ys'
  | [], [], xs', ys', _ => by simp [dot]
  | x :: xs, y :: ys, xs', ys', h => by
    have hrest := dot_append xs ys xs' ys' (by simpa using h)
    simp only [List.cons_append, dot, hrest]
    omega

/-- One chunk: each lane has a product more. -/
theorem addLanes_eq {k : ℕ} (hk : k + 1 < 2 ^ 17) : ∀ (lanes : List ℤ) (xs ys : List Int8),
    xs.length = lanes.length → ys.length = lanes.length → (∀ acc ∈ lanes, |acc| ≤ k * 2 ^ 14) →
    ∃ lanes', addLanes lanes xs ys = some lanes' ∧ lanes'.length = lanes.length ∧
      (∀ acc ∈ lanes', |acc| ≤ (k + 1 : ℕ) * 2 ^ 14) ∧ lanes'.sum = lanes.sum + dot xs ys
  | [], [], [], _, _, _ => ⟨[], rfl, rfl, by simp, by simp [dot]⟩
  | acc :: lanes, x :: xs, y :: ys, hx, hy, hlanes => by
    have hacc := hlanes acc List.mem_cons_self
    obtain ⟨lanes', hrun, hlen, hbound, hsum⟩ := addLanes_eq hk lanes xs ys (by simpa using hx)
      (by simpa using hy) fun l hl => hlanes l (List.mem_cons_of_mem acc hl)
    refine ⟨(acc + x.toInt * y.toInt) :: lanes', ?_, ?_, ?_, ?_⟩
    · unfold addLanes
      rw [addProduct_eq hacc hk, hrun]
      rfl
    · rw [List.length_cons, List.length_cons, hlen]
    · intro l hl
      rcases List.mem_cons.mp hl with rfl | hl
      · exact abs_add_product_le hacc x y
      · exact hbound l hl
    · rw [List.sum_cons, List.sum_cons, hsum, dot]
      omega

/-- **The chunks**, from lanes with `k` products each. -/
theorem addChunks_eq : ∀ (m k : ℕ) (lanes : List ℤ) (a b : List Int8), a.length = b.length →
    8 * m ≤ a.length → k + m < 2 ^ 17 → lanes.length = 8 → (∀ acc ∈ lanes, |acc| ≤ k * 2 ^ 14) →
    ∃ lanes', addChunks (chunksOf m a) (chunksOf m b) lanes = some lanes' ∧ lanes'.length = 8 ∧
      (∀ acc ∈ lanes', |acc| ≤ (k + m : ℕ) * 2 ^ 14) ∧
      lanes'.sum + dot (a.drop (8 * m)) (b.drop (8 * m)) = lanes.sum + dot a b
  | 0, k, lanes, a, b, _, _, _, hlen, hbound => ⟨lanes, rfl, hlen, hbound, rfl⟩
  | m + 1, k, lanes, a, b, hab, hm, hk, hlen, hbound => by
    have hxs : (a.take 8).length = 8 := by
      rw [List.length_take]
      omega
    have hys : (b.take 8).length = 8 := by
      rw [List.length_take]
      omega
    obtain ⟨lanes₁, hrun₁, hlen₁, hbound₁, hsum₁⟩ := addLanes_eq (k := k) (by omega) lanes (a.take 8)
      (b.take 8) (by rw [hxs, hlen]) (by rw [hys, hlen]) hbound
    obtain ⟨lanes₂, hrun₂, hlen₂, hbound₂, hsum₂⟩ := addChunks_eq m (k + 1) lanes₁ (a.drop 8)
      (b.drop 8) (by simp [hab]) (by rw [List.length_drop]; omega) (by omega) (by rw [hlen₁, hlen])
      hbound₁
    refine ⟨lanes₂, ?_, hlen₂, ?_, ?_⟩
    · unfold chunksOf addChunks
      rw [hrun₁]
      exact hrun₂
    · intro acc hacc
      have h := hbound₂ acc hacc
      rwa [show k + 1 + m = k + (m + 1) by omega] at h
    · have hsplit : dot a b = dot (a.take 8) (b.take 8) + dot (a.drop 8) (b.drop 8) := by
        rw [← dot_append _ _ _ _ (hxs.trans hys.symm), List.take_append_drop, List.take_append_drop]
      have hdrop : ∀ l : List Int8, l.drop (8 * (m + 1)) = (l.drop 8).drop (8 * m) := by
        intro l
        rw [List.drop_drop, show 8 * (m + 1) = 8 + 8 * m by omega]
      rw [hdrop, hdrop, hsplit]
      omega

/-! ### The sum -/

theorem abs_sum_le {K : ℕ} : ∀ lanes : List ℤ, (∀ acc ∈ lanes, |acc| ≤ K) →
    |lanes.sum| ≤ lanes.length * K
  | [], _ => by simp
  | acc :: lanes, hlanes => by
    have hacc := hlanes acc List.mem_cons_self
    have hrest := abs_sum_le lanes fun l hl => hlanes l (List.mem_cons_of_mem acc hl)
    calc |(acc :: lanes).sum| = |acc + lanes.sum| := by rw [List.sum_cons]
      _ ≤ |acc| + |lanes.sum| := abs_add_le acc lanes.sum
      _ ≤ K + lanes.length * K := add_le_add hacc hrest
      _ = ((acc :: lanes).length : ℕ) * K := by
          rw [List.length_cons]
          push_cast
          ring

/-- The lanes are added up without overflow, however far the sum has got. -/
theorem sumLanes_eq {K : ℕ} : ∀ (lanes : List ℤ) (sum : ℤ), (∀ acc ∈ lanes, |acc| ≤ K) →
    |sum| + lanes.length * K < 2 ^ 31 → sumLanes lanes sum = some (sum + lanes.sum)
  | [], sum, _, _ => by simp [sumLanes]
  | acc :: lanes, sum, hlanes, hfit => by
    have hacc := hlanes acc List.mem_cons_self
    have hsum := abs_add_le sum acc
    have hcount : ((acc :: lanes).length : ℤ) * K = K + lanes.length * K := by
      rw [List.length_cons]
      push_cast
      ring
    have hpos : (0 : ℤ) ≤ lanes.length * K := by positivity
    rw [hcount] at hfit
    unfold sumLanes
    rw [i32?_of_abs (by omega)]
    show sumLanes lanes (sum + acc) = _
    rw [sumLanes_eq lanes (sum + acc) (fun l hl => hlanes l (List.mem_cons_of_mem acc hl)) (by omega),
      List.sum_cons, add_assoc]

/-- What no chunk has comes to a sum of `k` products. -/
theorem addRest_eq {xs ys : List Int8} {k : ℕ} {sum : ℤ} (hlen : xs.length = ys.length)
    (hsum : |sum| ≤ k * 2 ^ 14) (hk : k + xs.length < 2 ^ 17) :
    addRest xs ys sum = some (sum + dot xs ys) := by
  induction xs generalizing ys k sum with
  | nil => simp [addRest, dot]
  | cons x xs ih =>
    obtain ⟨y, ys, rfl⟩ : ∃ y ys', ys = y :: ys' := List.exists_cons_of_length_eq_add_one hlen.symm
    rw [List.length_cons] at hk
    unfold addRest
    rw [addProduct_eq hsum (by omega)]
    show addRest xs ys (sum + x.toInt * y.toInt) = _
    rw [ih (by simpa using hlen) (abs_add_product_le hsum x y) (by omega), dot, add_assoc]

/-- **The dot product is exact**, and nothing on the way to it overflows, for vectors of
fewer than `2 ^ 17` elements. -/
theorem dotI8Portable_eq (a b : List Int8) (hlen : a.length = b.length) (hn : a.length < 2 ^ 17) :
    dotI8Portable a b = some (dot a b) := by
  obtain ⟨lanes, hrun, hlanes, hbound, hsum⟩ := addChunks_eq (a.length / 8) 0 (List.replicate 8 0) a b
    hlen (by omega) (by omega) (by simp) fun acc hacc => by simp [List.eq_of_mem_replicate hacc]
  rw [Nat.zero_add] at hbound
  have hcast : ∀ acc ∈ lanes, |acc| ≤ (a.length / 8 * 2 ^ 14 : ℕ) := by
    intro acc hacc
    have h := hbound acc hacc
    push_cast at h ⊢
    exact h
  have htotal := abs_sum_le lanes hcast
  rw [hlanes] at htotal
  have hadded : sumLanes lanes 0 = some lanes.sum := by
    rw [sumLanes_eq lanes 0 hcast, Int.zero_add]
    rw [hlanes, abs_zero]
    push_cast
    omega
  have hrest : addRest (a.drop (8 * (a.length / 8))) (b.drop (8 * (a.length / 8))) lanes.sum =
      some (lanes.sum + dot (a.drop (8 * (a.length / 8))) (b.drop (8 * (a.length / 8)))) := by
    apply addRest_eq (k := 8 * (a.length / 8))
    · rw [List.length_drop, List.length_drop, hlen]
    · push_cast at htotal ⊢
      omega
    · rw [List.length_drop]
      omega
  have ha : a.take (min a.length b.length) = a := by
    rw [← hlen, Nat.min_self, List.take_length]
  have hb : b.take (min a.length b.length) = b := by
    rw [hlen, Nat.min_self, List.take_length]
  unfold dotI8Portable asChunks
  dsimp only
  rw [ha, hb, ← hlen, hrun]
  show (sumLanes lanes 0).bind _ = _
  rw [hadded]
  show addRest _ _ lanes.sum = _
  rw [hrest, hsum]
  simp

/-- Ten elements: a chunk and two left over, at the ends of the range. -/
theorem dotI8Portable_ten :
    dotI8Portable (List.replicate 10 (-128)) (List.replicate 10 (-128)) =
      some (dot (List.replicate 10 (-128)) (List.replicate 10 (-128))) :=
  dotI8Portable_eq _ _ (by decide) (by decide)

end DotProduct

end PolisMemory
