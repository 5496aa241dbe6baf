/-
# Compact JSON values and their length in bytes

The text `serde_json` writes of a value: members in the order given, no
blanks, strings escaped. A value inside an array or an object contributes its
own bytes and nothing else, so a smaller value makes a smaller whole
(`size_obj_le`), and so does a shorter array (`size_arr_le`).

Key definitions: `JsonText.Value`, `Value.text`, `Value.size`.
Key theorems: `Value.size_obj_le`, `Value.size_arr_le`.
-/
import PolisMemory.JsonText
import Mathlib.Algebra.BigOperators.Group.List.Basic
import Mathlib.Algebra.Order.BigOperators.Group.List

namespace JsonText

/-- A JSON value; a number that is no integer by its text. -/
inductive Value
  | null
  | bool (b : Bool)
  | int (n : ℤ)
  | float (text : String)
  | str (s : String)
  | arr (items : List Value)
  | obj (members : List (String × Value))

namespace Value

/-- The texts, a comma between each two. -/
def joined : List (List Char) → List Char
  | [] => []
  | [t] => t
  | t :: u :: ts => t ++ ',' :: joined (u :: ts)

mutual

/-- The compact text of a value. -/
def text : Value → List Char
  | null => ['n', 'u', 'l', 'l']
  | bool true => ['t', 'r', 'u', 'e']
  | bool false => ['f', 'a', 'l', 's', 'e']
  | int n => intText n
  | float t => t.toList
  | str s => quoted s
  | arr items => '[' :: joined (texts items) ++ [']']
  | obj members => '{' :: joined (memberTexts members) ++ ['}']

/-- The texts of an array's items. -/
def texts : List Value → List (List Char)
  | [] => []
  | v :: vs => v.text :: texts vs

/-- The texts of an object's members. -/
def memberTexts : List (String × Value) → List (List Char)
  | [] => []
  | m :: ms => memberText m :: memberTexts ms

/-- `"key":value` -/
def memberText : String × Value → List Char
  | (key, v) => quoted key ++ ':' :: v.text

end

/-- The length of a text in UTF-8. -/
def bytes (t : List Char) : ℕ := (t.map Char.utf8Size).sum

/-- The length of a value's text. -/
def size (v : Value) : ℕ := bytes v.text

/-- The value of a member. -/
def get (v : Value) (key : String) : Option Value :=
  match v with
  | obj members => (members.find? fun m => m.1 = key).map Prod.snd
  | _ => none

/-- `as_str` -/
def asStr : Value → Option String
  | str s => some s
  | _ => none

/-- `as_i64` -/
def asInt : Value → Option ℤ
  | int n => some n
  | _ => none

/-- `null` for none. -/
def opt {α : Type*} (f : α → Value) (a : Option α) : Value := (a.map f).getD null

/-! ### Lengths -/

@[simp] theorem bytes_nil : bytes [] = 0 := rfl

@[simp] theorem bytes_cons (c : Char) (t : List Char) : bytes (c :: t) = c.utf8Size + bytes t := by
  simp [bytes]

@[simp] theorem bytes_append (t u : List Char) : bytes (t ++ u) = bytes t + bytes u := by
  simp [bytes]

theorem length_texts (vs : List Value) : texts vs = vs.map text := by
  induction vs with
  | nil => rfl
  | cons v vs ih => rw [texts, ih, List.map_cons]

theorem memberTexts_eq (ms : List (String × Value)) :
    memberTexts ms = ms.map memberText := by
  induction ms with
  | nil => rfl
  | cons m ms ih => rw [memberTexts, ih, List.map_cons]

theorem bytes_joined (ts : List (List Char)) :
    bytes (joined ts) = (ts.map bytes).sum + (ts.length - 1) := by
  induction ts with
  | nil => rfl
  | cons t ts ih =>
    cases ts with
    | nil => simp [joined]
    | cons u us =>
      have hcomma : Char.utf8Size ',' = 1 := rfl
      rw [joined, bytes_append, bytes_cons, ih, hcomma]
      simp only [List.map_cons, List.sum_cons, List.length_cons]
      omega

theorem size_arr (vs : List Value) : (arr vs).size = 2 + (vs.map size).sum + (vs.length - 1) := by
  have hopen : Char.utf8Size '[' = 1 := rfl
  have hclose : Char.utf8Size ']' = 1 := rfl
  unfold size
  rw [text, List.cons_append, bytes_cons, bytes_append, bytes_cons, bytes_nil, bytes_joined, length_texts,
    List.map_map, List.length_map, hopen, hclose]
  show _ = 2 + (vs.map (bytes ∘ text)).sum + (vs.length - 1)
  omega

theorem size_obj (ms : List (String × Value)) :
    (obj ms).size = 2 + (ms.map fun m => bytes (quoted m.1) + 1 + m.2.size).sum + (ms.length - 1) := by
  have hopen : Char.utf8Size '{' = 1 := rfl
  have hclose : Char.utf8Size '}' = 1 := rfl
  have hcolon : Char.utf8Size ':' = 1 := rfl
  have hmember : (bytes ∘ memberText) = fun m : String × Value => bytes (quoted m.1) + 1 + m.2.size := by
    funext m
    obtain ⟨key, v⟩ := m
    rw [Function.comp_apply, memberText, bytes_append, bytes_cons, hcolon, Nat.add_assoc]
    rfl
  unfold size
  rw [text, List.cons_append, bytes_cons, bytes_append, bytes_cons, bytes_nil, bytes_joined, memberTexts_eq,
    List.map_map, List.length_map, hopen, hclose, hmember]
  show _ = 2 + _ + (ms.length - 1)
  unfold size
  omega

/-- A smaller member makes a smaller object. -/
theorem size_obj_le {v w : Value} (h : v.size ≤ w.size) (pre post : List (String × Value)) (key : String) :
    (obj (pre ++ (key, v) :: post)).size ≤ (obj (pre ++ (key, w) :: post)).size := by
  rw [size_obj, size_obj]
  simp only [List.map_append, List.map_cons, List.sum_append, List.sum_cons, List.length_append,
    List.length_cons]
  omega

/-- An array without some of its items is smaller. -/
theorem size_arr_le {us vs : List Value} (h : us.Sublist vs) : (arr us).size ≤ (arr vs).size := by
  have hsum : (us.map size).sum ≤ (vs.map size).sum := (h.map size).sum_le_sum fun _ _ => Nat.zero_le _
  have hlength := h.length_le
  rw [size_arr, size_arr]
  omega

/-- What a member takes of an object, its colon and comma with it. -/
def memberSize (m : String × Value) : ℕ := bytes (quoted m.1) + 2 + m.2.size

theorem size_obj_of_ne_nil {ms : List (String × Value)} (hne : ms ≠ []) :
    (obj ms).size = 1 + (ms.map memberSize).sum := by
  have hsum (ms : List (String × Value)) : (ms.map memberSize).sum =
      (ms.map fun m => bytes (quoted m.1) + 1 + m.2.size).sum + ms.length := by
    induction ms with
    | nil => rfl
    | cons m ms ih =>
      rw [List.map_cons, List.map_cons, List.sum_cons, List.sum_cons, List.length_cons, ih]
      unfold memberSize
      omega
  have hpos := List.length_pos_iff.mpr hne
  rw [size_obj, hsum]
  omega

/-- An array of fewer items in another order is smaller. -/
theorem size_arr_le_of_subperm {us vs : List Value} (h : us.Subperm vs) : (arr us).size ≤ (arr vs).size := by
  obtain ⟨ws, hperm, hsub⟩ := h
  have hsame : (arr ws).size = (arr us).size := by
    rw [size_arr, size_arr, (hperm.map size).sum_eq, hperm.length_eq]
  calc
    (arr us).size = (arr ws).size := hsame.symm
    _ ≤ (arr vs).size := size_arr_le hsub

end Value

end JsonText
