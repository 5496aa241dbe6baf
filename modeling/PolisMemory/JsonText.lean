/-
# Compact JSON objects can be read back from their right end

The text of a compact JSON object of scalars (no blanks, members in a fixed
order, strings escaped as `serde_json` escapes them) is a suffix code: in
`a ++ obj` the object, hence also `a`, is determined by the whole text, once
the keys are fixed. So hashing `prefix ++ object` loses nothing, whatever the
prefix is.

Inside an escaped string a quote always follows a backslash
(`guarded_escape`), and the quote that opens a value follows a colon; that is
what finds the start of the last value.

Key definitions: `Scalar`, `escape`, `member`, `obj`.
Key theorems: `escape_injective`, `value_suffix`, `obj_suffix`.
-/
import Mathlib.Data.List.Basic
import Mathlib.Tactic.IntervalCases

namespace JsonText

/-- A JSON value that is not an array or an object. -/
inductive Scalar
  | null
  | int (n : ℤ)
  | str (s : String)
  deriving DecidableEq, Repr

/-- One character of a JSON string. -/
def escChar (c : Char) : List Char :=
  if c = '"' then ['\\', '"']
  else if c = '\\' then ['\\', '\\']
  else if c = '\x08' then ['\\', 'b']
  else if c = '\x0c' then ['\\', 'f']
  else if c = '\n' then ['\\', 'n']
  else if c = '\r' then ['\\', 'r']
  else if c = '\t' then ['\\', 't']
  else if c.toNat < 32 then
    ['\\', 'u', '0', '0', Nat.digitChar (c.toNat / 16), Nat.digitChar (c.toNat % 16)]
  else [c]

/-- A string's characters, escaped. -/
def escape (s : List Char) : List Char := s.flatMap escChar

/-- A JSON string literal. -/
def quoted (s : String) : List Char := '"' :: escape s.toList ++ ['"']

/-- The decimal digits of an integer. -/
def intText : ℤ → List Char
  | .ofNat n => Nat.toDigits 10 n
  | .negSucc n => '-' :: Nat.toDigits 10 (n + 1)

/-- A scalar's text. -/
def scalarText : Scalar → List Char
  | .null => ['n', 'u', 'l', 'l']
  | .int n => intText n
  | .str s => quoted s

/-- `"key":value` -/
def member (m : String × Scalar) : List Char := quoted m.1 ++ ':' :: scalarText m.2

/-- The members after the first, each behind its comma. -/
def more (ms : List (String × Scalar)) : List Char := ms.flatMap fun m => ',' :: member m

/-- A compact object. -/
def obj : List (String × Scalar) → List Char
  | [] => ['{', '}']
  | m :: ms => '{' :: member m ++ more ms ++ ['}']

/-! ### Escaping is a prefix code -/

/-- The value of a hexadecimal digit. -/
def hexValue (c : Char) : ℕ := if c.toNat < 97 then c.toNat - 48 else c.toNat - 87

/-- The character a one-letter escape stands for. -/
def short (d : Char) : Char :=
  if d = 'b' then '\x08' else if d = 'f' then '\x0c' else if d = 'n' then '\n'
  else if d = 'r' then '\r' else if d = 't' then '\t' else d

/-- Reads one escaped character off a text. -/
def readChar : List Char → Option (Char × List Char)
  | [] => none
  | '\\' :: 'u' :: _ :: _ :: a :: b :: r => some (Char.ofNat (16 * hexValue a + hexValue b), r)
  | '\\' :: d :: r => some (short d, r)
  | c :: r => some (c, r)

theorem hexValue_digitChar : ∀ n < 16, hexValue (Nat.digitChar n) = n := by decide

theorem readChar_escChar (c : Char) (r : List Char) : readChar (escChar c ++ r) = some (c, r) := by
  unfold escChar
  split_ifs with h1 h2 h3 h4 h5 h6 h7 h8
  · subst h1; rfl
  · subst h2; rfl
  · subst h3; rfl
  · subst h4; rfl
  · subst h5; rfl
  · subst h6; rfl
  · subst h7; rfl
  · have hv : 16 * (c.toNat / 16) + c.toNat % 16 = c.toNat := Nat.div_add_mod _ 16
    simp [readChar, hexValue_digitChar _ (show c.toNat / 16 < 16 by omega),
      hexValue_digitChar _ (Nat.mod_lt _ (show 0 < 16 by omega)), hv]
  · simp [readChar, h2]

/-- The first escaped character of a text, and what follows it, are
determined. -/
theorem escChar_prefix {c d : Char} {r s : List Char} (h : escChar c ++ r = escChar d ++ s) :
    c = d ∧ r = s := by
  have := readChar_escChar c r
  rw [h, readChar_escChar] at this
  simpa [eq_comm] using this

theorem escChar_ne_nil (c : Char) : escChar c ≠ [] := by
  unfold escChar
  split_ifs <;> simp

theorem escape_cons (c : Char) (s : List Char) : escape (c :: s) = escChar c ++ escape s := rfl

theorem escape_injective : Function.Injective escape := by
  intro s
  induction s with
  | nil =>
    intro t h
    cases t with
    | nil => rfl
    | cons d t =>
      have : escChar d ++ escape t = [] := h.symm
      exact absurd (List.append_eq_nil_iff.mp this).1 (escChar_ne_nil d)
  | cons c s ih =>
    intro t h
    cases t with
    | nil =>
      have : escChar c ++ escape s = [] := h
      exact absurd (List.append_eq_nil_iff.mp this).1 (escChar_ne_nil c)
    | cons d t =>
      obtain ⟨rfl, h'⟩ := escChar_prefix (r := escape s) (s := escape t) h
      rw [ih h']

/-! ### Quotes inside an escaped string -/

/-- Every quote of the text follows a backslash, `p` standing before it. -/
def Guarded (p : Char) : List Char → Prop
  | [] => True
  | c :: cs => (c = '"' → p = '\\') ∧ Guarded c cs

theorem guarded_append_quote : ∀ (p : Char) (u v : List Char) (x : Char),
    Guarded p (u ++ x :: '"' :: v) → x = '\\'
  | _, [], _, _, h => h.2.1 rfl
  | _, c :: u, v, x, h => guarded_append_quote c u v x h.2

theorem guarded_escChar (p c : Char) (r : List Char) (h : ∀ q, Guarded q r) :
    Guarded p (escChar c ++ r) := by
  have hd : ∀ n < 16, Nat.digitChar n ≠ '"' := by decide
  -- an escape's second character stands behind its backslash
  have two : ∀ d, Guarded p ('\\' :: d :: r) := fun d =>
    ⟨fun e => absurd e (by decide), fun _ => rfl, h d⟩
  unfold escChar
  split_ifs with h1
  · exact two _
  · exact two _
  · exact two _
  · exact two _
  · exact two _
  · exact two _
  · exact two _
  · exact ⟨fun e => absurd e (by decide), fun e => absurd e (by decide), fun e => absurd e (by decide),
      fun e => absurd e (by decide), fun e => absurd e (hd _ (by omega)),
      fun e => absurd e (hd _ (Nat.mod_lt _ (by omega))), h _⟩
  · exact ⟨fun e => absurd e h1, h _⟩

theorem guarded_escape : ∀ (s : List Char) (p : Char), Guarded p (escape s)
  | [], _ => trivial
  | c :: s, p => guarded_escChar p c _ fun q => guarded_escape s q

/-- The quote that opens the last string of a text is found from the right. -/
theorem string_suffix (a b s t : List Char)
    (h : a ++ ':' :: '"' :: escape s = b ++ ':' :: '"' :: escape t) : a = b ∧ s = t := by
  have key : ∀ (a b s t : List Char), a ++ ':' :: '"' :: escape s = b ++ ':' :: '"' :: escape t →
      a.length ≤ b.length → a = b ∧ s = t := by
    intro a b s t h hl
    obtain ⟨w, rfl⟩ := List.prefix_of_prefix_length_le (List.prefix_append a _)
      (h ▸ List.prefix_append b _) hl
    rw [List.append_assoc, List.append_cancel_left_eq] at h
    -- `w` is what would stand between the two openings
    match w, h with
    | [], h =>
      simp only [List.nil_append, List.cons.injEq, true_and] at h
      exact ⟨by simp, escape_injective h⟩
    | [x], h =>
      simp only [List.cons_append, List.nil_append, List.cons.injEq] at h
      exact absurd h.2.1 (by decide)
    | x :: y :: w, h =>
      -- then the later colon and quote stand inside the escaped text of `s`
      simp only [List.cons_append, List.cons.injEq] at h
      have hg := guarded_escape s ' '
      rw [h.2.2] at hg
      exact absurd (guarded_append_quote _ _ _ _ hg) (by decide)
  rcases Nat.le_total a.length b.length with hl | hl
  · exact key a b s t h hl
  · obtain ⟨h1, h2⟩ := key b a t s h.symm hl
    exact ⟨h1.symm, h2.symm⟩

/-! ### Numbers -/

theorem toDigits_injective : Function.Injective (Nat.toDigits 10) := by
  intro m n h
  rw [← Nat.ofDigitChars_ten_toDigits (n := m), h, Nat.ofDigitChars_ten_toDigits]

theorem isDigit_of_mem {n : ℕ} {c : Char} (h : c ∈ Nat.toDigits 10 n) : c.isDigit = true :=
  Nat.isDigit_of_mem_toDigits (by decide) (by decide) h

theorem intText_mem {n : ℤ} {c : Char} (h : c ∈ intText n) : c = '-' ∨ c.isDigit = true := by
  cases n with
  | ofNat n => exact Or.inr (isDigit_of_mem h)
  | negSucc n =>
    rcases List.mem_cons.mp h with h | h
    · exact Or.inl h
    · exact Or.inr (isDigit_of_mem h)

theorem intText_ne_nil (n : ℤ) : intText n ≠ [] := by
  cases n with
  | ofNat n => exact Nat.toDigits_ne_nil
  | negSucc n => simp [intText]

theorem intText_injective : Function.Injective intText := by
  intro m n h
  have hd : ∀ k l : ℕ, Nat.toDigits 10 k ≠ '-' :: Nat.toDigits 10 l := fun k l h => by
    have : ('-' : Char) ∈ Nat.toDigits 10 k := h ▸ List.mem_cons_self
    exact absurd (isDigit_of_mem this) (by decide)
  cases m with
  | ofNat m =>
    cases n with
    | ofNat n => rw [toDigits_injective h]
    | negSucc n => exact absurd h (hd _ _)
  | negSucc m =>
    cases n with
    | ofNat n => exact absurd h.symm (hd _ _)
    | negSucc n =>
      have := toDigits_injective (List.cons.inj h).2
      rw [Nat.succ_injective this]

/-- The separator before the last run of characters that are not it is found
from the right. -/
theorem run_suffix {sep : Char} (a b x y : List Char) (hx : sep ∉ x) (hy : sep ∉ y)
    (h : a ++ sep :: x = b ++ sep :: y) : a = b ∧ x = y := by
  have key : ∀ (a b x y : List Char), sep ∉ x → a ++ sep :: x = b ++ sep :: y →
      a.length ≤ b.length → a = b ∧ x = y := by
    intro a b x y hx h hl
    obtain ⟨w, rfl⟩ := List.prefix_of_prefix_length_le (List.prefix_append a _)
      (h ▸ List.prefix_append b _) hl
    rw [List.append_assoc, List.append_cancel_left_eq] at h
    cases w with
    | nil => exact ⟨by simp, by simpa using h⟩
    | cons z w =>
      simp only [List.cons_append, List.cons.injEq] at h
      exact absurd (h.2 ▸ by simp) hx
  rcases Nat.le_total a.length b.length with hl | hl
  · exact key a b x y hx h hl
  · obtain ⟨h1, h2⟩ := key b a y x hy h.symm hl
    exact ⟨h1.symm, h2.symm⟩

/-! ### Values and objects -/

theorem scalarText_str (s : String) : scalarText (.str s) = '"' :: escape s.toList ++ ['"'] := rfl

theorem colon_notMem_int (n : ℤ) : ':' ∉ intText n := fun h => by
  rcases intText_mem h with h | h <;> exact absurd h (by decide)

/-- The last character of a text tells a string from a number from `null`. -/
theorem getLast_int (a : List Char) (n : ℤ) :
    ∃ c, (a ++ intText n).getLast? = some c ∧ (c = '-' ∨ c.isDigit = true) := by
  obtain ⟨c, hc⟩ := Option.isSome_iff_exists.mp
    (List.getLast?_isSome.mpr (intText_ne_nil n))
  refine ⟨c, ?_, intText_mem (List.mem_of_getLast? hc)⟩
  simp [List.getLast?_append, hc]

/-- **A value can be read back from the right** of a text, up to its colon. -/
theorem value_suffix (a b : List Char) (v w : Scalar)
    (h : a ++ ':' :: scalarText v = b ++ ':' :: scalarText w) : a = b ∧ v = w := by
  have hstr : ∀ (a : List Char) (s : String),
      (a ++ ':' :: scalarText (.str s)).getLast? = some '"' := fun a s => by
    rw [scalarText_str, show a ++ ':' :: ('"' :: escape s.toList ++ ['"']) =
      (a ++ ':' :: '"' :: escape s.toList) ++ ['"'] by simp]
    exact List.getLast?_concat ..
  have hnull : ∀ a : List Char, (a ++ ':' :: scalarText .null).getLast? = some 'l' := fun a => by
    simp [scalarText, List.getLast?_append]
  have hint : ∀ (a : List Char) (n : ℤ), ∃ c,
      (a ++ ':' :: scalarText (.int n)).getLast? = some c ∧ (c = '-' ∨ c.isDigit = true) :=
    fun a n => by
      simpa only [List.append_assoc, List.singleton_append, scalarText] using getLast_int (a ++ [':']) n
  cases v with
  | null =>
    cases w with
    | null => exact ⟨by simpa using h, rfl⟩
    | int n =>
      obtain ⟨c, hc, hd⟩ := hint b n
      rw [← h, hnull] at hc
      cases hc
      exact absurd hd (by decide)
    | str s => have := hstr b s; rw [← h, hnull] at this; simp at this
  | int m =>
    cases w with
    | null =>
      obtain ⟨c, hc, hd⟩ := hint a m
      rw [h, hnull] at hc
      cases hc
      exact absurd hd (by decide)
    | int n =>
      obtain ⟨h1, h2⟩ := run_suffix a b _ _ (colon_notMem_int m) (colon_notMem_int n) h
      exact ⟨h1, by rw [intText_injective h2]⟩
    | str s =>
      obtain ⟨c, hc, hd⟩ := hint a m
      rw [h, hstr] at hc
      cases hc
      exact absurd hd (by decide)
  | str s =>
    cases w with
    | null => have := hstr a s; rw [h, hnull] at this; simp at this
    | int n =>
      obtain ⟨c, hc, hd⟩ := hint b n
      rw [← h, hstr] at hc
      cases hc
      exact absurd hd (by decide)
    | str t =>
      simp only [scalarText_str, ← List.cons_append, ← List.append_assoc,
        List.append_cancel_right_eq] at h
      obtain ⟨h1, h2⟩ := string_suffix a b s.toList t.toList (by simpa using h)
      exact ⟨h1, by rw [String.toList_inj.mp h2]⟩

theorem member_suffix (a b : List Char) (k : String) (v w : Scalar)
    (h : a ++ member (k, v) = b ++ member (k, w)) : a = b ∧ v = w := by
  simp only [member, ← List.append_assoc] at h
  obtain ⟨h1, h2⟩ := value_suffix _ _ v w h
  exact ⟨List.append_cancel_right h1, h2⟩

/-- The later members can be read back, one after the other. -/
theorem more_suffix : ∀ (ks : List String) (vs ws : List Scalar) (a b : List Char),
    vs.length = ks.length → ws.length = ks.length →
    a ++ more (ks.zip vs) = b ++ more (ks.zip ws) → a = b ∧ vs = ws
  | [], [], [], a, b, _, _, h => ⟨by simpa [more] using h, rfl⟩
  | [], _ :: _, _, _, _, hv, _, _ => by simp at hv
  | [], [], _ :: _, _, _, _, hw, _ => by simp at hw
  | _ :: _, [], _, _, _, hv, _, _ => by simp at hv
  | _ :: _, _ :: _, [], _, _, _, hw, _ => by simp at hw
  | k :: ks, v :: vs, w :: ws, a, b, hv, hw, h => by
    have hcons : ∀ (x : Scalar) (xs : List Scalar), more ((k :: ks).zip (x :: xs)) =
        ',' :: member (k, x) ++ more (ks.zip xs) := fun x xs => by simp [more]
    simp only [hcons, ← List.append_assoc] at h
    obtain ⟨h1, h2⟩ := more_suffix ks vs ws _ _ (by simpa using hv) (by simpa using hw) h
    obtain ⟨h3, h4⟩ := member_suffix (a ++ [',']) (b ++ [',']) k v w (by simpa using h1)
    exact ⟨List.append_cancel_right h3, by rw [h4, h2]⟩

/-- **An object with known keys can be read back from the right** of a text,
with the text before it. -/
theorem obj_suffix (k : String) (ks : List String) (vs ws : List Scalar) (a b : List Char)
    (hv : vs.length = ks.length + 1) (hw : ws.length = ks.length + 1)
    (h : a ++ obj ((k :: ks).zip vs) = b ++ obj ((k :: ks).zip ws)) : a = b ∧ vs = ws := by
  obtain ⟨v, vs, rfl⟩ := List.exists_cons_of_length_eq_add_one hv
  obtain ⟨w, ws, rfl⟩ := List.exists_cons_of_length_eq_add_one hw
  simp only [List.zip_cons_cons, obj, ← List.append_assoc, List.append_cancel_right_eq] at h
  obtain ⟨h1, h2⟩ := more_suffix ks vs ws _ _ (by simpa using hv) (by simpa using hw) h
  obtain ⟨h3, h4⟩ := member_suffix (a ++ ['{']) (b ++ ['{']) k v w (by simpa using h1)
  exact ⟨List.append_cancel_right h3, by rw [h4, h2]⟩

end JsonText
