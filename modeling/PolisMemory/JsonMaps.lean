/-
# Reading an object of integers

The reader of a JSON object whose members are integers of 64 bits, as `serde_json`
reads a `HashMap<String, i64>`: blanks may stand around every part, a string literal is
unescaped (surrogate pairs too), a number with a fraction, an exponent, a leading zero
or out of range is refused, and so is what follows the object.

What the writer writes is read back (`readMap_obj`). Each reader takes the text of its
part off the front and leaves the rest as it is, so the lemmas are chained the way the
texts are appended.

Key definitions: `readUnit`, `readString`, `readInt`, `readMembers`, `readMap`.
Key theorems: `readString_quoted`, `readInt_intText`, `readMap_obj`.
-/
import PolisMemory.JsonText
import Mathlib.Tactic.IntervalCases

namespace JsonText

/-! ### The reader -/

/-- A blank. -/
def blank (c : Char) : Bool := c = ' ' || c = '\t' || c = '\n' || c = '\r'

/-- What follows the blanks. -/
def skipWs (t : List Char) : List Char := t.dropWhile blank

/-- The value of a hexadecimal digit. -/
def hexDigit? (c : Char) : Option ℕ :=
  if '0' ≤ c ∧ c ≤ '9' then some (c.toNat - 48)
  else if 'a' ≤ c ∧ c ≤ 'f' then some (c.toNat - 87)
  else if 'A' ≤ c ∧ c ≤ 'F' then some (c.toNat - 55)
  else none

/-- Four hexadecimal digits. -/
def hex4? (a b c d : Char) : Option ℕ := do
  let a ← hexDigit? a
  let b ← hexDigit? b
  let c ← hexDigit? c
  let d ← hexDigit? d
  return 16 * (16 * (16 * a + b) + c) + d

/-- The character of a code unit; a leading surrogate takes its trailing one with it. -/
def readCode (n : ℕ) (r : List Char) : Option (Char × List Char) :=
  if n < 0xD800 ∨ 0xE000 ≤ n then some (Char.ofNat n, r)
  else if 0xDC00 ≤ n then none
  else match r with
    | '\\' :: 'u' :: a :: b :: c :: d :: r => do
      let low ← hex4? a b c d
      if 0xDC00 ≤ low ∧ low < 0xE000 then
        return (Char.ofNat (0x10000 + 0x400 * (n - 0xD800) + (low - 0xDC00)), r)
      else none
    | _ => none

/-- What a one-letter escape stands for. -/
def short? (e : Char) : Option Char :=
  if e = '"' ∨ e = '\\' ∨ e = '/' then some e
  else if e = 'b' ∨ e = 'f' ∨ e = 'n' ∨ e = 'r' ∨ e = 't' then some (short e)
  else none

/-- One character of a string literal, and what follows it. -/
def readUnit : List Char → Option (Char × List Char)
  | [] => none
  | '\\' :: 'u' :: a :: b :: c :: d :: r => (hex4? a b c d).bind fun n => readCode n r
  | '\\' :: e :: r => (short? e).map fun c => (c, r)
  | c :: r => if c.toNat < 32 ∨ c = '\\' then none else some (c, r)

/-- The characters of a string literal up to its closing quote, and what follows. -/
def readBody : ℕ → List Char → Option (List Char × List Char)
  | 0, _ => none
  | fuel + 1, t =>
    if t.head? = some '"' then some ([], t.tail)
    else do
      let (c, r) ← readUnit t
      let (s, r) ← readBody fuel r
      return (c :: s, r)

/-- A string literal. -/
def readString (t : List Char) : Option (String × List Char) :=
  if t.head? = some '"' then (readBody t.length t.tail).map fun p => (String.ofList p.1, p.2)
  else none

/-- The integer of a sign and digits, if its text is one and it fits. -/
def intOf (neg : Bool) (ds : List Char) : Option ℤ :=
  let n := Nat.ofDigitChars 10 ds 0
  if ds = [] ∨ (ds.head? = some '0' ∧ ds ≠ ['0']) ∨ (neg ∧ n = 0) then none
  else if neg then if n ≤ 2 ^ 63 then some (-(n : ℤ)) else none
  else if n < 2 ^ 63 then some (n : ℤ) else none

/-- The digits of an integer, behind its sign; a fraction or an exponent makes it none. -/
def readDigits (neg : Bool) (t : List Char) : Option (ℤ × List Char) :=
  let rest := t.dropWhile Char.isDigit
  if rest.head? = some '.' ∨ rest.head? = some 'e' ∨ rest.head? = some 'E' then none
  else (intOf neg (t.takeWhile Char.isDigit)).map fun n => (n, rest)

/-- An integer. -/
def readInt (t : List Char) : Option (ℤ × List Char) :=
  if t.head? = some '-' then readDigits true t.tail else readDigits false t

/-- The colon and the integer of a member. -/
def readValue (key : String) (t : List Char) : Option ((String × ℤ) × List Char) :=
  if t.head? = some ':' then (readInt (skipWs t.tail)).map fun p => ((key, p.1), p.2) else none

/-- `"key": integer` -/
def readMember (t : List Char) : Option ((String × ℤ) × List Char) :=
  (readString (skipWs t)).bind fun p => readValue p.1 (skipWs p.2)

/-- The members up to the closing brace, and what follows it. -/
def readMembers : ℕ → List Char → Option (List (String × ℤ) × List Char)
  | 0, _ => none
  | fuel + 1, t =>
    (readMember t).bind fun p =>
      if (skipWs p.2).head? = some '}' then some ([p.1], (skipWs p.2).tail)
      else if (skipWs p.2).head? = some ',' then
        (readMembers fuel (skipWs p.2).tail).map fun q => (p.1 :: q.1, q.2)
      else none

/-- An object of integers, and what follows it. -/
def readObject (t : List Char) : Option (List (String × ℤ) × List Char) :=
  if t.head? ≠ some '{' then none
  else if (skipWs t.tail).head? = some '}' then some ([], (skipWs t.tail).tail)
  else readMembers t.length t.tail

/-- An object of integers, and nothing but blanks after it. -/
def readMap (t : List Char) : Option (List (String × ℤ)) :=
  (readObject (skipWs t)).bind fun p => if skipWs p.2 = [] then some p.1 else none

/-! ### Strings -/

theorem hexDigit?_digitChar : ∀ n < 16, hexDigit? (Nat.digitChar n) = some n := by decide

theorem readUnit_escChar (c : Char) (r : List Char) : readUnit (escChar c ++ r) = some (c, r) := by
  unfold escChar
  split_ifs with h1 h2 h3 h4 h5 h6 h7 h8
  · subst h1; rfl
  · subst h2; rfl
  · subst h3; rfl
  · subst h4; rfl
  · subst h5; rfl
  · subst h6; rfl
  · subst h7; rfl
  · have hv : 16 * (c.toNat / 16) + c.toNat % 16 = c.toNat := Nat.div_add_mod _ 16
    have hhex : hex4? '0' '0' (Nat.digitChar (c.toNat / 16)) (Nat.digitChar (c.toNat % 16)) =
        some c.toNat := by
      have hhigh := hexDigit?_digitChar (c.toNat / 16) (by omega)
      have hlow := hexDigit?_digitChar (c.toNat % 16) (by omega)
      have hzero : hexDigit? '0' = some 0 := by decide
      simp [hex4?, hhigh, hlow, hzero, hv]
    have hcode : readCode c.toNat r = some (c, r) := by
      unfold readCode
      rw [if_pos (.inl (by omega)), Char.ofNat_toNat]
    show (hex4? '0' '0' _ _).bind (fun n => readCode n r) = _
    rw [hhex, Option.bind_some, hcode]
  · simp [readUnit, h2, h8]

theorem head?_escChar (c : Char) : (escChar c).head? ≠ some '"' := by
  unfold escChar
  split_ifs with h1 <;> simp_all

theorem readBody_escape : ∀ (s : List Char) {fuel : ℕ} (r : List Char), s.length < fuel →
    readBody fuel (escape s ++ '"' :: r) = some (s, r)
  | [], fuel + 1, r, _ => rfl
  | c :: s, fuel + 1, r, hfuel => by
    have hhead : (escChar c ++ (escape s ++ '"' :: r)).head? ≠ some '"' := by
      rw [List.head?_append_of_ne_nil _ (escChar_ne_nil c)]
      exact head?_escChar c
    have hrest := readBody_escape s r (Nat.lt_of_succ_lt_succ hfuel)
    rw [escape_cons, List.append_assoc, readBody, if_neg hhead, readUnit_escChar]
    simp [hrest]

theorem length_le_escape (s : List Char) : s.length ≤ (escape s).length := by
  induction s with
  | nil => exact le_rfl
  | cons c s ih =>
    have hpos := List.length_pos_of_ne_nil (escChar_ne_nil c)
    rw [escape_cons, List.length_append, List.length_cons]
    omega

/-- A literal that was written is read. -/
theorem readString_quoted (s : String) (r : List Char) : readString (quoted s ++ r) = some (s, r) := by
  have htext : quoted s ++ r = '"' :: (escape s.toList ++ '"' :: r) := by simp [quoted]
  have hlong := length_le_escape s.toList
  rw [htext, readString, List.head?_cons, if_pos rfl, List.tail_cons, readBody_escape]
  · simp
  · simp only [List.length_cons, List.length_append]
    omega

/-! ### Integers -/

/-- A text that no number goes on with. -/
def AfterInt (r : List Char) : Prop :=
  ∀ c ∈ r.head?, c.isDigit = false ∧ c ≠ '.' ∧ c ≠ 'e' ∧ c ≠ 'E'

/-- A number has no leading zero. -/
theorem head?_toDigits : ∀ {n : ℕ}, 0 < n → (Nat.toDigits 10 n).head? ≠ some '0' := by
  intro n
  induction n using Nat.strong_induction_on with
  | _ n ih =>
    intro hn
    by_cases hlt : n < 10
    · rw [Nat.toDigits_of_lt_base hlt]
      interval_cases n <;> decide
    · rw [Nat.toDigits_of_base_le (by omega) (by omega),
        List.head?_append_of_ne_nil _ Nat.toDigits_ne_nil]
      exact ih (n / 10) (by omega) (by omega)

theorem intOf_toDigits {n : ℕ} (hn : n < 2 ^ 63) : intOf false (Nat.toDigits 10 n) = some (n : ℤ) := by
  have hlead : ¬((Nat.toDigits 10 n).head? = some '0' ∧ Nat.toDigits 10 n ≠ ['0']) := by
    intro h
    rcases Nat.eq_zero_or_pos n with rfl | hpos
    · exact h.2 (by decide)
    · exact head?_toDigits hpos h.1
  unfold intOf
  simp only [Nat.ofDigitChars_ten_toDigits, Nat.toDigits_ne_nil, hlead, hn, Bool.false_eq_true, false_and,
    or_self, ite_true, ite_false]

theorem intOf_neg_toDigits {n : ℕ} (hpos : 0 < n) (hn : n ≤ 2 ^ 63) :
    intOf true (Nat.toDigits 10 n) = some (-(n : ℤ)) := by
  have hne : n ≠ 0 := by omega
  unfold intOf
  simp only [Nat.ofDigitChars_ten_toDigits, Nat.toDigits_ne_nil, head?_toDigits hpos, hn, hne, false_and,
    and_false, or_self, ite_true, ite_false]

theorem readDigits_toDigits (neg : Bool) (k : ℕ) {r : List Char} (hr : AfterInt r) :
    readDigits neg (Nat.toDigits 10 k ++ r) = (intOf neg (Nat.toDigits 10 k)).map fun n => (n, r) := by
  have hds : ∀ c ∈ Nat.toDigits 10 k, c.isDigit = true := fun c hc => isDigit_of_mem hc
  have htake : (Nat.toDigits 10 k ++ r).takeWhile Char.isDigit = Nat.toDigits 10 k := by
    rw [List.takeWhile_append_of_pos hds]
    cases r with
    | nil => exact List.append_nil _
    | cons c r => simp [(hr c rfl).1]
  have hdrop : (Nat.toDigits 10 k ++ r).dropWhile Char.isDigit = r := by
    rw [List.dropWhile_append_of_pos hds]
    cases r with
    | nil => rfl
    | cons c r => simp [(hr c rfl).1]
  have hstop : ∀ c, c = '.' ∨ c = 'e' ∨ c = 'E' → r.head? ≠ some c := by
    intro c hc hhead
    have hne := (hr c hhead).2
    simp_all
  unfold readDigits
  simp only [htake, hdrop]
  rw [if_neg]
  simp [hstop]

/-- An integer that was written is read. -/
theorem readInt_intText {n : ℤ} {r : List Char} (hlo : -2 ^ 63 ≤ n) (hhi : n < 2 ^ 63)
    (hr : AfterInt r) : readInt (intText n ++ r) = some (n, r) := by
  cases n with
  | ofNat n =>
    have hsign : (Nat.toDigits 10 n ++ r).head? ≠ some '-' := by
      rw [List.head?_append_of_ne_nil _ Nat.toDigits_ne_nil]
      intro hc
      exact absurd (isDigit_of_mem (List.mem_of_head? hc)) (by decide)
    have hn : n < 2 ^ 63 := by
      have hcast : ((n : ℕ) : ℤ) < 2 ^ 63 := hhi
      omega
    show readInt (Nat.toDigits 10 n ++ r) = _
    rw [readInt, if_neg hsign, readDigits_toDigits false n hr, intOf_toDigits hn]
    rfl
  | negSucc n =>
    have hn : n + 1 ≤ 2 ^ 63 := by
      rw [Int.negSucc_eq] at hlo
      omega
    show readInt ('-' :: (Nat.toDigits 10 (n + 1) ++ r)) = _
    rw [readInt, List.head?_cons, if_pos rfl, List.tail_cons, readDigits_toDigits true (n + 1) hr,
      intOf_neg_toDigits (Nat.succ_pos n) hn]
    rfl

/-! ### Objects -/

theorem skipWs_cons {c : Char} {t : List Char} (hc : blank c = false) : skipWs (c :: t) = c :: t := by
  rw [skipWs, List.dropWhile_cons_of_neg (by rw [hc]; exact Bool.false_ne_true)]

theorem skipWs_quoted (s : String) (t : List Char) : skipWs (quoted s ++ t) = quoted s ++ t :=
  skipWs_cons rfl

theorem skipWs_intText (n : ℤ) (t : List Char) : skipWs (intText n ++ t) = intText n ++ t := by
  cases hn : intText n with
  | nil => exact absurd hn (intText_ne_nil n)
  | cons c ds =>
    have hc : c = '-' ∨ c.isDigit = true := intText_mem (by rw [hn]; exact List.mem_cons_self)
    refine skipWs_cons ?_
    rcases hc with rfl | hc
    · rfl
    · cases hb : blank c with
      | false => rfl
      | true =>
        have hblank : ((c = ' ' ∨ c = '\t') ∨ c = '\n') ∨ c = '\r' := by simpa [blank] using hb
        rcases hblank with ((rfl | rfl) | rfl) | rfl <;> exact absurd hc (by decide)

/-- A member of an object of integers. -/
def intMember (e : String × ℤ) : String × Scalar := (e.1, .int e.2)

theorem readMember_member {e : String × ℤ} {r : List Char} (hlo : -2 ^ 63 ≤ e.2) (hhi : e.2 < 2 ^ 63)
    (hr : AfterInt r) : readMember (member (intMember e) ++ r) = some (e, r) := by
  have htext : member (intMember e) ++ r = quoted e.1 ++ ':' :: (intText e.2 ++ r) := by
    simp [member, intMember, scalarText]
  have hvalue : readValue e.1 (':' :: (intText e.2 ++ r)) = some (e, r) := by
    rw [readValue, List.head?_cons, if_pos rfl, List.tail_cons, skipWs_intText, readInt_intText hlo hhi hr]
    rfl
  rw [htext, readMember, skipWs_quoted, readString_quoted, Option.bind_some, skipWs_cons rfl, hvalue]

/-- The members that were written are read, and the brace after them. -/
theorem readMembers_more : ∀ (e : String × ℤ) (es : List (String × ℤ)) {fuel : ℕ} (r : List Char),
    (∀ e' ∈ e :: es, -2 ^ 63 ≤ e'.2 ∧ e'.2 < 2 ^ 63) → es.length < fuel →
    readMembers fuel (member (intMember e) ++ (more (es.map intMember) ++ '}' :: r)) = some (e :: es, r)
  | e, [], fuel + 1, r, hfits, _ => by
    obtain ⟨hlo, hhi⟩ := hfits e List.mem_cons_self
    have hafter : AfterInt ('}' :: r) := by simp [AfterInt]
    have hbrace : skipWs ('}' :: r) = '}' :: r := skipWs_cons rfl
    show readMembers (fuel + 1) (member (intMember e) ++ '}' :: r) = _
    rw [readMembers, readMember_member hlo hhi hafter, Option.bind_some, hbrace]
    rfl
  | e, e' :: es, fuel + 1, r, hfits, hfuel => by
    obtain ⟨hlo, hhi⟩ := hfits e List.mem_cons_self
    have htext : more ((e' :: es).map intMember) ++ '}' :: r =
        ',' :: (member (intMember e') ++ (more (es.map intMember) ++ '}' :: r)) := by
      simp [more]
    have hrest := readMembers_more e' es r (fun e'' he => hfits e'' (List.mem_cons_of_mem e he))
      (Nat.lt_of_succ_lt_succ hfuel)
    rw [htext]
    generalize member (intMember e') ++ (more (es.map intMember) ++ '}' :: r) = t at hrest
    have hafter : AfterInt (',' :: t) := by simp [AfterInt]
    have hcomma : skipWs (',' :: t) = ',' :: t := skipWs_cons rfl
    rw [readMembers, readMember_member hlo hhi hafter, Option.bind_some, hcomma]
    show (readMembers fuel t).map _ = _
    rw [hrest]
    rfl

theorem length_le_more (ms : List (String × Scalar)) : ms.length ≤ (more ms).length := by
  induction ms with
  | nil => exact le_rfl
  | cons m ms ih =>
    simp only [more, List.flatMap_cons, List.length_append, List.length_cons] at ih ⊢
    omega

/-- **What was written is read back.** -/
theorem readMap_obj {es : List (String × ℤ)} (hfits : ∀ e ∈ es, -2 ^ 63 ≤ e.2 ∧ e.2 < 2 ^ 63) :
    readMap (obj (es.map intMember)) = some es := by
  cases es with
  | nil => rfl
  | cons e es =>
    have htext : obj ((e :: es).map intMember) =
        '{' :: (member (intMember e) ++ (more (es.map intMember) ++ ['}'])) := by
      simp [obj]
    have hquote : ∀ t, skipWs (member (intMember e) ++ t) = member (intMember e) ++ t :=
      fun t => skipWs_cons rfl
    have hhead : ∀ t, (member (intMember e) ++ t).head? ≠ some '}' := by simp [member, quoted]
    have hlong := length_le_more (es.map intMember)
    have hobject : readObject ('{' :: (member (intMember e) ++ (more (es.map intMember) ++ ['}']))) =
        some (e :: es, []) := by
      rw [readObject, List.head?_cons, if_neg (not_not_intro rfl), List.tail_cons, hquote,
        if_neg (hhead _), readMembers_more e es [] hfits]
      simp only [List.length_append, List.length_map, List.length_cons] at hlong ⊢
      omega
    rw [htext, readMap, skipWs_cons rfl, hobject]
    rfl

end JsonText
