/-
# The grammar of JSON texts, and the braces of a text

`Derives` is the grammar of RFC 8259: a value, the elements of an array and
the members of an object, each with the blanks that may stand around it, over
lists of characters. `Balanced` looks at braces and string literals alone: a
text in which every opening brace outside a literal has its closing one.

What the grammar derives is balanced (`Derives.balanced`), whatever braces,
quotes and backslashes its literals hold, so the text of an object is one
brace span (`ObjectText.span`).

Key definitions: `Derives`, `Json`, `Balanced`, `Span`.
Key theorems: `Derives.balanced`, `ObjectText.span`.
-/
import PolisMemory.JsonValue

namespace JsonText

/-! ### Blanks, literals and numbers -/

/-- Blanks alone. -/
def Ws (t : List Char) : Prop := ∀ c ∈ t, c = ' ' ∨ c = '\t' ∨ c = '\n' ∨ c = '\r'

/-- A hexadecimal digit. -/
def HexDigit (c : Char) : Prop := c.isDigit ∨ ('a' ≤ c ∧ c ≤ 'f') ∨ ('A' ≤ c ∧ c ≤ 'F')

/-- The characters between the quotes of a JSON string. -/
inductive StrBody : List Char → Prop
  | nil : StrBody []
  | char {c : Char} {t : List Char} : c ≠ '"' → c ≠ '\\' → 32 ≤ c.toNat → StrBody t → StrBody (c :: t)
  | escape {c : Char} {t : List Char} :
    c ∈ ['"', '\\', '/', 'b', 'f', 'n', 'r', 't'] → StrBody t → StrBody ('\\' :: c :: t)
  | unicode {a b c d : Char} {t : List Char} : HexDigit a → HexDigit b → HexDigit c → HexDigit d →
    StrBody t → StrBody ('\\' :: 'u' :: a :: b :: c :: d :: t)

/-- A JSON string. -/
def StrText (t : List Char) : Prop := ∃ s, StrBody s ∧ t = '"' :: s ++ ['"']

/-- One decimal digit or more. -/
def Digits (t : List Char) : Prop := t ≠ [] ∧ ∀ c ∈ t, c.isDigit

/-- An integer, without a zero in front of other digits. -/
def IntPart (t : List Char) : Prop :=
  ∃ d, (t = d ∨ t = '-' :: d) ∧ Digits d ∧ (d.head? = some '0' → d = ['0'])

/-- The fraction of a number, or nothing. -/
def Fraction (t : List Char) : Prop := t = [] ∨ ∃ d, Digits d ∧ t = '.' :: d

/-- The exponent of a number, or nothing. -/
def Exponent (t : List Char) : Prop :=
  t = [] ∨ ∃ e s d, (e = 'e' ∨ e = 'E') ∧ (s = [] ∨ s = ['+'] ∨ s = ['-']) ∧ Digits d ∧ t = e :: (s ++ d)

/-- A JSON number. -/
def NumberText (t : List Char) : Prop := ∃ i f x, IntPart i ∧ Fraction f ∧ Exponent x ∧ t = i ++ f ++ x

/-! ### The grammar -/

/-- What a rule of the grammar derives. -/
inductive Part
  | value
  | element
  | elements
  | member
  | members

/-- The texts of each part. -/
inductive Derives : Part → List Char → Prop
  | null : Derives .value ['n', 'u', 'l', 'l']
  | yes : Derives .value ['t', 'r', 'u', 'e']
  | no : Derives .value ['f', 'a', 'l', 's', 'e']
  | number {t : List Char} : NumberText t → Derives .value t
  | string {t : List Char} : StrText t → Derives .value t
  | emptyArray {w : List Char} : Ws w → Derives .value ('[' :: (w ++ [']']))
  | array {t : List Char} : Derives .elements t → Derives .value ('[' :: (t ++ [']']))
  | emptyObject {w : List Char} : Ws w → Derives .value ('{' :: (w ++ ['}']))
  | object {t : List Char} : Derives .members t → Derives .value ('{' :: (t ++ ['}']))
  | element {w t x : List Char} : Ws w → Derives .value t → Ws x → Derives .element (w ++ (t ++ x))
  | lastElement {t : List Char} : Derives .element t → Derives .elements t
  | moreElements {t u : List Char} :
    Derives .element t → Derives .elements u → Derives .elements (t ++ ',' :: u)
  | member {w k x t : List Char} :
    Ws w → StrText k → Ws x → Derives .element t → Derives .member (w ++ (k ++ (x ++ ':' :: t)))
  | lastMember {t : List Char} : Derives .member t → Derives .members t
  | moreMembers {t u : List Char} :
    Derives .member t → Derives .members u → Derives .members (t ++ ',' :: u)

/-- A JSON text: one value, blanks around it. -/
def Json (t : List Char) : Prop := Derives .element t

/-! ### Braces outside string literals -/

/-- Between the quotes of a literal: no quote but behind a backslash. -/
inductive Literal : List Char → Prop
  | nil : Literal []
  | plain {c : Char} {t : List Char} : c ≠ '"' → c ≠ '\\' → Literal t → Literal (c :: t)
  | escaped {c : Char} {t : List Char} : Literal t → Literal ('\\' :: c :: t)

/-- Neither a quote nor a brace. -/
def Plain (c : Char) : Prop := c ≠ '"' ∧ c ≠ '{' ∧ c ≠ '}'

instance (c : Char) : Decidable (Plain c) := inferInstanceAs (Decidable (_ ∧ _))

/-- Every brace outside a literal has its partner, and every literal ends. -/
inductive Balanced : List Char → Prop
  | nil : Balanced []
  | plain {c : Char} {t : List Char} : Plain c → Balanced t → Balanced (c :: t)
  | literal {s t : List Char} : Literal s → Balanced t → Balanced ('"' :: (s ++ '"' :: t))
  | nested {s t : List Char} : Balanced s → Balanced t → Balanced ('{' :: (s ++ '}' :: t))

/-- A balanced brace span: a brace, a balanced text and the brace's partner. -/
def Span (t : List Char) : Prop := ∃ s, Balanced s ∧ t = '{' :: (s ++ ['}'])

namespace Balanced

theorem append {s t : List Char} (hs : Balanced s) (ht : Balanced t) : Balanced (s ++ t) := by
  induction hs with
  | nil => exact ht
  | plain hc _ ih => exact .plain hc ih
  | @literal a b ha _ ih =>
    have : '"' :: (a ++ '"' :: b) ++ t = '"' :: (a ++ '"' :: (b ++ t)) := by simp
    rw [this]
    exact .literal ha ih
  | @nested a b ha _ _ ih =>
    have : '{' :: (a ++ '}' :: b) ++ t = '{' :: (a ++ '}' :: (b ++ t)) := by simp
    rw [this]
    exact .nested ha ih

theorem of_plain {t : List Char} (h : ∀ c ∈ t, Plain c) : Balanced t := by
  induction t with
  | nil => exact .nil
  | cons c t ih => exact .plain (h c (by simp)) (ih fun d hd => h d (by simp [hd]))

/-- A plain character between two balanced texts. -/
theorem around {s t : List Char} {c : Char} (hs : Balanced s) (hc : Plain c) (ht : Balanced t) :
    Balanced (s ++ c :: t) :=
  hs.append (.plain hc ht)

end Balanced

/-! ### The grammar derives balanced texts -/

theorem HexDigit.ne {c : Char} (h : HexDigit c) : c ≠ '"' ∧ c ≠ '\\' := by
  constructor <;> (rintro rfl; revert h; unfold HexDigit; decide)

theorem plain_of_all {t : List Char} (h : (t.all fun c => decide (Plain c)) = true) :
    ∀ c ∈ t, Plain c := fun c hc => of_decide_eq_true (List.all_eq_true.mp h c hc)

theorem plain_of_isDigit {c : Char} (h : c.isDigit) : Plain c := by
  refine ⟨?_, ?_, ?_⟩ <;> (rintro rfl; revert h; decide)

theorem Ws.balanced {t : List Char} (h : Ws t) : Balanced t := by
  apply Balanced.of_plain
  intro c hc
  rcases h c hc with rfl | rfl | rfl | rfl <;> (unfold Plain; decide)

theorem StrBody.literal {t : List Char} (h : StrBody t) : Literal t := by
  induction h with
  | nil => exact .nil
  | char hq hb _ _ ih => exact .plain hq hb ih
  | escape _ _ ih => exact .escaped ih
  | unicode ha hb hc hd _ ih =>
    exact .escaped (.plain ha.ne.1 ha.ne.2 (.plain hb.ne.1 hb.ne.2 (.plain hc.ne.1 hc.ne.2
      (.plain hd.ne.1 hd.ne.2 ih))))

theorem StrText.balanced {t : List Char} (h : StrText t) : Balanced t := by
  obtain ⟨s, hs, rfl⟩ := h
  exact .literal hs.literal .nil

theorem Digits.balanced {t : List Char} (h : Digits t) : Balanced t :=
  .of_plain fun c hc => plain_of_isDigit (h.2 c hc)

theorem IntPart.balanced {t : List Char} (h : IntPart t) : Balanced t := by
  obtain ⟨d, rfl | rfl, hd, -⟩ := h
  · exact hd.balanced
  · exact .plain (by unfold Plain; decide) hd.balanced

theorem Fraction.balanced {t : List Char} (h : Fraction t) : Balanced t := by
  obtain rfl | ⟨d, hd, rfl⟩ := h
  · exact .nil
  · exact .plain (by unfold Plain; decide) hd.balanced

theorem Exponent.balanced {t : List Char} (h : Exponent t) : Balanced t := by
  obtain rfl | ⟨e, s, d, he, hs, hd, rfl⟩ := h
  · exact .nil
  · have hplain : Plain e := by
      rcases he with rfl | rfl <;> (unfold Plain; decide)
    have hsign : Balanced s := by
      rcases hs with rfl | rfl | rfl
      · exact .nil
      · exact .plain (by unfold Plain; decide) .nil
      · exact .plain (by unfold Plain; decide) .nil
    exact .plain hplain (hsign.append hd.balanced)

theorem NumberText.balanced {t : List Char} (h : NumberText t) : Balanced t := by
  obtain ⟨i, f, x, hi, hf, hx, rfl⟩ := h
  exact (hi.balanced.append hf.balanced).append hx.balanced

/-- One case a rule of the grammar. -/
theorem Derives.balanced {p : Part} {t : List Char} (h : Derives p t) : Balanced t := by
  induction h with
  | null => exact .of_plain (plain_of_all rfl)
  | yes => exact .of_plain (plain_of_all rfl)
  | no => exact .of_plain (plain_of_all rfl)
  | number ht => exact ht.balanced
  | string ht => exact ht.balanced
  | emptyArray hw =>
    exact .plain (by unfold Plain; decide) (hw.balanced.around (by unfold Plain; decide) .nil)
  | array _ ih =>
    exact .plain (by unfold Plain; decide) (ih.around (by unfold Plain; decide) .nil)
  | emptyObject hw => exact .nested hw.balanced .nil
  | object _ ih => exact .nested ih .nil
  | element hw _ hx ih => exact hw.balanced.append (ih.append hx.balanced)
  | lastElement _ ih => exact ih
  | moreElements _ _ iht ihu => exact iht.around (by unfold Plain; decide) ihu
  | member hw hk hx _ ih =>
    exact hw.balanced.append
      (hk.balanced.append (hx.balanced.around (by unfold Plain; decide) ih))
  | lastMember _ ih => exact ih
  | moreMembers _ _ iht ihu => exact iht.around (by unfold Plain; decide) ihu

/-- The text of an object: a value's text that begins with a brace. -/
def ObjectText (t : List Char) : Prop := Derives .value t ∧ t.head? = some '{'

theorem ObjectText.json {t : List Char} (h : ObjectText t) : Json t := by
  have := Derives.element (w := []) (x := []) (by simp [Ws]) h.1 (by simp [Ws])
  simpa [Json] using this

theorem NumberText.head_ne {t : List Char} (h : NumberText t) : t.head? ≠ some '{' := by
  obtain ⟨i, f, x, ⟨d, hi, ⟨hd, hdigits⟩, -⟩, -, -, rfl⟩ := h
  obtain ⟨c, d, rfl⟩ := List.exists_cons_of_ne_nil hd
  rcases hi with rfl | rfl
  · intro hc
    have hc : c = '{' := by simpa using hc
    exact (plain_of_isDigit (hdigits c (by simp))).2.1 hc
  · simp

/-- An object's text is one brace span. -/
theorem ObjectText.span {t : List Char} (h : ObjectText t) : Span t := by
  obtain ⟨hv, hhead⟩ := h
  cases hv with
  | null => simp at hhead
  | yes => simp at hhead
  | no => simp at hhead
  | number ht => exact absurd hhead ht.head_ne
  | string ht =>
    obtain ⟨s, -, rfl⟩ := ht
    simp at hhead
  | emptyArray hw => simp at hhead
  | array ht => simp at hhead
  | emptyObject hw => exact ⟨_, hw.balanced, rfl⟩
  | object ht => exact ⟨_, ht.balanced, rfl⟩

end JsonText
