/-
# A query and the words it is planned from

`plan_fts_query` of `crates/polis-core/src/query.rs` takes the quoted phrases out
of a raw query, cuts what is left into terms, and writes phrases and terms as
quoted literals, joined by AND and by OR (`planFtsQuery`). Whatever the query, the
two texts read back as the phrases and terms (`Sound.andMatch`, `Sound.orMatch`).

What is left after a phrase, or after a quote that is not closed, is joined to what
was before it with nothing between. Where no two words meet there, the terms are
words of the query, and of at most twelve content words each is in a term or in a
phrase (`planFtsQuery_conserves`). Where two meet they become one (`glued`).

Key definitions: `tokenize`, `extractPhrases`, `planFtsQuery`, `Literals`, `words`,
`Conserves`, `Unglued`.
Key theorems: `literals_joined`, `extractPhrases_eq`, `cut_append`,
`planFtsQuery_conserves`, `glued`.
-/
import Mathlib
import PolisMemory.Sourcing

namespace PolisMemory

namespace QueryPlan

/-! ### The plan -/

/-- `STOPWORDS`. -/
def stopwords : List (List Char) :=
  ["a", "about", "after", "all", "also", "am", "an", "and", "any", "are", "as", "at", "be",
    "been", "before", "being", "but", "by", "can", "did", "do", "does", "doing", "for", "from",
    "had", "has", "have", "how", "i", "if", "in", "into", "is", "it", "its", "just", "me", "my",
    "of", "on", "or", "our", "out", "over", "same", "she", "so", "some", "than", "that", "the",
    "their", "them", "then", "there", "these", "they", "this", "to", "too", "up", "was", "we",
    "were", "what", "when", "where", "which", "while", "who", "why", "will", "with", "would",
    "you", "your"].map String.toList

/-- `TOKEN_CHARS`. -/
def tokenChars : List Char := ['_', '-', '.', '/', '@']

/-- A character that stays in a token, though not alphanumeric. -/
def isToken (c : Char) : Bool := c ∈ tokenChars

/-- `MAX_TERMS`. -/
def maxTerms : ℕ := 12

/-- `MIN_PREFIX_LEN`. -/
def minPrefixLen : ℕ := 4

/-- `str::trim`. -/
def trimText (t : List Char) : List Char := (t.dropWhile isWhitespace).rdropWhile isWhitespace

/-- `trim_end_matches` of the token characters. -/
def trimEnd (t : List Char) : List Char := t.rdropWhile isToken

/-- `Vec::dedup`: of equal neighbours one stays. -/
def dedup : List (List Char) → List (List Char)
  | [] => []
  | [t] => [t]
  | t :: t' :: ts => if t = t' then dedup (t' :: ts) else t :: dedup (t' :: ts)

section plan

variable (u : Unicode)

/-- `to_lowercase`, on characters. -/
def lower (t : List Char) : List Char := (u.toLowercase (String.ofList t)).toList

/-- What a token is of. -/
def inWord (c : Char) : Bool := u.isAlphanumeric c || isToken c

/-- What `tokenize` makes of a piece. A flag keeps its dashes. -/
def clean (t : List Char) : List Char :=
  if ['-', '-'] <+: t ∧ t.any u.isAlphanumeric then trimEnd t
  else trimEnd (t.dropWhile isToken)

/-- The tokens of a text that is in lower case. -/
def cut (t : List Char) : List (List Char) :=
  ((t.splitOnP fun c => !inWord u c).map (clean u)).filter fun t => t.any u.isAlphanumeric

/-- A lone ASCII letter that is not a stopword. -/
def loneLetter (t : List Char) : Bool := t.length = 1 && t.all Char.isAlpha && t ∉ stopwords

/-- `tokenize`. -/
def tokenize (raw : List Char) : List (List Char) :=
  let all := cut u (lower u raw)
  let kept := all.filter fun t => !loneLetter t
  if kept = [] then all else kept

/-- `extract_phrases`: the phrases and what is left, from outside a quote or from
inside one, with what was read since. -/
def extractPhrases : Option (List Char) → List Char → List (List Char) × List Char
  | none, [] => ([], [])
  | some phrase, [] => ([], trimText phrase)
  | none, c :: cs =>
    if c = '"' then extractPhrases (some []) cs
    else
      let r := extractPhrases none cs
      (r.1, c :: r.2)
  | some phrase, c :: cs =>
    if c = '"' then
      let r := extractPhrases none cs
      if trimText phrase ≠ [] then (lower u (trimText phrase) :: r.1, r.2)
      else (r.1, trimText phrase ++ r.2)
    else extractPhrases (some (phrase ++ [c])) cs

/-- A text with each quote in it doubled. -/
def doubled : List Char → List Char
  | [] => []
  | c :: cs => if c = '"' then '"' :: '"' :: doubled cs else c :: doubled cs

/-- `quote`. -/
def quote (term : List Char) : List Char := '"' :: (doubled term ++ ['"'])

/-- A term in the OR stage, with a `*` where it is long enough. -/
def orPart (term : List Char) : List Char :=
  if minPrefixLen ≤ term.length then quote term ++ ['*'] else quote term

/-- `FtsPlan`. -/
structure FtsPlan where
  andMatch : List Char
  orMatch : List Char
  phrases : List (List Char)
  terms : List (List Char)
  allStopwords : Bool

/-- ` AND `. -/
def andOp : List Char := [' ', 'A', 'N', 'D', ' ']

/-- ` OR `. -/
def orOp : List Char := [' ', 'O', 'R', ' ']

/-- The terms that `plan_fts_query` takes from what is left of a query: its tokens
without the stopwords, unless there are none but stopwords. -/
def termsOf (rest : List Char) : List (List Char) :=
  let tokens := tokenize u rest
  let content := tokens.filter (· ∉ stopwords)
  (dedup (if content = [] ∧ tokens ≠ [] then tokens else content)).take maxTerms

/-- `all_stopwords`. -/
def allStopwords (rest : List Char) : Bool :=
  tokenize u rest ≠ [] && (tokenize u rest).all (· ∈ stopwords)

/-- `plan_fts_query`. -/
def planFtsQuery (raw : List Char) : Option FtsPlan :=
  let r := extractPhrases u none raw
  let terms := termsOf u r.2
  if terms = [] ∧ r.1 = [] then none
  else some {
    andMatch := andOp.intercalate (r.1.map quote ++ terms.map quote)
    orMatch := orOp.intercalate (r.1.map quote ++ terms.map orPart)
    phrases := r.1
    terms := terms
    allStopwords := allStopwords u r.2 }

end plan

/-! ### Reading a match -/

/-- The rest of a literal whose quote is open, and what comes after it. -/
def readLiteral : List Char → Option (List Char × List Char)
  | [] => none
  | [c] => if c = '"' then some ([], []) else none
  | c :: d :: cs =>
    if c = '"' then
      if d = '"' then (readLiteral cs).map fun r => ('"' :: r.1, r.2) else some ([], d :: cs)
    else (readLiteral (d :: cs)).map fun r => (c :: r.1, r.2)

/-- A literal, whether a `*` follows it, and what comes then. -/
def readPart : List Char → Option ((List Char × Bool) × List Char)
  | '"' :: cs => (readLiteral cs).map fun r =>
    match r.2 with
    | '*' :: rest => ((r.1, true), rest)
    | rest => ((r.1, false), rest)
  | _ => none

/-- The text is literals joined by an operator. -/
inductive Literals (op : List Char) : List Char → List (List Char × Bool) → Prop
  | last {text part} (h : readPart text = some (part, [])) : Literals op text [part]
  | more {text part rest parts} (h : readPart text = some (part, op ++ rest))
      (hrest : Literals op rest parts) : Literals op text (part :: parts)

/-- A part as it is written. -/
def writePart (part : List Char × Bool) : List Char :=
  quote part.1 ++ if part.2 then ['*'] else []

theorem readLiteral_doubled {rest : List Char} (hrest : rest.head? ≠ some '"') (t : List Char) :
    readLiteral (doubled t ++ '"' :: rest) = some (t, rest) := by
  induction t with
  | nil =>
    cases rest with
    | nil => rfl
    | cons d rest =>
      have hd : d ≠ '"' := fun h => hrest (congrArg some h)
      show readLiteral ('"' :: d :: rest) = _
      rw [readLiteral, if_pos rfl, if_neg hd]
  | cons c t ih =>
    unfold doubled
    split_ifs with hc
    · rw [List.cons_append, List.cons_append, readLiteral, if_pos rfl, if_pos rfl, ih, hc]
      rfl
    · obtain ⟨d, cs, hcs⟩ : ∃ d cs, doubled t ++ '"' :: rest = d :: cs :=
        List.exists_cons_of_ne_nil (by simp)
      rw [hcs] at ih
      rw [List.cons_append, hcs, readLiteral, if_neg hc, ih]
      rfl

/-- A part reads back, before anything that does not go on with it. -/
theorem readPart_writePart {rest : List Char} (hquote : rest.head? ≠ some '"')
    (hstar : rest.head? ≠ some '*') (part : List Char × Bool) :
    readPart (writePart part ++ rest) = some (part, rest) := by
  obtain ⟨t, star⟩ := part
  unfold writePart quote
  cases star with
  | true =>
    have hlit := @readLiteral_doubled ('*' :: rest) (by simp) t
    simp only [if_true, List.cons_append, List.append_assoc, List.nil_append, readPart, hlit,
      Option.map_some]
  | false =>
    have hlit := readLiteral_doubled hquote t
    simp only [Bool.false_eq_true, if_false, List.append_nil, List.cons_append, List.append_assoc,
      List.nil_append, readPart, hlit, Option.map_some]
    split
    · exact absurd rfl hstar
    · rfl

/-- **Parts that are joined read back**, whatever is in them. -/
theorem literals_joined {op : List Char} (hop : ∃ c cs, op = c :: cs ∧ c ≠ '"' ∧ c ≠ '*') :
    ∀ {parts : List (List Char × Bool)}, parts ≠ [] →
      Literals op (op.intercalate (parts.map writePart)) parts := by
  intro parts hne
  obtain ⟨c, cs, rfl, hquote, hstar⟩ := hop
  induction parts with
  | nil => exact absurd rfl hne
  | cons part parts ih =>
    cases parts with
    | nil =>
      apply Literals.last
      have hread := @readPart_writePart [] (by decide) (by decide) part
      rw [List.map_singleton, List.intercalate_singleton]
      rwa [List.append_nil] at hread
    | cons part' parts =>
      rw [List.map_cons, List.map_cons, List.intercalate_cons_cons, ← List.map_cons]
      refine Literals.more ?_ (ih (List.cons_ne_nil _ _))
      rw [List.append_assoc]
      apply readPart_writePart
      · exact fun h => hquote (Option.some.inj h)
      · exact fun h => hstar (Option.some.inj h)

/-! ### Equal neighbours -/

theorem mem_dedup {t : List Char} : ∀ {ts : List (List Char)}, t ∈ dedup ts ↔ t ∈ ts
  | [] => Iff.rfl
  | [_] => Iff.rfl
  | a :: b :: ts => by
    unfold dedup
    split_ifs with h
    · rw [mem_dedup, h]
      simp
    · rw [List.mem_cons, mem_dedup, List.mem_cons (a := t) (b := a)]

theorem length_dedup_le : ∀ ts : List (List Char), (dedup ts).length ≤ ts.length
  | [] => le_rfl
  | [_] => le_rfl
  | a :: b :: ts => by
    have ih := length_dedup_le (b :: ts)
    unfold dedup
    split_ifs
    · exact ih.trans (Nat.le_succ _)
    · exact Nat.succ_le_succ ih

/-! ### The words of a query -/

/-- What is relied on of Unicode's tables: a quote and a space are in no word, and
end what decides over the lower case of a letter. -/
structure Spaced (u : Unicode) : Prop where
  lower_nil : lower u [] = []
  lower_sep : ∀ a c b, c = '"' ∨ isWhitespace c = true →
    lower u (a ++ c :: b) = lower u a ++ c :: lower u b
  sep : ∀ c, c = '"' ∨ isWhitespace c = true → u.isAlphanumeric c = false
  token : ∀ c, isToken c = true → u.isAlphanumeric c = false

section words

variable (u : Unicode)

/-- The words of the raw query. -/
def words (raw : List Char) : List (List Char) := cut u (lower u raw)

/-- Its content words. -/
def contentWords (raw : List Char) : List (List Char) :=
  (words u raw).filter fun w => w ∉ stopwords && !loneLetter w

/-- The two texts read back, and the terms are words of the query. -/
structure Sound (raw : List Char) (plan : FtsPlan) : Prop where
  andMatch : Literals andOp plan.andMatch ((plan.phrases ++ plan.terms).map (·, false))
  orMatch : Literals orOp plan.orMatch (plan.phrases.map (·, false) ++
    plan.terms.map fun t => (t, decide (minPrefixLen ≤ t.length)))
  terms : ∀ t ∈ plan.terms, t ∈ words u raw

/-- Planning is sound, and loses none of up to twelve content words. -/
structure Conserves (raw : List Char) : Prop where
  sound : ∀ plan, planFtsQuery u raw = some plan → Sound u raw plan
  covers : (contentWords u raw).length ≤ maxTerms → ∀ w ∈ contentWords u raw,
    ∃ plan, planFtsQuery u raw = some plan ∧ (w ∈ plan.terms ∨ ∃ p ∈ plan.phrases, w ∈ cut u p)

/-- The characters of words that a text ends with. -/
def lastRun (t : List Char) : List Char := t.rtakeWhile (inWord u)

/-- Those that it starts with. -/
def firstRun (t : List Char) : List Char := t.takeWhile (inWord u)

/-- No word is made where the run `r` meets the run `s`: one of them is empty or
has no letter, and `r` does not stand before the dashes of a flag, or make them. -/
def Unmerged (r s : List Char) : Prop :=
  r = [] ∨ s.any u.isAlphanumeric = false ∨
    r.any u.isAlphanumeric = false ∧ ¬ ['-', '-'] <+: r ++ s ∧ ¬ ['-', '-'] <+: s

/-- Joining the two changes no letter's lower case and makes no word. -/
def Apart (a b : List Char) : Prop :=
  lower u (a ++ b) = lower u a ++ lower u b ∧
    Unmerged u (lastRun u (lower u a)) (firstRun u (lower u b))

/-- The pieces of a raw query, cut at each quote, that are outside the phrases, from
outside a quote or from inside one; the last, where its quote is not closed,
trimmed. -/
def outside : Bool → List (List Char) → List (List Char)
  | false, s :: ss => s :: outside true ss
  | true, [s] => [trimText s]
  | true, _ :: ss => outside false ss
  | _, [] => []

/-- The pieces that are phrases. -/
def phrasesOf : Bool → List (List Char) → List (List Char)
  | false, _ :: ss => phrasesOf true ss
  | true, [_] => []
  | true, s :: ss =>
    if trimText s ≠ [] then lower u (trimText s) :: phrasesOf false ss else phrasesOf false ss
  | _, [] => []

/-- The pieces do not meet in a word, after what was before. -/
def UngluedFrom (before : List Char) : List (List Char) → Prop
  | [] => True
  | p :: ps => Apart u before p ∧ UngluedFrom (before ++ p) ps

/-- What is left of a query, where the phrases were, does not meet in a word. -/
def Unglued (raw : List Char) : Prop :=
  match outside false (raw.splitOn '"') with
  | [] => True
  | p :: ps => UngluedFrom u p ps

end words

/-! ### Tokens -/

section cutting

variable {u : Unicode}

theorem inWord_sep (hu : Spaced u) {c : Char} (hc : c = '"' ∨ isWhitespace c = true) :
    inWord u c = false := by
  have htoken : isToken c = false := by
    rcases hc with rfl | hc
    · rfl
    · have hspace : tokenChars.all (fun d => !isWhitespace d) = true := by decide
      by_contra hmem
      have hnot := List.all_eq_true.mp hspace c (of_decide_eq_true (Bool.not_eq_false _ ▸ hmem))
      rw [hc] at hnot
      cases hnot
  unfold inWord
  rw [hu.sep c hc, htoken]
  rfl

/-- A text is cut at what is in no word. -/
theorem cut_sep {c : Char} (hc : inWord u c = false) (a b : List Char) :
    cut u (a ++ c :: b) = cut u a ++ cut u b := by
  unfold cut
  rw [List.splitOnP_append_cons a b (by simp [hc]), List.map_append, List.filter_append]

/-- A text within a word. -/
theorem cut_run {t : List Char} (ht : ∀ c ∈ t, inWord u c = true) :
    cut u t = [clean u t].filter fun t => t.any u.isAlphanumeric := by
  unfold cut
  rw [List.splitOnP_eq_singleton fun c hc => by simp [ht c hc]]
  rfl

theorem cut_nil : cut u [] = [] := by
  rw [cut_run fun _ h => absurd h List.not_mem_nil]
  simp [clean, trimEnd]

/-- What is before a text's last run is cut by itself. -/
theorem cut_before (a : List Char) : ∃ a₁ ws, a = a₁ ++ lastRun u a ∧
    ∀ t, cut u (a₁ ++ t) = ws ++ cut u t := by
  refine ⟨a.rdropWhile (inWord u), ?_⟩
  rcases List.eq_nil_or_concat (a.rdropWhile (inWord u)) with hnil | ⟨a₂, c, hc⟩
  · refine ⟨[], List.rdropWhile_append_rtakeWhile.symm, fun t => ?_⟩
    rw [hnil, List.nil_append, List.nil_append]
  · refine ⟨cut u a₂, List.rdropWhile_append_rtakeWhile.symm, fun t => ?_⟩
    have hout : inWord u c = false := by
      have hlast := List.rdropWhile_last_not (inWord u) a (by simp [hc])
      simpa [hc] using hlast
    rw [hc, List.concat_eq_append, List.append_assoc]
    exact cut_sep hout a₂ t

/-- What is after a text's first run is. -/
theorem cut_after (b : List Char) : ∃ b₁ ws, b = firstRun u b ++ b₁ ∧
    ∀ t, cut u (t ++ b₁) = cut u t ++ ws := by
  refine ⟨b.dropWhile (inWord u), ?_⟩
  cases hdrop : b.dropWhile (inWord u) with
  | nil =>
    refine ⟨[], ?_, fun t => ?_⟩
    · rw [← hdrop]
      exact List.takeWhile_append_dropWhile.symm
    · rw [List.append_nil, List.append_nil]
  | cons c b₂ =>
    have hout : inWord u c = false := by
      have hhead := List.head?_dropWhile_not (inWord u) b
      rw [hdrop] at hhead
      simpa using hhead
    refine ⟨cut u b₂, ?_, fun t => cut_sep hout t b₂⟩
    rw [← hdrop]
    exact List.takeWhile_append_dropWhile.symm

/-! ### Where two texts meet -/

theorem isToken_of_inWord {c : Char} (hc : inWord u c = true) (hletter : u.isAlphanumeric c = false) :
    isToken c = true := by
  unfold inWord at hc
  simpa [hletter] using hc

/-- What is without a letter is trimmed. -/
theorem all_isToken {t : List Char} (ht : ∀ c ∈ t, inWord u c = true)
    (hletter : t.any u.isAlphanumeric = false) : ∀ c ∈ t, isToken c = true := by
  intro c hc
  have hnot : u.isAlphanumeric c = false := by
    rw [List.any_eq_false] at hletter
    simpa using hletter c hc
  exact isToken_of_inWord (ht c hc) hnot

theorem trimEnd_append {t : List Char} (ht : ∀ c ∈ t, isToken c = true)
    (s : List Char) : trimEnd (s ++ t) = trimEnd s := by
  unfold trimEnd List.rdropWhile
  rw [List.reverse_append, List.dropWhile_append_of_pos fun c hc => ht c (List.mem_reverse.mp hc)]

/-- Trimming keeps the letters. -/
theorem countP_trimEnd (hu : Spaced u) (t : List Char) :
    (trimEnd t).countP u.isAlphanumeric = t.countP u.isAlphanumeric := by
  unfold trimEnd
  conv_rhs => rw [← @List.rdropWhile_append_rtakeWhile _ isToken t]
  rw [List.countP_append]
  have hnone : (t.rtakeWhile isToken).countP u.isAlphanumeric = 0 := by
    rw [List.countP_eq_zero]
    intro c hc
    rw [hu.token c (List.mem_rtakeWhile_imp hc)]
    exact Bool.false_ne_true
  rw [hnone, Nat.add_zero]

theorem countP_dropWhile (hu : Spaced u) (t : List Char) :
    (t.dropWhile isToken).countP u.isAlphanumeric = t.countP u.isAlphanumeric := by
  conv_rhs => rw [← @List.takeWhile_append_dropWhile _ isToken t]
  rw [List.countP_append]
  have hnone : (t.takeWhile isToken).countP u.isAlphanumeric = 0 := by
    rw [List.countP_eq_zero]
    intro c hc
    rw [hu.token c (List.mem_takeWhile_imp hc)]
    exact Bool.false_ne_true
  rw [hnone, Nat.zero_add]

theorem countP_clean (hu : Spaced u) (t : List Char) :
    (clean u t).countP u.isAlphanumeric = t.countP u.isAlphanumeric := by
  unfold clean
  split_ifs
  · exact countP_trimEnd hu t
  · rw [countP_trimEnd hu, countP_dropWhile hu]

theorem any_clean (hu : Spaced u) (t : List Char) :
    (clean u t).any u.isAlphanumeric = t.any u.isAlphanumeric := by
  rw [Bool.eq_iff_iff, List.any_eq_true, List.any_eq_true, ← List.countP_pos_iff,
    ← List.countP_pos_iff, countP_clean hu]

/-- A run is one token if there is a letter in it, and none else. -/
theorem cut_run_eq (hu : Spaced u) {t : List Char} (ht : ∀ c ∈ t, inWord u c = true) :
    cut u t = bif t.any u.isAlphanumeric then [clean u t] else [] := by
  rw [cut_run ht, List.filter_singleton, any_clean hu]

/-- Token characters after a run with a letter are trimmed from it. -/
theorem clean_append (hu : Spaced u) {r s : List Char} (hr : r.any u.isAlphanumeric = true)
    (hs : ∀ c ∈ s, isToken c = true) : clean u (r ++ s) = clean u r := by
  obtain ⟨x, hx, hletter⟩ := List.any_eq_true.mp hr
  have hxt : isToken x = false := by
    by_contra h
    rw [hu.token x (Bool.not_eq_false _ ▸ h)] at hletter
    cases hletter
  have hdash : ['-', '-'] <+: r ++ s ↔ ['-', '-'] <+: r := by
    match r with
    | [] => exact absurd hx List.not_mem_nil
    | [a] =>
      obtain rfl := List.mem_singleton.mp hx
      have hne : x ≠ '-' := by
        rintro rfl
        cases hxt
      simp [List.cons_prefix_cons, hne.symm]
    | a :: b :: r => simp [List.cons_prefix_cons]
  have hany : (r ++ s).any u.isAlphanumeric = true := by rw [List.any_append, hr, Bool.true_or]
  have hdrop : (r ++ s).dropWhile isToken = r.dropWhile isToken ++ s := by
    rw [List.dropWhile_append, if_neg]
    intro hempty
    have hall := List.dropWhile_eq_nil_iff.mp (List.isEmpty_iff.mp hempty) x hx
    rw [hxt] at hall
    cases hall
  unfold clean
  simp only [hdash, hany, hr, hdrop, trimEnd_append hs]

/-- Two runs that make no word where they meet are cut as by themselves. -/
theorem cut_runs (hu : Spaced u) {r s : List Char} (hr : ∀ c ∈ r, inWord u c = true)
    (hs : ∀ c ∈ s, inWord u c = true) (h : Unmerged u r s) :
    cut u (r ++ s) = cut u r ++ cut u s := by
  have hrs : ∀ c ∈ r ++ s, inWord u c = true := fun c hc =>
    (List.mem_append.mp hc).elim (hr c) (hs c)
  rcases h with rfl | hnone | ⟨hnone, hmade, hflag⟩
  · rw [List.nil_append, cut_nil, List.nil_append]
  · rw [cut_run_eq hu hrs, cut_run_eq hu hr, cut_run_eq hu hs, List.any_append, hnone, Bool.or_false]
    cases hletter : r.any u.isAlphanumeric with
    | false => rfl
    | true =>
      rw [clean_append hu hletter (all_isToken hs hnone)]
      rfl
  · have hclean : clean u (r ++ s) = clean u s := by
      unfold clean
      rw [if_neg fun h => hmade h.1, if_neg fun h => hflag h.1,
        List.dropWhile_append_of_pos (all_isToken hr hnone)]
    rw [cut_run_eq hu hrs, cut_run_eq hu hr, cut_run_eq hu hs, List.any_append, hnone, Bool.false_or,
      hclean]
    rfl

/-- **Two texts that make no word where they meet** are cut as by themselves. -/
theorem cut_append (hu : Spaced u) {a b : List Char} (h : Unmerged u (lastRun u a) (firstRun u b)) :
    cut u (a ++ b) = cut u a ++ cut u b := by
  obtain ⟨a₁, ws, ha, hbefore⟩ := @cut_before u a
  obtain ⟨b₁, ws', hb, hafter⟩ := @cut_after u b
  have hr : ∀ c ∈ lastRun u a, inWord u c = true := fun c hc => List.mem_rtakeWhile_imp hc
  have hs : ∀ c ∈ firstRun u b, inWord u c = true := fun c hc => List.mem_takeWhile_imp hc
  calc cut u (a ++ b) = cut u (a₁ ++ ((lastRun u a ++ firstRun u b) ++ b₁)) := by
        conv_lhs => rw [ha, hb]
        simp only [List.append_assoc]
    _ = ws ++ (cut u (lastRun u a) ++ cut u (firstRun u b) ++ ws') := by
        rw [hbefore, hafter, cut_runs hu hr hs h]
    _ = (ws ++ cut u (lastRun u a)) ++ (cut u (firstRun u b) ++ ws') := by
        simp only [List.append_assoc]
    _ = cut u a ++ cut u b := by
        rw [← hbefore, ← hafter, ← ha, ← hb]

/-! ### The pieces of a query -/

theorem words_nil (hu : Spaced u) : words u [] = [] := by
  unfold words
  rw [hu.lower_nil, cut_nil]

/-- A query is cut at a quote, and at a space. -/
theorem words_sep (hu : Spaced u) {c : Char} (hc : c = '"' ∨ isWhitespace c = true)
    (a b : List Char) : words u (a ++ c :: b) = words u a ++ words u b := by
  unfold words
  rw [hu.lower_sep a c b hc, cut_sep (inWord_sep hu hc)]

/-- Trimming takes no word away. -/
theorem words_trimText (hu : Spaced u) (t : List Char) : words u (trimText t) = words u t := by
  have hstart : ∀ t : List Char, words u (t.dropWhile isWhitespace) = words u t := by
    intro t
    induction t with
    | nil => rfl
    | cons c t ih =>
      rw [List.dropWhile_cons]
      split_ifs with hc
      · have hsep := words_sep hu (.inr hc) [] t
        rw [ih, ← List.nil_append (c :: t), hsep, words_nil hu, List.nil_append]
      · rfl
  have hend : ∀ t : List Char, words u (t.rdropWhile isWhitespace) = words u t := by
    intro t
    induction t using List.reverseRecOn with
    | nil => rfl
    | append_singleton t c ih =>
      rw [List.rdropWhile_concat]
      split_ifs with hc
      · rw [ih, words_sep hu (.inr hc) t [], words_nil hu, List.append_nil]
      · rfl
  unfold trimText
  rw [hend, hstart]

/-- **The loop of `extract_phrases`** takes the pieces between the quotes, every
second one as a phrase. -/
theorem extractPhrases_eq (cs : List Char) :
    extractPhrases u none cs =
      (phrasesOf u false (cs.splitOn '"'), (outside false (cs.splitOn '"')).flatten) ∧
    ∀ phrase, extractPhrases u (some phrase) cs =
      (phrasesOf u true ((cs.splitOn '"').modifyHead (phrase ++ ·)),
        (outside true ((cs.splitOn '"').modifyHead (phrase ++ ·))).flatten) := by
  induction cs with
  | nil => exact ⟨rfl, fun phrase => by simp [extractPhrases, outside, phrasesOf]⟩
  | cons c cs ih =>
    obtain ⟨hout, hin⟩ := ih
    obtain ⟨s, ss, hss⟩ := List.exists_cons_of_ne_nil (List.splitOn_ne_nil '"' cs)
    rw [hss] at hout hin
    rw [List.splitOn_cons_eq_if_modifyHead, hss]
    by_cases hc : c = '"'
    · rw [if_pos (by simp [hc])]
      refine ⟨?_, fun phrase => ?_⟩
      · have hopen := hin []
        rw [extractPhrases, if_pos hc, hopen]
        rfl
      · rw [extractPhrases, if_pos hc, hout]
        simp only [List.modifyHead_cons, List.append_nil, phrasesOf, outside]
        split_ifs with htrim
        · rfl
        · rw [not_not] at htrim
          rw [htrim]
          rfl
    · rw [if_neg (by simp [hc])]
      refine ⟨?_, fun phrase => ?_⟩
      · rw [extractPhrases, if_neg hc, hout]
        rfl
      · rw [extractPhrases, if_neg hc, hin]
        simp

/-- The words of a query are those of its pieces. -/
theorem words_splitOn (hu : Spaced u) (raw : List Char) :
    words u raw = (raw.splitOn '"').flatMap (words u) := by
  have hjoined : ∀ ss : List (List Char), ss ≠ [] →
      words u (['"'].intercalate ss) = ss.flatMap (words u) := by
    intro ss hne
    induction ss with
    | nil => exact absurd rfl hne
    | cons s ss ih =>
      cases ss with
      | nil => simp
      | cons s' ss =>
        rw [List.intercalate_cons_cons, List.append_assoc, List.singleton_append,
          words_sep hu (.inl rfl), ih (List.cons_ne_nil _ _)]
        exact List.flatMap_cons.symm
  calc words u raw = words u (['"'].intercalate (raw.splitOn '"')) := by
        rw [List.intercalate_splitOn]
    _ = (raw.splitOn '"').flatMap (words u) := hjoined _ (List.splitOn_ne_nil _ _)

theorem words_outside_sublist (hu : Spaced u) : ∀ (inside : Bool) (ss : List (List Char)),
    ((outside inside ss).flatMap (words u)).Sublist (ss.flatMap (words u))
  | false, [] => List.Sublist.refl _
  | true, [] => List.Sublist.refl _
  | false, s :: ss => by
    unfold outside
    rw [List.flatMap_cons, List.flatMap_cons]
    exact (List.Sublist.refl _).append (words_outside_sublist hu true ss)
  | true, [s] => by
    unfold outside
    rw [List.flatMap_singleton, List.flatMap_singleton, words_trimText hu]
  | true, s :: s' :: ss => by
    unfold outside
    rw [List.flatMap_cons]
    exact (words_outside_sublist hu false (s' :: ss)).trans (List.sublist_append_right _ _)

/-- A word of a piece is outside the phrases, or in one. -/
theorem mem_outside_or_phrase (hu : Spaced u) {w : List Char} :
    ∀ (inside : Bool) (ss : List (List Char)), w ∈ ss.flatMap (words u) →
      w ∈ (outside inside ss).flatMap (words u) ∨ ∃ p ∈ phrasesOf u inside ss, w ∈ cut u p
  | _, [], hw => absurd hw List.not_mem_nil
  | false, s :: ss, hw => by
    unfold outside phrasesOf
    rw [List.flatMap_cons, List.mem_append] at hw ⊢
    rcases hw with hw | hw
    · exact .inl (.inl hw)
    · exact (mem_outside_or_phrase hu true ss hw).imp .inr id
  | true, [s], hw => by
    unfold outside
    rw [List.flatMap_singleton] at hw ⊢
    rw [words_trimText hu]
    exact .inl hw
  | true, s :: s' :: ss, hw => by
    unfold outside phrasesOf
    rw [List.flatMap_cons, List.mem_append] at hw
    rcases hw with hw | hw
    · rw [← words_trimText hu] at hw
      right
      split_ifs with htrim
      · exact ⟨_, List.mem_cons_self, hw⟩
      · rw [not_not] at htrim
        rw [htrim, words_nil hu] at hw
        exact absurd hw List.not_mem_nil
    · refine (mem_outside_or_phrase hu false (s' :: ss) hw).imp id ?_
      rintro ⟨p, hp, hin⟩
      split_ifs
      · exact ⟨p, List.mem_cons_of_mem _ hp, hin⟩
      · exact ⟨p, hp, hin⟩

theorem words_unglued (hu : Spaced u) : ∀ (ps : List (List Char)) (before : List Char),
    UngluedFrom u before ps → words u (before ++ ps.flatten) = words u before ++ ps.flatMap (words u)
  | [], before, _ => by simp
  | p :: ps, before, ⟨hapart, hrest⟩ => by
    have hmeet : words u (before ++ p) = words u before ++ words u p := by
      unfold words
      rw [hapart.1, cut_append hu hapart.2]
    rw [List.flatten_cons, ← List.append_assoc, words_unglued hu ps _ hrest, hmeet, List.flatMap_cons,
      List.append_assoc]

/-- **What is left of a query** has the words of the pieces outside its phrases, where
no two words meet. -/
theorem words_left (hu : Spaced u) {raw : List Char} (h : Unglued u raw) :
    words u (extractPhrases u none raw).2 =
      (outside false (raw.splitOn '"')).flatMap (words u) := by
  rw [(extractPhrases_eq raw).1]
  unfold Unglued at h
  cases hpieces : outside false (raw.splitOn '"') with
  | nil => exact words_nil hu
  | cons p ps =>
    rw [hpieces] at h
    rw [List.flatten_cons, words_unglued hu ps p h, List.flatMap_cons]

/-! ### The plan of a query -/

/-- The tokens of a text are its words, or those that are no lone letters. -/
theorem mem_words_of_tokenize {t raw : List Char} (ht : t ∈ tokenize u raw) : t ∈ words u raw := by
  unfold tokenize at ht
  dsimp only at ht
  split_ifs at ht
  · exact ht
  · exact List.mem_of_mem_filter ht

/-- Where there is a content word, the content of the tokens is the content words. -/
theorem content_tokenize {w raw : List Char} (hw : w ∈ contentWords u raw) :
    (tokenize u raw).filter (· ∉ stopwords) = contentWords u raw := by
  have hkept : ((words u raw).filter fun t => !loneLetter t) ≠ [] := by
    unfold contentWords at hw
    obtain ⟨hmem, hcontent⟩ := List.mem_filter.mp hw
    rw [Bool.and_eq_true] at hcontent
    exact List.ne_nil_of_mem (List.mem_filter.mpr ⟨hmem, hcontent.2⟩)
  have htokens : tokenize u raw = (words u raw).filter fun t => !loneLetter t := if_neg hkept
  rw [htokens, List.filter_filter]
  rfl

theorem orPart_eq (t : List Char) : orPart t = writePart (t, decide (minPrefixLen ≤ t.length)) := by
  unfold orPart writePart
  by_cases h : minPrefixLen ≤ t.length
  · simp [h]
  · simp [h]

theorem quote_eq (t : List Char) : quote t = writePart (t, false) := by
  unfold writePart
  simp

/-- What `plan_fts_query` gives. -/
theorem planFtsQuery_eq_some {raw : List Char} {plan : FtsPlan}
    (h : planFtsQuery u raw = some plan) :
    plan.phrases = (extractPhrases u none raw).1 ∧
    plan.terms = termsOf u (extractPhrases u none raw).2 ∧
    plan.phrases ++ plan.terms ≠ [] ∧
    plan.andMatch = andOp.intercalate (plan.phrases.map quote ++ plan.terms.map quote) ∧
    plan.orMatch = orOp.intercalate (plan.phrases.map quote ++ plan.terms.map orPart) := by
  unfold planFtsQuery at h
  dsimp only at h
  split_ifs at h with hempty
  obtain rfl := Option.some.inj h
  refine ⟨rfl, rfl, fun hnil => ?_, rfl, rfl⟩
  obtain ⟨hphrases, hterms⟩ := List.append_eq_nil_iff.mp hnil
  exact hempty ⟨hterms, hphrases⟩

theorem mem_words_of_termsOf {t rest : List Char} (ht : t ∈ termsOf u rest) : t ∈ words u rest := by
  unfold termsOf at ht
  have ht := mem_dedup.mp (List.mem_of_mem_take ht)
  split_ifs at ht
  · exact mem_words_of_tokenize ht
  · exact mem_words_of_tokenize (List.mem_of_mem_filter ht)

/-- Of up to twelve content words none is lost. -/
theorem mem_termsOf {w rest : List Char} (hw : w ∈ contentWords u rest)
    (hfew : (contentWords u rest).length ≤ maxTerms) : w ∈ termsOf u rest := by
  unfold termsOf
  dsimp only
  rw [content_tokenize hw, if_neg fun h => List.ne_nil_of_mem hw h.1,
    List.take_of_length_le ((length_dedup_le _).trans hfew)]
  exact mem_dedup.mpr hw

/-- **No query injects syntax**: the two texts read back as the phrases and terms. -/
theorem literals_of_plan {raw : List Char} {plan : FtsPlan} (h : planFtsQuery u raw = some plan) :
    Literals andOp plan.andMatch ((plan.phrases ++ plan.terms).map (·, false)) ∧
    Literals orOp plan.orMatch (plan.phrases.map (·, false) ++
      plan.terms.map fun t => (t, decide (minPrefixLen ≤ t.length))) := by
  obtain ⟨-, -, hne, hand, hor⟩ := planFtsQuery_eq_some h
  have hquote : quote = writePart ∘ (·, false) := funext quote_eq
  have horPart : orPart = writePart ∘ fun t => (t, decide (minPrefixLen ≤ t.length)) :=
    funext orPart_eq
  constructor
  · rw [hand, hquote, ← List.map_append, ← List.map_map]
    apply literals_joined ⟨_, _, rfl, by decide, by decide⟩
    simpa using hne
  · rw [hor, hquote, horPart, ← List.map_map, ← List.map_map, ← List.map_append]
    apply literals_joined ⟨_, _, rfl, by decide, by decide⟩
    simpa using hne

/-- The content words of what is left are content words of the query. -/
theorem contentWords_left_sublist (hu : Spaced u) {raw : List Char} (h : Unglued u raw) :
    (contentWords u (extractPhrases u none raw).2).Sublist (contentWords u raw) := by
  unfold contentWords
  rw [words_left hu h, words_splitOn hu raw]
  exact (words_outside_sublist hu false _).filter _

/-- **Planning conserves the words of a query** in which no two words meet where a
phrase or a quote was. -/
theorem planFtsQuery_conserves (hu : Spaced u) {raw : List Char} (h : Unglued u raw) :
    Conserves u raw where
  sound := by
    intro plan hplan
    obtain ⟨-, hterms, -⟩ := planFtsQuery_eq_some hplan
    obtain ⟨hand, hor⟩ := literals_of_plan hplan
    refine ⟨hand, hor, fun t ht => ?_⟩
    rw [hterms] at ht
    have hleft := mem_words_of_termsOf ht
    rw [words_left hu h] at hleft
    rw [words_splitOn hu raw]
    exact (words_outside_sublist hu false _).subset hleft
  covers := by
    intro hfew w hw
    obtain ⟨hword, hcontent⟩ := List.mem_filter.mp hw
    have hfewLeft := (contentWords_left_sublist hu h).length_le.trans hfew
    have hfound : w ∈ termsOf u (extractPhrases u none raw).2 ∨
        ∃ p ∈ (extractPhrases u none raw).1, w ∈ cut u p := by
      rw [words_splitOn hu raw] at hword
      rcases mem_outside_or_phrase hu false _ hword with hout | hphrase
      · rw [← words_left hu h] at hout
        exact .inl (mem_termsOf (List.mem_filter.mpr ⟨hout, hcontent⟩) hfewLeft)
      · rw [(extractPhrases_eq raw).1]
        exact .inr hphrase
    have hsome : ¬ (termsOf u (extractPhrases u none raw).2 = [] ∧
        (extractPhrases u none raw).1 = []) := by
      rintro ⟨hterms, hphrases⟩
      rw [hterms, hphrases] at hfound
      simp at hfound
    exact ⟨_, if_neg hsome, hfound⟩

/-- **Two words that meet at a quote become one**, which is no word of the query. -/
theorem glued (hu : Spaced u) {a b : List Char} (hquotes : '"' ∉ a ∧ '"' ∉ b)
    (htrim : trimText b = b) (hlower : lower u (a ++ b) = lower u a ++ lower u b)
    (hruns : ∀ c ∈ lower u a ++ lower u b, inWord u c = true)
    (ha : (lower u a).any u.isAlphanumeric = true) (hb : (lower u b).any u.isAlphanumeric = true)
    (hcontent : clean u (lower u a ++ lower u b) ∉ stopwords) : ¬ Conserves u (a ++ '"' :: b) := by
  have hrunA : ∀ c ∈ lower u a, inWord u c = true := fun c hc => hruns c (List.mem_append_left _ hc)
  have hrunB : ∀ c ∈ lower u b, inWord u c = true := fun c hc => hruns c (List.mem_append_right _ hc)
  have hsplit : (a ++ '"' :: b).splitOn '"' = [a, b] := by
    rw [List.splitOn_append_cons_self, List.splitOn_eq_singleton hquotes.1,
      List.splitOn_eq_singleton hquotes.2]
    rfl
  have hextract : extractPhrases u none (a ++ '"' :: b) = ([], a ++ b) := by
    rw [(extractPhrases_eq _).1, hsplit]
    simp [phrasesOf, outside, htrim]
  have hword : words u (a ++ b) = [clean u (lower u a ++ lower u b)] := by
    unfold words
    rw [hlower, cut_run_eq hu hruns, List.any_append, ha]
    rfl
  have htokens : tokenize u (a ++ b) = [clean u (lower u a ++ lower u b)] := by
    unfold tokenize
    show (if (words u (a ++ b)).filter _ = [] then words u (a ++ b) else
      (words u (a ++ b)).filter _) = _
    rw [hword]
    split_ifs with hkept
    · rfl
    · rw [List.filter_singleton] at hkept ⊢
      cases hlone : !loneLetter (clean u (lower u a ++ lower u b)) with
      | true => rfl
      | false =>
        rw [hlone] at hkept
        exact absurd rfl hkept
  have hterms : termsOf u (a ++ b) = [clean u (lower u a ++ lower u b)] := by
    unfold termsOf
    dsimp only
    rw [htokens, List.filter_singleton, decide_eq_true hcontent]
    rfl
  intro h
  have hplan : ∃ plan, planFtsQuery u (a ++ '"' :: b) = some plan ∧
      plan.terms = [clean u (lower u a ++ lower u b)] := by
    refine ⟨_, if_neg ?_, ?_⟩
    · rw [hextract, hterms]
      exact fun hnil => List.cons_ne_nil _ _ hnil.1
    · rw [hextract, hterms]
  obtain ⟨plan, hplan, hone⟩ := hplan
  have hmem := (h.sound plan hplan).terms (clean u (lower u a ++ lower u b))
    (hone ▸ List.mem_singleton_self _)
  rw [words_sep hu (.inl rfl)] at hmem
  unfold words at hmem
  rw [cut_run_eq hu hrunA, cut_run_eq hu hrunB, ha, hb] at hmem
  have hposA := List.countP_pos_iff.mpr (List.any_eq_true.mp ha)
  have hposB := List.countP_pos_iff.mpr (List.any_eq_true.mp hb)
  have hcount := countP_clean hu (lower u a ++ lower u b)
  rw [List.countP_append] at hcount
  rcases List.mem_append.mp hmem with hmem | hmem
  · rw [List.mem_singleton.mp hmem, countP_clean hu] at hcount
    omega
  · rw [List.mem_singleton.mp hmem, countP_clean hu] at hcount
    omega

end cutting

/-! ### A phrase, and a quote that is not closed -/

theorem lower_ascii (t : List Char) : lower Unicode.ascii t = t.map Char.toLower := by
  unfold lower Unicode.ascii
  rw [String.toList_ofList, String.toList_ofList]

/-- A quote or a space is no ASCII letter or digit. -/
theorem ascii_sep {c : Char} (hc : c = '"' ∨ isWhitespace c = true) :
    c.isUpper = false ∧ c.isAlphanum = false := by
  have hcode : ¬ (65 ≤ c.toNat ∧ c.toNat ≤ 90) ∧ ¬ (97 ≤ c.toNat ∧ c.toNat ≤ 122) ∧
      ¬ (48 ≤ c.toNat ∧ c.toNat ≤ 57) := by
    rcases hc with rfl | hc
    · decide
    · unfold isWhitespace at hc
      simp only [Bool.or_eq_true, Bool.and_eq_true, decide_eq_true_eq, List.mem_cons,
        List.not_mem_nil, or_false] at hc
      omega
  have hA : 'A'.val.toNat = 65 := rfl
  have hZ : 'Z'.val.toNat = 90 := rfl
  have ha : 'a'.val.toNat = 97 := rfl
  have hz : 'z'.val.toNat = 122 := rfl
  have h0 : '0'.val.toNat = 48 := rfl
  have h9 : '9'.val.toNat = 57 := rfl
  have hval : c.val.toNat = c.toNat := rfl
  constructor
  · rw [Bool.eq_false_iff]
    simp only [Char.isUpper, ge_iff_le, UInt32.le_iff_toNat_le, ne_eq, decide_eq_true_eq]
    omega
  · rw [Bool.eq_false_iff]
    simp only [Char.isAlphanum, Char.isAlpha, Char.isUpper, Char.isLower, Char.isDigit, ge_iff_le,
      UInt32.le_iff_toNat_le, ne_eq, Bool.or_eq_true, Bool.and_eq_true, decide_eq_true_eq]
    omega

theorem ascii_spaced : Spaced Unicode.ascii where
  lower_nil := by rw [lower_ascii, List.map_nil]
  lower_sep := by
    intro a c b hc
    have hlow : c.toLower = c := by
      unfold Char.toLower
      exact dif_neg (of_decide_eq_false (ascii_sep hc).1)
    rw [lower_ascii, lower_ascii, lower_ascii, List.map_append, List.map_cons, hlow]
  sep := fun c hc => (ascii_sep hc).2
  token := by
    intro c hc
    have hall : tokenChars.all (fun d => !Unicode.ascii.isAlphanumeric d) = true := by decide
    simpa using List.all_eq_true.mp hall c (of_decide_eq_true hc)

theorem suspension_conserved : Conserves Unicode.ascii "\"tab suspension\" browser".toList := by
  refine planFtsQuery_conserves ascii_spaced ?_
  have hpieces : outside false ("\"tab suspension\" browser".toList.splitOn '"') =
      [[], " browser".toList] := by
    decide
  unfold Unglued
  rw [hpieces]
  refine ⟨⟨?_, .inl ?_⟩, trivial⟩
  · rw [lower_ascii, lower_ascii, lower_ascii, List.map_append]
  · rw [lower_ascii]
    rfl

/-- `foo"bar` is planned as one word. -/
theorem fooBar_glued : ¬ Conserves Unicode.ascii "foo\"bar".toList := by
  have hruns : ∀ c ∈ lower Unicode.ascii "foo".toList ++ lower Unicode.ascii "bar".toList,
      inWord Unicode.ascii c = true := by
    apply List.all_eq_true.mp
    decide
  apply glued ascii_spaced (a := "foo".toList) (b := "bar".toList) _ (by decide) _ hruns
  · decide
  · decide
  · decide
  · exact ⟨by decide, by decide⟩
  · rw [lower_ascii, lower_ascii, lower_ascii, List.map_append]

end QueryPlan

end PolisMemory
