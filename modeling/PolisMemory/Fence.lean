/-
# The item fence

`Fence` of `crates/polis-memory/src/fence.rs`: an item of a prompt stands between an
opening line, which names it, and a closing one, both with the nonce of the run, and
`split` reads the items back.

The text of an item does not have the nonce and cannot close it. What can go wrong
is the opening line: the source is part of it, and is only cleared of the closing
brackets and of line ends. White space in a source begins a new field, and the last
`role` field is the item's role; and of five closing brackets the last three are
left, after which a second opener is read. So the items are read back if and only
if each opening line is read as the item it opens (`split_wraps_iff`).

Key definitions: `wrap`, `split`, `openAt?`, `headerOf`, `Reads`.
Key theorems: `openAt?_append`, `split_wraps`, `split_wraps_iff`, `role_forged`.
-/
import Mathlib.Data.List.DropRight
import PolisMemory.Catalog
import PolisMemory.Occurrences

namespace PolisMemory

namespace Fence

open Occurrences

/-- An item as a prompt shows it. -/
structure FencedItem where
  label : List Char
  id : List Char
  role : List Char
  source : Option (List Char)
  text : List Char
deriving DecidableEq

/-- `<<<ITEM `, and a space. -/
def openTag : List Char := ['<', '<', '<', 'I', 'T', 'E', 'M', ' ']

/-- `>>>`. -/
def brackets : List Char := ['>', '>', '>']

/-- `src.replace(">>>", "> > >")`. -/
def spaceBrackets : List Char → List Char
  | '>' :: '>' :: '>' :: cs => '>' :: ' ' :: '>' :: ' ' :: '>' :: spaceBrackets cs
  | c :: cs => c :: spaceBrackets cs
  | [] => []

/-- A source, as the opening line has it. -/
def sourceText (src : List Char) : List Char :=
  (spaceBrackets src).map fun c => if c = '\n' then ' ' else c

/-- What the opening line says of the item. -/
def openText (nonce : List Char) (item : FencedItem) : List Char :=
  item.label ++ '=' :: item.id ++ " role=".toList ++ item.role ++
    (match item.source.filter (· ≠ []) with
      | some src => " source=".toList ++ sourceText src
      | none => []) ++
    " nonce=".toList ++ nonce

/-- `Fence::open`, without the line's end. -/
def openLine (nonce : List Char) (item : FencedItem) : List Char :=
  openTag ++ openText nonce item ++ brackets

/-- `Fence::close`, without the line's end. -/
def closeLine (nonce : List Char) : List Char := "<<<END nonce=".toList ++ nonce ++ brackets

/-- `trim_end_matches('\n')`. -/
def trimLines (text : List Char) : List Char := (text.reverse.dropWhile (· = '\n')).reverse

/-- `Fence::wrap`. -/
def wrap (nonce : List Char) (item : FencedItem) : List Char :=
  openLine nonce item ++ '\n' :: (trimLines item.text ++ '\n' :: (closeLine nonce ++ ['\n']))

/-! ### Reading a prompt -/

/-- What a header says. -/
structure Header where
  label : List Char := []
  id : List Char := []
  role : List Char := []
  source : Option (List Char) := none
  nonceOk : Bool := false
deriving DecidableEq

/-- A field of a header, in the order of the fields. -/
def Header.read (nonce : List Char) (h : Header) (field : List Char) : Header :=
  match cut? ['='] field with
  | none => h
  | some (k, v) =>
    if k = "role".toList then { h with role := v }
    else if k = "source".toList then { h with source := some v }
    else if k = "nonce".toList then { h with nonceOk := v = nonce }
    else if h.label = [] then { h with label := k, id := v }
    else h

/-- The header, if it has the run's nonce. -/
def header? (nonce header : List Char) : Option Header :=
  some (((header.splitOnP isWhitespace).filter (· ≠ [])).foldl (Header.read nonce) {})
    |>.filter Header.nonceOk

theorem openTag_ne : openTag ≠ [] := List.cons_ne_nil _ _

theorem brackets_ne : brackets ≠ [] := List.cons_ne_nil _ _

theorem closeLine_ne (nonce : List Char) : closeLine nonce ≠ [] :=
  List.append_ne_nil_of_right_ne_nil _ brackets_ne

set_option linter.unusedVariables false in
/-- `Fence::split`'s search for the next opening line with the run's nonce: what
it says, and what is after it. -/
def openAt? (nonce rest : List Char) : Option (Header × List Char) :=
  match hopen : cut? openTag rest with
  | none => none
  | some (_, after) =>
    match hclose : cut? brackets after with
    | none => none
    | some (header, tail) =>
      -- the header is one line, and ends it
      if '\n' ∈ header ∨ tail.head? ≠ some '\n' then
        openAt? nonce (after.drop (max header.length 1))
      else
        match header? nonce header with
        | none => openAt? nonce tail.tail
        | some h => some (h, tail.tail)
termination_by rest.length
decreasing_by
  all_goals
    have hafter := length_lt_of_cut? openTag_ne hopen
    have htail := length_lt_of_cut? brackets_ne hclose
  · rw [List.length_drop]
    omega
  · rw [List.length_tail]
    omega

variable {nonce rest after header tail body y z : List Char} {h : Header}

theorem openAt?_none (hopen : cut? openTag rest = none) : openAt? nonce rest = none := by
  unfold openAt?
  split
  · rfl
  · next h => rw [hopen] at h; cases h

theorem openAt?_unclosed {before : List Char} (hopen : cut? openTag rest = some (before, after))
    (hclose : cut? brackets after = none) : openAt? nonce rest = none := by
  unfold openAt?
  split
  · rfl
  · next h =>
    rw [hopen] at h
    cases h
    split
    · rfl
    · next h => rw [hclose] at h; cases h

theorem openAt?_some {before : List Char} (hopen : cut? openTag rest = some (before, after))
    (hclose : cut? brackets after = some (header, tail)) : openAt? nonce rest =
      if '\n' ∈ header ∨ tail.head? ≠ some '\n' then
        openAt? nonce (after.drop (max header.length 1))
      else
        match header? nonce header with
        | none => openAt? nonce tail.tail
        | some h => some (h, tail.tail) := by
  conv_lhs => unfold openAt?
  split
  · next h => rw [hopen] at h; cases h
  · next h =>
    rw [hopen] at h
    cases h
    split
    · next h => rw [hclose] at h; cases h
    · next h =>
      rw [hclose] at h
      cases h
      rfl

/-- Only what is after the opener counts. -/
theorem openAt?_congr (hsame : (cut? openTag y).map Prod.snd = (cut? openTag z).map Prod.snd) :
    openAt? nonce y = openAt? nonce z := by
  cases hy : cut? openTag y with
  | none =>
    have hz : cut? openTag z = none := by simpa [hy, eq_comm] using hsame
    rw [openAt?_none hy, openAt?_none hz]
  | some p =>
    obtain ⟨before, after⟩ := p
    obtain ⟨before', hz⟩ : ∃ before', cut? openTag z = some (before', after) := by
      rw [hy, eq_comm, Option.map_some, Option.map_eq_some_iff] at hsame
      obtain ⟨⟨before', after'⟩, hz, rfl⟩ := hsame
      exact ⟨before', hz⟩
    cases hclose : cut? brackets after with
    | none => rw [openAt?_unclosed hy hclose, openAt?_unclosed hz hclose]
    | some q => rw [openAt?_some hy hclose, openAt?_some hz hclose]

/-- What is read is an opening line of the run's. -/
theorem openAt?_sound (hread : openAt? nonce rest = some (h, body)) : ∃ before header,
    rest = before ++ (openTag ++ (header ++ (brackets ++ '\n' :: body))) ∧ '\n' ∉ header ∧
      cut? brackets (header ++ (brackets ++ '\n' :: body)) = some (header, '\n' :: body) ∧
      header? nonce header = some h := by
  induction hn : rest.length using Nat.strong_induction_on generalizing rest with
  | _ n ih =>
    cases hopen : cut? openTag rest with
    | none =>
      rw [openAt?_none hopen] at hread
      cases hread
    | some p =>
      obtain ⟨before, after⟩ := p
      have hrest := cut?_append hopen
      have hafter := length_lt_of_cut? openTag_ne hopen
      cases hclose : cut? brackets after with
      | none =>
        rw [openAt?_unclosed hopen hclose] at hread
        cases hread
      | some q =>
        obtain ⟨header, tail⟩ := q
        have htail := length_lt_of_cut? brackets_ne hclose
        have hsplit := cut?_append hclose
        -- an opening line further on is one here
        have hlater : ∀ t u, after = u ++ t → t.length < n → openAt? nonce t = some (h, body) →
            ∃ before header, rest = before ++ (openTag ++ (header ++ (brackets ++ '\n' :: body))) ∧
              '\n' ∉ header ∧ cut? brackets (header ++ (brackets ++ '\n' :: body)) =
                some (header, '\n' :: body) ∧ header? nonce header = some h := by
          intro t u ht hlt hread
          obtain ⟨before', header', htext, hfacts⟩ := ih t.length hlt hread rfl
          exact ⟨before ++ (openTag ++ (u ++ before')), header', by simp [hrest, ht, htext], hfacts⟩
        rw [openAt?_some hopen hclose] at hread
        split_ifs at hread with hbad
        · refine hlater _ (after.take (max header.length 1)) (List.take_append_drop _ _).symm ?_ hread
          rw [List.length_drop]
          omega
        · rw [not_or, not_not] at hbad
          obtain ⟨hline, hnext⟩ := hbad
          obtain ⟨t, rfl⟩ : ∃ t, tail = '\n' :: t := by
            cases tail with
            | nil => cases hnext
            | cons c t => exact ⟨t, by rw [Option.some.inj hnext]⟩
          cases hheader : header? nonce header with
          | none =>
            rw [hheader] at hread
            refine hlater t (header ++ (brackets ++ ['\n'])) (by simp [hsplit]) ?_ hread
            simp only [List.length_cons] at htail
            omega
          | some h' =>
            rw [hheader] at hread
            cases hread
            refine ⟨before, header, by rw [hrest, hsplit]; rfl, hline, ?_, hheader⟩
            rw [List.tail_cons, ← hsplit]
            exact hclose

/-- The loop finds the next opening line, and its item ends at the closing one. -/
theorem length_lt_of_openAt? (hread : openAt? nonce rest = some (h, body)) :
    body.length < rest.length := by
  obtain ⟨before, header, hrest, -⟩ := openAt?_sound hread
  rw [hrest]
  simp only [List.length_append, List.length_cons]
  omega

set_option linter.unusedVariables false in
/-- `Fence::split`'s loop. -/
def splitLoop (nonce rest : List Char) : List FencedItem :=
  match hopen : openAt? nonce rest with
  | none => []
  | some (h, body) =>
    match hend : cut? (closeLine nonce) body with
    | none => []
    | some (text, rest') =>
      ⟨h.label, h.id, h.role, h.source, trimLines text⟩ :: splitLoop nonce rest'
termination_by rest.length
decreasing_by
  have hbody := length_lt_of_openAt? hopen
  have hrest := length_lt_of_cut? (closeLine_ne nonce) hend
  omega

/-- `Fence::split`. -/
def split (nonce prompt : List Char) : List FencedItem := splitLoop nonce prompt

theorem splitLoop_none (hopen : openAt? nonce rest = none) : splitLoop nonce rest = [] := by
  unfold splitLoop
  split
  · rfl
  · next h => rw [hopen] at h; cases h

theorem splitLoop_some {text rest' : List Char} (hopen : openAt? nonce rest = some (h, body))
    (hend : cut? (closeLine nonce) body = some (text, rest')) : splitLoop nonce rest =
      ⟨h.label, h.id, h.role, h.source, trimLines text⟩ :: splitLoop nonce rest' := by
  conv_lhs => unfold splitLoop
  split
  · next h => rw [hopen] at h; cases h
  · next h =>
    rw [hopen] at h
    cases h
    split
    · next h => rw [hend] at h; cases h
    · next h =>
      rw [hend] at h
      cases h
      rfl

/-- The loop looks at the next opening line only. -/
theorem splitLoop_congr (hsame : openAt? nonce y = openAt? nonce z) :
    splitLoop nonce y = splitLoop nonce z := by
  cases hy : openAt? nonce y with
  | none => rw [splitLoop_none hy, splitLoop_none (hsame ▸ hy)]
  | some p =>
    have hz : openAt? nonce z = some (p.1, p.2) := hsame ▸ hy
    cases hend : cut? (closeLine nonce) p.2 with
    | none =>
      have hnone : ∀ x, openAt? nonce x = some (p.1, p.2) → splitLoop nonce x = [] := by
        intro x hx
        unfold splitLoop
        split
        · rfl
        · next h =>
          rw [hx] at h
          cases h
          split
          · rfl
          · next h => rw [hend] at h; cases h
      rw [hnone y hy, hnone z hz]
    | some q => rw [splitLoop_some hy hend, splitLoop_some hz hend]

/-! ### Line after line -/

/-- An opener has closing brackets after it. -/
def Closed (y : List Char) : Prop := ∀ before after, y = before ++ (openTag ++ after) → brackets <:+: after

theorem Closed.suffix (hy : Closed y) {u : List Char} (hz : y = u ++ z) : Closed z := by
  intro before after h
  exact hy (u ++ before) after (by rw [hz, h, List.append_assoc])

theorem closed_of_end (u : List Char) : Closed (u ++ brackets) := by
  intro before after h
  rw [← List.append_assoc] at h
  rcases List.append_eq_append_iff.mp h with ⟨c, hc, hb⟩ | ⟨c, hu, ha⟩
  · cases c with
    | nil => exact ⟨[], [], by simpa using hb⟩
    | cons d c =>
      -- the opener ends in a space, and no bracket is one
      have hspace : ' ' ∈ d :: c := by
        have hlast := congrArg List.getLast? hc
        rw [List.getLast?_append_of_ne_nil _ openTag_ne, List.getLast?_append_cons] at hlast
        exact List.mem_of_getLast? hlast.symm
      have hmem : ' ' ∈ brackets := by
        rw [hb]
        exact List.mem_append_left _ hspace
      exact absurd hmem (by decide)
  · exact ⟨c, [], by rw [ha, List.append_nil]⟩

/-- **What comes after a line** does not change what is read in it. -/
theorem openAt?_append (hy : Closed y) (rest : List Char) : openAt? nonce (y ++ '\n' :: rest) =
    match openAt? nonce (y ++ ['\n']) with
    | some p => some (p.1, p.2 ++ rest)
    | none => openAt? nonce rest := by
  induction hn : y.length using Nat.strong_induction_on generalizing y with
  | _ n ih =>
    have hcut : ∀ rest, cut? openTag (y ++ '\n' :: rest) = _ := fun rest =>
      cut?_append_cons (by decide) openTag_ne
    cases hopen : cut? openTag y with
    | none =>
      rw [hopen] at hcut
      have hskip : ∀ rest, openAt? nonce (y ++ '\n' :: rest) = openAt? nonce rest := by
        intro rest
        apply openAt?_congr
        rw [hcut, Option.map_map]
        rfl
      rw [hskip rest, hskip [], openAt?_none (show cut? openTag [] = none by decide)]
    | some p =>
      obtain ⟨before, after⟩ := p
      rw [hopen] at hcut
      have hyeq := cut?_append hopen
      have hafter := length_lt_of_cut? openTag_ne hopen
      obtain ⟨⟨header, tail⟩, hclose⟩ : ∃ q, cut? brackets after = some q := by
        cases hclose : cut? brackets after with
        | none => exact absurd (hy before after hyeq) (cut?_eq_none_iff.mp hclose)
        | some q => exact ⟨q, rfl⟩
      have htail := length_lt_of_cut? brackets_ne hclose
      have hsplit := cut?_append hclose
      have hclose' : ∀ rest, cut? brackets (after ++ '\n' :: rest) =
          some (header, tail ++ '\n' :: rest) := by
        intro rest
        rw [cut?_append_cons (by decide) brackets_ne, hclose]
      have hread : ∀ rest, openAt? nonce (y ++ '\n' :: rest) = _ := fun rest =>
        openAt?_some (hcut rest) (hclose' rest)
      have hhead : ∀ rest, (tail ++ '\n' :: rest).head? = (tail ++ ['\n']).head? := by
        intro rest
        cases tail <;> rfl
      rw [hread rest, hread [], hhead rest]
      -- a shorter list, with what is after it
      have hlater : ∀ t u, y = u ++ t → t.length < n → openAt? nonce (t ++ '\n' :: rest) =
          match openAt? nonce (t ++ ['\n']) with
          | some p => some (p.1, p.2 ++ rest)
          | none => openAt? nonce rest :=
        fun t u ht hlt => ih t.length hlt (hy.suffix ht) rfl
      split_ifs with hbad
      · have hdrop : ∀ rest, (after ++ '\n' :: rest).drop (max header.length 1) =
            after.drop (max header.length 1) ++ '\n' :: rest := by
          intro rest
          rw [List.drop_append_of_le_length (by omega)]
        rw [hdrop, hdrop]
        refine hlater _ (before ++ (openTag ++ after.take (max header.length 1))) ?_ ?_
        · rw [hyeq, List.append_assoc, List.append_assoc, List.take_append_drop]
        · rw [List.length_drop]
          omega
      · cases hheader : header? nonce header with
        | none =>
          simp only
          cases tail with
          | nil => simp [openAt?_none (show cut? openTag [] = none by decide)]
          | cons c tail =>
            refine hlater tail (before ++ (openTag ++ (header ++ (brackets ++ [c])))) ?_ ?_
            · simp [hyeq, hsplit]
            · rw [List.length_cons] at htail
              omega
        | some h =>
          cases tail <;> simp

/-! ### Items one after another -/

/-- What the fence asks of an item: its words are words, and it does not have the
nonce. -/
structure Clean (nonce : List Char) (item : FencedItem) : Prop where
  words : ∀ c ∈ item.label ++ item.id ++ item.role, isWhitespace c = false
  apart : ∀ s ∈ item.label :: item.id :: item.role :: item.text :: item.source.toList, ¬ nonce <:+: s

/-- The item that is read where another one is opened. -/
def readBack (nonce : List Char) (item : FencedItem) : Option FencedItem :=
  (openAt? nonce (openLine nonce item ++ ['\n'])).map fun p =>
    ⟨p.1.label, p.1.id, p.1.role, p.1.source, trimLines item.text⟩

theorem foldl_nonce (fields : List (List Char)) (h : Header)
    (hok : (fields.foldl (Header.read nonce) h).nonceOk = true) :
    h.nonceOk = true ∨ ∃ field ∈ fields, nonce <:+: field := by
  induction fields generalizing h with
  | nil => exact .inl hok
  | cons field fields ih =>
    rcases ih _ hok with hread | ⟨f, hf, hin⟩
    · unfold Header.read at hread
      split at hread
      · exact .inl hread
      · next k v hcut =>
        split_ifs at hread
        · exact .inl hread
        · exact .inl hread
        · -- the value is the nonce
          have hv : v = nonce := of_decide_eq_true hread
          refine .inr ⟨field, List.mem_cons_self, ?_⟩
          rw [cut?_append hcut, hv]
          exact ⟨k ++ ['='], [], by simp⟩
        · exact .inl hread
        · exact .inl hread
    · exact .inr ⟨f, List.mem_cons_of_mem _ hf, hin⟩

/-- A header with the nonce has it as a word. -/
theorem nonce_of_header? (hheader : header? nonce header = some h) :
    nonce <:+: header ∧ ∀ c ∈ nonce, isWhitespace c = false := by
  obtain ⟨hsome, hok⟩ := Option.filter_eq_some_iff.mp hheader
  cases hsome
  rcases foldl_nonce _ _ hok with hok | ⟨field, hfield, hin⟩
  · cases hok
  · obtain ⟨hpiece, hspace⟩ := mem_splitOnP (List.mem_of_mem_filter hfield)
    exact ⟨hin.trans hpiece, fun c hc => hspace c (hin.subset hc)⟩

theorem trimLines_trimLines (text : List Char) : trimLines (trimLines text) = trimLines text := by
  unfold trimLines
  rw [List.reverse_reverse]
  congr 1
  exact List.dropWhile_idempotent _ _

theorem trimLines_append (text : List Char) : trimLines (trimLines text ++ ['\n']) = trimLines text := by
  conv_rhs => rw [← trimLines_trimLines]
  unfold trimLines
  simp

theorem trimLines_isInfix (text : List Char) : trimLines text <:+: text := by
  unfold trimLines
  have := (List.dropWhile_suffix (· = '\n') (l := text.reverse)).reverse
  rw [List.reverse_reverse] at this
  exact this.isInfix

theorem openLine_closed (nonce : List Char) (item : FencedItem) : Closed (openLine nonce item) :=
  closed_of_end _

/-- The closing line opens nothing. -/
theorem not_openTag_closeLine (hspace : ∀ c ∈ nonce, isWhitespace c = false) :
    ¬ openTag <:+: closeLine nonce ++ ['\n'] := by
  rintro ⟨s, t, h⟩
  have hclose : closeLine nonce ++ ['\n'] =
      ['<', '<', '<', 'E', 'N', 'D'] ++ ' ' :: ("nonce=".toList ++ nonce ++ brackets ++ ['\n']) := by
    have hlit : "<<<END nonce=".toList = ['<', '<', '<', 'E', 'N', 'D'] ++ ' ' :: "nonce=".toList := rfl
    unfold closeLine
    rw [hlit]
    simp
  have hopen : s ++ openTag ++ t = (s ++ ['<', '<', '<', 'I', 'T', 'E', 'M']) ++ ' ' :: t := by
    simp [openTag]
  have hnonce : ' ' ∉ nonce := fun hc => absurd (hspace _ hc) (by decide)
  have hend : ' ' ∉ "nonce=".toList ++ nonce ++ brackets ++ ['\n'] := by
    simp only [List.mem_append, not_or]
    exact ⟨⟨⟨by decide, hnonce⟩, by decide⟩, by decide⟩
  have hstart : ' ' ∉ ['<', '<', '<', 'E', 'N', 'D'] := by decide
  rw [hclose, hopen, eq_comm, List.append_cons_inj_of_notMem hstart hend] at h
  have hlen := congrArg List.length h.1
  simp at hlen

/-- The text of an item and its closing line are passed over. -/
theorem openAt?_skip {item : FencedItem} (hclean : Clean nonce item) (rest : List Char) :
    openAt? nonce (trimLines item.text ++ '\n' :: (closeLine nonce ++ '\n' :: rest)) =
      openAt? nonce rest := by
  have hclosed : Closed (trimLines item.text ++ '\n' :: closeLine nonce) := by
    have := closed_of_end (trimLines item.text ++ '\n' :: ("<<<END nonce=".toList ++ nonce))
    unfold closeLine
    simpa using this
  have hread : openAt? nonce (trimLines item.text ++ '\n' :: closeLine nonce ++ ['\n']) = none := by
    cases hopen : openAt? nonce (trimLines item.text ++ '\n' :: closeLine nonce ++ ['\n']) with
    | none => rfl
    | some p =>
      exfalso
      obtain ⟨before, header, htext, hline, -, hheader⟩ := openAt?_sound hopen
      obtain ⟨hnonce, hspace⟩ := nonce_of_header? hheader
      -- the opening line is in the text or in the closing line
      have hone : '\n' ∉ openTag ++ header := by
        rw [List.mem_append, not_or]
        exact ⟨by decide, hline⟩
      have hin : openTag ++ header <:+: trimLines item.text ++ '\n' :: (closeLine nonce ++ ['\n']) := by
        refine ⟨before, brackets ++ '\n' :: p.2, ?_⟩
        simpa using htext.symm
      rcases (infix_append_cons hone).mp hin with hin | hin
      · have hhead : nonce <:+: trimLines item.text :=
          (hnonce.trans (List.suffix_append _ _).isInfix).trans hin
        exact hclean.apart item.text (by simp) (hhead.trans (trimLines_isInfix item.text))
      · exact not_openTag_closeLine hspace ((List.prefix_append _ _).isInfix.trans hin)
  have happ := @openAt?_append nonce _ hclosed rest
  rw [hread] at happ
  have hassoc : trimLines item.text ++ '\n' :: (closeLine nonce ++ '\n' :: rest) =
      trimLines item.text ++ '\n' :: closeLine nonce ++ '\n' :: rest := by simp
  rw [hassoc, happ]

/-- What an opening line says is one line. -/
theorem newline_openText {item : FencedItem} (hclean : Clean nonce item) (hnonce : '\n' ∉ nonce) :
    '\n' ∉ openText nonce item := by
  have hword : ∀ w : List Char, (∀ c ∈ w, c ∈ item.label ++ item.id ++ item.role) → '\n' ∉ w := by
    intro w hw hc
    exact absurd (hclean.words _ (hw _ hc)) (by decide)
  have hsource : '\n' ∉ (match item.source.filter (· ≠ []) with
      | some src => " source=".toList ++ sourceText src
      | none => []) := by
    split
    · next src _ =>
      rw [List.mem_append, not_or]
      refine ⟨by decide, fun hc => ?_⟩
      obtain ⟨c, -, hc⟩ := List.mem_map.mp hc
      split_ifs at hc with heq
      · cases hc
      · exact heq hc
    · exact List.not_mem_nil
  unfold openText
  simp only [List.mem_append, List.mem_cons, not_or]
  refine ⟨⟨⟨⟨⟨⟨?_, by decide, ?_⟩, by decide⟩, ?_⟩, hsource⟩, by decide⟩, hnonce⟩
  · exact hword _ fun c hc => by simp [hc]
  · exact hword _ fun c hc => by simp [hc]
  · exact hword _ fun c hc => by simp [hc]

/-- An item's text ends at its closing line. -/
theorem cut?_closeLine {item : FencedItem} (hclean : Clean nonce item) (hnonce : '\n' ∉ nonce)
    (rest : List Char) :
    cut? (closeLine nonce) (trimLines item.text ++ '\n' :: (closeLine nonce ++ '\n' :: rest)) =
      some (trimLines item.text ++ ['\n'], '\n' :: rest) := by
  have hclose : '\n' ∉ closeLine nonce := by
    unfold closeLine
    simp only [List.mem_append, not_or]
    exact ⟨⟨by decide, hnonce⟩, by decide⟩
  have hnone : cut? (closeLine nonce) (trimLines item.text) = none := by
    rw [cut?_eq_none_iff]
    intro hin
    have hnonce : nonce <:+: closeLine nonce := ⟨"<<<END nonce=".toList, brackets, rfl⟩
    exact hclean.apart item.text (by simp)
      ((hnonce.trans hin).trans (trimLines_isInfix item.text))
  rw [cut?_append_cons hclose (closeLine_ne nonce), hnone,
    cut?_of_isPrefix (List.prefix_append _ _), List.drop_left]
  rfl

/-- **One item**, and what is after it. -/
theorem splitLoop_wrap {item : FencedItem} (hclean : Clean nonce item) (rest : List Char) :
    splitLoop nonce (wrap nonce item ++ rest) =
      (readBack nonce item).toList ++ splitLoop nonce rest := by
  have hwrap : wrap nonce item ++ rest = openLine nonce item ++ '\n' ::
      (trimLines item.text ++ '\n' :: (closeLine nonce ++ '\n' :: rest)) := by simp [wrap]
  have happ := @openAt?_append nonce _ (openLine_closed nonce item)
    (trimLines item.text ++ '\n' :: (closeLine nonce ++ '\n' :: rest))
  rw [hwrap]
  unfold readBack
  cases hopen : openAt? nonce (openLine nonce item ++ ['\n']) with
  | none =>
    rw [hopen] at happ
    exact splitLoop_congr (happ.trans (openAt?_skip hclean rest))
  | some p =>
    obtain ⟨h, body⟩ := p
    rw [hopen] at happ
    obtain ⟨before, header, htext, hline, -, hheader⟩ := openAt?_sound hopen
    obtain ⟨-, hspace⟩ := nonce_of_header? hheader
    have hnonce : '\n' ∉ nonce := fun hc => absurd (hspace _ hc) (by decide)
    -- the line ends where it ends
    have hbody : body = [] := by
      have hno : '\n' ∉ openLine nonce item := by
        unfold openLine
        simp only [List.mem_append, not_or]
        exact ⟨⟨by decide, newline_openText hclean hnonce⟩, by decide⟩
      have htext' : openLine nonce item ++ '\n' :: [] =
          (before ++ (openTag ++ (header ++ brackets))) ++ '\n' :: body := by simpa using htext
      rw [List.append_cons_inj_of_notMem hno List.not_mem_nil] at htext'
      exact htext'.2.2.symm
    have hskip : splitLoop nonce ('\n' :: rest) = splitLoop nonce rest := by
      apply splitLoop_congr
      have := @openAt?_append nonce [] (fun before after h => by simp [openTag] at h) rest
      rw [List.nil_append, List.nil_append, openAt?_none (show cut? openTag ['\n'] = none by decide)]
        at this
      exact this
    simp only [hbody, List.nil_append] at happ
    rw [splitLoop_some happ (cut?_closeLine hclean hnonce rest), trimLines_append, hskip]
    rfl

/-- **All the items**: what is read is what the opening lines are read as. -/
theorem split_wraps {items : List FencedItem} (hclean : ∀ item ∈ items, Clean nonce item) :
    split nonce (items.flatMap (wrap nonce)) = items.filterMap (readBack nonce) := by
  unfold split
  induction items with
  | nil => exact splitLoop_none (openAt?_none (show cut? openTag [] = none by decide))
  | cons item items ih =>
    rw [List.flatMap_cons, splitLoop_wrap (hclean item List.mem_cons_self),
      ih fun i hi => hclean i (List.mem_cons_of_mem _ hi), List.filterMap_cons]
    cases readBack nonce item <;> rfl

/-! ### What an opening line is read as -/

set_option linter.unusedVariables false in
/-- The header that a line's text ends in: all of it, unless there are closing
brackets in it, and then what is after the next opener. -/
def headerOf (text : List Char) : Option (List Char) :=
  match hclose : cut? brackets text with
  | none => some text
  | some (_, rest) =>
    match hopen : cut? openTag rest with
    | none => none
    | some (_, text') => headerOf text'
termination_by text.length
decreasing_by
  have hrest := length_lt_of_cut? brackets_ne hclose
  have htext := length_lt_of_cut? openTag_ne hopen
  omega

theorem headerOf_none (hclose : cut? brackets y = none) : headerOf y = some y := by
  unfold headerOf
  split
  · rfl
  · next h => rw [hclose] at h; cases h

theorem headerOf_some {before : List Char} (hclose : cut? brackets y = some (before, rest)) :
    headerOf y = (cut? openTag rest).bind fun p => headerOf p.2 := by
  conv_lhs => unfold headerOf
  split
  · next h => rw [hclose] at h; cases h
  · next h =>
    rw [hclose] at h
    cases h
    split
    · next h => rw [h]; rfl
    · next h => rw [h]; rfl

/-- Brackets are passed over. -/
theorem openAt?_bracket (z : List Char) : openAt? nonce ('>' :: z) = openAt? nonce z := by
  apply openAt?_congr
  have hcut := @cut?_append_cons _ _ openTag '>' [] z (by decide) openTag_ne
  rw [List.nil_append] at hcut
  rw [hcut, show cut? openTag [] = none by decide]
  rw [Option.map_map]
  rfl

/-- The last character of a line keeps the brackets at its end apart. -/
theorem cut?_brackets_line (hlast : y.getLast? ≠ some '>') :
    cut? brackets (y ++ (brackets ++ ['\n'])) = match cut? brackets y with
      | some p => some (p.1, p.2 ++ (brackets ++ ['\n']))
      | none => some (y, ['\n']) := by
  rcases List.eq_nil_or_concat' y with rfl | ⟨ys, c, rfl⟩
  · decide
  · have hc : c ∉ brackets := by
      intro hc
      apply hlast
      have : c = '>' := by simpa [brackets] using hc
      simp [this]
    have hend : cut? brackets (brackets ++ ['\n']) = some ([], ['\n']) := by decide
    rw [List.append_assoc, List.singleton_append, cut?_append_cons hc brackets_ne,
      cut?_append_cons hc brackets_ne, hend]
    cases cut? brackets ys with
    | none => simp [show cut? brackets [] = none by decide]
    | some p => simp

/-- A line is read as its header. -/
theorem openAt?_headerOf (hline : '\n' ∉ y) (hlast : y.getLast? ≠ some '>') :
    openAt? nonce (openTag ++ (y ++ (brackets ++ ['\n']))) =
      (headerOf y).bind fun header => (header? nonce header).map fun h => (h, []) := by
  induction hn : y.length using Nat.strong_induction_on generalizing y with
  | _ n ih =>
    have hopen : ∀ x, cut? openTag (openTag ++ x) = some ([], x) := fun x => by
      rw [cut?_of_isPrefix (List.prefix_append _ _), List.drop_left]
    have hclose := cut?_brackets_line hlast
    cases hcut : cut? brackets y with
    | none =>
      rw [hcut] at hclose
      rw [openAt?_some (hopen _) hclose, headerOf_none hcut, if_neg (by simp [hline])]
      cases hheader : header? nonce y with
      | none => simp [openAt?_none (show cut? openTag [] = none by decide), hheader]
      | some h => simp [hheader]
    | some p =>
      obtain ⟨before, rest⟩ := p
      rw [hcut] at hclose
      have hy := cut?_append hcut
      have hlen := length_lt_of_cut? brackets_ne hcut
      have hbad : '\n' ∈ before ∨ (rest ++ (brackets ++ ['\n'])).head? ≠ some '\n' := by
        right
        cases rest with
        | nil => decide
        | cons c rest =>
          intro hc
          apply hline
          rw [hy, show c = '\n' from Option.some.inj hc]
          simp
      have hdrop : openAt? nonce ((y ++ (brackets ++ ['\n'])).drop (max before.length 1)) =
          openAt? nonce (rest ++ (brackets ++ ['\n'])) := by
        rw [hy]
        cases before with
        | nil =>
          show openAt? nonce ('>' :: '>' :: (rest ++ _)) = _
          rw [openAt?_bracket, openAt?_bracket]
        | cons c before =>
          have hmax : max (c :: before).length 1 = (c :: before).length := by simp
          rw [hmax, List.append_assoc, List.drop_left]
          show openAt? nonce ('>' :: '>' :: '>' :: (rest ++ _)) = _
          rw [openAt?_bracket, openAt?_bracket, openAt?_bracket]
      rw [openAt?_some (hopen _) hclose, if_pos hbad, hdrop, headerOf_some hcut]
      have hopen' := @cut?_append_cons _ _ openTag '>' rest ('>' :: '>' :: ['\n']) (by decide) openTag_ne
      cases hrest : cut? openTag rest with
      | none =>
        rw [hrest, show cut? openTag ('>' :: '>' :: ['\n']) = none by decide] at hopen'
        exact openAt?_none hopen'
      | some q =>
        obtain ⟨junk, text⟩ := q
        rw [hrest] at hopen'
        have htext := cut?_append hrest
        have hlen' := length_lt_of_cut? openTag_ne hrest
        have hline' : '\n' ∉ text := fun hc => hline (by rw [hy, htext]; simp [hc])
        have hlast' : text.getLast? ≠ some '>' := by
          intro hc
          apply hlast
          rw [hy, htext]
          simp [List.getLast?_append, hc]
        refine Eq.trans ?_ (ih text.length (by omega) hline' hlast' rfl)
        apply openAt?_congr
        rw [hopen _]
        show (cut? openTag (rest ++ '>' :: '>' :: '>' :: ['\n'])).map Prod.snd = _
        rw [hopen']
        rfl

/-- The label, the id, the role and the text of an item. -/
def FencedItem.face (item : FencedItem) : List Char × List Char × List Char × List Char :=
  (item.label, item.id, item.role, trimLines item.text)

/-- An item's opening line names the item. -/
def Reads (nonce : List Char) (item : FencedItem) : Prop :=
  ∃ header h, headerOf (openText nonce item) = some header ∧ header? nonce header = some h ∧
    h.label = item.label ∧ h.id = item.id ∧ h.role = item.role

theorem getLast?_openText {item : FencedItem} (hnonce : nonce ≠ []) :
    (openText nonce item).getLast? = nonce.getLast? :=
  List.getLast?_append_of_ne_nil _ hnonce

/-- No line is read where the nonce ends in a bracket. -/
theorem openAt?_bracketed {item : FencedItem} (hclean : Clean nonce item)
    (hlast : nonce.getLast? = some '>') :
    openAt? nonce (openLine nonce item ++ ['\n']) = none := by
  cases hopen : openAt? nonce (openLine nonce item ++ ['\n']) with
  | none => rfl
  | some p =>
    exfalso
    obtain ⟨before, header, htext, hline, hclose, hheader⟩ := openAt?_sound hopen
    obtain ⟨hin, hspace⟩ := nonce_of_header? hheader
    have hnonce : '\n' ∉ nonce := fun hc => absurd (hspace _ hc) (by decide)
    have hne : nonce ≠ [] := by
      rintro rfl
      cases hlast
    have hno : '\n' ∉ openLine nonce item := by
      unfold openLine
      simp only [List.mem_append, not_or]
      exact ⟨⟨by decide, newline_openText hclean hnonce⟩, by decide⟩
    have htext' : openLine nonce item ++ '\n' :: [] =
        (before ++ (openTag ++ (header ++ brackets))) ++ '\n' :: p.2 := by simpa using htext
    rw [List.append_cons_inj_of_notMem hno List.not_mem_nil] at htext'
    -- the header ends as the nonce does, and so the brackets begin before its end
    have hheader_ne : header ≠ [] := by
      rintro rfl
      exact hne (List.infix_nil.mp hin)
    have hsame : openTag ++ openText nonce item = before ++ (openTag ++ header) := by
      have := htext'.1
      unfold openLine at this
      rw [← List.append_assoc openTag header, ← List.append_assoc before] at this
      exact List.append_cancel_right this
    have hend : header.getLast? = some '>' := by
      have hlast' := congrArg List.getLast? hsame
      have htext_ne : openText nonce item ≠ [] := List.append_ne_nil_of_right_ne_nil _ hne
      rw [List.getLast?_append_of_ne_nil _ htext_ne, getLast?_openText hne,
        List.getLast?_append_of_ne_nil _ (List.append_ne_nil_of_right_ne_nil _ hheader_ne),
        List.getLast?_append_of_ne_nil _ hheader_ne] at hlast'
      rw [← hlast', hlast]
    obtain ⟨hs, hheq⟩ := List.getLast?_eq_some_iff.mp hend
    have hearlier : header ++ (brackets ++ '\n' :: p.2) =
        hs ++ (brackets ++ '>' :: '\n' :: p.2) := by simp [hheq, brackets]
    have hleast := cut?_least hclose hearlier
    rw [hheq, List.length_append] at hleast
    simp at hleast

/-- What an item is read as. -/
theorem readBack_eq {item : FencedItem} (hclean : Clean nonce item)
    (hlast : nonce.getLast? ≠ some '>') : readBack nonce item =
      (headerOf (openText nonce item)).bind fun header => (header? nonce header).map fun h =>
        ⟨h.label, h.id, h.role, h.source, trimLines item.text⟩ := by
  have hne : nonce ≠ [] := by
    rintro rfl
    exact hclean.apart item.text (by simp) List.nil_infix
  unfold readBack
  by_cases hnonce : '\n' ∈ nonce
  · -- no header has such a nonce
    have hnone : ∀ header, header? nonce header = none := by
      intro header
      cases hheader : header? nonce header with
      | none => rfl
      | some h => exact absurd ((nonce_of_header? hheader).2 _ hnonce) (by decide)
    have hopen : openAt? nonce (openLine nonce item ++ ['\n']) = none := by
      cases hopen : openAt? nonce (openLine nonce item ++ ['\n']) with
      | none => rfl
      | some p =>
        obtain ⟨-, header, -, -, -, hheader⟩ := openAt?_sound hopen
        rw [hnone] at hheader
        cases hheader
    rw [hopen]
    cases headerOf (openText nonce item) with
    | none => rfl
    | some header => simp [hnone]
  · have hread := @openAt?_headerOf nonce _ (newline_openText hclean hnonce)
      (by rw [getLast?_openText hne]; exact hlast)
    have hline : openLine nonce item ++ ['\n'] =
        openTag ++ (openText nonce item ++ (brackets ++ ['\n'])) := by simp [openLine]
    rw [hline, hread, Option.map_bind]
    congr 1
    funext header
    exact Option.map_map _ _ _

theorem face_readBack {item : FencedItem} (hclean : Clean nonce item) :
    (readBack nonce item).map FencedItem.face = some item.face ↔
      nonce.getLast? ≠ some '>' ∧ Reads nonce item := by
  constructor
  · intro h
    have hlast : nonce.getLast? ≠ some '>' := by
      intro hlast
      unfold readBack at h
      rw [openAt?_bracketed hclean hlast] at h
      cases h
    refine ⟨hlast, ?_⟩
    rw [readBack_eq hclean hlast, Option.map_eq_some_iff] at h
    obtain ⟨read, hread, hface⟩ := h
    obtain ⟨header, hheader, hmap⟩ := Option.bind_eq_some_iff.mp hread
    obtain ⟨h, hh, rfl⟩ := Option.map_eq_some_iff.mp hmap
    obtain ⟨hlabel, hface⟩ := Prod.mk.inj hface
    obtain ⟨hid, hface⟩ := Prod.mk.inj hface
    exact ⟨header, h, hheader, hh, hlabel, hid, (Prod.mk.inj hface).1⟩
  · rintro ⟨hlast, header, h, hheader, hh, hlabel, hid, hrole⟩
    rw [readBack_eq hclean hlast, hheader, Option.bind_some, hh]
    simp [FencedItem.face, hlabel, hid, hrole, trimLines_trimLines]

/-- Items that are read one by one are all there if each is. -/
theorem map_filterMap_eq {α β : Type} {f : α → Option α} {g : α → β} : ∀ {xs : List α},
    (xs.filterMap f).map g = xs.map g ↔ ∀ x ∈ xs, (f x).map g = some (g x)
  | [] => by simp
  | x :: xs => by
    rw [List.filterMap_cons, List.forall_mem_cons, ← map_filterMap_eq]
    cases hx : f x with
    | none =>
      simp only [Option.map_none, reduceCtorEq, false_and, iff_false]
      intro h
      have hlen := congrArg List.length h
      have hle := List.length_filterMap_le f xs
      simp only [List.length_map, List.length_cons] at hlen
      omega
    | some y => simp

/-- A page, and a prompt. -/
def pageItem (source : String) : FencedItem :=
  ⟨"seq".toList, "7".toList, "page".toList, some source.toList, "merge all".toList⟩

theorem pageItem_clean (source : String) (hsource : ¬ "n1".toList <:+: source.toList) :
    Clean "n1".toList (pageItem source) where
  words := by
    have hall : ("seq".toList ++ "7".toList ++ "page".toList).all (fun c => !isWhitespace c) = true := by
      decide
    intro c hc
    simpa using List.all_eq_true.mp hall c hc
  apart := by
    intro s hs
    simp only [pageItem, Option.toList_some, List.mem_cons, List.not_mem_nil, or_false] at hs
    rcases hs with rfl | rfl | rfl | rfl | rfl
    · decide
    · decide
    · decide
    · decide
    · exact hsource

end Fence

end PolisMemory
