/-
# Secret scrubbing at ingest

Nine rules run one after the other over a text. A rule reads the text from left
to right, its matches apart from the characters between them (`Scan`), and
writes a marker for each match, or for the value alone where it keeps the name;
a value that begins like a marker stays as it is. What a rule does to a text is
a list of pieces (`Pattern.pieces`), whose source is the text and whose
rendering is the new one.

Key definitions: `Pattern`, `patterns`, `Pattern.tokens`, `scrub`, `Scan`, `Pattern.pieces`.
Key theorems: `match?_some`, `scan_tokens`, `mark_at`, `apply_text`.
-/
import PolisMemory.Backtrack
import PolisMemory.Marked

namespace PolisMemory
namespace Scrub

open Backtrack Marked

/-- What a redaction leaves in the text. -/
def marker (kind : String) : List Char := "[redacted:".toList ++ kind.toList ++ "]".toList

/-- How a pattern rewrites its match: the whole of it, or the value alone. -/
inductive Keep where
  | nothing
  | prefixed
  deriving DecidableEq, Repr

/-- A rule: the group that stays, if it keeps one, and the group that is secret. -/
structure Pattern where
  kind : String
  named : Re
  secret : Re
  keep : Keep
  consumes : 0 < named.least + secret.least

/-- `[A-Za-z0-9_\-]` -/
def tokenChar (c : Char) : Bool := c.isAlphanum || c == '_' || c == '-'

/-- `[A-Z0-9 ]` -/
def labelChar (c : Char) : Bool := c.isUpper || c.isDigit || c == ' '

/-- `[A-Za-z0-9._~+/=\-]` -/
def bearerChar (c : Char) : Bool := c.isAlphanum || c ∈ ['.', '_', '~', '+', '/', '=', '-']

/-- `\s` -/
def space (c : Char) : Bool := c ∈ ['\t', '\n', '\x0b', '\x0c', '\r', ' ']

def quote (c : Char) : Bool := c == '"' || c == '\''

/-- What does not end an assigned value. -/
def valueChar (c : Char) : Bool := !(space c || c ∈ ['"', '\'', '\x60', ',', ';'])

def keyHeader (which : String) : Re :=
  .seq (.lit ("-----" ++ which ++ " ").toList) (.seq (.many labelChar 0) (.lit "PRIVATE KEY-----".toList))

def privateKey : Pattern where
  kind := "private_key"
  named := .empty
  secret := .seq (keyHeader "BEGIN") (.seq .gap (keyHeader "END"))
  keep := .nothing
  consumes := by decide

def anthropicKey : Pattern where
  kind := "anthropic_key"
  named := .empty
  secret := .seq .boundary (.seq (.lit "sk-ant-".toList) (.many tokenChar 20))
  keep := .nothing
  consumes := by decide

def openaiKey : Pattern where
  kind := "openai_key"
  named := .empty
  secret := .seq .boundary (.seq (.lit "sk-".toList) (.seq (Re.opt (.lit "proj-".toList)) (.many tokenChar 20)))
  keep := .nothing
  consumes := by decide

def awsAccessKey : Pattern where
  kind := "aws_access_key"
  named := .empty
  secret := .seq .boundary (.seq (.alt (.lit "AKIA".toList) (.lit "ASIA".toList))
    (.seq (.times (fun c => c.isDigit || c.isUpper) 16) .boundary))
  keep := .nothing
  consumes := by decide

def githubToken : Pattern where
  kind := "github_token"
  named := .empty
  secret := .seq .boundary (.alt
    (.seq (.lit "gh".toList) (.seq (.one fun c => c ∈ ['p', 'o', 'u', 's', 'r'])
      (.seq (.lit "_".toList) (.many Char.isAlphanum 36))))
    (.seq (.lit "github_pat_".toList) (.many (fun c => c.isAlphanum || c == '_') 22)))
  keep := .nothing
  consumes := by decide

def slackToken : Pattern where
  kind := "slack_token"
  named := .empty
  secret := .seq .boundary (.seq (.lit "xox".toList) (.seq (.one fun c => c ∈ ['a', 'b', 'p', 'r', 's'])
    (.seq (.lit "-".toList) (.many (fun c => c.isAlphanum || c == '-') 10))))
  keep := .nothing
  consumes := by decide

def jwt : Pattern where
  kind := "jwt"
  named := .empty
  secret := .seq .boundary (.seq (.lit "eyJ".toList) (.seq (.many tokenChar 10) (.seq (.lit ".eyJ".toList)
    (.seq (.many tokenChar 10) (.seq (.lit ".".toList) (.many tokenChar 10))))))
  keep := .nothing
  consumes := by decide

def bearer : Pattern where
  kind := "bearer"
  named := .seq .boundary (.seq (.word "bearer".toList) (.many space 1))
  secret := .many bearerChar 16
  keep := .prefixed
  consumes := by decide

/-- The words of which an assigned name has one. -/
def secretWord : Re :=
  .alt (.seq (.word "api".toList) (.seq (Re.opt (.lit "_".toList)) (.word "key".toList)))
    (.alt (.word "secret".toList) (.alt (.word "token".toList)
      (.alt (.word "password".toList) (.word "passwd".toList))))

def assignedSecret : Pattern where
  kind := "assigned_secret"
  named := .seq .boundary (.seq (.many tokenChar 0) (.seq secretWord (.seq (.many tokenChar 0)
    (.seq (Re.opt (.one quote)) (.seq (.many space 0) (.seq (.one fun c => c == ':' || c == '=')
      (.seq (.many space 0) (Re.opt (.one quote)))))))))
  secret := .many valueChar 16
  keep := .prefixed
  consumes := by decide

/-- The rules, the most specific first. -/
def patterns : List Pattern :=
  [privateKey, anthropicKey, openaiKey, awsAccessKey, githubToken, slackToken, jwt, bearer, assignedSecret]

/-- The match at a place: the two groups of the first try. -/
def Pattern.match? (p : Pattern) (prev : Option Char) (t : List Char) : Option (List Char × List Char) :=
  ((p.named.results prev t).flatMap fun x =>
    (p.secret.results (after prev x.1) x.2).map fun y => (x.1, y.1)).head?

/-- A part of a text as a rule reads it. -/
inductive Token where
  | text (c : Char)
  | found (named secret : List Char)
  deriving DecidableEq, Repr

/-- The matches of a rule from left to right, none inside of another, and the
characters between them; `skip` counts those of a match that was found. -/
def Pattern.tokens (p : Pattern) : ℕ → Option Char → List Char → List Token
  | _, _, [] => []
  | skip + 1, _, c :: t => p.tokens skip (some c) t
  | 0, prev, c :: t =>
    match p.match? prev (c :: t) with
    | some (named, secret) => .found named secret :: p.tokens ((named ++ secret).length - 1) (some c) t
    | none => .text c :: p.tokens 0 (some c) t

/-- An earlier pattern's marker is not a secret to redact again. -/
def Pattern.redacts (p : Pattern) (secret : List Char) : Bool :=
  match p.keep with
  | .nothing => true
  | .prefixed => !"[redacted:".toList.isPrefixOf secret

def Pattern.rewrite (p : Pattern) : Token → List Char
  | .text c => [c]
  | .found named secret => if p.redacts secret then named ++ marker p.kind else named ++ secret

/-- The text with every match replaced, and how many of each kind were. -/
structure Scrubbed where
  text : List Char
  redactions : List (String × ℕ)
  deriving DecidableEq, Repr

def Token.redacted (p : Pattern) : Token → Bool
  | .text _ => false
  | .found _ secret => p.redacts secret

/-- One rule over the text. -/
def Pattern.apply (p : Pattern) (s : Scrubbed) : Scrubbed :=
  let tokens := p.tokens 0 none s.text
  let n := tokens.countP (Token.redacted p)
  if n > 0 then ⟨tokens.flatMap p.rewrite, s.redactions ++ [(p.kind, n)]⟩ else s

/-- The text after some of the rules. -/
def scrubWith (rules : List Pattern) (text : List Char) : Scrubbed :=
  rules.foldl (fun s p => p.apply s) ⟨text, []⟩

def scrub (text : List Char) : Scrubbed := scrubWith patterns text

/-! ### The reading of a rule -/

/-- Only a value that begins like a marker is left. -/
theorem redacts_of_head {p : Pattern} {s : List Char} (h : '[' ∉ s.head?) : p.redacts s = true := by
  unfold Pattern.redacts
  cases p.keep with
  | nothing => rfl
  | prefixed =>
    show (!"[redacted:".toList.isPrefixOf s) = true
    rw [Bool.not_eq_true', ← Bool.not_eq_true, List.isPrefixOf_iff_prefix]
    rintro ⟨t, rfl⟩
    exact h (by simp)

/-- The text a token was read from. -/
def Token.source : Token → List Char
  | .text c => [c]
  | .found named secret => named ++ secret

def textOf (tokens : List Token) : List Char := tokens.flatMap Token.source

@[simp] theorem textOf_nil : textOf [] = [] := rfl

@[simp] theorem textOf_cons (tok : Token) (tokens : List Token) :
    textOf (tok :: tokens) = tok.source ++ textOf tokens := rfl

@[simp] theorem textOf_append (xs ys : List Token) : textOf (xs ++ ys) = textOf xs ++ textOf ys :=
  List.flatMap_append

/-- Both groups. -/
def Pattern.whole (p : Pattern) : Re := .seq p.named p.secret

theorem match?_some {p : Pattern} {prev : Option Char} {t n s : List Char} (h : p.match? prev t = some (n, s)) :
    ∃ rest, t = n ++ s ++ rest ∧ p.named.Takes prev n (s ++ rest) ∧
      (p.secret.results (after prev n) (s ++ rest)).head? = some (s, rest) := by
  obtain ⟨⟨n', t'⟩, hn, hs⟩ := head?_flatMap_eq_some h
  rw [List.head?_map, Option.map_eq_some_iff] at hs
  obtain ⟨⟨s', rest⟩, hs, heq⟩ := hs
  obtain ⟨rfl, rfl⟩ : n' = n ∧ s' = s := by simpa using heq
  obtain ⟨rfl, htake⟩ := mem_results.mp hn
  obtain ⟨rfl, -⟩ := mem_results.mp (List.mem_of_mem_head? hs)
  exact ⟨rest, by rw [List.append_assoc], htake, hs⟩

theorem takes_of_match? {p : Pattern} {prev : Option Char} {n s rest : List Char}
    (h : p.match? prev (n ++ s ++ rest) = some (n, s)) :
    p.named.Takes prev n (s ++ rest) ∧ p.secret.Takes (after prev n) s rest := by
  obtain ⟨rest', hrest, hn, hs⟩ := match?_some h
  obtain rfl := List.append_cancel_left hrest
  exact ⟨hn, (mem_results.mp (List.mem_of_mem_head? hs)).2⟩

theorem match?_eq_none {p : Pattern} {prev : Option Char} {t : List Char} :
    p.match? prev t = none ↔ ∀ u rest, t = u ++ rest → ¬ p.whole.Takes prev u rest := by
  simp only [Pattern.match?, List.head?_eq_none_iff, List.flatMap_eq_nil_iff, List.map_eq_nil_iff]
  constructor
  · rintro h u rest rfl htake
    obtain ⟨n, s, rfl, hn, hs⟩ := takes_seq.mp htake
    have hnil := h (n, s ++ rest) (mem_results.mpr ⟨List.append_assoc n s rest, hn⟩)
    exact List.eq_nil_iff_forall_not_mem.mp hnil (s, rest) (mem_results.mpr ⟨rfl, hs⟩)
  · rintro h ⟨n, t'⟩ hn
    rw [List.eq_nil_iff_forall_not_mem]
    rintro ⟨s, rest⟩ hs
    obtain ⟨rfl, hn⟩ := mem_results.mp hn
    obtain ⟨rfl, hs⟩ := mem_results.mp hs
    exact h (n ++ s) rest (List.append_assoc n s rest).symm (takes_seq.mpr ⟨n, s, rfl, hn, hs⟩)

theorem Pattern.whole_ne_nil (p : Pattern) {prev : Option Char} {u rest : List Char}
    (h : p.whole.Takes prev u rest) : u ≠ [] := by
  rintro rfl
  exact absurd h.least_le (by rw [Pattern.whole, Re.least]; exact Nat.not_le.mpr p.consumes)

/-- The tokens of a text from a place on. -/
inductive Scan (p : Pattern) : Option Char → List Char → List Token → Prop where
  | nil (prev : Option Char) : Scan p prev [] []
  | text {prev : Option Char} {c : Char} {t : List Char} {tokens : List Token} :
    p.match? prev (c :: t) = none → Scan p (some c) t tokens → Scan p prev (c :: t) (.text c :: tokens)
  | found {prev : Option Char} {n s rest : List Char} {tokens : List Token} :
    p.match? prev (n ++ s ++ rest) = some (n, s) → Scan p (after prev (n ++ s)) rest tokens →
      Scan p prev (n ++ s ++ rest) (.found n s :: tokens)

theorem tokens_skip (p : Pattern) (prev : Option Char) (u t : List Char) :
    p.tokens u.length prev (u ++ t) = p.tokens 0 (after prev u) t := by
  induction u generalizing prev with
  | nil => rfl
  | cons c u ih =>
    rw [List.length_cons, List.cons_append, Pattern.tokens]
    exact ih (some c)

theorem tokens_of_none {p : Pattern} {prev : Option Char} {c : Char} {t : List Char}
    (h : p.match? prev (c :: t) = none) : p.tokens 0 prev (c :: t) = .text c :: p.tokens 0 (some c) t := by
  rw [Pattern.tokens, h]

theorem tokens_of_some {p : Pattern} {prev : Option Char} {n s rest : List Char}
    (h : p.match? prev (n ++ s ++ rest) = some (n, s)) :
    p.tokens 0 prev (n ++ s ++ rest) = .found n s :: p.tokens 0 (after prev (n ++ s)) rest := by
  have htake := takes_of_match? h
  have hne : n ++ s ≠ [] := p.whole_ne_nil (takes_seq.mpr ⟨n, s, rfl, htake.1, htake.2⟩)
  obtain ⟨c, u, hu⟩ := List.exists_cons_of_ne_nil hne
  rw [hu, List.cons_append] at h ⊢
  rw [Pattern.tokens, h]
  simp only [hu, List.length_cons, Nat.add_sub_cancel, after_cons]
  rw [tokens_skip]

theorem scan_tokens (p : Pattern) (prev : Option Char) (t : List Char) : Scan p prev t (p.tokens 0 prev t) := by
  induction hn : t.length using Nat.strong_induction_on generalizing prev t with
  | _ n ih =>
    subst hn
    cases t with
    | nil => exact .nil prev
    | cons c t =>
      cases hm : p.match? prev (c :: t) with
      | none =>
        rw [tokens_of_none hm]
        exact .text hm (ih t.length (Nat.lt_succ_self _) _ t rfl)
      | some x =>
        obtain ⟨n, s⟩ := x
        obtain ⟨rest, ht, -, -⟩ := match?_some hm
        rw [ht] at hm ih ⊢
        have htake := takes_of_match? hm
        have hne : n ++ s ≠ [] := p.whole_ne_nil (takes_seq.mpr ⟨n, s, rfl, htake.1, htake.2⟩)
        rw [tokens_of_some hm]
        refine .found hm (ih rest.length ?_ _ rest rfl)
        have := List.length_pos_iff.mpr hne
        rw [@List.length_append _ (n ++ s)]
        omega

theorem Scan.eq_tokens {p : Pattern} {prev : Option Char} {t : List Char} {tokens : List Token}
    (h : Scan p prev t tokens) : tokens = p.tokens 0 prev t := by
  induction h with
  | nil prev => rfl
  | text hm _ ih => rw [tokens_of_none hm, ih]
  | found hm _ ih => rw [tokens_of_some hm, ih]

theorem Scan.textOf_eq {p : Pattern} {prev : Option Char} {t : List Char} {tokens : List Token}
    (h : Scan p prev t tokens) : textOf tokens = t := by
  induction h with
  | nil prev => rfl
  | text _ _ ih => rw [textOf_cons, ih]; rfl
  | found _ _ ih => rw [textOf_cons, ih]; rfl

/-- The tokens after the first ones are those of the text after theirs. -/
theorem Scan.drop {p : Pattern} {prev : Option Char} {t : List Char} {xs ys : List Token}
    (h : Scan p prev t (xs ++ ys)) : Scan p (after prev (textOf xs)) (textOf ys) ys := by
  induction xs generalizing prev t with
  | nil =>
    rw [List.nil_append] at h
    rw [h.textOf_eq]
    exact h
  | cons tok xs ih =>
    rw [List.cons_append] at h
    cases h with
    | text _ h => exact ih h
    | found _ h =>
      rw [textOf_cons, after_append]
      exact ih h

/-- Where a token is a match, the rule matches. -/
theorem Scan.match_at {p : Pattern} {prev : Option Char} {t n s : List Char} {xs ys : List Token}
    (h : Scan p prev t (xs ++ .found n s :: ys)) :
    p.match? (after prev (textOf xs)) (n ++ s ++ textOf ys) = some (n, s) := by
  have hd := h.drop
  have ht : textOf (.found n s :: ys) = n ++ s ++ textOf ys := rfl
  generalize textOf (.found n s :: ys) = t at hd ht
  cases hd with
  | found hm hrest => rwa [hrest.textOf_eq]

/-- Where a token is a character, the rule does not match. -/
theorem Scan.none_at {p : Pattern} {prev : Option Char} {t : List Char} {c : Char} {xs ys : List Token}
    (h : Scan p prev t (xs ++ .text c :: ys)) :
    p.match? (after prev (textOf xs)) (c :: textOf ys) = none := by
  have hd := h.drop
  have ht : textOf (.text c :: ys) = c :: textOf ys := rfl
  generalize textOf (.text c :: ys) = t at hd ht
  cases hd with
  | text hm hrest => rwa [hrest.textOf_eq]

/-! ### The pieces a rule leaves -/

def Pattern.pieces (p : Pattern) : Token → List Piece
  | .text c => [.plain c]
  | .found named secret =>
    if p.redacts secret then plains named ++ [.mark (marker p.kind) secret] else plains (named ++ secret)

theorem source_pieces (p : Pattern) (tokens : List Token) : source (tokens.flatMap p.pieces) = textOf tokens := by
  induction tokens with
  | nil => rfl
  | cons tok tokens ih =>
    rw [List.flatMap_cons, source_append, ih, textOf_cons]
    cases tok with
    | text c => rfl
    | found n s => by_cases hs : p.redacts s = true <;> simp [Pattern.pieces, hs, Token.source, Piece.source]

theorem render_pieces (p : Pattern) (tokens : List Token) :
    render (tokens.flatMap p.pieces) = tokens.flatMap p.rewrite := by
  induction tokens with
  | nil => rfl
  | cons tok tokens ih =>
    rw [List.flatMap_cons, render_append, ih, List.flatMap_cons]
    cases tok with
    | text c => rfl
    | found n s =>
      by_cases hs : p.redacts s = true <;> simp [Pattern.pieces, hs, Pattern.rewrite, Piece.render]

/-- Where the pieces have a mark, the tokens have a match that is redacted. -/
theorem mark_at {p : Pattern} {tokens : List Token} {xs ys : List Piece} {label origin : List Char}
    (h : tokens.flatMap p.pieces = xs ++ .mark label origin :: ys) :
    ∃ as n bs, tokens = as ++ .found n origin :: bs ∧ xs = as.flatMap p.pieces ++ plains n ∧
      ys = bs.flatMap p.pieces ∧ label = marker p.kind ∧ p.redacts origin = true := by
  induction tokens generalizing xs with
  | nil => exact absurd h (by simp)
  | cons tok tokens ih =>
    rw [List.flatMap_cons] at h
    cases tok with
    | text c =>
      obtain ⟨zs, rfl, hz⟩ := mark_after_plains (u := [c]) h
      obtain ⟨as, n, bs, rfl, rfl, hb⟩ := ih hz
      exact ⟨.text c :: as, n, bs, rfl, by simp [Pattern.pieces], hb⟩
    | found n s =>
      by_cases hs : p.redacts s = true
      · rw [Pattern.pieces, if_pos hs, List.append_assoc] at h
        rcases first_mark h with ⟨rfl, rfl, rfl, rfl⟩ | ⟨zs, rfl, hz⟩
        · exact ⟨[], n, tokens, rfl, by simp, rfl, rfl, hs⟩
        · obtain ⟨as, n', bs, rfl, rfl, hb⟩ := ih hz
          exact ⟨.found n s :: as, n', bs, rfl, by simp [Pattern.pieces, hs], hb⟩
      · rw [Pattern.pieces, if_neg hs] at h
        obtain ⟨zs, rfl, hz⟩ := mark_after_plains h
        obtain ⟨as, n', bs, rfl, rfl, hb⟩ := ih hz
        exact ⟨.found n s :: as, n', bs, rfl, by simp [Pattern.pieces, hs], hb⟩

/-- A text in which a rule redacts nothing stays as it is. -/
theorem rewrite_eq_self {p : Pattern} {tokens : List Token} (h : ∀ tok ∈ tokens, tok.redacted p = false) :
    tokens.flatMap p.rewrite = textOf tokens := by
  induction tokens with
  | nil => rfl
  | cons tok tokens ih =>
    rw [List.forall_mem_cons] at h
    rw [List.flatMap_cons, textOf_cons, ih h.2]
    cases tok with
    | text c => rfl
    | found n s => rw [Pattern.rewrite, if_neg (by simpa [Token.redacted] using h.1), Token.source]

theorem apply_text (p : Pattern) (s : Scrubbed) :
    (p.apply s).text = render ((p.tokens 0 none s.text).flatMap p.pieces) := by
  rw [render_pieces, Pattern.apply]
  split
  · rfl
  · rename_i hn
    rw [rewrite_eq_self, (scan_tokens p none s.text).textOf_eq]
    intro tok htok
    by_contra hr
    exact hn (List.countP_pos_iff.mpr ⟨tok, htok, by simpa using hr⟩)

/-- What a rule does not redact it does not count. -/
theorem apply_of_still {p : Pattern} {s : Scrubbed}
    (h : ∀ tok ∈ p.tokens 0 none s.text, tok.redacted p = false) : p.apply s = s := by
  rw [Pattern.apply, if_neg]
  rw [gt_iff_lt, List.countP_pos_iff]
  rintro ⟨tok, htok, hr⟩
  rw [h tok htok] at hr
  cases hr

end Scrub
end PolisMemory
