/-
# Grepping the record

`grep_memory_scoped` of `crates/polis-store/src/search.rs`. A `LIKE` over the
prompts' texts and over the pages' addresses and titles proposes rows, the newest
of each up to the limit; the case and the regex are checked on these.

So a hit is always a record that matches, and there are as many as the limit and
the records that match among the newest proposed allow
(`grepMemoryScoped_answers`). Where neither the case nor a regex is asked for that
is all of them up to the limit; else a record that matches may be behind newer
ones that do not (`newer_hides`).

Key definitions: `Searcher`, `Lake.grepMemoryScoped`, `GrepQuery`, `Lake.found`,
`GrepQuery.Answers`.
Key theorems: `like_pattern`, `arm_spec`, `grepMemoryScoped_answers`, `newer_hides`.
-/
import PolisMemory.Excerpt
import PolisMemory.Inspection
import PolisMemory.Lexical
import PolisMemory.LikePattern

namespace PolisMemory

open LikePattern

/-! ### Asking -/

/-- What the store uses of others: the casing of `str::to_lowercase`, the regexes
and an `ORDER BY … DESC` of the database, which leaves open how equals come. -/
structure Searcher where
  casing : Excerpt.Casing
  compile : String → Except String (String → Bool)
  desc : {α : Type} → (α → ℤ) → List α → List α
  desc_perm : ∀ {α : Type} (key : α → ℤ) (rows : List α), (desc key rows).Perm rows
  desc_sorted : ∀ {α : Type} (key : α → ℤ) (rows : List α), (desc key rows).Pairwise fun a b => key b ≤ key a

/-- What the grep arm searches. -/
inductive GrepScope
  | all
  | prompts
  | browse
  deriving DecidableEq, Repr

def GrepScope.wantsPrompts (scope : GrepScope) : Bool := scope = .all || scope = .prompts

def GrepScope.wantsBrowse (scope : GrepScope) : Bool := scope = .all || scope = .browse

inductive GrepError
  | literalTooShort (min got : ℕ)
  | badRegex (message : String)
  deriving DecidableEq, Repr

structure GrepHit where
  /-- `prompt` or `browse`. -/
  kind : String
  seq : Option ℤ
  ts : ℤ
  label : String
  excerpt : String
  deriving DecidableEq, Repr

/-- Shortest literal the grep arm will accept. -/
def grepMinLiteral : ℕ := 3

/-- Characters of context returned around a match. -/
def grepExcerptChars : ℕ := 240

/-- `str::replace` of a character. -/
def replaceChar (c : Char) (new t : List Char) : List Char := t.flatMap fun d => if d = c then new else [d]

/-- The pattern of the `LIKE`, with `ESCAPE '\\'`. -/
def likePattern (needle : List Char) : List Char :=
  let escaped := replaceChar '_' ['\\', '_'] (replaceChar '%' ['\\', '%'] (replaceChar '\\' ['\\', '\\'] needle))
  '%' :: (escaped ++ ['%'])

/-- What is left of a request once it is read. -/
structure GrepQuery where
  needle : List Char
  caseSensitive : Bool
  matcher : Option (String → Bool)

/-- The regex of a request, if it has one. -/
def compileRegex (x : Searcher) (re : Option String) (caseSensitive : Bool) :
    Except GrepError (Option (String → Bool)) :=
  match (re.map trim).filter (· ≠ "") with
  | none => .ok none
  | some r =>
    match x.compile (if caseSensitive then r else "(?i)" ++ r) with
    | .ok matcher => .ok (some matcher)
    | .error e => .error (.badRegex e)

namespace GrepQuery

variable (q : GrepQuery)

/-- The check on what the database proposes. -/
def verifies (text : String) : Bool :=
  (!q.caseSensitive || decide (q.needle <:+: text.toList)) && q.matcher.all fun m => m text

/-- The `LIKE` of the database. -/
def like (text : String) : Bool := LikePattern.like '\\' (likePattern q.needle) text.toList

end GrepQuery

/-! ### Searching -/

/-- A page as it is verified. -/
def PageRow.hay (be : PageRow) : String := be.title.getD "" ++ " " ++ be.url

namespace Lake

variable (x : Searcher) (lake : Lake)

/-- The prompts in scope, each with an event of its own. -/
def promptRows (filter : ScopeFilter) : List (LedgerEventRow × PromptRow) :=
  lake.base.ledger.rows.filterMap fun e =>
    if e.kind = "prompt" then ((lake.promptOf e).filter (lake.admitsPrompt filter)).map fun p => (e, p) else none

/-- The pages in scope, each with an event that refers to it, if one does. -/
def pageRows (filter : ScopeFilter) : List (Option LedgerEventRow × PageRow) :=
  (lake.browseEvents.rows.filter (lake.admitsPage filter)).flatMap fun be =>
    match lake.base.ledger.rows.filter fun e =>
      e.refKind = some "browse_event" && e.refId = some (toString be.id) with
    | [] => [(none, be)]
    | es => es.map fun e => (some e, be)

def grepPrompt (needle : List Char) (row : LedgerEventRow × PromptRow) : GrepHit where
  kind := "prompt"
  seq := some row.1.seq
  ts := row.2.ts
  label := (lake.promptColumns row.2.id).surface.getD "prompt"
  excerpt := String.ofList (Excerpt.excerptAround x.casing row.2.ftsText.toList [needle] grepExcerptChars)

def grepPage (row : Option LedgerEventRow × PageRow) : GrepHit where
  kind := "browse"
  seq := row.1.map LedgerEventRow.seq
  ts := row.2.ts
  label := if row.2.title.getD "" = "" then row.2.url else row.2.title.getD ""
  excerpt := row.2.url

/-- The prompts that the database proposes. -/
def promptCandidates (q : GrepQuery) (filter : ScopeFilter) : List (LedgerEventRow × PromptRow) :=
  (lake.promptRows filter).filter fun row => q.like row.2.ftsText

/-- The pages that the database proposes; no title is no match. -/
def pageCandidates (q : GrepQuery) (filter : ScopeFilter) : List (Option LedgerEventRow × PageRow) :=
  (lake.pageRows filter).filter fun row => q.like row.2.url || row.2.title.any q.like

/-- The newest prompts proposed, verified. -/
def grepPrompts (q : GrepQuery) (limit : ℕ) (filter : ScopeFilter) : List GrepHit :=
  (((x.desc (fun row => row.1.seq) (lake.promptCandidates q filter)).take limit).filter
    fun row => q.verifies row.2.ftsText).map (lake.grepPrompt x q.needle)

/-- The newest pages proposed, verified. -/
def grepPages (q : GrepQuery) (limit : ℕ) (filter : ScopeFilter) : List GrepHit :=
  (((x.desc (fun row => row.2.ts) (lake.pageCandidates q filter)).take limit).filter
    fun row => q.verifies row.2.hay).map grepPage

/-- The hits of both arms, the newest first. -/
def grepHits (q : GrepQuery) (scope : GrepScope) (limit : ℕ) (filter : ScopeFilter) : List GrepHit :=
  let out := (if scope.wantsPrompts then lake.grepPrompts x q limit filter else []) ++
    (if scope.wantsBrowse then lake.grepPages x q limit filter else [])
  (out.mergeSort fun a b => decide (b.ts ≤ a.ts)).take limit

/-- The search for a literal without the blanks around it. -/
def grepNeedle (needle : List Char) (re : Option String) (caseSensitive : Bool) (scope : GrepScope)
    (limit : ℤ) (filter : ScopeFilter) : Except GrepError (List GrepHit) :=
  if needle.length < grepMinLiteral then .error (.literalTooShort grepMinLiteral needle.length)
  else
    match compileRegex x re caseSensitive with
    | .error e => .error e
    | .ok matcher =>
      .ok (lake.grepHits x ⟨needle, caseSensitive, matcher⟩ scope (max 1 (min limit 200)).toNat filter)

/-- `grep_memory_scoped` -/
def grepMemoryScoped (literal : String) (re : Option String) (caseSensitive : Bool) (scope : GrepScope)
    (limit : ℤ) (filter : ScopeFilter) : Except GrepError (List GrepHit) :=
  lake.grepNeedle x (trim literal).toList re caseSensitive scope limit filter

end Lake

/-! ### Matching -/

namespace GrepQuery

variable (q : GrepQuery)

/-- The text contains the literal, up to the case of ASCII. -/
def near (text : String) : Bool := decide (fold q.needle <:+: fold text.toList)

/-- The text contains the literal, up to the case of ASCII unless the case is asked for. -/
def contains (text : String) : Bool :=
  if q.caseSensitive then decide (q.needle <:+: text.toList) else q.near text

def satisfies (text : String) : Bool := q.matcher.all fun m => m text

/-- The address or the title is near; if the case is asked for, the title and the
address together contain the literal. -/
def inPage (be : PageRow) : Bool :=
  (q.near be.url || q.near (be.title.getD "")) && (!q.caseSensitive || q.contains be.hay)

end GrepQuery

namespace Lake

variable (x : Searcher) (lake : Lake) (q : GrepQuery) (scope : GrepScope) (filter : ScopeFilter)

/-- The records in scope that match. -/
def found : List GrepHit :=
  (if scope.wantsPrompts then ((lake.promptRows filter).filter fun row =>
    q.contains row.2.ftsText && q.satisfies row.2.ftsText).map (lake.grepPrompt x q.needle) else []) ++
  (if scope.wantsBrowse then ((lake.pageRows filter).filter fun row =>
    q.inPage row.2 && q.satisfies row.2.hay).map grepPage else [])

/-- The records that match among the newest of each kind that are near. -/
def foundNewest (limit : ℕ) : List GrepHit :=
  (if scope.wantsPrompts then lake.grepPrompts x q limit filter else []) ++
    (if scope.wantsBrowse then lake.grepPages x q limit filter else [])

end Lake

/-- **The pattern** matches the texts that contain the needle up to the case of ASCII. -/
theorem like_pattern (q : GrepQuery) (text : String) : q.like text = q.near text := by
  have hpattern : likePattern q.needle = '%' :: (q.needle.flatMap (escaped '\\') ++ ['%']) := by
    unfold likePattern replaceChar
    dsimp only
    rw [List.flatMap_assoc, List.flatMap_assoc]
    have hchar : (fun c : Char => (if c = '\\' then ['\\', '\\'] else [c]).flatMap fun c =>
        (if c = '%' then ['\\', '%'] else [c]).flatMap fun c => if c = '_' then ['\\', '_'] else [c]) =
          escaped '\\' := by
      funext c
      unfold escaped
      by_cases h1 : c = '\\'
      · rw [h1]
        rfl
      · by_cases h2 : c = '%'
        · rw [h2]
          rfl
        · by_cases h3 : c = '_'
          · rw [h3]
            rfl
          · simp [h1, h2, h3]
    rw [hchar]
  have hlike := like_contains (show '\\' ≠ '%' by decide) q.needle text.toList
  unfold GrepQuery.like GrepQuery.near
  rw [hpattern, Bool.eq_iff_iff, hlike, decide_eq_true_iff]

theorem near_of_infix {q : GrepQuery} {text : String} (h : q.needle <:+: text.toList) : q.near text = true :=
  decide_eq_true (h.map Char.toLower)

theorem contains_eq (q : GrepQuery) (text : String) :
    q.contains text = (q.near text && (!q.caseSensitive || decide (q.needle <:+: text.toList))) := by
  unfold GrepQuery.contains
  by_cases hcase : q.caseSensitive = true
  · rw [if_pos hcase, hcase, Bool.not_true, Bool.false_or]
    by_cases hinfix : q.needle <:+: text.toList
    · rw [decide_eq_true hinfix, near_of_infix hinfix]
      rfl
    · rw [decide_eq_false hinfix, Bool.and_false]
  · rw [if_neg hcase, Bool.eq_false_of_not_eq_true hcase, Bool.not_false, Bool.true_or, Bool.and_true]

/-- A prompt matches if it is proposed and verified. -/
theorem found_prompt (q : GrepQuery) (text : String) :
    (q.contains text && q.satisfies text) = (q.like text && q.verifies text) := by
  rw [contains_eq, like_pattern]
  exact Bool.and_assoc _ _ _

theorem found_page {q : GrepQuery} (hne : q.needle ≠ []) (be : PageRow) :
    (q.inPage be && q.satisfies be.hay) = ((q.like be.url || be.title.any q.like) && q.verifies be.hay) := by
  have htitle : be.title.any q.like = q.near (be.title.getD "") := by
    cases be.title with
    | some title => exact like_pattern q title
    | none =>
      have hnil : ¬ fold q.needle <:+: fold "".toList := by
        intro h
        apply hne
        exact List.map_eq_nil_iff.mp (List.infix_nil.mp h)
      exact (decide_eq_false hnil).symm
  unfold GrepQuery.inPage
  rw [htitle, like_pattern]
  by_cases hcase : q.caseSensitive = true
  · have hexact : q.contains be.hay = decide (q.needle <:+: be.hay.toList) := if_pos hcase
    rw [hexact]
    exact Bool.and_assoc _ _ _
  · have hno : q.caseSensitive = false := Bool.eq_false_of_not_eq_true hcase
    unfold GrepQuery.verifies GrepQuery.satisfies
    rw [hno, Bool.not_false, Bool.true_or, Bool.true_or, Bool.and_true, Bool.true_and]

/-- One arm: what is verified of the newest that the database proposes. -/
theorem arm_spec (x : Searcher) {α β : Type} (key : α → ℤ) (rows : List α) (limit : ℕ) (v : α → Bool)
    (hit : α → β) :
    ((((x.desc key rows).take limit).filter v).map hit).Subperm ((rows.filter v).map hit) ∧
      ((∀ row ∈ rows, v row = true) →
        ((((x.desc key rows).take limit).filter v).map hit).length = min limit (rows.filter v).length) ∧
      (rows.length ≤ limit →
        ((((x.desc key rows).take limit).filter v).map hit).length = (rows.filter v).length) := by
  have hperm := x.desc_perm key rows
  refine ⟨?_, fun hall => ?_, fun hlimit => ?_⟩
  · have hsub : (((x.desc key rows).take limit).filter v).Sublist ((x.desc key rows).filter v) :=
      (List.take_sublist _ _).filter v
    exact ((hsub.map hit).subperm).trans ((hperm.filter v).map hit).subperm
  · have htaken : ((x.desc key rows).take limit).filter v = (x.desc key rows).take limit :=
      List.filter_eq_self.mpr fun row hrow => hall row (hperm.subset (List.mem_of_mem_take hrow))
    rw [List.length_map, htaken, List.length_take, hperm.length_eq, List.filter_eq_self.mpr hall]
  · have htaken : (x.desc key rows).take limit = x.desc key rows :=
      List.take_of_length_le (hperm.length_eq.trans_le hlimit)
    rw [List.length_map, htaken, (hperm.filter v).length_eq]

/-! ### What grepping answers -/

/-- What the hits are of the records that match. -/
structure GrepQuery.Answers (q : GrepQuery) (x : Searcher) (lake : Lake) (scope : GrepScope) (limit : ℕ)
    (filter : ScopeFilter) (hits : List GrepHit) : Prop where
  /-- Every hit is a record that matches, none more often than it is there. -/
  matching : hits.Subperm (lake.found x q scope filter)
  count : hits.length = min limit (lake.foundNewest x q scope filter limit).length
  /-- Nothing is missed if there is nothing to verify, or all that is proposed is verified. -/
  complete : (q.caseSensitive = false ∧ q.matcher = none) ∨
      ((lake.promptCandidates q filter).length ≤ limit ∧ (lake.pageCandidates q filter).length ≤ limit) →
    hits.length = min limit (lake.found x q scope filter).length
  newest : hits.Pairwise fun a b => b.ts ≤ a.ts

/-- An arm fills the limit if nothing is to be verified, or all that is proposed is. -/
theorem arm_fills (x : Searcher) {α β : Type} (key : α → ℤ) (rows : List α) (limit : ℕ) (v : α → Bool)
    (hit : α → β) (h : (∀ row ∈ rows, v row = true) ∨ rows.length ≤ limit) :
    min limit ((((x.desc key rows).take limit).filter v).map hit).length =
      min limit ((rows.filter v).map hit).length := by
  obtain ⟨-, hall, hfew⟩ := arm_spec x key rows limit v hit
  have hlength : ((rows.filter v).map hit).length = (rows.filter v).length := List.length_map _
  rw [hlength]
  rcases h with h | h
  · rw [hall h]
    omega
  · rw [hfew h]

theorem verifies_of_nothing {q : GrepQuery} (hcase : q.caseSensitive = false) (hregex : q.matcher = none)
    (text : String) : q.verifies text = true := by
  unfold GrepQuery.verifies
  rw [hcase, hregex]
  rfl

section

variable (x : Searcher) (lake : Lake) {q : GrepQuery} (scope : GrepScope) (limit : ℕ) (filter : ScopeFilter)

theorem found_eq (hne : q.needle ≠ []) : lake.found x q scope filter =
    (if scope.wantsPrompts then ((lake.promptCandidates q filter).filter fun row =>
      q.verifies row.2.ftsText).map (lake.grepPrompt x q.needle) else []) ++
    (if scope.wantsBrowse then ((lake.pageCandidates q filter).filter fun row =>
      q.verifies row.2.hay).map Lake.grepPage else []) := by
  unfold Lake.found Lake.promptCandidates Lake.pageCandidates
  simp only [found_prompt, found_page hne, List.filter_filter, Bool.and_comm]

theorem foundNewest_subperm (hne : q.needle ≠ []) :
    (lake.foundNewest x q scope filter limit).Subperm (lake.found x q scope filter) := by
  rw [found_eq x lake scope filter hne]
  unfold Lake.foundNewest
  apply List.Subperm.append
  · split_ifs
    · exact (arm_spec x _ _ limit _ _).1
    · exact List.Subperm.refl _
  · split_ifs
    · exact (arm_spec x _ _ limit _ _).1
    · exact List.Subperm.refl _

theorem length_foundNewest (hne : q.needle ≠ [])
    (h : (q.caseSensitive = false ∧ q.matcher = none) ∨
      ((lake.promptCandidates q filter).length ≤ limit ∧ (lake.pageCandidates q filter).length ≤ limit)) :
    min limit (lake.foundNewest x q scope filter limit).length =
      min limit (lake.found x q scope filter).length := by
  rw [found_eq x lake scope filter hne]
  unfold Lake.foundNewest
  rw [List.length_append, List.length_append]
  have hprompts : min limit (if scope.wantsPrompts then lake.grepPrompts x q limit filter else []).length =
      min limit (if scope.wantsPrompts then ((lake.promptCandidates q filter).filter fun row =>
        q.verifies row.2.ftsText).map (lake.grepPrompt x q.needle) else []).length := by
    split_ifs
    · exact arm_fills x _ _ limit _ _ (h.imp (fun h _ _ => verifies_of_nothing h.1 h.2 _) And.left)
    · rfl
  have hpages : min limit (if scope.wantsBrowse then lake.grepPages x q limit filter else []).length =
      min limit (if scope.wantsBrowse then ((lake.pageCandidates q filter).filter fun row =>
        q.verifies row.2.hay).map Lake.grepPage else []).length := by
    split_ifs
    · exact arm_fills x _ _ limit _ _ (h.imp (fun h _ _ => verifies_of_nothing h.1 h.2 _) And.right)
    · rfl
  omega

theorem grepHits_answers (hne : q.needle ≠ []) :
    q.Answers x lake scope limit filter (lake.grepHits x q scope limit filter) := by
  have hhits : lake.grepHits x q scope limit filter =
      ((lake.foundNewest x q scope filter limit).mergeSort fun a b => decide (b.ts ≤ a.ts)).take limit := rfl
  have hperm := List.mergeSort_perm (lake.foundNewest x q scope filter limit) fun a b => decide (b.ts ≤ a.ts)
  have hlength : (lake.grepHits x q scope limit filter).length =
      min limit (lake.foundNewest x q scope filter limit).length := by
    rw [hhits, List.length_take, hperm.length_eq]
  have hsorted := @List.pairwise_mergeSort _ (fun a b : GrepHit => decide (b.ts ≤ a.ts))
    (fun a b c hab hbc => decide_eq_true ((of_decide_eq_true hbc).trans (of_decide_eq_true hab)))
    (fun a b => by
      rw [Bool.or_eq_true, decide_eq_true_iff, decide_eq_true_iff]
      exact le_total _ _)
    (lake.foundNewest x q scope filter limit)
  exact {
    matching := hhits ▸ ((List.take_sublist _ _).subperm.trans hperm.subperm).trans
      (foundNewest_subperm x lake scope limit filter hne)
    count := hlength
    complete := fun h => hlength.trans (length_foundNewest x lake scope limit filter hne h)
    newest := hhits ▸ (hsorted.imp of_decide_eq_true).sublist (List.take_sublist _ _) }

/-- **What grepping answers**: a literal too short or a bad regex is refused;
else every hit is a record that matches, and they are as many as the limit and
what is verified of the newest allow. -/
theorem grepMemoryScoped_answers (literal : String) (re : Option String) (caseSensitive : Bool) (limit : ℤ) :
    if (trim literal).toList.length < grepMinLiteral then
      lake.grepMemoryScoped x literal re caseSensitive scope limit filter =
        .error (.literalTooShort grepMinLiteral (trim literal).toList.length)
    else
      match compileRegex x re caseSensitive with
      | .error e => lake.grepMemoryScoped x literal re caseSensitive scope limit filter = .error e
      | .ok matcher => ∃ hits, lake.grepMemoryScoped x literal re caseSensitive scope limit filter = .ok hits ∧
        GrepQuery.Answers ⟨(trim literal).toList, caseSensitive, matcher⟩ x lake scope
          (max 1 (min limit 200)).toNat filter hits := by
  unfold Lake.grepMemoryScoped
  generalize (trim literal).toList = needle
  unfold Lake.grepNeedle
  by_cases hshort : needle.length < grepMinLiteral
  · rw [if_pos hshort, if_pos hshort]
  · rw [if_neg hshort, if_neg hshort]
    cases compileRegex x re caseSensitive with
    | error e => rfl
    | ok matcher =>
      have hne : needle ≠ [] := by
        intro hnil
        rw [hnil] at hshort
        exact hshort (by decide)
      exact ⟨_, rfl, grepHits_answers x lake scope _ filter hne⟩

end

/-! ### A record behind newer ones -/

/-- The address or the title contains the literal. -/
def GrepQuery.inField (q : GrepQuery) (be : PageRow) : Bool :=
  q.contains be.url || q.contains (be.title.getD "")

/-- The records in scope that match, with the literal in the address or the title. -/
def Lake.matching (x : Searcher) (lake : Lake) (q : GrepQuery) (scope : GrepScope) (filter : ScopeFilter) :
    List GrepHit :=
  (if scope.wantsPrompts then ((lake.promptRows filter).filter fun row =>
    q.contains row.2.ftsText && q.satisfies row.2.ftsText).map (lake.grepPrompt x q.needle) else []) ++
  (if scope.wantsBrowse then ((lake.pageRows filter).filter fun row =>
    q.inField row.2 && q.satisfies row.2.hay).map Lake.grepPage else [])

/-- Unless the case is asked for, a page matches in the address or the title. -/
theorem found_eq_matching {x : Searcher} {lake : Lake} {q : GrepQuery} (hcase : q.caseSensitive = false)
    (scope : GrepScope) (filter : ScopeFilter) : lake.found x q scope filter = lake.matching x q scope filter := by
  have hcontains (text : String) : q.contains text = q.near text := by
    unfold GrepQuery.contains
    rw [hcase]
    rfl
  have hpage (be : PageRow) : q.inPage be = q.inField be := by
    unfold GrepQuery.inPage GrepQuery.inField
    simp only [hcontains, hcase, Bool.not_false, Bool.true_or, Bool.and_true]
  unfold Lake.found Lake.matching
  simp only [hpage]

/-- As many records that match are found as there are, up to the limit. -/
def Lake.GrepsAll (x : Searcher) (lake : Lake) (literal : String) (re : Option String) (caseSensitive : Bool)
    (scope : GrepScope) (limit : ℤ) (filter : ScopeFilter) : Prop :=
  ∀ matcher hits, compileRegex x re caseSensitive = .ok matcher →
    lake.grepMemoryScoped x literal re caseSensitive scope limit filter = .ok hits →
      hits.length = min limit.toNat
        (lake.matching x ⟨(trim literal).toList, caseSensitive, matcher⟩ scope filter).length ∧
      ∀ hit ∈ hits, hit ∈ lake.matching x ⟨(trim literal).toList, caseSensitive, matcher⟩ scope filter

/-- Rows that are sorted, and no regexes. -/
def Searcher.plain : Searcher where
  casing := .ascii
  compile _ := .error "no regexes"
  desc key rows := List.insertionSort (fun a b => key b ≤ key a) rows
  desc_perm _ rows := List.perm_insertionSort _ rows
  desc_sorted key rows :=
    haveI : Std.Total fun a b => key b ≤ key a := ⟨fun a b => le_total (key b) (key a)⟩
    haveI : IsTrans _ fun a b => key b ≤ key a := ⟨fun _ _ _ hab hbc => hbc.trans hab⟩
    List.pairwise_insertionSort _ rows

/-- A page that was seen. -/
def seenPage (id ts : ℤ) (title : String) : PageRow :=
  ⟨⟨id, ts, "nav", none, "https://a.example", some title, "", "", none⟩, ⟨none, none, none, none, none, none⟩⟩

/-- Two pages of one title, the newer in capitals. -/
def twoTitles : Lake where
  toNoteStore := NoteStore.fresh Store.empty ∅ ∅ ∅ ∅
  promptColumns _ := ⟨none, none, none, none, none, none, none⟩
  browseEvents := ⟨[seenPage 1 1 "needle", seenPage 2 2 "NEEDLE"], by decide⟩
  fromOne := by decide

def noScope : ScopeFilter := ⟨none, none, [], none, none, none, none, none⟩

/-- The newer page is proposed and is not in the case asked for: nothing is found. -/
theorem newer_hides : ¬ twoTitles.GrepsAll .plain "needle" none true .browse 1 noScope := by
  intro h
  let q : GrepQuery := ⟨(trim "needle").toList, true, none⟩
  have hgrep : twoTitles.grepMemoryScoped .plain "needle" none true .browse 1 noScope =
      .ok (twoTitles.grepHits .plain q .browse 1 noScope) := by
    have hlong : ¬ (trim "needle").toList.length < grepMinLiteral := by decide +kernel
    unfold Lake.grepMemoryScoped Lake.grepNeedle
    rw [if_neg hlong]
    rfl
  have hne : q.needle ≠ [] := by decide +kernel
  have hcount := (grepHits_answers Searcher.plain twoTitles .browse 1 noScope hne).count
  have hnone : (twoTitles.foundNewest .plain q .browse noScope 1).length = 0 := by decide +kernel
  have hone : (twoTitles.matching .plain q .browse noScope).length = 1 := by decide +kernel
  have hlength := (h none _ rfl hgrep).1
  have hall : (twoTitles.grepHits .plain q .browse 1 noScope).length = min 1 1 := hone ▸ hlength
  omega

end PolisMemory
