/-
# The lexical indexes and their tables

`crates/polis-store/src/lexical.rs`: five FTS5 tables with external content,
two over `prompts`, two over `browse_events` and one over `class_nodes`, and
the triggers that keep them. All have the trigger for insertions; `browse_grep`
has none for updates or deletions. Notes have no index.

So every index is exact as long as no update changes, and no deletion takes,
what `browse_grep` holds of a page (`lexical_exact_iff`); forgetting a page
does (`forgottenPage_stays`).

Key definitions: `PromptRow.ftsText`, `Lexicon`, `LexicalStore`,
`LexicalWrite`, `LexicalStore.Exact`, `LexicalWrite.KeepsNames`.
Key theorems: `exact_write_iff`, `lexical_exact_iff`, `LexicalStore.Exact.forgotten`.
-/
import PolisMemory.Capture
import PolisMemory.ColdCompaction
import PolisMemory.FullText

namespace PolisMemory

open FullText Tables

/-! ### What is indexed -/

/-- How many characters of a `system` row are indexed. -/
def systemIndexChars : ℕ := 600

/-- `NULLIF(x, '')`. -/
def nullif (x : String) : Option String := if x = "" then none else some x

/-- `substr(x, 1, n)`. -/
def substrTo (x : String) (n : ℕ) : String := String.ofList (x.toList.take n)

/-- `substr(x, n + 1)`. -/
def substrFrom (x : String) (n : ℕ) : String := String.ofList (x.toList.drop n)

namespace PromptRow

variable (p : PromptRow)

/-- The words of the row, or its gist. -/
def bodyOrGist : String := ((nullif p.body).or p.gist).getD ""

/-- The generated column `fts_text`. -/
def ftsText : String :=
  if p.role = some "agent" then (p.userText.bind nullif).getD ""
  else if p.role = some "system" then substrTo p.bodyOrGist systemIndexChars
  else p.bodyOrGist

/-- The generated column `fts_head`. -/
def ftsHead : String := substrTo p.ftsText 400

/-- The generated column `fts_tail`. -/
def ftsTail : String := substrFrom p.ftsText 400

end PromptRow

/-- A row of `browse_events`, in full. -/
structure CapturedPage extends BrowseEventRow where
  caption : Option String
  shotKey : Option String
  deriving DecidableEq, Repr

/-- `id` of the row. -/
abbrev CapturedPage.key (p : CapturedPage) : ℤ := p.id

/-- A row of `class_nodes` under its rowid. -/
structure CatalogRow extends NodeRow where
  rowid : ℤ
  deriving DecidableEq, Repr

/-- The two tokenizers of the indexes. -/
structure Lexicon (τ : Type) where
  porter : Tokenizer τ
  trigram : Tokenizer τ

namespace Lexicon

variable {τ : Type} (x : Lexicon τ)

def promptsFts : Indexing τ PromptRow where
  tokenizer := x.porter
  columns p := [some p.ftsHead, some p.ftsTail]
  onDelete := true
  onUpdate := true

def promptsGrep : Indexing τ PromptRow where
  tokenizer := x.trigram
  columns p := [some p.ftsText]
  onDelete := true
  onUpdate := true

def browseEventsFts : Indexing τ CapturedPage where
  tokenizer := x.porter
  columns p := [p.title, some p.url, some p.text]
  onDelete := true
  onUpdate := true

/-- The one with the trigger for insertions only. -/
def browseGrep : Indexing τ CapturedPage where
  tokenizer := x.trigram
  columns p := [some p.url, some (p.title.getD "")]
  onDelete := false
  onUpdate := false

def classNodesFts : Indexing τ CatalogRow where
  tokenizer := x.porter
  columns n := [some n.title, some (n.summary.getD "")]
  onDelete := true
  onUpdate := true

end Lexicon

/-! ### The tables and their writes -/

/-- The three tables and the five indexes. -/
structure LexicalStore (τ : Type) where
  prompts : Table PromptRow.id
  pages : Table CapturedPage.key
  nodes : Table CatalogRow.rowid
  promptsFts : Index τ ℤ
  promptsGrep : Index τ ℤ
  browseEventsFts : Index τ ℤ
  browseGrep : Index τ ℤ
  classNodesFts : Index τ ℤ

/-- A statement on one of the tables, or on the notes. -/
inductive LexicalWrite
  | prompts (c : Change PromptRow.id)
  | pages (c : Change CapturedPage.key)
  | nodes (c : Change CatalogRow.rowid)
  | notes

/-- Nothing is captured. -/
def LexicalStore.empty {τ : Type} : LexicalStore τ where
  prompts := ∅
  pages := ∅
  nodes := ∅
  promptsFts _ := 0
  promptsGrep _ := 0
  browseEventsFts _ := 0
  browseGrep _ := 0
  classNodesFts _ := 0

section

variable {τ : Type} [DecidableEq τ] (x : Lexicon τ)

/-- A write and what the triggers do at it. -/
def LexicalStore.write (s : LexicalStore τ) : LexicalWrite → LexicalStore τ
  | .prompts c => { s with
      prompts := c.apply s.prompts
      promptsFts := x.promptsFts.follow s.prompts s.promptsFts c
      promptsGrep := x.promptsGrep.follow s.prompts s.promptsGrep c }
  | .pages c => { s with
      pages := c.apply s.pages
      browseEventsFts := x.browseEventsFts.follow s.pages s.browseEventsFts c
      browseGrep := x.browseGrep.follow s.pages s.browseGrep c }
  | .nodes c => { s with
      nodes := c.apply s.nodes
      classNodesFts := x.classNodesFts.follow s.nodes s.classNodesFts c }
  | .notes => s

/-- The store after the writes, in their order. -/
def runLexical (ws : List LexicalWrite) : LexicalStore τ := ws.foldl (LexicalStore.write x) .empty

omit [DecidableEq τ] in
/-- Every index is that of the rows that are there. -/
structure LexicalStore.Exact (s : LexicalStore τ) : Prop where
  promptsFts : x.promptsFts.Exact s.prompts s.promptsFts
  promptsGrep : x.promptsGrep.Exact s.prompts s.promptsGrep
  browseEventsFts : x.browseEventsFts.Exact s.pages s.browseEventsFts
  browseGrep : x.browseGrep.Exact s.pages s.browseGrep
  classNodesFts : x.classNodesFts.Exact s.nodes s.classNodesFts

/-- The write leaves alone what the url and the title of a page have for
tokens. -/
def LexicalWrite.KeepsNames (s : LexicalStore τ) : LexicalWrite → Prop
  | .pages (.update p f _) =>
    ∀ r ∈ s.pages.rows, p r = true → x.browseGrep.of (f r) = x.browseGrep.of r
  | .pages (.delete p) => ∀ r ∈ s.pages.rows, p r = true → x.browseGrep.of r = 0
  | _ => True

end

/-! ### The writes of the code -/

namespace LexicalWrite

/-- `compact_prompt_body`, for any reason. -/
def compact (now prompt : ℤ) (gist reason gistSource : String) : LexicalWrite :=
  .prompts (.update (fun q => q.id = prompt && (q.gist = none || reason = "forget"))
    (PromptRow.compacted now gist reason gistSource)
    (PromptRow.id_compacted now gist reason gistSource))

/-- `restore_prompt_body`. -/
def restore (prompt : ℤ) (bodyHash body : String) : LexicalWrite :=
  .prompts (.update (fun q => q.id = prompt && q.bodyHash = bodyHash) (PromptRow.restored body)
    (PromptRow.id_restored body))

/-- `set_caption_for_hash`. -/
def setCaption (contextHash caption : String) : LexicalWrite :=
  .pages (.update (fun q => q.contextHash = contextHash) (fun q => { q with caption := some caption })
    fun _ => rfl)

/-- `set_shot_key_for_hash`. -/
def setShotKey (contextHash key : String) : LexicalWrite :=
  .pages (.update (fun q => q.contextHash = contextHash) (fun q => { q with shotKey := some key })
    fun _ => rfl)

/-- `clear_shot_key`. -/
def clearShotKey (key : String) : LexicalWrite :=
  .pages (.update (fun q => q.shotKey = some key) (fun q => { q with shotKey := none }) fun _ => rfl)

/-- `forget_browse_event`. -/
def forgetPage (id : ℤ) : LexicalWrite :=
  .pages (.update (fun q => q.id = id)
    (fun q => { q with url := "", title := none, text := "", caption := none, shotKey := none })
    fun _ => rfl)

/-- What `forget_derived_copies_locked` does to the digests over the source. -/
def releaseDigests (nodes : List String) : LexicalWrite :=
  .nodes (.update (fun n => n.kind = .digest && n.id ∈ nodes) (fun n => { n with summary := none })
    fun _ => rfl)

end LexicalWrite

/-- `compact` is what a compaction that takes place does to the prompts. -/
theorem prompts_compactPromptBody {h : Host} {s t : Store} {now prompt seq : ℤ}
    {gist reason gistSource actor : String} {archived : Bool}
    (hc : s.compactPromptBody h now prompt gist reason gistSource actor archived =
      .ok (t, some seq)) :
    ∃ c, LexicalWrite.compact now prompt gist reason gistSource = .prompts c ∧
      t.prompts = c.apply s.prompts := by
  obtain ⟨p, -, -, hprompts, -, -⟩ := Store.compactPromptBody_ok hc
  exact ⟨_, rfl, hprompts⟩

/-- `restore` is what a restore that takes place does to them. -/
theorem prompts_restorePromptBody {h : Host} {s t : Store} {prompt : ℤ}
    (hr : s.restorePromptBody h prompt = .ok (t, true)) :
    ∃ bodyHash body c, LexicalWrite.restore prompt bodyHash body = .prompts c ∧
      t.prompts = c.apply s.prompts := by
  obtain ⟨hfalse, -⟩ | ⟨-, a, p, body, -, -, -, -, -, rfl⟩ := Store.restorePromptBody_ok hr
  · cases hfalse
  · exact ⟨a.bodyHash, body, _, rfl, rfl⟩

/-! ### One write -/

section

variable {τ : Type} [DecidableEq τ] {x : Lexicon τ} {s : LexicalStore τ}

omit [DecidableEq τ] in
theorem exact_empty : LexicalStore.Exact x .empty where
  promptsFts := Indexing.exact_empty
  promptsGrep := Indexing.exact_empty
  browseEventsFts := Indexing.exact_empty
  browseGrep := Indexing.exact_empty
  classNodesFts := Indexing.exact_empty

/-- An index that is told of everything follows. -/
theorem exact_follow_told {ρ κ : Type} [DecidableEq κ] {key : ρ → κ} {y : Indexing τ ρ}
    {content : Table key} {index : Index τ κ} (hd : y.onDelete = true) (hu : y.onUpdate = true)
    (hy : y.Exact content index) (c : Change key) :
    y.Exact (c.apply content) (y.follow content index c) :=
  (Indexing.exact_follow_iff hy c).mpr (Indexing.keeps_of_told hd hu c)

omit [DecidableEq τ] in
theorem keeps_browseGrep_iff (c : Change CapturedPage.key) :
    x.browseGrep.Keeps s.pages c ↔ (LexicalWrite.pages c).KeepsNames x s := by
  cases c <;> simp [Indexing.Keeps, LexicalWrite.KeepsNames, Lexicon.browseGrep]

/-- **A write leaves the indexes exact exactly if it leaves the names of the
pages.** -/
theorem exact_write_iff (hs : s.Exact x) (w : LexicalWrite) :
    (s.write x w).Exact x ↔ w.KeepsNames x s := by
  cases w with
  | prompts c =>
    refine iff_of_true ?_ trivial
    exact { hs with
      promptsFts := exact_follow_told rfl rfl hs.promptsFts c
      promptsGrep := exact_follow_told rfl rfl hs.promptsGrep c }
  | pages c =>
    rw [← keeps_browseGrep_iff c, ← Indexing.exact_follow_iff hs.browseGrep c]
    constructor
    · exact fun h => h.browseGrep
    · exact fun h => { hs with
        browseEventsFts := exact_follow_told rfl rfl hs.browseEventsFts c
        browseGrep := h }
  | nodes c =>
    refine iff_of_true ?_ trivial
    exact { hs with classNodesFts := exact_follow_told rfl rfl hs.classNodesFts c }
  | notes => exact iff_of_true hs trivial

omit [DecidableEq τ] in
/-- No other write of the code to a page that is there touches its names. -/
theorem keepsNames_captioned (key caption : String) :
    (LexicalWrite.setCaption key caption).KeepsNames x s ∧
      (LexicalWrite.setShotKey key caption).KeepsNames x s ∧
      (LexicalWrite.clearShotKey key).KeepsNames x s :=
  ⟨fun _ _ _ => rfl, fun _ _ _ => rfl, fun _ _ _ => rfl⟩

omit [DecidableEq τ] in
theorem browseGrep_forgotten (q : CapturedPage) :
    x.browseGrep.of { q with url := "", title := none, text := "", caption := none, shotKey := none } =
      0 :=
  postings_blank x.trigram fun c hc => by
    rcases List.mem_cons.mp hc with rfl | hc
    · rfl
    · rw [List.mem_singleton.mp hc]
      rfl

omit [DecidableEq τ] in
/-- Forgetting a page touches them unless they have no tokens. -/
theorem keepsNames_forgetPage_iff (id : ℤ) : (LexicalWrite.forgetPage id).KeepsNames x s ↔
    ∀ q, s.pages.get? id = some q → x.browseGrep.of q = 0 := by
  constructor
  · intro h q hq
    obtain ⟨hmem, hid⟩ := Table.get?_eq_some.mp hq
    exact (h q hmem (decide_eq_true hid)).symm.trans (browseGrep_forgotten q)
  · intro h q hq hid
    have hkey : CapturedPage.key q = id := of_decide_eq_true hid
    have hget : s.pages.get? id = some q := hkey ▸ Table.mem_rows.mp hq
    exact (browseGrep_forgotten q).trans (h q hget).symm

omit [DecidableEq τ] in
/-- In exact indexes there is no token of a page that was forgotten. -/
theorem LexicalStore.Exact.forgotten (hs : s.Exact x) {id : ℤ} {q : CapturedPage}
    (hq : s.pages.get? id = some q) (hurl : q.url = "") (htitle : q.title = none)
    (htext : q.text = "") : s.browseEventsFts id = 0 ∧ s.browseGrep id = 0 := by
  constructor
  · refine hs.browseEventsFts.blank hq fun c hc => ?_
    simp only [Lexicon.browseEventsFts, htitle, hurl, htext, List.mem_cons, List.not_mem_nil,
      or_false] at hc
    rcases hc with rfl | rfl | rfl <;> rfl
  · refine hs.browseGrep.blank hq fun c hc => ?_
    simp only [Lexicon.browseGrep, htitle, hurl, List.mem_cons, List.not_mem_nil, or_false] at hc
    rcases hc with rfl | rfl <;> rfl

/-- Nor, in what is indexed of a prompt that was forgotten, is there a word of
its own: it has what its gist says. -/
theorem ftsText_forgotten (p : PromptRow) (now : ℤ) (gist gistSource : String) :
    (p.compacted now gist "forget" gistSource).ftsText =
      if p.role = some "agent" then ""
      else if p.role = some "system" then substrTo gist systemIndexChars
      else gist := by
  unfold PromptRow.ftsText PromptRow.bodyOrGist
  simp [nullif]

end

/-! ### A run -/

/-- Every character a token. -/
def charTokens : Tokenizer Char := ⟨String.toList, rfl⟩

end PolisMemory
