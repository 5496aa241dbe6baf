/-
# The turns of a transcript

`crates/polis-memory/src/transcript.rs`: the assistant's turns in the lines of a session's
transcript, one JSON value a line. A turn is what the assistant says from one typed
message to the next, with a note of the files that it edits; tool results and
subagents are passed over.

A transcript is read in pieces of whole lines. The texts come out the same however it is
cut (`texts_groups`), and each is in a turn (`said_in_turn`); the turns do if no piece
ends within one (`assistantTurns_append`).

What a line says in JSON, and the instant that a timestamp names, are given by a
`Reader`.

Key definitions: `completePrefix`, `lines`, `assistantTurns`, `groups`, `Fresh`.
Key theorems: `lines_append`, `assistantTurns_eq`, `assistantTurns_append`, `said_in_turn`.
-/
import Mathlib.Data.List.DropRight
import PolisMemory.Chunks
import PolisMemory.JsonValue

namespace PolisMemory
namespace Transcript

open JsonText

/-! ### Lines -/

/-- `\n` -/
abbrev newline : UInt8 := 10

/-- `complete_prefix` -/
def completePrefix (bytes : List UInt8) : ℕ :=
  match bytes.reverse.findIdx? (· = newline) with
  | some i => bytes.length - i
  | none => 0

/-- `str::lines` -/
def lines : List UInt8 → List (List UInt8)
  | [] => []
  | b :: bs =>
    if b = newline then [] :: lines bs
    else
      match lines bs with
      | [] => [[b]]
      | l :: ls => (b :: l) :: ls

/-- Nothing, or whole lines. -/
def LineEnded (bytes : List UInt8) : Prop := ∀ b ∈ bytes.getLast?, b = newline

section lines

variable {p q : List UInt8}

theorem LineEnded.of_cons {b c : UInt8} (h : LineEnded (b :: c :: p)) : LineEnded (c :: p) := by
  intro d hd
  exact h d (by rwa [List.getLast?_cons_cons])

theorem LineEnded.append (hp : LineEnded p) (hq : LineEnded q) : LineEnded (p ++ q) := by
  intro b hb
  cases q with
  | nil => exact hp b (by rwa [List.append_nil] at hb)
  | cons c q => exact hq b (by rwa [List.getLast?_append_of_ne_nil _ (List.cons_ne_nil c q)] at hb)

/-- More than nothing has a line. -/
theorem exists_line (b : UInt8) (p : List UInt8) : ∃ l ls, lines (b :: p) = l :: ls := by
  unfold lines
  split_ifs
  · exact ⟨_, _, rfl⟩
  · cases lines p <;> exact ⟨_, _, rfl⟩

/-- **The lines of whole lines and more.** -/
theorem lines_append (hp : LineEnded p) : lines (p ++ q) = lines p ++ lines q := by
  induction p with
  | nil => rfl
  | cons b p ih =>
    cases p with
    | nil =>
      have hb : b = newline := hp b rfl
      subst hb
      rfl
    | cons c p =>
      have ih := ih hp.of_cons
      rw [List.cons_append, lines, lines, ih]
      by_cases hb : b = newline
      · rw [if_pos hb, if_pos hb, List.cons_append]
      · obtain ⟨l, ls, hl⟩ := exists_line c p
        rw [if_neg hb, if_neg hb, hl]
        rfl

theorem completePrefix_le (bytes : List UInt8) : completePrefix bytes ≤ bytes.length := by
  unfold completePrefix
  cases bytes.reverse.findIdx? (· = newline) <;> simp

/-- A prefix that is whole lines is no longer than the complete one. -/
theorem le_completePrefix {n : ℕ} (hn : n ≤ q.length) (h : LineEnded (q.take n)) :
    n ≤ completePrefix q := by
  rcases Nat.eq_zero_or_pos n with rfl | hpos
  · exact Nat.zero_le _
  have hlt : n - 1 < q.length := by omega
  have hlast : q[n - 1]? = some newline := by
    have hget : (q.take n).getLast? = some q[n - 1] := by
      rw [List.getLast?_eq_getElem?, List.length_take_of_le hn, List.getElem?_take_of_lt (by omega),
        List.getElem?_eq_getElem]
    rw [List.getElem?_eq_getElem (by omega), h _ hget]
  have hrev : q.reverse[q.length - n]? = some newline := by
    rw [List.getElem?_reverse (by omega), show q.length - 1 - (q.length - n) = n - 1 by omega, hlast]
  unfold completePrefix
  cases hfind : q.reverse.findIdx? (· = newline) with
  | none =>
    have hnone := List.findIdx?_eq_none_iff.mp hfind newline (List.mem_of_getElem? hrev)
    simp at hnone
  | some i =>
    have hle : i ≤ q.length - n := by
      by_contra hlt
      obtain ⟨hi, -, hfirst⟩ := List.findIdx?_eq_some_iff_getElem.mp hfind
      have hno := hfirst (q.length - n) (by omega)
      obtain ⟨hlt', hget⟩ := List.getElem?_eq_some_iff.mp hrev
      simp [hget] at hno
    show n ≤ q.length - i
    omega

/-- The complete prefix is whole lines. -/
theorem lineEnded_completePrefix (bytes : List UInt8) :
    LineEnded (bytes.take (completePrefix bytes)) := by
  unfold completePrefix
  cases hfind : bytes.reverse.findIdx? (· = newline) with
  | none => exact fun b hb => by cases hb
  | some i =>
    obtain ⟨hi, hat, -⟩ := List.findIdx?_eq_some_iff_getElem.mp hfind
    have hlt : i < bytes.length := by simpa using hi
    intro b hb
    dsimp only at hb
    rw [List.getLast?_eq_getElem?, List.length_take_of_le (by omega),
      List.getElem?_take_of_lt (by omega), List.getElem?_eq_getElem (by omega)] at hb
    obtain rfl := Option.some.inj hb
    rw [List.getElem_reverse] at hat
    simpa [show bytes.length - i - 1 = bytes.length - 1 - i by omega] using hat

end lines

/-! ### Turns -/

/-- One assistant turn. -/
structure Turn where
  body : String
  ts : Option ℤ
  deriving DecidableEq, Repr

/-- `MAX_TURN_CHARS` -/
def maxTurnChars : ℕ := 16000

/-- `EDIT_TOOLS` -/
def editTools : List String := ["Edit", "MultiEdit", "Write", "NotebookEdit"]

/-- How a line is read: as a JSON value (`from_utf8_lossy`, `from_str`), and a timestamp
as an instant (`parse_timestamp_ms`). -/
structure Reader where
  entry : List UInt8 → Option Value
  instant : String → Option ℤ

/-- The turn that is being built. -/
structure Building where
  texts : List String
  edited : List String
  ts : Option ℤ
  deriving DecidableEq, Repr

namespace Building

/-- `Building::default` -/
def empty : Building := ⟨[], [], none⟩

/-- The turn, unless nothing was said. -/
def turn? (b : Building) : Option Turn :=
  let text := trim ("\n\n".intercalate b.texts)
  if text = "" then none
  else
    let body :=
      if maxTurnChars < text.length then String.ofList (text.toList.take maxTurnChars) ++ "…" else text
    let body := if b.edited = [] then body else body ++ "\n\n[edited: " ++ ", ".intercalate b.edited ++ "]"
    some ⟨body, b.ts⟩

/-- `Building::flush` -/
def flush (b : Building) (out : List Turn) : List Turn × Building := (out ++ b.turn?.toList, empty)

end Building

/-- The text of a member. -/
def textAt (v : Value) (key : String) : Option String := (v.get key).bind Value.asStr

/-- `isSidechain` -/
def sidechain (v : Value) : Bool :=
  match v.get "isSidechain" with
  | some (.bool true) => true
  | _ => false

/-- `/message/content` -/
def content (v : Value) : Option Value := (v.get "message").bind fun m => m.get "content"

/-- The user's message was typed; a tool result is none. -/
def typed (v : Value) : Bool :=
  match content v with
  | some (.str _) => true
  | some (.arr blocks) => blocks.any fun block => textAt block "type" = some "text"
  | _ => false

/-- A path as it is shown, relative to the working directory. -/
def shown (cwd : Option String) (path : String) : String :=
  match cwd.bind fun c => path.toList.dropPrefix? (c.toList.rdropWhile (· = '/')) with
  | some rest => String.ofList (rest.dropWhile (· = '/'))
  | none => path

/-- The text of a block, unless it is blank. -/
def textOf (block : Value) : Option String :=
  if textAt block "type" = some "text" then ((textAt block "text").filter fun t => trim t ≠ "").map trim
  else none

/-- The path that a block edits. -/
def editOf (block : Value) : Option String :=
  if textAt block "type" = some "tool_use" ∧ ∃ n ∈ textAt block "name", n ∈ editTools then
    ((block.get "input").bind fun i => (i.get "file_path").or (i.get "notebook_path")).bind Value.asStr
  else none

/-- A block of the assistant's. -/
def addBlock (cwd : Option String) (b : Building) (block : Value) : Building :=
  match textOf block, editOf block with
  | some text, _ => { b with texts := b.texts ++ [text] }
  | none, some path =>
    if shown cwd path ∈ b.edited then b else { b with edited := b.edited ++ [shown cwd path] }
  | none, none => b

section turns

variable (R : Reader) (cwd : Option String)

/-- An entry of the assistant's. -/
def hear (b : Building) (v : Value) : Building :=
  let b := { b with ts := ((textAt v "timestamp").bind R.instant).or b.ts }
  match content v with
  | some (.arr blocks) => blocks.foldl (addBlock cwd) b
  | _ => b

/-- One line, read. -/
def addEntry (s : List Turn × Building) (v : Value) : List Turn × Building :=
  if sidechain v then s
  else if textAt v "type" = some "user" then (if typed v then s.2.flush s.1 else s)
  else if textAt v "type" = some "assistant" then (s.1, hear R cwd s.2 v)
  else s

/-- The entries of some lines. -/
def entriesOf (jsonl : List UInt8) : List Value := (lines jsonl).filterMap R.entry

/-- `assistant_turns` -/
def assistantTurns (jsonl : List UInt8) : List Turn :=
  let s := (entriesOf R jsonl).foldl (addEntry R cwd) ([], .empty)
  (s.2.flush s.1).1

/-! ### Groups -/

/-- A typed message, which starts the next turn. -/
def starts (v : Value) : Bool := !sidechain v && decide (textAt v "type" = some "user") && typed v

/-- The assistant speaks. -/
def speaks (v : Value) : Bool := !sidechain v && decide (textAt v "type" = some "assistant")

/-- What is said from one typed message to the next. -/
def groups : Building → List Value → List Building
  | b, [] => [b]
  | b, v :: vs =>
    if starts v then b :: groups .empty vs
    else groups (if speaks v then hear R cwd b v else b) vs

/-- Nobody speaks before a turn is started. -/
def Fresh : List Value → Prop
  | [] => True
  | v :: vs => starts v ∨ (¬speaks v ∧ Fresh vs)

instance decFresh : (vs : List Value) → Decidable (Fresh vs)
  | [] => inferInstanceAs (Decidable True)
  | _ :: vs =>
    have := decFresh vs
    inferInstanceAs (Decidable (_ ∨ (¬_ ∧ Fresh vs)))

/-- The turns of some entries. -/
def turnsOf (vs : List Value) : List Turn := (groups R cwd .empty vs).filterMap Building.turn?

/-- The texts that the assistant says in an entry. -/
def said (v : Value) : List String :=
  if speaks v then
    match content v with
    | some (.arr blocks) => blocks.filterMap textOf
    | _ => []
  else []

variable {R cwd}

theorem addEntry_eq (s : List Turn × Building) (v : Value) : addEntry R cwd s v =
    if starts v then s.2.flush s.1 else (s.1, if speaks v then hear R cwd s.2 v else s.2) := by
  unfold addEntry starts speaks
  by_cases hs : sidechain v = true
  · simp [hs]
  by_cases hu : textAt v "type" = some "user"
  · cases ht : typed v <;> simp [hs, hu]
  by_cases ha : textAt v "type" = some "assistant"
  · simp [hs, ha]
  · simp [hs, hu, ha]

theorem foldl_addEntry (vs : List Value) : ∀ s : List Turn × Building,
    (((vs.foldl (addEntry R cwd) s).2.flush (vs.foldl (addEntry R cwd) s).1).1) =
      s.1 ++ (groups R cwd s.2 vs).filterMap Building.turn? := by
  induction vs with
  | nil =>
    intro s
    cases hturn : s.2.turn? <;> simp [groups, Building.flush, hturn]
  | cons v vs ih =>
    intro s
    rw [List.foldl_cons, ih, addEntry_eq, groups]
    split_ifs
    · cases hturn : s.2.turn? <;> simp [Building.flush, hturn]
    · rfl
    · rfl

/-- **The turns are what is said from one typed message to the next.** -/
theorem assistantTurns_eq (jsonl : List UInt8) :
    assistantTurns R cwd jsonl = turnsOf R cwd (entriesOf R jsonl) := by
  unfold assistantTurns turnsOf
  rw [foldl_addEntry, List.nil_append]

@[simp] theorem turn?_empty : Building.empty.turn? = none := by decide

/-- A typed message closes the group that is open. -/
theorem turns_started {v : Value} (hv : starts v = true) (b : Building) (vs : List Value) :
    (groups R cwd b (v :: vs)).filterMap Building.turn? =
      (groups R cwd b []).filterMap Building.turn? ++ turnsOf R cwd (v :: vs) := by
  cases hturn : b.turn? <;> simp [turnsOf, groups, hv, hturn]

/-- An entry that neither starts a turn nor speaks leaves no trace. -/
theorem groups_quiet {v : Value} (hstart : ¬starts v = true) (hquiet : ¬speaks v = true) (b : Building)
    (vs : List Value) : groups R cwd b (v :: vs) = groups R cwd b vs := by
  rw [groups, if_neg hstart, if_neg hquiet]

theorem turns_open (b : Building) : ∀ vs, Fresh vs →
    (groups R cwd b vs).filterMap Building.turn? =
      (groups R cwd b []).filterMap Building.turn? ++ turnsOf R cwd vs := by
  intro vs hfresh
  induction vs with
  | nil => simp [turnsOf, groups]
  | cons v vs ih =>
    by_cases hstart : starts v = true
    · exact turns_started hstart b vs
    · obtain ⟨hquiet, hfresh⟩ := hfresh.resolve_left hstart
      rw [turnsOf, groups_quiet hstart hquiet, groups_quiet hstart hquiet]
      exact ih hfresh

theorem turnsOf_from (vs : List Value) (b : Building) : ∀ vs', Fresh vs' →
    (groups R cwd b (vs ++ vs')).filterMap Building.turn? =
      (groups R cwd b vs).filterMap Building.turn? ++ turnsOf R cwd vs' := by
  induction vs generalizing b with
  | nil => exact turns_open b
  | cons v vs ih =>
    intro vs' hfresh
    rw [List.cons_append, groups, groups]
    split_ifs
    · rw [List.filterMap_cons, List.filterMap_cons, ih _ vs' hfresh]
      cases b.turn? <;> rfl
    · exact ih _ vs' hfresh
    · exact ih _ vs' hfresh

/-- The turns of entries behind which a turn is started, and of those behind. -/
theorem turnsOf_append (vs : List Value) {vs' : List Value} (h : Fresh vs') :
    turnsOf R cwd (vs ++ vs') = turnsOf R cwd vs ++ turnsOf R cwd vs' :=
  turnsOf_from vs .empty vs' h

theorem entriesOf_append {p : List UInt8} (hp : LineEnded p) (q : List UInt8) :
    entriesOf R (p ++ q) = entriesOf R p ++ entriesOf R q := by
  rw [entriesOf, lines_append hp, List.filterMap_append, entriesOf, entriesOf]

/-- **The turns of a transcript that is cut between two turns.** -/
theorem assistantTurns_append {p q : List UInt8} (hp : LineEnded p) (hq : Fresh (entriesOf R q)) :
    assistantTurns R cwd (p ++ q) = assistantTurns R cwd p ++ assistantTurns R cwd q := by
  rw [assistantTurns_eq, entriesOf_append hp, turnsOf_append _ hq, assistantTurns_eq, assistantTurns_eq]

theorem Fresh.of_append {vs vs' : List Value} (h : Fresh (vs ++ vs')) : Fresh vs := by
  induction vs with
  | nil => trivial
  | cons v vs ih => exact h.imp_right fun hq => ⟨hq.1, ih hq.2⟩

/-! ### Texts -/

theorem texts_addBlock (b : Building) (block : Value) :
    (addBlock cwd b block).texts = b.texts ++ (textOf block).toList := by
  unfold addBlock
  cases textOf block with
  | some text => rfl
  | none =>
    cases editOf block with
    | none => simp
    | some path =>
      by_cases hpath : shown cwd path ∈ b.edited <;> simp [hpath]

theorem texts_foldl (blocks : List Value) : ∀ b : Building,
    (blocks.foldl (addBlock cwd) b).texts = b.texts ++ blocks.filterMap textOf := by
  induction blocks with
  | nil => simp
  | cons block blocks ih =>
    intro b
    rw [List.foldl_cons, ih, texts_addBlock]
    cases htext : textOf block <;> simp [htext]

theorem texts_hear (b : Building) {v : Value} (hv : speaks v = true) :
    (hear R cwd b v).texts = b.texts ++ said v := by
  unfold hear said
  rw [if_pos hv]
  dsimp only
  split
  · exact texts_foldl _ _
  · simp

/-- **Each text is in one group, in order.** -/
theorem texts_groups (vs : List Value) : ∀ b : Building,
    (groups R cwd b vs).flatMap Building.texts = b.texts ++ vs.flatMap said := by
  induction vs with
  | nil => simp [groups]
  | cons v vs ih =>
    intro b
    rw [groups, List.flatMap_cons]
    by_cases hstart : starts v = true
    · have hquiet : said v = [] := by
        have hnot : speaks v ≠ true := by
          intro hspeaks
          simp only [starts, speaks, Bool.and_eq_true, decide_eq_true_eq] at hstart hspeaks
          rw [hstart.1.2] at hspeaks
          exact absurd (Option.some.inj hspeaks.2) (by decide)
        rw [said, if_neg hnot]
      rw [if_pos hstart, List.flatMap_cons, ih, hquiet]
      rfl
    · rw [if_neg hstart, ih]
      by_cases hspeaks : speaks v = true
      · rw [if_pos hspeaks, texts_hear b hspeaks, List.append_assoc]
      · rw [if_neg hspeaks, said, if_neg hspeaks, List.nil_append]

/-- A text that is not blank is not, once trimmed. -/
theorem exists_of_trim {s : String} (h : trim s ≠ "") : ∃ c ∈ (trim s).toList, isWhitespace c = false := by
  have hlist : (trim s).toList ≠ [] := fun hnil => h (String.toList_inj.mp hnil)
  unfold trim at hlist ⊢
  rw [String.toList_ofList] at hlist ⊢
  generalize (s.toList.dropWhile isWhitespace).reverse = cs at hlist ⊢
  cases hdrop : cs.dropWhile isWhitespace with
  | nil => exact absurd (by rw [hdrop]; rfl) hlist
  | cons c rest =>
    have hhead := List.head?_dropWhile_not isWhitespace cs
    rw [hdrop] at hhead
    exact ⟨c, by simp, by simpa using hhead⟩

theorem exists_of_textOf {block : Value} {t : String} (h : textOf block = some t) :
    ∃ c ∈ t.toList, isWhitespace c = false := by
  unfold textOf at h
  split_ifs at h
  obtain ⟨u, hu, rfl⟩ := Option.map_eq_some_iff.mp h
  exact exists_of_trim (by simpa using (Option.filter_eq_some_iff.mp hu).2)

theorem exists_of_said {v : Value} {t : String} (h : t ∈ said v) :
    ∃ c ∈ t.toList, isWhitespace c = false := by
  unfold said at h
  split_ifs at h
  · split at h
    · obtain ⟨block, -, ht⟩ := List.mem_filterMap.mp h
      exact exists_of_textOf ht
    · cases h
  · cases h

theorem mem_intercalate {c : Char} {t : String} (sep : String) (hc : c ∈ t.toList) {ts : List String}
    (ht : t ∈ ts) : c ∈ (sep.intercalate ts).toList := by
  induction ts with
  | nil => cases ht
  | cons u ts ih =>
    rcases ts.eq_nil_or_concat with rfl | ⟨_, _, rfl⟩
    · obtain rfl := List.mem_singleton.mp ht
      rwa [String.intercalate_singleton]
    · rw [String.intercalate_cons_of_ne_nil (by simp), String.toList_append, String.toList_append]
      rcases List.mem_cons.mp ht with rfl | ht
      · simp [hc]
      · exact List.mem_append_right _ (ih ht)

/-- A group in which something is said is a turn. -/
theorem exists_turn {b : Building} {t : String} (ht : t ∈ b.texts)
    (hspoken : ∃ c ∈ t.toList, isWhitespace c = false) : ∃ turn, b.turn? = some turn := by
  obtain ⟨c, hc, hspace⟩ := hspoken
  have hne := trim_ne_empty (mem_intercalate "\n\n" hc ht) hspace
  unfold Building.turn?
  exact ⟨_, if_neg hne⟩

variable (R cwd) in
/-- A turn of some lines that says a text, though it may be cut before it. -/
def Carries (jsonl : List UInt8) (turn : Turn) (t : String) : Prop :=
  ∃ b ∈ groups R cwd .empty (entriesOf R jsonl), t ∈ b.texts ∧ b.turn? = some turn

/-- **Whatever is said is in a turn.** -/
theorem said_in_turn {jsonl : List UInt8} {t : String} (ht : t ∈ (entriesOf R jsonl).flatMap said) :
    ∃ turn ∈ assistantTurns R cwd jsonl, Carries R cwd jsonl turn t := by
  have hmem : t ∈ (groups R cwd .empty (entriesOf R jsonl)).flatMap Building.texts := by
    rw [texts_groups]
    exact ht
  obtain ⟨b, hb, htb⟩ := List.mem_flatMap.mp hmem
  obtain ⟨v, -, hv⟩ := List.mem_flatMap.mp ht
  obtain ⟨turn, hturn⟩ := exists_turn htb (exists_of_said hv)
  rw [assistantTurns_eq]
  exact ⟨turn, List.mem_filterMap.mpr ⟨b, hb, hturn⟩, b, hb, htb, hturn⟩

end turns

end Transcript
end PolisMemory
