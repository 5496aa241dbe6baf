/-
# The markdown mirror

`crates/polis-memory/src/mirror.rs`: one file for each ledger event, and one
for each user note. `sync` writes the files of the events past a cursor, and
the files of all notes if one of these events is a `note`; `rebuild` clears the
managed directories and syncs from the start. A prompt's words are read from
its row, and a compaction, a restore or a forget changes the row of an event
that was mirrored before; forgetting a note is no `note` event. Neither
reaches the files that are there.

So a sync leaves what a rebuild would as far as the rows it does not read are
what they were at the last one (`sync_rebuilds`). The revisions are
those of the host, and take no part in it.

Key definitions: `MirrorStore`, `MirrorStore.collectNotes`, `rebuild`,
`MirrorAct`, `MirrorWorld.sync`, `MirrorWorld.Unread`.
Key theorems: `latest_append`, `grows_act`, `sync_rebuilds`.
-/
import PolisMemory.Append
import PolisMemory.Notes
import PolisMemory.Tables

namespace PolisMemory

open Tables

/-! ### Files -/

/-- A file: its path under the root, and its content. -/
structure MirrorNote where
  relPath : String
  content : String
  deriving DecidableEq, Repr

/-- The managed files, by their paths. -/
abbrev MirrorFiles : Type := String → Option String

/-- `write_notes`. -/
def writeNotes (files : MirrorFiles) (notes : List MirrorNote) : MirrorFiles :=
  notes.foldl (fun files n => Function.update files n.relPath (some n.content)) files

/-- What the last of the notes with a path says. -/
def latest (notes : List MirrorNote) (path : String) : Option String :=
  (notes.reverse.find? fun n => n.relPath = path).map MirrorNote.content

theorem latest_append (xs ys : List MirrorNote) (path : String) :
    latest (xs ++ ys) path = (latest ys path).or (latest xs path) := by
  unfold latest
  rw [List.reverse_append, List.find?_append]
  cases List.find? _ ys.reverse <;> rfl

theorem latest_nil (path : String) : latest [] path = none := rfl

theorem latest_eq_none {notes : List MirrorNote} {path : String} :
    latest notes path = none ↔ ∀ n ∈ notes, n.relPath ≠ path := by
  unfold latest
  rw [Option.map_eq_none_iff, List.find?_eq_none]
  simp

/-- A file is what is written to its path last, or what it was. -/
theorem writeNotes_apply (path : String) : ∀ (notes : List MirrorNote) (files : MirrorFiles),
    writeNotes files notes path = (latest notes path).or (files path)
  | [], _ => rfl
  | n :: notes, files => by
    have ih := writeNotes_apply path notes (Function.update files n.relPath (some n.content))
    have hsplit : latest (n :: notes) path = (latest notes path).or (latest [n] path) :=
      latest_append [n] notes path
    rw [writeNotes, List.foldl_cons, ← writeNotes, ih, hsplit, Option.or_assoc]
    congr 1
    by_cases hpath : n.relPath = path
    · simp [latest, hpath]
    · simp [latest, hpath, Function.update_of_ne (Ne.symm hpath)]

/-! ### The store -/

/-- A row of `prompts`, as the mirror reads it. -/
structure MirrorPrompt where
  id : ℤ
  surface : String
  origin : String
  role : Option String
  missionId : Option String
  projectPath : Option String
  body : String
  threadKind : Option String
  threadId : Option String
  parentSessionId : Option String
  deriving DecidableEq, Repr

/-- The tables the mirror reads. -/
structure MirrorStore where
  ledger : LedgerTable
  prompts : AutoTable MirrorPrompt.id
  userNotes : Table UserNote.id

/-- An event joined to its prompt. -/
structure MirrorRow where
  event : LedgerEventRow
  prompt : Option MirrorPrompt

/-! ### Rendering -/

/-- `safe_segment`; no dot or blank is left to be trimmed. -/
def safeSegment (id : String) : String :=
  let out := String.ofList (id.toList.map fun c => if c.isAlphanum || c = '-' || c = '_' then c else '_')
  if out = "" then "_" else out

/-- `opt`. -/
def optText (s : Option String) : String := (s.filter (· ≠ "")).getD "-"

/-- `unwrap_or("-")`. -/
def textOrDash (s : Option String) : String := s.getD "-"

/-- `{:06}`. -/
def padSix (n : ℤ) : String :=
  String.ofList (List.replicate (6 - (i64ToString n).length) '0') ++ i64ToString n

namespace MirrorRow

variable (row : MirrorRow)

/-- The file's directory and name. -/
def relPath : String :=
  let e := row.event
  let name := s!"{padSix e.seq}-{e.kind}.md"
  match e.sessionId.filter (· ≠ ""),
      (row.prompt.bind MirrorPrompt.parentSessionId).filter (· ≠ ""),
      (row.prompt.bind MirrorPrompt.missionId).filter (· ≠ "") with
  | some sid, _, _ => s!"sessions/{safeSegment sid}/{name}"
  | none, some parent, _ => s!"sessions/{safeSegment parent}/{name}"
  | none, none, some mission => s!"missions/{safeSegment mission}/{name}"
  | none, none, none => s!"unfiled/{name}"

/-- `thread` of the front matter. -/
def thread : String :=
  match row.prompt.bind MirrorPrompt.threadKind, row.prompt.bind MirrorPrompt.threadId with
  | some kind, some id => if kind ≠ "" && id ≠ "" then s!"{kind}:{id}" else "-"
  | _, _ => "-"

/-- The front matter and the title. -/
def head : String :=
  let e := row.event
  s!"---\nentry_hash: {e.entryHash}\nseq: {i64ToString e.seq}\nkind: {e.kind}\nauthor: {e.author}\n" ++
  s!"surface: {optText (row.prompt.map MirrorPrompt.surface)}\n" ++
  s!"origin: {optText (row.prompt.map MirrorPrompt.origin)}\n" ++
  s!"role: {optText (row.prompt.bind MirrorPrompt.role)}\n" ++
  s!"session: {textOrDash e.sessionId}\n" ++
  s!"mission: {optText (row.prompt.bind MirrorPrompt.missionId)}\n" ++
  s!"thread: {row.thread}\n" ++
  s!"parent: {optText (row.prompt.bind MirrorPrompt.parentSessionId)}\n" ++
  s!"project: {optText (row.prompt.bind MirrorPrompt.projectPath)}\n" ++
  s!"ts: {i64ToString e.ts}\n---\n\n# {e.kind} · seq {i64ToString e.seq}\n\n"

/-- The words of the event, or what it references. -/
def bodyText (e : LedgerEventRow) (body : Option String) : String :=
  match body.filter (· ≠ "") with
  | some b => if b.toList.getLast? = some '\n' then b else b ++ "\n"
  | none =>
    s!"_A `{e.kind}` decision/curation event referencing {textOrDash e.refKind} " ++
    s!"`{textOrDash e.refId}`._\n\npayload_hash: `{e.payloadHash}`\n"

/-- `note_for`. -/
def noteFor (body : Option String) : MirrorNote where
  relPath := row.relPath
  content := row.head ++ bodyText row.event body

end MirrorRow

/-- The front matter's target of a note. -/
def noteTarget (n : UserNote) : String :=
  match n.targetId with
  | some id => s!"{n.targetKind} {id}"
  | none => "standalone"

/-- `note_row_file`. -/
def noteRowFile (n : UserNote) : MirrorNote where
  relPath := s!"notes/note-{padSix n.id}.md"
  content :=
    let star := if n.starred then " ★" else ""
    let newline := if n.text.toList.getLast? = some '\n' then "" else "\n"
    s!"---\nnote_id: {i64ToString n.id}\ntarget: {noteTarget n}\nstarred: {n.starred}\n" ++
    s!"seq: {textOrDash (n.seq.map i64ToString)}\ncreated: {i64ToString n.createdAt}\n" ++
    s!"updated: {i64ToString n.updatedAt}\n---\n\n# note {i64ToString n.id}{star}\n\n" ++
    if n.text = "" then "" else n.text ++ newline

/-! ### Collecting -/

section

variable (revisionMarkdown : String → ℤ → Option String)

namespace MirrorStore

variable (s : MirrorStore)

/-- The row of an event's prompt. -/
def promptOf (e : LedgerEventRow) : Option MirrorPrompt := e.promptId.bind s.prompts.get?

/-- What a `prompt` event's words are now. -/
def bodyOf (e : LedgerEventRow) : Option String := (s.promptOf e).map MirrorPrompt.body

/-- `list_mirror_events`, all its batches. -/
def listMirrorEvents (sinceSeq : ℤ) : List MirrorRow :=
  (s.ledger.rows.filter fun e => max sinceSeq 0 < e.seq).map fun e => ⟨e, s.promptOf e⟩

/-- The body of a note: the prompt's words, or those of the revision. -/
def resolvedBody (row : MirrorRow) : Option String :=
  if row.event.kind = "prompt" then row.prompt.map MirrorPrompt.body
  else if row.event.kind = "revision" then
    match row.event.sessionId, row.event.versionNumber with
    | some sid, some ver => revisionMarkdown sid ver
    | _, _ => none
  else none

/-- `list_user_notes` without a limit. -/
def listUserNotes : List UserNote :=
  s.userNotes.rows.mergeSort fun a b =>
    decide (b.updatedAt < a.updatedAt ∨ b.updatedAt = a.updatedAt ∧ b.id ≤ a.id)

/-- The files of the notes. -/
def noteRowFiles : List MirrorNote := s.listUserNotes.map noteRowFile

/-- `collect_notes`: the files of the events past a seq, then, if one of them
is a `note`, of all notes; and the newest seq seen. -/
def collectNotes (sinceSeq : ℤ) : List MirrorNote × ℤ :=
  let rows := s.listMirrorEvents sinceSeq
  let notes := rows.map fun row => row.noteFor (resolvedBody revisionMarkdown row)
  let maxSeq := rows.foldl (fun seq row => max seq row.event.seq) sinceSeq
  if rows.any fun row => row.event.kind = "note" then (notes ++ s.noteRowFiles, maxSeq)
  else (notes, maxSeq)

/-- `rebuild`: the managed directories are cleared. -/
def rebuild : MirrorFiles := writeNotes (fun _ => none) (s.collectNotes revisionMarkdown 0).1

end MirrorStore

/-! ### What happens to a store -/

/-- What the callers do; `a` is the event's own part, a call that names no
prompt or note that is there does nothing. -/
inductive MirrorAct
  /-- A prompt is captured. -/
  | capture (p : MirrorPrompt) (a : LedgerAppend)
  /-- Any other event, about a prompt that is there or about none. -/
  | event (a : LedgerAppend)
  /-- A note is written or edited. -/
  | writeNote (n : UserNote) (a : LedgerAppend)
  /-- A prompt's body goes, for any reason, `forget` among them. -/
  | compact (prompt : ℤ) (a : LedgerAppend)
  /-- A body comes back: no event says so. -/
  | restore (prompt : ℤ) (body : String)
  | forgetNote (note ts : ℤ) (a : LedgerAppend)
  | sync

variable (sha256 : String → String)

/-- The store after the act. -/
def MirrorStore.act (s : MirrorStore) : MirrorAct → MirrorStore
  | .capture p a =>
    { s with
      prompts := s.prompts.insert fun id => { p with id }
      ledger := appended sha256 s.ledger
        { a with kind := "prompt", promptId := some s.prompts.nextId } }
  | .event a =>
    if a.promptId.all fun id => (s.prompts.get? id).isSome then
      { s with ledger := appended sha256 s.ledger a }
    else s
  | .writeNote n a =>
    { s with
      userNotes := s.userNotes.upsert n
      ledger := appended sha256 s.ledger { a with kind := "note", promptId := none } }
  | .compact prompt a =>
    if (s.prompts.get? prompt).isSome then
      { s with
        prompts := s.prompts.update (fun p => p.id = prompt) fun p => { p with body := "" }
        ledger := appended sha256 s.ledger { a with kind := "compaction", promptId := some prompt } }
    else s
  | .restore prompt body =>
    { s with prompts := s.prompts.update (fun p => p.id = prompt) fun p => { p with body } }
  | .forgetNote note ts a =>
    if (s.userNotes.get? note).isSome then
      { s with
        userNotes := s.userNotes.update (fun n => n.id = note) fun n =>
          { n with text := "", starred := false, updatedAt := ts }
        ledger := appended sha256 s.ledger { a with kind := "capture_forgotten", promptId := none } }
    else s
  | .sync => s

/-- The store, the managed files and the cursor, and the store that the last
sync met. -/
structure MirrorWorld where
  store : MirrorStore
  files : MirrorFiles
  lastSeq : ℤ
  met : MirrorStore

namespace MirrorWorld

/-- Nothing is captured or mirrored. -/
def empty : MirrorWorld where
  store := ⟨.empty, ∅, ∅⟩
  files _ := none
  lastSeq := 0
  met := ⟨.empty, ∅, ∅⟩

/-- `sync_if_enabled`. -/
def sync (x : MirrorWorld) : MirrorWorld :=
  let (notes, maxSeq) := x.store.collectNotes revisionMarkdown x.lastSeq
  { x with
    files := writeNotes x.files notes
    lastSeq := if x.lastSeq < maxSeq then maxSeq else x.lastSeq
    met := x.store }

/-- One act. -/
def act (x : MirrorWorld) : MirrorAct → MirrorWorld
  | .sync => x.sync revisionMarkdown
  | a => { x with store := x.store.act sha256 a }

/-- The world after the acts, in their order. -/
def run (as : List MirrorAct) : MirrorWorld := as.foldl (act revisionMarkdown sha256) empty

/-- What a sync does not read is what it was at the last one: the words of the
prompts that are mirrored, and the notes, unless a `note` is to be mirrored now
or none ever was. -/
structure Unread (x : MirrorWorld) : Prop where
  bodies : ∀ e ∈ x.met.ledger.rows, e.kind = "prompt" → x.store.bodyOf e = x.met.bodyOf e
  notes : (∃ e ∈ x.store.ledger.rows, x.lastSeq < e.seq ∧ e.kind = "note") ∨
    (∀ e ∈ x.met.ledger.rows, e.kind ≠ "note") ∨ x.store.userNotes = x.met.userNotes

end MirrorWorld

/-! ### What the writes keep -/

/-- The ledger grew at its end, the prompts that were there changed at most
their bodies, the notes that were there are there. -/
structure Grows (s t : MirrorStore) : Prop where
  ledger : ∃ new, t.ledger.rows = s.ledger.rows ++ new ∧
    ∀ e ∈ new, ∀ r ∈ s.ledger.rows, r.seq < e.seq
  prompts : ∀ id p, s.prompts.get? id = some p → ∃ body, t.prompts.get? id = some { p with body }
  notes : ∀ id, (s.userNotes.get? id).isSome → (t.userNotes.get? id).isSome

/-- Seqs are positive, and the prompt of an event is there. -/
structure Wired (s : MirrorStore) : Prop where
  seqs : ∀ e ∈ s.ledger.rows, 0 < e.seq
  prompts : ∀ e ∈ s.ledger.rows, ∀ id, e.promptId = some id → (s.prompts.get? id).isSome

omit revisionMarkdown sha256 in
theorem Grows.refl (s : MirrorStore) : Grows s s where
  ledger := ⟨[], (List.append_nil _).symm, fun _ he => absurd he List.not_mem_nil⟩
  prompts _ p hp := ⟨p.body, hp⟩
  notes _ h := h

omit revisionMarkdown sha256 in
theorem Grows.trans {s t u : MirrorStore} (hst : Grows s t) (htu : Grows t u) : Grows s u where
  ledger := by
    obtain ⟨new, hnew, hlt⟩ := hst.ledger
    obtain ⟨newer, hnewer, hlt'⟩ := htu.ledger
    refine ⟨new ++ newer, by rw [hnewer, hnew, List.append_assoc], fun e he r hr => ?_⟩
    rcases List.mem_append.mp he with he | he
    · exact hlt e he r hr
    · exact hlt' e he r (hnew ▸ List.mem_append_left _ hr)
  prompts id p hp := by
    obtain ⟨body, hq⟩ := hst.prompts id p hp
    obtain ⟨body', hr⟩ := htu.prompts id _ hq
    exact ⟨body', hr⟩
  notes id h := htu.notes id (hst.notes id h)

omit revisionMarkdown in
/-- An event is appended, with whatever the write does to the rows. -/
theorem grows_appended {s t : MirrorStore} {a : LedgerAppend}
    (hledger : t.ledger = appended sha256 s.ledger a)
    (hprompts : ∀ id p, s.prompts.get? id = some p →
      ∃ body, t.prompts.get? id = some { p with body })
    (hnotes : ∀ id, (s.userNotes.get? id).isSome → (t.userNotes.get? id).isSome) : Grows s t where
  ledger := by
    refine ⟨[successor sha256 s.ledger.last a], by rw [hledger, rows_appended], fun e he r hr => ?_⟩
    rw [List.mem_singleton.mp he]
    exact lt_successor sha256 a r hr
  prompts := hprompts
  notes := hnotes

omit revisionMarkdown in
theorem wired_appended {s t : MirrorStore} {a : LedgerAppend} (hs : Wired s)
    (hledger : t.ledger = appended sha256 s.ledger a) (hgrows : Grows s t)
    (ha : ∀ id, a.promptId = some id → (t.prompts.get? id).isSome) : Wired t where
  seqs e he := by
    rw [hledger, rows_appended] at he
    rcases List.mem_append.mp he with he | he
    · exact hs.seqs e he
    · rw [List.mem_singleton.mp he]
      cases hlast : s.ledger.last with
      | none => simp [successor]
      | some r =>
        have hpos := hs.seqs r (List.mem_of_getLast? hlast)
        simp only [successor, Option.map_some, Option.getD_some]
        omega
  prompts e he id hid := by
    rw [hledger, rows_appended] at he
    rcases List.mem_append.mp he with he | he
    · obtain ⟨p, hp⟩ := Option.isSome_iff_exists.mp (hs.prompts e he id hid)
      obtain ⟨body, hq⟩ := hgrows.prompts id p hp
      rw [hq]
      rfl
    · rw [List.mem_singleton.mp he] at hid
      exact ha id hid

omit revisionMarkdown sha256 in
/-- Changing one body, or none. -/
theorem get?_update_body {s : MirrorStore} {prompt : ℤ} {body : String} {id : ℤ} {p : MirrorPrompt}
    (hp : s.prompts.get? id = some p) :
    ∃ body', (s.prompts.update (fun p => p.id = prompt) fun p => { p with body }).get? id =
      some { p with body := body' } := by
  rw [AutoTable.toTable_update, Table.get?_update, hp, Option.map_some]
  by_cases hid : p.id = prompt
  · exact ⟨body, by rw [if_pos (decide_eq_true hid)]⟩
  · exact ⟨p.body, by rw [if_neg (by simpa using hid)]⟩

omit revisionMarkdown in
/-- **What an act keeps.** -/
theorem grows_act {s : MirrorStore} (hs : Wired s) (a : MirrorAct) :
    Grows s (s.act sha256 a) ∧ Wired (s.act sha256 a) := by
  cases a with
  | capture p a =>
    have hnew : ∀ id q, s.prompts.get? id = some q →
        (s.prompts.insert fun id => { p with id }).get? id = some q := by
      intro id q hq
      have hne : id ≠ s.prompts.nextId := by
        rintro rfl
        rw [AutoTable.get?_nextId] at hq
        cases hq
      rw [AutoTable.get?_insert, if_neg hne, hq]
    have hg : Grows s (s.act sha256 (.capture p a)) :=
      grows_appended sha256 rfl (fun id q hq => ⟨q.body, hnew id q hq⟩) fun _ h => h
    refine ⟨hg, wired_appended sha256 hs rfl hg fun id hid => ?_⟩
    obtain rfl : s.prompts.nextId = id := Option.some.inj hid
    show ((s.prompts.insert fun id => { p with id }).get? s.prompts.nextId).isSome
    rw [AutoTable.get?_insert, if_pos rfl]
    rfl
  | event a =>
    simp only [MirrorStore.act]
    split
    case isTrue hthere =>
      have hg : Grows s { s with ledger := appended sha256 s.ledger a } :=
        grows_appended sha256 rfl (fun id q hq => ⟨q.body, hq⟩) fun _ h => h
      refine ⟨hg, wired_appended sha256 hs rfl hg fun id hid => ?_⟩
      rw [hid] at hthere
      simpa using hthere
    · exact ⟨.refl s, hs⟩
  | writeNote n a =>
    have hg : Grows s (s.act sha256 (.writeNote n a)) :=
      grows_appended sha256 rfl (fun id q hq => ⟨q.body, hq⟩) fun id h => by
        show ((s.userNotes.upsert n).get? id).isSome
        rw [Table.get?_upsert]
        split
        · rfl
        · exact h
    exact ⟨hg, wired_appended sha256 hs rfl hg fun id hid => by cases hid⟩
  | compact prompt a =>
    simp only [MirrorStore.act]
    split
    case isTrue hthere =>
      have hg : Grows s { s with
          prompts := s.prompts.update (fun p => p.id = prompt) fun p => { p with body := "" }
          ledger := appended sha256 s.ledger
            { a with kind := "compaction", promptId := some prompt } } :=
        grows_appended sha256 rfl (fun id q hq => get?_update_body hq) fun _ h => h
      refine ⟨hg, wired_appended sha256 hs rfl hg fun id hid => ?_⟩
      obtain rfl : prompt = id := Option.some.inj hid
      obtain ⟨p, hp⟩ := Option.isSome_iff_exists.mp hthere
      obtain ⟨body, hq⟩ := hg.prompts _ p hp
      rw [hq]
      rfl
    · exact ⟨.refl s, hs⟩
  | restore prompt body =>
    have hg : Grows s (s.act sha256 (.restore prompt body)) :=
      ⟨(Grows.refl s).ledger, fun id q hq => get?_update_body hq, fun _ h => h⟩
    refine ⟨hg, hs.seqs, fun e he id hid => ?_⟩
    obtain ⟨p, hp⟩ := Option.isSome_iff_exists.mp (hs.prompts e he id hid)
    obtain ⟨body, hq⟩ := hg.prompts _ p hp
    rw [hq]
    rfl
  | forgetNote note ts a =>
    simp only [MirrorStore.act]
    split
    · have hg : Grows s { s with
          userNotes := s.userNotes.update (fun n => n.id = note) fun n =>
            { n with text := "", starred := false, updatedAt := ts }
          ledger := appended sha256 s.ledger
            { a with kind := "capture_forgotten", promptId := none } } :=
        grows_appended sha256 rfl (fun id q hq => ⟨q.body, hq⟩) fun id h => by
          rw [Table.get?_update, Option.isSome_map]
          exact h
      exact ⟨hg, wired_appended sha256 hs rfl hg fun id hid => by cases hid⟩
    · exact ⟨.refl s, hs⟩
  | sync => exact ⟨.refl s, hs⟩

/-! ### What is written -/

omit sha256 in
/-- The files of the events past a seq. -/
def MirrorStore.eventNotes (s : MirrorStore) (events : List LedgerEventRow) : List MirrorNote :=
  events.map fun e =>
    (⟨e, s.promptOf e⟩ : MirrorRow).noteFor
      (MirrorStore.resolvedBody revisionMarkdown ⟨e, s.promptOf e⟩)

/-- Whether one of the events is a `note`. -/
def hasNote (events : List LedgerEventRow) : Bool := events.any fun e => e.kind = "note"

omit sha256 in
/-- What a collection says of a path. -/
theorem latest_collectNotes (s : MirrorStore) (sinceSeq : ℤ) (path : String) :
    latest (s.collectNotes revisionMarkdown sinceSeq).1 path =
      let events := s.ledger.rows.filter fun e => max sinceSeq 0 < e.seq
      (if hasNote events then latest s.noteRowFiles path else none).or
        (latest (s.eventNotes revisionMarkdown events) path) := by
  have hany : (s.listMirrorEvents sinceSeq).any (fun row => row.event.kind = "note") =
      hasNote (s.ledger.rows.filter fun e => max sinceSeq 0 < e.seq) := by
    unfold MirrorStore.listMirrorEvents hasNote
    rw [List.any_map]
    rfl
  have hnotes : (s.listMirrorEvents sinceSeq).map (fun row =>
      row.noteFor (MirrorStore.resolvedBody revisionMarkdown row)) =
        s.eventNotes revisionMarkdown (s.ledger.rows.filter fun e => max sinceSeq 0 < e.seq) := by
    unfold MirrorStore.listMirrorEvents MirrorStore.eventNotes
    rw [List.map_map]
    rfl
  dsimp only
  unfold MirrorStore.collectNotes
  dsimp only
  rw [hany, hnotes]
  split
  · rw [latest_append]
  · rfl

omit sha256 in
/-- The file of an event says again what it said if the prompt's words do; no
other event's file says them. -/
theorem eventNotes_same {s t : MirrorStore} (hg : Grows s t) (hs : Wired s)
    (hbodies : ∀ e ∈ s.ledger.rows, e.kind = "prompt" → t.bodyOf e = s.bodyOf e) :
    t.eventNotes revisionMarkdown s.ledger.rows = s.eventNotes revisionMarkdown s.ledger.rows := by
  refine List.map_congr_left fun e he => ?_
  have hprompt : t.promptOf e = s.promptOf e ∨
      ∃ p body, s.promptOf e = some p ∧ t.promptOf e = some { p with body } := by
    unfold MirrorStore.promptOf
    cases hid : e.promptId with
    | none => exact .inl rfl
    | some id =>
      obtain ⟨p, hp⟩ := Option.isSome_iff_exists.mp (hs.prompts e he id hid)
      obtain ⟨body, hq⟩ := hg.prompts id p hp
      exact .inr ⟨p, body, hp, hq⟩
  obtain hsame | ⟨p, body, hp, hq⟩ := hprompt
  · rw [hsame]
  by_cases hkind : e.kind = "prompt"
  · have hb := hbodies e he hkind
    unfold MirrorStore.bodyOf at hb
    rw [hp, hq] at hb
    obtain rfl : body = p.body := Option.some.inj hb
    rw [hp, hq]
  · rw [hp, hq]
    have hbody : ∀ prompt, MirrorStore.resolvedBody revisionMarkdown ⟨e, prompt⟩ =
        MirrorStore.resolvedBody revisionMarkdown ⟨e, none⟩ := by
      intro prompt
      simp only [MirrorStore.resolvedBody, hkind, if_false]
    rw [hbody, hbody (some p)]
    rfl

omit revisionMarkdown sha256 in
/-- What is written after a text leaves its first letter. -/
theorem head?_toList_append {s t : String} {c : Char} (hs : s.toList.head? = some c) :
    (s ++ t).toList.head? = some c := by
  rw [String.toList_append, List.head?_append, hs]
  rfl

omit revisionMarkdown sha256 in
/-- The directories of the events' files, and of the notes'. -/
theorem relPath_head (row : MirrorRow) : row.relPath.toList.head? ≠ some 'n' := by
  have hne : ∀ {path : String} {c : Char}, path.toList.head? = some c → c ≠ 'n' →
      path.toList.head? ≠ some 'n' := by
    intro path c hhead hc
    rw [hhead]
    exact fun h => hc (Option.some.inj h)
  unfold MirrorRow.relPath
  dsimp only
  split
  · exact hne (c := 's')
      (head?_toList_append (head?_toList_append (head?_toList_append (by decide)))) (by decide)
  · exact hne (c := 's')
      (head?_toList_append (head?_toList_append (head?_toList_append (by decide)))) (by decide)
  · exact hne (c := 'm')
      (head?_toList_append (head?_toList_append (head?_toList_append (by decide)))) (by decide)
  · exact hne (c := 'u') (head?_toList_append (by decide)) (by decide)

omit revisionMarkdown sha256 in
theorem noteRowFile_head (n : UserNote) : (noteRowFile n).relPath.toList.head? = some 'n' :=
  head?_toList_append (head?_toList_append (by decide))

omit sha256 in
/-- No path is both an event's and a note's. -/
theorem latest_apart (s t : MirrorStore) (events : List LedgerEventRow) (path : String) :
    latest s.noteRowFiles path = none ∨ latest (t.eventNotes revisionMarkdown events) path = none := by
  by_cases hn : path.toList.head? = some 'n'
  · refine .inr (latest_eq_none.mpr fun n hmem => ?_)
    obtain ⟨e, -, rfl⟩ := List.mem_map.mp hmem
    rintro rfl
    exact relPath_head _ hn
  · refine .inl (latest_eq_none.mpr fun n hmem => ?_)
    obtain ⟨m, -, rfl⟩ := List.mem_map.mp hmem
    rintro rfl
    exact hn (noteRowFile_head m)

/-- A note that was there has its path. -/
theorem latest_noteRowFiles_none {s t : MirrorStore} (hg : Grows s t) {path : String}
    (hnone : latest t.noteRowFiles path = none) : latest s.noteRowFiles path = none := by
  rw [latest_eq_none] at hnone ⊢
  intro n hmem
  obtain ⟨m, hm, rfl⟩ := List.mem_map.mp hmem
  have hget : s.userNotes.get? m.id = some m := Table.mem_rows.mp (List.mem_mergeSort.mp hm)
  obtain ⟨m', hm'⟩ := Option.isSome_iff_exists.mp (hg.notes m.id (by rw [hget]; rfl))
  obtain ⟨hmem', hid⟩ := Table.get?_eq_some.mp hm'
  have hpath : (noteRowFile m').relPath = (noteRowFile m).relPath := by
    unfold noteRowFile
    dsimp only
    rw [hid]
  rw [← hpath]
  exact hnone _ (List.mem_map.mpr ⟨m', List.mem_mergeSort.mpr hmem', rfl⟩)

theorem hasNote_iff {events : List LedgerEventRow} :
    hasNote events = true ↔ ∃ e ∈ events, e.kind = "note" := by
  simp [hasNote]

omit revisionMarkdown sha256 in
theorem hasNote_append (xs ys : List LedgerEventRow) :
    hasNote (xs ++ ys) = (hasNote xs || hasNote ys) := List.any_append

omit revisionMarkdown sha256 in
/-- The newest seq seen is that of an event, or the cursor. -/
theorem foldl_maxSeq (rows : List MirrorRow) : ∀ seq maxSeq : ℤ,
    rows.foldl (fun seq row => max seq row.event.seq) seq = maxSeq →
    seq ≤ maxSeq ∧ (∀ row ∈ rows, row.event.seq ≤ maxSeq) ∧
      (maxSeq = seq ∨ ∃ row ∈ rows, row.event.seq = maxSeq) := by
  induction rows with
  | nil =>
    intro seq maxSeq hmax
    exact ⟨le_of_eq hmax, fun row hrow => absurd hrow List.not_mem_nil, .inl hmax.symm⟩
  | cons row rows ih =>
    intro seq maxSeq hmax
    obtain ⟨hle, hall, hfrom⟩ := ih (max seq row.event.seq) maxSeq hmax
    refine ⟨(le_max_left ..).trans hle, ?_, ?_⟩
    · intro r hr
      rcases List.mem_cons.mp hr with rfl | hr
      · exact (le_max_right ..).trans hle
      · exact hall r hr
    · rcases hfrom with hfrom | ⟨r, hr, hseq⟩
      · rcases max_choice seq row.event.seq with hmax | hmax
        · exact .inl (hfrom.trans hmax)
        · exact .inr ⟨row, List.mem_cons_self, (hfrom.trans hmax).symm⟩
      · exact .inr ⟨r, List.mem_cons_of_mem _ hr, hseq⟩

/-! ### The invariant -/

namespace MirrorWorld

/-- The files are those of a rebuild of the store the last sync met, the cursor
is its newest seq, and the store has grown since. -/
structure Inv (x : MirrorWorld) : Prop where
  grows : Grows x.met x.store
  wiredMet : Wired x.met
  wired : Wired x.store
  files : x.files = x.met.rebuild revisionMarkdown
  low : ∀ e ∈ x.met.ledger.rows, e.seq ≤ x.lastSeq
  high : x.lastSeq = 0 ∨ ∃ e ∈ x.met.ledger.rows, e.seq = x.lastSeq

omit sha256 in
theorem inv_empty : empty.Inv revisionMarkdown := by
  have hrows : ∀ e, e ∉ empty.met.ledger.rows := fun e => List.not_mem_nil
  have hwired : Wired empty.met :=
    ⟨fun e he => absurd he (hrows e), fun e he => absurd he (hrows e)⟩
  exact ⟨.refl _, hwired, hwired, rfl, fun e he => absurd he (hrows e), .inl rfl⟩

omit sha256 in
variable {revisionMarkdown} in
theorem Inv.lastSeq_nonneg {x : MirrorWorld} (hx : x.Inv revisionMarkdown) : 0 ≤ x.lastSeq := by
  rcases hx.high with hzero | ⟨e, he, hseq⟩
  · exact hzero.ge
  · have := hx.wiredMet.seqs e he
    omega

omit sha256 in
variable {revisionMarkdown} in
/-- The cursor parts what was mirrored from what is new. -/
theorem Inv.filter_rows {x : MirrorWorld} (hx : x.Inv revisionMarkdown) {new : List LedgerEventRow}
    (hrows : x.store.ledger.rows = x.met.ledger.rows ++ new)
    (hlt : ∀ e ∈ new, ∀ r ∈ x.met.ledger.rows, r.seq < e.seq) :
    (x.store.ledger.rows.filter fun e => max x.lastSeq 0 < e.seq) = new := by
  have hnonneg := hx.lastSeq_nonneg
  rw [hrows, List.filter_append, List.filter_eq_nil_iff.mpr, List.nil_append,
    List.filter_eq_self.mpr]
  · intro e he
    have hpos := hx.wired.seqs e (hrows ▸ List.mem_append_right _ he)
    rcases hx.high with hzero | ⟨r, hr, hseq⟩
    · exact decide_eq_true (by omega)
    · have := hlt e he r hr
      exact decide_eq_true (by omega)
  · intro e he hnew
    have := hx.low e he
    have := of_decide_eq_true hnew
    omega

end MirrorWorld

omit sha256 in
/-- What a rebuild says of a path. -/
theorem rebuild_apply {s : MirrorStore} (hs : Wired s) (path : String) :
    s.rebuild revisionMarkdown path =
      (if hasNote s.ledger.rows then latest s.noteRowFiles path else none).or
        (latest (s.eventNotes revisionMarkdown s.ledger.rows) path) := by
  have hall : (s.ledger.rows.filter fun e => max 0 0 < e.seq) = s.ledger.rows :=
    List.filter_eq_self.mpr fun e he => decide_eq_true (by simpa using hs.seqs e he)
  unfold MirrorStore.rebuild
  rw [writeNotes_apply, latest_collectNotes, Option.or_none]
  dsimp only
  rw [hall]

namespace MirrorWorld

variable {revisionMarkdown}

omit sha256 in
/-- **What a sync writes over the last rebuild is a rebuild.** -/
theorem files_sync {x : MirrorWorld} (hx : x.Inv revisionMarkdown) (hunread : x.Unread) :
    (x.sync revisionMarkdown).files = x.store.rebuild revisionMarkdown := by
  obtain ⟨new, hrows, hlt⟩ := hx.grows.ledger
  have hnew := hx.filter_rows hrows hlt
  have hsame := eventNotes_same revisionMarkdown hx.grows hx.wiredMet hunread.bodies
  have hevents : x.store.eventNotes revisionMarkdown x.store.ledger.rows =
      x.met.eventNotes revisionMarkdown x.met.ledger.rows ++
        x.store.eventNotes revisionMarkdown new := by
    rw [← hsame, hrows]
    exact List.map_append
  funext path
  have hsync : (x.sync revisionMarkdown).files path =
      ((if hasNote new then latest x.store.noteRowFiles path else none).or
        (latest (x.store.eventNotes revisionMarkdown new) path)).or (x.files path) := by
    show writeNotes x.files (x.store.collectNotes revisionMarkdown x.lastSeq).1 path = _
    rw [writeNotes_apply, latest_collectNotes]
    dsimp only
    rw [hnew]
  rw [hsync, hx.files, rebuild_apply _ hx.wiredMet, rebuild_apply _ hx.wired, hevents,
    latest_append, hrows, hasNote_append]
  by_cases hnote : hasNote new = true
  · -- every note is written, at the paths of those that were there too
    simp only [hnote, Bool.or_true, if_true]
    cases hpath : latest x.store.noteRowFiles path with
    | some content => rfl
    | none =>
      rw [latest_noteRowFiles_none hx.grows hpath]
      simp
  · have hnone : hasNote new = false := Bool.eq_false_iff.mpr hnote
    by_cases hold : hasNote x.met.ledger.rows = true
    · -- the notes are not written: they read as they did
      have hfiles : x.store.noteRowFiles = x.met.noteRowFiles := by
        rcases hunread.notes with ⟨e, he, hseq, hkind⟩ | hnever | hsameNotes
        · refine absurd (hasNote_iff.mpr ⟨e, ?_, hkind⟩) hnote
          rw [← hnew]
          have := hx.lastSeq_nonneg
          exact List.mem_filter.mpr ⟨he, decide_eq_true (by omega)⟩
        · obtain ⟨e, he, hkind⟩ := hasNote_iff.mp hold
          exact absurd hkind (hnever e he)
        · unfold MirrorStore.noteRowFiles MirrorStore.listUserNotes
          rw [hsameNotes]
      simp only [hnone, hold, Bool.or_false, if_true, Bool.false_eq_true, if_false]
      rw [hfiles]
      rcases latest_apart revisionMarkdown x.met x.store new path with hapart | hapart
      · rw [hapart]
        rfl
      · rw [hapart]
        rfl
    · have hold' : hasNote x.met.ledger.rows = false := Bool.eq_false_iff.mpr hold
      simp only [hnone, hold', Bool.or_false, Bool.false_eq_true, if_false]
      rfl

omit sha256 in
theorem Inv.sync {x : MirrorWorld} (hx : x.Inv revisionMarkdown) (hunread : x.Unread) :
    (x.sync revisionMarkdown).Inv revisionMarkdown := by
  obtain ⟨new, hrows, hlt⟩ := hx.grows.ledger
  have hnew := hx.filter_rows hrows hlt
  have hlist : x.store.listMirrorEvents x.lastSeq = new.map fun e => ⟨e, x.store.promptOf e⟩ := by
    unfold MirrorStore.listMirrorEvents
    rw [hnew]
  have hmax : (x.store.collectNotes revisionMarkdown x.lastSeq).2 =
      (new.map fun e => (⟨e, x.store.promptOf e⟩ : MirrorRow)).foldl
        (fun seq row => max seq row.event.seq) x.lastSeq := by
    unfold MirrorStore.collectNotes
    rw [hlist]
    dsimp only
    split <;> rfl
  obtain ⟨hle, hall, hfrom⟩ := foldl_maxSeq _ _ _ hmax.symm
  have hseq : (x.sync revisionMarkdown).lastSeq =
      (x.store.collectNotes revisionMarkdown x.lastSeq).2 := by
    show (if x.lastSeq < (x.store.collectNotes revisionMarkdown x.lastSeq).2
      then (x.store.collectNotes revisionMarkdown x.lastSeq).2 else x.lastSeq) = _
    split
    · rfl
    · omega
  refine ⟨.refl _, hx.wired, hx.wired, files_sync hx hunread, ?_, ?_⟩
  · intro e he
    rw [hseq]
    rcases List.mem_append.mp (hrows ▸ he) with he | he
    · have := hx.low e he
      omega
    · exact hall _ (List.mem_map.mpr ⟨e, he, rfl⟩)
  · rw [hseq]
    rcases hfrom with hfrom | ⟨row, hrow, hrowSeq⟩
    · rcases hx.high with hzero | ⟨e, he, heSeq⟩
      · exact .inl (hfrom.trans hzero)
      · exact .inr ⟨e, hrows ▸ List.mem_append_left _ he, heSeq.trans hfrom.symm⟩
    · obtain ⟨e, he, rfl⟩ := List.mem_map.mp hrow
      exact .inr ⟨e, hrows ▸ List.mem_append_right _ he, hrowSeq⟩

/-- **One act keeps it**, a sync if it finds what it does not read unchanged. -/
theorem Inv.act {x : MirrorWorld} (hx : x.Inv revisionMarkdown) (a : MirrorAct)
    (hunread : a = .sync → x.Unread) : (x.act revisionMarkdown sha256 a).Inv revisionMarkdown := by
  by_cases hsync : a = .sync
  · subst hsync
    exact hx.sync (hunread rfl)
  · have hact : x.act revisionMarkdown sha256 a = { x with store := x.store.act sha256 a } := by
      cases a <;> first | rfl | exact absurd rfl hsync
    obtain ⟨hgrows, hwired⟩ := grows_act sha256 hx.wired a
    rw [hact]
    exact ⟨hx.grows.trans hgrows, hx.wiredMet, hwired, hx.files, hx.low, hx.high⟩

theorem run_append (as : List MirrorAct) (a : MirrorAct) :
    run revisionMarkdown sha256 (as ++ [a]) =
      (run revisionMarkdown sha256 as).act revisionMarkdown sha256 a := List.foldl_concat ..

/-- The invariant of a run. -/
theorem inv_run (as : List MirrorAct)
    (hunread : ∀ p, p ++ [.sync] <+: as → (run revisionMarkdown sha256 p).Unread) :
    (run revisionMarkdown sha256 as).Inv revisionMarkdown := by
  induction as using List.reverseRecOn with
  | nil => exact inv_empty revisionMarkdown
  | append_singleton as a ih =>
    rw [run_append]
    refine (ih fun p hp => hunread p (hp.trans (List.prefix_append as [a]))).act sha256 a fun ha => ?_
    subst ha
    exact hunread as (List.prefix_refl _)

end MirrorWorld

/-- **A mirror converges** in a run whose syncs find what they do not read as
the last one found it: after each sync the managed files are those of a
rebuild. -/
theorem sync_rebuilds (as : List MirrorAct)
    (hunread : ∀ p, p ++ [.sync] <+: as →
      (MirrorWorld.run revisionMarkdown sha256 p).Unread) :
    ∀ p, p ++ [.sync] <+: as →
      (MirrorWorld.run revisionMarkdown sha256 (p ++ [.sync])).files =
        (MirrorWorld.run revisionMarkdown sha256 p).store.rebuild revisionMarkdown := by
  intro p hp
  rw [MirrorWorld.run_append]
  refine MirrorWorld.files_sync (MirrorWorld.inv_run sha256 p fun q hq => ?_) (hunread p hp)
  exact hunread q (hq.trans ((List.prefix_append p [.sync]).trans hp))

end

/-- A prompt in a terminal. -/
def typedPrompt : MirrorPrompt where
  id := 0
  surface := "terminal"
  origin := "human"
  role := none
  missionId := none
  projectPath := none
  body := "words"
  threadKind := none
  threadId := none
  parentSessionId := none

/-- An event of the user. -/
def typedEvent (ts : ℤ) : LedgerAppend := ⟨"prompt", "user", ts, none, none, none, none, none, "p"⟩

/-- A starred note on the first prompt. -/
def marginNote : UserNote := ⟨1, none, "prompt", some "1", "see below", true, 2, 2⟩

/-- The prompt is mirrored, then a note on it. -/
def notedRun : List MirrorAct :=
  [.capture typedPrompt (typedEvent 1), .sync, .writeNote marginNote (typedEvent 2), .sync]

theorem notedPrompt_rebuilds :
    (MirrorWorld.run (fun _ _ => none) (fun _ => "") notedRun).files =
      (MirrorWorld.run (fun _ _ => none) (fun _ => "") (notedRun.take 3)).store.rebuild
        fun _ _ => none := by
  refine sync_rebuilds (fun _ _ => none) (fun _ => "") notedRun (fun p hp => ?_) (notedRun.take 3)
    (List.prefix_refl _)
  match p with
  | [] => simp [notedRun] at hp
  | [a] =>
    obtain rfl : a = _ := (List.cons_prefix_cons.mp hp).1
    exact ⟨fun e he => absurd he List.not_mem_nil, .inr (.inl fun e he => absurd he List.not_mem_nil)⟩
  | [a, b] => simp [notedRun] at hp
  | [a, b, c] =>
    simp only [notedRun, List.cons_append, List.nil_append, List.cons_prefix_cons] at hp
    obtain ⟨rfl, rfl, rfl, -⟩ := hp
    refine ⟨fun e he hkind => rfl, .inl ?_⟩
    decide +kernel
  | a :: b :: c :: d :: p =>
    have hlen := hp.length_le
    simp only [notedRun, List.length_append, List.length_cons, List.length_nil] at hlen
    omega

/-- The prompt is mirrored, then its words go: the file keeps them. -/
theorem compactedPrompt_stays : ¬ ∀ (revisionMarkdown : String → ℤ → Option String)
    (sha256 : String → String) (as p : List MirrorAct), p ++ [.sync] <+: as →
      (MirrorWorld.run revisionMarkdown sha256 (p ++ [.sync])).files =
        (MirrorWorld.run revisionMarkdown sha256 p).store.rebuild revisionMarkdown := by
  intro h
  have hfiles := h (fun _ _ => none) (fun _ => "") _
    [.capture typedPrompt (typedEvent 1), .sync, .compact 1 (typedEvent 2)] (List.prefix_refl _)
  have hne : (MirrorWorld.run (fun _ _ => none) (fun _ => "")
      [.capture typedPrompt (typedEvent 1), .sync, .compact 1 (typedEvent 2), .sync]).files
        "unfiled/000001-prompt.md" ≠
      (MirrorWorld.run (fun _ _ => none) (fun _ => "")
        [.capture typedPrompt (typedEvent 1), .sync, .compact 1 (typedEvent 2)]).store.rebuild
          (fun _ _ => none) "unfiled/000001-prompt.md" := by decide +kernel
  exact hne (congrFun hfiles _)

end PolisMemory
