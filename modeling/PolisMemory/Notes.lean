/-
# The user's notes

`crates/polis-store/src/notes.rs` and `forget_user_note` of `compaction.rs`: a
note is a row with its current text and star, every act on it an event of the
ledger that commits to the act and the text, and `note_events` maps the seq of
each of them to the row. A write that changes nothing, and one that is
refused, drop its transaction; a note that was forgotten is not written again.

`Store` holds the tables that the note functions share with the rest; the note
tables are here in full. The marker file beside the database is not modelled.

Key definitions: `NoteStore`, `NoteStore.writeUserNoteScoped`,
`NoteStore.noteForSeq`, `NoteStore.forgetUserNote`.
-/
import PolisMemory.Adopt
import PolisMemory.Claims
import PolisMemory.Recording

namespace PolisMemory

open Tables

/-! ### Comparisons with nulls -/

/-- SQL's `=`: unknown where a side is null. -/
def sqlEq (a b : Option String) : Option Bool := a.bind fun x => b.map fun y => decide (x = y)

/-- SQL's `AND`. -/
def sqlAnd : Option Bool → Option Bool → Option Bool
  | some false, _ => some false
  | _, some false => some false
  | some true, some true => some true
  | _, _ => none

/-- SQL's `OR`. -/
def sqlOr : Option Bool → Option Bool → Option Bool
  | some true, _ => some true
  | _, some true => some true
  | some false, some false => some false
  | _, _ => none

/-! ### The tables -/

/-- A note, as the readers get it. -/
structure UserNote where
  id : ℤ
  seq : Option ℤ
  targetKind : String
  targetId : Option String
  text : String
  starred : Bool
  createdAt : ℤ
  updatedAt : ℤ
  deriving DecidableEq, Repr

/-- A row of `user_notes`, in full. -/
structure UserNoteRow extends UserNote where
  principalId : Option String
  deviceId : Option String
  agentId : Option String
  runId : Option String
  orgId : Option String
  projectPath : Option String
  deriving DecidableEq, Repr

/-- `id` of the row. -/
abbrev UserNoteRow.key (n : UserNoteRow) : ℤ := n.id

/-- The entry of `idx_user_notes_target`, which has the rows with a target. -/
def UserNoteRow.target (n : UserNoteRow) : ℤ ⊕ String × String :=
  match n.targetId with
  | some target => if n.targetKind = "none" then .inl n.id else .inr (n.targetKind, target)
  | none => .inl n.id

/-- A row of `note_events`, in full. -/
structure NoteEventRow where
  seq : ℤ
  noteId : ℤ
  payloadHash : String
  deriving DecidableEq, Repr

/-- A row of `forgotten_captures`, in full. -/
structure ForgottenCaptureRow where
  targetKind : String
  targetId : ℤ
  sourceHash : String
  forgottenAt : ℤ
  deriving DecidableEq, Repr

/-- `PRIMARY KEY(target_kind,target_id)`. -/
abbrev ForgottenCaptureRow.key (f : ForgottenCaptureRow) : String × ℤ := (f.targetKind, f.targetId)

/-- A row of `capture_redaction_outbox`. -/
structure CaptureOutboxRow where
  targetSeq : ℤ
  createdAt : ℤ
  deriving DecidableEq, Repr

/-- The tables the note functions work on. -/
structure NoteStore where
  /-- The ledger, the catalog and the embeddings among others. -/
  base : Store
  principals : Table Principal.principalId
  aliases : Table AliasRow.name
  userNotes : IndexedTable UserNoteRow.key UserNoteRow.target
  noteEvents : Table NoteEventRow.seq
  forgottenCaptures : Table ForgottenCaptureRow.key
  captureOutbox : Table CaptureOutboxRow.targetSeq

/-- What a caller asks of a note. -/
structure NoteWrite where
  noteId : Option ℤ
  targetKind : Option String
  targetId : Option String
  text : Option String
  starred : Option Bool
  deriving DecidableEq, Repr

/-- What a note-write did. -/
inductive NoteOutcome where
  | written (note : UserNote)
  | unchanged (note : UserNote)
  | rejected (reason : String)
  deriving DecidableEq, Repr

namespace NoteStore

variable (h : Host) (s : NoteStore)

/-! ### Whom a row belongs to -/

/-- `resolve_author_locked`. -/
def resolveAuthor (author : String) : Option String :=
  ((s.aliases.get? author).map AliasRow.principalId).or
    ((s.principals.get? author).map Principal.principalId)

/-- `scope_ids_for_author_locked`. -/
def scopeIdsForAuthor (author : String) : ScopeIds :=
  match (s.resolveAuthor author).bind s.principals.get? with
  | none => ⟨none, none, none⟩
  | some p =>
    match p.kind with
    | .human | .org => ⟨some p.principalId, none, none⟩
    | .device => ⟨p.parentId, some p.principalId, none⟩
    | .agent =>
      ⟨(p.parentId.bind s.principals.get?).bind Principal.parentId, p.parentId, some p.principalId⟩

/-- `principal_id_set_locked`; only membership is asked. -/
def principalIdSet (idOrAlias : String) : List String :=
  let root := (s.resolveAuthor idOrAlias).getD idOrAlias
  let under (parent : String) : List String :=
    (s.principals.select fun p => p.parentId = some parent).map Principal.principalId
  root :: (under root).flatMap under ++ under root

/-- `scope_clause_locked` on a row of `user_notes`. -/
def scopeMatches (f : ScopeFilter) (n : UserNoteRow) : Bool :=
  ((asked f.principal).all fun name =>
    let ids := s.principalIdSet (trim name)
    n.principalId.any (· ∈ ids) || n.deviceId.any (· ∈ ids) || n.agentId.any (· ∈ ids)) &&
  ((asked f.agent).all fun a => n.agentId = some ((s.resolveAuthor (trim a)).getD (trim a))) &&
  ((asked f.run).all fun r => n.runId = some (trim r)) &&
  ((asked f.org).all fun o => n.orgId = some (trim o)) &&
  ((asked f.project).all fun project => n.projectPath = some (trim project)) &&
  (f.after.all fun ts => ts ≤ n.updatedAt) &&
  f.before.all fun ts => n.updatedAt < ts

/-! ### Finding the row -/

/-- The note was forgotten. -/
def forgotten (id : ℤ) : Bool := (s.forgottenCaptures.get? ("user_note", id)).isSome

/-- The note on a target. -/
def noteOn? (kind target : String) : Option UserNoteRow :=
  s.userNotes.rows.find? fun n => n.targetKind = kind && n.targetId = some target

/-- The annotated thing is there, where it can be checked. -/
def targetExists (kind target : String) : Bool :=
  if kind = "ledger_event" then (s.base.event? ((parseI64 target).getD (-1))).isSome
  else if kind = "class_node" then s.base.nodeExists target
  else true

/-- The kinds of target. -/
def targetKinds : List String := ["ledger_event", "class_node", "session", "none"]

/-- The note of a target, with the target; or why there is none. -/
def resolveTarget (w : NoteWrite) (kind : String) :
    Except String (Option UserNoteRow × String × Option String) :=
  match w.targetId.filter fun t => trim t ≠ "" with
  | none => .error s!"a `{kind}` note needs a target id"
  | some target =>
    if !s.targetExists kind target then .error s!"no {kind} `{target}` to annotate"
    else .ok (s.noteOn? kind target, kind, some target)

/-- The row of a write: by explicit id, else by target, else a fresh
standalone; or why it is refused. -/
def resolveNote (w : NoteWrite) : Except String (Option UserNoteRow × String × Option String) :=
  match w.noteId with
  | some id =>
    match s.userNotes.get? id with
    | some n => .ok (some n, n.targetKind, n.targetId)
    | none => .error s!"no note #{id}"
  | none =>
    let kind := w.targetKind.getD "none"
    if kind ∉ targetKinds then .error s!"unknown note target kind `{kind}`"
    else if kind = "none" then
      if trim (w.text.getD "") = "" then .error "a standalone note needs text"
      else .ok (none, kind, none)
    else s.resolveTarget w kind

/-- Why a row that is there may not be written, if it may not. -/
def refusal (scope : ScopeFilter) (n : UserNoteRow) : Option String :=
  if !s.scopeMatches scope n then some "note is outside the requested scope"
  else if s.forgotten n.id then some "this note was forgotten and cannot be edited or restored"
  else none

/-! ### Writing -/

/-- The row a note is created as. -/
def newNote (now : ℤ) (kind : String) (target : Option String) (id : ℤ) : UserNoteRow :=
  ⟨⟨id, none, kind, target, "", false, now, now⟩, none, none, none, none, none, none⟩

/-- The row to write, made if there is none. -/
def rowFor (now : ℤ) (note : Option UserNoteRow) (kind : String) (target : Option String) :
    Except DbError (NoteStore × UserNoteRow) :=
  match note with
  | some n => .ok (s, n)
  | none =>
    match s.userNotes.insert? (newNote now kind target) with
    | none => .error .constraint
    | some notes => .ok ({ s with userNotes := notes }, newNote now kind target s.userNotes.nextId)

/-- The act's name and the row with it applied; none where it changes nothing. -/
def act (w : NoteWrite) (row : UserNoteRow) : Option (String × UserNoteRow) :=
  match w.text with
  | some text => if row.text = text then none else some ("note", { row with text := text })
  | none =>
    let starred := w.starred.getD false
    if row.starred = starred then none
    else some (if starred then "star" else "unstar", { row with starred := starred })

/-- What the event of an act commits to. -/
def actHash (action text : String) : String := h.decisionPayloadHash [("action", action), ("text", text)]

/-- What the event of an act refers to: the row itself, if it is standalone. -/
def actRef (row : UserNote) : String × String :=
  if row.targetKind = "none" then ("none", toString row.id)
  else (row.targetKind, row.targetId.getD "")

/-- The event of an act. -/
def actEvent (now : ℤ) (actor action : String) (row : UserNote) : LedgerAppend :=
  ⟨"note", actor, now, none, if row.targetKind = "session" then some (actRef row).2 else none, none,
    some (actRef row).1, some (actRef row).2, actHash h action row.text⟩

/-- The row with its event's seq, and with whom it belongs to where it had
nobody. -/
def stamped (row : UserNote) (ids : ScopeIds) (scope : ScopeFilter) (n : UserNoteRow) : UserNoteRow where
  id := n.id
  seq := row.seq
  targetKind := n.targetKind
  targetId := n.targetId
  text := row.text
  starred := row.starred
  createdAt := n.createdAt
  updatedAt := row.updatedAt
  principalId := n.principalId.or (scope.principal.or ids.principalId)
  deviceId := n.deviceId.or ids.deviceId
  agentId := n.agentId.or (scope.agent.or ids.agentId)
  runId := n.runId.or scope.run
  orgId := n.orgId.or scope.org
  projectPath := n.projectPath.or scope.project

/-- The row of an act, with its event. -/
def acted (now : ℤ) (actor action : String) (row : UserNote) : UserNote :=
  let ev := s.base.appendedRow h (actEvent h now actor action row)
  { row with seq := some ev.seq, updatedAt := ev.ts }

/-- The store with an act, its event mapped. -/
def recorded (now : ℤ) (actor action : String) (scope : ScopeFilter) (row : UserNote)
    (events : Table NoteEventRow.seq) : NoteStore :=
  { s with
    base := s.base.append h (actEvent h now actor action row)
    noteEvents := events
    userNotes := s.userNotes.update (fun n => n.id = row.id)
      (stamped (s.acted h now actor action row) (s.scopeIdsForAuthor actor) scope) }

/-- The mapping of an act's event. -/
def actMapping (now : ℤ) (actor action : String) (row : UserNote) : NoteEventRow :=
  ⟨(s.base.appendedRow h (actEvent h now actor action row)).seq, row.id, actHash h action row.text⟩

/-- Record an act: its event, the row and the mapping. -/
def recordAct (now : ℤ) (actor action : String) (scope : ScopeFilter) (row : UserNote) :
    Except DbError (NoteStore × UserNote) :=
  match s.noteEvents.insert? (s.actMapping h now actor action row) with
  | none => .error .constraint
  | some events => .ok (s.recorded h now actor action scope row events, s.acted h now actor action row)

/-- `write_user_note_scoped`. -/
def writeUserNoteScoped (now : ℤ) (w : NoteWrite) (actor : String) (scope : ScopeFilter) :
    Except DbError (NoteStore × NoteOutcome) :=
  if w.text.isSome = w.starred.isSome then
    .ok (s, .rejected "one act per call: set exactly one of `text` / `starred`")
  else
    match s.resolveNote w with
    | .error reason => .ok (s, .rejected reason)
    | .ok (note, kind, target) =>
      match note.bind (s.refusal scope) with
      | some reason => .ok (s, .rejected reason)
      | none =>
        match s.rowFor now note kind target with
        | .error e => .error e
        | .ok (s', row) =>
          match act w row with
          -- the transaction is dropped, a new row with it
          | none => .ok (s, .unchanged row.toUserNote)
          | some (action, row) =>
            match s'.recordAct h now actor action scope row.toUserNote with
            | .error e => .error e
            | .ok (s', row) => .ok (s', .written row)

/-! ### Reading a version -/

/-- An event refers to a note: to the standalone row, to its target, or to the
row as such. -/
def refersTo (n : UserNote) (e : LedgerEventRow) : Option Bool :=
  sqlOr (sqlOr
    (sqlAnd (some (n.targetKind = "none"))
      (sqlAnd (sqlEq e.refKind (some "none")) (sqlEq e.refId (some (toString n.id)))))
    (sqlAnd (some (n.targetKind ≠ "none"))
      (sqlAnd (sqlEq e.refKind (some n.targetKind)) (sqlEq e.refId n.targetId))))
    (sqlAnd (sqlEq e.refKind (some "user_note")) (sqlEq e.refId (some (toString n.id))))

/-- The note that a version of `n` is mapped to. -/
def mappedNote (seq : ℤ) (n : UserNoteRow) : Option ℤ := do
  let ne ← s.noteEvents.get? seq
  let e ← s.base.event? ne.seq
  if e.payloadHash = ne.payloadHash ∧ e.kind ∈ ["note", "user_note"] ∧
      refersTo n.toUserNote e = some true then
    some ne.noteId
  else none

/-- `note_for_seq`. -/
def noteForSeq (seq : ℤ) : Option UserNote :=
  (s.userNotes.rows.find? fun n => s.mappedNote seq n = some n.id).map UserNoteRow.toUserNote

/-! ### Forgetting -/

/-- The versions of a note, oldest first. -/
def versions (id : ℤ) : List NoteEventRow :=
  (s.noteEvents.select fun ne => ne.noteId = id).mergeSort fun a b => a.seq ≤ b.seq

/-- A version is not what its ledger event commits to, or refers to another
note. -/
def corrupt (n : UserNoteRow) (ne : NoteEventRow) : Bool :=
  match s.base.event? ne.seq with
  | none => true
  | some e => e.payloadHash ≠ ne.payloadHash || refersTo n.toUserNote e = some false

/-- The entry hash of a note's first version. -/
def sourceHash (id : ℤ) : Option String :=
  if s.forgotten id ∨ s.userNotes.get? id = none then none
  else (s.versions id).findSome? fun ne =>
    ((s.base.event? ne.seq).filter fun e => e.payloadHash = ne.payloadHash).map
      LedgerEventRow.entryHash

/-- The journal's subjects know no notes: the first version of the note, which
is one of its seqs. -/
def noteSubject (seqs : List ℤ) : Subject := .seq (seqs.headD 0)

/-- The event of a forgotten note. -/
def forgottenEvent (now id : ℤ) (hash actor : String) : LedgerAppend :=
  ⟨"capture_forgotten", actor, now, none, none, none, some "user_note", some (toString id),
    h.decisionPayloadHash [("target_kind", "user_note"), ("source_hash", hash)]⟩

/-- The row of a forgotten note. -/
abbrev released (now : ℤ) (n : UserNoteRow) : UserNoteRow :=
  { n with text := "", starred := false, updatedAt := now }

/-- What a forget does to a note that is there. -/
def release (now id : ℤ) (hash actor : String) (forgotten : Table ForgottenCaptureRow.key) :
    NoteStore × ℤ :=
  let seqs := (s.versions id).map NoteEventRow.seq
  let base := s.base.forgetDerivedCopies (noteSubject seqs) seqs now
  let base := { base with embeddings := base.embeddings.delete fun e =>
    e.targetKind ∈ ["note", "user_note"] && e.targetId = id }
  let a := forgottenEvent h now id hash actor
  ({ s with
    base := base.append h a
    forgottenCaptures := forgotten
    captureOutbox := seqs.foldl (fun t seq => t.insertOrIgnore ⟨seq, now⟩) s.captureOutbox
    userNotes := s.userNotes.update (fun n => n.id = id) (released now) }, (base.appendedRow h a).seq)

/-- `forget_user_note`. -/
def forgetUserNote (now id : ℤ) (actor : String) : Except DbError (NoteStore × Option ℤ) :=
  if (s.userNotes.get? id).any fun n => (s.versions id).any (s.corrupt n) then
    .error (.invalid "note history does not match its ledger references")
  else
    match s.sourceHash id with
    | none => .ok (s, none)
    | some hash =>
      match s.forgottenCaptures.insert? ⟨"user_note", id, hash, now⟩ with
      | none => .error .constraint
      | some forgotten =>
        let (s, seq) := s.release h now id hash actor forgotten
        .ok (s, some seq)

end NoteStore

/-! ### Runs -/

/-- An act on the notes. -/
inductive NoteAct where
  | write (now : ℤ) (w : NoteWrite) (actor : String) (scope : ScopeFilter)
  | forget (now id : ℤ) (actor : String)

/-- What an act leaves; one that fails leaves the store. -/
def NoteStore.perform (h : Host) (s : NoteStore) : NoteAct → NoteStore
  | .write now w actor scope =>
    match s.writeUserNoteScoped h now w actor scope with
    | .ok (s', _) => s'
    | .error _ => s
  | .forget now id actor =>
    match s.forgetUserNote h now id actor with
    | .ok (s', _) => s'
    | .error _ => s

/-- What acts leave, one after another. -/
def NoteStore.run (h : Host) (s : NoteStore) (acts : List NoteAct) : NoteStore :=
  acts.foldl (NoteStore.perform h) s

/-- A store without notes, whatever else is in it. -/
def NoteStore.fresh (base : Store) (principals : Table Principal.principalId)
    (aliases : Table AliasRow.name) (captures : Table ForgottenCaptureRow.key)
    (outbox : Table CaptureOutboxRow.targetSeq) : NoteStore :=
  ⟨base, principals, aliases, ∅, ∅, captures.delete fun f => f.targetKind = "user_note", outbox⟩

end PolisMemory
