/-
# The ledger commits to the notes

Over any acts on the notes of a store: the row of a note names the latest
event of the note, whose payload hash commits to the row's act and text unless
the note was forgotten; every mapping has the payload hash of its event and
`note_for_seq` resolves it to the note; a note that was forgotten has no text,
and none of the later acts gives it any (`notes_committed`).

Key definitions: `NoteStore.Kept`, `NoteStore.Committed`.
Key theorems: `NoteStore.writeUserNoteScoped_cases`, `NoteStore.Kept.record`,
`NoteStore.Kept.perform`, `notes_committed`.
-/
import PolisMemory.Notes
import PolisMemory.Sourcing

namespace PolisMemory

open Tables

namespace NoteStore

variable {h : Host} {s s' : NoteStore} {n m : UserNoteRow} {e : LedgerEventRow} {now : ℤ}

/-! ### What an event refers to -/

theorem sqlAnd_eq_true {a b : Option Bool} : sqlAnd a b = some true ↔ a = some true ∧ b = some true := by
  rcases a with _ | _ | _ <;> rcases b with _ | _ | _ <;> simp [sqlAnd]

theorem sqlOr_eq_true {a b : Option Bool} : sqlOr a b = some true ↔ a = some true ∨ b = some true := by
  rcases a with _ | _ | _ <;> rcases b with _ | _ | _ <;> simp [sqlOr]

theorem sqlEq_eq_true {a b : Option String} : sqlEq a b = some true ↔ ∃ x, a = some x ∧ b = some x := by
  cases a with
  | none => simp [sqlEq]
  | some x =>
    cases b with
    | none => simp [sqlEq]
    | some y => simp [sqlEq, eq_comm]

theorem refersTo_eq_true {n : UserNote} : refersTo n e = some true ↔
    (n.targetKind = "none" ∧ e.refKind = some "none" ∧ e.refId = some (toString n.id)) ∨
      (n.targetKind ≠ "none" ∧ e.refKind = some n.targetKind ∧ ∃ t, e.refId = some t ∧ n.targetId = some t) ∨
      (e.refKind = some "user_note" ∧ e.refId = some (toString n.id)) := by
  simp only [refersTo, sqlOr_eq_true, sqlAnd_eq_true, sqlEq_eq_true, Option.some.injEq, decide_eq_true_eq,
    or_assoc]
  constructor
  · rintro (⟨hk, ⟨_, hr, rfl⟩, _, hi, rfl⟩ | ⟨hk, ⟨_, hr, rfl⟩, t, hi, ht⟩ | ⟨⟨_, hr, rfl⟩, _, hi, rfl⟩)
    · exact .inl ⟨hk, hr, hi⟩
    · exact .inr (.inl ⟨hk, hr, t, hi, ht⟩)
    · exact .inr (.inr ⟨hr, hi⟩)
  · rintro (⟨hk, hr, hi⟩ | ⟨hk, hr, t, hi, ht⟩ | ⟨hr, hi⟩)
    · exact .inl ⟨hk, ⟨_, hr, rfl⟩, _, hi, rfl⟩
    · exact .inr (.inl ⟨hk, ⟨_, hr, rfl⟩, t, hi, ht⟩)
    · exact .inr (.inr ⟨⟨_, hr, rfl⟩, _, hi, rfl⟩)

/-- The kinds that a note with a target has. -/
def Placed (n : UserNote) : Prop :=
  n.targetKind = "none" ∨
    (n.targetKind = "ledger_event" ∨ n.targetKind = "class_node" ∨ n.targetKind = "session") ∧
      ∃ t, n.targetId = some t

/-- The event of an act refers to its note. -/
theorem refersTo_actRef {n : UserNote} (hn : Placed n) (hkind : e.refKind = some (actRef n).1)
    (hid : e.refId = some (actRef n).2) : refersTo n e = some true := by
  rw [refersTo_eq_true]
  unfold actRef at hkind hid
  by_cases hnone : n.targetKind = "none"
  · rw [if_pos hnone] at hkind hid
    exact .inl ⟨hnone, hkind, hid⟩
  · rw [if_neg hnone] at hkind hid
    obtain ⟨-, t, ht⟩ := hn.resolve_left hnone
    rw [ht] at hid
    exact .inr (.inl ⟨hnone, hkind, t, hid, ht⟩)

/-- It refers to no other note. -/
theorem target_of_refersTo (hm : Placed m.toUserNote) (hkind : e.refKind = some (actRef m.toUserNote).1)
    (hid : e.refId = some (actRef m.toUserNote).2) (hn : refersTo n.toUserNote e = some true) :
    n.id = m.id ∨ n.target = m.target := by
  rw [refersTo_eq_true] at hn
  unfold actRef at hkind hid
  by_cases hnone : m.targetKind = "none"
  · rw [if_pos hnone] at hkind hid
    rcases hn with ⟨-, -, hn⟩ | ⟨hk, hr, -⟩ | ⟨hr, -⟩
    · exact .inl (toString_injective (Option.some.inj (hn.symm.trans hid)))
    · exact absurd (Option.some.inj (hr.symm.trans hkind)) hk
    · have huser : "none" = "user_note" := Option.some.inj (hkind.symm.trans hr)
      exact absurd huser (by decide)
  · rw [if_neg hnone] at hkind hid
    obtain ⟨hplaced, t, ht⟩ := hm.resolve_left hnone
    rw [ht] at hid
    rcases hn with ⟨-, hr, -⟩ | ⟨hk, hr, t', hi, ht'⟩ | ⟨hr, -⟩
    · exact absurd (Option.some.inj (hkind.symm.trans hr)) hnone
    · have hsame : n.targetKind = m.targetKind := Option.some.inj (hr.symm.trans hkind)
      have htarget : t' = t := Option.some.inj (hi.symm.trans hid)
      right
      simp only [UserNoteRow.target, ht, ht', if_neg hnone, hsame, htarget]
    · have huser : m.targetKind = "user_note" := Option.some.inj (hkind.symm.trans hr)
      rw [huser] at hplaced
      exact absurd hplaced (by decide)

/-! ### What is kept -/

/-- The act that a row shows last. -/
def Shows (n : UserNote) (action : String) : Prop :=
  action = "note" ∨ action = "star" ∧ n.starred = true ∨ action = "unstar" ∧ n.starred = false

/-- The row names the latest event of the note, which commits to the act and
the text unless the note was forgotten. -/
structure RowKept (h : Host) (s : NoteStore) (n : UserNoteRow) (seq : ℤ) : Prop where
  named : n.seq = some seq
  mapped : ∃ ne, s.noteEvents.get? seq = some ne ∧ ne.noteId = n.id ∧ (s.forgotten n.id = false →
    ∃ action, Shows n.toUserNote action ∧ ne.payloadHash = actHash h action n.text)
  latest : ∀ e ∈ s.base.ledger.rows, e.kind = "note" → refersTo n.toUserNote e = some true → e.seq ≤ seq

/-- A version's event commits to what the mapping says, and refers to the
note. -/
def MappingKept (s : NoteStore) (ne : NoteEventRow) : Prop :=
  ∃ e n, s.base.event? ne.seq = some e ∧ e.kind = "note" ∧ e.payloadHash = ne.payloadHash ∧
    s.userNotes.get? ne.noteId = some n ∧ refersTo n.toUserNote e = some true

/-- What the acts keep, of the rows in `kept`. -/
structure Kept (h : Host) (kept : ℤ → Prop) (s : NoteStore) : Prop where
  row : ∀ id n, s.userNotes.get? id = some n → kept id → ∃ seq, RowKept h s n seq
  mapping : ∀ ne ∈ s.noteEvents.rows, MappingKept s ne
  placed : ∀ id n, s.userNotes.get? id = some n → Placed n.toUserNote
  gone : ∀ id, s.forgotten id = true → ∃ n, s.userNotes.get? id = some n ∧ n.text = ""

/-! ### A recorded act -/

theorem id_of_get? {id : ℤ} (hn : s.userNotes.get? id = some n) : n.id = id := by
  have hkey := Table.key_of_get? hn
  exact hkey

theorem refersTo_congr {n n' : UserNote} (hid : n'.id = n.id) (hkind : n'.targetKind = n.targetKind)
    (htarget : n'.targetId = n.targetId) : refersTo n' e = refersTo n e := by
  unfold refersTo
  rw [hid, hkind, htarget]

/-- An act writes its row. -/
theorem get?_recorded {row : UserNote} {actor action : String} {scope : ScopeFilter}
    {events : Table NoteEventRow.seq} (id : ℤ) :
    (s.recorded h now actor action scope row events).userNotes.get? id = (s.userNotes.get? id).map fun n =>
      if n.id = row.id then
        stamped (s.acted h now actor action row) (s.scopeIdsForAuthor actor) scope n
      else n := by
  let stamp := stamped (s.acted h now actor action row) (s.scopeIdsForAuthor actor) scope
  have hkey (n : UserNoteRow) : (stamp n).key = n.key := rfl
  have hupdate := Table.get?_update (t := s.userNotes.toTable) (p := fun n => n.id = row.id)
    (f := stamp) (h := hkey) (k := id)
  simp only [decide_eq_true_eq] at hupdate
  exact hupdate

/-- **A recorded act is kept**: its row names the new event, every other row
what it named. -/
theorem Kept.record {row : UserNote} {n₀ : UserNoteRow} {actor action : String} {scope : ScopeFilter}
    {events : Table NoteEventRow.seq} (hs : Kept h (· ≠ row.id) s)
    (hget : s.userNotes.get? row.id = some n₀) (hkind : row.targetKind = n₀.targetKind)
    (htarget : row.targetId = n₀.targetId) (hlive : s.forgotten row.id = false)
    (hshows : Shows row action)
    (hins : s.noteEvents.insert? (s.actMapping h now actor action row) = some events) :
    Kept h (fun _ => True) (s.recorded h now actor action scope row events) := by
  let a := actEvent h now actor action row
  let ev := s.base.appendedRow h a
  let t := s.recorded h now actor action scope row events
  let stamp := stamped (s.acted h now actor action row) (s.scopeIdsForAuthor actor) scope
  have hid : n₀.id = row.id := id_of_get? hget
  have hrows (id : ℤ) : t.userNotes.get? id =
      (s.userNotes.get? id).map fun n => if n.id = row.id then stamp n else n := get?_recorded id
  have hledger : t.base.ledger.rows = s.base.ledger.rows ++ [ev] := rows_appended h.sha256 s.base.ledger a
  have href : actRef row = actRef n₀.toUserNote := by
    unfold actRef
    rw [hkind, htarget, hid]
  have hevkind : ev.refKind = some (actRef n₀.toUserNote).1 := congrArg (fun r : String × String => some r.1) href
  have hevid : ev.refId = some (actRef n₀.toUserNote).2 := congrArg (fun r : String × String => some r.2) href
  refine ⟨fun id n hn _ => ?_, fun ne hne => ?_, fun id n hn => ?_, fun id hgone => ?_⟩
  · -- the rows
    rw [hrows] at hn
    obtain ⟨n₁, hn₁, rfl⟩ := Option.map_eq_some_iff.mp hn
    have hid₁ : n₁.id = id := id_of_get? hn₁
    by_cases hsame : n₁.id = row.id
    · rw [if_pos hsame]
      refine ⟨ev.seq, rfl, ⟨s.actMapping h now actor action row, ?_, hsame.symm, fun _ =>
        ⟨action, hshows, rfl⟩⟩, fun e he _ _ => ?_⟩
      · change events.get? ev.seq = _
        exact (Table.get?_insert? hins).trans (if_pos rfl)
      · change e ∈ t.base.ledger.rows at he
        rw [hledger] at he
        rcases List.mem_append.mp he with he | he
        · exact (lt_successor h.sha256 a e he).le
        · rw [List.mem_singleton.mp he]
    · rw [if_neg hsame]
      obtain ⟨seq, hkept⟩ := hs.row id n₁ hn₁ (hid₁ ▸ hsame)
      obtain ⟨ne, hne, hnote, hpayload⟩ := hkept.mapped
      refine ⟨seq, hkept.named, ⟨ne, ?_, hnote, hpayload⟩, fun e he hkind' hrefers => ?_⟩
      · exact Table.get?_insert?_old hins hne
      · change e ∈ t.base.ledger.rows at he
        rw [hledger] at he
        rcases List.mem_append.mp he with he | he
        · exact hkept.latest e he hkind' hrefers
        · -- the new event is another note's
          rw [List.mem_singleton.mp he] at hrefers
          rcases target_of_refersTo (hs.placed _ n₀ hget) hevkind hevid hrefers with heq | heq
          · exact absurd (heq.trans hid) hsame
          · have heq := IndexedTable.eq_of_index hn₁ hget heq
            rw [heq] at hsame
            exact absurd hid hsame
  · -- the mappings
    have hne : ne ∈ events.rows := hne
    rw [(Table.insert?_eq_some.mp hins).2] at hne
    rcases List.mem_append.mp hne with hne | hne
    · obtain ⟨e, n, he, hkind', hpayload, hn, hrefers⟩ := hs.mapping ne hne
      refine ⟨e, if n.id = row.id then stamp n else n, Store.event?_append he, hkind', hpayload, ?_, ?_⟩
      · exact (hrows ne.noteId).trans (by rw [hn, Option.map_some])
      · split_ifs
        · exact (refersTo_congr rfl rfl rfl).trans hrefers
        · exact hrefers
    · rw [List.mem_singleton.mp hne]
      refine ⟨ev, stamp n₀, Store.event?_appendedRow h s.base a, rfl, rfl, ?_, ?_⟩
      · exact (hrows row.id).trans (by rw [hget, Option.map_some, if_pos hid])
      · exact (refersTo_congr rfl rfl rfl).trans (refersTo_actRef (hs.placed _ n₀ hget) hevkind hevid)
  · rw [hrows] at hn
    obtain ⟨n₁, hn₁, rfl⟩ := Option.map_eq_some_iff.mp hn
    have hplaced := hs.placed id n₁ hn₁
    split_ifs <;> exact hplaced
  · obtain ⟨n, hn, htext⟩ := hs.gone id hgone
    have hne : n.id ≠ row.id := by
      intro heq
      have hgone : s.forgotten id = true := hgone
      rw [← id_of_get? hn, heq, hlive] at hgone
      cases hgone
    exact ⟨n, (hrows id).trans (by rw [hn, Option.map_some, if_neg hne]), htext⟩

/-! ### The row of a write -/

/-- A note that is found is there; one that is not is made with a target,
unless it stands alone. -/
theorem resolveNote_ok {w : NoteWrite} {note : Option UserNoteRow} {kind : String} {target : Option String}
    (hok : s.resolveNote w = .ok (note, kind, target)) :
    (∃ n, note = some n ∧ s.userNotes.get? n.id = some n) ∨
      note = none ∧ kind ∈ targetKinds ∧ (kind = "none" ∨ ∃ t, target = some t) := by
  unfold resolveNote at hok
  split at hok
  · next id _ =>
    cases hn : s.userNotes.get? id with
    | none =>
      rw [hn] at hok
      cases hok
    | some n =>
      rw [hn] at hok
      cases hok
      have hid : n.id = id := id_of_get? hn
      exact .inl ⟨n, rfl, by rw [hid, hn]⟩
  · dsimp only at hok
    split_ifs at hok with hkind hnone htext
    · cases hok
      exact .inr ⟨rfl, hkind, .inl hnone⟩
    · unfold resolveTarget at hok
      split at hok
      · cases hok
      · next t _ =>
        split_ifs at hok
        cases hok
        cases hn : s.noteOn? (w.targetKind.getD "none") t with
        | none => exact .inr ⟨rfl, hkind, .inr ⟨t, rfl⟩⟩
        | some n => exact .inl ⟨n, rfl, Table.mem_rows.mp (List.mem_of_find?_eq_some hn)⟩

theorem not_forgotten_of_refusal {scope : ScopeFilter} (hn : s.refusal scope n = none) :
    s.forgotten n.id = false := by
  unfold refusal at hn
  split_ifs at hn with hscope hforgotten
  exact Bool.eq_false_iff.mpr hforgotten

/-- A new row keeps what was kept: nothing is mapped to it yet. -/
theorem Kept.make {kind : String} {target : Option String}
    {notes : IndexedTable UserNoteRow.key UserNoteRow.target} (hs : Kept h (fun _ => True) s)
    (hkind : kind ∈ targetKinds) (htarget : kind = "none" ∨ ∃ t, target = some t)
    (hins : s.userNotes.insert? (newNote now kind target) = some notes) :
    Kept h (· ≠ s.userNotes.nextId) { s with userNotes := notes } := by
  have hnew (id : ℤ) := IndexedTable.get?_insert? (k := id) hins
  have hfree : s.userNotes.get? s.userNotes.nextId = none := s.userNotes.get?_nextId
  have hold {id : ℤ} {n : UserNoteRow} (hn : s.userNotes.get? id = some n) : notes.get? id = some n := by
    have hne : id ≠ s.userNotes.nextId := by
      intro heq
      rw [heq, hfree] at hn
      cases hn
    rw [hnew, if_neg hne, hn]
  refine ⟨fun id n hn hid => ?_, fun ne hne => ?_, fun id n hn => ?_, fun id hgone => ?_⟩
  · have hn : notes.get? id = some n := hn
    rw [hnew, if_neg hid] at hn
    obtain ⟨seq, hkept⟩ := hs.row id n hn trivial
    exact ⟨seq, hkept.named, hkept.mapped, hkept.latest⟩
  · obtain ⟨e, n, he, hkind', hpayload, hn, hrefers⟩ := hs.mapping ne hne
    exact ⟨e, n, he, hkind', hpayload, hold hn, hrefers⟩
  · have hn : notes.get? id = some n := hn
    rw [hnew] at hn
    split_ifs at hn
    · cases hn
      rcases htarget with hnone | htarget
      · exact .inl hnone
      · by_cases hnone : kind = "none"
        · exact .inl hnone
        · refine .inr ⟨?_, htarget⟩
          simp only [targetKinds, List.mem_cons, List.not_mem_nil, or_false] at hkind
          tauto
    · exact hs.placed id n hn
  · obtain ⟨n, hn, htext⟩ := hs.gone id hgone
    exact ⟨n, hold hn, htext⟩

/-- The row of a write is there and was not forgotten. -/
theorem Kept.rowFor {w : NoteWrite} {scope : ScopeFilter} {note : Option UserNoteRow} {kind : String}
    {target : Option String} {s₁ : NoteStore} (hs : Kept h (fun _ => True) s)
    (hres : s.resolveNote w = .ok (note, kind, target)) (hallowed : note.bind (s.refusal scope) = none)
    (hrow : s.rowFor now note kind target = .ok (s₁, n)) :
    Kept h (· ≠ n.id) s₁ ∧ s₁.userNotes.get? n.id = some n ∧ s₁.forgotten n.id = false := by
  rcases resolveNote_ok hres with ⟨m, rfl, hm⟩ | ⟨rfl, hkind, htarget⟩
  · cases hrow
    have hlive : s.forgotten n.id = false := not_forgotten_of_refusal hallowed
    exact ⟨⟨fun id m hm _ => hs.row id m hm trivial, hs.mapping, hs.placed, hs.gone⟩, hm, hlive⟩
  · unfold NoteStore.rowFor at hrow
    cases hins : s.userNotes.insert? (newNote now kind target) with
    | none =>
      simp only [hins] at hrow
      cases hrow
    | some notes =>
      simp only [hins] at hrow
      cases hrow
      refine ⟨hs.make hkind htarget hins, ?_, ?_⟩
      · exact (IndexedTable.get?_insert? hins).trans (if_pos rfl)
      · -- a forgotten note has a row, and this one had none
        apply Bool.eq_false_iff.mpr
        intro hgone
        obtain ⟨m, hm, -⟩ := hs.gone s.userNotes.nextId hgone
        rw [s.userNotes.get?_nextId] at hm
        cases hm

/-! ### What a write does -/

/-- What a write calls its act. -/
def actionOf (w : NoteWrite) : String :=
  if w.text.isSome then "note" else if w.starred.getD false then "star" else "unstar"

/-- An act changes the text or the star. -/
theorem act_eq_some {w : NoteWrite} {row row' : UserNoteRow} {action : String}
    (hact : act w row = some (action, row')) :
    action = actionOf w ∧ Shows row'.toUserNote action ∧ row'.id = row.id ∧
      row'.targetKind = row.targetKind ∧ row'.targetId = row.targetId ∧ row'.createdAt = row.createdAt := by
  unfold act at hact
  unfold actionOf
  split at hact
  · next text htext =>
    split_ifs at hact
    cases hact
    rw [htext, Option.isSome_some, if_pos rfl]
    exact ⟨rfl, .inl rfl, rfl, rfl, rfl, rfl⟩
  · next htext =>
    dsimp only at hact
    split_ifs at hact with hsame hstar
    · cases hact
      rw [htext, Option.isSome_none, if_neg Bool.false_ne_true, if_pos hstar]
      exact ⟨rfl, .inr (.inl ⟨rfl, hstar⟩), rfl, rfl, rfl, rfl⟩
    · cases hact
      rw [htext, Option.isSome_none, if_neg Bool.false_ne_true, if_neg hstar]
      exact ⟨rfl, .inr (.inr ⟨rfl, Bool.eq_false_iff.mpr hstar⟩), rfl, rfl, rfl, rfl⟩

/-- A write that goes through leaves the store as it was, or records an act on
a row that is there. -/
theorem writeUserNoteScoped_cases {w : NoteWrite} {actor : String} {scope : ScopeFilter} {out : NoteOutcome}
    (hok : s.writeUserNoteScoped h now w actor scope = .ok (s', out)) :
    (s' = s ∧ ∀ note, out ≠ .written note) ∨
      ∃ note kind target s₁ n row events, s.resolveNote w = .ok (note, kind, target) ∧
        note.bind (s.refusal scope) = none ∧ s.rowFor now note kind target = .ok (s₁, n) ∧
        act w n = some (actionOf w, row) ∧
        s₁.noteEvents.insert? (s₁.actMapping h now actor (actionOf w) row.toUserNote) = some events ∧
        s' = s₁.recorded h now actor (actionOf w) scope row.toUserNote events ∧
        out = .written (s₁.acted h now actor (actionOf w) row.toUserNote) := by
  unfold writeUserNoteScoped at hok
  split_ifs at hok
  · cases hok
    exact .inl ⟨rfl, fun _ => nofun⟩
  split at hok
  · cases hok
    exact .inl ⟨rfl, fun _ => nofun⟩
  next note kind target hres =>
  split at hok
  · cases hok
    exact .inl ⟨rfl, fun _ => nofun⟩
  next hallowed =>
  split at hok
  · cases hok
  next s₁ n hrow =>
  split at hok
  · cases hok
    exact .inl ⟨rfl, fun _ => nofun⟩
  next action row hact =>
  obtain rfl := (act_eq_some hact).1
  unfold recordAct at hok
  cases hins : s₁.noteEvents.insert? (s₁.actMapping h now actor (actionOf w) row.toUserNote) with
  | none =>
    simp only [hins] at hok
    cases hok
  | some events =>
    simp only [hins] at hok
    cases hok
    exact .inr ⟨note, kind, target, s₁, n, row, events, hres, hallowed, hrow, hact, hins, rfl, rfl⟩

/-- **A write is kept.** -/
theorem Kept.write {w : NoteWrite} {actor : String} {scope : ScopeFilter} {out : NoteOutcome}
    (hs : Kept h (fun _ => True) s) (hok : s.writeUserNoteScoped h now w actor scope = .ok (s', out)) :
    Kept h (fun _ => True) s' := by
  rcases writeUserNoteScoped_cases hok with ⟨rfl, -⟩ |
    ⟨note, kind, target, s₁, n, row, events, hres, hallowed, hrow, hact, hins, rfl, -⟩
  · exact hs
  · obtain ⟨hs₁, hget, hlive⟩ := hs.rowFor hres hallowed hrow
    obtain ⟨-, hshows, hid, hkind, htarget, -⟩ := act_eq_some hact
    rw [← hid] at hs₁ hget hlive
    exact hs₁.record hget hkind htarget hlive hshows hins

/-! ### What a forget does -/

/-- A forget that goes through leaves the store as it was, or releases a note
that is there and was not forgotten. -/
theorem forgetUserNote_cases {id : ℤ} {actor : String} {out : Option ℤ}
    (hok : s.forgetUserNote h now id actor = .ok (s', out)) :
    s' = s ∨ ∃ n hash forgotten, s.userNotes.get? id = some n ∧
      s.forgottenCaptures.insert? ⟨"user_note", id, hash, now⟩ = some forgotten ∧
      s' = (s.release h now id hash actor forgotten).1 := by
  unfold forgetUserNote at hok
  split_ifs at hok
  split at hok
  · cases hok
    exact .inl rfl
  next hash hsource =>
  cases hins : s.forgottenCaptures.insert? ⟨"user_note", id, hash, now⟩ with
  | none =>
    simp only [hins] at hok
    cases hok
  | some forgotten =>
    simp only [hins] at hok
    cases hok
    unfold sourceHash at hsource
    split_ifs at hsource with hgone
    obtain ⟨n, hn⟩ := Option.ne_none_iff_exists'.mp (not_or.mp hgone).2
    exact .inr ⟨n, hash, forgotten, hn, hins, rfl⟩

/-- **A forget is kept**: the note's row stays the row of its history, without
the text. -/
theorem Kept.release {id : ℤ} {hash actor : String} {forgotten : Table ForgottenCaptureRow.key}
    (hs : Kept h (fun _ => True) s) (hget : s.userNotes.get? id = some n)
    (hins : s.forgottenCaptures.insert? ⟨"user_note", id, hash, now⟩ = some forgotten) :
    Kept h (fun _ => True) (s.release h now id hash actor forgotten).1 := by
  let a := forgottenEvent h now id hash actor
  let t := (s.release h now id hash actor forgotten).1
  have hrows (id' : ℤ) : t.userNotes.get? id' =
      (s.userNotes.get? id').map fun n => if n.id = id then released now n else n := by
    have hkey (n : UserNoteRow) : (released now n).key = n.key := rfl
    have hupdate := Table.get?_update (t := s.userNotes.toTable) (p := fun n => n.id = id)
      (f := released now) (h := hkey) (k := id')
    simp only [decide_eq_true_eq] at hupdate
    exact hupdate
  have hledger : t.base.ledger.rows = s.base.ledger.rows ++ [s.base.appendedRow h a] :=
    rows_appended h.sha256 s.base.ledger a
  have hgone (id' : ℤ) : t.forgotten id' = (decide (id' = id) || s.forgotten id') := by
    have hfind : forgotten.get? ("user_note", id') = _ := Table.get?_insert? hins
    change (forgotten.get? ("user_note", id')).isSome = _
    rw [hfind]
    by_cases hsame : id' = id
    · rw [if_pos (congrArg (Prod.mk "user_note") hsame.symm), decide_eq_true hsame]
      rfl
    · rw [if_neg fun heq => hsame (Prod.mk.inj heq).2.symm, decide_eq_false hsame]
      rfl
  refine ⟨fun id' n' hn' _ => ?_, fun ne hne => ?_, fun id' n' hn' => ?_, fun id' hforgotten => ?_⟩
  · rw [hrows] at hn'
    obtain ⟨m, hm, rfl⟩ := Option.map_eq_some_iff.mp hn'
    obtain ⟨seq, hkept⟩ := hs.row id' m hm trivial
    obtain ⟨ne, hne, hnote, hpayload⟩ := hkept.mapped
    have hlatest (e : LedgerEventRow) (he : e ∈ t.base.ledger.rows) (hkind : e.kind = "note")
        (hrefers : refersTo m.toUserNote e = some true) : e.seq ≤ seq := by
      rw [hledger] at he
      rcases List.mem_append.mp he with he | he
      · exact hkept.latest e he hkind hrefers
      · rw [List.mem_singleton.mp he] at hkind
        have hkind : "capture_forgotten" = "note" := hkind
        exact absurd hkind (by decide)
    refine ⟨seq, ?_⟩
    by_cases hsame : m.id = id
    · rw [if_pos hsame]
      refine ⟨hkept.named, ⟨ne, hne, hnote, fun hlive => ?_⟩, hlatest⟩
      have hlive : t.forgotten m.id = false := hlive
      rw [hgone, decide_eq_true hsame] at hlive
      cases hlive
    · rw [if_neg hsame]
      refine ⟨hkept.named, ⟨ne, hne, hnote, fun hlive => hpayload ?_⟩, hlatest⟩
      have hlive : t.forgotten m.id = false := hlive
      rw [hgone] at hlive
      exact (Bool.or_eq_false_iff.mp hlive).2
  · obtain ⟨e, m, he, hkind, hpayload, hm, hrefers⟩ := hs.mapping ne hne
    refine ⟨e, if m.id = id then released now m else m, Store.event?_append he, hkind, hpayload, ?_, ?_⟩
    · exact (hrows ne.noteId).trans (by rw [hm, Option.map_some])
    · split_ifs
      · exact (refersTo_congr rfl rfl rfl).trans hrefers
      · exact hrefers
  · rw [hrows] at hn'
    obtain ⟨m, hm, rfl⟩ := Option.map_eq_some_iff.mp hn'
    have hplaced := hs.placed id' m hm
    split_ifs <;> exact hplaced
  · have hforgotten : t.forgotten id' = true := hforgotten
    rw [hgone] at hforgotten
    by_cases hsame : id' = id
    · have hid : n.id = id := id_of_get? hget
      refine ⟨released now n, (hrows id').trans ?_, rfl⟩
      rw [hsame, hget, Option.map_some, if_pos hid]
    · rw [decide_eq_false hsame, Bool.false_or] at hforgotten
      obtain ⟨m, hm, htext⟩ := hs.gone id' hforgotten
      have hne : m.id ≠ id := fun heq => hsame ((id_of_get? hm).symm.trans heq)
      exact ⟨m, (hrows id').trans (by rw [hm, Option.map_some, if_neg hne]), htext⟩

/-! ### Runs -/

/-- **An act is kept.** -/
theorem Kept.perform (hs : Kept h (fun _ => True) s) (act : NoteAct) :
    Kept h (fun _ => True) (s.perform h act) := by
  cases act with
  | write now w actor scope =>
    unfold NoteStore.perform
    dsimp only
    split
    · next s' out hok => exact hs.write hok
    · exact hs
  | forget now id actor =>
    unfold NoteStore.perform
    dsimp only
    split
    · next s' out hok =>
      rcases forgetUserNote_cases hok with rfl | ⟨n, hash, forgotten, hn, hins, rfl⟩
      · exact hs
      · exact hs.release hn hins
    · exact hs

/-- **Acts are kept**, one after another. -/
theorem Kept.run (hs : Kept h (fun _ => True) s) (acts : List NoteAct) :
    Kept h (fun _ => True) (s.run h acts) := by
  unfold NoteStore.run
  induction acts generalizing s with
  | nil => exact hs
  | cons act acts ih => exact ih (hs.perform act)

/-- A store without notes keeps all of them. -/
theorem kept_fresh (base : Store) (principals : Table Principal.principalId) (aliases : Table AliasRow.name)
    (captures : Table ForgottenCaptureRow.key) (outbox : Table CaptureOutboxRow.targetSeq) :
    Kept h (fun _ => True) (fresh base principals aliases captures outbox) := by
  have hnone (id : ℤ) : (fresh base principals aliases captures outbox).userNotes.get? id = none := rfl
  refine ⟨fun id n hn _ => ?_, fun ne hne => (nomatch hne), fun id n hn => ?_, fun id hgone => ?_⟩
  · rw [hnone] at hn
    cases hn
  · rw [hnone] at hn
    cases hn
  · obtain ⟨f, hf⟩ := Option.isSome_iff_exists.mp hgone
    have hf : (captures.delete fun f => f.targetKind = "user_note").get? ("user_note", id) = some f := hf
    rw [Table.get?_delete, Option.filter_eq_some_iff] at hf
    have hkey := Table.key_of_get? hf.1
    have hkind : f.targetKind = "user_note" := congrArg Prod.fst hkey
    simp [hkind] at hf

/-- A note that was forgotten stays so. -/
theorem forgotten_perform {id : ℤ} (hgone : s.forgotten id = true) (act : NoteAct) :
    (s.perform h act).forgotten id = true := by
  cases act with
  | write now w actor scope =>
    unfold NoteStore.perform
    dsimp only
    split
    · next s' out hok =>
      rcases writeUserNoteScoped_cases hok with ⟨rfl, -⟩ |
        ⟨note, kind, target, s₁, n, row, events, -, -, hrow, -, -, rfl, -⟩
      · exact hgone
      · have hsame : s₁.forgottenCaptures = s.forgottenCaptures := by
          unfold rowFor at hrow
          split at hrow
          · cases hrow
            rfl
          · split at hrow
            · cases hrow
            · cases hrow
              rfl
        change (s₁.forgottenCaptures.get? ("user_note", id)).isSome = true
        rw [hsame]
        exact hgone
    · exact hgone
  | forget now id' actor =>
    unfold NoteStore.perform
    dsimp only
    split
    · next s' out hok =>
      rcases forgetUserNote_cases hok with rfl | ⟨n, hash, forgotten, hn, hins, rfl⟩
      · exact hgone
      · obtain ⟨f, hf⟩ := Option.isSome_iff_exists.mp hgone
        exact Option.isSome_iff_exists.mpr ⟨f, Table.get?_insert?_old hins hf⟩
    · exact hgone

theorem forgotten_run {id : ℤ} (hgone : s.forgotten id = true) (acts : List NoteAct) :
    (s.run h acts).forgotten id = true := by
  unfold NoteStore.run
  induction acts generalizing s with
  | nil => exact hgone
  | cons act acts ih => exact ih (forgotten_perform hgone act)

/-! ### What the records say -/

/-- Each row names the latest event of its note, which commits to the row's
act and text unless the note was forgotten. -/
def RowsCommitted (h : Host) (s : NoteStore) : Prop :=
  ∀ n ∈ s.userNotes.rows, ∃ seq e, n.seq = some seq ∧ s.base.event? seq = some e ∧ e.kind = "note" ∧
    refersTo n.toUserNote e = some true ∧
    (∀ e' ∈ s.base.ledger.rows, e'.kind = "note" → refersTo n.toUserNote e' = some true → e'.seq ≤ seq) ∧
    (s.forgotten n.id = false →
      ∃ action, Shows n.toUserNote action ∧ e.payloadHash = actHash h action n.text)

/-- Each mapping has the payload hash of its event, and its seq resolves to
the note. -/
def VersionsCommitted (s : NoteStore) : Prop :=
  ∀ ne ∈ s.noteEvents.rows, ∃ e n, s.base.event? ne.seq = some e ∧ e.payloadHash = ne.payloadHash ∧
    s.userNotes.get? ne.noteId = some n ∧ s.noteForSeq ne.seq = some n.toUserNote

theorem Kept.rowsCommitted (hs : Kept h (fun _ => True) s) : RowsCommitted h s := by
  intro n hn
  obtain ⟨seq, hkept⟩ := hs.row n.id n (Table.mem_rows.mp hn) trivial
  obtain ⟨ne, hne, hnote, hpayload⟩ := hkept.mapped
  have hmem : ne ∈ s.noteEvents.rows := (Table.get?_eq_some.mp hne).1
  have hseq : ne.seq = seq := Table.key_of_get? hne
  obtain ⟨e, m, he, hkind, hhash, hm, hrefers⟩ := hs.mapping ne hmem
  have hsame : m = n := by
    rw [hnote, Table.mem_rows.mp hn] at hm
    exact (Option.some.inj hm).symm
  refine ⟨seq, e, hkept.named, hseq ▸ he, hkind, hsame ▸ hrefers, hkept.latest, fun hlive => ?_⟩
  rw [hhash]
  exact hpayload hlive

theorem Kept.versionsCommitted (hs : Kept h (fun _ => True) s) : VersionsCommitted s := by
  intro ne hne
  obtain ⟨e, n, he, hkind, hhash, hn, hrefers⟩ := hs.mapping ne hne
  refine ⟨e, n, he, hhash, hn, ?_⟩
  have hmapping : s.noteEvents.get? ne.seq = some ne := Table.mem_rows.mp hne
  have hid : n.id = ne.noteId := id_of_get? hn
  have hmapped : s.mappedNote ne.seq n = some n.id := by
    unfold mappedNote
    simp only [hmapping, he, Option.bind_eq_bind, Option.bind_some]
    rw [if_pos ⟨hhash, by rw [hkind]; decide, hrefers⟩, hid]
  unfold noteForSeq
  cases hfind : s.userNotes.rows.find? fun n => s.mappedNote ne.seq n = some n.id with
  | none => exact absurd (decide_eq_true hmapped) (List.find?_eq_none.mp hfind n (Table.get?_eq_some.mp hn).1)
  | some m =>
    -- no other row has the id of the mapping
    have hm := List.find?_some hfind
    rw [decide_eq_true_eq] at hm
    have hnote : s.mappedNote ne.seq m = none ∨ s.mappedNote ne.seq m = some ne.noteId := by
      unfold mappedNote
      simp only [hmapping, he, Option.bind_eq_bind, Option.bind_some]
      split_ifs
      · exact .inr rfl
      · exact .inl rfl
    have hmid : m.id = ne.noteId := by
      rcases hnote with hnone | hnote
      · rw [hnone] at hm
        cases hm
      · exact Option.some.inj (hm.symm.trans hnote)
    have hget : s.userNotes.get? m.id = some m := Table.mem_rows.mp (List.mem_of_find?_eq_some hfind)
    rw [hmid, hn] at hget
    rw [Option.some.inj hget]
    rfl

/-- What a write answers with is the row, and its event commits to the act. -/
theorem written_committed {w : NoteWrite} {actor : String} {scope : ScopeFilter} {note : UserNote}
    (hs : Kept h (fun _ => True) s)
    (hok : s.writeUserNoteScoped h now w actor scope = .ok (s', .written note)) :
    ∃ n seq e, s'.userNotes.get? note.id = some n ∧ n.toUserNote = note ∧ n.seq = some seq ∧
      s'.base.event? seq = some e ∧ e.payloadHash = actHash h (actionOf w) note.text := by
  rcases writeUserNoteScoped_cases hok with ⟨-, hout⟩ |
    ⟨note', kind, target, s₁, m, row, events, hres, hallowed, hrow, hact, hins, rfl, hout⟩
  · exact absurd rfl (hout note)
  · obtain ⟨hs₁, hget, -⟩ := hs.rowFor hres hallowed hrow
    obtain ⟨-, -, hid, hkind, htarget, hcreated⟩ := act_eq_some hact
    obtain rfl := NoteOutcome.written.inj hout
    rw [← hid] at hget
    have hmid : m.id = row.id := hid.symm
    let stamp := stamped (s₁.acted h now actor (actionOf w) row.toUserNote) (s₁.scopeIdsForAuthor actor) scope
    refine ⟨stamp m, _, _, ?_, ?_, rfl, Store.event?_appendedRow h s₁.base _, rfl⟩
    · refine (get?_recorded row.id).trans ?_
      rw [hget, Option.map_some, if_pos hmid]
    · change UserNote.mk m.id _ m.targetKind m.targetId _ _ m.createdAt _ = _
      rw [hmid, ← hkind, ← htarget, ← hcreated]
      rfl

end NoteStore

/-- **The ledger commits to the notes**: after any acts, every row names the
latest event of its note, which commits to the row's act and text unless the
note was forgotten; every version is what its event commits to and resolves to
the note; a write that is answered has its event; and a note that was
forgotten has no text, whatever acts follow. -/
theorem notes_committed (h : Host) (base : Store) (principals : Table Principal.principalId)
    (aliases : Table AliasRow.name) (captures : Table ForgottenCaptureRow.key)
    (outbox : Table CaptureOutboxRow.targetSeq) (acts : List NoteAct) :
    let s := (NoteStore.fresh base principals aliases captures outbox).run h acts
    s.RowsCommitted h ∧ s.VersionsCommitted ∧
      (∀ now w actor scope s' note, s.writeUserNoteScoped h now w actor scope = .ok (s', .written note) →
        ∃ n seq e, s'.userNotes.get? note.id = some n ∧ n.toUserNote = note ∧ n.seq = some seq ∧
          s'.base.event? seq = some e ∧
          e.payloadHash = NoteStore.actHash h (NoteStore.actionOf w) note.text) ∧
      ∀ id, s.forgotten id = true → ∀ later : List NoteAct,
        ∃ n, (s.run h later).userNotes.get? id = some n ∧ n.text = "" := by
  intro s
  have hs : s.Kept h (fun _ => True) := (NoteStore.kept_fresh _ _ _ _ _).run acts
  refine ⟨hs.rowsCommitted, hs.versionsCommitted, fun now w actor scope s' note hok => ?_,
    fun id hgone later => ?_⟩
  · exact NoteStore.written_committed hs hok
  · exact (hs.run later).gone id (NoteStore.forgotten_run hgone later)

end PolisMemory
