/-
# What a store has received of a chain

What a store holds of a chain depends on what it has received of it
(`Received`), not on the order it came in: the events are those received, a
prompt is its row, a note its newest version, and a redaction blanks what it
names, whether it comes before or after (`ForeignStore.Imported`). Each row of
a segment adds itself to that, where what is received agrees
(`Received.Agree`).

Key definitions: `Received`, `Received.dead`, `Received.Agree`,
`ForeignStore.Imported`.
Key theorems: `Imported.suppress`, `Imported.blocked_iff`,
`Imported.importPrompt`, `Imported.importNote`, `Imported.importRedaction`.
-/
import PolisMemory.Tombstones

namespace PolisMemory

open Tables
open Store (bind_eq_ok)

/-- What was received of a chain. -/
structure Received where
  events : List LedgerEventRow
  prompts : List ForeignPromptInput
  notes : List ForeignNoteInput
  redactions : List ForeignRedactionInput

/-- What an envelope brings: its events from seq 1 on, and its rows. -/
def Envelope.received (env : Envelope) (projects : List String) : Received :=
  ⟨env.newEvents 1, env.promptInputs projects, env.noteInputs, env.redactionInputs⟩

namespace Received

def empty : Received := ⟨[], [], [], []⟩

def append (x y : Received) : Received :=
  ⟨x.events ++ y.events, x.prompts ++ y.prompts, x.notes ++ y.notes, x.redactions ++ y.redactions⟩

/-- A redaction names the seq. -/
def redacted (x : Received) (q : ℤ) : Prop := ∃ r ∈ x.redactions, r.targetSeq = q

/-- No version of the note is newer. -/
def newest (x : Received) (n : ForeignNoteInput) : Prop :=
  n ∈ x.notes ∧ ∀ m ∈ x.notes, m.noteId = n.noteId → m.seq.getD 0 ≤ n.seq.getD 0

/-- A redaction names the note by one of its events, or its newest version. -/
def dead (x : Received) (noteId : ℤ) : Prop :=
  (∃ e ∈ x.events, x.redacted e.seq ∧ e.namesNote noteId = true) ∨
    ∃ n, x.newest n ∧ n.noteId = noteId ∧ ∃ q, n.seq = some q ∧ x.redacted q

/-- One part of another. -/
structure Sub (x y : Received) : Prop where
  events : ∀ e ∈ x.events, e ∈ y.events
  prompts : ∀ p ∈ x.prompts, p ∈ y.prompts
  notes : ∀ n ∈ x.notes, n ∈ y.notes
  redactions : ∀ r ∈ x.redactions, r ∈ y.redactions

/-- What was received agrees. A seq is one event, a prompt comes at one
redaction level unless it is redacted, a version of a note is one note, and a
redaction event one redaction; an event is of one prompt or one note, and the
events name the notes by their ids as they are written; a redaction names a
seq before its own, and of a note that is not standalone no version but the
newest. -/
structure Agree (x : Received) : Prop where
  event : ∀ e ∈ x.events, ∀ e' ∈ x.events, e.seq = e'.seq → e = e'
  prompt : ∀ p ∈ x.prompts, ∀ p' ∈ x.prompts, p.seq = p'.seq →
    p.promptId = p'.promptId ∧ p.role = p'.role ∧ p.bodyHash = p'.bodyHash ∧ p.project = p'.project ∧
      (x.redacted p.seq ∨ p.text = p'.text ∧ p.redaction = p'.redaction)
  version : ∀ n ∈ x.notes, ∀ n' ∈ x.notes, n.noteId = n'.noteId → n.seq = n'.seq → n = n'
  redaction : ∀ r ∈ x.redactions, ∀ r' ∈ x.redactions, r.eventSeq = r'.eventSeq → r = r'
  apart : ∀ p ∈ x.prompts, ∀ n ∈ x.notes, n.seq ≠ some p.seq
  one : ∀ n ∈ x.notes, ∀ n' ∈ x.notes, n.seq = n'.seq → n.noteId = n'.noteId
  named : ∀ n ∈ x.notes, ∀ n' ∈ x.notes, ∀ e ∈ x.events, n.seq = some e.seq →
    e.namesNote n'.noteId = true → n'.noteId = n.noteId
  ids : ∀ n ∈ x.notes, ∀ e ∈ x.events, e.kind = "note" → e.refKind = some "none" →
    (e.refId.map castInteger = some n.noteId ↔ e.refId = some (i64ToString n.noteId))
  past : ∀ r ∈ x.redactions, r.targetSeq ≤ r.eventSeq
  older : ∀ n ∈ x.notes, ∀ n' ∈ x.notes, n.noteId = n'.noteId → n.seq.getD 0 < n'.seq.getD 0 →
    ∀ q, n.seq = some q → x.redacted q → ∃ e ∈ x.events, e.seq = q ∧ e.namesNote n.noteId = true

/-- The rows come with their events. -/
structure Sourced (x : Received) : Prop where
  note : ∀ n ∈ x.notes, ∃ q, n.seq = some q ∧ (0 < q → ∃ e ∈ x.events, e.seq = q)
  redaction : ∀ r ∈ x.redactions, 0 < r.eventSeq → ∃ e ∈ x.events, e.seq = r.eventSeq

variable {x y : Received}

theorem Sub.redacted (h : x.Sub y) {q : ℤ} (hq : x.redacted q) : y.redacted q := by
  obtain ⟨r, hr, hrq⟩ := hq
  exact ⟨r, h.redactions r hr, hrq⟩

theorem Sub.refl (x : Received) : x.Sub x :=
  ⟨fun _ he => he, fun _ hp => hp, fun _ hn => hn, fun _ hr => hr⟩

theorem Sub.trans {z : Received} (h : x.Sub y) (h' : y.Sub z) : x.Sub z where
  events e he := h'.events e (h.events e he)
  prompts p hp := h'.prompts p (h.prompts p hp)
  notes n hn := h'.notes n (h.notes n hn)
  redactions r hr := h'.redactions r (h.redactions r hr)

theorem Sub.append {z : Received} (h : x.Sub z) (h' : y.Sub z) : (x.append y).Sub z where
  events e he := (List.mem_append.mp he).elim (h.events e) (h'.events e)
  prompts p hp := (List.mem_append.mp hp).elim (h.prompts p) (h'.prompts p)
  notes n hn := (List.mem_append.mp hn).elim (h.notes n) (h'.notes n)
  redactions r hr := (List.mem_append.mp hr).elim (h.redactions r) (h'.redactions r)

theorem sub_append_left (x y : Received) : x.Sub (x.append y) where
  events _ := List.mem_append_left _
  prompts _ := List.mem_append_left _
  notes _ := List.mem_append_left _
  redactions _ := List.mem_append_left _

theorem sub_append_right (x y : Received) : y.Sub (x.append y) where
  events _ := List.mem_append_right _
  prompts _ := List.mem_append_right _
  notes _ := List.mem_append_right _
  redactions _ := List.mem_append_right _

theorem sub_of_empty (x : Received) : empty.Sub x where
  events _ he := by cases he
  prompts _ hp := by cases hp
  notes _ hn := by cases hn
  redactions _ hr := by cases hr

theorem sourced_empty : empty.Sourced where
  note _ hn := by cases hn
  redaction _ hr := by cases hr

theorem Sourced.append (hx : x.Sourced) (hy : y.Sourced) : (x.append y).Sourced where
  note n hn := by
    rcases List.mem_append.mp hn with hn | hn
    · obtain ⟨q, hq, he⟩ := hx.note n hn
      refine ⟨q, hq, fun hpos => ?_⟩
      obtain ⟨e, hmem, heq⟩ := he hpos
      exact ⟨e, List.mem_append_left _ hmem, heq⟩
    · obtain ⟨q, hq, he⟩ := hy.note n hn
      refine ⟨q, hq, fun hpos => ?_⟩
      obtain ⟨e, hmem, heq⟩ := he hpos
      exact ⟨e, List.mem_append_right _ hmem, heq⟩
  redaction r hr hpos := by
    rcases List.mem_append.mp hr with hr | hr
    · obtain ⟨e, hmem, heq⟩ := hx.redaction r hr hpos
      exact ⟨e, List.mem_append_left _ hmem, heq⟩
    · obtain ⟨e, hmem, heq⟩ := hy.redaction r hr hpos
      exact ⟨e, List.mem_append_right _ hmem, heq⟩

end Received

theorem Envelope.sourced (env : Envelope) (projects : List String) :
    (env.received projects).Sourced where
  note n hn := by
    obtain ⟨m, hm, rfl⟩ := List.mem_map.mp hn
    obtain ⟨-, hany⟩ := List.mem_filter.mp hm
    obtain ⟨q, hq, hev⟩ := (Option.any_eq_true _ _).mp hany
    obtain ⟨e, he, heq⟩ := List.any_eq_true.mp hev
    refine ⟨q, hq, fun hpos => ⟨e, ?_, of_decide_eq_true heq⟩⟩
    have hge : 1 ≤ e.seq := by
      rw [of_decide_eq_true heq]
      omega
    exact List.mem_filter.mpr ⟨he, decide_eq_true hge⟩
  redaction r hr hpos := by
    obtain ⟨m, hm, rfl⟩ := List.mem_map.mp hr
    obtain ⟨-, hany⟩ := List.mem_filter.mp hm
    obtain ⟨e, he, heq⟩ := List.any_eq_true.mp hany
    refine ⟨e, ?_, of_decide_eq_true heq⟩
    have hge : 1 ≤ e.seq := by
      rw [of_decide_eq_true heq]
      exact hpos
    exact List.mem_filter.mpr ⟨he, decide_eq_true hge⟩

/-! ### Rows of what was received -/

namespace ForeignStore

/-- The row of a prompt: blank if a redaction names it, unless that is still
to be done. -/
structure PromptRow (x : Received) (but : Option ℤ) (i : ForeignPromptInput)
    (p : ForeignPromptRow) : Prop where
  seq : p.seq = i.seq
  fields : p.promptId = i.promptId ∧ p.role = i.role ∧ p.bodyHash = i.bodyHash ∧
    p.project = i.project
  body : (x.redacted p.seq ∧ p.tombstoned = true ∧ p.text = some tombstoneText ∧
      p.redaction = "stub") ∨
    (x.redacted p.seq → but = some p.seq) ∧ p.tombstoned = false ∧ p.text = i.text ∧
      p.redaction = i.redaction

/-- The row of a note: without its text if the note is dead. -/
structure NoteRow (x : Received) (left : Prop) (i : ForeignNoteInput) (n : ForeignNoteRow) :
    Prop where
  noteId : n.noteId = i.noteId
  seq : n.seq = i.seq
  fields : n.targetKind = i.targetKind ∧ n.targetId = i.targetId ∧ n.createdAt = i.createdAt
  text : (x.dead n.noteId ∧ n.text = "") ∨ (x.dead n.noteId → left) ∧ n.text = i.text

/-- The store holds of the chain what was received of it; the suppression of
one capture may still be to come. -/
structure Imported (c : String) (x : Received) (but : Option ℤ) (s : ForeignStore) : Prop where
  events : ∀ e, e ∈ s.held c ↔ e ∈ x.events
  redaction : ∀ r ∈ s.redactions.rows, r.chainId = c →
    (⟨r.eventSeq, r.targetChain, r.targetSeq⟩ : ForeignRedactionInput) ∈ x.redactions
  redactions : ∀ i ∈ x.redactions, ∃ r ∈ s.redactions.rows, r.chainId = c ∧
    i = ⟨r.eventSeq, r.targetChain, r.targetSeq⟩
  pos : ∀ q, x.redacted q → but = some q ∨ 0 < q
  marks : ∀ q, x.redacted q → but = some q ∨ s.Marked c q
  marked : ∀ q, s.Marked c q → x.redacted q ∨ ∃ n ∈ x.notes, n.seq = some q ∧ x.dead n.noteId
  prompt : ∀ p ∈ s.prompts.rows, p.chainId = c → ∃ i ∈ x.prompts, PromptRow x but i p
  prompts : ∀ i ∈ x.prompts, ∃ p ∈ s.prompts.rows, p.capture = (c, i.seq)
  note : ∀ n ∈ s.notes.rows, n.chainId = c → ∃ i, x.newest i ∧
    NoteRow x (∃ q, but = some q ∧ s.ofCapture c q n = true) i n
  notes : ∀ i ∈ x.notes, ∃ n ∈ s.notes.rows, n.key = (c, i.noteId)

variable {s s' : ForeignStore} {c : String} {q now : ℤ} {x y : Received} {but : Option ℤ}

/-- A capture is tombstoned just where it is marked. -/
theorem Imported.captureTombstoned_iff (h : Imported c x none s) :
    s.captureTombstoned c q = true ↔ s.Marked c q := by
  have hget : (s.markers.get? (c, q)).isSome = true ↔ s.Marked c q := isSome_markers
  unfold captureTombstoned
  rw [Bool.or_eq_true, hget, List.any_eq_true]
  constructor
  · rintro (⟨r, hr, hall⟩ | hmarked)
    · simp only [Bool.and_eq_true, decide_eq_true_eq] at hall
      obtain ⟨⟨hown, hc⟩, hq⟩ := hall
      have hmem := h.redaction r hr (hown.trans hc)
      rcases h.marks q ⟨_, hmem, hq⟩ with hnone | hmarked
      · cases hnone
      · exact hmarked
    · exact hmarked
  · exact .inr

theorem ofCapture_iff_held {n : ForeignNoteRow} : s.ofCapture c q n = true ↔
    n.chainId = c ∧ (n.seq = some q ∨
      ∃ e ∈ s.held c, e.seq = q ∧ e.namesNote n.noteId = true) := by
  rw [ofCapture_iff]
  refine and_congr_right fun _ => or_congr_right ?_
  constructor
  · rintro ⟨⟨c', e⟩, hr, hc, hq, hname⟩
    dsimp only at hc hq hname
    subst hc
    exact ⟨e, mem_held.mpr (Table.mem_rows.mp hr), hq, hname⟩
  · rintro ⟨e, he, hq, hname⟩
    exact ⟨⟨c, e⟩, Table.mem_rows.mpr (mem_held.mp he), rfl, hq, hname⟩

/-- **A suppression** of a capture that is redacted, or whose notes are dead
already. -/
theorem Imported.suppress (h : Imported c x but s) (hbut : ∀ q' ∈ but, q' = q)
    (hpos : x.redacted q → 0 < q)
    (hprompt : ∀ p ∈ s.prompts.rows, p.chainId = c → p.seq = q → x.redacted q)
    (hnote : ∀ n ∈ s.notes.rows, s.ofCapture c q n = true → x.dead n.noteId)
    (hmark : x.redacted q ∨ ∃ n ∈ x.notes, n.seq = some q ∧ x.dead n.noteId) :
    Imported c x none (s.suppress c q) where
  events := h.events
  redaction := h.redaction
  redactions := h.redactions
  pos q' hq' := by
    rcases h.pos q' hq' with hx | hpos'
    · have heq := hbut q' hx
      subst heq
      exact .inr (hpos hq')
    · exact .inr hpos'
  marks q' hq' := by
    refine .inr (marked_suppress.mpr ?_)
    rcases h.marks q' hq' with hx | hmarked
    · exact .inl (by rw [hbut q' hx])
    · exact .inr hmarked
  marked q' hm := by
    rcases marked_suppress.mp hm with heq | hold
    · have hq : q' = q := (Prod.ext_iff.mp heq).2
      rwa [hq]
    · exact h.marked q' hold
  prompt p hp hc := by
    obtain ⟨p₀, hp₀, rfl⟩ := mem_prompts_suppress hp
    by_cases hhit : (p₀.chainId = c && p₀.seq = q && !p₀.tombstoned) = true
    · rw [if_pos hhit] at hc ⊢
      simp only [Bool.and_eq_true, decide_eq_true_eq] at hhit
      obtain ⟨i, hi, hrow⟩ := h.prompt p₀ hp₀ hhit.1.1
      refine ⟨i, hi, hrow.seq, hrow.fields, .inl ⟨?_, rfl, rfl, rfl⟩⟩
      rw [hhit.1.2]
      exact hprompt p₀ hp₀ hhit.1.1 hhit.1.2
    · rw [if_neg hhit] at hc ⊢
      obtain ⟨i, hi, hrow⟩ := h.prompt p₀ hp₀ hc
      refine ⟨i, hi, hrow.seq, hrow.fields, ?_⟩
      rcases hrow.body with hblank | ⟨hred, htomb, hbody⟩
      · exact .inl hblank
      · refine .inr ⟨fun hr => ?_, htomb, hbody⟩
        have hq := hbut _ (hred hr)
        exact absurd (by simp [hc, hq, htomb]) hhit
  prompts i hi := by
    obtain ⟨p, hp, hcapture⟩ := h.prompts i hi
    exact ⟨_, List.mem_map_of_mem hp, by split_ifs <;> exact hcapture⟩
  note n hn hc := by
    obtain ⟨n₀, hn₀, rfl⟩ := mem_notes_suppress hn
    by_cases hhit : (s.ofCapture c q n₀ && n₀.text ≠ "") = true
    · rw [if_pos hhit] at hc ⊢
      obtain ⟨i, hi, hrow⟩ := h.note n₀ hn₀ hc
      rw [Bool.and_eq_true] at hhit
      exact ⟨i, hi, hrow.noteId, hrow.seq, hrow.fields, .inl ⟨hnote n₀ hn₀ hhit.1, rfl⟩⟩
    · rw [if_neg hhit] at hc ⊢
      obtain ⟨i, hi, hrow⟩ := h.note n₀ hn₀ hc
      refine ⟨i, hi, hrow.noteId, hrow.seq, hrow.fields, ?_⟩
      rcases hrow.text with hblank | ⟨hdead, htext⟩
      · exact .inl hblank
      · by_cases hd : x.dead n₀.noteId
        · obtain ⟨q', hq', hof⟩ := hdead hd
          rw [hbut q' hq'] at hof
          rw [hof] at hhit
          exact .inl ⟨hd, by simpa using hhit⟩
        · exact .inr ⟨fun hd' => absurd hd' hd, htext⟩
  notes i hi := by
    obtain ⟨n, hn, hkey⟩ := h.notes i hi
    exact ⟨_, List.mem_map_of_mem hn, by split_ifs <;> exact hkey⟩

/-- The same captures, the same rows: only what is not of the captures may
differ. -/
theorem Imported.of_tables (h : Imported c x but s) (hs : s'.captureTables = s.captureTables) :
    Imported c x but s' := by
  simp only [captureTables, Prod.mk.injEq] at hs
  obtain ⟨hevents, hprompts, hnotes, hredactions, -, hmarkers⟩ := hs
  have hmarked : ∀ c q, s'.Marked c q ↔ s.Marked c q := by
    intro c q
    rw [Marked, Marked, hmarkers]
  have hof : ∀ c q n, s'.ofCapture c q n = s.ofCapture c q n := by
    intro c q n
    rw [ofCapture, ofCapture, namedNotes, namedNotes, hevents]
  have hheld : s'.held c = s.held c := by rw [held, held, hevents]
  constructor
  · simpa only [hheld] using h.events
  · simpa only [hredactions] using h.redaction
  · simpa only [hredactions] using h.redactions
  · exact h.pos
  · simpa only [hmarked] using h.marks
  · simpa only [hmarked] using h.marked
  · simpa only [hprompts] using h.prompt
  · simpa only [hprompts] using h.prompts
  · simpa only [hnotes, hof] using h.note
  · simpa only [hnotes] using h.notes

/-! ### One row more -/

/-- Events that no redaction named before change nothing else. -/
theorem Imported.events_append {new : List LedgerEventRow} (h : Imported c x none s)
    (htables : s'.captureTables.2 = s.captureTables.2)
    (hheld : ∀ e, e ∈ s'.held c ↔ e ∈ x.events ∨ e ∈ new)
    (hold : ∀ e ∈ new, x.redacted e.seq → e ∈ x.events) :
    Imported c { x with events := x.events ++ new } none s' := by
  simp only [captureTables, Prod.mk.injEq] at htables
  obtain ⟨hprompts, hnotes, hredactions, -, hmarkers⟩ := htables
  have hmarked : ∀ c q, s'.Marked c q ↔ s.Marked c q := by
    intro c q
    rw [Marked, Marked, hmarkers]
  have hdead : ∀ id, ({ x with events := x.events ++ new } : Received).dead id ↔ x.dead id := by
    intro id
    refine or_congr_left ⟨?_, ?_⟩
    · rintro ⟨e, he, hred, hname⟩
      rcases List.mem_append.mp he with he | he
      · exact ⟨e, he, hred, hname⟩
      · exact ⟨e, hold e he hred, hred, hname⟩
    · rintro ⟨e, he, hred, hname⟩
      exact ⟨e, List.mem_append_left _ he, hred, hname⟩
  constructor
  · intro e
    rw [hheld, List.mem_append]
  · simpa only [hredactions] using h.redaction
  · simpa only [hredactions] using h.redactions
  · exact h.pos
  · intro q hq
    rw [hmarked]
    exact h.marks q hq
  · intro q hm
    rw [hmarked] at hm
    rcases h.marked q hm with hred | ⟨n, hn, hseq, hd⟩
    · exact .inl hred
    · exact .inr ⟨n, hn, hseq, (hdead n.noteId).mpr hd⟩
  · intro p hp hc
    rw [hprompts] at hp
    obtain ⟨i, hi, hrow⟩ := h.prompt p hp hc
    exact ⟨i, hi, hrow.seq, hrow.fields, hrow.body⟩
  · simpa only [hprompts] using h.prompts
  · intro n hn hc
    rw [hnotes] at hn
    obtain ⟨i, hi, hrow⟩ := h.note n hn hc
    refine ⟨i, hi, hrow.noteId, hrow.seq, hrow.fields, ?_⟩
    rw [hdead]
    rcases hrow.text with hblank | ⟨hleft, htext⟩
    · exact .inl hblank
    · refine .inr ⟨fun hd => ?_, htext⟩
      obtain ⟨q, hq, -⟩ := hleft hd
      cases hq
  · simpa only [hnotes] using h.notes

/-- A prompt: new, or of a row that is there. -/
theorem Imported.importPrompt {p : ForeignPromptInput} (h : Imported c x none s)
    (happart : ∀ n ∈ x.notes, n.seq ≠ some p.seq)
    (hs : importPrompt now c s p = .ok s') :
    Imported c { x with prompts := x.prompts ++ [p] } none s' := by
  unfold ForeignStore.importPrompt at hs
  dsimp only at hs
  set row : ℤ → ForeignPromptRow := fun id =>
    ⟨id, c, p.seq, p.promptId, p.role, p.bodyHash, p.redaction, p.text, p.project, false, now⟩
  -- with the row inserted the capture may still have to be suppressed
  have hwritten : Imported c { x with prompts := x.prompts ++ [p] } (some p.seq)
      { s with prompts := s.prompts.insertOrIgnore row } := by
    constructor
    · exact h.events
    · exact h.redaction
    · exact h.redactions
    · exact fun q hq => .inr ((h.pos q hq).resolve_left (by simp))
    · exact fun q hq => .inr ((h.marks q hq).resolve_left (by simp))
    · exact h.marked
    · intro m hm hc
      rcases IndexedTable.mem_insertOrIgnore hm with hm | rfl
      · obtain ⟨i, hi, hrow⟩ := h.prompt m hm hc
        refine ⟨i, List.mem_append_left _ hi, hrow.seq, hrow.fields, ?_⟩
        rcases hrow.body with hblank | ⟨hred, hbody⟩
        · exact .inl hblank
        · exact .inr ⟨fun hr => absurd (hred hr) (by simp), hbody⟩
      · exact ⟨p, List.mem_append_right _ List.mem_cons_self, rfl, ⟨rfl, rfl, rfl, rfl⟩,
          .inr ⟨fun _ => rfl, rfl, rfl, rfl⟩⟩
    · intro i hi
      rcases List.mem_append.mp hi with hi | hi
      · obtain ⟨m, hm, hcapture⟩ := h.prompts i hi
        exact ⟨m, Table.mem_rows.mpr
          (IndexedTable.get?_insertOrIgnore_old (Table.mem_rows.mp hm)), hcapture⟩
      · rw [List.mem_singleton.mp hi]
        exact IndexedTable.index_insertOrIgnore
    · intro n hn hc
      obtain ⟨i, hi, hrow⟩ := h.note n hn hc
      refine ⟨i, hi, hrow.noteId, hrow.seq, hrow.fields, ?_⟩
      rcases hrow.text with hblank | ⟨hleft, htext⟩
      · exact .inl hblank
      · refine .inr ⟨fun hd => ?_, htext⟩
        obtain ⟨q, hq, -⟩ := hleft hd
        cases hq
    · exact h.notes
  have hred : s.Marked c p.seq → x.redacted p.seq := by
    intro hm
    rcases h.marked p.seq hm with hred | ⟨n, hn, hseq, -⟩
    · exact hred
    · exact absurd hseq (happart n hn)
  have htombstoned : ({ s with prompts := s.prompts.insertOrIgnore row } :
      ForeignStore).captureTombstoned c p.seq = s.captureTombstoned c p.seq := rfl
  rw [htombstoned] at hs
  by_cases htomb : s.captureTombstoned c p.seq = true
  · rw [if_pos htomb] at hs
    have hr := hred (h.captureTombstoned_iff.mp htomb)
    unfold ForeignStore.tombstone at hs
    split_ifs at hs
    cases hs
    refine hwritten.suppress (fun q hq => (Option.mem_some.mp hq).symm) (fun _ => ?_)
      (fun _ _ _ _ => hr) (fun n hn hof => ?_) (.inl hr)
    · exact (h.pos _ hr).resolve_left (by simp)
    · -- its notes are dead already
      have hof' : s.ofCapture c p.seq n = true := hof
      obtain ⟨hc, hsel⟩ := ofCapture_iff_held.mp hof'
      obtain ⟨i, hi, hrow⟩ := h.note n hn hc
      rcases hsel with hseq | ⟨e, he, heq, hname⟩
      · exact .inr ⟨i, hi, hrow.noteId.symm, p.seq, by rw [← hrow.seq, hseq], hr⟩
      · exact .inl ⟨e, (h.events e).mp he, by rwa [heq], hname⟩
  · rw [if_neg htomb] at hs
    cases hs
    have hnot : ¬ x.redacted p.seq := by
      intro hr
      refine htomb (h.captureTombstoned_iff.mpr ?_)
      exact (h.marks _ hr).resolve_left (by simp)
    constructor
    · exact hwritten.events
    · exact hwritten.redaction
    · exact hwritten.redactions
    · exact h.pos
    · exact h.marks
    · exact hwritten.marked
    · intro m hm hc
      obtain ⟨i, hi, hrow⟩ := hwritten.prompt m hm hc
      refine ⟨i, hi, hrow.seq, hrow.fields, ?_⟩
      rcases hrow.body with hblank | ⟨hleft, hbody⟩
      · exact .inl hblank
      · refine .inr ⟨fun hr => ?_, hbody⟩
        have heq := Option.some.inj (hleft hr)
        rw [← heq] at hr
        exact absurd hr hnot
    · exact hwritten.prompts
    · intro n hn hc
      obtain ⟨i, hi, hrow⟩ := h.note n hn hc
      exact ⟨i, hi, hrow.noteId, hrow.seq, hrow.fields, hrow.text⟩
    · exact hwritten.notes

end ForeignStore

/-! ### A note more -/

namespace Received

variable {x E : Received} {n i : ForeignNoteInput} {id q : ℤ}

/-- The note is received after the rest. -/
def note (x : Received) (n : ForeignNoteInput) : Received := { x with notes := x.notes ++ [n] }

theorem mem_note {m : ForeignNoteInput} : m ∈ (x.note n).notes ↔ m ∈ x.notes ∨ m = n := by
  rw [note, List.mem_append, List.mem_singleton]

/-- The newest version stays the newest unless the one that comes is newer. -/
theorem newest.note (h : x.newest i) (hle : i.noteId = n.noteId → n.seq.getD 0 ≤ i.seq.getD 0) :
    (x.note n).newest i := by
  refine ⟨mem_note.mpr (.inl h.1), fun m hm hid => ?_⟩
  rcases mem_note.mp hm with hm | rfl
  · exact h.2 m hm hid
  · exact hle hid.symm

theorem newest.of_note (h : (x.note n).newest i) (hi : i ∈ x.notes) : x.newest i :=
  ⟨hi, fun m hm hid => h.2 m (mem_note.mpr (.inl hm)) hid⟩

/-- Two newest versions of a note are one. -/
theorem Agree.newest_unique (hE : E.Agree) (hsub : x.Sub E) (hsrc : x.Sourced)
    {j : ForeignNoteInput} (hi : x.newest i) (hj : x.newest j) (hid : i.noteId = j.noteId) :
    i = j := by
  obtain ⟨a, ha, -⟩ := hsrc.note i hi.1
  obtain ⟨b, hb, -⟩ := hsrc.note j hj.1
  have hle := hi.2 j hj.1 hid.symm
  have hge := hj.2 i hi.1 hid
  rw [ha, hb, Option.getD_some, Option.getD_some] at hle hge
  refine hE.version i (hsub.notes i hi.1) j (hsub.notes j hj.1) hid ?_
  rw [ha, hb, le_antisymm hge hle]

/-- A note that is dead stays so. -/
theorem Agree.dead_note (hE : E.Agree) (hsub : x.Sub E) (hsrc : x.Sourced) (hn : n ∈ E.notes)
    (hpos : ∀ q, x.redacted q → 0 < q) (h : x.dead id) : (x.note n).dead id := by
  rcases h with hname | ⟨i, hi, hid, q, hq, hred⟩
  · exact .inl hname
  by_cases hle : i.noteId = n.noteId → n.seq.getD 0 ≤ i.seq.getD 0
  · exact .inr ⟨i, hi.note hle, hid, q, hq, hred⟩
  · -- an older version is redacted: its event names the note
    rw [Classical.not_imp, not_le] at hle
    obtain ⟨e, he, heq, hname⟩ := hE.older i (hsub.notes i hi.1) n hn hle.1 hle.2 q hq
      (hsub.redacted hred)
    obtain ⟨q', hq', hev⟩ := hsrc.note i hi.1
    obtain rfl : q = q' := Option.some.inj (hq.symm.trans hq')
    obtain ⟨e', he', heq'⟩ := hev (hpos q hred)
    have hsame : e = e' := hE.event e he e' (hsub.events e' he') (heq.trans heq'.symm)
    subst hsame
    rw [hid] at hname
    exact .inl ⟨e, he', by rwa [heq], hname⟩

/-- A note that dies by its newest version. -/
theorem dead_of_note (h : (x.note n).dead id) :
    x.dead id ∨ id = n.noteId ∧ (x.note n).newest n ∧ ∃ q, n.seq = some q ∧ x.redacted q := by
  rcases h with hname | ⟨i, hi, hid, q, hq, hred⟩
  · exact .inl (.inl hname)
  rcases mem_note.mp hi.1 with hmem | rfl
  · exact .inl (.inr ⟨i, hi.of_note hmem, hid, q, hq, hred⟩)
  · exact .inr ⟨hid.symm, hi, q, hq, hred⟩

end Received

namespace ForeignStore

variable {s s' : ForeignStore} {c : String} {seq now : ℤ} {x E : Received} {n : ForeignNoteInput}

/-- The row of a newest version holds its seq. -/
theorem Imported.row_of_newest (h : Imported c x none s) (hE : E.Agree) (hsub : x.Sub E)
    (hsrc : x.Sourced) {i : ForeignNoteInput} (hi : x.newest i) :
    ∃ m, s.notes.get? (c, i.noteId) = some m ∧ m.seq = i.seq := by
  obtain ⟨m, hm, hkey⟩ := h.notes i hi.1
  obtain ⟨hc, hid⟩ := Prod.ext_iff.mp hkey
  dsimp only at hc hid
  obtain ⟨j, hj, hrow⟩ := h.note m hm hc
  have hsame : i = j := hE.newest_unique hsub hsrc hi hj (hid.symm.trans hrow.noteId)
  subst hsame
  exact ⟨m, hkey ▸ Table.mem_rows.mp hm, hrow.seq⟩

/-- **What blocks a note**: a redaction of its own version, or that the note
is dead. -/
theorem Imported.blocked_iff (h : Imported c x none s) (hE : E.Agree) (hsub : x.Sub E)
    (hsrc : x.Sourced) (hn : n ∈ E.notes) (hseq : n.seq = some seq) :
    (s.noteTombstoned c n.noteId seq || ((s.notes.get? (c, n.noteId)).bind ForeignNoteRow.seq).any
      (s.captureTombstoned c)) = true ↔ x.redacted seq ∨ x.dead n.noteId := by
  have hmarks : ∀ q, x.redacted q → s.captureTombstoned c q = true := fun q hq =>
    h.captureTombstoned_iff.mpr ((h.marks q hq).resolve_left (by simp))
  have hmarked : ∀ q, s.captureTombstoned c q = true →
      x.redacted q ∨ ∃ m ∈ x.notes, m.seq = some q ∧ x.dead m.noteId := fun q hq =>
    h.marked q (h.captureTombstoned_iff.mp hq)
  unfold noteTombstoned
  rw [Bool.or_eq_true, Bool.or_eq_true, List.any_eq_true]
  constructor
  · rintro ((hversion | ⟨r, hr, hall⟩) | hold)
    · rcases hmarked seq hversion with hred | ⟨m, hm, hmseq, hdead⟩
      · exact .inl hred
      · rw [hE.one m (hsub.notes m hm) n hn (hmseq.trans hseq.symm)] at hdead
        exact .inr hdead
    · -- an event that names the note
      simp only [Bool.and_eq_true, decide_eq_true_eq] at hall
      obtain ⟨⟨⟨⟨hc, hkind⟩, hrefKind⟩, hrefId⟩, htomb⟩ := hall
      have hmem : r.event ∈ x.events := by
        refine (h.events _).mp (mem_held.mpr ?_)
        rw [Table.mem_rows] at hr
        obtain ⟨c', e⟩ := r
        dsimp only at hc
        subst hc
        exact hr
      have hname : r.event.namesNote n.noteId = true := by
        have hcast := (hE.ids n hn r.event (hsub.events _ hmem) hkind hrefKind).mpr hrefId
        simp [LedgerEventRow.namesNote, hkind, hrefKind, hcast]
      rcases hmarked _ htomb with hred | ⟨m, hm, hmseq, hdead⟩
      · exact .inr (.inl ⟨r.event, hmem, hred, hname⟩)
      · rw [← hE.named m (hsub.notes m hm) n hn r.event (hsub.events _ hmem) hmseq hname] at hdead
        exact .inr hdead
    · -- the version that is here
      obtain ⟨q, hq, htomb⟩ := (Option.any_eq_true _ _).mp hold
      obtain ⟨m, hm, hmseq⟩ := Option.bind_eq_some_iff.mp hq
      obtain ⟨hrow, hkey⟩ := Table.get?_eq_some.mp hm
      obtain ⟨hc, hid⟩ := Prod.ext_iff.mp hkey
      dsimp only at hc hid
      obtain ⟨i, hi, hirow⟩ := h.note m hrow hc
      have hiseq : i.seq = some q := hirow.seq.symm.trans hmseq
      have hiid : i.noteId = n.noteId := hirow.noteId.symm.trans hid
      rcases hmarked q htomb with hred | ⟨m', hm', hmseq', hdead⟩
      · exact .inr (.inr ⟨i, hi, hiid, q, hiseq, hred⟩)
      · rw [hE.one m' (hsub.notes m' hm') i (hsub.notes i hi.1) (hmseq'.trans hiseq.symm), hiid]
          at hdead
        exact .inr hdead
  · rintro (hred | ⟨e, he, hred, hname⟩ | ⟨i, hi, hiid, q, hiseq, hred⟩)
    · exact .inl (.inl (hmarks seq hred))
    · refine .inl (.inr ⟨⟨c, e⟩, Table.mem_rows.mpr (mem_held.mp ((h.events e).mpr he)), ?_⟩)
      simp only [LedgerEventRow.namesNote, Bool.and_eq_true, decide_eq_true_eq] at hname
      obtain ⟨⟨hkind, hrefKind⟩, hcast⟩ := hname
      have hrefId := (hE.ids n hn e (hsub.events e he) hkind hrefKind).mp hcast
      simp [hkind, hrefKind, hrefId, hmarks e.seq hred]
    · obtain ⟨m, hm, hmseq⟩ := h.row_of_newest hE hsub hsrc hi
      rw [hiid] at hm
      refine .inr ?_
      rw [hm, Option.bind_some, hmseq, hiseq]
      exact hmarks q hred

theorem held_writeNote (row : ForeignNoteRow) (c : String) : (s.writeNote row).held c = s.held c := by
  rw [held, held, (s.captureTables_writeNote row).1]

/-- A note that is written, or left for the newer version that is here. -/
theorem Imported.writeNote (h : Imported c x none s) (hE : E.Agree) (hsub : x.Sub E)
    (hsrc : x.Sourced) (hn : n ∈ E.notes) (hseq : n.seq = some seq) {text : String}
    (hblocked : x.redacted seq ∨ x.dead n.noteId → text = "")
    (hfree : ¬ (x.redacted seq ∨ x.dead n.noteId) → text = n.text) :
    Imported c (x.note n) none (s.writeNote
      ⟨0, c, n.noteId, some seq, n.targetKind, n.targetId, text, n.createdAt⟩) := by
  set row : ForeignNoteRow := ⟨0, c, n.noteId, some seq, n.targetKind, n.targetId, text, n.createdAt⟩
  obtain ⟨hevents, hprompts, hredactions, -, hmarkers⟩ := s.captureTables_writeNote row
  have hmarked : ∀ c q, (s.writeNote row).Marked c q ↔ s.Marked c q := by
    intro c q
    rw [Marked, Marked, hmarkers]
  have hpos : ∀ q, x.redacted q → 0 < q := fun q hq => (h.pos q hq).resolve_left (by simp)
  have hmono : ∀ id, x.dead id → (x.note n).dead id := fun id hd =>
    hE.dead_note hsub hsrc hn hpos hd
  constructor
  · intro e
    rw [held_writeNote]
    exact h.events e
  · rw [hredactions]
    exact h.redaction
  · rw [hredactions]
    exact h.redactions
  · exact h.pos
  · intro q hq
    rw [hmarked]
    exact h.marks q hq
  · intro q hm
    rw [hmarked] at hm
    rcases h.marked q hm with hred | ⟨m, hm, hmseq, hdead⟩
    · exact .inl hred
    · exact .inr ⟨m, Received.mem_note.mpr (.inl hm), hmseq, hmono _ hdead⟩
  · intro p hp hc
    rw [hprompts] at hp
    obtain ⟨i, hi, hrow⟩ := h.prompt p hp hc
    exact ⟨i, hi, hrow.seq, hrow.fields, hrow.body⟩
  · rw [hprompts]
    exact h.prompts
  · intro m hm hc
    rcases mem_writeNote hm with ⟨⟨id, rfl⟩, hnewer⟩ | ⟨hm, hleft⟩
    · -- the version that is written is the newest now
      have hnew : (x.note n).newest n := by
        refine ⟨Received.mem_note.mpr (.inr rfl), fun m hm hid => ?_⟩
        rcases Received.mem_note.mp hm with hm | rfl
        · obtain ⟨r, hr, hkey⟩ := h.notes m hm
          obtain ⟨hrc, hrid⟩ := Prod.ext_iff.mp hkey
          dsimp only at hrc hrid
          obtain ⟨j, hj, hrow⟩ := h.note r hr hrc
          have hle := hj.2 m hm (hrid.symm.trans hrow.noteId)
          have hlt := hnewer r hr (Prod.ext hrc (hrid.trans hid))
          rw [hrow.seq] at hlt
          rw [hseq]
          exact hle.trans hlt.le
        · exact le_rfl
      refine ⟨n, hnew, rfl, hseq.symm, ⟨rfl, rfl, rfl⟩, ?_⟩
      by_cases hb : x.redacted seq ∨ x.dead n.noteId
      · refine .inl ⟨?_, hblocked hb⟩
        rcases hb with hred | hdead
        · exact .inr ⟨n, hnew, rfl, seq, hseq, hred⟩
        · exact hmono _ hdead
      · refine .inr ⟨fun hd => absurd ?_ hb, hfree hb⟩
        rcases Received.dead_of_note hd with hdead | ⟨-, -, q, hq, hred⟩
        · exact .inr hdead
        · rw [hseq, Option.some.injEq] at hq
          subst hq
          exact .inl hred
    · -- a row that stays
      obtain ⟨i, hi, hrow⟩ := h.note m hm hc
      have hnew : (x.note n).newest i := by
        refine hi.note fun hid => ?_
        have hle := hleft (Prod.ext hc (hrow.noteId.trans hid))
        rw [hrow.seq] at hle
        rwa [hseq]
      refine ⟨i, hnew, hrow.noteId, hrow.seq, hrow.fields, ?_⟩
      rcases hrow.text with ⟨hdead, htext⟩ | ⟨hlive, htext⟩
      · exact .inl ⟨hmono _ hdead, htext⟩
      · have hnot : ¬ x.dead m.noteId := fun hd => by
          obtain ⟨q, hq, -⟩ := hlive hd
          cases hq
        refine .inr ⟨fun hd => absurd hd ?_, htext⟩
        intro hd
        rcases Received.dead_of_note hd with hdead | ⟨hid, hnn, q, hq, hred⟩
        · exact hnot hdead
        · -- the version here and the one that comes are the same
          have hle := hnn.2 i hnew.1 (hrow.noteId.symm.trans hid)
          have hge := hnew.2 n hnn.1 (hid.symm.trans hrow.noteId)
          obtain ⟨a, ha, -⟩ := hsrc.note i hi.1
          rw [hq, ha, Option.getD_some, Option.getD_some] at hle hge
          have haq : a = q := le_antisymm hle hge
          rw [haq] at ha
          exact hnot (.inr ⟨i, hi, hrow.noteId.symm, q, ha, hred⟩)
  · intro i hi
    rcases Received.mem_note.mp hi with hi | rfl
    · obtain ⟨m, hm, hkey⟩ := h.notes i hi
      obtain ⟨r, hr, hrkey⟩ : ∃ r ∈ (s.writeNote row).notes.rows, r.key = m.key :=
        keys_writeNote (.inl hm)
      exact ⟨r, hr, hrkey.trans hkey⟩
    · have hnew : ∃ r ∈ (s.writeNote row).notes.rows, r.key = row.key := keys_writeNote (.inr rfl)
      exact hnew

/-- **A note**: written without its text if the note is dead, and left for a
newer version. -/
theorem Imported.importNote (h : Imported c x none s) (hE : E.Agree) (hsub : x.Sub E)
    (hsrc : x.Sourced) (hn : n ∈ E.notes) (hs : importNote c s n = .ok s') :
    Imported c (x.note n) none s' := by
  unfold ForeignStore.importNote at hs
  cases hseq : n.seq with
  | none => rw [hseq] at hs; cases hs
  | some seq =>
    simp only [hseq] at hs
    have hiff := h.blocked_iff hE hsub hsrc hn hseq
    by_cases hb : x.redacted seq ∨ x.dead n.noteId
    · simp only [hiff.mpr hb, if_true] at hs
      have hwritten := h.writeNote hE hsub hsrc hn hseq (fun _ => rfl) (absurd hb)
      have hpos : ∀ q, x.redacted q → 0 < q := fun q hq => (h.pos q hq).resolve_left (by simp)
      have hmono : ∀ id, x.dead id → (x.note n).dead id := fun id hd =>
        hE.dead_note hsub hsrc hn hpos hd
      have hmem : ∀ m, (x.note n).newest m → m ∈ E.notes := by
        intro m hm
        rcases Received.mem_note.mp hm.1 with hm | rfl
        · exact hsub.notes m hm
        · exact hn
      unfold ForeignStore.tombstone at hs
      split_ifs at hs
      cases hs
      refine hwritten.suppress (fun q hq => by cases hq) (hpos seq) (fun p hp hc hpseq => ?_)
        (fun m hm hof => ?_) ?_
      · -- the seq is that of a note
        obtain ⟨i, hi, hrow⟩ := hwritten.prompt p hp hc
        rw [hrow.seq] at hpseq
        exact absurd (hseq.trans (congrArg some hpseq.symm))
          (hE.apart i (hsub.prompts i hi) n hn)
      · obtain ⟨hc, hsel⟩ := ofCapture_iff_held.mp hof
        obtain ⟨i, hi, hrow⟩ := hwritten.note m hm hc
        rw [hrow.noteId]
        rcases hsel with hmseq | ⟨e, he, heq, hname⟩
        · have hiseq : i.seq = some seq := hrow.seq.symm.trans hmseq
          have hid := hE.one i (hmem i hi) n hn (hiseq.trans hseq.symm)
          rcases hb with hred | hdead
          · exact .inr ⟨i, hi, rfl, seq, hiseq, hred⟩
          · exact hid ▸ hmono _ hdead
        · have hev : e ∈ x.events := (hwritten.events e).mp he
          rw [hrow.noteId] at hname
          have hid := hE.named n hn i (hmem i hi) e (hsub.events e hev) (by rw [hseq, heq]) hname
          rcases hb with hred | hdead
          · exact .inl ⟨e, hev, by rw [heq]; exact hred, hname⟩
          · exact hid ▸ hmono _ hdead
      · rcases hb with hred | hdead
        · exact .inl hred
        · exact .inr ⟨n, Received.mem_note.mpr (.inr rfl), hseq, hmono _ hdead⟩
    · have hnot := hb
      rw [← hiff] at hnot
      rw [Bool.not_eq_true] at hnot
      simp only [hnot, Bool.false_eq_true, if_false] at hs
      cases hs
      exact h.writeNote hE hsub hsrc hn hseq (fun hd => absurd hd hb) (fun _ => rfl)

end ForeignStore

/-! ### A redaction more -/

namespace Received

variable {x E : Received} {r : ForeignRedactionInput} {id q : ℤ}

/-- The redaction is received after the rest. -/
def redaction (x : Received) (r : ForeignRedactionInput) : Received :=
  { x with redactions := x.redactions ++ [r] }

theorem redacted_redaction : (x.redaction r).redacted q ↔ x.redacted q ∨ r.targetSeq = q := by
  constructor
  · rintro ⟨i, hi, hq⟩
    rcases List.mem_append.mp hi with hi | hi
    · exact .inl ⟨i, hi, hq⟩
    · rw [List.mem_singleton.mp hi] at hq
      exact .inr hq
  · rintro (⟨i, hi, hq⟩ | hq)
    · exact ⟨i, List.mem_append_left _ hi, hq⟩
    · exact ⟨r, List.mem_append_right _ List.mem_cons_self, hq⟩

theorem dead_redaction : (x.redaction r).dead id ↔ x.dead id ∨
    (∃ e ∈ x.events, e.seq = r.targetSeq ∧ e.namesNote id = true) ∨
      ∃ n, x.newest n ∧ n.noteId = id ∧ n.seq = some r.targetSeq := by
  constructor
  · rintro (⟨e, he, hred, hname⟩ | ⟨n, hn, hid, q, hq, hred⟩)
    · rcases redacted_redaction.mp hred with hred | hq
      · exact .inl (.inl ⟨e, he, hred, hname⟩)
      · exact .inr (.inl ⟨e, he, hq.symm, hname⟩)
    · rcases redacted_redaction.mp hred with hred | rfl
      · exact .inl (.inr ⟨n, hn, hid, q, hq, hred⟩)
      · exact .inr (.inr ⟨n, hn, hid, hq⟩)
  · rintro ((⟨e, he, hred, hname⟩ | ⟨n, hn, hid, q, hq, hred⟩) | ⟨e, he, hq, hname⟩ |
      ⟨n, hn, hid, hq⟩)
    · exact .inl ⟨e, he, redacted_redaction.mpr (.inl hred), hname⟩
    · exact .inr ⟨n, hn, hid, q, hq, redacted_redaction.mpr (.inl hred)⟩
    · exact .inl ⟨e, he, redacted_redaction.mpr (.inr hq.symm), hname⟩
    · exact .inr ⟨n, hn, hid, _, hq, redacted_redaction.mpr (.inr rfl)⟩

end Received

namespace ForeignStore

variable {s s' : ForeignStore} {c : String} {now : ℤ} {x E : Received}

/-- **A redaction**: kept, and what it names blanked. -/
theorem Imported.importRedaction {r : ForeignRedactionInput} (h : Imported c x none s)
    (hE : E.Agree) (hsub : x.Sub E) (hsrc : x.Sourced) (hr : r ∈ E.redactions)
    (hs : importRedaction now c s r = .ok s') : Imported c (x.redaction r) none s' := by
  unfold ForeignStore.importRedaction at hs
  by_cases hown : r.targetChain ≠ c
  · rw [if_pos hown] at hs
    cases hs
  rw [if_neg hown] at hs
  rw [not_not] at hown
  dsimp only at hs
  set row : ForeignRedactionRow := ⟨c, r.eventSeq, r.targetChain, r.targetSeq, now⟩
  have hmono : ∀ q, x.redacted q → (x.redaction r).redacted q := fun q hq =>
    Received.redacted_redaction.mpr (.inl hq)
  have hwritten : Imported c (x.redaction r) (some r.targetSeq)
      { s with redactions := s.redactions.insertOrIgnore row } := by
    constructor
    · exact h.events
    · intro i hi hc
      rcases Table.mem_insertOrIgnore hi with hi | rfl
      · exact List.mem_append_left _ (h.redaction i hi hc)
      · exact List.mem_append_right _ List.mem_cons_self
    · intro i hi
      have hrow : ∃ k, (s.redactions.insertOrIgnore row).get? (c, i.eventSeq) = some k ∧
          i = ⟨k.eventSeq, k.targetChain, k.targetSeq⟩ := by
        rw [Table.get?_insertOrIgnore]
        rcases List.mem_append.mp hi with hi | hi
        · obtain ⟨k, hk, hc, hin⟩ := h.redactions i hi
          have hkey : k.key = (c, i.eventSeq) := Prod.ext hc (by rw [hin])
          exact ⟨k, by rw [← hkey, Table.mem_rows.mp hk, Option.some_or], hin⟩
        · rw [List.mem_singleton.mp hi]
          cases hget : s.redactions.get? (c, r.eventSeq) with
          | none => exact ⟨row, by rw [Option.none_or]; exact if_pos rfl, rfl⟩
          | some k =>
            -- the same redaction is here already
            obtain ⟨hk, hkey⟩ := Table.get?_eq_some.mp hget
            obtain ⟨hc, hev⟩ := Prod.ext_iff.mp hkey
            have hmem := hsub.redactions _ (h.redaction k hk hc)
            exact ⟨k, Option.some_or, hE.redaction r hr _ hmem hev.symm⟩
      obtain ⟨k, hk, hin⟩ := hrow
      obtain ⟨hmem, hkey⟩ := Table.get?_eq_some.mp hk
      exact ⟨k, hmem, (Prod.ext_iff.mp hkey).1, hin⟩
    · intro q hq
      rcases Received.redacted_redaction.mp hq with hq | rfl
      · exact .inr ((h.pos q hq).resolve_left (by simp))
      · exact .inl rfl
    · intro q hq
      rcases Received.redacted_redaction.mp hq with hq | rfl
      · exact .inr ((h.marks q hq).resolve_left (by simp))
      · exact .inl rfl
    · intro q hm
      rcases h.marked q hm with hred | ⟨n, hn, hseq, hdead⟩
      · exact .inl (hmono q hred)
      · exact .inr ⟨n, hn, hseq, Received.dead_redaction.mpr (.inl hdead)⟩
    · intro p hp hc
      obtain ⟨i, hi, hrow⟩ := h.prompt p hp hc
      refine ⟨i, hi, hrow.seq, hrow.fields, ?_⟩
      rcases hrow.body with ⟨hred, hblank⟩ | ⟨hlive, hbody⟩
      · exact .inl ⟨hmono _ hred, hblank⟩
      · refine .inr ⟨fun hred => ?_, hbody⟩
        rcases Received.redacted_redaction.mp hred with hred | hq
        · exact absurd (hlive hred) (by simp)
        · rw [hq]
    · exact h.prompts
    · intro n hn hc
      obtain ⟨i, hi, hrow⟩ := h.note n hn hc
      refine ⟨i, hi, hrow.noteId, hrow.seq, hrow.fields, ?_⟩
      rcases hrow.text with ⟨hdead, htext⟩ | ⟨hlive, htext⟩
      · exact .inl ⟨Received.dead_redaction.mpr (.inl hdead), htext⟩
      · refine .inr ⟨fun hd => ⟨r.targetSeq, rfl, ?_⟩, htext⟩
        have hof : s.ofCapture c r.targetSeq n = true := by
          refine ofCapture_iff_held.mpr ⟨hc, ?_⟩
          rcases Received.dead_redaction.mp hd with hd | ⟨e, he, hq, hname⟩ | ⟨j, hj, hid, hq⟩
          · obtain ⟨q, hq, -⟩ := hlive hd
            cases hq
          · exact .inr ⟨e, (h.events e).mpr he, hq, hname⟩
          · have hsame := hE.newest_unique hsub hsrc hj hi (hid.trans hrow.noteId)
            rw [hsame] at hq
            exact .inl (hrow.seq.trans hq)
        exact hof
    · exact h.notes
  unfold ForeignStore.tombstone at hs
  split_ifs at hs with hid
  cases hs
  have hpos : 0 < r.targetSeq := by
    rw [Bool.not_eq_true', Bool.not_eq_false] at hid
    unfold isCaptureId at hid
    rw [Bool.and_eq_true, decide_eq_true_eq] at hid
    exact hid.2
  have hnow : (x.redaction r).redacted r.targetSeq := Received.redacted_redaction.mpr (.inr rfl)
  rw [hown]
  refine hwritten.suppress (fun q hq => (Option.mem_some.mp hq).symm) (fun _ => hpos)
    (fun _ _ _ _ => hnow) (fun n hn hof => ?_) (.inl hnow)
  obtain ⟨hc, hsel⟩ := ofCapture_iff_held.mp hof
  obtain ⟨i, hi, hrow⟩ := hwritten.note n hn hc
  rcases hsel with hseq | ⟨e, he, heq, hname⟩
  · exact .inr ⟨i, hi, hrow.noteId.symm, _, hrow.seq.symm.trans hseq, hnow⟩
  · exact .inl ⟨e, (hwritten.events e).mp he, by rw [heq]; exact hnow, hname⟩

end ForeignStore

end PolisMemory
