/-
# Tombstones

A capture of a foreign chain is tombstoned by a redaction that the chain
carries, or by a suppression made here. Either leaves a marker, and no purge
takes it away: as long as it is there the prompt of the capture is blank, no
vector is its, and its notes hold no text (`ForeignStore.Guarded`).

The one way around it is an event: the note that it names may be here already,
in a version that came before the event did, and the import of the event alone
does not look for it. An import that brings no such event keeps every tombstone
(`tombstones_permanent`).

Key definitions: `ForeignStore.Marked`, `ForeignStore.Guarded`,
`ForeignStore.Blank`, `Envelope.Covers`, `CaptureStep`.
Key theorems: `Guarded.suppress`, `Guarded.importForeignSegment`,
`Guarded.importEnvelope`, `tombstones_permanent`.
-/
import PolisMemory.Segments

namespace PolisMemory

open Tables
open Store (bind_eq_ok)

/-- The event of a standalone note names the note of the id. -/
def LedgerEventRow.namesNote (e : LedgerEventRow) (noteId : ℤ) : Bool :=
  e.kind = "note" && e.refKind = some "none" && e.refId.map castInteger = some noteId

namespace ForeignStore

/-- The capture has its suppression marker. -/
def Marked (s : ForeignStore) (c : String) (q : ℤ) : Prop := (c, q) ∈ s.markers.rows

/-- What the tombstones of a store keep, but for one capture, and while some
notes of a chain are still to be written: a redaction has its marker; a marked
prompt is blank, and so is a marked note unless a newer version of it is to
come; a vector is that of a prompt that is not blank. -/
structure Guarded (chain : String) (rest : List ForeignNoteInput) (but : Option (String × ℤ))
    (s : ForeignStore) : Prop where
  marked : ∀ r ∈ s.redactions.rows, but = some (r.targetChain, r.targetSeq) ∨
    s.Marked r.targetChain r.targetSeq
  prompt : ∀ p ∈ s.prompts.rows, s.Marked p.chainId p.seq → but = some p.capture ∨
    p.tombstoned = true
  text : ∀ p ∈ s.prompts.rows, p.tombstoned = true → p.text = some tombstoneText
  note : ∀ n ∈ s.notes.rows, ∀ q, s.Marked n.chainId q → s.ofCapture n.chainId q n = true →
    n.text = "" ∨ n.chainId = chain ∧
      ∃ i ∈ rest, i.noteId = n.noteId ∧ n.seq.getD 0 < i.seq.getD 0
  vector : ∀ e ∈ s.embeddings.rows, e.targetKind = "foreign_prompt" ∧
    ∃ p, s.prompts.get? e.targetId = some p ∧ p.tombstoned = false

section

variable {s s' : ForeignStore} {chain c : String} {q : ℤ} {rest : List ForeignNoteInput}
  {but : Option (String × ℤ)} {now : ℤ}

theorem mem_namedNotes {id : ℤ} : id ∈ s.namedNotes c q ↔
    ∃ r ∈ s.events.rows, r.chainId = c ∧ r.event.seq = q ∧ r.event.namesNote id = true := by
  simp only [namedNotes, Table.select, List.mem_filterMap, List.mem_filter,
    LedgerEventRow.namesNote, Bool.and_eq_true, decide_eq_true_eq]
  constructor
  · rintro ⟨r, ⟨hr, ⟨⟨hc, hq⟩, hkind⟩, href⟩, hid⟩
    exact ⟨r, hr, hc, hq, ⟨hkind, href⟩, hid⟩
  · rintro ⟨r, hr, hc, hq, ⟨hkind, href⟩, hid⟩
    exact ⟨r, ⟨hr, ⟨⟨hc, hq⟩, hkind⟩, href⟩, hid⟩

theorem ofCapture_iff {n : ForeignNoteRow} : s.ofCapture c q n = true ↔
    n.chainId = c ∧ (n.seq = some q ∨
      ∃ r ∈ s.events.rows, r.chainId = c ∧ r.event.seq = q ∧ r.event.namesNote n.noteId = true) := by
  simp only [ofCapture, Bool.and_eq_true, Bool.or_eq_true, decide_eq_true_eq, mem_namedNotes]

theorem isSome_markers : (s.markers.get? (c, q)).isSome = true ↔ s.Marked c q := by
  unfold Marked
  rw [Table.mem_rows]
  constructor
  · intro hsome
    obtain ⟨m, hm⟩ := Option.isSome_iff_exists.mp hsome
    have hkey : m = (c, q) := Table.key_of_get? hm
    rwa [hkey] at hm
  · intro hm
    rw [hm]
    rfl

/-- A capture is tombstoned just where it is marked. -/
theorem Guarded.captureTombstoned_iff (h : Guarded chain rest none s) :
    s.captureTombstoned c q = true ↔ s.Marked c q := by
  have hget : (s.markers.get? (c, q)).isSome = true ↔ s.Marked c q := isSome_markers
  unfold captureTombstoned
  rw [Bool.or_eq_true, hget, List.any_eq_true]
  constructor
  · rintro (⟨r, hr, hall⟩ | hmarked)
    · simp only [Bool.and_eq_true, decide_eq_true_eq] at hall
      obtain ⟨⟨hown, hc⟩, hq⟩ := hall
      rcases h.marked r hr with hbut | hmarked
      · cases hbut
      · rwa [hc, hq] at hmarked
    · exact hmarked
  · exact .inr

/-! ### A suppression -/

theorem marked_suppress {c' : String} {q' : ℤ} :
    (s.suppress c q).Marked c' q' ↔ (c', q') = (c, q) ∨ s.Marked c' q' := by
  unfold Marked suppress
  dsimp only
  rw [Table.mem_rows, Table.get?_upsert, Table.mem_rows]
  by_cases hkey : (c, q) = (c', q')
  · rw [if_pos hkey, hkey]
    simp
  · rw [if_neg hkey]
    constructor
    · exact .inr
    · rintro (heq | hget)
      · exact absurd heq.symm hkey
      · exact hget

theorem mem_prompts_suppress {p : ForeignPromptRow} (hp : p ∈ (s.suppress c q).prompts.rows) :
    ∃ x ∈ s.prompts.rows, (if x.chainId = c && x.seq = q && !x.tombstoned then
      { x with text := some tombstoneText, redaction := "stub", tombstoned := true } else x) = p :=
  List.mem_map.mp hp

theorem mem_notes_suppress {n : ForeignNoteRow} (hn : n ∈ (s.suppress c q).notes.rows) :
    ∃ x ∈ s.notes.rows,
      (if s.ofCapture c q x && x.text ≠ "" then { x with text := "" } else x) = n :=
  List.mem_map.mp hn

/-- **A suppression blanks the capture that was left out.** -/
theorem Guarded.suppress (h : Guarded chain rest but s)
    (hbut : ∀ x ∈ but, x = (c, q)) : Guarded chain rest none (s.suppress c q) where
  marked r hr := by
    refine .inr (marked_suppress.mpr ?_)
    rcases h.marked r hr with hx | hmarked
    · exact .inl (hbut _ hx)
    · exact .inr hmarked
  prompt p hp hmarked := by
    refine .inr ?_
    obtain ⟨x, hx, rfl⟩ := mem_prompts_suppress hp
    by_cases hhit : (x.chainId = c && x.seq = q && !x.tombstoned) = true
    · rw [if_pos hhit]
    · rw [if_neg hhit] at hmarked ⊢
      have hcapture : x.chainId = c ∧ x.seq = q → x.tombstoned = true := by
        rintro ⟨rfl, rfl⟩
        simpa using hhit
      rcases marked_suppress.mp hmarked with heq | hold
      · exact hcapture (Prod.ext_iff.mp heq)
      · rcases h.prompt x hx hold with hx' | htomb
        · exact hcapture (Prod.ext_iff.mp (hbut _ hx'))
        · exact htomb
  text p hp htomb := by
    obtain ⟨x, hx, rfl⟩ := mem_prompts_suppress hp
    by_cases hhit : (x.chainId = c && x.seq = q && !x.tombstoned) = true
    · rw [if_pos hhit]
    · rw [if_neg hhit] at htomb ⊢
      exact h.text x hx htomb
  note n hn q' hmarked hof := by
    obtain ⟨x, hx, rfl⟩ := mem_notes_suppress hn
    by_cases hhit : (s.ofCapture c q x && x.text ≠ "") = true
    · rw [if_pos hhit]
      exact .inl rfl
    · rw [if_neg hhit] at hmarked hof ⊢
      rcases marked_suppress.mp hmarked with heq | hold
      · obtain ⟨hc, hq⟩ := Prod.ext_iff.mp heq
        dsimp only at hc hq
        have hof' : s.ofCapture c q x = true := by
          rw [hc, hq] at hof
          exact hof
        rw [hof'] at hhit
        exact .inl (by simpa using hhit)
      · exact h.note x hx q' hold hof
  vector e he := by
    obtain ⟨he, hkept⟩ := Table.mem_delete.mp he
    obtain ⟨hkind, p, hget, htomb⟩ := h.vector e he
    refine ⟨hkind, p, ?_, htomb⟩
    have hmiss : ¬ (p.chainId = c ∧ p.seq = q) := by
      rintro ⟨hc, hq⟩
      have hmem : e.targetId ∈ (s.prompts.select fun p => p.chainId = c && p.seq = q).map
          ForeignPromptRow.id := Table.mem_map_select.mpr ⟨p, hget, by simp [hc, hq]⟩
      simp [hkind, hmem] at hkept
    change ((s.prompts.update _ _).get? e.targetId) = some p
    rw [IndexedTable.toAutoTable_update, AutoTable.toTable_update, Table.get?_update, hget,
      Option.map_some, if_neg]
    simp only [Bool.and_eq_true, decide_eq_true_eq]
    exact fun hall => hmiss hall.1

theorem Guarded.tombstone (h : Guarded chain rest but s) (hbut : ∀ x ∈ but, x = (c, q))
    (hs : s.tombstone c q = .ok s') : Guarded chain rest none s' ∧ s'.Marked c q := by
  unfold ForeignStore.tombstone at hs
  split_ifs at hs
  cases hs
  exact ⟨h.suppress hbut, marked_suppress.mpr (.inl rfl)⟩

/-- The tables that tombstones are about. -/
def captureTables (s : ForeignStore) :=
  (s.events, s.prompts, s.notes, s.redactions, s.embeddings, s.markers)

theorem Guarded.of_tables (h : Guarded chain rest but s) (hs : s'.captureTables = s.captureTables) :
    Guarded chain rest but s' := by
  simp only [captureTables, Prod.mk.injEq] at hs
  obtain ⟨hevents, hprompts, hnotes, hredactions, hembeddings, hmarkers⟩ := hs
  have hmarked : ∀ c q, s'.Marked c q ↔ s.Marked c q := by
    intro c q
    rw [Marked, Marked, hmarkers]
  have hof : ∀ c q n, s'.ofCapture c q n = s.ofCapture c q n := by
    intro c q n
    rw [ofCapture, ofCapture, namedNotes, namedNotes, hevents]
  constructor
  · simpa only [hredactions, hmarked] using h.marked
  · simpa only [hprompts, hmarked] using h.prompt
  · simpa only [hprompts] using h.text
  · simpa only [hnotes, hmarked, hof] using h.note
  · simpa only [hembeddings, hprompts] using h.vector

/-! ### The import of a segment -/

theorem mem_importEvents {events : List LedgerEventRow} {r : ForeignEventRow}
    (hr : r ∈ (events.foldl (importEvent c) s).events.rows) :
    r ∈ s.events.rows ∨ r.chainId = c ∧ r.event ∈ events := by
  induction events generalizing s with
  | nil => exact .inl hr
  | cons e events ih =>
    rcases ih hr with hold | ⟨hc, he⟩
    · rcases Table.mem_insertOrIgnore hold with hold | rfl
      · exact .inl hold
      · exact .inr ⟨rfl, List.mem_cons_self⟩
    · exact .inr ⟨hc, List.mem_cons_of_mem e he⟩

/-- The events come first: a note that a marked event names has to come
again. -/
theorem Guarded.importEvents {events : List LedgerEventRow} {notes : List ForeignNoteInput}
    (h : Guarded chain [] none s)
    (hnewer : ∀ e ∈ events, s.Marked c e.seq → ∀ n ∈ s.notes.rows, n.chainId = c →
      e.namesNote n.noteId = true →
        n.text = "" ∨ ∃ i ∈ notes, i.noteId = n.noteId ∧ n.seq.getD 0 < i.seq.getD 0) :
    Guarded c notes none (events.foldl (importEvent c) s) := by
  have htables : (events.foldl (importEvent c) s).captureTables.2 = s.captureTables.2 :=
    foldl_keeps (f := fun t : ForeignStore => t.captureTables.2) fun _ _ => rfl
  simp only [captureTables, Prod.mk.injEq] at htables
  obtain ⟨hprompts, hnotes, hredactions, hembeddings, hmarkers⟩ := htables
  have hmarked : ∀ c' q', (events.foldl (importEvent c) s).Marked c' q' ↔ s.Marked c' q' := by
    intro c' q'
    rw [Marked, Marked, hmarkers]
  constructor
  · simpa only [hredactions, hmarked] using h.marked
  · simpa only [hprompts, hmarked] using h.prompt
  · simpa only [hprompts] using h.text
  · intro n hn q' hm hof
    rw [hnotes] at hn
    rw [hmarked] at hm
    have hold : s.ofCapture n.chainId q' n = true → n.text = "" := by
      intro hof
      rcases h.note n hn q' hm hof with htext | ⟨-, i, hi, -⟩
      · exact htext
      · cases hi
    obtain ⟨-, hseq | ⟨r, hr, hc, hq, hname⟩⟩ := ofCapture_iff.mp hof
    · exact .inl (hold (ofCapture_iff.mpr ⟨rfl, .inl hseq⟩))
    · rcases mem_importEvents hr with hr | ⟨hchain, he⟩
      · exact .inl (hold (ofCapture_iff.mpr ⟨rfl, .inr ⟨r, hr, hc, hq, hname⟩⟩))
      · have hcn : n.chainId = c := hc.symm.trans hchain
        rw [← hq, hcn] at hm
        rcases hnewer r.event he hm n hn hcn hname with htext | hcome
        · exact .inl htext
        · exact .inr ⟨hcn, hcome⟩
  · simpa only [hembeddings, hprompts] using h.vector

theorem Guarded.importPrompt {p : ForeignPromptInput} (h : Guarded chain rest none s)
    (hs : importPrompt now c s p = .ok s') : Guarded chain rest none s' := by
  unfold ForeignStore.importPrompt at hs
  dsimp only at hs
  set row : ℤ → ForeignPromptRow := fun id =>
    ⟨id, c, p.seq, p.promptId, p.role, p.bodyHash, p.redaction, p.text, p.project, false, now⟩
  -- the row that is written may be one of a marked capture
  have hwritten : Guarded chain rest (some (c, p.seq))
      { s with prompts := s.prompts.insertOrIgnore row } := by
    constructor
    · intro r hr
      rcases h.marked r hr with hnone | hmarked
      · cases hnone
      · exact .inr hmarked
    · intro x hx hmarked
      rcases IndexedTable.mem_insertOrIgnore hx with hx | rfl
      · rcases h.prompt x hx hmarked with hnone | htomb
        · cases hnone
        · exact .inr htomb
      · exact .inl rfl
    · intro x hx htomb
      rcases IndexedTable.mem_insertOrIgnore hx with hx | rfl
      · exact h.text x hx htomb
      · cases htomb
    · exact h.note
    · intro e he
      obtain ⟨hkind, x, hget, htomb⟩ := h.vector e he
      exact ⟨hkind, x, IndexedTable.get?_insertOrIgnore_old hget, htomb⟩
  by_cases htomb : ({ s with prompts := s.prompts.insertOrIgnore row } :
      ForeignStore).captureTombstoned c p.seq = true
  · rw [if_pos htomb] at hs
    refine (hwritten.tombstone (fun x hx => ?_) hs).1
    exact (Option.mem_some.mp hx).symm
  · rw [if_neg htomb] at hs
    cases hs
    have hfree : ¬ s.Marked c p.seq := by
      intro hmarked
      exact htomb (h.captureTombstoned_iff.mpr hmarked)
    constructor
    · exact h.marked
    · intro x hx hmarked
      rcases IndexedTable.mem_insertOrIgnore hx with hx | rfl
      · exact h.prompt x hx hmarked
      · exact absurd hmarked hfree
    · exact hwritten.text
    · exact hwritten.note
    · exact hwritten.vector

/-- The note is written over an older version, or left. -/
theorem mem_writeNote {row n : ForeignNoteRow} (hn : n ∈ (s.writeNote row).notes.rows) :
    (∃ id, n = { row with rowid := id }) ∧
        (∀ m ∈ s.notes.rows, m.key = row.key → m.seq.getD 0 < row.seq.getD 0) ∨
      n ∈ s.notes.rows ∧ (n.key = row.key → row.seq.getD 0 ≤ n.seq.getD 0) := by
  unfold writeNote at hn
  cases hget : s.notes.get? row.key with
  | none =>
    simp only [hget] at hn
    have hfree : ∀ m ∈ s.notes.rows, m.key ≠ row.key := Table.get?_eq_none.mp hget
    rcases Table.mem_insertOrIgnore hn with hold | rfl
    · exact .inr ⟨hold, fun hkey => absurd hkey (hfree n hold)⟩
    · exact .inl ⟨⟨_, rfl⟩, fun m hm hkey => absurd hkey (hfree m hm)⟩
  | some old =>
    simp only [hget] at hn
    have hold : ∀ m ∈ s.notes.rows, m.key = row.key → m = old := by
      intro m hm hkey
      rwa [← hkey, Table.mem_rows.mp hm, Option.some.injEq] at hget
    by_cases hnewer : old.seq.getD 0 < row.seq.getD 0
    · rw [if_pos hnewer] at hn
      rcases Table.mem_upsert hn with rfl | ⟨hmem, hkey⟩
      · exact .inl ⟨⟨_, rfl⟩, fun m hm hkey => hold m hm hkey ▸ hnewer⟩
      · exact .inr ⟨hmem, fun heq => absurd heq.symm hkey⟩
    · rw [if_neg hnewer] at hn
      exact .inr ⟨hn, fun hkey => hold n hn hkey ▸ not_lt.mp hnewer⟩

/-- Every note that was there is there, and so is the one that comes. -/
theorem keys_writeNote {row m : ForeignNoteRow} (hm : m ∈ s.notes.rows ∨ m = row) :
    ∃ n ∈ (s.writeNote row).notes.rows, n.key = m.key := by
  have hget : ((s.writeNote row).notes.get? m.key).isSome = true := by
    unfold writeNote
    cases hget : s.notes.get? row.key with
    | none =>
      dsimp only
      rw [Table.get?_insertOrIgnore]
      rcases hm with hm | rfl
      · rw [Table.mem_rows.mp hm]
        rfl
      · rw [hget, Option.none_or]
        exact if_pos rfl ▸ rfl
    | some old =>
      dsimp only
      by_cases hnewer : old.seq.getD 0 < row.seq.getD 0
      · rw [if_pos hnewer]
        dsimp only
        rw [Table.get?_upsert]
        split_ifs with hkey
        · rfl
        · rcases hm with hm | rfl
          · rw [Table.mem_rows.mp hm]
            rfl
          · exact absurd rfl hkey
      · rw [if_neg hnewer]
        rcases hm with hm | rfl
        · rw [Table.mem_rows.mp hm]
          rfl
        · rw [hget]
          rfl
  obtain ⟨n, hn⟩ := Option.isSome_iff_exists.mp hget
  exact ⟨n, (Table.get?_eq_some.mp hn).1, Table.key_of_get? hn⟩

theorem captureTables_writeNote (row : ForeignNoteRow) :
    (s.writeNote row).events = s.events ∧ (s.writeNote row).prompts = s.prompts ∧
      (s.writeNote row).redactions = s.redactions ∧ (s.writeNote row).embeddings = s.embeddings ∧
        (s.writeNote row).markers = s.markers := by
  unfold writeNote
  cases s.notes.get? row.key with
  | none => exact ⟨rfl, rfl, rfl, rfl, rfl⟩
  | some old =>
    dsimp only
    split_ifs <;> exact ⟨rfl, rfl, rfl, rfl, rfl⟩

/-- A note with text gets in only where no marked capture has it. -/
theorem Guarded.importNote {n : ForeignNoteInput} (h : Guarded c (n :: rest) none s)
    (hexact : ∀ r ∈ s.events.rows, r.chainId = c → r.event.namesNote n.noteId = true →
      r.event.refId = some (i64ToString n.noteId))
    (hs : importNote c s n = .ok s') : Guarded c rest none s' := by
  unfold ForeignStore.importNote at hs
  cases hseq : n.seq with
  | none => rw [hseq] at hs; cases hs
  | some seq =>
    simp only [hseq] at hs
    set blocked := s.noteTombstoned c n.noteId seq ||
      ((s.notes.get? (c, n.noteId)).bind ForeignNoteRow.seq).any (s.captureTombstoned c)
    set row : ForeignNoteRow := ⟨0, c, n.noteId, some seq, n.targetKind, n.targetId,
      if blocked then "" else n.text, n.createdAt⟩
    obtain ⟨hevents, hprompts, hredactions, hembeddings, hmarkers⟩ := s.captureTables_writeNote row
    have hmarked : ∀ c' q', (s.writeNote row).Marked c' q' ↔ s.Marked c' q' := by
      intro c' q'
      rw [Marked, Marked, hmarkers]
    have hwritten : Guarded c rest none (s.writeNote row) := by
      constructor
      · simpa only [hredactions, hmarked] using h.marked
      · simpa only [hprompts, hmarked] using h.prompt
      · simpa only [hprompts] using h.text
      · intro m hm q' hmark hof
        rw [hmarked] at hmark
        rw [ofCapture_iff, hevents, ← ofCapture_iff] at hof
        rcases mem_writeNote hm with ⟨⟨id, rfl⟩, -⟩ | ⟨hm, hleft⟩
        · -- the version that is written
          have hblocked : blocked = true := by
            refine Bool.or_eq_true_iff.mpr (.inl ?_)
            unfold noteTombstoned
            obtain ⟨-, heq | ⟨r, hr, hc, hq, hname⟩⟩ := ofCapture_iff.mp hof
            · have hq : seq = q' := Option.some.inj heq
              rw [Bool.or_eq_true, hq]
              exact .inl (h.captureTombstoned_iff.mpr hmark)
            · rw [Bool.or_eq_true, List.any_eq_true]
              refine .inr ⟨r, hr, ?_⟩
              have href := hexact r hr hc hname
              have htomb : s.captureTombstoned c r.event.seq = true := by
                rw [hq]
                exact h.captureTombstoned_iff.mpr hmark
              simp only [LedgerEventRow.namesNote, Bool.and_eq_true, decide_eq_true_eq] at hname
              obtain ⟨⟨hkind, hrefKind⟩, -⟩ := hname
              simp [hc, hkind, hrefKind, href, htomb, row]
          exact .inl (if_pos hblocked)
        · -- a row that stays: what is to come for it is not this version
          rcases h.note m hm q' hmark hof with htext | ⟨hc, i, hi, hid, hlt⟩
          · exact .inl htext
          · rcases List.mem_cons.mp hi with rfl | hi
            · have hkey : m.key = row.key := Prod.ext hc hid.symm
              have hle := hleft hkey
              rw [hseq] at hlt
              exact absurd hlt (not_lt.mpr hle)
            · exact .inr ⟨hc, i, hi, hid, hlt⟩
      · simpa only [hembeddings, hprompts] using h.vector
    by_cases hblocked : blocked = true
    · rw [if_pos hblocked] at hs
      exact (hwritten.tombstone (fun x hx => by cases hx) hs).1
    · rw [if_neg hblocked] at hs
      cases hs
      exact hwritten

theorem Guarded.importRedaction {r : ForeignRedactionInput} (h : Guarded chain rest none s)
    (hs : importRedaction now c s r = .ok s') :
    Guarded chain rest none s' ∧ s'.Marked r.targetChain r.targetSeq := by
  unfold ForeignStore.importRedaction at hs
  by_cases hown : r.targetChain ≠ c
  · rw [if_pos hown] at hs
    cases hs
  · rw [if_neg hown] at hs
    have hwritten : Guarded chain rest (some (r.targetChain, r.targetSeq))
        { s with
          redactions := s.redactions.insertOrIgnore
            ⟨c, r.eventSeq, r.targetChain, r.targetSeq, now⟩ } := by
      constructor
      · intro x hx
        rcases Table.mem_insertOrIgnore hx with hx | rfl
        · rcases h.marked x hx with hnone | hmarked
          · cases hnone
          · exact .inr hmarked
        · exact .inl rfl
      · intro p hp hmarked
        rcases h.prompt p hp hmarked with hnone | htomb
        · cases hnone
        · exact .inr htomb
      · exact h.text
      · exact h.note
      · exact h.vector
    exact hwritten.tombstone (fun x hx => (Option.mem_some.mp hx).symm) hs

/-- Markers are never taken away. -/
def MarkersGrow (s s' : ForeignStore) : Prop := ∀ c q, s.Marked c q → s'.Marked c q

theorem markersGrow_tombstone (hs : s.tombstone c q = .ok s') : s.MarkersGrow s' := by
  unfold ForeignStore.tombstone at hs
  split_ifs at hs
  cases hs
  exact fun c' q' hmarked => marked_suppress.mpr (.inr hmarked)

theorem markersGrow_importPrompt {p : ForeignPromptInput}
    (hs : ForeignStore.importPrompt now c s p = .ok s') : s.MarkersGrow s' := by
  unfold ForeignStore.importPrompt at hs
  dsimp only at hs
  split_ifs at hs
  · have hgrow := markersGrow_tombstone hs
    exact hgrow
  · cases hs
    exact fun _ _ hmarked => hmarked

theorem markersGrow_importNote {n : ForeignNoteInput}
    (hs : ForeignStore.importNote c s n = .ok s') : s.MarkersGrow s' := by
  unfold ForeignStore.importNote at hs
  cases hseq : n.seq with
  | none => rw [hseq] at hs; cases hs
  | some seq =>
    simp only [hseq] at hs
    have hwritten (row : ForeignNoteRow) : s.MarkersGrow (s.writeNote row) := by
      intro c' q' hmarked
      rwa [Marked, (s.captureTables_writeNote row).2.2.2.2]
    split_ifs at hs
    · exact fun c' q' hmarked => markersGrow_tombstone hs c' q' (hwritten _ c' q' hmarked)
    · cases hs
      exact hwritten _

theorem markersGrow_importRedaction {r : ForeignRedactionInput}
    (hs : ForeignStore.importRedaction now c s r = .ok s') : s.MarkersGrow s' := by
  unfold ForeignStore.importRedaction at hs
  dsimp only at hs
  split_ifs at hs
  have hgrow := markersGrow_tombstone hs
  exact hgrow

theorem markersGrow_foldlM {α : Type} {g : ForeignStore → α → Except String ForeignStore}
    (hg : ∀ s a s', g s a = .ok s' → s.MarkersGrow s') {xs : List α}
    (hs : xs.foldlM g s = .ok s') : s.MarkersGrow s' := by
  induction xs generalizing s with
  | nil =>
    cases hs
    exact fun _ _ hmarked => hmarked
  | cons x xs ih =>
    rw [List.foldlM_cons] at hs
    obtain ⟨t, ht, hs⟩ := bind_eq_ok.mp hs
    exact fun c' q' hmarked => ih hs c' q' (hg s x t ht c' q' hmarked)

theorem Guarded.importPrompts {prompts : List ForeignPromptInput} (h : Guarded chain rest none s)
    (hs : prompts.foldlM (ForeignStore.importPrompt now c) s = .ok s') :
    Guarded chain rest none s' := by
  induction prompts generalizing s with
  | nil =>
    cases hs
    exact h
  | cons p prompts ih =>
    rw [List.foldlM_cons] at hs
    obtain ⟨t, ht, hs⟩ := bind_eq_ok.mp hs
    exact ih (h.importPrompt ht) hs

theorem Guarded.importNotes {notes : List ForeignNoteInput} (h : Guarded c notes none s)
    (hexact : ∀ n ∈ notes, ∀ r ∈ s.events.rows, r.chainId = c → r.event.namesNote n.noteId = true →
      r.event.refId = some (i64ToString n.noteId))
    (hs : notes.foldlM (ForeignStore.importNote c) s = .ok s') : Guarded c [] none s' := by
  induction notes generalizing s with
  | nil =>
    cases hs
    exact h
  | cons n notes ih =>
    rw [List.foldlM_cons] at hs
    obtain ⟨t, ht, hs⟩ := bind_eq_ok.mp hs
    refine ih (h.importNote (hexact n List.mem_cons_self) ht) (fun m hm => ?_) hs
    have hevents : t.events = s.events := congrArg Prod.snd (chainTables_importNote ht)
    rw [hevents]
    exact hexact m (List.mem_cons_of_mem n hm)

/-- The redactions come last, and mark what they name. -/
theorem Guarded.importRedactions {redactions : List ForeignRedactionInput}
    (h : Guarded chain rest none s)
    (hs : redactions.foldlM (ForeignStore.importRedaction now c) s = .ok s') :
    Guarded chain rest none s' ∧ ∀ r ∈ redactions, s'.Marked r.targetChain r.targetSeq := by
  induction redactions generalizing s with
  | nil =>
    cases hs
    exact ⟨h, fun r hr => by cases hr⟩
  | cons r redactions ih =>
    rw [List.foldlM_cons] at hs
    obtain ⟨t, ht, hts⟩ := bind_eq_ok.mp hs
    obtain ⟨hguarded, hmarked⟩ := h.importRedaction ht
    obtain ⟨hrest, hall⟩ := ih hguarded hts
    refine ⟨hrest, fun x hx => ?_⟩
    rcases List.mem_cons.mp hx with rfl | hx
    · exact markersGrow_foldlM (fun _ _ _ hx => markersGrow_importRedaction hx) hts _ _ hmarked
    · exact hall x hx

/-! ### The other writes -/

theorem Guarded.of_chain (h : Guarded chain [] none s) (c : String) : Guarded c [] none s where
  marked := h.marked
  prompt := h.prompt
  text := h.text
  note n hn q hmarked hof := by
    rcases h.note n hn q hmarked hof with htext | ⟨-, i, hi, -⟩
    · exact .inl htext
    · cases hi
  vector := h.vector

/-- A vector is stored of a prompt that is not blank. -/
theorem Guarded.upsert_vector (h : Guarded chain rest none s) {e : ForeignVectorRow}
    {p : ForeignPromptRow} (hkind : e.targetKind = "foreign_prompt")
    (hget : s.prompts.get? e.targetId = some p) (htomb : p.tombstoned = false) :
    Guarded chain rest none { s with embeddings := s.embeddings.upsert e } where
  marked := h.marked
  prompt := h.prompt
  text := h.text
  note := h.note
  vector x hx := by
    rcases Table.mem_upsert hx with rfl | ⟨hx, -⟩
    · exact ⟨hkind, p, hget, htomb⟩
    · exact h.vector x hx

theorem Guarded.importVector (h : Guarded chain rest none s) (localModel : Option String)
    (env : Envelope) (v : PayloadVector) :
    Guarded chain rest none (ForeignStore.importVector now localModel env s v) := by
  unfold ForeignStore.importVector
  cases hrow : (env.promptSeq v.promptId).bind fun seq =>
      s.prompts.byIndex.get? (env.header.chainId, seq) with
  | none => exact h
  | some row =>
    dsimp only
    by_cases hskip : localModel ≠ some v.model ∨ row.tombstoned = true ∨ row.text = none
    · rw [if_pos hskip]
      exact h
    · rw [if_neg hskip]
      cases hexDecode v.vecHex with
      | none => exact h
      | some bytes =>
        obtain ⟨q, -, hget⟩ := Option.bind_eq_some_iff.mp hrow
        have hmem : row ∈ s.prompts.rows := (Table.get?_eq_some.mp hget).1
        refine h.upsert_vector rfl (Table.mem_rows.mp hmem) ?_
        exact Bool.eq_false_iff.mpr fun htomb => hskip (.inr (.inl htomb))

theorem Guarded.importRest (h : Guarded chain rest none s) (opts : ImportOptions) (env : Envelope)
    (startSeq : ℤ) : Guarded chain rest none (s.importRest now opts env startSeq) := by
  have hvectors (vectors : List PayloadVector) : ∀ t, Guarded chain rest none t →
      Guarded chain rest none (vectors.foldl (ForeignStore.importVector now opts.localModel env) t) := by
    induction vectors with
    | nil => exact fun t ht => ht
    | cons v vectors ih => exact fun t ht => ih _ (ht.importVector opts.localModel env v)
  have hacks (t : ForeignStore) : (env.payload.acks.foldl (importAck now env.header.chainId)
      t).captureTables = t.captureTables := by
    refine foldl_keeps fun s a => ?_
    unfold importAck
    dsimp only
    split_ifs <;> rfl
  have hwritten := (hvectors env.payload.vectors s h).of_tables (hacks _)
  unfold ForeignStore.importRest
  dsimp only
  split_ifs
  · exact hwritten
  · exact hwritten.of_tables rfl

theorem markers_importRest (opts : ImportOptions) (env : Envelope) (startSeq : ℤ) :
    (s.importRest now opts env startSeq).markers = s.markers := by
  have hfold : ∀ t : ForeignStore, (env.payload.acks.foldl (importAck now env.header.chainId)
      (env.payload.vectors.foldl (ForeignStore.importVector now opts.localModel env) t)).markers =
        t.markers := by
    intro t
    rw [foldl_keeps (f := ForeignStore.markers) (g := importAck now env.header.chainId),
      foldl_keeps (f := ForeignStore.markers)]
    · intro s v
      unfold ForeignStore.importVector
      split
      · rfl
      · split_ifs
        · rfl
        · split <;> rfl
    · intro s a
      unfold importAck
      dsimp only
      split_ifs <;> rfl
  unfold ForeignStore.importRest
  dsimp only
  split_ifs
  · exact hfold s
  · exact hfold s

/-- A purge takes the rows of its chain, and their vectors with them. -/
theorem Guarded.forgetForeignChain (h : Guarded chain rest none s) (c : String) :
    Guarded chain rest none (s.forgetForeignChain c) where
  marked r hr := h.marked r (Table.mem_delete.mp hr).1
  prompt p hp := h.prompt p (Table.mem_delete.mp hp).1
  text p hp := h.text p (Table.mem_delete.mp hp).1
  note n hn q hmarked hof := by
    refine h.note n (Table.mem_delete.mp hn).1 q hmarked ?_
    obtain ⟨-, hseq | ⟨r, hr, hc, hq, hname⟩⟩ := ofCapture_iff.mp hof
    · exact ofCapture_iff.mpr ⟨rfl, .inl hseq⟩
    · exact ofCapture_iff.mpr ⟨rfl, .inr ⟨r, (Table.mem_delete.mp hr).1, hc, hq, hname⟩⟩
  vector e he := by
    obtain ⟨he, hkept⟩ := Table.mem_delete.mp he
    obtain ⟨hkind, p, hget, htomb⟩ := h.vector e he
    refine ⟨hkind, p, ?_, htomb⟩
    have hother : p.chainId ≠ c := by
      intro hc
      have hmem : e.targetId ∈ (s.prompts.select fun p => p.chainId = c).map ForeignPromptRow.id :=
        Table.mem_map_select.mpr ⟨p, hget, decide_eq_true hc⟩
      simp [hkind, hmem] at hkept
    change (s.prompts.delete _).get? e.targetId = some p
    rw [IndexedTable.toAutoTable_delete, AutoTable.toTable_delete, Table.get?_delete, hget]
    simp [Option.filter, hother]

theorem Guarded.indexForeign (h : Guarded chain rest none s) (model : String) (id : ℤ)
    (chunks : List VectorChunk) :
    Guarded chain rest none (s.indexForeign now model id chunks) := by
  unfold ForeignStore.indexForeign
  cases hget : s.prompts.get? id with
  | none => exact h
  | some p =>
    dsimp only
    by_cases hindex : s.toIndex model p = true
    · rw [if_pos hindex]
      have htomb : p.tombstoned = false := by
        unfold toIndex at hindex
        simp only [Bool.and_eq_true, Bool.not_eq_true'] at hindex
        exact hindex.1.1
      have hdeleted : Guarded chain rest none { s with
          embeddings := s.embeddings.delete fun e =>
            e.targetKind = "foreign_prompt" && e.targetId = id && e.model = model } :=
        ⟨h.marked, h.prompt, h.text, h.note, fun e he => h.vector e (Table.mem_delete.mp he).1⟩
      have hchunks (vectors : Table ForeignVectorRow.chunk)
          (hv : Guarded chain rest none { s with embeddings := vectors }) :
          Guarded chain rest none { s with
            embeddings := chunks.foldl (fun t c => t.upsert ⟨"foreign_prompt", id, c.ix, model,
              c.charStart, c.charLen, c.vec.length, c.scale, c.vec, p.bodyHash, now⟩) vectors } := by
        induction chunks generalizing vectors with
        | nil => exact hv
        | cons c chunks ih => exact ih _ (hv.upsert_vector rfl hget htomb)
      exact hchunks _ hdeleted
    · rw [if_neg hindex]
      exact h

end

end ForeignStore

/-- The condition of an import whose new events start at a seq: a note that is
here with text, and that the event of a tombstoned capture among them names,
comes again in a newer version; and every event names the notes that come by
their ids as they are written. -/
def ForeignStore.Covers (s : ForeignStore) (env : Envelope) (start : ℤ) : Prop :=
  (∀ e ∈ env.newEvents start, s.captureTombstoned env.header.chainId e.seq = true →
    ∀ n ∈ s.notes.rows, n.chainId = env.header.chainId → e.namesNote n.noteId = true →
      n.text = "" ∨ ∃ i ∈ env.noteInputs, i.noteId = n.noteId ∧ n.seq.getD 0 < i.seq.getD 0) ∧
  ∀ i ∈ env.noteInputs, ∀ e ∈ s.held env.header.chainId ++ env.newEvents start,
    e.namesNote i.noteId = true → e.refId = some (i64ToString i.noteId)

namespace ForeignStore

variable {w : Wire} {s s' : ForeignStore} {chain c : String} {q now : ℤ} {opts : ImportOptions}
  {env : Envelope}

/-- **The segment of an import keeps the tombstones and adds its own.** -/
theorem Guarded.importRows (h : Guarded chain [] none s) {start : ℤ × ℤ}
    (hcovers : s.Covers env start.2) {projects : List String}
    (hs : s.importRows now env projects start = .ok s') :
    Guarded chain [] none s' ∧ s.MarkersGrow s' ∧
      ∀ r ∈ env.redactionInputs, s'.Marked r.targetChain r.targetSeq := by
  unfold ForeignStore.importRows at hs
  cases hlast : env.events.getLast? with
  | none => rw [hlast] at hs; cases hs
  | some last =>
    simp only [hlast] at hs
    cases hseg : s.importForeignSegment now (env.chainRow now start.1 last) (env.newEvents start.2)
        (env.promptInputs projects) env.noteInputs env.payload.principals env.redactionInputs with
    | error detail => simp only [hseg, reduceCtorEq] at hs
    | ok t =>
      simp only [hseg, Except.ok.injEq] at hs
      subst hs
      unfold importForeignSegment at hseg
      dsimp only at hseg
      obtain ⟨s₁, h₁, hseg⟩ := bind_eq_ok.mp hseg
      obtain ⟨s₂, h₂, hseg⟩ := bind_eq_ok.mp hseg
      obtain ⟨s₃, h₃, hseg⟩ := bind_eq_ok.mp hseg
      cases hseg
      set s₀ := (env.newEvents start.2).foldl (importEvent env.header.chainId) s
      have hevents : Guarded env.header.chainId env.noteInputs none s₀ := by
        refine h.importEvents fun e he hmarked => ?_
        exact hcovers.1 e he (h.captureTombstoned_iff.mpr hmarked)
      have hprompts := hevents.importPrompts h₁
      have hheld : s₁.events = s₀.events := congrArg Prod.snd
        (foldlM_keeps (fun _ _ _ => chainTables_importPrompt) h₁)
      have hnotes : Guarded env.header.chainId [] none s₂ := by
        refine hprompts.importNotes (fun n hn r hr hc => ?_) h₂
        rw [hheld] at hr
        refine hcovers.2 n hn r.event (List.mem_append.mpr ?_)
        rcases mem_importEvents hr with hr | ⟨-, he⟩
        · refine .inl (mem_held.mpr ?_)
          rw [Table.mem_rows] at hr
          obtain ⟨c', e⟩ := r
          dsimp only at hc
          subst hc
          exact hr
        · exact .inr he
      have hcards : (env.payload.principals.foldl (importPrincipal env.header.chainId)
          s₂).captureTables = s₂.captureTables := foldl_keeps fun _ _ => rfl
      obtain ⟨hall, hmarked⟩ := (hnotes.of_tables hcards).importRedactions h₃
      have hhead : Guarded env.header.chainId [] none
          (s₃.importHead (env.chainRow now start.1 last)) := hall.of_tables rfl
      refine ⟨hhead.of_chain chain, fun c' q' hm => ?_, hmarked⟩
      have hmarkers : s₀.markers = s.markers := foldl_keeps fun _ _ => rfl
      have hm₀ : s₀.Marked c' q' := by rwa [Marked, hmarkers]
      have hm₁ := markersGrow_foldlM (fun _ _ _ => markersGrow_importPrompt) h₁ c' q' hm₀
      have hm₂ := markersGrow_foldlM (fun _ _ _ => markersGrow_importNote) h₂ c' q' hm₁
      have hcards' : (env.payload.principals.foldl (importPrincipal env.header.chainId)
          s₂).markers = s₂.markers := foldl_keeps fun _ _ => rfl
      have hm₂' : (env.payload.principals.foldl (importPrincipal env.header.chainId)
          s₂).Marked c' q' := by rwa [Marked, hcards']
      exact markersGrow_foldlM (fun _ _ _ => markersGrow_importRedaction) h₃ c' q' hm₂'

/-- **An import keeps the tombstones and adds its own.** -/
theorem Guarded.importEnvelope (h : Guarded chain [] none s)
    (hcovers : ∀ start, w.Admits now opts s env start → s.Covers env start.2) :
    let out := w.importEnvelope now opts s env
    Guarded chain [] none out.1 ∧ s.MarkersGrow out.1 ∧
      (s.isOwnDevice env.header.chainId = false → out.2.isOk = true →
        ∀ r ∈ env.redactionInputs, out.1.Marked r.targetChain r.targetSeq) := by
  dsimp only
  rcases Wire.importEnvelope_cases w now opts s env with
    ⟨start, trust, t, r, hadmits, hrows, heq⟩ | ⟨⟨trust, chains, -, heq⟩, hrefused⟩
  · have htrusted : Guarded chain [] none { s with trust := trust } := h.of_tables rfl
    have hcov : { s with trust := trust }.Covers env start.2 := hcovers start hadmits
    obtain ⟨hguarded, hgrow, hmarked⟩ := htrusted.importRows hcov hrows
    have hmarkers : (t.importRest now opts env start.2).markers = t.markers :=
      t.markers_importRest opts env start.2
    have hiff : ∀ c q, (t.importRest now opts env start.2).Marked c q ↔ t.Marked c q := by
      intro c q
      rw [Marked, Marked, hmarkers]
    rw [heq]
    refine ⟨hguarded.importRest opts env start.2, fun c q hm => ?_, fun _ _ r hr => ?_⟩
    · exact (hiff c q).mpr (hgrow c q hm)
    · exact (hiff _ _).mpr (hmarked r hr)
  · rw [heq]
    refine ⟨h.of_tables rfl, fun _ _ hm => hm, fun hown hok => ?_⟩
    rw [hrefused hown] at hok
    cases hok

end ForeignStore

/-! ### Runs -/

/-- What is done with foreign captures. -/
inductive CaptureStep
  | importing (now : ℤ) (opts : ImportOptions) (env : Envelope)
  | tombstone (chainId : String) (seq : ℤ)
  | purge (chainId : String)
  | index (now : ℤ) (model : String) (id : ℤ) (chunks : List VectorChunk)
  /-- Whatever leaves the captures, their vectors and their markers alone. -/
  | others (t : ForeignStore)

namespace ForeignStore

/-- One step. -/
def captureStep (w : Wire) (s : ForeignStore) : CaptureStep → ForeignStore
  | .importing now opts env => (w.importEnvelope now opts s env).1
  | .tombstone chainId seq =>
    match s.tombstone chainId seq with
    | .error _ => s
    | .ok s' => s'
  | .purge chainId => s.forgetForeignChain chainId
  | .index now model id chunks => s.indexForeign now model id chunks
  | .others t =>
    { t with
      events := s.events
      prompts := s.prompts
      notes := s.notes
      redactions := s.redactions
      embeddings := s.embeddings
      markers := s.markers }

/-- Steps in a row. -/
def captureRun (w : Wire) (s : ForeignStore) (steps : List CaptureStep) : ForeignStore :=
  steps.foldl (captureStep w) s

/-- The condition of a step. -/
def StepCovers (w : Wire) (s : ForeignStore) : CaptureStep → Prop
  | .importing now opts env => ∀ start, w.Admits now opts s env start → s.Covers env start.2
  | _ => True

/-- Every step of the run meets its condition. -/
def RunCovers (w : Wire) : ForeignStore → List CaptureStep → Prop
  | _, [] => True
  | s, st :: steps => s.StepCovers w st ∧ RunCovers w (s.captureStep w st) steps

/-- The step tombstones the capture: here, or by an import of a redaction. -/
def Tombstones (w : Wire) (s : ForeignStore) (c : String) (q : ℤ) : CaptureStep → Prop
  | .tombstone chainId seq => chainId = c ∧ seq = q ∧ isCaptureId c q = true
  | .importing now opts env => s.isOwnDevice env.header.chainId = false ∧
      (w.importEnvelope now opts s env).2.isOk = true ∧
        ∃ r ∈ env.redactionInputs, r.targetChain = c ∧ r.targetSeq = q
  | _ => False

/-- No prompt and no note of the capture holds text, and no vector is its. -/
structure Blank (s : ForeignStore) (c : String) (q : ℤ) : Prop where
  prompt : ∀ p ∈ s.prompts.rows, p.chainId = c → p.seq = q →
    p.tombstoned = true ∧ p.text = some tombstoneText
  note : ∀ n ∈ s.notes.rows, s.ofCapture c q n = true → n.text = ""
  vector : ∀ e ∈ s.embeddings.rows, e.targetKind = "foreign_prompt" ∧
    ∃ p, s.prompts.get? e.targetId = some p ∧ p.capture ≠ (c, q)

variable {w : Wire} {s : ForeignStore} {chain c : String} {q : ℤ}

theorem Guarded.blank (h : Guarded chain [] none s) (hmarked : s.Marked c q) : s.Blank c q where
  prompt p hp hc hq := by
    subst hc hq
    rcases h.prompt p hp hmarked with hnone | htomb
    · cases hnone
    · exact ⟨htomb, h.text p hp htomb⟩
  note n hn hof := by
    obtain ⟨rfl, -⟩ := ofCapture_iff.mp hof
    rcases h.note n hn q hmarked hof with htext | ⟨-, i, hi, -⟩
    · exact htext
    · cases hi
  vector e he := by
    obtain ⟨hkind, p, hget, htomb⟩ := h.vector e he
    refine ⟨hkind, p, hget, fun hcapture => ?_⟩
    obtain ⟨hc, hq⟩ := Prod.ext_iff.mp hcapture
    dsimp only at hc hq
    have hmarked' : s.Marked p.chainId p.seq := by rwa [hc, hq]
    rcases h.prompt p (Table.get?_eq_some.mp hget).1 hmarked' with hnone | htomb'
    · cases hnone
    · rw [htomb] at htomb'
      cases htomb'

/-- One step keeps the tombstones and adds the one it makes. -/
theorem Guarded.step (h : Guarded chain [] none s) {st : CaptureStep} (hst : s.StepCovers w st) :
    Guarded chain [] none (s.captureStep w st) ∧ s.MarkersGrow (s.captureStep w st) ∧
      ∀ c q, s.Tombstones w c q st → (s.captureStep w st).Marked c q := by
  cases st with
  | importing now opts env =>
    obtain ⟨hguarded, hgrow, hmarked⟩ := h.importEnvelope hst
    refine ⟨hguarded, hgrow, ?_⟩
    rintro c q ⟨hown, hok, r, hr, rfl, rfl⟩
    exact hmarked hown hok r hr
  | tombstone chainId seq =>
    cases hs : s.tombstone chainId seq with
    | error e =>
      have hstep : s.captureStep w (.tombstone chainId seq) = s := by simp only [captureStep, hs]
      rw [hstep]
      refine ⟨h, fun _ _ hm => hm, ?_⟩
      rintro c q ⟨rfl, rfl, hid⟩
      simp [ForeignStore.tombstone, hid] at hs
    | ok s' =>
      have hstep : s.captureStep w (.tombstone chainId seq) = s' := by simp only [captureStep, hs]
      obtain ⟨hguarded, hmarked⟩ := h.tombstone (fun x hx => by cases hx) hs
      rw [hstep]
      refine ⟨hguarded, markersGrow_tombstone hs, ?_⟩
      rintro c q ⟨rfl, rfl, -⟩
      exact hmarked
  | purge chainId => exact ⟨h.forgetForeignChain chainId, fun _ _ hm => hm, fun _ _ hf => hf.elim⟩
  | index now model id chunks =>
    refine ⟨h.indexForeign model id chunks, ?_, fun _ _ hf => hf.elim⟩
    have hmarkers : (s.indexForeign now model id chunks).markers = s.markers := by
      unfold ForeignStore.indexForeign
      split
      · rfl
      · split_ifs <;> rfl
    intro c q hm
    change (c, q) ∈ (s.indexForeign now model id chunks).markers.rows
    rwa [hmarkers]
  | others t => exact ⟨h.of_tables rfl, fun _ _ hm => hm, fun _ _ hf => hf.elim⟩

theorem Guarded.run {steps : List CaptureStep} (h : Guarded chain [] none s)
    (hsteps : s.RunCovers w steps) :
    Guarded chain [] none (s.captureRun w steps) ∧ s.MarkersGrow (s.captureRun w steps) := by
  induction steps generalizing s with
  | nil => exact ⟨h, fun _ _ hm => hm⟩
  | cons st steps ih =>
    obtain ⟨hst, hrest⟩ := hsteps
    obtain ⟨hguarded, hgrow, -⟩ := h.step hst
    obtain ⟨hrun, hgrows⟩ := ih hguarded hrest
    exact ⟨hrun, fun c q hm => hgrows c q (hgrow c q hm)⟩

theorem runCovers_append {before later : List CaptureStep}
    (h : s.RunCovers w (before ++ later)) :
    s.RunCovers w before ∧ (s.captureRun w before).RunCovers w later := by
  induction before generalizing s with
  | nil => exact ⟨trivial, h⟩
  | cons st before ih =>
    obtain ⟨hst, hrest⟩ := h
    obtain ⟨hbefore, hlater⟩ := ih hrest
    exact ⟨⟨hst, hbefore⟩, hlater⟩

/-- A database that holds no foreign capture; markers may be there. -/
def uncaptured (t : ForeignStore) : ForeignStore :=
  { t with
    chains := ∅
    events := ∅
    prompts := ∅
    notes := ∅
    redactions := ∅
    embeddings := ∅ }

theorem guarded_uncaptured (t : ForeignStore) : Guarded chain [] none t.uncaptured where
  marked _ hr := by cases hr
  prompt _ hp := by cases hp
  text _ hp := by cases hp
  note _ hn := by cases hn
  vector _ he := by cases he

end ForeignStore

open ForeignStore in
/-- **Tombstones are permanent.** After the import of a redaction, or a local
suppression, that names a capture, whatever is imported, purged, tombstoned or
indexed later, as long as no import brings the event of a tombstoned capture
for a note that is already here with text: no prompt and no note of the capture
holds text and no vector is its. -/
theorem tombstones_permanent (w : Wire) (t : ForeignStore) (before later : List CaptureStep)
    (st : CaptureStep) (c : String) (q : ℤ)
    (h : t.uncaptured.RunCovers w (before ++ st :: later))
    (hst : (t.uncaptured.captureRun w before).Tombstones w c q st) :
    (t.uncaptured.captureRun w (before ++ st :: later)).Blank c q := by
  obtain ⟨hbefore, hcond, hlater⟩ := runCovers_append h
  have hstart : Guarded c [] none t.uncaptured := guarded_uncaptured t
  obtain ⟨hguarded, -⟩ := hstart.run hbefore
  obtain ⟨hnext, -, hmarks⟩ := hguarded.step hcond
  obtain ⟨hend, hgrow⟩ := hnext.run hlater
  have hrun : t.uncaptured.captureRun w (before ++ st :: later) =
      ((t.uncaptured.captureRun w before).captureStep w st).captureRun w later := by
    unfold captureRun
    rw [List.foldl_append, List.foldl_cons]
  rw [hrun]
  exact hend.blank (hgrow c q (hmarks c q hst))

/-- A prompt and its body. -/
def bodySegment : Envelope :=
  Wire.plainSigned "a" { Wire.plainPayload [Wire.plainEvent genesisPrev 1 "prompt" (some 1) none none "body"]
    with prompts := [⟨1, "user", "body", .full, some "body", none⟩] }

/-- The prompt is tombstoned before it arrives. -/
theorem tombstones_permanent_body : (ForeignStore.empty.uncaptured.captureRun .plain
    ([] ++ .tombstone bodySegment.header.chainId 1 ::
      [.importing 7 ⟨true, false, none⟩ bodySegment])).Blank bodySegment.header.chainId 1 := by
  have hnotes : (ForeignStore.empty.uncaptured.captureStep .plain
      (.tombstone bodySegment.header.chainId 1)).notes.rows = [] := by decide +kernel
  have hinputs : bodySegment.noteInputs = [] := by decide +kernel
  refine tombstones_permanent .plain .empty [] _ _ _ _
    ⟨trivial, fun start _ => ⟨fun _ _ _ n hn => ?_, fun i hi => ?_⟩, trivial⟩
    ⟨rfl, rfl, by decide +kernel⟩
  · rw [hnotes] at hn
    cases hn
  · rw [hinputs] at hi
    cases hi

/-- What the event of a note commits to. -/
def noteHash (text : String) : String :=
  Wire.plain.decisionPayloadHash [("action", "note"), ("text", text)]

/-- The event of a standalone note. -/
def noteEvent (prevHash : String) (seq noteId : ℤ) (text : String) : LedgerEventRow :=
  Wire.plainEvent prevHash seq "note" none (some "none") (some (i64ToString noteId)) (noteHash text)

/-- The first event of a chain, and the note it names. -/
def noteSegment : Envelope :=
  Wire.plainSigned "a" { Wire.plainPayload [noteEvent genesisPrev 1 7 "secret"] with
    notes := [⟨7, some 1, "none", none, "secret", false, 0, 0⟩] }

/-- The edit of the note, its text withheld. -/
def editSegment : Envelope :=
  Wire.plainSigned "a" (Wire.plainPayload
    [noteEvent (noteEvent genesisPrev 1 7 "secret").entryHash 2 7 "edited"])

/-- The edit is tombstoned; then the note arrives, and then the event of the
edit. -/
def editTombstoned : ForeignStore :=
  ForeignStore.empty.uncaptured.captureRun .plain ([] ++ .tombstone editSegment.header.chainId 2 ::
    [.importing 7 ⟨true, false, none⟩ noteSegment, .importing 8 ⟨true, false, none⟩ editSegment])

/-- The note that the tombstoned edit names is there with its text. -/
theorem editTombstoned_not_blank : ¬ ∀ (w : Wire) (t : ForeignStore)
    (before later : List CaptureStep) (st : CaptureStep) (c : String) (q : ℤ),
    (t.uncaptured.captureRun w before).Tombstones w c q st →
      (t.uncaptured.captureRun w (before ++ st :: later)).Blank c q := by
  intro hclaim
  have hblank : editTombstoned.Blank editSegment.header.chainId 2 :=
    hclaim .plain .empty [] _ _ _ _ ⟨rfl, rfl, by decide +kernel⟩
  have hrun : (editTombstoned.notes.rows.any fun n =>
      editTombstoned.ofCapture editSegment.header.chainId 2 n && n.text ≠ "") = true := by
    decide +kernel
  obtain ⟨n, hn, hall⟩ := List.any_eq_true.mp hrun
  rw [Bool.and_eq_true, decide_eq_true_eq] at hall
  exact hall.2 (hblank.note n hn hall.1)

end PolisMemory
