/-
# The text of a body and its event

A peer's prompt row that holds a text in full holds one that hashes to the
row's body hash, and the event at the row's seq carries that hash
(`ForeignStore.BodiesBound`). The text is compared with the first event of its
prompt (`Wire.verifyBody`), but the row goes to the seq of the last one
(`Envelope.promptSeq`), so that of two events of one prompt with two hashes the
row ends at the wrong one; and the row of an event before seq 1 is written,
the event is not. Where the body that goes in has neither (`Envelope.Single`),
every import leaves the rows bound.

Key definitions: `ForeignStore.BodiesBound`, `ForeignStore.TakesBody`,
`Envelope.Single`, `ForeignStore.importEach`.
Key theorems: `BodiesBound.import`, `bodies_bound`.
-/
import PolisMemory.Confluence

namespace PolisMemory

open HashChain Tables
open Store (bind_eq_ok)

namespace Envelope

/-- The events of a prompt. -/
def promptEvents (env : Envelope) (promptId : ℤ) : List LedgerEventRow :=
  env.events.filter fun e => e.kind = "prompt" && e.promptId = some promptId

/-- The first event of a prompt and the last one carry the same hash, and the
last one has a seq of a chain. -/
def Single (env : Envelope) (promptId : ℤ) : Prop :=
  ∀ a ∈ (env.promptEvents promptId).head?, ∀ b ∈ (env.promptEvents promptId).getLast?,
    a.payloadHash = b.payloadHash ∧ 1 ≤ b.seq

end Envelope

namespace ForeignStore

variable {s s' : ForeignStore} {c : String} {now : ℤ}

/-- A row that holds a text in full holds one of the row's body hash, and the
event at the row's own chain and seq carries that hash. -/
def BodiesBound (w : Wire) (s : ForeignStore) : Prop :=
  ∀ p ∈ s.prompts.rows, p.redaction = "full" → ∀ text, p.text = some text →
    w.sha256 text = p.bodyHash ∧
      ∃ r, s.events.get? (p.chainId, p.seq) = some r ∧ r.event.payloadHash = p.bodyHash

/-! ### The rows that hold a body in full -/

/-- A suppression leaves no body in full at its capture, but for what it takes
for a tombstone. -/
theorem full_suppress {q : ℤ} {p : ForeignPromptRow} (hp : p ∈ (s.suppress c q).prompts.rows)
    (hfull : p.redaction = "full") :
    p ∈ s.prompts.rows ∧ (p.tombstoned = false → p.capture ≠ (c, q)) := by
  obtain ⟨x, hx, heq⟩ := mem_prompts_suppress hp
  by_cases hc : (x.chainId = c && x.seq = q && !x.tombstoned) = true
  · rw [if_pos hc] at heq
    subst heq
    simp at hfull
  · rw [if_neg hc] at heq
    subst heq
    refine ⟨hx, fun hlive hcapture => hc ?_⟩
    obtain ⟨hchain, hseq⟩ := Prod.ext_iff.mp hcapture
    simp only [Bool.and_eq_true, decide_eq_true_eq, Bool.not_eq_true']
    exact ⟨⟨hchain, hseq⟩, hlive⟩

theorem full_tombstone {q : ℤ} {p : ForeignPromptRow} (h : s.tombstone c q = .ok s')
    (hp : p ∈ s'.prompts.rows) (hfull : p.redaction = "full") :
    p ∈ s.prompts.rows ∧ (p.tombstoned = false → p.capture ≠ (c, q)) := by
  unfold tombstone at h
  split_ifs at h
  cases h
  exact full_suppress hp hfull

/-- The row of a prompt. -/
abbrev promptRow (now : ℤ) (c : String) (i : ForeignPromptInput) (id : ℤ) : ForeignPromptRow :=
  ⟨id, c, i.seq, i.promptId, i.role, i.bodyHash, i.redaction, i.text, i.project, false, now⟩

/-- A counter does not go back. -/
theorem lastId_importPrompt {i : ForeignPromptInput} (h : importPrompt now c s i = .ok s') :
    s.prompts.lastId ≤ s'.prompts.lastId := by
  set t : ForeignStore := { s with
    prompts := s.prompts.insertOrIgnore (promptRow now c i) } with ht
  have hres : (if t.captureTombstoned c i.seq then t.tombstone c i.seq else .ok t) = .ok s' := h
  have hinsert : s.prompts.lastId ≤ t.prompts.lastId := by
    change _ ≤ (s.prompts.insertOrIgnore (promptRow now c i)).lastId
    rw [IndexedTable.lastId_insertOrIgnore]
    split_ifs
    · exact le_refl _
    · exact (Int.lt_succ _).le
  split_ifs at hres
  · unfold tombstone at hres
    split_ifs at hres
    cases hres
    exact hinsert
  · rw [Except.ok.injEq] at hres
    exact hres ▸ hinsert

/-- The body goes in as it is: nothing is there at its seq, which is not
tombstoned. -/
structure Open (s : ForeignStore) (c : String) (q : ℤ) : Prop where
  free : s.prompts.byIndex.get? (c, q) = none
  live : s.captureTombstoned c q = false

theorem full_importPrompt {i : ForeignPromptInput} {p : ForeignPromptRow}
    (h : importPrompt now c s i = .ok s') (hp : p ∈ s'.prompts.rows) (hfull : p.redaction = "full") :
    p ∈ s.prompts.rows ∨ s.Open c i.seq ∧
      ∃ id, s.prompts.lastId < id ∧ p = promptRow now c i id := by
  set t : ForeignStore := { s with prompts := s.prompts.insertOrIgnore (promptRow now c i) } with ht
  have hres : (if t.captureTombstoned c i.seq then t.tombstone c i.seq else .ok t) = .ok s' := h
  have hsame : t.captureTombstoned c i.seq = s.captureTombstoned c i.seq := rfl
  have hmem : p ∈ t.prompts.rows → p ∈ s.prompts.rows ∨
      s.prompts.byIndex.get? (c, i.seq) = none ∧
        ∃ id, s.prompts.lastId < id ∧ p = promptRow now c i id := by
    intro hp
    rcases IndexedTable.mem_insertOrIgnore hp with hold | hnew
    · exact .inl hold
    · cases hfree : s.prompts.byIndex.get? (c, i.seq) with
      | none => exact .inr ⟨rfl, _, Int.lt_succ _, hnew⟩
      | some r =>
        -- the seq is taken, and the row that is there is the one that stays
        have hindex : p ∈ (s.prompts.insertOrIgnore (promptRow now c i)).byIndex.rows := hp
        rw [IndexedTable.byIndex_insertOrIgnore, Table.mem_rows, Table.get?_insertOrIgnore,
          hnew] at hindex
        have hr : s.prompts.byIndex.get? (promptRow now c i s.prompts.nextId).capture = some r := hfree
        rw [if_pos rfl, hr] at hindex
        refine .inl ?_
        rw [hnew, ← Option.some.inj hindex]
        exact (Table.get?_eq_some.mp hfree).1
  cases hlive : s.captureTombstoned c i.seq with
  | true =>
    rw [hsame, hlive, if_pos rfl] at hres
    obtain ⟨hpt, hnot⟩ := full_tombstone hres hp hfull
    rcases hmem hpt with hold | ⟨-, id, -, rfl⟩
    · exact .inl hold
    · exact absurd rfl (hnot rfl)
  | false =>
    rw [hsame, hlive, if_neg Bool.false_ne_true, Except.ok.injEq] at hres
    rw [← hres] at hp
    rcases hmem hp with hold | ⟨hfree, hnew⟩
    · exact .inl hold
    · exact .inr ⟨⟨hfree, hlive⟩, hnew⟩

theorem open_of_tombstone {q q' : ℤ} (h : s.tombstone c q' = .ok s') (hq : s'.Open c q) :
    s.Open c q := by
  unfold tombstone at h
  split_ifs at h
  cases h
  constructor
  · refine Table.get?_eq_none.mpr fun r hr hkey => ?_
    have hmem : (if r.chainId = c && r.seq = q' && !r.tombstoned then
        { r with text := some tombstoneText, redaction := "stub", tombstoned := true } else r) ∈
          (s.suppress c q').prompts.byIndex.rows := List.mem_map_of_mem hr
    refine Table.get?_eq_none.mp hq.free _ hmem ?_
    split_ifs
    · exact hkey
    · exact hkey
  · have hlive := hq.live
    unfold captureTombstoned at hlive ⊢
    rw [Bool.or_eq_false_iff] at hlive ⊢
    refine ⟨hlive.1, ?_⟩
    cases hm : (s.markers.get? (c, q)).isSome with
    | false => rfl
    | true =>
      have hmarked : (s.suppress c q').Marked c q := marked_suppress.mpr (.inr (isSome_markers.mp hm))
      exact absurd ((isSome_markers.mpr hmarked).symm.trans hlive.2) Bool.true_eq_false.mp

/-- A seq at which nothing is there after a prompt was not that prompt's. -/
theorem open_of_importPrompt {i : ForeignPromptInput} {q : ℤ}
    (h : importPrompt now c s i = .ok s') (hq : s'.Open c q) : s.Open c q ∧ i.seq ≠ q := by
  set t : ForeignStore := { s with prompts := s.prompts.insertOrIgnore (promptRow now c i) } with ht
  have hres : (if t.captureTombstoned c i.seq then t.tombstone c i.seq else .ok t) = .ok s' := h
  have hback : t.Open c q := by
    by_cases hlive : t.captureTombstoned c i.seq = true
    · rw [if_pos hlive] at hres
      exact open_of_tombstone hres hq
    · rw [if_neg hlive, Except.ok.injEq] at hres
      rwa [hres]
  have hfree : (s.prompts.insertOrIgnore (promptRow now c i)).byIndex.get? (c, q) = none := hback.free
  rw [IndexedTable.byIndex_insertOrIgnore, Table.get?_insertOrIgnore] at hfree
  split_ifs at hfree with hkey
  · cases hold : s.prompts.byIndex.get? (c, q) with
    | none => rw [hold] at hfree; cases hfree
    | some r => rw [hold] at hfree; cases hfree
  · rw [Option.or_none] at hfree
    exact ⟨⟨hfree, hback.live⟩, fun hseq => hkey (by rw [← hseq])⟩

/-- Of the prompts of a segment the first at a seq is the one that goes in. -/
theorem full_importPrompts {prompts : List ForeignPromptInput} {p : ForeignPromptRow}
    (h : prompts.foldlM (importPrompt now c) s = .ok s') (hp : p ∈ s'.prompts.rows)
    (hfull : p.redaction = "full") :
    p ∈ s.prompts.rows ∨ ∃ i, prompts.find? (fun j => j.seq = i.seq) = some i ∧ s.Open c i.seq ∧
      ∃ id, s.prompts.lastId < id ∧ p = promptRow now c i id := by
  induction prompts generalizing s with
  | nil =>
    cases h
    exact .inl hp
  | cons i prompts ih =>
    rw [List.foldlM_cons] at h
    obtain ⟨t, ht, h⟩ := bind_eq_ok.mp h
    rcases ih h with hmem | ⟨j, hj, hopen, id, hlater, hrow⟩
    · rcases full_importPrompt ht hmem hfull with hold | ⟨hopen, hrow⟩
      · exact .inl hold
      · exact .inr ⟨i, List.find?_cons_of_pos (decide_eq_true rfl), hopen, hrow⟩
    · obtain ⟨hopen, hne⟩ := open_of_importPrompt ht hopen
      refine .inr ⟨j, ?_, hopen, id, (lastId_importPrompt ht).trans_lt hlater, hrow⟩
      rw [List.find?_cons_of_neg (by simpa using hne)]
      exact hj

theorem full_importNote {n : ForeignNoteInput} {p : ForeignPromptRow}
    (h : importNote c s n = .ok s') (hp : p ∈ s'.prompts.rows) (hfull : p.redaction = "full") :
    p ∈ s.prompts.rows := by
  unfold importNote at h
  cases hseq : n.seq with
  | none => rw [hseq] at h; cases h
  | some seq =>
    simp only [hseq] at h
    split_ifs at h
    · rw [← (s.captureTables_writeNote _).2.1]
      exact (full_tombstone h hp hfull).1
    · cases h
      rw [← (s.captureTables_writeNote _).2.1]
      exact hp

theorem full_importNotes {notes : List ForeignNoteInput} {p : ForeignPromptRow}
    (h : notes.foldlM (importNote c) s = .ok s') (hp : p ∈ s'.prompts.rows)
    (hfull : p.redaction = "full") : p ∈ s.prompts.rows := by
  induction notes generalizing s with
  | nil =>
    cases h
    exact hp
  | cons n notes ih =>
    rw [List.foldlM_cons] at h
    obtain ⟨t, ht, h⟩ := bind_eq_ok.mp h
    exact full_importNote ht (ih h) hfull

/-- A body that is in full after the redactions is not one of theirs. -/
theorem full_importRedactions {redactions : List ForeignRedactionInput} {p : ForeignPromptRow}
    (h : redactions.foldlM (importRedaction now c) s = .ok s') (hp : p ∈ s'.prompts.rows)
    (hfull : p.redaction = "full") :
    p ∈ s.prompts.rows ∧ (p.tombstoned = false → p.chainId = c →
      ∀ r ∈ redactions, r.targetSeq ≠ p.seq) := by
  induction redactions generalizing s with
  | nil =>
    cases h
    exact ⟨hp, fun _ _ _ hr => absurd hr List.not_mem_nil⟩
  | cons r redactions ih =>
    rw [List.foldlM_cons] at h
    obtain ⟨t, ht, h⟩ := bind_eq_ok.mp h
    obtain ⟨hpt, hrest⟩ := ih h
    unfold importRedaction at ht
    dsimp only at ht
    split_ifs at ht with hchain
    rw [not_not] at hchain
    obtain ⟨hps, hnot⟩ := full_tombstone ht hpt hfull
    refine ⟨hps, fun hlive hc r' hr' => ?_⟩
    rcases List.mem_cons.mp hr' with rfl | hr'
    · exact fun hseq => hnot hlive (Prod.ext (hc.trans hchain.symm) hseq.symm)
    · exact hrest hlive hc r' hr'

/-- The body of an input goes in, in full: it is the first of its seq, at which
nothing is here, and the seq is not tombstoned, nor by the envelope itself. -/
structure TakesBody (s : ForeignStore) (env : Envelope) (projects : List String)
    (i : ForeignPromptInput) : Prop where
  first : (env.promptInputs projects).find? (fun j => j.seq = i.seq) = some i
  full : i.redaction = "full"
  text : i.text.isSome = true
  free : s.Open env.header.chainId i.seq
  kept : ∀ r ∈ env.redactionInputs, r.targetSeq ≠ i.seq

/-- A body in full after a segment was here before or goes in with it. -/
theorem full_importRows {env : Envelope} {projects : List String} {start : ℤ × ℤ}
    {p : ForeignPromptRow} (h : s.importRows now env projects start = .ok s')
    (hp : p ∈ s'.prompts.rows) (hfull : p.redaction = "full") (htext : p.text.isSome = true) :
    p ∈ s.prompts.rows ∨ ∃ i, s.TakesBody env projects i ∧
      ∃ id, s.prompts.lastId < id ∧ p = promptRow now env.header.chainId i id := by
  unfold ForeignStore.importRows at h
  cases hlast : env.events.getLast? with
  | none => rw [hlast] at h; cases h
  | some last =>
    simp only [hlast] at h
    cases hrows : s.importForeignSegment now (env.chainRow now start.1 last) (env.newEvents start.2)
        (env.promptInputs projects) env.noteInputs env.payload.principals env.redactionInputs with
    | error detail => simp only [hrows, reduceCtorEq] at h
    | ok t =>
      simp only [hrows, Except.ok.injEq] at h
      subst h
      unfold importForeignSegment at hrows
      dsimp only at hrows
      obtain ⟨s₁, h₁, hrows⟩ := bind_eq_ok.mp hrows
      obtain ⟨s₂, h₂, hrows⟩ := bind_eq_ok.mp hrows
      obtain ⟨s₃, h₃, hrows⟩ := bind_eq_ok.mp hrows
      cases hrows
      set s₀ := (env.newEvents start.2).foldl (importEvent env.header.chainId) s with hs₀
      have hcaptures : (s₀.prompts, s₀.redactions, s₀.markers) =
          (s.prompts, s.redactions, s.markers) :=
        foldl_keeps (f := fun t : ForeignStore => (t.prompts, t.redactions, t.markers))
          (g := importEvent env.header.chainId) fun _ _ => rfl
      have hcards : (env.payload.principals.foldl (importPrincipal env.header.chainId)
          s₂).prompts = s₂.prompts := foldl_keeps (f := fun t : ForeignStore => t.prompts) fun _ _ => rfl
      simp only [Prod.mk.injEq] at hcaptures
      obtain ⟨hprompts, hredactions, hmarkers⟩ := hcaptures
      obtain ⟨hp₂, hkept⟩ := full_importRedactions h₃ hp hfull
      have hp₂ : p ∈ s₂.prompts.rows := hcards ▸ hp₂
      rcases full_importPrompts h₁ (full_importNotes h₂ hp₂ hfull) hfull with
        hold | ⟨i, hi, hopen, id, hlater, rfl⟩
      · exact .inl (hprompts ▸ hold)
      · refine .inr ⟨i, ⟨hi, hfull, htext, ?_, hkept rfl rfl⟩, id, hprompts ▸ hlater, rfl⟩
        refine ⟨hprompts ▸ hopen.free, ?_⟩
        have hlive : s₀.captureTombstoned env.header.chainId i.seq = false := hopen.live
        rwa [captureTombstoned, hredactions, hmarkers] at hlive

/-! ### The event of a row -/

/-- The text of a body that verifies in full has the body's hash, and so does
the first event of its prompt. -/
theorem body_of_verify {w : Wire} {env : Envelope} {v : Verified} {projects : List String}
    {i : ForeignPromptInput} (hv : w.verify env = .ok v) (hi : i ∈ env.promptInputs projects)
    (hfull : i.redaction = "full") :
    (∀ text, i.text = some text → w.sha256 text = i.bodyHash) ∧
      ∃ a, (env.promptEvents i.promptId).head? = some a ∧ a.payloadHash = i.bodyHash ∧
        ∃ b, (env.promptEvents i.promptId).getLast? = some b ∧ b.seq = i.seq := by
  obtain ⟨p, hp, hrow⟩ := List.mem_filterMap.mp hi
  obtain ⟨seq, hseq, hrow⟩ := Option.map_eq_some_iff.mp hrow
  obtain ⟨b, hb, rfl⟩ := Option.map_eq_some_iff.mp hseq
  have hbody := List.findSome?_eq_none_iff.mp (Wire.checks_of_verify hv).2.2.2 p hp
  unfold Wire.verifyBody at hbody
  have hhead : (env.promptEvents p.id).head? =
      env.events.find? fun e => e.kind = "prompt" && e.promptId = some p.id := List.head?_filter
  have hfirst : ∃ a, (env.promptEvents p.id).head? = some a := by
    refine Option.ne_none_iff_exists'.mp fun hnone => ?_
    rw [List.head?_eq_none_iff] at hnone
    have hlast : (env.promptEvents p.id).getLast? = some b := hb
    rw [hnone] at hlast
    cases hlast
  obtain ⟨a, ha⟩ := hfirst
  dsimp only at hrow
  split_ifs at hrow
  · subst hrow
    have hname : p.redaction = .full := by
      cases hr : p.redaction with
      | full => rfl
      | gist | stub => simp [hr, Redaction.name] at hfull
    split_ifs at hbody with htext
    rw [← hhead, ha] at hbody
    dsimp only at hbody
    split_ifs at hbody with hhash
    refine ⟨fun text ht => ?_, a, ha, not_not.mp hhash, b, hb, rfl⟩
    by_contra hne
    refine htext ?_
    have ht' : p.text = some text := ht
    simpa [hname, ht'] using hne
  · subst hrow
    simp at hfull

/-- The events that are held recompute. -/
def Recomputes (w : Wire) (s : ForeignStore) (c : String) : Prop :=
  ∀ e ∈ s.held c, (rowShape w.sha256).good e = true

/-- What the chain of an envelope holds after its segment are the events of the
segment from seq 1 on. -/
theorem held_of_segment {w : Wire} {env : Envelope} {projects : List String} {start : ℤ × ℤ}
    {e : LedgerEventRow} (hsha : Function.Injective w.sha256) (hnum : s.Numbered env.header.chainId)
    (hgood : s.Recomputes w env.header.chainId) (hseg : env.SegmentOk w)
    (hcont : s.continuity now env = .ok start)
    (hs : s.importRows now env projects start = .ok s') (he : e ∈ env.events) (hpos : 1 ≤ e.seq) :
    e ∈ s'.held env.header.chainId := by
  obtain ⟨hstart, -, -⟩ := hnum.fresh hseg hcont
  rw [(hnum.importRows hseg hcont hs).2]
  by_cases hnew : start.2 ≤ e.seq
  · exact List.mem_append_right _ (List.mem_filter.mpr ⟨he, decide_eq_true hnew⟩)
  · -- the event was held before, and is the same: nothing is rewritten
    have hmem : e.seq ∈ (s.held env.header.chainId).map LedgerEventRow.seq := by
      rw [hnum.seqs, mem_seqsFrom]
      omega
    obtain ⟨l, hl, hseq⟩ := List.mem_map.mp hmem
    obtain ⟨first, next⟩ := start
    rcases continuity_ok hcont with ⟨hnone, -, -⟩ | ⟨ch, hch, -, -, hrew, -, hnext⟩
    · rw [hnum.none hnone] at hl
      cases hl
    · have hhash := entryHash_of_rewritten hrew he (by dsimp only at hnew; omega) hl hseq
      have hsame := entry_inj w.sha256 hsha (hgood l hl)
        (((chain_iff _ _ _).mp hseg.chain).2 e he) hhash
      exact List.mem_append_left _ (hsame ▸ hl)

/-! ### An import -/

theorem prompts_importRest (opts : ImportOptions) (env : Envelope) (startSeq : ℤ) :
    (s.importRest now opts env startSeq).prompts = s.prompts := by
  have hfold : ∀ t : ForeignStore, (env.payload.acks.foldl (importAck now env.header.chainId)
      (env.payload.vectors.foldl (importVector now opts.localModel env) t)).prompts = t.prompts := by
    intro t
    rw [foldl_keeps (f := fun t : ForeignStore => t.prompts) (g := importAck now env.header.chainId)]
    · refine foldl_keeps (f := fun t : ForeignStore => t.prompts) fun s v => ?_
      unfold importVector
      split
      · rfl
      · split_ifs
        · rfl
        · split <;> rfl
    · intro s a
      unfold importAck
      dsimp only
      split_ifs <;> rfl
  unfold importRest
  dsimp only
  split_ifs
  · exact hfold s
  · exact hfold s

/-- What the imports keep: each chain is held from seq 1 on without a gap, its
events recompute, and the bodies are bound to them. -/
structure Kept (w : Wire) (s : ForeignStore) : Prop where
  numbered : ∀ c, s.Numbered c
  recomputes : ∀ c, s.Recomputes w c
  bound : s.BodiesBound w

/-- The bodies that an import takes in full are of prompts with one hash. -/
def Binds (w : Wire) (s : ForeignStore) (d : Delivery) : Prop :=
  ∀ start, w.Admits d.now d.opts s d.env start →
    ∀ i, s.TakesBody d.env (s.projects d.env) i → d.env.Single i.promptId

/-- Rows stay bound while events are added. -/
theorem bound_of_held {w : Wire} {p : ForeignPromptRow} {text : String}
    (hgrow : ∀ c, ∀ e ∈ s.held c, e ∈ s'.held c)
    (h : w.sha256 text = p.bodyHash ∧
      ∃ r, s.events.get? (p.chainId, p.seq) = some r ∧ r.event.payloadHash = p.bodyHash) :
    w.sha256 text = p.bodyHash ∧
      ∃ r, s'.events.get? (p.chainId, p.seq) = some r ∧ r.event.payloadHash = p.bodyHash := by
  obtain ⟨htext, ⟨c, e⟩, hget, hhash⟩ := h
  obtain ⟨rfl, hseq⟩ : c = p.chainId ∧ e.seq = p.seq := by
    simpa using Table.key_of_get? hget
  rw [← hseq] at hget ⊢
  exact ⟨htext, ⟨p.chainId, e⟩, mem_held.mp (hgrow _ e (mem_held.mpr hget)), hhash⟩

/-- The segment of an import keeps the rows bound. -/
theorem Kept.importRows {w : Wire} {env : Envelope} {v : Verified} {start : ℤ × ℤ}
    {projects : List String} (hsha : Function.Injective w.sha256) (h : s.Kept w)
    (hv : w.verify env = .ok v) (hcont : s.continuity now env = .ok start)
    (hone : ∀ i, s.TakesBody env projects i → env.Single i.promptId)
    (hs : s.importRows now env projects start = .ok s') : s'.Kept w := by
  have hseg := Envelope.segment_of_verify hv
  have hnum := h.numbered env.header.chainId
  obtain ⟨hnum', -⟩ := hnum.importRows hseg hcont hs
  obtain ⟨hstart, hnew, -⟩ := hnum.fresh hseg hcont
  obtain ⟨last, -, hchains, hheld⟩ := importRows_held hstart hnum.seqs hnew hs
  refine ⟨fun c => ?_, fun c e he => ?_, fun p hp hfull text htext => ?_⟩
  · by_cases hc : env.header.chainId = c
    · exact hc ▸ hnum'
    · have hsame : s'.held c = s.held c := by rw [hheld, if_neg hc, List.append_nil]
      have hget : s'.chains.get? c = s.chains.get? c := by
        have hid : (advanced (s.chains.get? env.header.chainId)
            (env.chainRow now start.1 last)).chainId = env.header.chainId :=
          advanced_chainId fun o ho => Table.key_of_get? ho
        rw [hchains, Table.get?_upsert, if_neg (fun heq => hc (hid.symm.trans heq))]
      have hold := h.numbered c
      exact ⟨by rw [hsame]; exact hold.seqs, fun hnone => by rw [hsame]; exact hold.none (hget ▸ hnone),
        fun ch hch => by rw [hsame]; exact hold.some ch (hget ▸ hch)⟩
  · rw [hheld] at he
    rcases List.mem_append.mp he with he | he
    · exact h.recomputes c e he
    · split_ifs at he
      · exact ((chain_iff _ _ _).mp hseg.chain).2 e (List.mem_filter.mp he).1
      · cases he
  · rcases full_importRows hs hp hfull (by rw [htext]; rfl) with hold | ⟨i, hi, id, -, rfl⟩
    · refine bound_of_held (fun c e he => ?_) (h.bound p hold hfull text htext)
      rw [hheld]
      exact List.mem_append_left _ he
    · obtain ⟨hbody, a, ha, hhash, b, hb, hseq⟩ :=
        body_of_verify hv (List.mem_of_find?_eq_some hi.first) hi.full
      obtain ⟨hsame, hpos⟩ := hone i hi a ha b hb
      have hmem : b ∈ env.events := (List.mem_filter.mp (List.mem_of_getLast? hb)).1
      have hin := held_of_segment hsha hnum (h.recomputes _) hseg hcont hs hmem hpos
      refine ⟨hbody text htext, ⟨env.header.chainId, b⟩, ?_, hsame.symm.trans hhash⟩
      have hget := mem_held.mp hin
      rwa [hseq] at hget

/-- A fork mark leaves the seqs and the heads. -/
theorem Numbered.marked {chainId detail : String} (h : s.Numbered c) :
    (s.markForeignForked chainId detail).Numbered c := by
  refine ⟨h.seqs, fun hnone => h.none ?_, fun ch hch => ?_⟩
  · unfold markForeignForked at hnone
    rwa [Table.get?_update, Option.map_eq_none_iff] at hnone
  · unfold markForeignForked at hch
    rw [Table.get?_update, Option.mem_def, Option.map_eq_some_iff] at hch
    obtain ⟨o, ho, rfl⟩ := hch
    have hhead := h.some o ho
    split_ifs
    · exact hhead
    · exact hhead

/-- **One import keeps the rows bound.** -/
theorem Kept.import {w : Wire} {d : Delivery} (hsha : Function.Injective w.sha256) (h : s.Kept w)
    (hone : s.Binds w d) : (w.importEnvelope d.now d.opts s d.env).1.Kept w := by
  rcases Wire.importEnvelope_cases w d.now d.opts s d.env with
    ⟨start, trust, t, r, hadmits, hrows, heq⟩ | ⟨⟨trust, chains, hmarked, heq⟩, -⟩
  · obtain ⟨v, hv⟩ := ok_of_isOk hadmits.verified
    have htrusted : { s with trust := trust }.Kept w :=
      ⟨fun c => (h.numbered c).of_tables rfl, h.recomputes, h.bound⟩
    have hkept := htrusted.importRows hsha hv hadmits.continuity
      (fun i hi => hone start hadmits i ⟨hi.first, hi.full, hi.text, ⟨hi.free.free, hi.free.live⟩,
        hi.kept⟩) hrows
    have hchain : (t.importRest d.now d.opts d.env start.2).chainTables = t.chainTables :=
      chainTables_importRest d.opts d.env start.2
    rw [heq]
    refine ⟨fun c => (hkept.numbered c).of_tables hchain, fun c e he => ?_, fun p hp => ?_⟩
    · rw [held_of_tables hchain] at he
      exact hkept.recomputes c e he
    · rw [prompts_importRest] at hp
      have hevents : (t.importRest d.now d.opts d.env start.2).events = t.events :=
        congrArg Prod.snd hchain
      rw [hevents]
      exact hkept.bound p hp
  · rw [heq]
    refine ⟨fun c => ?_, h.recomputes, h.bound⟩
    rcases hmarked with rfl | ⟨detail, rfl⟩
    · exact (h.numbered c).of_tables rfl
    · have hmark : (s.markForeignForked d.env.header.chainId detail).Numbered c := (h.numbered c).marked
      exact hmark.of_tables rfl

/-! ### Many imports -/

/-- Imports one after another, whether they go through or not. -/
def importEach (w : Wire) (s : ForeignStore) (ds : List Delivery) : ForeignStore :=
  ds.foldl (fun s d => (w.importEnvelope d.now d.opts s d.env).1) s

/-- Each import binds what it takes. -/
def EachBinds (w : Wire) : ForeignStore → List Delivery → Prop
  | _, [] => True
  | s, d :: ds => s.Binds w d ∧ EachBinds w (w.importEnvelope d.now d.opts s d.env).1 ds

theorem Kept.importEach {w : Wire} {ds : List Delivery} (hsha : Function.Injective w.sha256)
    (h : s.Kept w) (hone : s.EachBinds w ds) : (s.importEach w ds).Kept w := by
  induction ds generalizing s with
  | nil => exact h
  | cons d ds ih => exact ih (h.import hsha hone.1) hone.2

theorem kept_uncaptured (w : Wire) (t : ForeignStore) : t.uncaptured.Kept w where
  numbered _ := ⟨rfl, fun _ => rfl, fun _ hch => by cases hch⟩
  recomputes _ _ he := by cases he
  bound _ hp := by cases hp

end ForeignStore

open ForeignStore in
/-- **Bodies are bound to their events.** After any imports in which each body
that goes in with its text is of a prompt whose first and last event carry the
same hash, the last at a seq of a chain: a text in full hashes to its row's
body hash, which the event at the row's chain and seq carries. -/
theorem bodies_bound (w : Wire) (t : ForeignStore) (ds : List Delivery)
    (hsha : Function.Injective w.sha256) (hone : t.uncaptured.EachBinds w ds) :
    (t.uncaptured.importEach w ds).BodiesBound w :=
  ((kept_uncaptured w t).importEach hsha hone).bound

open ForeignStore in
/-- A prompt with one event. -/
theorem bodies_bound_body : (ForeignStore.empty.uncaptured.importEach .plain
    [⟨7, ⟨true, false, none⟩, bodySegment⟩]).BodiesBound .plain := by
  refine bodies_bound .plain .empty _ (fun _ _ h => h) ⟨fun start _ i hi => ?_, trivial⟩
  have hmem : i ∈ bodySegment.promptInputs _ := List.mem_of_find?_eq_some hi.first
  have hinputs : ∀ j ∈ bodySegment.promptInputs (ForeignStore.empty.uncaptured.projects bodySegment),
      j.promptId = 1 := by decide +kernel
  have hevents : ∀ a ∈ (bodySegment.promptEvents 1).head?,
      ∀ b ∈ (bodySegment.promptEvents 1).getLast?, a.payloadHash = b.payloadHash ∧ 1 ≤ b.seq := by
    decide +kernel
  rw [hinputs i hmem]
  exact hevents

/-- Two events of one prompt, the second with another hash. -/
def twiceEvents : List LedgerEventRow :=
  let first := Wire.plainEvent genesisPrev 1 "prompt" (some 1) none none "body"
  [first, Wire.plainEvent first.entryHash 2 "prompt" (some 1) none none "other"]

/-- They and the body of the first. -/
def twiceSegment : Envelope :=
  Wire.plainSigned "a" { Wire.plainPayload twiceEvents with
    prompts := [⟨1, "user", "body", .full, some "body", none⟩] }

theorem events_twice : twiceSegment.events = twiceEvents :=
  List.mergeSort_of_pairwise (by decide +kernel)

/-- The text goes with the first event. -/
theorem verifyBody_twice :
    twiceSegment.payload.prompts.findSome? (Wire.plain.verifyBody twiceSegment) = none := by
  refine List.findSome?_eq_none_iff.mpr fun p hp => ?_
  obtain rfl := List.mem_singleton.mp hp
  unfold Wire.verifyBody
  rw [events_twice]
  decide +kernel

open ForeignStore in
/-- The row goes to the second event, which carries another hash. -/
theorem twiceSegment_not_bound : ¬ ∀ (w : Wire) (t : ForeignStore) (ds : List Delivery),
    Function.Injective w.sha256 → (t.uncaptured.importEach w ds).BodiesBound w := by
  intro h
  have hbound := h .plain .empty [⟨7, ⟨true, false, none⟩, twiceSegment⟩] fun _ _ h => h
  have hrow : ∃ p ∈ (Wire.plain.importEnvelope 7 ⟨true, false, none⟩ ForeignStore.empty.uncaptured
      twiceSegment).1.prompts.rows, p.redaction = "full" ∧ p.text = some "body" ∧
        ((Wire.plain.importEnvelope 7 ⟨true, false, none⟩ ForeignStore.empty.uncaptured
          twiceSegment).1.events.get? (p.chainId, p.seq)).any
            (fun r => r.event.payloadHash = p.bodyHash) = false := by
    simp only [Wire.importEnvelope, Wire.verify, Wire.verifySegment, Wire.verifyBindEvents,
      Wire.verifyRedactionEvents, verifyBody_twice, Wire.importTrusted, ForeignStore.importRows,
      Envelope.newEvents, Envelope.promptInputs, Envelope.promptSeq, Envelope.noteInputs,
      Envelope.redactionInputs, ForeignStore.importRest, events_twice]
    decide +kernel
  obtain ⟨p, hp, hfull, htext, hother⟩ := hrow
  obtain ⟨-, r, hget, hhash⟩ := hbound p hp hfull "body" htext
  have hevent : (Wire.plain.importEnvelope 7 ⟨true, false, none⟩ ForeignStore.empty.uncaptured
      twiceSegment).1.events.get? (p.chainId, p.seq) = some r := hget
  rw [hevent, Option.any_some, hhash, decide_eq_true rfl] at hother
  cases hother

end PolisMemory
