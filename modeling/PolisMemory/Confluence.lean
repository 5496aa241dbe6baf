/-
# Imports in any order

The segment of an envelope adds what it brings to what was received of its
chain (`Imported.importRows`), so that two orders of the same envelopes, with
any of them more than once, end with the same captures
(`imports_confluent`), where what they bring agrees. A prompt that comes at two
redaction levels does not agree: the row that is there stays, so that a stub
keeps out the body that comes later.

Key definitions: `Delivery`, `ForeignStore.importAll`,
`ForeignStore.SameCaptures`.
Key theorems: `Imported.importRows`, `imports_confluent`.
-/
import PolisMemory.Received

namespace PolisMemory

open Tables
open Store (bind_eq_ok)

namespace ForeignStore

variable {s s' : ForeignStore} {c : String} {now : ℤ} {x E : Received}

/-! ### The rows of an envelope -/

theorem Imported.importPrompts {y : Received} {prompts : List ForeignPromptInput}
    (h : Imported c y none s) (happart : ∀ p ∈ prompts, ∀ n ∈ y.notes, n.seq ≠ some p.seq)
    (hs : prompts.foldlM (ForeignStore.importPrompt now c) s = .ok s') :
    Imported c { y with prompts := y.prompts ++ prompts } none s' := by
  induction prompts generalizing y s with
  | nil =>
    cases hs
    rwa [List.append_nil]
  | cons p prompts ih =>
    rw [List.foldlM_cons] at hs
    obtain ⟨t, ht, hs⟩ := bind_eq_ok.mp hs
    have hnext := h.importPrompt (happart p List.mem_cons_self) ht
    have hrest := ih hnext (fun p' hp' => happart p' (List.mem_cons_of_mem p hp')) hs
    rwa [List.append_assoc] at hrest

theorem Imported.importNotes {y : Received} {notes : List ForeignNoteInput}
    (h : Imported c y none s) (hE : E.Agree) (hsub : y.Sub E) (hsrc : y.Sourced)
    (hnotes : ∀ n ∈ notes, n ∈ E.notes ∧
      ∃ q, n.seq = some q ∧ (0 < q → ∃ e ∈ y.events, e.seq = q))
    (hs : notes.foldlM (ForeignStore.importNote c) s = .ok s') :
    Imported c { y with notes := y.notes ++ notes } none s' := by
  induction notes generalizing y s with
  | nil =>
    cases hs
    rwa [List.append_nil]
  | cons n notes ih =>
    rw [List.foldlM_cons] at hs
    obtain ⟨t, ht, hs⟩ := bind_eq_ok.mp hs
    obtain ⟨hn, hev⟩ := hnotes n List.mem_cons_self
    have hnext := h.importNote hE hsub hsrc hn ht
    have hsub' : (y.note n).Sub E := by
      refine ⟨hsub.events, hsub.prompts, fun m hm => ?_, hsub.redactions⟩
      rcases Received.mem_note.mp hm with hm | rfl
      · exact hsub.notes m hm
      · exact hn
    have hsrc' : (y.note n).Sourced := by
      refine ⟨fun m hm => ?_, hsrc.redaction⟩
      rcases Received.mem_note.mp hm with hm | rfl
      · exact hsrc.note m hm
      · exact hev
    have hrest := ih hnext hsub' hsrc' (fun m hm => hnotes m (List.mem_cons_of_mem n hm)) hs
    simp only [Received.note, List.append_assoc, List.singleton_append] at hrest
    exact hrest

theorem Imported.importRedactions {y : Received} {redactions : List ForeignRedactionInput}
    (h : Imported c y none s) (hE : E.Agree) (hsub : y.Sub E) (hsrc : y.Sourced)
    (hredactions : ∀ r ∈ redactions, r ∈ E.redactions ∧
      (0 < r.eventSeq → ∃ e ∈ y.events, e.seq = r.eventSeq))
    (hs : redactions.foldlM (ForeignStore.importRedaction now c) s = .ok s') :
    Imported c { y with redactions := y.redactions ++ redactions } none s' := by
  induction redactions generalizing y s with
  | nil =>
    cases hs
    rwa [List.append_nil]
  | cons r redactions ih =>
    rw [List.foldlM_cons] at hs
    obtain ⟨t, ht, hs⟩ := bind_eq_ok.mp hs
    obtain ⟨hr, hev⟩ := hredactions r List.mem_cons_self
    have hnext := h.importRedaction hE hsub hsrc hr ht
    have hsub' : (y.redaction r).Sub E := by
      refine ⟨hsub.events, hsub.prompts, hsub.notes, fun i hi => ?_⟩
      rcases List.mem_append.mp hi with hi | hi
      · exact hsub.redactions i hi
      · exact List.mem_singleton.mp hi ▸ hr
    have hsrc' : (y.redaction r).Sourced := by
      refine ⟨hsrc.note, fun i hi => ?_⟩
      rcases List.mem_append.mp hi with hi | hi
      · exact hsrc.redaction i hi
      · exact List.mem_singleton.mp hi ▸ hev
    have hrest := ih hnext hsub' hsrc' (fun i hi => hredactions i (List.mem_cons_of_mem r hi)) hs
    simp only [Received.redaction, List.append_assoc, List.singleton_append] at hrest
    exact hrest

/-- The events that are held are the seqs from 1 to the head. -/
structure Numbered (s : ForeignStore) (c : String) : Prop where
  seqs : (s.held c).map LedgerEventRow.seq = seqsFrom 1 (s.held c).length
  none : s.chains.get? c = none → s.held c = []
  some : ∀ ch ∈ s.chains.get? c, ((s.held c).length : ℤ) = ch.headSeq

section

variable {w : Wire} {env : Envelope} {start : ℤ × ℤ} {projects : List String}

/-- What continuity lets in follows what is held. -/
theorem Numbered.fresh (h : s.Numbered env.header.chainId) (hseg : env.SegmentOk w)
    (hcont : s.continuity now env = .ok start) :
    start.2 = (s.held env.header.chainId).length + 1 ∧
      (env.newEvents start.2).map LedgerEventRow.seq =
        seqsFrom start.2 (env.newEvents start.2).length ∧
      env.header.segment.fromSeq ≤ start.2 := by
  obtain ⟨first, start⟩ := start
  rcases continuity_ok hcont with ⟨hnone, hfrom, rfl⟩ | ⟨ch, hch, -, hfrom, -, -, rfl⟩
  · have hsplits := splits_of_segmentOk (n := 0) hseg (by omega)
    refine ⟨?_, hsplits.seqs, by omega⟩
    rw [h.none hnone]
    rfl
  · exact ⟨by rw [h.some ch hch], (splits_of_segmentOk hseg hfrom).seqs, hfrom⟩

/-- The seqs stay gap-free. -/
theorem Numbered.importRows (h : s.Numbered env.header.chainId) (hseg : env.SegmentOk w)
    (hcont : s.continuity now env = .ok start)
    (hs : s.importRows now env projects start = .ok s') :
    s'.Numbered env.header.chainId ∧
      s'.held env.header.chainId = s.held env.header.chainId ++ env.newEvents start.2 := by
  obtain ⟨hstart, hnew, hfrom⟩ := h.fresh hseg hcont
  obtain ⟨last, hlast, hchains, hheld⟩ := importRows_held hstart h.seqs hnew hs
  have hheld' := hheld env.header.chainId
  rw [if_pos rfl] at hheld'
  have hchain : s'.chains.get? env.header.chainId =
      Option.some (advanced (s.chains.get? env.header.chainId) (env.chainRow now start.1 last)) := by
    have hid : (advanced (s.chains.get? env.header.chainId)
        (env.chainRow now start.1 last)).chainId = env.header.chainId :=
      advanced_chainId fun o ho => Table.key_of_get? ho
    rw [hchains, Table.get?_upsert, if_pos hid]
  refine ⟨⟨?_, fun hnone => ?_, fun ch hch => ?_⟩, hheld'⟩
  · rw [hheld', List.map_append, List.length_append, seqsFrom_append, ← h.seqs, hnew, hstart,
      add_comm (1 : ℤ)]
  · rw [hchain] at hnone
    cases hnone
  · rw [hchain, Option.mem_some] at hch
    rw [← hch, hheld', List.length_append]
    push_cast
    by_cases hne : env.newEvents start.2 = []
    · -- nothing new: some row is there, and its head is no earlier than the segment's end
      have hle : last.seq < start.2 := by
        by_contra hge
        have hmem : last ∈ env.newEvents start.2 :=
          List.mem_filter.mpr ⟨List.mem_of_getLast? hlast, decide_eq_true (not_lt.mp hge)⟩
        rw [hne] at hmem
        cases hmem
      cases hold : s.chains.get? env.header.chainId with
      | none =>
        have hone : start.2 = 1 := by
          rw [hstart, h.none hold]
          rfl
        have hmem : last.seq ∈ seqsFrom env.header.segment.fromSeq env.events.length :=
          hseg.seqs ▸ List.mem_map_of_mem (List.mem_of_getLast? hlast)
        have hlow := (mem_seqsFrom.mp hmem).1
        have hcont' : s.continuity now env = .ok (start.1, start.2) := hcont
        rcases continuity_ok hcont' with ⟨-, hfrom1, -⟩ | ⟨ch', hch', -⟩
        · omega
        · rw [hold] at hch'
          cases hch'
      | some o =>
        have hhead := h.some o hold
        rw [hne]
        change _ = max o.headSeq last.seq
        rw [max_eq_left (by omega), List.length_nil]
        omega
    · have hlast' : (env.newEvents start.2).getLast? = Option.some last := by
        rw [← getLast?_of_newEvents hseg hfrom hne, hlast]
      have hseq := seq_of_getLast? hnew hlast'
      have hpos : 0 < (env.newEvents start.2).length := List.length_pos_iff.mpr hne
      cases hold : s.chains.get? env.header.chainId with
      | none =>
        change _ = last.seq
        omega
      | some o =>
        have hhead := h.some o hold
        change _ = max o.headSeq last.seq
        rw [max_eq_right (by omega)]
        omega

end

/-- **The segment of an envelope adds what it brings.** -/
theorem Imported.importRows {w : Wire} {env : Envelope} {start : ℤ × ℤ} {projects : List String}
    (h : Imported env.header.chainId x none s) (hE : E.Agree)
    (hsub : (x.append (env.received projects)).Sub E) (hsrc : x.Sourced)
    (hnum : s.Numbered env.header.chainId) (hseg : env.SegmentOk w)
    (hcont : s.continuity now env = .ok start)
    (hs : s.importRows now env projects start = .ok s') :
    Imported env.header.chainId (x.append (env.received projects)) none s' := by
  obtain ⟨hstart, hnew, hfrom⟩ := hnum.fresh hseg hcont
  have hlater : 1 ≤ start.2 := by
    rw [hstart]
    omega
  have hnewE : ∀ e ∈ env.newEvents 1, e ∈ E.events := fun e he =>
    hsub.events e (List.mem_append_right _ he)
  have hxE : ∀ e ∈ x.events, e ∈ E.events := fun e he => hsub.events e (List.mem_append_left _ he)
  -- an event that is not new is one that is held
  have hheld : ∀ e ∈ env.newEvents 1, e.seq < start.2 → e ∈ x.events := by
    intro e he hlt
    have hge : 1 ≤ e.seq := of_decide_eq_true (List.mem_filter.mp he).2
    have hmem : e.seq ∈ (s.held env.header.chainId).map LedgerEventRow.seq := by
      rw [hnum.seqs, mem_seqsFrom]
      omega
    obtain ⟨l, hl, hseq⟩ := List.mem_map.mp hmem
    have hlx := (h.events l).mp hl
    rwa [hE.event e (hnewE e he) l (hxE l hlx) hseq.symm]
  have hpast : ∀ e ∈ env.newEvents 1, x.redacted e.seq → e ∈ x.events := by
    rintro e he ⟨r, hr, hq⟩
    have hge : 1 ≤ e.seq := of_decide_eq_true (List.mem_filter.mp he).2
    have hle := hE.past r (hsub.redactions r (List.mem_append_left _ hr))
    obtain ⟨l, hl, hseq⟩ := hsrc.redaction r hr (by omega)
    have hmem : l.seq ∈ (s.held env.header.chainId).map LedgerEventRow.seq :=
      List.mem_map_of_mem ((h.events l).mpr hl)
    rw [hnum.seqs, mem_seqsFrom] at hmem
    exact hheld e he (by omega)
  unfold ForeignStore.importRows at hs
  cases hlast : env.events.getLast? with
  | none => rw [hlast] at hs; cases hs
  | some last =>
    simp only [hlast] at hs
    cases hrows : s.importForeignSegment now (env.chainRow now start.1 last) (env.newEvents start.2)
        (env.promptInputs projects) env.noteInputs env.payload.principals env.redactionInputs with
    | error detail => simp only [hrows, reduceCtorEq] at hs
    | ok t =>
      simp only [hrows, Except.ok.injEq] at hs
      subst hs
      unfold importForeignSegment at hrows
      dsimp only at hrows
      obtain ⟨s₁, h₁, hrows⟩ := bind_eq_ok.mp hrows
      obtain ⟨s₂, h₂, hrows⟩ := bind_eq_ok.mp hrows
      obtain ⟨s₃, h₃, hrows⟩ := bind_eq_ok.mp hrows
      cases hrows
      set s₀ := (env.newEvents start.2).foldl (importEvent env.header.chainId) s with hs₀
      have hnodup : ((env.newEvents start.2).map LedgerEventRow.seq).Nodup :=
        hnew ▸ seqsFrom_nodup _ _
      have hfree : ∀ e ∈ env.newEvents start.2,
          s.events.get? (env.header.chainId, e.seq) = none := by
        intro e he
        refine get?_events_eq_none fun l hl => ?_
        have hlmem : l.seq ∈ (s.held env.header.chainId).map LedgerEventRow.seq :=
          List.mem_map_of_mem hl
        rw [hnum.seqs, mem_seqsFrom] at hlmem
        have hle : start.2 ≤ e.seq := of_decide_eq_true (List.mem_filter.mp he).2
        omega
      have hevents : Imported env.header.chainId
          { x with events := x.events ++ env.newEvents 1 } none s₀ := by
        refine h.events_append (foldl_keeps (f := fun t : ForeignStore => t.captureTables.2)
          fun _ _ => rfl) (fun e => ?_) hpast
        rw [hs₀, held_foldl_importEvent hnodup hfree, if_pos rfl, List.mem_append, h.events]
        constructor
        · rintro (hold | hmem)
          · exact .inl hold
          · obtain ⟨he, hle⟩ := List.mem_filter.mp hmem
            exact .inr (List.mem_filter.mpr ⟨he, decide_eq_true (hlater.trans (of_decide_eq_true hle))⟩)
        · rintro (hold | hmem)
          · exact .inl hold
          · by_cases hlt : e.seq < start.2
            · exact .inl (hheld e hmem hlt)
            · exact .inr (List.mem_filter.mpr
                ⟨(List.mem_filter.mp hmem).1, decide_eq_true (not_lt.mp hlt)⟩)
      have happart : ∀ p ∈ env.promptInputs projects, ∀ n ∈ x.notes, n.seq ≠ some p.seq :=
        fun p hp n hn => hE.apart p (hsub.prompts p (List.mem_append_right _ hp)) n
          (hsub.notes n (List.mem_append_left _ hn))
      have hprompts := hevents.importPrompts happart h₁
      have hsrcEnv := env.sourced projects
      set y : Received := ⟨x.events ++ env.newEvents 1, x.prompts ++ env.promptInputs projects,
        x.notes, x.redactions⟩ with hy
      have hysub : y.Sub E := ⟨hsub.events, hsub.prompts,
        fun n hn => hsub.notes n (List.mem_append_left _ hn),
        fun r hr => hsub.redactions r (List.mem_append_left _ hr)⟩
      have hysrc : y.Sourced := by
        refine ⟨fun n hn => ?_, fun r hr hpos => ?_⟩
        · obtain ⟨q, hq, hev⟩ := hsrc.note n hn
          refine ⟨q, hq, fun hpos => ?_⟩
          obtain ⟨e, he, heq⟩ := hev hpos
          exact ⟨e, List.mem_append_left _ he, heq⟩
        · obtain ⟨e, he, heq⟩ := hsrc.redaction r hr hpos
          exact ⟨e, List.mem_append_left _ he, heq⟩
      have hevNote : ∀ n ∈ env.noteInputs, n ∈ E.notes ∧
          ∃ q, n.seq = some q ∧ (0 < q → ∃ e ∈ y.events, e.seq = q) := by
        intro n hn
        refine ⟨hsub.notes n (List.mem_append_right _ hn), ?_⟩
        obtain ⟨q, hq, hev⟩ := hsrcEnv.note n hn
        refine ⟨q, hq, fun hpos => ?_⟩
        obtain ⟨e, he, heq⟩ := hev hpos
        exact ⟨e, List.mem_append_right _ he, heq⟩
      have hnotes := Imported.importNotes (y := y) hprompts hE hysub hysrc hevNote h₂
      set z : Received := ⟨y.events, y.prompts, x.notes ++ env.noteInputs, x.redactions⟩ with hz
      have hzsub : z.Sub E := ⟨hsub.events, hsub.prompts, hsub.notes,
        fun r hr => hsub.redactions r (List.mem_append_left _ hr)⟩
      have hzsrc : z.Sourced := by
        refine ⟨fun n hn => ?_, hysrc.redaction⟩
        rcases List.mem_append.mp hn with hn | hn
        · exact hysrc.note n hn
        · exact (hevNote n hn).2
      have hcards : (env.payload.principals.foldl (importPrincipal env.header.chainId)
          s₂).captureTables = s₂.captureTables := foldl_keeps fun _ _ => rfl
      have hcarded : Imported env.header.chainId z none
          (env.payload.principals.foldl (importPrincipal env.header.chainId) s₂) :=
        Imported.of_tables hnotes hcards
      have hall := hcarded.importRedactions hE hzsub hzsrc (fun r hr => by
        refine ⟨hsub.redactions r (List.mem_append_right _ hr), fun hpos => ?_⟩
        obtain ⟨e, he, heq⟩ := hsrcEnv.redaction r hr hpos
        exact ⟨e, List.mem_append_right _ he, heq⟩) h₃
      have hhead : Imported env.header.chainId (x.append (env.received projects)) none
          (s₃.importHead (env.chainRow now start.1 last)) := Imported.of_tables hall rfl
      exact hhead

/-! ### What imports do not touch -/

/-- This store's principals and subscriptions. -/
def settings (s : ForeignStore) :
    Table PrincipalCard.principalId × AutoTable SubscriptionRow.id := (s.principals, s.subscriptions)

theorem settings_importRows {env : Envelope} {projects : List String} {start : ℤ × ℤ}
    (h : s.importRows now env projects start = .ok s') : s'.settings = s.settings := by
  have hbesides := besides_importRows h
  simp only [besides, Prod.mk.injEq] at hbesides
  obtain ⟨hprincipals, -, -, -, hsubscriptions, -⟩ := hbesides
  rw [settings, settings, hprincipals, hsubscriptions]

theorem settings_importRest (opts : ImportOptions) (env : Envelope) (startSeq : ℤ) :
    (s.importRest now opts env startSeq).settings = s.settings := by
  have howned : (s.importRest now opts env startSeq).owned = s.owned := s.owned_importRest opts env startSeq
  simp only [owned, Prod.mk.injEq] at howned
  obtain ⟨hprincipals, -, hsubscriptions, -⟩ := howned
  rw [settings, settings, hprincipals, hsubscriptions]

/-- What is written after the segment is not of the captures, the chains or
the settings. -/
theorem Imported.importRest (h : Imported c x none s) (opts : ImportOptions) (env : Envelope)
    (startSeq : ℤ) : Imported c x none (s.importRest now opts env startSeq) := by
  have hvectors : ∀ t : ForeignStore, Imported c x none t → Imported c x none
      (env.payload.vectors.foldl (importVector now opts.localModel env) t) := by
    induction env.payload.vectors with
    | nil => exact fun t ht => ht
    | cons v vectors ih =>
      refine fun t ht => ih _ ?_
      unfold ForeignStore.importVector
      split
      · exact ht
      · split_ifs
        · exact ht
        · split
          · exact ht
          · exact ⟨ht.events, ht.redaction, ht.redactions, ht.pos, ht.marks, ht.marked, ht.prompt,
              ht.prompts, ht.note, ht.notes⟩
  have hacks (t : ForeignStore) : (env.payload.acks.foldl (importAck now env.header.chainId)
      t).captureTables = t.captureTables := by
    refine foldl_keeps fun s a => ?_
    unfold importAck
    dsimp only
    split_ifs <;> rfl
  have hwritten := (hvectors s h).of_tables (hacks _)
  unfold ForeignStore.importRest
  dsimp only
  split_ifs
  · exact hwritten
  · exact hwritten.of_tables rfl

theorem Numbered.of_tables (h : s.Numbered c) (hs : s'.chainTables = s.chainTables) :
    s'.Numbered c := by
  have hchains : s'.chains = s.chains := congrArg Prod.fst hs
  refine ⟨?_, fun hnone => ?_, fun ch hch => ?_⟩
  · rw [held_of_tables hs]
    exact h.seqs
  · rw [held_of_tables hs]
    rw [hchains] at hnone
    exact h.none hnone
  · rw [held_of_tables hs]
    rw [hchains] at hch
    exact h.some ch hch

/-! ### Many imports -/

end ForeignStore

/-- An import that is called for. -/
structure Delivery where
  now : ℤ
  opts : ImportOptions
  env : Envelope

/-- What envelopes bring, one after another. -/
def ForeignStore.receivedOf (s : ForeignStore) (envs : List Envelope) : Received :=
  envs.foldl (fun x env => x.append (env.received (s.projects env))) .empty

namespace ForeignStore

variable {s s' : ForeignStore} {c : String} {now : ℤ} {x E : Received}

/-- The imports one after another, each of which goes through. -/
def importAll (w : Wire) : ForeignStore → List Delivery → Option ForeignStore
  | s, [] => some s
  | s, d :: ds =>
    match w.importEnvelope d.now d.opts s d.env with
    | (t, .ok _) => importAll w t ds
    | (_, .error _) => none

/-- Nothing is held of the chain, and it is another's. -/
structure Without (s : ForeignStore) (c : String) : Prop where
  foreign : s.isOwnDevice c = false
  chain : s.chains.get? c = none
  events : s.held c = []
  prompts : ∀ p ∈ s.prompts.rows, p.chainId ≠ c
  notes : ∀ n ∈ s.notes.rows, n.chainId ≠ c
  redactions : ∀ r ∈ s.redactions.rows, r.chainId ≠ c
  markers : ∀ q, ¬ s.Marked c q

/-- The prompts of a chain, but for their ids and clocks. -/
def promptsOf (s : ForeignStore) (c : String) : List ForeignPromptRow :=
  (s.prompts.select fun p => p.chainId = c).map fun p => { p with id := 0, importedAt := 0 }

/-- The notes of a chain, but for their rowids. -/
def notesOf (s : ForeignStore) (c : String) : List ForeignNoteRow :=
  (s.notes.select fun n => n.chainId = c).map fun n => { n with rowid := 0 }

/-- The redactions of a chain, but for their clocks. -/
def redactionsOf (s : ForeignStore) (c : String) : List ForeignRedactionInput :=
  (s.redactions.select fun r => r.chainId = c).map fun r => ⟨r.eventSeq, r.targetChain, r.targetSeq⟩

/-- The same events, prompts, notes and redactions of a chain. -/
structure SameCaptures (c : String) (s s' : ForeignStore) : Prop where
  events : ∀ e, e ∈ s.held c ↔ e ∈ s'.held c
  prompts : ∀ p, p ∈ s.promptsOf c ↔ p ∈ s'.promptsOf c
  notes : ∀ n, n ∈ s.notesOf c ↔ n ∈ s'.notesOf c
  redactions : ∀ r, r ∈ s.redactionsOf c ↔ r ∈ s'.redactionsOf c

theorem imported_without (h : s.Without c) : Imported c .empty none s where
  events e := by
    rw [h.events]
    rfl
  redaction r hr hc := absurd hc (h.redactions r hr)
  redactions _ hi := by cases hi
  pos q hq := by
    obtain ⟨r, hr, -⟩ := hq
    cases hr
  marks q hq := by
    obtain ⟨r, hr, -⟩ := hq
    cases hr
  marked q hm := absurd hm (h.markers q)
  prompt p hp hc := absurd hc (h.prompts p hp)
  prompts _ hi := by cases hi
  note n hn hc := absurd hc (h.notes n hn)
  notes _ hi := by cases hi

theorem numbered_without (h : s.Without c) : s.Numbered c := by
  refine ⟨?_, fun _ => h.events, fun ch hch => ?_⟩
  · rw [h.events]
    rfl
  · rw [h.chain] at hch
    cases hch

/-- **An import that goes through adds what its envelope brings.** -/
theorem Imported.importEnvelope {w : Wire} {d : Delivery} {r : ImportReport}
    (h : Imported d.env.header.chainId x none s) (hE : E.Agree)
    (hsub : (x.append (d.env.received (s.projects d.env))).Sub E) (hsrc : x.Sourced)
    (hnum : s.Numbered d.env.header.chainId)
    (hown : s.isOwnDevice d.env.header.chainId = false)
    (hs : w.importEnvelope d.now d.opts s d.env = (s', .ok r)) :
    Imported d.env.header.chainId (x.append (d.env.received (s.projects d.env))) none s' ∧
      s'.Numbered d.env.header.chainId ∧ s'.settings = s.settings := by
  rcases Wire.importEnvelope_cases w d.now d.opts s d.env with
    ⟨start, trust, t, r', hadmits, hrows, heq⟩ | ⟨-, hrefused⟩
  · rw [hs] at heq
    cases heq
    obtain ⟨v, hv⟩ := ok_of_isOk hadmits.verified
    have hseg := Envelope.segment_of_verify hv
    have htrusted : Imported d.env.header.chainId x none { s with trust := trust } :=
      h.of_tables rfl
    have hnumbered : { s with trust := trust }.Numbered d.env.header.chainId :=
      hnum.of_tables rfl
    have hcont : { s with trust := trust }.continuity d.now d.env = .ok start := hadmits.continuity
    have hnext := htrusted.importRows hE hsub hsrc hnumbered hseg hcont hrows
    refine ⟨hnext.importRest d.opts d.env start.2, ?_, ?_⟩
    · exact (hnumbered.importRows hseg hcont hrows).1.of_tables
        (chainTables_importRest d.opts d.env start.2)
    · rw [settings_importRest, settings_importRows hrows]
      rfl
  · have hno := hrefused hown
    rw [hs] at hno
    cases hno

theorem projects_of_settings {env : Envelope} (h : s'.settings = s.settings) :
    s'.projects env = s.projects env := by
  have hsubs : s'.subscriptions = s.subscriptions := congrArg Prod.snd h
  rw [projects, projects, matching, matching, hsubs]

theorem isOwnDevice_of_settings (h : s'.settings = s.settings) : s'.isOwnDevice c = s.isOwnDevice c := by
  have hprincipals : s'.principals = s.principals := congrArg Prod.fst h
  rw [isOwnDevice, isOwnDevice, hprincipals]

/-- One import of many. -/
theorem importAll_cons {w : Wire} {d : Delivery} {ds : List Delivery}
    (h : importAll w s (d :: ds) = some s') :
    ∃ t r, w.importEnvelope d.now d.opts s d.env = (t, .ok r) ∧ importAll w t ds = some s' := by
  unfold importAll at h
  rcases hres : w.importEnvelope d.now d.opts s d.env with ⟨t, e | r⟩
  · simp only [hres, reduceCtorEq] at h
  · simp only [hres] at h
    exact ⟨t, r, rfl, h⟩

/-- **Imports that go through leave what their envelopes bring.** -/
theorem Imported.importAll {w : Wire} {ds : List Delivery} (h : Imported c x none s)
    (hE : E.Agree) (hx : x.Sub E)
    (hsub : ∀ d ∈ ds, (d.env.received (s.projects d.env)).Sub E)
    (hc : ∀ d ∈ ds, d.env.header.chainId = c) (hsrc : x.Sourced) (hnum : s.Numbered c)
    (hown : s.isOwnDevice c = false) (hs : importAll w s ds = some s') :
    Imported c ((ds.map Delivery.env).foldl
        (fun x env => x.append (env.received (s.projects env))) x) none s' ∧
      s'.Numbered c ∧ s'.settings = s.settings := by
  induction ds generalizing s x with
  | nil =>
    cases hs
    exact ⟨h, hnum, rfl⟩
  | cons d ds ih =>
    obtain ⟨t, r, hone, hrest⟩ := importAll_cons hs
    have hchain := hc d List.mem_cons_self
    subst hchain
    have happend := Received.Sub.append hx (hsub d List.mem_cons_self)
    obtain ⟨hnext, hnumbered, hsettings⟩ := h.importEnvelope hE happend hsrc hnum hown hone
    have hprojects : ∀ env, t.projects env = s.projects env := fun env =>
      projects_of_settings hsettings
    have hall := ih hnext happend
      (fun d' hd' => hprojects d'.env ▸ hsub d' (List.mem_cons_of_mem d hd'))
      (fun d' hd' => hc d' (List.mem_cons_of_mem d hd')) (hsrc.append (d.env.sourced _)) hnumbered
      ((isOwnDevice_of_settings hsettings).trans hown) hrest
    simp only [hprojects] at hall
    exact ⟨hall.1, hall.2.1, hall.2.2.trans hsettings⟩

/-- What was received is in what is received of one more. -/
theorem sub_foldl {envs : List Envelope} {f : Envelope → Received} (hx : x.Sub E)
    (hsub : ∀ env ∈ envs, (f env).Sub E) : (envs.foldl (fun x env => x.append (f env)) x).Sub E := by
  induction envs generalizing x with
  | nil => exact hx
  | cons env envs ih =>
    exact ih (hx.append (hsub env List.mem_cons_self))
      fun e he => hsub e (List.mem_cons_of_mem env he)

theorem foldl_sub {envs : List Envelope} {f : Envelope → Received} :
    x.Sub (envs.foldl (fun x env => x.append (f env)) x) ∧
      ∀ env ∈ envs, (f env).Sub (envs.foldl (fun x env => x.append (f env)) x) := by
  induction envs generalizing x with
  | nil => exact ⟨.refl x, fun _ he => by cases he⟩
  | cons env envs ih =>
    obtain ⟨hx, hrest⟩ := @ih (x.append (f env))
    refine ⟨(Received.sub_append_left x (f env)).trans hx, fun e he => ?_⟩
    rcases List.mem_cons.mp he with rfl | he
    · exact (Received.sub_append_right x (f e)).trans hx
    · exact hrest e he

theorem sourced_foldl {envs : List Envelope} (hx : x.Sourced) :
    (envs.foldl (fun x env => x.append (env.received (s.projects env))) x).Sourced := by
  induction envs generalizing x with
  | nil => exact hx
  | cons env envs ih => exact ih (hx.append (env.sourced _))

/-- What is received does not depend on the order or the number. -/
theorem receivedOf_sub {envs envs' : List Envelope} (h : ∀ env ∈ envs, env ∈ envs') :
    (s.receivedOf envs).Sub (s.receivedOf envs') :=
  sub_foldl (f := fun env => env.received (s.projects env)) (Received.sub_of_empty _)
    fun env he => (foldl_sub (f := fun env => env.received (s.projects env))).2 env (h env he)

/-- **The captures are determined by what was received.** -/
theorem Imported.sameCaptures {y : Received} (h : Imported c x none s) (h' : Imported c y none s')
    (hx : x.Agree) (hxs : x.Sourced) (hxy : x.Sub y) (hyx : y.Sub x) : SameCaptures c s s' := by
  have hred : ∀ q, x.redacted q ↔ y.redacted q := fun q => ⟨hxy.redacted, hyx.redacted⟩
  have hnewest : ∀ n, x.newest n ↔ y.newest n := by
    intro n
    constructor
    · exact fun hn => ⟨hxy.notes n hn.1, fun m hm => hn.2 m (hyx.notes m hm)⟩
    · exact fun hn => ⟨hyx.notes n hn.1, fun m hm => hn.2 m (hxy.notes m hm)⟩
  have hdead : ∀ id, x.dead id ↔ y.dead id := by
    intro id
    simp only [Received.dead, hred, hnewest]
    refine or_congr_left ⟨?_, ?_⟩
    · rintro ⟨e, he, hrest⟩
      exact ⟨e, hxy.events e he, hrest⟩
    · rintro ⟨e, he, hrest⟩
      exact ⟨e, hyx.events e he, hrest⟩
  have hprompt : ∀ {i i' : ForeignPromptInput} {p p' : ForeignPromptRow},
      i ∈ x.prompts → i' ∈ x.prompts → PromptRow x none i p → PromptRow y none i' p' →
        p.chainId = c → p'.capture = (c, i.seq) →
          ({ p with id := 0, importedAt := 0 } : ForeignPromptRow) =
            { p' with id := 0, importedAt := 0 } := by
    intro i i' p p' hi hi' hp hp' hc hcapture
    obtain ⟨hc', hseq'⟩ := Prod.ext_iff.mp hcapture
    dsimp only at hc' hseq'
    obtain ⟨hid, hrole, hhash, hproject, hbody⟩ := hx.prompt i hi i' hi' (hseq'.symm.trans hp'.seq)
    obtain ⟨pid, prole, phash, pproject⟩ := hp.fields
    obtain ⟨pid', prole', phash', pproject'⟩ := hp'.fields
    have hseq : p.seq = p'.seq := hp.seq.trans hseq'.symm
    have hrest : p.tombstoned = p'.tombstoned ∧ p.text = p'.text ∧ p.redaction = p'.redaction := by
      rcases hp.body with ⟨hr, htomb, htext, hredaction⟩ | ⟨hlive, htomb, htext, hredaction⟩
      · rcases hp'.body with ⟨-, htomb', htext', hredaction'⟩ | ⟨hlive', -⟩
        · exact ⟨htomb.trans htomb'.symm, htext.trans htext'.symm, hredaction.trans hredaction'.symm⟩
        · rw [hseq, hred] at hr
          exact absurd (hlive' hr) (by simp)
      · have hnot : ¬ x.redacted p.seq := fun hr => absurd (hlive hr) (by simp)
        rcases hp'.body with ⟨hr', -⟩ | ⟨-, htomb', htext', hredaction'⟩
        · rw [← hseq, ← hred] at hr'
          exact absurd hr' hnot
        · rcases hbody with hr | ⟨heq, heq'⟩
          · rw [← hp.seq] at hr
            exact absurd hr hnot
          · exact ⟨htomb.trans htomb'.symm, by rw [htext, htext', heq],
              by rw [hredaction, hredaction', heq']⟩
    cases p
    cases p'
    simp only [ForeignPromptRow.mk.injEq, true_and, and_true] at *
    refine ⟨hc.trans hc'.symm, hseq, ?_, ?_, ?_, hrest.2.2, hrest.2.1, ?_, hrest.1⟩
    · rw [pid, pid', hid]
    · rw [prole, prole', hrole]
    · rw [phash, phash', hhash]
    · rw [pproject, pproject', hproject]
  have hnote : ∀ {i i' : ForeignNoteInput} {n n' : ForeignNoteRow}, x.newest i → y.newest i' →
      NoteRow x (∃ q, none = some q ∧ s.ofCapture c q n = true) i n →
        NoteRow y (∃ q, none = some q ∧ s'.ofCapture c q n' = true) i' n' → n.chainId = c →
          n'.key = (c, i.noteId) →
            ({ n with rowid := 0 } : ForeignNoteRow) = { n' with rowid := 0 } := by
    intro i i' n n' hi hi' hn hn' hc hkey
    obtain ⟨hc', hid'⟩ := Prod.ext_iff.mp hkey
    dsimp only at hc' hid'
    have hsame : i = i' := hx.newest_unique (.refl x) hxs hi ((hnewest i').mpr hi')
      (hid'.symm.trans hn'.noteId)
    subst hsame
    have hid : n.noteId = n'.noteId := hn.noteId.trans hn'.noteId.symm
    have htext : n.text = n'.text := by
      rcases hn.text with ⟨hd, htext⟩ | ⟨hlive, htext⟩
      · rcases hn'.text with ⟨-, htext'⟩ | ⟨hlive', -⟩
        · exact htext.trans htext'.symm
        · rw [hid, hdead] at hd
          obtain ⟨q, hq, -⟩ := hlive' hd
          cases hq
      · rcases hn'.text with ⟨hd', -⟩ | ⟨-, htext'⟩
        · rw [← hid, ← hdead] at hd'
          obtain ⟨q, hq, -⟩ := hlive hd'
          cases hq
        · exact htext.trans htext'.symm
    obtain ⟨hkind, htarget, hcreated⟩ := hn.fields
    obtain ⟨hkind', htarget', hcreated'⟩ := hn'.fields
    cases n
    cases n'
    simp only [ForeignNoteRow.mk.injEq, true_and] at *
    refine ⟨hc.trans hc'.symm, hid, hn.seq.trans hn'.seq.symm, ?_, ?_, htext, ?_⟩
    · rw [hkind, hkind']
    · rw [htarget, htarget']
    · rw [hcreated, hcreated']
  constructor
  · intro e
    rw [h.events, h'.events]
    exact ⟨hxy.events e, hyx.events e⟩
  · intro p
    simp only [promptsOf, Table.select, List.mem_map, List.mem_filter, decide_eq_true_eq]
    constructor
    · rintro ⟨p₀, ⟨hp₀, hc⟩, rfl⟩
      obtain ⟨i, hi, hrow⟩ := h.prompt p₀ hp₀ hc
      obtain ⟨p₁, hp₁, hcapture⟩ := h'.prompts i (hxy.prompts i hi)
      have hc₁ : p₁.chainId = c := (Prod.ext_iff.mp hcapture).1
      obtain ⟨i', hi', hrow'⟩ := h'.prompt p₁ hp₁ hc₁
      exact ⟨p₁, ⟨hp₁, hc₁⟩, (hprompt hi (hyx.prompts i' hi') hrow hrow' hc hcapture).symm⟩
    · rintro ⟨p₁, ⟨hp₁, hc₁⟩, rfl⟩
      obtain ⟨i', hi', hrow'⟩ := h'.prompt p₁ hp₁ hc₁
      obtain ⟨p₀, hp₀, hcapture⟩ := h.prompts i' (hyx.prompts i' hi')
      have hc : p₀.chainId = c := (Prod.ext_iff.mp hcapture).1
      obtain ⟨i, hi, hrow⟩ := h.prompt p₀ hp₀ hc
      have hseq : i'.seq = i.seq := (Prod.ext_iff.mp hcapture).2.symm.trans hrow.seq
      exact ⟨p₀, ⟨hp₀, hc⟩, hprompt hi (hyx.prompts i' hi') hrow hrow' hc
        (Prod.ext hc₁ (hrow'.seq.trans hseq))⟩
  · intro n
    simp only [notesOf, Table.select, List.mem_map, List.mem_filter, decide_eq_true_eq]
    constructor
    · rintro ⟨n₀, ⟨hn₀, hc⟩, rfl⟩
      obtain ⟨i, hi, hrow⟩ := h.note n₀ hn₀ hc
      obtain ⟨n₁, hn₁, hkey⟩ := h'.notes i (hxy.notes i hi.1)
      have hc₁ : n₁.chainId = c := (Prod.ext_iff.mp hkey).1
      obtain ⟨i', hi', hrow'⟩ := h'.note n₁ hn₁ hc₁
      exact ⟨n₁, ⟨hn₁, hc₁⟩, (hnote hi hi' hrow hrow' hc hkey).symm⟩
    · rintro ⟨n₁, ⟨hn₁, hc₁⟩, rfl⟩
      obtain ⟨i', hi', hrow'⟩ := h'.note n₁ hn₁ hc₁
      obtain ⟨n₀, hn₀, hkey⟩ := h.notes i' (hyx.notes i' hi'.1)
      have hc : n₀.chainId = c := (Prod.ext_iff.mp hkey).1
      obtain ⟨i, hi, hrow⟩ := h.note n₀ hn₀ hc
      have hid : i'.noteId = i.noteId := (Prod.ext_iff.mp hkey).2.symm.trans hrow.noteId
      exact ⟨n₀, ⟨hn₀, hc⟩, hnote hi hi' hrow hrow' hc (Prod.ext hc₁ (hrow'.noteId.trans hid))⟩
  · intro r
    simp only [redactionsOf, Table.select, List.mem_map, List.mem_filter, decide_eq_true_eq]
    constructor
    · rintro ⟨r₀, ⟨hr₀, hc⟩, rfl⟩
      obtain ⟨r₁, hr₁, hc₁, heq⟩ := h'.redactions _ (hxy.redactions _ (h.redaction r₀ hr₀ hc))
      exact ⟨r₁, ⟨hr₁, hc₁⟩, heq.symm⟩
    · rintro ⟨r₁, ⟨hr₁, hc₁⟩, rfl⟩
      obtain ⟨r₀, hr₀, hc, heq⟩ := h.redactions _ (hyx.redactions _ (h'.redaction r₁ hr₁ hc₁))
      exact ⟨r₀, ⟨hr₀, hc⟩, heq.symm⟩

end ForeignStore

open ForeignStore in
/-- **Imports in any order.** Envelopes of one chain that agree, imported in
any two orders in which each of them goes through, with any of them more than
once, leave the same captures; a prompt that is not redacted is there as it
came; and to import one of them again changes nothing. -/
theorem imports_confluent (w : Wire) (s t t' : ForeignStore) (c : String) (ds ds' : List Delivery)
    (hwithout : s.Without c) (hchain : ∀ d ∈ ds, d.env.header.chainId = c)
    (hsame : ∀ env, env ∈ ds.map Delivery.env ↔ env ∈ ds'.map Delivery.env)
    (hagree : (s.receivedOf (ds.map Delivery.env)).Agree)
    (ht : importAll w s ds = some t) (ht' : importAll w s ds' = some t') :
    SameCaptures c t t' ∧
      (∀ d ∈ ds, ∀ p ∈ d.env.promptInputs (s.projects d.env),
        ¬ (s.receivedOf (ds.map Delivery.env)).redacted p.seq →
          ∃ row ∈ t.prompts.rows, row.capture = (c, p.seq) ∧ row.text = p.text) ∧
      ∀ d ∈ ds, ∀ now opts, SameCaptures c t (w.importEnvelope now opts t d.env).1 := by
  set E := s.receivedOf (ds.map Delivery.env) with hE
  have hparts : ∀ d ∈ ds, (d.env.received (s.projects d.env)).Sub E := fun d hd =>
    (foldl_sub (f := fun env => env.received (s.projects env))).2 d.env (List.mem_map_of_mem hd)
  have hparts' : ∀ d ∈ ds', (d.env.received (s.projects d.env)).Sub E := fun d hd =>
    (foldl_sub (f := fun env => env.received (s.projects env))).2 d.env
      ((hsame d.env).mpr (List.mem_map_of_mem hd))
  have hchain' : ∀ d ∈ ds', d.env.header.chainId = c := by
    intro d hd
    obtain ⟨d', hd', heq⟩ := List.mem_map.mp ((hsame d.env).mpr (List.mem_map_of_mem hd))
    rw [← heq]
    exact hchain d' hd'
  have hstart := imported_without hwithout
  have hempty := Received.sub_of_empty E
  obtain ⟨hall, hnum, hsettings⟩ := hstart.importAll hagree hempty hparts hchain
    Received.sourced_empty (numbered_without hwithout) hwithout.foreign ht
  obtain ⟨hall', -, -⟩ := hstart.importAll hagree hempty hparts' hchain'
    Received.sourced_empty (numbered_without hwithout) hwithout.foreign ht'
  have hsrc : E.Sourced := sourced_foldl Received.sourced_empty
  refine ⟨?_, fun d hd p hp hlive => ?_, fun d hd now opts => ?_⟩
  · exact hall.sameCaptures hall' hagree hsrc
      (receivedOf_sub fun env he => (hsame env).mp he)
      (receivedOf_sub fun env he => (hsame env).mpr he)
  · have hpE := (hparts d hd).prompts p hp
    obtain ⟨row, hrow, hcapture⟩ := hall.prompts p hpE
    obtain ⟨hc, hseq⟩ := Prod.ext_iff.mp hcapture
    dsimp only at hc hseq
    obtain ⟨i, hi, hirow⟩ := hall.prompt row hrow hc
    refine ⟨row, hrow, hcapture, ?_⟩
    rcases hirow.body with ⟨hr, -⟩ | ⟨-, -, htext, -⟩
    · rw [hseq] at hr
      exact absurd hr hlive
    · rcases (hagree.prompt p hpE i hi (hseq.symm.trans hirow.seq)).2.2.2.2 with hr | ⟨heq, -⟩
      · exact absurd hr hlive
      · rw [htext, heq]
  · have hprojects : t.projects d.env = s.projects d.env := projects_of_settings hsettings
    have hpart : (d.env.received (t.projects d.env)).Sub E := hprojects ▸ hparts d hd
    obtain rfl := hchain d hd
    cases hres : (w.importEnvelope now opts t d.env).2 with
    | ok r =>
      have hown : t.isOwnDevice d.env.header.chainId = false :=
        (isOwnDevice_of_settings hsettings).trans hwithout.foreign
      have hstep : w.importEnvelope now opts t d.env = ((w.importEnvelope now opts t d.env).1, .ok r) :=
        Prod.ext rfl hres
      have happend := Received.Sub.append (Received.Sub.refl E) hpart
      have hagain := (Imported.importEnvelope (d := ⟨now, opts, d.env⟩) hall hagree happend hsrc hnum
        hown hstep).1
      exact hall.sameCaptures hagain hagree hsrc (Received.sub_append_left E _) happend
    | error e =>
      -- a refusal leaves the captures as they are
      rcases Wire.importEnvelope_cases w now opts t d.env with
        ⟨start, trust, t₁, r, -, -, heq⟩ | ⟨⟨trust, chains, -, heq⟩, -⟩
      · rw [heq] at hres
        cases hres
      · rw [heq]
        exact ⟨fun _ => Iff.rfl, fun _ => Iff.rfl, fun _ => Iff.rfl, fun _ => Iff.rfl⟩

/-- The first event of a chain, and its prompt. -/
def promptSegment (redaction : Redaction) (text : Option String) : Envelope :=
  Wire.plainSigned "a" { Wire.plainPayload [Wire.plainEvent genesisPrev 1 "prompt" (some 1) none none "body"]
    with prompts := [⟨1, "user", "body", redaction, text, none⟩] }

/-- It is imported, on first use. -/
def promptDelivery (redaction : Redaction) (text : Option String) : Delivery :=
  ⟨7, ⟨true, false, none⟩, promptSegment redaction text⟩

theorem without_empty (c : String) : ForeignStore.empty.Without c where
  foreign := rfl
  chain := rfl
  events := rfl
  prompts _ hp := by cases hp
  notes _ hn := by cases hn
  redactions _ hr := by cases hr
  markers _ hm := by cases hm

open ForeignStore in
/-- A prompt, imported once and twice. -/
theorem imports_confluent_twice : ∃ t t',
    importAll .plain .empty [promptDelivery .full (some "body")] = some t ∧
      importAll .plain .empty (List.replicate 2 (promptDelivery .full (some "body"))) = some t' ∧
        SameCaptures (promptSegment .full (some "body")).header.chainId t t' := by
  have hruns : (importAll .plain .empty [promptDelivery .full (some "body")]).isSome = true ∧
      (importAll .plain .empty (List.replicate 2 (promptDelivery .full (some "body")))).isSome = true := by
    decide +kernel
  obtain ⟨t, ht⟩ := Option.isSome_iff_exists.mp hruns.1
  obtain ⟨t', ht'⟩ := Option.isSome_iff_exists.mp hruns.2
  refine ⟨t, t', ht, ht', (imports_confluent .plain .empty t t' _ _ _ (without_empty _)
    (fun d hd => by rw [List.mem_singleton.mp hd]; rfl) (fun env => by simp) ?_ ht ht').1⟩
  have hrows : (empty.receivedOf [promptSegment .full (some "body")]).notes = [] ∧
      (empty.receivedOf [promptSegment .full (some "body")]).redactions = [] ∧
        (empty.receivedOf [promptSegment .full (some "body")]).prompts =
          [⟨1, 1, "user", "body", "full", some "body", none⟩] ∧
        (empty.receivedOf [promptSegment .full (some "body")]).events =
          [Wire.plainEvent genesisPrev 1 "prompt" (some 1) none none "body"] := by decide +kernel
  obtain ⟨hnotes, hredactions, hprompts, hevents⟩ := hrows
  change (empty.receivedOf [promptSegment .full (some "body")]).Agree
  constructor
  · intro e he e' he' _
    rw [hevents] at he he'
    rw [List.mem_singleton.mp he, List.mem_singleton.mp he']
  · intro p hp p' hp' _
    rw [hprompts] at hp hp'
    rw [List.mem_singleton.mp hp, List.mem_singleton.mp hp']
    exact ⟨rfl, rfl, rfl, rfl, .inr ⟨rfl, rfl⟩⟩
  · exact fun n hn => by rw [hnotes] at hn; cases hn
  · exact fun r hr => by rw [hredactions] at hr; cases hr
  · exact fun p _ n hn => by rw [hnotes] at hn; cases hn
  · exact fun n hn => by rw [hnotes] at hn; cases hn
  · exact fun n hn => by rw [hnotes] at hn; cases hn
  · exact fun n hn => by rw [hnotes] at hn; cases hn
  · exact fun r hr => by rw [hredactions] at hr; cases hr
  · exact fun n hn => by rw [hnotes] at hn; cases hn

open ForeignStore in
/-- The stub of a prompt keeps its body out, so that the order shows. -/
theorem stubFirst_differs : ¬ ∀ (w : Wire) (s t t' : ForeignStore) (c : String)
    (ds ds' : List Delivery), s.Without c → (∀ d ∈ ds, d.env.header.chainId = c) →
      (∀ env, env ∈ ds.map Delivery.env ↔ env ∈ ds'.map Delivery.env) →
        importAll w s ds = some t → importAll w s ds' = some t' → SameCaptures c t t' := by
  intro hclaim
  have hruns : (importAll .plain .empty [promptDelivery .stub none,
        promptDelivery .full (some "body")]).map
          (fun t => (t.promptsOf (promptSegment .stub none).header.chainId).map
            ForeignPromptRow.text) = some [none] ∧
      (importAll .plain .empty [promptDelivery .full (some "body"),
        promptDelivery .stub none]).map
          (fun t => (t.promptsOf (promptSegment .stub none).header.chainId).map
            ForeignPromptRow.text) = some [some "body"] := by decide +kernel
  obtain ⟨t, ht, htext⟩ := Option.map_eq_some_iff.mp hruns.1
  obtain ⟨t', ht', htext'⟩ := Option.map_eq_some_iff.mp hruns.2
  have hsame := hclaim .plain .empty t t' (promptSegment .stub none).header.chainId _ _
    (without_empty _) (fun d hd => by
      rcases List.mem_pair.mp hd with rfl | rfl <;> rfl)
    (fun env => by simp [or_comm]) ht ht'
  have hmem : some "body" ∈ (t'.promptsOf (promptSegment .stub none).header.chainId).map
      ForeignPromptRow.text := by
    rw [htext']
    exact List.mem_cons_self
  obtain ⟨p, hp, hbody⟩ := List.mem_map.mp hmem
  have hmem' : p.text ∈ (t.promptsOf (promptSegment .stub none).header.chainId).map
      ForeignPromptRow.text := List.mem_map_of_mem ((hsame.prompts p).mpr hp)
  rw [htext, hbody] at hmem'
  exact absurd (List.mem_singleton.mp hmem') (by simp)

end PolisMemory
