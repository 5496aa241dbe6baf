/-
# What a segment leaves in a chain

The events held of a chain (`ForeignStore.held`) are the rows of
`foreign_events` in the order they were inserted. The transaction of a segment
appends its new events to them and sets the chain's head; every other write of
an import leaves the events and the heads alone.

A chain is whole (`ForeignStore.Whole`) when its events are the seqs from 1 to
its head, linked from the genesis hash, each one recomputing, and the head's
hash that of the last one. A segment that verifies and passes the continuity
check keeps it whole, if the first segment starts on the genesis hash
(`Whole.importRows`).

Key definitions: `ForeignStore.held`, `ForeignStore.SameChains`,
`ForeignStore.Whole`, `ForeignStore.Fits`.
Key theorems: `importForeignSegment_held`, `Envelope.segment_of_verify`,
`Whole.importRows`.
-/
import PolisMemory.Import

namespace PolisMemory

open Tables HashChain
open Store (bind_eq_ok)

/-! ### Folds that keep something -/

section

variable {σ α τ ε : Type*} {f : σ → τ} {xs : List α} {s s' : σ}

theorem foldl_keeps {g : σ → α → σ} (h : ∀ s a, f (g s a) = f s) : f (xs.foldl g s) = f s := by
  induction xs generalizing s with
  | nil => rfl
  | cons x xs ih => rw [List.foldl_cons, ih, h]

theorem foldlM_keeps {g : σ → α → Except ε σ} (h : ∀ s a s', g s a = .ok s' → f s' = f s)
    (hs : xs.foldlM g s = .ok s') : f s' = f s := by
  induction xs generalizing s with
  | nil =>
    cases hs
    rfl
  | cons x xs ih =>
    rw [List.foldlM_cons] at hs
    cases hx : g s x with
    | error e => rw [hx] at hs; cases hs
    | ok t =>
      rw [hx] at hs
      rw [ih hs, h s x t hx]

end

namespace ForeignStore

/-! ### Writes that leave the chains alone -/

/-- The tables that the chains are in. -/
def chainTables (s : ForeignStore) :
    Table ForeignChain.chainId × Table ForeignEventRow.key := (s.chains, s.events)

variable {s s' : ForeignStore} {now : ℤ} {chainId : String}

@[simp] theorem chainTables_suppress (seq : ℤ) :
    (s.suppress chainId seq).chainTables = s.chainTables := rfl

theorem chainTables_tombstone {seq : ℤ} (h : s.tombstone chainId seq = .ok s') :
    s'.chainTables = s.chainTables := by
  unfold tombstone at h
  split_ifs at h
  cases h
  exact chainTables_suppress seq

theorem chainTables_importPrompt {p : ForeignPromptInput} (h : importPrompt now chainId s p = .ok s') :
    s'.chainTables = s.chainTables := by
  unfold importPrompt at h
  dsimp only at h
  split_ifs at h
  · have htomb := chainTables_tombstone h
    exact htomb
  · cases h
    rfl

theorem chainTables_writeNote (row : ForeignNoteRow) :
    (s.writeNote row).chainTables = s.chainTables := by
  unfold writeNote
  cases s.notes.get? row.key with
  | none => rfl
  | some old =>
    dsimp only
    split_ifs <;> rfl

theorem chainTables_importNote {n : ForeignNoteInput} (h : importNote chainId s n = .ok s') :
    s'.chainTables = s.chainTables := by
  unfold importNote at h
  cases hseq : n.seq with
  | none => rw [hseq] at h; cases h
  | some seq =>
    simp only [hseq] at h
    split_ifs at h
    · rw [chainTables_tombstone h, chainTables_writeNote]
    · cases h
      exact chainTables_writeNote _

theorem chainTables_importRedaction {r : ForeignRedactionInput}
    (h : importRedaction now chainId s r = .ok s') : s'.chainTables = s.chainTables := by
  unfold importRedaction at h
  dsimp only at h
  split_ifs at h
  have htomb := chainTables_tombstone h
  exact htomb

theorem chainTables_importVector (localModel : Option String) (env : Envelope) (v : PayloadVector) :
    (importVector now localModel env s v).chainTables = s.chainTables := by
  unfold importVector
  split
  · rfl
  · split_ifs
    · rfl
    · split <;> rfl

theorem chainTables_importAck (a : String × ℤ) :
    (importAck now chainId s a).chainTables = s.chainTables := by
  unfold importAck
  dsimp only
  split_ifs <;> rfl

theorem chainTables_importRest (opts : ImportOptions) (env : Envelope) (startSeq : ℤ) :
    (s.importRest now opts env startSeq).chainTables = s.chainTables := by
  have hfold : ∀ t : ForeignStore, (env.payload.acks.foldl (importAck now env.header.chainId)
      (env.payload.vectors.foldl (importVector now opts.localModel env) t)).chainTables =
        t.chainTables := by
    intro t
    rw [foldl_keeps fun s a => chainTables_importAck a]
    exact foldl_keeps fun s v => chainTables_importVector _ _ v
  unfold importRest
  dsimp only
  split_ifs
  · exact hfold s
  · exact hfold s

/-! ### The events held of a chain -/

/-- The events of a chain, in the order of their rows. -/
def held (s : ForeignStore) (chainId : String) : List LedgerEventRow :=
  (s.events.select fun r => r.chainId = chainId).map ForeignEventRow.event

theorem held_of_tables {c : String} (h : s'.chainTables = s.chainTables) : s'.held c = s.held c := by
  have hevents : s'.events = s.events := congrArg Prod.snd h
  rw [held, held, hevents]

theorem mem_held {c : String} {e : LedgerEventRow} :
    e ∈ s.held c ↔ s.events.get? (c, e.seq) = some ⟨c, e⟩ := by
  simp only [held, List.mem_map, Table.mem_select]
  constructor
  · rintro ⟨⟨c', e'⟩, ⟨hget, hc⟩, rfl⟩
    have hc' : c' = c := of_decide_eq_true hc
    subst hc'
    exact hget
  · intro hget
    exact ⟨⟨c, e⟩, ⟨hget, decide_eq_true rfl⟩, rfl⟩

/-- A seq that no event held of the chain has is free. -/
theorem get?_events_eq_none {c : String} {q : ℤ} (h : ∀ e ∈ s.held c, e.seq ≠ q) :
    s.events.get? (c, q) = none := by
  cases hget : s.events.get? (c, q) with
  | none => rfl
  | some r =>
    have hkey := Table.key_of_get? hget
    obtain ⟨c', e⟩ := r
    obtain ⟨rfl, rfl⟩ : c' = c ∧ e.seq = q := by simpa using hkey
    exact absurd rfl (h e (mem_held.mpr hget))

/-- A free event is appended to its chain. -/
theorem held_importEvent {c : String} {e : LedgerEventRow}
    (hfree : s.events.get? (chainId, e.seq) = none) :
    (importEvent chainId s e).held c = s.held c ++ if chainId = c then [e] else [] := by
  obtain ⟨t, ht, hrows⟩ := Table.insert?_of_free (t := s.events) (r := ⟨chainId, e⟩) hfree
  have hins : s.events.insertOrIgnore ⟨chainId, e⟩ = t := by
    rw [Table.insertOrIgnore, ht, Option.getD_some]
  simp only [held, importEvent, Table.select, hins, hrows, List.filter_append, List.map_append]
  congr 1
  by_cases hc : chainId = c <;> simp [hc]

theorem held_foldl_importEvent {events : List LedgerEventRow}
    (hnodup : (events.map LedgerEventRow.seq).Nodup)
    (hfree : ∀ e ∈ events, s.events.get? (chainId, e.seq) = none) (c : String) :
    (events.foldl (importEvent chainId) s).held c =
      s.held c ++ if chainId = c then events else [] := by
  induction events generalizing s with
  | nil => simp
  | cons e events ih =>
    rw [List.map_cons, List.nodup_cons] at hnodup
    have hrest : ∀ e' ∈ events, (importEvent chainId s e).events.get? (chainId, e'.seq) = none := by
      intro e' he'
      have hne : e.seq ≠ e'.seq := fun h => hnodup.1 (h ▸ List.mem_map_of_mem he')
      simp [importEvent, hfree e' (List.mem_cons_of_mem _ he'), ForeignEventRow.key, hne]
    rw [List.foldl_cons, ih hnodup.2 hrest, held_importEvent (hfree e List.mem_cons_self)]
    by_cases hc : chainId = c <;> simp [hc]

/-- The transaction of a segment writes the events before all else and the
chain's head last. -/
theorem importForeignSegment_tables {c : ForeignChain} {events : List LedgerEventRow}
    {prompts : List ForeignPromptInput} {notes : List ForeignNoteInput}
    {principals : List PrincipalCard} {redactions : List ForeignRedactionInput}
    (h : s.importForeignSegment now c events prompts notes principals redactions = .ok s') :
    s'.chainTables = (s.chains.upsert (advanced (s.chains.get? c.chainId) c),
      (events.foldl (importEvent c.chainId) s).events) := by
  unfold importForeignSegment at h
  dsimp only at h
  obtain ⟨s₁, h₁, h⟩ := bind_eq_ok.mp h
  obtain ⟨s₂, h₂, h⟩ := bind_eq_ok.mp h
  obtain ⟨s₃, h₃, h⟩ := bind_eq_ok.mp h
  cases h
  have hrest : s₃.chainTables = (events.foldl (importEvent c.chainId) s).chainTables := by
    rw [foldlM_keeps (fun _ _ _ => chainTables_importRedaction) h₃,
      foldl_keeps (f := chainTables) (g := importPrincipal c.chainId) fun _ _ => rfl,
      foldlM_keeps (fun _ _ _ => chainTables_importNote) h₂,
      foldlM_keeps (fun _ _ _ => chainTables_importPrompt) h₁]
  have hchains : s₃.chains = s.chains := by
    have hevents : (events.foldl (importEvent c.chainId) s).chains = s.chains :=
      foldl_keeps fun _ _ => rfl
    exact (congrArg Prod.fst hrest).trans hevents
  have hevents : s₃.events = (events.foldl (importEvent c.chainId) s).events :=
    congrArg Prod.snd hrest
  simp only [chainTables, importHead, hchains, hevents]

/-- **What a segment leaves in the chains**: its new events after those of its
chain, if they are new, and the chain's head. -/
theorem importForeignSegment_held {c : ForeignChain} {events : List LedgerEventRow}
    {prompts : List ForeignPromptInput} {notes : List ForeignNoteInput}
    {principals : List PrincipalCard} {redactions : List ForeignRedactionInput}
    (h : s.importForeignSegment now c events prompts notes principals redactions = .ok s')
    (hnodup : (events.map LedgerEventRow.seq).Nodup)
    (hfree : ∀ e ∈ events, s.events.get? (c.chainId, e.seq) = none) :
    s'.chains = s.chains.upsert (advanced (s.chains.get? c.chainId) c) ∧
      ∀ chain, s'.held chain = s.held chain ++ if c.chainId = chain then events else [] := by
  have htables := importForeignSegment_tables h
  have hchains := congrArg Prod.fst htables
  have hevents := congrArg Prod.snd htables
  refine ⟨hchains, fun chain => ?_⟩
  rw [← held_foldl_importEvent hnodup hfree chain]
  dsimp only [chainTables] at hevents
  simp only [held, hevents]

end ForeignStore

/-! ### The segment of a verified envelope -/

/-- What verification says of an envelope's events. -/
structure Envelope.SegmentOk (w : Wire) (env : Envelope) : Prop where
  chain : Chain (rowShape w.sha256) env.header.segment.prevHashAtFrom env.events
  seqs : env.events.map LedgerEventRow.seq = seqsFrom env.header.segment.fromSeq env.events.length
  nonempty : env.events ≠ []
  toSeq : ∀ e, env.events.getLast? = some e → e.seq = env.header.segment.toSeq
  redactions : ∀ e ∈ env.events, e.kind = "redaction" →
    ∃ r ∈ env.payload.redactions, r.eventSeq = e.seq ∧ w.redactionHash r = e.payloadHash

/-- An envelope that verifies passes each of the checks on its payload. -/
theorem Wire.checks_of_verify {w : Wire} {env : Envelope} {v : Verified} (h : w.verify env = .ok v) :
    w.verifySegment env = none ∧ w.verifyBindEvents env = none ∧ w.verifyRedactionEvents env = none ∧
      env.payload.prompts.findSome? (w.verifyBody env) = none := by
  unfold Wire.verify at h
  dsimp only at h
  by_cases hschema : env.header.schema ≠ envelopeSchema
  · rw [if_pos hschema] at h
    cases h
  rw [if_neg hschema] at h
  cases hhuman : w.verifyHuman env.header with
  | error e => rw [hhuman] at h; cases h
  | ok key =>
    simp only [hhuman] at h
    cases hdevice : w.verifyDevice env.header key.2 with
    | error e => simp only [hdevice, reduceCtorEq] at h
    | ok name =>
      simp only [hdevice] at h
      cases hall : (w.verifyBind env key.1).or ((w.verifySegment env).or
        ((w.verifyBindEvents env).or ((w.verifyRedactionEvents env).or
          (env.payload.prompts.findSome? (w.verifyBody env))))) with
      | some e =>
        simp only [hall] at h
        split_ifs at h
      | none =>
        simp only [Option.or_eq_none_iff] at hall
        exact hall.2

theorem Envelope.segment_of_verify {w : Wire} {env : Envelope} {v : Verified}
    (h : w.verify env = .ok v) : env.SegmentOk w := by
  obtain ⟨hseg, -, hred, -⟩ := Wire.checks_of_verify h
  unfold Wire.verifySegment at hseg
  dsimp only at hseg
  cases hhead : env.events.head? with
  | none => rw [hhead] at hseg; cases hseg
  | some first =>
    cases hlast : env.events.getLast? with
    | none => rw [hhead, hlast] at hseg; cases hseg
    | some last =>
      simp only [hhead, hlast] at hseg
      by_cases hspan : first.seq ≠ env.header.segment.fromSeq ∨ last.seq ≠ env.header.segment.toSeq
      · rw [if_pos hspan] at hseg
        cases hseg
      by_cases hprev : first.prevHash ≠ env.header.segment.prevHashAtFrom
      · rw [if_neg hspan, if_pos hprev] at hseg
        cases hseg
      rw [if_neg hspan, if_neg hprev] at hseg
      rw [not_or, not_not, not_not] at hspan
      rw [not_not] at hprev
      cases hwalk : w.walkEvents first.prevHash (first.seq - 1) env.events with
      | some e => simp only [hwalk, reduceCtorEq] at hseg
      | none =>
        obtain ⟨hchain, hseqs⟩ := w.walkEvents_eq_none.mp hwalk
        refine ⟨hprev ▸ hchain, ?_, ?_, ?_, ?_⟩
        · rw [hseqs, sub_add_cancel, hspan.1]
        · intro hnil
          rw [hnil] at hhead
          cases hhead
        · intro e he
          rw [hlast, Option.some.injEq] at he
          rw [← he, hspan.2]
        · intro e he hkind
          unfold Wire.verifyRedactionEvents at hred
          rw [Option.map_eq_none_iff, List.find?_eq_none] at hred
          have := hred e he
          simpa [hkind] using this

theorem seqsFrom_nodup (a : ℤ) : ∀ n : ℕ, (seqsFrom a n).Nodup
  | 0 => List.nodup_nil
  | n + 1 => by
    rw [seqsFrom, List.nodup_cons]
    refine ⟨fun h => ?_, seqsFrom_nodup (a + 1) n⟩
    have := (mem_seqsFrom.mp h).1
    omega

theorem seqsFrom_append (a : ℤ) : ∀ n m : ℕ, seqsFrom a (n + m) = seqsFrom a n ++ seqsFrom (a + n) m
  | 0, m => by simp [seqsFrom]
  | n + 1, m => by
    rw [show n + 1 + m = (n + m) + 1 by omega, seqsFrom, seqsFrom, seqsFrom_append (a + 1) n m,
      List.cons_append]
    congr 3
    push_cast
    omega

/-- A run of seqs that starts no later than `b` splits there. -/
theorem split_at_seq {a b : ℤ} (hab : a ≤ b) : ∀ {xs : List LedgerEventRow},
    xs.map LedgerEventRow.seq = seqsFrom a xs.length →
    xs = (xs.filter fun e => e.seq < b) ++ xs.filter fun e => b ≤ e.seq
  | [], _ => rfl
  | x :: xs, h => by
    rw [List.map_cons, List.length_cons, seqsFrom, List.cons.injEq] at h
    obtain ⟨hx, hxs⟩ := h
    by_cases hb : a = b
    · -- from here on everything is at or past `b`
      have hall : ∀ e ∈ x :: xs, b ≤ e.seq := by
        intro e he
        rcases List.mem_cons.mp he with rfl | he
        · omega
        · have : e.seq ∈ seqsFrom (a + 1) xs.length := hxs ▸ List.mem_map_of_mem he
          have := (mem_seqsFrom.mp this).1
          omega
      have hlow : (x :: xs).filter (fun e => decide (e.seq < b)) = [] := by
        rw [List.filter_eq_nil_iff]
        intro e he
        have := hall e he
        simp only [decide_eq_true_eq]
        omega
      have hhigh : (x :: xs).filter (fun e => decide (b ≤ e.seq)) = x :: xs :=
        List.filter_eq_self.mpr fun e he => decide_eq_true (hall e he)
      rw [hlow, hhigh, List.nil_append]
    · have hlt : x.seq < b := by omega
      have hnle : ¬ b ≤ x.seq := by omega
      rw [List.filter_cons_of_pos (by simpa using hlt), List.filter_cons_of_neg (by simpa using hnle),
        List.cons_append, ← split_at_seq (show a + 1 ≤ b by omega) hxs]

namespace ForeignStore

/-! ### Whole chains -/

/-- What is held of a chain is its seqs from 1 to the head, a hash chain from
the genesis hash whose last hash is the head's. -/
structure WholeUpTo (sha256 : String → String) (events : List LedgerEventRow) (c : ForeignChain) :
    Prop where
  seqs : events.map LedgerEventRow.seq = seqsFrom 1 events.length
  headSeq : (events.length : ℤ) = c.headSeq
  chain : Chain (rowShape sha256) genesisPrev events
  headHash : events.getLast?.map LedgerEventRow.entryHash = some c.headHash

/-- A chain that is held is whole, and of one that is not held no event is. -/
def Whole (sha256 : String → String) (s : ForeignStore) (chainId : String) : Prop :=
  match s.chains.get? chainId with
  | none => s.held chainId = []
  | some c => WholeUpTo sha256 (s.held chainId) c

/-- What the continuity check lets in: the first segment of a chain, or one
that overlaps what is held without a difference, or one that follows the
head. -/
theorem continuity_ok {s : ForeignStore} {now first start : ℤ} {env : Envelope}
    (h : s.continuity now env = .ok (first, start)) :
    (s.chains.get? env.header.chainId = none ∧ env.header.segment.fromSeq = 1 ∧ start = 1) ∨
      ∃ c, s.chains.get? env.header.chainId = some c ∧ c.forked = false ∧
        env.header.segment.fromSeq ≤ c.headSeq + 1 ∧
        s.rewritten env.header.chainId c.headSeq env.events = none ∧
        (env.header.segment.fromSeq = c.headSeq + 1 →
          env.header.segment.prevHashAtFrom = c.headHash) ∧ start = c.headSeq + 1 := by
  unfold continuity at h
  dsimp only at h
  cases hc : s.chains.get? env.header.chainId with
  | none =>
    simp only [hc] at h
    by_cases hfrom : env.header.segment.fromSeq ≠ 1
    · rw [if_pos hfrom] at h
      cases h
    · rw [if_neg hfrom] at h
      cases h
      exact .inl ⟨rfl, not_not.mp hfrom, rfl⟩
  | some c =>
    simp only [hc] at h
    refine .inr ⟨c, rfl, ?_⟩
    by_cases hforked : c.forked = true
    · rw [if_pos hforked] at h
      cases h
    by_cases hgap : c.headSeq + 1 < env.header.segment.fromSeq
    · rw [if_neg hforked, if_pos hgap] at h
      cases h
    rw [if_neg hforked, if_neg hgap] at h
    cases hrew : s.rewritten env.header.chainId c.headSeq env.events with
    | some detail => simp only [hrew, reduceCtorEq] at h
    | none =>
      simp only [hrew] at h
      by_cases hlink : env.header.segment.fromSeq = c.headSeq + 1 ∧
          env.header.segment.prevHashAtFrom ≠ c.headHash
      · rw [if_pos hlink] at h
        cases h
      · rw [if_neg hlink] at h
        cases h
        refine ⟨by simpa using hforked, by omega, rfl, fun hfrom => ?_, rfl⟩
        by_contra hne
        exact hlink ⟨hfrom, hne⟩

/-- Where nothing is rewritten an event held has the hash the segment
carries. -/
theorem entryHash_of_rewritten {s : ForeignStore} {chainId : String} {headSeq : ℤ}
    {events : List LedgerEventRow} (h : s.rewritten chainId headSeq events = none)
    {e l : LedgerEventRow} (he : e ∈ events) (hle : e.seq ≤ headSeq) (hl : l ∈ s.held chainId)
    (hseq : l.seq = e.seq) : l.entryHash = e.entryHash := by
  unfold rewritten at h
  rw [List.findSome?_eq_none_iff] at h
  have hnone := h e (List.mem_filter.mpr ⟨he, decide_eq_true hle⟩)
  have hhash : s.foreignEventHash chainId e.seq = some l.entryHash := by
    rw [foreignEventHash, ← hseq, mem_held.mp hl]
    rfl
  unfold rewrittenAt at hnone
  simp only [hhash] at hnone
  by_contra hne
  rw [if_neg hne] at hnone
  cases hnone

/-- The events of a segment that overlaps or follows `n` events, split there:
the old ones end in what the new ones follow. -/
structure Splits (sha256 : String → String) (n : ℤ) (prevHash : String)
    (old new : List LedgerEventRow) : Prop where
  chain : Chain (rowShape sha256) (head (rowShape sha256) prevHash old) new
  seqs : new.map LedgerEventRow.seq = seqsFrom (n + 1) new.length
  last : new ≠ [] → ∀ e ∈ old.getLast?, e.seq = n

theorem splits_of_segmentOk {w : Wire} {env : Envelope} (h : env.SegmentOk w) {n : ℤ}
    (hfrom : env.header.segment.fromSeq ≤ n + 1) :
    Splits w.sha256 n env.header.segment.prevHashAtFrom
      (env.events.filter fun e => e.seq < n + 1) (env.newEvents (n + 1)) := by
  have hsplit := split_at_seq hfrom h.seqs
  have hold : ∀ e ∈ env.events.filter (fun e => decide (e.seq < n + 1)), e.seq < n + 1 :=
    fun e he => of_decide_eq_true (List.mem_filter.mp he).2
  have hnew : ∀ e ∈ env.newEvents (n + 1), n + 1 ≤ e.seq :=
    fun e he => of_decide_eq_true (List.mem_filter.mp he).2
  change env.events = _ ++ env.newEvents (n + 1) at hsplit
  generalize (env.events.filter fun e => decide (e.seq < n + 1)) = old at *
  generalize env.newEvents (n + 1) = new at *
  have hchain := h.chain
  have hseqs := h.seqs
  rw [hsplit] at hchain hseqs
  rw [List.map_append, List.length_append, seqsFrom_append] at hseqs
  obtain ⟨hseqsOld, hseqsNew⟩ := List.append_inj hseqs (by simp)
  obtain ⟨-, hchainNew⟩ := (chain_append _ _ _ _).mp hchain
  -- a new event puts the old ones right before `n + 1`
  have hmeet : new ≠ [] → env.header.segment.fromSeq + old.length = n + 1 := by
    intro hne
    obtain ⟨x, xs, rfl⟩ := List.exists_cons_of_ne_nil hne
    have hx := hnew x List.mem_cons_self
    rw [List.map_cons, List.length_cons, seqsFrom, List.cons.injEq] at hseqsNew
    rcases List.eq_nil_or_concat' old with rfl | ⟨ys, y, rfl⟩
    · simp only [List.length_nil, Nat.cast_zero, add_zero] at hseqsNew ⊢
      omega
    · have hy := hold y (by simp)
      rw [List.length_append, List.length_singleton, seqsFrom_concat, List.map_append] at hseqsOld
      have hlast := (List.append_inj hseqsOld (by simp)).2
      simp only [List.map_cons, List.map_nil, List.cons.injEq, and_true] at hlast
      rw [List.length_append, List.length_singleton] at hseqsNew ⊢
      push_cast at hseqsNew ⊢
      omega
  refine ⟨hchainNew, ?_, fun hne e he => ?_⟩
  · by_cases hne : new = []
    · subst hne
      rfl
    · rw [hseqsNew, hmeet hne]
  · rcases List.eq_nil_or_concat' old with rfl | ⟨ys, y, rfl⟩
    · cases he
    · have hlen := hmeet hne
      rw [List.length_append, List.length_singleton, seqsFrom_concat, List.map_append] at hseqsOld
      have hlast := (List.append_inj hseqsOld (by simp)).2
      simp only [List.map_cons, List.map_nil, List.cons.injEq, and_true] at hlast
      rw [List.getLast?_append, List.getLast?_singleton, Option.some_or, Option.mem_def,
        Option.some.injEq] at he
      subst he
      rw [List.length_append, List.length_singleton] at hlen
      push_cast at hlen
      omega

theorem seq_of_getLast? {xs : List LedgerEventRow} {a : ℤ} {e : LedgerEventRow}
    (hseqs : xs.map LedgerEventRow.seq = seqsFrom a xs.length) (he : xs.getLast? = some e) :
    e.seq = a + xs.length - 1 := by
  rcases List.eq_nil_or_concat' xs with rfl | ⟨ys, y, rfl⟩
  · cases he
  · rw [List.length_append, List.length_singleton, seqsFrom_concat, List.map_append] at hseqs
    have hlast := (List.append_inj hseqs (by simp)).2
    simp only [List.map_cons, List.map_nil, List.cons.injEq, and_true] at hlast
    rw [List.getLast?_append, List.getLast?_singleton, Option.some_or, Option.some.injEq] at he
    subst he
    rw [List.length_append, List.length_singleton]
    push_cast
    omega

/-- A chain that gets new events after those it has. -/
theorem WholeUpTo.of_append {sha256 : String → String} {events new : List LedgerEventRow}
    {last : LedgerEventRow} {c : ForeignChain}
    (hseqs : events.map LedgerEventRow.seq = seqsFrom 1 events.length)
    (hchain : Chain (rowShape sha256) genesisPrev events)
    (hnew : new.map LedgerEventRow.seq = seqsFrom (events.length + 1) new.length)
    (hlink : Chain (rowShape sha256) (head (rowShape sha256) genesisPrev events) new)
    (hlast : new.getLast? = some last) (hseq : c.headSeq = last.seq)
    (hhash : c.headHash = last.entryHash) : WholeUpTo sha256 (events ++ new) c where
  seqs := by
    rw [List.map_append, List.length_append, seqsFrom_append, hseqs, hnew, add_comm 1]
  headSeq := by
    have := seq_of_getLast? hnew hlast
    rw [hseq, List.length_append]
    push_cast
    omega
  chain := (chain_append _ _ _ _).mpr ⟨hchain, hlink⟩
  headHash := by
    rw [List.getLast?_append, hlast, Option.some_or, Option.map_some, hhash]

/-- The continuity check passes in this state and lets the segment in from
`start` on, and the first segment of a chain starts on the genesis hash. -/
def Fits (s : ForeignStore) (env : Envelope) (start : ℤ) : Prop :=
  (s.continuity 0 env).toOption.map Prod.snd = some start ∧
    (s.chains.get? env.header.chainId = none →
      env.header.segment.prevHashAtFrom = genesisPrev)

instance (s : ForeignStore) (env : Envelope) (start : ℤ) : Decidable (s.Fits env start) :=
  inferInstanceAs (Decidable (_ ∧ (_ → _)))

theorem Fits.continuity {s : ForeignStore} {env : Envelope} {start : ℤ} (h : s.Fits env start) :
    ∃ first, s.continuity 0 env = .ok (first, start) := by
  have hok := h.1
  cases hc : s.continuity 0 env with
  | error e => rw [hc] at hok; cases hok
  | ok x =>
    rw [hc] at hok
    obtain ⟨first, start'⟩ := x
    cases hok
    exact ⟨first, rfl⟩

/-- The old events of a segment end where the chain that is held ends. -/
theorem head_of_overlap {w : Wire} {s : ForeignStore} {env : Envelope} {c : ForeignChain}
    (hseg : env.SegmentOk w) (hw : WholeUpTo w.sha256 (s.held env.header.chainId) c)
    (hfrom : env.header.segment.fromSeq ≤ c.headSeq + 1)
    (hrew : s.rewritten env.header.chainId c.headSeq env.events = none)
    (hlink : env.header.segment.fromSeq = c.headSeq + 1 →
      env.header.segment.prevHashAtFrom = c.headHash)
    (hne : env.newEvents (c.headSeq + 1) ≠ []) :
    head (rowShape w.sha256) env.header.segment.prevHashAtFrom
      (env.events.filter fun e => e.seq < c.headSeq + 1) = c.headHash := by
  have hsplits := splits_of_segmentOk hseg hfrom
  rw [head_eq_getLast?]
  cases hlast : (env.events.filter fun e => decide (e.seq < c.headSeq + 1)).getLast? with
  | none =>
    -- nothing old: the segment starts right after the head
    refine hlink (le_antisymm hfrom ?_)
    have hold := List.getLast?_eq_none_iff.mp hlast
    obtain ⟨x, xs, hx⟩ := List.exists_cons_of_ne_nil hseg.nonempty
    have hseqs := hseg.seqs
    rw [hx, List.map_cons, List.length_cons, seqsFrom, List.cons.injEq] at hseqs
    have hnotold := List.filter_eq_nil_iff.mp hold x (by rw [hx]; exact List.mem_cons_self)
    simp only [decide_eq_true_eq] at hnotold
    omega
  | some e =>
    obtain ⟨hmem, hlt⟩ := List.mem_filter.mp (List.mem_of_getLast? hlast)
    have hseq : e.seq = c.headSeq := hsplits.last hne e hlast
    -- the event at the head is held, and the segment carries its hash
    obtain ⟨l, hl, hlhash⟩ := Option.map_eq_some_iff.mp hw.headHash
    have hlseq : l.seq = e.seq := by
      have hlen := hw.headSeq
      rw [seq_of_getLast? hw.seqs hl, hseq]
      omega
    have hsame := entryHash_of_rewritten hrew hmem (by omega) (List.mem_of_getLast? hl) hlseq
    rw [Option.map_some, Option.getD_some, rowShape_entry, ← hsame, hlhash]

theorem getLast?_of_newEvents {env : Envelope} {w : Wire} {n : ℤ} (hseg : env.SegmentOk w)
    (hfrom : env.header.segment.fromSeq ≤ n) (hne : env.newEvents n ≠ []) :
    env.events.getLast? = (env.newEvents n).getLast? := by
  have hsplit := split_at_seq hfrom hseg.seqs
  change env.events = _ ++ env.newEvents n at hsplit
  obtain ⟨e, he⟩ := Option.isSome_iff_exists.mp (List.getLast?_isSome.mpr hne)
  rw [hsplit, List.getLast?_append, he, Option.some_or]

section

variable {w : Wire} {s s' : ForeignStore} {env : Envelope} {now first start : ℤ}
  {projects : List String}

/-- The new events of a segment that fits have free seqs, one after another,
and follow what is held. -/
theorem Fits.fresh (hfits : s.Fits env start) (hseg : env.SegmentOk w)
    (hwhole : s.Whole w.sha256 env.header.chainId) :
    start = (s.held env.header.chainId).length + 1 ∧ env.header.segment.fromSeq ≤ start ∧
      (s.held env.header.chainId).map LedgerEventRow.seq =
        seqsFrom 1 (s.held env.header.chainId).length ∧
      Chain (rowShape w.sha256) genesisPrev (s.held env.header.chainId) ∧
      (env.newEvents start).map LedgerEventRow.seq =
        seqsFrom start (env.newEvents start).length ∧
      (env.newEvents start ≠ [] → Chain (rowShape w.sha256)
        (head (rowShape w.sha256) genesisPrev (s.held env.header.chainId)) (env.newEvents start)) := by
  obtain ⟨first', hcont⟩ := hfits.continuity
  have hgenesis := hfits.2
  unfold Whole at hwhole
  rcases continuity_ok hcont with ⟨hnone, hfrom, rfl⟩ | ⟨c, hc, -, hfrom, hrew, hlink, rfl⟩
  · rw [hnone] at hwhole
    dsimp only at hwhole
    have hsplits := splits_of_segmentOk (n := 0) hseg (by omega)
    have hold : env.events.filter (fun e => decide (e.seq < 0 + 1)) = [] := by
      rw [List.filter_eq_nil_iff]
      intro e he
      have hmem : e.seq ∈ seqsFrom env.header.segment.fromSeq env.events.length :=
        hseg.seqs ▸ List.mem_map_of_mem he
      have := (mem_seqsFrom.mp hmem).1
      simp only [decide_eq_true_eq]
      omega
    rw [hold] at hsplits
    refine ⟨by rw [hwhole]; rfl, hfrom.le, by rw [hwhole]; rfl, by rw [hwhole]; trivial,
      hsplits.seqs, fun _ => ?_⟩
    rw [hwhole, head_nil, ← hgenesis hnone]
    exact hsplits.chain
  · rw [hc] at hwhole
    dsimp only at hwhole
    have hsplits := splits_of_segmentOk hseg hfrom
    refine ⟨by rw [hwhole.headSeq], hfrom, hwhole.seqs, hwhole.chain, hsplits.seqs, fun hne => ?_⟩
    have hhead : head (rowShape w.sha256) genesisPrev (s.held env.header.chainId) = c.headHash := by
      rw [head_eq_getLast?]
      exact (congrArg (Option.getD · genesisPrev) hwhole.headHash).trans rfl
    rw [hhead, ← head_of_overlap hseg hwhole hfrom hrew hlink hne]
    exact hsplits.chain

/-! ### What a segment leaves alone -/

/-- The tables that no segment writes. -/
def besides (s : ForeignStore) :=
  (s.principals, s.ledger, s.acks, s.orgAcks, s.subscriptions, s.ownRedactions)

theorem besides_tombstone {c : String} {q : ℤ} (h : s.tombstone c q = .ok s') :
    s'.besides = s.besides := by
  unfold tombstone at h
  split_ifs at h
  cases h
  rfl

theorem besides_importPrompt {c : String} {p : ForeignPromptInput}
    (h : importPrompt now c s p = .ok s') : s'.besides = s.besides := by
  unfold importPrompt at h
  dsimp only at h
  split_ifs at h
  · have htomb := besides_tombstone h
    exact htomb
  · cases h
    rfl

theorem besides_importNote {c : String} {n : ForeignNoteInput} (h : importNote c s n = .ok s') :
    s'.besides = s.besides := by
  have hwritten (row : ForeignNoteRow) : (s.writeNote row).besides = s.besides := by
    unfold writeNote
    cases s.notes.get? row.key with
    | none => rfl
    | some old =>
      dsimp only
      split_ifs <;> rfl
  unfold importNote at h
  cases hseq : n.seq with
  | none => rw [hseq] at h; cases h
  | some seq =>
    simp only [hseq] at h
    split_ifs at h
    · rw [besides_tombstone h, hwritten]
    · cases h
      exact hwritten _

theorem besides_importRedaction {c : String} {r : ForeignRedactionInput}
    (h : importRedaction now c s r = .ok s') : s'.besides = s.besides := by
  unfold importRedaction at h
  dsimp only at h
  split_ifs at h
  have htomb := besides_tombstone h
  exact htomb

theorem besides_importRows {start : ℤ × ℤ} (h : s.importRows now env projects start = .ok s') :
    s'.besides = s.besides := by
  unfold ForeignStore.importRows at h
  cases hlast : env.events.getLast? with
  | none => rw [hlast] at h; cases h
  | some last =>
    simp only [hlast] at h
    cases hseg : s.importForeignSegment now (env.chainRow now start.1 last) (env.newEvents start.2)
        (env.promptInputs projects) env.noteInputs env.payload.principals env.redactionInputs with
    | error detail => simp only [hseg, reduceCtorEq] at h
    | ok t =>
      simp only [hseg, Except.ok.injEq] at h
      subst h
      unfold importForeignSegment at hseg
      dsimp only at hseg
      obtain ⟨s₁, h₁, hseg⟩ := bind_eq_ok.mp hseg
      obtain ⟨s₂, h₂, hseg⟩ := bind_eq_ok.mp hseg
      obtain ⟨s₃, h₃, hseg⟩ := bind_eq_ok.mp hseg
      cases hseg
      change s₃.besides = s.besides
      rw [foldlM_keeps (fun _ _ _ => besides_importRedaction) h₃,
        foldl_keeps (f := besides) (g := importPrincipal _) fun _ _ => rfl,
        foldlM_keeps (fun _ _ _ => besides_importNote) h₂,
        foldlM_keeps (fun _ _ _ => besides_importPrompt) h₁]
      exact foldl_keeps (f := besides) (g := importEvent _) fun _ _ => rfl

/-- The tables of this store's own that no import writes. -/
def owned (s : ForeignStore) := (s.principals, s.ledger, s.subscriptions, s.ownRedactions)

theorem owned_importRest (s : ForeignStore) (opts : ImportOptions) (env : Envelope) (startSeq : ℤ) :
    (s.importRest now opts env startSeq).owned = s.owned := by
  have hfold : ∀ t : ForeignStore, (env.payload.acks.foldl (importAck now env.header.chainId)
      (env.payload.vectors.foldl (importVector now opts.localModel env) t)).owned = t.owned := by
    intro t
    rw [foldl_keeps (f := owned) (g := importAck now env.header.chainId)]
    · refine foldl_keeps (f := owned) fun s v => ?_
      unfold importVector
      split
      · rfl
      · split_ifs
        · rfl
        · split <;> rfl
    · intro s a
      unfold importAck
      dsimp only
      split_ifs <;> rfl
  unfold importRest
  dsimp only
  split_ifs
  · exact hfold s
  · exact hfold s

/-- The chain's head after a segment. -/
theorem chains_importRows {start : ℤ × ℤ} (h : s.importRows now env projects start = .ok s') :
    ∃ last, env.events.getLast? = some last ∧
      s'.chains = s.chains.upsert (advanced (s.chains.get? env.header.chainId)
        (env.chainRow now start.1 last)) := by
  unfold ForeignStore.importRows at h
  cases hlast : env.events.getLast? with
  | none => rw [hlast] at h; cases h
  | some last =>
    rw [hlast] at h
    dsimp only at h
    cases hrows : s.importForeignSegment now (env.chainRow now start.1 last) (env.newEvents start.2)
        (env.promptInputs projects) env.noteInputs env.payload.principals env.redactionInputs with
    | error e => rw [hrows] at h; cases h
    | ok t =>
      rw [hrows] at h
      cases h
      exact ⟨last, rfl, congrArg Prod.fst (importForeignSegment_tables hrows)⟩

/-- The chains after a segment whose new events follow the seqs that are
held. -/
theorem importRows_held (hstart : start = (s.held env.header.chainId).length + 1)
    (hheld : (s.held env.header.chainId).map LedgerEventRow.seq =
      seqsFrom 1 (s.held env.header.chainId).length)
    (hnew : (env.newEvents start).map LedgerEventRow.seq =
      seqsFrom start (env.newEvents start).length)
    (h : s.importRows now env projects (first, start) = .ok s') :
    ∃ last, env.events.getLast? = some last ∧
      s'.chains = s.chains.upsert (advanced (s.chains.get? env.header.chainId)
        (env.chainRow now first last)) ∧
      ∀ chain, s'.held chain =
        s.held chain ++ if env.header.chainId = chain then env.newEvents start else [] := by
  unfold ForeignStore.importRows at h
  cases hlast : env.events.getLast? with
  | none => rw [hlast] at h; cases h
  | some last =>
    rw [hlast] at h
    dsimp only at h
    cases hrows : s.importForeignSegment now (env.chainRow now first last) (env.newEvents start)
        (env.promptInputs projects) env.noteInputs env.payload.principals env.redactionInputs with
    | error e => rw [hrows] at h; cases h
    | ok t =>
      rw [hrows] at h
      cases h
      have hnodup : ((env.newEvents start).map LedgerEventRow.seq).Nodup :=
        hnew ▸ seqsFrom_nodup _ _
      have hfree : ∀ e ∈ env.newEvents start,
          s.events.get? (env.header.chainId, e.seq) = none := by
        intro e he
        refine get?_events_eq_none fun l hl => ?_
        have hlmem : l.seq ∈ seqsFrom 1 (s.held env.header.chainId).length :=
          hheld ▸ List.mem_map_of_mem hl
        have hlt := (mem_seqsFrom.mp hlmem).2
        have hle : start ≤ e.seq := of_decide_eq_true (List.mem_filter.mp he).2
        omega
      obtain ⟨hchains, hevents⟩ := importForeignSegment_held hrows hnodup hfree
      exact ⟨last, rfl, hchains, hevents⟩

/-- The chains after a segment that fits. -/
theorem Fits.importRows (hfits : s.Fits env start) (hseg : env.SegmentOk w)
    (hwhole : s.Whole w.sha256 env.header.chainId)
    (h : s.importRows now env projects (first, start) = .ok s') :
    ∃ last, env.events.getLast? = some last ∧
      s'.chains = s.chains.upsert (advanced (s.chains.get? env.header.chainId)
        (env.chainRow now first last)) ∧
      ∀ chain, s'.held chain =
        s.held chain ++ if env.header.chainId = chain then env.newEvents start else [] := by
  obtain ⟨hstart, -, hheld, -, hnew, -⟩ := hfits.fresh hseg hwhole
  exact importRows_held hstart hheld hnew h

theorem advanced_chainId {old : Option ForeignChain} {c : ForeignChain}
    (h : ∀ o ∈ old, o.chainId = c.chainId) : (advanced old c).chainId = c.chainId := by
  cases old with
  | none => rfl
  | some o => exact h o rfl

/-- A segment without a new event leaves the chain and its head. -/
theorem Fits.whole_of_nothing_new {last : LedgerEventRow} (hfits : s.Fits env start)
    (hseg : env.SegmentOk w) (hwhole : s.Whole w.sha256 env.header.chainId)
    (hlast : env.events.getLast? = some last) (hne : env.newEvents start = []) :
    WholeUpTo w.sha256 (s.held env.header.chainId)
      (advanced (s.chains.get? env.header.chainId) (env.chainRow now first last)) := by
  unfold Whole at hwhole
  obtain ⟨first', hcont⟩ := hfits.continuity
  rcases continuity_ok hcont with ⟨-, hfrom, rfl⟩ | ⟨ch, hch, -, hfrom, hrew, -, rfl⟩
  · have hall : env.newEvents 1 = env.events := by
      refine List.filter_eq_self.mpr fun e he => decide_eq_true ?_
      have hmem : e.seq ∈ seqsFrom env.header.segment.fromSeq env.events.length :=
        hseg.seqs ▸ List.mem_map_of_mem he
      have := (mem_seqsFrom.mp hmem).1
      omega
    exact absurd (hall.symm.trans hne) hseg.nonempty
  · rw [hch] at hwhole ⊢
    dsimp only at hwhole
    have hmem := List.mem_of_getLast? hlast
    have hle : last.seq ≤ ch.headSeq := by
      by_contra hgt
      have : last ∈ env.newEvents (ch.headSeq + 1) :=
        List.mem_filter.mpr ⟨hmem, decide_eq_true (by omega)⟩
      rw [hne] at this
      cases this
    obtain ⟨l, hl, hlhash⟩ := Option.map_eq_some_iff.mp hwhole.headHash
    have hlseq : l.seq = ch.headSeq := by
      rw [seq_of_getLast? hwhole.seqs hl, ← hwhole.headSeq]
      omega
    have hhash : (advanced (some ch) (env.chainRow now first last)).headHash = ch.headHash := by
      by_cases hge : ch.headSeq ≤ last.seq
      · have hsame := entryHash_of_rewritten hrew hmem hle (List.mem_of_getLast? hl) (by omega)
        exact (if_pos hge).trans (hsame.symm.trans hlhash)
      · exact if_neg hge
    refine ⟨hwhole.seqs, ?_, hwhole.chain, ?_⟩
    · rw [hwhole.headSeq]
      exact (max_eq_left hle).symm
    · rw [hhash, hwhole.headHash]

/-- A segment with new events makes the last of them the head. -/
theorem Fits.whole_of_new {last : LedgerEventRow} (hfits : s.Fits env start)
    (hseg : env.SegmentOk w) (hwhole : s.Whole w.sha256 env.header.chainId)
    (hlast : env.events.getLast? = some last) (hne : env.newEvents start ≠ []) :
    WholeUpTo w.sha256 (s.held env.header.chainId ++ env.newEvents start)
      (advanced (s.chains.get? env.header.chainId) (env.chainRow now first last)) := by
  obtain ⟨hstart, hfrom, hseqs, hchain, hnew, hlink⟩ := hfits.fresh hseg hwhole
  have hlast' : (env.newEvents start).getLast? = some last :=
    (getLast?_of_newEvents hseg hfrom hne).symm.trans hlast
  have hlseq : last.seq = start + (env.newEvents start).length - 1 := seq_of_getLast? hnew hlast'
  have hpos : 0 < (env.newEvents start).length := List.length_pos_of_ne_nil hne
  unfold Whole at hwhole
  cases hch : s.chains.get? env.header.chainId with
  | none =>
    exact WholeUpTo.of_append hseqs hchain (hstart ▸ hnew) (hlink hne) hlast' rfl rfl
  | some ch =>
    rw [hch] at hwhole
    have hlen : _ = ch.headSeq := hwhole.headSeq
    have hle : ch.headSeq ≤ last.seq := by omega
    exact WholeUpTo.of_append hseqs hchain (hstart ▸ hnew) (hlink hne) hlast' (max_eq_right hle)
      (if_pos hle)

/-- **A segment that fits keeps every chain whole.** -/
theorem Fits.whole (hfits : s.Fits env start) (hseg : env.SegmentOk w)
    (hwhole : ∀ c, s.Whole w.sha256 c)
    (h : s.importRows now env projects (first, start) = .ok s') (c : String) :
    s'.Whole w.sha256 c := by
  obtain ⟨last, hlast, hchains, hevents⟩ := hfits.importRows hseg (hwhole _) h
  have hkey : (advanced (s.chains.get? env.header.chainId)
      (env.chainRow now first last)).chainId = env.header.chainId :=
    advanced_chainId fun o ho => Table.key_of_get? ho
  unfold Whole
  rw [hchains, Table.get?_upsert, hkey, hevents c]
  by_cases hc : env.header.chainId = c
  · subst hc
    rw [if_pos rfl, if_pos rfl]
    by_cases hne : env.newEvents start = []
    · rw [hne, List.append_nil]
      exact hfits.whole_of_nothing_new hseg (hwhole _) hlast hne
    · exact hfits.whole_of_new hseg (hwhole _) hlast hne
  · rw [if_neg hc, if_neg hc, List.append_nil]
    exact hwhole c

/-- **An event once imported stays**, and a chain that is marked forked gets
none. -/
theorem Fits.keeps (hfits : s.Fits env start) (hseg : env.SegmentOk w)
    (hwhole : s.Whole w.sha256 env.header.chainId)
    (h : s.importRows now env projects (first, start) = .ok s') (c : String) :
    s.held c <+: s'.held c ∧ ∀ ch, s.chains.get? c = some ch → ch.forked = true →
      s'.held c = s.held c ∧ s'.chains.get? c = some ch := by
  obtain ⟨last, -, hchains, hevents⟩ := hfits.importRows hseg hwhole h
  have hkey : (advanced (s.chains.get? env.header.chainId)
      (env.chainRow now first last)).chainId = env.header.chainId :=
    advanced_chainId fun o ho => Table.key_of_get? ho
  refine ⟨by rw [hevents]; exact List.prefix_append _ _, fun ch hch hforked => ?_⟩
  have hother : env.header.chainId ≠ c := by
    rintro rfl
    obtain ⟨first', hcont⟩ := hfits.continuity
    rcases continuity_ok hcont with ⟨hnone, -⟩ | ⟨ch', hch', hopen, -⟩
    · rw [hnone] at hch
      cases hch
    · rw [hch'] at hch
      cases hch
      rw [hopen] at hforked
      cases hforked
  constructor
  · rw [hevents, if_neg hother, List.append_nil]
  · rw [hchains, Table.get?_upsert, hkey, if_neg hother, hch]

end

end ForeignStore

end PolisMemory
