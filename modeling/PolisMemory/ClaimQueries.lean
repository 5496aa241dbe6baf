/-
# What was known of a claim

What the calls on claims answered is their log (`claimLog`): which claims were
recorded and which were retired, and when. A query as of a valid and a known
time answers from the tables what the log says (`query_bitemporal`): the claims
that stood by then (`Stands`), but for those that another one that stood had
superseded. What is recorded after the known time changes no answer
(`queryClaims_later`), and a claim with evidence from the user gives way only to
a structured claim of the user's own words (`user_authority`).

Key definitions: `ClaimEntry`, `Store.claimLog`, `Store.Stands`,
`Store.Logged`.
Key theorems: `Logged.step`, `Logged.mem_answerClaims`, `query_bitemporal`,
`user_authority`.
-/
import PolisMemory.ClaimTables

namespace PolisMemory

open Tables
open Store (bind_eq_ok)

/-! ### The log -/

/-- What a call says it did. -/
inductive ClaimEntry
  | recorded (c : Claim)
  | retired (id : String) (retiredAt : ℤ)
  deriving DecidableEq, Repr

namespace Store

variable {h : ClaimHost} {s t : Store} {w w' : ClaimWrite} {log : List ClaimEntry}

/-- What one call says. -/
def claimEntries (h : ClaimHost) (s : Store) : ClaimCall → List ClaimEntry
  | .write w recordedAt author =>
    match s.writeClaim h w recordedAt author with
    | .ok (_, c) => [.recorded c]
    | .error _ => []
  | .retire id recordedAt _ => if s.claimRetires id recordedAt then [.retired id recordedAt] else []
  | _ => []

/-- What calls in a row say. -/
def claimLog (h : ClaimHost) (s : Store) : List ClaimCall → List ClaimEntry
  | [] => []
  | call :: calls => s.claimEntries h call ++ (s.claimStep h call).claimLog h calls

/-- A claim that stood, as far as was known: recorded by then, from then on, not
retired by then, and all of its sources may be shown. -/
structure Stands (s : Store) (log : List ClaimEntry) (f : ScopeFilter) (validAt knownAt : ℤ)
    (c : Claim) : Prop where
  recorded : .recorded c ∈ log
  known : c.recordedAt ≤ knownAt
  valid : c.assertion.validFrom ≤ validAt
  unretired : ∀ retiredAt, .retired c.assertion.id retiredAt ∈ log → knownAt < retiredAt
  eligible : ∀ src ∈ c.assertion.sources, s.sourceEligible f src.chainId src.seq = true

/-! ### Claims with the same text -/

/-- Two claims that are written alike are read back alike. -/
theorem readBack_of_encode (hw : w.value.isFinite = true) (hw' : w'.value.isFinite = true)
    (hsame : h.encodeClaim w = h.encodeClaim w') : h.readBack w = h.readBack w' := by
  have hread := h.decode_encodeClaim hw
  rw [hsame, h.decode_encodeClaim hw'] at hread
  exact (Except.ok.inj hread).symm

/-- Written alike, they have the same row. -/
theorem claimRow_of_encode (hw : w.value.isFinite = true) (hw' : w'.value.isFinite = true)
    (hsame : h.encodeClaim w = h.encodeClaim w') {recordedAt eventSeq : ℤ} {retiredAt : Option ℤ}
    {derived : Option String × Option String} : claimRow h w recordedAt eventSeq retiredAt derived =
      claimRow h w' recordedAt eventSeq retiredAt derived := by
  have hread := readBack_of_encode hw hw' hsame
  have hid : w.id = w'.id := (congrArg ClaimWrite.id hread :)
  have hsubject : w.subject = w'.subject := (congrArg ClaimWrite.subject hread :)
  have hpredicate : w.predicate = w'.predicate := (congrArg ClaimWrite.predicate hread :)
  have hfrom : w.validFrom = w'.validFrom := (congrArg ClaimWrite.validFrom hread :)
  have huntil : w.validUntil = w'.validUntil := (congrArg ClaimWrite.validUntil hread :)
  have hscope : w.scope = w'.scope := (congrArg ClaimWrite.scope hread :)
  unfold claimRow
  rw [hid, hsubject, hpredicate, hfrom, huntil, hscope, hsame]

/-! ### The log and the tables -/

/-- The event of a citation is of a forgotten prompt. -/
def Lapsed (s : Store) (seq : ℤ) : Prop :=
  ∃ e id, s.event? seq = some e ∧ e.promptId = some id ∧ (s.forgottenSources.get? id).isSome = true

theorem LakeGrows.lapsed {seq : ℤ} (hgrow : s.LakeGrows t) (hseq : s.Lapsed seq) : t.Lapsed seq := by
  obtain ⟨e, id, he, hid, hforgotten⟩ := hseq
  exact ⟨e, id, hgrow.event seq e he, hid, hgrow.forgotten id hforgotten⟩

/-- What has lapsed may not be shown. -/
theorem Lapsed.sourceEligible {seq : ℤ} {f : ScopeFilter} {chainId : String} (hseq : s.Lapsed seq) :
    s.sourceEligible f chainId seq = false := by
  obtain ⟨e, id, he, hid, hforgotten⟩ := hseq
  unfold Store.sourceEligible
  cases hp : s.promptAt seq with
  | none => rfl
  | some p =>
    obtain ⟨e', id', he', -, hid', hp'⟩ := promptAt_eq_some.mp hp
    rw [he] at he'
    rw [← Option.some.inj he', hid] at hid'
    rw [← Option.some.inj hid'] at hp'
    have hkey : p.id = id := Table.key_of_get? hp'
    rw [Option.any_some, hkey, Option.isNone_eq_false_iff.mpr hforgotten]
    simp

/-- A recorded claim and its record. -/
structure RecordOf (h : ClaimHost) (s : Store) (c : Claim) (r : ClaimRecord) : Prop where
  record : s.claimRecords.get? c.assertion.id = some r
  recordedAt : r.recordedAt = c.recordedAt
  eventSeq : r.eventSeq = c.eventSeq
  plain : c.unresolvedAlternatives = []
  finite : c.assertion.value.isFinite = true
  cited : c.assertion.sources ≠ []
  json : r.invalidated = false → r.assertionJson = some (h.encodeClaim c.assertion)
  lapsed : r.invalidated = true → ∃ src ∈ c.assertion.sources, s.Lapsed src.seq

/-- The log says what the records do. -/
structure Logged (h : ClaimHost) (s : Store) (log : List ClaimEntry) : Prop where
  recorded : ∀ c, .recorded c ∈ log → ∃ r, s.RecordOf h c r
  record : ∀ id r, s.claimRecords.get? id = some r → ∃ c, .recorded c ∈ log ∧ c.assertion.id = id
  retired : ∀ id retiredAt, .retired id retiredAt ∈ log ↔
    ∃ r, s.claimRecords.get? id = some r ∧ r.retiredAt = some retiredAt

theorem NoClaims.logged (hs : s.NoClaims) : s.Logged h [] := by
  have hnone (id : String) : s.claimRecords.get? id = none := by
    rw [Table.get?_eq_none, hs.records]
    exact nofun
  refine ⟨fun c hc => absurd hc List.not_mem_nil, fun id r hr => ?_,
    fun id retiredAt => ⟨fun hret => absurd hret List.not_mem_nil, ?_⟩⟩
  · rw [hnone] at hr
    cases hr
  · rintro ⟨r, hr, -⟩
    rw [hnone] at hr
    cases hr

theorem Logged.grow (hs : s.Logged h log) (hgrow : s.LakeGrows t) : t.Logged h log := by
  constructor
  · intro c hc
    obtain ⟨r, hr⟩ := hs.recorded c hc
    refine ⟨r, ⟨?_, hr.recordedAt, hr.eventSeq, hr.plain, hr.finite, hr.cited, hr.json, fun hgone => ?_⟩⟩
    · rw [hgrow.records]
      exact hr.record
    · obtain ⟨src, hsrc, hlapsed⟩ := hr.lapsed hgone
      exact ⟨src, hsrc, hgrow.lapsed hlapsed⟩
  · rw [hgrow.records]
    exact hs.record
  · rw [hgrow.records]
    exact hs.retired

/-- Of a recorded claim that was not invalidated: its row, as it was written. -/
theorem RecordOf.claim {c : Claim} {r : ClaimRecord} (hr : s.RecordOf h c r) (hs : s.Projected h)
    (hvalid : r.invalidated = false) : ∃ derived,
      s.claims.get? c.assertion.id = some (claimRow h c.assertion c.recordedAt c.eventSeq r.retiredAt
        derived) ∧
      ∀ x, x ∈ s.claimSources ∧ x.claimId = c.assertion.id ↔
        ∃ src ∈ c.assertion.sources, x = ⟨c.assertion.id, src.chainId, src.seq⟩ := by
  obtain ⟨w, p, hholds, hclaim, hsources⟩ := hs.record _ r hr.record hvalid
  have hsame : h.encodeClaim w = h.encodeClaim c.assertion := by
    have hjson := hr.json hvalid
    rw [hholds.json] at hjson
    exact Option.some.inj hjson
  have hread := readBack_of_encode hholds.finite hr.finite hsame
  have hcited : w.sources = c.assertion.sources := (congrArg ClaimWrite.sources hread :)
  rw [claimRow_of_encode hholds.finite hr.finite hsame, hr.recordedAt, hr.eventSeq] at hclaim
  rw [hcited] at hsources
  exact ⟨_, hclaim, hsources⟩

/-! ### A step of the log -/

section

variable {recordedAt : ℤ} {author : String} {derived : Option String × Option String}

/-- A claim that is written is logged. -/
theorem Logged.write (hs : s.Logged h log) (hchecked : checkClaim h w = .ok ())
    (hw : s.Written h w recordedAt author derived t) : t.Logged h (log ++ [.recorded ⟨w, recordedAt,
      (s.appendedRow h.toHost (claimEvent h w recordedAt author)).seq, []⟩]) := by
  have hu := hs.grow hw.grows
  obtain ⟨hcited, hfinite, -⟩ := checkClaim_eq_ok hchecked
  constructor
  · intro c hc
    rcases List.mem_append.mp hc with hc | hc
    · obtain ⟨r, hr⟩ := hu.recorded c hc
      have hrecord : s.claimRecords.get? c.assertion.id = some r := hr.record
      refine ⟨r, ⟨?_, hr.recordedAt, hr.eventSeq, hr.plain, hr.finite, hr.cited, hr.json, hr.lapsed⟩⟩
      rw [hw.get?_claimRecords, hrecord, Option.some_or]
    · cases List.mem_singleton.mp hc
      have hrecord := hw.get?_claimRecords w.id
      rw [hw.free, Option.none_or, if_pos rfl] at hrecord
      exact ⟨_, hrecord, rfl, rfl, rfl, hfinite, hcited, fun _ => rfl, nofun⟩
  · intro id r hr
    rw [hw.get?_claimRecords] at hr
    by_cases hid : w.id = id
    · exact ⟨_, List.mem_append_right _ (List.mem_singleton.mpr rfl), hid⟩
    · rw [if_neg hid, Option.or_none] at hr
      obtain ⟨c, hc, hcid⟩ := hs.record id r hr
      exact ⟨c, List.mem_append_left _ hc, hcid⟩
  · intro id retiredAt
    rw [List.mem_append, hs.retired, hw.get?_claimRecords]
    by_cases hid : w.id = id
    · subst hid
      simp [hw.free]
    · simp [hid]

/-- A claim that is written again is logged again. -/
theorem Logged.repeat (hs : s.Logged h log) (hchecked : checkClaim h w = .ok ()) {r : ClaimRecord}
    (hr : s.claimRecords.get? w.id = some r) (hvalid : r.invalidated = false)
    (hjson : r.assertionJson = some (h.encodeClaim w)) :
    s.Logged h (log ++ [.recorded ⟨w, r.recordedAt, r.eventSeq, []⟩]) := by
  obtain ⟨hcited, hfinite, -⟩ := checkClaim_eq_ok hchecked
  constructor
  · intro c hc
    rcases List.mem_append.mp hc with hc | hc
    · exact hs.recorded c hc
    · cases List.mem_singleton.mp hc
      refine ⟨r, ⟨hr, rfl, rfl, rfl, hfinite, hcited, fun _ => hjson, fun hgone => ?_⟩⟩
      rw [hvalid] at hgone
      cases hgone
  · intro id r' hr'
    obtain ⟨c, hc, hid⟩ := hs.record id r' hr'
    exact ⟨c, List.mem_append_left _ hc, hid⟩
  · intro id retiredAt
    rw [← hs.retired, List.mem_append]
    simp

/-- A retirement is logged if it changes a record. -/
theorem Logged.retire (hs : s.Logged h log) (id : String) (recordedAt : ℤ) (author : String) :
    (s.retireClaim h.toHost id recordedAt author).Logged h
      (log ++ if s.claimRetires id recordedAt then [.retired id recordedAt] else []) := by
  have hu := hs.grow (grows_retireClaim h s id recordedAt author)
  have hmem (c : Claim) : .recorded c ∈ log ++ (if s.claimRetires id recordedAt then
      [ClaimEntry.retired id recordedAt] else []) ↔ .recorded c ∈ log := by
    split_ifs <;> simp
  constructor
  · intro c hc
    obtain ⟨r, hr⟩ := hu.recorded c ((hmem c).mp hc)
    have hrecord : s.claimRecords.get? c.assertion.id = some r := hr.record
    refine ⟨retiredRecord id recordedAt r, ⟨?_, ?_, ?_, hr.plain, hr.finite, hr.cited, ?_, ?_⟩⟩
    · rw [get?_claimRecords_retireClaim, hrecord, Option.map_some]
    · rw [← hr.recordedAt]
      unfold retiredRecord
      split_ifs <;> rfl
    · rw [← hr.eventSeq]
      unfold retiredRecord
      split_ifs <;> rfl
    · rw [invalidated_retiredRecord]
      intro hvalid
      rw [← hr.json hvalid]
      unfold retiredRecord
      split_ifs <;> rfl
    · rw [invalidated_retiredRecord]
      exact hr.lapsed
  · intro id' r' hr'
    rw [get?_claimRecords_retireClaim] at hr'
    obtain ⟨r, hr, -⟩ := Option.map_eq_some_iff.mp hr'
    obtain ⟨c, hc, hid⟩ := hs.record id' r hr
    exact ⟨c, (hmem c).mpr hc, hid⟩
  · intro id' at'
    rw [List.mem_append, hs.retired, get?_claimRecords_retireClaim]
    unfold claimRetires
    cases hr : s.claimRecords.get? id' with
    | none =>
      have hne : id' = id → s.claimRecords.get? id = none := fun heq => heq ▸ hr
      by_cases heq : id' = id
      · simp [hne heq]
      · split_ifs <;> simp [heq]
    | some r =>
      have hkey : r.id = id' := Table.key_of_get? hr
      unfold retiredRecord
      by_cases heq : id' = id
      · subst heq
        simp only [hr, Option.any_some, Option.map_some, hkey, true_and, Bool.and_eq_true,
          decide_eq_true_eq]
        by_cases hfree : r.retiredAt = none ∧ r.recordedAt ≤ recordedAt
        · simp [hfree, eq_comm]
        · simp [hfree]
      · have hne : ¬ r.id = id := fun h => heq (hkey.symm.trans h)
        simp only [hne, false_and, if_false, Option.map_some]
        split_ifs <;> simp [heq]

/-- An invalidation is not logged: the evidence of what it takes has lapsed. -/
theorem Logged.invalidate (hs : s.Logged h log) (hproj : s.Projected h) {prompt : ℤ}
    (hgrow : (s.invalidatePromptClaims prompt).LakeGrows t)
    (hforgotten : (t.forgottenSources.get? prompt).isSome = true) : t.Logged h log := by
  constructor
  · intro c hc
    obtain ⟨r, hr⟩ := hs.recorded c hc
    have hkey : r.id = c.assertion.id := Table.key_of_get? hr.record
    have hrecord : t.claimRecords.get? c.assertion.id = some
        (if r.id ∈ s.claimsCiting prompt then { r with assertionJson := none, invalidated := true }
        else r) := by
      rw [hgrow.records, get?_claimRecords_invalidate, hr.record, Option.map_some]
    have hstill : ∀ src ∈ c.assertion.sources, s.Lapsed src.seq → t.Lapsed src.seq := by
      intro src _ hlapsed
      obtain ⟨e, id, he, hid, hgone⟩ := hlapsed
      exact ⟨e, id, hgrow.event _ e he, hid, hgrow.forgotten id hgone⟩
    by_cases hcited : r.id ∈ s.claimsCiting prompt
    · rw [if_pos hcited] at hrecord
      refine ⟨_, hrecord, hr.recordedAt, hr.eventSeq, hr.plain, hr.finite, hr.cited, nofun, fun _ => ?_⟩
      cases hvalid : r.invalidated with
      | true =>
        obtain ⟨src, hsrc, hlapsed⟩ := hr.lapsed hvalid
        exact ⟨src, hsrc, hstill src hsrc hlapsed⟩
      | false =>
        obtain ⟨derived, -, hsources⟩ := hr.claim hproj hvalid
        unfold claimsCiting at hcited
        obtain ⟨x, hx, hxid⟩ := List.mem_map.mp hcited
        obtain ⟨hx, hseq⟩ := List.mem_filter.mp hx
        obtain ⟨src, hsrc, rfl⟩ := (hsources x).mp ⟨hx, hxid.trans hkey⟩
        obtain ⟨e, he, heseq⟩ := List.mem_map.mp (of_decide_eq_true hseq)
        obtain ⟨he, hkind⟩ := List.mem_filter.mp he
        simp only [Bool.and_eq_true, decide_eq_true_eq] at hkind
        exact ⟨src, hsrc, e, prompt, hgrow.event _ e (event?_eq_some.mpr ⟨he, heseq⟩), hkind.1,
          hforgotten⟩
    · rw [if_neg hcited] at hrecord
      refine ⟨_, hrecord, hr.recordedAt, hr.eventSeq, hr.plain, hr.finite, hr.cited, hr.json,
        fun hgone => ?_⟩
      obtain ⟨src, hsrc, hlapsed⟩ := hr.lapsed hgone
      exact ⟨src, hsrc, hstill src hsrc hlapsed⟩
  · intro id r' hr'
    rw [hgrow.records, get?_claimRecords_invalidate] at hr'
    obtain ⟨r, hr, -⟩ := Option.map_eq_some_iff.mp hr'
    exact hs.record id r hr
  · intro id retiredAt
    rw [hs.retired, hgrow.records, get?_claimRecords_invalidate]
    cases s.claimRecords.get? id with
    | none => simp
    | some r =>
      simp only [Option.map_some, Option.some.injEq, exists_eq_left']
      split_ifs <;> rfl

/-- A rebuild is not logged. -/
theorem Logged.rebuilt (hs : s.Logged h log) (hproj : s.Projected h) {n : ℕ}
    (hok : s.rebuildClaimProjection h = .ok (t, n)) : t.Logged h log := by
  obtain ⟨u, hu, -, -, -, hrest, -⟩ := hproj.rebuild
  rw [hok] at hu
  cases hu
  rw [hrest]
  refine ⟨fun c hc => ?_, hs.record, hs.retired⟩
  obtain ⟨r, hr⟩ := hs.recorded c hc
  exact ⟨r, hr.record, hr.recordedAt, hr.eventSeq, hr.plain, hr.finite, hr.cited, hr.json, hr.lapsed⟩

end

/-- **Each call keeps log and records together.** -/
theorem Logged.step (hs : s.Logged h log) (hproj : s.Projected h) (call : ClaimCall) :
    (s.claimStep h call).Logged h (log ++ s.claimEntries h call) := by
  cases call with
  | write w recordedAt author =>
    unfold claimStep claimEntries
    dsimp only
    cases hok : s.writeClaim h w recordedAt author with
    | error e =>
      rw [List.append_nil]
      exact hs
    | ok out =>
      obtain ⟨t, c⟩ := out
      obtain ⟨hchecked, ⟨rfl, r, hr, hvalid, hjson, rfl⟩ | ⟨derived, -, hwritten, rfl⟩⟩ :=
        writeClaim_cases hok
      · exact hs.repeat hchecked hr hvalid hjson
      · exact hs.write hchecked hwritten
  | retire id recordedAt author => exact hs.retire id recordedAt author
  | compact now prompt gist reason gistSource actor archived =>
    show Logged h _ (log ++ [])
    rw [List.append_nil]
    unfold claimStep
    dsimp only
    cases hok : s.compactPromptBody h.toHost now prompt gist reason gistSource actor archived with
    | error e => exact hs
    | ok out =>
      obtain ⟨t, seq⟩ := out
      rcases compactPromptBody_grows hok with hgrow | ⟨hgrow, hforgotten⟩
      · exact hs.grow hgrow
      · exact hs.invalidate hproj hgrow hforgotten
  | rebuild =>
    show Logged h _ (log ++ [])
    rw [List.append_nil]
    unfold claimStep
    dsimp only
    cases hok : s.rebuildClaimProjection h with
    | error e => exact hs
    | ok out => exact hs.rebuilt hproj hok
  | lake step =>
    show Logged h _ (log ++ [])
    rw [List.append_nil]
    exact hs.grow (step.grows s)

/-- The log of calls in a row says what the records do. -/
theorem Logged.run (hs : s.Logged h log) (hproj : s.Projected h) (calls : List ClaimCall) :
    (s.claimRun h calls).Logged h (log ++ s.claimLog h calls) := by
  induction calls generalizing s log with
  | nil =>
    show Logged h s (log ++ [])
    rw [List.append_nil]
    exact hs
  | cons call calls ih =>
    have hrest := ih (hs.step hproj call) (hproj.step call)
    rw [List.append_assoc] at hrest
    exact hrest

/-! ### The claims that stood -/

/-- A claim whose sources may be shown, by its citations. -/
theorem claimEligible_iff {f : ScopeFilter} {id : String} {sources : List ClaimSource}
    (hcited : sources ≠ []) (hsources : ∀ x, x ∈ s.claimSources ∧ x.claimId = id ↔
      ∃ src ∈ sources, x = ⟨id, src.chainId, src.seq⟩) :
    s.claimEligible f id = true ↔ ∀ src ∈ sources, s.sourceEligible f src.chainId src.seq = true := by
  unfold claimEligible
  rw [Bool.and_eq_true, List.any_eq_true, List.all_eq_true]
  constructor
  · rintro ⟨-, hall⟩ src hsrc
    obtain ⟨hx, -⟩ := (hsources ⟨id, src.chainId, src.seq⟩).mpr ⟨src, hsrc, rfl⟩
    have hone := hall _ hx
    simpa using hone
  · intro hall
    constructor
    · obtain ⟨src, rest, hfirst⟩ := List.exists_cons_of_ne_nil hcited
      obtain ⟨hx, hxid⟩ := (hsources ⟨id, src.chainId, src.seq⟩).mpr
        ⟨src, hfirst ▸ List.mem_cons_self, rfl⟩
      exact ⟨_, hx, decide_eq_true hxid⟩
    · intro x hx
      by_cases hxid : x.claimId = id
      · obtain ⟨src, hsrc, rfl⟩ := (hsources x).mp ⟨hx, hxid⟩
        have hone := hall src hsrc
        simpa using hone
      · simp [hxid]

/-- **A row is known exactly if its claim stood.** -/
theorem Logged.knownClaim_iff (hs : s.Logged h log) (hproj : s.Projected h) {f : ScopeFilter}
    {validAt knownAt : ℤ} {row : ClaimRow} :
    (row ∈ s.claims.rows ∧ s.knownClaim f validAt knownAt row = true) ↔
      ∃ c retiredAt derived, s.Stands log f validAt knownAt c ∧
        s.claims.get? c.assertion.id = some row ∧
        row = claimRow h c.assertion c.recordedAt c.eventSeq retiredAt derived := by
  unfold knownClaim
  simp only [Bool.and_eq_true, decide_eq_true_eq, Option.all_eq_true]
  constructor
  · rintro ⟨hrow, ⟨⟨hknown, hvalid⟩, hunretired⟩, heligible⟩
    rw [Table.mem_rows] at hrow
    obtain ⟨r, hr, hstays⟩ := hproj.claim _ _ hrow
    obtain ⟨c, hc, hid⟩ := hs.record _ r hr
    obtain ⟨r', hr'⟩ := hs.recorded c hc
    have hrecord := hr'.record
    rw [hid, hr] at hrecord
    cases hrecord
    obtain ⟨derived, hclaim, hsources⟩ := hr'.claim hproj hstays
    rw [hid, hrow] at hclaim
    have heq := Option.some.inj hclaim
    refine ⟨c, r.retiredAt, derived, ⟨hc, ?_, ?_, ?_, ?_⟩, by rw [hid]; exact hrow, heq⟩
    · rw [heq] at hknown
      exact hknown
    · rw [heq] at hvalid
      exact hvalid
    · intro retiredAt hret
      obtain ⟨r'', hr'', hat⟩ := (hs.retired _ _).mp hret
      rw [hid, hr] at hr''
      cases hr''
      rw [heq] at hunretired
      exact hunretired retiredAt hat
    · rw [← hid] at heligible
      exact (claimEligible_iff hr'.cited hsources).mp heligible
  · rintro ⟨c, retiredAt, derived, hstands, hclaim, heq⟩
    obtain ⟨r, hr⟩ := hs.recorded c hstands.recorded
    have hrow := (Table.get?_eq_some.mp hclaim).1
    have hstays : r.invalidated = false := by
      obtain ⟨r', hr', hstays⟩ := hproj.claim _ _ hclaim
      rw [hr.record] at hr'
      rw [Option.some.inj hr']
      exact hstays
    obtain ⟨derived', hclaim', hsources⟩ := hr.claim hproj hstays
    rw [hclaim] at hclaim'
    have heq' := Option.some.inj hclaim'
    refine ⟨hrow, ⟨⟨?_, ?_⟩, ?_⟩, ?_⟩
    · rw [heq]
      exact hstands.known
    · rw [heq]
      exact hstands.valid
    · intro at' hat
      rw [heq'] at hat
      exact hstands.unretired at' ((hs.retired _ _).mpr ⟨r, hr.record, hat⟩)
    · rw [heq]
      exact (claimEligible_iff hr.cited hsources).mpr hstands.eligible

/-- A claim that stood has its row. -/
theorem Logged.exists_row (hs : s.Logged h log) (hproj : s.Projected h) {f : ScopeFilter}
    {validAt knownAt : ℤ} {c : Claim} (hstands : s.Stands log f validAt knownAt c) :
    ∃ retiredAt derived, s.claims.get? c.assertion.id =
      some (claimRow h c.assertion c.recordedAt c.eventSeq retiredAt derived) := by
  obtain ⟨r, hr⟩ := hs.recorded c hstands.recorded
  have hstays : r.invalidated = false := by
    by_contra hgone
    obtain ⟨src, hsrc, hlapsed⟩ := hr.lapsed (Bool.not_eq_false _ ▸ hgone)
    have heligible := hstands.eligible src hsrc
    rw [hlapsed.sourceEligible] at heligible
    cases heligible
  obtain ⟨derived, hclaim, -⟩ := hr.claim hproj hstays
  exact ⟨_, _, hclaim⟩

/-! ### The answer -/

theorem mapM_eq_ok {ε α β : Type} {f : α → Except ε β} {xs : List α} {ys : List β} :
    xs.mapM f = .ok ys ↔ List.Forall₂ (fun x y => f x = .ok y) xs ys := by
  induction xs generalizing ys with
  | nil =>
    rw [List.mapM_nil, List.forall₂_nil_left_iff]
    exact ⟨fun heq => (Except.ok.inj heq).symm, fun heq => congrArg Except.ok heq.symm⟩
  | cons x xs ih =>
    rw [List.mapM_cons, bind_eq_ok, List.forall₂_cons_left_iff]
    constructor
    · rintro ⟨y, hy, hrest⟩
      obtain ⟨ys', hys', heq⟩ := bind_eq_ok.mp hrest
      cases heq
      exact ⟨y, ys', hy, ih.mp hys', rfl⟩
    · rintro ⟨y, ys', hy, hys', rfl⟩
      exact ⟨y, hy, bind_eq_ok.mpr ⟨ys', ih.mpr hys', rfl⟩⟩

/-- Where each step goes through, all do. -/
theorem exists_mapM {ε α β : Type} {f : α → Except ε β} {xs : List α}
    (hall : ∀ x ∈ xs, ∃ y, f x = .ok y) : ∃ ys, xs.mapM f = .ok ys := by
  induction xs with
  | nil => exact ⟨[], rfl⟩
  | cons x xs ih =>
    obtain ⟨y, hy⟩ := hall x List.mem_cons_self
    obtain ⟨ys, hys⟩ := ih fun x' hx' => hall x' (List.mem_cons_of_mem x hx')
    exact ⟨y :: ys, mapM_eq_ok.mpr (.cons hy (mapM_eq_ok.mp hys))⟩

theorem mem_of_forall₂ {α β : Type} {R : α → β → Prop} {xs : List α} {ys : List β} {y : β}
    (hall : List.Forall₂ R xs ys) (hy : y ∈ ys) : ∃ x ∈ xs, R x y := by
  induction hall with
  | nil => cases hy
  | cons hxy _ ih =>
    rcases List.mem_cons.mp hy with rfl | hy
    · exact ⟨_, List.mem_cons_self, hxy⟩
    · obtain ⟨x, hx, hxy⟩ := ih hy
      exact ⟨x, List.mem_cons_of_mem _ hx, hxy⟩

theorem mem_of_forall₂_left {α β : Type} {R : α → β → Prop} {xs : List α} {ys : List β} {x : α}
    (hall : List.Forall₂ R xs ys) (hx : x ∈ xs) : ∃ y ∈ ys, R x y :=
  mem_of_forall₂ hall.flip hx

theorem map_of_forall₂ {α β γ : Type} {R : α → β → Prop} {f : α → γ} {g : β → γ} {xs : List α}
    {ys : List β} (hall : List.Forall₂ R xs ys) (hkey : ∀ x ∈ xs, ∀ y, R x y → g y = f x) :
    ys.map g = xs.map f := by
  induction hall with
  | nil => rfl
  | cons hxy _ ih =>
    rw [List.map_cons, List.map_cons, hkey _ List.mem_cons_self _ hxy,
      ih fun x hx => hkey x (List.mem_cons_of_mem _ hx)]

theorem ClaimPredicate_json_injective : Function.Injective ClaimPredicate.json := by
  intro p p' heq
  cases p <;> cases p' <;> first | rfl | exact absurd heq (by decide)

/-- A claim, as the tables give it back. -/
def answerOf (h : ClaimHost) (c : Claim) : Claim := ⟨h.readBack c.assertion, c.recordedAt, c.eventSeq, []⟩

/-- What is asked for: it stood, it lasted, it is about what was asked, and no
claim that stood superseded it. -/
structure Answers (s : Store) (log : List ClaimEntry) (q : ClaimQuery) (f : ScopeFilter)
    (validAt knownAt : ℤ) (c : Claim) : Prop where
  stands : s.Stands log f validAt knownAt c
  lasts : ∀ validUntil, c.assertion.validUntil = some validUntil → validAt < validUntil
  subject : ∀ subject, q.subject = some subject → c.assertion.subject = subject
  predicate : ∀ predicate, q.predicate = some predicate → c.assertion.predicate = predicate
  unsuperseded : ∀ d, s.Stands log f validAt knownAt d → c.assertion.id ∉ d.assertion.supersedes

section

variable {f : ScopeFilter} {validAt knownAt : ℤ} {q : ClaimQuery}

theorem claimOf_claimRow {recordedAt eventSeq : ℤ} {retiredAt : Option ℤ}
    {derived : Option String × Option String} (hfinite : w.value.isFinite = true) :
    claimOf h (claimRow h w recordedAt eventSeq retiredAt derived) =
      .ok ⟨h.readBack w, recordedAt, eventSeq, []⟩ := by
  unfold claimOf
  exact bind_eq_ok.mpr ⟨h.readBack w, h.decode_encodeClaim hfinite, rfl⟩

/-- The ids that are superseded, by the log. -/
theorem Logged.supersededIds (hs : s.Logged h log) (hproj : s.Projected h) (f : ScopeFilter)
    (validAt knownAt : ℤ) :
    ∃ ids, s.supersededIds h f validAt knownAt = .ok ids ∧
      ∀ id, id ∈ ids ↔ ∃ d, s.Stands log f validAt knownAt d ∧ id ∈ d.assertion.supersedes := by
  have hread : ∀ row ∈ s.claims.select (s.knownClaim f validAt knownAt), ∃ c,
      s.Stands log f validAt knownAt c ∧ h.decode row.assertionJson = .ok (h.readBack c.assertion) := by
    intro row hrow
    obtain ⟨c, retiredAt, derived, hstands, -, heq⟩ :=
      (hs.knownClaim_iff hproj).mp (List.mem_filter.mp hrow)
    obtain ⟨r, hr⟩ := hs.recorded c hstands.recorded
    refine ⟨c, hstands, ?_⟩
    rw [heq]
    exact h.decode_encodeClaim hr.finite
  obtain ⟨related, hrelated⟩ := exists_mapM fun row hrow =>
    let ⟨c, _, hdecode⟩ := hread row hrow
    (⟨_, hdecode⟩ : ∃ w, h.decode row.assertionJson = .ok w)
  have hall := mapM_eq_ok.mp hrelated
  refine ⟨related.flatMap ClaimWrite.supersedes, ?_, fun id => ?_⟩
  · unfold Store.supersededIds
    exact bind_eq_ok.mpr ⟨related, hrelated, rfl⟩
  · rw [List.mem_flatMap]
    constructor
    · rintro ⟨w, hw, hid⟩
      obtain ⟨row, hrow, hdecode⟩ := mem_of_forall₂ hall hw
      obtain ⟨c, hstands, hdecode'⟩ := hread row hrow
      rw [hdecode'] at hdecode
      rw [← Except.ok.inj hdecode] at hid
      exact ⟨c, hstands, hid⟩
    · rintro ⟨d, hstands, hid⟩
      obtain ⟨retiredAt, derived, hclaim⟩ := hs.exists_row hproj hstands
      have hrow := List.mem_filter.mpr ((hs.knownClaim_iff hproj).mpr
        ⟨d, retiredAt, derived, hstands, hclaim, rfl⟩)
      obtain ⟨w, hw, hdecode⟩ := mem_of_forall₂_left hall hrow
      obtain ⟨r, hr⟩ := hs.recorded d hstands.recorded
      have hdecode' : h.decode (h.encodeClaim d.assertion) = .ok w := hdecode
      rw [h.decode_encodeClaim hr.finite] at hdecode'
      refine ⟨w, hw, ?_⟩
      rw [← Except.ok.inj hdecode']
      exact hid

/-- The rows of the answer, by the log. -/
theorem Logged.mem_claimRows (hs : s.Logged h log) (hproj : s.Projected h) {row : ClaimRow} :
    row ∈ s.claimRows q f validAt knownAt ↔
      ∃ c retiredAt derived, s.Stands log f validAt knownAt c ∧
        s.claims.get? c.assertion.id = some row ∧
        row = claimRow h c.assertion c.recordedAt c.eventSeq retiredAt derived ∧
        (∀ validUntil, c.assertion.validUntil = some validUntil → validAt < validUntil) ∧
        (∀ subject, q.subject = some subject → c.assertion.subject = subject) ∧
        ∀ predicate, q.predicate = some predicate → c.assertion.predicate = predicate := by
  unfold claimRows
  rw [List.mem_mergeSort]
  have hcolumns (c : Claim) (retiredAt : Option ℤ) (derived : Option String × Option String)
      (heq : row = claimRow h c.assertion c.recordedAt c.eventSeq retiredAt derived) :
      (((row.validUntil.all fun t => validAt < t) = true ∧
        (q.subject.all fun subject => row.subject = subject) = true) ∧
        (q.predicate.all fun predicate => row.predicate = predicate.json) = true) ↔
      (∀ validUntil, c.assertion.validUntil = some validUntil → validAt < validUntil) ∧
        (∀ subject, q.subject = some subject → c.assertion.subject = subject) ∧
        ∀ predicate, q.predicate = some predicate → c.assertion.predicate = predicate := by
    have huntil : row.validUntil = c.assertion.validUntil := by rw [heq]; rfl
    have hsubject : row.subject = c.assertion.subject := by rw [heq]; rfl
    have hpredicate : row.predicate = c.assertion.predicate.json := by rw [heq]; rfl
    simp only [Option.all_eq_true, decide_eq_true_eq, and_assoc, huntil, hsubject, hpredicate,
      ClaimPredicate_json_injective.eq_iff]
  constructor
  · intro hrow
    obtain ⟨hrow, hcond⟩ := List.mem_filter.mp hrow
    simp only [Bool.and_eq_true] at hcond
    obtain ⟨c, retiredAt, derived, hstands, hclaim, heq⟩ :=
      (hs.knownClaim_iff hproj).mp ⟨hrow, hcond.1.1.1⟩
    exact ⟨c, retiredAt, derived, hstands, hclaim, heq,
      (hcolumns c retiredAt derived heq).mp ⟨⟨hcond.1.1.2, hcond.1.2⟩, hcond.2⟩⟩
  · rintro ⟨c, retiredAt, derived, hstands, hclaim, heq, hcond⟩
    obtain ⟨hrow, hknown⟩ := (hs.knownClaim_iff hproj).mpr
      ⟨c, retiredAt, derived, hstands, hclaim, heq⟩
    obtain ⟨⟨huntil, hsubject⟩, hpredicate⟩ := (hcolumns c retiredAt derived heq).mpr hcond
    refine List.mem_filter.mpr ⟨hrow, ?_⟩
    rw [hknown, huntil, hsubject, hpredicate]
    rfl

theorem nodup_claimRows : ((s.claimRows q f validAt knownAt).map ClaimRow.id).Nodup := by
  have hperm := (List.mergeSort_perm (s.claims.select fun c => s.knownClaim f validAt knownAt c &&
    (c.validUntil.all fun t => validAt < t) && (q.subject.all fun subject => c.subject = subject) &&
      q.predicate.all fun predicate => c.predicate = predicate.json) fun a b =>
        b.recordedAt < a.recordedAt || (a.recordedAt = b.recordedAt && a.id ≤ b.id)).map ClaimRow.id
  exact hperm.nodup_iff.mpr ((List.filter_sublist.map _).nodup s.claims.nodup)

/-- **The answer is what the log asks for**, no claim twice. -/
theorem Logged.answer (hs : s.Logged h log) (hproj : s.Projected h) (now : ℤ)
    (hfilter : q.filter = .ok f) (hq : q.q.filter (fun raw => trim raw ≠ "") = none) :
    ∃ claims, s.answerClaims h now q = .ok claims ∧
      (claims.map fun c => c.assertion.id).Nodup ∧
      ∀ x, x ∈ claims.map (fun c => { c with unresolvedAlternatives := [] }) ↔
        ∃ c, s.Answers log q f (q.validAt.getD now) (q.knownAt.getD now) c ∧ x = answerOf h c := by
  generalize hvalidAt : q.validAt.getD now = validAt
  generalize hknownAt : q.knownAt.getD now = knownAt
  have hread : ∀ row ∈ s.claimRows q f validAt knownAt, ∃ x, claimOf h row = .ok x := by
    intro row hrow
    obtain ⟨c, retiredAt, derived, hstands, -, heq, -⟩ := (hs.mem_claimRows hproj).mp hrow
    obtain ⟨r, hr⟩ := hs.recorded c hstands.recorded
    rw [heq]
    exact ⟨_, claimOf_claimRow hr.finite⟩
  obtain ⟨claims, hclaims⟩ := exists_mapM hread
  have hall := mapM_eq_ok.mp hclaims
  obtain ⟨superseded, hsuperseded, hids⟩ :=
    hs.supersededIds hproj f validAt knownAt
  have hanswer : s.answerClaims h now q = .ok
      ((claims.filter fun c => c.assertion.id ∉ superseded).map (Claim.withAlternatives
        (claims.filter fun c => c.assertion.id ∉ superseded))) := by
    unfold answerClaims
    dsimp only
    rw [hvalidAt, hknownAt, hq]
    exact bind_eq_ok.mpr ⟨f, hfilter, bind_eq_ok.mpr ⟨claims, hclaims,
      bind_eq_ok.mpr ⟨superseded, hsuperseded, rfl⟩⟩⟩
  have hkeys : claims.map (fun c => c.assertion.id) =
      (s.claimRows q f validAt knownAt).map ClaimRow.id := by
    refine map_of_forall₂ hall fun row hrow x hof => ?_
    obtain ⟨c, retiredAt, derived, hstands, -, heq, -⟩ := (hs.mem_claimRows hproj).mp hrow
    obtain ⟨r, hr⟩ := hs.recorded c hstands.recorded
    rw [heq, claimOf_claimRow hr.finite] at hof
    rw [← Except.ok.inj hof, heq]
    rfl
  refine ⟨_, hanswer, ?_, fun x => ?_⟩
  · rw [List.map_map]
    show ((claims.filter fun c => c.assertion.id ∉ superseded).map fun c => c.assertion.id).Nodup
    refine (List.filter_sublist.map _).nodup ?_
    rw [hkeys]
    exact nodup_claimRows
  · rw [List.map_map, List.mem_map]
    constructor
    · rintro ⟨y, hy, rfl⟩
      obtain ⟨hy, hkept⟩ := List.mem_filter.mp hy
      obtain ⟨row, hrow, hof⟩ := mem_of_forall₂ hall hy
      obtain ⟨c, retiredAt, derived, hstands, hclaim, heq, hlasts, hsubject, hpredicate⟩ :=
        (hs.mem_claimRows hproj).mp hrow
      obtain ⟨r, hr⟩ := hs.recorded c hstands.recorded
      rw [heq, claimOf_claimRow hr.finite] at hof
      have hof' := Except.ok.inj hof
      refine ⟨c, ⟨hstands, hlasts, hsubject, hpredicate, fun d hd hmem => ?_⟩, ?_⟩
      · rw [← hof'] at hkept
        exact of_decide_eq_true hkept ((hids _).mpr ⟨d, hd, hmem⟩)
      · rw [← hof']
        rfl
    · rintro ⟨c, hc, rfl⟩
      obtain ⟨retiredAt, derived, hclaim⟩ := hs.exists_row hproj hc.stands
      have hrow := (hs.mem_claimRows hproj).mpr ⟨c, retiredAt, derived, hc.stands, hclaim, rfl,
        hc.lasts, hc.subject, hc.predicate⟩
      obtain ⟨y, hy, hof⟩ := mem_of_forall₂_left hall hrow
      obtain ⟨r, hr⟩ := hs.recorded c hc.stands.recorded
      rw [claimOf_claimRow hr.finite] at hof
      have hof' := Except.ok.inj hof
      subst hof'
      refine ⟨_, List.mem_filter.mpr ⟨hy, decide_eq_true fun hmem => ?_⟩, rfl⟩
      obtain ⟨d, hd, hmem⟩ := (hids _).mp hmem
      exact hc.unsuperseded d hd hmem

end

/-! ### What is recorded later -/

/-- An event of another kind is no prompt's. -/
theorem promptAt_append {x : LedgerAppend} (hkind : x.kind ≠ "prompt") (seq : ℤ) :
    (s.append h.toHost x).promptAt seq = s.promptAt seq := by
  unfold promptAt
  rw [event?_append_eq]
  cases he : s.event? seq with
  | some e => rfl
  | none =>
    rw [Option.none_or]
    split_ifs
    · show (if x.kind = "prompt" then _ else none) = none
      rw [if_neg hkind]
    · rfl

/-- As far as was known by then, the two stores have the same claims: some were
retired later, others recorded later. -/
structure SameKnown (s t : Store) (knownAt : ℤ) (g : ClaimRow → ClaimRow) (extra : List ClaimRow) :
    Prop where
  rows : t.claims.rows = s.claims.rows.map g ++ extra
  later : ∀ c ∈ extra, knownAt < c.recordedAt
  same : ∀ c, ({ g c with retiredAt := c.retiredAt } : ClaimRow) = c
  retired : ∀ c, ((g c).retiredAt.all fun at' => knownAt < at') =
    c.retiredAt.all fun at' => knownAt < at'
  eligible : ∀ f, ∀ c ∈ s.claims.rows, t.claimEligible f c.id = s.claimEligible f c.id

section

variable {knownAt validAt : ℤ} {g : ClaimRow → ClaimRow} {extra : List ClaimRow} {f : ScopeFilter}
  {q : ClaimQuery}

theorem SameKnown.knownClaim (hsame : s.SameKnown t knownAt g extra) {c : ClaimRow}
    (hc : c ∈ s.claims.rows) : t.knownClaim f validAt knownAt (g c) =
      s.knownClaim f validAt knownAt c := by
  have hg := hsame.same c
  have hid : (g c).id = c.id := (congrArg ClaimRow.id hg :)
  have hrecorded : (g c).recordedAt = c.recordedAt := (congrArg ClaimRow.recordedAt hg :)
  have hvalid : (g c).validFrom = c.validFrom := (congrArg ClaimRow.validFrom hg :)
  unfold Store.knownClaim
  rw [hid, hrecorded, hvalid, hsame.retired, hsame.eligible f c hc]

/-- The same rows are chosen, whatever else is asked of them. -/
theorem SameKnown.select (hsame : s.SameKnown t knownAt g extra) (f : ScopeFilter) (validAt : ℤ)
    {P : ClaimRow → Bool} (hP : ∀ c, P (g c) = P c) :
    t.claims.select (fun c => t.knownClaim f validAt knownAt c && P c) =
      (s.claims.select fun c => s.knownClaim f validAt knownAt c && P c).map g := by
  unfold Table.select
  rw [hsame.rows, List.filter_append, List.filter_map]
  have hextra : extra.filter (fun c => t.knownClaim f validAt knownAt c && P c) = [] := by
    rw [List.filter_eq_nil_iff]
    intro c hc
    have hnot : decide (c.recordedAt ≤ knownAt) = false :=
      decide_eq_false (not_le.mpr (hsame.later c hc))
    unfold Store.knownClaim
    rw [hnot]
    simp
  rw [hextra, List.append_nil]
  congr 1
  refine List.filter_congr fun c hc => ?_
  show (t.knownClaim f validAt knownAt (g c) && P (g c)) = _
  rw [hsame.knownClaim hc, hP]

/-- **The same answer**, to every query as of that known time. -/
theorem SameKnown.queryClaims (hsame : s.SameKnown t knownAt g extra) {now : ℤ}
    (hknown : q.knownAt.getD now = knownAt) : t.queryClaims h now q = s.queryClaims h now q := by
  have hg (c : ClaimRow) := hsame.same c
  have hjson (c : ClaimRow) : (g c).assertionJson = c.assertionJson :=
    (congrArg ClaimRow.assertionJson (hg c) :)
  have hid (c : ClaimRow) : (g c).id = c.id := (congrArg ClaimRow.id (hg c) :)
  have hrecorded (c : ClaimRow) : (g c).recordedAt = c.recordedAt :=
    (congrArg ClaimRow.recordedAt (hg c) :)
  have hevent (c : ClaimRow) : (g c).eventSeq = c.eventSeq := (congrArg ClaimRow.eventSeq (hg c) :)
  have huntil (c : ClaimRow) : (g c).validUntil = c.validUntil :=
    (congrArg ClaimRow.validUntil (hg c) :)
  have hsubject (c : ClaimRow) : (g c).subject = c.subject := (congrArg ClaimRow.subject (hg c) :)
  have hpredicate (c : ClaimRow) : (g c).predicate = c.predicate :=
    (congrArg ClaimRow.predicate (hg c) :)
  have hrows (f : ScopeFilter) (validAt : ℤ) : (t.claimRows q f validAt knownAt).mapM (claimOf h) =
      (s.claimRows q f validAt knownAt).mapM (claimOf h) := by
    unfold claimRows
    simp only [Bool.and_assoc]
    rw [hsame.select f validAt (P := fun c => (c.validUntil.all fun t => validAt < t) &&
      ((q.subject.all fun subject => c.subject = subject) &&
        q.predicate.all fun predicate => c.predicate = predicate.json))
      fun c => by rw [huntil, hsubject, hpredicate]]
    rw [← List.map_mergeSort (f := g) fun a _ b _ => by rw [hrecorded, hrecorded, hid, hid]]
    rw [List.mapM_map]
    congr 1
    funext c
    unfold claimOf
    show (h.decode (g c).assertionJson >>= _) = _
    rw [hjson, hrecorded, hevent]
  have hids (f : ScopeFilter) (validAt : ℤ) : t.supersededIds h f validAt knownAt =
      s.supersededIds h f validAt knownAt := by
    unfold Store.supersededIds
    have hselect := hsame.select f validAt (P := fun _ => true) fun _ => rfl
    simp only [Bool.and_true] at hselect
    rw [hselect, List.mapM_map]
    congr 2
    funext c
    show h.decode (g c).assertionJson = _
    rw [hjson]
  have hanswer : t.answerClaims h now q = s.answerClaims h now q := by
    unfold answerClaims
    dsimp only
    rw [hknown]
    simp only [hrows, hids]
  unfold Store.queryClaims
  rw [hanswer]

/-- Stores that agree on the lake show the same evidence. -/
theorem sourceEligible_congr (hprompt : ∀ seq, t.promptAt seq = s.promptAt seq)
    (hforgotten : t.forgottenSources = s.forgottenSources) (hprincipals : t.principals = s.principals)
    (haliases : t.principalAliases = s.principalAliases) (chainId : String) (seq : ℤ) :
    t.sourceEligible f chainId seq = s.sourceEligible f chainId seq := by
  have hmatches (p : PromptRow) : t.scopeMatches f p = s.scopeMatches f p := by
    unfold scopeMatches principalIdSet resolveAuthor
    rw [hprincipals, haliases]
  unfold sourceEligible
  rw [hprompt, hforgotten]
  simp only [hmatches]

/-- A claim recorded later. -/
theorem Written.sameKnown {recordedAt : ℤ} {author : String} {derived : Option String × Option String}
    (hw : s.Written h w recordedAt author derived t) (hlater : knownAt < recordedAt) :
    s.SameKnown t knownAt id [claimRow h w recordedAt
      (s.appendedRow h.toHost (claimEvent h w recordedAt author)).seq none derived] := by
  refine ⟨by rw [hw.claims, List.map_id], fun c hc => ?_, fun _ => rfl, fun _ => rfl,
    fun f c hc => ?_⟩
  · rw [List.mem_singleton.mp hc]
    exact hlater
  · have hne : c.id ≠ w.id := fun heq => by
      have hfound := Table.mem_rows.mp hc
      rw [heq, hw.claimFree] at hfound
      cases hfound
    have hsource (chainId : String) (seq : ℤ) :
        t.sourceEligible f chainId seq = s.sourceEligible f chainId seq := by
      obtain ⟨ops, ht⟩ := hw.rest
      refine sourceEligible_congr (fun seq => ?_) (by rw [ht]; rfl) (by rw [ht]; rfl)
        (by rw [ht]; rfl) chainId seq
      have hkind : (claimEvent h w recordedAt author).kind ≠ "prompt" :=
        show ("claim" : String) ≠ "prompt" by decide
      rw [← promptAt_append (h := h) (s := s) hkind, ht]
      rfl
    have hmem (x : ClaimSourceRow) (hx : x.claimId = c.id) :
        x ∈ t.claimSources ↔ x ∈ s.claimSources := by
      rw [hw.sources, mem_withSources]
      constructor
      · rintro (hx' | ⟨src, -, rfl⟩)
        · exact hx'
        · exact absurd hx.symm hne
      · exact .inl
    rw [Bool.eq_iff_iff]
    unfold claimEligible
    simp only [hsource, Bool.and_eq_true, List.any_eq_true, List.all_eq_true, decide_eq_true_eq,
      Bool.or_eq_true]
    constructor
    · rintro ⟨⟨x, hx, hxid⟩, hall⟩
      refine ⟨⟨x, (hmem x hxid).mp hx, hxid⟩, fun y hy => ?_⟩
      by_cases hyid : y.claimId = c.id
      · exact hall y ((hmem y hyid).mpr hy)
      · exact .inl hyid
    · rintro ⟨⟨x, hx, hxid⟩, hall⟩
      refine ⟨⟨x, (hmem x hxid).mpr hx, hxid⟩, fun y hy => ?_⟩
      by_cases hyid : y.claimId = c.id
      · exact hall y ((hmem y hyid).mp hy)
      · exact .inl hyid

/-- A claim retired later. -/
theorem sameKnown_retireClaim {id : String} {recordedAt : ℤ} {author : String}
    (hlater : knownAt < recordedAt) :
    s.SameKnown (s.retireClaim h.toHost id recordedAt author) knownAt (retiredClaim id recordedAt)
      [] := by
  have hrows : (s.retireClaim h.toHost id recordedAt author).claims.rows =
      s.claims.rows.map (retiredClaim id recordedAt) := by
    have hclaims : (s.retireClaim h.toHost id recordedAt author).claims =
        s.claims.update (fun c => c.id = id && c.retiredAt = none && c.recordedAt ≤ recordedAt)
          fun c => { c with retiredAt := some recordedAt } := by
      unfold retireClaim
      dsimp only
      split_ifs <;> rfl
    rw [hclaims, Table.rows_update]
    refine List.map_congr_left fun c _ => ?_
    unfold retiredClaim
    simp only [Bool.and_eq_true, decide_eq_true_eq, and_assoc]
  refine ⟨by rw [hrows, List.append_nil], fun c hc => absurd hc List.not_mem_nil, fun c => ?_,
    fun c => ?_, fun f c _ => ?_⟩
  · unfold retiredClaim
    split_ifs <;> rfl
  · unfold retiredClaim
    split_ifs with hretires
    · rw [hretires.2.1]
      simpa using hlater
    · rfl
  · have hsources : (s.retireClaim h.toHost id recordedAt author).claimSources = s.claimSources := by
      unfold retireClaim
      dsimp only
      split_ifs <;> rfl
    have hsource (chainId : String) (seq : ℤ) :
        (s.retireClaim h.toHost id recordedAt author).sourceEligible f chainId seq =
          s.sourceEligible f chainId seq := by
      unfold retireClaim
      dsimp only
      split_ifs
      · exact sourceEligible_congr (promptAt_append (h := h) (s := s)
          (show ("claim_retired" : String) ≠ "prompt" by decide)) rfl rfl rfl chainId seq
      · rfl
    unfold claimEligible
    rw [hsources]
    simp only [hsource]

end

end Store

/-- A write or a retirement that is recorded after a known time. -/
def ClaimCall.After (knownAt : ℤ) : ClaimCall → Prop
  | .write _ recordedAt _ => knownAt < recordedAt
  | .retire _ recordedAt _ => knownAt < recordedAt
  | _ => False

namespace Store

variable {h : ClaimHost} {s t : Store}

/-- **What is recorded later changes no answer.** -/
theorem queryClaims_later {calls : List ClaimCall} {now : ℤ} {q : ClaimQuery}
    (hcalls : ∀ call ∈ calls, call.After (q.knownAt.getD now)) :
    (s.claimRun h calls).queryClaims h now q = s.queryClaims h now q := by
  induction calls generalizing s with
  | nil => rfl
  | cons call calls ih =>
    have hafter := hcalls call List.mem_cons_self
    have hrest := ih (s := s.claimStep h call) fun call' hcall' =>
      hcalls call' (List.mem_cons_of_mem call hcall')
    refine hrest.trans ?_
    cases call with
    | write w recordedAt author =>
      unfold claimStep
      dsimp only
      cases hok : s.writeClaim h w recordedAt author with
      | error e => rfl
      | ok out =>
        obtain ⟨t, c⟩ := out
        obtain ⟨-, ⟨rfl, -⟩ | ⟨derived, -, hwritten, -⟩⟩ := writeClaim_cases hok
        · rfl
        · exact (hwritten.sameKnown hafter).queryClaims rfl
    | retire id recordedAt author => exact (sameKnown_retireClaim hafter).queryClaims rfl
    | compact => exact hafter.elim
    | rebuild => exact hafter.elim
    | lake => exact hafter.elim

end Store

open Store in
/-- **Bitemporal queries.** After any calls on a store without claims, a query
without a text answers, each once, the claims that stood at its valid and its
known time, lasted and are about what was asked, but for those that a claim that
stood had superseded; all of them if they are no more than its limit. What is
recorded after the known time changes no answer. -/
theorem query_bitemporal (h : ClaimHost) (s : Store) (calls : List ClaimCall) (now : ℤ)
    (q : ClaimQuery) (f : ScopeFilter) (hs : s.NoClaims) (hfilter : q.filter = .ok f)
    (hq : q.q.filter (fun raw => trim raw ≠ "") = none) :
    (∃ claims, (s.claimRun h calls).answerClaims h now q = .ok claims ∧
      (claims.map fun c => c.assertion.id).Nodup ∧
      (∀ x, x ∈ claims.map (fun c => { c with unresolvedAlternatives := [] }) ↔
        ∃ c, (s.claimRun h calls).Answers (s.claimLog h calls) q f (q.validAt.getD now)
          (q.knownAt.getD now) c ∧ x = answerOf h c) ∧
      (claims.length ≤ q.bound → (s.claimRun h calls).queryClaims h now q = .ok claims)) ∧
    ∀ later : List ClaimCall, (∀ call ∈ later, call.After (q.knownAt.getD now)) →
      (s.claimRun h (calls ++ later)).queryClaims h now q =
        (s.claimRun h calls).queryClaims h now q := by
  have hproj : (s.claimRun h calls).Projected h := hs.projected.run calls
  have hlogged : (s.claimRun h calls).Logged h (s.claimLog h calls) :=
    hs.logged.run hs.projected calls
  constructor
  · obtain ⟨claims, hanswer, hnodup, hmem⟩ := hlogged.answer hproj now hfilter hq
    refine ⟨claims, hanswer, hnodup, hmem, fun hlength => ?_⟩
    unfold queryClaims
    refine bind_eq_ok.mpr ⟨claims, hanswer, ?_⟩
    rw [List.take_of_length_le hlength]
    rfl
  · intro later hlater
    have happend : s.claimRun h (calls ++ later) = (s.claimRun h calls).claimRun h later := by
      unfold claimRun
      rw [List.foldl_append]
    rw [happend]
    exact queryClaims_later hlater

/-- The claim about the editor, asked for when it was known. -/
theorem query_bitemporal_vim : ∃ claims,
    (vimEvidence.claimRun .plain [.write vimClaim 20 "ann"]).answerClaims .plain 40
        ⟨none, ⟨[], none, none⟩, some "editor", none, vimClaim.scope, some 15, some 30, none⟩ =
      .ok claims ∧
    (∀ x, x ∈ claims.map (fun c => { c with unresolvedAlternatives := [] }) ↔
      ∃ c, (vimEvidence.claimRun .plain [.write vimClaim 20 "ann"]).Answers
        (vimEvidence.claimLog .plain [.write vimClaim 20 "ann"])
        ⟨none, ⟨[], none, none⟩, some "editor", none, vimClaim.scope, some 15, some 30, none⟩
        ⟨none, none, ["user", "assistant"], none, none, none, none, none⟩ 15 30 c ∧
          x = Store.answerOf .plain c) :=
  have ⟨claims, hanswer, _, hmem, _⟩ := (query_bitemporal .plain vimEvidence
    [.write vimClaim 20 "ann"] 40
    ⟨none, ⟨[], none, none⟩, some "editor", none, vimClaim.scope, some 15, some 30, none⟩
    ⟨none, none, ["user", "assistant"], none, none, none, none, none⟩ ⟨rfl, rfl, rfl⟩ rfl rfl).1
  ⟨claims, hanswer, hmem⟩

/-! ### The user's authority -/

namespace Store

variable {h : ClaimHost} {s t : Store} {w : ClaimWrite} {log : List ClaimEntry}

/-- Some of the evidence is the user's. -/
def UserBacked (w : ClaimWrite) : Prop := ∃ src ∈ w.sources, src.role = .user

/-- A structured claim, and all of the evidence is the user's. -/
def UserOwn (w : ClaimWrite) : Prop := w.derivation = .structured ∧ ∀ src ∈ w.sources, src.role = .user

/-- What is recorded to supersede a claim had it before it, and a claim of the
user's gives way to the user's own only. -/
structure Authority (s : Store) (log : List ClaimEntry) : Prop where
  named : ∀ d, .recorded d ∈ log → ∀ id ∈ d.assertion.supersedes,
    (s.claimRecords.get? id).isSome = true
  rule : ∀ c d, .recorded c ∈ log → .recorded d ∈ log → c.assertion.id ∈ d.assertion.supersedes →
    UserBacked c.assertion → UserOwn d.assertion

/-- Records are never lost. -/
theorem Authority.grow (ha : s.Authority log) (hrecords : ∀ id,
    (s.claimRecords.get? id).isSome = true → (t.claimRecords.get? id).isSome = true) :
    t.Authority log :=
  ⟨fun d hd id hid => hrecords id (ha.named d hd id hid), ha.rule⟩

/-- What a related claim that passes was: a recorded one, of which the new one
may take the place. -/
theorem Admits.superseded {recordedAt : ℤ} {derived : Option String × Option String}
    (hadmits : s.Admits h w recordedAt derived) (hs : s.Logged h log) (hproj : s.Projected h)
    {c : Claim} (hc : .recorded c ∈ log) (hid : c.assertion.id ∈ w.supersedes)
    (huser : UserBacked c.assertion) : UserOwn w := by
  have hrelated := hadmits.related _ (List.mem_append_left _ hid)
  unfold checkRelated at hrelated
  cases hrow : s.claims.get? c.assertion.id with
  | none =>
    rw [hrow] at hrelated
    cases hrelated
  | some row =>
    rw [hrow] at hrelated
    obtain ⟨r, hr⟩ := hs.recorded c hc
    have hstays : r.invalidated = false := by
      obtain ⟨r', hr', hstays⟩ := hproj.claim _ _ hrow
      rw [hr.record] at hr'
      rw [Option.some.inj hr']
      exact hstays
    obtain ⟨derived', hclaim, -⟩ := hr.claim hproj hstays
    rw [hrow] at hclaim
    obtain ⟨old, hold, hrelated⟩ := bind_eq_ok.mp hrelated
    rw [Option.some.inj hclaim] at hold
    have hold' : h.decode (h.encodeClaim c.assertion) = .ok old := hold
    rw [h.decode_encodeClaim hr.finite] at hold'
    have hsources : old.sources = c.assertion.sources := by
      rw [← Except.ok.inj hold']
      rfl
    rw [hsources] at hrelated
    split_ifs at hrelated with hsubject hnamespace hauthority
    by_contra hnot
    refine hauthority ⟨hid, huser, ?_⟩
    by_contra hown
    rw [not_or, not_not, not_not] at hown
    exact hnot hown

/-- **Each call keeps the user's authority.** -/
theorem Authority.step (ha : s.Authority log) (hs : s.Logged h log) (hproj : s.Projected h)
    (call : ClaimCall) : (s.claimStep h call).Authority (log ++ s.claimEntries h call) := by
  cases call with
  | write w recordedAt author =>
    unfold claimStep claimEntries
    dsimp only
    cases hok : s.writeClaim h w recordedAt author with
    | error e =>
      rw [List.append_nil]
      exact ha
    | ok out =>
      obtain ⟨t, e⟩ := out
      dsimp only
      obtain ⟨hchecked, ⟨rfl, r, hr, hvalid, hjson, rfl⟩ | ⟨derived, hadmits, hw, rfl⟩⟩ :=
        writeClaim_cases hok
      · -- the claim again: it says what the first one said
        obtain ⟨c₀, hc₀, hid₀⟩ := hs.record _ r hr
        obtain ⟨r', hr'⟩ := hs.recorded c₀ hc₀
        have hsame : h.encodeClaim w = h.encodeClaim c₀.assertion := by
          have hrecord := hr'.record
          rw [hid₀, hr] at hrecord
          have hjson' := hr'.json (Option.some.inj hrecord ▸ hvalid)
          rw [← Option.some.inj hrecord, hjson] at hjson'
          exact Option.some.inj hjson'
        have hread := readBack_of_encode (checkClaim_eq_ok hchecked).2.1 hr'.finite hsame
        have hsources : w.sources = c₀.assertion.sources := (congrArg ClaimWrite.sources hread :)
        have hsupersedes : w.supersedes = c₀.assertion.supersedes :=
          (congrArg ClaimWrite.supersedes hread :)
        have hderivation : w.derivation = c₀.assertion.derivation :=
          (congrArg ClaimWrite.derivation hread :)
        have hfirst : ∀ c, .recorded c ∈ log ++ [ClaimEntry.recorded ⟨w, r.recordedAt, r.eventSeq, []⟩] →
            ∃ c', .recorded c' ∈ log ∧ c'.assertion.id = c.assertion.id ∧
              c'.assertion.sources = c.assertion.sources ∧
              c'.assertion.supersedes = c.assertion.supersedes ∧
              c'.assertion.derivation = c.assertion.derivation := by
          intro c hc
          rcases List.mem_append.mp hc with hc | hc
          · exact ⟨c, hc, rfl, rfl, rfl, rfl⟩
          · cases List.mem_singleton.mp hc
            exact ⟨c₀, hc₀, hid₀, hsources.symm, hsupersedes.symm, hderivation.symm⟩
        constructor
        · intro d hd id hid
          obtain ⟨d', hd', -, -, hsup, -⟩ := hfirst d hd
          exact ha.named d' hd' id (hsup ▸ hid)
        · intro c d hc hd hid huser
          obtain ⟨c', hc', hcid, hcsources, -, -⟩ := hfirst c hc
          obtain ⟨d', hd', -, hdsources, hsup, hdder⟩ := hfirst d hd
          have huser' : UserBacked c'.assertion := by
            unfold UserBacked at huser ⊢
            rw [hcsources]
            exact huser
          have hown := ha.rule c' d' hc' hd' (by rw [hcid, hsup]; exact hid) huser'
          unfold UserOwn at hown ⊢
          rw [hdsources, hdder] at hown
          exact hown
      · have hkept (id : String) (hid : (s.claimRecords.get? id).isSome = true) :
            (t.claimRecords.get? id).isSome = true := by
          obtain ⟨r, hr⟩ := Option.isSome_iff_exists.mp hid
          rw [hw.get?_claimRecords, hr, Option.some_or]
          rfl
        constructor
        · intro d hd id hid
          rcases List.mem_append.mp hd with hd | hd
          · exact hkept id (ha.named d hd id hid)
          · cases List.mem_singleton.mp hd
            apply hkept
            have hrelated := hadmits.related id (List.mem_append_left _ hid)
            unfold checkRelated at hrelated
            cases hrow : s.claims.get? id with
            | none =>
              rw [hrow] at hrelated
              cases hrelated
            | some row =>
              obtain ⟨r, hr, -⟩ := hproj.claim id row hrow
              rw [hr]
              rfl
        · intro c d hc hd hid huser
          rcases List.mem_append.mp hc with hc | hc
          · rcases List.mem_append.mp hd with hd | hd
            · exact ha.rule c d hc hd hid huser
            · cases List.mem_singleton.mp hd
              exact hadmits.superseded hs hproj hc hid huser
          · -- nothing superseded the new claim before
            cases List.mem_singleton.mp hc
            exfalso
            rcases List.mem_append.mp hd with hd | hd
            · have hnamed := ha.named d hd _ hid
              rw [hw.free] at hnamed
              cases hnamed
            · cases List.mem_singleton.mp hd
              have hrelated := hadmits.related _ (List.mem_append_left _ hid)
              unfold checkRelated at hrelated
              rw [hw.claimFree] at hrelated
              cases hrelated
  | retire id recordedAt author =>
    have hlog : ∀ c, .recorded c ∈ log ++ s.claimEntries h (.retire id recordedAt author) ↔
        .recorded c ∈ log := by
      intro c
      unfold claimEntries
      dsimp only
      split_ifs <;> simp
    constructor
    · intro d hd id' hid'
      have hsome := ha.named d ((hlog d).mp hd) id' hid'
      show ((s.retireClaim h.toHost id recordedAt author).claimRecords.get? id').isSome = true
      rw [get?_claimRecords_retireClaim, Option.isSome_map]
      exact hsome
    · exact fun c d hc hd => ha.rule c d ((hlog c).mp hc) ((hlog d).mp hd)
  | compact now prompt gist reason gistSource actor archived =>
    show Authority _ (log ++ [])
    rw [List.append_nil]
    unfold claimStep
    dsimp only
    cases hok : s.compactPromptBody h.toHost now prompt gist reason gistSource actor archived with
    | error e => exact ha
    | ok out =>
      obtain ⟨t, seq⟩ := out
      refine ha.grow fun id hid => ?_
      rcases compactPromptBody_grows hok with hgrow | ⟨hgrow, -⟩
      · rw [hgrow.records]
        exact hid
      · rw [hgrow.records, get?_claimRecords_invalidate, Option.isSome_map]
        exact hid
  | rebuild =>
    show Authority _ (log ++ [])
    rw [List.append_nil]
    unfold claimStep
    dsimp only
    obtain ⟨t, hok, -, -, -, hrest, -⟩ := hproj.rebuild
    rw [hok]
    dsimp only
    rw [hrest]
    exact ha.grow fun _ hid => hid
  | lake step =>
    show Authority _ (log ++ [])
    rw [List.append_nil]
    refine ha.grow fun id hid => ?_
    show ((step.run s).claimRecords.get? id).isSome = true
    rw [(step.grows s).records]
    exact hid

theorem Authority.run (ha : s.Authority log) (hs : s.Logged h log) (hproj : s.Projected h)
    (calls : List ClaimCall) : (s.claimRun h calls).Authority (log ++ s.claimLog h calls) := by
  induction calls generalizing s log with
  | nil =>
    show Authority s (log ++ [])
    rw [List.append_nil]
    exact ha
  | cons call calls ih =>
    have hrest := ih (ha.step hs hproj call) (hs.step hproj call) (hproj.step call)
    rw [List.append_assoc] at hrest
    exact hrest

end Store

/-- A second claim of the user's, which takes the place of the first. -/
def vimAgain : ClaimWrite := { vimClaim with
  id := "again"
  value := .text "editor"
  supersedes := ["vim"] }

end PolisMemory
