/-
# The claims are what their records project to

The calls on claims (`claimStep`) write the records and the projection side by
side. After any of them (`Projected`): each record that was not invalidated has
its row in `claims` and its citations in `claim_sources`, as a replay would
write them, and there is no other row in `claims`. A rebuild leaves both tables
as they were (`rebuild_claims`); the citations of an invalidated claim stay as
well, which no replay would write.

Key definitions: `Store.LakeGrows`, `ClaimCall`, `Store.claimRun`,
`Store.Projected`.
Key theorems: `Store.writeClaim_cases`, `Projected.step`, `rebuild_claims`.
-/
import PolisMemory.Claims

namespace PolisMemory

open Tables
open Store (bind_eq_ok)

namespace Store

variable {h : ClaimHost} {s s' t : Store} {w : ClaimWrite}

/-! ### What goes on beside the claims -/

/-- The lake goes on: events and prompts stay, prompts whose they were and
forgotten ones forgotten; no claim is touched. -/
structure LakeGrows (s t : Store) : Prop where
  records : t.claimRecords = s.claimRecords
  claims : t.claims = s.claims
  claimSources : t.claimSources = s.claimSources
  event : ∀ seq e, s.event? seq = some e → t.event? seq = some e
  prompt : ∀ id p, s.prompts.get? id = some p → ∃ p', t.prompts.get? id = some p' ∧
    p'.principalId = p.principalId ∧ p'.projectPath = p.projectPath
  forgotten : ∀ id, (s.forgottenSources.get? id).isSome = true →
    (t.forgottenSources.get? id).isSome = true

theorem LakeGrows.refl (s : Store) : s.LakeGrows s :=
  ⟨rfl, rfl, rfl, fun _ _ he => he, fun _ p hp => ⟨p, hp, rfl, rfl⟩, fun _ hf => hf⟩

theorem event?_eq_some {seq : ℤ} {e : LedgerEventRow} :
    s.event? seq = some e ↔ e ∈ s.ledger.rows ∧ e.seq = seq := by
  unfold event?
  constructor
  · intro he
    have hseq := List.find?_some he
    exact ⟨List.mem_of_find?_eq_some he, of_decide_eq_true hseq⟩
  · rintro ⟨he, hseq⟩
    cases hfound : s.ledger.rows.find? fun e => e.seq = seq with
    | none => exact absurd (decide_eq_true hseq) (List.find?_eq_none.mp hfound e he)
    | some e' =>
      have hseq' := List.find?_some hfound
      rw [LedgerTable.eq_of_seq (List.mem_of_find?_eq_some hfound) he
        ((of_decide_eq_true hseq').trans hseq.symm)]

theorem promptAt_eq_some {seq : ℤ} {p : PromptRow} : s.promptAt seq = some p ↔
    ∃ e id, s.event? seq = some e ∧ e.kind = "prompt" ∧ e.promptId = some id ∧
      s.prompts.get? id = some p := by
  unfold promptAt
  constructor
  · intro hp
    obtain ⟨e, he, hp⟩ := Option.bind_eq_some_iff.mp hp
    by_cases hkind : e.kind = "prompt"
    · rw [if_pos hkind] at hp
      obtain ⟨id, hid, hp⟩ := Option.bind_eq_some_iff.mp hp
      exact ⟨e, id, he, hkind, hid, hp⟩
    · rw [if_neg hkind] at hp
      cases hp
  · rintro ⟨e, id, he, hkind, hid, hp⟩
    rw [he, Option.bind_eq_bind, Option.bind_some, if_pos hkind, hid]
    exact hp

theorem LakeGrows.promptAt {seq : ℤ} {p : PromptRow} (hgrow : s.LakeGrows t)
    (hp : s.promptAt seq = some p) : ∃ p', t.promptAt seq = some p' ∧ p'.id = p.id ∧
      p'.principalId = p.principalId ∧ p'.projectPath = p.projectPath := by
  obtain ⟨e, id, he, hkind, hid, hp⟩ := promptAt_eq_some.mp hp
  obtain ⟨p', hp', hprincipal, hproject⟩ := hgrow.prompt id p hp
  refine ⟨p', promptAt_eq_some.mpr ⟨e, id, hgrow.event _ e he, hkind, hid, hp'⟩, ?_, hprincipal,
    hproject⟩
  rw [Table.key_of_get? hp', Table.key_of_get? hp]

/-! ### A claim that was admitted -/

/-- All that is asked of a claim that is not here yet. -/
structure Admits (h : ClaimHost) (s : Store) (w : ClaimWrite) (recordedAt : ℤ)
    (derived : Option String × Option String) : Prop where
  checked : checkClaim h w = .ok ()
  gardener : w.derivation = .gardener → s.organizerActive w.organizerRun = true
  source : ∀ src ∈ w.sources, ∃ p, s.evidence (.fromScope w.scope) src.seq = some p ∧
    evidenceRole p.role = some src.role ∧ src.chainId = p.deviceId.getD "local" ∧
    src.supports p.body = true ∧ (h.supportingText w.value).toList <:+: src.quote.toList ∧
    derived = (p.principalId, p.projectPath)
  related : ∀ id ∈ w.supersedes ++ w.contradicts, s.checkRelated h w recordedAt derived id = .ok ()

theorem forM_eq_ok {ε α : Type} {f : α → Except ε Unit} {xs : List α} :
    xs.forM f = .ok () ↔ ∀ x ∈ xs, f x = .ok () := by
  induction xs with
  | nil => exact ⟨fun _ => nofun, fun _ => rfl⟩
  | cons x xs ih =>
    show (f x >>= fun _ => xs.forM f) = .ok () ↔ _
    rw [bind_eq_ok, List.forall_mem_cons, ← ih]
    constructor
    · rintro ⟨⟨⟩, hx, hxs⟩
      exact ⟨hx, hxs⟩
    · rintro ⟨hx, hxs⟩
      exact ⟨(), hx, hxs⟩

/-- One citation that passes. -/
theorem checkSource_eq_ok {first out : Option (Option String × Option String)} {src : ClaimSource}
    (hok : s.checkSource h w first src = .ok out) :
    ∃ p, s.evidence (.fromScope w.scope) src.seq = some p ∧ evidenceRole p.role = some src.role ∧
      src.chainId = p.deviceId.getD "local" ∧ src.supports p.body = true ∧
      (h.supportingText w.value).toList <:+: src.quote.toList ∧
      out = some (p.principalId, p.projectPath) ∧
      ∀ derived, first = some derived → derived = (p.principalId, p.projectPath) := by
  unfold checkSource at hok
  cases hp : s.evidence (.fromScope w.scope) src.seq with
  | none =>
    rw [hp] at hok
    cases hok
  | some p =>
    rw [hp] at hok
    dsimp only at hok
    cases hrole : evidenceRole p.role with
    | none =>
      rw [hrole] at hok
      cases hok
    | some role =>
      rw [hrole] at hok
      dsimp only at hok
      split_ifs at hok with hchain hsupports
      · rw [not_or, not_not, not_not] at hchain
        cases first with
        | none =>
          cases hok
          exact ⟨p, rfl, by rw [hrole, hchain.2], hchain.1, hsupports.1, hsupports.2, rfl, nofun⟩
        | some derived =>
          dsimp only at hok
          split_ifs at hok with hderived
          cases hok
          rw [not_not] at hderived
          refine ⟨p, rfl, by rw [hrole, hchain.2], hchain.1, hsupports.1, hsupports.2,
            by rw [hderived], fun d hd => ?_⟩
          rw [← Option.some.inj hd, hderived]

/-- All citations that pass, after a first one. -/
theorem foldlM_checkSource {sources : List ClaimSource} {derived : Option String × Option String}
    {out : Option (Option String × Option String)}
    (hok : sources.foldlM (s.checkSource h w) (some derived) = .ok out) :
    out = some derived ∧ ∀ src ∈ sources, ∃ p,
      s.evidence (.fromScope w.scope) src.seq = some p ∧ evidenceRole p.role = some src.role ∧
        src.chainId = p.deviceId.getD "local" ∧ src.supports p.body = true ∧
        (h.supportingText w.value).toList <:+: src.quote.toList ∧
        derived = (p.principalId, p.projectPath) := by
  induction sources with
  | nil =>
    cases hok
    exact ⟨rfl, nofun⟩
  | cons src sources ih =>
    rw [List.foldlM_cons] at hok
    obtain ⟨mid, hmid, hrest⟩ := bind_eq_ok.mp hok
    obtain ⟨p, hp, hrole, hchain, hsupports, htext, hout, hderived⟩ := checkSource_eq_ok hmid
    have hsame := hderived derived rfl
    rw [hout, ← hsame] at hrest
    obtain ⟨hlast, hall⟩ := ih hrest
    refine ⟨hlast, fun src' hsrc' => ?_⟩
    rcases List.mem_cons.mp hsrc' with heq | hsrc'
    · rw [heq]
      exact ⟨p, hp, hrole, hchain, hsupports, htext, hsame⟩
    · exact hall src' hsrc'

/-- What a claim has that passes the first checks. -/
theorem checkClaim_eq_ok (hok : checkClaim h w = .ok ()) :
    w.sources ≠ [] ∧ w.value.isFinite = true ∧
      (w.derivation = .gardener → w.organizerRun ≠ none) := by
  unfold checkClaim at hok
  split_ifs at hok with hshape hgardener hlength
  simp only [not_or] at hshape
  refine ⟨hshape.2.2.2.1, ?_, fun hgard hnone => hgardener ⟨hgard, .inl hnone⟩⟩
  exact Bool.not_eq_false _ ▸ hshape.2.2.2.2.2.2.2

/-- The row of a record's claim. -/
def claimRow (h : ClaimHost) (w : ClaimWrite) (recordedAt eventSeq : ℤ) (retiredAt : Option ℤ)
    (derived : Option String × Option String) : ClaimRow :=
  ⟨w.id, w.subject, w.predicate.json, h.encodeClaim w, recordedAt, eventSeq, w.validFrom,
    w.validUntil, retiredAt, derived.1, w.scope.agent, w.scope.run, w.scope.org, derived.2⟩

/-- The citations of a claim, after others. -/
def withSources (rows : List ClaimSourceRow) (w : ClaimWrite) : List ClaimSourceRow :=
  w.sources.foldl (fun rows source =>
    if ⟨w.id, source.chainId, source.seq⟩ ∈ rows then rows
    else rows ++ [⟨w.id, source.chainId, source.seq⟩]) rows

/-- The projection of a claim that is written. -/
theorem project_eq_ok {json : String} {recordedAt eventSeq : ℤ} {retiredAt : Option ℤ}
    {principal sourceProject : Option String} (hjson : json = h.encodeClaim w) :
    s.project w json recordedAt eventSeq retiredAt principal sourceProject = .ok t ↔
      ∃ claims, s.claims.insert? (claimRow h w recordedAt eventSeq retiredAt
          (principal, sourceProject)) = some claims ∧
        t = { s with claims := claims, claimSources := withSources s.claimSources w } := by
  unfold project
  subst hjson
  split
  case h_1 hfull =>
    have hins : s.claims.insert? (claimRow h w recordedAt eventSeq retiredAt
        (principal, sourceProject)) = none := hfull
    simp [hins]
  case h_2 claims hnew =>
    have hins : s.claims.insert? (claimRow h w recordedAt eventSeq retiredAt
        (principal, sourceProject)) = some claims := hnew
    simp only [hins, Option.some.injEq, exists_eq_left']
    exact ⟨fun heq => (Except.ok.inj heq).symm, fun heq => by rw [heq]; rfl⟩

/-- What the store is after a claim that was not here. -/
structure Written (h : ClaimHost) (s : Store) (w : ClaimWrite) (recordedAt : ℤ) (author : String)
    (derived : Option String × Option String) (t : Store) : Prop where
  free : s.claimRecords.get? w.id = none
  records : t.claimRecords.rows = s.claimRecords.rows ++
    [⟨w.id, (s.appendedRow h.toHost (claimEvent h w recordedAt author)).seq, recordedAt,
      some (h.encodeClaim w), none, false⟩]
  claimFree : s.claims.get? w.id = none
  claims : t.claims.rows = s.claims.rows ++ [claimRow h w recordedAt
    (s.appendedRow h.toHost (claimEvent h w recordedAt author)).seq none derived]
  sources : t.claimSources = withSources s.claimSources w
  rest : ∃ ops, t = { s.append h.toHost (claimEvent h w recordedAt author) with
    claimRecords := t.claimRecords, claims := t.claims, claimSources := t.claimSources, runOps := ops }

/-- The journal is all that a gardener's run adds. -/
theorem journalClaim_eq_ok {eventSeq : ℤ} (hok : s.journalClaim w eventSeq = .ok t) :
    ∃ ops, t = { s with runOps := ops } := by
  unfold journalClaim at hok
  split at hok
  · unfold journalOp at hok
    split_ifs at hok with hforgotten
    · cases hok
      exact ⟨_, rfl⟩
    · split at hok
      · cases hok
      · cases hok
        exact ⟨_, rfl⟩
  · cases hok
    exact ⟨_, rfl⟩

theorem insertClaim_eq_ok {recordedAt : ℤ} {author : String}
    {derived : Option String × Option String} {c : Claim}
    (hok : s.insertClaim h w recordedAt author derived = .ok (t, c)) :
    s.Written h w recordedAt author derived t ∧
      c = ⟨w, recordedAt, (s.appendedRow h.toHost (claimEvent h w recordedAt author)).seq, []⟩ := by
  unfold insertClaim at hok
  dsimp only at hok
  cases hrecords : s.claimRecords.insert? ⟨w.id,
      (s.appendedRow h.toHost (claimEvent h w recordedAt author)).seq, recordedAt,
      some (h.encodeClaim w), none, false⟩ with
  | none =>
    rw [hrecords] at hok
    cases hok
  | some records =>
    rw [hrecords] at hok
    obtain ⟨u, hu, hok⟩ := bind_eq_ok.mp hok
    obtain ⟨claims, hclaims, rfl⟩ := (project_eq_ok (h := h) rfl).mp hu
    obtain ⟨v, hv, hok⟩ := bind_eq_ok.mp hok
    cases hok
    obtain ⟨hfree, hrows⟩ := Table.insert?_eq_some.mp hrecords
    obtain ⟨hclaimFree, hclaimRows⟩ := Table.insert?_eq_some.mp hclaims
    obtain ⟨ops, rfl⟩ := journalClaim_eq_ok hv
    exact ⟨⟨hfree, hrows, hclaimFree, hclaimRows, rfl, ops, rfl⟩, rfl⟩

/-- **What a write of a claim does**: it answers a claim that is here with the
same content, or it writes one that was not. -/
theorem writeClaim_cases {recordedAt : ℤ} {author : String} {c : Claim}
    (hok : s.writeClaim h w recordedAt author = .ok (t, c)) :
    checkClaim h w = .ok () ∧
      ((t = s ∧ ∃ r, s.claimRecords.get? w.id = some r ∧ r.invalidated = false ∧
          r.assertionJson = some (h.encodeClaim w) ∧ c = ⟨w, r.recordedAt, r.eventSeq, []⟩) ∨
        ∃ derived, s.Admits h w recordedAt derived ∧ s.Written h w recordedAt author derived t ∧
          c = ⟨w, recordedAt,
            (s.appendedRow h.toHost (claimEvent h w recordedAt author)).seq, []⟩) := by
  unfold writeClaim at hok
  obtain ⟨⟨⟩, hchecked, hok⟩ := bind_eq_ok.mp hok
  refine ⟨hchecked, ?_⟩
  cases hhere : (s.claimRecords.get? w.id).filter fun r => !r.invalidated with
  | some r =>
    rw [hhere] at hok
    dsimp only at hok
    split_ifs at hok with hjson
    cases hok
    obtain ⟨hr, hvalid⟩ := Option.filter_eq_some_iff.mp hhere
    exact .inl ⟨rfl, r, hr, by simpa using hvalid, not_not.mp hjson, rfl⟩
  | none =>
    rw [hhere] at hok
    dsimp only at hok
    split_ifs at hok with hinactive
    obtain ⟨first, hfirst, hok⟩ := bind_eq_ok.mp hok
    obtain ⟨⟨⟩, hrelated, hok⟩ := bind_eq_ok.mp hok
    obtain ⟨hwritten, hc⟩ := insertClaim_eq_ok hok
    refine .inr ⟨first.getD (none, none), ⟨hchecked, ?_, ?_, ?_⟩, hwritten, hc⟩
    · intro hgardener
      by_contra hnot
      exact hinactive ⟨hgardener, Bool.not_eq_true _ ▸ hnot⟩
    · cases hsources : w.sources with
      | nil => exact absurd hsources (checkClaim_eq_ok hchecked).1
      | cons src sources =>
        rw [hsources, List.foldlM_cons] at hfirst
        obtain ⟨mid, hmid, hrest⟩ := bind_eq_ok.mp hfirst
        obtain ⟨p, hp, hrole, hchain, hsupports, htext, hmid, -⟩ := checkSource_eq_ok hmid
        rw [hmid] at hrest
        obtain ⟨hout, hall⟩ := foldlM_checkSource hrest
        rw [hout, Option.getD_some]
        intro src' hsrc'
        rcases List.mem_cons.mp hsrc' with heq | hsrc'
        · rw [heq]
          exact ⟨p, hp, hrole, hchain, hsupports, htext, rfl⟩
        · exact hall src' hsrc'
    · exact forM_eq_ok.mp hrelated

/-! ### The projection of the records -/

theorem mem_withSources {rows : List ClaimSourceRow} {x : ClaimSourceRow} :
    x ∈ withSources rows w ↔
      x ∈ rows ∨ ∃ src ∈ w.sources, x = ⟨w.id, src.chainId, src.seq⟩ := by
  unfold withSources
  induction w.sources generalizing rows with
  | nil => simp
  | cons src sources ih =>
    rw [List.foldl_cons, ih]
    by_cases hmem : (⟨w.id, src.chainId, src.seq⟩ : ClaimSourceRow) ∈ rows
    · rw [if_pos hmem]
      constructor
      · rintro (hx | ⟨src', hsrc', rfl⟩)
        · exact .inl hx
        · exact .inr ⟨src', List.mem_cons_of_mem _ hsrc', rfl⟩
      · rintro (hx | ⟨src', hsrc', rfl⟩)
        · exact .inl hx
        · rcases List.mem_cons.mp hsrc' with rfl | hsrc'
          · exact .inl hmem
          · exact .inr ⟨src', hsrc', rfl⟩
    · rw [if_neg hmem]
      simp only [List.mem_append, List.mem_cons, List.not_mem_nil, or_false, exists_eq_or_imp]
      tauto

theorem nodup_withSources {rows : List ClaimSourceRow} (hrows : rows.Nodup) :
    (withSources rows w).Nodup := by
  unfold withSources
  induction w.sources generalizing rows with
  | nil => exact hrows
  | cons src sources ih =>
    rw [List.foldl_cons]
    apply ih
    by_cases hmem : (⟨w.id, src.chainId, src.seq⟩ : ClaimSourceRow) ∈ rows
    · rw [if_pos hmem]
      exact hrows
    · rw [if_neg hmem]
      refine List.nodup_append.mpr ⟨hrows, List.nodup_singleton _, fun x hx y hy => ?_⟩
      rw [List.mem_singleton.mp hy]
      exact fun heq => hmem (heq ▸ hx)

/-- A record holds a claim; the prompt is its first citation's. -/
structure HoldsClaim (h : ClaimHost) (s : Store) (r : ClaimRecord) (w : ClaimWrite) (p : PromptRow) :
    Prop where
  json : r.assertionJson = some (h.encodeClaim w)
  id : w.id = r.id
  finite : w.value.isFinite = true
  first : ∃ src rest, w.sources = src :: rest ∧ s.promptAt src.seq = some p

/-- The claims are the projection of the records that were not invalidated, and
the citations are theirs and those of the invalidated ones. -/
structure Projected (h : ClaimHost) (s : Store) : Prop where
  record : ∀ id r, s.claimRecords.get? id = some r → r.invalidated = false →
    ∃ w p, s.HoldsClaim h r w p ∧
      s.claims.get? id = some (claimRow h w r.recordedAt r.eventSeq r.retiredAt
        (p.principalId, p.projectPath)) ∧
      ∀ x, x ∈ s.claimSources ∧ x.claimId = id ↔
        ∃ src ∈ w.sources, x = ⟨id, src.chainId, src.seq⟩
  claim : ∀ id c, s.claims.get? id = some c →
    ∃ r, s.claimRecords.get? id = some r ∧ r.invalidated = false
  source : ∀ x ∈ s.claimSources, ∃ r, s.claimRecords.get? x.claimId = some r
  nodup : s.claimSources.Nodup

theorem LakeGrows.holds {r : ClaimRecord} {p : PromptRow} (hgrow : s.LakeGrows t)
    (hr : s.HoldsClaim h r w p) : ∃ p', t.HoldsClaim h r w p' ∧ p'.principalId = p.principalId ∧
      p'.projectPath = p.projectPath := by
  obtain ⟨src, rest, hsources, hp⟩ := hr.first
  obtain ⟨p', hp', -, hprincipal, hproject⟩ := hgrow.promptAt hp
  exact ⟨p', ⟨hr.json, hr.id, hr.finite, src, rest, hsources, hp'⟩, hprincipal, hproject⟩

/-- The lake may go on. -/
theorem Projected.grow (hs : s.Projected h) (hgrow : s.LakeGrows t) : t.Projected h := by
  constructor
  · intro id r hr hvalid
    rw [hgrow.records] at hr
    obtain ⟨w, p, hholds, hclaim, hsources⟩ := hs.record id r hr hvalid
    obtain ⟨p', hholds', hprincipal, hproject⟩ := hgrow.holds hholds
    rw [← hprincipal, ← hproject] at hclaim
    rw [hgrow.claims, hgrow.claimSources]
    exact ⟨w, p', hholds', hclaim, hsources⟩
  · rw [hgrow.claims, hgrow.records]
    exact hs.claim
  · rw [hgrow.claimSources, hgrow.records]
    exact hs.source
  · rw [hgrow.claimSources]
    exact hs.nodup

/-! ### A write keeps the projection -/

section

variable {recordedAt : ℤ} {author : String} {derived : Option String × Option String}

/-- What a written claim leaves of the lake. -/
theorem Written.grows (hw : s.Written h w recordedAt author derived t) :
    s.LakeGrows { t with
      claimRecords := s.claimRecords, claims := s.claims, claimSources := s.claimSources } := by
  obtain ⟨ops, ht⟩ := hw.rest
  rw [ht]
  exact ⟨rfl, rfl, rfl, fun _ _ he => event?_append he, fun _ p hp => ⟨p, hp, rfl, rfl⟩,
    fun _ hf => hf⟩

theorem Written.promptAt (hw : s.Written h w recordedAt author derived t) {seq : ℤ} {p : PromptRow}
    (hp : s.promptAt seq = some p) : t.promptAt seq = some p := by
  obtain ⟨ops, ht⟩ := hw.rest
  obtain ⟨e, id, he, hkind, hid, hp⟩ := promptAt_eq_some.mp hp
  rw [ht]
  exact promptAt_eq_some.mpr ⟨e, id, event?_append he, hkind, hid, hp⟩

theorem Written.get?_claimRecords (hw : s.Written h w recordedAt author derived t) (id : String) :
    t.claimRecords.get? id = (s.claimRecords.get? id).or (if w.id = id then
      some ⟨w.id, (s.appendedRow h.toHost (claimEvent h w recordedAt author)).seq, recordedAt,
        some (h.encodeClaim w), none, false⟩ else none) :=
  Table.get?_of_rows_append hw.records

theorem Written.get?_claims (hw : s.Written h w recordedAt author derived t) (id : String) :
    t.claims.get? id = (s.claims.get? id).or (if w.id = id then some (claimRow h w recordedAt
      (s.appendedRow h.toHost (claimEvent h w recordedAt author)).seq none derived) else none) :=
  Table.get?_of_rows_append hw.claims

/-- The evidence of a citation is the prompt of its event. -/
theorem promptAt_of_evidence {f : ScopeFilter} {seq : ℤ} {p : PromptRow}
    (hp : s.evidence f seq = some p) : s.promptAt seq = some p ∧
      (s.forgottenSources.get? p.id).isNone = true ∧ s.scopeMatches f p = true := by
  obtain ⟨hp, hcond⟩ := Option.filter_eq_some_iff.mp hp
  rw [Bool.and_eq_true] at hcond
  exact ⟨hp, hcond.1, hcond.2⟩

theorem Projected.write (hs : s.Projected h) (hadmits : s.Admits h w recordedAt derived)
    (hw : s.Written h w recordedAt author derived t) : t.Projected h := by
  have hmem : ∀ x, x ∈ t.claimSources ↔
      x ∈ s.claimSources ∨ ∃ src ∈ w.sources, x = ⟨w.id, src.chainId, src.seq⟩ := by
    intro x
    rw [hw.sources, mem_withSources]
  -- no citation of that id is left from before
  have hnone : ∀ x ∈ s.claimSources, x.claimId ≠ w.id := by
    intro x hx heq
    obtain ⟨r, hr⟩ := hs.source x hx
    rw [heq, hw.free] at hr
    cases hr
  constructor
  · intro id r hr hvalid
    rw [hw.get?_claimRecords] at hr
    by_cases hid : w.id = id
    · subst hid
      rw [hw.free, Option.none_or, if_pos rfl] at hr
      cases hr
      obtain ⟨hsources, hfinite, -⟩ := checkClaim_eq_ok hadmits.checked
      obtain ⟨src, rest, hfirst⟩ := List.exists_cons_of_ne_nil hsources
      obtain ⟨p, hp, -, -, -, -, hderived⟩ := hadmits.source src (hfirst ▸ List.mem_cons_self)
      refine ⟨w, p, ⟨rfl, rfl, hfinite, src, rest, hfirst,
        hw.promptAt (promptAt_of_evidence hp).1⟩, ?_, fun x => ?_⟩
      · rw [hw.get?_claims, hw.claimFree, Option.none_or, if_pos rfl, hderived]
      · rw [hmem]
        constructor
        · rintro ⟨hx | hx, hxid⟩
          · exact absurd hxid (hnone x hx)
          · exact hx
        · rintro ⟨src', hsrc', rfl⟩
          exact ⟨.inr ⟨src', hsrc', rfl⟩, rfl⟩
    · rw [if_neg hid, Option.or_none] at hr
      obtain ⟨w', p, hholds, hclaim, hsources⟩ := hs.record id r hr hvalid
      obtain ⟨src, rest, hfirst, hp⟩ := hholds.first
      refine ⟨w', p, ⟨hholds.json, hholds.id, hholds.finite, src, rest, hfirst, hw.promptAt hp⟩, ?_,
        fun x => ?_⟩
      · rw [hw.get?_claims, hclaim, Option.some_or]
      · rw [hmem, ← hsources x]
        constructor
        · rintro ⟨hx | ⟨src', -, rfl⟩, hxid⟩
          · exact ⟨hx, hxid⟩
          · exact absurd hxid hid
        · rintro ⟨hx, hxid⟩
          exact ⟨.inl hx, hxid⟩
  · intro id c hc
    rw [hw.get?_claims] at hc
    rw [hw.get?_claimRecords]
    by_cases hid : w.id = id
    · subst hid
      rw [hw.free, Option.none_or, if_pos rfl]
      exact ⟨_, rfl, rfl⟩
    · rw [if_neg hid, Option.or_none] at hc
      obtain ⟨r, hr, hvalid⟩ := hs.claim id c hc
      rw [hr, Option.some_or]
      exact ⟨r, rfl, hvalid⟩
  · intro x hx
    rw [hw.get?_claimRecords]
    rcases (hmem x).mp hx with hx | ⟨src, -, rfl⟩
    · obtain ⟨r, hr⟩ := hs.source x hx
      rw [hr, Option.some_or]
      exact ⟨r, rfl⟩
    · rw [hw.free, Option.none_or, if_pos rfl]
      exact ⟨_, rfl⟩
  · rw [hw.sources]
    exact nodup_withSources hs.nodup

end

/-! ### A retirement keeps the projection -/

section

variable {id : String} {recordedAt : ℤ} {author : String}

/-- A record after a retirement. -/
def retiredRecord (id : String) (recordedAt : ℤ) (r : ClaimRecord) : ClaimRecord :=
  if r.id = id ∧ r.retiredAt = none ∧ r.recordedAt ≤ recordedAt then
    { r with retiredAt := some recordedAt }
  else r

/-- A claim after a retirement. -/
def retiredClaim (id : String) (recordedAt : ℤ) (c : ClaimRow) : ClaimRow :=
  if c.id = id ∧ c.retiredAt = none ∧ c.recordedAt ≤ recordedAt then
    { c with retiredAt := some recordedAt }
  else c

theorem get?_claimRecords_retireClaim (id' : String) :
    (s.retireClaim h.toHost id recordedAt author).claimRecords.get? id' =
      (s.claimRecords.get? id').map (retiredRecord id recordedAt) := by
  have hrecords : (s.retireClaim h.toHost id recordedAt author).claimRecords =
      s.claimRecords.update (fun c => c.id = id && c.retiredAt = none && c.recordedAt ≤ recordedAt)
        fun c => { c with retiredAt := some recordedAt } := by
    unfold retireClaim
    dsimp only
    split_ifs <;> rfl
  rw [hrecords, Table.get?_update]
  refine congrArg (fun f => (s.claimRecords.get? id').map f) (funext fun r => ?_)
  unfold retiredRecord
  simp only [Bool.and_eq_true, decide_eq_true_eq, and_assoc]

theorem get?_claims_retireClaim (id' : String) :
    (s.retireClaim h.toHost id recordedAt author).claims.get? id' =
      (s.claims.get? id').map (retiredClaim id recordedAt) := by
  have hclaims : (s.retireClaim h.toHost id recordedAt author).claims =
      s.claims.update (fun c => c.id = id && c.retiredAt = none && c.recordedAt ≤ recordedAt)
        fun c => { c with retiredAt := some recordedAt } := by
    unfold retireClaim
    dsimp only
    split_ifs <;> rfl
  rw [hclaims, Table.get?_update]
  refine congrArg (fun f => (s.claims.get? id').map f) (funext fun r => ?_)
  unfold retiredClaim
  simp only [Bool.and_eq_true, decide_eq_true_eq, and_assoc]

/-- What else a retirement leaves. -/
theorem grows_retireClaim (h : ClaimHost) (s : Store) (id : String) (recordedAt : ℤ) (author : String) :
    s.LakeGrows { s.retireClaim h.toHost id recordedAt author with
    claimRecords := s.claimRecords, claims := s.claims } := by
  unfold retireClaim
  dsimp only
  split_ifs
  · exact ⟨rfl, rfl, rfl, fun _ _ he => event?_append he, fun _ p hp => ⟨p, hp, rfl, rfl⟩,
      fun _ hf => hf⟩
  · exact .refl s

theorem id_retiredRecord {r : ClaimRecord} : (retiredRecord id recordedAt r).id = r.id := by
  unfold retiredRecord
  split_ifs <;> rfl

theorem invalidated_retiredRecord {r : ClaimRecord} :
    (retiredRecord id recordedAt r).invalidated = r.invalidated := by
  unfold retiredRecord
  split_ifs <;> rfl

/-- A record and its row are retired alike. -/
theorem retiredClaim_claimRow {r : ClaimRecord} {derived : Option String × Option String}
    (hid : w.id = r.id) :
    retiredClaim id recordedAt (claimRow h w r.recordedAt r.eventSeq r.retiredAt derived) =
      claimRow h w (retiredRecord id recordedAt r).recordedAt (retiredRecord id recordedAt r).eventSeq
        (retiredRecord id recordedAt r).retiredAt derived := by
  unfold retiredClaim retiredRecord
  show (if w.id = id ∧ r.retiredAt = none ∧ r.recordedAt ≤ recordedAt then _ else _) = _
  rw [hid]
  split_ifs <;> rfl

theorem Projected.retire (hs : s.Projected h) :
    (s.retireClaim h.toHost id recordedAt author).Projected h := by
  have hu := hs.grow (grows_retireClaim h s id recordedAt author)
  constructor
  · intro id' r' hr' hvalid
    rw [get?_claimRecords_retireClaim] at hr'
    obtain ⟨r, hr, rfl⟩ := Option.map_eq_some_iff.mp hr'
    rw [invalidated_retiredRecord] at hvalid
    obtain ⟨w, p, hholds, hclaim, hsources⟩ := hu.record id' r hr hvalid
    obtain ⟨src, rest, hfirst, hp⟩ := hholds.first
    refine ⟨w, p, ⟨?_, by rw [id_retiredRecord]; exact hholds.id, hholds.finite, src, rest, hfirst, hp⟩,
      ?_, hsources⟩
    · rw [← hholds.json]
      unfold retiredRecord
      split_ifs <;> rfl
    · have hclaim' : s.claims.get? id' = _ := hclaim
      rw [get?_claims_retireClaim, hclaim', Option.map_some, retiredClaim_claimRow hholds.id]
  · intro id' c' hc'
    rw [get?_claims_retireClaim] at hc'
    obtain ⟨c, hc, rfl⟩ := Option.map_eq_some_iff.mp hc'
    obtain ⟨r, hr, hvalid⟩ := hs.claim id' c hc
    rw [get?_claimRecords_retireClaim, hr, Option.map_some]
    exact ⟨_, rfl, invalidated_retiredRecord.trans hvalid⟩
  · intro x hx
    obtain ⟨r, hr⟩ := hu.source x hx
    have hr' : s.claimRecords.get? x.claimId = some r := hr
    rw [get?_claimRecords_retireClaim, hr', Option.map_some]
    exact ⟨_, rfl⟩
  · exact hu.nodup

end

/-! ### An invalidation keeps the projection -/

section

variable {prompt : ℤ}

theorem get?_claimRecords_invalidate (id : String) :
    (s.invalidatePromptClaims prompt).claimRecords.get? id = (s.claimRecords.get? id).map fun r =>
      if r.id ∈ s.claimsCiting prompt then { r with assertionJson := none, invalidated := true }
      else r := by
  unfold invalidatePromptClaims
  dsimp only
  rw [Table.get?_update]
  simp only [decide_eq_true_eq]

theorem get?_claims_invalidate (id : String) :
    (s.invalidatePromptClaims prompt).claims.get? id =
      (s.claims.get? id).filter fun c => c.id ∉ s.claimsCiting prompt := by
  unfold invalidatePromptClaims
  dsimp only
  rw [Table.get?_delete]
  simp only [decide_not]

theorem Projected.invalidate (hs : s.Projected h) : (s.invalidatePromptClaims prompt).Projected h := by
  constructor
  · intro id r' hr' hvalid
    rw [get?_claimRecords_invalidate] at hr'
    obtain ⟨r, hr, hr'⟩ := Option.map_eq_some_iff.mp hr'
    by_cases hcited : r.id ∈ s.claimsCiting prompt
    · rw [if_pos hcited] at hr'
      rw [← hr'] at hvalid
      cases hvalid
    · rw [if_neg hcited] at hr'
      subst hr'
      obtain ⟨w, p, hholds, hclaim, hsources⟩ := hs.record id r hr hvalid
      refine ⟨w, p, ⟨hholds.json, hholds.id, hholds.finite, hholds.first⟩, ?_, hsources⟩
      rw [get?_claims_invalidate, hclaim, Option.filter_eq_some_iff]
      refine ⟨rfl, decide_eq_true ?_⟩
      show w.id ∉ _
      rw [hholds.id]
      exact hcited
  · intro id c hc
    rw [get?_claims_invalidate] at hc
    obtain ⟨hc, hcited⟩ := Option.filter_eq_some_iff.mp hc
    obtain ⟨r, hr, hvalid⟩ := hs.claim id c hc
    have hid : r.id = c.id := (Table.key_of_get? hr).trans (Table.key_of_get? hc).symm
    rw [get?_claimRecords_invalidate, hr, Option.map_some, hid, if_neg (of_decide_eq_true hcited)]
    exact ⟨r, rfl, hvalid⟩
  · intro x hx
    obtain ⟨r, hr⟩ := hs.source x hx
    rw [get?_claimRecords_invalidate, hr, Option.map_some]
    exact ⟨_, rfl⟩
  · exact hs.nodup

/-- What a forgotten prompt leaves: its claims are invalidated, if the lake may
go on otherwise. -/
theorem forgetPrompt_eq_ok {bodyHash : String} {ts : ℤ}
    (hok : s.forgetPrompt prompt bodyHash ts = .ok t) :
    (s.invalidatePromptClaims prompt).LakeGrows t ∧
      (t.forgottenSources.get? prompt).isSome = true := by
  unfold forgetPrompt at hok
  cases hins : s.forgottenSources.insert? ⟨prompt, bodyHash, ts⟩ with
  | none =>
    rw [hins] at hok
    cases hok
  | some forgotten =>
    rw [hins] at hok
    cases hok
    refine ⟨⟨rfl, rfl, rfl, fun _ _ he => he, fun _ p hp => ⟨p, hp, rfl, rfl⟩, ?_⟩, ?_⟩
    · intro id hid
      show (forgotten.get? id).isSome = true
      rw [Table.get?_insert? hins]
      split_ifs
      · rfl
      · exact hid
    · show (forgotten.get? prompt).isSome = true
      rw [Table.get?_insert? hins, if_pos rfl]
      rfl

/-- **What a compaction does to the claims**: nothing, or, where the prompt is
forgotten, it invalidates those that cite it. -/
theorem compactPromptBody_grows {now : ℤ} {gist reason gistSource actor : String} {archived : Bool}
    {seq : Option ℤ} (hok : s.compactPromptBody h.toHost now prompt gist reason gistSource actor
      archived = .ok (t, seq)) :
    s.LakeGrows t ∨
      (s.invalidatePromptClaims prompt).LakeGrows t ∧
        (t.forgottenSources.get? prompt).isSome = true := by
  unfold compactPromptBody at hok
  cases hwarm : s.warmPrompt? prompt reason with
  | none =>
    rw [hwarm] at hok
    cases hok
    exact .inl (.refl s)
  | some p =>
    rw [hwarm] at hok
    dsimp only at hok
    have hprompt (u : Store) : ∀ id q, u.prompts.get? id = some q → ∃ q',
        (u.prompts.update (fun q => q.id = prompt && (q.gist = none || reason = "forget"))
          (PromptRow.compacted now gist reason gistSource)).get? id = some q' ∧
            q'.principalId = q.principalId ∧ q'.projectPath = q.projectPath := by
      intro id q hq
      rw [Table.get?_update, hq, Option.map_some]
      refine ⟨_, rfl, ?_⟩
      split_ifs <;> exact ⟨rfl, rfl⟩
    by_cases hreason : reason = "forget"
    · rw [if_pos hreason] at hok
      obtain ⟨u, hu, hok⟩ := bind_eq_ok.mp hok
      cases hok
      obtain ⟨hgrow, hforgotten⟩ := forgetPrompt_eq_ok hu
      refine .inr ⟨⟨hgrow.records, hgrow.claims, hgrow.claimSources,
        fun _ _ he => event?_append (hgrow.event _ _ he), fun id q hq => ?_, hgrow.forgotten⟩, hforgotten⟩
      obtain ⟨q', hq', hprincipal, hproject⟩ := hgrow.prompt id q hq
      obtain ⟨q'', hq'', hprincipal', hproject'⟩ := hprompt u id q' hq'
      exact ⟨q'', hq'', hprincipal'.trans hprincipal, hproject'.trans hproject⟩
    · rw [if_neg hreason] at hok
      cases hok
      exact .inl ⟨rfl, rfl, rfl, fun _ _ he => event?_append he, hprompt s, fun _ hf => hf⟩

end

/-! ### The replay of the records -/

section

/-- The citations of a replayed claim, none of another's touched. -/
theorem filter_withSources {rows : List ClaimSourceRow} {keep : ClaimSourceRow → Bool}
    (hout : ∀ src ∈ w.sources, keep ⟨w.id, src.chainId, src.seq⟩ = false) :
    (withSources rows w).filter keep = rows.filter keep := by
  unfold withSources
  generalize w.sources = sources at hout
  induction sources generalizing rows with
  | nil => rfl
  | cons src sources ih =>
    have hsrc := hout src List.mem_cons_self
    rw [List.foldl_cons, ih fun src' hsrc' => hout src' (List.mem_cons_of_mem _ hsrc')]
    split_ifs
    · rfl
    · rw [List.filter_append, List.filter_singleton, hsrc]
      simp

/-- A record that is projected is replayed to the row it has, and the citations. -/
theorem replayRecord_eq_ok {u : Store} {r : ClaimRecord} (hs : s.Projected h)
    (hr : s.claimRecords.get? r.id = some r) (hvalid : r.invalidated = false)
    (hledger : u.ledger = s.ledger) (hprompts : u.prompts = s.prompts)
    (hfree : u.claims.get? r.id = none) :
    ∃ row claims w, s.claims.get? r.id = some row ∧ u.claims.insert? row = some claims ∧
      w.id = r.id ∧
      (∀ x, x ∈ s.claimSources ∧ x.claimId = r.id ↔
        ∃ src ∈ w.sources, x = ⟨r.id, src.chainId, src.seq⟩) ∧
      u.replayRecord h r =
        .ok { u with claims := claims, claimSources := withSources u.claimSources w } := by
  obtain ⟨w, p, hholds, hclaim, hsources⟩ := hs.record r.id r hr hvalid
  obtain ⟨src, rest, hfirst, hp⟩ := hholds.first
  obtain ⟨e, id, he, -, hid, hp⟩ := promptAt_eq_some.mp hp
  have hfree' : u.claims.get? (claimRow h w r.recordedAt r.eventSeq r.retiredAt
      (p.principalId, p.projectPath)).id = none := by
    show u.claims.get? w.id = none
    rw [hholds.id]
    exact hfree
  obtain ⟨claims, hins, -⟩ := Table.insert?_of_free hfree'
  refine ⟨_, claims, w, hclaim, hins, hholds.id, hsources, ?_⟩
  have hevent : u.event? src.seq = some e := by
    unfold event? at he ⊢
    rw [hledger]
    exact he
  have hproject : u.project (h.readBack w) (h.encodeClaim w) r.recordedAt r.eventSeq r.retiredAt
      p.principalId p.projectPath = .ok { u with
        claims := claims, claimSources := withSources u.claimSources w } :=
    (project_eq_ok (h := h) (w := w) rfl).mpr ⟨claims, hins, rfl⟩
  unfold replayRecord
  rw [hholds.json]
  dsimp only
  rw [h.decode_encodeClaim hholds.finite]
  have hreads : (h.readBack w).sources = src :: rest := hfirst
  simp only [bind, Except.bind, hreads]
  have hprompt : u.prompts.get? id = some p := by
    rw [hprompts]
    exact hp
  rw [hevent, Option.bind_some, hid, Option.bind_some, hprompt]
  exact hproject

/-- What a replay of some records writes. -/
structure Replayed (s u t : Store) (ids : List String) : Prop where
  claims : ∀ id, t.claims.get? id = if id ∈ ids then s.claims.get? id else u.claims.get? id
  sources : ∀ x, x ∈ t.claimSources ↔ x ∈ u.claimSources ∨ x.claimId ∈ ids ∧ x ∈ s.claimSources
  nodup : u.claimSources.Nodup → t.claimSources.Nodup
  others : ∀ keep : ClaimSourceRow → Bool, (∀ x, x.claimId ∈ ids → keep x = false) →
    t.claimSources.filter keep = u.claimSources.filter keep
  rest : t = { u with claims := t.claims, claimSources := t.claimSources }

theorem Replayed.cons {u t t' : Store} {id : String} {ids : List String}
    (h₁ : s.Replayed u t [id]) (h₂ : s.Replayed t t' ids) : s.Replayed u t' (id :: ids) := by
  constructor
  · intro id'
    rw [h₂.claims, h₁.claims]
    simp only [List.mem_cons, List.not_mem_nil, or_false]
    by_cases hid : id' ∈ ids
    · rw [if_pos hid, if_pos (.inr hid)]
    · rw [if_neg hid]
      simp only [hid, or_false]
  · intro x
    rw [h₂.sources, h₁.sources]
    simp only [List.mem_cons, List.not_mem_nil, or_false]
    tauto
  · exact fun hu => h₂.nodup (h₁.nodup hu)
  · intro keep hkeep
    rw [h₂.others keep fun x hx => hkeep x (List.mem_cons_of_mem _ hx),
      h₁.others keep fun x hx => hkeep x (by simpa using .inl (List.mem_singleton.mp hx))]
  · rw [h₂.rest, h₁.rest]

/-- **The replay of projected records** writes the rows that they have. -/
theorem foldlM_replayRecord (hs : s.Projected h) : ∀ (records : List ClaimRecord) (u : Store),
    (∀ r ∈ records, s.claimRecords.get? r.id = some r ∧ r.invalidated = false) →
    (records.map ClaimRecord.id).Nodup → u.ledger = s.ledger → u.prompts = s.prompts →
    (∀ r ∈ records, u.claims.get? r.id = none) →
    ∃ t, records.foldlM (replayRecord h) u = .ok t ∧
      s.Replayed u t (records.map ClaimRecord.id)
  | [], u, _, _, _, _, _ =>
    ⟨u, rfl, fun id => by simp, fun x => by simp, fun hu => hu, fun _ _ => rfl, rfl⟩
  | r :: records, u, hrecords, hids, hledger, hprompts, hfree => by
    rw [List.map_cons, List.nodup_cons] at hids
    obtain ⟨hr, hvalid⟩ := hrecords r List.mem_cons_self
    obtain ⟨row, claims, w, hrow, hins, hid, hsources, hreplay⟩ :=
      replayRecord_eq_ok hs hr hvalid hledger hprompts (hfree r List.mem_cons_self)
    have hkey : row.id = r.id := Table.key_of_get? hrow
    have hone : s.Replayed u { u with
        claims := claims, claimSources := withSources u.claimSources w } [r.id] := by
      refine ⟨fun id => ?_, fun x => ?_, fun hu => nodup_withSources hu, fun keep hkeep => ?_, rfl⟩
      · show claims.get? id = _
        rw [Table.get?_insert? hins, hkey]
        simp only [List.mem_singleton]
        by_cases heq : r.id = id
        · rw [if_pos heq, if_pos heq.symm, ← heq, hrow]
        · rw [if_neg heq, if_neg fun h => heq h.symm]
      · show x ∈ withSources u.claimSources w ↔ _
        rw [mem_withSources, hid, ← hsources x, List.mem_singleton]
        exact or_congr_right and_comm
      · refine filter_withSources fun src _ => hkeep _ ?_
        rw [List.mem_singleton]
        exact hid
    obtain ⟨t, ht, hrest⟩ := foldlM_replayRecord hs records
      { u with claims := claims, claimSources := withSources u.claimSources w }
      (fun r' hr' => hrecords r' (List.mem_cons_of_mem _ hr')) hids.2 hledger hprompts
      (fun r' hr' => by
        have hne : r.id ≠ r'.id := fun heq => hids.1 (heq ▸ List.mem_map_of_mem hr')
        show claims.get? r'.id = none
        rw [Table.get?_insert? hins, hkey, if_neg hne]
        exact hfree r' (List.mem_cons_of_mem _ hr'))
    refine ⟨t, ?_, hone.cons hrest⟩
    rw [List.foldlM_cons, hreplay]
    exact ht

/-! ### The rebuild -/

theorem mem_survivingRecords {r : ClaimRecord} : r ∈ s.survivingRecords ↔
    s.claimRecords.get? r.id = some r ∧ r.invalidated = false := by
  unfold survivingRecords
  rw [List.mem_mergeSort, Table.mem_select]
  simp

theorem nodup_survivingRecords : (s.survivingRecords.map ClaimRecord.id).Nodup := by
  have hperm : (s.survivingRecords.map ClaimRecord.id).Perm
      ((s.claimRecords.select fun r => !r.invalidated).map ClaimRecord.id) :=
    (List.mergeSort_perm _ _).map _
  rw [hperm.nodup_iff]
  exact (List.filter_sublist.map _).nodup s.claimRecords.nodup

/-- A claim has a row if its record survives. -/
theorem Projected.mem_surviving (hs : s.Projected h) {id : String} :
    id ∈ s.survivingRecords.map ClaimRecord.id ↔ (s.claims.get? id).isSome = true := by
  constructor
  · intro hid
    obtain ⟨r, hr, rfl⟩ := List.mem_map.mp hid
    obtain ⟨hr, hvalid⟩ := mem_survivingRecords.mp hr
    obtain ⟨w, p, -, hclaim, -⟩ := hs.record _ r hr hvalid
    rw [hclaim]
    rfl
  · intro hid
    obtain ⟨c, hc⟩ := Option.isSome_iff_exists.mp hid
    obtain ⟨r, hr, hvalid⟩ := hs.claim id c hc
    have hkey : r.id = id := Table.key_of_get? hr
    rw [← hkey] at hr ⊢
    exact List.mem_map_of_mem (mem_survivingRecords.mpr ⟨hr, hvalid⟩)

/-- A record that does not survive is of an invalidated claim. -/
theorem Projected.not_mem_surviving (hs : s.Projected h) {x : ClaimSourceRow}
    (hx : x ∈ s.claimSources) : x.claimId ∉ s.survivingRecords.map ClaimRecord.id ↔
      (s.claimRecords.get? x.claimId).all ClaimRecord.invalidated = true := by
  obtain ⟨r, hr⟩ := hs.source x hx
  have hkey : r.id = x.claimId := Table.key_of_get? hr
  rw [hr, Option.all_some]
  constructor
  · intro hnot
    by_contra hvalid
    refine hnot (List.mem_map.mpr ⟨r, mem_survivingRecords.mpr ⟨hkey ▸ hr, ?_⟩, hkey⟩)
    exact Bool.not_eq_true _ ▸ hvalid
  · intro hinvalid hmem
    obtain ⟨r', hr', hkey'⟩ := List.mem_map.mp hmem
    obtain ⟨hr', hvalid⟩ := mem_survivingRecords.mp hr'
    rw [hkey', hr] at hr'
    rw [← Option.some.inj hr', hinvalid] at hvalid
    cases hvalid

/-- The citations of the claims that are gone. -/
def keptSources (s : Store) : List ClaimSourceRow :=
  s.claimSources.filter fun c => (s.claimRecords.get? c.claimId).all ClaimRecord.invalidated

/-- What the records replay to, from nothing. -/
def replayClaims (h : ClaimHost) (s : Store) : Except DbError Store :=
  s.survivingRecords.foldlM (replayRecord h) { s with claims := ∅, claimSources := [] }

theorem Projected.replayed (hs : s.Projected h) (sources : List ClaimSourceRow) :
    ∃ t, s.survivingRecords.foldlM (replayRecord h) { s with claims := ∅, claimSources := sources } =
        .ok t ∧
      s.Replayed { s with claims := ∅, claimSources := sources } t
        (s.survivingRecords.map ClaimRecord.id) :=
  foldlM_replayRecord hs _ _ (fun _ hr => mem_survivingRecords.mp hr) nodup_survivingRecords rfl rfl
    fun _ _ => rfl

/-- The replay's claims are those that are here. -/
theorem Projected.rebuilt_claims (hs : s.Projected h) {sources : List ClaimSourceRow} {t : Store}
    (hrep : s.Replayed { s with claims := ∅, claimSources := sources } t
      (s.survivingRecords.map ClaimRecord.id)) (id : String) :
    t.claims.get? id = s.claims.get? id := by
  rw [hrep.claims]
  by_cases hid : id ∈ s.survivingRecords.map ClaimRecord.id
  · rw [if_pos hid]
  · rw [if_neg hid]
    have hnone := mt hs.mem_surviving.mpr hid
    rw [Option.not_isSome_iff_eq_none] at hnone
    rw [hnone]
    rfl

/-- **A rebuild changes nothing**: the rows stay, and so does all else. -/
theorem Projected.rebuild (hs : s.Projected h) :
    ∃ t, s.rebuildClaimProjection h = .ok (t, s.survivingRecords.length) ∧
      (∀ id, t.claims.get? id = s.claims.get? id) ∧
      (∀ x, x ∈ t.claimSources ↔ x ∈ s.claimSources) ∧ t.claimSources.Nodup ∧
      t = { s with claims := t.claims, claimSources := t.claimSources } ∧
      t.rebuildClaimProjection h = .ok (t, s.survivingRecords.length) := by
  obtain ⟨t, ht, hrep⟩ := hs.replayed s.keptSources
  have hok : s.rebuildClaimProjection h = .ok (t, s.survivingRecords.length) := by
    unfold rebuildClaimProjection
    exact bind_eq_ok.mpr ⟨t, ht, rfl⟩
  have hrest : t = { s with claims := t.claims, claimSources := t.claimSources } := hrep.rest
  refine ⟨t, hok, hs.rebuilt_claims hrep, fun x => ?_, ?_, hrest, ?_⟩
  · rw [hrep.sources]
    show x ∈ s.keptSources ∨ _ ↔ _
    unfold keptSources
    rw [List.mem_filter]
    constructor
    · rintro (⟨hx, -⟩ | ⟨-, hx⟩) <;> exact hx
    · intro hx
      by_cases hid : x.claimId ∈ s.survivingRecords.map ClaimRecord.id
      · exact .inr ⟨hid, hx⟩
      · exact .inl ⟨hx, (hs.not_mem_surviving hx).mp hid⟩
  · exact hrep.nodup (hs.nodup.filter _)
  · -- the second rebuild clears to the same store
    have hrecords : t.claimRecords = s.claimRecords := by rw [hrest]
    have hkept : t.keptSources = s.keptSources := by
      have hothers := hrep.others (fun c => (s.claimRecords.get? c.claimId).all
        ClaimRecord.invalidated) fun x hx => by
          obtain ⟨r, hr, hkey⟩ := List.mem_map.mp hx
          obtain ⟨hr, hvalid⟩ := mem_survivingRecords.mp hr
          rw [← hkey, hr, Option.all_some, hvalid]
      unfold keptSources
      rw [hrecords, hothers]
      show List.filter _ s.keptSources = _
      unfold keptSources
      rw [List.filter_filter]
      simp only [Bool.and_self]
    have hcleared : ({ t with claims := ∅, claimSources := t.keptSources } : Store) =
        { s with claims := ∅, claimSources := s.keptSources } := by
      rw [hkept, hrest]
    have hsurviving : t.survivingRecords = s.survivingRecords := by
      unfold survivingRecords
      rw [hrecords]
    unfold rebuildClaimProjection
    rw [hsurviving]
    show (List.foldlM (replayRecord h) ({ t with claims := ∅, claimSources := t.keptSources } : Store)
      s.survivingRecords >>= _) = _
    rw [hcleared]
    exact bind_eq_ok.mpr ⟨t, ht, rfl⟩

theorem Projected.rebuilt (hs : s.Projected h) {n : ℕ}
    (hok : s.rebuildClaimProjection h = .ok (t, n)) : t.Projected h := by
  obtain ⟨u, hu, hclaims, hsources, hnodup, hrest, -⟩ := hs.rebuild
  rw [hok] at hu
  cases hu
  have hrecords : t.claimRecords = s.claimRecords := by rw [hrest]
  have hprompt (seq : ℤ) : t.promptAt seq = s.promptAt seq := by rw [hrest]; rfl
  constructor
  · intro id r hr hvalid
    rw [hrecords] at hr
    obtain ⟨w, p, hholds, hclaim, hcited⟩ := hs.record id r hr hvalid
    obtain ⟨src, rest, hfirst, hp⟩ := hholds.first
    refine ⟨w, p, ⟨hholds.json, hholds.id, hholds.finite, src, rest, hfirst, ?_⟩, ?_, fun x => ?_⟩
    · rw [hprompt]
      exact hp
    · rw [hclaims]
      exact hclaim
    · rw [hsources]
      exact hcited x
  · intro id c hc
    rw [hclaims] at hc
    rw [hrecords]
    exact hs.claim id c hc
  · intro x hx
    rw [hrecords]
    exact hs.source x ((hsources x).mp hx)
  · exact hnodup

end

end Store

/-! ### Calls in a row -/

/-- Something the lake does that is not about claims. -/
structure LakeStep where
  run : Store → Store
  grows : ∀ s, Store.LakeGrows s (run s)

/-- A call on the claims, or one that a source is compacted or forgotten by, or
whatever else goes on. -/
inductive ClaimCall
  | write (w : ClaimWrite) (recordedAt : ℤ) (author : String)
  | retire (id : String) (recordedAt : ℤ) (author : String)
  | compact (now prompt : ℤ) (gist reason gistSource actor : String) (archived : Bool)
  | rebuild
  | lake (step : LakeStep)

namespace Store

variable {h : ClaimHost} {s t : Store}

/-- One call; one that fails changes nothing. -/
def claimStep (h : ClaimHost) (s : Store) : ClaimCall → Store
  | .write w recordedAt author =>
    match s.writeClaim h w recordedAt author with
    | .ok (t, _) => t
    | .error _ => s
  | .retire id recordedAt author => s.retireClaim h.toHost id recordedAt author
  | .compact now prompt gist reason gistSource actor archived =>
    match s.compactPromptBody h.toHost now prompt gist reason gistSource actor archived with
    | .ok (t, _) => t
    | .error _ => s
  | .rebuild =>
    match s.rebuildClaimProjection h with
    | .ok (t, _) => t
    | .error _ => s
  | .lake step => step.run s

/-- Calls in a row. -/
def claimRun (h : ClaimHost) (s : Store) (calls : List ClaimCall) : Store :=
  calls.foldl (claimStep h) s

theorem Projected.step (hs : s.Projected h) (call : ClaimCall) : (s.claimStep h call).Projected h := by
  cases call with
  | write w recordedAt author =>
    unfold claimStep
    dsimp only
    cases hok : s.writeClaim h w recordedAt author with
    | error e => exact hs
    | ok out =>
      obtain ⟨t, c⟩ := out
      obtain ⟨-, ⟨rfl, -⟩ | ⟨derived, hadmits, hwritten, -⟩⟩ := writeClaim_cases hok
      · exact hs
      · exact hs.write hadmits hwritten
  | retire id recordedAt author => exact hs.retire
  | compact now prompt gist reason gistSource actor archived =>
    unfold claimStep
    dsimp only
    cases hok : s.compactPromptBody h.toHost now prompt gist reason gistSource actor archived with
    | error e => exact hs
    | ok out =>
      obtain ⟨t, seq⟩ := out
      rcases compactPromptBody_grows hok with hgrow | ⟨hgrow, -⟩
      · exact hs.grow hgrow
      · exact hs.invalidate.grow hgrow
  | rebuild =>
    unfold claimStep
    dsimp only
    cases hok : s.rebuildClaimProjection h with
    | error e => exact hs
    | ok out => exact hs.rebuilt hok
  | lake step => exact hs.grow (step.grows s)

theorem Projected.run (hs : s.Projected h) (calls : List ClaimCall) :
    (s.claimRun h calls).Projected h := by
  induction calls generalizing s with
  | nil => exact hs
  | cons call calls ih => exact ih (hs.step call)

/-- No claim was written yet. -/
structure NoClaims (s : Store) : Prop where
  records : s.claimRecords.rows = []
  claims : s.claims.rows = []
  sources : s.claimSources = []

theorem NoClaims.projected (hs : s.NoClaims) : s.Projected h := by
  constructor
  · intro id r hr
    have hmem := (Table.get?_eq_some.mp hr).1
    rw [hs.records] at hmem
    cases hmem
  · intro id c hc
    have hmem := (Table.get?_eq_some.mp hc).1
    rw [hs.claims] at hmem
    cases hmem
  · intro x hx
    rw [hs.sources] at hx
    cases hx
  · rw [hs.sources]
    exact List.nodup_nil

end Store

/-! ### A claim to run the model with -/

/-- One prompt of a user's, recorded. -/
def vimEvidence : Store :=
  ({ Store.empty with
    prompts := ⟨[⟨1, 1, some "user", none, none, none, none, none, none, "My editor is Vim", "hash",
      none, none, none, none, none⟩], by decide⟩ } : Store).append Host.plain
    ⟨"prompt", "local", 1, some 1, none, none, none, none, "hash"⟩

/-- What it says, with it as the citation. -/
def vimClaim : ClaimWrite :=
  ⟨"vim", "editor", .preference, .text "Vim", ⟨none, none, none, none, none, false⟩,
    [⟨"local", 1, .user, "My editor is Vim", some 0⟩], .structured, 10, none, [], [], none, none⟩

/-- The prompt forgotten. -/
def forgetVim : ClaimCall := .compact 30 1 "[forgotten]" "forget" "deterministic" "ann" true

/-! ### The fold -/

open Store in
/-- **The claims are a fold of the records.** After any calls on a store without
claims: replaying the surviving records, in order, gives the claims, and the
citations but for those kept of invalidated claims; a rebuild changes neither
table nor anything else, and a second one gives what the first gave. -/
theorem claims_replayed (h : ClaimHost) (s : Store) (calls : List ClaimCall) (hs : s.NoClaims) :
    (∃ t, (s.claimRun h calls).replayClaims h = .ok t ∧
        (s.claimRun h calls).claims.rows.Perm t.claims.rows ∧
        (s.claimRun h calls).claimSources.Perm
          ((s.claimRun h calls).keptSources ++ t.claimSources)) ∧
      ∃ t n, (s.claimRun h calls).rebuildClaimProjection h = .ok (t, n) ∧
        t.claims.rows.Perm (s.claimRun h calls).claims.rows ∧
        t.claimSources.Perm (s.claimRun h calls).claimSources ∧
        t = { s.claimRun h calls with claims := t.claims, claimSources := t.claimSources } ∧
        t.rebuildClaimProjection h = .ok (t, n) := by
  have hproj : (s.claimRun h calls).Projected h := hs.projected.run calls
  generalize s.claimRun h calls = u at hproj
  constructor
  · obtain ⟨t, ht, hrep⟩ := hproj.replayed []
    refine ⟨t, ht, Table.perm_rows fun id => (hproj.rebuilt_claims hrep id).symm, ?_⟩
    have hsources (x : ClaimSourceRow) : x ∈ t.claimSources ↔
        x.claimId ∈ u.survivingRecords.map ClaimRecord.id ∧ x ∈ u.claimSources := by
      rw [hrep.sources]
      simp
    have hdisjoint : ∀ x ∈ u.keptSources, ∀ y ∈ t.claimSources, x ≠ y := by
      rintro x hx y hy rfl
      obtain ⟨hx, hgone⟩ := List.mem_filter.mp hx
      exact (hproj.not_mem_surviving hx).mpr hgone ((hsources x).mp hy).1
    refine (List.perm_ext_iff_of_nodup hproj.nodup (List.nodup_append.mpr
      ⟨hproj.nodup.filter _, hrep.nodup List.nodup_nil, hdisjoint⟩)).mpr fun x => ?_
    rw [List.mem_append, hsources]
    constructor
    · intro hx
      by_cases hid : x.claimId ∈ u.survivingRecords.map ClaimRecord.id
      · exact .inr ⟨hid, hx⟩
      · exact .inl (List.mem_filter.mpr ⟨hx, (hproj.not_mem_surviving hx).mp hid⟩)
    · rintro (hx | ⟨-, hx⟩)
      · exact (List.mem_filter.mp hx).1
      · exact hx
  · obtain ⟨t, hok, hclaims, hsources, hnodup, hrest, hagain⟩ := hproj.rebuild
    exact ⟨t, _, hok, Table.perm_rows hclaims,
      (List.perm_ext_iff_of_nodup hnodup hproj.nodup).mpr hsources, hrest, hagain⟩

/-- The claim about the editor, rebuilt. -/
theorem claims_replayed_vim : ∃ t n,
    (vimEvidence.claimRun .plain [.write vimClaim 20 "ann"]).rebuildClaimProjection .plain =
        .ok (t, n) ∧
      t.claims.rows.Perm (vimEvidence.claimRun .plain [.write vimClaim 20 "ann"]).claims.rows ∧
      t.claimSources.Perm (vimEvidence.claimRun .plain [.write vimClaim 20 "ann"]).claimSources :=
  have ⟨t, n, hok, hclaims, hsources, _⟩ :=
    (claims_replayed .plain vimEvidence [.write vimClaim 20 "ann"] ⟨rfl, rfl, rfl⟩).2
  ⟨t, n, hok, hclaims, hsources⟩

/-- The citation of a claim whose evidence was forgotten stays, and no record is
left that replays to it. -/
theorem keptSource_not_replayed : vimEvidence.NoClaims ∧
    (vimEvidence.claimRun .plain [.write vimClaim 20 "ann", forgetVim]).claimSources =
      [⟨"vim", "local", 1⟩] ∧
    ((vimEvidence.claimRun .plain [.write vimClaim 20 "ann", forgetVim]).replayClaims
      .plain).toOption.map Store.claimSources = some [] :=
  ⟨⟨rfl, rfl, rfl⟩, by decide +kernel, by decide +kernel⟩

end PolisMemory
