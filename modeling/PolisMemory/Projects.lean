/-
# Project filters

The projects that the matching subscriptions ask for are collapsed into one
list, and a body whose project starts with none of them goes in as a stub.
To import under a list of projects is to import under none and then to stub
the rows that are new and not kept (`ProjectFilter.apply_importRows`), which
relates the imports of one envelope under any two sets of subscriptions
(`subscriptions_monotone`).

A list without a project keeps everything, and so does no subscription at all.
A row without a project beside one with a project keeps nothing more than that
one; and a prefix is not a directory (`inProject`).

Key definitions: `keepsBody`, `ProjectFilter`, `inProject`.
Key theorems: `ProjectFilter.apply_importRows`, `subscriptions_monotone`.
-/
import PolisMemory.Subscriptions

namespace PolisMemory

open Tables
open Store (bind_eq_ok)

/-- A body of the project is kept under the list. -/
def keepsBody (projects : List String) (project : Option String) : Bool :=
  projects.isEmpty || project.any fun pp => projects.any fun f => pp = f || startsWith pp f

/-- What an import under subscriptions does to the rows of one under none:
rows with ids after `since` go in as stubs unless they are kept. -/
structure ProjectFilter where
  since : ℤ
  projects : List String
  subscriptions : AutoTable SubscriptionRow.id
  trust : Table TrustEntry.principalId

/-- A prompt to write, under a list of projects. -/
def ForeignPromptInput.under (projects : List String) (i : ForeignPromptInput) : ForeignPromptInput :=
  if keepsBody projects i.project then i
  else { i with
    redaction := "stub"
    text := none }

theorem promptInputs_under (env : Envelope) (projects : List String) :
    env.promptInputs projects = (env.promptInputs []).map (ForeignPromptInput.under projects) := by
  unfold Envelope.promptInputs
  rw [List.map_filterMap]
  refine List.filterMap_congr fun p _ => ?_
  rw [Option.map_map]
  rfl

namespace ProjectFilter

variable (x : ProjectFilter) {s s' : ForeignStore} {c : String} {q now : ℤ}

/-- A row that the filter stubs. -/
def stubs (r : ForeignPromptRow) : Bool :=
  x.since < r.id && !keepsBody x.projects r.project && !r.tombstoned

/-- The store under the filter. -/
def apply (s : ForeignStore) : ForeignStore :=
  { s with
    prompts := s.prompts.update x.stubs fun r => { r with redaction := "stub", text := none }
    subscriptions := x.subscriptions
    trust := x.trust }

theorem apply_suppress : (x.apply s).suppress c q = x.apply (s.suppress c q) := by
  have hids : ((x.apply s).prompts.select fun p => p.chainId = c && p.seq = q).map ForeignPromptRow.id =
      (s.prompts.select fun p => p.chainId = c && p.seq = q).map ForeignPromptRow.id := by
    change ((s.prompts.rows.map _).filter _).map _ = _
    rw [List.filter_map, List.map_map]
    have hsame : ((fun p : ForeignPromptRow => decide (p.chainId = c) && decide (p.seq = q)) ∘
        fun r => if x.stubs r then { r with redaction := "stub", text := none } else r) =
          fun p => decide (p.chainId = c) && decide (p.seq = q) := by
      funext r
      simp only [Function.comp_apply]
      split_ifs <;> rfl
    rw [hsame]
    refine List.map_congr_left fun r _ => ?_
    simp only [Function.comp_apply]
    split_ifs <;> rfl
  have hprompts : (x.apply s).prompts.update (fun p => p.chainId = c && p.seq = q && !p.tombstoned)
      (fun p => { p with text := some tombstoneText, redaction := "stub", tombstoned := true }) =
        (s.suppress c q).prompts.update x.stubs fun r => { r with redaction := "stub", text := none } := by
    refine IndexedTable.ext_rows ?_ rfl
    change (s.prompts.rows.map _).map _ = (s.prompts.rows.map _).map _
    rw [List.map_map, List.map_map]
    refine List.map_congr_left fun r _ => ?_
    simp only [Function.comp_apply]
    by_cases hstub : x.stubs r = true
    · by_cases hdead : (decide (r.chainId = c) && decide (r.seq = q) && !r.tombstoned) = true
      · rw [if_pos hstub, if_pos hdead, if_pos hdead, if_neg (by simp [stubs])]
      · rw [if_pos hstub, if_neg hdead, if_neg hdead, if_pos hstub]
    · by_cases hdead : (decide (r.chainId = c) && decide (r.seq = q) && !r.tombstoned) = true
      · rw [if_neg hstub, if_pos hdead, if_neg (by simp [stubs])]
      · rw [if_neg hstub, if_neg hdead, if_neg hstub]
  unfold ForeignStore.suppress
  dsimp only
  rw [hids, hprompts]
  rfl

theorem apply_tombstone : (x.apply s).tombstone c q = (s.tombstone c q).map x.apply := by
  unfold ForeignStore.tombstone
  split_ifs
  · rfl
  · rw [x.apply_suppress]
    rfl

/-- A prompt under the filter. -/
theorem apply_importPrompt {i : ForeignPromptInput} (hsince : x.since ≤ s.prompts.lastId) :
    ForeignStore.importPrompt now c (x.apply s) (i.under x.projects) =
      (ForeignStore.importPrompt now c s i).map x.apply := by
  have hseq : (i.under x.projects).seq = i.seq := by
    unfold ForeignPromptInput.under
    split_ifs <;> rfl
  have hinsert : (x.apply s).prompts.insertOrIgnore
      (ForeignStore.promptRow now c (i.under x.projects)) =
        (s.prompts.insertOrIgnore (ForeignStore.promptRow now c i)).update x.stubs
          fun r => { r with redaction := "stub", text := none } := by
    refine IndexedTable.update_insertOrIgnore ?_
    have hnew : x.since < s.prompts.nextId := by
      change x.since < s.prompts.lastId + 1
      omega
    unfold ForeignPromptInput.under stubs
    by_cases hkeep : keepsBody x.projects i.project = true
    · rw [if_pos hkeep, if_neg (by simp [hkeep])]
    · rw [if_neg hkeep, if_pos (by simpa [hnew] using hkeep)]
  set t : ForeignStore := { s with
    prompts := s.prompts.insertOrIgnore (ForeignStore.promptRow now c i) } with ht
  have hstore : ({ x.apply s with
      prompts := (x.apply s).prompts.insertOrIgnore
        (ForeignStore.promptRow now c (i.under x.projects)) } : ForeignStore) = x.apply t := by
    rw [hinsert]
    rfl
  have hleft : ForeignStore.importPrompt now c (x.apply s) (i.under x.projects) =
      if (x.apply t).captureTombstoned c i.seq then (x.apply t).tombstone c i.seq
      else .ok (x.apply t) := by
    rw [← hstore, ← hseq]
    rfl
  have hright : ForeignStore.importPrompt now c s i =
      if t.captureTombstoned c i.seq then t.tombstone c i.seq else .ok t := rfl
  have hdead : (x.apply t).captureTombstoned c i.seq = t.captureTombstoned c i.seq := rfl
  rw [hleft, hright, hdead]
  split_ifs
  · exact x.apply_tombstone
  · rfl

theorem apply_writeNote {row : ForeignNoteRow} :
    (x.apply s).writeNote row = x.apply (s.writeNote row) := by
  unfold ForeignStore.writeNote
  have hget : (x.apply s).notes.get? row.key = s.notes.get? row.key := rfl
  rw [hget]
  cases s.notes.get? row.key with
  | none => rfl
  | some old =>
    dsimp only
    split_ifs <;> rfl

theorem apply_importNote {n : ForeignNoteInput} :
    ForeignStore.importNote c (x.apply s) n = (ForeignStore.importNote c s n).map x.apply := by
  unfold ForeignStore.importNote
  cases n.seq with
  | none => rfl
  | some seq =>
    dsimp only
    have hblocked : ((x.apply s).noteTombstoned c n.noteId seq ||
        (((x.apply s).notes.get? (c, n.noteId)).bind ForeignNoteRow.seq).any
          ((x.apply s).captureTombstoned c)) = (s.noteTombstoned c n.noteId seq ||
            ((s.notes.get? (c, n.noteId)).bind ForeignNoteRow.seq).any (s.captureTombstoned c)) := rfl
    rw [hblocked, x.apply_writeNote]
    split_ifs
    · exact x.apply_tombstone
    · rfl

theorem apply_importRedaction {r : ForeignRedactionInput} :
    ForeignStore.importRedaction now c (x.apply s) r =
      (ForeignStore.importRedaction now c s r).map x.apply := by
  unfold ForeignStore.importRedaction
  split_ifs
  · rfl
  · have htomb := x.apply_tombstone (c := r.targetChain) (q := r.targetSeq)
      (s := { s with
        redactions := s.redactions.insertOrIgnore ⟨c, r.eventSeq, r.targetChain, r.targetSeq, now⟩ })
    exact htomb

/-! ### The segment of an import -/

theorem apply_importPrompts {prompts : List ForeignPromptInput} (hsince : x.since ≤ s.prompts.lastId) :
    (prompts.map (ForeignPromptInput.under x.projects)).foldlM (ForeignStore.importPrompt now c)
      (x.apply s) = (prompts.foldlM (ForeignStore.importPrompt now c) s).map x.apply := by
  induction prompts generalizing s with
  | nil => rfl
  | cons i prompts ih =>
    rw [List.map_cons, List.foldlM_cons, List.foldlM_cons, x.apply_importPrompt hsince]
    cases hi : ForeignStore.importPrompt now c s i with
    | error e => rfl
    | ok t => exact ih (hsince.trans (ForeignStore.lastId_importPrompt hi))

/-- A step that comes to the same under the filter does so over a list. -/
theorem apply_foldlM {α : Type} {g : ForeignStore → α → Except String ForeignStore}
    (hg : ∀ s a, g (x.apply s) a = (g s a).map x.apply) (as : List α) :
    as.foldlM g (x.apply s) = (as.foldlM g s).map x.apply := by
  induction as generalizing s with
  | nil => rfl
  | cons a as ih =>
    rw [List.foldlM_cons, List.foldlM_cons, hg]
    cases g s a with
    | error e => rfl
    | ok t => exact ih

theorem apply_foldl {α : Type} {g : ForeignStore → α → ForeignStore}
    (hg : ∀ s a, g (x.apply s) a = x.apply (g s a)) (as : List α) :
    as.foldl g (x.apply s) = x.apply (as.foldl g s) := by
  induction as generalizing s with
  | nil => rfl
  | cons a as ih => rw [List.foldl_cons, List.foldl_cons, hg, ih]

/-- **A segment under the filter** is the segment, and then the filter. -/
theorem apply_importRows {env : Envelope} {start : ℤ × ℤ} (hsince : x.since ≤ s.prompts.lastId) :
    (x.apply s).importRows now env x.projects start =
      (s.importRows now env [] start).map x.apply := by
  unfold ForeignStore.importRows
  cases env.events.getLast? with
  | none => rfl
  | some last =>
    dsimp only
    have hsegment : (x.apply s).importForeignSegment now (env.chainRow now start.1 last)
        (env.newEvents start.2) (env.promptInputs x.projects) env.noteInputs env.payload.principals
          env.redactionInputs = (s.importForeignSegment now (env.chainRow now start.1 last)
            (env.newEvents start.2) (env.promptInputs []) env.noteInputs env.payload.principals
              env.redactionInputs).map x.apply := by
      unfold ForeignStore.importForeignSegment
      dsimp only
      set s₀ := (env.newEvents start.2).foldl (ForeignStore.importEvent _) s with hs₀
      have hevents : (env.newEvents start.2).foldl (ForeignStore.importEvent
          (env.chainRow now start.1 last).chainId) (x.apply s) = x.apply s₀ :=
        x.apply_foldl (fun _ _ => rfl) _
      have hkept : s₀.prompts = s.prompts :=
        foldl_keeps (f := fun t : ForeignStore => t.prompts) fun _ _ => rfl
      rw [hevents, promptInputs_under env x.projects, x.apply_importPrompts (hkept ▸ hsince)]
      cases (env.promptInputs []).foldlM (ForeignStore.importPrompt now _) s₀ with
      | error e => rfl
      | ok s₁ =>
        change (env.noteInputs.foldlM (ForeignStore.importNote _) (x.apply s₁) >>= _) =
          (env.noteInputs.foldlM (ForeignStore.importNote _) s₁ >>= _).map x.apply
        rw [x.apply_foldlM fun _ _ => x.apply_importNote]
        cases env.noteInputs.foldlM (ForeignStore.importNote _) s₁ with
        | error e => rfl
        | ok s₂ =>
          change (env.redactionInputs.foldlM (ForeignStore.importRedaction now _)
            (env.payload.principals.foldl (ForeignStore.importPrincipal _) (x.apply s₂)) >>= _) =
              (env.redactionInputs.foldlM (ForeignStore.importRedaction now _)
                (env.payload.principals.foldl (ForeignStore.importPrincipal _) s₂) >>= _).map x.apply
          rw [x.apply_foldl fun _ _ => rfl, x.apply_foldlM fun _ _ => x.apply_importRedaction]
          cases env.redactionInputs.foldlM (ForeignStore.importRedaction now _)
            (env.payload.principals.foldl (ForeignStore.importPrincipal _) s₂) with
          | error e => rfl
          | ok s₃ => rfl
    rw [hsegment]
    cases s.importForeignSegment now (env.chainRow now start.1 last)
      (env.newEvents start.2) (env.promptInputs []) env.noteInputs env.payload.principals
        env.redactionInputs with
    | error e => rfl
    | ok t => rfl

/-- Nothing is new yet. -/
theorem apply_of_since (hsince : x.since = s.prompts.lastId) :
    x.apply s = { s with
      subscriptions := x.subscriptions
      trust := x.trust } := by
  have hprompts : (s.prompts.update x.stubs fun r => { r with redaction := "stub", text := none }) =
      s.prompts := by
    refine IndexedTable.ext_rows ?_ rfl
    change s.prompts.rows.map _ = s.prompts.rows
    have hsame : ∀ r ∈ s.prompts.rows,
        (if x.stubs r then { r with redaction := "stub", text := none } else r) = r := by
      intro r hr
      have hle : r.id ≤ x.since := hsince ▸ s.prompts.bound r hr
      rw [if_neg (by simp [stubs, not_lt.mpr hle])]
    exact (List.map_congr_left hsame).trans (List.map_id _)
  unfold apply
  rw [hprompts]

end ProjectFilter

/-! ### An import under subscriptions -/

namespace ForeignStore

variable {w : Wire} {now : ℤ} {opts : ImportOptions} {s : ForeignStore} {env : Envelope}

/-- The store with other subscriptions. -/
def subscribe (s : ForeignStore) (rows : AutoTable SubscriptionRow.id) : ForeignStore :=
  { s with subscriptions := rows }

/-- An import that is admitted goes through if its rows go in. -/
theorem importEnvelope_admitted {start : ℤ × ℤ} (h : w.Admits now opts s env start) :
    ∃ trust, ∀ t, { s with trust := trust }.importRows now env (s.projects env) start = .ok t →
      (w.importEnvelope now opts s env).2.isOk = true := by
  obtain ⟨v, hv⟩ := ok_of_isOk h.verified
  obtain ⟨⟨s₀, trustedNow⟩, hx⟩ := ok_of_isOk h.trusted
  obtain ⟨trust, htrust⟩ := Wire.trustHuman_ok hx
  dsimp only at htrust
  subst htrust
  refine ⟨trust, fun t ht => ?_⟩
  rw [Wire.importEnvelope_trusted hv h.payload h.foreign, hx]
  have hsub : { s with trust := trust }.subscribed opts env = true := h.subscribed
  have hcont : { s with trust := trust }.continuity now env = .ok start := h.continuity
  have hrows : { s with trust := trust }.importRows now env
      ({ s with trust := trust }.projects env) start = .ok t := ht
  dsimp only
  unfold Wire.importTrusted
  simp only [hsub, hcont, hrows, Bool.not_true, Bool.false_eq_true, if_false]
  rfl

/-- The prompts after an import are those of the rows without a filter, under
the filter of the subscriptions; or nothing goes in. -/
theorem prompts_importEnvelope (w : Wire) (now : ℤ) (opts : ImportOptions) (s : ForeignStore)
    (rows : AutoTable SubscriptionRow.id) (env : Envelope) :
    (∃ start t trust, w.Admits now opts (s.subscribe rows) env start ∧
        s.importRows now env [] start = .ok t ∧
        (w.importEnvelope now opts (s.subscribe rows) env).1.prompts = (ProjectFilter.apply
          ⟨s.prompts.lastId, (s.subscribe rows).projects env, rows, trust⟩ t).prompts) ∨
      ((w.importEnvelope now opts (s.subscribe rows) env).1.prompts = s.prompts ∧
        ∀ start, w.Admits now opts (s.subscribe rows) env start →
          ∀ t, s.importRows now env [] start ≠ .ok t) := by
  have hfilter (trust : Table TrustEntry.principalId) (start : ℤ × ℤ) :
      { s.subscribe rows with trust := trust }.importRows now env ((s.subscribe rows).projects env)
        start = (s.importRows now env [] start).map (ProjectFilter.apply
          ⟨s.prompts.lastId, (s.subscribe rows).projects env, rows, trust⟩) := by
    set x : ProjectFilter := ⟨s.prompts.lastId, (s.subscribe rows).projects env, rows, trust⟩ with hx
    have hstart := x.apply_of_since (s := s) rfl
    rw [← x.apply_importRows (le_refl _), hstart]
    rfl
  rcases Wire.importEnvelope_cases w now opts (s.subscribe rows) env with
    ⟨start, trust, t', r, hadmits, hrows, heq⟩ | ⟨⟨trust, chains, -, heq⟩, hrefused⟩
  · rw [hfilter] at hrows
    cases ht : s.importRows now env [] start with
    | error e => rw [ht] at hrows; cases hrows
    | ok t =>
      rw [ht] at hrows
      cases hrows
      refine .inl ⟨start, t, trust, hadmits, ht, ?_⟩
      rw [heq]
      exact prompts_importRest opts env start.2
  · refine .inr ⟨by rw [heq]; rfl, fun start hadmits t ht => ?_⟩
    obtain ⟨trust', hok⟩ := importEnvelope_admitted hadmits
    have hrows := hfilter trust' start
    rw [ht] at hrows
    exact absurd (hok _ hrows) (by rw [hrefused hadmits.foreign]; exact Bool.false_ne_true)

/-- The import puts the row in, with its body in full. -/
structure StoresInFull (w : Wire) (now : ℤ) (opts : ImportOptions) (s : ForeignStore)
    (env : Envelope) (p : ForeignPromptRow) : Prop where
  stored : p ∈ (w.importEnvelope now opts s env).1.prompts.rows
  new : p ∉ s.prompts.rows
  full : p.redaction = "full"
  text : p.text.isSome = true

/-- A body in full is one without a filter, and is kept. -/
theorem storesInFull_iff {rows : AutoTable SubscriptionRow.id} {p : ForeignPromptRow} :
    StoresInFull w now opts (s.subscribe rows) env p ↔
      ∃ start t, w.Admits now opts (s.subscribe rows) env start ∧
        s.importRows now env [] start = .ok t ∧ p ∈ t.prompts.rows ∧ p ∉ s.prompts.rows ∧
          p.redaction = "full" ∧ p.text.isSome = true ∧
            keepsBody ((s.subscribe rows).projects env) p.project = true := by
  rcases prompts_importEnvelope w now opts s rows env with
    ⟨start, t, trust, hadmits, ht, hprompts⟩ | ⟨hprompts, hnone⟩
  · set x : ProjectFilter := ⟨s.prompts.lastId, (s.subscribe rows).projects env, rows, trust⟩ with hx
    have hmem : p.redaction = "full" → (p ∈ (x.apply t).prompts.rows ↔
        p ∈ t.prompts.rows ∧ x.stubs p = false) := by
      intro hfull
      change p ∈ t.prompts.rows.map _ ↔ _
      rw [List.mem_map]
      constructor
      · rintro ⟨r, hr, heq⟩
        by_cases hstub : x.stubs r = true
        · rw [if_pos hstub] at heq
          subst heq
          simp at hfull
        · rw [if_neg hstub] at heq
          subst heq
          exact ⟨hr, by simpa using hstub⟩
      · rintro ⟨hr, hstub⟩
        exact ⟨p, hr, if_neg (by rw [hstub]; exact Bool.false_ne_true)⟩
    have hstubs : p ∈ t.prompts.rows → p ∉ s.prompts.rows → p.redaction = "full" →
        p.text.isSome = true → (x.stubs p = false ↔
          keepsBody ((s.subscribe rows).projects env) p.project = true) := by
      intro hp hnew hfull htext
      rcases full_importRows ht hp hfull htext with hold | ⟨i, -, id, hlater, hrow⟩
      · exact absurd hold hnew
      · have hid : s.prompts.lastId < p.id := by
          rw [hrow]
          exact hlater
        have hlive : p.tombstoned = false := by rw [hrow]
        simp [ProjectFilter.stubs, hx, hid, hlive]
    constructor
    · rintro ⟨hstored, hnew, hfull, htext⟩
      rw [hprompts, hmem hfull] at hstored
      obtain ⟨hp, hstub⟩ := hstored
      exact ⟨start, t, hadmits, ht, hp, hnew, hfull, htext, (hstubs hp hnew hfull htext).mp hstub⟩
    · rintro ⟨start', t', hadmits', ht', hp, hnew, hfull, htext, hkept⟩
      have hstart : start' = start := by
        have heq := hadmits'.continuity.symm.trans hadmits.continuity
        exact Except.ok.inj heq
      subst hstart
      have heq : t' = t := Except.ok.inj (ht'.symm.trans ht)
      subst heq
      refine ⟨?_, hnew, hfull, htext⟩
      rw [hprompts, hmem hfull]
      exact ⟨hp, (hstubs hp hnew hfull htext).mpr hkept⟩
  · constructor
    · rintro ⟨hstored, hnew, -⟩
      rw [hprompts] at hstored
      exact absurd hstored hnew
    · rintro ⟨start, t, hadmits, ht, -⟩
      exact absurd ht (hnone start hadmits t)

theorem trusted_subscribe (rows : AutoTable SubscriptionRow.id) :
    (w.trustHuman now opts (s.subscribe rows) env).isOk = (w.trustHuman now opts s env).isOk := by
  unfold Wire.trustHuman
  cases hknown : s.trust.get? env.header.human.principalId with
  | some t =>
    have hknown' : (s.subscribe rows).trust.get? env.header.human.principalId = some t := hknown
    simp only [hknown, hknown']
    split_ifs <;> rfl
  | none =>
    have hknown' : (s.subscribe rows).trust.get? env.header.human.principalId = none := hknown
    simp only [hknown, hknown']
    split_ifs <;> rfl

/-- Subscriptions that admit an envelope admit it again beside others. -/
theorem admits_subscribe {rows rows' : AutoTable SubscriptionRow.id} {start : ℤ × ℤ}
    (h : w.Admits now opts (s.subscribe rows) env start)
    (hsub : (s.subscribe rows').subscribed opts env = true) :
    w.Admits now opts (s.subscribe rows') env start where
  verified := h.verified
  payload := h.payload
  foreign := h.foreign
  trusted := (trusted_subscribe rows').trans ((trusted_subscribe rows).symm.trans h.trusted)
  subscribed := hsub
  continuity := h.continuity

/-! ### More subscriptions -/

theorem mem_matching {row : SubscriptionRow} : row ∈ s.matching env ↔ row ∈ s.subscriptions.rows ∧
    subscriptionMatches row env.header.human.principalId env.header.human.displayName = true :=
  List.mem_filter

theorem mem_projects {f : String} : f ∈ s.projects env ↔
    ∃ row ∈ s.matching env, row.project = some f ∧ trim f ≠ "" := by
  unfold projects
  rw [List.mem_filter, List.mem_filterMap, decide_eq_true_eq]
  constructor
  · rintro ⟨⟨row, hrow, hf⟩, hblank⟩
    exact ⟨row, hrow, hf, hblank⟩
  · rintro ⟨row, hrow, hf, hblank⟩
    exact ⟨⟨row, hrow, hf⟩, hblank⟩

theorem keepsBody_iff {projects : List String} {project : Option String} :
    keepsBody projects project = true ↔
      projects = [] ∨ ∃ pp ∈ project, ∃ f ∈ projects, startsWith pp f = true := by
  unfold keepsBody
  rw [Bool.or_eq_true, List.isEmpty_iff]
  refine or_congr_right ?_
  cases project with
  | none => simp
  | some pp =>
    simp only [Option.any_some, List.any_eq_true, Bool.or_eq_true, decide_eq_true_eq,
      Option.mem_some, exists_eq_left']
    refine exists_congr fun f => and_congr_right fun _ => or_iff_right_of_imp ?_
    rintro rfl
    exact startsWith_self pp

end ForeignStore

/-- The row asks for a project. -/
def SubscriptionRow.Asks (row : SubscriptionRow) : Prop := ∃ f, row.project = some f ∧ trim f ≠ ""

/-- The project's directory, or below it. -/
def inProject (dir path : String) : Bool :=
  path = dir || startsWith path (if dir.toList.getLast? = some '/' then dir else dir ++ "/")

theorem startsWith_of_inProject {dir path : String} (h : inProject dir path = true) :
    startsWith path dir = true := by
  unfold inProject at h
  rw [Bool.or_eq_true, decide_eq_true_eq] at h
  rcases h with rfl | h
  · exact startsWith_self path
  · split_ifs at h
    · exact h
    · unfold startsWith at h ⊢
      rw [List.isPrefixOf_iff_prefix] at h ⊢
      rw [String.toList_append] at h
      exact (List.prefix_append _ _).trans h

namespace ForeignStore

variable {w : Wire} {now : ℤ} {opts : ImportOptions} {s : ForeignStore} {env : Envelope}

/-- The rows that match the envelope each ask for a project, or none does. -/
def Alike (s : ForeignStore) (env : Envelope) : Prop :=
  (∀ row ∈ s.matching env, row.Asks) ∨ ∀ row ∈ s.matching env, ¬ row.Asks

/-- The same subscriptions, each of whole chains. -/
def wholeChains (s : ForeignStore) : ForeignStore :=
  s.subscribe (s.subscriptions.update (fun _ => true) fun r => { r with project := none })

/-- Where there are subscriptions, one matches what they admit. -/
theorem matching_of_subscribed (hforce : opts.force = false) (hne : s.subscriptions.rows ≠ [])
    (h : s.subscribed opts env = true) : ∃ row, row ∈ s.matching env := by
  unfold subscribed at h
  rw [hforce, Bool.or_false, Bool.or_eq_true, List.isEmpty_iff, Bool.not_eq_true'] at h
  rcases h with h | h
  · exact absurd h hne
  · exact List.isEmpty_eq_false_iff_exists_mem.mp h

theorem subscribed_of_matching {row : SubscriptionRow} (h : row ∈ s.matching env) :
    s.subscribed opts env = true := by
  have hmatching : (s.matching env).isEmpty = false := List.isEmpty_eq_false_iff_exists_mem.mpr ⟨row, h⟩
  unfold subscribed
  rw [hmatching]
  simp

/-- More subscriptions of one kind keep more. -/
theorem storesInFull_mono {rows : AutoTable SubscriptionRow.id} {p : ForeignPromptRow}
    (hforce : opts.force = false) (hne : s.subscriptions.rows ≠ [])
    (hrows : ∀ row ∈ s.subscriptions.rows, row ∈ rows.rows) (halike : (s.subscribe rows).Alike env)
    (h : StoresInFull w now opts s env p) : StoresInFull w now opts (s.subscribe rows) env p := by
  have hself : s.subscribe s.subscriptions = s := rfl
  obtain ⟨start, t, hadmits, ht, hp, hnew, hfull, htext, hkept⟩ :=
    storesInFull_iff.mp (hself.symm ▸ h)
  have hmatching : ∀ row ∈ s.matching env, row ∈ (s.subscribe rows).matching env := fun row hrow =>
    mem_matching.mpr ⟨hrows row (mem_matching.mp hrow).1, (mem_matching.mp hrow).2⟩
  obtain ⟨row, hrow⟩ := matching_of_subscribed hforce hne hadmits.subscribed
  refine storesInFull_iff.mpr ⟨start, t, admits_subscribe hadmits
    (subscribed_of_matching (hmatching row hrow)), ht, hp, hnew, hfull, htext, ?_⟩
  rw [keepsBody_iff] at hkept ⊢
  rcases hkept with hnone | ⟨pp, hpp, f, hf, hstarts⟩
  · -- no matching row asks for a project, so none of the others does
    left
    rcases halike with hall | hnot
    · obtain ⟨f, hf, hblank⟩ := hall row (hmatching row hrow)
      have hmem : f ∈ (s.subscribe s.subscriptions).projects env :=
        mem_projects.mpr ⟨row, hrow, hf, hblank⟩
      rw [hnone] at hmem
      cases hmem
    · rw [List.eq_nil_iff_forall_not_mem]
      intro f hf
      obtain ⟨row', hrow', hproject, hblank⟩ := mem_projects.mp hf
      exact hnot row' hrow' ⟨f, hproject, hblank⟩
  · right
    obtain ⟨row', hrow', hproject⟩ := mem_projects.mp hf
    exact ⟨pp, hpp, f, mem_projects.mpr ⟨row', hmatching row' hrow', hproject⟩, hstarts⟩

theorem projects_wholeChains : s.wholeChains.projects env = [] := by
  rw [List.eq_nil_iff_forall_not_mem]
  intro f hf
  obtain ⟨row, hrow, hproject, -⟩ := mem_projects.mp hf
  have hmem : row ∈ s.subscriptions.rows.map fun r =>
      if true then { r with project := none } else r := (mem_matching.mp hrow).1
  obtain ⟨r, -, rfl⟩ := List.mem_map.mp hmem
  cases hproject

/-- Whole chains are asked for of the same humans. -/
theorem subscribed_wholeChains : s.wholeChains.subscribed opts env = s.subscribed opts env := by
  have hrows : s.wholeChains.subscriptions.rows =
      s.subscriptions.rows.map fun r => if true then { r with project := none } else r := rfl
  have hmatching : s.wholeChains.matching env =
      (s.matching env).map fun r => if true then { r with project := none } else r := by
    unfold matching
    rw [hrows, List.filter_map]
    rfl
  unfold subscribed
  rw [hrows, hmatching, List.isEmpty_map, List.isEmpty_map]

/-- **A project filter keeps the bodies of the projects it names**, and of no
others but those whose project starts with one of them. -/
theorem storesInFull_project {p : ForeignPromptRow} (hforce : opts.force = false)
    (hne : s.subscriptions.rows ≠ []) (hasks : ∀ row ∈ s.matching env, row.Asks) :
    (StoresInFull w now opts s env p → StoresInFull w now opts s.wholeChains env p ∧
        ∃ row ∈ s.matching env, ∃ f ∈ row.project, ∃ pp ∈ p.project, startsWith pp f = true) ∧
      (StoresInFull w now opts s.wholeChains env p →
        (∃ row ∈ s.matching env, ∃ f ∈ row.project, ∃ pp ∈ p.project, inProject f pp = true) →
          StoresInFull w now opts s env p) := by
  have hself : s.subscribe s.subscriptions = s := rfl
  have hwhole : keepsBody (s.wholeChains.projects env) p.project = true := by
    rw [projects_wholeChains]
    rfl
  constructor
  · intro h
    obtain ⟨start, t, hadmits, ht, hp, hnew, hfull, htext, hkept⟩ :=
      storesInFull_iff.mp (hself.symm ▸ h)
    refine ⟨storesInFull_iff.mpr ⟨start, t, admits_subscribe hadmits
      (subscribed_wholeChains.trans hadmits.subscribed), ht, hp, hnew, hfull, htext, hwhole⟩, ?_⟩
    obtain ⟨row, hrow⟩ := matching_of_subscribed hforce hne hadmits.subscribed
    rw [keepsBody_iff] at hkept
    rcases hkept with hnone | ⟨pp, hpp, f, hf, hstarts⟩
    · obtain ⟨f, hf, hblank⟩ := hasks row hrow
      have hmem : f ∈ (s.subscribe s.subscriptions).projects env :=
        mem_projects.mpr ⟨row, hrow, hf, hblank⟩
      rw [hnone] at hmem
      cases hmem
    · obtain ⟨row', hrow', hproject, -⟩ := mem_projects.mp hf
      exact ⟨row', hrow', f, hproject, pp, hpp, hstarts⟩
  · rintro h ⟨row, hrow, f, hf, pp, hpp, hin⟩
    obtain ⟨start, t, hadmits, ht, hp, hnew, hfull, htext, -⟩ := storesInFull_iff.mp h
    refine (hself ▸ storesInFull_iff.mpr ⟨start, t, admits_subscribe hadmits
      (subscribed_of_matching hrow), ht, hp, hnew, hfull, htext, ?_⟩)
    obtain ⟨f', hf', hblank⟩ := hasks row hrow
    have hsame : f' = f := Option.some.inj (hf'.symm.trans hf)
    subst hsame
    exact keepsBody_iff.mpr (.inr ⟨pp, hpp, f', mem_projects.mpr ⟨row, hrow, hf', hblank⟩,
      startsWith_of_inProject hin⟩)

end ForeignStore

open ForeignStore in
/-- **Subscriptions keep what they ask for.** For an import that is not forced
and subscriptions that are not empty: what they store in full is stored in full
under any more of them, where those that match all ask for a project or none
does; and where those that match ask for projects, the bodies in full are those
of whole chains in the directory of a project or below it, and at most those
whose project starts with the name of one. -/
theorem subscriptions_monotone (w : Wire) (now : ℤ) (opts : ImportOptions) (s : ForeignStore)
    (rows : AutoTable SubscriptionRow.id) (env : Envelope) (hforce : opts.force = false)
    (hne : s.subscriptions.rows ≠ []) :
    ((∀ row ∈ s.subscriptions.rows, row ∈ rows.rows) → (s.subscribe rows).Alike env →
        ∀ p, StoresInFull w now opts s env p → StoresInFull w now opts (s.subscribe rows) env p) ∧
      ((∀ row ∈ s.matching env, row.Asks) → ∀ p,
        (StoresInFull w now opts s env p → StoresInFull w now opts s.wholeChains env p ∧
          ∃ row ∈ s.matching env, ∃ f ∈ row.project, ∃ pp ∈ p.project, startsWith pp f = true) ∧
        (StoresInFull w now opts s.wholeChains env p →
          (∃ row ∈ s.matching env, ∃ f ∈ row.project, ∃ pp ∈ p.project, inProject f pp = true) →
            StoresInFull w now opts s env p)) :=
  ⟨fun hrows halike _ h => storesInFull_mono hforce hne hrows halike h,
    fun hasks _ => storesInFull_project hforce hne hasks⟩

/-- A body of a project. -/
def projectSegment : Envelope :=
  Wire.plainSigned "a" { Wire.plainPayload [Wire.plainEvent genesisPrev 1 "prompt" (some 1) none none "body"]
    with prompts := [⟨1, "user", "body", .full, some "body", some "/repos/redline-next"⟩] }

/-- Its row. -/
def projectRow : ForeignPromptRow :=
  ⟨1, projectSegment.header.chainId, 1, 1, "user", "body", "full", some "body",
    some "/repos/redline-next", false, 7⟩

/-- The body goes in, in full, under these subscriptions. -/
def projectStored (rows : List (Option String × Option String)) : Bool :=
  projectRow ∈ (Wire.plain.importEnvelope 7 ⟨true, false, none⟩ (subscribing rows)
    projectSegment).1.prompts.rows

open ForeignStore in
theorem storesInFull_projectRow {rows : List (Option String × Option String)}
    (h : projectStored rows = true) :
    StoresInFull .plain 7 ⟨true, false, none⟩ (subscribing rows) projectSegment projectRow where
  stored := of_decide_eq_true h
  new hp := by cases hp
  full := rfl
  text := rfl

open ForeignStore in
/-- A subscription of the project, and one more. -/
theorem subscriptions_monotone_two : StoresInFull .plain 7 ⟨true, false, none⟩
    ((subscribing [(some "ann", some "/repos/redline-next")]).subscribe
      (subscribing [(some "ann", some "/repos/redline-next"), (some "ann", some "/repos/other")]).subscriptions)
    projectSegment projectRow := by
  refine (subscriptions_monotone .plain 7 ⟨true, false, none⟩ _ _ projectSegment rfl (by decide +kernel)).1
    (by decide +kernel) (.inl ?_) projectRow (storesInFull_projectRow (by decide +kernel))
  have hasks : ∀ row ∈ ((subscribing [(some "ann", some "/repos/redline-next")]).subscribe
      (subscribing [(some "ann", some "/repos/redline-next"),
        (some "ann", some "/repos/other")]).subscriptions).matching projectSegment,
      (row.project.any fun f => trim f ≠ "") = true := by decide +kernel
  intro row hrow
  have hany := hasks row hrow
  cases hf : row.project with
  | none => rw [hf] at hany; cases hany
  | some f =>
    rw [hf] at hany
    exact ⟨f, hf, by simpa using hany⟩

open ForeignStore in
/-- Without a subscription the body goes in, and not under one of someone else;
under one of the whole chain it goes in, and not under that one and one of
another project; and under one of a project it goes in from a directory whose
name starts with the project's. -/
theorem subscriptions_not_monotone :
    (¬ ∀ (w : Wire) (now : ℤ) (opts : ImportOptions) (s : ForeignStore)
      (rows : AutoTable SubscriptionRow.id) (env : Envelope), opts.force = false →
        (∀ row ∈ s.subscriptions.rows, row ∈ rows.rows) →
          ∀ p, StoresInFull w now opts s env p → StoresInFull w now opts (s.subscribe rows) env p) ∧
      (¬ ∀ (w : Wire) (now : ℤ) (opts : ImportOptions) (s : ForeignStore)
        (rows : AutoTable SubscriptionRow.id) (env : Envelope), opts.force = false →
          s.subscriptions.rows ≠ [] → (∀ row ∈ s.subscriptions.rows, row ∈ rows.rows) →
            ∀ p, StoresInFull w now opts s env p → StoresInFull w now opts (s.subscribe rows) env p) ∧
        ¬ ∀ (w : Wire) (now : ℤ) (opts : ImportOptions) (s : ForeignStore) (env : Envelope),
          opts.force = false → s.subscriptions.rows ≠ [] → (∀ row ∈ s.subscriptions.rows, row.Asks) →
            ∀ p, StoresInFull w now opts s env p →
              ∃ row ∈ s.matching env, ∃ f ∈ row.project, ∃ pp ∈ p.project, inProject f pp = true := by
  have hstored : projectStored [] = true ∧ projectStored [(some "bob", none)] = false ∧
      projectStored [(some "ann", none)] = true ∧
        projectStored [(some "ann", none), (some "ann", some "/repos/other")] = false ∧
          projectStored [(none, some "/repos/redline")] = true := by decide +kernel
  obtain ⟨hnone, hother, hwhole, hboth, hsibling⟩ := hstored
  refine ⟨fun h => ?_, fun h => ?_, fun h => ?_⟩
  · have hmore := (h .plain 7 ⟨true, false, none⟩ (subscribing []) (subscribing [(some "bob", none)]).subscriptions
      projectSegment rfl (by decide) projectRow (storesInFull_projectRow hnone)).stored
    exact absurd (decide_eq_true hmore) (by rw [Bool.not_eq_true]; exact hother)
  · have hmore := (h .plain 7 ⟨true, false, none⟩ (subscribing [(some "ann", none)])
      (subscribing [(some "ann", none), (some "ann", some "/repos/other")]).subscriptions
      projectSegment rfl (by decide) (by decide) projectRow (storesInFull_projectRow hwhole)).stored
    exact absurd (decide_eq_true hmore) (by rw [Bool.not_eq_true]; exact hboth)
  · obtain ⟨row, hrow, f, hf, pp, hpp, hin⟩ := h .plain 7 ⟨true, false, none⟩
      (subscribing [(none, some "/repos/redline")]) projectSegment rfl (by decide)
      (fun row hrow => by
        rw [List.mem_singleton.mp hrow]
        exact ⟨_, rfl, by decide +kernel⟩) projectRow (storesInFull_projectRow hsibling)
    have hrow' := List.mem_singleton.mp (mem_matching.mp hrow).1
    subst hrow'
    cases hf
    cases hpp
    exact absurd hin (by decide +kernel)

end PolisMemory
