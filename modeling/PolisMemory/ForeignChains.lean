/-
# Imports that run side by side

An import is a sequence of statements; the segment's transaction is one of
them. Between two statements any other process can commit: import an envelope
of the same chain, purge it, mark it forked or clear the mark. What an import
read of a chain may be out of date when it writes.

In every state of every such run each chain is whole, an event that was
imported is there until its chain is purged, and a chain that is marked forked
gets no event until the mark is cleared (`foreign_chains_whole`): if at each
segment's transaction the continuity check still says what it said when it was
made, and the first segment of a chain starts on the genesis hash, which no
check of the import asks for.

Key definitions: `ImportPhase`, `ImportCall.exec`, `ForeignWorld.step`,
`ForeignStep.Holds`.
Key theorems: `importCall_runs`, `ForeignWorld.Sound.step`,
`foreign_chains_whole`.
-/
import PolisMemory.Segments

namespace PolisMemory

open Tables HashChain ForeignStore

/-! ### An import, statement by statement -/

/-- What an import does next. -/
inductive ImportPhase
  /-- `known_principal_kind`, and for an own chain the reads of
  `verify_against`. -/
  | own
  | trust
  | pin
  | subscriptions
  | chain (projects : List String)
  /-- `foreign_event_hash` of one event after another. -/
  | overlap (projects : List String) (c : ForeignChain) (rest : List LedgerEventRow)
  | fork (detail : String)
  | segment (projects : List String) (start : ℤ × ℤ)
  | vectors (startSeq : ℤ) (rest : List PayloadVector)
  | vector (startSeq : ℤ) (row : ForeignVectorRow) (rest : List PayloadVector)
  | acks (startSeq : ℤ) (rest : List (String × ℤ))
  | orgAck (startSeq : ℤ) (ack : String × ℤ) (rest : List (String × ℤ))
  | tree

/-- An import that is running: its envelope has been verified. -/
structure ImportCall where
  now : ℤ
  opts : ImportOptions
  env : Envelope
  phase : ImportPhase

namespace ImportCall

/-- The call goes on. -/
def at_ (k : ImportCall) (phase : ImportPhase) : Option ImportCall := some { k with phase := phase }

/-- After the events that overlap: the link of a segment that follows the
head. -/
def linked (k : ImportCall) (projects : List String) (c : ForeignChain) : Option ImportCall :=
  let seg := k.env.header.segment
  if seg.fromSeq = c.headSeq + 1 ∧ seg.prevHashAtFrom ≠ c.headHash then
    k.at_ (.fork s!"the segment links onto {seg.prevHashAtFrom} but our head at seq {c.headSeq} is {c.headHash}")
  else k.at_ (.segment projects (c.firstImportAt, c.headSeq + 1))

/-- After the vectors. -/
def afterAcks (k : ImportCall) (startSeq : ℤ) : Option ImportCall :=
  if (k.env.newEvents startSeq).isEmpty || k.env.payload.tree.isEmpty then none else k.at_ .tree

/-- One statement: the store after it, and the call unless it returns. -/
def exec (s : ForeignStore) (k : ImportCall) : ForeignStore × Option ImportCall :=
  let h := k.env.header
  match k.phase with
  | .own => if s.isOwnDevice h.chainId then (s, none) else (s, k.at_ .trust)
  | .trust =>
    match s.trust.get? h.human.principalId with
    | some t => if t.pubkey = h.human.pubkey.getD "" then (s, k.at_ .subscriptions) else (s, none)
    | none => if k.opts.tofu then (s, k.at_ .pin) else (s, none)
  | .pin => (s.trustSet (Wire.firstUse k.now h.human), k.at_ .subscriptions)
  | .subscriptions =>
    if s.subscribed k.opts k.env then (s, k.at_ (.chain (s.projects k.env))) else (s, none)
  | .chain projects =>
    match s.chains.get? h.chainId with
    | none =>
      if h.segment.fromSeq ≠ 1 then (s, none) else (s, k.at_ (.segment projects (k.now, 1)))
    | some c =>
      if c.forked then (s, none)
      else if c.headSeq + 1 < h.segment.fromSeq then (s, none)
      else (s, k.at_ (.overlap projects c (k.env.events.filter fun e => e.seq ≤ c.headSeq)))
  | .overlap projects c [] => (s, k.linked projects c)
  | .overlap projects c (e :: rest) =>
    match s.rewrittenAt h.chainId e with
    | some detail => (s, k.at_ (.fork detail))
    | none => (s, k.at_ (.overlap projects c rest))
  | .fork detail => (s.markForeignForked h.chainId detail, none)
  | .segment projects start =>
    match s.importRows k.now k.env projects start with
    | .error _ => (s, none)
    | .ok s => (s, k.at_ (.vectors start.2 k.env.payload.vectors))
  | .vectors startSeq [] => (s, k.at_ (.acks startSeq k.env.payload.acks))
  | .vectors startSeq (v :: rest) =>
    match (k.env.promptSeq v.promptId).bind fun seq => s.prompts.byIndex.get? (h.chainId, seq) with
    | none => (s, k.at_ (.vectors startSeq rest))
    | some row =>
      if k.opts.localModel ≠ some v.model ∨ row.tombstoned = true ∨ row.text = none then
        (s, k.at_ (.vectors startSeq rest))
      else
        match hexDecode v.vecHex with
        | none => (s, k.at_ (.vectors startSeq rest))
        | some bytes =>
          (s, k.at_ (.vector startSeq ⟨"foreign_prompt", row.id, v.chunkIx, v.model, v.charStart,
            v.charLen, v.dim, v.scale, bytes, row.bodyHash, k.now⟩ rest))
  | .vector startSeq row rest => (s.storeForeignEmbeddingRaw row, k.at_ (.vectors startSeq rest))
  | .acks startSeq [] => (s, k.afterAcks startSeq)
  | .acks startSeq (a :: rest) =>
    -- the kind is read and the ack set; nothing else decides on either
    (if s.isOwnDevice a.1 then s.setForeignAck k.now h.chainId a.2 else s,
      k.at_ (.orgAck startSeq a rest))
  | .orgAck startSeq a rest =>
    (s.recordOrgAck k.now h.chainId a.1 a.2, k.at_ (.acks startSeq rest))
  | .tree =>
    (s.importForeignTree k.now h.chainId k.env.payload.tree k.env.payload.treeLinks, none)

/-- A call before its first statement, if its envelope passes the checks that
need no database. -/
def begin (w : Wire) (now : ℤ) (opts : ImportOptions) (env : Envelope) : Option ImportCall :=
  if (w.verify env).isOk ∧ w.checkPayload env = none then some ⟨now, opts, env, .own⟩ else none

end ImportCall

/-! ### An import that nothing interrupts -/

/-- From this store the call runs to its end and leaves that one. -/
inductive ImportCall.Runs : ForeignStore → ImportCall → ForeignStore → Prop
  | last {s : ForeignStore} {k : ImportCall} : (k.exec s).2 = none → Runs s k (k.exec s).1
  | next {s s' : ForeignStore} {k k' : ImportCall} : (k.exec s).2 = some k' →
      Runs (k.exec s).1 k' s' → Runs s k s'

namespace ImportCall

variable {w : Wire} {s s' : ForeignStore} {now : ℤ} {opts : ImportOptions} {env : Envelope}

theorem Runs.of_last {k : ImportCall} (h : k.exec s = (s', none)) : Runs s k s' := by
  have hlast : Runs s k (k.exec s).1 := .last (by rw [h])
  rwa [h] at hlast

theorem Runs.of_next {t : ForeignStore} {k k' : ImportCall} (h : k.exec s = (t, some k'))
    (hk : Runs t k' s') : Runs s k s' := by
  have hnext : (k.exec s).2 = some k' := by rw [h]
  refine .next hnext ?_
  rwa [h]

theorem runs_acks (startSeq : ℤ) (rest : List (String × ℤ)) :
    Runs s ⟨now, opts, env, .acks startSeq rest⟩
      (let s := rest.foldl (importAck now env.header.chainId) s
       if (env.newEvents startSeq).isEmpty || env.payload.tree.isEmpty then s
       else s.importForeignTree now env.header.chainId env.payload.tree env.payload.treeLinks) := by
  induction rest generalizing s with
  | nil =>
    dsimp only [List.foldl_nil]
    by_cases htree : ((env.newEvents startSeq).isEmpty || env.payload.tree.isEmpty) = true
    · rw [if_pos htree]
      exact .of_last (by simp only [exec, afterAcks, htree, if_true])
    · rw [if_neg htree]
      have hnext : exec s ⟨now, opts, env, .acks startSeq []⟩ = (s, some ⟨now, opts, env, .tree⟩) := by
        simp only [exec, afterAcks, if_neg htree]
        rfl
      exact .of_next hnext (.of_last rfl)
  | cons a rest ih =>
    rw [List.foldl_cons]
    exact .of_next rfl (.of_next rfl ih)

theorem runs_vectors (startSeq : ℤ) (rest : List PayloadVector) :
    Runs s ⟨now, opts, env, .vectors startSeq rest⟩
      (let s := rest.foldl (importVector now opts.localModel env) s
       let s := env.payload.acks.foldl (importAck now env.header.chainId) s
       if (env.newEvents startSeq).isEmpty || env.payload.tree.isEmpty then s
       else s.importForeignTree now env.header.chainId env.payload.tree env.payload.treeLinks) := by
  induction rest generalizing s with
  | nil => exact .of_next rfl (runs_acks startSeq _)
  | cons v rest ih =>
    rw [List.foldl_cons]
    cases hrow : (env.promptSeq v.promptId).bind fun seq =>
        s.prompts.byIndex.get? (env.header.chainId, seq) with
    | none =>
      have hskip : importVector now opts.localModel env s v = s := by
        simp only [importVector, hrow]
      rw [hskip]
      exact .of_next (by simp only [exec, hrow]; rfl) ih
    | some row =>
      by_cases hbad : opts.localModel ≠ some v.model ∨ row.tombstoned = true ∨ row.text = none
      · have hskip : importVector now opts.localModel env s v = s := by
          simp only [importVector, hrow, if_pos hbad]
        rw [hskip]
        exact .of_next (by simp only [exec, hrow, if_pos hbad]; rfl) ih
      · cases hbytes : hexDecode v.vecHex with
        | none =>
          have hskip : importVector now opts.localModel env s v = s := by
            simp only [importVector, hrow, if_neg hbad, hbytes]
          rw [hskip]
          exact .of_next (by simp only [exec, hrow, if_neg hbad, hbytes]; rfl) ih
        | some bytes =>
          have hkeep : importVector now opts.localModel env s v =
              s.storeForeignEmbeddingRaw ⟨"foreign_prompt", row.id, v.chunkIx, v.model,
                v.charStart, v.charLen, v.dim, v.scale, bytes, row.bodyHash, now⟩ := by
            simp only [importVector, hrow, if_neg hbad, hbytes]
          rw [hkeep]
          refine .of_next (by simp only [exec, hrow, if_neg hbad, hbytes]; rfl) ?_
          exact .of_next rfl ih

/-- From the segment on. -/
theorem runs_segment (projects : List String) (start : ℤ × ℤ) :
    Runs s ⟨now, opts, env, .segment projects start⟩
      (match s.importRows now env projects start with
      | .error _ => s
      | .ok s => s.importRest now opts env start.2) := by
  cases hrows : s.importRows now env projects start with
  | error e => exact .of_last (by simp only [exec, hrows])
  | ok s₁ => exact .of_next (by simp only [exec, hrows]; rfl) (runs_vectors start.2 _)

/-- From the events that overlap on. -/
theorem runs_overlap (projects : List String) (c : ForeignChain) (rest : List LedgerEventRow) :
    Runs s ⟨now, opts, env, .overlap projects c rest⟩
      (match rest.findSome? (s.rewrittenAt env.header.chainId) with
      | some detail => s.markForeignForked env.header.chainId detail
      | none =>
        if env.header.segment.fromSeq = c.headSeq + 1 ∧
            env.header.segment.prevHashAtFrom ≠ c.headHash then
          s.markForeignForked env.header.chainId s!"the segment links onto {env.header.segment.prevHashAtFrom} but our head at seq {c.headSeq} is {c.headHash}"
        else
          match s.importRows now env projects (c.firstImportAt, c.headSeq + 1) with
          | .error _ => s
          | .ok s => s.importRest now opts env (c.headSeq + 1)) := by
  induction rest with
  | nil =>
    dsimp only [List.findSome?_nil]
    by_cases hlink : env.header.segment.fromSeq = c.headSeq + 1 ∧
        env.header.segment.prevHashAtFrom ≠ c.headHash
    · rw [if_pos hlink]
      exact .of_next (by simp only [exec, linked, if_pos hlink]; rfl) (.of_last rfl)
    · rw [if_neg hlink]
      exact .of_next (by simp only [exec, linked, if_neg hlink]; rfl) (runs_segment projects _)
  | cons e rest ih =>
    rw [List.findSome?_cons]
    cases hold : s.rewrittenAt env.header.chainId e with
    | none => exact .of_next (by simp only [exec, hold]; rfl) ih
    | some detail => exact .of_next (by simp only [exec, hold]; rfl) (.of_last rfl)

theorem runs_chain :
    Runs s ⟨now, opts, env, .chain (s.projects env)⟩
      (match s.continuity now env with
      | .error (.forked detail) => s.markForeignForked env.header.chainId detail
      | .error _ => s
      | .ok start =>
        match s.importRows now env (s.projects env) start with
        | .error _ => s
        | .ok s => s.importRest now opts env start.2) := by
  cases hc : s.chains.get? env.header.chainId with
  | none =>
    by_cases hfrom : env.header.segment.fromSeq ≠ 1
    · simp only [continuity, hc, if_pos hfrom]
      exact .of_last (by simp only [exec, hc, if_pos hfrom])
    · simp only [continuity, hc, if_neg hfrom]
      exact .of_next (by simp only [exec, hc, if_neg hfrom]; rfl) (runs_segment _ _)
  | some c =>
    by_cases hforked : c.forked = true
    · simp only [continuity, hc, if_pos hforked]
      exact .of_last (by simp only [exec, hc, if_pos hforked])
    · by_cases hgap : c.headSeq + 1 < env.header.segment.fromSeq
      · simp only [continuity, hc, if_neg hforked, if_pos hgap]
        exact .of_last (by simp only [exec, hc, if_neg hforked, if_pos hgap])
      · refine .of_next (by simp only [exec, hc, if_neg hforked, if_neg hgap]; rfl) ?_
        have hruns := @runs_overlap s now opts env (s.projects env) c
          (env.events.filter fun e => e.seq ≤ c.headSeq)
        simp only [continuity, hc, if_neg hforked, if_neg hgap]
        cases hrew : s.rewritten env.header.chainId c.headSeq env.events with
        | some detail =>
          unfold rewritten at hrew
          rw [hrew] at hruns
          exact hruns
        | none =>
          unfold rewritten at hrew
          rw [hrew] at hruns
          by_cases hlink : env.header.segment.fromSeq = c.headSeq + 1 ∧
              env.header.segment.prevHashAtFrom ≠ c.headHash
          · simp only [if_pos hlink] at hruns ⊢
            exact hruns
          · simp only [if_neg hlink] at hruns ⊢
            exact hruns

/-- The import of a trusted key, from the subscriptions on. -/
theorem runs_subscriptions {v : Verified} {trustedNow : Option String} :
    Runs s ⟨now, opts, env, .subscriptions⟩
      (Wire.importTrusted now opts s env v trustedNow).1 := by
  unfold Wire.importTrusted
  by_cases hsub : s.subscribed opts env = true
  · have hruns := @runs_chain s now opts env
    refine .of_next (t := s) (by simp only [exec, if_pos hsub]; rfl) ?_
    simp only [hsub, Bool.not_true, Bool.false_eq_true, if_false]
    cases hcont : s.continuity now env with
    | error e =>
      rw [hcont] at hruns
      cases e with
      | forked detail | verify _ | notTrusted _ _ | keyChanged _ _ _ | forkedBefore _ | gap _
      | notSubscribed _ | store _ => exact hruns
    | ok start =>
      rw [hcont] at hruns
      dsimp only at hruns ⊢
      cases hrows : s.importRows now env (s.projects env) start with
      | error e =>
        rw [hrows] at hruns
        exact hruns
      | ok s₁ =>
        rw [hrows] at hruns
        exact hruns
  · have hno : s.subscribed opts env = false := by simpa using hsub
    simp only [hno, Bool.not_false, if_true]
    exact .of_last (by simp only [exec, hno, Bool.false_eq_true, if_false])

end ImportCall

/-- **The statements of an import that nothing interrupts are the import.** -/
theorem importCall_runs {w : Wire} {s : ForeignStore} {now : ℤ} {opts : ImportOptions}
    {env : Envelope} (hv : (w.verify env).isOk = true) (hp : w.checkPayload env = none) :
    ImportCall.Runs s ⟨now, opts, env, .own⟩ (w.importEnvelope now opts s env).1 := by
  cases hver : w.verify env with
  | error e => rw [hver] at hv; cases hv
  | ok v =>
    by_cases hown : s.isOwnDevice env.header.chainId = true
    · have hsame : (w.importEnvelope now opts s env).1 = s := by
        simp only [Wire.importEnvelope, hver, hp, hown, if_true]
        cases w.verifyAgainst s env <;> rfl
      rw [hsame]
      exact .of_last (by simp only [ImportCall.exec, if_pos hown])
    · have hforeign : s.isOwnDevice env.header.chainId = false := by simpa using hown
      rw [Wire.importEnvelope_trusted hver hp hforeign]
      refine .of_next (t := s) (by simp only [ImportCall.exec, if_neg hown]; rfl) ?_
      cases ht : s.trust.get? env.header.human.principalId with
      | none =>
        rw [Wire.trustHuman_unknown ht]
        by_cases htofu : opts.tofu = true
        · rw [if_pos htofu]
          refine .of_next (t := s) (by simp only [ImportCall.exec, ht, if_pos htofu]; rfl) ?_
          exact .of_next rfl ImportCall.runs_subscriptions
        · rw [if_neg htofu]
          exact .of_last (by simp only [ImportCall.exec, ht, if_neg htofu])
      | some t =>
        unfold Wire.trustHuman
        simp only [ht]
        by_cases hkey : t.pubkey = env.header.human.pubkey.getD ""
        · rw [if_pos hkey]
          exact .of_next (by simp only [ImportCall.exec, ht, if_pos hkey]; rfl)
            ImportCall.runs_subscriptions
        · rw [if_neg hkey]
          exact .of_last (by simp only [ImportCall.exec, ht, if_neg hkey])

/-! ### Processes -/

/-- One database and the imports that are running, one for each process that
has one. -/
structure ForeignWorld (ι : Type) where
  store : ForeignStore
  call : ι → Option ImportCall

/-- An import begins, or executes a statement, or something else commits. -/
inductive ForeignStep (ι : Type)
  | start (i : ι) (now : ℤ) (opts : ImportOptions) (env : Envelope)
  | turn (i : ι)
  | purge (chainId : String)
  | clearFork (chainId : String)
  /-- Whatever leaves the foreign chains and their events alone. -/
  | others (t : ForeignStore)

namespace ForeignWorld

variable {ι : Type} [DecidableEq ι]

/-- No import is running. -/
def idle (s : ForeignStore) : ForeignWorld ι := ⟨s, fun _ => none⟩

/-- One step. -/
def step (w : Wire) (x : ForeignWorld ι) : ForeignStep ι → ForeignWorld ι
  | .start i now opts env =>
    if (x.call i).isSome then x
    else { x with call := Function.update x.call i (ImportCall.begin w now opts env) }
  | .turn i =>
    match x.call i with
    | none => x
    | some k =>
      let out := k.exec x.store
      ⟨out.1, Function.update x.call i out.2⟩
  | .purge chainId => { x with store := x.store.forgetForeignChain chainId }
  | .clearFork chainId => { x with store := x.store.clearForeignFork chainId }
  | .others t => { x with store := { t with chains := x.store.chains, events := x.store.events } }

/-- Steps in a row. -/
def run (w : Wire) (x : ForeignWorld ι) (steps : List (ForeignStep ι)) : ForeignWorld ι :=
  steps.foldl (step w) x

end ForeignWorld

/-- When an import writes its segment, the continuity check still passes and
starts where it did, and a chain that nothing is held of starts on the genesis
hash. -/
def ImportCall.Fits (s : ForeignStore) (k : ImportCall) : Prop :=
  match k.phase with
  | .segment _ start => s.Fits k.env start.2
  | _ => True

/-- The condition of a step. -/
def ForeignStep.Holds {ι : Type} (x : ForeignWorld ι) : ForeignStep ι → Prop
  | .turn i => ∀ k ∈ x.call i, k.Fits x.store
  | _ => True

/-- Every step of the run meets its condition. -/
def ForeignWorld.Holds {ι : Type} [DecidableEq ι] (w : Wire) :
    ForeignWorld ι → List (ForeignStep ι) → Prop
  | _, [] => True
  | x, st :: steps => st.Holds x ∧ Holds w (x.step w st) steps

instance ImportCall.decFits (s : ForeignStore) : (k : ImportCall) → Decidable (k.Fits s)
  | ⟨_, _, _, .segment _ start⟩ => inferInstanceAs (Decidable (s.Fits _ start.2))
  | ⟨_, _, _, .own⟩ | ⟨_, _, _, .trust⟩ | ⟨_, _, _, .pin⟩ | ⟨_, _, _, .subscriptions⟩
  | ⟨_, _, _, .chain _⟩ | ⟨_, _, _, .overlap _ _ _⟩ | ⟨_, _, _, .fork _⟩ | ⟨_, _, _, .vectors _ _⟩
  | ⟨_, _, _, .vector _ _ _⟩ | ⟨_, _, _, .acks _ _⟩ | ⟨_, _, _, .orgAck _ _ _⟩ | ⟨_, _, _, .tree⟩ =>
    .isTrue trivial

instance ForeignStep.decHolds {ι : Type} (x : ForeignWorld ι) :
    (st : ForeignStep ι) → Decidable (st.Holds x)
  | .turn i => inferInstanceAs (Decidable (∀ k ∈ x.call i, k.Fits x.store))
  | .start _ _ _ _ | .purge _ | .clearFork _ | .others _ => .isTrue trivial

instance ForeignWorld.decHolds {ι : Type} [DecidableEq ι] (w : Wire) :
    (x : ForeignWorld ι) → (steps : List (ForeignStep ι)) → Decidable (x.Holds w steps)
  | _, [] => .isTrue trivial
  | x, st :: steps =>
    have := decHolds w (x.step w st) steps
    inferInstanceAs (Decidable (_ ∧ _))

/-! ### One statement -/

namespace ImportCall

variable {s : ForeignStore} {k : ImportCall}

theorem at_env {phase : ImportPhase} {k' : ImportCall} (h : k.at_ phase = some k') :
    k'.env = k.env := by
  cases h
  rfl

/-- **What a statement of an import can do**: leave the chains alone, mark its
own chain forked, or write its segment. The call keeps its envelope. -/
theorem exec_cases (s : ForeignStore) (k : ImportCall) :
    (∀ k', (k.exec s).2 = some k' → k'.env = k.env) ∧
      ((k.exec s).1.chainTables = s.chainTables ∨
        (∃ detail, (k.exec s).1 = s.markForeignForked k.env.header.chainId detail) ∨
        ∃ projects start, k.phase = .segment projects start ∧
          s.importRows k.now k.env projects start = .ok (k.exec s).1) := by
  obtain ⟨now, opts, env, phase⟩ := k
  cases phase with
  | fork detail => exact ⟨(fun k' h => by cases h), .inr (.inl ⟨detail, rfl⟩)⟩
  | segment projects start =>
    unfold exec
    dsimp only
    cases hrows : s.importRows now env projects start with
    | error e => exact ⟨(fun k' h => by cases h), .inl rfl⟩
    | ok s' =>
      exact ⟨(fun k' h => by cases h; rfl), .inr (.inr ⟨projects, start, rfl, hrows⟩)⟩
  | own | trust | pin | subscriptions | chain _ | vector _ _ _ | orgAck _ _ _ | tree =>
    unfold exec
    dsimp only
    repeat' split
    all_goals exact ⟨(fun k' h => by cases h <;> rfl), .inl rfl⟩
  | overlap _ c rest | vectors _ rest | acks _ rest =>
    unfold exec
    cases rest with
    | nil =>
      dsimp only [linked, afterAcks]
      repeat' split
      all_goals exact ⟨(fun k' h => by cases h <;> rfl), .inl rfl⟩
    | cons _ _ =>
      dsimp only
      repeat' split
      all_goals exact ⟨(fun k' h => by cases h; rfl), .inl rfl⟩

end ImportCall

/-! ### What a run keeps -/

/-- The chain is marked forked. -/
def ForeignStore.IsForked (s : ForeignStore) (c : String) : Prop :=
  (s.chains.get? c).any ForeignChain.forked = true

/-- What was imported is still there, and nothing was added to a forked chain,
but for the chains that were purged or cleared. -/
structure ForeignStore.Follows (purged cleared : String → Prop) (s s' : ForeignStore) : Prop where
  kept : ∀ c, ¬ purged c → s.held c <+: s'.held c
  shut : ∀ c, ¬ purged c → ¬ cleared c → s.IsForked c → s'.held c = s.held c ∧ s'.IsForked c

namespace ForeignStore

variable {purged cleared : String → Prop} {s s' s'' : ForeignStore}

theorem Follows.refl (s : ForeignStore) : s.Follows purged cleared s :=
  ⟨fun _ _ => List.prefix_rfl, fun _ _ _ h => ⟨rfl, h⟩⟩

theorem Follows.trans (h : s.Follows purged cleared s') (h' : s'.Follows purged cleared s'') :
    s.Follows purged cleared s'' where
  kept c hp := (h.kept c hp).trans (h'.kept c hp)
  shut c hp hc hf :=
    have h₁ := h.shut c hp hc hf
    have h₂ := h'.shut c hp hc h₁.2
    ⟨h₂.1.trans h₁.1, h₂.2⟩

/-- Fewer purges and fewer cleared marks say more. -/
theorem Follows.mono {purged' cleared' : String → Prop} (h : s.Follows purged cleared s')
    (hp : ∀ c, purged c → purged' c) (hc : ∀ c, cleared c → cleared' c) :
    s.Follows purged' cleared' s' where
  kept c hnp := h.kept c fun hpc => hnp (hp c hpc)
  shut c hnp hnc := h.shut c (fun hpc => hnp (hp c hpc)) fun hcc => hnc (hc c hcc)

theorem follows_of_tables (h : s'.chainTables = s.chainTables) : s.Follows purged cleared s' where
  kept c _ := (held_of_tables h).symm ▸ List.prefix_rfl
  shut c _ _ hf := by
    have hchains : s'.chains = s.chains := congrArg Prod.fst h
    exact ⟨held_of_tables h, by rwa [IsForked, hchains]⟩

theorem whole_of_tables {sha256 : String → String} {c : String}
    (h : s'.chainTables = s.chainTables) (hw : s.Whole sha256 c) : s'.Whole sha256 c := by
  have hchains : s'.chains = s.chains := congrArg Prod.fst h
  unfold Whole at hw ⊢
  rw [hchains, held_of_tables h]
  exact hw

/-- Setting or clearing the mark leaves the events and the heads. -/
theorem whole_of_mark {sha256 : String → String} {c : String} {p : ForeignChain → Bool}
    {f : ForeignChain → ForeignChain} {hf : ∀ r, (f r).chainId = r.chainId}
    (hhead : ∀ r, (f r).headSeq = r.headSeq ∧ (f r).headHash = r.headHash)
    (hw : s.Whole sha256 c) :
    ({ s with chains := s.chains.update p f hf } : ForeignStore).Whole sha256 c := by
  unfold Whole at hw ⊢
  rw [Table.get?_update]
  cases hc : s.chains.get? c with
  | none =>
    rw [hc] at hw
    exact hw
  | some ch =>
    rw [hc] at hw
    by_cases hp : p ch = true
    · rw [Option.map_some, if_pos hp]
      exact ⟨hw.seqs, hw.headSeq.trans (hhead ch).1.symm, hw.chain,
        hw.headHash.trans (congrArg some (hhead ch).2.symm)⟩
    · rw [Option.map_some, if_neg hp]
      exact hw

theorem whole_markForeignForked {sha256 : String → String} {c chainId detail : String}
    (hw : s.Whole sha256 c) : (s.markForeignForked chainId detail).Whole sha256 c :=
  whole_of_mark (fun _ => ⟨rfl, rfl⟩) hw

theorem whole_clearForeignFork {sha256 : String → String} {c chainId : String}
    (hw : s.Whole sha256 c) : (s.clearForeignFork chainId).Whole sha256 c :=
  whole_of_mark (fun _ => ⟨rfl, rfl⟩) hw

theorem follows_markForeignForked (chainId detail : String) :
    s.Follows purged cleared (s.markForeignForked chainId detail) where
  kept _ _ := List.prefix_rfl
  shut c _ _ hf := by
    refine ⟨rfl, ?_⟩
    unfold IsForked at hf ⊢
    rw [markForeignForked, Table.get?_update]
    cases hc : s.chains.get? c with
    | none => rw [hc] at hf; cases hf
    | some ch =>
      rw [hc] at hf
      rw [Option.map_some, Option.any_some]
      split_ifs
      · rfl
      · exact hf

theorem follows_clearForeignFork (chainId : String) :
    s.Follows purged (· = chainId) (s.clearForeignFork chainId) where
  kept _ _ := List.prefix_rfl
  shut c _ hc hf := by
    refine ⟨rfl, ?_⟩
    unfold IsForked at hf ⊢
    rw [clearForeignFork, Table.get?_update]
    cases hget : s.chains.get? c with
    | none => rw [hget] at hf; cases hf
    | some ch =>
      have hne : ch.chainId ≠ chainId := fun h => hc ((Table.key_of_get? hget).symm.trans h)
      rw [hget] at hf
      rw [Option.map_some, Option.any_some, if_neg (by simpa using hne)]
      exact hf

/-- A purge takes the events of its chain and no others. -/
theorem held_forgetForeignChain (chainId c : String) :
    (s.forgetForeignChain chainId).held c = if c = chainId then [] else s.held c := by
  simp only [held, forgetForeignChain, Table.select, Table.rows_delete, List.filter_filter]
  by_cases hc : c = chainId
  · subst hc
    rw [if_pos rfl, List.filter_eq_nil_iff.mpr]
    · rfl
    · intro r _
      by_cases hr : r.chainId = c <;> simp [hr]
  · rw [if_neg hc]
    congr 1
    refine List.filter_congr fun r _ => ?_
    by_cases hr : r.chainId = c
    · simp [hr, hc]
    · simp [hr]

theorem get?_chains_forgetForeignChain (chainId c : String) :
    (s.forgetForeignChain chainId).chains.get? c =
      if c = chainId then none else s.chains.get? c := by
  simp only [forgetForeignChain, Table.get?_delete]
  cases hget : s.chains.get? c with
  | none => simp
  | some ch =>
    have hkey := Table.key_of_get? hget
    by_cases hc : c = chainId <;> simp [Option.filter, hkey, hc]

theorem whole_forgetForeignChain {sha256 : String → String} {chainId c : String}
    (hw : s.Whole sha256 c) : (s.forgetForeignChain chainId).Whole sha256 c := by
  unfold Whole at hw ⊢
  rw [get?_chains_forgetForeignChain, held_forgetForeignChain]
  by_cases hc : c = chainId
  · rw [if_pos hc, if_pos hc]
  · rw [if_neg hc, if_neg hc]
    exact hw

theorem follows_forgetForeignChain (chainId : String) :
    s.Follows (· = chainId) cleared (s.forgetForeignChain chainId) where
  kept c hc := by
    have hheld : (s.forgetForeignChain chainId).held c = s.held c := by
      rw [held_forgetForeignChain, if_neg hc]
    exact hheld.symm ▸ List.prefix_rfl
  shut c hc _ hf := by
    rw [held_forgetForeignChain, if_neg hc, IsForked, get?_chains_forgetForeignChain, if_neg hc]
    exact ⟨rfl, hf⟩

end ForeignStore

/-! ### The run -/

namespace ForeignWorld

variable {ι : Type} [DecidableEq ι] {w : Wire} {x : ForeignWorld ι}

/-- Every chain is whole, and every import that is running has an envelope
that verifies. -/
structure Sound (w : Wire) (x : ForeignWorld ι) : Prop where
  whole : ∀ c, x.store.Whole w.sha256 c
  verified : ∀ i k, x.call i = some k → k.env.SegmentOk w

omit [DecidableEq ι] in
/-- One statement of an import, if the segment it writes fits. -/
theorem Sound.exec {i : ι} {k : ImportCall} (hx : x.Sound w) (hk : x.call i = some k)
    (hfits : k.Fits x.store) : (∀ c, (k.exec x.store).1.Whole w.sha256 c) ∧
      x.store.Follows (fun _ => False) (fun _ => False) (k.exec x.store).1 := by
  rcases (ImportCall.exec_cases x.store k).2 with htables | ⟨detail, hfork⟩ | ⟨projects, start, hphase, hrows⟩
  · exact ⟨fun c => whole_of_tables htables (hx.whole c), follows_of_tables htables⟩
  · rw [hfork]
    exact ⟨fun c => whole_markForeignForked (hx.whole c), follows_markForeignForked _ _⟩
  · have hfit : x.store.Fits k.env start.2 := by
      unfold ImportCall.Fits at hfits
      rw [hphase] at hfits
      exact hfits
    have hseg := hx.verified i k hk
    refine ⟨fun c => hfit.whole hseg hx.whole hrows c, ⟨fun c _ => ?_, fun c _ _ hf => ?_⟩⟩
    · exact (hfit.keeps hseg (hx.whole _) hrows c).1
    · unfold IsForked at hf ⊢
      cases hch : x.store.chains.get? c with
      | none => rw [hch] at hf; cases hf
      | some ch =>
        rw [hch] at hf
        obtain ⟨hheld, hget⟩ := (hfit.keeps hseg (hx.whole _) hrows c).2 ch hch hf
        exact ⟨hheld, by rw [hget]; exact hf⟩

theorem step_turn_none {i : ι} (hk : x.call i = none) : x.step w (.turn i) = x := by
  simp only [ForeignWorld.step, hk]

theorem step_turn {i : ι} {k : ImportCall} (hk : x.call i = some k) : x.step w (.turn i) =
    ⟨(k.exec x.store).1, Function.update x.call i (k.exec x.store).2⟩ := by
  simp only [ForeignWorld.step, hk]

/-- **One step keeps every chain whole**, and what was imported. -/
theorem Sound.step {st : ForeignStep ι} (hx : x.Sound w) (hst : st.Holds x) :
    (x.step w st).Sound w ∧
      x.store.Follows (fun c => st = .purge c) (fun c => st = .clearFork c) (x.step w st).store := by
  cases st with
  | start i now opts env =>
    unfold ForeignWorld.step
    dsimp only
    split_ifs with hbusy
    · exact ⟨hx, Follows.refl _⟩
    · refine ⟨⟨hx.whole, fun j k hk => ?_⟩, Follows.refl _⟩
      dsimp only at hk
      by_cases hj : j = i
      · subst hj
        rw [Function.update_self] at hk
        unfold ImportCall.begin at hk
        split_ifs at hk with hok
        cases hk
        cases hv : w.verify env with
        | error e => rw [hv] at hok; cases hok.1
        | ok v => exact Envelope.segment_of_verify hv
      · rw [Function.update_of_ne hj] at hk
        exact hx.verified j k hk
  | turn i =>
    cases hk : x.call i with
    | none =>
      rw [step_turn_none hk]
      exact ⟨hx, Follows.refl _⟩
    | some k =>
      rw [step_turn hk]
      obtain ⟨hwhole, hfollows⟩ := hx.exec hk (hst k hk)
      refine ⟨⟨hwhole, fun j k' hk' => ?_⟩, hfollows.mono (fun _ h => h.elim) fun _ h => h.elim⟩
      dsimp only at hk'
      by_cases hj : j = i
      · subst hj
        rw [Function.update_self] at hk'
        rw [(ImportCall.exec_cases x.store k).1 k' hk']
        exact hx.verified j k hk
      · rw [Function.update_of_ne hj] at hk'
        exact hx.verified j k' hk'
  | purge c =>
    refine ⟨⟨fun c' => whole_forgetForeignChain (hx.whole c'), hx.verified⟩, ?_⟩
    exact (follows_forgetForeignChain c).mono (fun _ h => by rw [h]) fun _ h => h
  | clearFork c =>
    refine ⟨⟨fun c' => whole_clearForeignFork (hx.whole c'), hx.verified⟩, ?_⟩
    exact (follows_clearForeignFork c).mono (fun _ h => h) fun _ h => by rw [h]
  | others t =>
    exact ⟨⟨fun c => whole_of_tables rfl (hx.whole c), hx.verified⟩, follows_of_tables rfl⟩

/-- A run keeps every chain whole, and what was imported. -/
theorem Sound.run {steps : List (ForeignStep ι)} (hx : x.Sound w) (hst : x.Holds w steps) :
    (x.run w steps).Sound w ∧
      x.store.Follows (fun c => .purge c ∈ steps) (fun c => .clearFork c ∈ steps)
        (x.run w steps).store := by
  induction steps generalizing x with
  | nil => exact ⟨hx, Follows.refl _⟩
  | cons st steps ih =>
    obtain ⟨hx₁, hfollows₁⟩ := hx.step hst.1
    obtain ⟨hx₂, hfollows₂⟩ := ih hx₁ hst.2
    refine ⟨hx₂, (hfollows₁.mono ?_ ?_).trans (hfollows₂.mono ?_ ?_)⟩
    · exact fun c h => h ▸ List.mem_cons_self
    · exact fun c h => h ▸ List.mem_cons_self
    · exact fun c h => List.mem_cons_of_mem _ h
    · exact fun c h => List.mem_cons_of_mem _ h

theorem holds_append {steps more : List (ForeignStep ι)} (h : x.Holds w (steps ++ more)) :
    x.Holds w steps ∧ (x.run w steps).Holds w more := by
  induction steps generalizing x with
  | nil => exact ⟨trivial, h⟩
  | cons st steps ih =>
    obtain ⟨h₁, h₂⟩ := ih h.2
    exact ⟨⟨h.1, h₁⟩, h₂⟩

end ForeignWorld

/-- A database that holds nothing of another's chain. -/
def ForeignStore.fresh (t : ForeignStore) : ForeignStore := { t with chains := ∅, events := ∅ }

theorem whole_fresh (sha256 : String → String) (t : ForeignStore) (c : String) :
    t.fresh.Whole sha256 c := rfl

/-- **The foreign chains in every state of every run.** Any number of
processes import any envelopes, statement by statement, while chains are
purged and marks cleared: every chain that is held is its seqs from 1 to the
head, each event recomputes and follows the one before it, the first the
genesis hash, and the head's hash is that of the last one; an event stays as
it was imported until its chain is purged, and a chain that is marked forked
gets no event until the mark is cleared. -/
theorem foreign_chains_whole {ι : Type} [DecidableEq ι] (w : Wire) (t : ForeignStore)
    (before later : List (ForeignStep ι))
    (h : (ForeignWorld.idle t.fresh).Holds w (before ++ later)) :
    let x := (ForeignWorld.idle t.fresh).run w before
    let y := (ForeignWorld.idle t.fresh).run w (before ++ later)
    (∀ c, y.store.Whole w.sha256 c) ∧
      x.store.Follows (fun c => .purge c ∈ later) (fun c => .clearFork c ∈ later) y.store := by
  have hstart : (ForeignWorld.idle t.fresh : ForeignWorld ι).Sound w :=
    ⟨whole_fresh w.sha256 t, fun _ _ hk => by cases hk⟩
  obtain ⟨hbefore, hlater⟩ := ForeignWorld.holds_append h
  have hx := (hstart.run hbefore).1
  have hrun : (ForeignWorld.idle t.fresh).run w (before ++ later) =
      ((ForeignWorld.idle t.fresh).run w before).run w later := List.foldl_append
  dsimp only
  rw [hrun]
  obtain ⟨hy, hfollows⟩ := hx.run hlater
  exact ⟨hy.whole, hfollows⟩

/-- The first segment of a chain, its one event after the given hash. -/
def firstSegment (prevHash : String) : Envelope :=
  Wire.plainSigned "a" (Wire.plainPayload
    [Wire.plainEvent prevHash 1 "prompt" (some 1) none none "body"])

/-- One process imports it, on first use: up to the segment's transaction. -/
def importFirst (prevHash : String) : List (ForeignStep Bool) :=
  .start true 7 ⟨true, false, none⟩ (firstSegment prevHash) :: List.replicate 6 (.turn true)

/-- After a first segment on the genesis hash, and then a purge. -/
theorem foreign_chains_whole_first :
    let x := (ForeignWorld.idle ForeignStore.empty.fresh).run .plain (importFirst genesisPrev)
    let y := (ForeignWorld.idle ForeignStore.empty.fresh).run .plain
      (importFirst genesisPrev ++ [.purge "b"])
    (∀ c, y.store.Whole Wire.plain.sha256 c) ∧
      x.store.Follows (fun c => .purge c ∈ [(ForeignStep.purge "b" : ForeignStep Bool)])
        (fun c => .clearFork c ∈ [(ForeignStep.purge "b" : ForeignStep Bool)]) y.store :=
  foreign_chains_whole .plain .empty (importFirst genesisPrev) [.purge "b"] (by decide +kernel)

/-- A correctly signed first segment that follows some other hash is imported,
and its chain is not whole. -/
theorem firstSegment_not_whole : ¬ ∀ (w : Wire) (t : ForeignStore) (steps : List (ForeignStep Bool))
    (c : String), ((ForeignWorld.idle t.fresh).run w steps).store.Whole w.sha256 c := by
  intro hclaim
  have hwhole := hclaim .plain .empty (importFirst "ff") (firstSegment "ff").header.chainId
  have hheld : (((ForeignWorld.idle ForeignStore.empty.fresh).run .plain (importFirst "ff")).store.held
      (firstSegment "ff").header.chainId).map LedgerEventRow.prevHash = ["ff"] := by decide +kernel
  unfold ForeignStore.Whole at hwhole
  cases hchain : ((ForeignWorld.idle ForeignStore.empty.fresh).run .plain
      (importFirst "ff")).store.chains.get? (firstSegment "ff").header.chainId with
  | none =>
    rw [hchain] at hwhole
    dsimp only at hwhole
    rw [hwhole] at hheld
    cases hheld
  | some c =>
    rw [hchain] at hwhole
    have hlinked := hwhole.chain
    obtain ⟨e, rest, hrows⟩ := List.map_eq_cons_iff.mp hheld
    rw [hrows.1] at hlinked
    exact absurd (hrows.2.1.symm.trans hlinked.1) (by decide)

end PolisMemory
