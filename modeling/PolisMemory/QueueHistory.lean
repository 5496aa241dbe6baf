/-
# The work queue over a sequence of runs

A history is any number of organize runs with any surroundings (the verifiers'
replies among them), each got as far as it may, and between and within them whatever
else is written to the store (`Beside`): new proposals are staged, a user's curation
takes some off the queue, a forget ends some. The counter of a proposal, its parking
and its row are written in different turns; the tally of the history so far
(`Tally`) is what each turn keeps of the three:

* a queued row's attempts are below the limit, and no fewer than the turns that left
  it undecided;
* a turn whose proposal is still queued journaled nothing and counted no expiry, and
  if it parked the proposal then for a run after its own;
* so do two turns of one proposal, in their order.

Key definitions: `Store.BelowLimit`, `Organized`, `Tally`, `Bounded`.
Key theorems: `Tally.append`, `tally_runTurns`, `queue_bounded`.
-/
import PolisMemory.QueueTurns

namespace PolisMemory

open Tables

namespace Store

/-- A proposal that is queued. -/
def Queued (s : Store) (id : ℤ) (p : ProposalRow) : Prop :=
  s.proposals.get? id = some p ∧ p.status = .proposed

/-- The queued proposals have attempts left. -/
def BelowLimit (s : Store) : Prop :=
  ∀ id p, s.Queued id p → 0 ≤ p.attempts ∧ p.attempts < proposalTtlAttempts

end Store

namespace QueueHistory

open Store

/-! ### What the code writes beside the turns -/

/-- What anything but a turn does to the queue: what is queued stays as it is or
leaves, and a new proposal has no attempts. -/
structure Beside (s s' : Store) : Prop where
  kept : ∀ {id p}, s'.Queued id p →
    s.Queued id p ∨ s.proposals.nextId ≤ id ∧ p.attempts = 0
  next : s.proposals.nextId ≤ s'.proposals.nextId

theorem Beside.of_proposals {s s' : Store} (hp : s'.proposals = s.proposals) : Beside s s' :=
  ⟨fun hq => .inl ⟨hp ▸ hq.1, hq.2⟩, by rw [hp]⟩

theorem Beside.trans {s₁ s₂ s₃ : Store} (hb : Beside s₁ s₂) (hb' : Beside s₂ s₃) : Beside s₁ s₃ := by
  refine ⟨fun hq => ?_, hb.next.trans hb'.next⟩
  rcases hb'.kept hq with hq | ⟨hid, hatt⟩
  · exact hb.kept hq
  · exact .inr ⟨hb.next.trans hid, hatt⟩

/-- A proposal that is dropped leaves the others. -/
theorem beside_dropProposal (s : Store) (id : ℤ) : Beside s (s.dropProposal id) := by
  refine ⟨fun {k p} hq => .inl ⟨?_, hq.2⟩, le_rfl⟩
  have hrow := hq.1
  rw [get?_dropProposal] at hrow
  split_ifs at hrow
  exact hrow

/-- A proposal comes with no attempts. -/
theorem beside_insertStructural (s : Store) (now : ℤ) (run : Option ℤ) (op : StructuralOp)
    (nodeId parentId title summary : Option String) (extra : Option Extra)
    (rationale : Option String) :
    Beside s (s.insertStructural now run op nodeId parentId title summary extra rationale) := by
  refine ⟨fun {k p} hq => ?_, Int.le_add_one le_rfl⟩
  have hrow := hq.1
  rw [insertStructural, AutoTable.get?_insert] at hrow
  split_ifs at hrow with hk
  · cases hrow
    exact .inr ⟨hk.ge, rfl⟩
  · exact .inl ⟨hrow, hq.2⟩

/-- A forget ends the proposals that may repeat its source. -/
theorem beside_forgetDerivedCopies (s : Store) (origin : Subject) (seqs : List ℤ) (ts : ℤ) :
    Beside s (s.forgetDerivedCopies origin seqs ts) := by
  refine ⟨fun {k p} hq => .inl ?_, le_rfl⟩
  have hrow := hq.1
  rw [forgetDerivedCopies, AutoTable.toTable_update, Table.get?_update] at hrow
  obtain ⟨p₀, hp₀, heq⟩ := Option.map_eq_some_iff.mp hrow
  split_ifs at heq
  · have hstatus := hq.2
    rw [← heq] at hstatus
    cases hstatus
  · exact ⟨heq ▸ hp₀, hq.2⟩

section staging

variable {h : Host} {s s' : Store} {now : ℤ} {run : Option ℤ}

theorem sameQueue_journalApplied {subjects : List Subject} {image : Image}
    (hj : s.journalApplied run subjects image = .ok s') : SameQueue s s' := by
  cases run with
  | none =>
    cases hj
    exact .refl s
  | some run => exact sameQueue_journalOp hj

theorem sameQueue_createChild {parentId title id : String}
    (hc : s.createChild h now run parentId title = .ok (s', id)) : SameQueue s s' := by
  obtain ⟨⟨s₁, id⟩, hi, hc⟩ := bind_eq_ok.mp hc
  obtain ⟨s₂, hj, hc⟩ := bind_eq_ok.mp hc
  cases hc
  obtain ⟨-, nodes, -, rfl⟩ := insertNode_ok hi
  exact (sameQueue_of_lake (s.sameLake_catalog _ _ _ _)).trans (sameQueue_journalApplied hj)

theorem sameQueue_filingNode {parentId node : String} {subClass : Option String} {made : Bool}
    (hn : s.filingNode h now run parentId subClass = .ok (s', node, made)) : SameQueue s s' := by
  unfold filingNode at hn
  split at hn
  · cases hn
    exact .refl s
  split_ifs at hn
  · cases hn
    exact .refl s
  split at hn
  · cases hn
    exact .refl s
  · obtain ⟨⟨s₁, id⟩, hc, hn⟩ := bind_eq_ok.mp hn
    cases hn
    exact sameQueue_createChild hc

theorem sameQueue_fileLink {node targetKind targetId : String} {note : Option String}
    {linked : Bool} (hl : s.fileLink now run node targetKind targetId note = .ok (s', linked)) :
    SameQueue s s' := by
  unfold fileLink at hl
  split at hl
  · split at hl
    · cases hl
      exact .refl s
    · obtain ⟨s₂, hj, hl⟩ := bind_eq_ok.mp hl
      cases hl
      exact (sameQueue_of_lake (s.sameLake_catalog _ _ _ _)).trans (sameQueue_journalApplied hj)
  · split at hl
    · cases hl
    · obtain ⟨s₂, hj, hl⟩ := bind_eq_ok.mp hl
      cases hl
      exact (sameQueue_of_lake (s.sameLake_catalog _ _ _ _)).trans (sameQueue_journalApplied hj)

theorem beside_stageProposal {p : Proposal} {out : StagedOutcome}
    (hs : s.stageProposal h now run p = .ok (s', out)) : Beside s s' := by
  have hrefl : Beside s s := .of_proposals rfl
  unfold stageProposal at hs
  split_ifs at hs
  · cases hs
    exact hrefl
  split at hs
  case h_1 =>
    split_ifs at hs
    · cases hs
      exact hrefl
    · obtain ⟨⟨s₁, id⟩, hc, hs⟩ := bind_eq_ok.mp hs
      cases hs
      exact .of_proposals (sameQueue_createChild hc).proposals
  case h_2 =>
    split_ifs at hs
    · cases hs
      exact hrefl
    · obtain ⟨⟨s₁, node, made⟩, hn, hs⟩ := bind_eq_ok.mp hs
      obtain ⟨⟨s₂, linked⟩, hl, hs⟩ := bind_eq_ok.mp hs
      cases hs
      have hsame := (sameQueue_filingNode hn).trans (sameQueue_fileLink hl)
      exact .of_proposals hsame.proposals
  all_goals
    split_ifs at hs
    · cases hs
      exact hrefl
    · cases hs
      apply beside_insertStructural

end staging

theorem beside_applyInRun (h : Host) (s : Store) (now id run : ℤ) (actor : String) :
    Beside s (s.applyClassProposalInRun h now id actor (some run)).1 := by
  rcases applyInRun_cases h s now id run actor with hs | ⟨s₁, hsame, hs⟩
  · rw [hs]
    exact .of_proposals rfl
  · rw [hs]
    exact (Beside.of_proposals hsame.proposals).trans (beside_dropProposal s₁ id)

theorem beside_observe {h : Host} {s s' : Store} {now run : ℤ} {node summary actor : String}
    {citeSeqs : List ℤ} {out : Option ℤ}
    (hs : s.insertClassObservationInRun h now run node summary citeSeqs actor = .ok (s', out)) :
    Beside s s' := by
  unfold Store.insertClassObservationInRun at hs
  split_ifs at hs
  · cases hs
    exact .of_proposals rfl
  unfold Store.insertClassObservation at hs
  split_ifs at hs
  · cases hs
    exact .of_proposals rfl
  · obtain ⟨s₂, hj, hs⟩ := bind_eq_ok.mp hs
    cases hs
    exact .of_proposals (sameQueue_journalOp hj).proposals

theorem beside_forgetPrompt {s s' : Store} {prompt ts : ℤ} {bodyHash : String}
    (hs : s.forgetPrompt prompt bodyHash ts = .ok s') : Beside s s' := by
  unfold forgetPrompt at hs
  split at hs
  · cases hs
  rename_i forgotten _
  cases hs
  have hderived := fun s₁ : Store =>
    beside_forgetDerivedCopies s₁ (.prompt prompt) (s.seqsOfPrompt prompt) ts
  refine (Beside.trans ?_ (hderived _)).trans (.of_proposals rfl)
  exact .of_proposals rfl

/-- A compaction, of a forget too. -/
theorem beside_compactPromptBody {h : Host} {s s' : Store} {now prompt : ℤ}
    {gist reason gistSource actor : String} {archived : Bool} {out : Option ℤ}
    (hs : s.compactPromptBody h now prompt gist reason gistSource actor archived = .ok (s', out)) :
    Beside s s' := by
  unfold compactPromptBody at hs
  split at hs
  · cases hs
    exact .of_proposals rfl
  rename_i p _
  dsimp only at hs
  split_ifs at hs
  · obtain ⟨s₁, hforget, hs⟩ := bind_eq_ok.mp hs
    cases hs
    have harchive : Beside s { s with archive := s.archiveFor h now p reason archived } :=
      .of_proposals rfl
    exact (harchive.trans (beside_forgetPrompt hforget)).trans (.of_proposals rfl)
  · cases hs
    exact .of_proposals rfl

theorem beside_compact {h : Host} {s s' : Store} {now run prompt : ℤ}
    {gist reason gistSource actor : String} {archived : Bool} {out : Option ℤ}
    (hs : s.compactPromptBodyInRun h now run prompt gist reason gistSource actor archived =
      .ok (s', out)) : Beside s s' := by
  obtain ⟨⟨s₁, seq⟩, hc, hs⟩ := bind_eq_ok.mp hs
  have hbody := beside_compactPromptBody hc
  cases seq with
  | none =>
    cases hs
    exact hbody
  | some seq =>
    obtain ⟨s₂, hj, hs⟩ := bind_eq_ok.mp hs
    cases hs
    exact hbody.trans (.of_proposals (sameQueue_journalOp hj).proposals)

/-- **Every other write of a run, and every revert**, is beside the turns. -/
theorem beside_exec (h : Host) (s : Store) (st : HistoryStep) : Beside s (st.exec h s) := by
  cases st with
  | start now mode seqFrom seqTo => exact .of_proposals rfl
  | finish run f => exact .of_proposals rfl
  | journal run rec => exact .of_proposals (sameQueue_tryJournal s run rec).proposals
  | write run w =>
    have hrefl : Beside s s := .of_proposals rfl
    cases w with
    | stage now p => exact committed_ind hrefl fun _ _ => beside_stageProposal
    | apply now id actor => exact beside_applyInRun h s now id run actor
    | observe now node summary citeSeqs actor => exact committed_ind hrefl fun _ _ => beside_observe
    | compact now prompt gist gistSource actor =>
      exact committed_ind hrefl fun _ _ => beside_compact
  | revert now run actor =>
    change Beside s (reverted h s now run actor)
    unfold reverted
    split
    · rename_i s' receipt hok
      obtain ⟨-, t, hundo, rfl, -⟩ := revertRun_eq_ok.mp hok
      have hqueue := proposals_undoOps hundo
      exact .of_proposals hqueue
    · exact .of_proposals rfl


/-! ### Histories -/

/-- The turns so far, and the store. A run gets its row, is at work on the catalog,
and comes to its queue with its source not forgotten. -/
inductive Organized (h : Host) : List Entry → Store → Prop
  | start {s : Store} (below : s.BelowLimit) : Organized h [] s
  | beside {log : List Entry} {s s' : Store} (hist : Organized h log s) (other : Beside s s') :
      Organized h log s'
  | run {log : List Entry} {s s' : Store} (now : ℤ) (seqFrom seqTo : Option ℤ) (w : Surroundings)
      (reach : Reach) (hist : Organized h log s)
      (work : Beside (s.insertClassRunWith now .organize seqFrom seqTo).1 s')
      (unforgotten : s'.runSourceForgotten s.runs.nextId = false) :
      Organized h (log ++ runTurns h w s.runs.nextId s' reach)
        (queueUntil h w s.runs.nextId s' reach).store

/-- How often a verifier left the proposal undecided. -/
def undecidedTimes (log : List Entry) (id : ℤ) : ℕ :=
  log.countP fun e => e.proposal.id = id && e.undecided

/-- What the turns of the proposal journaled. -/
def journaledFor (log : List Entry) (id : ℤ) : List OpRow :=
  (log.filter fun e => e.proposal.id = id).flatMap Entry.journaled

/-- What an earlier turn has to do with the row its proposal has now. -/
structure Stays (e : Entry) (p : ProposalRow) : Prop where
  unexpired : ¬e.Expires
  silent : e.after.store.runOps = e.before.store.runOps
  parked : e.Defers → ∃ n, p.nextAfterRun = some n ∧ e.run < n

/-- What a history so far keeps. -/
structure Tally (log : List Entry) (s : Store) : Prop where
  below : s.BelowLimit
  during : ∀ e ∈ log, e.before.store.BelowLimit ∧ e.after.store.BelowLimit
  counted : ∀ {id p}, s.Queued id p → (undecidedTimes log id : ℤ) ≤ p.attempts
  limit : ∀ id, (undecidedTimes log id : ℤ) ≤ proposalTtlAttempts
  past : ∀ e ∈ log, e.proposal.id < s.proposals.nextId
  handled : ∀ e ∈ log, Handled e
  stays : ∀ e ∈ log, ∀ p, s.Queued e.proposal.id p → Stays e p
  ordered : log.Pairwise fun e e' => e'.proposal.id = e.proposal.id → Stays e e'.proposal

/-! ### One turn -/

section turn

variable {e : Entry} {log : List Entry} {s : Store} {id : ℤ} {p p' : ProposalRow}

theorem undecidedTimes_concat (log : List Entry) (e : Entry) (id : ℤ) :
    undecidedTimes (log ++ [e]) id = undecidedTimes log id +
      if e.proposal.id = id ∧ e.undecided = true then 1 else 0 := by
  simp [undecidedTimes, List.countP_append, List.countP_cons]

theorem undecidedTimes_eq_zero (hlog : ∀ e ∈ log, e.proposal.id ≠ id) :
    undecidedTimes log id = 0 := by
  rw [undecidedTimes, List.countP_eq_zero]
  intro e he
  simp [hlog e he]

/-- A verifier that leaves a proposal undecided short of the limit leaves it an
attempt. -/
theorem attempts_lt_of_unreached (hu : ¬e.Reached) (hund : e.undecided = true) :
    e.proposal.attempts + 1 < proposalTtlAttempts := by
  obtain ⟨w, run, lake, turn, p, before, after⟩ := e
  cases turn with
  | handle => cases hund
  | settle reply =>
    by_contra hlim
    exact hu ⟨hund, not_lt.mp hlim⟩

/-- The row that a turn leaves queued. -/
structure Left (e : Entry) (p : ProposalRow) : Prop extends Stays e p where
  attempts : p.attempts = e.proposal.attempts + (if e.undecided then 1 else 0)
  lt : e.undecided = true → p.attempts < proposalTtlAttempts
  next : p.nextAfterRun = e.proposal.nextAfterRun ∨ ∃ n, p.nextAfterRun = some n ∧ e.run < n

theorem Outcome.left_of_row (ho : Outcome e)
    (hp : e.after.store.proposals.get? e.proposal.id = some p) : Left e p := by
  cases ho with
  | expired _ _ _ _ hgone _ =>
    rw [hgone] at hp
    cases hp
  | left _ _ _ _ hgone =>
    rw [hgone] at hp
    cases hp
  | parked hu hexp _ _ _ hrow hsilent =>
    obtain ⟨p', n, hp', -, hatt, hnext, hlt⟩ := hrow
    obtain rfl : p' = p := Option.some.inj (hp'.symm.trans hp)
    refine ⟨⟨hexp, hsilent, fun _ => ⟨n, hnext, hlt⟩⟩, hatt, fun hund => ?_, .inr ⟨n, hnext, hlt⟩⟩
    have hlim := attempts_lt_of_unreached hu hund
    rw [if_pos hund] at hatt
    omega
  | kept _ hexp hdef hdec hrow hsilent =>
    obtain rfl : e.proposal = p := Option.some.inj (hrow.symm.trans hp)
    refine ⟨⟨hexp, hsilent, fun hd => absurd hd hdef⟩, ?_, fun hund => ?_, .inl rfl⟩
    · rw [hdec.1]
      simp
    · rw [hdec.1] at hund
      cases hund

/-- What is queued after a turn was queued before it, or is what it leaves. -/
theorem Handled.queued_after (he : Handled e) (hq : e.after.store.Queued id p) :
    id ≠ e.proposal.id ∧ e.before.store.Queued id p ∨ id = e.proposal.id ∧ Left e p := by
  by_cases hid : id = e.proposal.id
  · subst hid
    exact .inr ⟨rfl, he.outcome.left_of_row hq.1⟩
  · exact .inl ⟨hid, he.only.others id hid ▸ hq.1, hq.2⟩

theorem Handled.queued_before (he : Handled e) : e.before.store.Queued e.proposal.id e.proposal :=
  ⟨he.due.row, he.due.queued⟩

/-- A turn keeps what an earlier turn of its proposal left. -/
theorem Stays.left {e₀ : Entry} (hs : Stays e₀ e.proposal) (he : Handled e) (hl : Left e p) :
    Stays e₀ p := by
  refine ⟨hs.unexpired, hs.silent, fun hdef => ?_⟩
  obtain ⟨n, hn, hlt⟩ := hs.parked hdef
  rcases hl.next with hnext | ⟨n', hn', hlt'⟩
  · exact ⟨n, hnext.trans hn, hlt⟩
  · have hdue : n ≤ e.run := by
      have hd := he.due.due
      rw [hn] at hd
      simpa using hd
    exact ⟨n', hn', by omega⟩

theorem Handled.below (he : Handled e) (hb : e.before.store.BelowLimit) :
    e.after.store.BelowLimit := by
  intro id p hq
  rcases he.queued_after hq with ⟨-, hold⟩ | ⟨-, hl⟩
  · exact hb id p hold
  have hatt := hl.attempts
  have hold := hb e.proposal.id e.proposal he.queued_before
  by_cases hund : e.undecided = true
  · rw [if_pos hund] at hatt
    have hlt := hl.lt hund
    omega
  · rw [if_neg hund] at hatt
    omega

theorem Tally.counted_after (ht : Tally log e.before.store) (he : Handled e)
    (hq : e.after.store.Queued id p) : (undecidedTimes (log ++ [e]) id : ℤ) ≤ p.attempts := by
  rw [undecidedTimes_concat]
  rcases he.queued_after hq with ⟨hid, hold⟩ | ⟨rfl, hl⟩
  · rw [if_neg fun hc => hid hc.1.symm]
    exact ht.counted hold
  · have hold := ht.counted he.queued_before
    rw [hl.attempts]
    by_cases hund : e.undecided = true
    · simp only [hund, and_self, if_true]
      push_cast
      omega
    · rw [if_neg fun hc => hund hc.2, if_neg hund]
      simpa using hold

/-- The last time that a verifier may leave a proposal undecided is the limit's. -/
theorem Tally.limit_after (ht : Tally log e.before.store) (he : Handled e) (id : ℤ) :
    (undecidedTimes (log ++ [e]) id : ℤ) ≤ proposalTtlAttempts := by
  have hold := ht.limit id
  rw [undecidedTimes_concat]
  by_cases hc : e.proposal.id = id ∧ e.undecided = true
  · have hat := ht.counted he.queued_before
    have hlt := (ht.below _ _ he.queued_before).2
    rw [hc.1] at hat
    rw [if_pos hc]
    push_cast
    omega
  · rw [if_neg hc]
    simpa using hold

theorem Tally.stays_before (ht : Tally log e.before.store) (he : Handled e) {e₀ : Entry}
    (h₀ : e₀ ∈ log) (hid : e₀.proposal.id = e.proposal.id) : Stays e₀ e.proposal :=
  ht.stays e₀ h₀ e.proposal (hid ▸ he.queued_before)

/-- **One more turn** keeps the tally. -/
theorem Tally.append (ht : Tally log e.before.store) (he : Handled e) :
    Tally (log ++ [e]) e.after.store where
  below := he.below ht.below
  during := List.forall_mem_append.mpr
    ⟨ht.during, List.forall_mem_singleton.mpr ⟨ht.below, he.below ht.below⟩⟩
  counted := ht.counted_after he
  limit := ht.limit_after he
  past := by
    rw [he.only.nextId]
    have hnew : e.proposal.id < e.before.store.proposals.nextId :=
      Int.lt_add_one_of_le (AutoTable.le_lastId he.due.row)
    exact List.forall_mem_append.mpr ⟨ht.past, List.forall_mem_singleton.mpr hnew⟩
  handled := List.forall_mem_append.mpr ⟨ht.handled, List.forall_mem_singleton.mpr he⟩
  stays := by
    refine List.forall_mem_append.mpr ⟨fun e₀ h₀ p hq => ?_,
      List.forall_mem_singleton.mpr fun p hq => ?_⟩
    · rcases he.queued_after hq with ⟨-, hold⟩ | ⟨hid, hl⟩
      · exact ht.stays e₀ h₀ p hold
      · exact (ht.stays_before he h₀ hid).left he hl
    · rcases he.queued_after hq with ⟨hid, -⟩ | ⟨-, hl⟩
      · exact absurd rfl hid
      · exact hl.toStays
  ordered := by
    apply List.pairwise_append.mpr
    refine ⟨ht.ordered, List.pairwise_singleton _ e, fun e₀ h₀ => ?_⟩
    exact List.forall_mem_singleton.mpr fun hid => ht.stays_before he h₀ hid.symm

end turn

/-! ### A whole run -/

/-- What is written beside the turns keeps the tally. -/
theorem Tally.beside {log : List Entry} {s s' : Store} (ht : Tally log s) (hb : Beside s s') :
    Tally log s' := by
  have hold : ∀ e ∈ log, ∀ {p}, s'.Queued e.proposal.id p → s.Queued e.proposal.id p := by
    intro e he p hq
    refine (hb.kept hq).resolve_right fun hnew => ?_
    have hlt := ht.past e he
    omega
  refine ⟨?_, ht.during, ?_, ht.limit, ?_, ht.handled, ?_, ht.ordered⟩
  · intro id p hq
    rcases hb.kept hq with hq | ⟨-, hatt⟩
    · exact ht.below id p hq
    · rw [hatt]
      exact ⟨le_rfl, by decide⟩
  · intro id p hq
    rcases hb.kept hq with hq | ⟨hid, hatt⟩
    · exact ht.counted hq
    · have hzero : undecidedTimes log id = 0 := undecidedTimes_eq_zero fun e he heq => by
        have hlt := ht.past e he
        omega
      rw [hzero, hatt]
      rfl
  · exact fun e he => lt_of_lt_of_le (ht.past e he) hb.next
  · exact fun e he p hq => ht.stays e he p (hold e he hq)

section run

variable {h : Host} {w : Surroundings} {run : ℤ} {log : List Entry} {s : Store}

theorem Due.of_get? {s s' : Store} {p : ProposalRow} (hd : Due run s p)
    (hget : s'.proposals.get? p.id = s.proposals.get? p.id) : Due run s' p :=
  ⟨hget.trans hd.row, hd.queued, hd.due⟩

theorem due_of_mem {p : ProposalRow} (hp : p ∈ s.listDueProposals run) : Due run s p := by
  rw [listDueProposals, List.mem_insertionSort, Table.mem_select] at hp
  obtain ⟨hrow, hcond⟩ := hp
  simp only [Bool.and_eq_true, decide_eq_true_eq] at hcond
  exact ⟨hrow, hcond.1, hcond.2⟩

theorem nodup_listDueProposals (s : Store) (run : ℤ) :
    ((s.listDueProposals run).map ProposalRow.id).Nodup := by
  refine (((List.perm_insertionSort _ _).map _).nodup_iff).mpr ?_
  exact s.proposals.nodup.sublist (List.filter_sublist.map _)

/-- The turns of due proposals keep the tally, from the first to the last. -/
theorem tally_trace (f : Facts) (lake : ℤ) (turn : Turn) : ∀ (ps : List ProposalRow) {q : QueueRun}
    {log : List Entry}, (ps.map ProposalRow.id).Nodup → (∀ p ∈ ps, Due run q.store p) →
    (turn = .handle ∨ ∀ p ∈ ps, expired p lake = none) →
    q.store.runSourceForgotten run = false → Tally log q.store →
    Tally (log ++ trace h w run f lake turn q ps) (ps.foldl (turn.step h w run f lake) q).store
  | [], q, log, _, _, _, _, ht => by rwa [trace, List.append_nil]
  | p :: ps, q, log, hnodup, hdue, hx, hf, ht => by
    obtain ⟨hp, hrest⟩ := List.nodup_cons.mp hnodup
    have hd : Due run q.store p := hdue p List.mem_cons_self
    have he : Handled ⟨w, run, lake, turn, p, q, turn.step h w run f lake q p⟩ := by
      cases turn with
      | handle => exact handled_handle f lake hd hf
      | settle reply =>
        have hfresh := hx.resolve_left (by simp)
        exact handled_settle lake reply hd hf (hfresh p List.mem_cons_self)
    have hnext : ∀ p' ∈ ps, Due run (turn.step h w run f lake q p).store p' := by
      intro p' hp'
      refine (hdue p' (List.mem_cons_of_mem p hp')).of_get? (he.only.others p'.id ?_)
      intro heq
      have hmem : p'.id ∈ ps.map ProposalRow.id := List.mem_map_of_mem hp'
      exact hp (heq ▸ hmem)
    have hforgot := runSourceForgotten_congr he.only.runs run
    have htail := tally_trace f lake turn ps hrest hnext
      (hx.imp_right fun hx p' hp' => hx p' (List.mem_cons_of_mem p hp')) (hforgot.trans hf)
      (Tally.append ht he)
    rw [trace, List.append_cons]
    exact htail

theorem store_settleBatch (reply : Except String (List SupersedeVerdict))
    (batch : List ProposalRow) (q : QueueRun) : (settleBatch h w run reply batch q).store =
      (batch.foldl (settleOne h w run reply) (called q)).store := by
  cases batch <;> rfl

/-- The rows that wait for a verifier, once the pass is over. -/
theorem waiting_spec (h : Host) (w : Surroundings) (run : ℤ) (s : Store) :
    ((afterDue h w run s).toVerify.map ProposalRow.id).Nodup ∧
      ∀ v ∈ (afterDue h w run s).toVerify,
        Due run (afterDue h w run s).store v ∧ expired v s.lakeNewestTs = none := by
  obtain ⟨vs, hto, hsub, hvs⟩ := @toVerify_spec h w run (Facts.load s) s.lakeNewestTs
    (s.listDueProposals run) (startQueue s) (nodup_listDueProposals s run)
  have hlist : (afterDue h w run s).toVerify = vs := hto
  rw [hlist]
  refine ⟨(nodup_listDueProposals s run).sublist (hsub.map _), fun v hv => ?_⟩
  exact ⟨(due_of_mem (hsub.subset hv)).of_get? (hvs v hv).2, (hvs v hv).1⟩

theorem runs_afterDue (h : Host) (w : Surroundings) (run : ℤ) (s : Store) :
    (afterDue h w run s).store.runs = s.runs :=
  runs_foldl (Facts.load s) s.lakeNewestTs .handle _ _

theorem tally_dueTurns (ht : Tally log s) (hf : s.runSourceForgotten run = false) :
    Tally (log ++ dueTurns h w run s) (afterDue h w run s).store :=
  tally_trace (Facts.load s) s.lakeNewestTs .handle (s.listDueProposals run)
    (nodup_listDueProposals s run) (fun _ hp => due_of_mem hp) (.inl rfl) hf ht

theorem tally_supersedeTurns (ht : Tally log (afterDue h w run s).store)
    (hf : s.runSourceForgotten run = false) :
    Tally (log ++ supersedeTurns h w run s) (afterSupersedes h w run s).store := by
  obtain ⟨hnodup, hwait⟩ := waiting_spec h w run s
  have hforgot := runSourceForgotten_congr (runs_afterDue h w run s) run
  have hfresh : ∀ p ∈ supersedeBatch (afterDue h w run s), expired p s.lakeNewestTs = none :=
    fun p hp => (hwait p (List.mem_of_mem_filter hp)).2
  rw [afterSupersedes, store_settleBatch]
  exact @tally_trace h w run (Facts.load s) s.lakeNewestTs (.settle w.supersedeReply)
    (supersedeBatch (afterDue h w run s)) (called (afterDue h w run s)) log
    (hnodup.sublist (List.filter_sublist.map _))
    (fun p hp => (hwait p (List.mem_of_mem_filter hp)).1) (.inr hfresh) (hforgot.trans hf) ht

/-- What waits for the other verifier is as it was before the supersessions'. -/
theorem due_mergeBatch {p : ProposalRow} (hp : p ∈ mergeBatch (afterSupersedes h w run s)) :
    Due run (afterSupersedes h w run s).store p ∧ expired p s.lakeNewestTs = none := by
  obtain ⟨hnodup, hwait⟩ := waiting_spec h w run s
  obtain ⟨hmem, hop⟩ := List.mem_filter.mp hp
  rw [afterSupersedes, toVerify_settleBatch] at hmem
  refine ⟨(hwait p hmem).1.of_get? ?_, (hwait p hmem).2⟩
  rw [afterSupersedes, store_settleBatch]
  refine @get?_foldl h w run (Facts.load s) s.lakeNewestTs (.settle w.supersedeReply) p.id
    (supersedeBatch (afterDue h w run s)) (called (afterDue h w run s)) fun hid => ?_
  obtain ⟨p', hp', heq⟩ := List.mem_map.mp hid
  obtain ⟨hmem', hop'⟩ := List.mem_filter.mp hp'
  obtain rfl := List.inj_on_of_nodup_map hnodup hmem' hmem heq
  simp_all

theorem tally_mergeTurns (ht : Tally log (afterSupersedes h w run s).store)
    (hf : s.runSourceForgotten run = false) :
    Tally (log ++ mergeTurns h w run s) (queueUntil h w run s .merges).store := by
  have hruns : (afterSupersedes h w run s).store.runs = s.runs := by
    rw [afterSupersedes, store_settleBatch]
    exact (runs_foldl (Facts.load s) s.lakeNewestTs (.settle w.supersedeReply) _ _).trans
      (runs_afterDue h w run s)
  have hnodup : ((mergeBatch (afterSupersedes h w run s)).map ProposalRow.id).Nodup := by
    refine List.Nodup.sublist (List.filter_sublist.map _) ?_
    rw [afterSupersedes, toVerify_settleBatch]
    exact (waiting_spec h w run s).1
  rw [queueUntil, store_settleBatch]
  exact @tally_trace h w run (Facts.load s) s.lakeNewestTs (.settle w.mergeReply)
    (mergeBatch (afterSupersedes h w run s)) (called (afterSupersedes h w run s)) log hnodup
    (fun p hp => (due_mergeBatch hp).1) (.inr fun p hp => (due_mergeBatch hp).2)
    ((runSourceForgotten_congr hruns run).trans hf) ht

/-- **A run**, as far as it got, keeps the tally. -/
theorem tally_runTurns (ht : Tally log s) (hf : s.runSourceForgotten run = false) (reach : Reach) :
    Tally (log ++ runTurns h w run s reach) (queueUntil h w run s reach).store := by
  have hdue := @tally_dueTurns h w run log s ht hf
  have hsup := tally_supersedeTurns hdue hf
  have hmerge := tally_mergeTurns hsup hf
  cases reach with
  | due => exact hdue
  | supersedes =>
    rw [List.append_assoc] at hsup
    exact hsup
  | merges =>
    rw [List.append_assoc, List.append_assoc, ← List.append_assoc (dueTurns h w run s)] at hmerge
    exact hmerge

end run

theorem tally_organized {h : Host} {log : List Entry} {s : Store} (ho : Organized h log s) :
    Tally log s := by
  induction ho with
  | start below =>
    refine ⟨below, by simp, ?_, ?_, by simp, by simp, by simp, .nil⟩
    · intro id p hq
      exact (below id p hq).1
    · intro id
      show (0 : ℤ) ≤ 3
      decide
  | beside _ other ih => exact ih.beside other
  | run now seqFrom seqTo w reach _ work unforgotten ih =>
    refine tally_runTurns (Tally.beside ?_ work) unforgotten reach
    exact ih.beside ⟨fun hq => .inl hq, le_rfl⟩

/-! ### What a history shows -/

/-- The row says that the proposal expired in the run of the turn. -/
structure ExpiryOf (e : Entry) (row : OpRow) : Prop where
  runId : row.runId = e.run
  op : row.op = e.proposal.op.kind
  subjectIds : row.subjectIds = propSubjects e.proposal
  outcome : row.outcome = .expired

/-- What holds of the turns of a history, and of the store at its end. -/
structure Bounded (h : Host) (log : List Entry) (s : Store) : Prop where
  /-- The counter is below the limit while the proposal is queued. -/
  below : s.BelowLimit
  during : ∀ e ∈ log, e.before.store.BelowLimit ∧ e.after.store.BelowLimit
  /-- A verifier leaves a proposal undecided so many times at most. -/
  undecided : ∀ id, (undecidedTimes log id : ℤ) ≤ proposalTtlAttempts
  /-- One left undecided, or quarantined, is deferred or expires. -/
  answered : ∀ e ∈ log, e.undecided = true ∨ e.quarantined = true → e.Defers ∨ e.Expires
  /-- A deferral is for a later run, and no run before that one takes it up. -/
  deferred : ∀ e ∈ log, e.Defers → ∃ p n, e.after.store.Queued e.proposal.id p ∧
    p.nextAfterRun = some n ∧ e.run < n
  later : log.Pairwise fun e e' => e'.proposal.id = e.proposal.id → e.Defers → e.run < e'.run
  /-- The limit and the lake-time expiry are what is counted as an expiry. -/
  reached : ∀ e ∈ log, e.Reached ↔ e.Expires
  /-- It is all that is ever journaled of the proposal, -/
  once : ∀ e ∈ log, e.Reached → ∃ row, journaledFor log e.proposal.id = [row] ∧ ExpiryOf e row
  /-- and the last turn of it, -/
  last : log.Pairwise fun e e' => e.Reached → e'.proposal.id ≠ e.proposal.id
  /-- which is no apply, and after which none goes through. -/
  unapplied : ∀ e ∈ log, e.Reached → ¬e.Applies ∧ (∀ p, ¬s.Queued e.proposal.id p) ∧
    ∀ now actor run, (s.applyClassProposalInRun h now e.proposal.id actor run).2 = .ok none
  /-- What is applied was within its lake-days when its run began, -/
  fresh : ∀ e ∈ log, e.Applies → expired e.proposal e.lake = none
  /-- and what is past them when a run begins that it is due in, reaches them there. -/
  due : ∀ w run reach p, p ∈ s.listDueProposals run → (expired p s.lakeNewestTs).isSome →
    ∃ e ∈ runTurns h w run s reach, e.proposal = p ∧ e.Reached

section bounded

variable {h : Host} {e : Entry} {log : List Entry} {s : Store}

theorem journaled_of_silent (hs : e.after.store.runOps = e.before.store.runOps) :
    e.journaled = [] := by
  rw [Entry.journaled, hs]
  exact List.drop_length

theorem Outcome.reached_iff (ho : Outcome e) : e.Reached ↔ e.Expires := by
  cases ho with
  | expired hr hc => exact iff_of_true hr hc
  | parked hu hc => exact iff_of_false hu hc
  | left hu hc => exact iff_of_false hu hc
  | kept hu hc => exact iff_of_false hu hc

/-- A turn that reaches the limit or the expiry is no apply, and adds one line. -/
theorem Outcome.line (ho : Outcome e) (hr : e.Reached) :
    ¬e.Applies ∧ ∃ row, e.journaled = [row] ∧ ExpiryOf e row := by
  cases ho with
  | expired _ _ _ happ _ hline =>
    obtain ⟨why, hrows⟩ := hline
    refine ⟨happ, e.before.store.opRow e.run
      (.expired e.proposal.op.kind (propSubjects e.proposal) why), ?_, ⟨rfl, rfl, rfl, rfl⟩⟩
    rw [Entry.journaled, hrows]
    exact List.drop_left
  | parked hu => exact absurd hr hu
  | left hu => exact absurd hr hu
  | kept hu => exact absurd hr hu

theorem Outcome.answered (ho : Outcome e) (hc : e.undecided = true ∨ e.quarantined = true) :
    e.Defers ∨ e.Expires := by
  cases ho with
  | expired _ hexp => exact .inr hexp
  | parked _ _ hdef => exact .inl hdef
  | left _ _ _ hdec =>
    rw [hdec.1, hdec.2] at hc
    simp at hc
  | kept _ _ _ hdec =>
    rw [hdec.1, hdec.2] at hc
    simp at hc

theorem Outcome.row_of_defers (ho : Outcome e) (hd : e.Defers) :
    ∃ p n, e.after.store.Queued e.proposal.id p ∧ p.nextAfterRun = some n ∧ e.run < n := by
  cases ho with
  | expired _ _ hu => exact absurd hd hu
  | parked _ _ _ _ _ hrow =>
    obtain ⟨p, n, hp, hq, -, hn, hlt⟩ := hrow
    exact ⟨p, n, ⟨hp, hq⟩, hn, hlt⟩
  | left _ _ hu => exact absurd hd hu
  | kept _ _ hu => exact absurd hd hu

/-- No apply of a proposal that is not queued goes through. -/
theorem apply_of_unqueued {id : ℤ} (hn : ∀ p, ¬s.Queued id p) (now : ℤ) (actor : String)
    (run : Option ℤ) : (s.applyClassProposalInRun h now id actor run).2 = .ok none := by
  unfold applyClassProposalInRun
  split
  · rfl
  rename_i p hp
  have hstatus : p.status ≠ .proposed := fun hq => hn p ⟨hp, hq⟩
  dsimp only
  cases run.or p.runId with
  | none => simp [applyProposal, hstatus]
  | some run => simp [applyProposal, hstatus]

/-- The turns of a proposal journal what the one that expires it does. -/
theorem Tally.once (ht : Tally log s) (he : e ∈ log) (hr : e.Reached) :
    ∃ row, journaledFor log e.proposal.id = [row] ∧ ExpiryOf e row := by
  obtain ⟨-, row, hline, hrow⟩ := (ht.handled e he).outcome.line hr
  have hexp := (ht.handled e he).outcome.reached_iff.mp hr
  refine ⟨row, ?_, hrow⟩
  obtain ⟨before, after, rfl⟩ := List.append_of_mem he
  obtain ⟨-, hafter, hbefore⟩ := List.pairwise_append.mp ht.ordered
  have hnone : after.filter (fun e' => e'.proposal.id = e.proposal.id) = [] := by
    apply List.filter_eq_nil_iff.mpr
    intro e' he' hid
    exact ((List.pairwise_cons.mp hafter).1 e' he' (of_decide_eq_true hid)).unexpired hexp
  have hsilent : (before.filter fun e' => e'.proposal.id = e.proposal.id).flatMap Entry.journaled =
      [] := by
    apply List.flatMap_eq_nil_iff.mpr
    intro e' he'
    obtain ⟨hmem, hid⟩ := List.mem_filter.mp he'
    have hstays := hbefore e' hmem e List.mem_cons_self (of_decide_eq_true hid).symm
    exact journaled_of_silent hstays.silent
  rw [journaledFor, List.filter_append, List.filter_cons_of_pos (by simp), hnone,
    List.flatMap_append, hsilent, List.flatMap_cons, hline]
  rfl

/-- A run takes up every proposal that is due. -/
theorem mem_trace {w : Surroundings} {run : ℤ} (f : Facts) (lake : ℤ) (turn : Turn)
    {p : ProposalRow} : ∀ (ps : List ProposalRow) (q : QueueRun), p ∈ ps →
    ∃ e ∈ trace h w run f lake turn q ps, e.proposal = p ∧ e.turn = turn ∧ e.lake = lake
  | p' :: ps, q, hp => by
    rcases List.mem_cons.mp hp with rfl | hp
    · exact ⟨_, List.mem_cons_self, rfl, rfl, rfl⟩
    · obtain ⟨e, he, heq⟩ := mem_trace f lake turn ps (turn.step h w run f lake q p') hp
      exact ⟨e, List.mem_cons_of_mem _ he, heq⟩

theorem reached_of_due (w : Surroundings) (run : ℤ) (reach : Reach) {p : ProposalRow}
    (hp : p ∈ s.listDueProposals run) (hx : (expired p s.lakeNewestTs).isSome = true) :
    ∃ e ∈ runTurns h w run s reach, e.proposal = p ∧ e.Reached := by
  obtain ⟨e, he, rfl, hturn, hlake⟩ := @mem_trace h w run (Facts.load s) s.lakeNewestTs .handle p
    (s.listDueProposals run) (startQueue s) hp
  have hreached : e.Reached := by
    rw [Entry.Reached, hturn, hlake]
    exact hx
  refine ⟨e, ?_, rfl, hreached⟩
  cases reach with
  | due => exact he
  | supersedes => exact List.mem_append_left _ he
  | merges => exact List.mem_append_left _ (List.mem_append_left _ he)

/-- **Over every history** a queued proposal has attempts left, a verifier leaves it
undecided three times at most, a deferral is for a later run, and one that reaches the
limit or its lake-time expiry leaves the queue with one line of the journal and is
never applied. -/
theorem queue_bounded (ho : Organized h log s) : Bounded h log s := by
  have ht := tally_organized ho
  have hend : ∀ e ∈ log, e.Reached → ∀ p, ¬s.Queued e.proposal.id p := fun e he hr p hq =>
    (ht.stays e he p hq).unexpired ((ht.handled e he).outcome.reached_iff.mp hr)
  refine
    { below := ht.below
      during := ht.during
      undecided := ht.limit
      answered := fun e he => (ht.handled e he).outcome.answered
      deferred := fun e he => (ht.handled e he).outcome.row_of_defers
      later := ?_
      reached := fun e he => (ht.handled e he).outcome.reached_iff
      once := fun e he => ht.once he
      last := ?_
      unapplied := fun e he hr => ⟨((ht.handled e he).outcome.line hr).1, hend e he hr,
        apply_of_unqueued (hend e he hr)⟩
      fresh := fun e he => (ht.handled e he).fresh
      due := fun w run reach p => reached_of_due w run reach }
  · refine ht.ordered.imp_of_mem fun {e e'} _ he' hstays hid hdef => ?_
    obtain ⟨n, hn, hlt⟩ := (hstays hid).parked hdef
    have hdue := (ht.handled e' he').due.due
    rw [hn] at hdue
    have hle : n ≤ e'.run := by simpa using hdue
    exact hlt.trans_le hle
  · refine ht.ordered.imp_of_mem fun {e e'} he _ hstays hr hid => ?_
    exact (hstays hid).unexpired ((ht.handled e he).outcome.reached_iff.mp hr)

end bounded

/-! ### Runs whose verifiers are away -/

theorem runSourceForgotten_started (s : Store) (now : ℤ) (mode : RunMode) (seqFrom seqTo : Option ℤ) :
    (s.insertClassRunWith now mode seqFrom seqTo).1.runSourceForgotten s.runs.nextId = false := by
  rw [runSourceForgotten, insertClassRunWith, AutoTable.get?_insert, if_pos rfl]
  rfl

/-- So many runs in a row, with nothing between them. -/
def runsInARow (h : Host) (w : Surroundings) (s : Store) : ℕ → List Entry × Store
  | 0 => ([], s)
  | n + 1 =>
    let (log, s) := runsInARow h w s n
    let s' := (s.insertClassRunWith 3 .organize none none).1
    (log ++ runTurns h w s.runs.nextId s' .merges, (processQueue h w s.runs.nextId s').store)

theorem organized_runsInARow {h : Host} (w : Surroundings) {s : Store}
    (hs : Organized h [] s) : ∀ n,
    Organized h (runsInARow h w s n).1 (runsInARow h w s n).2
  | 0 => hs
  | n + 1 => (organized_runsInARow w hs n).run 3 none none w .merges (.of_proposals rfl)
      (runSourceForgotten_started _ 3 .organize none none)

/-- Two decisions. -/
def twoDecisions : Store :=
  let decided : LedgerAppend := ⟨"resolution", "user", 1, none, none, none, none, none, "x"⟩
  (Store.empty.append Host.plain decided).append Host.plain decided

/-- The proposal that one supersedes the other. -/
def undecidedPair : Store :=
  twoDecisions.insertStructural 2 none .supersede none none none none (some (.pair 1 2)) none

theorem organized_undecidedPair : Organized Host.plain [] undecidedPair := by
  have hempty : Store.empty.BelowLimit := fun id p hq => by cases hq.1
  have hdecided : Beside Store.empty twoDecisions := .of_proposals rfl
  apply ((Organized.start hempty).beside hdecided).beside
  apply beside_insertStructural

/-- No verifier answers. -/
def verifiersAway : Surroundings :=
  ⟨Unicode.ascii, fun _ _ => false, fun _ => 5, fun _ => false, .error "offline", .error "offline"⟩

/-- The fourth run is the third that no verifier answers, and the last of the
proposal. -/
theorem queue_bounded_verifiersAway :
    undecidedTimes (runsInARow Host.plain verifiersAway undecidedPair 4).1 1 = 3 ∧
    (runsInARow Host.plain verifiersAway undecidedPair 4).2.proposals.rows = [] ∧
    Bounded Host.plain (runsInARow Host.plain verifiersAway undecidedPair 4).1
      (runsInARow Host.plain verifiersAway undecidedPair 4).2 :=
  ⟨by decide +kernel, by decide +kernel,
    queue_bounded (organized_runsInARow verifiersAway organized_undecidedPair 4)⟩

end QueueHistory
end PolisMemory
