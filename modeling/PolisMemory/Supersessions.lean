/-
# Superseded decisions

The two calls of `supersessions.rs` that write an edge: `applySupersession`,
which follows the chain of the old decision to its end and puts the new one
there, and the rescinding of an approval (`recordApprovalSupersession`), which
leaves an approval alone that is superseded already. The edges go up in seq, so
that every chain has an end (`EndsAt`, `exists_endsAt`) and none comes back.

A chain is followed over `maxHops` edges and no further: a longer one is
refused whatever comes after it (`applySupersession_of_endsAt`).

Key definitions: `Store.Supersedes`, `Store.EndsAt`,
`Store.recordApprovalSupersession`, `Store.supersessionRun`.
Key theorems: `applySupersession_of_endsAt`, `supersession_forest`.
-/
import Mathlib.Logic.Relation
import PolisMemory.AppendRuns
import PolisMemory.Catalog

namespace PolisMemory

open Tables

namespace Store

variable {h : Host} {s s' : Store} {a b c now : ℤ} {n : ℕ}

/-! ### The edges -/

/-- One seq was superseded by another. -/
def Supersedes (s : Store) (old new : ℤ) : Prop :=
  ∃ r, s.supersessions.get? old = some r ∧ r.newSeq = new

/-- The edges go up. -/
def Upward (s : Store) : Prop := ∀ a b, s.Supersedes a b → a < b

/-- The chain from a seq ends at another, so many edges on. -/
inductive EndsAt (s : Store) : ℕ → ℤ → ℤ → Prop
  | here {a : ℤ} : s.supersessions.get? a = none → EndsAt s 0 a a
  | next {n : ℕ} {a e : ℤ} {r : SupersessionRow} :
      s.supersessions.get? a = some r → EndsAt s n r.newSeq e → EndsAt s (n + 1) a e

theorem Supersedes.unique (hb : s.Supersedes a b) (hc : s.Supersedes a c) : b = c := by
  obtain ⟨r, hr, rfl⟩ := hb
  obtain ⟨r', hr', rfl⟩ := hc
  rw [Option.some.inj (hr.symm.trans hr')]

theorem EndsAt.reaches {e : ℤ} (he : s.EndsAt n a e) : Relation.ReflTransGen s.Supersedes a e := by
  induction he with
  | here _ => exact .refl
  | next hr _ ih => exact .head ⟨_, hr, rfl⟩ ih

/-- Nothing supersedes the end. -/
theorem EndsAt.free {e : ℤ} (he : s.EndsAt n a e) : s.supersessions.get? e = none := by
  induction he with
  | here hnone => exact hnone
  | next _ _ ih => exact ih

/-- An upward path goes up. -/
theorem Upward.lt_of_transGen (hup : s.Upward) (hab : Relation.TransGen s.Supersedes a b) : a < b := by
  induction hab with
  | single hab => exact hup _ _ hab
  | tail _ hbc ih => exact ih.trans (hup _ _ hbc)

/-- Every chain has an end. -/
theorem Upward.exists_endsAt (hup : s.Upward) (a : ℤ) : ∃ n e, s.EndsAt n a e := by
  -- each edge leaves fewer rows ahead
  induction hk : (s.supersessions.rows.filter fun r => a ≤ r.oldSeq).length
      using Nat.strong_induction_on generalizing a with
  | _ k ih =>
    cases hr : s.supersessions.get? a with
    | none => exact ⟨0, a, .here hr⟩
    | some r =>
      have hlt : a < r.newSeq := hup a r.newSeq ⟨r, hr, rfl⟩
      have hmem : r ∈ s.supersessions.rows := (Table.get?_eq_some.mp hr).1
      have hold : r.oldSeq = a := Table.key_of_get? hr
      have hfewer : (s.supersessions.rows.filter fun x => r.newSeq ≤ x.oldSeq).length < k := by
        rw [← hk]
        have hsub : (s.supersessions.rows.filter fun x => r.newSeq ≤ x.oldSeq) =
            (s.supersessions.rows.filter fun x => a ≤ x.oldSeq).filter
              fun x => r.newSeq ≤ x.oldSeq := by
          rw [List.filter_filter]
          refine List.filter_congr fun x _ => ?_
          by_cases hx : r.newSeq ≤ x.oldSeq
          · simp [hx, hlt.le.trans hx]
          · simp [hx]
        rw [hsub]
        refine List.length_filter_lt_length_iff_exists.mpr ⟨r, ?_, ?_⟩
        · exact List.mem_filter.mpr ⟨hmem, decide_eq_true hold.ge⟩
        · simp [hold, hlt]
      obtain ⟨n, e, he⟩ := ih _ hfewer r.newSeq rfl
      exact ⟨n + 1, e, .next hr he⟩

/-! ### The chain, followed -/

/-- The chain is followed to its end, if that is not too far. -/
theorem chainHead_of_endsAt {e : ℤ} (he : s.EndsAt n a e) :
    ∀ hops, s.chainHead hops a = if n ≤ hops then some e else none := by
  induction he with
  | here hnone =>
    intro hops
    unfold chainHead
    rw [hnone, if_pos (Nat.zero_le hops)]
  | @next n a e r hr _ ih =>
    intro hops
    cases hops with
    | zero =>
      unfold chainHead
      rw [hr, if_neg (Nat.not_succ_le_zero n)]
    | succ hops =>
      unfold chainHead
      rw [hr]
      dsimp only
      rw [ih hops]
      simp only [Nat.succ_le_succ_iff]

theorem notDecision?_eq_none {seqs : List ℤ} :
    s.notDecision? seqs = none ↔ s.areDecisions seqs = true := by
  unfold areDecisions
  induction seqs with
  | nil => simp [notDecision?]
  | cons seq seqs ih =>
    unfold notDecision?
    cases hev : s.event? seq with
    | none => simp [hev]
    | some e =>
      dsimp only
      by_cases hkind : e.kind ∈ decisionKinds
      · rw [if_pos hkind, ih]
        simp [hev, hkind]
      · rw [if_neg hkind]
        simp [hev, hkind]

/-- A row where no edge is. -/
def withEdge (s : Store) (h : Host) (now old new : ℤ) (rationale actor : String) : Store :=
  { s.append h (supersedeEvent h now old new rationale actor) with
    supersessions := s.supersessions.insertOrIgnore ⟨old, new,
      (s.appendedRow h (supersedeEvent h now old new rationale actor)).seq,
      (s.appendedRow h (supersedeEvent h now old new rationale actor)).ts⟩ }

/-- **What a supersession does**, by the end of the old decision's chain. -/
theorem applySupersession_of_endsAt {e old new : ℤ} {rationale actor : String}
    (hdecisions : s.areDecisions [old, new] = true) (he : s.EndsAt n old e) :
    s.applySupersession h now old new rationale actor =
      if maxHops < n then .ok (s, .rejected "supersession chain too deep")
      else if e = new then .ok (s, .rejected s!"#{new} is already the chain head")
      else if new ≤ e then
        .ok (s, .rejected s!"superseding decision #{new} must come after #{e}")
      else .ok (s.withEdge h now e new rationale actor, .applied e new
        (s.appendedRow h (supersedeEvent h now e new rationale actor)).seq) := by
  unfold applySupersession
  rw [notDecision?_eq_none.mpr hdecisions, chainHead_of_endsAt he]
  by_cases hfar : n ≤ maxHops
  · rw [if_pos hfar, if_neg (not_lt.mpr hfar)]
    dsimp only
    by_cases hsame : e = new
    · rw [if_pos hsame, if_pos hsame]
    · rw [if_neg hsame, if_neg hsame]
      by_cases hbefore : new ≤ e
      · rw [if_pos hbefore, if_pos hbefore]
      · rw [if_neg hbefore, if_neg hbefore]
        obtain ⟨t, ht, -⟩ := Table.insert?_of_free (t := s.supersessions) (r := ⟨e, new,
          (s.appendedRow h (supersedeEvent h now e new rationale actor)).seq,
          (s.appendedRow h (supersedeEvent h now e new rationale actor)).ts⟩) he.free
        rw [ht]
        dsimp only
        rw [withEdge, Table.insertOrIgnore, ht, Option.getD_some]
  · rw [if_neg hfar, if_pos (not_le.mp hfar)]

/-- What it does where one of the two is no decision. -/
theorem applySupersession_of_notDecision {old new : ℤ} {rationale actor : String}
    (hnot : s.areDecisions [old, new] ≠ true) :
    ∃ message, s.applySupersession h now old new rationale actor = .ok (s, .rejected message) := by
  unfold applySupersession
  cases hmessage : s.notDecision? [old, new] with
  | none => exact absurd (notDecision?_eq_none.mp hmessage) hnot
  | some message => exact ⟨message, rfl⟩

/-! ### The calls -/

/-- The sanctioned reversal of an approval: `record_approval_supersession`, and
the seq of its event. -/
def recordApprovalSupersession (h : Host) (s : Store) (now approvalSeq newSeq : ℤ)
    (rationale author : String) : Store × ℤ :=
  let a := supersedeEvent h now approvalSeq newSeq rationale author
  let ev := s.appendedRow h a
  ({ s.append h a with
    supersessions := s.supersessions.insertOrIgnore ⟨approvalSeq, newSeq, ev.seq, ev.ts⟩ }, ev.seq)

/-- An edge afterwards was there before, or is the new one. -/
theorem supersedes_withEdge {old new : ℤ} {rationale actor : String} :
    (s.withEdge h now old new rationale actor).Supersedes a b ↔
      s.Supersedes a b ∨ s.supersessions.get? old = none ∧ a = old ∧ b = new := by
  unfold Supersedes withEdge
  dsimp only
  rw [Table.get?_insertOrIgnore]
  cases hr : s.supersessions.get? a with
  | some r =>
    have hold : ¬ (s.supersessions.get? old = none ∧ a = old ∧ b = new) := by
      rintro ⟨hnone, rfl, -⟩
      rw [hr] at hnone
      cases hnone
    simp [hold]
  | none =>
    by_cases hold : old = a
    · subst hold
      simp [hr, eq_comm]
    · have hold' : ¬ a = old := fun heq => hold heq.symm
      simp [hold, hold']

theorem Upward.withEdge {old new : ℤ} {rationale actor : String} (hup : s.Upward) (hlt : old < new) :
    (s.withEdge h now old new rationale actor).Upward := by
  intro a b hab
  rcases supersedes_withEdge.mp hab with hab | ⟨-, rfl, rfl⟩
  · exact hup a b hab
  · exact hlt

theorem recordApprovalSupersession_eq {approvalSeq newSeq : ℤ} {rationale author : String} :
    (s.recordApprovalSupersession h now approvalSeq newSeq rationale author).1 =
      s.withEdge h now approvalSeq newSeq rationale author := rfl

/-- A supersession is refused, and nothing is written, or it is applied at the
end of the old decision's chain, which lies before the new one. -/
theorem Upward.applySupersession_cases (hup : s.Upward) (h : Host) (now old new : ℤ)
    (rationale actor : String) :
    (∃ message, s.applySupersession h now old new rationale actor = .ok (s, .rejected message)) ∨
      ∃ n e seq, s.EndsAt n old e ∧ e < new ∧
        s.applySupersession h now old new rationale actor =
          .ok (s.withEdge h now e new rationale actor, .applied e new seq) := by
  by_cases hdecisions : s.areDecisions [old, new] = true
  · obtain ⟨n, e, he⟩ := hup.exists_endsAt old
    rw [applySupersession_of_endsAt hdecisions he]
    split_ifs with hfar hsame hbefore
    · exact .inl ⟨_, rfl⟩
    · exact .inl ⟨_, rfl⟩
    · exact .inl ⟨_, rfl⟩
    · exact .inr ⟨n, e, _, he, not_le.mp hbefore, rfl⟩
  · exact .inl (applySupersession_of_notDecision hdecisions)

end Store

/-- A call, or something else between two calls. -/
inductive SupersessionCall
  | supersede (now oldSeq newSeq : ℤ) (rationale actor : String)
  | approval (now approvalSeq newSeq : ℤ) (rationale author : String)
  /-- Whatever leaves the edges alone. -/
  | others (t : Store)

/-- An approval is superseded by something later. -/
def SupersessionCall.Ordered : SupersessionCall → Prop
  | .approval _ approvalSeq newSeq _ _ => approvalSeq < newSeq
  | _ => True

namespace Store

variable {h : Host} {s s' : Store} {a b c now : ℤ} {n : ℕ}

/-- One call. -/
def supersessionStep (h : Host) (s : Store) : SupersessionCall → Store
  | .supersede now oldSeq newSeq rationale actor =>
    match s.applySupersession h now oldSeq newSeq rationale actor with
    | .ok (t, _) => t
    | .error _ => s
  | .approval now approvalSeq newSeq rationale author =>
    (s.recordApprovalSupersession h now approvalSeq newSeq rationale author).1
  | .others t => { t with supersessions := s.supersessions }

/-- Calls in a row. -/
def supersessionRun (h : Host) (s : Store) (calls : List SupersessionCall) : Store :=
  calls.foldl (supersessionStep h) s

theorem Upward.step {call : SupersessionCall} (hup : s.Upward) (hcall : call.Ordered) :
    (s.supersessionStep h call).Upward := by
  cases call with
  | supersede now oldSeq newSeq rationale actor =>
    unfold supersessionStep
    dsimp only
    rcases hup.applySupersession_cases h now oldSeq newSeq rationale actor with
      ⟨message, heq⟩ | ⟨n, e, seq, -, hlt, heq⟩
    · rw [heq]
      exact hup
    · rw [heq]
      exact hup.withEdge hlt
  | approval now approvalSeq newSeq rationale author =>
    unfold supersessionStep
    dsimp only
    rw [recordApprovalSupersession_eq]
    exact hup.withEdge hcall
  | others t => exact hup

theorem Upward.run {calls : List SupersessionCall} (hup : s.Upward)
    (hcalls : ∀ call ∈ calls, call.Ordered) : (s.supersessionRun h calls).Upward := by
  induction calls generalizing s with
  | nil => exact hup
  | cons call calls ih =>
    exact ih (hup.step (hcalls call List.mem_cons_self))
      fun call' hcall' => hcalls call' (List.mem_cons_of_mem call hcall')

theorem upward_of_empty (hempty : s.supersessions.rows = []) : s.Upward := by
  rintro a b ⟨r, hr, -⟩
  have hmem := (Table.get?_eq_some.mp hr).1
  rw [hempty] at hmem
  cases hmem

/-- What reaches the end before reaches the new decision after. -/
theorem reaches_withEdge {e new : ℤ} {rationale actor : String} (he : s.EndsAt n a e) :
    Relation.ReflTransGen (s.withEdge h now e new rationale actor).Supersedes a new := by
  have hmono : ∀ x y, s.Supersedes x y → (s.withEdge h now e new rationale actor).Supersedes x y :=
    fun x y hxy => supersedes_withEdge.mpr (.inl hxy)
  have hlast : (s.withEdge h now e new rationale actor).Supersedes e new :=
    supersedes_withEdge.mpr (.inr ⟨he.free, rfl, rfl⟩)
  have hpath := Relation.ReflTransGen.mono hmono _ _ he.reaches
  exact hpath.tail hlast

end Store

/-! ### Approvals and their rescissions -/

/-- The event of an approval. -/
def plainApproval : LedgerAppend := ⟨"approval", "ann", 1, none, none, none, none, none, "approved"⟩

/-- So many approvals. -/
def approvals : ℕ → Store
  | 0 => .empty
  | n + 1 => (approvals n).append Host.plain plainApproval

/-- The first approvals rescinded, each for the next. -/
def rescissions : ℕ → List SupersessionCall
  | 0 => []
  | n + 1 => rescissions n ++ [.approval 1 (n + 1) (n + 2) "replaced" "ann"]

theorem supersessions_approvals (n : ℕ) : (approvals n).supersessions.rows = [] := by
  induction n with
  | zero => rfl
  | succ n ih => exact ih

theorem ordered_rescissions (n : ℕ) : ∀ call ∈ rescissions n, call.Ordered := by
  induction n with
  | zero => simp [rescissions]
  | succ n ih =>
    intro call hcall
    rcases List.mem_append.mp hcall with hcall | hcall
    · exact ih call hcall
    · rw [List.mem_singleton.mp hcall]
      show (n : ℤ) + 1 < n + 2
      omega

theorem whole_approvals (n : ℕ) :
    Whole Host.plain.sha256 (approvals n).ledger ∧ (approvals n).ledger.rows.length = n := by
  induction n with
  | zero => exact ⟨whole_empty _, rfl⟩
  | succ n ih =>
    constructor
    · obtain ⟨t, ht, -⟩ := insert_successor Host.plain.sha256 (approvals n).ledger plainApproval
      have happended : (approvals (n + 1)).ledger = t := by
        show (LedgerTable.insert _ _).getD _ = t
        rw [ht, Option.getD_some]
      rw [happended]
      exact whole_insert _ ih.1 ht
    · show (appended _ _ _).rows.length = n + 1
      rw [rows_appended, List.length_append, ih.2, List.length_singleton]

namespace Store

variable {h : Host} {s : Store} {a b seq : ℤ} {e : LedgerEventRow}

theorem exists_event_approvals {n i : ℕ} (hi : 1 ≤ i) (hn : i ≤ n) :
    ∃ e, (approvals n).event? i = some e ∧ e.kind = "approval" := by
  induction n with
  | zero => omega
  | succ n ih =>
    by_cases hlast : i = n + 1
    · have hseq : ((approvals n).appendedRow Host.plain plainApproval).seq = i := by
        have hnext := seq_successor Host.plain.sha256 (whole_approvals n).1 plainApproval
        rw [(whole_approvals n).2] at hnext
        unfold appendedRow
        omega
      have hfound := event?_appendedRow Host.plain (approvals n) plainApproval
      rw [hseq] at hfound
      exact ⟨_, hfound, rfl⟩
    · obtain ⟨e, he, hkind⟩ := ih (by omega)
      exact ⟨e, event?_append he, hkind⟩

theorem supersessionRun_rescissions (n : ℕ) : s.supersessionRun h (rescissions (n + 1)) =
    (s.supersessionRun h (rescissions n)).withEdge h 1 (n + 1) (n + 2) "replaced" "ann" := by
  unfold supersessionRun
  rw [rescissions, List.foldl_append]
  rfl

/-- Rescissions leave the events. -/
theorem event?_rescissions (n : ℕ) (he : s.event? seq = some e) :
    (s.supersessionRun h (rescissions n)).event? seq = some e := by
  induction n with
  | zero => exact he
  | succ n ih =>
    rw [supersessionRun_rescissions]
    exact event?_append ih

theorem get?_eq_none_iff : s.supersessions.get? a = none ↔ ∀ b, ¬ s.Supersedes a b := by
  constructor
  · rintro hnone b ⟨r, hr, -⟩
    rw [hnone] at hr
    cases hr
  · intro hall
    cases hr : s.supersessions.get? a with
    | none => rfl
    | some r => exact absurd ⟨r, hr, rfl⟩ (hall r.newSeq)

/-- The edges that the rescissions write. -/
theorem supersedes_rescissions (n : ℕ) (hempty : s.supersessions.rows = []) :
    ∀ a b, (s.supersessionRun h (rescissions n)).Supersedes a b ↔ 1 ≤ a ∧ a ≤ n ∧ b = a + 1 := by
  induction n with
  | zero =>
    intro a b
    have hnone : ¬ (s.supersessionRun h (rescissions 0)).Supersedes a b := by
      rintro ⟨r, hr, -⟩
      have hmem := (Table.get?_eq_some.mp hr).1
      rw [show (s.supersessionRun h (rescissions 0)).supersessions.rows = [] from hempty] at hmem
      cases hmem
    constructor
    · intro hab
      exact absurd hab hnone
    · intro hab
      omega
  | succ n ih =>
    intro a b
    have hfree : (s.supersessionRun h (rescissions n)).supersessions.get? ((n : ℤ) + 1) = none :=
      get?_eq_none_iff.mpr fun b hb => by
        have hle := ((ih _ b).mp hb).2.1
        omega
    rw [supersessionRun_rescissions, supersedes_withEdge, ih]
    simp only [hfree, true_and]
    omega

/-- Their chain, from any of its seqs on. -/
theorem endsAt_rescissions {n k : ℕ} (hempty : s.supersessions.rows = []) (hk : k ≤ n)
    (hak : a + k = n + 1) : (s.supersessionRun h (rescissions n)).EndsAt k a (n + 1) := by
  induction k generalizing a with
  | zero =>
    have hfree : (s.supersessionRun h (rescissions n)).supersessions.get? ((n : ℤ) + 1) = none :=
      get?_eq_none_iff.mpr fun b hb => by
        have hle := ((supersedes_rescissions n hempty _ b).mp hb).2.1
        omega
    have ha : a = n + 1 := by omega
    rw [ha]
    exact .here hfree
  | succ k ih =>
    obtain ⟨r, hr, hnew⟩ := (supersedes_rescissions (s := s) (h := h) n hempty a (a + 1)).mpr
      (by omega)
    have hrest := ih (a := r.newSeq) (by omega) (by omega)
    exact .next hr hrest

/-- The approvals are decisions still. -/
theorem areDecisions_rescissions {n m i j : ℕ} (hi : 1 ≤ i ∧ i ≤ n) (hj : 1 ≤ j ∧ j ≤ n) :
    ((approvals n).supersessionRun Host.plain (rescissions m)).areDecisions [(i : ℤ), (j : ℤ)] =
      true := by
  have hkind : ∀ k : ℕ, 1 ≤ k ∧ k ≤ n → (((approvals n).supersessionRun Host.plain
      (rescissions m)).event? k).any (fun e => e.kind ∈ decisionKinds) = true := by
    intro k hk
    obtain ⟨e, he, hkind⟩ := exists_event_approvals hk.1 hk.2
    rw [event?_rescissions m he, Option.any_some, hkind]
    rfl
  unfold areDecisions
  rw [List.all_cons, List.all_cons, List.all_nil, Bool.and_true, Bool.and_eq_true]
  exact ⟨hkind i hi, hkind j hj⟩

end Store

/-! ### The forest -/

open Store in
/-- **The edges are a forest.** After any calls, each approval rescinded for
something later: a seq has one successor at most, the edges go up, and no path
comes back to where it began. A call that is applied leaves a path from the old
decision to the new one, a call that is rejected leaves everything as it was;
and a decision after the end of an old decision's chain supersedes it there, if
the chain has no more than 64 edges, and is rejected otherwise. -/
theorem supersession_forest (h : Host) (s : Store) (calls : List SupersessionCall)
    (hempty : s.supersessions.rows = []) (hcalls : ∀ call ∈ calls, call.Ordered) :
    (∀ a b c, (s.supersessionRun h calls).Supersedes a b →
        (s.supersessionRun h calls).Supersedes a c → b = c) ∧
      (∀ a b, (s.supersessionRun h calls).Supersedes a b → a < b) ∧
      (∀ a, ¬ Relation.TransGen (s.supersessionRun h calls).Supersedes a a) ∧
      (∀ a, ∃ n e, (s.supersessionRun h calls).EndsAt n a e) ∧
      ∀ now oldSeq newSeq rationale actor,
        (∀ t effectiveOld new eventSeq, (s.supersessionRun h calls).applySupersession h now oldSeq
            newSeq rationale actor = .ok (t, .applied effectiveOld new eventSeq) →
              Relation.ReflTransGen t.Supersedes oldSeq newSeq) ∧
        (∀ t message, (s.supersessionRun h calls).applySupersession h now oldSeq newSeq rationale
            actor = .ok (t, .rejected message) → t = s.supersessionRun h calls) ∧
        ∀ n e, (s.supersessionRun h calls).areDecisions [oldSeq, newSeq] = true →
          (s.supersessionRun h calls).EndsAt n oldSeq e → e < newSeq →
            (n ≤ 64 → ∃ t eventSeq, (s.supersessionRun h calls).applySupersession h now oldSeq newSeq
              rationale actor = .ok (t, .applied e newSeq eventSeq)) ∧
            (64 < n → (s.supersessionRun h calls).applySupersession h now oldSeq newSeq rationale
              actor = .ok (s.supersessionRun h calls, .rejected "supersession chain too deep")) := by
  have hup : (s.supersessionRun h calls).Upward := (upward_of_empty hempty).run hcalls
  generalize s.supersessionRun h calls = t at hup
  refine ⟨fun a b c hb hc => hb.unique hc, hup, fun a hcycle => ?_, hup.exists_endsAt,
    fun now old new rationale actor => ?_⟩
  · exact absurd (hup.lt_of_transGen hcycle) (lt_irrefl a)
  · refine ⟨fun t' e new' seq happlied => ?_, fun t' message hrejected => ?_, fun n e hd he hlt => ?_⟩
    · rcases hup.applySupersession_cases h now old new rationale actor with
        ⟨message, heq⟩ | ⟨n, e', seq', he, -, heq⟩
      · rw [heq] at happlied
        cases happlied
      · rw [heq] at happlied
        cases happlied
        exact reaches_withEdge he
    · rcases hup.applySupersession_cases h now old new rationale actor with
        ⟨message, heq⟩ | ⟨n, e', seq', he, -, heq⟩
      · rw [heq] at hrejected
        cases hrejected
        rfl
      · rw [heq] at hrejected
        cases hrejected
    · rw [applySupersession_of_endsAt hd he]
      constructor
      · intro hn
        rw [if_neg (show ¬ maxHops < n from not_lt.mpr hn), if_neg hlt.ne, if_neg (not_le.mpr hlt)]
        exact ⟨_, _, rfl⟩
      · intro hn
        rw [if_pos (show maxHops < n from hn)]

/-- The third approval supersedes the first, which was rescinded for the second,
at the second. -/
theorem supersession_forest_third :
    ∃ t eventSeq, ((approvals 3).supersessionRun Host.plain (rescissions 1)).applySupersession
      Host.plain 2 1 3 "newer" "ann" = .ok (t, .applied 2 3 eventSeq) :=
  (((supersession_forest Host.plain (approvals 3) (rescissions 1) (supersessions_approvals 3)
    (ordered_rescissions 1)).2.2.2.2 2 1 3 "newer" "ann").2.2 1 2
      (Store.areDecisions_rescissions (i := 1) (j := 3) ⟨le_rfl, by omega⟩ ⟨by omega, le_rfl⟩)
      (Store.endsAt_rescissions (supersessions_approvals 3) le_rfl rfl) (by omega)).1 (by omega)

open Store in
/-- The sixty-seventh approval comes after the end of the first one's chain, and
does not supersede it: the chain has sixty-five edges. -/
theorem longChain_not_applied :
    (approvals 67).supersessions.rows = [] ∧ (∀ call ∈ rescissions 65, call.Ordered) ∧
      ((approvals 67).supersessionRun Host.plain (rescissions 65)).areDecisions [1, 67] = true ∧
      ((approvals 67).supersessionRun Host.plain (rescissions 65)).EndsAt 65 1 66 ∧
      ((approvals 67).supersessionRun Host.plain (rescissions 65)).applySupersession Host.plain 2 1
          67 "newer" "ann" = .ok ((approvals 67).supersessionRun Host.plain (rescissions 65),
            .rejected "supersession chain too deep") := by
  have hend : ((approvals 67).supersessionRun Host.plain (rescissions 65)).EndsAt 65 1 66 :=
    endsAt_rescissions (supersessions_approvals 67) le_rfl rfl
  have hdecisions : ((approvals 67).supersessionRun Host.plain (rescissions 65)).areDecisions
      [1, 67] = true :=
    areDecisions_rescissions (i := 1) (j := 67) ⟨le_rfl, by omega⟩ ⟨by omega, le_rfl⟩
  refine ⟨supersessions_approvals 67, ordered_rescissions 65, hdecisions, hend, ?_⟩
  rw [applySupersession_of_endsAt hdecisions hend]
  exact if_pos (show (64 : ℕ) < 65 by omega)

end PolisMemory
