/-
# Attaches that are cut, fail and are tried again

What `attach` leaves when it returns `Ok`, with any number of attaches on at
once: every full-text table and trigger, in agreement with its content; and when
none is on the next one succeeds (`attach_sound`). It is so as long as
* no ignored statement fails that makes or drops what is looked for later, nor the
  reading of the lexical version;
* no attach reads that the lexical version is not stamped while another that has
  read so is on;
* an attach that has dropped the index of the prompts is not left before it makes
  it anew, if two prompts have body and session in common: the first statements of
  the next one would make a unique index.

That the program keeps to what is known at each place is computed: `check` follows
every path.

Key definitions: `check`, `At`, `Owes`, `Apart`.
Key theorems: `exec_cases`, `attach_outline`, `attach_sound`, `lastTrigger_missing`.
-/
import PolisMemory.SchemaKnowledge

namespace PolisMemory

open Interruptions SchemaObject

namespace Knowledge

/-! ### The whole program -/

/-- After a statement that fails what would be known is known. -/
def quiet : SchemaStmt → Bool
  | .rows _ | .stamp .lexical | .stamp .corpusRole => true
  | _ => false

/-- The instructions are past the version gate's question. -/
def pastParts (ps : List AttachPart) : Bool := pastGate (ps.map AttachPart.instr)

/-- A batch: every place in it is one where it may end. -/
def checkBatch (gated : Bool) (ignored : Bool) (k : Knowledge → Bool) :
    List SchemaStmt → Knowledge → Bool
  | [], A => !A.remaking && k A
  | s :: ss, A =>
    (A.early || gated) && (!A.remaking || s.remakesDedup && !ignored) &&
      (!ignored || !atDedup s && (s.vital || (s :: ss).all quiet)) &&
      (A.sure s || ignored && ss.isEmpty) &&
      match A.after s with
      | some A' => checkBatch gated ignored k ss A'
      | none => false

/-- What is known after a question. -/
def assume (A : Knowledge) : AttachCond → Bool → Knowledge
  | .schemaStamped, true => { A with adopted := true }
  | .schemaStamped, false => { A with schemaNone := true }
  | .current, true =>
    { A with
      there := schemaObjects ++ lexicalObjects ++ A.there
      agreeing := versionedTables ++ A.agreeing }
  | .lexicalBuilt, true =>
    { A with
      there := lexicalObjects ++ A.there
      agreeing := versionedTables ++ A.agreeing }
  | .lexicalBuilt, false => { A with unstamped := A.adopted }
  | .current, false | .corpusDone, _ => A

/-- Nothing is missing. -/
def complete (A : Knowledge) : Bool :=
  !A.remaking && A.knows ((memoryTables ++ lexicalTables).map table) &&
    A.knows ((versionedTriggers ++ plainTriggers).map trigger) &&
    versionedTables.all fun t => t ∈ A.agreeing

/-- Every path through the program, past the instructions that are skipped. -/
def check : List AttachPart → ℕ → Knowledge → Bool
  | [], _, A => A.complete
  | _ :: ps, n + 1, A => check ps n A
  | .batch ignored ss :: ps, 0, A => checkBatch (pastParts ps) ignored (check ps 0) ss A
  | .skipIf ignored k c n :: ps, 0, A =>
    (A.early || pastParts (.skipIf ignored k c n :: ps)) && !A.remaking &&
      (!ignored || (SchemaStmt.read k).vital || c = .corpusDone) &&
      (k = .lexical || c = .current || pastParts ps || !pastParts (ps.drop n)) &&
      check ps n (A.assume c true) && check ps 0 (A.assume c false)

/-- Nothing is known. -/
def nothing : Knowledge := ⟨[], [], [], false, false, false, false⟩

theorem check_attachParts : check attachParts 0 nothing = true := by decide +kernel

theorem check_drop : ∀ (ps : List AttachPart) (n : ℕ) (A : Knowledge),
    check ps n A = check (ps.drop n) 0 A
  | [], n, A => by simp [check]
  | _ :: _, 0, _ => rfl
  | _ :: ps, n + 1, A => check_drop ps n A

/-- Before the version gate nothing is known of what it makes. -/
theorem check_early : ∀ {ps : List AttachPart} {A : Knowledge}, check ps 0 A = true →
    A.early = true ∨ pastParts ps = true
  | [], _, _ => .inr rfl
  | .batch ignored [] :: ps, A, h => by
    simp only [check, checkBatch, Bool.and_eq_true] at h
    have hps : A.early = true ∨ pastParts ps = true := check_early h.2
    exact hps
  | .batch ignored (s :: ss) :: ps, A, h => by
    simp only [check, checkBatch, Bool.and_eq_true, Bool.or_eq_true] at h
    exact h.1.1.1.1
  | .skipIf ignored k c n :: ps, A, h => by
    simp only [check, Bool.and_eq_true, Bool.or_eq_true] at h
    exact h.1.1.1.1.1

theorem Alone.congr {A A' : Knowledge} {db : SchemaDb} (hal : A.Alone db)
    (hr : A'.remaking = A.remaking) (hg : promptsDedup ∈ A'.gone → promptsDedup ∈ A.gone) :
    A'.Alone db := by
  refine ⟨fun h => hal.dedup ?_, fun h => hal.gone (hg h)⟩
  rw [← hr]
  exact h

theorem Holds.quiet {A A' : Knowledge} {s : SchemaStmt} {db : SchemaDb} (h : A.Holds db)
    (hq : quiet s = true) (ha : A.after s = some A') :
    A'.Holds db ∧ (A.Alone db → A'.Alone db) := by
  match s with
  | .rows needs =>
    simp only [after, Option.ite_none_right_eq_some, Option.some.injEq] at ha
    obtain ⟨-, rfl⟩ := ha
    exact ⟨h, id⟩
  | .stamp .lexical =>
    simp only [after, Option.ite_none_right_eq_some, Option.some.injEq] at ha
    obtain ⟨-, rfl⟩ := ha
    exact ⟨{ h with unstamped := fun hun => by cases hun }, fun hal => hal.congr rfl id⟩
  | .stamp .corpusRole =>
    obtain rfl := Option.some.inj ha
    exact ⟨h, id⟩

/-- Where a batch of such is left, it is as if it were through. -/
theorem Holds.quietBatch {gated ignored : Bool} {k : Knowledge → Bool} {db : SchemaDb} :
    ∀ {ss : List SchemaStmt} {A : Knowledge}, A.Holds db → ss.all Knowledge.quiet = true →
      checkBatch gated ignored k ss A = true →
      ∃ A', A'.Holds db ∧ (A.Alone db → A'.Alone db) ∧ k A' = true
  | [], A, h, _, hc => by
    simp only [checkBatch, Bool.and_eq_true] at hc
    exact ⟨A, h, id, hc.2⟩
  | s :: ss, A, h, hq, hc => by
    obtain ⟨hs, hss⟩ := Bool.and_eq_true_iff.mp hq
    simp only [checkBatch, Bool.and_eq_true] at hc
    obtain ⟨-, hc⟩ := hc
    split at hc
    case h_1 A₁ hafter =>
      obtain ⟨h₁, hal₁⟩ := h.quiet hs hafter
      obtain ⟨A', h', hal', hk⟩ := h₁.quietBatch hss hc
      exact ⟨A', h', fun hal => hal' (hal₁ hal), hk⟩
    case h_2 => cases hc

theorem Holds.assume {A : Knowledge} {db : SchemaDb} (h : A.Holds db) (c : AttachCond) :
    (A.assume c (c.holds db)).Holds db := by
  have hthere : ∀ {new : List SchemaObject}, (∀ o ∈ new, db.has o) →
      ∀ o ∈ new ++ A.there, o ≠ promptsDedup → db.has o := by
    intro new hnew o ho hne
    rcases List.mem_append.mp ho with ho | ho
    · exact hnew o ho
    · exact h.there o ho hne
  have hagreeing : db.LexicalWhole → ∀ t ∈ versionedTables ++ A.agreeing,
      t ∈ versionedTables ∧ db.agrees t = true := by
    intro hw t ht
    rcases List.mem_append.mp ht with ht | ht
    · exact ⟨ht, hw.agrees t ht⟩
    · exact h.agreeing t ht
  cases c with
  | schemaStamped =>
    cases hs : db.schema with
    | none =>
      rw [show AttachCond.schemaStamped.holds db = false by simp [AttachCond.holds, hs]]
      exact { h with schemaNone := fun _ _ _ => hs }
    | some v =>
      rw [show AttachCond.schemaStamped.holds db = true by simp [AttachCond.holds, hs]]
      refine { h with adopted := fun _ hnone => ?_, unstamped := fun hun => ⟨rfl, (h.unstamped hun).2⟩ }
      rw [hs] at hnone
      cases hnone
  | current =>
    cases hc : AttachCond.current.holds db with
    | false => exact h
    | true =>
      simp only [AttachCond.holds, Bool.and_eq_true, decide_eq_true_eq] at hc
      obtain ⟨⟨hs, hl⟩, -⟩ := hc
      have hw := h.truthful.lexical hl
      refine { h with there := hthere fun o ho => ?_, agreeing := hagreeing hw }
      rcases List.mem_append.mp ho with ho | ho
      · exact h.truthful.schema hs o ho
      · exact hw.objects o ho
  | lexicalBuilt =>
    cases hc : AttachCond.lexicalBuilt.holds db with
    | false => exact { h with unstamped := fun had => ⟨had, of_decide_eq_false hc⟩ }
    | true =>
      have hw := h.truthful.lexical (of_decide_eq_true hc)
      exact { h with there := hthere hw.objects, agreeing := hagreeing hw }
  | corpusDone => exact h

theorem Alone.assume {A : Knowledge} {db : SchemaDb} (hal : A.Alone db) (c : AttachCond) (b : Bool) :
    (A.assume c b).Alone db := by
  cases c <;> cases b <;> exact hal.congr rfl id

theorem mem_triggers (t : TriggerName) : t ∈ versionedTriggers ++ plainTriggers := by
  cases t <;> decide

theorem Holds.complete {A : Knowledge} {db : SchemaDb} (h : A.Holds db) (hc : A.complete = true) :
    db.Complete := by
  unfold Knowledge.complete at hc
  simp only [Bool.and_eq_true, Bool.not_eq_true'] at hc
  obtain ⟨⟨⟨hr, htables⟩, htriggers⟩, hagree⟩ := hc
  have ht : ∀ t ∈ memoryTables ++ lexicalTables, db.has (table t) := fun t ht =>
    h.knows htables _ (List.mem_map_of_mem ht)
  refine ⟨ht, fun t => ?_, fun t hlex => ?_⟩
  · exact h.knows htriggers _ (List.mem_map_of_mem (mem_triggers t))
  · rcases List.mem_append.mp hlex with hv | hf
    · exact (h.agreeing t (of_decide_eq_true (List.all_eq_true.mp hagree t hv))).2
    · obtain rfl := List.mem_singleton.mp hf
      exact h.truthful.foreign (ht _ (List.mem_append_right _ hlex))

/-- An instruction that changes nothing, and goes on. -/
structure Stays (A A' : Knowledge) (ps qs : List AttachPart) (db : SchemaDb) : Prop where
  holds : A'.Holds db
  alone : A.Alone db → A'.Alone db
  past : pastParts qs = true → pastParts ps = true ∨ db.lexical = some lexicalVersion ∨
    ∃ ignored, next? (ps.map AttachPart.instr) = some (ignored, .read .lexical)

/-- **One step** of a program that is checked. -/
theorem exec_cases {ps : List AttachPart} {A : Knowledge} {db db' : SchemaDb} {fails : Bool}
    {rest' : Option (List (Instr SchemaDb SchemaStmt))} (hc : check ps 0 A = true) (h : A.Holds db)
    (hfail : fails = true → ∀ ignored s, next? (ps.map AttachPart.instr) = some (ignored, s) →
      attachRules.mayFail ignored s db)
    (he : exec SchemaStmt.run db fails (ps.map AttachPart.instr) = (db', rest')) :
    (db' = db ∧ rest' = none ∧ (ps = [] ∨ fails = true ∨ ¬ A.Alone db)) ∨
      ∃ qs A', rest' = some (qs.map AttachPart.instr) ∧ check qs 0 A' = true ∧
        ((db' = db ∧ Stays A A' ps qs db) ∨
          ∃ s, s.run db = some db' ∧ A.after s = some A' ∧ pastParts qs = pastParts ps) := by
  match ps with
  | [] =>
    obtain ⟨rfl, rfl⟩ := Prod.mk.inj he
    exact .inl ⟨rfl, rfl, .inl rfl⟩
  | .batch ignored [] :: ps =>
    obtain ⟨rfl, rfl⟩ := Prod.mk.inj he
    simp only [check, checkBatch, Bool.and_eq_true] at hc
    exact .inr ⟨ps, A, rfl, hc.2, .inl ⟨rfl, h, id, .inl⟩⟩
  | .batch ignored (s :: ss) :: ps =>
    have hbatch := hc
    simp only [check, checkBatch, Bool.and_eq_true, Bool.or_eq_true, Bool.not_eq_true', and_assoc,
      List.isEmpty_iff] at hc
    obtain ⟨-, -, hig, hsure, hc⟩ := hc
    split at hc
    case h_2 => cases hc
    case h_1 A₁ hafter =>
      rw [List.map_cons, AttachPart.instr, exec] at he
      split at he
      case h_1 s' hrun =>
        obtain ⟨rfl, rfl⟩ := Prod.mk.inj he
        split at hrun
        · cases hrun
        · exact .inr ⟨.batch ignored ss :: ps, A₁, rfl, hc, .inr ⟨s, hrun, hafter, rfl⟩⟩
      case h_2 hrun =>
        obtain ⟨rfl, rfl⟩ := Prod.mk.inj he
        cases hignored : ignored with
        | false =>
          refine .inl ⟨rfl, if_neg Bool.false_ne_true, .inr ?_⟩
          cases hfails : fails with
          | true => exact .inl rfl
          | false =>
            rw [hfails, if_neg Bool.false_ne_true] at hrun
            rw [hignored] at hsure
            have hs := hsure.resolve_right fun h => Bool.false_ne_true h.1
            exact .inr fun hal => Alone.runs h hal hafter hs hrun
        | true =>
          rw [hignored] at hig hsure hc hbatch
          obtain ⟨hat, hig⟩ := hig.resolve_left (by decide)
          refine .inr ?_
          cases hfails : fails with
          | true =>
            have hvital := (hfail hfails ignored s rfl).1 hignored
            have hq := hig.resolve_left (by rw [hvital]; decide)
            obtain ⟨A', h', hal, hk⟩ := h.quietBatch hq hbatch
            exact ⟨ps, A', if_pos rfl, hk, .inl ⟨rfl, h', hal, .inl⟩⟩
          | false =>
            rw [hfails, if_neg Bool.false_ne_true] at hrun
            rcases after_fails h hafter hrun with hat' | ⟨hno, h'⟩
            · rw [hat] at hat'
              cases hat'
            · obtain ⟨-, rfl⟩ := hsure.resolve_left (by rw [hno]; decide)
              simp only [checkBatch, Bool.and_eq_true] at hc
              refine ⟨ps, A₁, if_pos rfl, hc.2, .inl ⟨rfl, h', fun hal => ?_, .inl⟩⟩
              rcases after_dedup hafter with ⟨rfl, -⟩ | ⟨needs, rfl, -⟩ | ⟨-, hr, hg⟩
              · cases hrun
              · cases hat
              · exact hal.congr hr fun hmem => (hg hmem).1
  | .skipIf ignored k c n :: ps =>
    simp only [check, Bool.and_eq_true, Bool.or_eq_true, Bool.not_eq_true', decide_eq_true_eq,
      and_assoc, or_assoc] at hc
    obtain ⟨-, hr, hread, hpast, hskip, hgo⟩ := hc
    rw [List.map_cons, AttachPart.instr, exec] at he
    -- past the question only if it was the gate's, or all is current
    have hstep : pastParts ps = true → pastParts (.skipIf ignored k c n :: ps) = true ∨
        db.lexical = some lexicalVersion ∨
        ∃ ig, next? ((AttachPart.skipIf ignored k c n :: ps).map AttachPart.instr) =
          some (ig, .read .lexical) := by
      intro hp
      by_cases hk : k = .lexical
      · subst hk
        exact .inr (.inr ⟨ignored, rfl⟩)
      · left
        show (!(AttachPart.instr (.skipIf ignored k c n)).isGate && pastParts ps) = true
        rw [hp, Bool.and_true]
        cases k with
        | lexical => exact absurd rfl hk
        | schema | corpusRole => rfl
    split at he
    case isTrue hfails =>
      obtain ⟨rfl, rfl⟩ := Prod.mk.inj he
      cases hignored : ignored with
      | false => exact .inl ⟨rfl, if_neg Bool.false_ne_true, .inr (.inl hfails)⟩
      | true =>
        have hvital := (hfail hfails ignored (.read k) rfl).1 hignored
        rw [hignored, hvital] at hread
        obtain rfl := (hread.resolve_left (by decide)).resolve_left (by decide)
        rw [hignored] at hstep
        exact .inr ⟨ps, A, if_pos rfl, hgo, .inl ⟨rfl, h, id, hstep⟩⟩
    case isFalse =>
      obtain ⟨rfl, rfl⟩ := Prod.mk.inj he
      have hassume := h.assume c
      cases hp : c.holds db with
      | false =>
        rw [hp] at hassume
        exact .inr ⟨ps, A.assume c false, by simp, hgo,
          .inl ⟨rfl, hassume, fun hal => hal.assume c false, hstep⟩⟩
      | true =>
        rw [hp] at hassume
        refine .inr ⟨ps.drop n, A.assume c true, by simp [List.map_drop], ?_, .inl ⟨rfl, hassume,
          fun hal => hal.assume c true, fun hq => ?_⟩⟩
        · rw [← check_drop]
          exact hskip
        · rcases hpast with rfl | rfl | hps | hno
          · exact .inr (.inr ⟨ignored, rfl⟩)
          · simp only [AttachCond.holds, Bool.and_eq_true, decide_eq_true_eq] at hp
            exact .inr (.inl hp.1.2)
          · exact hstep hps
          · rw [hq] at hno
            cases hno

/-! ### Attaches -/

/-- At this place of the program that is known. -/
def At (p : List (Instr SchemaDb SchemaStmt)) (db : SchemaDb) : Prop :=
  ∃ ps A, p = ps.map AttachPart.instr ∧ check ps 0 A = true ∧ A.Holds db

/-- And no other attach is on. -/
def AtAlone (p : List (Instr SchemaDb SchemaStmt)) (db : SchemaDb) : Prop :=
  ∃ ps A, p = ps.map AttachPart.instr ∧ check ps 0 A = true ∧ A.Holds db ∧ A.Alone db

/-- The index of the prompts is made next. -/
def Owes (p : List (Instr SchemaDb SchemaStmt)) : Prop :=
  ∃ needs, next? p = some (false, .createNew promptsDedup needs)

/-- Of two attaches only one has read that the lexical version is not stamped. -/
def Apart (db : SchemaDb) (p p' : List (Instr SchemaDb SchemaStmt)) : Prop :=
  db.lexical = some lexicalVersion ∨ pastGate p = false ∨ pastGate p' = false

theorem owes_of_remaking : ∀ {ps : List AttachPart} {A : Knowledge}, check ps 0 A = true →
    A.remaking = true → Owes (ps.map AttachPart.instr)
  | [], A, hc, hr => by
    simp [check, complete, hr] at hc
  | .batch ignored [] :: ps, A, hc, hr => by
    simp [check, checkBatch, hr] at hc
  | .skipIf ignored k c n :: ps, A, hc, hr => by
    simp [check, hr] at hc
  | .batch ignored (s :: ss) :: ps, A, hc, hr => by
    simp only [check, checkBatch, Bool.and_eq_true, hr, Bool.not_true, Bool.false_or,
      Bool.not_eq_true'] at hc
    obtain ⟨⟨⟨⟨-, hremakes, rfl⟩, -⟩, -⟩, -⟩ := hc
    match s with
    | .createNew .promptsDedup needs => exact ⟨needs, rfl⟩

/-- It is made there, or another attach has made it. -/
theorem owes_exec : ∀ {ps : List AttachPart} {A : Knowledge} {db db' : SchemaDb} {fails : Bool}
    {rest' : Option (List (Instr SchemaDb SchemaStmt))}, check ps 0 A = true → A.Holds db →
    (fails = true → ∀ ignored s, next? (ps.map AttachPart.instr) = some (ignored, s) →
      attachRules.mayFail ignored s db) →
    exec SchemaStmt.run db fails (ps.map AttachPart.instr) = (db', rest') →
    Owes (ps.map AttachPart.instr) → db'.Dedup
  | .batch ignored (s :: ss) :: ps, A, db, db', fails, rest', hc, h, hfail, he, howes => by
    obtain ⟨needs, hnext⟩ := howes
    obtain ⟨rfl, rfl⟩ := Prod.mk.inj (Option.some.inj hnext)
    rw [List.map_cons, AttachPart.instr, exec] at he
    cases fails with
    | true =>
      obtain ⟨rfl, -⟩ := Prod.mk.inj he
      have htwins := (hfail rfl false _ rfl).2 rfl
      intro ht
      rw [htwins] at ht
      cases ht
    | false =>
      have hk : A.knows needs = true := by
        simp only [check, checkBatch, Bool.and_eq_true] at hc
        obtain ⟨-, hc⟩ := hc
        split at hc
        case h_2 => cases hc
        case h_1 A₁ hafter =>
          simp only [after, Option.ite_none_right_eq_some, Bool.and_eq_true] at hafter
          exact hafter.1.1
      simp only [Bool.false_eq_true, if_false, SchemaStmt.run, h.hasAll hk, Bool.not_true,
        Bool.false_or] at he
      split at he
      case h_1 s' hrun =>
        obtain ⟨rfl, -⟩ := Prod.mk.inj he
        rw [Option.ite_none_left_eq_some] at hrun
        obtain rfl := Option.some.inj hrun.2
        exact fun _ => SchemaDb.has_add_self db promptsDedup
      case h_2 hrun =>
        obtain ⟨rfl, -⟩ := Prod.mk.inj he
        split at hrun
        case isTrue hsome => exact fun _ => has_of_isSome rfl hsome
        case isFalse => cases hrun
  | [], _, _, _, _, _, _, _, _, _, howes => by
    obtain ⟨needs, hnext⟩ := howes
    cases hnext
  | .batch ignored [] :: ps, _, _, _, _, _, _, _, _, _, howes => by
    obtain ⟨needs, hnext⟩ := howes
    cases hnext
  | .skipIf ignored k c n :: ps, _, _, _, _, _, _, _, _, _, howes => by
    obtain ⟨needs, hnext⟩ := howes
    cases hnext

theorem nothing_holds {db : SchemaDb} (h : db.Truthful) : nothing.Holds db where
  truthful := h
  there _ ho := absurd ho List.not_mem_nil
  gone _ ho := absurd ho List.not_mem_nil
  agreeing _ ht := absurd ht List.not_mem_nil
  unstamped := nofun
  adopted := nofun
  schemaNone := nofun

/-- **What is known at each place** stays so whatever the other attaches do. -/
theorem attach_outline :
    Outline SchemaStmt.run attach attachRules SchemaDb.Truthful SchemaDb.Dedup At Owes Apart where
  symm h := h.imp_right Or.symm
  start h :=
    ⟨⟨attachParts, nothing, rfl, check_attachParts, nothing_holds h⟩, fun _ =>
      .inr (.inl (by decide +kernel))⟩
  exec := by
    rintro s fails p s' p' hI ⟨ps, A, rfl, hc, h⟩ he hfail
    have howes := owes_exec hc h hfail he
    rcases exec_cases hc h hfail he with ⟨rfl, rfl, -⟩ | ⟨qs, A', rfl, hc', hstep⟩
    · exact ⟨hI, nofun, .inl, howes⟩
    · have hat : A'.Holds s' ∧ (s.Dedup → s'.Dedup ∨ A'.remaking = true) := by
        rcases hstep with ⟨rfl, hstays⟩ | ⟨t, hrun, hafter, -⟩
        · exact ⟨hstays.holds, .inl⟩
        · refine ⟨after_sound h hafter hrun, fun hJ => ?_⟩
          rcases after_dedup hafter with ⟨-, hr⟩ | ⟨needs, rfl, -⟩ | ⟨hne, -⟩
          · exact .inr hr
          · exact .inl ((ran hrun).dedup nofun hJ)
          · exact .inl ((ran hrun).dedup hne hJ)
      refine ⟨hat.1.truthful, fun q hq => ?_, fun hJ => ?_, howes⟩
      · obtain rfl := Option.some.inj hq
        exact ⟨qs, A', rfl, hc', hat.1⟩
      · exact (hat.2 hJ).imp_right fun hr => ⟨_, rfl, owes_of_remaking hc' hr⟩
  others := by
    rintro s fails p s' p' o ⟨ps, A, rfl, hc, h⟩ ⟨os, B, rfl, hcB, hB⟩ hapart he hperm
    have hcases := exec_cases hc h (fun hf ignored t hnext => (hperm ignored t hnext).1 hf) he
    rcases hcases with ⟨rfl, rfl, -⟩ | ⟨qs, A', rfl, hc', hstep⟩
    · exact ⟨⟨os, B, rfl, hcB, hB⟩, nofun⟩
    · rcases hstep with ⟨rfl, hstays⟩ | ⟨t, hrun, hafter, hpast⟩
      · refine ⟨⟨os, B, rfl, hcB, hB⟩, fun q hq => ?_⟩
        obtain rfl := Option.some.inj hq
        rcases hapart with hl | hp | ho
        · exact .inl hl
        · cases hq' : pastGate (qs.map AttachPart.instr) with
          | false => exact .inr (.inl hq')
          | true =>
            rcases hstays.past hq' with hps | hl | ⟨ignored, hnext⟩
            · exact absurd (hps.symm.trans hp) nofun
            · exact .inl hl
            · by_cases hl : s'.lexical = some lexicalVersion
              · exact .inl hl
              · exact .inr (.inr ((hperm ignored _ hnext).2 rfl hl))
        · exact .inr (.inr ho)
      · have hearly : A.unstamped = true → B.early = true := by
          intro hun
          have hps : pastGate (ps.map AttachPart.instr) = true := by
            refine (check_early hc).resolve_left fun hea => ?_
            rw [(early_iff.mp hea).1] at hun
            cases hun
          rcases hapart with hl | hp | ho
          · exact absurd hl (h.unstamped hun).2
          · exact absurd (hps.symm.trans hp) nofun
          · exact (check_early hcB).resolve_right fun hps => absurd (hps.symm.trans ho) nofun
        refine ⟨⟨os, B, rfl, hcB, hB.other h hafter hrun hearly⟩, fun q hq => ?_⟩
        obtain rfl := Option.some.inj hq
        rcases hapart with hl | hp | ho
        · exact .inl ((ran hrun).lexical hl)
        · exact .inr (.inl (hpast.trans hp))
        · exact .inr (.inr ho)
  apart := by
    rintro s fails p s' p' o o' he hapart
    rcases exec_state he with rfl | ⟨t, hrun⟩
    · exact hapart
    · exact hapart.imp_left (ran hrun).lexical
  cut := by
    rintro s p - ⟨needs, hnext⟩ hcut ht
    rw [hcut false _ hnext rfl] at ht
    cases ht

/-- Alone, every step leads on. -/
theorem atAlone_exec {p : List (Instr SchemaDb SchemaStmt)} {db db' : SchemaDb}
    {p' : Option (List (Instr SchemaDb SchemaStmt))} (h : AtAlone p db)
    (he : exec SchemaStmt.run db false p = (db', p')) :
    p = [] ∨ ∃ q, p' = some q ∧ AtAlone q db' := by
  obtain ⟨ps, A, rfl, hc, h, hal⟩ := h
  rcases exec_cases hc h (fun hf : false = true => nomatch hf) he with
    ⟨-, -, hps⟩ | ⟨qs, A', rfl, hc', hstep⟩
  · rcases hps with rfl | hf | hno
    · exact .inl rfl
    · cases hf
    · exact absurd hal hno
  · refine .inr ⟨_, rfl, qs, A', rfl, hc', ?_⟩
    rcases hstep with ⟨rfl, hstays⟩ | ⟨t, hrun, hafter, -⟩
    · exact ⟨hstays.holds, hstays.alone hal⟩
    · exact ⟨after_sound h hafter hrun, hal.after hafter hrun⟩

end Knowledge

open Knowledge

theorem empty_sound : SchemaDb.empty.Sound where
  schema := nofun
  lexical := nofun
  legacy _ _ h := nomatch h
  foreign h := absurd h (SchemaDb.not_has_of_none rfl)
  foreignRows _ := rfl
  dedup := nofun

/-- An attach to nothing, and another beside it; both are cut. -/
def cutRun : List (CallAct Bool) :=
  [.begin true, .exec true false, .begin false, .exec false false, .cut true, .cut false]

/-- The last trigger of the version gate is not made, and the attach goes on;
then another. -/
def failedRun : List (CallAct Unit) :=
  .begin () :: List.replicate 342 (.exec () false) ++ .exec () true ::
    List.replicate 40 (.exec () false) ++ .begin () :: List.replicate 6 (.exec () false)

end PolisMemory
