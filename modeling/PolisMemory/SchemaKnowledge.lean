/-
# What an attach knows

What a schema's versions stand for (`Truthful`), what an attach leaves that
returns `Ok` (`Complete`), and what is known of the schema at a place of the
program whatever other attaches do: `Knowledge`, and what is known after a
statement, `Knowledge.after`. Another attach's statement leaves it so, unless both
have found the lexical version not stamped (`Holds.other`).

Key definitions: `Truthful`, `Sound`, `Complete`, `attachRules`, `Knowledge`.
Key theorems: `after_sound`, `Holds.other`, `Alone.runs`.
-/
import PolisMemory.Migration

namespace PolisMemory

open Interruptions SchemaObject

/-! ### What is there -/

/-- Made and dropped by the version gate. -/
def SchemaObject.versioned : SchemaObject → Bool
  | table t => t ∈ versionedTables
  | trigger t => t ∈ versionedTriggers
  | _ => false

/-- What the schema's version stands for. -/
def schemaObjects : List SchemaObject :=
  memoryTables.map table ++ table .foreignPromptsFts :: plainTriggers.map trigger

/-- What the lexical version stands for. -/
def lexicalObjects : List SchemaObject :=
  versionedTables.map table ++ versionedTriggers.map trigger ++
    [column .ftsText, column .ftsHead, column .ftsTail]

namespace SchemaDb

/-- It is there; what the version gate makes, as this version makes it. -/
def has (db : SchemaDb) (o : SchemaObject) : Prop :=
  if o.versioned then db.defs o = some .current else (db.defs o).isSome = true

/-- The lexical layer is whole. -/
structure LexicalWhole (db : SchemaDb) : Prop where
  objects : ∀ o ∈ lexicalObjects, db.has o
  agrees : ∀ t ∈ versionedTables, db.agrees t = true

/-- The host's lexical version is not to be taken over, or was. -/
def HostDone (db : SchemaDb) : Prop :=
  db.schema = none → db.lexical = none → db.legacyLexical ≠ some lexicalVersion

/-- A version that is stamped stands for what is there, the host's too, and the
index of the foreign bodies has them. -/
structure Truthful (db : SchemaDb) : Prop where
  schema : db.schema = some storeSchemaVersion → ∀ o ∈ schemaObjects, db.has o
  lexical : db.lexical = some lexicalVersion → db.LexicalWhole
  legacy : db.schema = none → db.lexical = none → db.legacyLexical = some lexicalVersion →
    db.LexicalWhole
  foreign : db.has (table .foreignPromptsFts) → db.agrees .foreignPromptsFts = true
  foreignRows : ¬ db.has (table .foreignPromptsFts) → db.hasRows .foreignPrompts = false

/-- Two prompts with the same body and session are under an index that is not
unique. -/
def Dedup (db : SchemaDb) : Prop := db.twins = true → db.has promptsDedup

/-- What an attach may find. -/
structure Sound (db : SchemaDb) : Prop extends Truthful db where
  dedup : db.Dedup

/-- Every table, every full-text table and every trigger is there, and the
indexes have what their content has. -/
structure Complete (db : SchemaDb) : Prop where
  tables : ∀ t ∈ memoryTables ++ lexicalTables, db.has (table t)
  triggers : ∀ t, db.has (trigger t)
  agrees : ∀ t ∈ lexicalTables, db.agrees t = true

theorem has.isSome {db : SchemaDb} {o : SchemaObject} (h : db.has o) : (db.defs o).isSome = true := by
  unfold has at h
  split at h
  · rw [h]
    rfl
  · exact h

theorem not_has_of_none {db : SchemaDb} {o : SchemaObject} (h : db.defs o = none) : ¬ db.has o := by
  intro hhas
  have := hhas.isSome
  rw [h] at this
  cases this

theorem has_add_self (db : SchemaDb) (o : SchemaObject) : (db.add o).has o := by
  unfold has add
  simp

theorem has_add {db : SchemaDb} {o o' : SchemaObject} (h : db.has o') : (db.add o).has o' := by
  by_cases ho : o' = o
  · subst ho
    exact has_add_self db o'
  · unfold has add at *
    simpa [Function.update_of_ne ho] using h

theorem has_of_has_add {db : SchemaDb} {o o' : SchemaObject} (ho : o' ≠ o) (h : (db.add o).has o') :
    db.has o' := by
  unfold has add at *
  simpa [Function.update_of_ne ho] using h

theorem agrees_add {db : SchemaDb} {o : SchemaObject} {t : TableName} (ho : o ≠ table t) :
    (db.add o).agrees t = db.agrees t := if_neg ho

theorem LexicalWhole.add {db : SchemaDb} {o : SchemaObject} (hnone : db.defs o = none)
    (h : db.LexicalWhole) : (db.add o).LexicalWhole where
  objects o' ho' := has_add (h.objects o' ho')
  agrees t ht := by
    have hmem : table t ∈ lexicalObjects :=
      List.mem_append_left _ (List.mem_append_left _ (List.mem_map_of_mem ht))
    have ho : o ≠ table t := by
      rintro rfl
      exact not_has_of_none hnone (h.objects _ hmem)
    rw [agrees_add ho]
    exact h.agrees t ht

/-- Making what was not there leaves the versions true. -/
theorem Truthful.add {db : SchemaDb} {o : SchemaObject} (hnone : db.defs o = none)
    (h : db.Truthful) : (db.add o).Truthful where
  schema hs o' ho' := has_add (h.schema hs o' ho')
  lexical hl := (h.lexical hl).add hnone
  legacy hs hl hhost := (h.legacy hs hl hhost).add hnone
  foreign hhas := by
    by_cases ho : o = table .foreignPromptsFts
    · -- it is made while there are no foreign bodies
      subst ho
      have hrows := h.foreignRows (not_has_of_none hnone)
      unfold SchemaDb.add
      simp only [if_true, contentOf, hrows]
      rfl
    · rw [agrees_add ho]
      exact h.foreign (has_of_has_add (Ne.symm ho) hhas)
  foreignRows hnot := h.foreignRows fun hhas => hnot (has_add hhas)

end SchemaDb

/-! ### What may happen -/

namespace SchemaStmt

/-- It makes the index of the prompts anew, which was dropped before. -/
def remakesDedup : SchemaStmt → Bool
  | .createNew .promptsDedup _ => true
  | _ => false

/-- It makes or drops what a later statement looks for, or reads what the
version gate goes by. -/
def vital : SchemaStmt → Bool
  | .create _ _ | .createNew _ _ | .createUnique | .drop _ | .rebuild _ _ | .read .lexical => true
  | _ => false

end SchemaStmt

/-- The version gate asks there. -/
def Interruptions.Instr.isGate : Instr SchemaDb SchemaStmt → Bool
  | .skipIf _ (.read .lexical) _ _ => true
  | _ => false

/-- The lexical version has been read. -/
def pastGate (p : List (Instr SchemaDb SchemaStmt)) : Bool := p.all fun instr => !instr.isGate

/-- What may happen to an attach: of the statements whose failure is ignored,
none that is vital fails; it is not left before the index is made anew, if there
are twins; and it does not read that the lexical version is not stamped while
another has. -/
def attachRules : Rules SchemaDb SchemaStmt where
  mayCut s db := s.remakesDedup = true → db.twins = false
  mayFail ignored s db :=
    (ignored = true → s.vital = false) ∧ (s.remakesDedup = true → db.twins = false)
  mayMeet s db p := s = .read .lexical → db.lexical ≠ some lexicalVersion → pastGate p = false

/-! ### What is known -/

/-- What is known at a place of the program. -/
structure Knowledge where
  there : List SchemaObject
  gone : List SchemaObject
  agreeing : List TableName
  /-- The version gate is passed, with no version stamped. -/
  unstamped : Bool
  adopted : Bool
  /-- The host's version is there to be taken over only if no schema is stamped. -/
  schemaNone : Bool
  /-- The index of the prompts is to be made anew. -/
  remaking : Bool

namespace Knowledge

/-- What it says of a database, whatever other attaches do. -/
structure Holds (A : Knowledge) (db : SchemaDb) : Prop where
  truthful : db.Truthful
  there : ∀ o ∈ A.there, o ≠ promptsDedup → db.has o
  gone : ∀ o ∈ A.gone, o ≠ promptsDedup → o.versioned = true ∧ db.defs o = none
  agreeing : ∀ t ∈ A.agreeing, t ∈ versionedTables ∧ db.agrees t = true
  unstamped : A.unstamped = true → A.adopted = true ∧ db.lexical ≠ some lexicalVersion
  adopted : A.adopted = true → db.HostDone
  schemaNone : A.schemaNone = true → db.lexical = none →
    db.legacyLexical = some lexicalVersion → db.schema = none

/-- What it says too when no other is on. -/
structure Alone (A : Knowledge) (db : SchemaDb) : Prop where
  dedup : A.remaking = false → db.Dedup
  gone : promptsDedup ∈ A.gone → db.defs promptsDedup = none

/-- These are there. -/
def knows (A : Knowledge) (needs : List SchemaObject) : Bool :=
  needs.all fun o => o ∈ A.there && o ≠ promptsDedup

/-- It is there now. -/
def make (A : Knowledge) (o : SchemaObject) : Knowledge :=
  { A with
    there := o :: A.there
    gone := A.gone.filter fun o' => o' ≠ o
    agreeing := A.agreeing.filter fun t => o ≠ table t }

/-- It is known to be gone, and only this attach may make it. -/
def mayRemake (A : Knowledge) (o : SchemaObject) : Bool :=
  o ∈ A.gone && (o = promptsDedup || A.unstamped)

/-- What is known after a statement. -/
def after (A : Knowledge) : SchemaStmt → Option Knowledge
  | .create o needs =>
    if A.knows needs && !o.versioned && o ≠ promptsDedup then some (A.make o) else none
  | .createNew o needs =>
    if A.knows needs && (A.mayRemake o || !o.versioned && o ≠ promptsDedup) then
      some { A.make o with remaking := A.remaking && o ≠ promptsDedup }
    else none
  | .createUnique => if A.remaking || promptsDedup ∈ A.gone then none else some A
  | .drop o =>
    if o = promptsDedup || o.versioned && A.unstamped then
      some { A with
        there := A.there.filter fun o' => o' ≠ o
        gone := o :: A.gone
        remaking := A.remaking || o = promptsDedup }
    else none
  | .rebuild t needs =>
    if t ∈ versionedTables && A.knows (table t :: needs) then
      some { A with agreeing := t :: A.agreeing }
    else none
  | .rows needs => if A.knows needs then some A else none
  | .stamp .schema =>
    if A.knows schemaObjects && A.adopted then some { A with schemaNone := false } else none
  | .stamp .lexical =>
    if A.knows lexicalObjects && versionedTables.all (fun t => t ∈ A.agreeing) && A.unstamped then
      some { A with unstamped := false }
    else none
  | .adopt .lexical =>
    if A.schemaNone then some { A with unstamped := false, adopted := true } else none
  | .verify => if A.knows ((memoryTables ++ lexicalTables).map table) then some A else none
  | .read _ | .stamp .corpusRole | .adopt _ => some A

/-- It succeeds of itself, unless another attach has been at the index of the
prompts. -/
def sure (A : Knowledge) : SchemaStmt → Bool
  | .createNew o _ => A.mayRemake o
  | _ => true

/-- Another attach may make it fail. -/
def atDedup : SchemaStmt → Bool
  | .createNew .promptsDedup _ | .createUnique => true
  | _ => false

theorem Holds.knows {A : Knowledge} {db : SchemaDb} (h : A.Holds db) {needs : List SchemaObject}
    (hk : A.knows needs = true) : ∀ o ∈ needs, db.has o := by
  intro o ho
  have hmem := List.all_eq_true.mp hk o ho
  simp only [Bool.and_eq_true, decide_eq_true_eq] at hmem
  exact h.there o hmem.1 hmem.2

theorem Holds.hasAll {A : Knowledge} {db : SchemaDb} (h : A.Holds db) {needs : List SchemaObject}
    (hk : A.knows needs = true) : db.hasAll needs = true :=
  List.all_eq_true.mpr fun o ho => (h.knows hk o ho).isSome

/-- It was there. -/
theorem Holds.make {A : Knowledge} {db : SchemaDb} (h : A.Holds db) {o : SchemaObject}
    (ho : db.has o) : (A.make o).Holds db := by
  refine { h with there := ?_, gone := ?_, agreeing := ?_ }
  · intro o' ho' hne
    rcases List.mem_cons.mp ho' with rfl | ho'
    · exact ho
    · exact h.there o' ho' hne
  · exact fun o' ho' => h.gone o' (List.mem_filter.mp ho').1
  · exact fun t ht => h.agreeing t (List.mem_filter.mp ht).1

/-- It was not, and is made. -/
theorem Holds.make_add {A : Knowledge} {db : SchemaDb} (h : A.Holds db) {o : SchemaObject}
    (hnone : db.defs o = none) : (A.make o).Holds (db.add o) where
  truthful := h.truthful.add hnone
  there o' ho' hne := by
    rcases List.mem_cons.mp ho' with rfl | ho'
    · exact SchemaDb.has_add_self db o'
    · exact SchemaDb.has_add (h.there o' ho' hne)
  gone o' ho' hne := by
    obtain ⟨hmem, hno⟩ := List.mem_filter.mp ho'
    obtain ⟨hver, hgone⟩ := h.gone o' hmem hne
    exact ⟨hver, (Function.update_of_ne (of_decide_eq_true hno) ..).trans hgone⟩
  agreeing t ht := by
    obtain ⟨hmem, hne⟩ := List.mem_filter.mp ht
    rw [SchemaDb.agrees_add (of_decide_eq_true hne)]
    exact h.agreeing t hmem
  unstamped := h.unstamped
  adopted := h.adopted
  schemaNone := h.schemaNone

end Knowledge

/-! ### One statement -/

namespace SchemaDb

/-- What the version gate does not make and the versions do not stand for. -/
theorem schemaObjects_plain : ∀ o ∈ schemaObjects, o.versioned = false ∧ o ≠ promptsDedup := by
  decide

theorem promptsDedup_notMem_lexicalObjects : promptsDedup ∉ lexicalObjects := by decide

theorem has_drop {db : SchemaDb} {o o' : SchemaObject} (ho : o' ≠ o) :
    { db with defs := Function.update db.defs o none }.has o' ↔ db.has o' := by
  unfold has
  simp only [Function.update_of_ne ho]

/-- The index of the prompts goes, or what the lexical version stands for while
none is stamped or to be taken over. -/
theorem Truthful.drop {db : SchemaDb} {o : SchemaObject} (h : db.Truthful)
    (ho : o = promptsDedup ∨ o.versioned = true ∧ db.lexical ≠ some lexicalVersion ∧ db.HostDone) :
    { db with defs := Function.update db.defs o none }.Truthful := by
  have hplain : ∀ o' ∈ schemaObjects, o' ≠ o := by
    intro o' ho' heq
    obtain ⟨hver, hne⟩ := schemaObjects_plain o' ho'
    rcases ho with rfl | ⟨hov, -⟩
    · exact hne heq
    · rw [heq, hov] at hver
      cases hver
  have hforeign := hplain _ (List.mem_append_right _ List.mem_cons_self)
  have hwhole : o = promptsDedup → db.LexicalWhole →
      { db with defs := Function.update db.defs o none }.LexicalWhole := by
    rintro rfl hw
    refine ⟨fun o' ho' => ?_, hw.agrees⟩
    have hne : o' ≠ promptsDedup := by
      rintro rfl
      exact promptsDedup_notMem_lexicalObjects ho'
    rw [has_drop hne]
    exact hw.objects o' ho'
  refine ⟨fun hs o' ho' => ?_, fun hl => ?_, fun hs hl hhost => ?_, fun hhas => ?_, fun hnot => ?_⟩
  · rw [has_drop (hplain o' ho')]
    exact h.schema hs o' ho'
  · rcases ho with rfl | ⟨-, hun, -⟩
    · exact hwhole rfl (h.lexical hl)
    · exact absurd hl hun
  · rcases ho with rfl | ⟨-, -, hun⟩
    · exact hwhole rfl (h.legacy hs hl hhost)
    · exact absurd hhost (hun hs hl)
  · exact h.foreign ((has_drop hforeign).mp hhas)
  · exact h.foreignRows fun hhas => hnot ((has_drop hforeign).mpr hhas)

theorem Truthful.rebuild {db : SchemaDb} (h : db.Truthful) (t : TableName) :
    { db with agrees := Function.update db.agrees t true }.Truthful := by
  have hup : ∀ t', db.agrees t' = true → Function.update db.agrees t true t' = true := by
    intro t' ht'
    by_cases htt : t' = t
    · subst htt
      exact Function.update_self ..
    · rw [Function.update_of_ne htt]
      exact ht'
  have hwhole : db.LexicalWhole →
      { db with agrees := Function.update db.agrees t true }.LexicalWhole := fun hw =>
    ⟨hw.objects, fun t' ht' => hup t' (hw.agrees t' ht')⟩
  exact ⟨h.schema, fun hl => hwhole (h.lexical hl), fun hs hl hhost => hwhole (h.legacy hs hl hhost),
    fun hhas => hup _ (h.foreign hhas), h.foreignRows⟩

/-- It is about what there is. -/
theorem LexicalWhole.congr {db db' : SchemaDb} (hw : db.LexicalWhole) (hdefs : db'.defs = db.defs)
    (hagrees : db'.agrees = db.agrees) : db'.LexicalWhole := by
  refine ⟨fun o ho => ?_, fun t ht => ?_⟩
  · unfold has
    rw [hdefs]
    exact hw.objects o ho
  · rw [hagrees]
    exact hw.agrees t ht

theorem Truthful.corpusRole {db : SchemaDb} (h : db.Truthful) (v : Option String) :
    { db with corpusRole := v }.Truthful :=
  { h with
    lexical := fun hl => (h.lexical hl).congr rfl rfl
    legacy := fun hs hl hhost => (h.legacy hs hl hhost).congr rfl rfl }

theorem Truthful.stampSchema {db : SchemaDb} (h : db.Truthful)
    (hall : ∀ o ∈ schemaObjects, db.has o) :
    { db with schema := some storeSchemaVersion }.Truthful :=
  { h with
    schema := fun _ => hall
    lexical := fun hl => (h.lexical hl).congr rfl rfl
    legacy := fun hs => nomatch hs }

theorem Truthful.stampLexical {db : SchemaDb} (h : db.Truthful) (hw : db.LexicalWhole) :
    { db with lexical := some lexicalVersion }.Truthful :=
  { h with
    lexical := fun _ => hw.congr rfl rfl
    legacy := fun _ hl => nomatch hl }

theorem Truthful.adoptLexical {db : SchemaDb} (h : db.Truthful)
    (hs : db.lexical = none → db.legacyLexical = some lexicalVersion → db.schema = none) :
    { db with lexical := db.lexical.or db.legacyLexical }.Truthful := by
  have hwhole : db.lexical.or db.legacyLexical = some lexicalVersion → db.LexicalWhole := by
    intro hl
    cases hlex : db.lexical with
    | none =>
      rw [hlex, Option.none_or] at hl
      exact h.legacy (hs hlex hl) hlex hl
    | some v =>
      rw [hlex, Option.some_or] at hl
      exact h.lexical (hlex.trans hl)
  refine { h with lexical := fun hl => ?_, legacy := fun _ hl hhost => ?_ }
  · exact (hwhole hl).congr rfl rfl
  · have hboth : db.lexical.or db.legacyLexical = none := hl
    rw [Option.or_eq_none_iff] at hboth
    exact absurd hhost (by rw [hboth.2]; exact nofun)

end SchemaDb

namespace Knowledge

theorem Holds.drop {A : Knowledge} {db : SchemaDb} (h : A.Holds db) {o : SchemaObject}
    (ho : o = promptsDedup ∨ o.versioned = true ∧ A.unstamped = true) :
    Holds { A with
      there := A.there.filter fun o' => o' ≠ o
      gone := o :: A.gone
      remaking := A.remaking || o = promptsDedup }
      { db with defs := Function.update db.defs o none } where
  truthful := by
    refine h.truthful.drop (ho.imp_right fun ⟨hver, hun⟩ => ?_)
    obtain ⟨had, hne⟩ := h.unstamped hun
    exact ⟨hver, hne, h.adopted had⟩
  there o' ho' hne := by
    obtain ⟨hmem, hno⟩ := List.mem_filter.mp ho'
    rw [SchemaDb.has_drop (of_decide_eq_true hno)]
    exact h.there o' hmem hne
  gone o' ho' hne := by
    by_cases heq : o' = o
    · subst heq
      exact ⟨(ho.resolve_left hne).1, Function.update_self ..⟩
    · have hmem : o' ∈ A.gone := (List.mem_cons.mp ho').resolve_left heq
      obtain ⟨hver, hgone⟩ := h.gone o' hmem hne
      exact ⟨hver, (Function.update_of_ne heq ..).trans hgone⟩
  agreeing := h.agreeing
  unstamped := h.unstamped
  adopted := h.adopted
  schemaNone := h.schemaNone

theorem Holds.rebuild {A : Knowledge} {db : SchemaDb} (h : A.Holds db) {t : TableName}
    (ht : t ∈ versionedTables) :
    Holds { A with agreeing := t :: A.agreeing }
      { db with agrees := Function.update db.agrees t true } where
  truthful := h.truthful.rebuild t
  there := h.there
  gone := h.gone
  agreeing t' ht' := by
    by_cases heq : t' = t
    · subst heq
      exact ⟨ht, Function.update_self ..⟩
    · have hmem : t' ∈ A.agreeing := (List.mem_cons.mp ht').resolve_left heq
      obtain ⟨hver, hagree⟩ := h.agreeing t' hmem
      exact ⟨hver, (Function.update_of_ne heq ..).trans hagree⟩
  unstamped := h.unstamped
  adopted := h.adopted
  schemaNone := h.schemaNone

theorem Holds.stampSchema {A : Knowledge} {db : SchemaDb} (h : A.Holds db)
    (hk : A.knows schemaObjects = true) :
    Holds { A with schemaNone := false } { db with schema := some storeSchemaVersion } :=
  { h with
    truthful := h.truthful.stampSchema (h.knows hk)
    adopted := fun _ hs => nomatch hs
    schemaNone := nofun }

theorem Holds.stampLexical {A : Knowledge} {db : SchemaDb} (h : A.Holds db)
    (hk : A.knows lexicalObjects = true)
    (hagree : versionedTables.all (fun t => t ∈ A.agreeing) = true) :
    Holds { A with unstamped := false } { db with lexical := some lexicalVersion } := by
  have hw : db.LexicalWhole := ⟨h.knows hk, fun t ht =>
    (h.agreeing t (of_decide_eq_true (List.all_eq_true.mp hagree t ht))).2⟩
  exact { h with
    truthful := h.truthful.stampLexical hw
    unstamped := nofun
    adopted := fun _ _ hl => nomatch hl
    schemaNone := fun _ hl => nomatch hl }

theorem Holds.adoptLexical {A : Knowledge} {db : SchemaDb} (h : A.Holds db)
    (hs : A.schemaNone = true) :
    Holds { A with unstamped := false, adopted := true }
      { db with lexical := db.lexical.or db.legacyLexical } := by
  have hneither : db.lexical.or db.legacyLexical = none →
      db.legacyLexical ≠ some lexicalVersion := by
    intro hl
    rw [(Option.or_eq_none_iff.mp hl).2]
    exact nofun
  exact { h with
    truthful := h.truthful.adoptLexical (h.schemaNone hs)
    unstamped := nofun
    adopted := fun _ _ hl => hneither hl
    schemaNone := fun _ hl hhost => absurd hhost (hneither hl) }

theorem has_of_isSome {db : SchemaDb} {o : SchemaObject} (hver : o.versioned = false)
    (hsome : (db.defs o).isSome = true) : db.has o := by
  unfold SchemaDb.has
  simp only [hver, Bool.false_eq_true, if_false]
  exact hsome

/-- **One statement** that succeeds: what is known after it is so. -/
theorem after_sound {A A' : Knowledge} {s : SchemaStmt} {db db' : SchemaDb} (h : A.Holds db)
    (ha : A.after s = some A') (hrun : s.run db = some db') : A'.Holds db' := by
  cases s with
  | create o needs =>
    simp only [after, Option.ite_none_right_eq_some, Option.some.injEq, Bool.and_eq_true,
      Bool.not_eq_true'] at ha
    obtain ⟨⟨⟨hk, hver⟩, -⟩, rfl⟩ := ha
    simp only [SchemaStmt.run, h.hasAll hk, Bool.not_true, Bool.false_eq_true, if_false] at hrun
    split at hrun
    case isTrue hsome =>
      obtain rfl := Option.some.inj hrun
      exact h.make (has_of_isSome hver hsome)
    case isFalse hnone =>
      obtain rfl := Option.some.inj hrun
      exact h.make_add (by simpa using hnone)
  | createNew o needs =>
    simp only [after, Option.ite_none_right_eq_some, Option.some.injEq, Bool.and_eq_true] at ha
    obtain ⟨⟨hk, -⟩, rfl⟩ := ha
    simp only [SchemaStmt.run, h.hasAll hk, Bool.not_true, Bool.false_or] at hrun
    split at hrun
    case isTrue => cases hrun
    case isFalse hnone =>
      obtain rfl := Option.some.inj hrun
      exact { h.make_add (o := o) (by simpa using hnone) with }
  | createUnique =>
    simp only [after, Option.ite_none_left_eq_some, Option.some.injEq] at ha
    obtain ⟨-, rfl⟩ := ha
    simp only [SchemaStmt.run] at hrun
    split at hrun
    case isTrue =>
      obtain rfl := Option.some.inj hrun
      exact h
    case isFalse hnone =>
      rw [Option.ite_none_left_eq_some] at hrun
      obtain rfl := Option.some.inj hrun.2
      have hnone : db.defs promptsDedup = none := by simpa using hnone
      -- of the index of the prompts nothing is said
      exact { h with
        truthful := h.truthful.add hnone
        there := fun o ho hne => SchemaDb.has_add (h.there o ho hne)
        gone := fun o ho hne =>
          ⟨(h.gone o ho hne).1, (Function.update_of_ne hne ..).trans (h.gone o ho hne).2⟩
        agreeing := fun t ht =>
          ⟨(h.agreeing t ht).1, (SchemaDb.agrees_add fun heq : promptsDedup = table t => nomatch heq).trans
            (h.agreeing t ht).2⟩ }
  | drop o =>
    simp only [after, Option.ite_none_right_eq_some, Option.some.injEq, Bool.or_eq_true,
      Bool.and_eq_true, decide_eq_true_eq] at ha
    obtain ⟨ho, rfl⟩ := ha
    obtain rfl := Option.some.inj hrun
    exact h.drop ho
  | rebuild t needs =>
    simp only [after, Option.ite_none_right_eq_some, Option.some.injEq, Bool.and_eq_true,
      decide_eq_true_eq] at ha
    obtain ⟨⟨ht, -⟩, rfl⟩ := ha
    simp only [SchemaStmt.run, Option.ite_none_left_eq_some, Option.some.injEq] at hrun
    obtain ⟨-, rfl⟩ := hrun
    exact h.rebuild ht
  | rows needs =>
    simp only [after, Option.ite_none_right_eq_some, Option.some.injEq] at ha
    obtain ⟨-, rfl⟩ := ha
    simp only [SchemaStmt.run, Option.ite_none_right_eq_some, Option.some.injEq] at hrun
    obtain ⟨-, rfl⟩ := hrun
    exact h
  | read k =>
    obtain rfl := Option.some.inj ha
    obtain rfl := Option.some.inj hrun
    exact h
  | stamp k =>
    cases k with
    | schema =>
      simp only [after, Option.ite_none_right_eq_some, Option.some.injEq, Bool.and_eq_true] at ha
      obtain ⟨⟨hk, -⟩, rfl⟩ := ha
      obtain rfl := Option.some.inj hrun
      exact h.stampSchema hk
    | lexical =>
      simp only [after, Option.ite_none_right_eq_some, Option.some.injEq, Bool.and_eq_true] at ha
      obtain ⟨⟨⟨hk, hagree⟩, -⟩, rfl⟩ := ha
      obtain rfl := Option.some.inj hrun
      exact h.stampLexical hk hagree
    | corpusRole =>
      obtain rfl := Option.some.inj ha
      obtain rfl := Option.some.inj hrun
      exact { h with truthful := h.truthful.corpusRole _ }
  | adopt k =>
    cases k with
    | schema =>
      obtain rfl := Option.some.inj ha
      obtain rfl := Option.some.inj hrun
      exact h
    | lexical =>
      simp only [after, Option.ite_none_right_eq_some, Option.some.injEq] at ha
      obtain ⟨hs, rfl⟩ := ha
      obtain rfl := Option.some.inj hrun
      exact h.adoptLexical hs
    | corpusRole =>
      obtain rfl := Option.some.inj ha
      obtain rfl := Option.some.inj hrun
      exact { h with truthful := h.truthful.corpusRole _ }
  | verify =>
    simp only [after, Option.ite_none_right_eq_some, Option.some.injEq] at ha
    obtain ⟨-, rfl⟩ := ha
    simp only [SchemaStmt.run, Option.ite_none_right_eq_some, Option.some.injEq] at hrun
    obtain ⟨-, rfl⟩ := hrun
    exact h

theorem Holds.gone_of_mayRemake {A : Knowledge} {db : SchemaDb} (h : A.Holds db) {o : SchemaObject}
    (hm : A.mayRemake o = true) (hne : o ≠ promptsDedup) : db.defs o = none := by
  simp only [mayRemake, Bool.and_eq_true, decide_eq_true_eq] at hm
  exact (h.gone o hm.1 hne).2

/-- One that fails of itself: another attach was at the index of the prompts, or
what it was to make is there. -/
theorem after_fails {A A' : Knowledge} {s : SchemaStmt} {db : SchemaDb} (h : A.Holds db)
    (ha : A.after s = some A') (hrun : s.run db = none) :
    atDedup s = true ∨ A.sure s = false ∧ A'.Holds db := by
  cases s with
  | create o needs =>
    simp only [after, Option.ite_none_right_eq_some, Option.some.injEq, Bool.and_eq_true] at ha
    simp only [SchemaStmt.run, h.hasAll ha.1.1.1, Bool.not_true, Bool.false_eq_true, if_false] at hrun
    split at hrun <;> cases hrun
  | createNew o needs =>
    by_cases hdedup : o = promptsDedup
    · subst hdedup
      exact .inl rfl
    · simp only [after, Option.ite_none_right_eq_some, Option.some.injEq, Bool.and_eq_true,
        Bool.or_eq_true, Bool.not_eq_true', decide_eq_true_eq] at ha
      obtain ⟨⟨hk, hmay⟩, rfl⟩ := ha
      simp only [SchemaStmt.run, h.hasAll hk, Bool.not_true, Bool.false_or] at hrun
      split at hrun
      case isFalse => cases hrun
      case isTrue hsome =>
        cases hm : A.mayRemake o with
        | true =>
          rw [h.gone_of_mayRemake hm hdedup] at hsome
          cases hsome
        | false =>
          rw [hm] at hmay
          have hver := (hmay.resolve_left Bool.false_ne_true).1
          exact .inr ⟨hm, { h.make (has_of_isSome hver hsome) with }⟩
  | createUnique => exact .inl rfl
  | drop o => cases hrun
  | rebuild t needs =>
    simp only [after, Option.ite_none_right_eq_some, Option.some.injEq, Bool.and_eq_true] at ha
    have hall := h.knows ha.1.2
    have hsome : (db.defs (table t)).isNone = false := by
      simpa [Option.isSome_iff_ne_none] using (hall _ List.mem_cons_self).isSome
    have hneeds : db.hasAll needs = true :=
      List.all_eq_true.mpr fun o ho => (hall o (List.mem_cons_of_mem _ ho)).isSome
    simp only [SchemaStmt.run, hsome, hneeds] at hrun
    cases hrun
  | rows needs =>
    simp only [after, Option.ite_none_right_eq_some, Option.some.injEq] at ha
    simp only [SchemaStmt.run, h.hasAll ha.1] at hrun
    cases hrun
  | read k => cases hrun
  | stamp k => cases k <;> cases hrun
  | adopt k => cases k <;> cases hrun
  | verify =>
    simp only [after, Option.ite_none_right_eq_some, Option.some.injEq] at ha
    simp only [SchemaStmt.run, h.hasAll ha.1] at hrun
    cases hrun

/-! ### What a statement can do -/

/-- It makes that. -/
def makes : SchemaStmt → SchemaObject → Bool
  | .create o _, o' | .createNew o _, o' => o = o'
  | .createUnique, o' => promptsDedup = o'
  | _, _ => false

/-- All that a statement that succeeds may have done. -/
inductive Ran (db : SchemaDb) : SchemaStmt → SchemaDb → Prop
  | same (s : SchemaStmt) : Ran db s db
  | made {s : SchemaStmt} {o : SchemaObject} (hmakes : makes s o = true) (hnone : db.defs o = none) :
      Ran db s (db.add o)
  | dropped (o : SchemaObject) :
      Ran db (.drop o) { db with defs := Function.update db.defs o none }
  | rebuilt (t : TableName) (needs : List SchemaObject) :
      Ran db (.rebuild t needs) { db with agrees := Function.update db.agrees t true }
  | stampedSchema : Ran db (.stamp .schema) { db with schema := some storeSchemaVersion }
  | stampedLexical : Ran db (.stamp .lexical) { db with lexical := some lexicalVersion }
  | adoptedLexical : Ran db (.adopt .lexical) { db with lexical := db.lexical.or db.legacyLexical }
  | corpusRole (s : SchemaStmt) (v : Option String) : Ran db s { db with corpusRole := v }

theorem ran {s : SchemaStmt} {db db' : SchemaDb} (hrun : s.run db = some db') : Ran db s db' := by
  cases s with
  | create o needs =>
    simp only [SchemaStmt.run, Option.ite_none_left_eq_some] at hrun
    obtain ⟨-, hrun⟩ := hrun
    split at hrun
    case isTrue =>
      obtain rfl := Option.some.inj hrun
      exact .same _
    case isFalse hnone =>
      obtain rfl := Option.some.inj hrun
      exact .made (decide_eq_true rfl) (by simpa using hnone)
  | createNew o needs =>
    simp only [SchemaStmt.run, Option.ite_none_left_eq_some, Option.some.injEq, Bool.or_eq_true,
      not_or] at hrun
    obtain ⟨⟨-, hnone⟩, rfl⟩ := hrun
    exact .made (decide_eq_true rfl) (by simpa using hnone)
  | createUnique =>
    simp only [SchemaStmt.run] at hrun
    split at hrun
    case isTrue =>
      obtain rfl := Option.some.inj hrun
      exact .same _
    case isFalse hnone =>
      rw [Option.ite_none_left_eq_some] at hrun
      obtain rfl := Option.some.inj hrun.2
      exact .made (o := promptsDedup) rfl (by simpa using hnone)
  | drop o =>
    obtain rfl := Option.some.inj hrun
    exact .dropped o
  | rebuild t needs =>
    simp only [SchemaStmt.run, Option.ite_none_left_eq_some, Option.some.injEq] at hrun
    obtain ⟨-, rfl⟩ := hrun
    exact .rebuilt t needs
  | rows needs | verify =>
    simp only [SchemaStmt.run, Option.ite_none_right_eq_some, Option.some.injEq] at hrun
    obtain ⟨-, rfl⟩ := hrun
    exact .same _
  | read k =>
    obtain rfl := Option.some.inj hrun
    exact .same _
  | stamp k =>
    cases k <;> obtain rfl := Option.some.inj hrun
    · exact .stampedSchema
    · exact .stampedLexical
    · exact .corpusRole _ _
  | adopt k =>
    cases k <;> obtain rfl := Option.some.inj hrun
    · exact .same _
    · exact .adoptedLexical
    · exact .corpusRole _ _

/-- Only the drop of the index breaks what holds of it. -/
theorem Ran.dedup {s : SchemaStmt} {db db' : SchemaDb} (hran : Ran db s db')
    (hs : s ≠ .drop promptsDedup) (h : db.Dedup) : db'.Dedup := by
  intro ht
  cases hran with
  | made => exact SchemaDb.has_add (h ht)
  | dropped o =>
    have hne : promptsDedup ≠ o := by
      rintro rfl
      exact hs rfl
    exact (SchemaDb.has_drop hne).mpr (h ht)
  | same | rebuilt | stampedSchema | stampedLexical | adoptedLexical | corpusRole => exact h ht

/-- A version that is stamped stays. -/
theorem Ran.lexical {s : SchemaStmt} {db db' : SchemaDb} (hran : Ran db s db')
    (h : db.lexical = some lexicalVersion) : db'.lexical = some lexicalVersion := by
  cases hran with
  | stampedLexical => rfl
  | adoptedLexical =>
    show db.lexical.or db.legacyLexical = some lexicalVersion
    rw [h]
    rfl
  | same | made | dropped | rebuilt | stampedSchema | corpusRole => exact h

/-! ### Other attaches -/

/-- It says nothing of what the version gate makes. -/
def early (A : Knowledge) : Bool :=
  !A.unstamped && A.there.all (fun o => !o.versioned) && A.gone.all (fun o => !o.versioned) &&
    A.agreeing.isEmpty

theorem early_iff {A : Knowledge} : A.early = true ↔ A.unstamped = false ∧
    (∀ o ∈ A.there, o.versioned = false) ∧ (∀ o ∈ A.gone, o.versioned = false) ∧ A.agreeing = [] := by
  unfold early
  simp only [Bool.and_eq_true, Bool.not_eq_true', List.all_eq_true, List.isEmpty_iff, and_assoc]

/-- What the version gate makes is made only by who has found it not stamped. -/
theorem after_makes {B B' : Knowledge} {s : SchemaStmt} {o : SchemaObject}
    (ha : B.after s = some B') (hm : makes s o = true) :
    o.versioned = false ∨ B.unstamped = true := by
  cases s with
  | create o' needs =>
    obtain rfl : o' = o := of_decide_eq_true hm
    simp only [after, Option.ite_none_right_eq_some, Bool.and_eq_true, Bool.not_eq_true'] at ha
    exact .inl ha.1.1.2
  | createNew o' needs =>
    obtain rfl : o' = o := of_decide_eq_true hm
    simp only [after, mayRemake, Option.ite_none_right_eq_some, Bool.and_eq_true, Bool.or_eq_true,
      Bool.not_eq_true', decide_eq_true_eq] at ha
    rcases ha.1.2 with ⟨-, rfl | hun⟩ | ⟨hver, -⟩
    · exact .inl rfl
    · exact .inr hun
    · exact .inl hver
  | createUnique =>
    obtain rfl : promptsDedup = o := of_decide_eq_true hm
    exact .inl rfl
  | drop | rebuild | rows | read | stamp | adopt | verify => cases hm

/-- **Another attach's statement** leaves what is known as it was, unless both
have found the lexical version not stamped. -/
theorem Holds.other {A B B' : Knowledge} {s : SchemaStmt} {db db' : SchemaDb} (h : A.Holds db)
    (hB : B.Holds db) (ha : B.after s = some B') (hrun : s.run db = some db')
    (hapart : B.unstamped = true → A.early = true) : A.Holds db' := by
  have htruthful : db'.Truthful := (after_sound hB ha hrun).truthful
  have hearly : ∀ {o : SchemaObject}, o.versioned = true → (o.versioned = false ∨ B.unstamped = true) →
      (∀ o' ∈ A.there, o'.versioned = false) ∧ (∀ o' ∈ A.gone, o'.versioned = false) ∧
        A.agreeing = [] := by
    intro o hver ho
    rw [hver] at ho
    exact (early_iff.mp (hapart (ho.resolve_left nofun))).2
  cases ran hrun with
  | same => exact h
  | corpusRole => exact { h with truthful := htruthful }
  | @made _ o hmakes hnone =>
    have hver := after_makes ha hmakes
    refine { h with truthful := htruthful, there := ?_, gone := ?_, agreeing := ?_ }
    · exact fun o' ho' hne => SchemaDb.has_add (h.there o' ho' hne)
    · intro o' ho' hne
      obtain ⟨hver', hgone⟩ := h.gone o' ho' hne
      have ho : o' ≠ o := by
        rintro rfl
        rw [(hearly hver' hver).2.1 o' ho'] at hver'
        cases hver'
      exact ⟨hver', (Function.update_of_ne ho ..).trans hgone⟩
    · intro t ht
      obtain ⟨hver', hagree⟩ := h.agreeing t ht
      have ho : o ≠ table t := by
        rintro rfl
        have hnil := (hearly (o := table t) (decide_eq_true hver') hver).2.2
        rw [hnil] at ht
        cases ht
      rw [SchemaDb.agrees_add ho]
      exact ⟨hver', hagree⟩
  | dropped o =>
    simp only [after, Option.ite_none_right_eq_some, Option.some.injEq, Bool.or_eq_true,
      Bool.and_eq_true, decide_eq_true_eq] at ha
    refine { h with truthful := htruthful, there := ?_, gone := ?_ }
    · intro o' ho' hne
      have ho : o' ≠ o := by
        rintro rfl
        obtain ⟨hver, hun⟩ := ha.1.resolve_left hne
        rw [(hearly hver (.inr hun)).1 o' ho'] at hver
        cases hver
      exact (SchemaDb.has_drop ho).mpr (h.there o' ho' hne)
    · intro o' ho' hne
      obtain ⟨hver, hgone⟩ := h.gone o' ho' hne
      refine ⟨hver, ?_⟩
      by_cases heq : o' = o
      · subst heq
        exact Function.update_self ..
      · exact (Function.update_of_ne heq ..).trans hgone
  | rebuilt t needs =>
    refine { h with truthful := htruthful, agreeing := fun t' ht' => ?_ }
    obtain ⟨hver, hagree⟩ := h.agreeing t' ht'
    refine ⟨hver, ?_⟩
    by_cases heq : t' = t
    · subst heq
      exact Function.update_self ..
    · exact (Function.update_of_ne heq ..).trans hagree
  | stampedSchema =>
    simp only [after, Option.ite_none_right_eq_some, Bool.and_eq_true] at ha
    refine { h with
      truthful := htruthful
      adopted := fun _ hs => nomatch hs
      schemaNone := fun hs hl hhost => ?_ }
    exact absurd hhost (hB.adopted ha.1.2 (h.schemaNone hs hl hhost) hl)
  | stampedLexical =>
    simp only [after, Option.ite_none_right_eq_some, Bool.and_eq_true] at ha
    have hun := (early_iff.mp (hapart ha.1.2)).1
    refine { h with
      truthful := htruthful
      unstamped := fun h' => ?_
      adopted := fun _ _ hl => nomatch hl
      schemaNone := fun _ hl => nomatch hl }
    rw [hun] at h'
    cases h'
  | adoptedLexical =>
    simp only [after, Option.ite_none_right_eq_some] at ha
    have hneither : db.lexical.or db.legacyLexical = none →
        db.legacyLexical ≠ some lexicalVersion := by
      intro hl
      rw [(Option.or_eq_none_iff.mp hl).2]
      exact nofun
    refine { h with
      truthful := htruthful
      unstamped := fun hun => ?_
      adopted := fun _ _ hl => hneither hl
      schemaNone := fun _ hl hhost => absurd hhost (hneither hl) }
    obtain ⟨had, hne⟩ := h.unstamped hun
    refine ⟨had, fun hl => ?_⟩
    have hl : db.lexical.or db.legacyLexical = some lexicalVersion := hl
    cases hlex : db.lexical with
    | some v =>
      rw [hlex, Option.some_or] at hl
      exact hne (hlex.trans hl)
    | none =>
      rw [hlex, Option.none_or] at hl
      exact h.adopted had (hB.schemaNone ha.1 hlex hl) hlex hl

/-! ### Alone -/

/-- What a statement does to the index of the prompts. -/
theorem after_dedup {A A' : Knowledge} {s : SchemaStmt} (ha : A.after s = some A') :
    (s = .drop promptsDedup ∧ A'.remaking = true) ∨
      (∃ needs, s = .createNew promptsDedup needs ∧ promptsDedup ∉ A'.gone) ∨
        (s ≠ .drop promptsDedup ∧ A'.remaking = A.remaking ∧
          (promptsDedup ∈ A'.gone → promptsDedup ∈ A.gone ∧ makes s promptsDedup = false)) := by
  cases s with
  | create o needs =>
    simp only [after, Option.ite_none_right_eq_some, Option.some.injEq, Bool.and_eq_true,
      decide_eq_true_eq] at ha
    obtain ⟨⟨-, hne⟩, rfl⟩ := ha
    exact .inr (.inr ⟨nofun, rfl, fun hg => ⟨(List.mem_filter.mp hg).1, decide_eq_false hne⟩⟩)
  | createNew o needs =>
    simp only [after, Option.ite_none_right_eq_some, Option.some.injEq] at ha
    obtain ⟨-, rfl⟩ := ha
    by_cases ho : o = promptsDedup
    · subst ho
      exact .inr (.inl ⟨needs, rfl, fun hg => of_decide_eq_true (List.mem_filter.mp hg).2 rfl⟩)
    · refine .inr (.inr ⟨nofun, ?_, fun hg => ⟨(List.mem_filter.mp hg).1, decide_eq_false ho⟩⟩)
      show (A.remaking && decide (o ≠ promptsDedup)) = A.remaking
      rw [decide_eq_true ho, Bool.and_true]
  | createUnique =>
    simp only [after, Option.ite_none_left_eq_some, Option.some.injEq, Bool.or_eq_true, not_or,
      decide_eq_true_eq] at ha
    obtain ⟨⟨-, hno⟩, rfl⟩ := ha
    exact .inr (.inr ⟨nofun, rfl, fun hg => absurd hg hno⟩)
  | drop o =>
    simp only [after, Option.ite_none_right_eq_some, Option.some.injEq] at ha
    obtain ⟨-, rfl⟩ := ha
    by_cases ho : o = promptsDedup
    · subst ho
      exact .inl ⟨rfl, Bool.or_true _⟩
    · refine .inr (.inr ⟨fun h => ho (SchemaStmt.drop.inj h), ?_, fun hg => ⟨?_, rfl⟩⟩)
      · show (A.remaking || decide (o = promptsDedup)) = A.remaking
        rw [decide_eq_false ho, Bool.or_false]
      · exact (List.mem_cons.mp hg).resolve_left (Ne.symm ho)
  | rebuild t needs | rows needs | verify =>
    simp only [after, Option.ite_none_right_eq_some, Option.some.injEq] at ha
    obtain ⟨-, rfl⟩ := ha
    exact .inr (.inr ⟨nofun, rfl, fun hg => ⟨hg, rfl⟩⟩)
  | read k =>
    obtain rfl := Option.some.inj ha
    exact .inr (.inr ⟨nofun, rfl, fun hg => ⟨hg, rfl⟩⟩)
  | stamp k | adopt k =>
    have hsame : A'.remaking = A.remaking ∧ A'.gone = A.gone := by
      cases k <;> simp only [after, Option.ite_none_right_eq_some, Option.some.injEq] at ha <;>
        obtain ⟨-, rfl⟩ := ha <;> exact ⟨rfl, rfl⟩
    refine .inr (.inr ⟨nofun, hsame.1, fun hg => ⟨?_, rfl⟩⟩)
    rw [hsame.2] at hg
    exact hg

theorem Ran.defs_none {s : SchemaStmt} {db db' : SchemaDb} {o : SchemaObject} (hran : Ran db s db')
    (hs : makes s o = false) (h : db.defs o = none) : db'.defs o = none := by
  cases hran with
  | @made _ o' hmakes =>
    have ho : o ≠ o' := by
      rintro rfl
      rw [hmakes] at hs
      cases hs
    exact (Function.update_of_ne ho ..).trans h
  | dropped o' =>
    by_cases ho : o = o'
    · subst ho
      exact Function.update_self ..
    · exact (Function.update_of_ne ho ..).trans h
  | same | rebuilt | stampedSchema | stampedLexical | adoptedLexical | corpusRole => exact h

/-- What is known of the index of the prompts. -/
theorem Alone.after {A A' : Knowledge} {s : SchemaStmt} {db db' : SchemaDb} (hal : A.Alone db)
    (ha : A.after s = some A') (hrun : s.run db = some db') : A'.Alone db' := by
  rcases after_dedup ha with ⟨rfl, hr⟩ | ⟨needs, rfl, hno⟩ | ⟨hs, hr, hgone⟩
  · obtain rfl := Option.some.inj hrun
    refine ⟨fun h => ?_, fun _ => Function.update_self promptsDedup none db.defs⟩
    rw [hr] at h
    cases h
  · simp only [SchemaStmt.run, Option.ite_none_left_eq_some, Option.some.injEq] at hrun
    obtain ⟨-, rfl⟩ := hrun
    exact ⟨fun _ _ => SchemaDb.has_add_self db promptsDedup, fun h => absurd h hno⟩
  · refine ⟨fun h => ?_, fun hg => ?_⟩
    · rw [hr] at h
      exact (ran hrun).dedup hs (hal.dedup h)
    · obtain ⟨hmem, hmakes⟩ := hgone hg
      exact (ran hrun).defs_none hmakes (hal.gone hmem)

/-- Nothing makes a statement fail. -/
theorem Alone.runs {A A' : Knowledge} {s : SchemaStmt} {db : SchemaDb} (h : A.Holds db)
    (hal : A.Alone db) (ha : A.after s = some A') (hsure : A.sure s = true) :
    s.run db ≠ none := by
  intro hrun
  rcases after_fails h ha hrun with hat | ⟨hno, -⟩
  · match s with
    | .createNew .promptsDedup needs =>
      have hmem : promptsDedup ∈ A.gone := by
        simp only [sure, mayRemake, Bool.and_eq_true, decide_eq_true_eq] at hsure
        exact hsure.1
      simp only [Knowledge.after, Option.ite_none_right_eq_some, Bool.and_eq_true] at ha
      simp only [SchemaStmt.run, h.hasAll ha.1.1, hal.gone hmem] at hrun
      cases hrun
    | .createUnique =>
      simp only [Knowledge.after, Option.ite_none_left_eq_some, Bool.or_eq_true, not_or,
        Bool.not_eq_true] at ha
      simp only [SchemaStmt.run] at hrun
      split at hrun
      case isTrue => cases hrun
      case isFalse hnone =>
        split at hrun
        case isTrue ht => exact hnone (hal.dedup ha.1.1 ht).isSome
        case isFalse => cases hrun
  · rw [hsure] at hno
    cases hno

end Knowledge

end PolisMemory
