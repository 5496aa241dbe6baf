/-
# What a decision's payload hash commits to

`crates/polis-core/src/ledger.rs`: `decision_payload_hash` hashes the fields
of a decision, each as `key=value` on a line of its own, and
`crates/polis-store/src/record.rs` takes two decisions with one kind, one
reference and one payload hash for the same. A value may hold a line break,
and then what looks like the next field: `detail=x` can stand in the value of
`actor`.

So the hash of two fields or more does not determine their values
(`decisionHash_injective_iff`). It does for the values at hand exactly if no
key, with its line break and equals sign, occurs in the value before it or
after it (`decisionHash_unique_iff`); for a work event that is the key of the
detail, and an actor or a detail that is not there counts as an empty one
(`payloadHash_commits_iff`).

Key definitions: `Plain`, `Dropped`, `WorkAct.Plain`.
Key theorems: `decisionHash_unique_iff`, `payloadHash_commits_iff`.
-/
import PolisMemory.Recording
import PolisMemory.Separators
import PolisMemory.Sourcing

namespace PolisMemory

open Separators Sqlite Sqlite.Prog

variable (sha256 : String → String)

/-! ### The text that is hashed -/

/-- A key as it stands between two values. -/
def fieldSep (key : String) : List Char := '\n' :: (key.toList ++ ['='])

/-- No key stands in the value before it or in its own. -/
def Plain : List (String × String) → Prop
  | [] => True
  | [_] => True
  | (_, v) :: (key, w) :: rest =>
    ¬fieldSep key <:+: v.toList ∧ ¬fieldSep key <:+: w.toList ∧ Plain ((key, w) :: rest)

/-- The fields after the first, each a separator and a value. -/
def separated (fields : List (String × String)) : List (List Char × List Char) :=
  fields.map fun kv => (fieldSep kv.1, kv.2.toList)

/-- The text of the fields. -/
def fieldsText (fields : List (String × String)) : String :=
  String.join (fields.map fun kv => kv.1 ++ "=" ++ kv.2 ++ "\n")

theorem decisionHash_eq (fields : List (String × String)) :
    decisionHash sha256 fields = sha256 (fieldsText fields) := rfl

theorem fieldsText_cons (kv : String × String) (rest : List (String × String)) :
    (fieldsText (kv :: rest)).toList =
      kv.1.toList ++ '=' :: kv.2.toList ++ '\n' :: (fieldsText rest).toList := by
  simp [fieldsText, String.toList_append]

/-- After the first key, the values joined by the other keys. -/
theorem fieldsText_eq : ∀ (key value : String) (rest : List (String × String)),
    (fieldsText ((key, value) :: rest)).toList =
      key.toList ++ '=' :: (joined value.toList (separated rest) ++ ['\n'])
  | key, value, [] => by
    rw [fieldsText_cons]
    simp [fieldsText, separated, joined]
  | key, value, (k, w) :: rest => by
    rw [fieldsText_cons, fieldsText_eq k w rest]
    simp [separated, joined, fieldSep]

theorem clear_iff_plain : ∀ (key value : String) (rest : List (String × String)),
    Clear value.toList (separated rest) ↔ Plain ((key, value) :: rest)
  | _, _, [] => Iff.rfl
  | _, _, (k, w) :: rest => and_congr Iff.rfl (and_congr Iff.rfl (clear_iff_plain k w rest))

theorem marked_fieldSep {key : String} (h : '\n' ∉ key.toList) : Marked '\n' (fieldSep key) :=
  ⟨key.toList ++ ['='], rfl, by simp [h]⟩

theorem separated_zip (keys values : List String) :
    separated (keys.zip values) =
      ((keys.map fieldSep).zip (values.map String.toList)) := by
  rw [separated, List.zip_map]
  rfl

/-! ### The hash -/

variable {sha256}

/-- The values of the fields are the only ones with their hash exactly if no
key stands in a value beside it. -/
theorem decisionHash_unique_iff (hinj : Function.Injective sha256) (fields : List (String × String))
    (hkeys : ∀ kv ∈ fields, '\n' ∉ kv.1.toList) :
    (∀ values : List String, values.length = fields.length →
      decisionHash sha256 ((fields.map Prod.fst).zip values) = decisionHash sha256 fields →
        values = fields.map Prod.snd) ↔ Plain fields := by
  cases fields with
  | nil => simp [Plain]
  | cons kv rest =>
    obtain ⟨key, value⟩ := kv
    have hmarked : ∀ e ∈ separated rest, Marked '\n' e.1 := by
      intro e he
      obtain ⟨kv, hkv, rfl⟩ := List.mem_map.mp he
      exact marked_fieldSep (hkeys kv (List.mem_cons_of_mem _ hkv))
    have hfst : (separated rest).map Prod.fst = (rest.map Prod.fst).map fieldSep := by
      simp [separated]
    have hsnd : (separated rest).map Prod.snd = (rest.map Prod.snd).map String.toList := by
      simp [separated]
    -- one text for two lists of values is one text joined from them
    have htext : ∀ (v : String) (vs : List String),
        decisionHash sha256 (((key, value) :: rest).map Prod.fst |>.zip (v :: vs)) =
          decisionHash sha256 ((key, value) :: rest) ↔
        joined v.toList (((separated rest).map Prod.fst).zip (vs.map String.toList)) =
          joined value.toList (separated rest) := by
      intro v vs
      rw [decisionHash_eq, decisionHash_eq, hinj.eq_iff, ← String.toList_inj, List.map_cons,
        List.zip_cons_cons, fieldsText_eq, fieldsText_eq, separated_zip, hfst]
      simp
    rw [← clear_iff_plain, ← joined_unique_iff (separated rest) value.toList hmarked]
    constructor
    · intro hunique v' ws hlen hjoined
      have hlen' : ws.length = rest.length := by simpa [separated] using hlen
      have hstrings : (ws.map String.ofList).map String.toList = ws := by simp
      have h := hunique (String.ofList v' :: ws.map String.ofList) (by simp [hlen'])
        ((htext _ _).mpr (by rw [hstrings, String.toList_ofList]; exact hjoined))
      rw [List.map_cons, List.cons.injEq] at h
      have hv : String.ofList v' = value := h.1
      refine ⟨by rw [← hv, String.toList_ofList], ?_⟩
      rw [hsnd, ← h.2, hstrings]
    · intro hunique values hlen hhash
      cases values with
      | nil => simp at hlen
      | cons v vs =>
        obtain ⟨hv, hvs⟩ := hunique v.toList (vs.map String.toList)
          (by simpa [separated] using hlen) ((htext v vs).mp hhash)
        rw [hsnd] at hvs
        rw [List.map_cons, String.toList_inj.mp hv,
          List.map_injective_iff.mpr (fun _ _ h => String.toList_inj.mp h) hvs]

/-- The hash of a list of keys determines the values exactly if there is at
most one key. -/
theorem decisionHash_injective_iff (hinj : Function.Injective sha256) (keys : List String) :
    (∀ values values' : List String, values.length = keys.length →
      values'.length = keys.length →
      decisionHash sha256 (keys.zip values) = decisionHash sha256 (keys.zip values') →
        values = values') ↔ keys.length ≤ 1 := by
  constructor
  · intro hunique
    by_contra hlen
    obtain ⟨key, key', keys, rfl⟩ : ∃ k k' ks, keys = k :: k' :: ks := by
      cases keys with
      | nil => simp at hlen
      | cons k keys =>
        cases keys with
        | nil => simp at hlen
        | cons k' ks => exact ⟨k, k', ks, rfl⟩
    -- the second key stands in the first value, or in the second
    let line := String.ofList (fieldSep key')
    let others := List.replicate keys.length ""
    have h := hunique (line :: "" :: others) ("" :: line :: others) (by simp [others])
      (by simp [others]) (by
        rw [decisionHash_eq, decisionHash_eq]
        apply congrArg sha256
        rw [← String.toList_inj]
        simp [List.zip_cons_cons, fieldsText_cons, line, fieldSep])
    have hline : line = "" := (List.cons.inj h).1
    simpa [line, fieldSep] using congrArg String.toList hline
  · intro hlen values values' hl hl' hhash
    have htext : fieldsText (keys.zip values) = fieldsText (keys.zip values') := hinj hhash
    cases keys with
    | nil => rw [List.length_eq_zero_iff.mp hl, List.length_eq_zero_iff.mp hl']
    | cons key keys =>
      have hkeys : keys = [] := by
        rw [List.length_cons] at hlen
        exact List.length_eq_zero_iff.mp (by omega)
      subst hkeys
      obtain ⟨v, rfl⟩ := List.length_eq_one_iff.mp hl
      obtain ⟨v', rfl⟩ := List.length_eq_one_iff.mp hl'
      rw [← String.toList_inj] at htext
      simpa [fieldsText_cons, String.toList_inj] using htext

/-! ### Decisions that are not recorded again -/

/-- `record_decision` finds an event and records no other. -/
def Dropped (t : LedgerTable) (d : DecisionInput) : Prop := eventsOf t d.key ≠ []

/-- A decision about the fields. -/
def DecisionInput.about (d : DecisionInput) (sha256 : String → String)
    (fields : List (String × String)) : DecisionInput :=
  { d with payloadHash := decisionHash sha256 fields }

variable {t : LedgerTable} {d d' : DecisionInput}

/-- What was not recorded is dropped after another decision only as that
one. -/
theorem dropped_appended (hnew : ¬Dropped t d') (author : String) (now : ℤ) :
    Dropped (appended sha256 t (d.append author now)) d' ↔ d'.key = d.key := by
  have hrows := rows_appended sha256 t (d.append author now)
  have hrow : d.key.names (successor sha256 t.last (d.append author now)) = true :=
    (appends_append d author now).names sha256 t.last
  constructor
  · intro hdropped
    have hnil : eventsOf t d'.key = [] := not_not.mp hnew
    rw [Dropped, eventsOf_append hrows, hnil, List.nil_append] at hdropped
    by_cases hnames : d'.key.names (successor sha256 t.last (d.append author now)) = true
    · exact DecisionKey.eq_of_names hnames hrow
    · rw [if_neg hnames] at hdropped
      exact absurd rfl hdropped
  · intro hkey
    rw [Dropped, hkey]
    exact eventsOf_ne_nil_of_names hrows hrow

/-- With the file to itself `record_decision` leaves the ledger as it is, or
appends the decision's event. -/
theorem recordDecision_quiet (t : LedgerTable) (v : ℕ) (author : String) (now : ℤ)
    (d : DecisionInput) :
    ((recordDecision sha256 author now d).run (alone fun _ => .none) 0 (idle t v)).2.1 =
      open Classical in
      if Dropped t d then idle t v else idle (appended sha256 t (d.append author now)) (v + 1) := by
  obtain ⟨w', hins, -⟩ := insert_successor sha256 t (d.append author now)
  by_cases hd : Dropped t d
  · have hpos : 0 < (eventsOf t d.key).length := List.length_pos_iff.mpr hd
    simp [recordDecision, decisionEventExists, Prog.run, Prog.bind, Turn.before, alone, idle,
      Conn.query, Conn.sees, hd, hpos]
  · have hzero : ¬0 < (eventsOf t d.key).length := by
      rw [not_not.mp hd]
      exact Nat.lt_irrefl 0
    simp [recordDecision, decisionEventExists, appendEvent, appendInTxn, beginImmediate,
      busyAttempts, Prog.run, Prog.bind, Turn.before, alone, idle, Conn.isAuto, Conn.exec,
      Conn.execBegin, Conn.query, Conn.sees, Conn.execWrite, Conn.workOn, Conn.execCommit,
      appended, hins, hd, hzero]

theorem not_dropped_empty (d : DecisionInput) : ¬Dropped LedgerTable.empty d := fun h => h rfl

/-- No other values are dropped as the ones at hand exactly if these are
plain. -/
theorem about_dropped_iff (hinj : Function.Injective sha256) (d : DecisionInput)
    (fields : List (String × String)) (hkeys : ∀ kv ∈ fields, '\n' ∉ kv.1.toList) :
    (∀ (values : List String) (t : LedgerTable) (author : String) (now : ℤ),
      values.length = fields.length →
      ¬Dropped t (d.about sha256 ((fields.map Prod.fst).zip values)) →
      Dropped (appended sha256 t ((d.about sha256 fields).append author now))
        (d.about sha256 ((fields.map Prod.fst).zip values)) →
      values = fields.map Prod.snd) ↔ Plain fields := by
  rw [← decisionHash_unique_iff hinj fields hkeys]
  constructor
  · intro h values hlen hhash
    have hnew := not_dropped_empty (d.about sha256 ((fields.map Prod.fst).zip values))
    refine h values LedgerTable.empty "" 0 hlen hnew ((dropped_appended hnew "" 0).mpr ?_)
    simp only [DecisionInput.key, DecisionInput.about, hhash]
  · intro h values t author now hlen hnew hdropped
    have hkey := (dropped_appended hnew author now).mp hdropped
    exact h values hlen (congrArg DecisionKey.payloadHash hkey)

/-! ### Work events -/

theorem EventKind.asStr_injective : Function.Injective EventKind.asStr := by
  intro a b h
  cases a <;> cases b <;> first | rfl | exact absurd h (by decide)

/-- The actor and the detail are there, and the detail's key stands in
neither. -/
def WorkAct.Plain (a : WorkAct) : Prop :=
  (∃ actor, a.actor = some actor ∧ actor ≠ "" ∧ ¬fieldSep "detail" <:+: actor.toList) ∧
    ∃ detail, a.detail = some detail ∧ detail ≠ "" ∧ ¬fieldSep "detail" <:+: detail.toList

/-- The actor and the detail as they are hashed. -/
def WorkAct.spoken (a : WorkAct) : List Char :=
  joined (a.actor.getD "").toList [(fieldSep "detail", (a.detail.getD "").toList)]

/-- The fields of a work act. -/
def WorkAct.fields (a : WorkAct) : List (String × String) :=
  [("item", a.itemId), ("action", a.kind.asStr), ("actor", a.actor.getD ""),
    ("detail", a.detail.getD ""), ("at", toString a.updatedAt)]

theorem newline_notMem_at (n : ℤ) : '\n' ∉ "at=".toList ++ (toString n).toList := by
  intro h
  rcases List.mem_append.mp h with h | h
  · exact absurd h (by decide)
  · rw [← intText_eq_toString] at h
    rcases JsonText.intText_mem h with h | h
    · exact absurd h (by decide)
    · exact absurd h (by decide)

theorem WorkAct.fieldsText_eq (a : WorkAct) : (fieldsText a.fields).toList =
    ("item=".toList ++ a.itemId.toList ++ "\naction=".toList ++ a.kind.asStr.toList ++
      "\nactor=".toList) ++ (a.spoken ++ '\n' :: ("at=".toList ++ (toString a.updatedAt).toList)) ++
        ['\n'] := by
  simp [WorkAct.fields, WorkAct.spoken, joined, fieldSep, fieldsText]

/-- Two work acts are one decision where all but the actor and the detail
agree, and these are spoken alike. -/
theorem WorkAct.key_eq_iff (hinj : Function.Injective sha256) (a b : WorkAct) :
    (b.decision sha256).key = (a.decision sha256).key ↔
      b.kind = a.kind ∧ b.itemId = a.itemId ∧ b.updatedAt = a.updatedAt ∧ b.spoken = a.spoken := by
  constructor
  · intro hkey
    have hkind : b.kind = a.kind :=
      EventKind.asStr_injective (congrArg DecisionKey.kind hkey)
    have hitem : b.itemId = a.itemId := congrArg DecisionKey.refId hkey
    have htext : fieldsText b.fields = fieldsText a.fields :=
      hinj (congrArg DecisionKey.payloadHash hkey)
    rw [← String.toList_inj, b.fieldsText_eq, a.fieldsText_eq, hkind, hitem,
      List.append_left_inj, List.append_right_inj] at htext
    obtain ⟨hspoken, hat⟩ := JsonText.run_suffix _ _ _ _ (newline_notMem_at _)
      (newline_notMem_at _) htext
    rw [List.append_right_inj, String.toList_inj] at hat
    exact ⟨hkind, hitem, toString_injective hat, hspoken⟩
  · rintro ⟨hkind, hitem, hat, hspoken⟩
    have htext : fieldsText b.fields = fieldsText a.fields := by
      rw [← String.toList_inj, b.fieldsText_eq, a.fieldsText_eq, hkind, hitem, hat, hspoken]
    have hhash : (b.decision sha256).payloadHash = (a.decision sha256).payloadHash :=
      congrArg sha256 htext
    simp only [DecisionInput.key, hhash, DecisionKey.mk.injEq]
    exact ⟨congrArg EventKind.asStr hkind, rfl, hitem, trivial⟩

/-- No other work act is dropped as the one at hand exactly if this one is
plain. -/
theorem work_dropped_iff (hinj : Function.Injective sha256) (a : WorkAct) :
    (∀ (b : WorkAct) (t : LedgerTable) (author : String) (now : ℤ),
      ¬Dropped t (b.decision sha256) →
      Dropped (appended sha256 t ((a.decision sha256).append author now)) (b.decision sha256) →
      b = a) ↔ a.Plain := by
  have hmarked : ∀ e ∈ [(fieldSep "detail", (a.detail.getD "").toList)], Marked '\n' e.1 := by
    intro e he
    rw [List.mem_singleton.mp he]
    exact marked_fieldSep (by decide)
  have hunique := joined_unique_iff _ (a.actor.getD "").toList hmarked
  constructor
  · intro h
    -- an act that differs from this one in the actor or the detail alone is not spoken like it
    have hact : ∀ b : WorkAct, b.kind = a.kind → b.itemId = a.itemId → b.updatedAt = a.updatedAt →
        b.spoken = a.spoken → b = a := by
      intro b hkind hitem hat hspoken
      have hnew := not_dropped_empty (b.decision sha256)
      exact h b LedgerTable.empty "" 0 hnew ((dropped_appended hnew "" 0).mpr
        ((WorkAct.key_eq_iff hinj a b).mpr ⟨hkind, hitem, hat, hspoken⟩))
    have hclear := hunique.mp (by
      intro v' ws hlen hjoined
      obtain ⟨w, rfl⟩ := List.length_eq_one_iff.mp hlen
      have hb := hact { a with actor := some (String.ofList v'), detail := some (String.ofList w) }
        rfl rfl rfl (by simpa [WorkAct.spoken] using hjoined)
      have hactor : a.actor = some (String.ofList v') := by rw [← hb]
      have hdetail : a.detail = some (String.ofList w) := by rw [← hb]
      simp [hactor, hdetail])
    have hactor : ∃ actor, a.actor = some actor ∧ actor ≠ "" := by
      cases hactor : a.actor with
      | none =>
        have hb := hact { a with actor := some "" } rfl rfl rfl (by simp [WorkAct.spoken, hactor])
        rw [← hb] at hactor
        exact nomatch hactor
      | some actor =>
        refine ⟨actor, rfl, ?_⟩
        rintro rfl
        have hb := hact { a with actor := none } rfl rfl rfl (by simp [WorkAct.spoken, hactor])
        rw [← hb] at hactor
        exact nomatch hactor
    have hdetail : ∃ detail, a.detail = some detail ∧ detail ≠ "" := by
      cases hdetail : a.detail with
      | none =>
        have hb := hact { a with detail := some "" } rfl rfl rfl (by simp [WorkAct.spoken, hdetail])
        rw [← hb] at hdetail
        exact nomatch hdetail
      | some detail =>
        refine ⟨detail, rfl, ?_⟩
        rintro rfl
        have hb := hact { a with detail := none } rfl rfl rfl (by simp [WorkAct.spoken, hdetail])
        rw [← hb] at hdetail
        exact nomatch hdetail
    obtain ⟨actor, hactor, hactor'⟩ := hactor
    obtain ⟨detail, hdetail, hdetail'⟩ := hdetail
    rw [hactor, hdetail] at hclear
    exact ⟨⟨actor, hactor, hactor', hclear.1⟩, ⟨detail, hdetail, hdetail', hclear.2.1⟩⟩
  · rintro ⟨⟨actor, hactor, hactor', hclear⟩, ⟨detail, hdetail, hdetail', hclear'⟩⟩
    intro b t author now hnew hdropped
    obtain ⟨hkind, hitem, hat, hspoken⟩ :=
      (WorkAct.key_eq_iff hinj a b).mp ((dropped_appended hnew author now).mp hdropped)
    rw [hactor, hdetail] at hunique
    obtain ⟨hv, hw⟩ := hunique.mpr ⟨hclear, hclear', trivial⟩ (b.actor.getD "").toList
      [(b.detail.getD "").toList] rfl (by
        simpa [WorkAct.spoken, hactor, hdetail] using hspoken)
    have hbactor : b.actor.getD "" = actor := String.toList_inj.mp (by simpa using hv)
    have hbdetail : b.detail.getD "" = detail := String.toList_inj.mp (by simpa using hw)
    have hsome : ∀ {o : Option String} {s : String}, o.getD "" = s → s ≠ "" → o = some s := by
      intro o s ho hs
      cases o with
      | none => exact absurd ho.symm hs
      | some x => exact congrArg some ho
    have hba : b.actor = a.actor := by rw [hactor, hsome hbactor hactor']
    have hbd : b.detail = a.detail := by rw [hdetail, hsome hbdetail hdetail']
    cases a
    cases b
    simp only at hkind hitem hat hba hbd
    rw [hkind, hitem, hat, hba, hbd]

/-- Of a list of keys the hash determines the values exactly if there is at
most one key. Values of other keys are not taken for the ones at hand, in a
decision, exactly if these are plain; and no other work event for the one at
hand exactly if it is. -/
theorem payloadHash_commits_iff (hinj : Function.Injective sha256) :
    (∀ keys : List String,
      (∀ values values' : List String, values.length = keys.length →
        values'.length = keys.length →
        decisionHash sha256 (keys.zip values) = decisionHash sha256 (keys.zip values') →
          values = values') ↔ keys.length ≤ 1) ∧
    (∀ (d : DecisionInput) (fields : List (String × String)),
      (∀ kv ∈ fields, '\n' ∉ kv.1.toList) →
      ((∀ (values : List String) (t : LedgerTable) (author : String) (now : ℤ),
        values.length = fields.length →
        ¬Dropped t (d.about sha256 ((fields.map Prod.fst).zip values)) →
        Dropped (appended sha256 t ((d.about sha256 fields).append author now))
          (d.about sha256 ((fields.map Prod.fst).zip values)) →
        values = fields.map Prod.snd) ↔ Plain fields)) ∧
    ∀ a : WorkAct,
      (∀ (b : WorkAct) (t : LedgerTable) (author : String) (now : ℤ),
        ¬Dropped t (b.decision sha256) →
        Dropped (appended sha256 t ((a.decision sha256).append author now))
          (b.decision sha256) →
        b = a) ↔ a.Plain :=
  ⟨decisionHash_injective_iff hinj, about_dropped_iff hinj, work_dropped_iff hinj⟩

/-- An actor that is also the line of a detail. -/
def spokenFor : WorkAct := ⟨.workClose, "w1", some "ana\ndetail=done", some "late", 7⟩

theorem twoActs_oneEvent :
    spokenFor ≠ ⟨.workClose, "w1", some "ana", some "done\ndetail=late", 7⟩ ∧
      ¬Dropped LedgerTable.empty
        (WorkAct.decision id ⟨.workClose, "w1", some "ana", some "done\ndetail=late", 7⟩) ∧
      Dropped (appended id LedgerTable.empty ((spokenFor.decision id).append "ana" 7))
        (WorkAct.decision id ⟨.workClose, "w1", some "ana", some "done\ndetail=late", 7⟩) := by
  refine ⟨by decide, not_dropped_empty _, ?_⟩
  rw [dropped_appended (not_dropped_empty _)]
  decide

theorem plainAct_recorded :
    (⟨.workClose, "w1", some "ana", some "done", 7⟩ : WorkAct).Plain ∧
      ∀ (b : WorkAct) (t : LedgerTable) (author : String) (now : ℤ), ¬Dropped t (b.decision id) →
        Dropped (appended id t ((WorkAct.decision id ⟨.workClose, "w1", some "ana", some "done",
          7⟩).append author now)) (b.decision id) →
        b = ⟨.workClose, "w1", some "ana", some "done", 7⟩ := by
  have hplain : (⟨.workClose, "w1", some "ana", some "done", 7⟩ : WorkAct).Plain :=
    ⟨⟨"ana", rfl, by decide, by decide⟩, ⟨"done", rfl, by decide, by decide⟩⟩
  exact ⟨hplain, ((payloadHash_commits_iff Function.injective_id).2.2 _).mpr hplain⟩

end PolisMemory
