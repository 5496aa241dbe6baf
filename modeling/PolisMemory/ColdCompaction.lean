/-
# A cold compaction is undone by a restore

`crates/polis-store/src/compaction.rs`: a `cold` compaction archives the
deflated body before it is released, and `restore_prompt_body` puts it back.
What makes the two inverse is that a warm row carries none of the four marks
and has no archive row, which every write of the prompts and of the archive
keeps (`warm_of_reached`): restoring clears the marks, it does not remember
what they were.

Over any alternation of the two, of any prompts, a prompt that was warm is
either as it was or compacted with its words in the archive (`KeptWords`).

Key definitions: `Store.Reached`, `Store.Warm`, `ColdAct`, `runCold`, `KeptWords`.
Key theorems: `warm_of_reached`, `restorePromptBody_compacted`, `kept_runCold`,
`coldCompaction_undone`.
-/
import PolisMemory.AppendRuns
import PolisMemory.Compaction

namespace PolisMemory

open Tables HashChain

/-- A chain stays one when an event is appended. -/
theorem chain_appended (sha256 : String → String) {t : LedgerTable}
    (ht : Chain (rowShape sha256) genesisPrev t.rows) (a : LedgerAppend) :
    Chain (rowShape sha256) genesisPrev (appended sha256 t a).rows := by
  rw [rows_appended, chain_append]
  exact ⟨ht, prevHash_successor sha256 t a, recomputes_successor sha256 t.last a, trivial⟩

/-- The row carries none of the marks of a compaction. -/
def PromptRow.Unmarked (p : PromptRow) : Prop :=
  p.gist = none ∧ p.compactedAt = none ∧ p.originalBytes = none ∧ p.gistSource = none

/-- A row without marks is compacted and restored to itself. -/
theorem PromptRow.restored_compacted {p : PromptRow} (hp : p.Unmarked) (now : ℤ)
    (gist gistSource : String) : (p.compacted now gist "cold" gistSource).restored p.body = p := by
  obtain ⟨hgist, hat, hbytes, hsource⟩ := hp
  cases p
  simp only at hgist hat hbytes hsource
  subst hgist hat hbytes hsource
  simp [PromptRow.restored]

namespace Store

/-! ### The writes of the prompts and of the archive -/

/-- The stores a database can hold: prompts are captured without marks, their
other columns are stamped later, bodies are compacted for any reason and
restored, and everything else leaves the two tables alone. -/
inductive Reached (h : Host) : Store → Prop
  | empty : Reached h .empty
  | capture {s : Store} (p : PromptRow) (hp : p.Unmarked) (hnew : s.prompts.get? p.id = none)
      (hs : Reached h s) : Reached h { s with prompts := s.prompts.insertOrIgnore p }
  | stamp {s : Store} (which : PromptRow → Bool) (f : PromptRow → PromptRow)
      (hid : ∀ p, (f p).id = p.id)
      (hmarks : ∀ p, (f p).gist = p.gist ∧ (f p).compactedAt = p.compactedAt ∧
        (f p).originalBytes = p.originalBytes ∧ (f p).gistSource = p.gistSource)
      (hs : Reached h s) : Reached h { s with prompts := s.prompts.update which f hid }
  | compact {s t : Store} {seq : Option ℤ} (now prompt : ℤ) (gist reason gistSource actor : String)
      (archived : Bool) (hs : Reached h s)
      (hc : s.compactPromptBody h now prompt gist reason gistSource actor archived = .ok (t, seq)) :
      Reached h t
  | restore {s t : Store} {back : Bool} (prompt : ℤ) (hs : Reached h s)
      (hr : s.restorePromptBody h prompt = .ok (t, back)) : Reached h t
  | elsewhere {s t : Store} (hs : Reached h s) (hprompts : t.prompts = s.prompts)
      (harchive : t.archive = s.archive) : Reached h t

/-- Warm rows carry no marks, and only compacted ones have an archive row. -/
structure Warm (s : Store) : Prop where
  unmarked : ∀ id p, s.prompts.get? id = some p → p.gist = none → p.Unmarked
  archived : ∀ id a, s.archive.get? id = some a → ∃ p, s.prompts.get? id = some p ∧ p.gist ≠ none

/-- What a compaction that took place did to the store. -/
theorem compactPromptBody_ok {h : Host} {s t : Store} {now prompt seq : ℤ}
    {gist reason gistSource actor : String} {archived : Bool}
    (hc : s.compactPromptBody h now prompt gist reason gistSource actor archived =
      .ok (t, some seq)) :
    ∃ p, s.warmPrompt? prompt reason = some p ∧
      t.archive = s.archiveFor h now p reason archived ∧
      t.prompts = s.prompts.update
        (fun q => q.id = prompt && (q.gist = none || reason = "forget"))
        (PromptRow.compacted now gist reason gistSource) ∧
      t.ledger = appended h.sha256 s.ledger (compactionEvent h now p gist reason actor) ∧
      (reason ≠ "forget" → t.forgottenSources = s.forgottenSources) := by
  unfold compactPromptBody at hc
  cases hw : s.warmPrompt? prompt reason with
  | none => simp [hw] at hc
  | some p =>
    refine ⟨p, rfl, ?_⟩
    rw [hw] at hc
    by_cases hforget : reason = "forget"
    · simp only [hforget, if_true] at hc
      obtain ⟨u, hf, hc⟩ := bind_eq_ok.mp hc
      cases hc
      unfold forgetPrompt at hf
      split at hf
      · cases hf
      · cases hf
        subst hforget
        exact ⟨rfl, rfl, rfl, fun hne => absurd rfl hne⟩
    · simp only [if_neg hforget] at hc
      cases hc
      exact ⟨rfl, rfl, rfl, fun _ => rfl⟩

/-- A compaction that did not take place changed nothing: there is no such
warm prompt. -/
theorem compactPromptBody_none {h : Host} {s t : Store} {now prompt : ℤ}
    {gist reason gistSource actor : String} {archived : Bool}
    (hc : s.compactPromptBody h now prompt gist reason gistSource actor archived = .ok (t, none)) :
    t = s ∧ s.warmPrompt? prompt reason = none := by
  unfold compactPromptBody at hc
  cases hw : s.warmPrompt? prompt reason with
  | none =>
    rw [hw] at hc
    cases hc
    exact ⟨rfl, rfl⟩
  | some p =>
    rw [hw] at hc
    by_cases hforget : reason = "forget"
    · simp only [hforget, if_true] at hc
      obtain ⟨u, -, hc⟩ := bind_eq_ok.mp hc
      cases hc
    · simp only [if_neg hforget] at hc
      cases hc

/-- What a restore did: nothing, or the words are back and their archive row
is gone. -/
theorem restorePromptBody_ok {h : Host} {s t : Store} {prompt : ℤ} {back : Bool}
    (hr : s.restorePromptBody h prompt = .ok (t, back)) :
    (back = false ∧ t = s) ∨
    (back = true ∧ ∃ a p body, s.archive.get? prompt = some a ∧ s.prompts.get? prompt = some p ∧
      h.inflate a.blob = some body ∧ h.bodyHash body = a.bodyHash ∧ p.bodyHash = a.bodyHash ∧
      t = { s with
        prompts := s.prompts.update (fun p => p.id = prompt && p.bodyHash = a.bodyHash)
          (PromptRow.restored body)
        archive := s.archive.delete fun a => a.promptId = prompt }) := by
  unfold restorePromptBody at hr
  split at hr
  · cases hr
    exact .inl ⟨rfl, rfl⟩
  split at hr
  · cases hr
    exact .inl ⟨rfl, rfl⟩
  case h_2 a ha =>
    split at hr
    · cases hr
    split at hr
    · cases hr
    case h_2 body hbody =>
      split at hr
      · cases hr
      case isFalse hhash =>
        split at hr
        case isTrue hany =>
          cases hr
          obtain ⟨p, hp, hph⟩ := (Option.any_eq_true _ _).mp hany
          exact .inr ⟨rfl, a, p, body, ha, hp, hbody, not_not.mp hhash, of_decide_eq_true hph, rfl⟩
        case isFalse =>
          cases hr
          exact .inl ⟨rfl, rfl⟩

/-! ### Warm rows -/

/-- A warm row has no archive row. -/
theorem Warm.archive_none {s : Store} (hs : s.Warm) {id : ℤ} {p : PromptRow}
    (hp : s.prompts.get? id = some p) (hgist : p.gist = none) : s.archive.get? id = none := by
  by_contra hne
  obtain ⟨a, ha⟩ := Option.ne_none_iff_exists'.mp hne
  obtain ⟨q, hq, hcold⟩ := hs.archived id a ha
  exact hcold (Option.some.inj (hq.symm.trans hp) ▸ hgist)

theorem warm_empty : Warm .empty where
  unmarked _ _ hp := nomatch hp
  archived _ _ ha := nomatch ha

theorem warm_capture {s : Store} (hs : s.Warm) {p : PromptRow} (hp : p.Unmarked) :
    Warm { s with prompts := s.prompts.insertOrIgnore p } where
  unmarked id q hq hgist := by
    simp only [Table.get?_insertOrIgnore] at hq
    rcases Option.or_eq_some_iff.mp hq with hold | ⟨-, hq⟩
    · exact hs.unmarked id q hold hgist
    · by_cases hid : p.id = id
      · rw [if_pos hid, Option.some.injEq] at hq
        exact hq ▸ hp
      · rw [if_neg hid] at hq
        cases hq
  archived id a ha := by
    obtain ⟨q, hq, hgist⟩ := hs.archived id a ha
    exact ⟨q, by rw [Table.get?_insertOrIgnore, hq, Option.some_or], hgist⟩

theorem warm_stamp {s : Store} (hs : s.Warm) {which : PromptRow → Bool} {f : PromptRow → PromptRow}
    {hid : ∀ p, (f p).id = p.id}
    (hmarks : ∀ p, (f p).gist = p.gist ∧ (f p).compactedAt = p.compactedAt ∧
      (f p).originalBytes = p.originalBytes ∧ (f p).gistSource = p.gistSource) :
    Warm { s with prompts := s.prompts.update which f hid } where
  unmarked id q hq hgist := by
    simp only [Table.get?_update, Option.map_eq_some_iff] at hq
    obtain ⟨p, hp, rfl⟩ := hq
    by_cases hw : which p = true
    · rw [if_pos hw] at hgist ⊢
      obtain ⟨h1, h2, h3, h4⟩ := hmarks p
      have hplain := hs.unmarked id p hp (h1 ▸ hgist)
      exact ⟨h1.trans hplain.1, h2.trans hplain.2.1, h3.trans hplain.2.2.1, h4.trans hplain.2.2.2⟩
    · rw [if_neg hw] at hgist ⊢
      exact hs.unmarked id p hp hgist
  archived id a ha := by
    obtain ⟨p, hp, hgist⟩ := hs.archived id a ha
    refine ⟨_, by rw [Table.get?_update, hp, Option.map_some], ?_⟩
    by_cases hw : which p = true
    · rw [if_pos hw, (hmarks p).1]
      exact hgist
    · rw [if_neg hw]
      exact hgist

theorem warm_compact {h : Host} {s t : Store} (hs : s.Warm) {now prompt : ℤ} {seq : Option ℤ}
    {gist reason gistSource actor : String} {archived : Bool}
    (hc : s.compactPromptBody h now prompt gist reason gistSource actor archived = .ok (t, seq)) :
    t.Warm := by
  cases seq with
  | none => exact (compactPromptBody_none hc).1 ▸ hs
  | some seq =>
    obtain ⟨p, hp, harchive, hprompts, -, -⟩ := compactPromptBody_ok hc
    obtain ⟨hget, hwarm, -⟩ := warmPrompt?_iff.mp hp
    have hpid := Table.key_of_get? hget
    -- the prompt itself is compacted, the others are as they were
    have hself : ∃ q, t.prompts.get? prompt = some q ∧ q.gist ≠ none := by
      refine ⟨p.compacted now gist reason gistSource, ?_, nofun⟩
      rw [hprompts, Table.get?_update, hget, Option.map_some, if_pos]
      simpa [hpid] using hwarm
    have hother : ∀ id, id ≠ prompt → t.prompts.get? id = s.prompts.get? id := by
      intro id hne
      rw [hprompts, Table.get?_update]
      cases hq : s.prompts.get? id with
      | none => rfl
      | some q => simp [Table.key_of_get? hq, hne]
    have hrows : ∀ id a, t.archive.get? id = some a → id = prompt ∨ s.archive.get? id = some a := by
      intro id a ha
      rw [harchive] at ha
      unfold archiveFor at ha
      split at ha
      · split at ha
        · rw [Table.get?_upsert] at ha
          split at ha
          case isTrue hid => exact .inl (hid.symm.trans hpid)
          case isFalse => exact .inr ha
        · exact .inr ha
      · rw [Table.get?_delete] at ha
        exact .inr (Option.filter_eq_some_iff.mp ha).1
    constructor
    · intro id q hq hgist
      by_cases hid : id = prompt
      · obtain ⟨q', hq', hgist'⟩ := hself
        rw [hid, hq'] at hq
        exact absurd (Option.some.inj hq ▸ hgist) hgist'
      · exact hs.unmarked id q (hother id hid ▸ hq) hgist
    · intro id a ha
      by_cases hid : id = prompt
      · exact hid ▸ hself
      · rw [hother id hid]
        exact hs.archived id a ((hrows id a ha).resolve_left hid)

theorem warm_restore {h : Host} {s t : Store} (hs : s.Warm) {prompt : ℤ} {back : Bool}
    (hr : s.restorePromptBody h prompt = .ok (t, back)) : t.Warm := by
  obtain ⟨-, rfl⟩ | ⟨-, a, p, body, -, -, -, -, -, rfl⟩ := restorePromptBody_ok hr
  · exact hs
  constructor
  · intro id q hq hgist
    simp only [Table.get?_update, Option.map_eq_some_iff] at hq
    obtain ⟨p, hp, rfl⟩ := hq
    split at hgist
    · rw [if_pos ‹_›]
      exact ⟨rfl, rfl, rfl, rfl⟩
    · rw [if_neg ‹_›]
      exact hs.unmarked id p hp hgist
  · intro id b hb
    simp only [Table.get?_delete, Option.filter_eq_some_iff] at hb
    obtain ⟨hb, hne⟩ := hb
    obtain ⟨q, hq, hgist⟩ := hs.archived id b hb
    have hid : q.id ≠ prompt := by
      have hkey : b.promptId = id := Table.key_of_get? hb
      rw [Table.key_of_get? hq, ← hkey]
      simpa using hne
    refine ⟨q, ?_, hgist⟩
    simp [hq, hid]

/-- **In every store a database can hold, a warm row carries no marks and has
no archive row.** -/
theorem warm_of_reached {h : Host} {s : Store} (hs : Reached h s) : s.Warm := by
  induction hs with
  | empty => exact warm_empty
  | capture p hp _ _ ih => exact warm_capture ih hp
  | stamp which f hid hmarks _ ih => exact warm_stamp ih hmarks
  | compact now prompt gist reason gistSource actor archived _ hc ih => exact warm_compact ih hc
  | restore prompt _ hr ih => exact warm_restore ih hr
  | elsewhere _ hprompts harchive ih =>
    exact ⟨by rw [hprompts]; exact ih.unmarked, by rw [hprompts, harchive]; exact ih.archived⟩

/-! ### There and back -/

/-- An archive row with the words of a prompt. -/
def HoldsWords (h : Host) (p : PromptRow) (a : ArchiveRow) : Prop :=
  a.algo = archiveAlgo ∧ a.bodyHash = p.bodyHash ∧ h.inflate a.blob = some p.body

/-- Restoring a compacted prompt whose words are in the archive. -/
theorem restorePromptBody_compacted {h : Host} {t : Store} {p : PromptRow} {a : ArchiveRow}
    {now : ℤ} {gist gistSource : String} (hhash : h.bodyHash p.body = p.bodyHash)
    (hrow : t.prompts.get? p.id = some (p.compacted now gist "cold" gistSource))
    (ha : t.archive.get? p.id = some a) (hwords : HoldsWords h p a)
    (hforgotten : t.forgottenSources.get? p.id = none) :
    t.restorePromptBody h p.id = .ok ({ t with
      prompts := t.prompts.update (fun q => q.id = p.id && q.bodyHash = p.bodyHash)
        (PromptRow.restored p.body)
      archive := t.archive.delete fun a => a.promptId = p.id }, true) := by
  obtain ⟨halgo, hahash, hinflate⟩ := hwords
  simp [restorePromptBody, hforgotten, ha, halgo, hinflate, hahash, hhash, hrow]

/-- **A cold compaction that took place is undone by a restore**: the prompts
are the ones before it, and the archive has no row of the prompt. -/
theorem restorePromptBody_after {h : Host} {s t : Store} {now prompt seq : ℤ} {p : PromptRow}
    {gist gistSource actor : String} (hs : s.Warm)
    (hp : s.prompts.get? prompt = some p) (hhash : h.bodyHash p.body = p.bodyHash)
    (hc : s.compactPromptBody h now prompt gist "cold" gistSource actor true =
      .ok (t, some seq)) :
    ∃ u, t.restorePromptBody h prompt = .ok (u, true) ∧ u.prompts = s.prompts ∧
      ∀ id, u.archive.get? id = if id = prompt then none else s.archive.get? id := by
  obtain ⟨p', hp', harchive, hprompts, -, hforgotten⟩ := compactPromptBody_ok hc
  obtain ⟨hget, hgist, hf⟩ := warmPrompt?_iff.mp hp'
  obtain rfl : p = p' := Option.some.inj (hp.symm.trans hget)
  obtain rfl : p.id = prompt := Table.key_of_get? hp
  have hwarm : p.gist = none := hgist.resolve_right (by decide)
  have hplain := hs.unmarked p.id p hp hwarm
  have hrow : t.prompts.get? p.id = some (p.compacted now gist "cold" gistSource) := by
    rw [hprompts, Table.get?_update, hp, Option.map_some, if_pos (by simp [hwarm])]
  have ha : t.archive.get? p.id =
      some ⟨p.id, p.bodyHash, archiveAlgo, p.body.utf8ByteSize, h.deflate p.body, now⟩ := by
    rw [harchive, archiveFor, if_pos rfl, if_pos rfl, Table.get?_upsert, if_pos rfl]
  refine ⟨_, restorePromptBody_compacted hhash hrow ha ⟨rfl, rfl, h.inflate_deflate _⟩
    ((hforgotten (by decide)).symm ▸ hf), Table.ext ?_, fun id => ?_⟩
  · rw [hprompts]
    simp only [Table.rows_update, List.map_map]
    conv_rhs => rw [← List.map_id s.prompts.rows]
    refine List.map_congr_left fun q hq => ?_
    by_cases hid : q.id = p.id
    · obtain rfl : q = p := Option.some.inj ((hid ▸ Table.mem_rows.mp hq).symm.trans hp)
      have hback := PromptRow.restored_compacted hplain now gist gistSource
      simpa [hwarm] using hback
    · simp [hid]
  · rw [Table.get?_delete, harchive, archiveFor, if_pos rfl, if_pos rfl, Table.get?_upsert]
    by_cases hid : p.id = id
    · rw [if_pos hid, if_pos hid.symm]
      simp
    · rw [if_neg hid, if_neg (Ne.symm hid)]
      cases hb : s.archive.get? id with
      | none => rfl
      | some b => simp [Table.key_of_get? hb, Ne.symm hid]

end Store

/-! ### Alternating -/

/-- A cold compaction whose archive row is written, or a restore. -/
inductive ColdAct
  | compact (now prompt : ℤ) (gist gistSource actor : String)
  | restore (prompt : ℤ)

namespace ColdAct

/-- Both name the same call on the same prompt. -/
def Repeats : ColdAct → ColdAct → Prop
  | compact _ prompt _ _ _, compact _ prompt' _ _ _ => prompt = prompt'
  | restore prompt, restore prompt' => prompt = prompt'
  | _, _ => False

/-- The store after the call, and whether it reports a change. -/
def exec (h : Host) (s : Store) : ColdAct → Except DbError (Store × Bool)
  | compact now prompt gist gistSource actor => do
    let (s, seq) ← s.compactPromptBody h now prompt gist "cold" gistSource actor true
    return (s, seq.isSome)
  | restore prompt => s.restorePromptBody h prompt

/-- The store after the call; one that fails is rolled back. -/
def after (h : Host) (s : Store) (a : ColdAct) : Store :=
  match a.exec h s with
  | .ok (t, _) => t
  | .error _ => s

variable {h : Host}

/-- What a call did: nothing, or a compaction, or a restore. -/
theorem exec_ok {s t : Store} {a : ColdAct} {changed : Bool} (ha : a.exec h s = .ok (t, changed)) :
    (changed = false ∧ t = s) ∨
    (changed = true ∧ ∃ now prompt gist gistSource actor seq,
      a = compact now prompt gist gistSource actor ∧
      s.compactPromptBody h now prompt gist "cold" gistSource actor true = .ok (t, some seq)) ∨
    (changed = true ∧ ∃ prompt, a = restore prompt ∧ s.restorePromptBody h prompt = .ok (t, true)) := by
  cases a with
  | compact now prompt gist gistSource actor =>
    obtain ⟨⟨u, seq⟩, hc, hu⟩ := Store.bind_eq_ok.mp ha
    cases hu
    cases seq with
    | none => exact .inl ⟨rfl, (Store.compactPromptBody_none hc).1⟩
    | some seq => exact .inr (.inl ⟨rfl, now, prompt, gist, gistSource, actor, seq, rfl, hc⟩)
  | restore prompt =>
    obtain ⟨rfl, rfl⟩ | ⟨rfl, -⟩ := Store.restorePromptBody_ok ha
    · exact .inl ⟨rfl, rfl⟩
    · exact .inr (.inr ⟨rfl, prompt, rfl, ha⟩)

/-- A call keeps whatever its two writes keep. -/
theorem after_induction {motive : Store → Prop} {s : Store} (a : ColdAct) (hs : motive s)
    (hcompact : ∀ {now prompt gist gistSource actor seq t},
      s.compactPromptBody h now prompt gist "cold" gistSource actor true = .ok (t, some seq) →
      motive t)
    (hrestore : ∀ {prompt t}, s.restorePromptBody h prompt = .ok (t, true) → motive t) :
    motive (a.after h s) := by
  unfold after
  cases ha : a.exec h s with
  | error e => exact hs
  | ok r =>
    obtain ⟨t, changed⟩ := r
    obtain ⟨-, rfl⟩ | ⟨-, now, prompt, gist, gistSource, actor, seq, -, hc⟩ | ⟨-, prompt, -, hr⟩ :=
      exec_ok ha
    · exact hs
    · exact hcompact hc
    · exact hrestore hr

theorem reached_after {s : Store} (a : ColdAct) (hs : s.Reached h) : (a.after h s).Reached h :=
  after_induction a hs (fun hc => .compact _ _ _ _ _ _ _ hs hc) fun hr => .restore _ hs hr

/-- No call changes the hash of a body. -/
theorem bodyHash_after {s : Store} (a : ColdAct) (id : ℤ) :
    ((a.after h s).prompts.get? id).map PromptRow.bodyHash =
      (s.prompts.get? id).map PromptRow.bodyHash := by
  refine after_induction (motive := fun t => (t.prompts.get? id).map PromptRow.bodyHash =
    (s.prompts.get? id).map PromptRow.bodyHash) a rfl (fun hc => ?_) fun hr => ?_
  · obtain ⟨p, -, -, hprompts, -, -⟩ := Store.compactPromptBody_ok hc
    rw [hprompts, Table.get?_update, Option.map_map]
    congr 1
    funext q
    simp only [Function.comp_apply]
    split <;> rfl
  · obtain ⟨hfalse, -⟩ | ⟨-, a, p, body, -, -, -, -, -, rfl⟩ := Store.restorePromptBody_ok hr
    · cases hfalse
    rw [Table.get?_update, Option.map_map]
    congr 1
    funext q
    simp only [Function.comp_apply]
    split <;> rfl

/-- The chain verifies after a call if it did before. -/
theorem chain_after {s : Store} (a : ColdAct)
    (hs : Chain (rowShape h.sha256) genesisPrev s.ledger.rows) :
    Chain (rowShape h.sha256) genesisPrev (a.after h s).ledger.rows := by
  refine after_induction (motive := fun t => Chain (rowShape h.sha256) genesisPrev t.ledger.rows) a hs
    (fun hc => ?_) fun hr => ?_
  · obtain ⟨p, -, -, -, hledger, -⟩ := Store.compactPromptBody_ok hc
    rw [hledger]
    exact chain_appended h.sha256 hs _
  · obtain ⟨hfalse, -⟩ | ⟨-, a, p, body, -, -, -, -, -, rfl⟩ := Store.restorePromptBody_ok hr
    · cases hfalse
    exact hs

/-- **A call made again changes nothing.** -/
theorem exec_repeated {s t : Store} {a b : ColdAct} {changed : Bool}
    (ha : a.exec h s = .ok (t, changed)) (hb : a.Repeats b) : b.exec h t = .ok (t, false) := by
  cases a with
  | compact now prompt gist gistSource actor =>
    cases b with
    | restore _ => exact hb.elim
    | compact now' prompt' gist' gistSource' actor' =>
      obtain rfl : prompt = prompt' := hb
      obtain ⟨⟨u, seq⟩, hc, hu⟩ := Store.bind_eq_ok.mp ha
      cases hu
      suffices hcold : t.warmPrompt? prompt "cold" = none by
        simp [exec, Store.compactPromptBody, hcold, bind, Except.bind, pure, Except.pure]
      cases seq with
      | none =>
        obtain ⟨rfl, hcold⟩ := Store.compactPromptBody_none hc
        exact hcold
      | some seq =>
        obtain ⟨p, hp, -, hprompts, -, -⟩ := Store.compactPromptBody_ok hc
        obtain ⟨hget, hgist, -⟩ := Store.warmPrompt?_iff.mp hp
        have hwarm : p.gist = none := hgist.resolve_right (by decide)
        unfold Store.warmPrompt?
        rw [hprompts, Table.get?_update, hget, Option.map_some,
          if_pos (by simp [hwarm, Table.key_of_get? hget])]
        simp
  | restore prompt =>
    cases b with
    | compact => exact hb.elim
    | restore prompt' =>
      obtain rfl : prompt = prompt' := hb
      obtain ⟨rfl, rfl⟩ | ⟨rfl, a, p, body, -, -, -, -, -, rfl⟩ := Store.restorePromptBody_ok ha
      · exact ha
      · have hgone : (s.archive.delete fun a => a.promptId = prompt).get? prompt = none := by
          rw [Table.get?_delete]
          cases hb : s.archive.get? prompt with
          | none => rfl
          | some b => simp [Table.key_of_get? hb]
        simp [exec, Store.restorePromptBody, hgone]

end ColdAct

/-- The store after the calls, in their order. -/
def runCold (h : Host) (s : Store) (acts : List ColdAct) : Store :=
  acts.foldl (ColdAct.after h) s

section

variable {h : Host}

/-- What every call keeps is kept by all of them. -/
theorem runCold_induction {motive : Store → Prop} {s : Store} (acts : List ColdAct) (hs : motive s)
    (hstep : ∀ t (a : ColdAct), motive t → motive (a.after h t)) : motive (runCold h s acts) := by
  induction acts generalizing s with
  | nil => exact hs
  | cons a acts ih => exact ih (hstep s a hs)

/-- A prompt that was warm is as it was, or compacted with its words in the
archive. -/
def KeptWords (h : Host) (p : PromptRow) (t : Store) : Prop :=
  t.prompts.get? p.id = some p ∨
  (∃ now gist gistSource, t.prompts.get? p.id = some (p.compacted now gist "cold" gistSource)) ∧
    (∃ a, t.archive.get? p.id = some a ∧ Store.HoldsWords h p a) ∧
    t.forgottenSources.get? p.id = none

theorem keptWords_after {p : PromptRow} {t : Store} (hwarm : t.Warm) (hplain : p.Unmarked)
    (hhash : h.bodyHash p.body = p.bodyHash) (hk : KeptWords h p t) (a : ColdAct) :
    KeptWords h p (a.after h t) := by
  obtain hrow | ⟨⟨now₀, gist₀, source₀, hrow⟩, ⟨a₀, ha₀, hwords⟩, hforgotten₀⟩ := hk
  -- still warm: a restore finds nothing archived, a compaction archives the words
  · have hnone : t.archive.get? p.id = none := hwarm.archive_none hrow hplain.1
    refine ColdAct.after_induction a (.inl hrow) (fun {now prompt gist gistSource actor seq u} hc => ?_)
      fun {prompt u} hr => ?_
    · obtain ⟨q, hq, harchive, hprompts, -, hforgotten⟩ := Store.compactPromptBody_ok hc
      obtain ⟨hget, -, hf⟩ := Store.warmPrompt?_iff.mp hq
      by_cases hid : prompt = p.id
      · subst hid
        obtain rfl : p = q := Option.some.inj (hrow.symm.trans hget)
        have ha : u.archive.get? p.id =
            some ⟨p.id, p.bodyHash, archiveAlgo, p.body.utf8ByteSize, h.deflate p.body, now⟩ := by
          rw [harchive, Store.archiveFor, if_pos rfl, if_pos rfl, Table.get?_upsert, if_pos rfl]
        refine .inr ⟨⟨now, gist, gistSource, ?_⟩, ⟨_, ha, rfl, rfl, h.inflate_deflate _⟩, ?_⟩
        · rw [hprompts, Table.get?_update, hrow, Option.map_some, if_pos (by simp [hplain.1])]
        · exact (hforgotten (by decide)).symm ▸ hf
      · refine .inl ?_
        rw [hprompts, Table.get?_update, hrow, Option.map_some, if_neg (by simp [Ne.symm hid])]
    · obtain ⟨hfalse, -⟩ | ⟨-, a, q, body, ha, -, -, -, -, rfl⟩ := Store.restorePromptBody_ok hr
      · cases hfalse
      have hid : prompt ≠ p.id := by
        rintro rfl
        exact nomatch hnone.symm.trans ha
      refine .inl ?_
      rw [Table.get?_update, hrow, Option.map_some, if_neg (by simp [Ne.symm hid])]
  -- compacted: no compaction takes it again, and a restore brings it back
  · refine ColdAct.after_induction a
      (.inr ⟨⟨now₀, gist₀, source₀, hrow⟩, ⟨a₀, ha₀, hwords⟩, hforgotten₀⟩)
      (fun {now prompt gist gistSource actor seq u} hc => ?_) fun {prompt u} hr => ?_
    · obtain ⟨q, hq, harchive, hprompts, -, hforgotten⟩ := Store.compactPromptBody_ok hc
      obtain ⟨hget, hcold, -⟩ := Store.warmPrompt?_iff.mp hq
      have hid : prompt ≠ p.id := by
        rintro rfl
        obtain rfl := Option.some.inj (hrow.symm.trans hget)
        exact nomatch hcold.resolve_right (by decide)
      have hqid : q.id ≠ p.id := Table.key_of_get? hget ▸ hid
      refine .inr ⟨⟨now₀, gist₀, source₀, ?_⟩, ⟨a₀, ?_, hwords⟩, ?_⟩
      · rw [hprompts, Table.get?_update, hrow, Option.map_some, if_neg (by simp [Ne.symm hid])]
      · rw [harchive, Store.archiveFor, if_pos rfl, if_pos rfl, Table.get?_upsert, if_neg hqid, ha₀]
      · rw [hforgotten (by decide)]
        exact hforgotten₀
    · by_cases hid : prompt = p.id
      · subst hid
        rw [Store.restorePromptBody_compacted hhash hrow ha₀ hwords hforgotten₀] at hr
        cases hr
        refine .inl ?_
        rw [Table.get?_update, hrow, Option.map_some, if_pos (by simp)]
        exact congrArg some (PromptRow.restored_compacted hplain now₀ gist₀ source₀)
      · obtain ⟨hfalse, -⟩ | ⟨-, a, q, body, ha, -, -, -, -, rfl⟩ := Store.restorePromptBody_ok hr
        · cases hfalse
        have hkey : a₀.promptId = p.id := Table.key_of_get? ha₀
        refine .inr ⟨⟨now₀, gist₀, source₀, ?_⟩, ⟨a₀, ?_, hwords⟩, hforgotten₀⟩
        · rw [Table.get?_update, hrow, Option.map_some, if_neg (by simp [Ne.symm hid])]
        · rw [Table.get?_delete, ha₀, Option.filter_some, if_pos (by simp [hkey, Ne.symm hid])]

/-- After any calls, a restore leaves a prompt that was warm as it was. -/
theorem restorePromptBody_kept {p : PromptRow} {t : Store} (hwarm : t.Warm) (hplain : p.Unmarked)
    (hhash : h.bodyHash p.body = p.bodyHash) (hk : KeptWords h p t) :
    ∃ u back, t.restorePromptBody h p.id = .ok (u, back) ∧ u.prompts.get? p.id = some p ∧
      u.archive.get? p.id = none := by
  obtain hrow | ⟨⟨now₀, gist₀, source₀, hrow⟩, ⟨a₀, ha₀, hwords⟩, hforgotten₀⟩ := hk
  · have hnone : t.archive.get? p.id = none := hwarm.archive_none hrow hplain.1
    refine ⟨t, false, ?_, hrow, hnone⟩
    simp [Store.restorePromptBody, hnone]
  · refine ⟨_, true, Store.restorePromptBody_compacted hhash hrow ha₀ hwords hforgotten₀, ?_, ?_⟩
    · rw [Table.get?_update, hrow, Option.map_some, if_pos (by simp)]
      exact congrArg some (PromptRow.restored_compacted hplain now₀ gist₀ source₀)
    · have hkey : a₀.promptId = p.id := Table.key_of_get? ha₀
      rw [Table.get?_delete, ha₀, Option.filter_some, if_neg (by simp [hkey])]

theorem reached_runCold {s : Store} (hs : s.Reached h) (acts : List ColdAct) :
    (runCold h s acts).Reached h :=
  runCold_induction acts hs fun _ a ht => a.reached_after ht

theorem keptWords_runCold {s : Store} {p : PromptRow} (hs : s.Reached h)
    (hp : s.prompts.get? p.id = some p) (hplain : p.Unmarked)
    (hhash : h.bodyHash p.body = p.bodyHash) (acts : List ColdAct) :
    KeptWords h p (runCold h s acts) := by
  have hboth : (runCold h s acts).Reached h ∧ KeptWords h p (runCold h s acts) :=
    runCold_induction (motive := fun t => t.Reached h ∧ KeptWords h p t) acts ⟨hs, .inl hp⟩
      fun t a ht => ⟨a.reached_after ht.1,
        keptWords_after (Store.warm_of_reached ht.1) hplain hhash ht.2 a⟩
  exact hboth.2

theorem bodyHash_runCold (s : Store) (acts : List ColdAct) (id : ℤ) :
    ((runCold h s acts).prompts.get? id).map PromptRow.bodyHash =
      (s.prompts.get? id).map PromptRow.bodyHash :=
  runCold_induction (motive := fun t => (t.prompts.get? id).map PromptRow.bodyHash =
    (s.prompts.get? id).map PromptRow.bodyHash) acts rfl fun _ a ht =>
      (a.bodyHash_after id).trans ht

theorem chain_runCold {s : Store} (acts : List ColdAct)
    (hs : Chain (rowShape h.sha256) genesisPrev s.ledger.rows) :
    Chain (rowShape h.sha256) genesisPrev (runCold h s acts).ledger.rows :=
  runCold_induction (motive := fun t => Chain (rowShape h.sha256) genesisPrev t.ledger.rows) acts hs
    fun _ a ht => a.chain_after ht

/-- **A cold compaction is undone by a restore**, and over any alternation of
the two the hashes of the bodies stay, the words that were there can be
brought back, a call made again changes nothing, and the chain verifies. -/
theorem coldCompaction_undone (h : Host) {s : Store} (hs : s.Reached h) :
    (∀ now prompt gist gistSource actor t seq p, s.prompts.get? prompt = some p →
      h.bodyHash p.body = p.bodyHash →
      s.compactPromptBody h now prompt gist "cold" gistSource actor true = .ok (t, some seq) →
      ∃ u, t.restorePromptBody h prompt = .ok (u, true) ∧ u.prompts = s.prompts ∧
        ∀ id, u.archive.get? id = if id = prompt then none else s.archive.get? id) ∧
    ∀ acts, let t := runCold h s acts
      (∀ id, (t.prompts.get? id).map PromptRow.bodyHash =
        (s.prompts.get? id).map PromptRow.bodyHash) ∧
      (∀ p, s.prompts.get? p.id = some p → p.gist = none → h.bodyHash p.body = p.bodyHash →
        ∃ u back, t.restorePromptBody h p.id = .ok (u, back) ∧ u.prompts.get? p.id = some p ∧
          u.archive.get? p.id = none) ∧
      (∀ a b u changed, ColdAct.exec h t a = .ok (u, changed) → a.Repeats b →
        ColdAct.exec h u b = .ok (u, false)) ∧
      ((verifyLedgerChain h.sha256 s.ledger).ok = true →
        (verifyLedgerChain h.sha256 t.ledger).ok = true) := by
  have hwarm := Store.warm_of_reached hs
  refine ⟨?_, fun acts => ⟨bodyHash_runCold s acts, ?_, ?_, ?_⟩⟩
  · intro now prompt gist gistSource actor t seq p hp hhash hc
    exact Store.restorePromptBody_after hwarm hp hhash hc
  · intro p hp hgist hhash
    have hplain := hwarm.unmarked p.id p hp hgist
    exact restorePromptBody_kept (Store.warm_of_reached (reached_runCold hs acts)) hplain hhash
      (keptWords_runCold hs hp hplain hhash acts)
  · intro a b u changed ha hb
    exact ColdAct.exec_repeated ha hb
  · intro hok
    rw [verifyLedgerChain_ok] at hok ⊢
    exact chain_runCold acts hok

/-- A prompt captured, compacted and restored. -/
theorem onePrompt_undone :
    let p : PromptRow := ⟨1, 0, some "user", none, none, none, none, none, none, "the words",
      Host.plain.bodyHash "the words", none, none, none, none, some "the words"⟩
    let s : Store := { Store.empty with prompts := Table.insertOrIgnore ∅ p }
    let t := runCold Host.plain s [.compact 5 1 "gist" "model" "gardener", .restore 1]
    ∃ u back, t.restorePromptBody Host.plain 1 = .ok (u, back) ∧ u.prompts.get? 1 = some p ∧
      u.archive.get? 1 = none := by
  intro p s t
  have hs : s.Reached Host.plain := .capture p ⟨rfl, rfl, rfl, rfl⟩ rfl .empty
  exact ((coldCompaction_undone Host.plain hs).2 _).2.1 p (by simp [s, p]) rfl rfl

end

end PolisMemory
