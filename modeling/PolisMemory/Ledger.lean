/-
# The ledger's events and their hash

`crates/polis-core/src/ledger.rs`: the canonical event, the one place its
shape is defined, and `entry_hash = sha256(prev_hash ‖ canonical-json(event))`.
The digest is the `sha2` crate's and is a parameter; the canonical JSON is
`serde_json`'s compact text of the struct, its fields in declaration order.

If the digest is injective, so is the entry hash in its two arguments,
whatever string stands for the previous hash (`computeEntryHash_inj`): the
event's text can be read back from the right end.

Key definitions: `CanonicalEvent`, `LedgerEventRow`, `computeEntryHash`,
`canonicalOf`, `rowShape`.
Key theorems: `canonicalJson_suffix`, `computeEntryHash_inj`, `entry_inj`.
-/
import Mathlib.Data.List.Nodup
import PolisMemory.HashChain
import PolisMemory.JsonText

namespace PolisMemory

/-- Genesis predecessor hash: 64 hex zeros. -/
def genesisPrev : String := "0000000000000000000000000000000000000000000000000000000000000000"

/-- The form of an event that gets hashed. -/
structure CanonicalEvent where
  seq : ℤ
  ts : ℤ
  kind : String
  author : String
  promptId : Option ℤ
  sessionId : Option String
  versionNumber : Option ℤ
  refKind : Option String
  refId : Option String
  payloadHash : String
  deriving DecidableEq, Repr

/-- What a caller of the append brings; `seq` and the two hashes are the
append's. -/
structure LedgerAppend where
  kind : String
  author : String
  ts : ℤ
  promptId : Option ℤ
  sessionId : Option String
  versionNumber : Option ℤ
  refKind : Option String
  refId : Option String
  payloadHash : String
  deriving DecidableEq, Repr

/-- A row of `ledger_events`. -/
structure LedgerEventRow where
  seq : ℤ
  ts : ℤ
  kind : String
  author : String
  promptId : Option ℤ
  sessionId : Option String
  versionNumber : Option ℤ
  refKind : Option String
  refId : Option String
  payloadHash : String
  prevHash : String
  entryHash : String
  deriving DecidableEq, Repr

/-- The canonical form of a stored row. -/
def canonicalOf (row : LedgerEventRow) : CanonicalEvent where
  seq := row.seq
  ts := row.ts
  kind := row.kind
  author := row.author
  promptId := row.promptId
  sessionId := row.sessionId
  versionNumber := row.versionNumber
  refKind := row.refKind
  refId := row.refId
  payloadHash := row.payloadHash

/-! ### The canonical JSON -/

open JsonText

/-- `serde_json` on an `Option<i64>`. -/
def optInt : Option ℤ → Scalar
  | none => .null
  | some n => .int n

/-- `serde_json` on an `Option<&str>`. -/
def optStr : Option String → Scalar
  | none => .null
  | some s => .str s

/-- The field names after `seq`, in declaration order. -/
def canonicalKeys : List String :=
  ["ts", "kind", "author", "prompt_id", "session_id", "version_number", "ref_kind", "ref_id",
    "payload_hash"]

/-- The fields' values, `seq` first. -/
def canonicalValues (ev : CanonicalEvent) : List Scalar :=
  [.int ev.seq, .int ev.ts, .str ev.kind, .str ev.author, optInt ev.promptId, optStr ev.sessionId,
    optInt ev.versionNumber, optStr ev.refKind, optStr ev.refId, .str ev.payloadHash]

/-- `serde_json::to_string` of the event. -/
def canonicalJson (ev : CanonicalEvent) : String :=
  String.ofList (obj (("seq" :: canonicalKeys).zip (canonicalValues ev)))

theorem optInt_inj {a b : Option ℤ} (h : optInt a = optInt b) : a = b := by
  cases a <;> cases b <;> simp_all [optInt]

theorem optStr_inj {a b : Option String} (h : optStr a = optStr b) : a = b := by
  cases a <;> cases b <;> simp_all [optStr]

theorem canonicalValues_inj {ev ev' : CanonicalEvent} (h : canonicalValues ev = canonicalValues ev') :
    ev = ev' := by
  simp only [canonicalValues, List.cons.injEq, Scalar.int.injEq, Scalar.str.injEq, and_true] at h
  obtain ⟨h1, h2, h3, h4, h5, h6, h7, h8, h9, h10⟩ := h
  cases ev
  cases ev'
  simp only at h1 h2 h3 h4 h5 h6 h7 h8 h9 h10
  rw [h1, h2, h3, h4, optInt_inj h5, optStr_inj h6, optInt_inj h7, optStr_inj h8, optStr_inj h9, h10]

/-- The canonical JSON can be read back from the right end of a text. -/
theorem canonicalJson_suffix {p p' : String} {ev ev' : CanonicalEvent}
    (h : p ++ canonicalJson ev = p' ++ canonicalJson ev') : p = p' ∧ ev = ev' := by
  have h' := congrArg String.toList h
  simp only [String.toList_append, canonicalJson, String.toList_ofList] at h'
  obtain ⟨h1, h2⟩ := obj_suffix "seq" canonicalKeys _ _ _ _ rfl rfl h'
  exact ⟨String.toList_inj.mp h1, canonicalValues_inj h2⟩

/-! ### The entry hash -/

variable (sha256 : String → String)

/-- `entry_hash = sha256( prev_hash ‖ canonical-json(event) )`. -/
def computeEntryHash (prevHash : String) (ev : CanonicalEvent) : String :=
  sha256 (prevHash ++ canonicalJson ev)

/-- **The entry hash commits to the previous hash and to the event.** -/
theorem computeEntryHash_inj (hsha : Function.Injective sha256) {p p' : String}
    {ev ev' : CanonicalEvent} (h : computeEntryHash sha256 p ev = computeEntryHash sha256 p' ev') :
    p = p' ∧ ev = ev' :=
  canonicalJson_suffix (hsha h)

/-- A row's stored hash is that of its own fields. -/
def recomputes (row : LedgerEventRow) : Bool :=
  computeEntryHash sha256 row.prevHash (canonicalOf row) = row.entryHash

/-- A ledger row as a row of a hash chain. -/
def rowShape : HashChain.Shape LedgerEventRow String where
  prev := LedgerEventRow.prevHash
  entry := LedgerEventRow.entryHash
  good := recomputes sha256

@[simp] theorem rowShape_prev (row : LedgerEventRow) : (rowShape sha256).prev row = row.prevHash :=
  rfl

@[simp] theorem rowShape_entry (row : LedgerEventRow) :
    (rowShape sha256).entry row = row.entryHash :=
  rfl

theorem rowShape_good {row : LedgerEventRow} : (rowShape sha256).good row = true ↔
    computeEntryHash sha256 row.prevHash (canonicalOf row) = row.entryHash := by
  simp [rowShape, recomputes]

/-- A row that recomputes is determined by its entry hash. -/
theorem entry_inj (hsha : Function.Injective sha256) {x y : LedgerEventRow}
    (hx : (rowShape sha256).good x = true) (hy : (rowShape sha256).good y = true)
    (h : (rowShape sha256).entry x = (rowShape sha256).entry y) : x = y := by
  rw [rowShape_good] at hx hy
  have h : x.entryHash = y.entryHash := h
  obtain ⟨hp, hc⟩ := computeEntryHash_inj sha256 hsha (hx.trans (h.trans hy.symm))
  cases x
  cases y
  simp_all [canonicalOf]

/-! ### A digest known on a few texts -/

/-- A digest that is known on the texts of a few events, each with the hash
it follows, and tells all others apart by a mark no known digest has. -/
def digestOn (known : List ((String × CanonicalEvent) × String)) (text : String) : String :=
  ((known.map fun k => (k.1.1 ++ canonicalJson k.1.2, k.2)).lookup text).getD ("~" ++ text)

theorem digestOn_injective {known : List ((String × CanonicalEvent) × String)}
    (hnodup : (known.map Prod.snd).Nodup)
    (hmark : ∀ d ∈ known.map Prod.snd, d.toList.head? ≠ some '~') :
    Function.Injective (digestOn known) := by
  intro a b h
  unfold digestOn at h
  generalize hk : (known.map fun k => (k.1.1 ++ canonicalJson k.1.2, k.2)) = texts at h
  have hsnd : texts.map Prod.snd = known.map Prod.snd := by simp [← hk, Function.comp_def]
  rw [← hsnd] at hnodup hmark
  have hmem : ∀ {text d : String}, texts.lookup text = some d → (text, d) ∈ texts := by
    intro text d h
    obtain ⟨l, r, rfl, -⟩ := List.lookup_eq_some_iff.mp h
    exact List.mem_append_right l List.mem_cons_self
  have hsep : ∀ {text text' d : String}, texts.lookup text = some d → d ≠ "~" ++ text' := by
    rintro text text' d h rfl
    exact hmark _ (List.mem_map_of_mem (hmem h)) (by simp)
  cases ha : texts.lookup a with
  | none =>
    cases hb : texts.lookup b with
    | none => simpa [ha, hb, String.append_right_inj] using h
    | some d => exact absurd (by simpa [ha, hb] using h.symm) (hsep hb)
  | some d =>
    cases hb : texts.lookup b with
    | none => exact absurd (by simpa [ha, hb] using h) (hsep ha)
    | some d' =>
      have hd : d = d' := by simpa [ha, hb] using h
      subst hd
      exact (Prod.mk.inj (List.inj_on_of_nodup_map hnodup (hmem ha) (hmem hb) rfl)).1

/-- The entry hash under such a digest is looked up by event. -/
theorem computeEntryHash_digestOn (known : List ((String × CanonicalEvent) × String)) (p : String)
    (ev : CanonicalEvent) : computeEntryHash (digestOn known) p ev =
      (known.lookup (p, ev)).getD ("~" ++ (p ++ canonicalJson ev)) := by
  unfold computeEntryHash digestOn
  congr 1
  induction known with
  | nil => rfl
  | cons k known ih =>
    rw [List.map_cons, List.lookup_cons, List.lookup_cons, ih]
    by_cases hk : (p, ev) = k.1
    · simp [← hk]
    · have hne : p ++ canonicalJson ev ≠ k.1.1 ++ canonicalJson k.1.2 := fun h =>
        hk (Prod.ext (canonicalJson_suffix h).1 (canonicalJson_suffix h).2)
      simp only [beq_eq_false_iff_ne.mpr hne, beq_eq_false_iff_ne.mpr hk]

theorem rowShape_digestOn (known : List ((String × CanonicalEvent) × String)) :
    rowShape (digestOn known) = ⟨LedgerEventRow.prevHash, LedgerEventRow.entryHash, fun row =>
      decide ((known.lookup (row.prevHash, canonicalOf row)).getD
        ("~" ++ (row.prevHash ++ canonicalJson (canonicalOf row))) = row.entryHash)⟩ := by
  have h : recomputes (digestOn known) = _ := funext fun row => by
    rw [recomputes, computeEntryHash_digestOn]
  rw [rowShape, h]

end PolisMemory
