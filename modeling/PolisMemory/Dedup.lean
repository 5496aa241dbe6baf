/-
# Duplicates among the candidates

`simhash` and `dedup` of `crates/polis-core/src/dedup.rs`. The scan keeps a
candidate unless one that it kept before has the same content hash or, where there
is text, a fingerprint a few bits away. Near-duplication is no equivalence, so
what the verdicts say is read off the scan: `DedupInv` holds of every prefix, and
`dedup_lawful` is the whole list.

Key definitions: `simhash`, `nearDuplicate`, `dedup`, `DedupLaw`.
Key theorems: `DedupInv.one`, `dedup_lawful`.
-/
import Mathlib.Data.List.Induction
import PolisMemory.Catalog

namespace PolisMemory

/-! ### Fingerprints -/

/-- `str::split_whitespace`. -/
def splitWhitespace (s : String) : List String :=
  ((s.toList.splitOnP isWhitespace).filter fun t => !t.isEmpty).map String.ofList

/-- `u8::to_ascii_lowercase`. -/
def asciiLowercase (b : UInt8) : UInt8 := if 65 ≤ b ∧ b ≤ 90 then b + 32 else b

/-- One byte of FNV-1a. -/
def fnvByte (h : UInt64) (b : UInt8) : UInt64 := (h ^^^ b.toUInt64) * 0x100000001b3

/-- FNV-1a over the tokens, lowercased, with a space between. -/
def fnv1a (tokens : List String) : UInt64 :=
  ([32].intercalate (tokens.map fun t => t.toUTF8.toList.map asciiLowercase)).foldl fnvByte
    0xcbf29ce484222325

/-- `SHINGLE` -/
def shingleWidth : ℕ := 3

/-- `NEAR_DUP_HAMMING` -/
def nearDupHamming : ℕ := 3

/-- The hashes of the shingles of a text's tokens. -/
def shingles (tokens : List String) : List UInt64 :=
  (List.range (if tokens.length < shingleWidth then 1 else tokens.length - shingleWidth + 1)).map
    fun i => fnv1a ((tokens.drop i).take shingleWidth)

/-- Each shingle votes on each bit. -/
def vote (hashes : List UInt64) (bit : ℕ) : ℤ :=
  (hashes.map fun h => if h.toNat.testBit bit then (1 : ℤ) else -1).sum

/-- `simhash` -/
def simhash (text : String) : UInt64 :=
  let tokens := splitWhitespace text
  if tokens.isEmpty then 0
  else
    (List.range 64).foldl
      (fun out bit => if 0 < vote (shingles tokens) bit then out ||| (1 <<< bit.toUInt64) else out) 0

/-- How many bits are set. -/
def countOnes (x : UInt64) : ℕ := ((List.range 64).filter fun bit => x.toNat.testBit bit).length

/-- `near_duplicate` -/
def nearDuplicate (a b : UInt64) : Bool := countOnes (a ^^^ b) ≤ nearDupHamming

/-! ### The scan -/

/-- A candidate: its key, its content hash and its text. -/
structure Candidate where
  key : ℤ
  exactHash : Option String
  text : String
  deriving DecidableEq, Repr

/-- The content hash, if it says anything. -/
def Candidate.exactKey? (c : Candidate) : Option String := c.exactHash.filter fun h => h ≠ ""

/-- There is no text. -/
def Candidate.blank (c : Candidate) : Bool := trim c.text = ""

/-- What is decided about a candidate. -/
inductive DedupVerdict
  | keep (absorbed : List ℤ)
  | duplicate (of : ℤ)
  deriving DecidableEq, Repr

/-- A kept one absorbs another. -/
def DedupVerdict.absorb (key : ℤ) : DedupVerdict → DedupVerdict
  | .keep absorbed => .keep (absorbed ++ [key])
  | .duplicate of => .duplicate of

/-- The verdicts so far, and the kept ones' fingerprints and content hashes. -/
structure DedupScan where
  verdicts : List DedupVerdict
  kept : List (ℕ × UInt64)
  keptHashes : List (ℕ × String)

/-- The kept one that a candidate duplicates. -/
def DedupScan.dupeOf (d : DedupScan) (c : Candidate) : Option ℕ :=
  match c.exactKey?.bind fun h => d.keptHashes.find? fun p => p.2 = h with
  | some p => some p.1
  | none =>
    if c.blank then none
    else (d.kept.find? fun p => nearDuplicate p.2 (simhash c.text)).map Prod.fst

/-- One turn of the scan. -/
def dedupOne (candidates : List Candidate) (d : DedupScan) (p : Candidate × ℕ) : DedupScan :=
  let (c, i) := p
  match d.dupeOf c with
  | some j =>
    { d with
      verdicts := (d.verdicts ++ [DedupVerdict.duplicate ((candidates[j]?.map Candidate.key).getD 0)]).modify j
        (DedupVerdict.absorb c.key) }
  | none =>
    { verdicts := d.verdicts ++ [.keep []]
      kept := d.kept ++ [(i, simhash c.text)]
      keptHashes := d.keptHashes ++ (c.exactKey?.map fun h => (i, h)).toList }

/-- `dedup` -/
def dedup (candidates : List Candidate) : List DedupVerdict :=
  (candidates.zipIdx.foldl (dedupOne candidates) ⟨[], [], []⟩).verdicts

/-! ### What the verdicts say -/

/-- The same content hash. -/
def SameExact (a b : Candidate) : Prop := ∃ h, a.exactKey? = some h ∧ b.exactKey? = some h

/-- By the fingerprints. -/
def NearDuplicates (a b : Candidate) : Prop := nearDuplicate (simhash a.text) (simhash b.text) = true

/-- The keys of those that were found to duplicate one, in their order. -/
def absorbedBy (cs : List Candidate) (vs : List DedupVerdict) (key : ℤ) : List ℤ :=
  (cs.zip vs).filterMap fun p => if p.2 = DedupVerdict.duplicate key then some p.1.key else none

/-- What holds of the candidates and the verdicts on them. -/
structure DedupLaw (cs : List Candidate) (vs : List DedupVerdict) : Prop where
  length : vs.length = cs.length
  /-- A duplicate is one of an earlier candidate, which is kept. -/
  duplicate : ∀ (i : ℕ) (key : ℤ), vs[i]? = some (DedupVerdict.duplicate key) → ∃ j < i, ∃ a b absorbed,
    cs[j]? = some a ∧ cs[i]? = some b ∧ a.key = key ∧ vs[j]? = some (DedupVerdict.keep absorbed) ∧
      (SameExact a b ∨ NearDuplicates a b)
  /-- No two that are kept are duplicates. -/
  apart : ∀ (i j : ℕ) (a b : Candidate) kept kept', i < j → cs[i]? = some a → cs[j]? = some b →
    vs[i]? = some (DedupVerdict.keep kept) → vs[j]? = some (DedupVerdict.keep kept') →
      ¬ SameExact a b ∧ (b.blank = false → ¬ NearDuplicates a b)
  /-- A kept one has absorbed those that duplicate it, in their order. -/
  absorbed : ∀ (j : ℕ) (c : Candidate) kept, cs[j]? = some c → vs[j]? = some (DedupVerdict.keep kept) →
    kept = absorbedBy cs vs c.key

/-- And the lists of what is kept for them. -/
structure DedupInv (cs : List Candidate) (d : DedupScan) : Prop extends DedupLaw cs d.verdicts where
  kept : ∀ j fp, (j, fp) ∈ d.kept ↔ ∃ c absorbed, cs[j]? = some c ∧
    d.verdicts[j]? = some (DedupVerdict.keep absorbed) ∧ fp = simhash c.text
  hashes : ∀ j h, (j, h) ∈ d.keptHashes ↔ ∃ c absorbed, cs[j]? = some c ∧
    d.verdicts[j]? = some (DedupVerdict.keep absorbed) ∧ c.exactKey? = some h

/-- What is found is kept, and a duplicate. -/
theorem DedupInv.dupeOf_some {cs : List Candidate} {d : DedupScan} (hd : DedupInv cs d)
    {c : Candidate} {j : ℕ} (hj : d.dupeOf c = some j) :
    ∃ a absorbed, cs[j]? = some a ∧ d.verdicts[j]? = some (DedupVerdict.keep absorbed) ∧
      (SameExact a c ∨ NearDuplicates a c) := by
  unfold DedupScan.dupeOf at hj
  split at hj
  case h_1 p hp =>
    obtain rfl := Option.some.inj hj
    obtain ⟨h, hc, hfind⟩ := Option.bind_eq_some_iff.mp hp
    have hmem := List.mem_of_find?_eq_some hfind
    have heq : p.2 = h := by simpa using List.find?_some hfind
    obtain ⟨a, absorbed, ha, hv, hexact⟩ := (hd.hashes p.1 p.2).mp hmem
    exact ⟨a, absorbed, ha, hv, .inl ⟨h, by rw [hexact, heq], hc⟩⟩
  case h_2 =>
    split at hj
    · cases hj
    · obtain ⟨p, hfind, rfl⟩ := Option.map_eq_some_iff.mp hj
      have hmem := List.mem_of_find?_eq_some hfind
      have hnear : nearDuplicate p.2 (simhash c.text) = true := by
        simpa using List.find?_some hfind
      obtain ⟨a, absorbed, ha, hv, hfp⟩ := (hd.kept p.1 p.2).mp hmem
      rw [hfp] at hnear
      exact ⟨a, absorbed, ha, hv, .inr hnear⟩

/-- Where none is found, none that is kept is a duplicate. -/
theorem DedupInv.dupeOf_none {cs : List Candidate} {d : DedupScan} (hd : DedupInv cs d)
    {c : Candidate} (hj : d.dupeOf c = none) {j : ℕ} {a : Candidate} {absorbed : List ℤ}
    (ha : cs[j]? = some a) (hv : d.verdicts[j]? = some (DedupVerdict.keep absorbed)) :
    ¬ SameExact a c ∧ (c.blank = false → ¬ NearDuplicates a c) := by
  unfold DedupScan.dupeOf at hj
  split at hj
  case h_1 => cases hj
  case h_2 hnone =>
    refine ⟨fun ⟨h, hah, hch⟩ => ?_, fun hblank hnear => ?_⟩
    · rw [hch, Option.bind_some, List.find?_eq_none] at hnone
      have hmem := (hd.hashes j h).mpr ⟨a, absorbed, ha, hv, hah⟩
      exact hnone _ hmem (decide_eq_true rfl)
    · rw [hblank, if_neg Bool.false_ne_true, Option.map_eq_none_iff, List.find?_eq_none] at hj
      have hmem := (hd.kept j (simhash a.text)).mpr ⟨a, absorbed, ha, hv, rfl⟩
      exact hj _ hmem hnear

/-! ### One more candidate -/

section one

variable {vs : List DedupVerdict} {cs : List Candidate} {c : Candidate} {j m : ℕ} {key k : ℤ}

theorem absorb_eq_duplicate {v : DedupVerdict} :
    v.absorb key = .duplicate k ↔ v = .duplicate k := by
  cases v <;> simp [DedupVerdict.absorb]

theorem modify_duplicate : (vs.modify j (DedupVerdict.absorb key))[m]? =
    some (DedupVerdict.duplicate k) ↔ vs[m]? = some (DedupVerdict.duplicate k) := by
  rw [List.getElem?_modify]
  cases hv : vs[m]? with
  | none => simp
  | some v =>
    by_cases hjm : j = m
    · simp [hjm, absorb_eq_duplicate]
    · simp [hjm]

theorem modify_keep {kept : List ℤ} : (vs.modify j (DedupVerdict.absorb key))[m]? =
    some (DedupVerdict.keep kept) ↔ ∃ old, vs[m]? = some (DedupVerdict.keep old) ∧
      kept = if j = m then old ++ [key] else old := by
  rw [List.getElem?_modify]
  cases hv : vs[m]? with
  | none => simp
  | some v =>
    by_cases hjm : j = m
    · cases v <;> simp [hjm, DedupVerdict.absorb, eq_comm]
    · simp [hjm]

theorem absorbedBy_modify : ∀ (cs : List Candidate) (vs : List DedupVerdict) (j : ℕ),
    absorbedBy cs (vs.modify j (DedupVerdict.absorb key)) k = absorbedBy cs vs k
  | [], vs, j => rfl
  | c :: cs, [], j => by rw [List.modify_nil]
  | c :: cs, v :: vs, 0 => by
    unfold absorbedBy
    rw [List.modify_zero_cons, List.zip_cons_cons, List.zip_cons_cons, List.filterMap_cons,
      List.filterMap_cons]
    simp only [absorb_eq_duplicate]
  | c :: cs, v :: vs, j + 1 => by
    have ih := absorbedBy_modify cs vs j
    unfold absorbedBy at ih ⊢
    rw [List.modify_succ_cons, List.zip_cons_cons, List.zip_cons_cons, List.filterMap_cons,
      List.filterMap_cons, ih]

theorem absorbedBy_append (hlen : vs.length = cs.length) (v : DedupVerdict) :
    absorbedBy (cs ++ [c]) (vs ++ [v]) k =
      absorbedBy cs vs k ++ if v = .duplicate k then [c.key] else [] := by
  unfold absorbedBy
  rw [List.zip_append hlen.symm, List.filterMap_append]
  by_cases hv : v = .duplicate k <;> simp [hv]

end one

/-- What was there is there, and the last is new. -/
theorem getElem?_snoc {α : Type} {xs : List α} {x y : α} {m : ℕ}
    (h : (xs ++ [x])[m]? = some y) : xs[m]? = some y ∨ m = xs.length ∧ y = x := by
  rcases Nat.lt_trichotomy m xs.length with hlt | rfl | hgt
  · rw [List.getElem?_append_left hlt] at h
    exact .inl h
  · rw [List.getElem?_concat_length] at h
    exact .inr ⟨rfl, (Option.some.inj h).symm⟩
  · rw [List.getElem?_eq_none (by simp; omega)] at h
    cases h

theorem getElem?_snoc_of_some {α : Type} {xs : List α} {x y : α} {m : ℕ}
    (h : xs[m]? = some y) : (xs ++ [x])[m]? = some y := by
  obtain ⟨hlt, -⟩ := List.getElem?_eq_some_iff.mp h
  rw [List.getElem?_append_left hlt]
  exact h

/-- Where the keys are apart, a key is of one place. -/
theorem index_of_key {cs : List Candidate} (hkeys : (cs.map Candidate.key).Nodup) {m n : ℕ}
    {x y : Candidate} (hx : cs[m]? = some x) (hy : cs[n]? = some y) (heq : x.key = y.key) : m = n := by
  have hget : (cs.map Candidate.key)[m]? = (cs.map Candidate.key)[n]? := by
    rw [List.getElem?_map, List.getElem?_map, hx, hy]
    exact congrArg some heq
  have hm : m < (cs.map Candidate.key).length := by
    rw [List.length_map]
    exact (List.getElem?_eq_some_iff.mp hx).1
  exact (List.getElem?_inj hm hkeys).mp hget

section kept

variable {cs : List Candidate} {vs : List DedupVerdict} {c : Candidate} {i j : ℕ} {key k : ℤ}

/-- With one more that is kept, what is kept was kept before or is the last. -/
theorem kept_kept_iff (hlen : vs.length = cs.length) {b : Candidate} {kept : List ℤ} :
    (cs ++ [c])[i]? = some b ∧ (vs ++ [DedupVerdict.keep []])[i]? = some (.keep kept) ↔
      cs[i]? = some b ∧ vs[i]? = some (.keep kept) ∨ i = cs.length ∧ b = c ∧ kept = [] := by
  constructor
  · rintro ⟨hb, hv⟩
    rcases getElem?_snoc hb with hb | ⟨rfl, rfl⟩
    · rcases getElem?_snoc hv with hv | ⟨rfl, -⟩
      · exact .inl ⟨hb, hv⟩
      · have := (List.getElem?_eq_some_iff.mp hb).1
        omega
    · rw [← hlen, List.getElem?_concat_length] at hv
      exact .inr ⟨rfl, rfl, (DedupVerdict.keep.inj (Option.some.inj hv)).symm⟩
  · rintro (⟨hb, hv⟩ | ⟨rfl, rfl, rfl⟩)
    · exact ⟨getElem?_snoc_of_some hb, getElem?_snoc_of_some hv⟩
    · refine ⟨List.getElem?_concat_length, ?_⟩
      rw [← hlen]
      exact List.getElem?_concat_length

/-- So what is kept has the old properties, or the last one's. -/
theorem exists_kept_kept_iff (hlen : vs.length = cs.length) {P : Candidate → Prop} :
    (∃ b absorbed, (cs ++ [c])[i]? = some b ∧
        (vs ++ [DedupVerdict.keep []])[i]? = some (.keep absorbed) ∧ P b) ↔
      (∃ b absorbed, cs[i]? = some b ∧ vs[i]? = some (DedupVerdict.keep absorbed) ∧ P b) ∨
        i = cs.length ∧ P c := by
  constructor
  · rintro ⟨b, absorbed, hb, hv, hP⟩
    rcases (kept_kept_iff hlen).mp ⟨hb, hv⟩ with ⟨hb, hv⟩ | ⟨hi, rfl, -⟩
    · exact .inl ⟨b, absorbed, hb, hv, hP⟩
    · exact .inr ⟨hi, hP⟩
  · rintro (⟨b, absorbed, hb, hv, hP⟩ | ⟨hi, hP⟩)
    · obtain ⟨hb', hv'⟩ := (kept_kept_iff (c := c) hlen).mpr (.inl ⟨hb, hv⟩)
      exact ⟨b, absorbed, hb', hv', hP⟩
    · obtain ⟨hb', hv'⟩ := (kept_kept_iff hlen).mpr (.inr ⟨hi, rfl, rfl⟩)
      exact ⟨c, [], hb', hv', hP⟩

/-- With a duplicate more, what is kept was kept before, and one has absorbed it. -/
theorem kept_duplicated_iff (hlen : vs.length = cs.length) {b : Candidate} {kept : List ℤ} :
    (cs ++ [c])[i]? = some b ∧ ((vs ++ [DedupVerdict.duplicate k]).modify j
        (DedupVerdict.absorb key))[i]? = some (.keep kept) ↔
      cs[i]? = some b ∧ ∃ old, vs[i]? = some (.keep old) ∧
        kept = if j = i then old ++ [key] else old := by
  rw [modify_keep]
  constructor
  · rintro ⟨hb, old, hv, hkept⟩
    rcases getElem?_snoc hv with hv | ⟨-, hv⟩
    · rcases getElem?_snoc hb with hb | ⟨rfl, -⟩
      · exact ⟨hb, old, hv, hkept⟩
      · have := (List.getElem?_eq_some_iff.mp hv).1
        omega
    · cases hv
  · rintro ⟨hb, old, hv, hkept⟩
    exact ⟨getElem?_snoc_of_some hb, old, getElem?_snoc_of_some hv, hkept⟩

/-- So what is kept has the same properties. -/
theorem exists_kept_duplicated_iff (hlen : vs.length = cs.length) {P : Candidate → Prop} :
    (∃ b absorbed, cs[i]? = some b ∧ vs[i]? = some (DedupVerdict.keep absorbed) ∧ P b) ↔
      ∃ b absorbed, (cs ++ [c])[i]? = some b ∧ ((vs ++ [DedupVerdict.duplicate k]).modify j
        (DedupVerdict.absorb key))[i]? = some (.keep absorbed) ∧ P b := by
  constructor
  · rintro ⟨b, absorbed, hb, hv, hP⟩
    obtain ⟨hb', hv'⟩ := (kept_duplicated_iff hlen).mpr ⟨hb, absorbed, hv, rfl⟩
    exact ⟨b, _, hb', hv', hP⟩
  · rintro ⟨b, absorbed, hb, hv, hP⟩
    obtain ⟨hb', old, hv', -⟩ := (kept_duplicated_iff hlen).mp ⟨hb, hv⟩
    exact ⟨b, old, hb', hv', hP⟩

end kept

/-- A new one is kept. -/
theorem DedupInv.keep {cs : List Candidate} {d : DedupScan} (hd : DedupInv cs d) {c : Candidate}
    (hc : d.dupeOf c = none) (hnew : ∀ a ∈ cs, a.key ≠ c.key) :
    DedupInv (cs ++ [c])
      { verdicts := d.verdicts ++ [.keep []]
        kept := d.kept ++ [(cs.length, simhash c.text)]
        keptHashes := d.keptHashes ++ (c.exactKey?.map fun h => (cs.length, h)).toList } := by
  have hlen := hd.length
  have hlt : ∀ {i : ℕ} {a : Candidate}, cs[i]? = some a → i < cs.length := fun h =>
    (List.getElem?_eq_some_iff.mp h).1
  refine ⟨⟨?_, ?_, ?_, ?_⟩, ?_, ?_⟩
  · simp [hlen]
  · intro i key hv
    rcases getElem?_snoc hv with hv | ⟨-, hv⟩
    · obtain ⟨j, hj, a, b, absorbed, ha, hb, hrest, hva, hmatch⟩ := hd.duplicate i key hv
      exact ⟨j, hj, a, b, absorbed, getElem?_snoc_of_some ha, getElem?_snoc_of_some hb, hrest,
        getElem?_snoc_of_some hva, hmatch⟩
    · cases hv
  · intro i j a b kept kept' hij ha hb hva hvb
    rcases (kept_kept_iff hlen).mp ⟨hb, hvb⟩ with ⟨hb, hvb⟩ | ⟨rfl, rfl, rfl⟩
    · rcases (kept_kept_iff hlen).mp ⟨ha, hva⟩ with ⟨ha, hva⟩ | ⟨rfl, -, -⟩
      · exact hd.apart i j a b kept kept' hij ha hb hva hvb
      · have := hlt hb
        omega
    · rcases (kept_kept_iff hlen).mp ⟨ha, hva⟩ with ⟨ha, hva⟩ | ⟨rfl, -, -⟩
      · exact hd.dupeOf_none hc ha hva
      · omega
  · intro j a kept ha hv
    rw [absorbedBy_append hlen, if_neg nofun, List.append_nil]
    rcases (kept_kept_iff hlen).mp ⟨ha, hv⟩ with ⟨ha, hv⟩ | ⟨-, rfl, rfl⟩
    · exact hd.absorbed j a kept ha hv
    · -- none has its key
      symm
      unfold absorbedBy
      rw [List.filterMap_eq_nil_iff]
      intro p hp
      rw [if_neg]
      intro hdup
      obtain ⟨i, hi, hget⟩ := List.getElem_of_mem (List.of_mem_zip hp).2
      have hvi : d.verdicts[i]? = some (.duplicate a.key) := by
        rw [List.getElem?_eq_getElem hi, hget, hdup]
      obtain ⟨j, -, b, -, -, hb, -, hkey, -⟩ := hd.duplicate i _ hvi
      exact hnew b (List.mem_of_getElem? hb) hkey
  · intro j fp
    rw [List.mem_append, hd.kept, List.mem_singleton, Prod.mk.injEq]
    exact (exists_kept_kept_iff hlen).symm
  · intro j h
    rw [List.mem_append, hd.hashes]
    have hnewHash : (j, h) ∈ (c.exactKey?.map fun h => (cs.length, h)).toList ↔
        j = cs.length ∧ c.exactKey? = some h := by
      cases c.exactKey? with
      | none => simp
      | some h' => simp [eq_comm]
    rw [hnewHash]
    exact (exists_kept_kept_iff hlen).symm

/-- A new one duplicates one that is kept. -/
theorem DedupInv.duplicated {cs : List Candidate} {d : DedupScan} (hd : DedupInv cs d)
    {c a : Candidate} {j : ℕ} (hc : d.dupeOf c = some j) (ha : cs[j]? = some a)
    (hkeys : (cs.map Candidate.key).Nodup) :
    DedupInv (cs ++ [c])
      { d with
        verdicts := (d.verdicts ++ [DedupVerdict.duplicate a.key]).modify j
          (DedupVerdict.absorb c.key) } := by
  have hlen := hd.length
  obtain ⟨a', old, ha', hold, hmatch⟩ := hd.dupeOf_some hc
  obtain rfl := Option.some.inj (ha.symm.trans ha')
  have hlt : ∀ {i : ℕ} {b : Candidate}, cs[i]? = some b → i < cs.length := fun h =>
    (List.getElem?_eq_some_iff.mp h).1
  refine ⟨⟨?_, ?_, ?_, ?_⟩, fun i fp => ?_, fun i h => ?_⟩
  · simp [hlen]
  · intro i key hv
    rcases getElem?_snoc (modify_duplicate.mp hv) with hv | ⟨rfl, hlastv⟩
    · obtain ⟨i', hi, b, b', absorbed, hb, hb', hkey, hvb, hm⟩ := hd.duplicate i key hv
      obtain ⟨hb₁, hvb₁⟩ := (kept_duplicated_iff hlen).mpr ⟨hb, absorbed, hvb, rfl⟩
      exact ⟨i', hi, b, b', _, hb₁, getElem?_snoc_of_some hb', hkey, hvb₁, hm⟩
    · obtain ⟨ha₁, hva₁⟩ := (kept_duplicated_iff hlen).mpr ⟨ha, old, hold, rfl⟩
      have hclast : (cs ++ [c])[d.verdicts.length]? = some c := by
        rw [hlen]
        exact List.getElem?_concat_length
      refine ⟨j, ?_, a, c, _, ha₁, hclast, ?_, hva₁, hmatch⟩
      · rw [hlen]
        exact hlt ha
      · exact (DedupVerdict.duplicate.inj hlastv).symm
  · intro i i' b b' kept kept' hij hb hb' hv hv'
    obtain ⟨hb, old, hv, -⟩ := (kept_duplicated_iff hlen).mp ⟨hb, hv⟩
    obtain ⟨hb', old', hv', -⟩ := (kept_duplicated_iff hlen).mp ⟨hb', hv'⟩
    exact hd.apart i i' b b' old old' hij hb hb' hv hv'
  · intro i b kept hb hv
    obtain ⟨hb, old', hvi, rfl⟩ := (kept_duplicated_iff hlen).mp ⟨hb, hv⟩
    have hold' := hd.absorbed i b old' hb hvi
    rw [absorbedBy_modify, absorbedBy_append hlen, ← hold']
    by_cases hji : j = i
    · subst hji
      obtain rfl := Option.some.inj (ha.symm.trans hb)
      rw [if_pos rfl, if_pos rfl]
    · have hne : a.key ≠ b.key := fun heq => hji (index_of_key hkeys ha hb heq)
      rw [if_neg hji, if_neg fun heq => hne (DedupVerdict.duplicate.inj heq), List.append_nil]
  · rw [hd.kept]
    exact exists_kept_duplicated_iff hlen
  · rw [hd.hashes]
    exact exists_kept_duplicated_iff hlen

/-- **One turn of the scan.** -/
theorem DedupInv.one {candidates cs : List Candidate} {c : Candidate} {d : DedupScan}
    (hd : DedupInv cs d) (hpre : cs ++ [c] <+: candidates)
    (hkeys : (candidates.map Candidate.key).Nodup) :
    DedupInv (cs ++ [c]) (dedupOne candidates d (c, cs.length)) := by
  have hkeys' : ((cs ++ [c]).map Candidate.key).Nodup :=
    hkeys.sublist (hpre.sublist.map Candidate.key)
  rw [List.map_append, List.nodup_append] at hkeys'
  cases hc : d.dupeOf c with
  | none =>
    simp only [dedupOne, hc]
    refine hd.keep hc fun a ha heq => ?_
    exact hkeys'.2.2 _ (List.mem_map_of_mem ha) _ (List.mem_singleton_self _) heq
  | some j =>
    obtain ⟨a, -, ha, -⟩ := hd.dupeOf_some hc
    have hget : candidates[j]? = some a := by
      obtain ⟨rest, rfl⟩ := hpre
      rw [List.append_assoc, List.getElem?_append_left (List.getElem?_eq_some_iff.mp ha).1]
      exact ha
    simp only [dedupOne, hc, hget, Option.map_some, Option.getD_some]
    exact hd.duplicated hc ha hkeys'.1

/-- And the whole scan. -/
theorem dedupInv_scan {candidates : List Candidate} (hkeys : (candidates.map Candidate.key).Nodup) :
    ∀ cs, cs <+: candidates →
      DedupInv cs (cs.zipIdx.foldl (dedupOne candidates) ⟨[], [], []⟩) := by
  intro cs
  induction cs using List.reverseRecOn with
  | nil =>
    intro _
    refine ⟨⟨rfl, fun i key h => ?_, fun i j a b kept kept' _ h => ?_, fun j c kept h => ?_⟩,
      fun j fp => ?_, fun j h => ?_⟩
    · cases h
    · cases h
    · cases h
    · simp
    · simp
  | append_singleton cs c ih =>
    intro hpre
    rw [List.zipIdx_append, List.foldl_append]
    simp only [Nat.zero_add, List.zipIdx_singleton, List.foldl_cons, List.foldl_nil]
    exact (ih ((List.prefix_append cs [c]).trans hpre)).one hpre hkeys

/-- Each duplicate is in the list of one that is kept. -/
theorem DedupLaw.absorbed_once {cs : List Candidate} {vs : List DedupVerdict} (h : DedupLaw cs vs)
    (hkeys : (cs.map Candidate.key).Nodup) {i : ℕ} {b : Candidate} {key : ℤ}
    (hb : cs[i]? = some b) (hv : vs[i]? = some (.duplicate key)) :
    ∃! j : ℕ, ∃ kept, vs[j]? = some (DedupVerdict.keep kept) ∧ b.key ∈ kept := by
  obtain ⟨j, -, a, b', kept, ha, hb', rfl, hkept, -⟩ := h.duplicate i key hv
  have hmem : b.key ∈ kept := by
    rw [h.absorbed j a kept ha hkept]
    refine List.mem_filterMap.mpr ⟨(b, .duplicate a.key), ?_, if_pos rfl⟩
    refine List.mem_of_getElem? (i := i) ?_
    rw [List.getElem?_zip_eq_some]
    exact ⟨hb, hv⟩
  refine ⟨j, ⟨kept, hkept, hmem⟩, ?_⟩
  rintro j' ⟨kept', hkept', hmem'⟩
  obtain ⟨a', ha'⟩ : ∃ a', cs[j']? = some a' := by
    have hlt := (List.getElem?_eq_some_iff.mp hkept').1
    rw [h.length] at hlt
    exact ⟨_, List.getElem?_eq_getElem hlt⟩
  rw [h.absorbed j' a' kept' ha' hkept'] at hmem'
  obtain ⟨⟨c, v⟩, hzip, hc⟩ := List.mem_filterMap.mp hmem'
  rw [Option.ite_none_right_eq_some] at hc
  obtain ⟨hdup, hkey⟩ := hc
  obtain ⟨m, hm⟩ := List.getElem?_of_mem hzip
  rw [List.getElem?_zip_eq_some] at hm
  obtain rfl := index_of_key hkeys hm.1 hb (Option.some.inj hkey)
  -- it duplicates one only
  have hsame := Option.some.inj (hm.2.symm.trans hv)
  have hkeys' : a'.key = a.key := DedupVerdict.duplicate.inj (hdup.symm.trans hsame)
  exact index_of_key hkeys ha' ha hkeys'

/-- **The verdicts on candidates with different keys.** -/
theorem dedup_lawful (cs : List Candidate) (hkeys : (cs.map Candidate.key).Nodup) :
    DedupLaw cs (dedup cs) ∧
      ∀ (i : ℕ) (b : Candidate) (key : ℤ), cs[i]? = some b →
        (dedup cs)[i]? = some (.duplicate key) →
        ∃! j : ℕ, ∃ kept, (dedup cs)[j]? = some (DedupVerdict.keep kept) ∧ b.key ∈ kept := by
  have hinv := (dedupInv_scan hkeys cs (List.prefix_refl cs)).toDedupLaw
  exact ⟨hinv, fun i b key hb hv => hinv.absorbed_once hkeys hb hv⟩

/-- Two with the same content hash and one apart. -/
def threeCandidates : List Candidate := [⟨1, some "h1", "alpha"⟩, ⟨2, some "h2", ""⟩, ⟨3, some "h1", "beta"⟩]

theorem threeCandidates_lawful : DedupLaw threeCandidates (dedup threeCandidates) :=
  (dedup_lawful threeCandidates (by decide)).1

end PolisMemory
