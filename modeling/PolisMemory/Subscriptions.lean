/-
# Subscriptions

The rows of `foreign_subscriptions` are read twice: by a sync, which makes one
filter of them and asks a transport for the chains that it matches
(`ForeignStore.subscriptionFilter`, `Subscription.matches`), and by the import
(`ForeignStore.subscribed`, `ForeignStore.projects`). The filter drops the rows
without a principal, which to the import match every chain; the two agree just
when no such row is the only one to match (`filter_agrees_iff`).

Key definitions: `ChainCard`, `Subscription.matches`,
`ForeignStore.subscriptionFilter`, `ForeignStore.FilterAgrees`.
Key theorems: `human_of_chain`, `filter_agrees_iff`.
-/
import PolisMemory.Bodies

namespace PolisMemory

open HashChain Tables
open Store (bind_eq_ok)

/-! ### The filter of a sync -/

/-- What a transport knows about a chain before any segment is fetched. -/
structure ChainCard where
  chainId : String
  humanId : String
  displayName : Option String
  deviceName : Option String
  headSeq : ℤ
  deriving DecidableEq, Repr

/-- The card of a chain, from the header of its newest segment. -/
def Envelope.card (newest : Envelope) : ChainCard where
  chainId := newest.header.chainId
  humanId := newest.header.human.principalId
  displayName := newest.header.human.displayName
  deviceName := newest.header.device.displayName
  headSeq := newest.header.segment.toSeq

/-- A selective subscription: empty lists match everything. -/
structure Subscription where
  principals : List String
  projects : List String
  deriving DecidableEq, Repr

/-- `Subscription::matches`. -/
def Subscription.matches (f : Subscription) (card : ChainCard) : Bool :=
  f.principals.isEmpty || f.principals.any fun p =>
    let lower := toAsciiLowercase (trim p)
    lower ≠ "" && (card.humanId = lower || startsWith card.humanId lower ||
      fingerprint card.humanId = lower ||
        card.displayName.any fun d => toAsciiLowercase d = toAsciiLowercase (trim p))

/-- `subscription_filter`. -/
def ForeignStore.subscriptionFilter (s : ForeignStore) : Subscription where
  principals := (s.subscriptions.rows.filterMap SubscriptionRow.principal).filter fun p => trim p ≠ ""
  projects := s.subscriptions.rows.filterMap SubscriptionRow.project

/-- The principal a row names. -/
def SubscriptionRow.names (row : SubscriptionRow) : Option String :=
  (row.principal.map trim).filter (· ≠ "")

/-- A row's principal is a prefix of the human's id, in any case. -/
def namesId (p human : String) : Bool := startsWith human (toAsciiLowercase p)

/-- A row's principal is the display name, in any case. -/
def namesDisplay (p : String) (displayName : Option String) : Bool :=
  displayName.any fun d => toAsciiLowercase d = toAsciiLowercase p

section

variable {p human : String} {displayName : Option String} {row : SubscriptionRow}

theorem toAsciiLowercase_eq_empty : toAsciiLowercase p = "" ↔ p = "" := by
  unfold toAsciiLowercase
  rw [← String.toList_inj, ← String.toList_inj, String.toList_map]
  simp

theorem startsWith_self (s : String) : startsWith s s = true := by
  unfold startsWith
  simp

theorem startsWith_fingerprint : startsWith human (fingerprint human) = true := by
  unfold startsWith fingerprint
  rw [String.toList_ofList, List.isPrefixOf_iff_prefix]
  exact List.take_prefix 16 human.toList

/-- The three ways to name a human by its id are one. -/
theorem namesId_iff (hlower : toAsciiLowercase human = human) :
    namesId p human = true ↔ human = p ∨ startsWith human (toAsciiLowercase p) = true ∨
      fingerprint human = toAsciiLowercase p := by
  unfold namesId
  constructor
  · exact fun h => .inr (.inl h)
  · intro h
    rcases h with rfl | h | h
    · rw [hlower]
      exact startsWith_self human
    · exact h
    · rw [← h]
      exact startsWith_fingerprint

theorem subscriptionMatches_iff (hlower : toAsciiLowercase human = human) :
    subscriptionMatches row human displayName = true ↔
      ∀ p ∈ row.names, namesId p human = true ∨ namesDisplay p displayName = true := by
  unfold subscriptionMatches SubscriptionRow.names
  cases h : (row.principal.map trim).filter (· ≠ "") with
  | none => simp
  | some p =>
    simp only [Option.mem_some, forall_eq', Bool.or_eq_true, decide_eq_true_eq]
    rw [namesId_iff hlower, namesDisplay]
    simp only [or_assoc]

theorem matches_iff {f : Subscription} {card : ChainCard}
    (hnamed : ∀ p ∈ f.principals, trim p ≠ "") :
    f.matches card = true ↔ f.principals = [] ∨ ∃ p ∈ f.principals,
      namesId (trim p) card.humanId = true ∨ namesDisplay (trim p) card.displayName = true := by
  have hone (p : String) : (card.humanId = toAsciiLowercase (trim p) ∨
      startsWith card.humanId (toAsciiLowercase (trim p)) = true ∨
        fingerprint card.humanId = toAsciiLowercase (trim p)) ↔ namesId (trim p) card.humanId = true := by
    unfold namesId
    constructor
    · rintro (h | h | h)
      · rw [← h]
        exact startsWith_self _
      · exact h
      · rw [← h]
        exact startsWith_fingerprint
    · exact fun h => .inr (.inl h)
  unfold Subscription.matches
  rw [Bool.or_eq_true, List.isEmpty_iff, List.any_eq_true]
  refine or_congr_right (exists_congr fun p => and_congr_right fun hp => ?_)
  have hne : toAsciiLowercase (trim p) ≠ "" := fun h => hnamed p hp (toAsciiLowercase_eq_empty.mp h)
  rw [← hone p]
  simp only [Bool.and_eq_true, Bool.or_eq_true, decide_eq_true_eq, hne, ne_eq, not_false_eq_true,
    true_and, namesDisplay, or_assoc]

end

namespace ForeignStore

/-- The principals that the rows name. -/
def named (s : ForeignStore) : List String := s.subscriptions.rows.filterMap SubscriptionRow.names

/-- No row names a principal, or one names the human by its id, or the newest
segment's display name is named just when the envelope's is or some row names
no principal. -/
def FilterAgrees (s : ForeignStore) (newest env : Envelope) : Prop :=
  s.named = [] ∨ (∃ p ∈ s.named, namesId p env.header.human.principalId = true) ∨
    ((∃ p ∈ s.named, namesDisplay p newest.header.human.displayName = true) ↔
      (∃ row ∈ s.subscriptions.rows, row.names = none) ∨
        ∃ p ∈ s.named, namesDisplay p env.header.human.displayName = true)

/-- The filter's principals are those the rows name. -/
theorem map_trim_principals (s : ForeignStore) :
    s.subscriptionFilter.principals.map trim = s.named := by
  unfold subscriptionFilter named
  dsimp only
  induction s.subscriptions.rows with
  | nil => rfl
  | cons row rows ih =>
    cases hp : row.principal with
    | none => simpa [List.filterMap_cons, SubscriptionRow.names, hp] using ih
    | some p =>
      by_cases ht : trim p = ""
      · simpa [List.filterMap_cons, SubscriptionRow.names, Option.filter, hp, ht] using ih
      · simpa [List.filterMap_cons, SubscriptionRow.names, Option.filter, hp, ht] using ih

theorem matches_subscriptionFilter {s : ForeignStore} {card : ChainCard} :
    s.subscriptionFilter.matches card = true ↔ s.named = [] ∨ ∃ p ∈ s.named,
      namesId p card.humanId = true ∨ namesDisplay p card.displayName = true := by
  have hnamed : ∀ p ∈ s.subscriptionFilter.principals, trim p ≠ "" := by
    intro p hp
    have := (List.mem_filter.mp hp).2
    simpa using this
  rw [matches_iff hnamed, ← map_trim_principals, List.map_eq_nil_iff]
  simp only [List.mem_map, exists_exists_and_eq_and]

/-- The import's check, unless it is forced. -/
theorem subscribed_iff {s : ForeignStore} {opts : ImportOptions} {env : Envelope}
    (hforce : opts.force = false)
    (hlower : toAsciiLowercase env.header.human.principalId = env.header.human.principalId) :
    s.subscribed opts env = true ↔ s.named = [] ∨ (∃ row ∈ s.subscriptions.rows, row.names = none) ∨
      ∃ p ∈ s.named, namesId p env.header.human.principalId = true ∨
        namesDisplay p env.header.human.displayName = true := by
  unfold subscribed
  rw [hforce, Bool.or_false, Bool.or_eq_true, List.isEmpty_iff, Bool.not_eq_true']
  have hmatching : (s.matching env).isEmpty = false ↔ ∃ row ∈ s.subscriptions.rows,
      ∀ p ∈ row.names, namesId p env.header.human.principalId = true ∨
        namesDisplay p env.header.human.displayName = true := by
    rw [List.isEmpty_eq_false_iff_exists_mem]
    refine exists_congr fun row => ?_
    rw [matching, List.mem_filter, subscriptionMatches_iff hlower]
  rw [hmatching]
  have hnamed {p : String} : p ∈ s.named ↔ ∃ row ∈ s.subscriptions.rows, row.names = some p :=
    List.mem_filterMap
  constructor
  · rintro (hrows | ⟨row, hrow, hall⟩)
    · left
      unfold named
      rw [hrows]
      rfl
    · cases hp : row.names with
      | none => exact .inr (.inl ⟨row, hrow, hp⟩)
      | some p => exact .inr (.inr ⟨p, hnamed.mpr ⟨row, hrow, hp⟩, hall p hp⟩)
  · rintro (hnone | ⟨row, hrow, hp⟩ | ⟨p, hp, hnames⟩)
    · cases hrows : s.subscriptions.rows with
      | nil => exact .inl rfl
      | cons row rows =>
        right
        refine ⟨row, List.mem_cons_self, fun p hp => ?_⟩
        have hmem : p ∈ s.named := hnamed.mpr ⟨row, hrows ▸ List.mem_cons_self, hp⟩
        rw [hnone] at hmem
        cases hmem
    · exact .inr ⟨row, hrow, fun p hp' => by rw [hp] at hp'; cases hp'⟩
    · obtain ⟨row, hrow, hrp⟩ := hnamed.mp hp
      refine .inr ⟨row, hrow, fun q hq => ?_⟩
      rw [hrp, Option.mem_some] at hq
      exact hq ▸ hnames

end ForeignStore

/-! ### The human of a chain -/

/-- The human and the chain of an envelope that verifies derive from a key that
signed it. -/
theorem key_of_verify {w : Wire} {env : Envelope} {v : Verified} (h : w.verify env = .ok v) :
    ∃ pubkey name msg sig, env.header.human.principalId = w.principalId pubkey ∧
      env.header.chainId = w.deviceId pubkey name ∧ w.verifySig pubkey msg sig = true := by
  unfold Wire.verify at h
  dsimp only at h
  by_cases hschema : env.header.schema ≠ envelopeSchema
  · rw [if_pos hschema] at h
    cases h
  rw [if_neg hschema] at h
  cases hhuman : w.verifyHuman env.header with
  | error e => rw [hhuman] at h; cases h
  | ok key =>
    simp only [hhuman] at h
    cases hdevice : w.verifyDevice env.header key.2 with
    | error e => simp only [hdevice, reduceCtorEq] at h
    | ok name =>
      simp only [hdevice] at h
      by_cases hsig : w.verifyHex key.1 (w.headerJson env.header) env.signature = true
      · obtain ⟨hex, pubkey⟩ := key
        obtain ⟨hpubkey, hprincipal⟩ : hexDecode hex = some pubkey ∧
            w.principalId pubkey = env.header.human.principalId := by
          unfold Wire.verifyHuman at hhuman
          cases hk : env.header.human.pubkey with
          | none => rw [hk] at hhuman; cases hhuman
          | some k =>
            simp only [hk] at hhuman
            cases hd : hexDecode k with
            | none => rw [hd] at hhuman; cases hhuman
            | some bytes =>
              simp only [hd] at hhuman
              split_ifs at hhuman with hbad
              cases hhuman
              exact ⟨hd, not_not.mp (not_or.mp hbad).1⟩
        have hchain : env.header.chainId = w.deviceId pubkey name := by
          unfold Wire.verifyDevice at hdevice
          cases hn : env.header.device.displayName with
          | none => rw [hn] at hdevice; cases hdevice
          | some n =>
            simp only [hn] at hdevice
            split_ifs at hdevice with hbad
            cases hdevice
            simp only [not_or, not_not] at hbad
            exact (hbad.2.2.1.trans hbad.2.2.2).symm
        unfold Wire.verifyHex at hsig
        simp only [hpubkey] at hsig
        cases hs : hexDecode env.signature with
        | none => simp only [hs, Bool.false_eq_true] at hsig
        | some sig =>
          simp only [hs] at hsig
          exact ⟨pubkey, name, _, sig, hprincipal.symm, hchain, hsig⟩
      · rw [if_pos (by simpa using hsig)] at h
        cases h

/-- A chain has one human: its id derives from their key. -/
theorem human_of_chain {w : Wire} {env env' : Envelope} {v v' : Verified}
    (hbytes : Function.Injective w.sha256Bytes)
    (hkey : ∀ pubkey msg sig, w.verifySig pubkey msg sig = true → pubkey.length = 32)
    (hv : w.verify env = .ok v) (hv' : w.verify env' = .ok v')
    (hchain : env.header.chainId = env'.header.chainId) :
    env.header.human.principalId = env'.header.human.principalId := by
  obtain ⟨pubkey, name, msg, sig, hhuman, hdevice, hsig⟩ := key_of_verify hv
  obtain ⟨pubkey', name', msg', sig', hhuman', hdevice', hsig'⟩ := key_of_verify hv'
  have hlength : pubkey.length = pubkey'.length :=
    (hkey pubkey msg sig hsig).trans (hkey pubkey' msg' sig' hsig').symm
  have hid : w.deviceId pubkey name = w.deviceId pubkey' name' :=
    hdevice.symm.trans (hchain.trans hdevice')
  have hparts := hbytes hid
  simp only [List.append_assoc] at hparts
  rw [hhuman, hhuman', (List.append_inj hparts hlength).1]

open ForeignStore in
/-- **A sync's filter and the import agree**, just when no row without a
principal is alone in matching: for the card of a published chain and any
envelope of the chain. -/
theorem filter_agrees_iff (w : Wire) (s : ForeignStore) (opts : ImportOptions)
    (newest env : Envelope) (hbytes : Function.Injective w.sha256Bytes)
    (hlower : ∀ bytes, toAsciiLowercase (w.sha256Bytes bytes) = w.sha256Bytes bytes)
    (hkey : ∀ pubkey msg sig, w.verifySig pubkey msg sig = true → pubkey.length = 32)
    (hnewest : (w.verify newest).isOk = true) (henv : (w.verify env).isOk = true)
    (hchain : newest.header.chainId = env.header.chainId) (hforce : opts.force = false) :
    (s.subscriptionFilter.matches newest.card = true ↔ s.subscribed opts env = true) ↔
      s.FilterAgrees newest env := by
  obtain ⟨v, hv⟩ := ok_of_isOk hnewest
  obtain ⟨v', hv'⟩ := ok_of_isOk henv
  have hhuman : newest.card.humanId = env.header.human.principalId :=
    human_of_chain hbytes hkey hv hv' hchain
  have hlower' : toAsciiLowercase env.header.human.principalId = env.header.human.principalId := by
    obtain ⟨pubkey, -, -, -, hid, -⟩ := key_of_verify hv'
    rw [hid]
    exact hlower pubkey
  rw [matches_subscriptionFilter, subscribed_iff hforce hlower', hhuman]
  unfold FilterAgrees
  by_cases hnone : s.named = []
  · simp [hnone]
  by_cases hid : ∃ p ∈ s.named, namesId p env.header.human.principalId = true
  · obtain ⟨p, hp, hpid⟩ := hid
    have hleft : ∃ p ∈ s.named, namesId p env.header.human.principalId = true ∨
        namesDisplay p newest.header.human.displayName = true := ⟨p, hp, .inl hpid⟩
    have hright : ∃ p ∈ s.named, namesId p env.header.human.principalId = true ∨
        namesDisplay p env.header.human.displayName = true := ⟨p, hp, .inl hpid⟩
    exact iff_of_true (iff_of_true (.inr hleft) (.inr (.inr hright))) (.inr (.inl ⟨p, hp, hpid⟩))
  · -- only the display names are left to tell
    have hdisplay (displayName : Option String) : (∃ p ∈ s.named,
        namesId p env.header.human.principalId = true ∨ namesDisplay p displayName = true) ↔
          ∃ p ∈ s.named, namesDisplay p displayName = true := by
      refine exists_congr fun p => and_congr_right fun hp => or_iff_right fun hpid => ?_
      exact hid ⟨p, hp, hpid⟩
    rw [show newest.card.displayName = newest.header.human.displayName from rfl, hdisplay, hdisplay,
      or_iff_right hnone, or_iff_right hnone, or_iff_right hnone, or_iff_right hid]

/-! ### A chain to run the filter on -/

namespace Wire

/-- Keys of 32 bytes, each its own signature; ids are the bytes written out. -/
def keyed : Wire :=
  { plain with
    sha256Bytes := fun bytes => String.ofList (bytes.flatMap byteHex)
    verifySig := fun pubkey _ sig => pubkey = sig && pubkey.length = 32 }

theorem hexDigit_digitChar {n : ℕ} (h : n < 16) : hexDigit (Nat.digitChar n) = some n := by
  interval_cases n <;> rfl

theorem byteHex_inj {b b' : UInt8} (h : byteHex b = byteHex b') : b = b' := by
  simp only [byteHex, List.cons.injEq, and_true] at h
  have hlt := b.toNat_lt
  have hlt' := b'.toNat_lt
  have hhigh : b.toNat / 16 = b'.toNat / 16 := by
    have heq := congrArg hexDigit h.1
    rw [hexDigit_digitChar (by omega), hexDigit_digitChar (by omega)] at heq
    exact Option.some.inj heq
  have hlow : b.toNat % 16 = b'.toNat % 16 := by
    have heq := congrArg hexDigit h.2
    rw [hexDigit_digitChar (by omega), hexDigit_digitChar (by omega)] at heq
    exact Option.some.inj heq
  exact UInt8.toNat_inj.mp (by omega)

theorem flatMap_byteHex_inj : ∀ {bs bs' : List UInt8}, bs.flatMap byteHex = bs'.flatMap byteHex →
    bs = bs'
  | [], [], _ => rfl
  | [], b :: bs', h => by simp [byteHex] at h
  | b :: bs, [], h => by simp [byteHex] at h
  | b :: bs, b' :: bs', h => by
    simp only [List.flatMap_cons] at h
    obtain ⟨hb, hbs⟩ := List.append_inj h rfl
    rw [byteHex_inj hb, flatMap_byteHex_inj hbs]

theorem keyed_injective : Function.Injective keyed.sha256Bytes := fun _ _ h =>
  flatMap_byteHex_inj (String.ofList_inj.mp h)

theorem toLower_digitChar {n : ℕ} (h : n < 16) : (Nat.digitChar n).toLower = Nat.digitChar n := by
  interval_cases n <;> rfl

theorem keyed_lower (bytes : List UInt8) :
    toAsciiLowercase (keyed.sha256Bytes bytes) = keyed.sha256Bytes bytes := by
  unfold toAsciiLowercase
  rw [← String.toList_inj, String.toList_map]
  change (String.ofList _).toList.map Char.toLower = (String.ofList _).toList
  rw [String.toList_ofList, List.map_flatMap]
  refine List.flatMap_congr fun b _ => ?_
  have hlt := b.toNat_lt
  simp only [byteHex, List.map_cons, List.map_nil, toLower_digitChar (show b.toNat / 16 < 16 by omega),
    toLower_digitChar (show b.toNat % 16 < 16 by omega)]

theorem keyed_length (pubkey : List UInt8) (msg : String) (sig : List UInt8)
    (h : keyed.verifySig pubkey msg sig = true) : pubkey.length = 32 := by
  have h : (pubkey = sig && pubkey.length = 32 : Bool) = true := h
  simp only [Bool.and_eq_true, decide_eq_true_eq] at h
  exact h.2

end Wire

/-- A key. -/
def annKey : List UInt8 := List.replicate 32 0xa1

/-- Whose it is. -/
def annCard : PrincipalCard :=
  ⟨Wire.keyed.principalId annKey, .human, some (Wire.keyed.sha256Bytes annKey), none, some "ann"⟩

def annDevice : PrincipalCard :=
  ⟨Wire.keyed.deviceId annKey "a", .device, none, some annCard.principalId, some "a"⟩

/-- The first segment of her chain. -/
def annSegment : Envelope :=
  let plain := Wire.plainSigned "a" (Wire.plainPayload
    [Wire.plainEvent genesisPrev 1 "prompt" (some 1) none none "body"])
  { plain with
    header := { plain.header with
      chainId := annDevice.principalId
      device := annDevice
      human := annCard }
    signature := Wire.keyed.sha256Bytes annKey
    payload := { plain.payload with
      binds := [⟨annCard, annDevice, annDevice.principalId, genesisPrev,
        Wire.keyed.sha256Bytes annKey⟩] } }

theorem verify_annSegment : (Wire.keyed.verify annSegment).isOk = true := by decide +kernel

/-- A store with these subscriptions. -/
def subscribing (rows : List (Option String × Option String)) : ForeignStore :=
  { ForeignStore.empty with
    subscriptions := rows.foldl (fun t r => t.insert fun id => ⟨id, r.1, r.2, 0⟩)
      ForeignStore.empty.subscriptions }

open ForeignStore in
/-- A row that names her, and one that names someone else. -/
theorem filter_agrees_named : (subscribing [(some "Ann", none), (some "bob", none)]).subscriptionFilter.matches
    annSegment.card = true ↔
      (subscribing [(some "Ann", none), (some "bob", none)]).subscribed ⟨true, false, none⟩ annSegment = true := by
  refine (filter_agrees_iff .keyed _ _ annSegment annSegment Wire.keyed_injective Wire.keyed_lower
    Wire.keyed_length verify_annSegment verify_annSegment rfl rfl).mpr (.inr (.inr ?_))
  decide +kernel

open ForeignStore in
/-- A row for one project of every chain, and one that names someone else:
the import would take the chain, and the filter leaves it out. -/
theorem otherProject_not_fetched : ¬ ∀ (w : Wire) (s : ForeignStore) (opts : ImportOptions)
    (newest env : Envelope), Function.Injective w.sha256Bytes →
      (∀ bytes, toAsciiLowercase (w.sha256Bytes bytes) = w.sha256Bytes bytes) →
        (∀ pubkey msg sig, w.verifySig pubkey msg sig = true → pubkey.length = 32) →
          (w.verify newest).isOk = true → (w.verify env).isOk = true →
            newest.header.chainId = env.header.chainId → opts.force = false →
              (s.subscriptionFilter.matches newest.card = true ↔ s.subscribed opts env = true) := by
  intro h
  have hsame := h .keyed (subscribing [(none, some "/repos/redline"), (some "bob", none)])
    ⟨true, false, none⟩ annSegment annSegment Wire.keyed_injective Wire.keyed_lower
    Wire.keyed_length verify_annSegment verify_annSegment rfl rfl
  revert hsame
  decide +kernel

end PolisMemory
