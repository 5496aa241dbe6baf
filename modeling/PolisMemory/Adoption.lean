/-
# What an interrupted adoption leaves

Adoption is retried on every boot, and a home whose device is either bound in
full or not at all is bound in full by the next adoption. Two writes leave
something else. The key file is there before its bytes are, and a key file
that is not a seed stops every later run; the bind's event is on the ledger
before its payload is kept, and the event is what later runs look for.

Key definitions: `Home.Bound`, `Home.Clean`, `Home.HalfBound`, `Home.Adopted`,
`Reached`.
Key theorems: `adopt_clean`, `adopt_halfBound`, `boot_clean`, `Reached.clean`,
`interrupted_adopt_recovers_iff`.
-/
import PolisMemory.Adopt

namespace PolisMemory

open Interruption Tables

/-! ### The key file -/

theorem isWhitespace_digitChar {n : ℕ} (h : n < 16) : isWhitespace (Nat.digitChar n) = false := by
  interval_cases n <;> rfl

theorem digitChar_ne_plus {n : ℕ} (h : n < 16) : Nat.digitChar n ≠ '+' := by
  interval_cases n <;> decide

theorem hexPair_byteHex (b : UInt8) :
    hexPair (Nat.digitChar (b.toNat / 16)) (Nat.digitChar (b.toNat % 16)) = some b := by
  have hlt := b.toNat_lt
  have hhigh : b.toNat / 16 < 16 := by omega
  have hlow : b.toNat % 16 < 16 := by omega
  have hsum : 16 * (b.toNat / 16) + b.toNat % 16 = b.toNat := by omega
  unfold hexPair
  rw [if_neg (digitChar_ne_plus hhigh), Wire.hexDigit_digitChar hhigh, Wire.hexDigit_digitChar hlow,
    Option.bind_some, Option.map_some, hsum, UInt8.ofNat_toNat]

theorem hexBytes_byteHex : ∀ bs : List UInt8, hexBytes (bs.flatMap Wire.byteHex) = some bs
  | [] => rfl
  | b :: bs => by
    rw [List.flatMap_cons]
    unfold Wire.byteHex
    rw [List.cons_append, List.cons_append, List.nil_append, hexBytes, hexPair_byteHex,
      Option.bind_some]
    have hrest := hexBytes_byteHex bs
    unfold Wire.byteHex at hrest
    rw [hrest, Option.map_some]

/-- A key that was saved is read back. -/
theorem hexDecode_hexEncode (bs : List UInt8) : hexDecode (hexEncode bs) = some bs := by
  have hspace : ∀ c ∈ bs.flatMap Wire.byteHex, isWhitespace c = false := by
    intro c hc
    obtain ⟨b, -, hb⟩ := List.mem_flatMap.mp hc
    have hlt := b.toNat_lt
    unfold Wire.byteHex at hb
    rcases List.mem_cons.mp hb with rfl | hb
    · exact isWhitespace_digitChar (by omega)
    · rw [List.mem_singleton.mp hb]
      exact isWhitespace_digitChar (by omega)
  unfold hexDecode hexEncode
  rw [trim_of_none hspace, String.toList_ofList, hexBytes_byteHex]

/-! ### What is bound -/

namespace Home

variable {h h' : Home} {w : Signer} {device : String}

/-- One bind on the ledger, and the payload it hashes kept beside the chain. -/
def Bound (w : Signer) (h : Home) (device : String) : Prop :=
  ∃ row b, h.bindRows device = [row] ∧ h.bindPayloadFor device = some b ∧
    w.bindHash b = row.payloadHash ∧ b.chainId = device

/-- Neither a bind nor a payload. -/
def Unbound (h : Home) (device : String) : Prop :=
  h.bindRows device = [] ∧ h.bindPayloadFor device = none

/-- The key file holds the seed of an identity. -/
def KeyOf (h : Home) (id : Identity) : Prop :=
  ∃ text, h.keyFile = some text ∧ hexDecode text = some id.seed

/-- The key file is a seed if it is there, and every device is bound in full
or not at all. -/
def Clean (w : Signer) (h : Home) : Prop :=
  (h.keyFile = none ∨ ∃ id, h.KeyOf id) ∧ ∀ device, h.Unbound device ∨ h.Bound w device

/-- The bind's event is on the ledger and its payload is nowhere. -/
def HalfBound (w : Signer) (h : Home) (id : Identity) : Prop :=
  h.KeyOf id ∧ h.bindRows (id.deviceId w) ≠ [] ∧ h.bindPayloadFor (id.deviceId w) = none

/-- The device is a principal of its kind. -/
def HasDevice (h : Home) (device : String) : Prop :=
  ∃ p, h.getPrincipal device = some p ∧ p.kind = .device

/-- What adoption is for: one bind of the device, its payload kept, and the
device's bind among those an envelope ships. -/
structure Adopted (w : Signer) (h : Home) (device : String) : Prop where
  bound : ∃ row b, h.bindRows device = [row] ∧ h.bindPayloadFor device = some b ∧
    w.bindHash b = row.payloadHash
  builds : (h.shippedBinds.any fun b => b.chainId = device) = true

/-- The parts of a home that say what is bound. -/
structure SameBinds (h h' : Home) : Prop where
  keyFile : h'.keyFile = h.keyFile
  bindRows : ∀ device, h'.bindRows device = h.bindRows device
  payloads : ∀ device, h'.bindPayloadFor device = h.bindPayloadFor device

theorem SameBinds.bound (hs : SameBinds h h') (hb : h.Bound w device) : h'.Bound w device := by
  unfold Bound
  rw [hs.bindRows, hs.payloads]
  exact hb

theorem SameBinds.unbound (hs : SameBinds h h') (hu : h.Unbound device) : h'.Unbound device := by
  unfold Unbound
  rw [hs.bindRows, hs.payloads]
  exact hu

theorem SameBinds.keyOf {id : Identity} (hs : SameBinds h h') (hk : h.KeyOf id) : h'.KeyOf id := by
  unfold KeyOf
  rw [hs.keyFile]
  exact hk

theorem SameBinds.clean (hs : SameBinds h h') (hc : h.Clean w) : h'.Clean w := by
  refine ⟨?_, fun device => (hc.2 device).imp hs.unbound hs.bound⟩
  rcases hc.1 with hn | ⟨id, hk⟩
  · exact .inl (hs.keyFile.trans hn)
  · exact .inr ⟨id, hs.keyOf hk⟩

theorem SameBinds.halfBound {id : Identity} (hs : SameBinds h h') (hh : h.HalfBound w id) :
    h'.HalfBound w id := by
  unfold HalfBound
  rw [hs.bindRows, hs.payloads]
  exact ⟨hs.keyOf hh.1, hh.2⟩

/-- A device that is a principal and bound has its bind shipped. -/
theorem Bound.adopted (hb : h.Bound w device) (hd : h.HasDevice device) : h.Adopted w device := by
  obtain ⟨row, b, hrows, hpayload, hhash, hchain⟩ := hb
  obtain ⟨p, hp, hkind⟩ := hd
  refine ⟨⟨row, b, hrows, hpayload, hhash⟩, List.any_eq_true.mpr ⟨b, ?_, decide_eq_true hchain⟩⟩
  have hlisted : p ∈ h.listPrincipals := List.mem_mergeSort.mpr (Table.get?_eq_some.mp hp).1
  refine List.mem_filterMap.mpr ⟨p, List.mem_filter.mpr ⟨hlisted, decide_eq_true hkind⟩, ?_⟩
  rw [Table.key_of_get? hp]
  exact hpayload

/-! ### The writes -/

theorem sameBinds_upsertPrincipal (p : Principal) : SameBinds h (h.upsertPrincipal p) :=
  ⟨rfl, fun _ => rfl, fun _ => rfl⟩

theorem sameBinds_setAlias (name target : String) : SameBinds h (h.setAlias name target) :=
  ⟨rfl, fun _ => rfl, fun _ => rfl⟩

theorem sameBinds_stamp (author : String) (ids : ScopeIds) (table : Scoped) :
    SameBinds h (h.stamp author ids table) := by
  cases table <;> exact ⟨rfl, fun _ => rfl, fun _ => rfl⟩

theorem getPrincipal_upsertPrincipal (p : Principal) (k : String) :
    (h.upsertPrincipal p).getPrincipal k =
      if p.principalId = k then some (((h.principals.get? p.principalId).map p.over).getD p)
      else h.getPrincipal k := by
  have hkey : (((h.principals.get? p.principalId).map p.over).getD p).principalId = p.principalId := by
    cases h.principals.get? p.principalId <;> rfl
  unfold getPrincipal upsertPrincipal
  dsimp only
  rw [Table.get?_upsert, hkey]

theorem kind_upsertPrincipal (p : Principal) :
    (((h.principals.get? p.principalId).map p.over).getD p).kind = p.kind := by
  cases h.principals.get? p.principalId <;> rfl

theorem hasDevice_upsertPrincipal {p : Principal} (hid : p.principalId = device)
    (hkind : p.kind = .device) : (h.upsertPrincipal p).HasDevice device := by
  refine ⟨_, ?_, (kind_upsertPrincipal (h := h) p).trans hkind⟩
  rw [getPrincipal_upsertPrincipal, if_pos hid]

/-- Another principal's row is not the device's. -/
theorem HasDevice.upsertPrincipal {p : Principal} (hid : p.principalId ≠ device)
    (hd : h.HasDevice device) : (h.upsertPrincipal p).HasDevice device := by
  obtain ⟨q, hq, hkind⟩ := hd
  refine ⟨q, ?_, hkind⟩
  rw [getPrincipal_upsertPrincipal, if_neg hid]
  exact hq

theorem HasDevice.stamp {author : String} {ids : ScopeIds} {table : Scoped}
    (hd : h.HasDevice device) : (h.stamp author ids table).HasDevice device := by
  obtain ⟨p, hp, hkind⟩ := hd
  refine ⟨p, ?_, hkind⟩
  cases table <;> exact hp

/-- The ledger after an append. -/
def append (w : Signer) (h : Home) (a : LedgerAppend) : Home :=
  { h with ledger := appended w.sha256 h.ledger a }

theorem bindRows_append (w : Signer) (h : Home) (a : LedgerAppend) (device : String) :
    (h.append w a).bindRows device = h.bindRows device ++
      if a.kind = "principal_bind" ∧ a.refKind = some "principal" ∧ a.refId = some device then
        [successor w.sha256 h.ledger.last a] else [] := by
  unfold bindRows append
  dsimp only
  rw [rows_appended, List.filter_append]
  congr 1
  by_cases hbind : a.kind = "principal_bind" ∧ a.refKind = some "principal" ∧ a.refId = some device
  · rw [if_pos hbind]
    exact List.filter_cons_of_pos (by simp [successor, hbind])
  · rw [if_neg hbind]
    refine List.filter_cons_of_neg fun hrow => hbind ?_
    simp only [Bool.and_eq_true] at hrow
    exact ⟨of_decide_eq_true hrow.1.1, of_decide_eq_true hrow.1.2, of_decide_eq_true hrow.2⟩

theorem bindPayloadFor_setBind (h : Home) (device other : String) (b : BindPayload) :
    (h.setBind device b).bindPayloadFor other =
      if device = other then some b else h.bindPayloadFor other := by
  unfold bindPayloadFor setBind
  dsimp only
  rw [Table.get?_upsert]
  split_ifs <;> rfl

end Home

/-! ### The procedures -/

section procedures

variable {w : Signer} {id : Identity} {login : String} {now : ℤ} {C : Point → Home → Prop}
  {I : Home → Prop}

/-- An agent's id is never a device's: the labels differ. -/
theorem agentId_ne_deviceId (hsha : Function.Injective w.sha256Bytes) (name : String) :
    id.agentId w name ≠ id.deviceId w := by
  intro heq
  have hagent : "agent:".toUTF8.toList = [97, 103, 101, 110, 116, 58] := by decide +kernel
  have hdevice : "device:".toUTF8.toList = [100, 101, 118, 105, 99, 101, 58] := by decide +kernel
  have hbytes : id.pubkey w ++ [0] ++ "agent:".toUTF8.toList ++ (stripAgent name).toUTF8.toList =
    id.pubkey w ++ [0] ++ "device:".toUTF8.toList ++ id.deviceName.toUTF8.toList := hsha heq
  rw [List.append_assoc, List.append_assoc (id.pubkey w ++ [0]), hagent, hdevice] at hbytes
  have hlabels := congrArg List.head? (List.append_cancel_left hbytes)
  exact absurd (Option.some.inj hlabels) (by decide)

/-- What the rows of agents leave alone. -/
structure Seeded (w : Signer) (id : Identity) (I : Home → Prop) : Prop where
  principal : ∀ h p, p.principalId ≠ id.deviceId w → I h → I (h.upsertPrincipal p)
  inserted : ∀ h name target, I h → I (h.setAlias name target)

theorem Seeded.seedAgent (hI : Seeded w id I) (hsha : Function.Injective w.sha256Bytes)
    (hC : ∀ i h, i ≠ .keyFile → i ≠ .bindEvent → I h → C i h) (name : String) :
    Meets I (seedAgent w id now name) C fun _ => I := by
  have hkept : ∀ h, I h → I (h.upsertPrincipal
      ⟨id.agentId w name, .agent, none, some (id.deviceId w), some s!"agent:{name}", now⟩) :=
    fun h => hI.principal h _ (agentId_ne_deviceId hsha name)
  refine Meets.bind (Q := fun _ => I) (meets_write (fun h hh => hC _ _ nofun nofun (hkept h hh)) hkept)
    fun _ => meets_pure fun _ hh => hh

theorem Seeded.seedAlias (hI : Seeded w id I) (hsha : Function.Injective w.sha256Bytes)
    (hC : ∀ i h, i ≠ .keyFile → i ≠ .bindEvent → I h → C i h) (existing : List String) (author : String) :
    Meets I (seedAlias w id login now existing author) C fun _ => I := by
  have hinsert : ∀ target, Meets I (insertAlias author target) C fun _ => I := fun target =>
    Meets.bind (Q := fun _ => I) (meets_read fun _ hh => hh) fun _ =>
      Meets.bind (Q := fun _ => I)
        (meets_write (fun h hh => hC _ _ nofun nofun (hI.inserted h _ _ hh)) fun h hh => hI.inserted h _ _ hh)
        fun _ => meets_pure fun _ hh => hh
  have htarget : ∀ target, Meets I (aliasPrincipal w id now target) C fun _ => I := by
    intro target
    cases target with
    | device => exact meets_pure fun _ hh => hh
    | agent name => exact hI.seedAgent hsha hC name
  unfold PolisMemory.seedAlias
  split_ifs
  · exact meets_pure fun _ hh => hh
  · refine Meets.bind (Q := fun _ => I) (meets_read fun _ hh => hh) fun known => ?_
    split_ifs
    · exact meets_pure fun _ hh => hh
    · exact Meets.bind (htarget _) fun target => Meets.bind (hinsert target) fun _ =>
        meets_pure fun _ hh => hh

theorem Seeded.seedAliases (hI : Seeded w id I) (hsha : Function.Injective w.sha256Bytes)
    (hC : ∀ i h, i ≠ .keyFile → i ≠ .bindEvent → I h → C i h) (existing : List String) : ∀ authors,
    Meets I (seedAliases w id login now existing authors) C fun _ => I
  | [] => meets_pure fun _ hh => hh
  | author :: authors =>
    Meets.bind (hI.seedAlias hsha hC existing author) fun _ =>
      Meets.bind (hI.seedAliases hsha hC existing authors) fun _ => meets_pure fun _ hh => hh

/-- The principals and the aliases leave what is bound, and the device is a
principal. -/
theorem seedPrincipals_meets {P : Home → Prop} (hP : ∀ h h', Home.SameBinds h h' → P h → P h')
    (hsha : Function.Injective w.sha256Bytes) (hC : ∀ i h, i ≠ .keyFile → i ≠ .bindEvent → P h → C i h) :
    Meets P (seedPrincipals w id login now) C
      fun _ h => P h ∧ h.HasDevice (id.deviceId w) := by
  have hhuman : ∀ h p, P h → P (h.upsertPrincipal p) := fun h p =>
    hP h _ (Home.sameBinds_upsertPrincipal p)
  have hI : Seeded w id fun h => P h ∧ h.HasDevice (id.deviceId w) :=
    ⟨fun h p hid hh => ⟨hhuman h p hh.1, hh.2.upsertPrincipal hid⟩,
      fun h name target hh => ⟨hP h _ (Home.sameBinds_setAlias name target) hh.1, hh.2⟩⟩
  have hCI : ∀ i h, i ≠ .keyFile → i ≠ .bindEvent → (P h ∧ h.HasDevice (id.deviceId w)) → C i h :=
    fun i h hk hi hh => hC i h hk hi hh.1
  refine Meets.bind (Q := fun _ => P) (meets_read fun _ hh => hh) fun before => ?_
  refine Meets.bind (Q := fun _ => P)
    (meets_write (fun h hh => hC _ _ nofun nofun (hhuman h _ hh)) fun h hh => hhuman h _ hh) fun _ => ?_
  refine Meets.bind (Q := fun _ h => P h ∧ h.HasDevice (id.deviceId w))
    (meets_write (fun h hh => hC _ _ nofun nofun (hhuman h _ hh))
      fun h hh => ⟨hhuman h _ hh, Home.hasDevice_upsertPrincipal rfl rfl⟩) fun _ => ?_
  refine Meets.bind (Meets.forM fun name _ =>
    Meets.bind (hI.seedAgent hsha hCI name) fun _ => meets_pure fun _ hh => hh) fun _ => ?_
  refine Meets.bind (Q := fun _ h => P h ∧ h.HasDevice (id.deviceId w))
    (meets_read fun _ hh => hh) fun existing => ?_
  refine Meets.bind (Q := fun _ h => P h ∧ h.HasDevice (id.deviceId w))
    (meets_read fun _ hh => hh) fun authors => ?_
  refine Meets.bind (hI.seedAliases hsha hCI existing authors) fun aliases => ?_
  refine Meets.bind (Q := fun _ h => P h ∧ h.HasDevice (id.deviceId w))
    (meets_read fun _ hh => hh) fun after => ?_
  exact meets_pure fun _ hh => hh

/-- A stamp leaves what its writes leave. -/
theorem stampUnscoped_meets (hI : ∀ h author ids table, I h → I (h.stamp author ids table))
    (hC : ∀ i h, i ≠ .keyFile → i ≠ .bindEvent → I h → C i h) : Meets I stampUnscoped C fun _ => I := by
  have htable : ∀ author ids table, Meets I (stampTable author ids table) C fun _ => I :=
    fun author ids table =>
      Meets.bind (Q := fun _ => I) (meets_read fun _ hh => hh) fun _ =>
        Meets.bind (Q := fun _ => I)
          (meets_write (fun h hh => hC _ _ nofun nofun (hI h _ _ _ hh)) fun h hh => hI h _ _ _ hh)
          fun _ => meets_pure fun _ hh => hh
  have hauthor : ∀ author, Meets I (stampAuthor author) C fun _ => I := by
    intro author
    refine Meets.bind (Q := fun _ => I) (meets_read fun _ hh => hh) fun ids => ?_
    split_ifs
    · exact meets_pure fun _ hh => hh
    · exact Meets.bind (htable _ _ _) fun _ => Meets.bind (htable _ _ _) fun _ =>
        Meets.bind (htable _ _ _) fun _ => Meets.bind (htable _ _ _) fun _ =>
          Meets.bind (htable _ _ _) fun _ => meets_pure fun _ hh => hh
  have heach : ∀ authors, Meets I (stampEach authors) C fun _ => I := by
    intro authors
    induction authors with
    | nil => exact meets_pure fun _ hh => hh
    | cons author authors ih =>
      exact Meets.bind (hauthor author) fun _ => Meets.bind ih fun _ => meets_pure fun _ hh => hh
  exact Meets.bind (Q := fun _ => I) (meets_read fun _ hh => hh) fun authors => heach authors

/-- What an adoption under an identity leaves on its way. -/
def Left (w : Signer) (id : Identity) (i : Point) (h : Home) : Prop :=
  i ≠ .keyFile ∧ (i = .bindEvent → h.HalfBound w id) ∧ (i ≠ .bindEvent → h.Clean w ∧ h.KeyOf id)

/-- A first bind: half of it after its event, all of it after its payload. -/
theorem newBind_meets : Meets
    (fun h => (h.Clean w ∧ h.KeyOf id) ∧ h.Unbound (id.deviceId w) ∧ h.HasDevice (id.deviceId w))
    (newBind w id login now) (Left w id)
    fun _ h => (h.Clean w ∧ h.KeyOf id) ∧ h.Bound w (id.deviceId w) ∧ h.HasDevice (id.deviceId w) := by
  unfold newBind
  refine Meets.bind
    (Q := fun _ h => (h.Clean w ∧ h.KeyOf id) ∧ h.Unbound (id.deviceId w) ∧
      h.HasDevice (id.deviceId w)) (meets_read fun _ hh => hh) fun headHash => ?_
  generalize hb : bindPayload w id login headHash = payload
  -- between the two writes
  let Half (h : Home) : Prop := h.KeyOf id ∧ h.HasDevice (id.deviceId w) ∧
    (∃ row, h.bindRows (id.deviceId w) = [row] ∧ w.bindHash payload = row.payloadHash) ∧
    h.bindPayloadFor (id.deviceId w) = none ∧
    ∀ device, id.deviceId w ≠ device → h.Unbound device ∨ h.Bound w device
  have hevent : ∀ h : Home, (h.Clean w ∧ h.KeyOf id) ∧ h.Unbound (id.deviceId w) ∧
      h.HasDevice (id.deviceId w) → Half (h.append w (bindAppend w id now payload)) := by
    intro h ⟨⟨hc, hk⟩, ⟨hrows, hpayload⟩, hd⟩
    refine ⟨hk, hd, ⟨successor w.sha256 h.ledger.last (bindAppend w id now payload), ?_, rfl⟩,
      hpayload, fun device hne => ?_⟩
    · rw [Home.bindRows_append, hrows, if_pos ⟨rfl, rfl, rfl⟩, List.nil_append]
    · have hsame : (h.append w (bindAppend w id now payload)).bindRows device = h.bindRows device := by
        rw [Home.bindRows_append, if_neg fun hx => hne (Option.some.inj hx.2.2), List.append_nil]
      have hother := hc.2 device
      unfold Home.Unbound Home.Bound at hother ⊢
      rw [hsame]
      exact hother
  have hmeta : ∀ h : Home, Half h → ((h.setBind (id.deviceId w) payload).Clean w ∧
      (h.setBind (id.deviceId w) payload).KeyOf id) ∧
      (h.setBind (id.deviceId w) payload).Bound w (id.deviceId w) ∧
      (h.setBind (id.deviceId w) payload).HasDevice (id.deviceId w) := by
    intro h ⟨hk, hd, ⟨row, hrow, hhash⟩, _, hothers⟩
    have hbound : (h.setBind (id.deviceId w) payload).Bound w (id.deviceId w) := by
      refine ⟨row, payload, hrow, ?_, hhash, hb ▸ rfl⟩
      rw [Home.bindPayloadFor_setBind, if_pos rfl]
    refine ⟨⟨⟨.inr ⟨id, hk⟩, fun device => ?_⟩, hk⟩, hbound, hd⟩
    by_cases hdev : id.deviceId w = device
    · exact .inr (hdev ▸ hbound)
    · have hother := hothers device hdev
      unfold Home.Unbound Home.Bound at hother ⊢
      rw [Home.bindPayloadFor_setBind, if_neg hdev]
      exact hother
  refine Meets.bind (Q := fun _ => Half) ?_ fun row => ?_
  · refine Meets.bind
      (Q := fun _ h => (h.Clean w ∧ h.KeyOf id) ∧ h.Unbound (id.deviceId w) ∧
        h.HasDevice (id.deviceId w)) (meets_read fun _ hh => hh) fun row => ?_
    refine Meets.bind (Q := fun _ => Half) (meets_write (fun h hh => ?_) fun h hh => hevent h hh)
      fun _ => meets_pure fun _ hh => hh
    obtain ⟨hk, -, ⟨r, hr, -⟩, hnone, -⟩ := hevent h hh
    refine ⟨nofun, fun _ => ⟨hk, ?_, hnone⟩, fun hne => absurd rfl hne⟩
    exact hr ▸ List.cons_ne_nil _ _
  · refine Meets.bind
      (Q := fun _ h => (h.Clean w ∧ h.KeyOf id) ∧ h.Bound w (id.deviceId w) ∧
        h.HasDevice (id.deviceId w))
      (meets_write (fun h hh => ⟨nofun, nofun, fun _ => (hmeta h hh).1⟩) hmeta)
      fun _ => meets_pure fun _ hh => hh

theorem Home.rows_of_bindSeqFor {h : Home} {device : String} :
    h.bindSeqFor device = none ↔ h.bindRows device = [] := by
  unfold Home.bindSeqFor
  rw [Option.map_eq_none_iff, List.getLast?_eq_none_iff]

/-- In a clean home the bind step ends with the device bound. -/
theorem bindOnce_clean : Meets
    (fun h => (h.Clean w ∧ h.KeyOf id) ∧ h.HasDevice (id.deviceId w)) (bindOnce w id login now)
    (Left w id)
    fun _ h => (h.Clean w ∧ h.KeyOf id) ∧ h.Bound w (id.deviceId w) ∧ h.HasDevice (id.deviceId w) := by
  refine Meets.bind
    (Q := fun seq h => ((h.Clean w ∧ h.KeyOf id) ∧ h.HasDevice (id.deviceId w)) ∧
      seq = h.bindSeqFor (id.deviceId w)) (meets_read fun _ hh => ⟨hh, rfl⟩) fun seq => ?_
  cases seq with
  | some seq =>
    refine meets_pure fun h hh => ⟨hh.1.1, ?_, hh.1.2⟩
    refine (hh.1.1.1.2 (id.deviceId w)).resolve_left fun hun => ?_
    have hnone := Home.rows_of_bindSeqFor.mpr hun.1
    rw [← hh.2] at hnone
    exact absurd hnone (Option.some_ne_none seq)
  | none =>
    refine (Meets.bind newBind_meets fun _ => meets_pure fun _ hh => hh).conseq
      (fun h hh => ⟨hh.1.1, ?_, hh.1.2⟩) (fun _ _ hc => hc) fun _ _ hq => hq
    have hrows := Home.rows_of_bindSeqFor.mp hh.2.symm
    refine (hh.1.1.1.2 (id.deviceId w)).resolve_right fun hbound => ?_
    obtain ⟨row, _, hrow, _⟩ := hbound
    exact absurd (hrow.symm.trans hrows) (List.cons_ne_nil _ _)

/-- Where the event is, the bind step does nothing. -/
theorem bindOnce_halfBound {C : Point → Home → Prop} :
    Meets (fun h => h.HalfBound w id) (bindOnce w id login now) C fun _ h => h.HalfBound w id := by
  refine Meets.bind (Q := fun seq h => h.HalfBound w id ∧ seq = h.bindSeqFor (id.deviceId w))
    (meets_read fun _ hh => ⟨hh, rfl⟩) fun seq => ?_
  cases seq with
  | some seq => exact meets_pure fun _ hh => hh.1
  | none =>
    intro h hh
    exact absurd (Home.rows_of_bindSeqFor.mp hh.2.symm) hh.1.2.1

/-- Adoption of a clean home. -/
theorem adopt_clean (hsha : Function.Injective w.sha256Bytes) : Meets
    (fun h => h.Clean w ∧ h.KeyOf id) (adopt w id login now) (Left w id)
    fun report h => report.device = id.deviceId w ∧ (h.Clean w ∧ h.KeyOf id) ∧
      h.Adopted w (id.deviceId w) := by
  have hleft : ∀ i h, i ≠ .keyFile → i ≠ .bindEvent → (h.Clean w ∧ h.KeyOf id) → Left w id i h :=
    fun i h hk hb hh => ⟨hk, fun heq => absurd heq hb, fun _ => hh⟩
  refine Meets.bind (seedPrincipals_meets (fun h h' hs hh => ⟨hs.clean hh.1, hs.keyOf hh.2⟩) hsha
    hleft) fun seeded => ?_
  obtain ⟨principals, aliases⟩ := seeded
  refine Meets.bind bindOnce_clean fun bind => ?_
  obtain ⟨seq, already⟩ := bind
  refine Meets.bind (stampUnscoped_meets (fun h author ids table hh => ?_)
    fun i h hk hb hh => hleft i h hk hb hh.1) fun stamped => ?_
  · have hs := Home.sameBinds_stamp (h := h) author ids table
    exact ⟨⟨hs.clean hh.1.1, hs.keyOf hh.1.2⟩, hs.bound hh.2.1, hh.2.2.stamp⟩
  · exact Meets.bind
      (Q := fun _ h => (h.Clean w ∧ h.KeyOf id) ∧ h.Bound w (id.deviceId w) ∧
        h.HasDevice (id.deviceId w)) (meets_read fun _ hh => hh) fun unscoped =>
      meets_pure fun h hh => ⟨rfl, hh.1, hh.2.1.adopted hh.2.2⟩

/-- Adoption of a home whose bind has its event and not its payload. -/
theorem adopt_halfBound (hsha : Function.Injective w.sha256Bytes) : Meets
    (fun h => h.HalfBound w id) (adopt w id login now) (fun _ _ => True)
    fun report h => report.device = id.deviceId w ∧ h.HalfBound w id := by
  refine Meets.bind (Q := fun _ h => h.HalfBound w id)
    ((seedPrincipals_meets (fun h h' hs hh => hs.halfBound hh) hsha fun _ _ _ _ _ => trivial).conseq
      (fun _ hh => hh) (fun _ _ hc => hc) fun _ _ hh => hh.1) fun seeded => ?_
  obtain ⟨principals, aliases⟩ := seeded
  refine Meets.bind bindOnce_halfBound fun bind => ?_
  obtain ⟨seq, already⟩ := bind
  refine Meets.bind (stampUnscoped_meets
    (fun h author ids table hh => (Home.sameBinds_stamp author ids table).halfBound hh)
    fun _ _ _ _ _ => trivial) fun stamped => ?_
  exact Meets.bind (Q := fun _ h => h.HalfBound w id) (meets_read fun _ hh => hh) fun unscoped =>
    meets_pure fun h hh => ⟨rfl, hh⟩

theorem Home.HalfBound.not_adopted {h : Home} (hh : h.HalfBound w id) :
    ¬ h.Adopted w (id.deviceId w) := by
  intro ha
  obtain ⟨_, b, -, hb, -⟩ := ha.bound
  rw [hh.2.2] at hb
  exact absurd hb.symm (Option.some_ne_none b)

/-! ### The key -/

variable {dir deviceName : String} {fresh : Identity}

/-- A key that is there is loaded, under the name the device has now. -/
theorem run_load {h : Home} (hk : h.KeyOf id) (hname : deviceName = id.deviceName) :
    Identity.load dir deviceName h = ⟨.ok (some id), h, []⟩ := by
  obtain ⟨text, htext, hseed⟩ := hk
  have hread : (Proc.read Home.keyFile : HomeProc (Option String)) h = ⟨.ok (some text), h, []⟩ := by
    show (⟨.ok h.keyFile, h, []⟩ : Run Point Home String (Option String)) = _
    rw [htext]
  have hid : (⟨id.seed, id.seed_length, deviceName⟩ : Identity) = id := by rw [hname]
  unfold Identity.load
  rw [run_bind_ok (congrArg Run.result hread), hread]
  dsimp only
  rw [hseed]
  dsimp only
  rw [dif_pos id.seed_length, hid]
  rfl

theorem run_load_none {h : Home} (hk : h.keyFile = none) :
    Identity.load dir deviceName h = ⟨.ok none, h, []⟩ := by
  have hread : (Proc.read Home.keyFile : HomeProc (Option String)) h = ⟨.ok none, h, []⟩ := by
    show (⟨.ok h.keyFile, h, []⟩ : Run Point Home String (Option String)) = _
    rw [hk]
  unfold Identity.load
  rw [run_bind_ok (congrArg Run.result hread), hread]
  rfl

/-- An empty key file is no seed. -/
theorem run_load_empty {h : Home} (hk : h.keyFile = some "") :
    ∃ e, (Identity.load dir deviceName h).result = .error e := by
  have hread : (Proc.read Home.keyFile : HomeProc (Option String)) h = ⟨.ok (some ""), h, []⟩ := by
    show (⟨.ok h.keyFile, h, []⟩ : Run Point Home String (Option String)) = _
    rw [hk]
  have hbytes : hexDecode "" = some [] := by decide
  refine ⟨s!"{dir}/identity.key is not a 32-byte seed", ?_⟩
  unfold Identity.load
  rw [run_bind_ok (congrArg Run.result hread), hread]
  dsimp only
  rw [hbytes]
  rfl

/-- What the key's part of a run leaves on its way. -/
def KeyLeft (w : Signer) (i : Point) (h : Home) : Prop :=
  i ≠ .bindEvent ∧ (i = .keyFile → h.keyFile = some "") ∧ (i ≠ .keyFile → h.Clean w)

theorem save_clean : Meets (fun h => h.Clean w) (fresh.save w) (KeyLeft w)
    fun _ h => h.Clean w ∧ h.KeyOf fresh := by
  let Opened (h : Home) : Prop := ∀ device, h.Unbound device ∨ h.Bound w device
  let Saved (h : Home) : Prop := h.Clean w ∧ h.KeyOf fresh
  have hsaved : ∀ h : Home, Opened h → Saved { h with keyFile := some (hexEncode fresh.seed) } := by
    intro h hh
    have hkey : Home.KeyOf { h with keyFile := some (hexEncode fresh.seed) } fresh :=
      ⟨_, rfl, hexDecode_hexEncode fresh.seed⟩
    exact ⟨⟨.inr ⟨fresh, hkey⟩, hh⟩, hkey⟩
  refine Meets.bind (Q := fun _ => Opened)
    (meets_write (fun h hh => ⟨nofun, fun _ => rfl, fun hne => absurd rfl hne⟩) fun h hh => hh.2)
    fun _ => ?_
  refine Meets.bind (Q := fun _ => Saved)
    (meets_write (fun h hh => ⟨nofun, nofun, fun _ => (hsaved h hh).1⟩) hsaved) fun _ => ?_
  exact meets_write (fun h hh => ⟨nofun, nofun, fun _ => hh.1⟩) fun h hh => hh

theorem loadOrCreate_clean : Meets (fun h => h.Clean w) (Identity.loadOrCreate w dir fresh)
    (KeyLeft w)
    fun r h => (h.Clean w ∧ h.KeyOf r.1) ∧ r.1.deviceName = fresh.deviceName := by
  have hload : Meets (fun h => h.Clean w) (Identity.load dir fresh.deviceName) (KeyLeft w)
      fun r h => h.Clean w ∧ ∀ id, r = some id → h.KeyOf id ∧ id.deviceName = fresh.deviceName := by
    intro h hc
    rcases hc.1 with hn | ⟨id, hk⟩
    · rw [run_load_none hn]
      exact ⟨fun _ hx => absurd hx List.not_mem_nil, none, rfl, hc, nofun⟩
    · have hk' : h.KeyOf ⟨id.seed, id.seed_length, fresh.deviceName⟩ := hk
      rw [run_load hk' rfl]
      refine ⟨fun _ hx => absurd hx List.not_mem_nil, _, rfl, hc, fun id' heq => ?_⟩
      rw [← Option.some.inj heq]
      exact ⟨hk', rfl⟩
  refine Meets.bind hload fun r => ?_
  cases r with
  | some id => exact meets_pure fun h hh => ⟨⟨hh.1, (hh.2 id rfl).1⟩, (hh.2 id rfl).2⟩
  | none =>
    refine Meets.bind (save_clean.conseq (fun h hh => hh.1) (fun _ _ hc => hc) fun _ _ hq => hq)
      fun _ => ?_
    exact meets_pure fun h hh => ⟨hh, rfl⟩

end procedures

/-! ### A run from the command line -/

section runs

variable {w : Signer} {c again : BootCall} {h h' : Home} {i : Point}

/-- What a run from a clean home leaves on its way. -/
def BootLeft (w : Signer) (c : BootCall) (i : Point) (h : Home) : Prop :=
  (i = .keyFile → h.keyFile = some "") ∧
    (i = .bindEvent → ∃ id : Identity, id.deviceName = c.fresh.deviceName ∧ h.HalfBound w id) ∧
      (i ≠ .keyFile → i ≠ .bindEvent → h.Clean w)

/-- A run from a clean home ends in one, the device adopted. -/
theorem boot_clean (hsha : Function.Injective w.sha256Bytes) : Meets (fun h => h.Clean w) (boot w c)
    (BootLeft w c) fun report h => h.Clean w ∧ h.Adopted w report.device := by
  refine Meets.bind (loadOrCreate_clean.conseq (fun h hh => hh)
    (fun i h hc => ⟨hc.2.1, fun heq => absurd heq hc.1, fun hk _ => hc.2.2 hk⟩)
    fun r h hq => hq) fun r => ?_
  obtain ⟨id, created⟩ := r
  intro h hh
  have hadopt : Meets (fun h => h.Clean w ∧ h.KeyOf id) (adopt w id c.login c.now) (BootLeft w c)
      fun report h => h.Clean w ∧ h.Adopted w report.device := by
    refine (adopt_clean hsha).conseq (fun _ hp => hp) (fun i h' hl => ?_) fun report h' hq => ?_
    · exact ⟨fun heq => absurd heq hl.1, fun heq => ⟨id, hh.2, hl.2.1 heq⟩,
        fun _ hb => (hl.2.2 hb).1⟩
    · rw [hq.1]
      exact ⟨hq.2.1.1, hq.2.2⟩
  exact hadopt h hh.1

/-- A run that finds half a bind leaves it so. -/
theorem boot_halfBound (hsha : Function.Injective w.sha256Bytes) {id : Identity}
    (hname : id.deviceName = c.fresh.deviceName) : Meets (fun h => h.HalfBound w id) (boot w c)
      (fun _ _ => True) fun report h => report.device = id.deviceId w ∧ h.HalfBound w id := by
  refine Meets.bind (Q := fun r h => r.1 = id ∧ h.HalfBound w id) (fun h hh => ?_) fun r => ?_
  · unfold Identity.loadOrCreate
    have hload : Identity.load c.dir c.fresh.deviceName h = ⟨.ok (some id), h, []⟩ :=
      run_load hh.1 hname.symm
    rw [run_bind_ok (congrArg Run.result hload), hload]
    exact ⟨fun _ _ => trivial, _, rfl, rfl, hh⟩
  · obtain ⟨id', created⟩ := r
    intro h hh
    obtain rfl : id' = id := hh.1
    exact adopt_halfBound hsha h hh.2

/-- A run that finds an empty key file ends there. -/
theorem boot_emptyKey (hk : h.keyFile = some "") : ∃ e, (boot w c h).result = .error e := by
  obtain ⟨e, he⟩ : ∃ e, (Identity.load c.dir c.fresh.deviceName h).result = .error e :=
    run_load_empty hk
  have hcreate : (Identity.loadOrCreate w c.dir c.fresh h).result = .error e := by
    unfold Identity.loadOrCreate
    rw [run_bind_error he]
  refine ⟨e, ?_⟩
  unfold boot
  rw [run_bind_error hcreate]

/-- The homes that runs lead to, none of them cut short with half a key or half
a bind. What else writes to a store appends no `principal_bind` event and keeps
no payload of one. -/
inductive Reached (w : Signer) : Home → Prop
  | start (h : Home) : h.keyFile = none → (∀ device, h.Unbound device) → Reached w h
  | adopted (h : Home) (c : BootCall) (report : AdoptReport) : Reached w h →
      (boot w c h).result = .ok report → Reached w (boot w c h).final
  | interrupted (h h' : Home) (c : BootCall) (i : Point) : Reached w h →
      (i, h') ∈ (boot w c h).points → i ≠ .keyFile → i ≠ .bindEvent → Reached w h'
  | elsewhere (h h' : Home) : Reached w h → Home.SameBinds h h' → Reached w h'

/-- They are clean. -/
theorem Reached.clean (hsha : Function.Injective w.sha256Bytes) (hr : Reached w h) : h.Clean w := by
  induction hr with
  | start h hk hun => exact ⟨.inl hk, fun device => .inl (hun device)⟩
  | adopted h c report _ hres ih =>
    obtain ⟨-, r, -, hclean, -⟩ := boot_clean (c := c) hsha h ih
    exact hclean
  | interrupted h h' c i _ hp hk hb ih =>
    have hleft := (boot_clean (c := c) hsha h ih).1 _ hp
    exact hleft.2.2 hk hb
  | elsewhere h h' _ hs ih => exact hs.clean ih

/-- Wherever a run is cut short, the next one adopts the device, the key file
and the bind's event apart. -/
theorem interrupted_adopt_recovers_iff (w : Signer) (hsha : Function.Injective w.sha256Bytes)
    (h : Home) (hr : Reached w h) (c again : BootCall)
    (hname : again.fresh.deviceName = c.fresh.deviceName) (i : Point) (h' : Home)
    (hpoint : (i, h') ∈ (boot w c h).points) :
    (∃ report, (boot w again h').result = .ok report ∧
      (boot w again h').final.Adopted w report.device) ↔ i ≠ .keyFile ∧ i ≠ .bindEvent := by
  have hleft : BootLeft w c i h' := (boot_clean hsha h (hr.clean hsha)).1 _ hpoint
  constructor
  · rintro ⟨report, hres, hadopted⟩
    constructor
    · intro hi
      obtain ⟨e, he⟩ : ∃ e, (boot w again h').result = .error e := boot_emptyKey (hleft.1 hi)
      rw [hres] at he
      exact absurd he nofun
    · intro hi
      obtain ⟨id, hid, hhalf⟩ := hleft.2.1 hi
      obtain ⟨-, report', hres', hdevice, hfinal⟩ :=
        boot_halfBound (c := again) hsha (hid.trans hname.symm) h' hhalf
      rw [hres] at hres'
      obtain rfl : report = report' := Except.ok.inj hres'
      exact hfinal.not_adopted (hdevice ▸ hadopted)
  · rintro ⟨hk, hb⟩
    obtain ⟨-, report, hres, -, hadopted⟩ := boot_clean (c := again) hsha h' (hleft.2.2 hk hb)
    exact ⟨report, hres, hadopted⟩

/-- A first bind comes to both of its writes. -/
theorem passes_newBind {id : Identity} {login : String} {now : ℤ}
    (hi : i = .bindEvent ∨ i = .bindMeta) : Passes (fun _ => True) (newBind w id login now) i := by
  refine Meets.passes (C := fun _ _ => True) (Q := fun _ _ => True) (meets_read fun _ _ => trivial)
    fun headHash => ?_
  rcases hi with rfl | rfl
  · refine Passes.bind ?_
    exact Meets.passes (C := fun _ _ => True) (Q := fun _ _ => True) (meets_read fun _ _ => trivial)
      fun row => Passes.bind passes_write
  · have happend : Meets (fun _ => True) (appendBind w (bindAppend w id now (bindPayload w id login headHash)))
        (fun _ _ => True) fun _ _ => True :=
      Meets.bind (Q := fun _ _ => True) (meets_read fun _ _ => trivial) fun row =>
        Meets.bind (Q := fun _ _ => True) (meets_write (fun _ _ => trivial) fun _ _ => trivial)
          fun _ => meets_pure fun _ _ => trivial
    exact happend.passes fun row => Passes.bind passes_write

/-- And so does a first run. -/
theorem passes_bind (hsha : Function.Injective w.sha256Bytes) (hi : i = .bindEvent ∨ i = .bindMeta) :
    Passes (fun h => h.keyFile = none ∧ ∀ device, h.Unbound device) (boot w c) i := by
  let Fresh (h : Home) : Prop := ∀ device, h.Unbound device
  have hload : Meets (fun h : Home => h.keyFile = none ∧ Fresh h) (Identity.loadOrCreate w c.dir c.fresh)
      (fun _ _ => True) fun _ => Fresh := by
    refine Meets.bind (Q := fun r h => r = none ∧ Fresh h) (fun h hh => ?_) fun r => ?_
    · rw [run_load_none hh.1]
      exact ⟨fun _ _ => trivial, none, rfl, rfl, hh.2⟩
    · cases r with
      | some id => exact fun h hh => absurd hh.1 nofun
      | none =>
        refine Meets.bind (Q := fun _ => Fresh) ?_ fun _ => meets_pure fun _ hh => hh
        refine Meets.bind (Q := fun _ => Fresh) (meets_write (fun _ _ => trivial) fun _ hh => hh.2)
          fun _ => ?_
        exact Meets.bind (Q := fun _ => Fresh) (meets_write (fun _ _ => trivial) fun _ hh => hh)
          fun _ => meets_write (fun _ _ => trivial) fun _ hh => hh
  refine hload.passes fun r => ?_
  obtain ⟨id, created⟩ := r
  have hseeded : Meets Fresh (seedPrincipals w id c.login c.now) (fun _ _ => True) fun _ => Fresh :=
    (seedPrincipals_meets (fun h h' hs hh device => hs.unbound (hh device)) hsha
      fun _ _ _ _ _ => trivial).conseq (fun _ hh => hh) (fun _ _ hc => hc) fun _ _ hh => hh.1
  refine hseeded.passes fun seeded => ?_
  obtain ⟨principals, aliases⟩ := seeded
  have hnone : ∀ {h : Home} {seq : Option ℤ}, (Fresh h ∧ seq = h.bindSeqFor (id.deviceId w)) →
      seq = none := fun hh => hh.2.trans (Home.rows_of_bindSeqFor.mpr (hh.1 _).1)
  refine Passes.bind ?_
  refine Meets.passes (C := fun _ _ => True)
    (Q := fun seq h => Fresh h ∧ seq = h.bindSeqFor (id.deviceId w))
    (meets_read fun _ hh => ⟨hh, rfl⟩) fun seq => ?_
  cases seq with
  | some seq => exact fun h hh => absurd (hnone hh) (Option.some_ne_none seq)
  | none =>
    refine Passes.bind fun h _ => ?_
    exact passes_newBind hi h trivial

end runs

/-- A key pair that is its seed. -/
def plainSigner : Signer := { Wire.keyed with verifyingKey := fun seed => seed, sign := fun seed _ => seed }

/-- A home before its first run. -/
def freshHome : Home := ⟨none, none, ∅, ∅, .empty, ∅, [], [], [], [], []⟩

/-- A run of hers. -/
def annBoot : BootCall := ⟨"/home/ann/.polis/identity", "ann", 1, ⟨annKey, rfl, "a"⟩⟩

theorem reached_freshHome : Reached plainSigner freshHome := .start _ rfl fun _ => ⟨rfl, rfl⟩

theorem plain_passes (i : Point) (hi : i = .bindEvent ∨ i = .bindMeta) :
    ∃ h', (i, h') ∈ (boot plainSigner annBoot freshHome).points :=
  passes_bind Wire.keyed_injective hi freshHome ⟨rfl, fun _ => ⟨rfl, rfl⟩⟩

/-- Cut short after the bind's payload. -/
theorem interrupted_adopt_recovers_meta : ∃ h',
    (Point.bindMeta, h') ∈ (boot plainSigner annBoot freshHome).points ∧
      ∃ report, (boot plainSigner annBoot h').result = .ok report ∧
        (boot plainSigner annBoot h').final.Adopted plainSigner report.device := by
  obtain ⟨h', hpoint⟩ := plain_passes .bindMeta (.inr rfl)
  exact ⟨h', hpoint, (interrupted_adopt_recovers_iff plainSigner Wire.keyed_injective freshHome
    reached_freshHome annBoot annBoot rfl .bindMeta h' hpoint).mpr ⟨nofun, nofun⟩⟩

/-- Cut short between the bind's event and its payload, the device stays
without a bind. -/
theorem bindEvent_not_recovered : ¬ ∀ (w : Signer), Function.Injective w.sha256Bytes →
    ∀ (h : Home), Reached w h → ∀ (c again : BootCall),
      again.fresh.deviceName = c.fresh.deviceName → ∀ (i : Point) (h' : Home),
        (i, h') ∈ (boot w c h).points → ∃ report, (boot w again h').result = .ok report ∧
          (boot w again h').final.Adopted w report.device := by
  intro hclaim
  obtain ⟨h', hpoint⟩ := plain_passes .bindEvent (.inl rfl)
  have hclean := reached_freshHome.clean Wire.keyed_injective
  obtain ⟨id, hid, hhalf⟩ :=
    ((boot_clean (c := annBoot) Wire.keyed_injective freshHome hclean).1 _ hpoint).2.1 rfl
  obtain ⟨report, hres, hadopted⟩ := hclaim plainSigner Wire.keyed_injective freshHome
    reached_freshHome annBoot annBoot rfl .bindEvent h' hpoint
  obtain ⟨-, report', hres', hdevice, hfinal⟩ :=
    boot_halfBound (c := annBoot) Wire.keyed_injective hid h' hhalf
  rw [hres] at hres'
  obtain rfl : report = report' := Except.ok.inj hres'
  exact hfinal.not_adopted (hdevice ▸ hadopted)

end PolisMemory
