/-
# The consume-once guard of agent prompts

`crates/polis-core/src/ledger.rs`: a host registers a prompt it is about to
spawn an agent with, and the hook route (`crates/polis-server/src/ingest.rs`)
claims the registration and skips the prompt, which is in the ledger already.
The guard is a map from the hash of the trimmed body to one registration and
its time; what is as old as the time-to-live is pruned on every access.

A claim never succeeds without a registration of its own. But a registration
replaces the one that is there, so of two equal prompts registered before
either is claimed, the second claimed is captured again
(`twoAgents_capturedTwice`). While nothing expires, all claims of a body
succeed exactly if each registration of it is made when all before it are
claimed (`agentPrompts_claimed_iff`).

Key definitions: `TtlGuard`, `registerAgentPrompt`, `ingestParsed`,
`GuardCall`, `Guarded.skips`.
Key theorems: `Guarded.accounts`, `ingest_refines`, `agentPrompts_claimed_iff`.
-/
import Mathlib.Data.List.Infix
import Mathlib.Logic.Function.Basic
import PolisMemory.Capture
import PolisMemory.JsonValue

namespace PolisMemory

open JsonText

/-! ### The guard -/

/-- A consume-once map: under each key one value and when it was registered. -/
structure TtlGuard (V : Type*) where
  map : String → Option (V × ℕ)
  ttl : ℕ

namespace TtlGuard

variable {V : Type*} (g : TtlGuard V)

/-- `TtlGuard::new`. -/
def new (ttl : ℕ) : TtlGuard V := ⟨fun _ => none, ttl⟩

/-- `prune`: what is as old as the time-to-live goes. -/
def prune (now : ℕ) : TtlGuard V :=
  { g with map := fun key => (g.map key).filter fun e => now - e.2 < g.ttl }

/-- `register`: replaces what is there; the clock is read once to prune and
once for the entry. -/
def register (pruned now : ℕ) (key : String) (value : V) : TtlGuard V :=
  { g.prune pruned with
    map := Function.update (g.prune pruned).map key (some (value, now)) }

/-- `claim`: the value under the key, if one is live, and the guard without
it. -/
def claim (now : ℕ) (key : String) : Option V × TtlGuard V :=
  (((g.prune now).map key).map Prod.fst,
    { g.prune now with map := Function.update (g.prune now).map key none })

/-- Nothing under the key is as old as the time-to-live at `now`. -/
def Fresh (now : ℕ) (key : String) : Prop := ∀ e, g.map key = some e → now - e.2 < g.ttl

variable {g} {now pruned : ℕ} {key : String}

@[simp] theorem claim_ttl : (g.claim now key).2.ttl = g.ttl := rfl

@[simp] theorem register_map_self (value : V) :
    (g.register pruned now key value).map key = some (value, now) := by
  simp [register]

@[simp] theorem claim_map_self : (g.claim now key).2.map key = none := by
  simp [claim]

theorem register_map_of_ne {k : String} (hk : k ≠ key) (value : V) :
    (g.register pruned now key value).map k = (g.prune pruned).map k := by
  simp [register, Function.update_of_ne hk]

theorem claim_map_of_ne {k : String} (hk : k ≠ key) :
    (g.claim now key).2.map k = (g.prune now).map k := by
  simp [claim, Function.update_of_ne hk]

theorem prune_map_of_none (h : g.map key = none) : (g.prune now).map key = none := by
  simp [prune, h]

theorem prune_map_of_fresh (h : g.Fresh now key) : (g.prune now).map key = g.map key := by
  cases he : g.map key with
  | none => exact prune_map_of_none he
  | some e => simp [prune, he, h e he]

theorem map_of_prune {e : V × ℕ} (h : (g.prune now).map key = some e) : g.map key = some e := by
  exact (Option.filter_eq_some_iff.mp h).1

theorem map_of_register {k : String} {value : V} {e : V × ℕ}
    (h : (g.register pruned now k value).map key = some e) : g.map key = some e ∨ e.2 = now := by
  by_cases hk : key = k
  · rw [hk, register_map_self] at h
    exact Or.inr (congrArg Prod.snd (Option.some.inj h)).symm
  · rw [register_map_of_ne hk] at h
    exact Or.inl (map_of_prune h)

theorem map_of_claim {k : String} {e : V × ℕ} (h : (g.claim now k).2.map key = some e) :
    g.map key = some e := by
  by_cases hk : key = k
  · rw [hk, claim_map_self] at h
    exact nomatch h
  · rw [claim_map_of_ne hk] at h
    exact map_of_prune h

theorem isSome_of_prune (h : ((g.prune now).map key).isSome = true) :
    (g.map key).isSome = true := by
  cases he : g.map key with
  | none => simp [prune_map_of_none he] at h
  | some e => rfl

end TtlGuard

variable (sha256 : String → String)

/-- The guard of agent prompts: nothing but a registration is kept. -/
abbrev AgentGuard := TtlGuard Unit

/-- How long a registration stays claimable, in nanoseconds. -/
def guardTtl : ℕ := 300000000000

/-- `register_agent_prompt`: under the hash of the trimmed body. -/
def registerAgentPrompt (g : AgentGuard) (pruned now : ℕ) (body : String) : AgentGuard :=
  g.register pruned now (sha256 (trim body)) ()

/-- `claim_agent_prompt`. -/
def claimAgentPrompt (g : AgentGuard) (now : ℕ) (bodyHash : String) : Bool × AgentGuard :=
  ((g.claim now bodyHash).1.isSome, (g.claim now bodyHash).2)

/-! ### The hook route -/

/-- What the route reads of a hook's payload; a member that is no string is
not there. -/
structure HookPayload where
  prompt : Option String
  userInput : Option String
  sessionId : Option String
  cwd : Option String
  deriving DecidableEq, Repr

/-- `ingest_prompt_text`. -/
@[irreducible] def ingestPromptText (v : HookPayload) : String := trim ((v.prompt.or v.userInput).getD "")

/-- One hook fire, as the observer is shown it. -/
structure IngestContext where
  payload : HookPayload
  prompt : String
  headers : String → Option String
  sessionId : Option String
  cwd : Option String
  agentSeat : Option String

/-- The host's answers to the route's questions. -/
structure IngestObserver where
  intercept : IngestContext → Option Value
  agentSeat : (String → Option String) → Option String
  seatSuppresses : String → Bool
  classifyOrigin : Option String → Origin
  captureExternal : Bool

/-- The observer that observes nothing. -/
def noIngestObserver : IngestObserver where
  intercept _ := none
  agentSeat _ := none
  seatSuppresses _ := true
  classifyOrigin _ := .foreign
  captureExternal := true

/-- What `MemoryApi::capture` is asked. -/
structure CaptureRequest where
  body : String
  origin : Origin
  surface : String
  session : Option String
  project : Option String
  deriving DecidableEq, Repr

/-- What the route answers, before the host's annotation. -/
inductive IngestResponse where
  | skippedEmpty
  | intercepted (body : Value)
  | agentDup (byGuard : Bool) (seat : Option String)
  | externalOff
  | recorded (seq : ℤ)
  | skippedDup
  | skippedError

section Ingest

variable (obs : IngestObserver) (capture : CaptureRequest → Except String (Option ℤ))

/-- The context of a fire. -/
def ingestContext (headers : String → Option String) (v : HookPayload) : IngestContext where
  payload := v
  prompt := ingestPromptText v
  headers := headers
  sessionId := v.sessionId.filter fun s => s ≠ ""
  cwd := v.cwd
  agentSeat := obs.agentSeat headers

/-- The route after the guard: the origin, the row, the answer. -/
def ingestRecord (v : HookPayload) : IngestResponse :=
  let origin := obs.classifyOrigin v.cwd
  if origin = .foreign ∧ !obs.captureExternal then .externalOff
  else
    let surface := if origin = .redline then "pty" else "external"
    match capture ⟨ingestPromptText v, origin, surface, v.sessionId, v.cwd⟩ with
    | .ok (some seq) => .recorded seq
    | .ok none => .skippedDup
    | .error _ => .skippedError

/-- `ingest_parsed`: the claim comes before the seat is asked, so the
registration is consumed either way; control traffic is answered before
both. -/
def ingestParsed (g : AgentGuard) (now : ℕ) (headers : String → Option String) (v : HookPayload) :
    IngestResponse × AgentGuard :=
  let prompt := ingestPromptText v
  if prompt = "" then (.skippedEmpty, g)
  else
    let cx := ingestContext obs headers v
    match obs.intercept cx with
    | some body => (.intercepted body, g)
    | none =>
      let (claimed, g) := claimAgentPrompt g now (sha256 prompt)
      let suppresses := cx.agentSeat.any obs.seatSuppresses
      if claimed || suppresses then (.agentDup claimed cx.agentSeat, g)
      else (ingestRecord obs capture v, g)

end Ingest

/-! ### One body's registrations and claims

What a body's registrations and claims are to the guard while nothing
expires: a flag, set by a registration and taken by a claim. A registration
that finds the flag set is lost. -/

namespace Guarded

/-- What happens to a body. -/
inductive Act where
  | register
  | claim
  deriving DecidableEq, Repr

/-- The claims that succeed. -/
def skips : Bool → List Act → ℕ
  | _, [] => 0
  | _, .register :: as => skips true as
  | held, .claim :: as => held.toNat + skips false as

/-- The registrations that replace one that is unclaimed. -/
def lost : Bool → List Act → ℕ
  | _, [] => 0
  | held, .register :: as => held.toNat + lost true as
  | _, .claim :: as => lost false as

/-- Whether a registration is left unclaimed. -/
def left : Bool → List Act → Bool
  | held, [] => held
  | _, .register :: as => left true as
  | _, .claim :: as => left false as

def registers (as : List Act) : ℕ := as.count .register

def claims (as : List Act) : ℕ := as.count .claim

/-- Each claim comes after a registration of its own. -/
def Covered (as : List Act) : Prop := ∀ p, p <+: as → claims p ≤ registers p

/-- Each registration comes when all before it are claimed. -/
def Apart (as : List Act) : Prop := ∀ p, p ++ [Act.register] <+: as → claims p = registers p

instance (as : List Act) : Decidable (Covered as) :=
  decidable_of_iff (∀ p ∈ as.inits, claims p ≤ registers p)
    (by simp [Covered, List.mem_inits])

@[simp] theorem registers_register (as : List Act) :
    registers (.register :: as) = registers as + 1 := by
  simp [registers]

@[simp] theorem registers_claim (as : List Act) : registers (.claim :: as) = registers as := by
  simp [registers]

@[simp] theorem claims_register (as : List Act) : claims (.register :: as) = claims as := by
  simp [claims]

@[simp] theorem claims_claim (as : List Act) : claims (.claim :: as) = claims as + 1 := by
  simp [claims]

/-- Every registration is claimed, lost or left. -/
theorem accounts : ∀ (held : Bool) (as : List Act),
    skips held as + lost held as + (left held as).toNat = registers as + held.toNat
  | held, [] => by simp [skips, lost, left, registers]
  | held, .register :: as => by
    have ih := accounts true as
    rw [Bool.toNat_true] at ih
    simp only [skips, lost, left, registers_register]
    omega
  | held, .claim :: as => by
    have ih := accounts false as
    rw [Bool.toNat_false] at ih
    simp only [skips, lost, left, registers_claim]
    omega

theorem skips_le_claims : ∀ (held : Bool) (as : List Act), skips held as ≤ claims as
  | _, [] => by simp [skips]
  | _, .register :: as => by
    rw [skips, claims_register]
    exact skips_le_claims true as
  | held, .claim :: as => by
    have ih := skips_le_claims false as
    have hheld := Bool.toNat_le held
    rw [skips, claims_claim]
    omega

/-- From a flag that is set or not, with the registrations and the claims
before: registrations are apart, and each claim is covered. -/
theorem skips_of_apart : ∀ (held : Bool) (as : List Act) (r c : ℕ), c + held.toNat = r →
    (∀ p, p ++ [Act.register] <+: as → c + claims p = r + registers p) →
    (∀ p, p <+: as → c + claims p ≤ r + registers p) → skips held as = claims as
  | _, [], _, _, _, _, _ => rfl
  | held, .register :: as, r, c, hrc, hapart, hcovered => by
    -- what is apart finds the flag unset, so the claims left are those of `as`
    have hnow := hapart [] (by simp)
    simp only [claims, registers, List.count_nil, Nat.add_zero] at hnow
    have ih := skips_of_apart true as (r + 1) c (by rw [Bool.toNat_true]; omega)
      (fun p hp => by
        have h := hapart (.register :: p) (by simpa using hp)
        rw [claims_register, registers_register] at h
        omega)
      (fun p hp => by
        have h := hcovered (.register :: p) (by simpa using hp)
        rw [claims_register, registers_register] at h
        omega)
    rw [skips, ih, claims_register]
  | held, .claim :: as, r, c, hrc, hapart, hcovered => by
    have hnow := hcovered [.claim] (by simp)
    rw [claims_claim, registers_claim] at hnow
    have hheld : held.toNat = 1 := by
      have hle := Bool.toNat_le held
      simp only [claims, registers, List.count_nil] at hnow
      omega
    have ih : skips false as = claims as := by
      apply skips_of_apart false as r (c + 1) (by rw [Bool.toNat_false]; omega)
      · intro p hp
        have h := hapart (.claim :: p) (by simpa using hp)
        rw [claims_claim, registers_claim] at h
        omega
      · intro p hp
        have h := hcovered (.claim :: p) (by simpa using hp)
        rw [claims_claim, registers_claim] at h
        omega
    rw [skips, ih, claims_claim, hheld]
    omega

/-- What is lost in a part is lost in the whole. -/
theorem lost_append : ∀ (held : Bool) (as bs : List Act),
    lost held (as ++ bs) = lost held as + lost (left held as) bs
  | _, [], _ => by simp [lost, left]
  | held, .register :: as, bs => by
    rw [List.cons_append, lost, lost, left, lost_append true as bs]
    omega
  | held, .claim :: as, bs => by
    rw [List.cons_append, lost, lost, left, lost_append false as bs]

/-- As many registrations as claims, each claim after one of its own: all of
them succeed exactly if no registration finds another one unclaimed. -/
theorem skips_eq_iff {as : List Act} (hcovered : Covered as) (heven : claims as = registers as) :
    skips false as = registers as ↔ Apart as := by
  have haccounts := accounts false as
  rw [Bool.toNat_false, Nat.add_zero] at haccounts
  constructor
  · intro hall p ⟨rest, hp⟩
    have hpre : p <+: as := ⟨.register :: rest, by rw [← hp]; simp⟩
    have hsplit : as = p ++ .register :: rest := by rw [← hp]; simp
    have hlost : lost false p + ((left false p).toNat + lost true rest) = 0 := by
      have h := lost_append false p (.register :: rest)
      rw [← hsplit, lost] at h
      omega
    have hp_accounts := accounts false p
    rw [Bool.toNat_false] at hp_accounts
    have hle := skips_le_claims false p
    have hcov := hcovered p hpre
    omega
  · intro hapart
    have hskips : skips false as = claims as := by
      apply skips_of_apart false as 0 0 (by simp)
      · intro p hp
        rw [Nat.zero_add, Nat.zero_add]
        exact hapart p hp
      · intro p hp
        rw [Nat.zero_add, Nat.zero_add]
        exact hcovered p hp
    rw [hskips, heven]

end Guarded

/-! ### Runs of the guard -/

/-- A call that comes to the guard; the guard's lock orders them. -/
inductive GuardCall where
  | register (body : String) (pruned now : ℕ)
  | hook (headers : String → Option String) (v : HookPayload) (now : ℕ)

/-- When a call reads the clock. -/
def GuardCall.times : GuardCall → List ℕ
  | .register _ pruned now => [pruned, now]
  | .hook _ _ now => [now]

section Runs

variable (obs : IngestObserver) (capture : CaptureRequest → Except String (Option ℤ))

/-- One call: what a hook is answered, and the guard after it. -/
def guardStep (g : AgentGuard) : GuardCall → Option IngestResponse × AgentGuard
  | .register body pruned now => (none, registerAgentPrompt sha256 g pruned now body)
  | .hook headers v now =>
    (some (ingestParsed sha256 obs capture g now headers v).1,
      (ingestParsed sha256 obs capture g now headers v).2)

/-- The calls with what they were answered, one after another. -/
def guardRun : AgentGuard → List GuardCall → List (GuardCall × Option IngestResponse)
  | _, [] => []
  | g, c :: cs =>
    (c, (guardStep sha256 obs capture g c).1) ::
      guardRun (guardStep sha256 obs capture g c).2 cs

/-- What a call is to a body: a hook claims it if it is not answered before. -/
def GuardCall.act (body : String) : GuardCall → Option Guarded.Act
  | .register b _ _ => if trim b = body then some .register else none
  | .hook headers v _ =>
    if ingestPromptText v = body ∧ body ≠ "" ∧
        (obs.intercept (ingestContext obs headers v)).isNone then some .claim
    else none

/-- A body's registrations and claims. -/
def guardActs (body : String) (calls : List GuardCall) : List Guarded.Act :=
  calls.filterMap (GuardCall.act obs body)

/-- A hook with the body that the guard answers. -/
def claimed (body : String) : GuardCall × Option IngestResponse → Bool
  | (.hook _ v _, some (.agentDup true _)) => ingestPromptText v = body
  | _ => false

/-- The claims of a body that succeed. -/
def claimedCount (body : String) (history : List (GuardCall × Option IngestResponse)) : ℕ :=
  history.countP (claimed body)

/-- Whether a registration of the body is in the map. -/
def TtlGuard.holds (g : AgentGuard) (body : String) : Bool := (g.map (sha256 body)).isSome

variable {sha256}

/-- A fire that is answered by the guard or recorded takes the registration
either way. -/
theorem ingestParsed_claims {g : AgentGuard} {now : ℕ} {headers : String → Option String}
    {v : HookPayload} (hempty : ingestPromptText v ≠ "")
    (hintercept : obs.intercept (ingestContext obs headers v) = none) :
    ingestParsed sha256 obs capture g now headers v =
      (if (g.claim now (sha256 (ingestPromptText v))).1.isSome ||
          (obs.agentSeat headers).any obs.seatSuppresses then
        .agentDup (g.claim now (sha256 (ingestPromptText v))).1.isSome (obs.agentSeat headers)
      else ingestRecord obs capture v, (g.claim now (sha256 (ingestPromptText v))).2) := by
  have hseat : (ingestContext obs headers v).agentSeat = obs.agentSeat headers := rfl
  simp only [ingestParsed, if_neg hempty, hintercept, claimAgentPrompt, hseat]
  exact (apply_ite (·, (g.claim now (sha256 (ingestPromptText v))).2) _ _ _).symm

/-- Only the guard's answer counts as a claim. -/
theorem claimed_answer {body : String} {headers : String → Option String} {v : HookPayload}
    {now : ℕ} (byGuard suppresses : Bool) {seat : Option String} :
    claimed body (.hook headers v now, some (if byGuard || suppresses then .agentDup byGuard seat
      else ingestRecord obs capture v)) = (decide (ingestPromptText v = body) && byGuard) := by
  have hrecord : claimed body (.hook headers v now, some (ingestRecord obs capture v)) = false := by
    unfold ingestRecord
    simp only
    split
    · rfl
    · split <;> rfl
  cases byGuard with
  | true => simp [claimed]
  | false =>
    rw [Bool.false_or, Bool.and_false]
    cases suppresses with
    | true => rfl
    | false => exact hrecord

/-- What an act makes of a registration that is there or not (`live`): whether
one is there afterwards, and whether a claim succeeds. -/
def Effect : Option Guarded.Act → Bool → Bool → Bool → Prop
  | some .register, _, held, success => held = true ∧ success = false
  | some .claim, live, held, success => held = false ∧ success = live
  | none, live, held, success => held = live ∧ success = false

/-- What a call does with a body's registration: what pruning leaves of it
(`live`) stays, or is replaced, or is claimed. -/
theorem guardStep_act (hinj : Function.Injective sha256) (g : AgentGuard) (c : GuardCall)
    (body : String) : ∃ live : Bool, (live = true → g.holds sha256 body = true) ∧
      ((∀ t ∈ c.times, g.Fresh t (sha256 body)) → live = g.holds sha256 body) ∧
      Effect (c.act obs body) live ((guardStep sha256 obs capture g c).2.holds sha256 body)
        (claimed body (c, (guardStep sha256 obs capture g c).1)) := by
  cases c with
  | register b pruned now =>
    by_cases hb : trim b = body
    · refine ⟨g.holds sha256 body, fun h => h, fun _ => Eq.refl _, ?_⟩
      simp only [GuardCall.act, guardStep, registerAgentPrompt, TtlGuard.holds, hb]
      exact ⟨by simp, rfl⟩
    · have hne : sha256 body ≠ sha256 (trim b) := fun h => hb (hinj h).symm
      refine ⟨((g.prune pruned).map (sha256 body)).isSome, ?_, ?_, ?_⟩
      · exact TtlGuard.isSome_of_prune
      · intro hfresh
        rw [TtlGuard.prune_map_of_fresh (hfresh pruned (by simp [GuardCall.times]))]
        rfl
      · simp only [GuardCall.act, if_neg hb, guardStep, registerAgentPrompt, TtlGuard.holds,
          TtlGuard.register_map_of_ne hne]
        exact ⟨rfl, rfl⟩
  | hook headers v now =>
    by_cases hempty : ingestPromptText v = ""
    · -- an empty prompt is answered before the guard
      refine ⟨g.holds sha256 body, fun h => h, fun _ => Eq.refl _, ?_⟩
      have hact : (GuardCall.hook headers v now).act obs body = none := by
        apply if_neg
        rintro ⟨rfl, hne, -⟩
        exact hne hempty
      simp [hact, Effect, guardStep, ingestParsed, hempty, claimed]
    · cases hintercept : obs.intercept (ingestContext obs headers v) with
      | some answer =>
        refine ⟨g.holds sha256 body, fun h => h, fun _ => Eq.refl _, ?_⟩
        have hact : (GuardCall.hook headers v now).act obs body = none := by
          apply if_neg
          rintro ⟨-, -, hnone⟩
          simp [hintercept] at hnone
        simp [hact, Effect, guardStep, ingestParsed, hempty, hintercept, claimed]
      | none =>
        have hguard : (guardStep sha256 obs capture g (.hook headers v now)).2 =
            (g.claim now (sha256 (ingestPromptText v))).2 :=
          congrArg Prod.snd (ingestParsed_claims obs capture hempty hintercept)
        have hclaimed : claimed body
            (.hook headers v now, (guardStep sha256 obs capture g (.hook headers v now)).1) =
            (decide (ingestPromptText v = body) &&
              (g.claim now (sha256 (ingestPromptText v))).1.isSome) := by
          rw [guardStep, ingestParsed_claims obs capture hempty hintercept]
          exact claimed_answer obs capture _ _
        refine ⟨((g.prune now).map (sha256 body)).isSome, TtlGuard.isSome_of_prune, ?_, ?_⟩
        · intro hfresh
          rw [TtlGuard.prune_map_of_fresh (hfresh now (by simp [GuardCall.times]))]
          rfl
        · by_cases hb : ingestPromptText v = body
          · have hact : (GuardCall.hook headers v now).act obs body = some .claim := by
              exact if_pos ⟨hb, hb ▸ hempty, by simp [hintercept]⟩
            rw [hact, hguard, hclaimed, hb]
            simp [Effect, TtlGuard.holds, TtlGuard.claim]
          · have hne : sha256 body ≠ sha256 (ingestPromptText v) := fun h => hb (hinj h).symm
            have hact : (GuardCall.hook headers v now).act obs body = none := by
              exact if_neg fun h => hb h.1
            rw [hact, hguard, hclaimed]
            simp [Effect, TtlGuard.holds, TtlGuard.claim_map_of_ne hne, hb]

/-- What is in the map after a call was there before, or is as old as the
call. -/
theorem guardStep_map {g : AgentGuard} {c : GuardCall} {key : String} {e : Unit × ℕ}
    (h : (guardStep sha256 obs capture g c).2.map key = some e) :
    g.map key = some e ∨ e.2 ∈ c.times := by
  cases c with
  | register b pruned now =>
    rcases TtlGuard.map_of_register h with hmap | hnow
    · exact Or.inl hmap
    · exact Or.inr (by simp [GuardCall.times, hnow])
  | hook headers v now =>
    left
    by_cases hempty : ingestPromptText v = ""
    · simpa [guardStep, ingestParsed, hempty] using h
    · cases hintercept : obs.intercept (ingestContext obs headers v) with
      | some answer => simpa [guardStep, ingestParsed, hempty, hintercept] using h
      | none =>
        rw [guardStep, ingestParsed_claims obs capture hempty hintercept] at h
        exact TtlGuard.map_of_claim h

theorem guardStep_ttl (g : AgentGuard) (c : GuardCall) :
    (guardStep sha256 obs capture g c).2.ttl = g.ttl := by
  cases c with
  | register b pruned now => rfl
  | hook headers v now =>
    by_cases hempty : ingestPromptText v = ""
    · simp [guardStep, ingestParsed, hempty]
    · cases hintercept : obs.intercept (ingestContext obs headers v) with
      | some answer => simp [guardStep, ingestParsed, hempty, hintercept]
      | none => rw [guardStep, ingestParsed_claims obs capture hempty hintercept, TtlGuard.claim_ttl]

/-- No claim succeeds without a registration of its own, whatever expires. -/
theorem claimedCount_le (hinj : Function.Injective sha256) (body : String) :
    ∀ (g : AgentGuard) (calls : List GuardCall),
      claimedCount body (guardRun sha256 obs capture g calls) ≤
        Guarded.registers (guardActs obs body calls) + (g.holds sha256 body).toNat
  | _, [] => by simp [claimedCount, guardRun]
  | g, c :: calls => by
    obtain ⟨live, hlive, -, hact⟩ := guardStep_act obs capture hinj g c body
    have ih := claimedCount_le hinj body (guardStep sha256 obs capture g c).2 calls
    have hle : live.toNat ≤ (g.holds sha256 body).toNat := by
      cases live with
      | false => exact Nat.zero_le _
      | true => rw [hlive rfl]
    unfold claimedCount guardActs at *
    rw [guardRun, List.countP_cons, List.filterMap_cons]
    cases ha : c.act obs body with
    | none =>
      rw [ha] at hact
      rw [hact.1] at ih
      simp only [hact.2, Bool.false_eq_true, if_false]
      omega
    | some a =>
      rw [ha] at hact
      cases a with
      | register =>
        rw [hact.1, Bool.toNat_true] at ih
        simp only [hact.2, Bool.false_eq_true, if_false, Guarded.registers_register]
        omega
      | claim =>
        rw [hact.1, Bool.toNat_false] at ih
        simp only [hact.2, Guarded.registers_claim]
        cases live with
        | false => simp only [Bool.false_eq_true, if_false]; omega
        | true => simp only [if_true]; rw [Bool.toNat_true] at hle; omega

/-- No reading of the clock is the time-to-live after one before it. -/
def Timely (ttl : ℕ) (calls : List GuardCall) : Prop :=
  (calls.flatMap GuardCall.times).Pairwise fun t t' => t' - t < ttl

/-- While nothing expires, the guard is to each body what a flag is. -/
theorem ingest_refines (hinj : Function.Injective sha256) (body : String) :
    ∀ (g : AgentGuard) (calls : List GuardCall), Timely g.ttl calls →
      (∀ t ∈ calls.flatMap GuardCall.times, g.Fresh t (sha256 body)) →
      claimedCount body (guardRun sha256 obs capture g calls) =
        Guarded.skips (g.holds sha256 body) (guardActs obs body calls)
  | _, [], _, _ => rfl
  | g, c :: calls, htimely, hfresh => by
    obtain ⟨live, -, hlive, hact⟩ := guardStep_act obs capture hinj g c body
    rw [Timely, List.flatMap_cons, List.pairwise_append] at htimely
    obtain ⟨-, hlater, hacross⟩ := htimely
    have hnow : live = g.holds sha256 body := by
      apply hlive
      intro t ht
      exact hfresh t (List.mem_flatMap.mpr ⟨c, List.mem_cons_self, ht⟩)
    have ih := ingest_refines hinj body (guardStep sha256 obs capture g c).2 calls
      (by rw [guardStep_ttl]; exact hlater)
      (by
        intro t ht e he
        rw [guardStep_ttl]
        rcases guardStep_map obs capture he with hmap | htime
        · exact hfresh t (by rw [List.flatMap_cons]; exact List.mem_append_right _ ht) e hmap
        · exact hacross e.2 htime t ht)
    unfold claimedCount guardActs at *
    rw [guardRun, List.countP_cons, List.filterMap_cons, ih]
    cases ha : c.act obs body with
    | none =>
      rw [ha] at hact
      rw [hact.1, hact.2, hnow]
      rfl
    | some a =>
      rw [ha] at hact
      cases a with
      | register =>
        rw [hact.1, hact.2]
        rfl
      | claim =>
        rw [hact.1, hact.2, hnow]
        cases g.holds sha256 body <;> simp [Guarded.skips, Nat.add_comm]

/-- No claim of a body succeeds without a registration of its own. In a run
in which nothing expires, with as many claims of it as registrations and each
claim after one of its own, they all succeed exactly if each registration is
made when all before it are claimed. -/
theorem agentPrompts_claimed_iff (hinj : Function.Injective sha256) (ttl : ℕ)
    (calls : List GuardCall) (body : String) :
    (∀ p, p <+: calls → claimedCount body (guardRun sha256 obs capture (TtlGuard.new ttl) p) ≤
      Guarded.registers (guardActs obs body p)) ∧
    (Timely ttl calls → Guarded.Covered (guardActs obs body calls) →
      Guarded.claims (guardActs obs body calls) = Guarded.registers (guardActs obs body calls) →
      (claimedCount body (guardRun sha256 obs capture (TtlGuard.new ttl) calls) =
          Guarded.registers (guardActs obs body calls) ↔
        Guarded.Apart (guardActs obs body calls))) := by
  refine ⟨fun p _ => ?_, fun htimely hcovered heven => ?_⟩
  · have h := claimedCount_le obs capture hinj body (TtlGuard.new ttl) p
    simpa [TtlGuard.holds, TtlGuard.new] using h
  · have hfresh : ∀ t ∈ calls.flatMap GuardCall.times,
        TtlGuard.Fresh (TtlGuard.new ttl : AgentGuard) t (sha256 body) := fun _ _ _ h => nomatch h
    rw [ingest_refines obs capture hinj body (TtlGuard.new ttl) calls htimely hfresh]
    exact Guarded.skips_eq_iff hcovered heven

end Runs

/-- One agent after another with the same prompt. -/
def oneByOne : List GuardCall :=
  [.register "ask" 0 0, .hook (fun _ => none) ⟨some "ask", none, some "s1", none⟩ 1,
    .register " ask\n" 2 2, .hook (fun _ => none) ⟨some "ask", none, some "s2", none⟩ 3]

theorem oneByOne_claimed :
    claimedCount "ask" (guardRun id noIngestObserver (fun _ => .ok (some 1))
      (TtlGuard.new guardTtl) oneByOne) = 2 := by
  have hapart : Guarded.Apart (guardActs noIngestObserver "ask" oneByOne) := by
    have hacts : guardActs noIngestObserver "ask" oneByOne =
        [.register, .claim, .register, .claim] := by decide +kernel
    rw [hacts]
    exact (Guarded.skips_eq_iff (by decide +kernel) (by decide +kernel)).mp (by decide +kernel)
  have h := (agentPrompts_claimed_iff noIngestObserver (fun _ => .ok (some 1))
    Function.injective_id guardTtl oneByOne "ask").2
      (by unfold Timely; decide +kernel) (by decide +kernel) (by decide +kernel)
  exact (h.mpr hapart).trans (by decide +kernel)

/-- Two agents with the same prompt, both registered before either's hook. -/
def twoAgents : List GuardCall :=
  [.register "ask" 0 0, .register "ask" 1 1,
    .hook (fun _ => none) ⟨some "ask", none, some "s1", none⟩ 2,
    .hook (fun _ => none) ⟨some "ask", none, some "s2", none⟩ 3]

/-- Of two equal prompts registered at once, the second claimed is captured
again. -/
theorem twoAgents_capturedTwice :
    Timely guardTtl twoAgents ∧ Guarded.Covered (guardActs noIngestObserver "ask" twoAgents) ∧
      Guarded.registers (guardActs noIngestObserver "ask" twoAgents) = 2 ∧
      Guarded.claims (guardActs noIngestObserver "ask" twoAgents) = 2 ∧
      claimedCount "ask" (guardRun id noIngestObserver (fun _ => .ok (some 1))
        (TtlGuard.new guardTtl) twoAgents) = 1 := by
  refine ⟨?_, ?_, ?_, ?_, ?_⟩
  · unfold Timely; decide +kernel
  · decide +kernel
  · decide +kernel
  · decide +kernel
  · decide +kernel

end PolisMemory
