/-
# The answer pack and its byte budget

The types of `crates/polis-core/src/pack.rs` and `enforce_pack_budget_bytes`:
while the JSON of a pack is over the budget, its arms are cut, down to one hit
each first, below that only then, and what was cut is named in `truncated`;
what is left over is the metadata's.

An arm that a page of the inspection leaves empty holds its items as the JSON
they are written as. The budget of a page is at the end: what is cut of a pack
of prompt hits alone is its end, all of it only if the first hit is over the
budget by itself (`enforce_page`).

Key definitions: `AnswerPack`, `AnswerPack.json`, `AnswerPack.enforceBudget`.
Key theorems: `enforce_page`.
-/
import PolisMemory.JsonValue

namespace PolisMemory

open JsonText

/-! ### The types -/

/-- Which retrieval signal found a candidate. -/
inductive Arm where
  | node
  | note
  | lexical
  | grep
  | semantic
  | shared
  | claim
  | neighbor
  deriving DecidableEq, Repr

def Arm.asStr : Arm → String
  | node => "node"
  | note => "note"
  | lexical => "lexical"
  | grep => "grep"
  | semantic => "semantic"
  | shared => "shared"
  | claim => "claim"
  | neighbor => "neighbor"

/-- One arm's contribution to a hit; the score by its text. -/
structure ArmHit where
  arm : Arm
  rank : ℕ
  score : String
  deriving DecidableEq, Repr

/-- A prompt or decision, as the readers of the lake get it. -/
structure LakeItem where
  seq : ℤ
  ts : ℤ
  kind : String
  surface : Option String
  origin : Option String
  role : Option String
  sessionId : Option String
  missionId : Option String
  projectPath : Option String
  refKind : Option String
  refId : Option String
  body : Option String
  threadKind : Option String
  threadId : Option String
  parentSessionId : Option String
  model : Option String
  deriving DecidableEq, Repr

structure PackPromptHit where
  item : LakeItem
  supersededBy : Option ℤ
  duplicateOf : List ℤ
  stage : String
  arms : List ArmHit
  deriving DecidableEq, Repr

/-- Which arms ran, and what each returned. -/
structure ArmCoverage where
  arm : Arm
  ran : Bool
  hits : ℕ
  absentBecause : Option String
  deriving DecidableEq, Repr

/-- The resolved node and everything hanging off it. -/
structure PackNode where
  node : Value
  children : List Value
  grandchildren : List Value
  links : List Value
  observations : List Value

structure IndexReadiness where
  model : Option String
  eligibleSources : ℕ
  indexedSources : ℕ
  pendingSources : ℕ
  deriving DecidableEq, Repr

structure RetrievalReport where
  version : String
  candidateLimit : ℕ
  candidatesConsidered : ℕ
  candidatesReturned : ℕ
  snapshotHash : String
  /-- The JSON of the text that it is. -/
  continuation : Option Value
  traceId : Option String
  errors : List String
  timingsUs : List (String × ℕ)
  index : IndexReadiness

structure AnswerPack where
  headSeq : ℤ
  query : Option String
  node : Option PackNode
  matchedNodes : List Value
  notes : List Value
  promptHits : List PackPromptHit
  browseHits : List Value
  grepHits : List Value
  armCoverage : List ArmCoverage
  truncated : List String
  sharedHits : List Value
  retrieval : RetrievalReport
  claims : List Value

/-! ### The JSON of a pack -/

/-- A list that is left out when it is empty. -/
def unlessEmpty (key : String) (items : List Value) : List (String × Value) :=
  if items.isEmpty then [] else [(key, .arr items)]

/-- A field that is left out when it is none. -/
def unlessNone (key : String) (v : Option Value) : List (String × Value) :=
  v.toList.map fun v => (key, v)

def ArmHit.json (a : ArmHit) : Value :=
  .obj [("arm", .str a.arm.asStr), ("rank", .int a.rank), ("score", .float a.score)]

def LakeItem.members (it : LakeItem) : List (String × Value) :=
  [("seq", .int it.seq), ("ts", .int it.ts), ("kind", .str it.kind), ("surface", .opt .str it.surface),
    ("origin", .opt .str it.origin), ("role", .opt .str it.role), ("sessionId", .opt .str it.sessionId),
    ("missionId", .opt .str it.missionId), ("projectPath", .opt .str it.projectPath),
    ("refKind", .opt .str it.refKind), ("refId", .opt .str it.refId), ("body", .opt .str it.body),
    ("threadKind", .opt .str it.threadKind), ("threadId", .opt .str it.threadId),
    ("parentSessionId", .opt .str it.parentSessionId), ("model", .opt .str it.model)]

def PackPromptHit.json (hit : PackPromptHit) : Value :=
  .obj (hit.item.members ++ ("supersededBy", .opt .int hit.supersededBy) ::
    unlessEmpty "duplicateOf" (hit.duplicateOf.map .int) ++ ("stage", .str hit.stage) ::
    unlessEmpty "arms" (hit.arms.map ArmHit.json))

def ArmCoverage.json (c : ArmCoverage) : Value :=
  .obj ([("arm", .str c.arm.asStr), ("ran", .bool c.ran), ("hits", .int c.hits)] ++
    unlessNone "absentBecause" (c.absentBecause.map .str))

def PackNode.json (n : PackNode) : Value :=
  .obj [("node", n.node), ("children", .arr n.children), ("grandchildren", .arr n.grandchildren),
    ("links", .arr n.links), ("observations", .arr n.observations)]

def IndexReadiness.json (i : IndexReadiness) : Value :=
  .obj [("model", .opt .str i.model), ("eligibleSources", .int i.eligibleSources),
    ("indexedSources", .int i.indexedSources), ("pendingSources", .int i.pendingSources)]

def RetrievalReport.json (r : RetrievalReport) : Value :=
  .obj [("version", .str r.version), ("candidateLimit", .int r.candidateLimit),
    ("candidatesConsidered", .int r.candidatesConsidered),
    ("candidatesReturned", .int r.candidatesReturned), ("snapshotHash", .str r.snapshotHash),
    ("continuation", .opt (fun c => .str (String.ofList c.text)) r.continuation),
    ("traceId", .opt .str r.traceId), ("errors", .arr (r.errors.map .str)),
    ("timingsUs", .obj (r.timingsUs.map fun t => (t.1, .int t.2))), ("index", r.index.json)]

namespace AnswerPack

/-- A pack as it is written. -/
def json (p : AnswerPack) : Value :=
  .obj ([("headSeq", .int p.headSeq), ("query", .opt .str p.query), ("node", .opt PackNode.json p.node),
      ("matchedNodes", .arr p.matchedNodes), ("notes", .arr p.notes),
      ("promptHits", .arr (p.promptHits.map PackPromptHit.json)), ("browseHits", .arr p.browseHits)] ++
    unlessEmpty "grepHits" p.grepHits ++
    [("armCoverage", .arr (p.armCoverage.map ArmCoverage.json)),
      ("truncated", .arr (p.truncated.map .str))] ++
    unlessEmpty "sharedHits" p.sharedHits ++
    [("retrieval", p.retrieval.json), ("claims", .arr p.claims)])

/-- `serde_json::to_vec(p).len()` -/
def size (p : AnswerPack) : ℕ := p.json.size

end AnswerPack

/-! ### The budget -/

/-- A list of a pack that the budget cuts: how long it is, and what is left
behind the last `n` of it. -/
structure TrimStep where
  name : String
  len : AnswerPack → ℕ
  drop : AnswerPack → ℕ → AnswerPack
  len_drop : ∀ p n, len (drop p n) = len p - n

/-- The list without its last `n` items. -/
def dropEnd {α : Type*} (xs : List α) (n : ℕ) : List α := xs.take (xs.length - n)

theorem length_dropEnd {α : Type*} (xs : List α) (n : ℕ) : (dropEnd xs n).length = xs.length - n := by
  unfold dropEnd
  rw [List.length_take]
  omega

/-- A list of the pack's own. -/
def packStep {α : Type} (name : String) (get : AnswerPack → List α) (set : AnswerPack → List α → AnswerPack)
    (get_set : ∀ p vs, get (set p vs) = vs) : TrimStep where
  name := name
  len p := (get p).length
  drop p n := set p (dropEnd (get p) n)
  len_drop p n := by rw [get_set, length_dropEnd]

/-- A list of the node's. -/
def nodeStep (name : String) (get : PackNode → List Value) (set : PackNode → List Value → PackNode)
    (get_set : ∀ n vs, get (set n vs) = vs) : TrimStep where
  name := name
  len p := (p.node.map fun n => (get n).length).getD 0
  drop p n := { p with node := p.node.map fun node => set node (dropEnd (get node) n) }
  len_drop p n := by
    cases p.node with
    | none => exact (Nat.zero_sub n).symm
    | some node =>
      show (get (set node (dropEnd (get node) n))).length = (get node).length - n
      rw [get_set, length_dropEnd]

/-- The prompt hits. -/
def hitStep : TrimStep :=
  packStep "promptHits" AnswerPack.promptHits (fun p vs => { p with promptHits := vs }) fun _ _ => rfl

/-- The lists in the order in which they are cut. -/
def trimSteps : List TrimStep := [
  packStep "browseHits" AnswerPack.browseHits (fun p vs => { p with browseHits := vs }) fun _ _ => rfl,
  hitStep,
  nodeStep "links" PackNode.links (fun n vs => { n with links := vs }) fun _ _ => rfl,
  packStep "grepHits" AnswerPack.grepHits (fun p vs => { p with grepHits := vs }) fun _ _ => rfl,
  packStep "claims" AnswerPack.claims (fun p vs => { p with claims := vs }) fun _ _ => rfl,
  packStep "sharedHits" AnswerPack.sharedHits (fun p vs => { p with sharedHits := vs }) fun _ _ => rfl,
  packStep "matchedNodes" AnswerPack.matchedNodes (fun p vs => { p with matchedNodes := vs }) fun _ _ => rfl,
  nodeStep "observations" PackNode.observations (fun n vs => { n with observations := vs }) fun _ _ => rfl,
  nodeStep "grandchildren" PackNode.grandchildren (fun n vs => { n with grandchildren := vs })
    fun _ _ => rfl,
  nodeStep "children" PackNode.children (fun n vs => { n with children := vs }) fun _ _ => rfl,
  packStep "notes" AnswerPack.notes (fun p vs => { p with notes := vs }) fun _ _ => rfl]

/-- Every arm that produced at least one hit keeps at least this many. -/
def armFloor : ℕ := 1

/-- The list is named as cut, once. -/
def AnswerPack.mark (p : AnswerPack) (name : String) : AnswerPack :=
  if name ∈ p.truncated then p else { p with truncated := p.truncated ++ [name] }

namespace TrimStep

variable (max : ℕ) (st : TrimStep)

/-- The list cut towards its floor, a quarter of what is above it at a time,
and whether it was; `fuel` is how long it is. -/
def trim : ℕ → AnswerPack → AnswerPack × Bool
  | 0, p => (p, false)
  | fuel + 1, p =>
    if max < p.size ∧ armFloor < st.len p then
      let excess := st.len p - armFloor
      ((trim fuel (st.drop p (min (Nat.max (excess / 4) 1) excess))).1, true)
    else (p, false)

/-- The list cut below its floor, one at a time; `fuel` is how long it is. -/
def empty : ℕ → AnswerPack → AnswerPack
  | 0, p => p
  | fuel + 1, p =>
    if max < p.size ∧ 0 < st.len p then empty fuel ((st.drop p 1).mark st.name) else p

/-- A step of the first pass. -/
def first (p : AnswerPack) : AnswerPack :=
  match st.trim max (st.len p) p with
  | (q, true) => q.mark st.name
  | (q, false) => q

/-- A step of the second pass. -/
def second (p : AnswerPack) : AnswerPack := st.empty max (st.len p) p

end TrimStep

/-- The steps in order, up to the one that gets the pack within the budget. -/
def passes (max : ℕ) : List (AnswerPack → AnswerPack) → AnswerPack → AnswerPack
  | [], p => p
  | step :: steps, p => if (step p).size ≤ max then step p else passes max steps (step p)

/-- A line of at most `max` characters. -/
def clipLine (s : String) (max : ℕ) : String :=
  let one := s.toList.map fun c => if c = '\n' then ' ' else c
  if one.length ≤ max then String.ofList one else String.ofList (one.take max ++ ['…'])

namespace AnswerPack

/-- Without the node, where the pack is over the budget. -/
def trimNode (max : ℕ) (p : AnswerPack) : AnswerPack :=
  if max < p.size ∧ p.node.isSome then { p with node := none, truncated := p.truncated ++ ["node"] } else p

/-- Without the query, where the pack is over the budget. -/
def trimQuery (max : ℕ) (p : AnswerPack) : AnswerPack :=
  if max < p.size ∧ p.query.isSome then { p with query := none, truncated := p.truncated ++ ["query"] }
  else p

/-- The reasons and errors clipped, where the pack is over the budget. -/
def trimReport (max : ℕ) (p : AnswerPack) : AnswerPack :=
  if max < p.size then
    { p with
      armCoverage := p.armCoverage.map fun c =>
        { c with absentBecause := c.absentBecause.map fun s => clipLine s 120 }
      retrieval := { p.retrieval with errors := (p.retrieval.errors.take 8).map fun s => clipLine s 120 } }
  else p

/-- `enforce_pack_budget_bytes`; the passes go down to the floors first. -/
def enforceBudget (max : ℕ) (p : AnswerPack) : AnswerPack :=
  if p.size ≤ max then p
  else
    let p := passes max (trimSteps.map fun st => st.first max) p
    if p.size ≤ max then p
    else
      let p := passes max (trimSteps.map fun st => st.second max) p
      if p.size ≤ max then p else trimReport max (trimQuery max (trimNode max p))

/-! ### A pack of prompt hits alone -/

/-- The pack has no evidence but prompt hits. -/
structure Bare (p : AnswerPack) : Prop where
  node : p.node = none
  matchedNodes : p.matchedNodes = []
  notes : p.notes = []
  browseHits : p.browseHits = []
  grepHits : p.grepHits = []
  sharedHits : p.sharedHits = []
  claims : p.claims = []

/-- The pack with its first `k` prompt hits. -/
def keep (p : AnswerPack) (k : ℕ) : AnswerPack := { p with promptHits := p.promptHits.take k }

variable {p : AnswerPack}

theorem Bare.keep (hp : p.Bare) (k : ℕ) : (p.keep k).Bare := ⟨hp.1, hp.2, hp.3, hp.4, hp.5, hp.6, hp.7⟩

theorem Bare.mark (hp : p.Bare) (name : String) : (p.mark name).Bare := by
  unfold AnswerPack.mark
  split_ifs
  · exact hp
  · exact ⟨hp.1, hp.2, hp.3, hp.4, hp.5, hp.6, hp.7⟩

theorem mark_keep (name : String) (k : ℕ) : (p.keep k).mark name = (p.mark name).keep k := by
  unfold AnswerPack.mark AnswerPack.keep
  dsimp only
  split_ifs <;> rfl

theorem mark_mark (name : String) : (p.mark name).mark name = p.mark name := by
  have hmem : name ∈ (p.mark name).truncated := by
    unfold AnswerPack.mark
    split_ifs with hname
    · exact hname
    · exact List.mem_append_right _ (List.mem_singleton_self name)
  exact if_pos hmem

theorem keep_keep {j k : ℕ} (hjk : j ≤ k) : (p.keep k).keep j = p.keep j := by
  unfold AnswerPack.keep
  dsimp only
  rw [List.take_take, Nat.min_eq_left hjk]

theorem keep_length : p.keep p.promptHits.length = p := by
  unfold AnswerPack.keep
  rw [List.take_length]

/-- Fewer prompt hits make a smaller pack. -/
theorem size_keep_le {j k : ℕ} (hjk : j ≤ k) : (p.keep j).size ≤ (p.keep k).size := by
  have hsub : ((p.promptHits.take j).map PackPromptHit.json).Sublist
      ((p.promptHits.take k).map PackPromptHit.json) :=
    ((List.take_prefix_take_left hjk).sublist).map _
  exact Value.size_obj_le (Value.size_arr_le hsub) [_, _, _, _, _] _ _

/-- A step on a list that is empty does nothing. -/
theorem step_of_empty (max : ℕ) {st : TrimStep} (hempty : st.len p = 0) :
    st.first max p = p ∧ st.second max p = p := by
  unfold TrimStep.first TrimStep.second
  rw [hempty]
  exact ⟨rfl, rfl⟩

/-- Steps that do nothing one by one do nothing together. -/
theorem passes_of_fixed {max : ℕ} {steps : List (AnswerPack → AnswerPack)}
    (hfixed : ∀ step ∈ steps, step p = p) : passes max steps p = p := by
  induction steps with
  | nil => rfl
  | cons step steps ih =>
    rw [passes, hfixed step List.mem_cons_self, ih fun st hst => hfixed st (List.mem_cons_of_mem _ hst),
      ite_self]

theorem len_nodeStep {name : String} {get : PackNode → List Value} {set : PackNode → List Value → PackNode}
    {get_set : ∀ n vs, get (set n vs) = vs} (hp : p.node = none) :
    (nodeStep name get set get_set).len p = 0 := by
  show (p.node.map fun n => (get n).length).getD 0 = 0
  rw [hp]
  rfl

/-- The other lists are empty. -/
theorem Bare.len_eq_zero (hp : p.Bare) {st : TrimStep} (hst : st ∈ trimSteps)
    (hname : st.name ≠ "promptHits") : st.len p = 0 := by
  simp only [trimSteps, List.mem_cons, List.not_mem_nil, or_false] at hst
  rcases hst with rfl | rfl | rfl | rfl | rfl | rfl | rfl | rfl | rfl | rfl | rfl
  · exact congrArg List.length hp.browseHits
  · exact absurd rfl hname
  · exact len_nodeStep hp.node
  · exact congrArg List.length hp.grepHits
  · exact congrArg List.length hp.claims
  · exact congrArg List.length hp.sharedHits
  · exact congrArg List.length hp.matchedNodes
  · exact len_nodeStep hp.node
  · exact len_nodeStep hp.node
  · exact len_nodeStep hp.node
  · exact congrArg List.length hp.notes

/-- On a pack of prompt hits alone a pass is its step on the prompt hits. -/
theorem Bare.passes (hp : p.Bare) {max : ℕ} (hsize : max < p.size)
    {step : TrimStep → AnswerPack → AnswerPack} (hstep : ∀ st q, st.len q = 0 → step st q = q)
    (hbare : (step hitStep p).Bare) : passes max (trimSteps.map step) p = step hitStep p := by
  have hfixed {q : AnswerPack} (hq : q.Bare) {st : TrimStep} (hst : st ∈ trimSteps)
      (hname : st.name ≠ "promptHits") : step st q = q := hstep st q (hq.len_eq_zero hst hname)
  obtain ⟨browse, hbrowse, others, hothers, hall⟩ : ∃ browse, browse.name ≠ "promptHits" ∧
      ∃ others : List TrimStep, (∀ st ∈ others, st.name ≠ "promptHits") ∧
        trimSteps = browse :: hitStep :: others := by
    refine ⟨_, ?_, _, ?_, rfl⟩
    · show "browseHits" ≠ "promptHits"
      decide
    · simp [packStep, nodeStep]
  have hfirst : step browse p = p := hfixed hp (hall ▸ List.mem_cons_self) hbrowse
  rw [hall, List.map_cons, List.map_cons, PolisMemory.passes, hfirst, if_neg (Nat.not_le.mpr hsize),
    PolisMemory.passes]
  split_ifs
  · rfl
  · apply passes_of_fixed
    intro later hlater
    obtain ⟨st, hst, rfl⟩ := List.mem_map.mp hlater
    have hmem : st ∈ trimSteps := by
      rw [hall]
      exact List.mem_cons_of_mem _ (List.mem_cons_of_mem _ hst)
    exact hfixed hbare hmem (hothers st hst)

/-! ### The prompt hits of a page under the budget -/

theorem drop_hits (n : ℕ) : hitStep.drop p n = p.keep (p.promptHits.length - n) := rfl

theorem length_keep {k : ℕ} (hk : k ≤ p.promptHits.length) : (p.keep k).promptHits.length = k := by
  show (p.promptHits.take k).length = k
  rw [List.length_take, Nat.min_eq_left hk]

/-- **The first pass** stops within the budget or at the first hit, and cuts
what is over the budget. -/
theorem trim_hits (max : ℕ) {fuel : ℕ} (hfuel : p.promptHits.length ≤ fuel) :
    ∃ k ≤ p.promptHits.length, hitStep.trim max fuel p = (p.keep k, decide (k < p.promptHits.length)) ∧
      (0 < p.promptHits.length → 0 < k) ∧ ((p.keep k).size ≤ max ∨ k ≤ 1) ∧
      (max < p.size → 1 < p.promptHits.length → k < p.promptHits.length) := by
  induction fuel generalizing p with
  | zero =>
    have hlen : p.promptHits.length = 0 := Nat.le_zero.mp hfuel
    refine ⟨p.promptHits.length, le_rfl, ?_, id, .inr ?_, fun _ h => ?_⟩
    · rw [keep_length, decide_eq_false (Nat.lt_irrefl _)]
      rfl
    · omega
    · omega
  | succ fuel ih =>
    unfold TrimStep.trim
    by_cases hover : max < p.size ∧ armFloor < hitStep.len p
    · rw [if_pos hover]
      have hfloor : 1 < p.promptHits.length := hover.2
      dsimp only
      rw [drop_hits]
      -- between one hit and all above the floor go
      obtain ⟨d, hd, hpos, hle⟩ : ∃ d, d = min (Nat.max ((hitStep.len p - armFloor) / 4) 1)
          (hitStep.len p - armFloor) ∧ 0 < d ∧ d ≤ p.promptHits.length - 1 := by
        have hroom : 0 < hitStep.len p - armFloor := Nat.sub_pos_of_lt hover.2
        refine ⟨_, rfl, lt_min (Nat.lt_of_lt_of_le Nat.zero_lt_one (Nat.le_max_right _ _)) hroom, ?_⟩
        exact Nat.min_le_right _ _
      rw [← hd]
      have hlen := length_keep (p := p) (k := p.promptHits.length - d) (Nat.sub_le _ _)
      obtain ⟨k, hk, htrim, hkpos, hsize, -⟩ := ih (p := p.keep (p.promptHits.length - d)) (by omega)
      rw [hlen] at hk hkpos
      rw [keep_keep hk] at htrim hsize
      have hlt : k < p.promptHits.length := by omega
      refine ⟨k, hlt.le, ?_, fun _ => hkpos (by omega), hsize, fun _ _ => hlt⟩
      rw [htrim, decide_eq_true hlt]
    · rw [if_neg hover]
      refine ⟨p.promptHits.length, le_rfl, ?_, id, ?_, fun hsize hlen => absurd ⟨hsize, hlen⟩ hover⟩
      · rw [keep_length, decide_eq_false (Nat.lt_irrefl _)]
      · rw [keep_length]
        by_cases hsize : p.size ≤ max
        · exact .inl hsize
        · exact .inr (Nat.not_lt.mp fun hlen => hover ⟨Nat.not_le.mp hsize, hlen⟩)

/-- **The second pass** stops within the budget or without a hit: then the
first one was over it. -/
theorem empty_hits (max : ℕ) {fuel : ℕ} (hfuel : p.promptHits.length ≤ fuel) :
    ∃ j ≤ p.promptHits.length, hitStep.empty max fuel p =
        (if j = p.promptHits.length then p else (p.keep j).mark "promptHits") ∧
      (0 < j → j < p.promptHits.length → ((p.keep j).mark "promptHits").size ≤ max) ∧
      (j = p.promptHits.length → p.size ≤ max ∨ j = 0) ∧
      (j = 0 → p.promptHits.length = 0 ∨ p.promptHits.length = 1 ∧ max < p.size ∨
        1 < p.promptHits.length ∧ max < ((p.keep 1).mark "promptHits").size) := by
  induction fuel generalizing p with
  | zero =>
    have hlen : p.promptHits.length = 0 := Nat.le_zero.mp hfuel
    refine ⟨0, Nat.zero_le _, ?_, fun h => absurd h (Nat.lt_irrefl 0), fun _ => .inr rfl, fun _ => .inl hlen⟩
    rw [hlen, if_pos rfl]
    rfl
  | succ fuel ih =>
    unfold TrimStep.empty
    by_cases hover : max < p.size ∧ 0 < hitStep.len p
    · rw [if_pos hover, drop_hits]
      have hpos : 0 < p.promptHits.length := hover.2
      let q := (p.keep (p.promptHits.length - 1)).mark "promptHits"
      have hq : q = (p.mark "promptHits").keep (p.promptHits.length - 1) := mark_keep _ _
      have hhits : (p.mark "promptHits").promptHits = p.promptHits := by
        unfold AnswerPack.mark
        split_ifs <;> rfl
      have hlen : q.promptHits.length = p.promptHits.length - 1 := by
        rw [hq]
        exact length_keep (hhits ▸ Nat.sub_le _ _)
      have hkeep {j : ℕ} (hj : j ≤ p.promptHits.length - 1) :
          (q.keep j).mark "promptHits" = (p.keep j).mark "promptHits" := by
        rw [hq, keep_keep hj, mark_keep, mark_mark, ← mark_keep]
      obtain ⟨j, hj, hempty, hfits, hall, hnone⟩ := ih (p := q) (by omega)
      rw [hlen] at hj hempty hfits hall hnone
      have hlt : j < p.promptHits.length := by omega
      have hresult : hitStep.empty max fuel q = (p.keep j).mark "promptHits" := by
        rw [hempty]
        by_cases hlast : j = p.promptHits.length - 1
        · rw [if_pos hlast, hlast]
        · rw [if_neg hlast, hkeep hj]
      refine ⟨j, hlt.le, ?_, fun hjpos _ => ?_, fun heq => absurd heq hlt.ne, fun hzero => ?_⟩
      · rw [if_neg hlt.ne]
        exact hresult
      · by_cases hlast : j = p.promptHits.length - 1
        · have hsize := (hall hlast).resolve_right hjpos.ne'
          have hsame : q = (p.keep j).mark "promptHits" := by rw [hlast]
          rw [← hsame]
          exact hsize
        · rw [← hkeep hj]
          exact hfits hjpos (by omega)
      · rcases hnone hzero with hone | ⟨htwo, hsize⟩ | ⟨hmore, hsize⟩
        · exact .inr (.inl ⟨by omega, hover.1⟩)
        · have hsame : q = (p.keep 1).mark "promptHits" := by rw [← htwo]
          exact .inr (.inr ⟨by omega, hsame ▸ hsize⟩)
        · rw [hkeep (by omega)] at hsize
          exact .inr (.inr ⟨by omega, hsize⟩)
    · rw [if_neg hover]
      refine ⟨p.promptHits.length, le_rfl, (if_pos rfl).symm, fun _ hlt => absurd hlt (Nat.lt_irrefl _),
        fun _ => ?_, fun hzero => .inl hzero⟩
      by_cases hsize : p.size ≤ max
      · exact .inl hsize
      · exact .inr (Nat.eq_zero_of_not_pos fun hpos => hover ⟨Nat.not_le.mp hsize, hpos⟩)

/-- What the metadata's cuts leave as it was. -/
theorem trimMetadata (max : ℕ) : (trimReport max (trimQuery max (trimNode max p))).promptHits = p.promptHits ∧
    ∃ errors, (trimReport max (trimQuery max (trimNode max p))).retrieval =
      { p.retrieval with errors := errors } := by
  unfold trimReport trimQuery trimNode
  split_ifs <;> exact ⟨rfl, _, rfl⟩

theorem hits_mark (name : String) : (p.mark name).promptHits = p.promptHits ∧
    (p.mark name).retrieval = p.retrieval := by
  unfold AnswerPack.mark
  split_ifs <;> exact ⟨rfl, rfl⟩

/-- The prompt hits cut by both passes. -/
def cutHits (max : ℕ) (p : AnswerPack) : AnswerPack :=
  if (hitStep.first max p).size ≤ max then hitStep.first max p
  else hitStep.second max (hitStep.first max p)

theorem first_hits (max : ℕ) (hsize : max < p.size) : ∃ k ≤ p.promptHits.length,
    hitStep.first max p = (if 1 < p.promptHits.length then (p.keep k).mark "promptHits" else p) ∧
      (0 < p.promptHits.length → 0 < k) ∧ (1 < p.promptHits.length → k < p.promptHits.length) := by
  obtain ⟨k, hk, htrim, hpos, -, hcut⟩ := trim_hits max (le_refl p.promptHits.length)
  refine ⟨k, hk, ?_, hpos, hcut hsize⟩
  have hlen : hitStep.len p = p.promptHits.length := rfl
  unfold TrimStep.first
  rw [hlen, htrim]
  by_cases hmore : 1 < p.promptHits.length
  · rw [if_pos hmore, decide_eq_true (hcut hsize hmore)]
    rfl
  · have hall : k = p.promptHits.length := by omega
    rw [if_neg hmore, decide_eq_false (by omega), hall, keep_length]

theorem Bare.first (hp : p.Bare) (max : ℕ) (hsize : max < p.size) : (hitStep.first max p).Bare := by
  obtain ⟨k, -, hfirst, -⟩ := first_hits max hsize
  rw [hfirst]
  split_ifs
  · exact (hp.keep k).mark _
  · exact hp

theorem Bare.second (hp : p.Bare) (max : ℕ) : (hitStep.second max p).Bare := by
  obtain ⟨j, -, hempty, -⟩ := empty_hits max (le_refl p.promptHits.length)
  have hsecond : hitStep.second max p = hitStep.empty max p.promptHits.length p := rfl
  rw [hsecond, hempty]
  split_ifs
  · exact hp
  · exact (hp.keep j).mark _

/-- The budget cuts the prompt hits of a page, and the metadata after them. -/
theorem Bare.enforceBudget (hp : p.Bare) (max : ℕ) (hsize : max < p.size) :
    (p.enforceBudget max).promptHits = (cutHits max p).promptHits ∧
      ∃ errors, (p.enforceBudget max).retrieval = { (cutHits max p).retrieval with errors := errors } := by
  have hfirst : PolisMemory.passes max (trimSteps.map fun st => st.first max) p = hitStep.first max p :=
    hp.passes hsize (fun st q hq => (step_of_empty max hq).1) (hp.first max hsize)
  unfold AnswerPack.enforceBudget cutHits
  rw [if_neg (Nat.not_le.mpr hsize), hfirst]
  by_cases hfits : (hitStep.first max p).size ≤ max
  · rw [if_pos hfits, if_pos hfits]
    exact ⟨rfl, _, rfl⟩
  · have hsecond : PolisMemory.passes max (trimSteps.map fun st => st.second max) (hitStep.first max p) =
        hitStep.second max (hitStep.first max p) :=
      (hp.first max hsize).passes (Nat.not_le.mp hfits) (fun st q hq => (step_of_empty max hq).2)
        ((hp.first max hsize).second max)
    rw [if_neg hfits, if_neg hfits, hsecond]
    dsimp only
    split_ifs
    · exact ⟨rfl, _, rfl⟩
    · exact trimMetadata max

/-- The page cut to its first hit, named as cut if there were more. -/
def firstAlone (p : AnswerPack) : AnswerPack :=
  if 1 < p.promptHits.length then (p.keep 1).mark "promptHits" else p

theorem cutHits_cases (max : ℕ) (hsize : max < p.size) : ∃ k ≤ p.promptHits.length,
    (cutHits max p).promptHits = p.promptHits.take k ∧
      (cutHits max p).retrieval = p.retrieval ∧ (0 < p.promptHits.length → k < p.promptHits.length) ∧
      (0 < p.promptHits.length → (0 < k ↔ p.firstAlone.size ≤ max)) := by
  obtain ⟨k, hk, hfirst, hpos, hcut⟩ := first_hits max hsize
  unfold cutHits firstAlone
  rw [hfirst]
  by_cases hmore : 1 < p.promptHits.length
  · rw [if_pos hmore, if_pos hmore]
    have hklt := hcut hmore
    have hmono {i j : ℕ} (hij : i ≤ j) : ((p.keep i).mark "promptHits").size ≤
        ((p.keep j).mark "promptHits").size := by
      rw [mark_keep, mark_keep]
      exact size_keep_le hij
    by_cases hfits : ((p.keep k).mark "promptHits").size ≤ max
    · rw [if_pos hfits]
      refine ⟨k, hk, (hits_mark _).1, (hits_mark _).2, fun _ => hklt, fun _ => ⟨fun hkpos => ?_, fun _ => ?_⟩⟩
      · exact (hmono hkpos).trans hfits
      · exact hpos (by omega)
    · rw [if_neg hfits]
      let q := (p.keep k).mark "promptHits"
      have hq : q.promptHits = p.promptHits.take k := (hits_mark _).1
      have hlen : q.promptHits.length = k := by
        rw [hq, List.length_take, Nat.min_eq_left hk]
      obtain ⟨j, hj, hempty, hsome, hall, hnone⟩ := empty_hits max (p := q) (le_refl q.promptHits.length)
      rw [hlen] at hj hempty hsome hall hnone
      have hmarked {i : ℕ} (hi : i ≤ k) : (q.keep i).mark "promptHits" = (p.keep i).mark "promptHits" := by
        have hkept : q = (p.mark "promptHits").keep k := mark_keep _ _
        rw [hkept, keep_keep hi, ← mark_keep, mark_mark]
      have hsecond : hitStep.second max q = (p.keep j).mark "promptHits" := by
        have hrun : hitStep.second max q = hitStep.empty max k q := by
          unfold TrimStep.second
          exact congrArg (fun n => hitStep.empty max n q) hlen
        rw [hrun, hempty]
        by_cases heq : j = k
        · rw [if_pos heq, heq]
        · rw [if_neg heq, hmarked hj]
      have hkpos : 0 < k := hpos (by omega)
      refine ⟨j, by omega, ?_, ?_, fun _ => by omega, fun _ => ⟨fun hjpos => ?_, fun hone => ?_⟩⟩
      · exact (congrArg AnswerPack.promptHits hsecond).trans (hits_mark _).1
      · exact (congrArg AnswerPack.retrieval hsecond).trans (hits_mark _).2
      · by_cases heq : j = k
        · exact absurd ((hall heq).resolve_right hjpos.ne') hfits
        · have hlt : j < k := by omega
          have hle := hsome hjpos hlt
          rw [hmarked hj] at hle
          exact (hmono hjpos).trans hle
      · apply Nat.pos_of_ne_zero
        intro hzero
        rcases hnone hzero with hk0 | ⟨hk1, hover⟩ | ⟨hk1, hover⟩
        · omega
        · have hsame : q = (p.keep 1).mark "promptHits" := by rw [← hk1]
          rw [hsame] at hover
          omega
        · rw [hmarked hk1.le] at hover
          omega
  · rw [if_neg hmore, if_neg hmore, if_neg (Nat.not_le.mpr hsize)]
    obtain ⟨j, hj, hempty, -, hall, -⟩ := empty_hits max (le_refl p.promptHits.length)
    have hzero : j = 0 := by
      by_cases heq : j = p.promptHits.length
      · exact (hall heq).resolve_left (Nat.not_le.mpr hsize)
      · omega
    have hsecond : hitStep.second max p =
        if j = p.promptHits.length then p else (p.keep j).mark "promptHits" := hempty
    refine ⟨j, hj, ?_, ?_, fun hlen => by omega, fun hlen => ⟨fun hjpos => by omega, fun hle => by omega⟩⟩
    · rw [hsecond]
      split_ifs with heq
      · rw [heq, List.take_length]
      · exact (hits_mark _).1
    · rw [hsecond]
      split_ifs
      · rfl
      · exact (hits_mark _).2

/-- **What the budget leaves of a page**: its first hits, all of them if the
page is within it and not all of them if it is not, and some of them if the
first one is within it alone. -/
theorem enforce_page (hp : p.Bare) (max : ℕ) : ∃ k ≤ p.promptHits.length,
    (p.enforceBudget max).promptHits = p.promptHits.take k ∧
      (∃ errors, (p.enforceBudget max).retrieval = { p.retrieval with errors := errors }) ∧
      (k = p.promptHits.length ↔ p.promptHits = [] ∨ p.size ≤ max) ∧
      (0 < p.promptHits.length → (0 < k ↔ p.size ≤ max ∨ p.firstAlone.size ≤ max)) := by
  by_cases hsize : p.size ≤ max
  · have hsame : p.enforceBudget max = p := if_pos hsize
    rw [hsame]
    exact ⟨p.promptHits.length, le_rfl, List.take_length.symm, ⟨p.retrieval.errors, rfl⟩,
      ⟨fun _ => .inr hsize, fun _ => rfl⟩, fun hpos => ⟨fun _ => .inl hsize, fun _ => hpos⟩⟩
  · have hover := Nat.not_le.mp hsize
    obtain ⟨hhits, errors, hreport⟩ := hp.enforceBudget max hover
    obtain ⟨k, hk, hcut, hretrieval, hlt, hone⟩ := cutHits_cases max hover
    rw [hretrieval] at hreport
    refine ⟨k, hk, hhits.trans hcut, ⟨errors, hreport⟩,
      ⟨fun heq => ?_, fun h => ?_⟩, fun hpos => ?_⟩
    · left
      apply List.eq_nil_of_length_eq_zero
      by_contra hne
      have hless := hlt (Nat.pos_of_ne_zero hne)
      omega
    · have hnil := h.resolve_right hsize
      rw [hnil] at hk ⊢
      exact Nat.le_zero.mp hk
    · rw [hone hpos]
      exact ⟨.inr, fun h => h.resolve_left hsize⟩

end AnswerPack

end PolisMemory
