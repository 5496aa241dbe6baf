/-
# Programs of statements that fail or are cut short

A program is a list of batches of statements. A statement is atomic; it may
fail, of itself or because of the world around, and before any of them the
program may be cut. The failure of a statement ends its batch: with it the
program, or, where failures are ignored, only the batch. An instruction may
skip the next ones by what the state says.

Several calls of a program share the state, their statements in any order. An
`Outline` says what holds of the state at each place of the program, which the
other calls leave so as long as the two are apart; what a call breaks it owes
until it is whole again. `holds_run` is a run of permitted acts, `finishes` a call
that nothing disturbs.

Key definitions: `Instr`, `exec`, `Calls`, `CallAct`, `Permits`, `Outline`.
Key theorems: `holds_run`, `finishes`.
-/
import Mathlib.Logic.Function.Basic
import Mathlib.Data.List.Induction

namespace PolisMemory.Interruptions

/-! ### Programs -/

/-- The next thing a program does. -/
inductive Instr (σ α : Type)
  | batch (ignored : Bool) (stmts : List α)
  /-- Reads the state; a reading whose failure is ignored skips nothing. -/
  | skipIf (ignored : Bool) (a : α) (p : σ → Bool) (n : ℕ)

section

variable {σ α : Type} (run : α → σ → Option σ)

/-- One statement, or one reading: the state and what is left of the program,
none if it has returned. -/
def exec (s : σ) (fails : Bool) : List (Instr σ α) → σ × Option (List (Instr σ α))
  | [] => (s, none)
  | .skipIf ignored _ p n :: rest =>
    if fails then (s, if ignored then some rest else none)
    else (s, some (if p s then rest.drop n else rest))
  | .batch _ [] :: rest => (s, some rest)
  | .batch ignored (a :: as) :: rest =>
    match if fails then none else run a s with
    | some s' => (s', some (.batch ignored as :: rest))
    | none => (s, if ignored then some rest else none)

/-- The statement that is next, and whether its failure is ignored. -/
def next? : List (Instr σ α) → Option (Bool × α)
  | .batch ignored (a :: _) :: _ => some (ignored, a)
  | .skipIf ignored a _ _ :: _ => some (ignored, a)
  | _ => none

/-- How many steps a program takes at most. -/
def steps : List (Instr σ α) → ℕ
  | [] => 0
  | .batch _ as :: rest => as.length + 1 + steps rest
  | .skipIf _ _ _ _ :: rest => 1 + steps rest

theorem steps_drop_le (prog : List (Instr σ α)) : ∀ n, steps (prog.drop n) ≤ steps prog := by
  induction prog with
  | nil => simp
  | cons instr prog ih =>
    intro n
    cases n with
    | zero => exact Nat.le_refl _
    | succ n =>
      have := ih n
      cases instr <;> simp only [List.drop_succ_cons, steps] <;> omega

variable {run}

/-- A step changes the state by a statement, or not. -/
theorem exec_state {s s' : σ} {fails : Bool} {rest : List (Instr σ α)}
    {rest' : Option (List (Instr σ α))} (h : exec run s fails rest = (s', rest')) :
    s' = s ∨ ∃ a, run a s = some s' := by
  match rest with
  | [] => exact .inl (Prod.mk.inj h).1.symm
  | .skipIf ignored a p n :: rest =>
    rw [exec] at h
    split at h <;> exact .inl (Prod.mk.inj h).1.symm
  | .batch ignored [] :: rest => exact .inl (Prod.mk.inj h).1.symm
  | .batch ignored (a :: as) :: rest =>
    rw [exec] at h
    split at h
    case h_1 s₁ hrun =>
      obtain rfl := (Prod.mk.inj h).1
      split at hrun
      · cases hrun
      · exact .inr ⟨a, hrun⟩
    case h_2 => exact .inl (Prod.mk.inj h).1.symm

/-- Every step leaves less. -/
theorem steps_exec_lt {s s' : σ} {fails : Bool} {rest rest' : List (Instr σ α)}
    (h : exec run s fails rest = (s', some rest')) : steps rest' < steps rest := by
  match rest with
  | [] => cases h
  | .skipIf ignored a p n :: rest =>
    have hdrop := steps_drop_le rest n
    rw [exec] at h
    split at h
    · obtain ⟨-, hrest⟩ := Prod.mk.inj h
      split at hrest
      · obtain rfl := Option.some.inj hrest
        simp only [steps]
        omega
      · cases hrest
    · obtain rfl := Option.some.inj (Prod.mk.inj h).2
      split <;> simp only [steps] <;> omega
  | .batch ignored [] :: rest =>
    obtain rfl := Option.some.inj (Prod.mk.inj h).2
    simp only [steps, List.length_nil]
    omega
  | .batch ignored (a :: as) :: rest =>
    rw [exec] at h
    split at h
    · obtain rfl := Option.some.inj (Prod.mk.inj h).2
      simp only [steps, List.length_cons]
      omega
    · obtain ⟨-, hrest⟩ := Prod.mk.inj h
      split at hrest
      · obtain rfl := Option.some.inj hrest
        simp only [steps, List.length_cons]
        omega
      · cases hrest

end

/-! ### Calls -/

/-- The state, and what is left of each call; one with nothing left has
succeeded. -/
structure Calls (ι σ α : Type) where
  state : σ
  left : ι → Option (List (Instr σ α))

/-- A call begins, does its next step, or is cut. -/
inductive CallAct (ι : Type)
  | begin (i : ι)
  | exec (i : ι) (fails : Bool)
  | cut (i : ι)

section

variable {ι σ α : Type} [DecidableEq ι] (run : α → σ → Option σ) (prog : List (Instr σ α))

/-- One act. -/
def Calls.act (w : Calls ι σ α) : CallAct ι → Calls ι σ α
  | .begin i =>
    match w.left i with
    | none => { w with left := Function.update w.left i (some prog) }
    | some _ => w
  | .exec i fails =>
    match w.left i with
    | none => w
    | some rest =>
      let (s, rest) := Interruptions.exec run w.state fails rest
      ⟨s, Function.update w.left i rest⟩
  | .cut i => { w with left := Function.update w.left i none }

/-- The acts, in their order, from a state no call is on. -/
def runCalls (s : σ) (as : List (CallAct ι)) : Calls ι σ α :=
  as.foldl (Calls.act run prog) ⟨s, fun _ => none⟩

theorem runCalls_append (s : σ) (as : List (CallAct ι)) (a : CallAct ι) :
    runCalls run prog s (as ++ [a]) = (runCalls run prog s as).act run prog a := List.foldl_append

/-- What is left of a call is new if it is the one that acts. -/
theorem left_update {left : ι → Option (List (Instr σ α))} {i j : ι}
    {new : Option (List (Instr σ α))} {p : List (Instr σ α)}
    (h : Function.update left i new j = some p) :
    (j = i ∧ new = some p) ∨ (j ≠ i ∧ left j = some p) := by
  by_cases hji : j = i
  · subst hji
    rw [Function.update_self] at h
    exact .inl ⟨rfl, h⟩
  · rw [Function.update_of_ne hji] at h
    exact .inr ⟨hji, h⟩

section

variable {run prog} {w : Calls ι σ α} {i : ι}

theorem act_begin_none (hi : w.left i = none) :
    w.act run prog (.begin i) = ⟨w.state, Function.update w.left i (some prog)⟩ := by
  simp only [Calls.act, hi]

theorem act_begin_some {p : List (Instr σ α)} (hi : w.left i = some p) :
    w.act run prog (.begin i) = w := by
  simp only [Calls.act, hi]

theorem act_exec_none (hi : w.left i = none) (fails : Bool) :
    w.act run prog (.exec i fails) = w := by
  simp only [Calls.act, hi]

theorem act_exec_some {p : List (Instr σ α)} {fails : Bool} {s' : σ}
    {p' : Option (List (Instr σ α))} (hi : w.left i = some p)
    (hexec : exec run w.state fails p = (s', p')) :
    w.act run prog (.exec i fails) = ⟨s', Function.update w.left i p'⟩ := by
  simp only [Calls.act, hi, hexec]

end

/-! ### What is permitted -/

/-- What the world around may do to a statement: cut the call before it, make
it fail, and let it meet what is left of another call. -/
structure Rules (σ α : Type) where
  mayCut : α → σ → Prop
  mayFail : Bool → α → σ → Prop
  mayMeet : α → σ → List (Instr σ α) → Prop

variable (r : Rules σ α)

omit [DecidableEq ι] in
/-- The act is permitted. -/
def Permits (w : Calls ι σ α) : CallAct ι → Prop
  | .begin _ => True
  | .exec i fails => ∀ rest ignored a, w.left i = some rest → next? rest = some (ignored, a) →
      (fails = true → r.mayFail ignored a w.state) ∧
        ∀ j other, j ≠ i → w.left j = some other → r.mayMeet a w.state other
  | .cut i => ∀ rest ignored a, w.left i = some rest → next? rest = some (ignored, a) →
      r.mayCut a w.state

/-! ### Outlines -/

variable (I J : σ → Prop) (At : List (Instr σ α) → σ → Prop) (Owes : List (Instr σ α) → Prop)
  (Apart : σ → List (Instr σ α) → List (Instr σ α) → Prop)

omit [DecidableEq ι] in
/-- `I` holds always, `J` unless a call owes it, and `At` of what is left of each
call, which the others do not break while they are apart from it. -/
structure Outline : Prop where
  symm : ∀ {s p p'}, Apart s p p' → Apart s p' p
  start : ∀ {s}, I s → At prog s ∧ ∀ p, Apart s prog p
  exec : ∀ {s fails p s' p'}, I s → At p s → exec run s fails p = (s', p') →
    (fails = true → ∀ ignored a, next? p = some (ignored, a) → r.mayFail ignored a s) →
    I s' ∧ (∀ q, p' = some q → At q s') ∧ (J s → J s' ∨ ∃ q, p' = some q ∧ Owes q) ∧ (Owes p → J s')
  others : ∀ {s fails p s' p' o}, At p s → At o s → Apart s p o →
    Interruptions.exec run s fails p = (s', p') →
    (∀ ignored a, next? p = some (ignored, a) →
      (fails = true → r.mayFail ignored a s) ∧ r.mayMeet a s o) →
    At o s' ∧ ∀ q, p' = some q → Apart s' q o
  apart : ∀ {s fails p s' p' o o'}, Interruptions.exec run s fails p = (s', p') → Apart s o o' →
    Apart s' o o'
  cut : ∀ {s p}, At p s → Owes p → (∀ ignored a, next? p = some (ignored, a) → r.mayCut a s) → J s

omit [DecidableEq ι] in
/-- What holds of the state and of what is left of each call. -/
structure Holds (w : Calls ι σ α) : Prop where
  inv : I w.state
  owed : J w.state ∨ ∃ i p, w.left i = some p ∧ Owes p
  places : ∀ i p, w.left i = some p → At p w.state
  apart : ∀ i j p p', i ≠ j → w.left i = some p → w.left j = some p' → Apart w.state p p'

variable {run prog r I J At Owes Apart}

theorem Holds.begin (o : Outline run prog r I J At Owes Apart) {w : Calls ι σ α}
    (hw : Holds I J At Owes Apart w) (i : ι) :
    Holds I J At Owes Apart (w.act run prog (.begin i)) := by
  cases hi : w.left i with
  | some p =>
    rw [act_begin_some hi]
    exact hw
  | none =>
    rw [act_begin_none hi]
    obtain ⟨hat, hapart⟩ := o.start hw.inv
    refine ⟨hw.inv, ?_, fun j p hj => ?_, fun j k p p' hjk hj hk => ?_⟩
    · rcases hw.owed with hJ | ⟨j, p, hj, howes⟩
      · exact .inl hJ
      · have hji : j ≠ i := by
          rintro rfl
          rw [hi] at hj
          cases hj
        exact .inr ⟨j, p, (Function.update_of_ne hji ..).trans hj, howes⟩
    · rcases left_update hj with ⟨-, hp⟩ | ⟨-, hj⟩
      · obtain rfl := Option.some.inj hp
        exact hat
      · exact hw.places j p hj
    · rcases left_update hj with ⟨-, hp⟩ | ⟨-, hj⟩
      · obtain rfl := Option.some.inj hp
        exact hapart p'
      · rcases left_update hk with ⟨-, hp⟩ | ⟨-, hk⟩
        · obtain rfl := Option.some.inj hp
          exact o.symm (hapart p)
        · exact hw.apart j k p p' hjk hj hk

theorem Holds.exec (o : Outline run prog r I J At Owes Apart) {w : Calls ι σ α}
    (hw : Holds I J At Owes Apart w) {i : ι} {fails : Bool}
    (ha : Permits r w (.exec i fails)) :
    Holds I J At Owes Apart (w.act run prog (.exec i fails)) := by
  cases hi : w.left i with
  | none =>
    rw [act_exec_none hi]
    exact hw
  | some p =>
    cases hexec : Interruptions.exec run w.state fails p with
    | mk s' p' =>
      rw [act_exec_some hi hexec]
      obtain ⟨hinv, hat, hJ, howes⟩ := o.exec hw.inv (hw.places i p hi) hexec
        fun hf ignored a hnext => (ha p ignored a hi hnext).1 hf
      have hother : ∀ j q, j ≠ i → w.left j = some q → At q s' ∧ ∀ q', p' = some q' → Apart s' q' q :=
        fun j q hj hq => o.others (hw.places i p hi) (hw.places j q hq)
          (hw.apart i j p q (Ne.symm hj) hi hq) hexec fun ignored a hnext =>
            ⟨(ha p ignored a hi hnext).1, (ha p ignored a hi hnext).2 j q hj hq⟩
      refine ⟨hinv, ?_, fun j q hj => ?_, fun j k q q' hjk hj hk => ?_⟩
      · -- who owes goes on owing, or has made it whole
        have hstill : J w.state → J s' ∨ ∃ j q, Function.update w.left i p' j = some q ∧ Owes q := by
          intro h
          rcases hJ h with h | ⟨q, hq, ho⟩
          · exact .inl h
          · exact .inr ⟨i, q, (Function.update_self ..).trans hq, ho⟩
        rcases hw.owed with h | ⟨j, q, hj, ho⟩
        · exact hstill h
        · by_cases hji : j = i
          · subst hji
            obtain rfl := Option.some.inj (hj.symm.trans hi)
            exact .inl (howes ho)
          · exact .inr ⟨j, q, (Function.update_of_ne hji ..).trans hj, ho⟩
      · rcases left_update hj with ⟨-, hq⟩ | ⟨hji, hj⟩
        · exact hat q hq
        · exact (hother j q hji hj).1
      · rcases left_update hj with ⟨rfl, hq⟩ | ⟨hji, hj⟩
        · obtain ⟨hki, hk⟩ := (left_update hk).resolve_left fun h => hjk h.1.symm
          exact (hother k q' hki hk).2 q hq
        · rcases left_update hk with ⟨-, hq'⟩ | ⟨-, hk⟩
          · exact o.symm ((hother j q hji hj).2 q' hq')
          · exact o.apart hexec (hw.apart j k q q' hjk hj hk)

theorem Holds.cut (o : Outline run prog r I J At Owes Apart) {w : Calls ι σ α}
    (hw : Holds I J At Owes Apart w) {i : ι} (ha : Permits r w (.cut i)) :
    Holds I J At Owes Apart (w.act run prog (.cut i)) := by
  have hleft : ∀ {j p}, Function.update w.left i none j = some p → w.left j = some p := by
    intro j p h
    exact ((left_update h).resolve_left fun h => nomatch h.2).2
  refine ⟨hw.inv, ?_, fun j p hj => hw.places j p (hleft hj), fun j k p p' hjk hj hk =>
    hw.apart j k p p' hjk (hleft hj) (hleft hk)⟩
  rcases hw.owed with hJ | ⟨j, p, hj, howes⟩
  · exact .inl hJ
  · by_cases hji : j = i
    · subst hji
      exact .inl (o.cut (hw.places j p hj) howes fun ignored a hnext => ha p ignored a hj hnext)
    · exact .inr ⟨j, p, (Function.update_of_ne hji ..).trans hj, howes⟩

theorem holds_act (o : Outline run prog r I J At Owes Apart) {w : Calls ι σ α}
    (hw : Holds I J At Owes Apart w) {a : CallAct ι} (ha : Permits r w a) :
    Holds I J At Owes Apart (w.act run prog a) := by
  cases a with
  | begin i => exact hw.begin o i
  | exec i fails => exact hw.exec o ha
  | cut i => exact hw.cut o ha

/-- **A run of permitted acts.** -/
theorem holds_run (o : Outline run prog r I J At Owes Apart) {s : σ} (hI : I s) (hJ : J s)
    (as : List (CallAct ι)) (has : ∀ p a, p ++ [a] <+: as → Permits r (runCalls run prog s p) a) :
    Holds I J At Owes Apart (runCalls run prog s as) := by
  induction as using List.reverseRecOn with
  | nil => exact ⟨hI, .inl hJ, fun _ _ h => (nomatch h), fun _ _ _ _ _ h => (nomatch h)⟩
  | append_singleton as a ih =>
    rw [runCalls_append]
    refine holds_act o (ih fun p b hp => has p b ?_) (has as a (List.prefix_refl _))
    exact hp.trans (List.prefix_append as [a])

omit [DecidableEq ι] in
/-- With no call on nothing is owed. -/
theorem Holds.idle {w : Calls ι σ α} (hw : Holds I J At Owes Apart w)
    (hidle : ∀ j, w.left j = none) : J w.state := by
  rcases hw.owed with hJ | ⟨j, p, hj, -⟩
  · exact hJ
  · rw [hidle j] at hj
    cases hj

/-- **A call that nothing disturbs succeeds**, where every step of it leads on. -/
theorem finishes {N : List (Instr σ α) → σ → Prop}
    (hN : ∀ {p s s' p'}, N p s → exec run s false p = (s', p') →
      p = [] ∨ ∃ q, p' = some q ∧ N q s') (i : ι) :
    ∀ (m : ℕ) {w : Calls ι σ α} {p : List (Instr σ α)},
    steps p ≤ m → w.left i = some p → N p w.state →
    ∃ n, ((List.replicate n (.exec i false)).foldl (Calls.act run prog) w).left i = some []
  | m, w, [], _, hi, _ => ⟨0, hi⟩
  | 0, w, instr :: p, hm, _, _ => by
    cases instr <;> simp only [steps] at hm <;> omega
  | m + 1, w, instr :: p, hm, hi, hn => by
    cases hexec : exec run w.state false (instr :: p) with
    | mk s' p' =>
      obtain ⟨q, rfl, hq⟩ := (hN hn hexec).resolve_left (List.cons_ne_nil _ _)
      have hlt := steps_exec_lt hexec
      have hself : (Function.update w.left i (some q)) i = some q := Function.update_self ..
      obtain ⟨n, hn⟩ := finishes hN i m (w := ⟨s', Function.update w.left i (some q)⟩) (by omega)
        hself hq
      refine ⟨n + 1, ?_⟩
      rw [List.replicate_succ, List.foldl_cons, act_exec_some hi hexec]
      exact hn

end

end PolisMemory.Interruptions
