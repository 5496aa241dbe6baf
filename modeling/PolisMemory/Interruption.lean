/-
# Procedures that can be cut short

A procedure reads and writes a durable state, one write at a time, and every
write carries a name. A run has a result and a last state, and it has passed
the states its writes left: those are what is found after an interruption.

`Meets P p C Q` is a triple with a condition for interruptions: from every
state with `P` the procedure returns a value with `Q`, and each state on the
way meets `C` at the name of the write that left it. `Passes P p i` says that
from every such state the run comes to the write `i`.

Key definitions: `Run`, `Proc`, `Proc.write`, `Meets`, `Passes`.
Key theorems: `Meets.bind`, `Meets.forM`, `meets_write`, `Passes.bind`,
`Meets.passes`.
-/
import Mathlib.Data.List.Basic

namespace Interruption

/-- A run: what it returns, the state it ends in, and what each write left. -/
structure Run (ι σ ε α : Type*) where
  result : Except ε α
  final : σ
  points : List (ι × σ)

/-- A procedure over states `σ`, its writes named by `ι`. -/
def Proc (ι σ ε α : Type*) := σ → Run ι σ ε α

namespace Proc

variable {ι σ ε α β : Type*}

/-- The value, nothing written. -/
def pure (a : α) : Proc ι σ ε α := fun s => ⟨.ok a, s, []⟩

/-- An error ends the procedure. -/
def fail (e : ε) : Proc ι σ ε α := fun s => ⟨.error e, s, []⟩

/-- A read. -/
def read (f : σ → α) : Proc ι σ ε α := fun s => ⟨.ok (f s), s, []⟩

/-- One durable write. -/
def write (i : ι) (f : σ → σ) : Proc ι σ ε Unit := fun s => ⟨.ok (), f s, [(i, f s)]⟩

/-- One procedure after the other. -/
def bind (p : Proc ι σ ε α) (f : α → Proc ι σ ε β) : Proc ι σ ε β := fun s =>
  match (p s).result with
  | .error e => ⟨.error e, (p s).final, (p s).points⟩
  | .ok a =>
    let rest := f a (p s).final
    ⟨rest.result, rest.final, (p s).points ++ rest.points⟩

end Proc

universe u v w x

instance {ι : Type u} {σ : Type v} {ε : Type w} : Monad (Proc.{u, v, w, x} ι σ ε) where
  pure := Proc.pure
  bind := Proc.bind

section rules

variable {ι : Type u} {σ : Type v} {ε : Type w} {α β : Type x}
variable {p : Proc ι σ ε α} {f : α → Proc ι σ ε β} {s : σ}
variable {P P' : σ → Prop} {C C' : ι → σ → Prop} {Q Q' : α → σ → Prop} {R : β → σ → Prop}

theorem run_bind_ok {a : α} (h : (p s).result = .ok a) : (p >>= f) s =
    ⟨(f a (p s).final).result, (f a (p s).final).final,
      (p s).points ++ (f a (p s).final).points⟩ := by
  show Proc.bind p f s = _
  unfold Proc.bind
  rw [h]

theorem run_bind_error {e : ε} (h : (p s).result = .error e) :
    (p >>= f) s = ⟨.error e, (p s).final, (p s).points⟩ := by
  show Proc.bind p f s = _
  unfold Proc.bind
  rw [h]

/-- From `P` the procedure returns with `Q`, and `C` holds at every write. -/
def Meets (P : σ → Prop) (p : Proc ι σ ε α) (C : ι → σ → Prop) (Q : α → σ → Prop) : Prop :=
  ∀ s, P s → (∀ x ∈ (p s).points, C x.1 x.2) ∧ ∃ a, (p s).result = .ok a ∧ Q a (p s).final

theorem meets_pure {a : α} (h : ∀ s, P s → Q a s) : Meets P (pure a : Proc ι σ ε α) C Q :=
  fun s hs => ⟨fun _ hx => absurd hx List.not_mem_nil, a, rfl, h s hs⟩

theorem meets_read {g : σ → α} (h : ∀ s, P s → Q (g s) s) : Meets P (Proc.read g : Proc ι σ ε α) C Q :=
  fun s hs => ⟨fun _ hx => absurd hx List.not_mem_nil, g s, rfl, h s hs⟩

theorem Meets.conseq (h : Meets P p C Q) (hP : ∀ s, P' s → P s) (hC : ∀ i s, C i s → C' i s)
    (hQ : ∀ a s, Q a s → Q' a s) : Meets P' p C' Q' := by
  intro s hs
  obtain ⟨hpoints, a, ha, hq⟩ := h s (hP s hs)
  exact ⟨fun x hx => hC _ _ (hpoints x hx), a, ha, hQ a _ hq⟩

/-- What the first leaves is where the second starts. -/
theorem Meets.bind (hp : Meets P p C Q) (hf : ∀ a, Meets (Q a) (f a) C R) :
    Meets P (p >>= f) C R := by
  intro s hs
  obtain ⟨hpoints, a, ha, hq⟩ := hp s hs
  obtain ⟨hrest, b, hb, hr⟩ := hf a _ hq
  rw [run_bind_ok ha]
  refine ⟨fun x hx => ?_, b, hb, hr⟩
  rcases List.mem_append.mp hx with hx | hx
  · exact hpoints x hx
  · exact hrest x hx

/-- From `P` the run comes to the write `i`. -/
def Passes (P : σ → Prop) (p : Proc ι σ ε α) (i : ι) : Prop :=
  ∀ s, P s → ∃ s', (i, s') ∈ (p s).points

variable {i : ι}

theorem Passes.bind (h : Passes P p i) : Passes P (p >>= f) i := by
  intro s hs
  obtain ⟨s', hs'⟩ := h s hs
  cases hr : (p s).result with
  | error e =>
    rw [run_bind_error hr]
    exact ⟨s', hs'⟩
  | ok a =>
    rw [run_bind_ok hr]
    exact ⟨s', List.mem_append_left _ hs'⟩

/-- A write of the second, the first being met. -/
theorem Meets.passes (h : Meets P p C Q) (hf : ∀ a, Passes (Q a) (f a) i) : Passes P (p >>= f) i := by
  intro s hs
  obtain ⟨-, a, ha, hq⟩ := h s hs
  obtain ⟨s', hs'⟩ := hf a _ hq
  rw [run_bind_ok ha]
  exact ⟨s', List.mem_append_right _ hs'⟩

end rules

section loops

variable {ι : Type u} {σ : Type v} {ε : Type w} {β : Type x}
variable {P : σ → Prop} {C : ι → σ → Prop}

theorem meets_write {Q : Unit → σ → Prop} {i : ι} {g : σ → σ} (hC : ∀ s, P s → C i (g s))
    (hQ : ∀ s, P s → Q () (g s)) : Meets P (Proc.write i g : Proc ι σ ε Unit) C Q := by
  intro s hs
  refine ⟨fun x hx => ?_, (), rfl, hQ s hs⟩
  rw [List.mem_singleton.mp hx]
  exact hC s hs

theorem passes_write {i : ι} {g : σ → σ} : Passes P (Proc.write i g : Proc ι σ ε Unit) i :=
  fun s _ => ⟨g s, List.mem_singleton_self _⟩

/-- An invariant of each round is one of the loop. -/
theorem Meets.forM {round : β → Proc ι σ ε PUnit} :
    ∀ {items : List β}, (∀ b ∈ items, Meets P (round b) C fun _ => P) →
      Meets P (items.forM round) C fun _ => P
  | [], _ => meets_pure fun _ hs => hs
  | b :: items, h => by
    have hround := h b List.mem_cons_self
    have hrest : Meets P (items.forM round) C fun _ => P :=
      Meets.forM fun b' hb' => h b' (List.mem_cons_of_mem b hb')
    exact hround.bind fun _ => hrest

end loops

end Interruption
