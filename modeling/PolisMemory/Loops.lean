/-
# Loops that may not end

A loop is its body: from a state to the next one, or to the result it leaves
with. `Ends` is that it leaves with a result after so many turns. A loop with a
budget ends (`ends_of_budget`): with none left it leaves, and otherwise it leaves
or makes a turn to a state where less is left and the result due is the same.

Key definitions: `Ends`, `runFor`.
Key theorems: `ends_of_budget`, `ends_of_runFor`.
-/
import Mathlib.Data.Nat.Notation

namespace Loops

variable {σ ρ : Type*} {body : σ → σ ⊕ ρ}

/-- The loop leaves with a result. -/
inductive Ends (body : σ → σ ⊕ ρ) : σ → ρ → Prop
  | leave {s : σ} {r : ρ} : body s = .inr r → Ends body s r
  | turn {s s' : σ} {r : ρ} : body s = .inl s' → Ends body s' r → Ends body s r

/-- **A loop with a budget ends**, and with the result that is due. -/
theorem ends_of_budget (fits : ℕ → σ → Prop) (due : ℕ → σ → ρ)
    (hleave : ∀ s, fits 0 s → body s = .inr (due 0 s))
    (hturn : ∀ n s, fits (n + 1) s → body s = .inr (due (n + 1) s) ∨
      ∃ s', body s = .inl s' ∧ fits n s' ∧ due n s' = due (n + 1) s) :
    ∀ n s, fits n s → Ends body s (due n s)
  | 0, s, h => .leave (hleave s h)
  | n + 1, s, h => by
    rcases hturn n s h with hr | ⟨s', hs, h', hdue⟩
    · exact .leave hr
    · exact .turn hs (hdue ▸ ends_of_budget fits due hleave hturn n s' h')

/-- At most so many turns of a loop. -/
def runFor (body : σ → σ ⊕ ρ) : ℕ → σ → Option ρ
  | 0, _ => none
  | n + 1, s =>
    match body s with
    | .inr r => some r
    | .inl s' => runFor body n s'

theorem ends_of_runFor : ∀ {n : ℕ} {s : σ} {r : ρ}, runFor body n s = some r → Ends body s r
  | n + 1, s, r, h => by
    unfold runFor at h
    split at h
    · rename_i hleave
      cases h
      exact .leave hleave
    · rename_i hturn
      exact .turn hturn (ends_of_runFor h)

end Loops
