/-
# Passes that may stop on the way

A pass is a program over a state that may stop with an error, and the state then
stays as the pass has left it. Its transactions are the steps that do not: where
one fails the state is as before it (`Passes.tx`). `Leads x s Q E` says where
the pass gets from a state: to `Q` if it returns and to `E` if it stops. A loop
keeps an invariant that may speak of the part of its list that is done
(`Leads.foldlM`); what a preorder keeps at each step it keeps to the end, also of a
pass that stops (`Keeps`).

Key definitions: `Passes.tx`, `Passes.Leads`, `Passes.Keeps`.
Key theorems: `Leads.bind`, `Leads.foldlM`, `Keeps.bind`, `Keeps.foldlM`.
-/
import Mathlib.Order.Defs.Unbundled

namespace Passes

variable {ε σ α β : Type}

/-- A transaction: it fails as a whole. -/
def tx (f : σ → Except ε (σ × α)) : EStateM ε σ α := fun s =>
  match f s with
  | .ok (s', a) => .ok a s'
  | .error e => .error e s

/-- The state that a pass leaves. -/
def after : EStateM.Result ε σ α → σ
  | .ok _ s => s
  | .error _ s => s

/-- Whether it returned. -/
def returned : EStateM.Result ε σ α → Bool
  | .ok _ _ => true
  | .error _ _ => false

/-- From the state, the pass returns in `Q` or stops in `E`. -/
structure Leads (x : EStateM ε σ α) (s : σ) (Q : α → σ → Prop) (E : σ → Prop) : Prop where
  returns : ∀ a s', x s = .ok a s' → Q a s'
  stops : ∀ e s', x s = .error e s' → E s'

namespace Leads

variable {x : EStateM ε σ α} {f : α → EStateM ε σ β} {s : σ} {Q Q' : α → σ → Prop} {E E' : σ → Prop}

theorem mono (h : Leads x s Q E) (hQ : ∀ a s', Q a s' → Q' a s') (hE : ∀ s', E s' → E' s') :
    Leads x s Q' E' :=
  ⟨fun a s' hx => hQ a s' (h.returns a s' hx), fun e s' hx => hE s' (h.stops e s' hx)⟩

theorem pure {a : α} (h : Q a s) : Leads (Pure.pure a : EStateM ε σ α) s Q E where
  returns a' s' hx := by
    cases hx
    exact h
  stops e s' hx := by cases hx

theorem throw {e : ε} (h : E s) : Leads (throw e : EStateM ε σ α) s Q E where
  returns a' s' hx := by cases hx
  stops e' s' hx := by
    cases hx
    exact h

theorem bind {R : β → σ → Prop} (h : Leads x s (fun a s' => Leads (f a) s' R E) E) :
    Leads (x >>= f) s R E := by
  obtain ⟨hok, herr⟩ := h
  have hrun : (x >>= f) s = EStateM.bind x f s := rfl
  unfold EStateM.bind at hrun
  constructor
  · intro b s' hx
    rw [hrun] at hx
    split at hx
    · rename_i a s₁ hxs
      exact (hok a s₁ hxs).returns b s' hx
    · cases hx
  · intro e s' hx
    rw [hrun] at hx
    split at hx
    · rename_i a s₁ hxs
      exact (hok a s₁ hxs).stops e s' hx
    · rename_i e' s₁ hxs
      cases hx
      exact herr e s' hxs

theorem tx {g : σ → Except ε (σ × α)} (hok : ∀ s' a, g s = .ok (s', a) → Q a s') (herr : E s) :
    Leads (tx g) s Q E := by
  constructor
  · intro a s' hx
    unfold Passes.tx at hx
    split at hx
    · rename_i hg
      cases hx
      exact hok s' a hg
    · cases hx
  · intro e s' hx
    unfold Passes.tx at hx
    split at hx
    · cases hx
    · cases hx
      exact herr

theorem get {R : σ → σ → Prop} (h : R s s) : Leads (get : EStateM ε σ σ) s R E where
  returns a s' hx := by
    cases hx
    exact h
  stops e s' hx := by cases hx

theorem set {R : PUnit → σ → Prop} {s₁ : σ} (h : R ⟨⟩ s₁) : Leads (set s₁ : EStateM ε σ PUnit) s R E where
  returns a s' hx := by
    cases hx
    exact h
  stops e s' hx := by cases hx

theorem modifyGet {g : σ → α × σ} (h : Q (g s).1 (g s).2) :
    Leads (modifyGet g : EStateM ε σ α) s Q E where
  returns a s' hx := by
    cases hx
    exact h
  stops e s' hx := by cases hx

theorem modify {R : PUnit → σ → Prop} {g : σ → σ} (h : R ⟨⟩ (g s)) :
    Leads (modify g : EStateM ε σ PUnit) s R E :=
  modifyGet h

/-- **A loop keeps an invariant** of what is done, what it has come to and the state. -/
theorem foldlM {xs : List α} {g : β → α → EStateM ε σ β} (I : List α → β → σ → Prop)
    (hstep : ∀ done x rest b s, xs = done ++ x :: rest → I done b s →
      Leads (g b x) s (I (done ++ [x])) E) {b : β} (hI : I [] b s) :
    Leads (xs.foldlM g b) s (I xs) E := by
  suffices hrest : ∀ rest done b s, xs = done ++ rest → I done b s →
      Leads (rest.foldlM g b) s (I xs) E by
    exact hrest xs [] b s rfl hI
  intro rest
  induction rest with
  | nil =>
    intro done b s hxs hI
    rw [List.append_nil] at hxs
    exact .pure (hxs ▸ hI)
  | cons x rest ih =>
    intro done b s hxs hI
    rw [List.foldlM_cons]
    refine bind ((hstep done x rest b s hxs hI).mono (fun b' s' hI' => ?_) fun _ hE => hE)
    exact ih (done ++ [x]) b' s' (by rw [hxs, List.append_assoc, List.singleton_append]) hI'

end Leads

/-! ### What every step keeps -/

/-- The pass keeps the relation, from any state. -/
def Keeps (R : σ → σ → Prop) (x : EStateM ε σ α) : Prop := ∀ s, Leads x s (fun _ => R s) (R s)

namespace Keeps

variable {R : σ → σ → Prop} {x : EStateM ε σ α} {f : α → EStateM ε σ β}

theorem after (h : Keeps R x) (s : σ) : R s (after (x s)) := by
  cases hx : x s with
  | ok a s' => exact (h s).returns a s' hx
  | error e s' => exact (h s).stops e s' hx

variable [IsPreorder σ R]

theorem pure (a : α) : Keeps R (Pure.pure a : EStateM ε σ α) := fun s => .pure (refl s)

theorem throw (e : ε) : Keeps R (throw e : EStateM ε σ α) := fun s => .throw (refl s)

theorem get : Keeps R (get : EStateM ε σ σ) := fun s => .get (refl s)

theorem tx {g : σ → Except ε (σ × α)} (hg : ∀ s s' a, g s = .ok (s', a) → R s s') :
    Keeps R (tx g) := fun s => .tx (fun s' a h => hg s s' a h) (refl s)

theorem bind (h : Keeps R x) (hf : ∀ a, Keeps R (f a)) : Keeps R (x >>= f) := by
  intro s
  refine .bind ((h s).mono (fun a s₁ h₁ => ?_) fun s₁ h₁ => h₁)
  exact (hf a s₁).mono (fun _ s₂ h₂ => IsTrans.trans _ _ _ h₁ h₂) fun s₂ h₂ => IsTrans.trans _ _ _ h₁ h₂

theorem foldlM {g : β → α → EStateM ε σ β} (hg : ∀ b a, Keeps R (g b a)) (xs : List α) (b : β) :
    Keeps R (xs.foldlM g b) := by
  intro s
  refine .foldlM (fun _ _ => R s) (fun _ x _ b s₁ _ h₁ => ?_) (refl s)
  exact (hg b x s₁).mono (fun _ s₂ h₂ => IsTrans.trans _ _ _ h₁ h₂) fun s₂ h₂ => IsTrans.trans _ _ _ h₁ h₂

end Keeps

end Passes
