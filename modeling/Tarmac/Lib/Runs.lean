import Mathlib.Algebra.Order.Ring.Nat

/-!
# Runs of labelled step relations

A system is a step relation `σ → ℓ → σ → Prop`; its runs are labelled by the list of their steps
(`Runs`). One system refines another when a relation between their states is kept by steps of equal
label (`Runs.simulate`); the relation may depend on the labels to come, so that a bound on what is
left of a run can be part of it.
-/

namespace Tarmac

variable {σ τ ℓ : Type}

/-- The runs of a step relation. -/
inductive Runs (step : σ → ℓ → σ → Prop) : σ → List ℓ → σ → Prop where
  | nil {s : σ} : Runs step s [] s
  | cons {s s₁ s' : σ} {l : ℓ} {ls : List ℓ} :
      step s l s₁ → Runs step s₁ ls s' → Runs step s (l :: ls) s'

namespace Runs

variable {step : σ → ℓ → σ → Prop} {step' : τ → ℓ → τ → Prop}

/-- Runs compose. -/
theorem append {s s₁ s' : σ} {ls ls' : List ℓ} (h : Runs step s ls s₁) (h' : Runs step s₁ ls' s') :
    Runs step s (ls ++ ls') s' := by
  induction h with
  | nil => exact h'
  | cons hs _ ih => exact .cons hs (ih h')

/-- A run passes through a state between any two parts of its labels. -/
theorem split {s s' : σ} {ls ls' : List ℓ} (h : Runs step s (ls ++ ls') s') :
    ∃ s₁, Runs step s ls s₁ ∧ Runs step s₁ ls' s' := by
  induction ls generalizing s with
  | nil => exact ⟨s, .nil, h⟩
  | cons l ls ih =>
    cases h with
    | cons hs h =>
      obtain ⟨s₁, h₁, h₂⟩ := ih h
      exact ⟨s₁, .cons hs h₁, h₂⟩

/-- Simulation: every run of the first system has a run of the second with the same labels. -/
theorem simulate {R : List ℓ → σ → τ → Prop}
    (hstep : ∀ {l ls s s' t}, R (l :: ls) s t → step s l s' → ∃ t', step' t l t' ∧ R ls s' t')
    {s s' : σ} {ls : List ℓ} (h : Runs step s ls s') {t : τ} (ht : R ls s t) :
    ∃ t', Runs step' t ls t' ∧ R [] s' t' := by
  induction h generalizing t with
  | nil => exact ⟨t, .nil, ht⟩
  | cons hs _ ih =>
    obtain ⟨t₁, ht₁, hR⟩ := hstep ht hs
    obtain ⟨t', hr, hR'⟩ := ih hR
    exact ⟨t', .cons ht₁ hr, hR'⟩

/-- What every step keeps holds at the end of a run. -/
theorem invariant {I : σ → Prop} (hstep : ∀ {l s s'}, I s → step s l s' → I s') {s s' : σ}
    {ls : List ℓ} (h : Runs step s ls s') (hs : I s) : I s' := by
  induction h with
  | nil => exact hs
  | cons hst _ ih => exact ih (hstep hs hst)

/-- What every step keeps of a state and the steps that led to it holds at the end of a run. -/
theorem history {I : List ℓ → σ → Prop}
    (hstep : ∀ {ls l s s'}, I ls s → step s l s' → I (ls ++ [l]) s') {s s' : σ} {ls : List ℓ}
    (h : Runs step s ls s') (hs : I [] s) : I ls s' := by
  suffices hgen : ∀ ls₀, I ls₀ s → I (ls₀ ++ ls) s' from hgen [] hs
  clear hs
  induction h with
  | nil =>
    intro ls₀ hs
    rwa [List.append_nil]
  | cons hst _ ih =>
    intro ls₀ hs
    rw [List.append_cons]
    exact ih _ (hstep hs hst)

end Runs

end Tarmac
