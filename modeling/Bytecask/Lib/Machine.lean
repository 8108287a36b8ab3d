import Mathlib

/-! Transition systems with guarded actions, and the rule for their invariants. -/

structure Machine (σ α : Type*) where
  initial : σ → Prop
  Enabled : σ → α → Prop
  next : σ → α → σ

namespace Machine

variable {σ α : Type*} (M : Machine σ α)

inductive Reachable : σ → Prop
  | start {s : σ} : M.initial s → Reachable s
  | step {s : σ} (a : α) : Reachable s → M.Enabled s a → Reachable (M.next s a)

inductive Path : σ → List α → σ → Prop
  | nil (s : σ) : Path s [] s
  | cons {s t : σ} (a : α) {as : List α} : M.Enabled s a → Path (M.next s a) as t → Path s (a :: as) t

variable {M} {I : σ → Prop}

lemma Reachable.invariant {s : σ} (h : M.Reachable s) (h₀ : ∀ s, M.initial s → I s)
    (hs : ∀ s a, I s → M.Enabled s a → I (M.next s a)) : I s := by
  induction h with
  | start hi => exact h₀ _ hi
  | step a _ ha ih => exact hs _ a ih ha

lemma Path.reachable {s t : σ} {as : List α} (hp : M.Path s as t) (h : M.Reachable s) : M.Reachable t := by
  induction hp with
  | nil => exact h
  | cons a ha _ ih => exact ih (h.step a ha)

end Machine
