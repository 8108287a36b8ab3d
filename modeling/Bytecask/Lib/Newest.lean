import Mathlib

/-! The newest of a set of stamped records, and how it behaves when records come and go. -/

variable {α : Type*}

def IsNewest (stamp : α → ℕ) (S : Set α) (a : α) : Prop := a ∈ S ∧ ∀ b ∈ S, stamp b ≤ stamp a

namespace IsNewest

variable {stamp : α → ℕ} {S : Set α} {a b : α}

lemma unique (hinj : Set.InjOn stamp S) (ha : IsNewest stamp S a) (hb : IsNewest stamp S b) : a = b :=
  hinj ha.1 hb.1 (le_antisymm (hb.2 a ha.1) (ha.2 b hb.1))

lemma exists_of_finite (stamp : α → ℕ) (hS : S.Finite) (hne : S.Nonempty) : ∃ a, IsNewest stamp S a :=
  Set.exists_max_image S stamp hS hne

end IsNewest
