import Mathlib

/-! A flag that is set while one of many has the token. -/

structure Exclusive {ω : Type*} (flag : Bool) (holds : ω → Bool) : Prop where
  set : flag = true ↔ ∃ i, holds i = true
  unique : ∀ i j, holds i = true → holds j = true → i = j

namespace Exclusive

variable {ω : Type*} {flag flag' : Bool} {holds : ω → Bool}

lemma none : Exclusive false (fun _ : ω => false) := ⟨by simp, nofun⟩

variable [DecidableEq ω]

lemma step (h : Exclusive flag holds) (i : ω) {b : Bool}
    (hmove : (flag' = flag ∧ b = holds i) ∨ (flag = false ∧ flag' = true ∧ b = true) ∨
      (flag' = false ∧ holds i = true ∧ b = false)) : Exclusive flag' (Function.update holds i b) := by
  rcases hmove with ⟨rfl, rfl⟩ | ⟨hfree, rfl, rfl⟩ | ⟨rfl, hi, rfl⟩
  · rw [Function.update_eq_self]
    exact h
  · have hnone : ∀ j, holds j = false := by
      intro j
      rw [Bool.eq_false_iff]
      intro hj
      rw [h.set.2 ⟨j, hj⟩] at hfree
      cases hfree
    have honly : ∀ j, Function.update holds i true j = true → j = i := by
      intro j hj
      by_contra hne
      rw [Function.update_of_ne hne, hnone] at hj
      cases hj
    exact ⟨⟨fun _ => ⟨i, Function.update_self i true holds⟩, fun _ => rfl⟩,
      fun j k hj hk => (honly j hj).trans (honly k hk).symm⟩
  · have hnone : ∀ j, Function.update holds i false j = false := by
      intro j
      by_cases hj : j = i
      · rw [hj, Function.update_self]
      · rw [Function.update_of_ne hj, Bool.eq_false_iff]
        exact fun hjt => hj (h.unique j i hjt hi)
    refine ⟨⟨nofun, ?_⟩, ?_⟩
    · rintro ⟨j, hj⟩
      rw [hnone] at hj
      cases hj
    · intro j k hj
      rw [hnone] at hj
      cases hj

end Exclusive
