import Mathlib

/-! Ranks in a list: how many of its elements satisfy a predicate that holds of a front part only. -/

section Rank

variable {α : Type*} {p : α → Bool} {l : List α}

lemma countP_eq_of_split {front rest : List α} (hlo : ∀ a ∈ front, p a = true) (hhi : ∀ a ∈ rest, p a = false) :
    (front ++ rest).countP p = front.length := by
  have hrest : rest.countP p = 0 := List.countP_eq_zero.2 fun a ha => by rw [hhi a ha]; decide
  rw [List.countP_append, List.countP_eq_length.2 hlo, hrest, Nat.add_zero]

lemma countP_window {lo hi : ℕ} (hle : lo ≤ hi) (hlen : lo ≤ l.length) (hlo : ∀ a ∈ l.take lo, p a = true)
    (hhi : ∀ a ∈ l.drop hi, p a = false) : l.countP p = lo + ((l.drop lo).take (hi - lo)).countP p := by
  have hafter : (l.drop lo).drop (hi - lo) = l.drop hi := by rw [List.drop_drop, Nat.add_sub_cancel' hle]
  have hzero : (l.drop hi).countP p = 0 := List.countP_eq_zero.2 fun a ha => by rw [hhi a ha]; decide
  calc l.countP p = (l.take lo).countP p + (l.drop lo).countP p := by rw [← List.countP_append, List.take_append_drop]
    _ = lo + (l.drop lo).countP p := by rw [List.countP_eq_length.2 hlo, List.length_take_of_le hlen]
    _ = lo + (((l.drop lo).take (hi - lo)).countP p + ((l.drop lo).drop (hi - lo)).countP p) := by
      rw [← List.countP_append, List.take_append_drop]
    _ = lo + ((l.drop lo).take (hi - lo)).countP p := by rw [hafter, hzero, Nat.add_zero]

variable {r : α → α → Prop}

lemma lt_countP_iff (h : l.Pairwise r) (hp : ∀ a b, r a b → p b = true → p a = true) {i : ℕ} (hi : i < l.length) :
    i < l.countP p ↔ p l[i] = true := by
  induction l generalizing i with
  | nil => simp at hi
  | cons a l ih =>
    obtain ⟨ha, hl⟩ := List.pairwise_cons.1 h
    by_cases hpa : p a = true
    · rw [List.countP_cons_of_pos hpa]
      cases i with
      | zero => simp [hpa]
      | succ i =>
        rw [Nat.add_lt_add_iff_right, List.getElem_cons_succ]
        exact ih hl (by simpa using hi)
    · have hnone : l.countP p = 0 := List.countP_eq_zero.2 fun b hb hpb => hpa (hp a b (ha b hb) hpb)
      rw [List.countP_cons_of_neg hpa, hnone]
      cases i with
      | zero => simp [hpa]
      | succ i =>
        have hi' : i < l.length := by simpa using hi
        have hmem : l[i] ∈ l := List.getElem_mem hi'
        exact ⟨fun h => absurd h (by omega), fun hpb => absurd (hp a _ (ha _ hmem) hpb) hpa⟩

end Rank
