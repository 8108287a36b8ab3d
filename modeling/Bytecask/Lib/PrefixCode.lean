import Mathlib

/-! Codes that keep an order and are free of prefixes: two words part at a letter, which decides their order
whatever follows them. -/

namespace PrefixCode

section Below

variable {β : Type*} [LinearOrder β]

def Below (x y : List β) : Prop := ∃ c s t x' y', x = c ++ s :: x' ∧ y = c ++ t :: y' ∧ s < t

variable {x y : List β}

lemma below_cons_of_lt {s t : β} (h : s < t) (x y : List β) : Below (s :: x) (t :: y) := ⟨[], s, t, x, y, rfl, rfl, h⟩

lemma Below.cons (s : β) (h : Below x y) : Below (s :: x) (s :: y) := by
  obtain ⟨c, a, b, x', y', rfl, rfl, hlt⟩ := h
  exact ⟨s :: c, a, b, x', y', rfl, rfl, hlt⟩

lemma Below.append_left (c : List β) (h : Below x y) : Below (c ++ x) (c ++ y) := by
  induction c with
  | nil => exact h
  | cons s c ih => exact ih.cons s

lemma Below.append (h : Below x y) (u v : List β) : Below (x ++ u) (y ++ v) := by
  obtain ⟨c, s, t, x', y', rfl, rfl, hlt⟩ := h
  exact ⟨c, s, t, x' ++ u, y' ++ v, by simp, by simp, hlt⟩

lemma Below.lt (h : Below x y) : x < y := by
  obtain ⟨c, s, t, x', y', rfl, rfl, hlt⟩ := h
  exact List.append_left_lt (List.cons_lt_cons_iff.2 (.inl hlt))

lemma Below.not_isPrefix (h : Below x y) (v : List β) : ¬ x <+: y ++ v ∧ ¬ y <+: x ++ v := by
  obtain ⟨c, s, t, x', y', rfl, rfl, hlt⟩ := h
  constructor
  · rintro ⟨z, hz⟩
    have hst := List.append_cancel_left (by simpa using hz : c ++ (s :: (x' ++ z)) = c ++ (t :: (y' ++ v)))
    exact hlt.ne (List.cons.inj hst).1
  · rintro ⟨z, hz⟩
    have hts := List.append_cancel_left (by simpa using hz : c ++ (t :: (y' ++ z)) = c ++ (s :: (x' ++ v)))
    exact hlt.ne' (List.cons.inj hts).1

lemma below_of_length_eq (hlen : x.length = y.length) (h : x < y) : Below x y := by
  induction x generalizing y with
  | nil =>
    rw [List.length_eq_zero_iff.1 hlen.symm] at h
    exact absurd h (lt_irrefl _)
  | cons s x ih =>
    cases y with
    | nil => cases hlen
    | cons t y =>
      obtain hlt | ⟨rfl, hlt⟩ := List.cons_lt_cons_iff.1 h
      · exact below_cons_of_lt hlt x y
      · exact (ih (Nat.succ.inj hlen) hlt).cons s

lemma Below.map_anti {f : β → β} (hf : StrictAnti f) (h : Below x y) : Below (y.map f) (x.map f) := by
  obtain ⟨c, s, t, x', y', rfl, rfl, hlt⟩ := h
  exact ⟨c.map f, f t, f s, y'.map f, x'.map f, by simp, by simp, hf hlt⟩

def Agrees : Ordering → List β → List β → Prop
  | .lt, x, y => Below x y
  | .eq, x, y => x = y
  | .gt, x, y => Below y x

variable {o o' : Ordering} {u v : List β}

lemma agrees_cmp {α : Type*} [LinearOrder α] {dec : DecidableLT α} {a b : α} {f : α → List β}
    (hlt : a < b → Below (f a) (f b)) (hgt : b < a → Below (f b) (f a)) : Agrees (@cmp α _ dec a b) (f a) (f b) := by
  obtain rfl : dec = LinearOrder.toDecidableLT := Subsingleton.elim _ _
  obtain h | rfl | h := lt_trichotomy a b
  · rw [(cmp_eq_lt_iff a b).2 h]
    exact hlt h
  · rw [cmp_self_eq_eq]
    rfl
  · rw [(cmp_eq_gt_iff a b).2 h]
    exact hgt h

lemma Agrees.then_append (h : Agrees o x y) (h' : Agrees o' u v) : Agrees (o.then o') (x ++ u) (y ++ v) := by
  cases o with
  | lt => exact Below.append h u v
  | eq =>
    obtain rfl : x = y := h
    cases o' with
    | lt | gt => exact Below.append_left x h'
    | eq => exact congrArg _ h'
  | gt => exact Below.append h v u

lemma Agrees.map_anti {f : β → β} (hf : StrictAnti f) (h : Agrees o x y) : Agrees o.swap (x.map f) (y.map f) := by
  cases o with
  | lt | gt => exact Below.map_anti hf h
  | eq => exact congrArg _ h

lemma Agrees.symm (h : Agrees o x y) : Agrees o.swap y x := by
  cases o with
  | lt | gt => exact h
  | eq => exact Eq.symm h

lemma Agrees.lt_iff (h : Agrees o x y) : x < y ↔ o = .lt := by
  cases o with
  | lt => exact ⟨fun _ => rfl, fun _ => Below.lt h⟩
  | eq => exact ⟨fun hlt => absurd hlt (h ▸ lt_irrefl x), fun heq => by cases heq⟩
  | gt => exact ⟨fun hlt => absurd hlt (Below.lt h).not_gt, fun heq => by cases heq⟩

lemma Agrees.eq_iff (h : Agrees o x y) : x = y ↔ o = .eq := by
  cases o with
  | lt | gt => exact ⟨fun heq => absurd (Below.lt h) (heq ▸ lt_irrefl x), fun heq => by cases heq⟩
  | eq => exact ⟨fun _ => rfl, fun _ => h⟩

lemma Agrees.isPrefix_iff (h : Agrees o x y) (v : List β) : x <+: y ++ v ↔ o = .eq := by
  cases o with
  | lt => exact ⟨fun hp => absurd hp (Below.not_isPrefix h v).1, fun heq => by cases heq⟩
  | eq => exact ⟨fun _ => rfl, fun _ => h ▸ List.prefix_append x v⟩
  | gt => exact ⟨fun hp => absurd hp (Below.not_isPrefix h v).2, fun heq => by cases heq⟩

end Below

end PrefixCode
