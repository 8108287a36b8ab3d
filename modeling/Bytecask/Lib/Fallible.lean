import Mathlib

/-! Weakest preconditions for code that works on a state and may throw. The state a throw leaves
behind is kept, as it is in the language the code was written in. -/

namespace EStateM

universe u

variable {ε σ α β : Type u} {Q : β → σ → Prop} {E : ε → σ → Prop} {s : σ}

def wp (m : EStateM ε σ α) (Q : α → σ → Prop) (E : ε → σ → Prop) (s : σ) : Prop :=
  match m s with
  | .ok a s' => Q a s'
  | .error e s' => E e s'

instance (m : EStateM ε σ α) (Q : α → σ → Prop) (E : ε → σ → Prop) (s : σ) [∀ a s', Decidable (Q a s')]
    [∀ e s', Decidable (E e s')] : Decidable (m.wp Q E s) :=
  match h : m s with
  | .ok a s' => decidable_of_iff (Q a s') (by rw [wp, h])
  | .error e s' => decidable_of_iff (E e s') (by rw [wp, h])

lemma ok_of_wp {m : EStateM ε σ α} {Q : α → σ → Prop} {s : σ} (h : m.wp Q (fun _ _ => False) s) :
    ∃ a s', m s = .ok a s' ∧ Q a s' := by
  unfold wp at h
  split at h
  · next a s' heq => exact ⟨a, s', heq, h⟩
  · exact h.elim

lemma wp_true (m : EStateM ε σ α) (s : σ) : m.wp (fun _ _ => True) (fun _ _ => True) s := by
  rw [wp]
  split <;> trivial

lemma wp_mono {m : EStateM ε σ α} {Q Q' : α → σ → Prop} {E E' : ε → σ → Prop} {s : σ} (h : m.wp Q E s)
    (hQ : ∀ a s', Q a s' → Q' a s') (hE : ∀ e s', E e s' → E' e s') : m.wp Q' E' s := by
  unfold wp at h ⊢
  split <;> rename_i heq <;> rw [heq] at h
  · exact hQ _ _ h
  · exact hE _ _ h

lemma wp_and {m : EStateM ε σ α} {Q Q' : α → σ → Prop} {E E' : ε → σ → Prop} {s : σ} (h : m.wp Q E s)
    (h' : m.wp Q' E' s) : m.wp (fun a s' => Q a s' ∧ Q' a s') (fun e s' => E e s' ∧ E' e s') s := by
  unfold wp at h h' ⊢
  split <;> rename_i heq <;> rw [heq] at h h' <;> exact ⟨h, h'⟩

@[simp] lemma wp_pure (b : β) : wp (pure b : EStateM ε σ β) Q E s ↔ Q b s := Iff.rfl

@[simp] lemma wp_throw (e : ε) : wp (throw e : EStateM ε σ β) Q E s ↔ E e s := Iff.rfl

@[simp] lemma wp_get {Q : σ → σ → Prop} : wp (get : EStateM ε σ σ) Q E s ↔ Q s s := Iff.rfl

@[simp] lemma wp_set {ε σ : Type} {Q : PUnit → σ → Prop} {E : ε → σ → Prop} {s : σ} (s' : σ) :
    wp (set s' : EStateM ε σ PUnit) Q E s ↔ Q ⟨⟩ s' := Iff.rfl

@[simp] lemma wp_modify {ε σ : Type} {Q : PUnit → σ → Prop} {E : ε → σ → Prop} {s : σ} (f : σ → σ) :
    wp (modify f : EStateM ε σ PUnit) Q E s ↔ Q ⟨⟩ (f s) := Iff.rfl

@[simp] lemma wp_bind (m : EStateM ε σ α) (f : α → EStateM ε σ β) :
    wp (m >>= f) Q E s ↔ m.wp (fun a s' => (f a).wp Q E s') E s := by
  simp only [wp, bind, EStateM.bind]
  cases m s <;> exact Iff.rfl

@[simp] lemma wp_tryCatch (m : EStateM ε σ β) (h : ε → EStateM ε σ β) :
    wp (tryCatch m h) Q E s ↔ m.wp Q (fun e s' => (h e).wp Q E s') s := by
  simp only [wp, tryCatch, tryCatchThe, MonadExceptOf.tryCatch, EStateM.tryCatch]
  cases m s <;> exact Iff.rfl

lemma wp_ite (c : Prop) [Decidable c] (m n : EStateM ε σ β) :
    wp (if c then m else n) Q E s ↔ (c → m.wp Q E s) ∧ (¬ c → n.wp Q E s) := by
  by_cases h : c <;> simp [h]

end EStateM
