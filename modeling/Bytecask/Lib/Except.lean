import Mathlib

/-! Loops that may fail, when no step of theirs does. -/

universe u

variable {α β ε : Type*}

lemma Except.of_bind_ok {α β : Type u} {x : Except ε α} {f : α → Except ε β} {b : β} (h : (x >>= f) = .ok b) :
    ∃ a, x = .ok a ∧ f a = .ok b := by
  cases x with
  | error e => cases h
  | ok a => exact ⟨a, rfl, h⟩

lemma Except.of_map_ok {x : Except ε α} {f : α → β} {b : β} (h : x.map f = .ok b) : ∃ a, x = .ok a ∧ f a = b := by
  cases x with
  | error e => cases h
  | ok a => exact ⟨a, rfl, Except.ok.inj h⟩

lemma Except.of_mapError_ok {δ : Type*} {x : Except ε α} {f : ε → δ} {a : α} (h : x.mapError f = .ok a) : x = .ok a := by
  cases x with
  | error e => cases h
  | ok b => exact congrArg _ (Except.ok.inj h)

variable {f : α → Except ε Unit} {l : List α} {b b' : β}

lemma List.mapM_ok_of_forall {R : α → β → Prop} {f : α → Except ε β}
    (h : ∀ x ∈ l, ∃ y, f x = .ok y ∧ R x y) : ∃ ys, l.mapM f = .ok ys ∧ List.Forall₂ R l ys := by
  induction l with
  | nil => exact ⟨[], rfl, List.Forall₂.nil⟩
  | cons x l ih =>
    obtain ⟨y, hy, hr⟩ := h x List.mem_cons_self
    obtain ⟨ys, hys, hrs⟩ := ih (fun z hz => h z (List.mem_cons_of_mem x hz))
    refine ⟨y :: ys, ?_, hrs.cons hr⟩
    rw [List.mapM_cons, hy, hys]
    rfl

lemma List.forall_of_foldlM_ok {P : α → Prop} {f : β → α → Except ε β}
    (hf : ∀ b x b', f b x = .ok b' → P x) (h : l.foldlM f b = .ok b') : ∀ x ∈ l, P x := by
  induction l generalizing b with
  | nil => simp
  | cons x l ih =>
    obtain ⟨b₁, hx, h⟩ := Except.of_bind_ok h
    intro y hy
    rcases List.mem_cons.1 hy with rfl | hy
    · exact hf _ _ _ hx
    · exact ih h y hy

lemma List.forM_eq_ok_iff : l.forM f = .ok () ↔ ∀ x ∈ l, f x = .ok () := by
  induction l with
  | nil => simp [pure, Except.pure]
  | cons x l ih =>
    have hcons : (x :: l).forM f = (f x >>= fun _ => l.forM f) := rfl
    rw [hcons, List.forall_mem_cons, ← ih]
    cases hx : f x with
    | error | ok => simp [bind, Except.bind]

lemma List.mapM_isSome_of_forall {f : α → Option β} (h : ∀ x ∈ l, (f x).isSome) : (l.mapM f).isSome := by
  induction l with
  | nil => rfl
  | cons x l ih =>
    obtain ⟨y, hy⟩ := Option.isSome_iff_exists.1 (h x List.mem_cons_self)
    obtain ⟨ys, hys⟩ := Option.isSome_iff_exists.1 (ih fun z hz => h z (List.mem_cons_of_mem x hz))
    rw [List.mapM_cons, hy, hys]
    rfl

lemma List.getElem?_of_mapM_ok {f : α → Except ε β} {l' : List β} (h : l.mapM f = .ok l') {i : ℕ} {a : α}
    (ha : l[i]? = some a) : ∃ b, l'[i]? = some b ∧ f a = .ok b := by
  induction l generalizing l' i with
  | nil => cases ha
  | cons x l ih =>
    rw [List.mapM_cons] at h
    obtain ⟨y, hx, h⟩ := Except.of_bind_ok h
    obtain ⟨ys, hl, h⟩ := Except.of_bind_ok h
    cases h
    cases i with
    | zero =>
      cases ha
      exact ⟨y, rfl, hx⟩
    | succ i => exact ih hl ha

lemma List.foldlM_invariant {P : β → Prop} {f : β → α → Except ε β} (hf : ∀ b x b', P b → f b x = .ok b' → P b')
    (hb : P b) (h : l.foldlM f b = .ok b') : P b' := by
  induction l generalizing b with
  | nil =>
    cases h
    exact hb
  | cons x l ih =>
    obtain ⟨b₁, hx, h⟩ := Except.of_bind_ok h
    exact ih (hf b x b₁ hb hx) h

lemma List.forM_congr {g : α → Except ε Unit} (h : ∀ x ∈ l, f x = g x) : l.forM f = l.forM g := by
  induction l with
  | nil => rfl
  | cons x l ih =>
    have hcons : ∀ f : α → Except ε Unit, (x :: l).forM f = (f x >>= fun _ => l.forM f) := fun _ => rfl
    rw [hcons, hcons, h x List.mem_cons_self, ih fun y hy => h y (List.mem_cons_of_mem x hy)]

def Except.Agree {γ : Type*} (R : α → γ → Prop) (x : Except ε α) (y : Except ε γ) : Prop :=
  ∃ a b, x = .ok a ∧ y = .ok b ∧ R a b

namespace Except.Agree

variable {α β γ δ : Type u} {R : α → γ → Prop} {S : β → δ → Prop} {x : Except ε α} {y : Except ε γ}

lemma bind (h : Agree R x y) {f : α → Except ε β} {g : γ → Except ε δ} (hfg : ∀ a b, R a b → Agree S (f a) (g b)) :
    Agree S (x >>= f) (y >>= g) := by
  obtain ⟨a, b, rfl, rfl, hab⟩ := h
  exact hfg a b hab

lemma map (h : Agree R x y) {f : α → β} {g : γ → δ} (hfg : ∀ a b, R a b → S (f a) (g b)) : Agree S (x.map f) (y.map g) := by
  obtain ⟨a, b, rfl, rfl, hab⟩ := h
  exact ⟨f a, g b, rfl, rfl, hfg a b hab⟩

lemma foldlM {ι : Type*} {f : α → ι → Except ε α} {g : γ → ι → Except ε γ} {l : List ι}
    (hstep : ∀ a b, ∀ i ∈ l, R a b → Agree R (f a i) (g b i)) {a : α} {b : γ} (h : R a b) :
    Agree R (l.foldlM f a) (l.foldlM g b) := by
  induction l generalizing a b with
  | nil => exact ⟨a, b, rfl, rfl, h⟩
  | cons i l ih =>
    exact Agree.bind (hstep a b i List.mem_cons_self h) fun a b hab =>
      ih (fun a b j hj => hstep a b j (List.mem_cons_of_mem i hj)) hab

end Except.Agree
